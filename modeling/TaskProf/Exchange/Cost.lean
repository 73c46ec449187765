import TaskProf.Collection.Programs
import TaskProf.Exchange.Pipeline

/-!
# The cost of a program

The profile of a fork-join program has its cost, however it was run.

* `trees_time`, `trees_cycles`: the tree of a text has its time and its cycles.
* `RecordedTree.cost`: the analysis computes over the log what is computed over the
  tree.
* `profile_of_text`: the profile of every run of a program has the work and the
  time of its text.
-/

namespace TaskProf.Collection

/-! ## The cost of a tree -/

/-- The time of a node: its ASYNC children run beside the others. -/
def nodeTime : NodeLabel → List (NodeLabel × ℕ) → ℕ
  | x, [] => x.work.toNat
  | _, c :: cs =>
    Shape.elapse 0 0 ((c :: cs).map fun c => (decide (c.1.nodeType = .async), c.2))

/-- The cycles of a node: those of a STEP and of the children. -/
def nodeCycles (x : NodeLabel) (cs : List (NodeLabel × ℕ)) : ℕ :=
  (if x.nodeType = .step then x.work.toNat else 0) + (cs.map Prod.snd).sum

/-- The children of a node as the clock sees them. -/
def timesOf (ts : List (Tree NodeLabel)) : List (Bool × ℕ) :=
  (Tree.foldAll nodeTime ts).map fun c => (decide (c.1.nodeType = .async), c.2)

def cyclesIn (ts : List (Tree NodeLabel)) : ℕ := ((Tree.foldAll nodeCycles ts).map Prod.snd).sum

/-- The time of trees, one after the other. -/
def timeOf (clock pending : ℕ) (ts : List (Tree NodeLabel)) : ℕ :=
  Shape.elapse clock pending (timesOf ts)

section Trees

variable {ts us : List (Tree NodeLabel)} {address w : SizeT} {clock pending : ℕ}

@[simp]
theorem timeOf_nil : timeOf clock pending [] = max clock pending := rfl

@[simp]
theorem timeOf_step : timeOf clock pending (stepTree w :: us) =
    timeOf (clock + w.toNat) pending us := rfl

theorem timeOf_async (h : ts ≠ []) : timeOf clock pending (asyncTree address ts :: us) =
    timeOf clock (max pending (clock + timeOf 0 0 ts)) us := by
  cases ts with
  | nil => exact absurd rfl h
  | cons t ts => rfl

theorem timeOf_finish (h : ts ≠ []) : timeOf clock pending (finishTree address ts :: us) =
    timeOf (clock + timeOf 0 0 ts) pending us := by
  cases ts with
  | nil => exact absurd rfl h
  | cons t ts => rfl

@[simp]
theorem cyclesIn_nil : cyclesIn [] = 0 := rfl

@[simp]
theorem cyclesIn_step : cyclesIn (stepTree w :: us) = w.toNat + cyclesIn us := rfl

@[simp]
theorem cyclesIn_async : cyclesIn (asyncTree address ts :: us) = cyclesIn ts + cyclesIn us := by
  show 0 + cyclesIn ts + cyclesIn us = _
  rw [Nat.zero_add]

@[simp]
theorem cyclesIn_finish :
    cyclesIn (finishTree address ts :: us) = cyclesIn ts + cyclesIn us := by
  show 0 + cyclesIn ts + cyclesIn us = _
  rw [Nat.zero_add]

end Trees

/-- The first child that is due is a STEP. -/
theorem trees_ne_nil {o : Bool} (b : Body o) (w : SizeT) : (b.trees o w).1 ≠ [] := by
  induction b generalizing w with
  | work v c ih => exact ih (w + v)
  | @spawn o _ _ _ _ _ | @spawnWait o _ _ _ _ _ =>
    cases o <;> exact List.cons_ne_nil _ _
  | _ => exact List.cons_ne_nil _ _

theorem toNat_add_of_lt {w v : SizeT} (h : w.toNat + v.toNat < 2 ^ 64) :
    (w + v).toNat = w.toNat + v.toNat := by
  rw [BitVec.toNat_add]
  exact Nat.mod_eq_of_lt h

/-- The clock that goes over the children to come, when `w` cycles have been counted,
    shows the time of the code. In a block the first children are those of the implicit
    finish, which began at the time `start`. -/
def Timed : (o : Bool) → Body o → Prop
  | false, b => ∀ (w : SizeT) (clock : ℕ), w.toNat + b.cycles false < 2 ^ 64 →
      timeOf clock 0 (b.trees false w).1 = b.time false (clock + w.toNat) 0
  | true, b => ∀ (w : SizeT) (start clock pending : ℕ), w.toNat + b.cycles true < 2 ^ 64 →
      timeOf (start + timeOf clock pending (b.trees true w).1) 0 (b.trees true w).2 =
        b.time true (start + clock + w.toNat) (start + pending)

/-- The clock right after a call. -/
theorem Timed.closed {c : Body false} (h : Timed false c) (hc : c.cycles false < 2 ^ 64)
    (clock : ℕ) : timeOf clock 0 (c.trees false 0).1 = c.time false clock 0 := by
  have h0 : (0 : SizeT).toNat = 0 := rfl
  rw [h 0 clock (by omega), h0, Nat.add_zero]

theorem Timed.opened {c : Body true} (h : Timed true c) (hc : c.cycles true < 2 ^ 64)
    (start clock pending : ℕ) :
    timeOf (start + timeOf clock pending (c.trees true 0).1) 0 (c.trees true 0).2 =
      c.time true (start + clock) (start + pending) := by
  have h0 : (0 : SizeT).toNat = 0 := rfl
  rw [h 0 start clock pending (by omega), h0, Nat.add_zero]

/-- The children of a task take the time of its text. -/
theorem trees_time {o : Bool} (b : Body o) : Timed o b := by
  induction b with
  | @ret o =>
    cases o with
    | false =>
      intro w clock _
      rfl
    | true =>
      intro w start clock pending _
      show max (start + max (clock + w.toNat) pending) 0 = max _ _
      omega
  | @work o v c ih =>
    cases o with
    | false =>
      intro w clock hw
      have hlt : w.toNat + (v.toNat + c.cycles false) < 2 ^ 64 := hw
      have hadd := toNat_add_of_lt (w := w) (v := v) (by omega)
      show timeOf clock 0 (c.trees false (w + v)).1 = c.time false (clock + w.toNat + v.toNat) 0
      rw [ih (w + v) clock (by omega), hadd, Nat.add_assoc]
    | true =>
      intro w start clock pending hw
      have hlt : w.toNat + (v.toNat + c.cycles true) < 2 ^ 64 := hw
      have hadd := toNat_add_of_lt (w := w) (v := v) (by omega)
      show timeOf (start + timeOf clock pending (c.trees true (w + v)).1) 0
        (c.trees true (w + v)).2 = c.time true (start + clock + w.toNat + v.toNat) _
      rw [ih (w + v) start clock pending (by omega), hadd, Nat.add_assoc (start + clock)]
  | root site b c ihb ihc =>
    intro w clock hw
    have hlt : w.toNat + (b.cycles false + c.cycles false) < 2 ^ 64 := hw
    show timeOf clock 0 (stepTree w :: finishTree site.address (b.trees false 0).1 ::
      (c.trees false 0).1) = c.time false (clock + w.toNat + b.time false 0 0) 0
    rw [timeOf_step, timeOf_finish (trees_ne_nil b 0), ihb.closed (by omega)]
    exact ihc.closed (by omega) _
  | @spawn o site b c ihb ihc =>
    cases o with
    | false =>
      intro w clock hw
      have hlt : w.toNat + (b.cycles false + c.cycles true) < 2 ^ 64 := hw
      show timeOf clock 0 (stepTree w :: finishTree 0 (asyncTree (Sys.spawnSite site).address
        (b.trees false 0).1 :: (c.trees true 0).1) :: (c.trees true 0).2) =
          c.time true (clock + w.toNat) (max 0 (clock + w.toNat + b.time false 0 0))
      rw [timeOf_step, timeOf_finish (List.cons_ne_nil _ _), timeOf_async (trees_ne_nil b 0),
        ihb.closed (by omega), ihc.opened (by omega)]
      congr 1
      omega
    | true =>
      intro w start clock pending hw
      have hlt : w.toNat + (b.cycles false + c.cycles true) < 2 ^ 64 := hw
      show timeOf (start + timeOf clock pending (stepTree w ::
        asyncTree (Sys.spawnSite site).address (b.trees false 0).1 :: (c.trees true 0).1)) 0
          (c.trees true 0).2 = c.time true (start + clock + w.toNat)
            (max (start + pending) (start + clock + w.toNat + b.time false 0 0))
      rw [timeOf_step, timeOf_async (trees_ne_nil b 0), ihb.closed (by omega),
        ihc.opened (by omega)]
      congr 1 <;> omega
  | wait c ih =>
    intro w start clock pending hw
    have hlt : w.toNat + c.cycles false < 2 ^ 64 := hw
    show timeOf (start + max (clock + w.toNat) pending) 0 (c.trees false 0).1 =
      c.time false (max (start + clock + w.toNat) (start + pending)) 0
    rw [ih.closed (by omega)]
    congr 1
    omega
  | @spawnWait o site b c ihb ihc =>
    cases o with
    | false =>
      intro w clock hw
      have hlt : w.toNat + (b.cycles false + c.cycles false) < 2 ^ 64 := hw
      show timeOf clock 0 (stepTree w :: finishTree 0 [asyncTree site.address
        (b.trees false 0).1] :: (c.trees false 0).1) =
          c.time false (max (clock + w.toNat) (max 0 (clock + w.toNat + b.time false 0 0))) 0
      rw [timeOf_step, timeOf_finish (List.cons_ne_nil _ _), timeOf_async (trees_ne_nil b 0),
        ihb.closed (by omega), timeOf_nil, ihc.closed (by omega)]
      congr 1
      omega
    | true =>
      intro w start clock pending hw
      have hlt : w.toNat + (b.cycles false + c.cycles false) < 2 ^ 64 := hw
      show timeOf (start + timeOf clock pending (stepTree w ::
        [asyncTree site.address (b.trees false 0).1])) 0 (c.trees false 0).1 =
          c.time false (max (start + clock + w.toNat)
            (max (start + pending) (start + clock + w.toNat + b.time false 0 0))) 0
      rw [timeOf_step, timeOf_async (trees_ne_nil b 0), ihb.closed (by omega), timeOf_nil,
        ihc.closed (by omega)]
      congr 1
      omega

/-- Outside of a block nothing is due after the block. -/
theorem trees_closed {o : Bool} (b : Body o) (w : SizeT) (ho : o = false) :
    (b.trees o w).2 = [] := by
  induction b generalizing w with
  | work v c ih => exact ih (w + v) ho
  | wait c => cases ho
  | @spawn o _ _ _ _ _ | @spawnWait o _ _ _ _ _ =>
    subst ho
    rfl
  | _ => rfl

/-- The children of a task have the cycles of its text. -/
theorem trees_cycles {o : Bool} (b : Body o) (w : SizeT) (hw : w.toNat + b.cycles o < 2 ^ 64) :
    cyclesIn (b.trees o w).1 + cyclesIn (b.trees o w).2 = w.toNat + b.cycles o := by
  have h0 : (0 : SizeT).toNat = 0 := rfl
  -- a closed body, right after a call
  have hclosed : ∀ {c : Body false}, (cyclesIn (c.trees false 0).1 +
      cyclesIn (c.trees false 0).2 = (0 : SizeT).toNat + c.cycles false) →
        cyclesIn (c.trees false 0).1 = c.cycles false := by
    intro c h
    rw [trees_closed c 0 rfl, cyclesIn_nil, h0] at h
    omega
  induction b generalizing w with
  | ret => rfl
  | @work o v c ih =>
    have hlt : w.toNat + (v.toNat + c.cycles o) < 2 ^ 64 := hw
    have hadd := toNat_add_of_lt (w := w) (v := v) (by omega)
    show cyclesIn (c.trees o (w + v)).1 + cyclesIn (c.trees o (w + v)).2 =
      w.toNat + (v.toNat + c.cycles o)
    rw [ih (w + v) (by omega), hadd, Nat.add_assoc]
  | root site b c ihb ihc =>
    have hlt : w.toNat + (b.cycles false + c.cycles false) < 2 ^ 64 := hw
    have hb := hclosed (ihb 0 (by omega))
    have hc := hclosed (ihc 0 (by omega))
    show cyclesIn (stepTree w :: finishTree site.address (b.trees false 0).1 ::
      (c.trees false 0).1) + cyclesIn [] = w.toNat + (b.cycles false + c.cycles false)
    rw [cyclesIn_step, cyclesIn_finish, cyclesIn_nil]
    omega
  | @spawn o site b c ihb ihc =>
    have hlt : w.toNat + (b.cycles false + c.cycles true) < 2 ^ 64 := hw
    have hb := hclosed (ihb 0 (by omega))
    have hc := ihc 0 (by omega)
    cases o with
    | false =>
      show cyclesIn (stepTree w :: finishTree 0 (asyncTree (Sys.spawnSite site).address
        (b.trees false 0).1 :: (c.trees true 0).1) :: (c.trees true 0).2) + cyclesIn [] =
          w.toNat + (b.cycles false + c.cycles true)
      rw [cyclesIn_step, cyclesIn_finish, cyclesIn_async, cyclesIn_nil]
      omega
    | true =>
      show cyclesIn (stepTree w :: asyncTree (Sys.spawnSite site).address
        (b.trees false 0).1 :: (c.trees true 0).1) + cyclesIn (c.trees true 0).2 =
          w.toNat + (b.cycles false + c.cycles true)
      rw [cyclesIn_step, cyclesIn_async]
      omega
  | wait c ih =>
    have hlt : w.toNat + c.cycles false < 2 ^ 64 := hw
    have hc := hclosed (ih 0 (by omega))
    show cyclesIn [stepTree w] + cyclesIn (c.trees false 0).1 = w.toNat + c.cycles false
    rw [cyclesIn_step, cyclesIn_nil]
    omega
  | @spawnWait o site b c ihb ihc =>
    have hlt : w.toNat + (b.cycles false + c.cycles false) < 2 ^ 64 := hw
    have hb := hclosed (ihb 0 (by omega))
    have hc := hclosed (ihc 0 (by omega))
    cases o with
    | false =>
      show cyclesIn (stepTree w :: finishTree 0 [asyncTree site.address (b.trees false 0).1] ::
        (c.trees false 0).1) + cyclesIn [] = w.toNat + (b.cycles false + c.cycles false)
      rw [cyclesIn_step, cyclesIn_finish, cyclesIn_async, cyclesIn_nil]
      omega
    | true =>
      show cyclesIn [stepTree w, asyncTree site.address (b.trees false 0).1] +
        cyclesIn (c.trees false 0).1 = w.toNat + (b.cycles false + c.cycles false)
      rw [cyclesIn_step, cyclesIn_async, cyclesIn_nil]
      omega

/-- The time and the cycles of the tree of a text. -/
theorem textTree_cost {main : Body false} (hwork : main.cycles false < 2 ^ 64) :
    (textTree main).fold nodeTime = main.time false 0 0 ∧
      (textTree main).fold nodeCycles = main.cycles false := by
  have h0 : (0 : SizeT).toNat = 0 := rfl
  constructor
  · rw [← (trees_time main).closed hwork 0]
    have hne := trees_ne_nil main 0
    unfold textTree
    cases hts : (main.trees false 0).1 with
    | nil => exact absurd hts hne
    | cons t ts => rfl
  · have h := trees_cycles main 0 (by omega)
    rw [trees_closed main 0 rfl, cyclesIn_nil, h0] at h
    show 0 + cyclesIn (main.trees false 0).1 = _
    omega

/-- The log of a finished run reads as the tree of the text. -/
theorem Sys.Run.reads {main : Body false} {s : Sys Code} {es : List (Event Code)}
    (h : Sys.Run Follows (.init ⟨false, main⟩) es s) (hf : s.finished = true) :
    ∃ r ∈ s.graph.logged, r.parent = 0 ∧ Reads treeShape s.graph.logged (textTree main) r := by
  have hreach := h.reachable
  have hsorted := hreach.ordered.sorted
  rcases h.progress with ⟨fut, hp⟩ | ⟨-, fut, hfut, r, hr, h0, hc⟩
  · obtain ⟨r, hr, h0, hc⟩ := hp.tree
    exact ⟨r, hr, h0, reads_of_completes hsorted hc (hp.fut_eq_nil hreach.orderly hf)⟩
  · exact ⟨r, hr, h0, reads_of_completes hsorted hc hfut⟩

end TaskProf.Collection

namespace TaskProf.Analysis

open Collection (LogEntry NodeLabel treeShape nodeTime nodeCycles)

/-! ## The cost of a recorded tree -/

section Recorded

variable {log : List LogEntry} {n : ℕ} {callSiteMap : SizeT → Option CallSiteData}
  {e : LogEntry}

/-- The children of a node, in the order of their ids. -/
theorem RecordedTree.childrenById (h : RecordedTree log n)
    (callSiteMap : SizeT → Option CallSiteData) (i : ℕ) :
    ((treeShape.childrenById log i).map LogEntry.nodeId).Pairwise (· < ·) ∧
      ((treeShape.childrenById log i).map LogEntry.nodeId).toFinset =
        (recordedGraph log callSiteMap).shape.children i := by
  have hperm : (treeShape.childrenById log i).Perm (treeShape.children log i) :=
    List.mergeSort_perm _ _
  constructor
  · have hle : (treeShape.childrenById log i).Pairwise fun c d => c.nodeId ≤ d.nodeId := by
      have hsorted : (treeShape.childrenById log i).Pairwise fun c d =>
          decide (c.nodeId ≤ d.nodeId) = true :=
        List.pairwise_mergeSort (by simp; omega) (by simp; omega) (treeShape.children log i)
      exact hsorted.imp fun hcd => of_decide_eq_true hcd
    have hnodup : ((treeShape.childrenById log i).map LogEntry.nodeId).Nodup := by
      apply (hperm.map LogEntry.nodeId).nodup_iff.mpr
      exact (List.filter_sublist.map LogEntry.nodeId).nodup h.nodup
    rw [List.pairwise_map]
    exact hle.imp₂ (fun _ _ h1 h2 => lt_of_le_of_ne h1 h2) (List.pairwise_map.mp hnodup)
  · ext c
    rw [h.mem_children, List.mem_toFinset, List.mem_map]
    constructor
    · rintro ⟨d, hd, hc⟩
      obtain ⟨hd, hp⟩ := EntryShape.mem_children.mp (hperm.mem_iff.mp hd)
      exact ⟨d, hd, hc, hp⟩
    · rintro ⟨d, hd, hc, hp⟩
      exact ⟨d, hperm.mem_iff.mpr (EntryShape.mem_children.mpr ⟨hd, hp⟩), hc⟩

/-- The critical path of a node, from those of its children. -/
theorem RecordedTree.crit_eq (h : RecordedTree log n)
    (hG : TypedGraph (recordedGraph log callSiteMap)) (he : e ∈ log) :
    crit (recordedGraph log callSiteMap) e.nodeId = nodeTime (treeShape.label e)
      ((treeShape.childrenById log e.nodeId).map fun c =>
        (treeShape.label c, crit (recordedGraph log callSiteMap) c.nodeId)) := by
  obtain ⟨hsorted, hset⟩ := h.childrenById callSiteMap e.nodeId
  have hmem : ∀ c ∈ treeShape.childrenById log e.nodeId, c ∈ log := fun c hc =>
    (EntryShape.mem_children.mp (List.mem_mergeSort.mp hc)).1
  cases hl : treeShape.childrenById log e.nodeId with
  | nil =>
    rw [hl] at hset
    have hleaf : (recordedGraph log callSiteMap).shape.children e.nodeId = ∅ := hset.symm
    have hstep := (hG.step_iff (h.node_iff.mpr ⟨e, he, rfl⟩)).mpr hleaf
    rw [crit, if_pos hleaf, AFTaskGraph.stepWork, if_pos hstep, h.node_eq he]
    rw [h.node_eq he] at hstep
    dsimp only at hstep ⊢
    rw [if_pos hstep]
    rfl
  | cons c cs =>
    rw [hl] at hsorted hset hmem
    rw [hG.isCritical.elapse hsorted hset (by simp), List.map_map]
    show Shape.elapse 0 0 _ = Shape.elapse 0 0 (((c :: cs).map fun c =>
      (treeShape.label c, crit (recordedGraph log callSiteMap) c.nodeId)).map _)
    rw [List.map_map]
    congr 1
    apply List.map_congr_left
    intro d hd
    show (decide (((recordedGraph log callSiteMap).tgraphNodes d.nodeId).type = .async), _) = _
    rw [h.node_eq (hmem d hd)]
    rfl

/-- The work below a node, from the work below its children. -/
theorem RecordedTree.subtreeWork_eq (h : RecordedTree log n) (he : e ∈ log) :
    (recordedGraph log callSiteMap).subtreeWork e.nodeId = nodeCycles (treeShape.label e)
      ((treeShape.childrenById log e.nodeId).map fun c =>
        (treeShape.label c, (recordedGraph log callSiteMap).subtreeWork c.nodeId)) := by
  obtain ⟨hsorted, hset⟩ := h.childrenById callSiteMap e.nodeId
  rw [AFTaskGraph.subtreeWork_eq h.wellFormed (h.node_iff.mpr ⟨e, he, rfl⟩), ← hset,
    List.sum_toFinset _ (hsorted.imp fun hlt => hlt.ne), List.map_map]
  unfold nodeCycles
  rw [List.map_map]
  congr 1
  rw [AFTaskGraph.stepWork, h.node_eq he]
  show (if e.nodeType = .step then (if e.nodeType = .step then e.work else 0).toNat else 0) =
    if e.nodeType = .step then e.work.toNat else 0
  by_cases ht : e.nodeType = .step
  · rw [if_pos ht, if_pos ht, if_pos ht]
  · rw [if_neg ht, if_neg ht]

/-- The analysis computes over the log what is computed over its tree. -/
theorem RecordedTree.cost (h : RecordedTree log n)
    (callSiteMap : SizeT → Option CallSiteData) {T : Tree NodeLabel} (he : e ∈ log)
    (h0 : e.parent = 0) (hT : Reads treeShape log T e) :
    loggedWork log = T.fold nodeCycles ∧
      (TypedGraph (recordedGraph log callSiteMap) →
        crit (recordedGraph log callSiteMap) 1 = T.fold nodeTime) := by
  have h1 : e.nodeId = 1 := (h.root e he).mp h0
  constructor
  · have hfold := hT.fold_eq (F := nodeCycles)
      (f := (recordedGraph log callSiteMap).subtreeWork) he fun d hd => h.subtreeWork_eq hd
    rw [← hfold, show treeShape.id e = 1 from h1,
      AFTaskGraph.subtreeWork_root h.wellFormed, h.totalWork_eq]
  · intro hG
    have hfold := hT.fold_eq (F := nodeTime) (f := crit (recordedGraph log callSiteMap)) he
      fun d hd => h.crit_eq hG hd
    rw [← hfold, show treeShape.id e = 1 from h1]

end Recorded

/-! ## The profile of a program -/

open Collection (Body Code Follows TaskLogger Iterates Short logCalls dumpCallsiteInfo)

variable {main : Body false} {s s' : Collection.Sys Code} {es : List (Collection.Event Code)}
  {entries : List (SizeT × CallSiteData)}

/-- **From a text to its profile.** Take any fork-join program whose file names have no
    comma and that works fewer than `2 ^ 64` cycles. In whatever order its tasks are run,
    on any number of threads but one callback at a time, if no thread fills its row of the
    logger, then the profile of the run is that of the text: its work is the cycles of the
    text, and its span the time that the text takes when every task runs as soon as it is
    spawned. -/
theorem profile_of_text
    (h : Collection.Sys.Run Follows (.init ⟨false, main⟩) es s)
    (hend : Follows s .fini) (hf : s.Step .fini s')
    (hsites : main.AllSites Collection.Site.Simple false) (hwork : main.cycles false < 2 ^ 64)
    (hshort : Short s.graph.logged) (hit : Iterates s'.graph.callSiteMap entries) :
    ∃ (d : LogEntry) (L : TaskLogger) (G : AFTaskGraph) (m : CallSiteMap),
      TaskLogger.init.run (logCalls s.graph.logged) = .ok L ∧
      s'.graph.logged = s.graph.logged ++ [d] ∧ createDpst (folderOf (L.fini d.args)) = .ok G ∧
      loadCallSites [] (some (dumpCallsiteInfo entries)) = .ok m ∧
      ∀ regionMap, ∃ st report,
        generateProfile { G with callSiteMap := fun a => m.lookup a } regionMap =
          .ok (st, report) ∧
        report.totalWork.toNat = main.cycles false ∧ report.main.work.toNat = main.cycles false ∧
        report.main.span.toNat = main.time false 0 0 := by
  have hrun' := h.snoc hend hf
  have hfin : s'.finished = true := by
    obtain ⟨a, curNode, stk, -, -, -, -, rfl⟩ := Collection.Sys.step_fini hf
    rfl
  have htree := recordedTree_of_run h.reachable hf hshort
  obtain ⟨d, L, m, hlog, hrun, hcreate, hm, hresolved⟩ :=
    rebuilt_of_run (h.simpleCalls hsites) hf hshort hit
  -- the log is the tree of the text
  obtain ⟨r, hr, h0, hreads⟩ := hrun'.reads hfin
  obtain ⟨htime, hcycles⟩ := Collection.textTree_cost hwork
  obtain ⟨hlogged, hcrit⟩ := htree.cost (fun a => m.lookup a) hr h0 hreads
  rw [hcycles] at hlogged
  refine ⟨d, L, _, m, hrun, hlog, hcreate, hm, fun regionMap => ?_⟩
  obtain ⟨st, report, hgen, htotal, hmain, hspan⟩ :=
    htree.generateProfile hresolved (hlogged ▸ hwork) regionMap
  rw [hcrit (htree.typedGraph hresolved (hlogged ▸ hwork)), htime] at hspan
  rw [hlogged] at htotal hmain
  exact ⟨st, report, hgen, htotal, hmain, hspan⟩

open Collection.Sys (oneBlock onTwoThreads)

theorem oneBlock_sites : oneBlock.AllSites Collection.Site.Simple false := by
  refine ⟨⟨⟨by norm_num, fun file hf => ?_⟩, fun file hf => ?_⟩, trivial, trivial⟩
  all_goals
    obtain rfl := Option.some.inj hf
    decide

theorem chosen_finish {e : Collection.Event Code}
    (h : Collection.Sys.chosen s .finish = some e) : e = .fini := by
  simp only [Collection.Sys.chosen] at h
  split at h
  · split at h
    · exact (Option.some.inj h).symm
    · cases h
  · cases h

/-- A schedule after which `main` has ended is a finished run. -/
theorem exists_run_of_schedule {cs : List Collection.Sys.Choice} {k : ℕ}
    (hall : ((Collection.Sys.schedule (.init ⟨false, main⟩) cs).bind
      fun s => (s.exec (fun _ _ => true) [.fini]).map fun _ =>
        (s.graph.logged.length, (Collection.Sys.chosen s .finish).isSome)) = some (k, true))
    (hk : k < 1024) (hsites : main.AllSites Collection.Site.Simple false) :
    ∃ s s' es entries, Collection.Sys.Run Follows (.init ⟨false, main⟩) es s ∧ Follows s .fini ∧
      s.Step .fini s' ∧ Short s.graph.logged ∧ Iterates s'.graph.callSiteMap entries := by
  obtain ⟨s, hs, hlast⟩ := Option.bind_eq_some_iff.mp hall
  obtain ⟨s', hs', hnum⟩ := Option.map_eq_some_iff.mp hlast
  obtain ⟨hlen, hchosen⟩ := Prod.mk.inj hnum
  obtain ⟨e, he⟩ := Option.isSome_iff_exists.mp hchosen
  have hend : Follows s .fini := by
    obtain rfl := chosen_finish he
    exact Collection.Sys.chosen_follows he
  have hf := Collection.Sys.step_of_exec hs'
  obtain ⟨es, hrun⟩ := Collection.Sys.run_of_schedule hs
  have hshort : Short s.graph.logged := by
    intro t
    have := List.length_filter_le (fun e => decide (e.threadid = t)) s.graph.logged
    unfold Collection.numEntries
    omega
  obtain ⟨ops, hops, -⟩ := ((hrun.snoc hend hf).simpleCalls hsites).operations
  obtain ⟨entries, hit⟩ := Collection.exists_iterates hops
  exact ⟨s, s', es, entries, hrun, hend, hf, hshort, hit⟩

theorem oneBlock_scheduled : ((Collection.Sys.schedule (.init ⟨false, oneBlock⟩)
    onTwoThreads.dropLast).bind fun s => (s.exec (fun _ _ => true) [.fini]).map fun _ =>
      (s.graph.logged.length, (Collection.Sys.chosen s .finish).isSome)) = some (6, true) := by
  decide

/-- `oneBlock` works 14 cycles in the time 12: the task of 5 cycles runs beside 2 others. -/
theorem onTwoThreads_profile : ∃ (d : LogEntry) (L : TaskLogger) (G : AFTaskGraph)
    (m : CallSiteMap) (st : Profile) (report : Report),
      createDpst (folderOf (L.fini d.args)) = .ok G ∧
      generateProfile { G with callSiteMap := fun a => m.lookup a } [] = .ok (st, report) ∧
      report.main.work.toNat = 14 ∧ report.main.span.toNat = 12 := by
  obtain ⟨s, s', es, entries, hrun, hend, hf, hshort, hit⟩ :=
    exists_run_of_schedule oneBlock_scheduled (by decide) oneBlock_sites
  obtain ⟨d, L, G, m, -, -, hcreate, -, hgen⟩ :=
    profile_of_text hrun hend hf oneBlock_sites (by decide) hshort hit
  obtain ⟨st, report, hreport, -, hwork, hspan⟩ := hgen []
  exact ⟨d, L, G, m, st, report, hcreate, hreport, hwork, hspan⟩

end TaskProf.Analysis
