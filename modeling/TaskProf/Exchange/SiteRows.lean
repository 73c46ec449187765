import TaskProf.Analysis.Sites
import TaskProf.Exchange.Cost

/-!
# The rows of a program

The rows of the call sites, like those of the whole program, are those of the text,
however it is run.

* `Body.invocations`: the calls of the text that count for their site. A call is left
  out if a task on its way has the call site of its parent, or if it is such a task
  itself; this is what the walk of `checkRecursiveCall` looks for.
* `textTree_invocations`: the tree of a text has its invocations.
* `rows_of_text`: in the profile of every run of a program, the rows of the call sites
  add up the invocations of the text.
-/

namespace TaskProf.Collection

/-! ## The invocations of a text -/

/-- A task that counts for its call site: the cycles that it and the tasks below it
    work, and its time. -/
structure Invocation where
  site : SizeT
  cycles : ℕ
  time : ℕ
  deriving DecidableEq

/-- The task started at a call site. It counts if it has a site and is not `nested`. -/
def startedAt (site : SizeT) (nested : Bool) (cycles time : ℕ) : List Invocation :=
  if site ≠ 0 ∧ nested = false then [⟨site, cycles, time⟩] else []

/-- The invocations of a text, below a task that was started at the call site `parent`.
    `nested` tells that this task or one above it has the call site of its own parent.
    The tasks of a fork block stand below a node without a call site. -/
def Body.invocations : (o : Bool) → Body o → (parent : SizeT) → (nested : Bool) → List Invocation
  | _, .ret, _, _ => []
  | o, .work _ c, parent, nested => c.invocations o parent nested
  | _, .root site b c, parent, nested =>
    startedAt site.address (nested || decide (parent = site.address)) (b.cycles false)
        (b.time false 0 0) ++
      b.invocations false site.address (nested || decide (parent = site.address)) ++
      c.invocations false parent nested
  | _, .spawn site b c, parent, nested =>
    startedAt (Sys.spawnSite site).address
        (nested || decide (parent = 0) || decide (0 = (Sys.spawnSite site).address))
        (b.cycles false) (b.time false 0 0) ++
      b.invocations false (Sys.spawnSite site).address
        (nested || decide (parent = 0) || decide (0 = (Sys.spawnSite site).address)) ++
      c.invocations true parent nested
  | _, .wait c, parent, nested => c.invocations false parent nested
  | _, .spawnWait site b c, parent, nested =>
    startedAt site.address (nested || decide (parent = 0) || decide (0 = site.address))
        (b.cycles false) (b.time false 0 0) ++
      b.invocations false site.address
        (nested || decide (parent = 0) || decide (0 = site.address)) ++
      c.invocations false parent nested

/-! ## The invocations of a tree -/

/-- What a node hands down: some node above or the child itself has the call site of its
    parent. -/
def nestedBelow (nested : Bool) (x y : NodeLabel) : Bool :=
  nested || decide (x.retAddr = y.retAddr)

/-- The invocation of a node. -/
def invocationOf (nested : Bool) (t : Tree NodeLabel) : Multiset Invocation :=
  startedAt t.label.retAddr nested (t.fold nodeCycles) (t.fold nodeTime)

/-- The invocations of trees below a node. -/
def invocationsBelow (nested : Bool) (x : NodeLabel) (ts : List (Tree NodeLabel)) :
    Multiset Invocation :=
  Tree.tallyAll nestedBelow invocationOf nested x ts

section Below

variable {nested : Bool} {x : NodeLabel} {ts us : List (Tree NodeLabel)} {address w : SizeT}

@[simp]
theorem invocationsBelow_nil : invocationsBelow nested x [] = 0 := rfl

@[simp]
theorem invocationsBelow_step :
    invocationsBelow nested x (stepTree w :: us) = invocationsBelow nested x us := by
  show startedAt 0 _ _ _ + 0 + invocationsBelow nested x us = _
  rw [startedAt, if_neg (by simp)]
  simp

/-- The cost of a node with children. -/
theorem fold_inner {y : NodeLabel} (hy : y.nodeType ≠ .step) (h : ts ≠ []) :
    (Tree.node y ts).fold nodeCycles = cyclesIn ts ∧
      (Tree.node y ts).fold nodeTime = timeOf 0 0 ts := by
  constructor
  · show (if y.nodeType = .step then _ else 0) + _ = _
    rw [if_neg hy, Nat.zero_add]
    rfl
  · cases ts with
    | nil => exact absurd rfl h
    | cons t ts => rfl

/-- A node with children adds itself, and what is below it. -/
theorem invocationsBelow_inner {y : NodeLabel} (hy : y.nodeType ≠ .step) (h : ts ≠ []) :
    invocationsBelow nested x (.node y ts :: us) =
      ↑(startedAt y.retAddr (nestedBelow nested x y) (cyclesIn ts) (timeOf 0 0 ts)) +
        invocationsBelow (nestedBelow nested x y) y ts + invocationsBelow nested x us := by
  obtain ⟨hcycles, htime⟩ := fold_inner hy h
  rw [← hcycles, ← htime]
  rfl

end Below

/-- The trees of a closed body have its invocations, and so have those of a block with
    what comes after it. -/
def Invoked : (o : Bool) → Body o → Prop
  | false, b => ∀ (w : SizeT) (nested : Bool) (x : NodeLabel), w.toNat + b.cycles false < 2 ^ 64 →
      invocationsBelow nested x (b.trees false w).1 = b.invocations false x.retAddr nested
  | true, b => ∀ (w : SizeT) (nested : Bool) (x : NodeLabel), w.toNat + b.cycles true < 2 ^ 64 →
      invocationsBelow (nested || decide (x.retAddr = 0)) ⟨.finish, 0, 0⟩ (b.trees true w).1 +
        invocationsBelow nested x (b.trees true w).2 = b.invocations true x.retAddr nested

theorem Invoked.closed {c : Body false} (h : Invoked false c) (hc : c.cycles false < 2 ^ 64)
    (nested : Bool) (x : NodeLabel) :
    invocationsBelow nested x (c.trees false 0).1 = c.invocations false x.retAddr nested := by
  have h0 : (0 : SizeT).toNat = 0 := rfl
  exact h 0 nested x (by omega)

theorem Invoked.opened {c : Body true} (h : Invoked true c) (hc : c.cycles true < 2 ^ 64)
    (nested : Bool) (x : NodeLabel) :
    invocationsBelow (nested || decide (x.retAddr = 0)) ⟨.finish, 0, 0⟩ (c.trees true 0).1 +
      invocationsBelow nested x (c.trees true 0).2 = c.invocations true x.retAddr nested := by
  have h0 : (0 : SizeT).toNat = 0 := rfl
  exact h 0 nested x (by omega)

/-- The children of a closed body have its cost. -/
theorem closed_cost {b : Body false} (hb : b.cycles false < 2 ^ 64) :
    cyclesIn (b.trees false 0).1 = b.cycles false ∧
      timeOf 0 0 (b.trees false 0).1 = b.time false 0 0 := by
  have h0 : (0 : SizeT).toNat = 0 := rfl
  have h := trees_cycles b 0 (by omega)
  rw [trees_closed b 0 rfl, cyclesIn_nil, h0] at h
  exact ⟨by omega, (trees_time b).closed hb 0⟩

/-- The node of a task: the task itself, and what it invokes. -/
theorem invocationsBelow_task {b : Body false} (h : Invoked false b) (hb : b.cycles false < 2 ^ 64)
    {y : NodeLabel} (hy : y.nodeType ≠ .step) (nested : Bool) (x : NodeLabel)
    (us : List (Tree NodeLabel)) :
    invocationsBelow nested x (.node y (b.trees false 0).1 :: us) =
      ↑(startedAt y.retAddr (nestedBelow nested x y) (b.cycles false) (b.time false 0 0) ++
        b.invocations false y.retAddr (nestedBelow nested x y)) + invocationsBelow nested x us := by
  obtain ⟨hcycles, htime⟩ := closed_cost hb
  rw [invocationsBelow_inner hy (trees_ne_nil b 0), hcycles, htime, h.closed hb, Multiset.coe_add]

/-- The node of a fork block has no call site. -/
theorem invocationsBelow_block {ts us : List (Tree NodeLabel)} (h : ts ≠ []) (nested : Bool)
    (x : NodeLabel) : invocationsBelow nested x (finishTree 0 ts :: us) =
      invocationsBelow (nested || decide (x.retAddr = 0)) ⟨.finish, 0, 0⟩ ts +
        invocationsBelow nested x us := by
  have hnone : ∀ c t, startedAt (0 : SizeT) (nestedBelow nested x ⟨.finish, 0, 0⟩) c t = [] := by
    intro c t
    rw [startedAt, if_neg (by simp)]
  show invocationsBelow nested x (.node ⟨.finish, 0, 0⟩ ts :: us) = _
  rw [invocationsBelow_inner (by decide) h, hnone]
  show 0 + _ + _ = _
  rw [zero_add]
  rfl

/-- The children of a task have the invocations of its text. -/
theorem trees_invoked {o : Bool} (b : Body o) : Invoked o b := by
  induction b with
  | @ret o =>
    cases o with
    | false =>
      intro w nested x _
      show invocationsBelow nested x [stepTree w] = _
      rw [invocationsBelow_step]
      rfl
    | true =>
      intro w nested x _
      show invocationsBelow _ _ [stepTree w] + invocationsBelow nested x [] = _
      rw [invocationsBelow_step]
      rfl
  | @work o v c ih =>
    cases o with
    | false =>
      intro w nested x hw
      have hlt : w.toNat + (v.toNat + c.cycles false) < 2 ^ 64 := hw
      have hadd := toNat_add_of_lt (w := w) (v := v) (by omega)
      exact ih (w + v) nested x (by omega)
    | true =>
      intro w nested x hw
      have hlt : w.toNat + (v.toNat + c.cycles true) < 2 ^ 64 := hw
      have hadd := toNat_add_of_lt (w := w) (v := v) (by omega)
      exact ih (w + v) nested x (by omega)
  | root site b c ihb ihc =>
    intro w nested x hw
    have hlt : w.toNat + (b.cycles false + c.cycles false) < 2 ^ 64 := hw
    show invocationsBelow nested x (stepTree w :: .node ⟨.finish, site.address, 0⟩
      (b.trees false 0).1 :: (c.trees false 0).1) = _
    rw [invocationsBelow_step, invocationsBelow_task ihb (by omega) (by simp),
      ihc.closed (by omega), Multiset.coe_add]
    rfl
  | @spawn o site b c ihb ihc =>
    cases o with
    | false =>
      intro w nested x hw
      have hlt : w.toNat + (b.cycles false + c.cycles true) < 2 ^ 64 := hw
      show invocationsBelow nested x (stepTree w :: finishTree 0
        (.node ⟨.async, (Sys.spawnSite site).address, 0⟩ (b.trees false 0).1 ::
          (c.trees true 0).1) :: (c.trees true 0).2) = _
      rw [invocationsBelow_step, invocationsBelow_block (List.cons_ne_nil _ _),
        invocationsBelow_task ihb (by omega) (by simp), add_assoc, ihc.opened (by omega),
        Multiset.coe_add]
      rfl
    | true =>
      intro w nested x hw
      have hlt : w.toNat + (b.cycles false + c.cycles true) < 2 ^ 64 := hw
      show invocationsBelow _ _ (stepTree w ::
        .node ⟨.async, (Sys.spawnSite site).address, 0⟩ (b.trees false 0).1 ::
          (c.trees true 0).1) + invocationsBelow nested x (c.trees true 0).2 = _
      rw [invocationsBelow_step, invocationsBelow_task ihb (by omega) (by simp), add_assoc,
        ihc.opened (by omega), Multiset.coe_add]
      rfl
  | wait c ih =>
    intro w nested x hw
    have hlt : w.toNat + c.cycles false < 2 ^ 64 := hw
    show invocationsBelow _ _ [stepTree w] + invocationsBelow nested x (c.trees false 0).1 = _
    rw [invocationsBelow_step, invocationsBelow_nil, zero_add, ih.closed (by omega)]
    rfl
  | @spawnWait o site b c ihb ihc =>
    cases o with
    | false =>
      intro w nested x hw
      have hlt : w.toNat + (b.cycles false + c.cycles false) < 2 ^ 64 := hw
      show invocationsBelow nested x (stepTree w :: finishTree 0
        [.node ⟨.async, site.address, 0⟩ (b.trees false 0).1] :: (c.trees false 0).1) = _
      rw [invocationsBelow_step, invocationsBelow_block (List.cons_ne_nil _ _),
        invocationsBelow_task ihb (by omega) (by simp), invocationsBelow_nil, add_zero,
        ihc.closed (by omega), Multiset.coe_add]
      rfl
    | true =>
      intro w nested x hw
      have hlt : w.toNat + (b.cycles false + c.cycles false) < 2 ^ 64 := hw
      show invocationsBelow _ _ [stepTree w, .node ⟨.async, site.address, 0⟩
        (b.trees false 0).1] + invocationsBelow nested x (c.trees false 0).1 = _
      rw [invocationsBelow_step, invocationsBelow_task ihb (by omega) (by simp),
        invocationsBelow_nil, add_zero, ihc.closed (by omega), Multiset.coe_add]
      rfl

/-- The invocations of the tree of a text. -/
theorem textTree_invocations {main : Body false} (hwork : main.cycles false < 2 ^ 64) :
    (textTree main).tally nestedBelow invocationOf false = main.invocations false 0 false := by
  rw [← (trees_invoked main).closed hwork false ⟨.finish, 0, 0⟩]
  show ↑(startedAt 0 _ _ _) + invocationsBelow false ⟨.finish, 0, 0⟩ (main.trees false 0).1 = _
  rw [startedAt, if_neg (by simp)]
  exact zero_add _

end TaskProf.Collection

namespace TaskProf.Analysis

open Collection (LogEntry NodeLabel treeShape nodeTime nodeCycles Invocation startedAt nestedBelow
  invocationOf)

/-! ## The invocations of a graph -/

/-- The answer of `recursiveCall`. -/
def nestedAt (G : AFTaskGraph) (n : ℕ) : Bool := (recursiveCall G n).toOption.getD false

/-- The invocation of a node. -/
noncomputable def AFTaskGraph.invocation (G : AFTaskGraph) (n : ℕ) : Invocation :=
  ⟨(G.tgraphNodes n).callSite, G.subtreeWork n, crit G n⟩

/-- The nodes that count. -/
noncomputable def AFTaskGraph.invocations (G : AFTaskGraph) : Multiset Invocation :=
  {n ∈ Finset.Icc 1 G.lastAllocatedNode | Counted G n}.val.map G.invocation

section Graph

variable {G : AFTaskGraph} {n c : ℕ}

theorem nestedAt_iff (h : G.shape.WellFormed) (hn : G.shape.Node n) :
    nestedAt G n = true ↔ ∃ x, G.shape.Anc x n ∧ G.SameAsParent x := by
  obtain ⟨b, hb⟩ := recursiveCall_ok h hn
  rw [← recursiveCall_iff h hn, nestedAt, hb, Except.ok.injEq]
  rfl

theorem counted_iff_nestedAt (h : G.shape.WellFormed) (hn : G.shape.Node n) :
    Counted G n ↔ (G.tgraphNodes n).callSite ≠ 0 ∧ nestedAt G n = false := by
  obtain ⟨b, hb⟩ := recursiveCall_ok h hn
  rw [Counted, nestedAt, hb, Except.ok.injEq]
  rfl

/-- A node that counts, as the text has it. -/
theorem startedAt_eq (h : G.shape.WellFormed) (hn : G.shape.Node n) :
    (startedAt (G.tgraphNodes n).callSite (nestedAt G n) (G.subtreeWork n) (crit G n) :
      Multiset Invocation) = if Counted G n then {G.invocation n} else 0 := by
  have hiff := counted_iff_nestedAt h hn
  unfold startedAt
  by_cases hc : Counted G n
  · rw [if_pos hc, if_pos (hiff.mp hc)]
    rfl
  · rw [if_neg hc, if_neg fun hs => hc (hiff.mpr hs)]
    rfl

/-- The head has no parent. -/
theorem nestedAt_root (h : G.shape.WellFormed) : nestedAt G 1 = false := by
  rw [← Bool.not_eq_true, nestedAt_iff h h.root_node]
  rintro ⟨x, hx, hnode, hne, -⟩
  have := hx.le h
  have := hnode.1
  omega

/-- A child is nested if its parent is, or if it has the call site of its parent. -/
theorem nestedAt_child (h : G.shape.WellFormed) (hn : G.shape.Node n)
    (hc : c ∈ G.shape.children n) : nestedAt G c = (nestedAt G n ||
      decide ((G.tgraphNodes n).callSite = (G.tgraphNodes c).callSite)) := by
  obtain ⟨hnode, hp⟩ := Shape.mem_children.mp hc
  have hp : (G.tgraphNodes c).parent = n := hp
  have hlt := (h.lt_of_mem_children hc).1
  have h1 : c ≠ 1 := by
    have := hn.1
    omega
  rw [Bool.eq_iff_iff, Bool.or_eq_true, decide_eq_true_iff, nestedAt_iff h hnode,
    nestedAt_iff h hn]
  constructor
  · rintro ⟨x, hx, hs⟩
    by_cases hxc : c = x
    · obtain ⟨-, -, hs⟩ := hs
      rw [← hxc, hp] at hs
      exact .inr hs
    · refine .inl ⟨x, ?_, hs⟩
      have := hx.parent hxc
      rwa [AFTaskGraph.shape_parent, hp] at this
  · rintro (⟨x, hx, hs⟩ | hs)
    · exact ⟨x, hx.trans (Shape.anc_of_mem_children hc), hs⟩
    · exact ⟨c, .refl c, hnode, h1, by rw [hp, hs]⟩

/-- The nodes that are counted for a call site. -/
theorem filter_invocations (h : G.shape.WellFormed) (s : SizeT) :
    G.invocations.filter (fun i => i.site = s) =
      (countedIn G G.shape.schedule s).val.map G.invocation := by
  have hset : countedIn G G.shape.schedule s =
      {n ∈ {n ∈ Finset.Icc 1 G.lastAllocatedNode | Counted G n} |
        (G.tgraphNodes n).callSite = s} := by
    rw [countedIn, Finset.filter_filter]
    apply Finset.filter_congr
    intro n hn
    have hmem : Event.finalise n ∈ G.shape.schedule :=
      (Shape.mem_schedule h).mpr (Finset.mem_Icc.mp hn)
    simp only [hmem, true_and]
  rw [hset, Finset.filter_val, AFTaskGraph.invocations, Multiset.filter_map]
  rfl

/-- What the invocations of a call site add up to. -/
def siteTotal (l : Multiset Invocation) : WorkSpanData where
  work := BitVec.ofNat 64 (l.map Invocation.cycles).sum
  span := BitVec.ofNat 64 (l.map Invocation.time).sum
  callCount := BitVec.ofNat 64 l.card

theorem ofNat_sum {s : Finset ℕ} {f : ℕ → SizeT} {g : ℕ → ℕ} (h : ∀ n ∈ s, (f n).toNat = g n) :
    ∑ n ∈ s, f n = BitVec.ofNat 64 (∑ n ∈ s, g n) := by
  have hcast : ∀ n ∈ s, f n = (g n : SizeT) := fun n hn => by
    rw [← h n hn]
    exact ((BitVec.ofNat_toNat 64 (f n)).trans (BitVec.setWidth_eq _)).symm
  rw [Finset.sum_congr rfl hcast, ← Nat.cast_sum]
  rfl

/-- The pass leaves for every call site what its invocations add up to. -/
theorem TypedGraph.workSpanMap_eq (h : TypedGraph G)
    (hstep : ∀ n, G.shape.Node n → (G.tgraphNodes n).type = .step → (G.tgraphNodes n).callSite = 0) :
    ∃ st, calculateRecurse G (.init G) = .ok st ∧ ∀ s, st.workSpanMap.lookup s =
      if G.invocations.filter (fun i => i.site = s) = 0 then none
      else some (siteTotal (G.invocations.filter fun i => i.site = s)) := by
  have hw := h.shape
  obtain ⟨st, -, -, hrun, ht, -⟩ := calculateRecurseCalls_tracks h.toRunnable
  obtain ⟨st', hrun', hres⟩ := h.calculateRecurse_result
  obtain rfl : st = st' := Except.ok.inj (hrun.symm.trans hrun')
  refine ⟨st, hrun, fun s => ?_⟩
  have hcounted : ∀ n ∈ countedIn G G.shape.schedule s,
      ((ledgerAfter G G.shape.schedule).accounts n).criticalChild.toNat = crit G n ∧
        ((ledgerAfter G G.shape.schedule).accounts n).work.toNat = G.subtreeWork n := by
    intro n hn
    obtain ⟨hn, -, hc, -⟩ := Finset.mem_filter.mp hn
    have hn := Finset.mem_Icc.mp hn
    rw [← ht.tracks.work, ← ht.tracks.criticalChild]
    exact hres n hn fun hty => hc.1 (hstep n hn hty)
  rw [ht.workSpanMap, lookup_ledgerAfter h.toRunnable List.prefix_rfl, filter_invocations hw]
  congr 1
  · rw [Multiset.map_eq_zero, Finset.val_eq_zero]
  · congr 1
    rw [siteTotal, Multiset.map_map, Multiset.map_map, Multiset.card_map]
    unfold siteData
    rw [ofNat_sum fun n hn => (hcounted n hn).2, ofNat_sum fun n hn => (hcounted n hn).1]
    rfl

/-- The row of an entry. -/
theorem reportRow_eq_ok {st : Profile} {e : SizeT × WorkSpanData} {row : ReportRow}
    (h : reportRow G st e = .ok row) : ∃ d, G.callSiteMap e.1 = some d ∧
      row.csFilename = d.csFilename ∧ row.csLineNumber = d.csLineNumber ∧
      row.work = e.2.work ∧ row.span = e.2.span := by
  unfold reportRow at h
  obtain ⟨d, hd, h⟩ := bind_eq_ok.mp h
  obtain ⟨m, -, h⟩ := bind_eq_ok.mp h
  rw [← Except.ok.inj h]
  refine ⟨d, ?_, rfl, rfl, rfl, rfl⟩
  unfold AFTaskGraph.getSourceFileAndLine at hd
  cases hs : G.callSiteMap e.1 with
  | none => simp [hs] at hd
  | some d' =>
    rw [hs] at hd
    rw [← Except.ok.inj hd]

/-- The rows of the call sites come from the entries of `workSpanMap`. -/
theorem generateProfile_rows {regionMap : List (SizeT × CallSiteData)} {st : Profile}
    {report : Report} (h : generateProfile G regionMap = .ok (st, report)) :
    ∃ st₁, calculateRecurse G (.init G) = .ok st₁ ∧
      List.Forall₂ (fun e row => reportRow G st₁ e = .ok row) st₁.workSpanMap.entries
        report.rows := by
  unfold generateProfile at h
  obtain ⟨st₁, h1, h⟩ := bind_eq_ok.mp h
  obtain ⟨rows, hrows, h⟩ := bind_eq_ok.mp h
  obtain ⟨t, -, h⟩ := bind_eq_ok.mp h
  obtain ⟨-, rfl⟩ := Prod.mk.inj (Except.ok.inj h)
  exact ⟨st₁, h1, forall₂_of_mapM hrows⟩

end Graph

/-! ## The invocations of a recorded tree -/

section Recorded

variable {log : List LogEntry} {n : ℕ} {callSiteMap : SizeT → Option CallSiteData}
  {e : LogEntry}

/-- The invocations that are read off the graph are those of the tree of the log. -/
theorem RecordedTree.invocations (h : RecordedTree log n)
    (hG : TypedGraph (recordedGraph log callSiteMap)) {T : Tree NodeLabel} (he : e ∈ log)
    (h0 : e.parent = 0) (hT : Reads treeShape log T e) :
    (recordedGraph log callSiteMap).invocations = T.tally nestedBelow invocationOf false := by
  set G := recordedGraph log callSiteMap with hset
  have hw : G.shape.WellFormed := h.wellFormed
  have hnode : ∀ d ∈ log, G.shape.Node d.nodeId := fun d hd => h.node_iff.mpr ⟨d, hd, rfl⟩
  have hsite : ∀ d ∈ log, (G.tgraphNodes d.nodeId).callSite = d.retAddr := fun d hd => by
    rw [hset, h.node_eq hd]
  have hkids : ∀ d, ∀ c ∈ treeShape.childrenById log d, c ∈ log ∧ c.parent = d := fun d c hc =>
    EntryShape.mem_children.mp (List.mem_mergeSort.mp hc)
  set own : ℕ → Multiset Invocation := fun i =>
    startedAt (G.tgraphNodes i).callSite (nestedAt G i) (G.subtreeWork i) (crit G i) with hown
  set total : ℕ → Multiset Invocation := fun i => ∑ x ∈ G.shape.subtree i, own x with htotal
  -- a child gets what its parent hands down
  have hdown : ∀ d ∈ log, ∀ c ∈ treeShape.childrenById log (treeShape.id d),
      nestedAt G (treeShape.id c) =
        nestedBelow (nestedAt G (treeShape.id d)) (treeShape.label d) (treeShape.label c) := by
    intro d hd c hc
    obtain ⟨hc, hp⟩ := hkids _ c hc
    have hchild : c.nodeId ∈ G.shape.children d.nodeId := h.mem_children.mpr ⟨c, hc, rfl, hp⟩
    have heq := nestedAt_child hw (hnode d hd) hchild
    rw [hsite d hd, hsite c hc] at heq
    exact heq
  -- the work and the span of a node are those of its tree
  have hnodeOwn : ∀ d ∈ log, ∀ t, Reads treeShape log t d →
      own (treeShape.id d) = invocationOf (nestedAt G (treeShape.id d)) t := by
    intro d hd t ht
    have hcycles := ht.fold_eq (F := nodeCycles) (f := G.subtreeWork) hd fun d hd =>
      h.subtreeWork_eq hd
    have htime := ht.fold_eq (F := nodeTime) (f := crit G) hd fun d hd => h.crit_eq hG hd
    show (startedAt (G.tgraphNodes d.nodeId).callSite _ _ _ : Multiset Invocation) =
      startedAt t.label.retAddr _ _ _
    rw [hsite d hd, ht.label_eq, ← hcycles, ← htime]
    rfl
  have hsum : ∀ d ∈ log, total (treeShape.id d) = own (treeShape.id d) +
      ((treeShape.childrenById log (treeShape.id d)).map fun c => total (treeShape.id c)).sum := by
    intro d hd
    obtain ⟨hsorted, hset⟩ := h.childrenById callSiteMap d.nodeId
    show ∑ x ∈ G.shape.subtree d.nodeId, own x = _
    rw [Shape.sum_subtree hw own (hnode d hd), ← hset,
      List.sum_toFinset _ (hsorted.imp fun hlt => hlt.ne), List.map_map]
    rfl
  have htally : total (treeShape.id e) =
      T.tally nestedBelow invocationOf (nestedAt G (treeShape.id e)) :=
    hT.tally_eq he hdown hnodeOwn hsum
  have hroot : treeShape.id e = 1 := (h.root e he).mp h0
  simp only [hroot, nestedAt_root hw, htotal, Shape.subtree_root hw] at htally
  have hif : ∀ x ∈ Finset.Icc 1 G.shape.size,
      own x = if Counted G x then {G.invocation x} else 0 := fun x hx =>
    startedAt_eq hw (Finset.mem_Icc.mp hx)
  rw [← htally, Finset.sum_congr rfl hif, ← Finset.sum_filter, AFTaskGraph.invocations,
    ← Multiset.sum_map_singleton (Multiset.map _ _), Multiset.map_map]
  rfl

/-- The row of a call site adds up its invocations. -/
structure SiteRow (invocations : List Invocation) (entries : List (SizeT × CallSiteData))
    (s : SizeT) (row : ReportRow) : Prop where
  source : ∃ d, (s, d) ∈ entries ∧ row.csFilename = d.csFilename ∧
    row.csLineNumber = d.csLineNumber
  work : row.work =
    BitVec.ofNat 64 ((invocations.filter fun i => i.site = s).map Invocation.cycles).sum
  span : row.span =
    BitVec.ofNat 64 ((invocations.filter fun i => i.site = s).map Invocation.time).sum

/-- The rows of a recorded tree. -/
theorem RecordedTree.rows (h : RecordedTree log n)
    (hG : TypedGraph (recordedGraph log callSiteMap))
    (hstep : ∀ e ∈ log, e.nodeType = .step → e.retAddr = 0) {l : List Invocation}
    (hl : (recordedGraph log callSiteMap).invocations = l)
    {entries : List (SizeT × CallSiteData)} (hmap : ∀ e ∈ entries, callSiteMap e.1 = some e.2)
    (hsites : ∀ e ∈ log, e.retAddr ≠ 0 → ∃ d, (e.retAddr, d) ∈ entries)
    {regionMap : List (SizeT × CallSiteData)} {st : Profile} {report : Report}
    (hgen : Analysis.generateProfile (recordedGraph log callSiteMap) regionMap =
      .ok (st, report)) :
    ∃ sites : List SizeT, sites.Nodup ∧ (∀ s, s ∈ sites ↔ ∃ i ∈ l, i.site = s) ∧
      List.Forall₂ (SiteRow l entries) sites report.rows := by
  obtain ⟨st₁, h1, hrows⟩ := generateProfile_rows hgen
  obtain ⟨st₂, h2, hws⟩ := hG.workSpanMap_eq fun i hi hty => by
    obtain ⟨e, he, rfl⟩ := h.node_iff.mp hi
    rw [h.node_eq he] at hty ⊢
    exact hstep e he hty
  obtain rfl : st₁ = st₂ := Except.ok.inj (h1.symm.trans h2)
  rw [hl] at hws
  have hfilter : ∀ s, (l : Multiset Invocation).filter (fun i => i.site = s) =
      (l.filter fun i => i.site = s : List Invocation) := fun s => Multiset.filter_coe _ _
  have hzero : ∀ s, (l : Multiset Invocation).filter (fun i => i.site = s) = 0 ↔
      ¬ ∃ i ∈ l, i.site = s := by
    intro s
    rw [Multiset.filter_eq_nil]
    simp
  refine ⟨st₁.workSpanMap.entries.map Prod.fst, st₁.workSpanMap.nodup, fun s => ?_, ?_⟩
  · have hnone : st₁.workSpanMap.lookup s = none ↔ ¬ ∃ i ∈ l, i.site = s := by
      rw [hws s]
      split_ifs with h0
      · exact iff_of_true rfl ((hzero s).mp h0)
      · exact iff_of_false id fun hne => h0 ((hzero s).mpr hne)
    rw [← not_iff_not, ← hnone]
    exact AccMap.find_eq_none.symm
  · rw [List.forall₂_map_left_iff]
    have hmem : ∀ e ∈ st₁.workSpanMap.entries, e ∈ st₁.workSpanMap.entries := fun _ he => he
    refine ((List.forall₂_and_left ..).mpr ⟨hmem, hrows⟩).imp ?_
    rintro ⟨s, data⟩ row ⟨he, hrow⟩
    have hlookup := st₁.workSpanMap.lookup_of_mem he
    obtain ⟨d, hd, hfile, hline, hwork, hspan⟩ := reportRow_eq_ok hrow
    rw [hws s] at hlookup
    split_ifs at hlookup with h0
    obtain rfl := Option.some.inj hlookup
    refine ⟨?_, ?_, ?_⟩
    · -- some node has the site
      obtain ⟨i, hi, his⟩ := not_not.mp fun hne => h0 ((hzero s).mpr hne)
      have hi : i ∈ (recordedGraph log callSiteMap).invocations := by
        rw [hl]
        exact hi
      obtain ⟨x, hx, rfl⟩ := Multiset.mem_map.mp hi
      obtain ⟨hx, hcounted⟩ := Finset.mem_filter.mp (Finset.mem_val.mp hx)
      obtain ⟨e, he, rfl⟩ := h.node_iff.mp (Finset.mem_Icc.mp hx)
      have hsite : e.retAddr = s := by
        rw [← his]
        exact (congrArg AFTask.callSite (h.node_eq he)).symm
      have hne : e.retAddr ≠ 0 := by
        have := hcounted.1
        rwa [h.node_eq he] at this
      obtain ⟨d', hd'⟩ := hsites e he hne
      rw [hsite] at hd'
      obtain rfl : d' = d := Option.some.inj ((hmap _ hd').symm.trans hd)
      exact ⟨d', hd', hfile, hline⟩
    · rw [hwork, hfilter]
      rfl
    · rw [hspan, hfilter]
      rfl

end Recorded

/-! ## The rows of a program -/

open Collection (Body Code Follows TaskLogger Iterates Short logCalls dumpCallsiteInfo)

variable {main : Body false} {s s' : Collection.Sys Code} {es : List (Collection.Event Code)}
  {entries : List (SizeT × CallSiteData)}

/-- **The rows of the call sites.** Take any fork-join program whose file names have no
    comma and that works fewer than `2 ^ 64` cycles. In whatever order its tasks are run,
    one callback at a time, if no thread fills its row of the logger, `GenerateProfile`
    reports one row for every call site with an invocation in the text, and no other row:
    the file and the line that the site was recorded with, and the cycles and the times of
    its invocations, added up in 64 bits. No schedule changes a row. -/
theorem rows_of_text (h : Collection.Sys.Run Follows (.init ⟨false, main⟩) es s)
    (hend : Follows s .fini) (hf : s.Step .fini s')
    (hsites : main.AllSites Collection.Site.Simple false) (hwork : main.cycles false < 2 ^ 64)
    (hshort : Short s.graph.logged) (hit : Iterates s'.graph.callSiteMap entries) :
    ∃ (d : LogEntry) (L : TaskLogger) (G : AFTaskGraph) (m : CallSiteMap),
      TaskLogger.init.run (logCalls s.graph.logged) = .ok L ∧
      s'.graph.logged = s.graph.logged ++ [d] ∧ createDpst (folderOf (L.fini d.args)) = .ok G ∧
      loadCallSites [] (some (dumpCallsiteInfo entries)) = .ok m ∧
      ∀ regionMap, ∃ st report,
        generateProfile { G with callSiteMap := fun a => m.lookup a } regionMap =
          .ok (st, report) ∧
        ∃ sites : List SizeT, sites.Nodup ∧
          (∀ a, a ∈ sites ↔ ∃ i ∈ main.invocations false 0 false, i.site = a) ∧
          List.Forall₂ (SiteRow (main.invocations false 0 false) entries) sites report.rows := by
  have hrun' := h.snoc hend hf
  have hsimple' := hrun'.simpleCalls hsites
  have hfin : s'.finished = true := by
    obtain ⟨a, curNode, stk, -, -, -, -, rfl⟩ := Collection.Sys.step_fini hf
    rfl
  have htree := recordedTree_of_run h.reachable hf hshort
  obtain ⟨d, L, m, hlog, hrun, hcreate, hm, hresolved⟩ :=
    rebuilt_of_run (h.simpleCalls hsites) hf hshort hit
  -- the log is the tree of the text
  obtain ⟨r, hr, h0, hreads⟩ := hrun'.reads hfin
  have hlogged : loggedWork s'.graph.logged < 2 ^ 64 := by
    rw [(htree.cost (fun a => m.lookup a) hr h0 hreads).1, (Collection.textTree_cost hwork).2]
    exact hwork
  have hG := htree.typedGraph hresolved hlogged
  have hl := htree.invocations hG hr h0 hreads
  rw [Collection.textTree_invocations hwork] at hl
  -- the map of call sites has the entries of the file
  obtain ⟨m', hm', hmap⟩ := entries_of_run hsimple' hit
  obtain rfl : m = m' := Except.ok.inj (hm.symm.trans hm')
  obtain ⟨ops, hops, -⟩ := hsimple'.operations
  refine ⟨d, L, _, m, hrun, hlog, hcreate, hm, fun regionMap => ?_⟩
  obtain ⟨st, report, hgen, -⟩ := htree.generateProfile hresolved hlogged regionMap
  exact ⟨st, report, hgen, htree.rows hG (Collection.run_stepSite hops) hl hmap
    (exists_entry_of_run hsimple' hit) hgen⟩

open Collection.Sys (Choice)

/-- `main` starts a task and waits for it; the task spawns another. -/
def twoCalls : Body false :=
  .root ⟨32, some ['a'], 3, false⟩
    (.work 1 (.spawn ⟨64, some ['a'], 7, false⟩ (.work 5 .ret) (.work 2 (.wait .ret))))
    (.work 4 .ret)

/-- The second task runs on thread 1. -/
def twoCallsSchedule : List Choice :=
  [.advance 0, .advance 0, .start 0 1, .advance 0, .advance 0, .advance 0, .start 1 2, .advance 0,
    .advance 1, .advance 0, .advance 1, .advance 1, .advance 0, .advance 0, .advance 0, .advance 0,
    .advance 0]

theorem twoCalls_sites : twoCalls.AllSites Collection.Site.Simple false := by
  refine ⟨⟨⟨by norm_num, fun file hf => ?_⟩, fun file hf => ?_⟩,
    ⟨⟨⟨by norm_num, fun file hf => ?_⟩, fun file hf => ?_⟩, trivial, trivial⟩, trivial⟩
  all_goals
    obtain rfl := Option.some.inj hf
    decide

theorem twoCalls_scheduled : ((Collection.Sys.schedule (.init ⟨false, twoCalls⟩)
    twoCallsSchedule).bind fun s => (s.exec (fun _ _ => true) [.fini]).map fun _ =>
      (s.graph.logged.length, (Collection.Sys.chosen s .finish).isSome)) = some (9, true) := by
  decide

/-- The rows of `twoCalls`: the first task works 8 cycles in the time 6, and the second 5. -/
theorem twoCalls_rows : ∃ (d : LogEntry) (L : TaskLogger) (G : AFTaskGraph) (m : CallSiteMap)
    (st : Profile) (report : Report) (entries : List (SizeT × CallSiteData)) (sites : List SizeT),
      createDpst (folderOf (L.fini d.args)) = .ok G ∧
      generateProfile { G with callSiteMap := fun a => m.lookup a } [] = .ok (st, report) ∧
      sites.Nodup ∧ (∀ a, a ∈ sites ↔ a = 32 ∨ a = 64) ∧
      List.Forall₂ (SiteRow [⟨32, 8, 6⟩, ⟨64, 5, 5⟩] entries) sites report.rows := by
  obtain ⟨s, s', es, entries, hrun, hend, hf, hshort, hit⟩ :=
    exists_run_of_schedule twoCalls_scheduled (by decide) twoCalls_sites
  obtain ⟨d, L, G, m, -, -, hcreate, -, hgen⟩ :=
    rows_of_text hrun hend hf twoCalls_sites (by decide) hshort hit
  obtain ⟨st, report, hreport, sites, hnodup, hsites, hrows⟩ := hgen []
  refine ⟨d, L, G, m, st, report, entries, sites, hcreate, hreport, hnodup, fun a => ?_, hrows⟩
  rw [hsites a]
  show (∃ i ∈ [(⟨32, 8, 6⟩ : Invocation), ⟨64, 5, 5⟩], i.site = a) ↔ _
  simp [eq_comm]

end TaskProf.Analysis
