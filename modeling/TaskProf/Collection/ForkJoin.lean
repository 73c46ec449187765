import TaskProf.Collection.Siblings

/-!
# Fork-join programs

The tree that is recorded for a fork-join program is the one that its text
describes, on any number of threads and in any order of events.

* `Body.trees`: the tree of the text.
* `Follows`: the events of a run follow the text.
* `Progress`: at any time, the log so far and what the tasks have still to do make
  up the tree of the text.
* `recorded_text`: the log of a finished run reads as the tree of the text.
-/

namespace TaskProf.Collection

/-! ## Programs -/

/-- The code of a task, outside of a fork block (`Body false`) or in one
    (`Body true`): work, `spawn_root_and_wait` outside of blocks, spawns, which open
    a block, and the waits that close it. -/
inductive Body : Bool → Type
  | ret {o : Bool} : Body o
  | work {o : Bool} (w : SizeT) (c : Body o) : Body o
  | root (site : Site) (b : Body false) (c : Body false) : Body false
  | spawn {o : Bool} (site : Site) (b : Body false) (c : Body true) : Body o
  | wait (c : Body false) : Body true
  | spawnWait {o : Bool} (site : Site) (b : Body false) (c : Body false) : Body o

/-- Code that is left to run. -/
structure Code where
  inBlock : Bool
  body : Body inBlock

def stepTree (w : SizeT) : Tree NodeLabel := .node ⟨.step, 0, w⟩ []

def asyncTree (address : SizeT) (ts : List (Tree NodeLabel)) : Tree NodeLabel :=
  .node ⟨.async, address, 0⟩ ts

def finishTree (address : SizeT) (ts : List (Tree NodeLabel)) : Tree NodeLabel :=
  .node ⟨.finish, address, 0⟩ ts

/-- The children that the code will still give the current node, when `w` cycles
    have been counted since the last call, and those of the node of the task after
    the block it is in. A fork block is a FINISH without a call site, with an ASYNC
    for each spawn and the STEPs between the calls. -/
def Body.trees : (o : Bool) → Body o → SizeT → List (Tree NodeLabel) × List (Tree NodeLabel)
  | _, .ret, w => ([stepTree w], [])
  | o, .work v c, w => c.trees o (w + v)
  | _, .root site b c, w =>
    (stepTree w :: finishTree site.address (b.trees false 0).1 :: (c.trees false 0).1, [])
  | false, .spawn site b c, w =>
    (stepTree w :: finishTree 0 (asyncTree (Sys.spawnSite site).address (b.trees false 0).1 ::
      (c.trees true 0).1) :: (c.trees true 0).2, [])
  | true, .spawn site b c, w =>
    (stepTree w :: asyncTree (Sys.spawnSite site).address (b.trees false 0).1 :: (c.trees true 0).1,
      (c.trees true 0).2)
  | _, .wait c, w => ([stepTree w], (c.trees false 0).1)
  | false, .spawnWait site b c, w =>
    (stepTree w :: finishTree 0 [asyncTree site.address (b.trees false 0).1] ::
      (c.trees false 0).1, [])
  | true, .spawnWait site b c, w =>
    ([stepTree w, asyncTree site.address (b.trees false 0).1], (c.trees false 0).1)

/-- The tree of a program: `main` runs on the head node. -/
def textTree (main : Body false) : Tree NodeLabel := finishTree 0 (main.trees false 0).1

/-- The next event of a thread whose innermost activation has the code. -/
def nextEvent (t : ThreadId) : Code → Event Code
  | ⟨_, .ret⟩ => .entry t .ret ⟨false, .ret⟩
  | ⟨o, .work w c⟩ => .work t w ⟨o, c⟩
  | ⟨_, .root site b c⟩ => .entry t (.spawnRootAndWait site ⟨false, b⟩) ⟨false, c⟩
  | ⟨_, .spawn site b c⟩ => .entry t (.spawn site ⟨false, b⟩) ⟨true, c⟩
  | ⟨_, .wait c⟩ => .entry t .waitForAll ⟨false, c⟩
  | ⟨_, .spawnWait site b c⟩ => .entry t (.spawnAndWaitForAll site ⟨false, b⟩) ⟨false, c⟩

/-- The event is what the text says: `Fini` comes when `main` has ended. -/
def Follows (s : Sys Code) : Event Code → Prop
  | .work t w code => ∀ a rest, s.threads t = a :: rest → .work t w code = nextEvent t a.code
  | .entry t call code => ∀ a rest, s.threads t = a :: rest →
      .entry t call code = nextEvent t a.code
  | .fini => ∀ a rest, s.threads 0 = a :: rest → ∃ o, a.code = ⟨o, .ret⟩
  | _ => True

/-! ## What is still to come -/

/-- The children that are due at the node of a task outside of a block, when `w`
    cycles have been counted since the last call. -/
def closedFuture (w : SizeT) : Phase Code → Code → Option (List (Tree NodeLabel))
  | .running, ⟨false, c⟩ => some (c.trees false w).1
  | .called (.spawn site ⟨false, b⟩), ⟨true, c⟩ =>
    some (finishTree 0 (asyncTree (Sys.spawnSite site).address (b.trees false 0).1 ::
      (c.trees true 0).1) :: (c.trees true 0).2)
  | .called (.spawnRootAndWait site ⟨false, b⟩), ⟨false, c⟩ =>
    some (finishTree site.address (b.trees false 0).1 :: (c.trees false 0).1)
  | .called (.spawnAndWaitForAll site ⟨false, b⟩), ⟨false, c⟩ =>
    some (finishTree 0 [asyncTree site.address (b.trees false 0).1] :: (c.trees false 0).1)
  | .waitingRoot, ⟨false, c⟩ => some (c.trees false 0).1
  | .leaving, _ => some []
  | _, _ => none

/-- The children that are due at the implicit finish and at the node of a task in
    a block. -/
def openFuture (w : SizeT) :
    Phase Code → Code → Option (List (Tree NodeLabel) × List (Tree NodeLabel))
  | .running, ⟨true, c⟩ => some (c.trees true w)
  | .called (.spawn site ⟨false, b⟩), ⟨true, c⟩ =>
    some (asyncTree (Sys.spawnSite site).address (b.trees false 0).1 :: (c.trees true 0).1,
      (c.trees true 0).2)
  | .called (.spawnAndWaitForAll site ⟨false, b⟩), ⟨false, c⟩ =>
    some ([asyncTree site.address (b.trees false 0).1], (c.trees false 0).1)
  | .waitingAll, ⟨false, c⟩ => some ([], (c.trees false 0).1)
  | .leaving, _ => some ([], [])
  | _, _ => none

variable {fut : ℕ → List (Tree NodeLabel)}

/-- The nodes of an activation: its own node, under an implicit finish in a
    block. -/
inductive Fits (fut : ℕ → List (Tree NodeLabel)) (w : SizeT) (a : Activation Code) :
    List AFTask → Prop
  | closed {o : AFTask} (hs : o.syncFinishFlag = false) (hy : o.youngNsChild ≠ .async)
      (hf : closedFuture w a.phase a.code = some (fut o.nodeId)) : Fits fut w a [o]
  | opened {f o : AFTask} (hfs : f.syncFinishFlag = true) (hfy : f.youngNsChild = .async)
      (hs : o.syncFinishFlag = false) (hy : o.youngNsChild ≠ .async)
      (hf : openFuture w a.phase a.code = some (fut f.nodeId, fut o.nodeId)) : Fits fut w a [f, o]

/-- The stack of a thread with these activations; `w` is its cycle count. -/
inductive Laid (fut : ℕ → List (Tree NodeLabel)) :
    SizeT → List (Activation Code) → List AFTask → Prop
  | nil {w : SizeT} : Laid fut w [] []
  | cons {w : SizeT} {a : Activation Code} {l : List (Activation Code)} {g below : List AFTask}
      (h : Fits fut w a g) (hl : Laid fut 0 l below) : Laid fut w (a :: l) (g ++ below)

theorem Fits.congr {fut' : ℕ → List (Tree NodeLabel)} {w : SizeT} {a : Activation Code}
    {seg : List AFTask} (h : Fits fut w a seg) (heq : ∀ n ∈ seg, fut' n.nodeId = fut n.nodeId) :
    Fits fut' w a seg := by
  cases h with
  | @closed o hs hy hf => exact .closed hs hy (by rw [heq o (by simp)]; exact hf)
  | @opened f o hfs hfy hs hy hf =>
    exact .opened hfs hfy hs hy (by rw [heq f (by simp), heq o (by simp)]; exact hf)

theorem Laid.congr {fut' : ℕ → List (Tree NodeLabel)} {w : SizeT} {l : List (Activation Code)}
    {stk : List AFTask} (h : Laid fut w l stk) (heq : ∀ n ∈ stk, fut' n.nodeId = fut n.nodeId) :
    Laid fut' w l stk := by
  induction h with
  | nil => exact .nil
  | cons h _ ih =>
    exact .cons (h.congr fun n hn => heq n (List.mem_append_left _ hn))
      (ih fun n hn => heq n (List.mem_append_right _ hn))

/-- The count of cycles matters to a running activation only. -/
theorem Laid.count {w : SizeT} {a : Activation Code} {l : List (Activation Code)}
    {stk : List AFTask} (h : Laid fut w (a :: l) stk) (hp : a.phase ≠ .running) (w' : SizeT) :
    Laid fut w' (a :: l) stk := by
  have hclosed : closedFuture w' a.phase a.code = closedFuture w a.phase a.code := by
    unfold closedFuture
    split <;> first | rfl | exact absurd ‹_› hp
  have hopen : openFuture w' a.phase a.code = openFuture w a.phase a.code := by
    unfold openFuture
    split <;> first | rfl | exact absurd ‹_› hp
  cases h with
  | cons h hl =>
    refine .cons ?_ hl
    cases h with
    | closed hs hy hf => exact .closed hs hy (hclosed.trans hf)
    | opened hfs hfy hs hy hf => exact .opened hfs hfy hs hy (hopen.trans hf)

/-- The first callback of a call logs the STEP that is due, outside of a block. -/
theorem closedFuture_entry {t : ThreadId} {call : Call Code} {code : Code} {c : Body false}
    (he : .entry t call code = nextEvent t ⟨false, c⟩) (w : SizeT) :
    ∃ rest, (c.trees false w).1 = stepTree w :: rest ∧
      closedFuture 0 (Sys.entryPhase call) code = some rest := by
  cases c <;> cases he <;> exact ⟨_, rfl, rfl⟩

/-- The same in a block. -/
theorem openFuture_entry {t : ThreadId} {call : Call Code} {code : Code} {c : Body true}
    (he : .entry t call code = nextEvent t ⟨true, c⟩) (w : SizeT) :
    ∃ rest, (c.trees true w).1 = stepTree w :: rest ∧
      openFuture 0 (Sys.entryPhase call) code = some (rest, (c.trees true w).2) := by
  cases c <;> cases he <;> exact ⟨_, rfl, rfl⟩

namespace Sys

variable {s s' : Sys Code} {t : ThreadId} {main : Body false}

/-- Before the end of a run: the log so far with what is still due is the tree of
    the text, and what is due is what the tasks have still to do. -/
structure Progress (main : Body false) (s : Sys Code) (fut : ℕ → List (Tree NodeLabel)) :
    Prop where
  tree : ∃ e ∈ s.graph.logged, e.parent = 0 ∧
    Completes treeShape (treeShape.children s.graph.logged) fut (textTree main) e
  laid : ∀ t, Laid fut (s.counter t) (s.threads t) (s.graph.curDpstIndex t)
  pending : ∀ k b n, s.bodies k = some b → s.graph.tempCurMap k = some n →
    ∃ c, b = ⟨false, c⟩ ∧ fut n.nodeId = (c.trees false 0).1
  others : ∀ i, (∀ x, i ∉ nodes s.graph.curDpstIndex s.graph.tempCurMap x) → fut i = []

section Frame

variable {curNode : AFTask} {rest : List AFTask} {fut' : ℕ → List (Tree NodeLabel)}

/-- What is due changes at the current node of a thread and at new nodes only. -/
theorem Progress.frame (h : s.Orderly) (hp : Progress main s fut)
    (hst : s.graph.curDpstIndex t = curNode :: rest)
    (hfut : ∀ i ∈ s.graph.logged.map LogEntry.nodeId, i ≠ curNode.nodeId → fut' i = fut i) :
    (∀ u, u ≠ t → Laid fut' (s.counter u) (s.threads u) (s.graph.curDpstIndex u)) ∧
      (∀ m ∈ rest, fut' m.nodeId = fut m.nodeId) ∧
      ∀ k b n, s.bodies k = some b → s.graph.tempCurMap k = some n →
        ∃ c, b = ⟨false, c⟩ ∧ fut' n.nodeId = (c.trees false 0).1 := by
  obtain ⟨h1, h2, h3⟩ := h.top_ne hst
  have hstack : ∀ u, ∀ m ∈ s.graph.curDpstIndex u, m.nodeId ∈ s.graph.logged.map LogEntry.nodeId :=
    fun u m hm => h.separate.mem (.inl u) _ (List.mem_map_of_mem (f := AFTask.nodeId) hm)
  refine ⟨fun u hu => (hp.laid u).congr fun m hm => hfut _ (hstack u m hm) (h2 u hu m hm),
    fun m hm => hfut _ (hstack t m (by rw [hst]; exact List.mem_cons_of_mem _ hm)) (h1 m hm),
    fun k b n hb hn => ?_⟩
  obtain ⟨c, hc, hf⟩ := hp.pending k b n hb hn
  have hmem : n.nodeId ∈ s.graph.logged.map LogEntry.nodeId := by
    refine h.separate.mem (.inr k) _ ?_
    show n.nodeId ∈ ((s.graph.tempCurMap k).map AFTask.nodeId).toList
    rw [hn]
    exact List.mem_singleton_self _
  exact ⟨c, hc, (hfut _ hmem (h3 k n hn)).trans hf⟩

end Frame

/-- A new entry under the current node of a thread that is due there. -/
theorem due_of_fresh {curNode : AFTask} {rest : List AFTask} {e : LogEntry}
    {cs due : List (Tree NodeLabel)} (hs : Sound s.graph)
    (hst : s.graph.curDpstIndex t = curNode :: rest) (hep : e.parent = curNode.nodeId)
    (hfresh : e.nodeId ∉ s.graph.logged.map LogEntry.nodeId) (h0 : e.nodeId ≠ 0)
    (hfut : fut curNode.nodeId = .node ⟨e.nodeType, e.retAddr, e.work⟩ cs :: due) :
    Due treeShape s.graph.logged fut e cs due where
  fresh d hd he := hfresh (List.mem_map.mpr ⟨d, hd, he⟩)
  child := hs.growing.parent_ne hfresh h0
  self he := by
    obtain ⟨p, hp, hpn, -⟩ := (goodNode_top hs hst).inner
    exact hfresh (List.mem_map.mpr ⟨p, hp, hpn.trans (hep.symm.trans he)⟩)
  fut := by
    show fut e.parent = _
    rw [hep]
    exact hfut

/-- A due entry is logged. -/
theorem Progress.tree_append {log : List LogEntry} {e : LogEntry} {cs due : List (Tree NodeLabel)}
    (h : ∃ r ∈ log, r.parent = 0 ∧ Completes treeShape (treeShape.children log) fut (textTree main) r)
    (hdue : Due treeShape log fut e cs due) :
    ∃ r ∈ log ++ [e], r.parent = 0 ∧ Completes treeShape (treeShape.children (log ++ [e]))
      (Function.update (Function.update fut e.parent due) e.nodeId cs) (textTree main) r := by
  obtain ⟨r, hr, h0, hc⟩ := h
  exact ⟨r, List.mem_append_left _ hr, h0, hc.append hdue hr⟩

/-! ## Steps -/

theorem progress_work {w : SizeT} {code : Code} (hp : Progress main s fut)
    (hf : Follows s (.work t w code)) (he : s.Step (.work t w code) s') :
    Progress main s' fut := by
  obtain ⟨a, rest, ht, hph, rfl⟩ := step_work he
  have hcode := hf a rest ht
  refine ⟨hp.tree, fun u => ?_, hp.pending, hp.others⟩
  show Laid fut (Function.update s.counter t _ u) (Function.update s.threads t _ u)
    (s.graph.curDpstIndex u)
  by_cases hu : u = t
  · rw [hu, Function.update_self, Function.update_self]
    have hl := hp.laid t
    rw [ht] at hl
    generalize s.graph.curDpstIndex t = stk at hl ⊢
    obtain ⟨isMain, node, acode, phase, effects⟩ := a
    obtain ⟨o, c⟩ := acode
    dsimp only at hph hcode
    subst hph
    cases c <;> cases hcode
    cases hl with
    | cons h hl =>
      refine .cons ?_ hl
      cases h with
      | closed hs hy hf =>
        cases o with
        | false => exact .closed hs hy hf
        | true => cases hf
      | opened hfs hfy hs hy hf =>
        cases o with
        | false => cases hf
        | true => exact .opened hfs hfy hs hy hf
  · rw [Function.update_of_ne hu, Function.update_of_ne hu]
    exact hp.laid u

/-- What is due after the STEP of an entry or of `Fini`. -/
theorem progress_logStep {a : Activation Code} {rest : List (Activation Code)} {curNode : AFTask}
    {stk : List AFTask} {due : List (Tree NodeLabel)} (h : s.Orderly) (hs : Sound s.graph)
    (hp : Progress main s fut) (ht : s.threads t = a :: rest) (hph : a.phase = .running)
    (hst : s.graph.curDpstIndex t = curNode :: stk)
    (hdue : fut curNode.nodeId = stepTree (s.counter t) :: due) :
    let d : LogEntry := ⟨t, curNode.childId, curNode.nodeId, s.counter t, .step, 0⟩
    let fut' := Function.update (Function.update fut curNode.nodeId due) curNode.childId []
    (∃ r ∈ s.graph.logged ++ [d], r.parent = 0 ∧
        Completes treeShape (treeShape.children (s.graph.logged ++ [d])) fut' (textTree main) r) ∧
      fut' curNode.nodeId = due ∧
      (∀ u, u ≠ t → Laid fut' (s.counter u) (s.threads u) (s.graph.curDpstIndex u)) ∧
      (∀ m ∈ stk, fut' m.nodeId = fut m.nodeId) ∧
      (∀ k b n, s.bodies k = some b → s.graph.tempCurMap k = some n →
        ∃ c, b = ⟨false, c⟩ ∧ fut' n.nodeId = (c.trees false 0).1) ∧
      ∀ i, (∀ x, i ∉ nodes s.graph.curDpstIndex s.graph.tempCurMap x) → fut' i = [] := by
  intro d fut'
  have hheld : s.tickets.held (.inl t) = some curNode.childId := by
    show stepId (s.threads t) (s.graph.curDpstIndex t) = _
    rw [ht, hst, stepId_running hph]
  have hfresh : curNode.childId ∉ s.graph.logged.map LogEntry.nodeId :=
    h.tickets.held_notMem _ _ hheld
  have hpos : 1 ≤ curNode.childId := (h.tickets.held_lt _ _ hheld).1
  have hmem : curNode.nodeId ∈ s.graph.logged.map LogEntry.nodeId := by
    obtain ⟨p, hp, hpn, -⟩ := (goodNode_top hs hst).inner
    exact List.mem_map.mpr ⟨p, hp, hpn⟩
  have hne : curNode.nodeId ≠ curNode.childId := fun he => hfresh (he ▸ hmem)
  have hfut : ∀ i ∈ s.graph.logged.map LogEntry.nodeId, i ≠ curNode.nodeId → fut' i = fut i := by
    intro i hi hin
    have hic : i ≠ curNode.childId := fun he => hfresh (he ▸ hi)
    show Function.update (Function.update fut _ _) _ _ i = _
    rw [Function.update_of_ne hic, Function.update_of_ne hin]
  obtain ⟨h1, h2, h3⟩ := hp.frame h hst hfut
  refine ⟨?_, ?_, h1, h2, h3, fun i hi => ?_⟩
  · exact Progress.tree_append hp.tree
      (due_of_fresh (e := d) hs hst rfl hfresh (by show curNode.childId ≠ 0; omega) hdue)
  · show Function.update (Function.update fut _ _) _ _ curNode.nodeId = _
    rw [Function.update_of_ne hne, Function.update_self]
  · have hin : i ≠ curNode.nodeId := by
      rintro rfl
      refine hi (.inl t) ?_
      show curNode.nodeId ∈ (s.graph.curDpstIndex t).map AFTask.nodeId
      rw [hst]
      exact List.mem_cons_self ..
    show Function.update (Function.update fut _ _) _ _ i = []
    by_cases hic : i = curNode.childId
    · rw [hic, Function.update_self]
    · rw [Function.update_of_ne hic, Function.update_of_ne hin]
      exact hp.others i hi

theorem progress_entry {call : Call Code} {code : Code} (h : s.Orderly) (hs : Sound s.graph)
    (hp : Progress main s fut) (hf : Follows s (.entry t call code))
    (he : s.Step (.entry t call code) s') : ∃ fut', Progress main s' fut' := by
  obtain ⟨a, rest, curNode, stk, ht, hph, -, hst, rfl⟩ := step_entry he
  have hcode := hf a rest ht
  have hl := hp.laid t
  rw [ht] at hl
  generalize hstk : s.graph.curDpstIndex t = stk₀ at hl
  cases hl with
  | @cons _ _ _ seg below hfit hl =>
    -- the STEP that is due at the current node, and the nodes after it
    have hdue : ∃ due, fut curNode.nodeId = stepTree (s.counter t) :: due ∧
        ∀ fut' : ℕ → List (Tree NodeLabel), fut' curNode.nodeId = due →
          (∀ m ∈ stk, fut' m.nodeId = fut m.nodeId) →
          Laid fut' (s.counter t) ({ a with code := code, phase := entryPhase call } :: rest)
            (curNode :: stk) := by
      rw [hstk] at hst
      obtain ⟨isMain, node, ⟨o, c⟩, phase, effects⟩ := a
      dsimp only at hph hcode
      subst hph
      cases hfit with
      | @closed n hs' hy hfu =>
        obtain ⟨rfl, rfl⟩ := List.cons.inj hst
        cases o with
        | true => cases hfu
        | false =>
          obtain ⟨due, hd, hcl⟩ := closedFuture_entry hcode (s.counter t)
          have hfu : (c.trees false (s.counter t)).1 = fut n.nodeId := Option.some.inj hfu
          refine ⟨due, by rw [← hfu, hd], fun fut' hf1 hf2 => ?_⟩
          exact (Laid.cons (.closed hs' hy (hcl.trans (congrArg some hf1.symm)))
            (hl.congr hf2)).count (entryPhase_ne call) _
      | @opened f n hfs hfy hs' hy hfu =>
        obtain ⟨rfl, rfl⟩ := List.cons.inj hst
        cases o with
        | false => cases hfu
        | true =>
          obtain ⟨due, hd, hop⟩ := openFuture_entry hcode (s.counter t)
          have hfu : c.trees true (s.counter t) = (fut f.nodeId, fut n.nodeId) :=
            Option.some.inj hfu
          rw [hfu] at hd hop
          refine ⟨due, hd, fun fut' hf1 hf2 => ?_⟩
          have hn := hf2 n (List.mem_cons_self ..)
          exact (Laid.cons (.opened hfs hfy hs' hy (by rw [hf1, hn]; exact hop))
            (hl.congr fun m hm => hf2 m (List.mem_cons_of_mem _ hm))).count (entryPhase_ne call) _
    obtain ⟨due, hd, hlaid⟩ := hdue
    obtain ⟨h1, h2, h3, h4, h5, h6⟩ := progress_logStep h hs hp ht hph hst hd
    refine ⟨_, h1, fun u => ?_, h5, h6⟩
    show Laid _ (s.counter u) (Function.update s.threads t _ u) (s.graph.curDpstIndex u)
    by_cases hu : u = t
    · rw [hu, Function.update_self, hst]
      exact hlaid _ h2 h4
    · rw [Function.update_of_ne hu]
      exact h3 u hu

section Register

variable {curNode node : AFTask} {below stk : List AFTask} {G : AFTaskGraph} {n : ℕ}
  {es : List LogEntry} {fut' : ℕ → List (Tree NodeLabel)}

/-- After a spawn: the caller has the stack `stk`, on which the new nodes and the
    changed ones are, and the new task has its node. -/
theorem progress_spawned {a' : Activation Code} {rest : List (Activation Code)} {body : Code}
    (h : s.Orderly) (hp : Progress main s fut) (hst : s.graph.curDpstIndex t = curNode :: below)
    (hsp : Spawned s.graph G t (s.taskIdCtr + 1) n es stk node)
    (htree : ∃ r ∈ s.graph.logged ++ es, r.parent = 0 ∧ Completes treeShape
      (treeShape.children (s.graph.logged ++ es)) fut' (textTree main) r)
    (hfut : ∀ i ∈ s.graph.logged.map LogEntry.nodeId, i ≠ curNode.nodeId → fut' i = fut i)
    (hlaid : Laid fut' 0 (a' :: rest) stk)
    (hnew : ∃ c, body = ⟨false, c⟩ ∧ fut' node.nodeId = (c.trees false 0).1)
    (hsub : ∀ i ∈ (curNode :: below).map AFTask.nodeId, i ∈ stk.map AFTask.nodeId)
    (hagree : ∀ i, i ∉ stk.map AFTask.nodeId → i ≠ node.nodeId → fut' i = fut i) :
    Progress main ((((s.setGraph G).addBody (s.taskIdCtr + 1) body).setThread t
      (a' :: rest)).setCounter t 0) fut' := by
  obtain ⟨h1, -, h3⟩ := hp.frame h hst hfut
  have hk := h.fresh _ (Nat.lt_succ_self s.taskIdCtr)
  refine ⟨?_, fun u => ?_, fun k b m hb hm => ?_, fun i hi => ?_⟩
  · show ∃ r ∈ G.logged, _ ∧ Completes _ (treeShape.children G.logged) _ _ _
    rw [hsp.logged]
    exact htree
  · show Laid fut' (Function.update s.counter t 0 u) (Function.update s.threads t _ u)
      (G.curDpstIndex u)
    rw [hsp.curDpstIndex]
    by_cases hu : u = t
    · rw [hu, Function.update_self, Function.update_self, Function.update_self]
      exact hlaid
    · rw [Function.update_of_ne hu, Function.update_of_ne hu, Function.update_of_ne hu]
      exact h1 u hu
  · have hb : Function.update s.bodies (s.taskIdCtr + 1) (some body) k = some b := hb
    have hm : G.tempCurMap k = some m := hm
    rw [hsp.tempCurMap] at hm
    by_cases hks : k = s.taskIdCtr + 1
    · rw [hks, Function.update_self, Option.some.injEq] at hb hm
      rw [← hb, ← hm]
      exact hnew
    · rw [Function.update_of_ne hks] at hb hm
      exact h3 k b m hb hm
  · have hi : ∀ x, i ∉ nodes G.curDpstIndex G.tempCurMap x := hi
    rw [hsp.curDpstIndex, hsp.tempCurMap, nodes_update, nodes_update_temp] at hi
    have hit : i ∉ stk.map AFTask.nodeId := by
      have := hi (.inl t)
      rwa [Function.update_self] at this
    have hin : i ≠ node.nodeId := by
      rintro rfl
      have := hi (.inr (s.taskIdCtr + 1))
      rw [Function.update_of_ne Sum.inr_ne_inl, Function.update_self] at this
      exact this (List.mem_singleton_self _)
    rw [hagree i hit hin]
    refine hp.others i fun x hx => ?_
    by_cases hxt : x = .inl t
    · rw [hxt] at hx
      have hx : i ∈ (s.graph.curDpstIndex t).map AFTask.nodeId := hx
      rw [hst] at hx
      exact hit (hsub i hx)
    · have := hi x
      rw [Function.update_of_ne hxt] at this
      by_cases hxk : x = .inr (s.taskIdCtr + 1)
      · rw [hxk] at hx
        have hx : i ∈ ((s.graph.tempCurMap (s.taskIdCtr + 1)).map AFTask.nodeId).toList := hx
        rw [hk] at hx
        cases hx
      · rw [Function.update_of_ne hxk] at this
        exact this hx

/-- A spawn under the current node. -/
theorem fut_one {ty : NodeType} {address : SizeT} {cs due : List (Tree NodeLabel)}
    (h : s.Orderly) (hs : Sound s.graph) (hp : Progress main s fut)
    (hst : s.graph.curDpstIndex t = curNode :: below)
    (hfut : fut curNode.nodeId = .node ⟨ty, address, 0⟩ cs :: due) :
    ∃ fut' : ℕ → List (Tree NodeLabel),
      (∃ r ∈ s.graph.logged ++ [⟨t, s.graph.lastAllocatedNode, curNode.nodeId, 0, ty, address⟩],
        r.parent = 0 ∧ Completes treeShape (treeShape.children
          (s.graph.logged ++ [⟨t, s.graph.lastAllocatedNode, curNode.nodeId, 0, ty, address⟩]))
          fut' (textTree main) r) ∧
      fut' curNode.nodeId = due ∧ fut' s.graph.lastAllocatedNode = cs ∧
      ∀ i, i ≠ curNode.nodeId → i ≠ s.graph.lastAllocatedNode → fut' i = fut i := by
  have hlt := h.node_lt (goodNode_top hs hst)
  have htree := Progress.tree_append hp.tree (due_of_fresh
    (e := ⟨t, s.graph.lastAllocatedNode, curNode.nodeId, 0, ty, address⟩) hs hst rfl
    (h.next_notMem _ le_rfl) (by show s.graph.lastAllocatedNode ≠ 0; omega) hfut)
  refine ⟨_, htree, ?_, Function.update_self .., fun i h1 h2 => ?_⟩
  · show Function.update (Function.update fut curNode.nodeId due) s.graph.lastAllocatedNode cs
      curNode.nodeId = due
    rw [Function.update_of_ne (by omega), Function.update_self]
  · show Function.update (Function.update fut curNode.nodeId due) s.graph.lastAllocatedNode cs
      i = fut i
    rw [Function.update_of_ne h2, Function.update_of_ne h1]

/-- A spawn under a new implicit finish. -/
theorem fut_two {address : SizeT} {cs due dueF : List (Tree NodeLabel)} (h : s.Orderly)
    (hs : Sound s.graph) (hp : Progress main s fut)
    (hst : s.graph.curDpstIndex t = curNode :: below)
    (hfut : fut curNode.nodeId = finishTree 0 (asyncTree address cs :: dueF) :: due) :
    ∃ fut' : ℕ → List (Tree NodeLabel),
      (∃ r ∈ s.graph.logged ++ [⟨t, s.graph.lastAllocatedNode, curNode.nodeId, 0, .finish, 0⟩,
          ⟨t, s.graph.lastAllocatedNode + 1, s.graph.lastAllocatedNode, 0, .async, address⟩],
        r.parent = 0 ∧ Completes treeShape (treeShape.children
          (s.graph.logged ++ [⟨t, s.graph.lastAllocatedNode, curNode.nodeId, 0, .finish, 0⟩,
            ⟨t, s.graph.lastAllocatedNode + 1, s.graph.lastAllocatedNode, 0, .async, address⟩]))
          fut' (textTree main) r) ∧
      fut' curNode.nodeId = due ∧ fut' s.graph.lastAllocatedNode = dueF ∧
      fut' (s.graph.lastAllocatedNode + 1) = cs ∧
      ∀ i, i ≠ curNode.nodeId → i ≠ s.graph.lastAllocatedNode →
        i ≠ s.graph.lastAllocatedNode + 1 → fut' i = fut i := by
  have hlt := h.node_lt (goodNode_top hs hst)
  obtain ⟨fut₁, htree, hcur, hlast, hother⟩ := fut_one h hs hp hst hfut
  have hno := parent_ne_next h hs hst
    (e := ⟨t, s.graph.lastAllocatedNode, curNode.nodeId, 0, .finish, 0⟩) rfl
  have hids : ∀ d ∈ s.graph.logged, d.nodeId < s.graph.lastAllocatedNode :=
    fun d hd => (h.entry_lt hd).2
  have hpar : ∀ d ∈ s.graph.logged, d.parent ≠ s.graph.lastAllocatedNode + 1 :=
    hs.growing.parent_ne (h.next_notMem _ (Nat.le_succ _)) (Nat.succ_ne_zero _)
  generalize hF : (⟨t, s.graph.lastAllocatedNode, curNode.nodeId, 0, .finish, 0⟩ : LogEntry) = F
    at htree hno ⊢
  have hdue : Due treeShape (s.graph.logged ++ [F]) fut₁
      ⟨t, s.graph.lastAllocatedNode + 1, s.graph.lastAllocatedNode, 0, .async, address⟩ cs dueF := by
    refine ⟨fun d hd => ?_, fun d hd => ?_, ?_, hlast⟩
    · show d.nodeId ≠ s.graph.lastAllocatedNode + 1
      rcases List.mem_append.mp hd with hd | hd
      · have := hids d hd
        omega
      · rw [List.mem_singleton.mp hd, ← hF]
        exact Nat.ne_of_lt (Nat.lt_succ_self _)
    · show d.parent ≠ s.graph.lastAllocatedNode + 1
      rcases List.mem_append.mp hd with hd | hd
      · exact hpar d hd
      · rw [List.mem_singleton.mp hd, ← hF]
        show curNode.nodeId ≠ _
        omega
    · exact Nat.ne_of_lt (Nat.lt_succ_self _)
  have htree₂ := Progress.tree_append htree hdue
  rw [List.append_assoc, List.singleton_append] at htree₂
  refine ⟨_, htree₂, ?_, ?_, Function.update_self .., fun i h1 h2 h3 => ?_⟩
  · show Function.update (Function.update fut₁ s.graph.lastAllocatedNode dueF)
      (s.graph.lastAllocatedNode + 1) cs curNode.nodeId = due
    rw [Function.update_of_ne (by omega), Function.update_of_ne (by omega), hcur]
  · show Function.update (Function.update fut₁ s.graph.lastAllocatedNode dueF)
      (s.graph.lastAllocatedNode + 1) cs s.graph.lastAllocatedNode = dueF
    rw [Function.update_of_ne (by omega), Function.update_self]
  · show Function.update (Function.update fut₁ s.graph.lastAllocatedNode dueF)
      (s.graph.lastAllocatedNode + 1) cs i = fut i
    rw [Function.update_of_ne h3, Function.update_of_ne h2, hother i h1 h2]

/-- The ids that are logged are below the next one. -/
theorem logged_lt_next (h : s.Orderly) {i : ℕ} (hi : i ∈ s.graph.logged.map LogEntry.nodeId) :
    i < s.graph.lastAllocatedNode :=
  (h.tickets.used_lt i hi).2

section Block

variable {a' : Activation Code} {rest : List (Activation Code)} {b : Body false} {address : SizeT}
  {f f' m : AFTask} {due dueF : List (Tree NodeLabel)}

/-- A spawn outside of a block opens an implicit finish `f` above the node `m` of the task. -/
theorem progress_open (h : s.Orderly) (hs : Sound s.graph) (hp : Progress main s fut)
    (hst : s.graph.curDpstIndex t = m :: below) (hl : Laid fut 0 rest below)
    (hsync : m.syncFinishFlag = false) (hflag : f.syncFinishFlag = true)
    (hyoung : f.youngNsChild = .async) (hid : f.nodeId = s.graph.lastAllocatedNode)
    (hnode : node.nodeId = s.graph.lastAllocatedNode + 1)
    (hsp : Spawned s.graph G t (s.taskIdCtr + 1) n
      [⟨t, s.graph.lastAllocatedNode, m.nodeId, 0, .finish, 0⟩,
        ⟨t, s.graph.lastAllocatedNode + 1, s.graph.lastAllocatedNode, 0, .async, address⟩]
      (f :: { m with youngNsChild := .finish } :: below) node)
    (hdue : fut m.nodeId = finishTree 0 (asyncTree address (b.trees false 0).1 :: dueF) :: due)
    (hopen : openFuture 0 a'.phase a'.code = some (dueF, due)) :
    ∃ fut', Progress main ((((s.setGraph G).addBody (s.taskIdCtr + 1) ⟨false, b⟩).setThread t
      (a' :: rest)).setCounter t 0) fut' := by
  obtain ⟨fut', htree, h1, h2, h3, h4⟩ := fut_two h hs hp hst hdue
  have hfut : ∀ i ∈ s.graph.logged.map LogEntry.nodeId, i ≠ m.nodeId → fut' i = fut i := by
    intro i hi him
    have := logged_lt_next h hi
    exact h4 i him (by omega) (by omega)
  have hl' : Laid fut' 0 rest below := hl.congr (hp.frame h hst hfut).2.1
  refine ⟨fut', progress_spawned h hp hst hsp htree hfut ?_ ⟨b, rfl, by rw [hnode, h3]⟩ ?_ ?_⟩
  · refine Laid.cons (g := [f, { m with youngNsChild := .finish }])
      (.opened hflag hyoung hsync (fun h => nomatch h) ?_) hl'
    show _ = some (fut' f.nodeId, fut' m.nodeId)
    rw [hid, h1, h2]
    exact hopen
  · exact fun i hi => List.mem_cons_of_mem _ hi
  · intro i hi hin
    rw [List.map_cons, List.map_cons, List.mem_cons, List.mem_cons, not_or, not_or] at hi
    exact h4 i hi.2.1 (hid ▸ hi.1) (hnode ▸ hin)

/-- A spawn in a block logs the new node under the implicit finish `f`, which becomes `f'`. -/
theorem progress_more (h : s.Orderly) (hs : Sound s.graph) (hp : Progress main s fut)
    (hst : s.graph.curDpstIndex t = f :: m :: below) (hl : Laid fut 0 rest below)
    (hsp : Spawned s.graph G t (s.taskIdCtr + 1) n
      [⟨t, s.graph.lastAllocatedNode, f.nodeId, 0, .async, address⟩] (f' :: m :: below) node)
    (hsync : m.syncFinishFlag = false) (hy : m.youngNsChild ≠ .async)
    (hflag : f'.syncFinishFlag = true) (hyoung : f'.youngNsChild = .async)
    (hid : f'.nodeId = f.nodeId) (hnode : node.nodeId = s.graph.lastAllocatedNode)
    (hdue : fut f.nodeId = asyncTree address (b.trees false 0).1 :: dueF)
    (hopen : openFuture 0 a'.phase a'.code = some (dueF, fut m.nodeId)) :
    ∃ fut', Progress main ((((s.setGraph G).addBody (s.taskIdCtr + 1) ⟨false, b⟩).setThread t
      (a' :: rest)).setCounter t 0) fut' := by
  obtain ⟨fut', htree, h1, h2, h3⟩ := fut_one h hs hp hst hdue
  have hfut : ∀ i ∈ s.graph.logged.map LogEntry.nodeId, i ≠ f.nodeId → fut' i = fut i := by
    intro i hi him
    have := logged_lt_next h hi
    exact h3 i him (by omega)
  have hrest := (hp.frame h hst hfut).2.1
  have hm : fut' m.nodeId = fut m.nodeId := hrest m List.mem_cons_self
  have hl' : Laid fut' 0 rest below := hl.congr fun x hx => hrest x (List.mem_cons_of_mem _ hx)
  refine ⟨fut', progress_spawned h hp hst hsp htree hfut ?_ ⟨b, rfl, by rw [hnode, h2]⟩ ?_ ?_⟩
  · refine Laid.cons (g := [f', m]) (.opened hflag hyoung hsync hy ?_) hl'
    rw [hid, h1, hm]
    exact hopen
  · intro i hi
    rwa [List.map_cons, hid, ← List.map_cons]
  · intro i hi hin
    rw [List.map_cons, List.mem_cons, not_or, hid] at hi
    exact h3 i hi.1 (hnode ▸ hin)

/-- `spawn_root_and_wait` outside of a block logs a FINISH node under the node `m` of the
    task. -/
theorem progress_root (h : s.Orderly) (hs : Sound s.graph) (hp : Progress main s fut)
    (hst : s.graph.curDpstIndex t = m :: below) (hl : Laid fut 0 rest below)
    (hsync : m.syncFinishFlag = false) (hnode : node.nodeId = s.graph.lastAllocatedNode)
    (hsp : Spawned s.graph G t (s.taskIdCtr + 1) n
      [⟨t, s.graph.lastAllocatedNode, m.nodeId, 0, .finish, address⟩]
      ({ m with youngNsChild := .finish } :: below) node)
    (hdue : fut m.nodeId = finishTree address (b.trees false 0).1 :: due)
    (hclosed : closedFuture 0 a'.phase a'.code = some due) :
    ∃ fut', Progress main ((((s.setGraph G).addBody (s.taskIdCtr + 1) ⟨false, b⟩).setThread t
      (a' :: rest)).setCounter t 0) fut' := by
  obtain ⟨fut', htree, h1, h2, h3⟩ := fut_one h hs hp hst hdue
  have hfut : ∀ i ∈ s.graph.logged.map LogEntry.nodeId, i ≠ m.nodeId → fut' i = fut i := by
    intro i hi him
    have := logged_lt_next h hi
    exact h3 i him (by omega)
  have hl' : Laid fut' 0 rest below := hl.congr (hp.frame h hst hfut).2.1
  refine ⟨fut', progress_spawned h hp hst hsp htree hfut ?_ ⟨b, rfl, by rw [hnode, h2]⟩
    (fun i hi => hi) ?_⟩
  · refine Laid.cons (g := [{ m with youngNsChild := .finish }])
      (.closed hsync (fun h => nomatch h) ?_) hl'
    show _ = some (fut' m.nodeId)
    rw [h1]
    exact hclosed
  · intro i hi hin
    rw [List.map_cons, List.mem_cons, not_or] at hi
    exact h3 i hi.1 (hnode ▸ hin)

end Block

end Register

theorem progress_register (h : s.Orderly) (hs : Sound s.graph) (hp : Progress main s fut)
    (he : s.Step (.register t) s') : ∃ fut', Progress main s' fut' := by
  obtain ⟨a, rest, call, phase, effect, ⟨bo, b⟩, G, ht, hph, hr, hc, rfl⟩ :=
    step_register he (h.fresh _ (Nat.lt_succ_self _))
  have hl := hp.laid t
  rw [ht] at hl
  obtain ⟨isMain, own, ⟨o, c⟩, phase₀, effects⟩ := a
  dsimp only at hph
  subst hph
  generalize hstk : s.graph.curDpstIndex t = stk₀ at hl
  cases hl with
  | @cons _ _ _ seg below hfit hl =>
    cases hfit with
    | @closed m hsync hy hf =>
      cases hc with
      | spawnAsync hst hya hsp | waitAsync hst hya hsp =>
        rw [hstk] at hst
        obtain ⟨rfl, rfl⟩ := List.cons.inj hst
        exact absurd hya hy
      | spawnFinish hst hya hsp =>
        rw [hstk] at hst
        obtain ⟨rfl, rfl⟩ := List.cons.inj hst
        cases hr
        cases bo with
        | true => cases hf
        | false =>
          cases o with
          | false => cases hf
          | true =>
            exact progress_open h hs hp hstk hl hsync rfl rfl rfl rfl hsp (Option.some.inj hf).symm
              rfl
      | rootFinish hst hsp =>
        rw [hstk] at hst
        obtain ⟨rfl, rfl⟩ := List.cons.inj hst
        cases hr
        cases bo with
        | true => cases hf
        | false =>
          cases o with
          | true => cases hf
          | false =>
            exact progress_root h hs hp hstk hl hsync rfl hsp (Option.some.inj hf).symm rfl
      | waitFinish hst hya hsp =>
        rw [hstk] at hst
        obtain ⟨rfl, rfl⟩ := List.cons.inj hst
        cases hr
        cases bo with
        | true => cases hf
        | false =>
          cases o with
          | true => cases hf
          | false =>
            exact progress_open h hs hp hstk hl hsync rfl rfl rfl rfl hsp (Option.some.inj hf).symm
              rfl
    | @opened f m hfs hfy hsync hy hf =>
      cases hc with
      | spawnFinish hst hya hsp | waitFinish hst hya hsp =>
        rw [hstk] at hst
        obtain ⟨rfl, rfl⟩ := List.cons.inj hst
        exact absurd hfy hya
      | rootFinish hst hsp =>
        cases hr
        cases bo <;> cases o <;> cases hf
      | spawnAsync hst hya hsp =>
        rw [hstk] at hst
        obtain ⟨rfl, rfl⟩ := List.cons.inj hst
        cases hr
        cases bo with
        | true => cases hf
        | false =>
          cases o with
          | false => cases hf
          | true =>
            obtain ⟨hf1, hf2⟩ := Prod.mk.inj (Option.some.inj hf)
            exact progress_more h hs hp hstk hl hsp hsync hy hfs hfy rfl rfl hf1.symm
              (congrArg (fun due => some (_, due)) hf2)
      | waitAsync hst hya hsp =>
        rw [hstk] at hst
        obtain ⟨rfl, rfl⟩ := List.cons.inj hst
        cases hr
        cases bo with
        | true => cases hf
        | false =>
          cases o with
          | true => cases hf
          | false =>
            obtain ⟨hf1, hf2⟩ := Prod.mk.inj (Option.some.inj hf)
            exact progress_more h hs hp hstk hl hsp hsync hy hfs hfy rfl rfl hf1.symm
              (congrArg (fun due => some (_, due)) hf2)

/-- A thread gets another stack while nothing is logged: the other threads are
    not concerned. -/
theorem Progress.laid_update {l : List (Activation Code)} {stk : List AFTask} {w : SizeT}
    (hp : Progress main s fut) (hl : Laid fut w l stk) (u : ThreadId) :
    Laid fut (Function.update s.counter t w u) (Function.update s.threads t l u)
      (Function.update s.graph.curDpstIndex t stk u) := by
  by_cases hu : u = t
  · rw [hu, Function.update_self, Function.update_self, Function.update_self]
    exact hl
  · rw [Function.update_of_ne hu, Function.update_of_ne hu, Function.update_of_ne hu]
    exact hp.laid u

/-- Nodes leave the stack when nothing is due at them. -/
theorem Progress.others_drop {d stk stk' : List AFTask} (hp : Progress main s fut)
    (hst : s.graph.curDpstIndex t = d ++ stk) (hd : ∀ n ∈ d, fut n.nodeId = [])
    (heq : stk'.map AFTask.nodeId = stk.map AFTask.nodeId) (i : ℕ)
    (hi : ∀ x, i ∉ nodes (Function.update s.graph.curDpstIndex t stk') s.graph.tempCurMap x) :
    fut i = [] := by
  rw [nodes_update] at hi
  by_cases hid : i ∈ d.map AFTask.nodeId
  · obtain ⟨n, hn, rfl⟩ := List.mem_map.mp hid
    exact hd n hn
  · refine hp.others i fun x hx => ?_
    by_cases hxt : x = .inl t
    · rw [hxt] at hx
      have hx : i ∈ (s.graph.curDpstIndex t).map AFTask.nodeId := hx
      rw [hst, List.map_append] at hx
      have := hi (.inl t)
      rw [Function.update_self, heq] at this
      exact (List.mem_append.mp hx).elim hid this
    · have := hi x
      rw [Function.update_of_ne hxt] at this
      exact this hx

theorem progress_execute {k : ℕ} (hs : Sound s.graph) (hp : Progress main s fut)
    (he : s.Step (.execute t k) s') : Progress main s' fut := by
  obtain ⟨body, node, hc, hb, hn, rfl⟩ := step_execute he
  obtain ⟨c, rfl, hf⟩ := hp.pending k body node hb hn
  have hsync := hs.plain k node hn
  -- what the thread waits for does not depend on its cycle count
  have hbelow : Laid fut 0 (s.threads t) (s.graph.curDpstIndex t) := by
    have hl := hp.laid t
    generalize s.graph.curDpstIndex t = stk at hl ⊢
    unfold canExecute at hc
    split at hc
    · next ht =>
      rw [ht] at hl ⊢
      cases hl
      exact .nil
    · next a rest ht =>
      rw [ht] at hl ⊢
      refine hl.count (fun hp => ?_) 0
      rw [hp] at hc
      cases hc
  refine ⟨hp.tree, hp.laid_update ?_, fun j b m hb' hm => ?_, fun i hi => ?_⟩
  · refine Laid.cons (g := [node]) (.closed hsync ((hs.temp k node hn).own hsync).1 ?_) hbelow
    rw [hf]
    rfl
  · have hb' : Function.update s.bodies k none j = some b := hb'
    have hm : Function.update s.graph.tempCurMap k none j = some m := hm
    by_cases hj : j = k
    · rw [hj, Function.update_self] at hm
      cases hm
    · rw [Function.update_of_ne hj] at hb' hm
      exact hp.pending j b m hb' hm
  · have hi : ∀ x, i ∉ nodes (Function.update s.graph.curDpstIndex t
        (node :: s.graph.curDpstIndex t)) (Function.update s.graph.tempCurMap k none) x := hi
    rw [nodes_update, nodes_update_temp] at hi
    have hit := hi (.inl t)
    rw [Function.update_self, List.map_cons, List.mem_cons, not_or] at hit
    refine hp.others i fun x hx => ?_
    rcases x with u | j
    · by_cases hu : u = t
      · rw [hu] at hx
        exact hit.2 hx
      · have := hi (.inl u)
        rw [Function.update_of_ne (fun h => hu (Sum.inl.inj h)),
          Function.update_of_ne Sum.inl_ne_inr] at this
        exact this hx
    · by_cases hj : j = k
      · have hx : i ∈ ((s.graph.tempCurMap j).map AFTask.nodeId).toList := hx
        rw [hj, hn] at hx
        exact hit.1 (List.mem_singleton.mp hx)
      · have := hi (.inr j)
        rw [Function.update_of_ne Sum.inr_ne_inl,
          Function.update_of_ne (fun h => hj (Sum.inr.inj h))] at this
        exact this hx

theorem progress_resume (hp : Progress main s fut) (he : s.Step (.resume t) s') :
    Progress main s' fut := by
  obtain ⟨a, rest, ht, hcase⟩ := step_resume he
  have hl := hp.laid t
  rw [ht] at hl
  obtain ⟨isMain, own, ⟨o, c⟩, phase, effects⟩ := a
  generalize hstk : s.graph.curDpstIndex t = stk₀ at hl
  have hlog : (s.graph.advance 1 []).logged = s.graph.logged := List.append_nil _
  have htree : ∃ e ∈ (s.graph.advance 1 []).logged, e.parent = 0 ∧
      Completes treeShape (treeShape.children (s.graph.advance 1 []).logged) fut
        (textTree main) e := by
    rw [hlog]
    exact hp.tree
  rcases hcase with ⟨hph, cur, stk, hst, rfl⟩ | ⟨hph, d, cur, stk, hst, rfl⟩
  · dsimp only at hph
    subst hph
    cases hl with
    | cons hfit hl =>
      cases hfit with
      | @closed m hsync hy hf =>
        rw [hstk] at hst
        obtain ⟨rfl, rfl⟩ := List.cons.inj hst
        cases o with
        | true => cases hf
        | false =>
          refine ⟨htree, hp.laid_update ?_, hp.pending, hp.others_drop hstk (d := []) ?_ rfl⟩
          · exact Laid.cons (g := [{ m with childId := _ }]) (.closed hsync hy hf) hl
          · exact fun n hn => nomatch hn
      | opened hfs hfy hsync hy hf => cases o <;> cases hf
  · dsimp only at hph
    subst hph
    cases hl with
    | cons hfit hl =>
      cases hfit with
      | closed hsync hy hf => cases o <;> cases hf
      | @opened f m hfs hfy hsync hy hf =>
        rw [hstk] at hst
        simp only [List.cons_append, List.nil_append, List.cons.injEq] at hst
        obtain ⟨rfl, rfl, rfl⟩ := hst
        cases o with
        | true => cases hf
        | false =>
          obtain ⟨hf1, hf2⟩ := Prod.mk.inj (Option.some.inj hf)
          refine ⟨htree, hp.laid_update ?_, hp.pending, hp.others_drop hstk (d := [f]) ?_ rfl⟩
          · refine Laid.cons (g := [{ m with childId := _ }]) (.closed hsync hy ?_) hl
            exact congrArg some hf2
          · intro n hn
            rw [List.mem_singleton.mp hn, ← hf1]

theorem progress_leave (h : s.Orderly) (hp : Progress main s fut) (he : s.Step (.leave t) s') :
    Progress main s' fut := by
  obtain ⟨a, rest, cur, stk, ht, hph, hst, hcase⟩ := step_leave he
  have hl := hp.laid t
  have hnest := h.nested t
  rw [ht] at hl hnest
  obtain ⟨isMain, own, code, phase, effects⟩ := a
  dsimp only at hph
  subst hph
  generalize hstk : s.graph.curDpstIndex t = stk₀ at hl
  have hcount : ∀ {below : List AFTask}, Laid fut 0 rest below →
      Laid fut (s.counter t) rest below := by
    intro below hl
    cases rest with
    | nil =>
      cases hl
      exact .nil
    | cons b rest => exact hl.count (not_running_of_waits (hnest b (List.mem_cons_self ..))) _
  have hset : ∀ {below : List AFTask}, Laid fut 0 rest below → ∀ u,
      Laid fut (s.counter u) (Function.update s.threads t rest u)
        (Function.update s.graph.curDpstIndex t below u) := by
    intro below hl u
    have := hp.laid_update (t := t) (hcount hl) u
    rwa [Function.update_eq_self] at this
  rw [hstk] at hst
  cases hl with
  | cons hfit hl =>
    cases hfit with
    | @closed m hsync hy hf =>
      obtain ⟨rfl, rfl⟩ := List.cons.inj hst
      rcases hcase with ⟨-, rfl⟩ | ⟨hsync', -⟩
      · refine ⟨hp.tree, hset hl, hp.pending, hp.others_drop hstk (d := [m]) ?_ rfl⟩
        intro n hn
        rw [List.mem_singleton.mp hn]
        exact (Option.some.inj hf).symm
      · rw [hsync] at hsync'
        cases hsync'
    | @opened f m hfs hfy hsync hy hf =>
      obtain ⟨rfl, rfl⟩ := List.cons.inj hst
      obtain ⟨hf1, hf2⟩ := Prod.mk.inj (Option.some.inj hf)
      rcases hcase with ⟨hsync', -⟩ | ⟨-, d, stk', heq, rfl⟩
      · rw [hfs] at hsync'
        cases hsync'
      · obtain ⟨-, rfl⟩ := List.cons.inj heq
        refine ⟨hp.tree, hset hl, hp.pending, hp.others_drop hstk (d := [f, m]) ?_ rfl⟩
        intro n hn
        rcases List.mem_cons.mp hn with rfl | hn
        · exact hf1.symm
        · rw [List.mem_singleton.mp hn]
          exact hf2.symm

/-- `Fini` logs the last STEP that is due. -/
theorem complete_fini (h : s.Orderly) (hs : Sound s.graph) (hp : Progress main s fut)
    (hf : Follows s .fini) (he : s.Step .fini s') :
    s'.finished = true ∧ ∃ fut' : ℕ → List (Tree NodeLabel), (∀ i, fut' i = []) ∧
      ∃ r ∈ s'.graph.logged, r.parent = 0 ∧
        Completes treeShape (treeShape.children s'.graph.logged) fut' (textTree main) r := by
  obtain ⟨a, cur, stk, ht, hph, hq, hst, rfl⟩ := step_fini he
  obtain ⟨hq1, hq2⟩ := quiet_iff.mp hq
  obtain ⟨o, hcode⟩ := hf a [] ht
  have hl := hp.laid 0
  rw [ht] at hl
  -- the last STEP is due on top, and nothing below
  have hdue : fut cur.nodeId = [stepTree (s.counter 0)] ∧ ∀ m ∈ stk, fut m.nodeId = [] := by
    obtain ⟨isMain, own, code, phase, effects⟩ := a
    dsimp only at hph hcode
    subst hph hcode
    generalize hstk : s.graph.curDpstIndex 0 = stk₀ at hl
    rw [hstk] at hst
    cases hl with
    | @cons _ _ _ seg below hfit hl =>
      cases hl
      cases hfit with
      | closed hsync hy hfu =>
        obtain ⟨rfl, rfl⟩ := List.cons.inj hst
        cases o with
        | true => cases hfu
        | false => exact ⟨(Option.some.inj hfu).symm, fun m hm => nomatch hm⟩
      | opened hfs hfy hsync hy hfu =>
        simp only [List.cons_append, List.nil_append, List.cons.injEq] at hst
        obtain ⟨rfl, rfl⟩ := hst
        cases o with
        | false => cases hfu
        | true =>
          obtain ⟨h1, h2⟩ := Prod.mk.inj (Option.some.inj hfu)
          exact ⟨h1.symm, fun m hm => by rw [List.mem_singleton.mp hm]; exact h2.symm⟩
  obtain ⟨h1, h2, -, h4, -, h6⟩ := progress_logStep h hs hp ht hph hst hdue.1
  refine ⟨rfl, _, fun i => ?_, h1⟩
  by_cases hi : ∃ x, i ∈ nodes s.graph.curDpstIndex s.graph.tempCurMap x
  · obtain ⟨x, hx⟩ := hi
    rcases x with u | k
    · have hx : i ∈ (s.graph.curDpstIndex u).map AFTask.nodeId := hx
      by_cases hu : u = 0
      · rw [hu, hst, List.map_cons, List.mem_cons] at hx
        rcases hx with rfl | hx
        · exact h2
        · obtain ⟨m, hm, rfl⟩ := List.mem_map.mp hx
          exact (h4 m hm).trans (hdue.2 m hm)
      · -- the other threads have nothing on their stacks
        have hlu := hp.laid u
        rw [hq1 u hu] at hlu
        generalize s.graph.curDpstIndex u = stk₀ at hlu hx
        cases hlu
        cases hx
    · have hk : s.graph.tempCurMap k = none := by
        by_cases hle : k ≤ s.taskIdCtr
        · exact (h.bodies k).mp (hq2 k hle)
        · exact h.fresh k (by omega)
      have hx : i ∈ ((s.graph.tempCurMap k).map AFTask.nodeId).toList := hx
      rw [hk] at hx
      cases hx
  · exact h6 i fun x hx => hi ⟨x, hx⟩

/-! ## Every run -/

theorem progress_init (main : Body false) :
    Progress main (init ⟨false, main⟩) fun i => if i = 1 then (main.trees false 0).1 else [] where
  tree := by
    refine ⟨⟨0, 1, 0, 0, .finish, 0⟩, List.mem_singleton_self _, rfl, ?_⟩
    refine completes_node.mpr ⟨rfl, ?_⟩
    exact completesAll_nil.mpr rfl
  laid t := by
    show Laid _ 0 (if t = 0 then _ else []) (Function.update (fun _ => []) 0 _ t)
    by_cases ht : t = 0
    · rw [ht, if_pos rfl, Function.update_self]
      exact Laid.cons (g := [⟨.noType, false, 1, 2⟩])
        (.closed rfl (fun h => nomatch h) rfl) .nil
    · rw [if_neg ht, Function.update_of_ne ht]
      exact .nil
  pending k b n hb := nomatch hb
  others i hi := by
    refine if_neg fun h1 => hi (.inl 0) ?_
    rw [h1]
    exact List.mem_singleton_self 1

/-- At any time of a run that follows the text, the log is on its way to the tree
    of the text; after `Fini` it has arrived. -/
theorem Run.progress {es : List (Event Code)} (h : Run Follows (init ⟨false, main⟩) es s) :
    (∃ fut, Progress main s fut) ∨
      s.finished = true ∧ ∃ fut : ℕ → List (Tree NodeLabel), (∀ i, fut i = []) ∧
        ∃ r ∈ s.graph.logged, r.parent = 0 ∧
          Completes treeShape (treeShape.children s.graph.logged) fut (textTree main) r := by
  induction h with
  | nil => exact .inl ⟨_, progress_init main⟩
  | @snoc es s s' e hr hok he ih =>
    have hreach := hr.reachable
    have ho := hreach.orderly
    have hs := hreach.sound.1
    rcases ih with ⟨fut, hp⟩ | ⟨hfin, -⟩
    · cases e with
      | work t w code => exact .inl ⟨fut, progress_work hp hok he⟩
      | entry t call code => exact .inl (progress_entry ho hs hp hok he)
      | register t => exact .inl (progress_register ho hs hp he)
      | execute t k => exact .inl ⟨fut, progress_execute hs hp he⟩
      | resume t => exact .inl ⟨fut, progress_resume hp he⟩
      | leave t => exact .inl ⟨fut, progress_leave ho hp he⟩
      | fini => exact .inr (complete_fini ho hs hp hok he)
    · exact absurd he (ho.no_step hfin)

/-- Nothing is due once every task has returned. -/
theorem Progress.fut_eq_nil (h : s.Orderly) (hp : Progress main s fut) (hf : s.finished = true)
    (i : ℕ) : fut i = [] := by
  obtain ⟨ht, hb⟩ := h.ended hf
  refine hp.others i fun x hx => ?_
  rcases x with t | k
  · have hx : i ∈ (s.graph.curDpstIndex t).map AFTask.nodeId := hx
    have hl := hp.laid t
    rw [ht t] at hl
    generalize s.graph.curDpstIndex t = stk at hl hx
    cases hl
    cases hx
  · have hx : i ∈ ((s.graph.tempCurMap k).map AFTask.nodeId).toList := hx
    rw [(h.bodies k).mp (hb k)] at hx
    cases hx

/-- The entry without a parent is the only one. -/
theorem childrenById_zero (ho : s.Ordered) (hg : Growing s.graph.logged) {r : LogEntry}
    (hr : r ∈ s.graph.logged) (h0 : r.parent = 0) :
    treeShape.childrenById s.graph.logged 0 = [r] := by
  have hmem : ∀ e ∈ treeShape.children s.graph.logged 0, e.nodeId = 1 := by
    intro e he
    obtain ⟨hel, hep⟩ := EntryShape.mem_children.mp he
    exact (hg.root e hel).mp hep
  have hin : r ∈ treeShape.children s.graph.logged 0 := EntryShape.mem_children.mpr ⟨hr, h0⟩
  have hone : treeShape.children s.graph.logged 0 = [r] := by
    have hsorted := ho.sorted 0
    generalize treeShape.children s.graph.logged 0 = l at hmem hin hsorted
    match l with
    | [] => cases hin
    | [e] => rw [List.mem_singleton.mp hin]
    | e :: f :: l =>
      have hlt := List.rel_of_pairwise_cons hsorted (List.mem_cons_self ..)
      rw [hmem e (List.mem_cons_self ..),
        hmem f (List.mem_cons_of_mem _ (List.mem_cons_self ..))] at hlt
      exact absurd hlt (lt_irrefl 1)
  unfold EntryShape.childrenById
  rw [hone, List.mergeSort_singleton]

/-- **Determinism.** Whatever the threads do, the log of a finished run of a
    fork-join program has one root, and reads as the tree of the text and no other. -/
theorem recorded_text {es : List (Event Code)} (h : Run Follows (init ⟨false, main⟩) es s)
    (hf : s.finished = true) : ∃ e, treeShape.childrenById s.graph.logged 0 = [e] ∧
      ∀ T, Reads treeShape s.graph.logged T e ↔ T = textTree main := by
  have hreach := h.reachable
  have hord := hreach.ordered
  have hgrow := hreach.sound.1.growing
  have hdone : ∃ fut : ℕ → List (Tree NodeLabel), (∀ i, fut i = []) ∧
      ∃ r ∈ s.graph.logged, r.parent = 0 ∧
        Completes treeShape (treeShape.children s.graph.logged) fut (textTree main) r := by
    rcases h.progress with ⟨fut, hp⟩ | ⟨-, hdone⟩
    · exact ⟨fut, hp.fut_eq_nil hreach.orderly hf, hp.tree⟩
    · exact hdone
  obtain ⟨fut, hfut, r, hr, h0, hc⟩ := hdone
  have hreads := reads_of_completes hord.sorted hc hfut
  exact ⟨r, childrenById_zero hord hgrow hr h0,
    fun T => ⟨fun hT => hT.unique hreads, fun hT => hT ▸ hreads⟩⟩

/-! ### A schedule of a program -/

/-- What a scheduler chooses: the next callback of a thread, the start of a task on
    a thread, or the end. -/
inductive Choice
  | advance (t : ThreadId)
  | start (t : ThreadId) (taskId : ℕ)
  | finish

/-- The event that is chosen. -/
def chosen (s : Sys Code) : Choice → Option (Event Code)
  | .advance t =>
    match s.threads t with
    | [] => none
    | a :: _ =>
      match a.phase with
      | .running => some (nextEvent t a.code)
      | .called _ => some (.register t)
      | .waitingRoot | .waitingAll => some (.resume t)
      | .leaving => some (.leave t)
  | .start t k => some (.execute t k)
  | .finish =>
    match s.threads 0 with
    | a :: _ => match a.code with
      | ⟨_, .ret⟩ => some .fini
      | _ => none
    | [] => none

/-- The run of a schedule. -/
def schedule (s : Sys Code) : List Choice → Option (Sys Code)
  | [] => some s
  | c :: cs =>
    match chosen s c with
    | none => none
    | some e => match s.step e with
      | some (.ok s') => schedule s' cs
      | _ => none

theorem nextEvent_thread (u : ThreadId) (c : Code) : (nextEvent u c).thread = u := by
  obtain ⟨o, c⟩ := c
  cases c <;> rfl

theorem chosen_follows {c : Choice} {e : Event Code} (h : chosen s c = some e) : Follows s e := by
  cases c with
  | advance t =>
    simp only [chosen] at h
    split at h
    · cases h
    · next a rest ht =>
      split at h
      · obtain rfl := Option.some.inj h
        have hthread := nextEvent_thread t a.code
        cases hn : nextEvent t a.code with
        | work u w code =>
          rw [hn] at hthread
          obtain rfl : u = t := hthread
          intro b l hb
          rw [ht] at hb
          rw [← (List.cons.inj hb).1, hn]
        | entry u call code =>
          rw [hn] at hthread
          obtain rfl : u = t := hthread
          intro b l hb
          rw [ht] at hb
          rw [← (List.cons.inj hb).1, hn]
        | fini =>
          generalize a.code = code at hn
          obtain ⟨o, c⟩ := code
          cases c <;> cases hn
        | _ => trivial
      all_goals
        obtain rfl := Option.some.inj h
        trivial
  | start t k =>
    obtain rfl := Option.some.inj h
    trivial
  | finish =>
    simp only [chosen] at h
    split at h
    · next a rest ht =>
      split at h
      · next o hcode =>
        obtain rfl := Option.some.inj h
        intro b l hb
        rw [ht] at hb
        exact ⟨o, by rw [← (List.cons.inj hb).1, hcode]⟩
      · cases h
    · cases h

theorem run_of_schedule {cs : List Choice} (h : schedule s cs = some s') :
    ∃ es, Run Follows s es s' := by
  have hgen : ∀ cs s₁ es, Run Follows s es s₁ → schedule s₁ cs = some s' →
      ∃ es, Run Follows s es s' := by
    intro cs
    induction cs with
    | nil =>
      intro s₁ es hr h
      obtain rfl : s₁ = s' := Option.some.inj h
      exact ⟨es, hr⟩
    | cons c cs ih =>
      intro s₁ es hr h
      unfold schedule at h
      split at h
      · cases h
      · next e he =>
        split at h
        · next s₂ hs => exact ih s₂ _ (hr.snoc (chosen_follows he) hs) h
        · cases h
  exact hgen cs s [] .nil h

/-- `main` spawns a task and waits for it. -/
def oneBlock : Body false :=
  .work 3 (.spawn ⟨64, some ['a'], 7, false⟩ (.work 5 .ret) (.work 2 (.wait (.work 4 .ret))))

/-- The task runs on thread 1. -/
def onTwoThreads : List Choice :=
  [.advance 0, .advance 0, .advance 0, .start 1 1, .advance 0, .advance 1, .advance 0, .advance 1,
    .advance 1, .advance 0, .advance 0, .finish]

theorem onTwoThreads_recorded : ∃ s e, schedule (init ⟨false, oneBlock⟩) onTwoThreads = some s ∧
    treeShape.childrenById s.graph.logged 0 = [e] ∧
      ∀ T, Reads treeShape s.graph.logged T e ↔ T = textTree oneBlock := by
  obtain ⟨s, hs⟩ := Option.isSome_iff_exists.mp
    (show (schedule (init ⟨false, oneBlock⟩) onTwoThreads).isSome = true by decide)
  have hf : (schedule (init ⟨false, oneBlock⟩) onTwoThreads).map Sys.finished = some true := by
    decide
  rw [hs, Option.map_some, Option.some.injEq] at hf
  obtain ⟨es, hr⟩ := run_of_schedule hs
  obtain ⟨e, he⟩ := recorded_text hr hf
  exact ⟨s, e, hs, he⟩

end Sys

end TaskProf.Collection
