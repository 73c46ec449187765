import TaskProf.Collection.CallSites
import TaskProf.Tbb.Begins

/-!
# The keys of `temp_cur_map`

What the calls of the tasks do to the map of the task graph.

* `run_tempCurMap`: the keys are the ids whose `CaptureSetTaskId` is not consumed.
* `step_changes`: an event changes the ids and the keys in one of three ways.
* `captureExecute_pending`: the tasks that find their node in an algorithm find it in
  the task graph.
* `begun_once`: when an algorithm has returned, every task that was registered has
  begun exactly once.
-/

namespace TaskProf.Tbb

open Collection (GraphOp AFTaskGraph ThreadId Site)

/-! ## The map of the graph -/

/-- The calls that change `temp_cur_map`. -/
def callOf : GraphOp → Option Call
  | .setTaskId _ taskId _ _ | .setTaskIdWait _ taskId _ => some (.setTaskId taskId)
  | .execute _ taskId => some (.execBegin taskId)
  | .wait _ | .waitOnly _ | .ret _ | .step _ _ => none

section Graph

variable {G G' : AFTaskGraph} {op : GraphOp} {ops : List GraphOp} {t : ThreadId} {taskId k : ℕ}
  {a : SizeT}

theorem insertTemp_keys (G : AFTaskGraph) (node : Collection.AFTask) :
    (G.insertTemp taskId node).tempCurMap k ≠ none ↔ k = taskId ∨ G.tempCurMap k ≠ none := by
  unfold AFTaskGraph.insertTemp
  by_cases hk : k = taskId
  · subst hk
    simp
  · simp [hk]

/-- Every spawn enters its id. -/
theorem capture_keys :
    (G.captureSpawnOnly t taskId a = .ok G' ∨ G.captureSpawnAndWait t taskId a = .ok G' ∨
      G.captureSpawnAndWaitForAll t taskId a = .ok G') →
    (G'.tempCurMap k ≠ none ↔ k = taskId ∨ G.tempCurMap k ≠ none) := by
  intro h
  cases hs : G.curDpstIndex t with
  | nil =>
    simp [AFTaskGraph.captureSpawnOnly, AFTaskGraph.captureSpawnAndWait,
      AFTaskGraph.captureSpawnAndWaitForAll, AFTaskGraph.newAsync, hs, bind, Except.bind] at h
  | cons curNode rest =>
    by_cases hy : curNode.youngNsChild = .async
    · rw [AFTaskGraph.captureSpawnOnly_async hs _ _ hy, AFTaskGraph.captureSpawnAndWait_eq hs,
        AFTaskGraph.captureSpawnAndWaitForAll_async hs _ _ hy] at h
      rcases h with h | h | h
      all_goals
        rw [← Except.ok.inj h]
        exact insertTemp_keys _ _
    · rw [AFTaskGraph.captureSpawnOnly_other hs _ _ hy, AFTaskGraph.captureSpawnAndWait_eq hs,
        AFTaskGraph.captureSpawnAndWaitForAll_other hs _ _ hy] at h
      rcases h with h | h | h
      all_goals
        rw [← Except.ok.inj h]
        exact insertTemp_keys _ _

theorem setTaskId_keys {site : Site} (hop : op.site = some site)
    (hc : callOf op = some (.setTaskId taskId)) (h : op.apply G = .ok G') : G'.tempCurMap k ≠ none ↔ k = taskId ∨ G.tempCurMap k ≠ none := by
  cases op with
  | setTaskId t taskId' spOnly site' =>
    obtain rfl := Call.setTaskId.inj (Option.some.inj hc)
    rw [← AFTaskGraph.recordSite_tempCurMap (G := G) site']
    apply capture_keys
    unfold GraphOp.apply AFTaskGraph.captureSetTaskId at h
    dsimp only at h
    split_ifs at h
    · exact .inl h
    · exact .inr (.inl h)
  | setTaskIdWait t taskId' site' =>
    obtain rfl := Call.setTaskId.inj (Option.some.inj hc)
    rw [← AFTaskGraph.recordSite_tempCurMap (G := G) site']
    exact capture_keys (.inr (.inr h))
  | execute | wait | waitOnly | ret | step => cases hop

/-- The other operations on the stacks leave the map. -/
theorem other_keys (hc : callOf op = none) (h : op.apply G = .ok G') :
    G'.tempCurMap = G.tempCurMap := by
  cases op with
  | setTaskId | setTaskIdWait | execute => cases hc
  | wait t =>
    cases hs : G.curDpstIndex t with
    | nil => simp [GraphOp.apply, AFTaskGraph.captureWait, AFTaskGraph.refreshChild, hs] at h
    | cons curNode rest =>
      rw [GraphOp.apply, AFTaskGraph.captureWait, AFTaskGraph.refreshChild_eq hs] at h
      rw [← Except.ok.inj h]
      rfl
  | waitOnly t =>
    cases hs : G.curDpstIndex t with
    | nil =>
      simp [GraphOp.apply, AFTaskGraph.captureWaitOnly, AFTaskGraph.pop, hs, bind, Except.bind] at h
    | cons curNode rest =>
      rw [GraphOp.apply, AFTaskGraph.captureWaitOnly_eq hs] at h
      have htop : (G.setStack t rest).curDpstIndex t = rest := Function.update_self ..
      cases rest with
      | nil => simp [AFTaskGraph.refreshChild] at h
      | cons node rest' =>
        rw [AFTaskGraph.refreshChild_eq htop] at h
        rw [← Except.ok.inj h]
        rfl
  | ret t =>
    obtain ⟨curNode, -, h⟩ := bind_eq_ok.mp h
    have hpop : ∀ {G G' : AFTaskGraph}, G.pop t = .ok G' → G'.tempCurMap = G.tempCurMap := by
      intro G G' h
      unfold AFTaskGraph.pop at h
      split at h
      · cases h
      · rw [← Except.ok.inj h]
        rfl
    split_ifs at h
    · obtain ⟨G₁, h1, h⟩ := bind_eq_ok.mp h
      obtain ⟨node, -, h⟩ := bind_eq_ok.mp h
      rw [hpop h, hpop h1]
    · exact hpop h
  | step t count =>
    obtain ⟨curNode, -, h⟩ := bind_eq_ok.mp h
    rw [← Except.ok.inj h]
    rfl

/-- `CaptureExecute` takes an id that is a key. -/
theorem captureExecute_ok_iff :
    (∃ G', G.captureExecute t taskId = .ok G') ↔ G.tempCurMap taskId ≠ none := by
  unfold AFTaskGraph.captureExecute
  cases G.tempCurMap taskId <;> simp

theorem execute_keys (h : (GraphOp.execute t taskId).apply G = .ok G') :
    G'.tempCurMap k ≠ none ↔ k ≠ taskId ∧ G.tempCurMap k ≠ none := by
  obtain ⟨node, hn⟩ := Option.ne_none_iff_exists'.mp (captureExecute_ok_iff.mp ⟨G', h⟩)
  rw [GraphOp.apply, AFTaskGraph.captureExecute_eq hn] at h
  rw [← Except.ok.inj h]
  show Function.update G.tempCurMap taskId none k ≠ none ↔ _
  by_cases hk : k = taskId
  · subst hk
    simp
  · rw [Function.update_of_ne hk, and_iff_right hk]

/-- The keys are the ids whose `CaptureSetTaskId` is not consumed. -/
theorem run_tempCurMap (h : GraphOp.run ops = .ok G) (k : ℕ) :
    G.tempCurMap k ≠ none ↔ Unconsumed (ops.filterMap callOf) k := by
  induction ops using List.reverseRecOn generalizing G with
  | nil =>
    rw [← Except.ok.inj h]
    exact iff_of_false (fun hne => hne rfl) (not_unconsumed_nil k)
  | append_singleton ops op ih =>
    unfold GraphOp.run at h
    rw [List.foldlM_append] at h
    obtain ⟨G₁, h1, h⟩ := bind_eq_ok.mp h
    obtain ⟨G₂, h2, h⟩ := bind_eq_ok.mp h
    obtain rfl : G₂ = G := Except.ok.inj h
    have ih := ih h1
    rw [List.filterMap_append]
    cases hc : callOf op with
    | none =>
      rw [List.filterMap_cons_none hc, List.filterMap_nil, List.append_nil, other_keys hc h2, ih]
    | some c =>
      rw [List.filterMap_cons_some hc, List.filterMap_nil, unconsumed_concat, ← ih]
      cases c with
      | setTaskId taskId =>
        have hsite : ∃ site, op.site = some site := by
          cases op with
          | setTaskId | setTaskIdWait => exact ⟨_, rfl⟩
          | execute | wait | waitOnly | ret | step => cases hc
        obtain ⟨site, hsite⟩ := hsite
        rw [setTaskId_keys hsite hc h2]
        simp [eq_comm]
      | execBegin taskId =>
        cases op with
        | execute t taskId' =>
          obtain rfl := Call.execBegin.inj (Option.some.inj hc)
          rw [execute_keys h2]
          simp [eq_comm]
        | setTaskId | setTaskIdWait | wait | waitOnly | ret | step => cases hc

end Graph

/-! ## The calls of an algorithm -/

section Steps

variable {ρ χ R : Type} {P : Behaviour ρ χ R} {w w' w₀ : World ρ R} {x : ℕ}

/-- Nothing changes, a new id is entered, or a key is consumed. -/
inductive Changes (w w' : World ρ R) : Prop
  | same (h : SameIds w w')
  | spawn (hctr : w'.taskIdCtr = w.taskIdCtr + 1)
      (hmap : w'.tempCurMap = Function.update w.tempCurMap (w.taskIdCtr + 1) true)
      (hcalls : w'.calls = w.calls ++ [.setTaskId (w.taskIdCtr + 1)])
  | begin (k : ℕ) (hctr : w'.taskIdCtr = w.taskIdCtr) (hk : w.tempCurMap k = true)
      (hmap : w'.tempCurMap = Function.update w.tempCurMap k false)
      (hcalls : w'.calls = w.calls ++ [.execBegin k])

theorem SameIds.refl (w : World ρ R) : SameIds w w := ⟨rfl, rfl, rfl⟩

theorem SameIds.trans (h : SameIds w₀ w) (h' : SameIds w w') : SameIds w₀ w' :=
  ⟨h'.taskIdCtr.trans h.taskIdCtr, h'.tempCurMap.trans h.tempCurMap, h'.calls.trans h.calls⟩

/-- A spawn after steps that change nothing. -/
theorem SameIds.spawn (h : SameIds w₀ w) (x : ℕ) (pooled : Bool) :
    Changes w₀ (w.spawn x pooled) := by
  obtain ⟨h1, h2, h3⟩ := h
  refine .spawn ?_ ?_ ?_
  · rw [← h1]
    rfl
  · rw [← h1, ← h2]
    rfl
  · rw [← h1, ← h3]
    rfl

theorem SameIds.destroy (w : World ρ R) (x : ℕ) : SameIds w (w.destroy x) := by
  unfold World.destroy
  cases (w.tasks x).bind Task.parent <;> exact ⟨rfl, rfl, rfl⟩

theorem SameIds.writeSlot {slot : Slot} {n : Option ℕ} (h : w.writeSlot slot n = .ok w') :
    SameIds w w' := by
  cases slot with
  | root =>
    rw [← Except.ok.inj h]
    exact ⟨rfl, rfl, rfl⟩
  | left m | right m =>
    obtain ⟨f, -, h⟩ := bind_eq_ok.mp h
    rw [← Except.ok.inj h]
    exact ⟨rfl, rfl, rfl⟩

theorem SameIds.createChild {range : R} {f n incoming : Option ℕ} {stuffLast : Bool} {b : ℕ}
    (h : w.createChild x range f n incoming stuffLast = .ok (b, w')) : SameIds w w' := by
  unfold World.createChild at h
  split at h
  · cases h
  · obtain ⟨-, rfl⟩ := Prod.mk.inj (Except.ok.inj h)
    exact ⟨rfl, rfl, rfl⟩
  · obtain ⟨node, -, h⟩ := bind_eq_ok.mp h
    obtain ⟨-, rfl⟩ := Prod.mk.inj (Except.ok.inj h)
    exact ⟨rfl, rfl, rfl⟩

theorem SameIds.finish (w : World ρ R) (x : ℕ) (recycled : Bool) (next : Option ℕ) :
    SameIds w (w.finish x recycled next) := by
  unfold World.finish World.runNext World.tally
  cases recycled <;> cases next <;> cases (w.tasks x).bind Task.parent <;> exact ⟨rfl, rfl, rfl⟩

theorem runStartFor_changes (work : ρ) (choice : χ) : Changes w (w.runStartFor P x work choice) := by
  unfold World.runStartFor
  cases P.next work choice with
  | offerWork rest right => exact .spawn rfl rfl rfl
  | runBody rest | done => exact .same ⟨rfl, rfl, rfl⟩

theorem runSpawner_changes {n : ℕ} {loc : Loc} (h : w.runSpawner x n loc = some w') :
    Changes w w' := by
  cases loc with
  | entered =>
    rw [← Option.some.inj h]
    exact .same ⟨rfl, rfl, rfl⟩
  | spawning left =>
    cases left with
    | zero | succ left =>
      rw [← Option.some.inj h]
      exact .spawn rfl rfl rfl
  | waiting =>
    unfold World.runSpawner at h
    split_ifs at h
    rw [← Option.some.inj h]
    exact .same ⟨rfl, rfl, rfl⟩
  | returning => cases h

theorem runStartScan_changes {task : Task ρ R} {f : StartScan R}
    (h : w.runStartScan P x task f = .ok w') : Changes w w' := by
  obtain ⟨⟨stolen, f₁, w₁⟩, h1, h⟩ := bind_eq_ok.mp h
  have hsame : SameIds w w₁ := by
    unfold World.treatAsStolen at h1
    split_ifs at h1
    · obtain ⟨-, -, rfl⟩ := Prod.mk.inj (Except.ok.inj h1)
      exact .refl _
    · obtain ⟨p, -, h1⟩ := bind_eq_ok.mp h1
      obtain ⟨result, -, h1⟩ := bind_eq_ok.mp h1
      split_ifs at h1
      · dsimp only at h1
        split at h1
        · cases h1
        · obtain ⟨-, -, rfl⟩ := Prod.mk.inj (Except.ok.inj h1)
          exact ⟨rfl, rfl, rfl⟩
      · obtain ⟨-, -, rfl⟩ := Prod.mk.inj (Except.ok.inj h1)
        exact .refl _
  have hleaf : ∀ {f : StartScan R}, w₁.scanLeaf x f = .ok w' → Changes w w' := by
    intro f h
    unfold World.scanLeaf at h
    split at h
    · rw [← Except.ok.inj h]
      exact .same (hsame.trans ⟨rfl, rfl, rfl⟩)
    · obtain ⟨node, -, h⟩ := bind_eq_ok.mp h
      rw [← Except.ok.inj h]
      exact .same (hsame.trans ⟨rfl, rfl, rfl⟩)
  dsimp only at h
  split_ifs at h
  · exact hleaf h
  · exact hleaf h
  · rw [← Except.ok.inj h]
    unfold World.scanSplit
    apply SameIds.spawn
    apply hsame.trans
    cases f₁.parentSum <;> exact ⟨rfl, rfl, rfl⟩

theorem runSumNode_changes {f : SumNode R} (h : w.runSumNode P x f = .ok w') : Changes w w' := by
  unfold World.runSumNode at h
  split at h
  · rw [← Except.ok.inj h]
    exact .same ⟨rfl, rfl, rfl⟩
  · obtain ⟨⟨b, w₁⟩, h1, h⟩ := bind_eq_ok.mp h
    have hsame := SameIds.createChild h1
    dsimp only at h
    split_ifs at h
    · rw [← Except.ok.inj h]
      exact .same (hsame.trans ⟨rfl, rfl, rfl⟩)
    · obtain ⟨⟨a, w₂⟩, h2, h⟩ := bind_eq_ok.mp h
      rw [← Except.ok.inj h]
      apply SameIds.spawn
      exact (hsame.trans (SameIds.createChild h2)).trans ⟨rfl, rfl, rfl⟩

/-- The zombie is destroyed after `sum` has been passed on or destroyed. -/
theorem SameIds.destroy_if {w₁ : World ρ R} (h : SameIds w w₁) (c : Prop) [Decidable c] (y : ℕ) :
    SameIds w (if c then w₁.destroy y else w₁) := by
  split_ifs
  · exact h.trans (SameIds.destroy _ _)
  · exact h

theorem runFinishScan_changes {f : FinishScan} (h : w.runFinishScan x f = .ok w') : Changes w w' := by
  unfold World.runFinishScan at h
  obtain ⟨result, -, h⟩ := bind_eq_ok.mp h
  dsimp only at h
  by_cases hslot : f.rightZombie.isSome = true ∨ result.right.isSome = true
  · rw [if_pos hslot] at h
    obtain ⟨w₁, h1, h⟩ := bind_eq_ok.mp h
    rw [← Except.ok.inj h]
    have hsame : SameIds w w₁ := by
      refine SameIds.trans ?_ (SameIds.writeSlot h1)
      exact ⟨rfl, rfl, rfl⟩
    apply Changes.same
    split
    · exact hsame.trans ⟨rfl, rfl, rfl⟩
    · exact (hsame.destroy_if _ _).trans ⟨rfl, rfl, rfl⟩
  · rw [if_neg hslot] at h
    obtain ⟨w₁, h1, h⟩ := bind_eq_ok.mp h
    rw [← Except.ok.inj h]
    have hsame : SameIds w w₁ := by
      rw [← Except.ok.inj h1]
      refine SameIds.trans ?_ (SameIds.destroy _ _)
      exact ⟨rfl, rfl, rfl⟩
    apply Changes.same
    split
    · exact hsame.trans ⟨rfl, rfl, rfl⟩
    · exact (hsame.destroy_if _ _).trans ⟨rfl, rfl, rfl⟩

theorem run_changes (h : w.run P x = some (.ok w')) : Changes w w' := by
  unfold World.run at h
  split at h
  · cases h
  · split at h
    · rw [← Except.ok.inj (Option.some.inj h)]
      exact .same (.finish _ _ _ _)
    · rw [← Except.ok.inj (Option.some.inj h)]
      exact .same ⟨rfl, rfl, rfl⟩
    · rw [← Except.ok.inj (Option.some.inj h)]
      exact .same ⟨rfl, rfl, rfl⟩
    · rw [← Except.ok.inj (Option.some.inj h)]
      exact .same ⟨rfl, rfl, rfl⟩
    · obtain ⟨w₁, h1, h⟩ := Option.map_eq_some_iff.mp h
      rw [← Except.ok.inj h]
      exact runSpawner_changes h1
    · exact runSumNode_changes (Option.some.inj h)
    · exact runFinishScan_changes (Option.some.inj h)
    · exact runStartScan_changes (Option.some.inj h)
    · cases h

theorem resume_changes {d : ℕ} {after : After} (h : w.resume d after = .ok w') : Changes w w' := by
  cases after with
  | done =>
    rw [← Except.ok.inj h]
    exact .same ⟨rfl, rfl, rfl⟩
  | firstPass tempBody =>
    unfold World.resume at h
    dsimp only at h
    split at h
    · rw [← Except.ok.inj h]
      exact .same ⟨rfl, rfl, rfl⟩
    · obtain ⟨f, -, h⟩ := bind_eq_ok.mp h
      rw [← Except.ok.inj h]
      exact .spawn rfl rfl rfl

theorem runCaller_changes (h : w.runCaller = some (.ok w')) : Changes w w' := by
  unfold World.runCaller at h
  split at h
  · rw [← Except.ok.inj (Option.some.inj h)]
    exact .spawn rfl rfl rfl
  · split at h
    · cases h
    · rw [← Except.ok.inj (Option.some.inj h)]
      exact .same ⟨rfl, rfl, rfl⟩
  · rw [← Except.ok.inj (Option.some.inj h)]
    exact .spawn rfl rfl rfl
  · rw [← Except.ok.inj (Option.some.inj h)]
    exact .spawn rfl rfl rfl
  · rw [← Except.ok.inj (Option.some.inj h)]
    exact .spawn rfl rfl rfl
  · split_ifs at h
    exact resume_changes (Option.some.inj h)
  · cases h

/-- What an event does to the ids and the keys. -/
theorem step_changes {e : Event χ} (h : w.step P e = some (.ok w')) : Changes w w' := by
  cases e with
  | start x stolen =>
    obtain ⟨task, pooled, -, -, -, ⟨-, hw⟩ | ⟨-, k, -, hk, hw⟩ | ⟨-, -, hw⟩⟩ := start_cases h
    · rw [Except.ok.inj hw]
      exact .same ⟨rfl, rfl, rfl⟩
    · rw [Except.ok.inj hw]
      exact .begin k rfl hk rfl rfl
    · cases hw
  | callback x choice =>
    have h : w.callback P x choice = some (.ok w') := h
    unfold World.callback at h
    split at h
    · cases h
    · split at h
      · rw [← Except.ok.inj (Option.some.inj h)]
        exact runStartFor_changes _ _
      · cases h
  | run x => exact run_changes h
  | caller => exact runCaller_changes h

end Steps

/-! ## Every id once -/

/-- The ids up to `task_id_ctr` are registered once, and an id that is no key any more
    has begun once. -/
structure Ledger {ρ R : Type} (w : World ρ R) : Prop where
  given : ∀ k, w.calls.count (.setTaskId k) = if 1 ≤ k ∧ k ≤ w.taskIdCtr then 1 else 0
  begun : ∀ k, w.calls.count (.execBegin k) + (if w.tempCurMap k = true then 1 else 0) =
    w.calls.count (.setTaskId k)

section Ledger

variable {ρ χ R : Type} {P : Behaviour ρ χ R} {alg : Algorithm ρ R} {w w' : World ρ R}

theorem Ledger.init (alg : Algorithm ρ R) : Ledger (World.init alg) where
  given k := by
    rw [if_neg]
    · rfl
    · rintro ⟨h1, h2⟩
      exact absurd (h1.trans h2) (Nat.not_succ_le_zero 0)
  begun _ := rfl

/-- A key is an id that has been given out. -/
theorem Ledger.key_le (h : Ledger w) {k : ℕ} (hk : w.tempCurMap k = true) :
    1 ≤ k ∧ k ≤ w.taskIdCtr := by
  by_contra hno
  have hgiven := h.given k
  have hbegun := h.begun k
  rw [if_neg hno] at hgiven
  rw [if_pos hk] at hbegun
  omega

theorem Ledger.changes (h : Ledger w) (hc : Changes w w') : Ledger w' := by
  cases hc with
  | same hs =>
    constructor
    · rw [hs.calls, hs.taskIdCtr]
      exact h.given
    · rw [hs.calls, hs.tempCurMap]
      exact h.begun
  | spawn hctr hmap hcalls =>
    constructor
    · intro k
      rw [hcalls, hctr, List.count_append, h.given]
      by_cases hk : k = w.taskIdCtr + 1
      · subst hk
        simp
      · have hnone : [Call.setTaskId (w.taskIdCtr + 1)].count (.setTaskId k) = 0 := by
          simp [Ne.symm hk]
        rw [hnone, Nat.add_zero]
        apply if_congr _ rfl rfl
        omega
    · intro k
      have hbegun := h.begun k
      rw [hcalls, hmap, List.count_append, List.count_append]
      by_cases hk : k = w.taskIdCtr + 1
      · subst hk
        have hnew : ¬ w.tempCurMap (w.taskIdCtr + 1) = true := by
          intro hkey
          have := h.key_le hkey
          omega
        rw [if_neg hnew] at hbegun
        rw [Function.update_self]
        simp
        omega
      · rw [Function.update_of_ne hk]
        simpa [Ne.symm hk] using hbegun
  | begin k hctr hk hmap hcalls =>
    constructor
    · intro j
      rw [hcalls, hctr, List.count_append, h.given]
      simp
    · intro j
      have hbegun := h.begun j
      rw [hcalls, hmap, List.count_append, List.count_append]
      by_cases hj : j = k
      · subst hj
        rw [if_pos hk] at hbegun
        rw [Function.update_self]
        simp
        omega
      · rw [Function.update_of_ne hj]
        simpa [Ne.symm hj] using hbegun

theorem Reachable.ledger (h : Reachable P alg w) : Ledger w := by
  induction h with
  | init => exact .init alg
  | step _ he ih => exact ih.changes (step_changes he)

/-- **Found in the task graph.** Let an algorithm run that splits no scan, and let the
    threads perform its calls on a new task graph. Between them they may wait, return and
    log steps, but nothing else registers or begins tasks. Then every task that is about
    to call `__exec_begin__` has an id, and `CaptureExecute` on any thread finds the node
    of this id. -/
theorem captureExecute_pending (halg : alg.Unsplit P) (h : Reachable P alg w)
    {ops : List GraphOp} {G : AFTaskGraph} (hrun : GraphOp.run ops = .ok G)
    (hops : ops.filterMap callOf = w.calls) {x : ℕ} {task : Task ρ R}
    (hx : w.tasks x = some task) (hp : task.pending = true) :
    ∃ k, task.taskId = some k ∧ ∀ t, ∃ G', G.captureExecute t k = .ok G' := by
  have hreg := (h.safe halg).registered
  have hpx : w.pending x = true := by
    rw [pending_of hx]
    exact hp
  obtain ⟨k, hk⟩ := hreg.hasId x hpx
  have hmap := hreg.mem hpx hk
  rw [idOf_of hx] at hk
  refine ⟨k, hk, fun t => captureExecute_ok_iff.mpr ?_⟩
  rw [run_tempCurMap hrun, hops, ← hreg.log]
  exact hmap

/-- A `parallel_for` over two indices has offered the second one: the first task has begun
    on thread 1, the second finds its node on any thread. -/
theorem parallelFor_captureExecute : ∃ G,
    GraphOp.run [.setTaskId 0 1 false ⟨0, none, 0, false⟩, .step 0 3, .execute 1 1,
      .setTaskId 1 2 true ⟨0, none, 0, false⟩, .step 1 5] = .ok G ∧
      ∃ k, ∀ t, ∃ G', G.captureExecute t k = .ok G' := by
  have halg : (Algorithm.parallelFor (some (BlockedRange.mk 2 0 1))).Unsplit simpleBehaviour :=
    trivial
  let w₀ : World (Option BlockedRange) BlockedRange := .init (.parallelFor (some ⟨2, 0, 1⟩))
  have h₀ : Reachable simpleBehaviour (.parallelFor (some ⟨2, 0, 1⟩)) w₀ := .init
  have h₁ := h₀.step (e := .caller) rfl
  have h₂ := h₁.step (e := .start 0 false) rfl
  have h₃ := h₂.step (e := .callback 0 ()) rfl
  have h₄ := h₃.step (e := .callback 0 ()) rfl
  obtain ⟨G, hrun⟩ : ∃ G, GraphOp.run [.setTaskId 0 1 false ⟨0, none, 0, false⟩, .step 0 3,
      .execute 1 1, .setTaskId 1 2 true ⟨0, none, 0, false⟩, .step 1 5] = .ok G := ⟨_, rfl⟩
  obtain ⟨k, -, hk⟩ := captureExecute_pending halg h₄ hrun rfl (x := 3) rfl rfl
  exact ⟨G, hrun, k, hk⟩

/-- **Every task once.** When an algorithm that splits no scan has returned, and it is the
    first in the process that spawns tasks and the only one, no task is left, and every id
    up to `task_id_ctr` has been registered once and has begun once; no other id has. -/
theorem begun_once (halg : alg.Unsplit P) (h : Reachable P alg w) (hret : w.caller = .returned) :
    (∀ x, w.tasks x = none) ∧
    ∀ k, w.calls.count (.setTaskId k) = (if 1 ≤ k ∧ k ≤ w.taskIdCtr then 1 else 0) ∧
      w.calls.count (.execBegin k) = w.calls.count (.setTaskId k) := by
  have hsafe := h.safe halg
  have hnone : ∀ x, w.tasks x = none := by
    have hstage := hsafe.stage
    rw [hret] at hstage
    cases hstage with
    | returned hnone => exact hnone
  refine ⟨hnone, fun k => ⟨h.ledger.given k, ?_⟩⟩
  have hkey : ¬ w.tempCurMap k = true := by
    intro hk
    obtain ⟨x, hp, -⟩ := (hsafe.registered.keys k).mp hk
    rw [pending_of (hnone x)] at hp
    cases hp
  have hbegun := h.ledger.begun k
  rw [if_neg hkey] at hbegun
  exact hbegun

/-- A `parallel_for` over two indices, of which the second is stolen. -/
theorem parallelFor_begun : ∃ w, Reachable simpleBehaviour (.parallelFor (some ⟨2, 0, 1⟩)) w ∧
    w.taskIdCtr = 2 ∧ ∀ k, w.calls.count (.execBegin k) = w.calls.count (.setTaskId k) := by
  obtain ⟨w, hw, hret, hctr⟩ : ∃ w,
      Reachable simpleBehaviour (.parallelFor (some ⟨2, 0, 1⟩)) w ∧ w.caller = .returned ∧
        w.taskIdCtr = 2 := by
    let w₀ : World (Option BlockedRange) BlockedRange := .init (.parallelFor (some ⟨2, 0, 1⟩))
    have h₀ : Reachable simpleBehaviour (.parallelFor (some ⟨2, 0, 1⟩)) w₀ := .init
    have h₁ := h₀.step (e := .caller) rfl
    -- the first task offers an index to the second and executes the other
    have h₂ := h₁.step (e := .start 0 false) rfl
    have h₃ := h₂.step (e := .callback 0 ()) rfl
    have h₄ := h₃.step (e := .callback 0 ()) rfl
    have h₅ := h₄.step (e := .callback 0 ()) rfl
    have h₆ := h₅.step (e := .run 0) rfl
    have h₇ := h₆.step (e := .start 3 true) rfl
    have h₈ := h₇.step (e := .callback 3 ()) rfl
    have h₉ := h₈.step (e := .callback 3 ()) rfl
    have h₁₀ := h₉.step (e := .run 3) rfl
    -- the flag task of the two
    have h₁₁ := h₁₀.step (e := .start 2 false) rfl
    have h₁₂ := h₁₁.step (e := .run 2) rfl
    have h₁₃ := h₁₂.step (e := .run 2) rfl
    have h₁₄ := h₁₃.step (e := .caller) rfl
    exact ⟨_, h₁₄, rfl, rfl⟩
  have halg : (Algorithm.parallelFor (some (BlockedRange.mk 2 0 1))).Unsplit simpleBehaviour :=
    trivial
  exact ⟨w, hw, hctr, fun k => ((begun_once halg hw hret).2 k).2⟩

end Ledger

end TaskProf.Tbb
