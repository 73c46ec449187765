import TaskProf.Tbb.Registered
import TaskProf.Tbb.Tree

/-!
# Steps of `parallel_for` and `parallel_invoke`

In any order of the steps, no step of these algorithms is a fault, and each keeps
the two invariants `Registered` and `Tree`.

* `start_safe`, `callback_safe`, `run_safe`: the steps of a task.
* `tree_parallelFor`, `tree_parallelInvoke`, `registered_spawnRootAndWait`: the calls.
-/

namespace TaskProf.Tbb

variable {ρ χ R : Type}

/-! ## Registered tasks in a state -/

section Registered

variable {w w' : World ρ R} {x : ℕ} {o : Option (Task ρ R)} {task task' : Task ρ R}

theorem idOf_eq (h : w'.tasks = Function.update w.tasks x o) :
    w'.idOf = Function.update w.idOf x (o.bind Task.taskId) := by
  show (fun o : Option (Task ρ R) => o.bind Task.taskId) ∘ w'.tasks = _
  rw [h]
  exact Function.comp_update ..

theorem pending_eq (h : w'.tasks = Function.update w.tasks x o) :
    w'.pending = Function.update w.pending x ((o.map Task.pending).getD false) := by
  show (fun o : Option (Task ρ R) => (o.map Task.pending).getD false) ∘ w'.tasks = _
  rw [h]
  exact Function.comp_update ..

theorem idOf_of (hx : w.tasks x = o) : w.idOf x = o.bind Task.taskId := by
  unfold World.idOf
  rw [hx]

theorem pending_of (hx : w.tasks x = o) : w.pending x = (o.map Task.pending).getD false := by
  unfold World.pending
  rw [hx]

/-- The ids, the map and the calls stay as they are. -/
structure SameIds (w w' : World ρ R) : Prop where
  taskIdCtr : w'.taskIdCtr = w.taskIdCtr
  tempCurMap : w'.tempCurMap = w.tempCurMap
  calls : w'.calls = w.calls

/-- A task changes, but not its id, and it is as pending as before. -/
theorem World.Registered.modify (h : w.Registered) (hx : w.tasks x = some task)
    (ht : w'.tasks = Function.update w.tasks x (some task')) (hs : SameIds w w')
    (hid : task'.taskId = task.taskId) (hp : task'.pending = task.pending) : w'.Registered := by
  have hids : w'.idOf = w.idOf := by
    rw [idOf_eq ht, Function.update_eq_self_iff, idOf_of hx]
    exact hid
  have hpending : w'.pending = w.pending := by
    rw [pending_eq ht, Function.update_eq_self_iff, pending_of hx]
    exact hp
  unfold World.Registered
  rw [hids, hpending, hs.taskIdCtr, hs.tempCurMap, hs.calls]
  exact h

/-- A task that is not pending is destroyed. -/
theorem World.Registered.free (h : w.Registered) (hx : w.tasks x = some task)
    (hp : task.pending = false) : (w.free x).Registered := by
  have ht : (w.free x).tasks = Function.update w.tasks x none := rfl
  have hpx : w.pending x = false := by
    rw [pending_of hx]
    exact hp
  have hpending : (w.free x).pending = w.pending := by
    rw [pending_eq ht, Function.update_eq_self_iff, hpx]
    rfl
  unfold World.Registered
  rw [idOf_eq ht, hpending]
  exact Tbb.Registered.free h hpx

/-- A new task that is not spawned yet. -/
theorem World.Registered.alloc (h : w.Registered) (hfresh : w.tasks w.next = none)
    (hid : task.taskId = none) (hp : task.pending = false) : (w.alloc task).Registered := by
  have ht : (w.alloc task).tasks = Function.update w.tasks w.next (some task) := rfl
  have hids : (w.alloc task).idOf = w.idOf := by
    rw [idOf_eq ht, Function.update_eq_self_iff, idOf_of hfresh]
    exact hid
  have hpending : (w.alloc task).pending = w.pending := by
    rw [pending_eq ht, Function.update_eq_self_iff, pending_of hfresh]
    exact hp
  unfold World.Registered
  rw [hids, hpending]
  exact h

theorem tasks_spawn (hx : w.tasks x = some task) (pooled : Bool) :
    (w.spawn x pooled).tasks = Function.update w.tasks x
      (some { task with taskId := some (w.taskIdCtr + 1), status := .ready pooled }) := by
  show Function.update w.tasks x ((w.tasks x).map _) = _
  rw [hx]
  rfl

/-- A task without an id is spawned. -/
theorem World.Registered.spawn (h : w.Registered) (hx : w.tasks x = some task)
    (hid : task.taskId = none) (hi : task.cls.instrumented = true) (pooled : Bool) :
    (w.spawn x pooled).Registered := by
  have ht := tasks_spawn hx pooled
  have hidx : w.idOf x = none := by
    rw [idOf_of hx]
    exact hid
  unfold World.Registered
  rw [idOf_eq ht, pending_eq ht]
  have hp : ((some { task with taskId := some (w.taskIdCtr + 1), status := Status.ready pooled }).map
      Task.pending).getD false = true := hi
  rw [hp]
  exact Tbb.Registered.spawn h hidx

end Registered

/-! ## Steps of the scheduler -/

section Start

variable {w : World ρ R} {x : ℕ} {stolen : Bool} {r : Except Fault (World ρ R)}

/-- The state after the start of a task. -/
def World.started (w : World ρ R) (x : ℕ) (task : Task ρ R) (stolen : Bool) : World ρ R :=
  { w with
    tasks := Function.update w.tasks x
      (some { task with status := .executing .entered, stolen := stolen }) }

/-- A start finds the id of the task in the map, or throws. -/
theorem start_cases (h : w.start x stolen = some r) :
    ∃ task pooled, w.tasks x = some task ∧ task.status = .ready pooled ∧
      (stolen = true → pooled = true) ∧
      ((task.cls.instrumented = false ∧ r = .ok (w.started x task stolen)) ∨
        (task.cls.instrumented = true ∧ ∃ k, task.taskId = some k ∧ w.tempCurMap k = true ∧
          r = .ok { w.started x task stolen with
            tempCurMap := Function.update w.tempCurMap k false
            calls := w.calls ++ [.execBegin k] }) ∨
        (task.cls.instrumented = true ∧ (∀ k, task.taskId = some k → w.tempCurMap k = false) ∧
          r = .error .missingKey)) := by
  unfold World.start at h
  cases hx : w.tasks x with
  | none =>
    rw [hx] at h
    cases h
  | some task =>
    rw [hx] at h
    dsimp only at h
    cases hs : task.status with
    | allocated | executing =>
      rw [hs] at h
      cases h
    | ready pooled =>
      rw [hs] at h
      dsimp only at h
      split_ifs at h with hst hi
      all_goals
        have hpool : stolen = true → pooled = true := by
          intro h1
          by_contra h2
          exact hst ⟨h1, Bool.eq_false_iff.mpr h2⟩
      · obtain rfl := Option.some.inj h
        refine ⟨task, pooled, rfl, hs, hpool, .inr ?_⟩
        cases hk : task.taskId with
        | none =>
          exact .inr ⟨hi, by simp, rfl⟩
        | some k =>
          unfold World.execBegin
          dsimp only
          split_ifs with hmap
          · refine .inl ⟨hi, k, rfl, hmap, ?_⟩
            show Except.ok (World.modify _ x _) = _
            unfold World.modify World.started
            dsimp only
            rw [hx]
            rfl
          · refine .inr ⟨hi, fun j hj => ?_, rfl⟩
            obtain rfl := Option.some.inj hj
            exact Bool.eq_false_iff.mpr hmap
      · obtain rfl := Option.some.inj h
        refine ⟨task, pooled, rfl, hs, hpool, .inl ⟨Bool.eq_false_iff.mpr hi, ?_⟩⟩
        show Except.ok (World.modify _ x _) = _
        unfold World.modify World.started
        rw [hx]
        rfl

/-- The start of a task, when the ids of the pending tasks are in the map. -/
theorem start_registered (hreg : w.Registered) (h : w.start x stolen = some r) :
    ∃ w' task pooled, r = .ok w' ∧ w'.Registered ∧ w.tasks x = some task ∧
      task.status = .ready pooled ∧ (stolen = true → pooled = true) ∧
      w'.tasks = (w.started x task stolen).tasks ∧ w'.next = w.next ∧ w'.root = w.root ∧
      w'.caller = w.caller := by
  obtain ⟨task, pooled, hx, hs, hpool, hcases⟩ := start_cases h
  have hpending : task.pending = task.cls.instrumented := by
    unfold Task.pending
    rw [hs]
  have hpx : w.pending x = task.cls.instrumented := by
    rw [pending_of hx, ← hpending]
    rfl
  rcases hcases with ⟨hi, rfl⟩ | ⟨hi, k, hk, hmap, rfl⟩ | ⟨hi, hno, rfl⟩
  · refine ⟨_, task, pooled, rfl, ?_, hx, hs, hpool, rfl, rfl, rfl, rfl⟩
    exact hreg.modify hx rfl ⟨rfl, rfl, rfl⟩ rfl (by rw [hpending, hi]; rfl)
  · refine ⟨_, task, pooled, rfl, ?_, hx, hs, hpool, rfl, rfl, rfl, rfl⟩
    have hidx : w.idOf x = some k := by
      rw [idOf_of hx]
      exact hk
    have hids : (w.started x task stolen).idOf = w.idOf := by
      rw [idOf_eq (w := w) (x := x) rfl, Function.update_eq_self_iff, hidx]
      exact hk
    have hp : (w.started x task stolen).pending = Function.update w.pending x false := by
      rw [pending_eq (w := w) (x := x) rfl]
      rfl
    have hbegin := Tbb.Registered.begin hreg (hpx.trans hi) hidx
    rw [← hids, ← hp] at hbegin
    exact hbegin
  · obtain ⟨k, hk⟩ := hreg.hasId x (hpx.trans hi)
    have hmap := hreg.mem (hpx.trans hi) hk
    rw [idOf_of hx] at hk
    rw [hno k hk] at hmap
    cases hmap

end Start

section Tasks

variable {w : World ρ R} {x root : ℕ} {task : Task ρ R}

/-- A task that runs is not the root. -/
theorem Tree.ne_root (h : Tree w root) (hx : w.tasks x = some task) {loc : Loc}
    (hs : task.status = .executing loc) : x ≠ root := by
  rintro rfl
  obtain ⟨t, ht, -, hstatus⟩ := h.rootTask
  obtain rfl := Option.some.inj (hx.symm.trans ht)
  rw [hs] at hstatus
  cases hstatus

/-- A call of `execute` that does not wait has no child. -/
theorem Task.Ok.refCount (h : task.Ok) (hs : task.status.Idle) : task.refCount = 0 := by
  rcases h.status with ⟨-, h0⟩ | ⟨-, h0⟩ | ⟨n, -, ⟨left, h0⟩ | h0⟩
  · exact h0
  all_goals
    rw [h0] at hs
    cases hs

/-- A ready task of the tree is started. -/
theorem start_safe (hreg : w.Registered) (htree : Tree w root) {stolen : Bool}
    {r : Except Fault (World ρ R)} (h : w.start x stolen = some r) :
    ∃ w', r = .ok w' ∧ w'.Registered ∧ Tree w' root ∧ w'.caller = w.caller := by
  obtain ⟨w', task, pooled, hr, hreg', hx, hs, -, ht, hnext, -, hcaller⟩ := start_registered hreg h
  have hne : x ≠ root := by
    rintro rfl
    obtain ⟨t, ht, -, hstatus⟩ := htree.rootTask
    obtain rfl := Option.some.inj (hx.symm.trans ht)
    rw [hs] at hstatus
    cases hstatus
  have hok := htree.taskOk x task hx hne
  have hidle : task.status.Idle := by
    rw [hs]
    trivial
  refine ⟨w', hr, hreg', ?_, hcaller⟩
  refine htree.modify hx hne ht hnext hcaller rfl ?_
    ⟨hok.cls, hok.parent, .inl ⟨trivial, hok.refCount hidle⟩⟩
  unfold Task.credit
  rw [hs]
  rfl

/-- A task goes on to another place in `execute`. -/
theorem setLoc_safe (hreg : w.Registered) (htree : Tree w root) (hx : w.tasks x = some task)
    (hs : task.status = .executing .entered) :
    (w.setLoc x (.returning false none)).Registered ∧
      Tree (w.setLoc x (.returning false none)) root := by
  have hidle : task.status.Idle := by
    rw [hs]
    trivial
  have hok := htree.taskOk x task hx (htree.ne_root hx hs)
  have ht : (w.setLoc x (.returning false none)).tasks = Function.update w.tasks x
      (some { task with status := .executing (.returning false none) }) := by
    show Function.update w.tasks x ((w.tasks x).map _) = _
    rw [hx]
    rfl
  constructor
  · refine hreg.modify hx ht ⟨rfl, rfl, rfl⟩ rfl ?_
    unfold Task.pending
    rw [hs]
  · refine htree.modify hx (htree.ne_root hx hs) ht rfl rfl rfl ?_
      ⟨hok.cls, hok.parent, .inl ⟨⟨rfl, rfl⟩, hok.refCount hidle⟩⟩
    unfold Task.credit
    rw [hs]
    rfl

theorem tasks_spawnChild (w : World ρ R) (p : ℕ) (cls : TaskClass ρ R)
    (pooled : Bool) :
    (w.spawnChild p cls pooled).tasks = Function.update w.tasks w.next
      (some ⟨cls, some p, 0, .ready pooled, some (w.taskIdCtr + 1), false⟩) := by
  have halloc : (w.alloc { cls := cls, parent := some p, refCount := 0 }).tasks w.next =
      some { cls := cls, parent := some p, refCount := 0 } := Function.update_self ..
  unfold World.spawnChild
  rw [tasks_spawn halloc]
  show Function.update (Function.update w.tasks w.next _) w.next _ = _
  rw [Function.update_idem]
  rfl

/-- A new child is registered when it is spawned. -/
theorem registered_spawnChild (hreg : w.Registered) (hfresh : w.tasks w.next = none) (p : ℕ)
    {cls : TaskClass ρ R} (hi : cls.instrumented = true) (pooled : Bool) :
    (w.spawnChild p cls pooled).Registered := by
  unfold World.spawnChild
  exact (hreg.alloc hfresh rfl rfl).spawn (Function.update_self ..) rfl hi pooled

/-- The task of a new child. -/
theorem ok_child (p : ℕ) (cls : TaskClass ρ R) (hc : cls.SingleShot) (pooled : Bool)
    (taskId : Option ℕ) : Task.Ok (⟨cls, some p, 0, .ready pooled, taskId, false⟩ : Task ρ R) :=
  ⟨hc, Option.some_ne_none p, .inl ⟨trivial, rfl⟩⟩

/-- A callback of the partition of a `start_for`. -/
theorem callback_safe (P : Behaviour ρ χ R) (hreg : w.Registered) (htree : Tree w root)
    {choice : χ} {r : Except Fault (World ρ R)} (h : w.callback P x choice = some r) :
    ∃ w', r = .ok w' ∧ w'.Registered ∧ Tree w' root ∧ w'.caller = w.caller := by
  unfold World.callback at h
  split at h
  · cases h
  rename_i task hx
  split at h
  · rename_i work hs hc
    obtain rfl := Option.some.inj h
    refine ⟨_, rfl, ?_⟩
    have hne := htree.ne_root hx hs
    have hok := htree.taskOk x task hx hne
    have hidle : task.status.Idle := by
      rw [hs]
      trivial
    unfold World.runStartFor
    cases P.next work choice with
    | done =>
      obtain ⟨h1, h2⟩ := setLoc_safe hreg htree hx hs
      exact ⟨h1, h2, rfl⟩
    | runBody rest =>
      dsimp only
      have ht : (w.modify x fun task => { task with cls := .startFor rest }).tasks =
          Function.update w.tasks x (some { task with cls := .startFor rest }) := by
        show Function.update w.tasks x ((w.tasks x).map _) = _
        rw [hx]
        rfl
      refine ⟨hreg.modify hx ht ⟨rfl, rfl, rfl⟩ rfl ?_, htree.modify hx hne ht rfl rfl rfl rfl
        ⟨trivial, hok.parent, .inl ⟨hidle, hok.refCount hidle⟩⟩, rfl⟩
      unfold Task.pending
      rw [hs]
    | offerWork rest right =>
      dsimp only
      obtain ⟨p, hp⟩ := Option.ne_none_iff_exists'.mp hok.parent
      have hfresh := htree.fresh w.next le_rfl
      have hxn : x ≠ w.next := htree.ne_next hx
      have hxc : w.next + 1 ≠ x := by
        rintro rfl
        rw [htree.fresh _ (Nat.le_succ _)] at hx
        cases hx
      -- the flag, the task itself, and the child
      let flag : Task ρ R := { cls := .flagTask, parent := some p, refCount := 2 }
      let task' : Task ρ R := { task with cls := .startFor rest, parent := some w.next }
      let child : Task ρ R := { cls := .startFor right, parent := some w.next, refCount := 0 }
      let w₁ := w.alloc flag
      let w₂ : World ρ R := { w₁ with tasks := Function.update w₁.tasks x (some task') }
      let w₃ := w₂.alloc child
      have hx₁ : w₁.tasks x = some task := by
        show Function.update w.tasks w.next _ x = _
        rw [Function.update_of_ne hxn, hx]
      have hw : w.offerWork x rest right = w₃.spawn (w.next + 1) true := by
        have hmod : (w₁.modify x fun task =>
            { task with cls := .startFor rest, parent := some w.next }) = w₂ := by
          unfold World.modify
          rw [hx₁]
          rfl
        unfold World.offerWork
        rw [hx, Option.bind_some, hp]
        show ((w₁.modify x _).alloc child).spawn _ true = _
        rw [hmod]
        rfl
      have hfresh₂ : w₂.tasks (w.next + 1) = none := by
        show Function.update (Function.update w.tasks w.next _) x _ _ = _
        rw [Function.update_of_ne hxc, Function.update_of_ne (Nat.succ_ne_self _)]
        exact htree.fresh _ (Nat.le_succ _)
      have hx₃ : w₃.tasks (w.next + 1) = some child := Function.update_self ..
      have hreg₂ : w₂.Registered := (hreg.alloc hfresh rfl rfl).modify hx₁ rfl ⟨rfl, rfl, rfl⟩ rfl (by
        unfold Task.pending
        rw [hs])
      rw [hw]
      refine ⟨(hreg₂.alloc hfresh₂ rfl rfl).spawn hx₃ rfl rfl true, ?_, rfl⟩
      have ht : (w₃.spawn (w.next + 1) true).tasks = Function.update (Function.update
          (Function.update w.tasks w.next (some flag)) x (some task')) (w.next + 1)
          (some { child with taskId := some (w.taskIdCtr + 1), status := .ready true }) := by
        rw [tasks_spawn hx₃]
        show Function.update (Function.update _ (w.next + 1) _) (w.next + 1) _ = _
        rw [Function.update_idem]
        rfl
      exact htree.offerWork hx hne hp ht rfl rfl rfl rfl rfl rfl rfl rfl rfl rfl rfl
        ⟨⟨trivial, Option.some_ne_none p, .inr (.inl ⟨rfl, rfl⟩)⟩,
          ⟨trivial, Option.some_ne_none _, .inl ⟨hidle, hok.refCount hidle⟩⟩,
          ⟨trivial, Option.some_ne_none _, .inl ⟨trivial, rfl⟩⟩⟩
  · cases h

/-- A task returns. -/
theorem finish_safe (hreg : w.Registered) (htree : Tree w root) (hcredit : 1 ≤ w.caller.credit)
    (hx : w.tasks x = some task) {recycled : Bool} {next : Option ℕ}
    (hs : task.status = .executing (.returning recycled next)) :
    (w.finish x recycled next).Registered ∧ Tree (w.finish x recycled next) root ∧
      (w.finish x recycled next).caller = w.caller := by
  have hne := htree.ne_root hx hs
  have hok := htree.taskOk x task hx hne
  have hidle : task.status.Idle ∧ task.refCount = 0 := by
    rcases hok.status with h0 | ⟨-, h0⟩ | ⟨n, -, ⟨left, h0⟩ | h0⟩
    · exact h0
    all_goals
      rw [hs] at h0
      cases h0
  obtain ⟨rfl, rfl⟩ : recycled = false ∧ next = none := by
    have := hidle.1
    rw [hs] at this
    exact this
  obtain ⟨p, parent, hp, hparent, hpx, ht, hflag, htree'⟩ :=
    htree.finish hx hne hidle.1 hidle.2 hcredit
  have hcaller : (w.finish x false none).caller = w.caller := by
    show ((w.free x).tally ((w.tasks x).bind Task.parent)).caller = _
    rw [hx, Option.bind_some, hp]
    rfl
  refine ⟨?_, htree', hcaller⟩
  have hreg₁ : (w.free x).Registered := hreg.free hx (by
    unfold Task.pending
    rw [hs])
  have hp₁ : (w.free x).tasks p = some parent := by
    show Function.update w.tasks x none p = _
    rw [Function.update_of_ne hpx, hparent]
  refine hreg₁.modify hp₁ ht ?_ rfl ?_
  · show SameIds (w.free x) ((w.free x).tally ((w.tasks x).bind Task.parent))
    rw [hx, Option.bind_some, hp]
    exact ⟨rfl, rfl, rfl⟩
  · -- only a `flag_task` becomes ready, and it does not call `__exec_begin__`
    unfold Task.pending
    dsimp only
    split_ifs with h0
    · rw [hflag h0]
      cases parent.status <;> rfl
    · rfl

/-- A step of a `spawner`. -/
theorem runSpawner_safe (hreg : w.Registered) (htree : Tree w root) (hx : w.tasks x = some task)
    {n : ℕ} (hc : task.cls = .spawner n) {loc : Loc} (hs : task.status = .executing loc)
    {w' : World ρ R} (h : w.runSpawner x n loc = some w') :
    w'.Registered ∧ Tree w' root ∧ w'.caller = w.caller := by
  have hne := htree.ne_root hx hs
  have hok := htree.taskOk x task hx hne
  have hn : 1 ≤ n := by
    have := hok.cls
    rw [hc] at this
    exact this
  have hfresh := htree.fresh w.next le_rfl
  have hxn : x ≠ w.next := htree.ne_next hx
  have hcredit : task.credit = (Status.executing loc).credit := by
    unfold Task.credit
    rw [hs]
  -- the task at another place
  have hmove : ∀ (refCount : ℕ) (loc' : Loc),
      refCount + task.credit = task.refCount + (Status.executing loc').credit →
      Task.Ok { task with refCount := refCount, status := .executing loc' } →
      ∀ w' : World ρ R, w'.tasks = Function.update w.tasks x
        (some { task with refCount := refCount, status := .executing loc' }) →
      w'.next = w.next → w'.caller = w.caller → SameIds w w' → w'.Registered ∧ Tree w' root := by
    intro refCount loc' hcount hok' w' ht hnext hcaller hids
    refine ⟨hreg.modify hx ht hids rfl ?_, htree.modify hx hne ht hnext hcaller rfl hcount hok'⟩
    unfold Task.pending
    rw [hs]
  -- a new child
  have hspawn : ∀ (pooled : Bool) (loc' : Loc),
      task.credit = (Status.executing loc').credit + 1 →
      Task.Ok { task with status := .executing loc' } →
      ((w.spawnChild x .functionInvoker pooled).setLoc x loc').Registered ∧
        Tree ((w.spawnChild x .functionInvoker pooled).setLoc x loc') root := by
    intro pooled loc' hcount hok'
    have ht := tasks_spawnChild w x (.functionInvoker : TaskClass ρ R) pooled
    have hx₁ : (w.spawnChild x .functionInvoker pooled).tasks x = some task := by
      rw [ht, Function.update_of_ne hxn, hx]
    have ht' : ((w.spawnChild x .functionInvoker pooled).setLoc x loc').tasks =
        Function.update (w.spawnChild x .functionInvoker pooled).tasks x
          (some { task with status := .executing loc' }) := by
      unfold World.setLoc World.modify
      rw [hx₁]
      rfl
    constructor
    · refine (registered_spawnChild hreg hfresh x rfl pooled).modify hx₁ ht' ⟨rfl, rfl, rfl⟩ rfl ?_
      unfold Task.pending
      rw [hs]
    · rw [ht, Function.update_comm hxn.symm] at ht'
      have hchild : Task.Ok (⟨.functionInvoker, some x, 0, .ready pooled, some (w.taskIdCtr + 1),
        false⟩ : Task ρ R) := ok_child x .functionInvoker trivial pooled _
      exact htree.addChild hx hne ht' rfl rfl rfl rfl hcount hok' rfl trivial rfl hchild
  cases loc with
  | entered =>
    obtain rfl := Option.some.inj h
    have hzero : task.refCount = 0 := hok.refCount (by
      rw [hs]
      trivial)
    have hres := hmove (n + 1) (.spawning (n - 1)) (by
      rw [hcredit, hzero]
      show n + 1 + 0 = 0 + (n - 1 + 2)
      omega) ⟨hok.cls, hok.parent, .inr (.inr ⟨n, hc, .inl ⟨_, rfl⟩⟩)⟩ (w.modify x fun task =>
        { task with refCount := n + 1, status := .executing (.spawning (n - 1)) }) (by
      show Function.update w.tasks x ((w.tasks x).map _) = _
      rw [hx]
      rfl) rfl rfl ⟨rfl, rfl, rfl⟩
    exact ⟨hres.1, hres.2, rfl⟩
  | spawning left =>
    cases left with
    | zero =>
      obtain rfl := Option.some.inj h
      obtain ⟨h1, h2⟩ := hspawn false .waiting hcredit
        ⟨hok.cls, hok.parent, .inr (.inr ⟨n, hc, .inr rfl⟩)⟩
      exact ⟨h1, h2, rfl⟩
    | succ left =>
      obtain rfl := Option.some.inj h
      obtain ⟨h1, h2⟩ := hspawn true (.spawning left) hcredit
        ⟨hok.cls, hok.parent, .inr (.inr ⟨n, hc, .inl ⟨_, rfl⟩⟩)⟩
      exact ⟨h1, h2, rfl⟩
  | waiting =>
    unfold World.runSpawner at h
    dsimp only at h
    split_ifs at h with hcount
    obtain rfl := Option.some.inj h
    rw [hx, Option.map_some, Option.some.injEq] at hcount
    have hres := hmove 0 (.returning false none) (by
      rw [hcredit, hcount]
      rfl) ⟨hok.cls, hok.parent, .inl ⟨⟨rfl, rfl⟩, rfl⟩⟩ (w.modify x fun task =>
        { task with refCount := 0, status := .executing (.returning false none) }) (by
      show Function.update w.tasks x ((w.tasks x).map _) = _
      rw [hx]
      rfl) rfl rfl ⟨rfl, rfl, rfl⟩
    exact ⟨hres.1, hres.2, rfl⟩
  | returning recycled next => cases h

/-- A step of a call of `execute`. -/
theorem run_safe (P : Behaviour ρ χ R) (hreg : w.Registered) (htree : Tree w root)
    (hcredit : 1 ≤ w.caller.credit) {r : Except Fault (World ρ R)} (h : w.run P x = some r) :
    ∃ w', r = .ok w' ∧ w'.Registered ∧ Tree w' root ∧ w'.caller = w.caller := by
  unfold World.run at h
  split at h
  · cases h
  rename_i task hx
  split at h
  · rename_i recycled next hs
    obtain rfl := Option.some.inj h
    exact ⟨_, rfl, finish_safe hreg htree hcredit hx hs⟩
  · rename_i hs hc
    obtain rfl := Option.some.inj h
    obtain ⟨h1, h2⟩ := setLoc_safe hreg htree hx hs
    exact ⟨_, rfl, h1, h2, rfl⟩
  · rename_i hs hc
    obtain rfl := Option.some.inj h
    obtain ⟨h1, h2⟩ := setLoc_safe hreg htree hx hs
    exact ⟨_, rfl, h1, h2, rfl⟩
  · rename_i hs hc
    have hcls := (htree.taskOk x task hx (htree.ne_root hx hs)).cls
    rw [hc] at hcls
    cases hcls
  · rename_i loc n hs hc
    obtain ⟨w', hw', rfl⟩ := Option.map_eq_some_iff.mp h
    exact ⟨w', rfl, runSpawner_safe hreg htree hx hc hs hw'⟩
  · rename_i f hs hc
    have hcls := (htree.taskOk x task hx (htree.ne_root hx hs)).cls
    rw [hc] at hcls
    cases hcls
  · rename_i f hs hc
    have hcls := (htree.taskOk x task hx (htree.ne_root hx hs)).cls
    rw [hc] at hcls
    cases hcls
  · rename_i f hs hc
    have hcls := (htree.taskOk x task hx (htree.ne_root hx hs)).cls
    rw [hc] at hcls
    cases hcls
  · cases h

end Tasks

/-! ## The caller -/

section Caller

variable {w : World ρ R} {x : ℕ} {task : Task ρ R}

theorem tasks_spawnRootAndWait (hx : w.tasks x = some task) (hxn : x ≠ w.next) (after : After) :
    (w.spawnRootAndWait x after).tasks = Function.update (Function.update w.tasks w.next
      (some { cls := .emptyTask, parent := none, refCount := 2 })) x (some { task with
        parent := some w.next
        taskId := some (w.taskIdCtr + 1)
        status := .ready false }) := by
  let w₁ := w.alloc { cls := .emptyTask, parent := none, refCount := 2 }
  have hx₁ : w₁.tasks x = some task := by
    show Function.update w.tasks w.next _ x = _
    rw [Function.update_of_ne hxn, hx]
  have hx₂ : (w₁.modify x fun task => { task with parent := some w.next }).tasks x =
      some { task with parent := some w.next } := by
    show Function.update w₁.tasks x ((w₁.tasks x).map _) x = _
    rw [Function.update_self, hx₁]
    rfl
  show ((w₁.modify x fun task => { task with parent := some w.next }).spawn x false).tasks = _
  rw [tasks_spawn hx₂]
  show Function.update (Function.update w₁.tasks x _) x _ = _
  rw [Function.update_idem]
  rfl

theorem registered_spawnRootAndWait (hreg : w.Registered) (hfresh : w.tasks w.next = none)
    (hx : w.tasks x = some task) (hid : task.taskId = none) (hi : task.cls.instrumented = true)
    (after : After) : (w.spawnRootAndWait x after).Registered := by
  have hxn : x ≠ w.next := by
    rintro rfl
    rw [hfresh] at hx
    cases hx
  let w₁ := w.alloc { cls := .emptyTask, parent := none, refCount := 2 }
  let w₂ := w₁.modify x fun task => { task with parent := some w.next }
  have hx₁ : w₁.tasks x = some task := by
    show Function.update w.tasks w.next _ x = _
    rw [Function.update_of_ne hxn, hx]
  have ht : w₂.tasks = Function.update w₁.tasks x (some { task with parent := some w.next }) := by
    show Function.update w₁.tasks x ((w₁.tasks x).map _) = _
    rw [hx₁]
    rfl
  have hx₂ : w₂.tasks x = some { task with parent := some w.next } := by
    rw [ht, Function.update_self]
  have hreg₂ : w₂.Registered := (hreg.alloc hfresh rfl rfl).modify hx₁ ht ⟨rfl, rfl, rfl⟩ rfl rfl
  exact hreg₂.spawn hx₂ hid hi false

/-- The first task of `parallel_for` is the only one below its `auto_empty_task`. -/
theorem tree_parallelFor (hnone : ∀ x, w.tasks x = none) (work : ρ) :
    Tree ((w.alloc { cls := .startFor work, parent := none, refCount := 0 }).spawnRootAndWait
      w.next .done) (w.next + 1) := by
  let w₁ := w.alloc { cls := .startFor work, parent := none, refCount := 0 }
  let w' := w₁.spawnRootAndWait w.next .done
  let root : Task ρ R := { cls := .emptyTask, parent := none, refCount := 2 }
  let child : Task ρ R :=
    ⟨.startFor work, some (w.next + 1), 0, .ready false, some (w.taskIdCtr + 1), false⟩
  let w₂ : World ρ R := { w with tasks := Function.update w.tasks (w.next + 1) (some root) }
  have hne : w.next ≠ w.next + 1 := (Nat.succ_ne_self _).symm
  have ht₂ : w₂.tasks = Function.update w.tasks (w.next + 1) (some root) := rfl
  have ht : w'.tasks = Function.update w₂.tasks w.next (some child) := by
    have hx₁ : w₁.tasks w.next = some { cls := .startFor work, parent := none, refCount := 0 } :=
      Function.update_self ..
    show (w₁.spawnRootAndWait w.next .done).tasks = _
    rw [tasks_spawnRootAndWait hx₁ hne]
    show Function.update (Function.update (Function.update w.tasks w.next _) (w.next + 1) _)
      w.next _ = _
    rw [Function.update_comm hne, Function.update_idem]
    rfl
  have hchild : child.Ok := ⟨trivial, Option.some_ne_none _, .inl ⟨trivial, rfl⟩⟩
  have hP₀ : w.parentOf = fun _ => none := by
    funext y
    unfold World.parentOf
    rw [hnone]
    rfl
  have hP : w'.parentOf = Function.update (fun _ => none) w.next (some (w.next + 1)) := by
    have hP₂ : w₂.parentOf = fun _ => none := by
      rw [parentOf_eq ht₂, hP₀, Function.update_eq_self_iff]
      rfl
    rw [parentOf_eq ht, hP₂]
    rfl
  constructor
  · intro y hy
    have hy : w.next + 2 ≤ y := hy
    rw [ht, Function.update_of_ne (by omega), ht₂, Function.update_of_ne (by omega)]
    exact hnone y
  · have hR : w'.refsOf = Function.update (fun _ => 0) (w.next + 1) 2 := by
      funext y
      unfold World.refsOf
      rw [ht, ht₂]
      by_cases hy : y = w.next
      · rw [hy, Function.update_self, Function.update_of_ne hne]
        rfl
      · rw [Function.update_of_ne hy]
        by_cases hy' : y = w.next + 1
        · rw [hy', Function.update_self, Function.update_self]
          rfl
        · rw [Function.update_of_ne hy', Function.update_of_ne hy', hnone]
          rfl
    have hC : w'.creditOf (w.next + 1) = Function.update (fun _ => 0) (w.next + 1) 1 := by
      funext y
      by_cases hy' : y = w.next + 1
      · rw [hy', creditOf_root, Function.update_self]
        rfl
      · rw [creditOf_of_ne hy', Function.update_of_ne hy', ht, ht₂]
        by_cases hy : y = w.next
        · rw [hy, Function.update_self]
          rfl
        · rw [Function.update_of_ne hy, Function.update_of_ne hy', hnone]
          rfl
    have h1 := counted_empty.setRefs (p := w.next + 1) (n := 2) (c := 2) rfl
    have h2 := h1.attach (x := w.next) (p := w.next + 1) (n := 1) rfl (Function.update_self ..)
    rw [Function.update_idem] at h2
    rw [hP, hR, hC]
    exact h2
  · rw [hP]
    intro y hy
    by_cases hyn : y = w.next
    · rw [hyn]
      exact .child (Function.update_self ..)
    · rw [Function.update_of_ne hyn] at hy
      exact absurd rfl hy
  · refine ⟨root, ?_, rfl, rfl⟩
    rw [ht, Function.update_of_ne hne.symm]
    exact Function.update_self ..
  · intro y t hy hyr
    rw [ht] at hy
    by_cases hyn : y = w.next
    · rw [hyn, Function.update_self] at hy
      rw [← Option.some.inj hy]
      exact hchild
    · rw [Function.update_of_ne hyn, ht₂, Function.update_of_ne hyr, hnone] at hy
      cases hy

theorem length_of_invokeArguments {n numberOfChildren : ℕ} {groups : List ℕ}
    (h : World.invokeArguments n = some (numberOfChildren, groups)) :
    numberOfChildren = groups.length + 1 := by
  unfold World.invokeArguments at h
  split at h
  all_goals
    simp only [Option.some.injEq, Prod.mk.injEq, reduceCtorEq] at h
  all_goals
    obtain ⟨rfl, rfl⟩ := h
    rfl

/-- The root of `parallel_invoke`. -/
theorem tree_parallelInvoke (hnone : ∀ x, w.tasks x = none) {n numberOfChildren : ℕ}
    {groups : List ℕ} (h : World.invokeArguments n = some (numberOfChildren, groups)) :
    Tree { w.alloc { cls := .invokeHelper, parent := none, refCount := numberOfChildren + 1 } with
      caller := .invoking w.next groups } w.next := by
  set w' : World ρ R :=
    { w.alloc { cls := .invokeHelper, parent := none, refCount := numberOfChildren + 1 } with
      caller := .invoking w.next groups } with hw'
  have ht : w'.tasks = Function.update w.tasks w.next
      (some { cls := .invokeHelper, parent := none, refCount := numberOfChildren + 1 }) := rfl
  have hP : w'.parentOf = fun _ => none := by
    funext y
    rw [parentOf_eq ht]
    by_cases hy : y = w.next
    · rw [hy, Function.update_self]
      rfl
    · rw [Function.update_of_ne hy]
      unfold World.parentOf
      rw [hnone]
      rfl
  constructor
  · intro y hy
    have hy : w.next + 1 ≤ y := hy
    rw [ht, Function.update_of_ne (by omega)]
    exact hnone y
  · have hR : w'.refsOf = Function.update (fun _ => 0) w.next (numberOfChildren + 1) := by
      rw [refsOf_eq ht]
      congr 1
      funext y
      unfold World.refsOf
      rw [hnone]
      rfl
    have hC : w'.creditOf w.next = Function.update (fun _ => 0) w.next (numberOfChildren + 1) := by
      funext y
      by_cases hy : y = w.next
      · rw [hy, creditOf_root, Function.update_self, length_of_invokeArguments h]
        rfl
      · rw [creditOf_of_ne hy, Function.update_of_ne hy, ht, Function.update_of_ne hy, hnone]
        rfl
    rw [hP, hR, hC]
    exact counted_empty.setRefs (by omega)
  · rw [hP]
    intro y hy
    exact absurd rfl hy
  · exact ⟨_, Function.update_self .., rfl, rfl⟩
  · intro y t hy hyr
    rw [ht, Function.update_of_ne hyr, hnone] at hy
    cases hy

end Caller

end TaskProf.Tbb
