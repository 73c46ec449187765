import TaskProf.Tbb.Steps

/-!
# Every instrumented execution finds its node

* `Safe.step`: a step of an algorithm that does not split a scan is no fault and
  keeps the invariant, whatever the order of the steps.
* `exists_missingKey`: the first split of a scan leads to an execution that throws.
* `findsNode_iff`: every instrumented execution finds its node, unless the
  algorithm is a `parallel_scan` that splits its range.

**Deviation.** A `start_scan` that splits its range recycles itself as the left
child and returns itself, so it is executed again without a new id: its id was
consumed by the first `__exec_begin__`, and `temp_cur_map.at` throws.
-/

namespace TaskProf.Tbb

variable {ρ χ R : Type}

/-- The algorithm is no scan that splits its range at once. -/
def Algorithm.Unsplit (P : Behaviour ρ χ R) : Algorithm ρ R → Prop
  | .parallelScan range partition =>
    P.isDivisible range = false ∨ (partition.shouldExecuteRange false).1 = true
  | _ => True

/-! ## The first `start_scan` -/

section StartScan

variable {P : Behaviour ρ χ R} {w : World ρ R} {x : ℕ} {task : Task ρ R} {f : StartScan R}

theorem scanLeaf_eq (hsum : f.sum = none) :
    w.scanLeaf x f = .ok ((w.setClass x (.startScan f)).setLoc x (.returning false none)) := by
  unfold World.scanLeaf
  rw [hsum]

/-- The first `start_scan` executes a range that it does not split. -/
theorem runStartScan_leaf (w : World ρ R) (x : ℕ) (hleft : f.isRightChild = false) (hsum : f.sum = none)
    (hstolen : task.stolen = false)
    (h : P.isDivisible f.range = false ∨ (f.partition.shouldExecuteRange false).1 = true) :
    ∃ partition, w.runStartScan P x task f =
      .ok ((w.setClass x (.startScan { f with partition := partition })).setLoc x
        (.returning false none)) := by
  unfold World.runStartScan World.treatAsStolen
  rw [if_pos hleft]
  dsimp only [bind, Except.bind]
  by_cases hd : P.isDivisible f.range = false
  · refine ⟨f.partition, ?_⟩
    rw [if_pos (.inr hd), scanLeaf_eq hsum]
  · have hexec := h.resolve_left hd
    refine ⟨(f.partition.shouldExecuteRange false).2, ?_⟩
    rw [if_neg (by simp [hleft, hd]), hstolen, if_pos hexec]
    exact scanLeaf_eq hsum

/-- The first `start_scan` splits its range. -/
theorem runStartScan_split (hleft : f.isRightChild = false) (hstolen : task.stolen = false)
    (hd : P.isDivisible f.range = true) (h : (f.partition.shouldExecuteRange false).1 = false) :
    w.runStartScan P x task f = .ok (w.scanSplit P x task
      { f with partition := (f.partition.shouldExecuteRange false).2 }) := by
  unfold World.runStartScan World.treatAsStolen
  rw [if_pos hleft]
  dsimp only [bind, Except.bind]
  rw [if_neg (by simp [hleft, hd]), hstolen, if_neg (by simp [h])]

end StartScan

/-! ## The first pass of a scan that is not split -/

section FirstPass

/-- `temp_body` of `start_scan::run`. -/
def tempBodyTask : Task ρ R := { cls := .finalSum ⟨false, none⟩, parent := none, refCount := 0 }

/-- The `auto_empty_task` of `spawn_root_and_wait` with its count. -/
def waitedTask (refCount : ℕ) : Task ρ R := { cls := .emptyTask, parent := none, refCount := refCount }

/-- A `start_scan` that will not split its range, or has executed it. -/
structure LeafTask (P : Behaviour ρ χ R) (d : ℕ) (task : Task ρ R) (f : StartScan R) : Prop where
  cls : task.cls = .startScan f
  parent : task.parent = some d
  sum : f.sum = none
  left : f.isRightChild = false
  stolen : task.stolen = false
  status : (task.status = .ready false ∨ task.status = .executing .entered) ∧
      (P.isDivisible f.range = false ∨ (f.partition.shouldExecuteRange false).1 = true) ∨
    task.status = .executing (.returning false none)

/-- The tasks while the caller waits on `d` for the first pass. -/
inductive FirstPass (P : Behaviour ρ χ R) (w : World ρ R) (tempBody d : ℕ) : Prop
  | running {x : ℕ} {task : Task ρ R} {f : StartScan R} (hleaf : LeafTask P d task f)
      (hd : d ≠ x) (hb : tempBody ≠ x)
      (htasks : w.tasks = Function.update (Function.update (Function.update (fun _ => none) tempBody
        (some tempBodyTask)) d (some (waitedTask 2))) x (some task))
  | done (htasks : w.tasks = Function.update (Function.update (fun _ => none) tempBody
      (some tempBodyTask)) d (some (waitedTask 1)))

variable {P : Behaviour ρ χ R} {w w' : World ρ R} {x d tempBody : ℕ} {task : Task ρ R}

/-- The other tasks of the first pass are not spawned. -/
theorem FirstPass.leaf_of_status (h : FirstPass P w tempBody d) (hx : w.tasks x = some task)
    (hs : task.status ≠ .allocated) :
    ∃ f, LeafTask P d task f ∧ d ≠ x ∧ tempBody ≠ x ∧ w.tasks = Function.update (Function.update
      (Function.update (fun _ => none) tempBody (some tempBodyTask)) d (some (waitedTask 2))) x
      (some task) := by
  have hother : ∀ refCount, Function.update (Function.update (fun _ => none) tempBody
      (some tempBodyTask)) d (some (waitedTask refCount)) x ≠ some task := by
    intro refCount ht
    by_cases hxd : x = d
    · rw [hxd, Function.update_self] at ht
      rw [← Option.some.inj ht] at hs
      exact hs rfl
    · rw [Function.update_of_ne hxd] at ht
      by_cases hxb : x = tempBody
      · rw [hxb, Function.update_self] at ht
        rw [← Option.some.inj ht] at hs
        exact hs rfl
      · rw [Function.update_of_ne hxb] at ht
        cases ht
  cases h with
  | @running y task' f hleaf hd hb htasks =>
    rw [htasks] at hx
    by_cases hxy : x = y
    · subst hxy
      rw [Function.update_self] at hx
      obtain rfl := Option.some.inj hx
      exact ⟨f, hleaf, hd, hb, htasks⟩
    · rw [Function.update_of_ne hxy] at hx
      exact absurd hx (hother 2)
  | done htasks =>
    rw [htasks] at hx
    exact absurd hx (hother 1)

/-- The `start_scan` goes on. -/
theorem FirstPass.next {task' : Task ρ R} {f : StartScan R} (hd : d ≠ x)
    (hb : tempBody ≠ x)
    (htasks : w.tasks = Function.update (Function.update (Function.update (fun _ => none) tempBody
      (some tempBodyTask)) d (some (waitedTask 2))) x (some task))
    (ht : w'.tasks = Function.update w.tasks x (some task')) (hleaf : LeafTask P d task' f) :
    FirstPass P w' tempBody d := by
  refine .running hleaf hd hb ?_
  rw [ht, htasks, Function.update_idem]

theorem firstPass_start (hreg : w.Registered) (h : FirstPass P w tempBody d) {stolen : Bool}
    {r : Except Fault (World ρ R)} (hr : w.start x stolen = some r) :
    ∃ w', r = .ok w' ∧ w'.Registered ∧ FirstPass P w' tempBody d ∧ w'.root = w.root ∧
      w'.caller = w.caller := by
  obtain ⟨w', task, pooled, hr, hreg', hx, hs, hpool, ht, -, hroot, hcaller⟩ :=
    start_registered hreg hr
  refine ⟨w', hr, hreg', ?_, hroot, hcaller⟩
  obtain ⟨f, hleaf, hd, hb, htasks⟩ := h.leaf_of_status hx (by simp [hs])
  -- the task is in no pool, so it is not stolen
  rcases hleaf.status with ⟨hready | hentered, hunsplit⟩ | hreturning
  · rw [hs] at hready
    cases hready
    have hstolen : stolen = false := by
      by_contra hst
      exact Bool.false_ne_true (hpool (Bool.eq_true_of_not_eq_false hst))
    exact .next hd hb htasks ht ⟨hleaf.cls, hleaf.parent, hleaf.sum, hleaf.left, hstolen,
      .inl ⟨.inr rfl, hunsplit⟩⟩
  · rw [hs] at hentered
    cases hentered
  · rw [hs] at hreturning
    cases hreturning

theorem firstPass_run (hreg : w.Registered) (h : FirstPass P w tempBody d)
    {r : Except Fault (World ρ R)} (hr : w.run P x = some r) :
    ∃ w', r = .ok w' ∧ w'.Registered ∧ FirstPass P w' tempBody d ∧ w'.root = w.root ∧
      w'.caller = w.caller := by
  unfold World.run at hr
  cases hx : w.tasks x with
  | none =>
    rw [hx] at hr
    cases hr
  | some task =>
    rw [hx] at hr
    dsimp only at hr
    have hs : task.status ≠ .allocated := by
      intro hs
      rw [hs] at hr
      cases hr
    obtain ⟨f, hleaf, hd, hb, htasks⟩ := h.leaf_of_status hx hs
    rcases hleaf.status with ⟨hready | hentered, hunsplit⟩ | hreturning
    · rw [hready] at hr
      cases hr
    · rw [hentered, hleaf.cls] at hr
      obtain rfl := Option.some.inj hr
      obtain ⟨partition, hrun⟩ := runStartScan_leaf w x hleaf.left hleaf.sum
        hleaf.stolen hunsplit
      refine ⟨_, hrun, ?_⟩
      let f' : StartScan R := { f with partition := partition }
      let task' : Task ρ R := { task with
        cls := .startScan f'
        status := .executing (.returning false none) }
      have ht : ((w.setClass x (.startScan f')).setLoc x (.returning false none)).tasks =
          Function.update w.tasks x (some task') := by
        show Function.update (Function.update w.tasks x ((w.tasks x).map _)) x
          ((Function.update w.tasks x ((w.tasks x).map _) x).map _) = _
        rw [Function.update_idem, Function.update_self, hx]
        rfl
      refine ⟨?_, .next hd hb htasks ht ⟨rfl, hleaf.parent, hleaf.sum, hleaf.left, hleaf.stolen,
        .inr rfl⟩, rfl, rfl⟩
      refine hreg.modify hx ht ⟨rfl, rfl, rfl⟩ rfl ?_
      unfold Task.pending
      rw [hentered]
    · rw [hreturning] at hr
      obtain rfl := Option.some.inj hr
      have hfree : (w.free x).tasks = Function.update (Function.update (fun _ => none) tempBody
          (some tempBodyTask)) d (some (waitedTask 2)) := by
        show Function.update w.tasks x none = _
        rw [htasks, Function.update_idem, Function.update_eq_self_iff, Function.update_of_ne hd.symm,
          Function.update_of_ne hb.symm]
      have hfree₁ : (w.free x).Registered := hreg.free hx (by
        unfold Task.pending
        rw [hreturning])
      have hwait : (w.free x).tasks d = some (waitedTask 2) := by
        rw [hfree, Function.update_self]
      have hfinish : w.finish x false none = (w.free x).tally (some d) := by
        show (w.free x).tally ((w.tasks x).bind Task.parent) = _
        rw [hx, Option.bind_some, hleaf.parent]
      have ht : (w.finish x false none).tasks = Function.update (w.free x).tasks d
          (some (waitedTask 1)) := by
        rw [hfinish]
        show Function.update (w.free x).tasks d (((w.free x).tasks d).map _) = _
        rw [hwait]
        rfl
      refine ⟨_, rfl, hfree₁.modify hwait ht ?_ rfl rfl, .done ?_, ?_⟩
      · rw [hfinish]
        exact ⟨rfl, rfl, rfl⟩
      · rw [ht, hfree, Function.update_idem]
      · rw [hfinish]
        exact ⟨rfl, rfl⟩

/-- The call of a `parallel_scan` that does not split its range. -/
theorem firstPass_callScan (hreg : w.Registered) (hnone : ∀ x, w.tasks x = none) {range : R}
    {partition : ScanPartition}
    (h : P.isDivisible range = false ∨ (partition.shouldExecuteRange false).1 = true) :
    (w.callScan range partition).Registered ∧
      FirstPass P (w.callScan range partition) w.next (w.next + 2) := by
  have hw : w.tasks = fun _ => none := funext hnone
  let f : StartScan R := ⟨w.next, none, .root, none, true, false, range, partition⟩
  let pass1 : Task ρ R := { cls := .startScan f, parent := none, refCount := 0 }
  let ready : Task ρ R := { pass1 with
    parent := some (w.next + 2)
    taskId := some (w.taskIdCtr + 1)
    status := .ready false }
  let w₁ := w.alloc tempBodyTask
  let w₂ := w₁.alloc pass1
  have ht₂ : w₂.tasks = Function.update (Function.update (fun _ => none) w.next
      (some tempBodyTask)) (w.next + 1) (some pass1) := by
    show Function.update (Function.update w.tasks w.next _) (w.next + 1) _ = _
    rw [hw]
  have hx₂ : w₂.tasks (w.next + 1) = some pass1 := by
    rw [ht₂, Function.update_self]
  have hfresh₁ : w₁.tasks (w.next + 1) = none := by
    show Function.update w.tasks w.next _ (w.next + 1) = _
    rw [Function.update_of_ne (by omega), hnone]
  have hfresh₂ : w₂.tasks (w.next + 2) = none := by
    rw [ht₂, Function.update_of_ne (by omega), Function.update_of_ne (by omega)]
  have hreg₂ : w₂.Registered := (hreg.alloc (hnone _) rfl rfl).alloc hfresh₁ rfl rfl
  constructor
  · exact registered_spawnRootAndWait hreg₂ hfresh₂ hx₂ rfl rfl _
  · have ht := tasks_spawnRootAndWait hx₂ (show w.next + 1 ≠ w.next + 2 by omega)
      (.firstPass w.next)
    have hleaf : LeafTask P (w.next + 2) ready f :=
      ⟨rfl, rfl, rfl, rfl, rfl, .inl ⟨.inl rfl, h⟩⟩
    refine .running (x := w.next + 1) hleaf (by omega) (by omega) (ht.trans ?_)
    have hnext : w₂.next = w.next + 2 := rfl
    rw [ht₂, hnext, Function.update_comm (show w.next + 1 ≠ w.next + 2 by omega),
      Function.update_idem]
    rfl

/-- The wait for the first pass ends. -/
theorem firstPass_resume (hreg : w.Registered) (h : FirstPass P w tempBody d)
    (hbd : tempBody ≠ d) (hcount : (w.tasks d).map Task.refCount = some 1) (hroot : w.root = none) :
    ∃ w', w.resume d (.firstPass tempBody) = .ok w' ∧ w'.Registered ∧ (∀ x, w'.tasks x = none) ∧
      w'.caller = .returned := by
  cases h with
  | @running x task f hleaf hd hb htasks =>
    rw [htasks, Function.update_of_ne hd, Function.update_self] at hcount
    cases hcount
  | done htasks =>
    have hd : w.tasks d = some (waitedTask 1) := by
      rw [htasks, Function.update_self]
    have hb : (w.free d).tasks tempBody = some tempBodyTask := by
      show Function.update w.tasks d none tempBody = _
      rw [Function.update_of_ne hbd, htasks, Function.update_of_ne hbd, Function.update_self]
    have hreg' : ((w.free d).free tempBody).Registered := (hreg.free hd rfl).free hb rfl
    have hresume : w.resume d (.firstPass tempBody) =
        .ok { (w.free d).free tempBody with caller := .returned } := by
      unfold World.resume
      dsimp only
      rw [show (w.free d).root = none from hroot]
    refine ⟨_, hresume, hreg', fun x => ?_, rfl⟩
    show Function.update (Function.update w.tasks d none) tempBody none x = none
    rw [htasks, Function.update_idem]
    by_cases hxb : x = tempBody
    · rw [hxb, Function.update_self]
    · rw [Function.update_of_ne hxb]
      by_cases hxd : x = d
      · rw [hxd, Function.update_self]
      · rw [Function.update_of_ne hxd, Function.update_of_ne hxb]

end FirstPass

/-! ## The invariant -/

/-- Where the caller is, and what the tasks are then. -/
inductive Stage (P : Behaviour ρ χ R) (w : World ρ R) : Caller ρ R → Prop
  | call {alg : Algorithm ρ R} (hnone : ∀ x, w.tasks x = none) (hroot : w.root = none)
      (halg : alg.Unsplit P) : Stage P w (.call alg)
  | invoking {root : ℕ} {groups : List ℕ} (htree : Tree w root) : Stage P w (.invoking root groups)
  | waiting {root : ℕ} (htree : Tree w root) : Stage P w (.waiting root .done)
  | firstPass {tempBody d : ℕ} (hroot : w.root = none) (hbd : tempBody ≠ d)
      (hpass : FirstPass P w tempBody d) : Stage P w (.waiting d (.firstPass tempBody))
  | returned (hnone : ∀ x, w.tasks x = none) : Stage P w .returned

/-- What holds at any time of an algorithm that does not split a scan. -/
structure Safe (P : Behaviour ρ χ R) (w : World ρ R) : Prop where
  registered : w.Registered
  stage : Stage P w w.caller

section Safe

variable {P : Behaviour ρ χ R} {w w' : World ρ R} {x : ℕ} {task : Task ρ R}
  {r : Except Fault (World ρ R)}

theorem Safe.init {alg : Algorithm ρ R} (h : alg.Unsplit P) : Safe P (.init alg) :=
  ⟨Tbb.Registered.init, .call (fun _ => rfl) rfl h⟩

/-- Where there is a task, the caller waits for a tree, or for a first pass. -/
theorem Stage.of_task (h : Stage P w w.caller) (hx : w.tasks x = some task) :
    (∃ root, Tree w root ∧ 1 ≤ w.caller.credit ∧
      ∀ w', Tree w' root → w'.caller = w.caller → Stage P w' w'.caller) ∨
    ∃ tempBody d, FirstPass P w tempBody d ∧
      ∀ w', FirstPass P w' tempBody d → w'.root = w.root → w'.caller = w.caller →
        Stage P w' w'.caller := by
  generalize hc : w.caller = caller at h
  cases h with
  | call hnone | returned hnone =>
    rw [hnone] at hx
    cases hx
  | invoking htree =>
    refine .inl ⟨_, htree, Nat.le_add_left .., fun w' htree' hc' => ?_⟩
    rw [hc']
    exact .invoking htree'
  | waiting htree =>
    refine .inl ⟨_, htree, le_rfl, fun w' htree' hc' => ?_⟩
    rw [hc']
    exact .waiting htree'
  | firstPass hroot hbd hpass =>
    refine .inr ⟨_, _, hpass, fun w' hpass' hroot' hc' => ?_⟩
    rw [hc']
    exact .firstPass (hroot'.trans hroot) hbd hpass'

theorem start_task {stolen : Bool} (h : w.start x stolen = some r) : ∃ task, w.tasks x = some task := by
  obtain ⟨task, -, hx, -⟩ := start_cases h
  exact ⟨task, hx⟩

theorem callback_task {choice : χ} (h : w.callback P x choice = some r) :
    ∃ task work, w.tasks x = some task ∧ task.status = .executing .entered ∧
      task.cls = .startFor work := by
  unfold World.callback at h
  split at h
  · cases h
  · rename_i task hx
    split at h
    · rename_i work hs hc
      exact ⟨task, work, hx, hs, hc⟩
    · cases h

theorem run_task (h : w.run P x = some r) : ∃ task, w.tasks x = some task := by
  unfold World.run at h
  split at h
  · cases h
  · rename_i task hx
    exact ⟨task, hx⟩

/-- The scheduler starts a task. -/
theorem Safe.start (h : Safe P w) {stolen : Bool} (hr : w.start x stolen = some r) :
    ∃ w', r = .ok w' ∧ Safe P w' := by
  obtain ⟨task, hx⟩ := start_task hr
  rcases h.stage.of_task hx with ⟨root, htree, -, hstage⟩ | ⟨tempBody, d, hpass, hstage⟩
  · obtain ⟨w', rfl, hreg, htree', hc⟩ := start_safe h.registered htree hr
    exact ⟨w', rfl, hreg, hstage w' htree' hc⟩
  · obtain ⟨w', rfl, hreg, hpass', hroot, hc⟩ := firstPass_start h.registered hpass hr
    exact ⟨w', rfl, hreg, hstage w' hpass' hroot hc⟩

/-- A callback goes on. -/
theorem Safe.callback (h : Safe P w) {choice : χ} (hr : w.callback P x choice = some r) :
    ∃ w', r = .ok w' ∧ Safe P w' := by
  obtain ⟨task, work, hx, hs, hcls⟩ := callback_task hr
  rcases h.stage.of_task hx with ⟨root, htree, -, hstage⟩ | ⟨tempBody, d, hpass, hstage⟩
  · obtain ⟨w', rfl, hreg, htree', hc⟩ := callback_safe P h.registered htree hr
    exact ⟨w', rfl, hreg, hstage w' htree' hc⟩
  · -- a first pass has no `start_for`
    obtain ⟨f, hleaf, -⟩ := hpass.leaf_of_status hx (by simp [hs])
    have hscan := hleaf.cls
    rw [hcls] at hscan
    cases hscan

/-- A call of `execute` goes on. -/
theorem Safe.run (h : Safe P w) (hr : w.run P x = some r) : ∃ w', r = .ok w' ∧ Safe P w' := by
  obtain ⟨task, hx⟩ := run_task hr
  rcases h.stage.of_task hx with ⟨root, htree, hcredit, hstage⟩ | ⟨tempBody, d, hpass, hstage⟩
  · obtain ⟨w', rfl, hreg, htree', hc⟩ := run_safe P h.registered htree hcredit hr
    exact ⟨w', rfl, hreg, hstage w' htree' hc⟩
  · obtain ⟨w', rfl, hreg, hpass', hroot, hc⟩ := firstPass_run h.registered hpass hr
    exact ⟨w', rfl, hreg, hstage w' hpass' hroot hc⟩

theorem groupClass_ok (n : ℕ) :
    (World.groupClass n : TaskClass ρ R).instrumented = true ∧
      (World.groupClass n : TaskClass ρ R).SingleShot := by
  unfold World.groupClass
  split_ifs with hn
  · exact ⟨rfl, trivial⟩
  · exact ⟨rfl, show 1 ≤ n by omega⟩

/-- The caller spawns a child of `root`. -/
theorem spawnChild_safe (hreg : w.Registered) {root : ℕ} (htree : Tree w root)
    (cls : TaskClass ρ R) (hcls : cls.instrumented = true ∧ cls.SingleShot) (pooled : Bool)
    (caller : Caller ρ R) (hcredit : w.caller.credit = caller.credit + 1) :
    ({ w.spawnChild root cls pooled with caller := caller } : World ρ R).Registered ∧
      Tree { w.spawnChild root cls pooled with caller := caller } root := by
  constructor
  · exact registered_spawnChild hreg (htree.fresh _ le_rfl) root hcls.1 pooled
  · exact htree.addChildRoot (tasks_spawnChild w root cls pooled) rfl hcredit rfl trivial rfl
      (ok_child root cls hcls.2 pooled _)

/-- The wait of the caller for a tree ends. -/
theorem resume_safe (hreg : w.Registered) {root : ℕ} (htree : Tree w root)
    (hcaller : w.caller = .waiting root .done)
    (hcount : (w.tasks root).map Task.refCount = some 1) :
    ∃ w', w.resume root .done = .ok w' ∧ w'.Registered ∧ (∀ x, w'.tasks x = none) ∧
      w'.caller = .returned := by
  obtain ⟨t, ht, -, hs⟩ := htree.rootTask
  have hfree : (w.free root).Registered := hreg.free ht (by
    unfold Task.pending
    rw [hs])
  have hrefs : w.refsOf root = w.caller.credit := by
    unfold World.refsOf
    rw [hcount, hcaller]
    rfl
  refine ⟨_, rfl, hfree, fun x => ?_, rfl⟩
  show Function.update w.tasks root none x = none
  by_cases hx : x = root
  · rw [hx, Function.update_self]
  · rw [Function.update_of_ne hx]
    exact htree.eq_none hrefs hx

/-- The caller goes on. -/
theorem Safe.caller (h : Safe P w) (hr : w.runCaller = some r) : ∃ w', r = .ok w' ∧ Safe P w' := by
  obtain ⟨hreg, hstage⟩ := h
  unfold World.runCaller at hr
  generalize hc : w.caller = caller at hstage hr
  cases hstage with
  | @call alg hnone hroot halg =>
    cases alg with
    | parallelFor work =>
      obtain rfl := Option.some.inj hr
      refine ⟨_, rfl, ?_, .waiting (tree_parallelFor hnone work)⟩
      have hfresh : (w.alloc { cls := .startFor work, parent := none, refCount := 0 }).tasks
          (w.next + 1) = none := by
        show Function.update w.tasks w.next _ (w.next + 1) = _
        rw [Function.update_of_ne (by omega), hnone]
      exact registered_spawnRootAndWait (hreg.alloc (hnone _) rfl rfl) hfresh
        (Function.update_self ..) rfl rfl _
    | parallelInvoke n =>
      dsimp only at hr
      cases hn : World.invokeArguments n with
      | none =>
        rw [hn] at hr
        cases hr
      | some arguments =>
        rw [hn] at hr
        obtain rfl := Option.some.inj hr
        exact ⟨_, rfl, hreg.alloc (hnone _) rfl rfl, .invoking (tree_parallelInvoke hnone hn)⟩
    | parallelScan range partition =>
      obtain rfl := Option.some.inj hr
      obtain ⟨hreg', hpass⟩ := firstPass_callScan hreg hnone halg
      exact ⟨_, rfl, hreg', .firstPass hroot (show w.next ≠ w.next + 2 by omega) hpass⟩
  | @invoking root groups htree =>
    cases groups with
    | nil =>
      obtain rfl := Option.some.inj hr
      obtain ⟨hreg', htree'⟩ := spawnChild_safe hreg htree .functionInvoker ⟨rfl, trivial⟩ false
        (.waiting root .done) (by rw [hc]; rfl)
      exact ⟨_, rfl, hreg', .waiting htree'⟩
    | cons n groups =>
      obtain rfl := Option.some.inj hr
      obtain ⟨hreg', htree'⟩ := spawnChild_safe hreg htree (World.groupClass n) (groupClass_ok n)
        true (.invoking root groups) (by rw [hc]; rfl)
      exact ⟨_, rfl, hreg', .invoking htree'⟩
  | waiting htree =>
    dsimp only at hr
    split_ifs at hr with hcount
    obtain rfl := Option.some.inj hr
    obtain ⟨w', hw', hreg', hnone, hc'⟩ := resume_safe hreg htree hc hcount
    refine ⟨w', hw', hreg', ?_⟩
    rw [hc']
    exact .returned hnone
  | firstPass hroot hbd hpass =>
    dsimp only at hr
    split_ifs at hr with hcount
    obtain rfl := Option.some.inj hr
    obtain ⟨w', hw', hreg', hnone, hc'⟩ := firstPass_resume hreg hpass hbd hcount hroot
    refine ⟨w', hw', hreg', ?_⟩
    rw [hc']
    exact .returned hnone
  | returned => cases hr

/-- Every step is no fault and keeps the invariant. -/
theorem Safe.step (h : Safe P w) {e : Event χ} (hr : w.step P e = some r) :
    ∃ w', r = .ok w' ∧ Safe P w' := by
  cases e with
  | start x stolen => exact h.start hr
  | callback x choice => exact h.callback hr
  | run x => exact h.run hr
  | caller => exact h.caller hr

theorem Reachable.safe {alg : Algorithm ρ R} (halg : alg.Unsplit P) (h : Reachable P alg w) :
    Safe P w := by
  induction h with
  | init => exact .init halg
  | step _ he ih =>
    obtain ⟨w', hw', hsafe⟩ := ih.step he
    obtain rfl := Except.ok.inj hw'
    exact hsafe

/-- The ids of the pending tasks are registered, and nothing else is. -/
theorem Safe.findsNode (h : Safe P w) : FindsNode w where
  registered := by
    intro x task hx hp
    have hpx : w.pending x = true := by
      rw [pending_of hx]
      exact hp
    obtain ⟨k, hk⟩ := h.registered.hasId x hpx
    have hmap := h.registered.mem hpx hk
    rw [idOf_of hx] at hk
    exact ⟨k, hk, (h.registered.log k).mp hmap⟩
  found := by
    intro x stolen fault hr
    obtain ⟨w', hw', -⟩ := h.start hr
    cases hw'
  preceded := h.registered.preceded
  empty := by
    intro hc k
    by_contra hk
    rw [Bool.not_eq_false] at hk
    obtain ⟨x, hp, -⟩ := (h.registered.keys k).mp hk
    have hstage := h.stage
    rw [hc] at hstage
    cases hstage with
    | returned hnone =>
      rw [pending_of (hnone x)] at hp
      cases hp

end Safe

/-! ## The split of a scan -/

section Split

variable (P : Behaviour ρ χ R) {range : R} {partition : ScanPartition}

/-- The first `start_scan` splits its range, and its second execution throws. -/
theorem exists_missingKey (hd : P.isDivisible range = true)
    (h : (partition.shouldExecuteRange false).1 = false) :
    ∃ w x, Reachable P (.parallelScan range partition) w ∧
      w.start x false = some (.error .missingKey) := by
  let f : StartScan R := ⟨0, none, .root, none, true, false, range, partition⟩
  let task : Task ρ R := ⟨.startScan f, some 2, 0, .executing .entered, some 1, false⟩
  -- the caller waits, and the task is executed
  let w₁ : World ρ R := (World.init (.parallelScan range partition)).callScan range partition
  have h₁ : Reachable P (.parallelScan range partition) w₁ := .step .init (e := .caller) rfl
  let w₂ : World ρ R := { w₁ with
    tasks := Function.update w₁.tasks 1 (some task)
    tempCurMap := Function.update w₁.tempCurMap 1 false
    calls := w₁.calls ++ [.execBegin 1] }
  have h₂ : Reachable P (.parallelScan range partition) w₂ := h₁.step (e := .start 1 false) rfl
  -- it splits its range
  let w₃ : World ρ R := w₂.scanSplit P 1 task
    { f with partition := (partition.shouldExecuteRange false).2 }
  have hsplit : w₂.run P 1 = some (.ok w₃) := by
    show some (w₂.runStartScan P 1 task f) = _
    rw [runStartScan_split rfl rfl hd h]
  have h₃ : Reachable P (.parallelScan range partition) w₃ := h₂.step (e := .run 1) hsplit
  -- it returns itself
  have h₄ : Reachable P (.parallelScan range partition) (w₃.finish 1 true (some 1)) :=
    h₃.step (e := .run 1) rfl
  exact ⟨_, 1, h₄, rfl⟩

end Split

/-- Every instrumented execution of an algorithm finds its node, for every behaviour of
    the range and of the partition and every order of the steps, if and only if the
    algorithm is no `parallel_scan` that splits its range. -/
theorem findsNode_iff (P : Behaviour ρ χ R) (alg : Algorithm ρ R) :
    (∀ w, Reachable P alg w → FindsNode w) ↔ alg.Unsplit P := by
  constructor
  · intro h
    cases alg with
    | parallelFor | parallelInvoke => trivial
    | parallelScan range partition =>
      by_contra hsplit
      unfold Algorithm.Unsplit at hsplit
      rw [not_or, Bool.not_eq_false, Bool.not_eq_true] at hsplit
      obtain ⟨w, x, hw, hr⟩ := exists_missingKey P hsplit.1 hsplit.2
      exact (h w hw).found x false .missingKey hr
  · intro halg w hw
    exact (hw.safe halg).findsNode

/-- `parallel_scan` over two indices with `simple_partitioner`. -/
theorem not_findsNode_simple :
    ¬ ∀ w, Reachable simpleBehaviour (.parallelScan ⟨2, 0, 1⟩ .simple) w → FindsNode w := by
  intro h
  obtain ⟨w, x, hw, hr⟩ := exists_missingKey simpleBehaviour
    (show simpleBehaviour.isDivisible ⟨2, 0, 1⟩ = true by decide)
    (show (ScanPartition.simple.shouldExecuteRange false).1 = false by rfl)
  exact (h w hw).found x false .missingKey hr

end TaskProf.Tbb
