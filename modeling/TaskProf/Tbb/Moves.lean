import TaskProf.Lib.Objects
import TaskProf.Tbb.Begins

/-!
# What a step does to the tasks

* `Moves`: a call of `execute` goes on: its task, and the tasks that it makes.
* `Calls`: the caller makes tasks.
* `Change`, `Safe.change`: every step of an algorithm that splits no scan is a move,
  the end of a task, a call, or the return of the caller.
* `World.bodiesOf`, `Run`: the callbacks `run_body` of an event, and of a run.
-/

namespace TaskProf.Tbb

variable {ρ χ R : Type}

/-! ## Moves -/

/-- A task of an algorithm goes on. It becomes `task'` and makes the tasks `new` from the
    address `next` on; `bodies` are the callbacks `run_body`, with the partition and the
    choice. -/
inductive Moves (P : Behaviour ρ χ R) (next : ℕ) (task : Task ρ R) :
    List (ρ × χ) → Task ρ R → List (Task ρ R) → Prop
  | start {pooled stolen : Bool} (hs : task.status = .ready pooled) :
      Moves P next task [] { task with status := .executing .entered, stolen := stolen } []
  | offerWork {work rest right : ρ} {choice : χ} (k : ℕ) (hs : task.status = .executing .entered)
      (hc : task.cls = .startFor work) (hnext : P.next work choice = .offerWork rest right) :
      Moves P next task [] { task with cls := .startFor rest, parent := some next }
        [{ cls := .flagTask, parent := task.parent, refCount := 2 },
          ⟨.startFor right, some next, 0, .ready true, some k, false⟩]
  | runBody {work rest : ρ} {choice : χ} (hs : task.status = .executing .entered)
      (hc : task.cls = .startFor work) (hnext : P.next work choice = .runBody rest) :
      Moves P next task [(work, choice)] { task with cls := .startFor rest } []
  | done {work : ρ} {choice : χ} (hs : task.status = .executing .entered)
      (hc : task.cls = .startFor work) (hnext : P.next work choice = .done) :
      Moves P next task [] { task with status := .executing (.returning false none) } []
  | leave (hs : task.status = .executing .entered)
      (hc : task.cls = .flagTask ∨ task.cls = .functionInvoker) :
      Moves P next task [] { task with status := .executing (.returning false none) } []
  | scan {f f' : StartScan R} (hs : task.status = .executing .entered) (hc : task.cls = .startScan f) :
      Moves P next task []
        { task with cls := .startScan f', status := .executing (.returning false none) } []
  | setRefCount {n : ℕ} (hn : 1 ≤ n) (hs : task.status = .executing .entered)
      (hc : task.cls = .spawner n) :
      Moves P next task []
        { task with refCount := n + 1, status := .executing (.spawning (n - 1)) } []
  | spawn {n left : ℕ} (k x : ℕ) (hs : task.status = .executing (.spawning (left + 1)))
      (hc : task.cls = .spawner n) :
      Moves P next task [] { task with status := .executing (.spawning left) }
        [⟨.functionInvoker, some x, 0, .ready true, some k, false⟩]
  | spawnAndWait {n : ℕ} (k x : ℕ) (hs : task.status = .executing (.spawning 0))
      (hc : task.cls = .spawner n) :
      Moves P next task [] { task with status := .executing .waiting }
        [⟨.functionInvoker, some x, 0, .ready false, some k, false⟩]
  | wake {n : ℕ} (hs : task.status = .executing .waiting) (hc : task.cls = .spawner n) :
      Moves P next task []
        { task with refCount := 0, status := .executing (.returning false none) } []

/-- The caller makes the tasks `new`. -/
inductive Calls : Caller ρ R → List (Task ρ R) → Caller ρ R → Prop
  | parallelFor (work : ρ) (k d : ℕ) : Calls (.call (.parallelFor work))
      [⟨.startFor work, some d, 0, .ready false, some k, false⟩,
        { cls := .emptyTask, parent := none, refCount := 2 }] (.waiting d .done)
  | parallelInvoke {n numberOfChildren : ℕ} {groups : List ℕ} (root : ℕ)
      (h : World.invokeArguments n = some (numberOfChildren, groups)) :
      Calls (.call (.parallelInvoke n))
        [{ cls := .invokeHelper, parent := none, refCount := numberOfChildren + 1 }]
        (.invoking root groups)
  | parallelScan (range : R) (partition : ScanPartition) (f : StartScan R) (k d tempBody : ℕ) :
      Calls (.call (.parallelScan range partition))
        [{ cls := .finalSum ⟨false, none⟩, parent := none, refCount := 0 },
          ⟨.startScan f, some d, 0, .ready false, some k, false⟩,
          { cls := .emptyTask, parent := none, refCount := 2 }] (.waiting d (.firstPass tempBody))
  | spawn (n : ℕ) (groups : List ℕ) (root k : ℕ) : Calls (.invoking root (n :: groups))
      [⟨World.groupClass n, some root, 0, .ready true, some k, false⟩] (.invoking root groups)
  | spawnAndWait (root k : ℕ) : Calls (.invoking root [])
      [⟨.functionInvoker, some root, 0, .ready false, some k, false⟩] (.waiting root .done)

/-- A task moves, ends, the caller makes tasks, or it returns. -/
inductive Change (P : Behaviour ρ χ R) (w w' : World ρ R) : List (ρ × χ) → Prop
  | move {x : ℕ} {task task' : Task ρ R} {bodies : List (ρ × χ)} {new : List (Task ρ R)}
      (hx : w.tasks x = some task) (hm : Moves P w.next task bodies task' new)
      (ht : w'.tasks = place (Function.update w.tasks x (some task')) w.next new)
      (hn : w'.next = w.next + new.length) (hc : w'.caller = w.caller) : Change P w w' bodies
  | finish {x p : ℕ} {task parent : Task ρ R} (hx : w.tasks x = some task)
      (hs : task.status = .executing (.returning false none)) (hp : w.tasks p = some parent)
      (hpx : p ≠ x) (hzero : parent.refCount - 1 = 0 →
        parent.cls = .flagTask ∧ parent.status = .allocated)
      (ht : w'.tasks = Function.update (Function.update w.tasks x none) p (some { parent with
        refCount := parent.refCount - 1
        status := if parent.refCount - 1 = 0 then .ready true else parent.status }))
      (hn : w'.next = w.next) (hc : w'.caller = w.caller) : Change P w w' []
  | call {new : List (Task ρ R)} (hcall : Calls w.caller new w'.caller)
      (ht : w'.tasks = place w.tasks w.next new) (hn : w'.next = w.next + new.length) :
      Change P w w' []
  | ret {d : ℕ} {after : After} (hc : w.caller = .waiting d after)
      (hleft : ∀ x task, w.tasks x = some task → task.status = .allocated)
      (hnone : ∀ x, w'.tasks x = none) (hc' : w'.caller = .returned) : Change P w w' []

/-! ## Runs -/

/-- The callback `run_body` of an event. -/
def World.bodiesOf (P : Behaviour ρ χ R) (w : World ρ R) : Event χ → List (ρ × χ)
  | .callback x choice =>
    match (w.tasks x).map Task.cls with
    | some (.startFor work) =>
      match P.next work choice with
      | .runBody _ => [(work, choice)]
      | _ => []
    | _ => []
  | _ => []

/-- A run of `alg` with its events, and with its callbacks `run_body`. -/
inductive Run (P : Behaviour ρ χ R) (alg : Algorithm ρ R) :
    List (Event χ) → List (ρ × χ) → World ρ R → Prop
  | init : Run P alg [] [] (.init alg)
  | step {es : List (Event χ)} {bodies : List (ρ × χ)} {w w' : World ρ R} {e : Event χ}
      (h : Run P alg es bodies w) (he : w.step P e = some (.ok w')) :
      Run P alg (es ++ [e]) (bodies ++ w.bodiesOf P e) w'

section Changes

variable {P : Behaviour ρ χ R} {w w' : World ρ R} {x root : ℕ} {task : Task ρ R}

theorem Run.reachable {alg : Algorithm ρ R} {es : List (Event χ)} {bodies : List (ρ × χ)}
    (h : Run P alg es bodies w) : Reachable P alg w := by
  induction h with
  | init => exact .init
  | step _ he ih => exact .step ih he

theorem tasks_modify (hx : w.tasks x = some task) (f : Task ρ R → Task ρ R) :
    (w.modify x f).tasks = Function.update w.tasks x (some (f task)) := by
  unfold World.modify
  rw [hx]
  rfl

/-- The flag and the child of `offer_work`. -/
theorem tasks_offerWork (hx : w.tasks x = some task) (hlt : x < w.next) (rest right : ρ) :
    (w.offerWork x rest right).tasks =
      place (Function.update w.tasks x
        (some { task with cls := .startFor rest, parent := some w.next })) w.next
        [{ cls := .flagTask, parent := task.parent, refCount := 2 },
          ⟨.startFor right, some w.next, 0, .ready true, some (w.taskIdCtr + 1), false⟩] := by
  let flag : Task ρ R := { cls := .flagTask, parent := task.parent, refCount := 2 }
  let w₁ := w.alloc flag
  have hx₁ : w₁.tasks x = some task := by
    show Function.update w.tasks w.next _ x = _
    rw [Function.update_of_ne hlt.ne, hx]
  let child : Task ρ R := { cls := .startFor right, parent := some w.next, refCount := 0 }
  let w₂ := w₁.modify x fun task => { task with cls := .startFor rest, parent := some w.next }
  have hw : w.offerWork x rest right = (w₂.alloc child).spawn (w.next + 1) true := by
    unfold World.offerWork
    rw [hx]
    rfl
  have hx₃ : (w₂.alloc child).tasks (w.next + 1) = some child := Function.update_self ..
  rw [hw, tasks_spawn hx₃]
  show Function.update (Function.update w₂.tasks (w.next + 1) _) (w.next + 1) _ = _
  rw [Function.update_idem, tasks_modify hx₁]
  show Function.update (Function.update (Function.update w.tasks w.next _) x _) (w.next + 1) _ = _
  rw [Function.update_comm hlt.ne']
  rfl

/-- A task that is left by `execute` ends. -/
theorem Change.of_finish (htree : Tree w root) (hcredit : 1 ≤ w.caller.credit)
    (hx : w.tasks x = some task) {recycled : Bool} {next : Option ℕ}
    (hs : task.status = .executing (.returning recycled next)) :
    Change P w (w.finish x recycled next) [] := by
  have hne := htree.ne_root hx hs
  have hidle : task.status.Idle ∧ task.refCount = 0 := by
    rcases (htree.taskOk x task hx hne).status with h0 | ⟨-, h0⟩ | ⟨n, -, ⟨left, h0⟩ | h0⟩
    · exact h0
    all_goals
      rw [hs] at h0
      cases h0
  obtain ⟨rfl, rfl⟩ : recycled = false ∧ next = none := by
    have := hidle.1
    rw [hs] at this
    exact this
  obtain ⟨p, parent, hp, hparent, hpx, ht, hflag, -⟩ :=
    htree.finish hx hne hidle.1 hidle.2 hcredit
  have hsame : (w.finish x false none).next = w.next ∧ (w.finish x false none).caller = w.caller := by
    show ((w.free x).tally ((w.tasks x).bind Task.parent)).next = _ ∧
      ((w.free x).tally ((w.tasks x).bind Task.parent)).caller = _
    rw [hx, Option.bind_some, hp]
    exact ⟨rfl, rfl⟩
  refine .finish hx hs hparent hpx (fun h0 => ⟨hflag h0, ?_⟩) ht hsame.1 hsame.2
  -- a parent has a count, so it is no flag that runs
  have hparentOf : w.parentOf x = some p := by rw [parentOf_of hx, hp]
  have hlt := htree.counted.credit_lt hparentOf
  rw [refsOf_of hparent] at hlt
  have hpr : p ≠ root := by
    rintro rfl
    rw [creditOf_root] at hlt
    omega
  rcases (htree.taskOk p parent hparent hpr).status with ⟨-, h0'⟩ | ⟨-, hs'⟩ | ⟨n, hn, -⟩
  · omega
  · exact hs'
  · rw [hflag h0] at hn
    cases hn

/-- A task goes on to another place in `execute`. -/
theorem Change.of_modify (hx : w.tasks x = some task) {f : Task ρ R → Task ρ R}
    {bodies : List (ρ × χ)} (hm : Moves P w.next task bodies (f task) []) :
    Change P w (w.modify x f) bodies :=
  .move hx hm (tasks_modify hx f) rfl rfl

/-- A step of a `spawner`. -/
theorem Change.of_runSpawner (htree : Tree w root) (hx : w.tasks x = some task) {n : ℕ}
    (hc : task.cls = .spawner n) {loc : Loc} (hs : task.status = .executing loc)
    (h : w.runSpawner x n loc = some w') : Change P w w' [] := by
  have hn : 1 ≤ n := by
    have := (htree.taskOk x task hx (htree.ne_root hx hs)).cls
    rw [hc] at this
    exact this
  have hlt := htree.lt_next hx
  have hspawn : ∀ (pooled : Bool) (loc' : Loc),
      ((w.spawnChild x .functionInvoker pooled).setLoc x loc').tasks =
        place (Function.update w.tasks x (some { task with status := .executing loc' })) w.next
          [⟨.functionInvoker, some x, 0, .ready pooled, some (w.taskIdCtr + 1), false⟩] := by
    intro pooled loc'
    have ht := tasks_spawnChild w x (.functionInvoker : TaskClass ρ R) pooled
    have hx₁ : (w.spawnChild x .functionInvoker pooled).tasks x = some task := by
      rw [ht, Function.update_of_ne hlt.ne, hx]
    unfold World.setLoc
    rw [tasks_modify hx₁, ht, Function.update_comm hlt.ne']
    rfl
  cases loc with
  | entered =>
    obtain rfl := Option.some.inj h
    exact .of_modify hx (.setRefCount hn hs hc)
  | spawning left =>
    cases left with
    | zero =>
      obtain rfl := Option.some.inj h
      exact .move hx (.spawnAndWait _ x hs hc) (hspawn _ _) rfl rfl
    | succ left =>
      obtain rfl := Option.some.inj h
      exact .move hx (.spawn _ x hs hc) (hspawn _ _) rfl rfl
  | waiting =>
    unfold World.runSpawner at h
    dsimp only at h
    split_ifs at h
    obtain rfl := Option.some.inj h
    exact .of_modify hx (.wake hs hc)
  | returning recycled next => cases h

/-- A step of a call of `execute`, in a tree. -/
theorem Change.of_run (htree : Tree w root) (hcredit : 1 ≤ w.caller.credit)
    (h : w.run P x = some (.ok w')) : Change P w w' [] := by
  unfold World.run at h
  split at h
  · cases h
  rename_i task hx
  have hcls : ∀ {loc : Loc}, task.status = .executing loc → task.cls.SingleShot := fun hs =>
    (htree.taskOk x task hx (htree.ne_root hx hs)).cls
  split at h
  · rename_i recycled next hs
    rw [← Except.ok.inj (Option.some.inj h)]
    exact .of_finish htree hcredit hx hs
  · rename_i hs hc
    rw [← Except.ok.inj (Option.some.inj h)]
    exact .of_modify hx (.leave hs (.inl hc))
  · rename_i hs hc
    rw [← Except.ok.inj (Option.some.inj h)]
    exact .of_modify hx (.leave hs (.inr hc))
  · rename_i hs hc
    have := hcls hs
    rw [hc] at this
    cases this
  · rename_i loc n hs hc
    obtain ⟨w₁, hw₁, h⟩ := Option.map_eq_some_iff.mp h
    rw [← Except.ok.inj h]
    exact .of_runSpawner htree hx hc hs hw₁
  · rename_i f hs hc
    have := hcls hs
    rw [hc] at this
    cases this
  · rename_i f hs hc
    have := hcls hs
    rw [hc] at this
    cases this
  · rename_i f hs hc
    have := hcls hs
    rw [hc] at this
    cases this
  · cases h

/-- A callback, in a tree. -/
theorem Change.of_callback (htree : Tree w root) {choice : χ}
    (h : w.callback P x choice = some (.ok w')) :
    Change P w w' (w.bodiesOf P (.callback x choice)) := by
  unfold World.callback at h
  split at h
  · cases h
  rename_i task hx
  split at h
  · rename_i work hs hc
    rw [← Except.ok.inj (Option.some.inj h)]
    unfold World.bodiesOf World.runStartFor
    dsimp only
    rw [hx, Option.map_some, hc]
    dsimp only
    cases hnext : P.next work choice with
    | offerWork rest right =>
      exact .move hx (.offerWork _ hs hc hnext) (tasks_offerWork hx (htree.lt_next hx) rest right)
        rfl rfl
    | runBody rest => exact .of_modify hx (.runBody hs hc hnext)
    | done => exact .of_modify hx (.done hs hc hnext)
  · cases h

/-- A step of the first pass of a scan. -/
theorem Change.of_firstPass {tempBody d : ℕ} (hpass : FirstPass P w tempBody d)
    (h : w.run P x = some (.ok w')) : Change P w w' [] := by
  unfold World.run at h
  cases hx : w.tasks x with
  | none =>
    rw [hx] at h
    cases h
  | some task =>
    rw [hx] at h
    dsimp only at h
    have hs : task.status ≠ .allocated := by
      intro hs
      rw [hs] at h
      cases h
    obtain ⟨f, hleaf, hd, hb, htasks⟩ := hpass.leaf_of_status hx hs
    rcases hleaf.status with ⟨hready | hentered, hunsplit⟩ | hreturning
    · rw [hready] at h
      cases h
    · rw [hentered, hleaf.cls] at h
      obtain ⟨partition, hrun⟩ := runStartScan_leaf w x hleaf.left hleaf.sum
        hleaf.stolen hunsplit
      rw [Option.some.inj h] at hrun
      rw [Except.ok.inj hrun]
      have hmove : Moves P w.next task [] { task with
          cls := .startScan { f with partition := partition }
          status := .executing (.returning false none) } [] := .scan hentered hleaf.cls
      refine .move hx hmove ?_ rfl rfl
      have hx₁ : (w.setClass x (.startScan { f with partition := partition })).tasks x =
          some { task with cls := .startScan { f with partition := partition } } := by
        unfold World.setClass
        rw [tasks_modify hx, Function.update_self]
      unfold World.setLoc
      rw [tasks_modify hx₁]
      unfold World.setClass
      rw [tasks_modify hx, Function.update_idem]
      rfl
    · rw [hreturning] at h
      rw [← Except.ok.inj (Option.some.inj h)]
      have hwait : w.tasks d = some (waitedTask 2) := by
        rw [htasks, Function.update_of_ne hd, Function.update_self]
      have hfinish : w.finish x false none = (w.free x).tally (some d) := by
        show (w.free x).tally ((w.tasks x).bind Task.parent) = _
        rw [hx, Option.bind_some, hleaf.parent]
      have hwait₁ : (w.free x).tasks d = some (waitedTask 2) := by
        show Function.update w.tasks x none d = _
        rw [Function.update_of_ne hd, hwait]
      refine .finish hx hreturning hwait hd (fun h0 => absurd h0 Nat.one_ne_zero) ?_ ?_ ?_
      all_goals rw [hfinish]
      · exact tasks_modify hwait₁ _
      · rfl
      · rfl

/-- The tasks of a root that the caller waits for. -/
theorem place_spawnRootAndWait (w : World ρ R) (cls : TaskClass ρ R) (after : After) :
    ((w.alloc { cls := cls, parent := none, refCount := 0 }).spawnRootAndWait w.next after).tasks =
      place w.tasks w.next [⟨cls, some (w.next + 1), 0, .ready false, some (w.taskIdCtr + 1), false⟩,
        { cls := .emptyTask, parent := none, refCount := 2 }] := by
  have hx : (w.alloc { cls := cls, parent := none, refCount := 0 }).tasks w.next =
      some { cls := cls, parent := none, refCount := 0 } := Function.update_self ..
  have hne : w.next ≠ w.next + 1 := (Nat.succ_ne_self _).symm
  rw [tasks_spawnRootAndWait hx hne]
  show Function.update (Function.update (Function.update w.tasks w.next _) (w.next + 1) _) w.next _ = _
  rw [Function.update_comm hne.symm, Function.update_idem]
  rfl

theorem Change.of_caller (h : Safe P w) (hr : w.runCaller = some (.ok w')) : Change P w w' [] := by
  obtain ⟨hreg, hstage⟩ := h
  unfold World.runCaller at hr
  generalize hc : w.caller = caller at hstage hr
  cases hstage with
  | @call alg hnone hroot halg =>
    cases alg with
    | parallelFor work =>
      rw [← Except.ok.inj (Option.some.inj hr)]
      have hcall := Calls.parallelFor (R := R) work (w.taskIdCtr + 1) (w.next + 1)
      rw [← hc] at hcall
      exact .call hcall (place_spawnRootAndWait w _ _) rfl
    | parallelInvoke n =>
      dsimp only at hr
      cases hn : World.invokeArguments n with
      | none =>
        rw [hn] at hr
        cases hr
      | some arguments =>
        rw [hn] at hr
        rw [← Except.ok.inj (Option.some.inj hr)]
        have hcall := Calls.parallelInvoke (ρ := ρ) (R := R) w.next hn
        rw [← hc] at hcall
        exact .call hcall rfl rfl
    | parallelScan range partition =>
      rw [← Except.ok.inj (Option.some.inj hr)]
      have hcall := Calls.parallelScan (ρ := ρ) range partition
        ⟨w.next, none, .root, none, true, false, range, partition⟩ (w.taskIdCtr + 1) (w.next + 2)
        w.next
      rw [← hc] at hcall
      exact .call hcall (place_spawnRootAndWait (w.alloc tempBodyTask) _ _) rfl
  | @invoking root groups htree =>
    cases groups with
    | nil =>
      rw [← Except.ok.inj (Option.some.inj hr)]
      have hcall := Calls.spawnAndWait (ρ := ρ) (R := R) root (w.taskIdCtr + 1)
      rw [← hc] at hcall
      exact .call hcall (tasks_spawnChild w root .functionInvoker false) rfl
    | cons n groups =>
      rw [← Except.ok.inj (Option.some.inj hr)]
      have hcall := Calls.spawn (ρ := ρ) (R := R) n groups root (w.taskIdCtr + 1)
      rw [← hc] at hcall
      exact .call hcall (tasks_spawnChild w root (World.groupClass n) true) rfl
  | @waiting root htree =>
    dsimp only at hr
    split_ifs at hr with hcount
    obtain ⟨w₁, hw₁, -, hnone, hc'⟩ := resume_safe hreg htree hc hcount
    rw [Option.some.inj hr] at hw₁
    obtain rfl := Except.ok.inj hw₁
    refine .ret hc (fun x task hx => ?_) hnone hc'
    have hrefs : w.refsOf root = w.caller.credit := by
      unfold World.refsOf
      rw [hcount, hc]
      rfl
    obtain ⟨r, hr, -, hs⟩ := htree.rootTask
    by_cases hxr : x = root
    · rw [hxr, hr] at hx
      rw [← Option.some.inj hx, hs]
    · rw [htree.eq_none hrefs hxr] at hx
      cases hx
  | firstPass hroot hbd hpass =>
    dsimp only at hr
    split_ifs at hr with hcount
    obtain ⟨w₁, hw₁, -, hnone, hc'⟩ := firstPass_resume hreg hpass hbd hcount hroot
    rw [Option.some.inj hr] at hw₁
    obtain rfl := Except.ok.inj hw₁
    refine .ret hc (fun x task hx => ?_) hnone hc'
    by_contra hs
    obtain ⟨f, hleaf, hd, hb, htasks⟩ := hpass.leaf_of_status hx hs
    rw [htasks, Function.update_of_ne hd, Function.update_self] at hcount
    cases hcount
  | returned => cases hr

/-- **What a step does.** -/
theorem Safe.change (h : Safe P w) {e : Event χ} (he : w.step P e = some (.ok w')) :
    Change P w w' (w.bodiesOf P e) := by
  cases e with
  | start x stolen =>
    obtain ⟨w₁, task, pooled, hw, -, hx, hs, -, ht, hn, -, hc⟩ := start_registered h.registered he
    rw [Except.ok.inj hw]
    exact .move hx (.start hs) ht hn hc
  | callback x choice =>
    obtain ⟨task, work, hx, hs, hcls⟩ := callback_task he
    rcases h.stage.of_task hx with ⟨root, htree, -, -⟩ | ⟨tempBody, d, hpass, -⟩
    · exact .of_callback htree he
    · -- a first pass has no `start_for`
      obtain ⟨f, hleaf, -⟩ := hpass.leaf_of_status hx (by simp [hs])
      have hscan := hleaf.cls
      rw [hcls] at hscan
      cases hscan
  | run x =>
    obtain ⟨task, hx⟩ := run_task he
    rcases h.stage.of_task hx with ⟨root, htree, hcredit, -⟩ | ⟨tempBody, d, hpass, -⟩
    · exact .of_run htree hcredit he
    · exact .of_firstPass hpass he
  | caller => exact .of_caller h he

end Changes

end TaskProf.Tbb
