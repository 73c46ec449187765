import TaskProf.Common

/-!
# Tasks with ids

The task objects of TBB (`task.h`, `src/tbb/custom_scheduler.h`, `src/tbb/task.cpp`)
and the calls of `t_debug_task.h` that give them an id.

Which thread executes a task makes no difference to `temp_cur_map`. So a state
holds the tasks only, by their addresses, and in a run any of them may go on at any
time.

* `spawn`: the three calls of `t_debug_task` that set the id of a task.
* `execBegin`: what `__exec_begin__` does to `temp_cur_map`.
* `start`, `finish`: the scheduler starts a task, and completes it.
-/

namespace TaskProf.Tbb

/-! ## Task classes -/

/-- Where `my_return_slot` of a `start_scan` points. -/
inductive Slot
  | root
  | left (n : ℕ)
  | right (n : ℕ)

/-- `partition_type` of `simple_partitioner` and of `auto_partitioner`
    (`partitioner.h`, lines 541–558 and 575–580). -/
inductive ScanPartition
  | simple
  | auto (numChunks : SizeT)

/-- `class final_sum`: whether `my_stuff_last` is set, and its range. -/
structure FinalSum (R : Type) where
  stuffLast : Bool
  range : Option R

/-- `class sum_node`. -/
structure SumNode (R : Type) where
  incoming : Option ℕ
  body : Option ℕ
  stuffLast : Bool
  leftSum : Option ℕ
  left : Option ℕ
  right : Option ℕ
  leftIsFinal : Bool
  range : R

/-- `class finish_scan`; `sum` is the node whose `my_left_sum` is `*my_sum`. -/
structure FinishScan where
  sum : Option ℕ
  returnSlot : Slot
  rightZombie : Option ℕ
  result : ℕ

/-- `class start_scan`. -/
structure StartScan (R : Type) where
  body : ℕ
  sum : Option ℕ
  returnSlot : Slot
  parentSum : Option ℕ
  isFinal : Bool
  isRightChild : Bool
  range : R
  partition : ScanPartition

/-- The classes of the tasks; `emptyTask` is the `auto_empty_task` of
    `spawn_root_and_wait`. A `start_for` has the state `work` of its partition. -/
inductive TaskClass (ρ R : Type)
  | emptyTask
  | startFor (work : ρ)
  | flagTask
  | functionInvoker
  | spawner (n : ℕ)
  | invokeHelper
  | finalSum (f : FinalSum R)
  | sumNode (f : SumNode R)
  | finishScan (f : FinishScan)
  | startScan (f : StartScan R)

/-- `execute` calls `__exec_begin__` first. -/
def TaskClass.instrumented {ρ R : Type} : TaskClass ρ R → Bool
  | .emptyTask | .flagTask | .invokeHelper => false
  | _ => true

/-! ## States -/

/-- How far a call of `execute` is. -/
inductive Loc
  | entered
  | spawning (left : ℕ)
  | waiting
  | returning (recycled : Bool) (next : Option ℕ)

/-- A ready task is in a task pool, or is the next one of some thread. -/
inductive Status
  | allocated
  | ready (pooled : Bool)
  | executing (loc : Loc)

/-- A task object. `taskId` is not set by the constructors. -/
structure Task (ρ R : Type) where
  cls : TaskClass ρ R
  parent : Option ℕ
  refCount : ℕ
  status : Status := .allocated
  taskId : Option ℕ := none
  stolen : Bool := false

/-- The calls that change `temp_cur_map`. -/
inductive Call
  | setTaskId (taskId : ℕ)
  | execBegin (taskId : ℕ)
  deriving DecidableEq

/-- What the caller of an algorithm does after a wait. -/
inductive After
  | done
  | firstPass (tempBody : ℕ)

/-- The algorithms: `parallel_for` with the partition of the whole range,
    `parallel_invoke` with `n` functions, and `parallel_scan`. The ranges are not
    empty. -/
inductive Algorithm (ρ R : Type)
  | parallelFor (work : ρ)
  | parallelInvoke (n : ℕ)
  | parallelScan (range : R) (partition : ScanPartition)

/-- How far the caller is. -/
inductive Caller (ρ R : Type)
  | call (alg : Algorithm ρ R)
  | invoking (root : ℕ) (groups : List ℕ)
  | waiting (task : ℕ) (after : After)
  | returned

/-- The tasks, `task_id_ctr`, the keys of `temp_cur_map`, the calls so far, `root`
    of `start_scan::run`, and the caller. -/
structure World (ρ R : Type) where
  tasks : ℕ → Option (Task ρ R)
  next : ℕ
  taskIdCtr : ℕ
  tempCurMap : ℕ → Bool
  calls : List Call
  root : Option ℕ
  caller : Caller ρ R

namespace World

variable {ρ R : Type} (w : World ρ R)

/-- The caller is about to call `alg`. -/
def init (alg : Algorithm ρ R) : World ρ R where
  tasks _ := none
  next := 0
  taskIdCtr := 0
  tempCurMap _ := false
  calls := []
  root := none
  caller := .call alg

/-- `new` of a task, at the address `next`. -/
def alloc (task : Task ρ R) : World ρ R :=
  { w with tasks := Function.update w.tasks w.next (some task), next := w.next + 1 }

def modify (x : ℕ) (f : Task ρ R → Task ρ R) : World ρ R :=
  { w with tasks := Function.update w.tasks x ((w.tasks x).map f) }

def free (x : ℕ) : World ρ R := { w with tasks := Function.update w.tasks x none }

def setLoc (x : ℕ) (loc : Loc) : World ρ R :=
  w.modify x fun task => { task with status := .executing loc }

/-! ## Ids -/

/-- `CaptureSetTaskId`, of the keys. -/
def captureSetTaskId (taskId : ℕ) : World ρ R :=
  { w with
    tempCurMap := Function.update w.tempCurMap taskId true
    calls := w.calls ++ [.setTaskId taskId] }

/-- `spawn` (lines 27–40 of `t_debug_task.h`), and the same part of the other two
    calls: `setTaskId(++task_id_ctr)`, `CaptureSetTaskId`, then the task is ready.
    The waiting calls run it next, so it is in no pool. -/
def spawn (x : ℕ) (pooled : Bool) : World ρ R :=
  let taskId := w.taskIdCtr + 1
  let w := { w with taskIdCtr := taskId }
  let w := w.modify x fun task => { task with taskId := some taskId, status := .ready pooled }
  w.captureSetTaskId taskId

/-- `spawn_root_and_wait` (lines 42–57): TBB makes the task a child of an
    `auto_empty_task` with the count 2. -/
def spawnRootAndWait (x : ℕ) (after : After) : World ρ R :=
  let dummy := w.next
  let w := w.alloc { cls := .emptyTask, parent := none, refCount := 2 }
  let w := w.modify x fun task => { task with parent := some dummy }
  { w.spawn x false with caller := .waiting dummy after }

/-- `__exec_begin__`: `CaptureExecute`, of the keys. An id that is not set is no key. -/
def execBegin (taskId : Option ℕ) : Except Fault (World ρ R) :=
  match taskId with
  | none => .error .missingKey
  | some taskId =>
    if w.tempCurMap taskId = true then
      .ok { w with
        tempCurMap := Function.update w.tempCurMap taskId false
        calls := w.calls ++ [.execBegin taskId] }
    else .error .missingKey

/-! ## The scheduler -/

/-- A ready task is started; only a task from a pool can be stolen. -/
def start (x : ℕ) (stolen : Bool) : Option (Except Fault (World ρ R)) :=
  match w.tasks x with
  | none => none
  | some task =>
    match task.status with
    | .ready pooled =>
      if stolen = true ∧ pooled = false then none
      else some do
        let w ← if task.cls.instrumented = true then w.execBegin task.taskId else .ok w
        .ok (w.modify x fun task => { task with status := .executing .entered, stolen := stolen })
    | _ => none

/-- `tally_completion_of_predecessor`: a parent whose count drops to zero is run. -/
def tally : Option ℕ → World ρ R
  | none => w
  | some p => w.modify p fun task =>
    { task with
      refCount := task.refCount - 1
      status := if task.refCount - 1 = 0 then .ready true else task.status }

/-- The task that `execute` has returned is run next. -/
def runNext : Option ℕ → World ρ R
  | none => w
  | some y => w.modify y fun task => { task with status := .ready false }

/-- `execute` of `x` has returned; a task that is not recycled is destroyed. -/
def finish (x : ℕ) (recycled : Bool) (next : Option ℕ) : World ρ R :=
  let w' := if recycled = true then w.modify x fun task => { task with status := .allocated }
    else (w.free x).tally ((w.tasks x).bind Task.parent)
  w'.runNext next

/-- `task::destroy`, which takes the reference of the parent and runs nothing. -/
def destroy (x : ℕ) : World ρ R :=
  match (w.tasks x).bind Task.parent with
  | none => w.free x
  | some p => (w.free x).modify p fun task => { task with refCount := task.refCount - 1 }

end World

end TaskProf.Tbb
