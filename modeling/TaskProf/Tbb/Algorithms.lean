import TaskProf.Tbb.Tasks

/-!
# The parallel algorithms

`parallel_for.h` (lines 93–154), `parallel_invoke.h` and `parallel_scan.h` (lines
49–314) as programs over the tasks. The bodies of the user start no task of the
algorithm and are left out, as are the results of the scan.

A call of `execute` runs in steps: a task that it spawns may be executed, and may
complete, before the next step.
-/

namespace TaskProf.Tbb

/-! ## Ranges and partitions -/

/-- What `my_partition.execute` asks its `start_for` to do. -/
inductive Callback (ρ : Type)
  | offerWork (rest right : ρ)
  | runBody (rest : ρ)
  | done

/-- A range and a partition: `next` is the next callback of `my_partition.execute`,
    by a choice `χ` (what is stolen, where there is demand); `split` gives what is
    left of the range and the new range. -/
structure Behaviour (ρ χ R : Type) where
  next : ρ → χ → Callback ρ
  isDivisible : R → Bool
  split : R → R × R

/-- `simple_partition_type::execute` (lines 531–536 of `partitioner.h`), on the range
    that is left; `none` when the body has run. -/
def simpleExecute {R : Type} (isDivisible : R → Bool) (split : R → R × R) :
    Option R → Unit → Callback (Option R)
  | none, _ => .done
  | some range, _ =>
    if isDivisible range = true then .offerWork (some (split range).1) (some (split range).2)
    else .runBody none

/-- `blocked_range<size_t>` (`blocked_range.h`). -/
structure BlockedRange where
  myEnd : SizeT
  myBegin : SizeT
  myGrainsize : SizeT

/-- `is_divisible` (line 86). -/
def BlockedRange.isDivisible (r : BlockedRange) : Bool :=
  decide (r.myGrainsize < r.myEnd - r.myBegin)

/-- The splitting constructor, with `do_split` (lines 91–98 and 125–131): what is left
    and the new range. -/
def BlockedRange.split (r : BlockedRange) : BlockedRange × BlockedRange :=
  let middle := r.myBegin + (r.myEnd - r.myBegin) / 2
  ({ r with myEnd := middle }, { r with myBegin := middle })

/-- A `blocked_range` under `simple_partitioner`. -/
def simpleBehaviour : Behaviour (Option BlockedRange) Unit BlockedRange where
  next := simpleExecute BlockedRange.isDivisible BlockedRange.split
  isDivisible := BlockedRange.isDivisible
  split := BlockedRange.split

/-- `should_execute_range`; the partition that it leaves. -/
def ScanPartition.shouldExecuteRange (stolen : Bool) : ScanPartition → Bool × ScanPartition
  | .simple => (false, .simple)
  | .auto numChunks =>
    let numChunks := if numChunks < 4 ∧ stolen = true then 4 else numChunks
    (decide (numChunks = 1), .auto numChunks)

/-- The partition that a splitting constructor leaves and makes. -/
def ScanPartition.halve : ScanPartition → ScanPartition
  | .simple => .simple
  | .auto numChunks => .auto ((numChunks + 1) / 2)

namespace World

variable {ρ χ R : Type} (P : Behaviour ρ χ R) (w : World ρ R)

/-! ## `parallel_for` -/

/-- `offer_work` with `allocate_sibling` (lines 121–142): a `flag_task` takes the
    place of `x`, and `x` and a new task become its children. -/
def offerWork (x : ℕ) (rest right : ρ) : World ρ R :=
  let flag := w.next
  let w := w.alloc
    { cls := .flagTask, parent := (w.tasks x).bind Task.parent, refCount := 2 }
  let w := w.modify x fun task => { task with cls := .startFor rest, parent := some flag }
  let child := w.next
  let w := w.alloc { cls := .startFor right, parent := some flag, refCount := 0 }
  w.spawn child true

/-- `start_for::execute` (lines 145–154). -/
def runStartFor (x : ℕ) (work : ρ) (choice : χ) : World ρ R :=
  match P.next work choice with
  | .offerWork rest right => w.offerWork x rest right
  | .runBody rest => w.modify x fun task => { task with cls := .startFor rest }
  | .done => w.setLoc x (.returning false none)

/-! ## `parallel_invoke` -/

/-- Allocate a child of `p` and spawn it. -/
def spawnChild (p : ℕ) (cls : TaskClass ρ R) (pooled : Bool) : World ρ R :=
  (w.alloc { cls := cls, parent := some p, refCount := 0 }).spawn w.next pooled

/-- `spawner::execute` (lines 71–98). -/
def runSpawner (x : ℕ) (n : ℕ) : Loc → Option (World ρ R)
  | .entered => some (w.modify x fun task =>
    { task with refCount := n + 1, status := .executing (.spawning (n - 1)) })
  | .spawning (left + 1) => some ((w.spawnChild x .functionInvoker true).setLoc x (.spawning left))
  | .spawning 0 => some ((w.spawnChild x .functionInvoker false).setLoc x .waiting)
  | .waiting =>
    if (w.tasks x).map Task.refCount = some 1 then
      some (w.modify x fun task =>
        { task with refCount := 0, status := .executing (.returning false none) })
    else none
  | .returning _ _ => none

/-- `parallel_invoke` with `n` functions (lines 274–405): the number of children and
    the groups for `add_children`. -/
def invokeArguments : ℕ → Option (ℕ × List ℕ)
  | 2 => some (2, [1])
  | 3 => some (3, [1, 1])
  | 4 => some (4, [1, 1, 1])
  | 5 => some (3, [2, 2])
  | 6 => some (3, [3, 2])
  | 7 => some (3, [3, 3])
  | 8 => some (4, [3, 2, 2])
  | 9 => some (4, [3, 3, 2])
  | 10 => some (4, [3, 3, 3])
  | _ => none

/-- The task for a group of `add_children`. -/
def groupClass (n : ℕ) : TaskClass ρ R := if n ≤ 1 then .functionInvoker else .spawner n

/-! ## `parallel_scan` -/

/-- `sum_node` behind a pointer. -/
def readSumNode (n : Option ℕ) : Except Fault (SumNode R) :=
  match n with
  | none => .error .nullPointer
  | some n =>
    match (w.tasks n).map Task.cls with
    | some (.sumNode f) => .ok f
    | _ => .error .danglingPointer

def setClass (x : ℕ) (cls : TaskClass ρ R) : World ρ R :=
  w.modify x fun task => { task with cls := cls }

/-- Assign through `my_return_slot`. -/
def writeSlot (slot : Slot) (n : Option ℕ) : Except Fault (World ρ R) :=
  match slot with
  | .root => .ok { w with root := n }
  | .left m => do
    let f ← w.readSumNode (some m)
    .ok (w.setClass m (.sumNode { f with left := n }))
  | .right m => do
    let f ← w.readSumNode (some m)
    .ok (w.setClass m (.sumNode { f with right := n }))

/-- `finish_scan` behind a pointer. -/
def readFinishScan (n : Option ℕ) : Except Fault (FinishScan) :=
  match n with
  | none => .error .nullPointer
  | some n =>
    match (w.tasks n).map Task.cls with
    | some (.finishScan f) => .ok f
    | _ => .error .danglingPointer

/-- The start of `start_scan::execute` (lines 268–277): a right child that is treated
    as stolen takes a new body. -/
def treatAsStolen (task : Task ρ R) (f : StartScan R) :
    Except Fault (Bool × StartScan R × World ρ R) :=
  if f.isRightChild = false then .ok (false, f, w)
  else do
    let p ← w.readFinishScan task.parent
    let result ← w.readSumNode (some p.result)
    if task.stolen = true ∨ some f.body ≠ result.leftSum then
      let zombie := w.next
      let w := w.alloc { cls := .finalSum ⟨false, none⟩, parent := none, refCount := 0 }
      match task.parent with
      | none => .error .nullPointer
      | some c => .ok (true, { f with body := zombie, isFinal := false },
        w.setClass c (.finishScan { p with rightZombie := some zombie }))
    else .ok (false, f, w)

/-- The leaf of `start_scan::execute` (lines 280–287). -/
def scanLeaf (x : ℕ) (f : StartScan R) : Except Fault (World ρ R) :=
  match f.sum with
  | none => .ok ((w.setClass x (.startScan f)).setLoc x (.returning false none))
  | some n => do
    let node ← w.readSumNode (some n)
    let w := w.setClass n (.sumNode { node with leftSum := some f.body })
    .ok ((w.setClass x (.startScan f)).setLoc x (.returning false none))

/-- The split of `start_scan::execute` (lines 288–310): the task is recycled as the
    left child of a `finish_scan`, spawns the right child and is returned. -/
def scanSplit (x : ℕ) (task : Task ρ R) (f : StartScan R) : World ρ R :=
  let result := w.next
  let node : SumNode R := ⟨none, none, false, none, none, none, f.isFinal, f.range⟩
  let w := w.alloc { cls := .sumNode node, parent := f.parentSum, refCount := 0 }
  -- `allocate_additional_child_of` counts the new child
  let w := match f.parentSum with
    | none => w
    | some p => w.modify p fun task => { task with refCount := task.refCount + 1 }
  let c := w.next
  let w := w.alloc
    { cls := .finishScan ⟨f.sum, f.returnSlot, none, result⟩, parent := task.parent, refCount := 2 }
  let (rest, right) := P.split f.range
  let partition := f.partition.halve
  let child := w.next
  let w := w.alloc
    { cls := .startScan ⟨f.body, f.sum, .right result, some result, f.isFinal, true, right, partition⟩
      parent := some c
      refCount := 0 }
  let f := ⟨f.body, some result, .left result, some result, f.isFinal, false, rest, partition⟩
  let w := w.modify x fun task =>
    { task with
      cls := .startScan f
      parent := some c
      status := .executing (.returning true (some x)) }
  w.spawn child true

/-- `start_scan::execute` (lines 265–313). -/
def runStartScan (x : ℕ) (task : Task ρ R) (f : StartScan R) : Except Fault (World ρ R) := do
  let (stolen, f, w) ← w.treatAsStolen task f
  if (f.isRightChild = true ∧ stolen = false) ∨ P.isDivisible f.range = false then w.scanLeaf x f
  else
    let (execute, partition) := f.partition.shouldExecuteRange task.stolen
    let f := { f with partition := partition }
    if execute = true then w.scanLeaf x f else .ok (w.scanSplit P x task f)

/-- `sum_node::create_child` (lines 108–119), with the task that it returns. -/
def createChild (x : ℕ) (range : R) (f : Option ℕ) (n incoming : Option ℕ)
    (stuffLast : Bool) : Except Fault (ℕ × World ρ R) :=
  match f, n with
  | none, _ => .error .nullPointer
  | some f, none => .ok (f, w.modify f fun task =>
    { task with
      cls := .finalSum ⟨stuffLast, some range⟩
      parent := some x
      status := .allocated })
  | some f, some n => do
    let node ← w.readSumNode (some n)
    .ok (n, w.setClass n (.sumNode
      { node with body := some f, incoming := incoming, stuffLast := stuffLast }))

/-- `sum_node::execute` (lines 120–142). -/
def runSumNode (x : ℕ) (f : SumNode R) : Except Fault (World ρ R) :=
  match f.body with
  | none => .ok (w.setLoc x (.returning false none))
  | some body => do
    let (rest, right) := P.split f.range
    let (b, w) ← w.createChild x right f.leftSum f.right f.leftSum f.stuffLast
    let f := { f with range := rest, body := none }
    if f.leftIsFinal = true then
      let w := w.modify x fun task =>
        { task with
          cls := .sumNode f
          refCount := 1
          status := .executing (.returning true (some b)) }
      .ok w
    else do
      let (a, w) ← w.createChild x rest (some body) f.left f.incoming false
      let w := w.modify x fun task =>
        { task with
          cls := .sumNode f
          refCount := 2
          status := .executing (.returning true (some a)) }
      .ok (w.spawn b true)

/-- `finish_scan::execute` (lines 161–182). -/
def runFinishScan (x : ℕ) (f : FinishScan) : Except Fault (World ρ R) := do
  let result ← w.readSumNode (some f.result)
  let leftIsFinal := if result.left.isSome = true then false else result.leftIsFinal
  let w := w.setClass f.result (.sumNode { result with leftIsFinal := leftIsFinal })
  let w ←
    if f.rightZombie.isSome = true ∨ result.right.isSome = true then
      w.writeSlot f.returnSlot (some f.result)
    else .ok (w.destroy f.result)
  let w := match f.rightZombie with
    | none => w
    | some zombie => if f.sum = none ∧ result.right = none then w.destroy zombie else w
  .ok (w.setLoc x (.returning false none))

/-! ## The caller -/

/-- `parallel_scan` up to its first wait (lines 238–249). -/
def callScan (range : R) (partition : ScanPartition) : World ρ R :=
  let tempBody := w.next
  let w := w.alloc { cls := .finalSum ⟨false, none⟩, parent := none, refCount := 0 }
  let pass1 := w.next
  let w := w.alloc
    { cls := .startScan ⟨tempBody, none, .root, none, true, false, range, partition⟩
      parent := none
      refCount := 0 }
  w.spawnRootAndWait pass1 (.firstPass tempBody)

/-- After a wait on `d`: `parallel_scan` starts the second pass if there is a root
    (lines 250–259). -/
def resume (d : ℕ) : After → Except Fault (World ρ R)
  | .done => .ok { w.free d with caller := .returned }
  | .firstPass tempBody =>
    let w := w.free d
    match w.root with
    | none => .ok { w.free tempBody with caller := .returned }
    | some root => do
      let f ← w.readSumNode (some root)
      let w := w.setClass root (.sumNode
        { f with body := some tempBody, incoming := none, stuffLast := true })
      .ok (w.spawnRootAndWait root .done)

/-- A step of the caller; a wait ends when the count is one. -/
def runCaller : Option (Except Fault (World ρ R)) :=
  match w.caller with
  | .call (.parallelFor work) =>
    let w' := w.alloc { cls := .startFor work, parent := none, refCount := 0 }
    some (.ok (w'.spawnRootAndWait w.next .done))
  | .call (.parallelInvoke n) =>
    match invokeArguments n with
    | none => none
    | some (numberOfChildren, groups) =>
      let w' := w.alloc { cls := .invokeHelper, parent := none, refCount := numberOfChildren + 1 }
      some (.ok { w' with caller := .invoking w.next groups })
  | .call (.parallelScan range partition) => some (.ok (w.callScan range partition))
  | .invoking root (n :: groups) =>
    some (.ok { w.spawnChild root (groupClass n) true with caller := .invoking root groups })
  | .invoking root [] =>
    some (.ok { w.spawnChild root .functionInvoker false with caller := .waiting root .done })
  | .waiting d after =>
    if (w.tasks d).map Task.refCount = some 1 then some (w.resume d after) else none
  | .returned => none

/-! ## Runs -/

/-- A callback of the partition of a `start_for`. -/
def callback (x : ℕ) (choice : χ) : Option (Except Fault (World ρ R)) :=
  match w.tasks x with
  | none => none
  | some task =>
    match task.status, task.cls with
    | .executing .entered, .startFor work => some (.ok (w.runStartFor P x work choice))
    | _, _ => none

/-- A step of a call of `execute`. -/
def run (x : ℕ) : Option (Except Fault (World ρ R)) :=
  match w.tasks x with
  | none => none
  | some task =>
    match task.status, task.cls with
    | .executing (.returning recycled next), _ => some (.ok (w.finish x recycled next))
    | .executing .entered, .flagTask => some (.ok (w.setLoc x (.returning false none)))
    | .executing .entered, .functionInvoker => some (.ok (w.setLoc x (.returning false none)))
    | .executing .entered, .finalSum _ => some (.ok (w.setLoc x (.returning false none)))
    | .executing loc, .spawner n => (w.runSpawner x n loc).map .ok
    | .executing .entered, .sumNode f => some (w.runSumNode P x f)
    | .executing .entered, .finishScan f => some (w.runFinishScan x f)
    | .executing .entered, .startScan f => some (w.runStartScan P x task f)
    | _, _ => none

end World

/-- The scheduler starts a task, or a call of `execute` or the caller goes on. -/
inductive Event (χ : Type)
  | start (x : ℕ) (stolen : Bool)
  | callback (x : ℕ) (choice : χ)
  | run (x : ℕ)
  | caller

section Runs

variable {ρ χ R : Type} (P : Behaviour ρ χ R)

/-- One event: `none` if it cannot happen. -/
def World.step (w : World ρ R) : Event χ → Option (Except Fault (World ρ R))
  | .start x stolen => w.start x stolen
  | .callback x choice => w.callback P x choice
  | .run x => w.run P x
  | .caller => w.runCaller

/-- The states of a call of `alg`, in any order of the events. -/
inductive Reachable (alg : Algorithm ρ R) : World ρ R → Prop
  | init : Reachable alg (.init alg)
  | step {w w' : World ρ R} {e : Event χ} (h : Reachable alg w)
      (he : w.step P e = some (.ok w')) : Reachable alg w'

end Runs

end TaskProf.Tbb
