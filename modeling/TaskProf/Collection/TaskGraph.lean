import TaskProf.Common

/-!
# The task graph of the collection phase

The operations of `collection_phase/src/AFTaskGraph.cpp` and the callbacks of
`collection_phase/src/Task_Profiler.cpp` that log a STEP node. A node is
referred to from one place only, a stack or `temp_cur_map`, so these hold the
nodes themselves. The calls of `Task_Logger::log` are recorded in `logged`.

Each operation has one lemma per branch (`captureSpawnOnly_async`, …) with the
graph it leaves when its stack is not empty; on an empty stack it is a fault.
-/

namespace TaskProf.Collection

/-- The values of `threadid` below `NUM_THREADS`. -/
abbrev ThreadId := Fin 32

instance neZeroThreads : NeZero (32 : ℕ) := ⟨by decide⟩

/-- `struct AFTask`. -/
structure AFTask where
  youngNsChild : NodeType
  syncFinishFlag : Bool
  nodeId : ℕ
  childId : ℕ
  deriving DecidableEq

/-- The arguments of a call of `Task_Logger::log`. -/
structure LogEntry where
  threadid : ThreadId
  nodeId : ℕ
  parent : ℕ
  work : SizeT
  nodeType : NodeType
  retAddr : SizeT
  deriving DecidableEq

/-- `class AFTaskGraph`, with the calls of the logger so far. -/
structure AFTaskGraph where
  curDpstIndex : ThreadId → List AFTask
  tempCurMap : ℕ → Option AFTask
  callSiteMap : SizeT → Option CallSiteData
  lastAllocatedNode : ℕ
  logged : List LogEntry

/-- The arguments of a spawn: the return address, `__FILE__` (`none` for
    `NULL`), `__LINE__` and `par_for`. -/
structure Site where
  returnAddress : SizeT
  file : Option (List Char)
  line : ℤ
  parFor : Bool

/-- The return address that `CaptureSetTaskId` passes on: zero without a line or
    a file. -/
def Site.address (site : Site) : SizeT :=
  if site.line = 0 ∨ site.file = none then 0 else site.returnAddress

namespace AFTaskGraph

variable (G : AFTaskGraph) (t : ThreadId)

/-! ## Operations -/

/-- `taskLogger->log(…)`. -/
def log (e : LogEntry) : AFTaskGraph := { G with logged := G.logged ++ [e] }

/-- Replace the stack of thread `t`. -/
def setStack (l : List AFTask) : AFTaskGraph :=
  { G with curDpstIndex := Function.update G.curDpstIndex t l }

/-- `cur_dpst_index[threadid].top()`. -/
def top : Except Fault AFTask :=
  match G.curDpstIndex t with
  | [] => .error .emptyStack
  | curNode :: _ => .ok curNode

/-- `cur_dpst_index[threadid].pop()`. -/
def pop : Except Fault AFTaskGraph :=
  match G.curDpstIndex t with
  | [] => .error .emptyStack
  | _ :: rest => .ok (G.setStack t rest)

/-- `create_node` (lines 19–28). -/
def createNode : AFTask × AFTaskGraph :=
  (⟨.noType, false, G.lastAllocatedNode, 0⟩,
    { G with lastAllocatedNode := G.lastAllocatedNode + 1 })

/-- `last_allocated_node++`. -/
def reserve : AFTaskGraph := { G with lastAllocatedNode := G.lastAllocatedNode + 1 }

/-- `temp_cur_map.insert(…)`, which keeps an entry that is there. -/
def insertTemp (taskId : ℕ) (node : AFTask) : AFTaskGraph :=
  let kept := (G.tempCurMap taskId).getD node
  { G with tempCurMap := Function.update G.tempCurMap taskId (some kept) }

/-- The constructor (lines 6–17). -/
def init : AFTaskGraph :=
  let G : AFTaskGraph := ⟨fun _ => [], fun _ => none, fun _ => none, 1, []⟩
  let (headNode, G) := G.createNode
  let G := G.log ⟨0, headNode.nodeId, 0, 0, .finish, 0⟩
  let headNode := { headNode with childId := G.lastAllocatedNode }
  (G.setStack 0 [headNode]).reserve

/-- `getCurStepParent` and `getCurStepId` with the logging that all of
    `TP_CaptureReturn`, `TP_CaptureWait_Entry` and `TP_CaptureSpawn_Entry` do:
    a STEP node with the work `count`. -/
def logStep (count : SizeT) : Except Fault AFTaskGraph := do
  let curNode ← G.top t
  .ok (G.log ⟨t, curNode.childId, curNode.nodeId, count, .step, 0⟩)

/-- The ASYNC node of a spawn, under the current node or under a new implicit
    finish: lines 42–67 of `CaptureSpawnOnly` and lines 84–108 of
    `CaptureSpawnAndWaitForAll`. -/
def newAsync (returnAddress : SizeT) : Except Fault (AFTask × AFTaskGraph) :=
  match G.curDpstIndex t with
  | [] => .error .emptyStack
  | curNode :: rest =>
    if curNode.youngNsChild = .async then
      let (newNode, G) := G.createNode
      let curNode := { curNode with youngNsChild := .async }
      let G := G.log ⟨t, newNode.nodeId, curNode.nodeId, 0, .async, returnAddress⟩
      .ok (newNode, G.setStack t (curNode :: rest))
    else
      let (newFinish, G) := G.createNode
      let curNode := { curNode with youngNsChild := .finish }
      let newFinish := { newFinish with syncFinishFlag := true }
      let G := G.log ⟨t, newFinish.nodeId, curNode.nodeId, 0, .finish, 0⟩
      let (newNode, G) := G.createNode
      let newFinish := { newFinish with youngNsChild := .async }
      let G := G.log ⟨t, newNode.nodeId, newFinish.nodeId, 0, .async, returnAddress⟩
      .ok (newNode, G.setStack t (newFinish :: curNode :: rest))

/-- Set `child_id` of the current node to the next id. -/
def refreshChild : Except Fault AFTaskGraph :=
  match G.curDpstIndex t with
  | [] => .error .emptyStack
  | curNode :: rest =>
    .ok ((G.setStack t ({ curNode with childId := G.lastAllocatedNode } :: rest)).reserve)

/-- `CaptureSpawnOnly` (lines 38–78). -/
def captureSpawnOnly (taskId : ℕ) (returnAddress : SizeT) : Except Fault AFTaskGraph := do
  let (newNode, G) ← G.newAsync t returnAddress
  let newNode := { newNode with childId := G.lastAllocatedNode }
  let G := G.reserve
  let G ← G.refreshChild t
  .ok (G.insertTemp taskId newNode)

/-- `CaptureSpawnAndWaitForAll` (lines 80–115). The current node keeps its
    `child_id`. -/
def captureSpawnAndWaitForAll (taskId : ℕ) (returnAddress : SizeT) :
    Except Fault AFTaskGraph := do
  let (newNode, G) ← G.newAsync t returnAddress
  let newNode := { newNode with childId := G.lastAllocatedNode }
  .ok (G.reserve.insertTemp taskId newNode)

/-- `CaptureExecute` (lines 117–124). -/
def captureExecute (taskId : ℕ) : Except Fault AFTaskGraph :=
  match G.tempCurMap taskId with
  | none => .error .missingKey
  | some tempCur =>
    let G := { G with tempCurMap := Function.update G.tempCurMap taskId none }
    .ok (G.setStack t (tempCur :: G.curDpstIndex t))

/-- `CaptureSpawnAndWait` (lines 126–140). -/
def captureSpawnAndWait (taskId : ℕ) (returnAddress : SizeT) : Except Fault AFTaskGraph :=
  match G.curDpstIndex t with
  | [] => .error .emptyStack
  | curNode :: rest =>
    let (newFinish, G) := G.createNode
    let curNode := { curNode with youngNsChild := .finish }
    let G := G.log ⟨t, newFinish.nodeId, curNode.nodeId, 0, .finish, returnAddress⟩
    let newFinish := { newFinish with childId := G.lastAllocatedNode }
    .ok ((G.setStack t (curNode :: rest)).reserve.insertTemp taskId newFinish)

/-- `CaptureReturn` (lines 142–154). -/
def captureReturn : Except Fault AFTaskGraph := do
  let curNode ← G.top t
  if curNode.syncFinishFlag = true then
    let G ← G.pop t
    let _ ← G.top t
    G.pop t
  else
    G.pop t

/-- `CaptureWait` (lines 156–166). -/
def captureWait : Except Fault AFTaskGraph := G.refreshChild t

/-- `CaptureWaitOnly` (lines 168–182). -/
def captureWaitOnly : Except Fault AFTaskGraph := do
  let G ← G.pop t
  G.refreshChild t

/-- What both versions of `CaptureSetTaskId` (lines 184–222) do first: a site
    with a file and a line is recorded, once. -/
def recordSite (site : Site) : AFTaskGraph :=
  match site.file with
  | none => G
  | some file =>
    if site.line = 0 then G
    else
      let kept := (G.callSiteMap site.returnAddress).getD ⟨file, site.line, site.parFor⟩
      { G with callSiteMap := Function.update G.callSiteMap site.returnAddress (some kept) }

/-- `CaptureSetTaskId` with `sp_only` (lines 184–204). -/
def captureSetTaskId (taskId : ℕ) (spOnly : Bool) (site : Site) : Except Fault AFTaskGraph :=
  let G := G.recordSite site
  if spOnly = true then G.captureSpawnOnly t taskId site.address
  else G.captureSpawnAndWait t taskId site.address

/-- `CaptureSetTaskId` for `spawn_and_wait_for_all` (lines 206–222). -/
def captureSetTaskIdWait (taskId : ℕ) (site : Site) : Except Fault AFTaskGraph :=
  (G.recordSite site).captureSpawnAndWaitForAll t taskId site.address

/-! ## What the operations do -/

variable {G t}

@[simp] theorem recordSite_curDpstIndex (site : Site) :
    (G.recordSite site).curDpstIndex = G.curDpstIndex := by
  unfold recordSite
  split
  · rfl
  · split_ifs <;> rfl

@[simp] theorem recordSite_tempCurMap (site : Site) :
    (G.recordSite site).tempCurMap = G.tempCurMap := by
  unfold recordSite
  split
  · rfl
  · split_ifs <;> rfl

@[simp] theorem recordSite_lastAllocatedNode (site : Site) :
    (G.recordSite site).lastAllocatedNode = G.lastAllocatedNode := by
  unfold recordSite
  split
  · rfl
  · split_ifs <;> rfl

@[simp] theorem recordSite_logged (site : Site) : (G.recordSite site).logged = G.logged := by
  unfold recordSite
  split
  · rfl
  · split_ifs <;> rfl

/-- `k` ids are handed out and the entries `es` are logged. -/
def advance (G : AFTaskGraph) (k : ℕ) (es : List LogEntry) : AFTaskGraph :=
  { G with
    lastAllocatedNode := G.lastAllocatedNode + k
    logged := G.logged ++ es }

@[simp] theorem advance_curDpstIndex (k : ℕ) (es : List LogEntry) :
    (G.advance k es).curDpstIndex = G.curDpstIndex := rfl

@[simp] theorem advance_tempCurMap (k : ℕ) (es : List LogEntry) :
    (G.advance k es).tempCurMap = G.tempCurMap := rfl

@[simp] theorem advance_lastAllocatedNode (k : ℕ) (es : List LogEntry) :
    (G.advance k es).lastAllocatedNode = G.lastAllocatedNode + k := rfl

@[simp] theorem advance_logged (k : ℕ) (es : List LogEntry) :
    (G.advance k es).logged = G.logged ++ es := rfl

@[simp] theorem setStack_curDpstIndex (l : List AFTask) :
    (G.setStack t l).curDpstIndex = Function.update G.curDpstIndex t l := rfl

@[simp] theorem setStack_tempCurMap (l : List AFTask) :
    (G.setStack t l).tempCurMap = G.tempCurMap := rfl

@[simp] theorem setStack_lastAllocatedNode (l : List AFTask) :
    (G.setStack t l).lastAllocatedNode = G.lastAllocatedNode := rfl

@[simp] theorem setStack_logged (l : List AFTask) : (G.setStack t l).logged = G.logged := rfl

@[simp] theorem insertTemp_curDpstIndex (taskId : ℕ) (node : AFTask) :
    (G.insertTemp taskId node).curDpstIndex = G.curDpstIndex := rfl

@[simp] theorem insertTemp_lastAllocatedNode (taskId : ℕ) (node : AFTask) :
    (G.insertTemp taskId node).lastAllocatedNode = G.lastAllocatedNode := rfl

@[simp] theorem insertTemp_logged (taskId : ℕ) (node : AFTask) :
    (G.insertTemp taskId node).logged = G.logged := rfl

/-- A fresh task id is entered. -/
theorem insertTemp_tempCurMap {taskId : ℕ} (hk : G.tempCurMap taskId = none) (node : AFTask) :
    (G.insertTemp taskId node).tempCurMap = Function.update G.tempCurMap taskId (some node) := by
  simp [insertTemp, hk]

section Branches

variable {curNode : AFTask} {rest : List AFTask} (h : G.curDpstIndex t = curNode :: rest)
  (taskId : ℕ) (returnAddress : SizeT)

include h

theorem logStep_eq (count : SizeT) :
    G.logStep t count =
      .ok (G.advance 0 [⟨t, curNode.childId, curNode.nodeId, count, .step, 0⟩]) := by
  simp only [logStep, top, h, bind, Except.bind, log]
  rfl

theorem captureSpawnOnly_async (hy : curNode.youngNsChild = .async) :
    G.captureSpawnOnly t taskId returnAddress = .ok
      (((G.advance 3 [⟨t, G.lastAllocatedNode, curNode.nodeId, 0, .async, returnAddress⟩]).setStack t
        ({ curNode with childId := G.lastAllocatedNode + 2 } :: rest)).insertTemp taskId
          ⟨.noType, false, G.lastAllocatedNode, G.lastAllocatedNode + 1⟩) := by
  obtain ⟨young, sync, node, child⟩ := curNode
  dsimp only at hy
  subst hy
  simp [captureSpawnOnly, newAsync, h, bind, Except.bind, createNode, setStack, log, reserve,
    refreshChild, advance]

theorem captureSpawnOnly_other (hy : curNode.youngNsChild ≠ .async) :
    G.captureSpawnOnly t taskId returnAddress = .ok
      (((G.advance 4 [⟨t, G.lastAllocatedNode, curNode.nodeId, 0, .finish, 0⟩,
        ⟨t, G.lastAllocatedNode + 1, G.lastAllocatedNode, 0, .async, returnAddress⟩]).setStack t
          (⟨.async, true, G.lastAllocatedNode, G.lastAllocatedNode + 3⟩ ::
            { curNode with youngNsChild := .finish } :: rest)).insertTemp taskId
              ⟨.noType, false, G.lastAllocatedNode + 1, G.lastAllocatedNode + 2⟩) := by
  simp [captureSpawnOnly, newAsync, h, hy, bind, Except.bind, createNode, setStack, log, reserve,
    refreshChild, advance]

theorem captureSpawnAndWaitForAll_async (hy : curNode.youngNsChild = .async) :
    G.captureSpawnAndWaitForAll t taskId returnAddress = .ok
      (((G.advance 2 [⟨t, G.lastAllocatedNode, curNode.nodeId, 0, .async, returnAddress⟩]).setStack t
        (curNode :: rest)).insertTemp taskId
          ⟨.noType, false, G.lastAllocatedNode, G.lastAllocatedNode + 1⟩) := by
  obtain ⟨young, sync, node, child⟩ := curNode
  dsimp only at hy
  subst hy
  simp [captureSpawnAndWaitForAll, newAsync, h, bind, Except.bind, createNode, setStack, log,
    reserve, advance]

theorem captureSpawnAndWaitForAll_other (hy : curNode.youngNsChild ≠ .async) :
    G.captureSpawnAndWaitForAll t taskId returnAddress = .ok
      (((G.advance 3 [⟨t, G.lastAllocatedNode, curNode.nodeId, 0, .finish, 0⟩,
        ⟨t, G.lastAllocatedNode + 1, G.lastAllocatedNode, 0, .async, returnAddress⟩]).setStack t
          (⟨.async, true, G.lastAllocatedNode, 0⟩ ::
            { curNode with youngNsChild := .finish } :: rest)).insertTemp taskId
              ⟨.noType, false, G.lastAllocatedNode + 1, G.lastAllocatedNode + 2⟩) := by
  simp [captureSpawnAndWaitForAll, newAsync, h, hy, bind, Except.bind, createNode, setStack, log,
    reserve, advance]

theorem captureSpawnAndWait_eq :
    G.captureSpawnAndWait t taskId returnAddress = .ok
      (((G.advance 2 [⟨t, G.lastAllocatedNode, curNode.nodeId, 0, .finish, returnAddress⟩]).setStack
        t ({ curNode with youngNsChild := .finish } :: rest)).insertTemp taskId
          ⟨.noType, false, G.lastAllocatedNode, G.lastAllocatedNode + 1⟩) := by
  simp [captureSpawnAndWait, h, createNode, setStack, log, reserve, advance]

theorem refreshChild_eq :
    G.refreshChild t = .ok ((G.advance 1 []).setStack t
      ({ curNode with childId := G.lastAllocatedNode } :: rest)) := by
  simp [refreshChild, h, setStack, reserve, advance]

/-- `CaptureWaitOnly` drops the current node, whatever it is. -/
theorem captureWaitOnly_eq : G.captureWaitOnly t = (G.setStack t rest).refreshChild t := by
  simp [captureWaitOnly, pop, h, bind, Except.bind]

/-- `CaptureReturn` drops the node of the task, and an implicit finish above it
    if there is one. -/
theorem captureReturn_eq :
    G.captureReturn t =
      if curNode.syncFinishFlag = true then
        match rest with
        | [] => .error .emptyStack
        | _ :: rest' => .ok (G.setStack t rest')
      else .ok (G.setStack t rest) := by
  simp only [captureReturn, top, pop, h, bind, Except.bind]
  split_ifs
  · cases rest <;> simp [setStack]
  · rfl

end Branches

theorem captureExecute_eq {taskId : ℕ} {node : AFTask} (h : G.tempCurMap taskId = some node) :
    G.captureExecute t taskId = .ok (setStack
      { G with tempCurMap := Function.update G.tempCurMap taskId none } t
      (node :: G.curDpstIndex t)) := by
  simp [captureExecute, h, setStack]

end AFTaskGraph

end TaskProf.Collection
