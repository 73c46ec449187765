import TaskProf.Collection.TaskGraph

/-!
# Runs of an instrumented program

A run interleaves the callbacks of the threads of a TBB program that is written
with `t_debug_task` (`t_debug_task.h`, `exec_calls.cpp`). `Sys κ` is the state of
the collection phase together with the call stacks of the threads; `κ` is the
type of the code that a task has still to run. An event is one callback, or a
piece of work between two of them:

* `work`: the program computes, and the cycle counter of its thread runs;
* `entry`: `TP_CaptureSpawn_Entry`, `TP_CaptureWait_Entry` or
  `TP_CaptureReturn`, at the start of a call or at the end of the task;
* `register`: `CaptureSetTaskId`, with the `task::spawn…` that follows it, and
  for `spawn` also `TP_CaptureSpawn_Exit`;
* `execute`: `__exec_begin__` of a task that has been spawned and not started;
* `resume`: `CaptureWait` or `CaptureWaitOnly` after a wait, and its `…_Exit`;
* `leave`: `CaptureReturn`;
* `fini`: `Task_Profiler::Fini`, once every task has returned.

A thread that waits may run any spawned task on top of its stack, and so may a
thread that runs nothing. A wait may return as soon as the thread is back in it:
the runs in which it returns only after what it waits for are among these runs.
-/

namespace TaskProf.Collection

variable {κ : Type}

/-- A call of a task to `t_debug_task`, or its end. -/
inductive Call (κ : Type)
  | spawn (site : Site) (body : κ)
  | spawnRootAndWait (site : Site) (body : κ)
  | spawnAndWaitForAll (site : Site) (body : κ)
  | waitForAll
  | ret

/-- Where an activation stands: in its code, between the two callbacks of a
    call, in a wait (of `spawn_root_and_wait`, or for all children), or between
    the two callbacks of its end. -/
inductive Phase (κ : Type)
  | running
  | called (call : Call κ)
  | waitingRoot
  | waitingAll
  | leaving

/-- What a call has done to the stack of the task: `spawn_and_wait_for_all`
    counts as a spawn and a wait. -/
inductive Effect
  | spawn
  | root
  | wait
  deriving DecidableEq, Repr

/-- A task (or `main`) on the call stack of a thread. `node` is the id of the
    node that its `CaptureExecute` pushed, `effects` what its calls have done so
    far. -/
structure Activation (κ : Type) where
  isMain : Bool
  node : ℕ
  code : κ
  phase : Phase κ
  effects : List Effect

/-- The activation waits for other tasks. -/
def Activation.Waits (a : Activation κ) : Prop :=
  a.phase = .waitingRoot ∨ a.phase = .waitingAll

/-- The state of a run. `threads t` is the call stack of thread `t`, innermost
    first; `bodies` are the tasks that have been spawned and not started;
    `counter t` is the count of the cycle counter of thread `t`. -/
structure Sys (κ : Type) where
  graph : AFTaskGraph
  taskIdCtr : ℕ
  counter : ThreadId → SizeT
  threads : ThreadId → List (Activation κ)
  bodies : ℕ → Option κ
  finished : Bool

inductive Event (κ : Type)
  | work (t : ThreadId) (w : SizeT) (code : κ)
  | entry (t : ThreadId) (call : Call κ) (code : κ)
  | register (t : ThreadId)
  | execute (t : ThreadId) (taskId : ℕ)
  | resume (t : ThreadId)
  | leave (t : ThreadId)
  | fini

/-- The thread that performs an event. -/
def Event.thread : Event κ → ThreadId
  | .work t _ _ | .entry t _ _ | .register t | .execute t _ | .resume t | .leave t => t
  | .fini => 0

namespace Sys

/-- The state when `main` starts: `TD_Activate` has run on thread 0. -/
def init (main : κ) : Sys κ where
  graph := .init
  taskIdCtr := 0
  counter _ := 0
  threads t := if t = 0 then [⟨true, 1, main, .running, []⟩] else []
  bodies _ := none
  finished := false

/-- Replace the call stack of thread `t`. -/
def setThread (s : Sys κ) (t : ThreadId) (l : List (Activation κ)) : Sys κ :=
  { s with threads := Function.update s.threads t l }

/-- Replace the task graph. -/
def setGraph (s : Sys κ) (G : AFTaskGraph) : Sys κ := { s with graph := G }

/-- Set the cycle counter of thread `t`. -/
def setCounter (s : Sys κ) (t : ThreadId) (count : SizeT) : Sys κ :=
  { s with counter := Function.update s.counter t count }

/-- A task with a new id is spawned. -/
def addBody (s : Sys κ) (taskId : ℕ) (body : κ) : Sys κ :=
  { s with taskIdCtr := taskId, bodies := Function.update s.bodies taskId (some body) }

/-- A spawned task is started. -/
def takeBody (s : Sys κ) (taskId : ℕ) : Sys κ :=
  { s with bodies := Function.update s.bodies taskId none }

/-- What the innermost activation of thread `t` does. -/
def onTop {β : Type} (s : Sys κ) (t : ThreadId)
    (f : Activation κ → List (Activation κ) → Option β) : Option β :=
  match s.threads t with
  | [] => none
  | a :: rest => f a rest

/-- The phase that the first callback of a call leads to. -/
def entryPhase : Call κ → Phase κ
  | .waitForAll => .waitingAll
  | .ret => .leaving
  | call => .called call

/-- The arguments that `t_debug_task::spawn` passes on: with `par_for` the site
    is dropped (lines 31–35 of `t_debug_task.h`). -/
def spawnSite (site : Site) : Site :=
  if site.parFor = true then ⟨site.returnAddress, none, 0, false⟩
  else { site with parFor := false }

/-- `__exec_begin__` can happen: the thread runs nothing, or waits. -/
def canExecute (s : Sys κ) (t : ThreadId) : Bool :=
  match s.threads t with
  | [] => true
  | a :: _ => match a.phase with
    | .waitingRoot | .waitingAll => true
    | _ => false

/-- Every task has been started and has returned, and only `main` is left. -/
def quiet (s : Sys κ) : Bool :=
  (List.finRange 32).all (fun t => t = 0 || (s.threads t).isEmpty) &&
    (List.range (s.taskIdCtr + 1)).all fun k => (s.bodies k).isNone

/-- `CaptureSetTaskId` as the calls use it (lines 30–36, 44–50 and 62–63 of
    `t_debug_task.h`). -/
def capture (G : AFTaskGraph) (t : ThreadId) (taskId : ℕ) : Call κ → Except Fault AFTaskGraph
  | .spawn site _ => G.captureSetTaskId t taskId true (spawnSite site)
  | .spawnRootAndWait site _ => G.captureSetTaskId t taskId false site
  | .spawnAndWaitForAll site _ => G.captureSetTaskIdWait t taskId { site with parFor := false }
  | .waitForAll => .ok G
  | .ret => .ok G

/-- The phase and the effect after `CaptureSetTaskId`, and the body of the new
    task. -/
def registered : Call κ → Option (Phase κ × Effect × κ)
  | .spawn _ body => some (.running, .spawn, body)
  | .spawnRootAndWait _ body => some (.waitingRoot, .root, body)
  | .spawnAndWaitForAll _ body => some (.waitingAll, .spawn, body)
  | .waitForAll => none
  | .ret => none

/-- One event: `none` if it cannot happen, a fault if it reads or pops an empty
    stack. -/
def step (s : Sys κ) : Event κ → Option (Except Fault (Sys κ))
  | .work t w code => s.onTop t fun a rest =>
    match a.phase with
    | .running =>
      some (.ok ((s.setThread t ({ a with code := code } :: rest)).setCounter t (s.counter t + w)))
    | _ => none
  | .entry t call code => s.onTop t fun a rest =>
    match a.phase, a.isMain, call with
    | .running, true, .ret => none
    | .running, _, call => some do
      let G ← s.graph.logStep t (s.counter t)
      .ok ((s.setGraph G).setThread t ({ a with code := code, phase := entryPhase call } :: rest))
    | _, _, _ => none
  | .register t => s.onTop t fun a rest =>
    match a.phase with
    | .called call =>
      match registered call with
      | none => none
      | some (phase, effect, body) => some do
        let taskId := s.taskIdCtr + 1
        let G ← capture s.graph t taskId call
        let a := { a with phase := phase, effects := a.effects ++ [effect] }
        let s := (s.setGraph G).addBody taskId body
        .ok ((s.setThread t (a :: rest)).setCounter t 0)
    | _ => none
  | .execute t taskId =>
    match s.canExecute t, s.bodies taskId, s.graph.tempCurMap taskId with
    | true, some body, some node => some do
      let G ← s.graph.captureExecute t taskId
      let a : Activation κ := ⟨false, node.nodeId, body, .running, []⟩
      .ok ((((s.setGraph G).takeBody taskId).setThread t (a :: s.threads t)).setCounter t 0)
    | _, _, _ => none
  | .resume t => s.onTop t fun a rest =>
    match a.phase with
    | .waitingRoot => some do
      let G ← s.graph.captureWait t
      .ok (((s.setGraph G).setThread t ({ a with phase := .running } :: rest)).setCounter t 0)
    | .waitingAll => some do
      let G ← s.graph.captureWaitOnly t
      let a := { a with phase := .running, effects := a.effects ++ [.wait] }
      .ok (((s.setGraph G).setThread t (a :: rest)).setCounter t 0)
    | _ => none
  | .leave t => s.onTop t fun a rest =>
    match a.phase with
    | .leaving => some do
      let G ← s.graph.captureReturn t
      .ok ((s.setGraph G).setThread t rest)
    | _ => none
  | .fini => s.onTop 0 fun a rest =>
    match a.phase, rest, s.quiet with
    | .running, [], true => some do
      let G ← s.graph.logStep 0 (s.counter 0)
      .ok { (s.setGraph G).setThread 0 [] with finished := true }
    | _, _, _ => none

/-- The event happens and is no fault. -/
def Step (s : Sys κ) (e : Event κ) (s' : Sys κ) : Prop := s.step e = some (.ok s')

/-! ## What a step does -/

/-- A spawn hands out `n` ids, logs `es`, leaves the stack `stk` and enters the
    new task's node. -/
structure Spawned (G G' : AFTaskGraph) (t : ThreadId) (taskId n : ℕ) (es : List LogEntry)
    (stk : List AFTask) (node : AFTask) : Prop where
  curDpstIndex : G'.curDpstIndex = Function.update G.curDpstIndex t stk
  tempCurMap : G'.tempCurMap = Function.update G.tempCurMap taskId (some node)
  lastAllocatedNode : G'.lastAllocatedNode = G.lastAllocatedNode + n
  logged : G'.logged = G.logged ++ es

/-- The branches of `CaptureSetTaskId`. -/
inductive Captured (G G' : AFTaskGraph) (t : ThreadId) (taskId : ℕ) : Call κ → Prop
  | spawnAsync {site : Site} {body : κ} {curNode : AFTask} {rest : List AFTask}
      (hs : G.curDpstIndex t = curNode :: rest) (hy : curNode.youngNsChild = .async)
      (h : Spawned G G' t taskId 3
        [⟨t, G.lastAllocatedNode, curNode.nodeId, 0, .async, (spawnSite site).address⟩]
        ({ curNode with childId := G.lastAllocatedNode + 2 } :: rest)
        ⟨.noType, false, G.lastAllocatedNode, G.lastAllocatedNode + 1⟩) :
      Captured G G' t taskId (.spawn site body)
  | spawnFinish {site : Site} {body : κ} {curNode : AFTask} {rest : List AFTask}
      (hs : G.curDpstIndex t = curNode :: rest) (hy : curNode.youngNsChild ≠ .async)
      (h : Spawned G G' t taskId 4
        [⟨t, G.lastAllocatedNode, curNode.nodeId, 0, .finish, 0⟩,
          ⟨t, G.lastAllocatedNode + 1, G.lastAllocatedNode, 0, .async, (spawnSite site).address⟩]
        (⟨.async, true, G.lastAllocatedNode, G.lastAllocatedNode + 3⟩ ::
          { curNode with youngNsChild := .finish } :: rest)
        ⟨.noType, false, G.lastAllocatedNode + 1, G.lastAllocatedNode + 2⟩) :
      Captured G G' t taskId (.spawn site body)
  | rootFinish {site : Site} {body : κ} {curNode : AFTask} {rest : List AFTask}
      (hs : G.curDpstIndex t = curNode :: rest)
      (h : Spawned G G' t taskId 2
        [⟨t, G.lastAllocatedNode, curNode.nodeId, 0, .finish, site.address⟩]
        ({ curNode with youngNsChild := .finish } :: rest)
        ⟨.noType, false, G.lastAllocatedNode, G.lastAllocatedNode + 1⟩) :
      Captured G G' t taskId (.spawnRootAndWait site body)
  | waitAsync {site : Site} {body : κ} {curNode : AFTask} {rest : List AFTask}
      (hs : G.curDpstIndex t = curNode :: rest) (hy : curNode.youngNsChild = .async)
      (h : Spawned G G' t taskId 2
        [⟨t, G.lastAllocatedNode, curNode.nodeId, 0, .async, site.address⟩]
        (curNode :: rest)
        ⟨.noType, false, G.lastAllocatedNode, G.lastAllocatedNode + 1⟩) :
      Captured G G' t taskId (.spawnAndWaitForAll site body)
  | waitFinish {site : Site} {body : κ} {curNode : AFTask} {rest : List AFTask}
      (hs : G.curDpstIndex t = curNode :: rest) (hy : curNode.youngNsChild ≠ .async)
      (h : Spawned G G' t taskId 3
        [⟨t, G.lastAllocatedNode, curNode.nodeId, 0, .finish, 0⟩,
          ⟨t, G.lastAllocatedNode + 1, G.lastAllocatedNode, 0, .async, site.address⟩]
        (⟨.async, true, G.lastAllocatedNode, 0⟩ :: { curNode with youngNsChild := .finish } :: rest)
        ⟨.noType, false, G.lastAllocatedNode + 1, G.lastAllocatedNode + 2⟩) :
      Captured G G' t taskId (.spawnAndWaitForAll site body)

/-- A spawn that is no fault takes one of the branches. -/
theorem captured_of_capture {G G' : AFTaskGraph} {t : ThreadId} {taskId : ℕ} {call : Call κ}
    (hcall : registered call ≠ none) (hk : G.tempCurMap taskId = none)
    (h : capture G t taskId call = .ok G') : Captured G G' t taskId call := by
  cases hs : G.curDpstIndex t with
  | nil =>
    exfalso
    cases call <;>
      simp [capture, AFTaskGraph.captureSetTaskId, AFTaskGraph.captureSetTaskIdWait,
        AFTaskGraph.captureSpawnOnly, AFTaskGraph.captureSpawnAndWait,
        AFTaskGraph.captureSpawnAndWaitForAll, AFTaskGraph.newAsync, hs, bind, Except.bind,
        registered] at h hcall
  | cons curNode rest =>
    have hs' : ∀ site : Site, (G.recordSite site).curDpstIndex t = curNode :: rest := by
      intro site; rw [AFTaskGraph.recordSite_curDpstIndex, hs]
    have hk' : ∀ site : Site, (G.recordSite site).tempCurMap taskId = none := by
      intro site; rw [AFTaskGraph.recordSite_tempCurMap, hk]
    cases call with
    | spawn site body =>
      simp only [capture, AFTaskGraph.captureSetTaskId, if_true] at h
      by_cases hy : curNode.youngNsChild = .async
      · rw [AFTaskGraph.captureSpawnOnly_async (hs' _) _ _ hy, Except.ok.injEq] at h
        refine .spawnAsync hs hy ⟨?_, ?_, ?_, ?_⟩ <;> rw [← h]
        · simp
        · rw [AFTaskGraph.insertTemp_tempCurMap (by simp [hk])]; simp
        · simp
        · simp
      · rw [AFTaskGraph.captureSpawnOnly_other (hs' _) _ _ hy, Except.ok.injEq] at h
        refine .spawnFinish hs hy ⟨?_, ?_, ?_, ?_⟩ <;> rw [← h]
        · simp
        · rw [AFTaskGraph.insertTemp_tempCurMap (by simp [hk])]; simp
        · simp
        · simp
    | spawnRootAndWait site body =>
      simp only [capture, AFTaskGraph.captureSetTaskId, Bool.false_eq_true, if_false] at h
      rw [AFTaskGraph.captureSpawnAndWait_eq (hs' _), Except.ok.injEq] at h
      refine .rootFinish hs ⟨?_, ?_, ?_, ?_⟩ <;> rw [← h]
      · simp
      · rw [AFTaskGraph.insertTemp_tempCurMap (by simp [hk])]; simp
      · simp
      · simp
    | spawnAndWaitForAll site body =>
      simp only [capture, AFTaskGraph.captureSetTaskIdWait] at h
      by_cases hy : curNode.youngNsChild = .async
      · rw [AFTaskGraph.captureSpawnAndWaitForAll_async (hs' _) _ _ hy, Except.ok.injEq] at h
        refine .waitAsync hs hy ⟨?_, ?_, ?_, ?_⟩ <;> rw [← h]
        · simp
        · rw [AFTaskGraph.insertTemp_tempCurMap (by simp [hk])]; simp
        · simp
        · simp [Site.address]
      · rw [AFTaskGraph.captureSpawnAndWaitForAll_other (hs' _) _ _ hy, Except.ok.injEq] at h
        refine .waitFinish hs hy ⟨?_, ?_, ?_, ?_⟩ <;> rw [← h]
        · simp
        · rw [AFTaskGraph.insertTemp_tempCurMap (by simp [hk])]; simp
        · simp
        · simp [Site.address]
    | waitForAll => exact absurd rfl hcall
    | ret => exact absurd rfl hcall

section Inversion

variable {s s' : Sys κ} {t : ThreadId}

theorem onTop_eq_some {β : Type} {f : Activation κ → List (Activation κ) → Option β} {b : β} :
    s.onTop t f = some b ↔ ∃ a rest, s.threads t = a :: rest ∧ f a rest = some b := by
  unfold onTop
  cases h : s.threads t with
  | nil => simp
  | cons a rest => simp

theorem step_work {w : SizeT} {code : κ} (h : s.Step (.work t w code) s') :
    ∃ a rest, s.threads t = a :: rest ∧ a.phase = .running ∧
      s' = (s.setThread t ({ a with code := code } :: rest)).setCounter t (s.counter t + w) := by
  obtain ⟨a, rest, ht, hf⟩ := onTop_eq_some.mp h
  refine ⟨a, rest, ht, ?_⟩
  cases hp : a.phase with
  | running =>
    simp only [hp, Option.some.injEq, Except.ok.injEq] at hf
    exact ⟨rfl, hf.symm⟩
  | _ => simp [hp] at hf

theorem step_entry {call : Call κ} {code : κ} (h : s.Step (.entry t call code) s') :
    ∃ a rest curNode stk, s.threads t = a :: rest ∧ a.phase = .running ∧
      (call = .ret → a.isMain = false) ∧ s.graph.curDpstIndex t = curNode :: stk ∧
      s' = (s.setGraph (s.graph.advance 0
        [⟨t, curNode.childId, curNode.nodeId, s.counter t, .step, 0⟩])).setThread t
          ({ a with code := code, phase := entryPhase call } :: rest) := by
  obtain ⟨a, rest, ht, hf⟩ := onTop_eq_some.mp h
  have hp : a.phase = .running := by
    cases hp : a.phase <;> simp [hp] at hf ⊢
  have hm : call = .ret → a.isMain = false := by
    rintro rfl
    cases hm : a.isMain with
    | false => rfl
    | true => simp [hp, hm] at hf
  cases hs : s.graph.curDpstIndex t with
  | nil =>
    exfalso
    have hlog : s.graph.logStep t (s.counter t) = .error .emptyStack := by
      simp only [AFTaskGraph.logStep, AFTaskGraph.top, hs, bind, Except.bind]
    cases hm : a.isMain <;> cases call <;> simp [hp, hm, hlog, bind, Except.bind] at hf
  | cons curNode stk =>
    refine ⟨a, rest, curNode, stk, ht, hp, hm, rfl, ?_⟩
    have hlog := AFTaskGraph.logStep_eq hs (s.counter t)
    cases hm' : a.isMain <;> cases call <;>
      simp only [hp, hm', hlog, bind, Except.bind, Option.some.injEq, Except.ok.injEq,
        reduceCtorEq] at hf
    all_goals exact hf.symm

theorem step_register (h : s.Step (.register t) s')
    (hk : s.graph.tempCurMap (s.taskIdCtr + 1) = none) :
    ∃ a rest call phase effect body G, s.threads t = a :: rest ∧ a.phase = .called call ∧
      registered call = some (phase, effect, body) ∧
      Captured s.graph G t (s.taskIdCtr + 1) call ∧
      s' = (((s.setGraph G).addBody (s.taskIdCtr + 1) body).setThread t
        ({ a with phase := phase, effects := a.effects ++ [effect] } :: rest)).setCounter t 0 := by
  obtain ⟨a, rest, ht, hf⟩ := onTop_eq_some.mp h
  cases hp : a.phase with
  | called call =>
    simp only [hp] at hf
    cases hr : registered call with
    | none => simp [hr] at hf
    | some r =>
      obtain ⟨phase, effect, body⟩ := r
      simp only [hr, Option.some.injEq] at hf
      cases hc : capture s.graph t (s.taskIdCtr + 1) call with
      | error e => simp [hc, bind, Except.bind] at hf
      | ok G =>
        simp only [hc, bind, Except.bind, Except.ok.injEq] at hf
        exact ⟨a, rest, call, phase, effect, body, G, ht, hp, hr,
          captured_of_capture (by simp [hr]) hk hc, hf.symm⟩
  | _ => simp [hp] at hf

theorem step_execute {taskId : ℕ} (h : s.Step (.execute t taskId) s') :
    ∃ body node, s.canExecute t = true ∧ s.bodies taskId = some body ∧
      s.graph.tempCurMap taskId = some node ∧
      s' = (((s.setGraph ({ s.graph with
          tempCurMap := Function.update s.graph.tempCurMap taskId none }.setStack t
            (node :: s.graph.curDpstIndex t))).takeBody taskId).setThread t
        (⟨false, node.nodeId, body, .running, []⟩ :: s.threads t)).setCounter t 0 := by
  unfold Step step at h
  cases hc : s.canExecute t <;> cases hb : s.bodies taskId <;>
    cases hn : s.graph.tempCurMap taskId <;>
    simp only [hc, hb, hn, reduceCtorEq, Option.some.injEq] at h
  rename_i body node
  refine ⟨body, node, rfl, rfl, rfl, ?_⟩
  rw [AFTaskGraph.captureExecute_eq hn] at h
  simp only [bind, Except.bind, Except.ok.injEq] at h
  exact h.symm

theorem step_resume (h : s.Step (.resume t) s') :
    ∃ a rest, s.threads t = a :: rest ∧
      ((a.phase = .waitingRoot ∧ ∃ curNode stk, s.graph.curDpstIndex t = curNode :: stk ∧
          s' = ((s.setGraph ((s.graph.advance 1 []).setStack t
            ({ curNode with childId := s.graph.lastAllocatedNode } :: stk))).setThread t
              ({ a with phase := .running } :: rest)).setCounter t 0) ∨
        a.phase = .waitingAll ∧ ∃ dropped curNode stk,
          s.graph.curDpstIndex t = dropped :: curNode :: stk ∧
          s' = ((s.setGraph ((s.graph.advance 1 []).setStack t
            ({ curNode with childId := s.graph.lastAllocatedNode } :: stk))).setThread t
              ({ a with phase := .running, effects := a.effects ++ [.wait] } ::
                rest)).setCounter t 0) := by
  obtain ⟨a, rest, ht, hf⟩ := onTop_eq_some.mp h
  refine ⟨a, rest, ht, ?_⟩
  cases hp : a.phase with
  | waitingRoot =>
    simp only [hp, Option.some.injEq] at hf
    cases hs : s.graph.curDpstIndex t with
    | nil => simp [AFTaskGraph.captureWait, AFTaskGraph.refreshChild, hs, bind, Except.bind] at hf
    | cons curNode stk =>
      rw [AFTaskGraph.captureWait, AFTaskGraph.refreshChild_eq hs] at hf
      simp only [bind, Except.bind, Except.ok.injEq] at hf
      exact .inl ⟨rfl, curNode, stk, rfl, hf.symm⟩
  | waitingAll =>
    simp only [hp, Option.some.injEq] at hf
    cases hs : s.graph.curDpstIndex t with
    | nil => simp [AFTaskGraph.captureWaitOnly, AFTaskGraph.pop, hs, bind, Except.bind] at hf
    | cons dropped stk =>
      rw [AFTaskGraph.captureWaitOnly_eq hs] at hf
      cases stk with
      | nil =>
        simp [AFTaskGraph.refreshChild, bind, Except.bind] at hf
      | cons curNode stk =>
        have hset : (s.graph.setStack t (curNode :: stk)).curDpstIndex t = curNode :: stk :=
          Function.update_self ..
        rw [AFTaskGraph.refreshChild_eq hset] at hf
        simp only [bind, Except.bind, Except.ok.injEq] at hf
        refine .inr ⟨rfl, dropped, curNode, stk, rfl, ?_⟩
        rw [← hf]
        simp [setGraph, AFTaskGraph.setStack, AFTaskGraph.advance]
  | _ => simp [hp] at hf

/-- A wait for all that has a node below the current one returns. -/
theorem step_resume_all {a : Activation κ} {rest : List (Activation κ)}
    {dropped curNode : AFTask} {stk : List AFTask} (ht : s.threads t = a :: rest)
    (hp : a.phase = .waitingAll) (hs : s.graph.curDpstIndex t = dropped :: curNode :: stk) :
    ∃ s', s.Step (.resume t) s' := by
  have hset : (s.graph.setStack t (curNode :: stk)).curDpstIndex t = curNode :: stk :=
    Function.update_self ..
  have hwait : s.graph.captureWaitOnly t = .ok _ :=
    (AFTaskGraph.captureWaitOnly_eq hs).trans (AFTaskGraph.refreshChild_eq hset)
  unfold Step step onTop
  simp only [ht, hp, hwait, bind, Except.bind]
  exact ⟨_, rfl⟩

theorem step_leave (h : s.Step (.leave t) s') :
    ∃ a rest curNode stk, s.threads t = a :: rest ∧ a.phase = .leaving ∧
      s.graph.curDpstIndex t = curNode :: stk ∧
      ((curNode.syncFinishFlag = false ∧
          s' = (s.setGraph (s.graph.setStack t stk)).setThread t rest) ∨
        curNode.syncFinishFlag = true ∧ ∃ node stk', stk = node :: stk' ∧
          s' = (s.setGraph (s.graph.setStack t stk')).setThread t rest) := by
  obtain ⟨a, rest, ht, hf⟩ := onTop_eq_some.mp h
  cases hp : a.phase with
  | leaving =>
    simp only [hp, Option.some.injEq] at hf
    cases hs : s.graph.curDpstIndex t with
    | nil =>
      simp [AFTaskGraph.captureReturn, AFTaskGraph.top, hs, bind, Except.bind] at hf
    | cons curNode stk =>
      refine ⟨a, rest, curNode, stk, ht, hp, rfl, ?_⟩
      rw [AFTaskGraph.captureReturn_eq hs] at hf
      cases hy : curNode.syncFinishFlag with
      | false =>
        simp only [hy, Bool.false_eq_true, if_false, bind, Except.bind, Except.ok.injEq] at hf
        exact .inl ⟨rfl, hf.symm⟩
      | true =>
        cases stk with
        | nil => simp [hy, bind, Except.bind] at hf
        | cons node stk' =>
          simp only [hy, if_true, bind, Except.bind, Except.ok.injEq] at hf
          exact .inr ⟨rfl, node, stk', rfl, hf.symm⟩
  | _ => simp [hp] at hf

theorem step_fini (h : s.Step .fini s') :
    ∃ a curNode stk, s.threads 0 = [a] ∧ a.phase = .running ∧ s.quiet = true ∧
      s.graph.curDpstIndex 0 = curNode :: stk ∧
      s' = { (s.setGraph (s.graph.advance 0
        [⟨0, curNode.childId, curNode.nodeId, s.counter 0, .step, 0⟩])).setThread 0 [] with
          finished := true } := by
  obtain ⟨a, rest, ht, hf⟩ := onTop_eq_some.mp h
  cases hp : a.phase <;> cases rest <;> cases hq : s.quiet <;> simp only [hp, hq, reduceCtorEq] at hf
  rw [Option.some.injEq] at hf
  cases hs : s.graph.curDpstIndex 0 with
  | nil =>
    simp [AFTaskGraph.logStep, AFTaskGraph.top, hs, bind, Except.bind] at hf
  | cons curNode stk =>
    rw [AFTaskGraph.logStep_eq hs] at hf
    simp only [bind, Except.bind, Except.ok.injEq] at hf
    exact ⟨a, curNode, stk, ht, hp, rfl, rfl, hf.symm⟩

end Inversion

/-! ## Runs -/

/-- A run from `s` to `s'` in which `ok` allows every event. -/
inductive Run (ok : Sys κ → Event κ → Prop) (s : Sys κ) : List (Event κ) → Sys κ → Prop
  | nil : Run ok s [] s
  | snoc {es : List (Event κ)} {s₁ s' : Sys κ} {e : Event κ} (hr : Run ok s es s₁)
      (hok : ok s₁ e) (he : s₁.Step e s') : Run ok s (es ++ [e]) s'

/-- Every interleaving of every program. -/
def anyEvent (_ : Sys κ) (_ : Event κ) : Prop := True

/-- The states that a program can reach without a fault. -/
def Reachable (main : κ) (s : Sys κ) : Prop := ∃ es, Run anyEvent (init main) es s

/-- What every allowed step preserves holds after every run. -/
theorem Run.preserves {ok : Sys κ → Event κ → Prop} {P : Sys κ → Prop} {s s' : Sys κ}
    {es : List (Event κ)} (h : Run ok s es s') (h0 : P s)
    (hstep : ∀ s e s', P s → ok s e → s.Step e s' → P s') : P s' := by
  induction h with
  | nil => exact h0
  | snoc _ hok he ih => exact hstep _ _ _ ih hok he

theorem Run.mono {ok ok' : Sys κ → Event κ → Prop} {s s' : Sys κ} {es : List (Event κ)}
    (h : Run ok s es s') (hok : ∀ s e, ok s e → ok' s e) : Run ok' s es s' := by
  induction h with
  | nil => exact .nil
  | snoc _ he hs ih => exact .snoc ih (hok _ _ he) hs

/-- A run under a guard is a run. -/
theorem Run.reachable {ok : Sys κ → Event κ → Prop} {main : κ} {s : Sys κ}
    {es : List (Event κ)} (h : Run ok (init main) es s) : Reachable main s := by
  exact ⟨es, h.mono fun _ _ _ => trivial⟩

/-- Perform a list of events. -/
def exec (ok : Sys κ → Event κ → Bool) (s : Sys κ) : List (Event κ) → Option (Sys κ)
  | [] => some s
  | e :: es =>
    match ok s e, s.step e with
    | true, some (.ok s') => s'.exec ok es
    | _, _ => none

theorem exec_append {ok : Sys κ → Event κ → Bool} {s : Sys κ} {es es' : List (Event κ)} :
    s.exec ok (es ++ es') = (s.exec ok es).bind fun s' => s'.exec ok es' := by
  induction es generalizing s with
  | nil => rfl
  | cons e es ih =>
    rw [List.cons_append, exec, exec]
    split
    · exact ih
    · rfl

/-- The events up to some point and from there on. -/
theorem exec_append_eq_some {ok : Sys κ → Event κ → Bool} {s s' : Sys κ}
    {es es' : List (Event κ)} (h : s.exec ok (es ++ es') = some s') :
    ∃ s₁, s.exec ok es = some s₁ ∧ s₁.exec ok es' = some s' := by
  rw [exec_append] at h
  exact Option.bind_eq_some_iff.mp h

theorem step_of_exec {ok : Sys κ → Event κ → Bool} {s s' : Sys κ} {e : Event κ}
    (h : s.exec ok [e] = some s') : s.Step e s' := by
  unfold exec at h
  split at h
  · next s₁ _ hs =>
    obtain rfl : s₁ = s' := Option.some.inj h
    exact hs
  · cases h

theorem run_of_exec {ok : Sys κ → Event κ → Bool} {s s' : Sys κ} {es : List (Event κ)}
    (h : s.exec ok es = some s') : Run (fun s e => ok s e = true) s es s' := by
  -- the events performed so far come from a run that already is there
  have hgen : ∀ es s₁ ds, Run (fun s e => ok s e = true) s ds s₁ → s₁.exec ok es = some s' →
      Run (fun s e => ok s e = true) s (ds ++ es) s' := by
    intro es
    induction es with
    | nil =>
      intro s₁ ds hr h
      obtain rfl : s₁ = s' := Option.some.inj h
      rwa [List.append_nil]
    | cons e es ih =>
      intro s₁ ds hr h
      unfold exec at h
      split at h
      · rename_i s₂ hok hs
        have := ih s₂ (ds ++ [e]) (hr.snoc hok hs) h
        rwa [List.append_assoc] at this
      · cases h
  exact hgen es s [] .nil h

end Sys

end TaskProf.Collection
