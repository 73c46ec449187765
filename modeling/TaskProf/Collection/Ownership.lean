import TaskProf.Lib.Tickets
import TaskProf.Collection.Runs

/-!
# Who holds what during a run

Every node is on one stack, once, or waits in `temp_cur_map`; and every node id
below `last_allocated_node` has been logged once or is the `child_id` that one
holder has reserved for its next STEP.

* `Orderly` collects these facts with the bookkeeping of the threads.
* `Reachable.orderly`: they hold after every run.
-/

namespace TaskProf.Collection.Sys

variable {κ : Type}

/-- A thread, or a task that has been spawned and not started. -/
abbrev Holder := ThreadId ⊕ ℕ

/-- The node of the next STEP of a thread with the activations `l` and the stack
    `stk`: there is one between two calls only. -/
def stepNode : List (Activation κ) → List AFTask → Option AFTask
  | a :: _, curNode :: _ =>
    match a.phase with
    | .running => some curNode
    | _ => none
  | _, _ => none

/-- The id that is reserved for this STEP. -/
def stepId (l : List (Activation κ)) (stk : List AFTask) : Option ℕ :=
  (stepNode l stk).map AFTask.childId

/-- The ids that are reserved. -/
def reserved (threads : ThreadId → List (Activation κ)) (dpst : ThreadId → List AFTask)
    (temp : ℕ → Option AFTask) : Holder → Option ℕ :=
  Sum.elim (fun t => stepId (threads t) (dpst t)) fun k => (temp k).map AFTask.childId

/-- The ids of the nodes that are held. -/
def nodes (dpst : ThreadId → List AFTask) (temp : ℕ → Option AFTask) : Holder → List ℕ :=
  Sum.elim (fun t => (dpst t).map AFTask.nodeId) fun k => ((temp k).map AFTask.nodeId).toList

/-- The node ids as numbers that a counter hands out. -/
def tickets (s : Sys κ) : Tickets Holder where
  used := s.graph.logged.map LogEntry.nodeId
  held := reserved s.threads s.graph.curDpstIndex s.graph.tempCurMap
  next := s.graph.lastAllocatedNode

/-- Only the innermost activation can be anything but waiting. -/
def Nested (l : List (Activation κ)) : Prop := ∀ b ∈ l.tail, b.Waits

structure Orderly (s : Sys κ) : Prop where
  nested : ∀ t, Nested (s.threads t)
  fresh : ∀ k, s.taskIdCtr < k → s.graph.tempCurMap k = none
  bodies : ∀ k, s.bodies k = none ↔ s.graph.tempCurMap k = none
  tickets : s.tickets.Valid
  separate : Separate (nodes s.graph.curDpstIndex s.graph.tempCurMap)
    (s.graph.logged.map LogEntry.nodeId)
  ended : s.finished = true → (∀ t, s.threads t = []) ∧ ∀ k, s.bodies k = none

/-! ## Updates of one holder -/

section Update

variable {threads : ThreadId → List (Activation κ)} {dpst : ThreadId → List AFTask}
  {temp : ℕ → Option AFTask}

theorem reserved_update (t : ThreadId) (l : List (Activation κ)) (stk : List AFTask) :
    reserved (Function.update threads t l) (Function.update dpst t stk) temp =
      Function.update (reserved threads dpst temp) (.inl t) (stepId l stk) := by
  unfold reserved
  rw [Sum.update_elim_inl]
  congr 1
  funext u
  by_cases hu : u = t
  · rw [hu]
    simp
  · simp [hu]

/-- The stack of the thread may stay as it is. -/
theorem reserved_update_threads (t : ThreadId) (l : List (Activation κ)) :
    reserved (Function.update threads t l) dpst temp =
      Function.update (reserved threads dpst temp) (.inl t) (stepId l (dpst t)) := by
  rw [← reserved_update, Function.update_eq_self]

theorem reserved_update_temp (k : ℕ) (node : Option AFTask) :
    reserved threads dpst (Function.update temp k node) =
      Function.update (reserved threads dpst temp) (.inr k) (node.map AFTask.childId) := by
  unfold reserved
  rw [Sum.update_elim_inr]
  congr 1
  funext j
  by_cases hj : j = k
  · rw [hj]
    simp
  · simp [hj]

theorem nodes_update (t : ThreadId) (stk : List AFTask) :
    nodes (Function.update dpst t stk) temp =
      Function.update (nodes dpst temp) (.inl t) (stk.map AFTask.nodeId) := by
  unfold nodes
  rw [Sum.update_elim_inl]
  congr 1
  funext u
  by_cases hu : u = t
  · rw [hu]
    simp
  · simp [hu]

theorem nodes_update_temp (k : ℕ) (node : Option AFTask) :
    nodes dpst (Function.update temp k node) =
      Function.update (nodes dpst temp) (.inr k) (node.map AFTask.nodeId).toList := by
  unfold nodes
  rw [Sum.update_elim_inr]
  congr 1
  funext j
  by_cases hj : j = k
  · rw [hj]
    simp
  · simp [hj]

theorem stepNode_running {a : Activation κ} (ha : a.phase = .running)
    (rest : List (Activation κ)) (curNode : AFTask) (stk : List AFTask) :
    stepNode (a :: rest) (curNode :: stk) = some curNode := by
  simp only [stepNode, ha]

theorem stepNode_of_ne {a : Activation κ} (ha : a.phase ≠ .running) (rest : List (Activation κ))
    (stk : List AFTask) : stepNode (a :: rest) stk = none := by
  cases stk with
  | nil => rfl
  | cons curNode stk => simp only [stepNode]

/-- The node depends on the phase of the activation only. -/
theorem stepNode_congr {a b : Activation κ} (hab : a.phase = b.phase)
    (l l' : List (Activation κ)) (stk : List AFTask) :
    stepNode (a :: l) stk = stepNode (b :: l') stk := by
  cases stk with
  | nil => rfl
  | cons curNode stk => simp only [stepNode, hab]

theorem stepId_running {a : Activation κ} (ha : a.phase = .running) (rest : List (Activation κ))
    (curNode : AFTask) (stk : List AFTask) :
    stepId (a :: rest) (curNode :: stk) = some curNode.childId := by
  rw [stepId, stepNode_running ha, Option.map_some]

theorem stepId_of_ne {a : Activation κ} (ha : a.phase ≠ .running) (rest : List (Activation κ))
    (stk : List AFTask) : stepId (a :: rest) stk = none := by
  rw [stepId, stepNode_of_ne ha, Option.map_none]

theorem stepId_congr {a b : Activation κ} (hab : a.phase = b.phase) (l l' : List (Activation κ))
    (stk : List AFTask) : stepId (a :: l) stk = stepId (b :: l') stk := by
  rw [stepId, stepId, stepNode_congr hab]

theorem stepId_nil (stk : List AFTask) : stepId ([] : List (Activation κ)) stk = none := rfl

theorem not_running_of_waits {a : Activation κ} (ha : a.Waits) : a.phase ≠ .running := by
  intro h
  rcases ha with ha | ha <;> rw [h] at ha <;> cases ha

theorem entryPhase_ne (call : Call κ) : entryPhase call ≠ .running := by
  cases call <;> unfold entryPhase <;> exact fun h => nomatch h

/-- Below the innermost activation nothing is reserved. -/
theorem Nested.stepNode_tail {a : Activation κ} {rest : List (Activation κ)}
    (h : Nested (a :: rest)) (stk : List AFTask) : stepNode rest stk = none := by
  cases rest with
  | nil => rfl
  | cons b rest => exact stepNode_of_ne (not_running_of_waits (h b (List.mem_cons_self ..))) rest stk

theorem Nested.stepId_tail {a : Activation κ} {rest : List (Activation κ)}
    (h : Nested (a :: rest)) (stk : List AFTask) : stepId rest stk = none := by
  rw [stepId, h.stepNode_tail, Option.map_none]

theorem Nested.tail {a : Activation κ} {rest : List (Activation κ)} (h : Nested (a :: rest)) :
    Nested rest := fun b hb => h b (List.mem_of_mem_tail hb)

end Update

/-! ## The ids -/

section Step

variable {s s' : Sys κ} {t : ThreadId}

/-- A thread that waits or runs nothing has no next STEP. -/
theorem stepNode_of_canExecute (hc : s.canExecute t = true) (stk : List AFTask) :
    stepNode (s.threads t) stk = none := by
  unfold canExecute at hc
  split at hc
  · next ht => rw [ht]; rfl
  · next a rest ht =>
    rw [ht]
    refine stepNode_of_ne (fun hp => ?_) rest _
    rw [hp] at hc
    cases hc

/-- A spawn draws the ids of its nodes, the first step id of the new task, and
    its own next step id if it does not wait. -/
theorem tickets_captured {a : Activation κ} {rest : List (Activation κ)} {call : Call κ}
    {phase : Phase κ} {effect : Effect} {body : κ} {G : AFTaskGraph} (h : s.Orderly)
    (ht : s.threads t = a :: rest) (hp : a.phase = .called call)
    (hr : registered call = some (phase, effect, body))
    (hc : Captured s.graph G t (s.taskIdCtr + 1) call) (a' : Activation κ) (ha' : a'.phase = phase) :
    Tickets.Valid ⟨G.logged.map LogEntry.nodeId,
      reserved (Function.update s.threads t (a' :: rest)) G.curDpstIndex G.tempCurMap,
      G.lastAllocatedNode⟩ := by
  have hk : s.tickets.held (.inr (s.taskIdCtr + 1)) = none := by
    show (s.graph.tempCurMap (s.taskIdCtr + 1)).map AFTask.childId = none
    rw [h.fresh _ (Nat.lt_succ_self _), Option.map_none]
  have hn : s.tickets.held (.inl t) = none := by
    show stepId (s.threads t) (s.graph.curDpstIndex t) = none
    rw [ht]
    exact stepId_of_ne (by rw [hp]; exact fun h => nomatch h) rest _
  have hn' : ∀ v : Option ℕ,
      Function.update s.tickets.held (.inr (s.taskIdCtr + 1)) v (.inl t) = none := by
    intro v
    rw [Function.update_of_ne Sum.inl_ne_inr, hn]
  have hheld : ∀ {n es stk node}, Spawned s.graph G t (s.taskIdCtr + 1) n es stk node →
      reserved (Function.update s.threads t (a' :: rest)) G.curDpstIndex G.tempCurMap =
        Function.update (Function.update s.tickets.held (.inr (s.taskIdCtr + 1))
          (some node.childId)) (.inl t) (stepId (a' :: rest) stk) := by
    intro n es stk node hsp
    rw [hsp.curDpstIndex, hsp.tempCurMap, reserved_update, reserved_update_temp]
    rfl
  -- without a step id for the caller
  have hheld' : ∀ {n es stk node}, Spawned s.graph G t (s.taskIdCtr + 1) n es stk node →
      a'.phase ≠ .running →
      reserved (Function.update s.threads t (a' :: rest)) G.curDpstIndex G.tempCurMap =
        Function.update s.tickets.held (.inr (s.taskIdCtr + 1)) (some node.childId) := by
    intro n es stk node hsp hne
    rw [hheld hsp, stepId_of_ne hne]
    conv_rhs => rw [← Function.update_eq_self (.inl t)
      (Function.update s.tickets.held (.inr (s.taskIdCtr + 1)) (some node.childId)), hn']
  have hg : ∀ T : Tickets Holder, T.held = s.tickets.held →
      (T.grant (.inr (s.taskIdCtr + 1))).held (.inl t) = none := by
    intro T hT
    show Function.update T.held (.inr (s.taskIdCtr + 1)) (some T.next) (.inl t) = none
    rw [hT, hn']
  have hT1 := h.tickets.issue
  have hT2 := h.tickets.issue.issue
  cases hc with
  | spawnAsync hs hy hsp =>
    cases hr
    have hv := (hT1.grant (.inr (s.taskIdCtr + 1)) hk).grant (.inl t) (hg _ rfl)
    rw [hheld hsp, stepId_running ha', hsp.logged, hsp.lastAllocatedNode, List.map_append]
    exact hv
  | spawnFinish hs hy hsp =>
    cases hr
    have hv := (hT2.grant (.inr (s.taskIdCtr + 1)) hk).grant (.inl t) (hg _ rfl)
    rw [hheld hsp, stepId_running ha', hsp.logged, hsp.lastAllocatedNode, List.map_append]
    rw [Tickets.issue, Tickets.issue, List.append_assoc] at hv
    exact hv
  | rootFinish hs hsp =>
    cases hr
    have hv := hT1.grant (.inr (s.taskIdCtr + 1)) hk
    rw [hheld' hsp (by rw [ha']; exact fun h => nomatch h), hsp.logged, hsp.lastAllocatedNode,
      List.map_append]
    exact hv
  | waitAsync hs hy hsp =>
    cases hr
    have hv := hT1.grant (.inr (s.taskIdCtr + 1)) hk
    rw [hheld' hsp (by rw [ha']; exact fun h => nomatch h), hsp.logged, hsp.lastAllocatedNode,
      List.map_append]
    exact hv
  | waitFinish hs hy hsp =>
    cases hr
    have hv := hT2.grant (.inr (s.taskIdCtr + 1)) hk
    rw [hheld' hsp (by rw [ha']; exact fun h => nomatch h), hsp.logged, hsp.lastAllocatedNode,
      List.map_append]
    rw [Tickets.issue, Tickets.issue, List.append_assoc] at hv
    exact hv

theorem tickets_step {e : Event κ} (h : s.Orderly) (he : s.Step e s') : s'.tickets.Valid := by
  have hidle : ∀ t, s.canExecute t = true → s.tickets.held (.inl t) = none := by
    intro t hc
    show (stepNode (s.threads t) (s.graph.curDpstIndex t)).map AFTask.childId = none
    rw [stepNode_of_canExecute hc, Option.map_none]
  have hheld : ∀ t a rest, s.threads t = a :: rest → a.phase ≠ .running →
      s.tickets.held (.inl t) = none := by
    intro t a rest ht hp
    show stepId (s.threads t) (s.graph.curDpstIndex t) = none
    rw [ht, stepId_of_ne hp]
  cases e with
  | work t w code =>
    obtain ⟨a, rest, ht, hp, rfl⟩ := step_work he
    have hT : ((s.setThread t ({ a with code := code } :: rest)).setCounter t
        (s.counter t + w)).tickets = s.tickets := by
      ext1
      · rfl
      · show reserved (Function.update s.threads t ({ a with code := code } :: rest)) _ _ = _
        rw [reserved_update_threads]
        refine Function.update_eq_self_iff.mpr ?_
        show _ = stepId (s.threads t) (s.graph.curDpstIndex t)
        rw [ht]
        exact stepId_congr (a := { a with code := code }) (b := a) rfl rest rest _
      · rfl
    rw [hT]
    exact h.tickets
  | entry t call code =>
    obtain ⟨a, rest, curNode, stk, ht, hp, -, hs, rfl⟩ := step_entry he
    have hold : s.tickets.held (.inl t) = some curNode.childId := by
      show stepId (s.threads t) (s.graph.curDpstIndex t) = _
      rw [ht, hs, stepId_running hp]
    have hv := h.tickets.redeem hold
    convert hv using 1
    ext1
    · simp [Sys.tickets, Tickets.redeem, setGraph, setThread]
    · show reserved (Function.update s.threads t _) s.graph.curDpstIndex _ = _
      rw [reserved_update_threads, stepId_of_ne (entryPhase_ne call)]
      rfl
    · rfl
  | register t =>
    obtain ⟨a, rest, call, phase, effect, body, G, ht, hp, hr, hc, rfl⟩ :=
      step_register he (h.fresh _ (Nat.lt_succ_self _))
    exact tickets_captured h ht hp hr hc _ rfl
  | execute t k =>
    obtain ⟨body, node, hc, hb, hn, rfl⟩ := step_execute he
    have hv : (s.tickets.move (.inr k) (.inl t)).Valid :=
      h.tickets.move Sum.inr_ne_inl (hidle t hc)
    convert hv using 1
    ext1
    · rfl
    · show reserved (Function.update s.threads t _) (Function.update s.graph.curDpstIndex t _)
        (Function.update s.graph.tempCurMap k none) = _
      rw [reserved_update, reserved_update_temp, stepId_running rfl]
      show _ = Function.update (Function.update s.tickets.held (.inr k) none) (.inl t)
        ((s.graph.tempCurMap k).map AFTask.childId)
      rw [hn]
      rfl
    · rfl
  | resume t =>
    obtain ⟨a, rest, ht, ⟨hp, curNode, stk, hs, rfl⟩ | ⟨hp, node, curNode, stk, hs, rfl⟩⟩ :=
      step_resume he
    all_goals
      have hv := h.tickets.grant (.inl t)
        (hheld t a rest ht (by rw [hp]; simp))
      convert hv using 1
      ext1
      · simp [Sys.tickets, Tickets.grant, setGraph, setThread, setCounter]
      · show reserved (Function.update s.threads t _) (Function.update s.graph.curDpstIndex t _)
          s.graph.tempCurMap = _
        rw [reserved_update, stepId_running rfl]
        rfl
      · rfl
  | leave t =>
    obtain ⟨a, rest, curNode, stk, ht, hp, hs, ⟨-, rfl⟩ | ⟨-, node, stk', -, rfl⟩⟩ := step_leave he
    all_goals
      convert h.tickets using 1
      ext1
      · rfl
      · show reserved (Function.update s.threads t _) (Function.update s.graph.curDpstIndex t _)
          s.graph.tempCurMap = s.tickets.held
        have hnest := h.nested t
        rw [ht] at hnest
        rw [reserved_update, hnest.stepId_tail]
        exact Function.update_eq_self_iff.mpr
          (hheld t a rest ht (by rw [hp]; simp)).symm
      · rfl
  | fini =>
    obtain ⟨a, curNode, stk, ht, hp, hq, hs, rfl⟩ := step_fini he
    have hold : s.tickets.held (.inl 0) = some curNode.childId := by
      show stepId (s.threads 0) (s.graph.curDpstIndex 0) = _
      rw [ht, hs, stepId_running hp]
    have hv := h.tickets.redeem hold
    convert hv using 1
    ext1
    · simp [Sys.tickets, Tickets.redeem, setGraph, setThread]
    · show reserved (Function.update s.threads 0 _) s.graph.curDpstIndex _ = _
      rw [reserved_update_threads, stepId_nil]
      rfl
    · rfl

/-- The next id has not been logged. -/
theorem Orderly.next_notMem (h : s.Orderly) (i : ℕ) (hi : s.graph.lastAllocatedNode ≤ i) :
    i ∉ s.graph.logged.map LogEntry.nodeId := by
  intro hmem
  have : i < s.graph.lastAllocatedNode := (h.tickets.used_lt i hmem).2
  omega

/-! ## The nodes -/

theorem separate_captured {call : Call κ} {G : AFTaskGraph} (h : s.Orderly)
    (hc : Captured s.graph G t (s.taskIdCtr + 1) call) :
    Separate (nodes G.curDpstIndex G.tempCurMap) (G.logged.map LogEntry.nodeId) := by
  have hk : nodes s.graph.curDpstIndex s.graph.tempCurMap (.inr (s.taskIdCtr + 1)) = [] := by
    show ((s.graph.tempCurMap (s.taskIdCtr + 1)).map AFTask.nodeId).toList = []
    rw [h.fresh _ (Nat.lt_succ_self _)]
    rfl
  have hnodes : ∀ {n es stk node}, Spawned s.graph G t (s.taskIdCtr + 1) n es stk node →
      nodes G.curDpstIndex G.tempCurMap = Function.update
        (Function.update (nodes s.graph.curDpstIndex s.graph.tempCurMap) (.inl t)
          (stk.map AFTask.nodeId)) (.inr (s.taskIdCtr + 1)) [node.nodeId] := by
    intro n es stk node hsp
    rw [hsp.curDpstIndex, hsp.tempCurMap, nodes_update_temp, nodes_update]
    rfl
  have hlast := h.next_notMem _ le_rfl
  have hlast1 := h.next_notMem _ (Nat.le_add_right _ 1)
  -- the stack keeps its nodes
  have hone : ∀ {n e stk node}, Spawned s.graph G t (s.taskIdCtr + 1) n [e] stk node →
      stk.map AFTask.nodeId = (s.graph.curDpstIndex t).map AFTask.nodeId →
      e.nodeId = s.graph.lastAllocatedNode → node.nodeId = s.graph.lastAllocatedNode →
      Separate (nodes G.curDpstIndex G.tempCurMap) (G.logged.map LogEntry.nodeId) := by
    intro n e stk node hsp hstk hen hnn
    have hv := h.separate.insert (.inr (s.taskIdCtr + 1)) hlast
    rw [hnodes hsp, hstk, hsp.logged, List.map_append, List.map_singleton, hen, hnn]
    rw [hk] at hv
    have heq : Function.update (nodes s.graph.curDpstIndex s.graph.tempCurMap) (.inl t)
        ((s.graph.curDpstIndex t).map AFTask.nodeId) =
          nodes s.graph.curDpstIndex s.graph.tempCurMap := Function.update_eq_self (Sum.inl t) _
    rw [heq]
    exact hv
  -- a new implicit finish is pushed
  have htwo : ∀ {n e e' F stk node}, Spawned s.graph G t (s.taskIdCtr + 1) n [e, e'] (F :: stk) node →
      stk.map AFTask.nodeId = (s.graph.curDpstIndex t).map AFTask.nodeId →
      e.nodeId = s.graph.lastAllocatedNode → F.nodeId = s.graph.lastAllocatedNode →
      e'.nodeId = s.graph.lastAllocatedNode + 1 → node.nodeId = s.graph.lastAllocatedNode + 1 →
      Separate (nodes G.curDpstIndex G.tempCurMap) (G.logged.map LogEntry.nodeId) := by
    intro n e e' F stk node hsp hstk hen hF hen' hnn
    have hv := (h.separate.insert (.inl t) hlast).insert (.inr (s.taskIdCtr + 1))
      (i := s.graph.lastAllocatedNode + 1) (by
        rw [List.mem_append, List.mem_singleton]
        rintro (hm | hm)
        · exact hlast1 hm
        · omega)
    rw [hnodes hsp, List.map_cons, hstk, hF, hsp.logged, List.map_append]
    rw [Function.update_of_ne Sum.inr_ne_inl, hk, List.append_assoc] at hv
    simp only [List.map_cons, List.map_nil, hen, hen', hnn]
    exact hv
  cases hc with
  | spawnAsync hs hy hsp => exact hone hsp (by rw [hs]; rfl) rfl rfl
  | spawnFinish hs hy hsp => exact htwo hsp (by rw [hs]; rfl) rfl rfl rfl rfl
  | rootFinish hs hsp => exact hone hsp (by rw [hs]; rfl) rfl rfl
  | waitAsync hs hy hsp => exact hone hsp (by rw [hs]) rfl rfl
  | waitFinish hs hy hsp => exact htwo hsp (by rw [hs]; rfl) rfl rfl rfl rfl

theorem separate_step {e : Event κ} (h : s.Orderly) (he : s.Step e s') :
    Separate (nodes s'.graph.curDpstIndex s'.graph.tempCurMap)
      (s'.graph.logged.map LogEntry.nodeId) := by
  -- a stack that loses nodes
  have hdrop : ∀ t stk, stk.Sublist ((s.graph.curDpstIndex t).map AFTask.nodeId) →
      ∀ stk' : List AFTask, stk'.map AFTask.nodeId = stk →
      Separate (nodes (Function.update s.graph.curDpstIndex t stk') s.graph.tempCurMap)
        (s.graph.logged.map LogEntry.nodeId) := by
    intro t stk hsub stk' heq
    rw [nodes_update, heq]
    exact h.separate.drop (.inl t) hsub
  cases e with
  | work t w code =>
    obtain ⟨a, rest, ht, hp, rfl⟩ := step_work he
    exact h.separate
  | entry t call code =>
    obtain ⟨a, rest, curNode, stk, ht, hp, -, hs, rfl⟩ := step_entry he
    show Separate _ ((s.graph.logged ++ _).map LogEntry.nodeId)
    rw [List.map_append]
    exact h.separate.more _
  | register t =>
    obtain ⟨a, rest, call, phase, effect, body, G, ht, hp, hr, hc, rfl⟩ :=
      step_register he (h.fresh _ (Nat.lt_succ_self _))
    exact separate_captured h hc
  | execute t k =>
    obtain ⟨body, node, hc, hb, hn, rfl⟩ := step_execute he
    have hi : nodes s.graph.curDpstIndex s.graph.tempCurMap (.inr k) = [node.nodeId] := by
      show ((s.graph.tempCurMap k).map AFTask.nodeId).toList = _
      rw [hn]
      rfl
    have hv := h.separate.move (y := .inl t) Sum.inr_ne_inl hi
    show Separate (nodes (Function.update s.graph.curDpstIndex t _)
      (Function.update s.graph.tempCurMap k none)) _
    rw [nodes_update, nodes_update_temp]
    exact hv
  | resume t =>
    obtain ⟨a, rest, ht, ⟨hp, curNode, stk, hs, rfl⟩ | ⟨hp, node, curNode, stk, hs, rfl⟩⟩ :=
      step_resume he
    all_goals
      show Separate _ ((s.graph.logged ++ []).map LogEntry.nodeId)
      rw [List.append_nil]
    · refine hdrop t _ (List.Sublist.refl _) _ ?_
      rw [hs]
      rfl
    · refine hdrop t _ ?_ _ rfl
      rw [hs]
      exact List.sublist_cons_self _ _
  | leave t =>
    obtain ⟨a, rest, curNode, stk, ht, hp, hs, ⟨-, rfl⟩ | ⟨-, node, stk', rfl, rfl⟩⟩ :=
      step_leave he
    · refine hdrop t _ ?_ _ rfl
      rw [hs]
      exact List.sublist_cons_self _ _
    · refine hdrop t _ ?_ _ rfl
      rw [hs]
      exact (List.sublist_cons_self _ _).trans (List.sublist_cons_self _ _)
  | fini =>
    obtain ⟨a, curNode, stk, ht, hp, hq, hs, rfl⟩ := step_fini he
    show Separate _ ((s.graph.logged ++ _).map LogEntry.nodeId)
    rw [List.map_append]
    exact h.separate.more _

/-! ## The threads and the pending tasks -/

theorem nested_step {e : Event κ} (h : s.Orderly) (he : s.Step e s') (u : ThreadId) :
    Nested (s'.threads u) := by
  have hset : ∀ t l, Nested l → Nested (Function.update s.threads t l u) := by
    intro t l hl
    by_cases hu : u = t
    · rw [hu, Function.update_self]
      exact hl
    · rw [Function.update_of_ne hu]
      exact h.nested u
  -- a new innermost activation in place of the old one
  have htop : ∀ t a rest, s.threads t = a :: rest → ∀ b, Nested (b :: rest) := by
    intro t a rest ht b
    have := h.nested t
    rw [ht] at this
    exact this
  cases e with
  | work t w code =>
    obtain ⟨a, rest, ht, hp, rfl⟩ := step_work he
    exact hset t _ (htop t a rest ht _)
  | entry t call code =>
    obtain ⟨a, rest, curNode, stk, ht, hp, -, hs, rfl⟩ := step_entry he
    exact hset t _ (htop t a rest ht _)
  | register t =>
    obtain ⟨a, rest, call, phase, effect, body, G, ht, hp, hr, hc, rfl⟩ :=
      step_register he (h.fresh _ (Nat.lt_succ_self _))
    exact hset t _ (htop t a rest ht _)
  | execute t k =>
    obtain ⟨body, node, hc, hb, hn, rfl⟩ := step_execute he
    refine hset t _ ?_
    intro b hbm
    have hbm : b ∈ s.threads t := hbm
    have hnest := h.nested t
    unfold canExecute at hc
    split at hc
    · next ht =>
      rw [ht] at hbm
      cases hbm
    · next a rest ht =>
      rw [ht] at hnest hbm
      rcases List.mem_cons.mp hbm with rfl | hbm
      · split at hc
        · next hp => exact .inl hp
        · next hp => exact .inr hp
        · cases hc
      · exact hnest b hbm
  | resume t =>
    obtain ⟨a, rest, ht, ⟨hp, curNode, stk, hs, rfl⟩ | ⟨hp, node, curNode, stk, hs, rfl⟩⟩ :=
      step_resume he
    all_goals exact hset t _ (htop t a rest ht _)
  | leave t =>
    obtain ⟨a, rest, curNode, stk, ht, hp, hs, ⟨-, rfl⟩ | ⟨-, node, stk', rfl, rfl⟩⟩ :=
      step_leave he
    all_goals exact hset t _ (htop t a rest ht a).tail
  | fini =>
    obtain ⟨a, curNode, stk, ht, hp, hq, hs, rfl⟩ := step_fini he
    exact hset 0 _ fun b hb => nomatch hb

/-- A task is spawned with its node, and started with it. -/
theorem pending_step {e : Event κ} (h : s.Orderly) (he : s.Step e s') :
    (∀ k, s'.taskIdCtr < k → s'.graph.tempCurMap k = none) ∧
      ∀ k, s'.bodies k = none ↔ s'.graph.tempCurMap k = none := by
  cases e with
  | work t w code =>
    obtain ⟨a, rest, ht, hp, rfl⟩ := step_work he
    exact ⟨h.fresh, h.bodies⟩
  | entry t call code =>
    obtain ⟨a, rest, curNode, stk, ht, hp, -, hs, rfl⟩ := step_entry he
    exact ⟨h.fresh, h.bodies⟩
  | register t =>
    obtain ⟨a, rest, call, phase, effect, body, G, ht, hp, hr, hc, rfl⟩ :=
      step_register he (h.fresh _ (Nat.lt_succ_self _))
    have htemp : ∃ node, G.tempCurMap =
        Function.update s.graph.tempCurMap (s.taskIdCtr + 1) (some node) := by
      cases hc with
      | rootFinish hs hsp => exact ⟨_, hsp.tempCurMap⟩
      | _ hs hy hsp => exact ⟨_, hsp.tempCurMap⟩
    obtain ⟨node, htemp⟩ := htemp
    refine ⟨fun k hk => ?_, fun k => ?_⟩
    · have hk : s.taskIdCtr + 1 < k := hk
      show G.tempCurMap k = none
      rw [htemp, Function.update_of_ne (by omega)]
      exact h.fresh k (by omega)
    · show Function.update s.bodies (s.taskIdCtr + 1) (some body) k = none ↔ G.tempCurMap k = none
      rw [htemp]
      by_cases hk : k = s.taskIdCtr + 1
      · rw [hk, Function.update_self, Function.update_self]
        exact iff_of_false (fun h => nomatch h) (fun h => nomatch h)
      · rw [Function.update_of_ne hk, Function.update_of_ne hk]
        exact h.bodies k
  | execute t taskId =>
    obtain ⟨body, node, hc, hb, hn, rfl⟩ := step_execute he
    refine ⟨fun k hk => ?_, fun k => ?_⟩
    · show Function.update s.graph.tempCurMap taskId none k = none
      by_cases hkt : k = taskId
      · rw [hkt, Function.update_self]
      · rw [Function.update_of_ne hkt]
        exact h.fresh k hk
    · show Function.update s.bodies taskId none k = none ↔
        Function.update s.graph.tempCurMap taskId none k = none
      by_cases hkt : k = taskId
      · rw [hkt, Function.update_self, Function.update_self]
        exact iff_of_true rfl rfl
      · rw [Function.update_of_ne hkt, Function.update_of_ne hkt]
        exact h.bodies k
  | resume t =>
    obtain ⟨a, rest, ht, ⟨hp, curNode, stk, hs, rfl⟩ | ⟨hp, node, curNode, stk, hs, rfl⟩⟩ :=
      step_resume he
    all_goals exact ⟨h.fresh, h.bodies⟩
  | leave t =>
    obtain ⟨a, rest, curNode, stk, ht, hp, hs, ⟨-, rfl⟩ | ⟨-, node, stk', rfl, rfl⟩⟩ :=
      step_leave he
    all_goals exact ⟨h.fresh, h.bodies⟩
  | fini =>
    obtain ⟨a, curNode, stk, ht, hp, hq, hs, rfl⟩ := step_fini he
    exact ⟨h.fresh, h.bodies⟩

theorem quiet_iff : s.quiet = true ↔
    (∀ t, t ≠ 0 → s.threads t = []) ∧ ∀ k ≤ s.taskIdCtr, s.bodies k = none := by
  simp only [quiet, Bool.and_eq_true, List.all_eq_true, List.mem_finRange, forall_const,
    Bool.or_eq_true, decide_eq_true_eq, List.isEmpty_iff, List.mem_range, Nat.lt_succ_iff,
    Option.isNone_iff_eq_none, or_iff_not_imp_left]

/-- Nothing happens after `Fini`. -/
theorem Orderly.no_step {e : Event κ} (h : s.Orderly) (hf : s.finished = true) :
    ¬s.Step e s' := by
  intro he
  have hthread : ∀ t a rest, s.threads t ≠ a :: rest := by
    intro t a rest ht
    rw [(h.ended hf).1 t] at ht
    cases ht
  cases e with
  | work t w code =>
    obtain ⟨a, rest, ht, -⟩ := step_work he
    exact hthread t a rest ht
  | entry t call code =>
    obtain ⟨a, rest, curNode, stk, ht, -⟩ := step_entry he
    exact hthread t a rest ht
  | register t =>
    obtain ⟨a, rest, call, phase, effect, body, G, ht, -⟩ :=
      step_register he (h.fresh _ (Nat.lt_succ_self _))
    exact hthread t a rest ht
  | execute t k =>
    obtain ⟨body, node, -, hb, -⟩ := step_execute he
    rw [(h.ended hf).2 k] at hb
    cases hb
  | resume t =>
    obtain ⟨a, rest, ht, -⟩ := step_resume he
    exact hthread t a rest ht
  | leave t =>
    obtain ⟨a, rest, curNode, stk, ht, -⟩ := step_leave he
    exact hthread t a rest ht
  | fini =>
    obtain ⟨a, curNode, stk, ht, -⟩ := step_fini he
    exact hthread 0 a [] ht

theorem ended_step {e : Event κ} (h : s.Orderly) (he : s.Step e s')
    (hf : s'.finished = true) : (∀ t, s'.threads t = []) ∧ ∀ k, s'.bodies k = none := by
  cases e with
  | work t w code =>
    obtain ⟨a, rest, ht, hp, rfl⟩ := step_work he
    exact absurd he (h.no_step hf)
  | entry t call code =>
    obtain ⟨a, rest, curNode, stk, ht, hp, -, hs, rfl⟩ := step_entry he
    exact absurd he (h.no_step hf)
  | register t =>
    obtain ⟨a, rest, call, phase, effect, body, G, ht, hp, hr, hc, rfl⟩ :=
      step_register he (h.fresh _ (Nat.lt_succ_self _))
    exact absurd he (h.no_step hf)
  | execute t k =>
    obtain ⟨body, node, hc, hb, hn, rfl⟩ := step_execute he
    exact absurd he (h.no_step hf)
  | resume t =>
    obtain ⟨a, rest, ht, ⟨hp, curNode, stk, hs, rfl⟩ | ⟨hp, node, curNode, stk, hs, rfl⟩⟩ :=
      step_resume he
    all_goals exact absurd he (h.no_step hf)
  | leave t =>
    obtain ⟨a, rest, curNode, stk, ht, hp, hs, ⟨-, rfl⟩ | ⟨-, node, stk', rfl, rfl⟩⟩ :=
      step_leave he
    all_goals exact absurd he (h.no_step hf)
  | fini =>
    obtain ⟨a, curNode, stk, ht, hp, hq, hs, rfl⟩ := step_fini he
    obtain ⟨hq1, hq2⟩ := quiet_iff.mp hq
    refine ⟨fun t => ?_, fun k => ?_⟩
    · show Function.update s.threads 0 [] t = []
      by_cases h0 : t = 0
      · rw [h0, Function.update_self]
      · rw [Function.update_of_ne h0]
        exact hq1 t h0
    · by_cases hk : k ≤ s.taskIdCtr
      · exact hq2 k hk
      · exact (h.bodies k).mpr (h.fresh k (by omega))

end Step

/-! ## Every run -/

theorem Orderly.step {s s' : Sys κ} {e : Event κ} (h : s.Orderly) (he : s.Step e s') :
    s'.Orderly where
  nested := nested_step h he
  fresh := (pending_step h he).1
  bodies := (pending_step h he).2
  tickets := tickets_step h he
  separate := separate_step h he
  ended := ended_step h he

theorem orderly_init (main : κ) : (init main).Orderly where
  nested t := by
    show Nested (if t = 0 then _ else _)
    split_ifs
    · exact fun b hb => nomatch hb
    · exact fun b hb => nomatch hb
  fresh _ _ := rfl
  bodies _ := iff_of_true rfl rfl
  tickets := by
    -- the head node, and the step id that thread 0 starts with
    have h0 : Tickets.Valid (⟨[], fun _ => none, 1⟩ : Tickets Holder) :=
      ⟨le_rfl, List.nodup_nil, by simp, by simp, by simp, by simp, by intro i h1 h2; simp at h2; omega⟩
    have hv := h0.issue.grant (.inl 0) rfl
    convert hv using 1
    ext1
    · rfl
    · funext x
      rcases x with t | k
      · by_cases ht : t = 0
        · rw [ht]
          rfl
        · show stepId (if t = 0 then _ else []) _ =
            Function.update (fun _ : Holder => none) (.inl 0) (some 2) (.inl t)
          rw [if_neg ht, Function.update_of_ne (fun h => ht (Sum.inl.inj h))]
          rfl
      · rfl
    · rfl
  separate := by
    have h0 : Separate (fun _ : Holder => []) [] :=
      ⟨fun _ => List.nodup_nil, fun _ _ _ h => (nomatch h), fun _ _ h => (nomatch h)⟩
    have hv := h0.insert (.inl 0) (i := 1) (fun h => nomatch h)
    convert hv using 1
    · funext x
      rcases x with t | k
      · by_cases ht : t = 0
        · rw [ht]
          rfl
        · show List.map _ (Function.update (fun _ => []) 0 _ t) =
            Function.update (fun _ : Holder => []) (.inl 0) [1] (.inl t)
          rw [Function.update_of_ne ht, Function.update_of_ne (fun h => ht (Sum.inl.inj h))]
          rfl
      · rfl
    · rfl
  ended h := nomatch h

theorem Reachable.orderly {main : κ} {s : Sys κ} (h : Reachable main s) : s.Orderly := by
  obtain ⟨es, hr⟩ := h
  exact hr.preserves (orderly_init main) fun s e s' hs _ he => hs.step he

end TaskProf.Collection.Sys
