import TaskProf.Lib.LogTree
import TaskProf.Collection.Recorded

/-!
# The order of siblings

The children of a node are logged in the order of their ids, whatever happens on
the other threads: a STEP takes its id when the call before it ends, and until it
is logged nothing else is logged under its node.

* `Reachable.ordered`: after every run.
-/

namespace TaskProf.Collection

variable {κ : Type}

/-- What a line of the log says about its node besides the ids. -/
structure NodeLabel where
  nodeType : NodeType
  retAddr : SizeT
  work : SizeT
  deriving DecidableEq

/-- The log as a tree. -/
def treeShape : EntryShape LogEntry NodeLabel :=
  ⟨LogEntry.nodeId, LogEntry.parent, fun e => ⟨e.nodeType, e.retAddr, e.work⟩⟩

namespace Sys

variable {s s' : Sys κ} {t : ThreadId}

/-- Siblings are in order, a reserved STEP id comes after the children so far,
    and a pending node has no children. -/
structure Ordered (s : Sys κ) : Prop where
  sorted : ∀ p, (treeShape.children s.graph.logged p).Pairwise fun c d => c.nodeId < d.nodeId
  next : ∀ t n, stepNode (s.threads t) (s.graph.curDpstIndex t) = some n →
    ∀ c ∈ s.graph.logged, c.parent = n.nodeId → c.nodeId < n.childId
  temp : ∀ k n, s.graph.tempCurMap k = some n → ∀ c ∈ s.graph.logged, c.parent ≠ n.nodeId

theorem sorted_append {log : List LogEntry} {e : LogEntry}
    (h : ∀ p, (treeShape.children log p).Pairwise fun c d => c.nodeId < d.nodeId)
    (he : ∀ c ∈ log, c.parent = e.parent → c.nodeId < e.nodeId) (p : ℕ) :
    (treeShape.children (log ++ [e]) p).Pairwise fun c d => c.nodeId < d.nodeId := by
  by_cases hp : treeShape.parent e = p
  · rw [← hp, EntryShape.children_append_self]
    refine List.pairwise_append.mpr ⟨h _, List.pairwise_singleton _ _, ?_⟩
    intro c hc d hd
    rw [List.mem_singleton.mp hd]
    obtain ⟨hcl, hcp⟩ := EntryShape.mem_children.mp hc
    exact he c hcl hcp
  · rw [EntryShape.children_append_of_ne hp]
    exact h p

/-- The node of a next STEP is on top of the stack. -/
theorem stepNode_eq_some {l : List (Activation κ)} {stk : List AFTask} {n : AFTask}
    (h : stepNode l stk = some n) : ∃ a l' stk', l = a :: l' ∧ a.phase = .running ∧
      stk = n :: stk' := by
  cases l with
  | nil => cases h
  | cons a l' =>
    cases stk with
    | nil => cases h
    | cons c stk' =>
      cases hp : a.phase with
      | running =>
        rw [stepNode_running hp, Option.some.injEq] at h
        exact ⟨a, l', stk', rfl, hp, by rw [h]⟩
      | _ =>
        rw [stepNode_of_ne (by rw [hp]; exact fun h => nomatch h)] at h
        cases h

/-- A thread that gets another next STEP, or none, while nothing is logged. -/
theorem Ordered.update (h : s.Ordered) (t : ThreadId) (l : List (Activation κ))
    (stk : List AFTask)
    (hn : ∀ n, stepNode l stk = some n →
      ∀ c ∈ s.graph.logged, c.parent = n.nodeId → c.nodeId < n.childId) (u : ThreadId)
    (n : AFTask) (hu : stepNode (Function.update s.threads t l u)
      (Function.update s.graph.curDpstIndex t stk u) = some n) :
    ∀ c ∈ s.graph.logged, c.parent = n.nodeId → c.nodeId < n.childId := by
  by_cases hut : u = t
  · rw [hut, Function.update_self, Function.update_self] at hu
    exact hn n hu
  · rw [Function.update_of_ne hut, Function.update_of_ne hut] at hu
    exact h.next u n hu

/-- A STEP is logged under its node. -/
theorem ordered_logStep {a : Activation κ} {rest l : List (Activation κ)} {curNode : AFTask}
    {stk : List AFTask} {d : LogEntry} (h : s.Orderly) (ho : s.Ordered)
    (ht : s.threads t = a :: rest) (hp : a.phase = .running)
    (hst : s.graph.curDpstIndex t = curNode :: stk) (hdp : d.parent = curNode.nodeId)
    (hdi : d.nodeId = curNode.childId) (hl : stepNode l (curNode :: stk) = none) :
    (∀ p, (treeShape.children (s.graph.logged ++ [d]) p).Pairwise
        fun c d => c.nodeId < d.nodeId) ∧
      (∀ u n, stepNode (Function.update s.threads t l u) (s.graph.curDpstIndex u) = some n →
        ∀ c ∈ s.graph.logged ++ [d], c.parent = n.nodeId → c.nodeId < n.childId) ∧
      ∀ k n, s.graph.tempCurMap k = some n → ∀ c ∈ s.graph.logged ++ [d],
        c.parent ≠ n.nodeId := by
  obtain ⟨-, hne, hnt⟩ := h.top_ne hst
  refine ⟨sorted_append ho.sorted fun c hc hcp => ?_, fun u n hu c hc hcn => ?_,
    fun k n hk c hc => ?_⟩
  · rw [hdi]
    exact ho.next t curNode (by rw [ht, hst, stepNode_running hp]) c hc (hcp.trans hdp)
  · by_cases hut : u = t
    · rw [hut, Function.update_self, hst, hl] at hu
      cases hu
    · rw [Function.update_of_ne hut] at hu
      rcases List.mem_append.mp hc with hc | hc
      · exact ho.next u n hu c hc hcn
      · -- the new entry is under another node
        rw [List.mem_singleton.mp hc, hdp] at hcn
        obtain ⟨_, _, stk', -, -, hstk'⟩ := stepNode_eq_some hu
        exact absurd hcn.symm (hne u hut n (by rw [hstk']; exact List.mem_cons_self ..))
  · rcases List.mem_append.mp hc with hc | hc
    · exact ho.temp k n hk c hc
    · rw [List.mem_singleton.mp hc, hdp]
      exact (hnt k n hk).symm

/-- The entries of a spawn come under the current node or under a new one, with
    larger ids than all entries so far. -/
theorem ordered_spawned {G : AFTaskGraph} {curNode node : AFTask} {rest : List AFTask}
    {n : ℕ} {es : List LogEntry} {stk : List AFTask} {l : List (Activation κ)} (h : s.Orderly)
    (hs : Sound s.graph) (ho : s.Ordered) (hst : s.graph.curDpstIndex t = curNode :: rest)
    (hsp : Spawned s.graph G t (s.taskIdCtr + 1) n es stk node)
    (hsorted : ∀ p, (treeShape.children (s.graph.logged ++ es) p).Pairwise
      fun c d => c.nodeId < d.nodeId)
    (hparent : ∀ e ∈ es, e.parent = curNode.nodeId ∨ e.parent = s.graph.lastAllocatedNode)
    (hnode : ∀ e ∈ es, e.parent ≠ node.nodeId) (hid : s.graph.lastAllocatedNode ≤ node.nodeId)
    (hnext : ∀ m, stepNode l stk = some m →
      s.graph.lastAllocatedNode + es.length ≤ m.childId)
    (hlt : ∀ e ∈ es, e.nodeId < s.graph.lastAllocatedNode + es.length) :
    (∀ p, (treeShape.children G.logged p).Pairwise fun c d => c.nodeId < d.nodeId) ∧
      (∀ u m, stepNode (Function.update s.threads t l u) (G.curDpstIndex u) = some m →
        ∀ c ∈ G.logged, c.parent = m.nodeId → c.nodeId < m.childId) ∧
      ∀ k m, G.tempCurMap k = some m → ∀ c ∈ G.logged, c.parent ≠ m.nodeId := by
  obtain ⟨-, hne, hnt⟩ := h.top_ne hst
  rw [hsp.logged, hsp.curDpstIndex, hsp.tempCurMap]
  refine ⟨hsorted, fun u m hu c hc hcm => ?_, fun k m hk c hc => ?_⟩
  · by_cases hut : u = t
    · rw [hut, Function.update_self, Function.update_self] at hu
      have hm := hnext m hu
      rcases List.mem_append.mp hc with hc | hc
      · have := (h.entry_lt hc).2
        omega
      · have := hlt c hc
        omega
    · rw [Function.update_of_ne hut, Function.update_of_ne hut] at hu
      rcases List.mem_append.mp hc with hc | hc
      · exact ho.next u m hu c hc hcm
      · obtain ⟨_, _, stk', -, -, hstk'⟩ := stepNode_eq_some hu
        have hmem : m ∈ s.graph.curDpstIndex u := by rw [hstk']; exact List.mem_cons_self ..
        have hm := hne u hut m hmem
        have hml := h.node_lt (hs.stack u m hmem)
        rcases hparent c hc with hcp | hcp <;> omega
  · by_cases hks : k = s.taskIdCtr + 1
    · rw [hks, Function.update_self, Option.some.injEq] at hk
      rw [← hk]
      rcases List.mem_append.mp hc with hc | hc
      · have h1 := h.node_lt (goodNode_top hs hst)
        exact hs.growing.parent_ne (h.next_notMem _ hid) (by omega) c hc
      · exact hnode c hc
    · rw [Function.update_of_ne hks] at hk
      rcases List.mem_append.mp hc with hc | hc
      · exact ho.temp k m hk c hc
      · have hm := hnt k m hk
        have hml := h.node_lt (hs.temp k m hk)
        rcases hparent c hc with hcp | hcp <;> omega

theorem ordered_captured {call : Call κ} {phase : Phase κ} {effect : Effect} {body : κ}
    {G : AFTaskGraph} {a : Activation κ} {rest : List (Activation κ)} (h : s.Orderly)
    (hs : Sound s.graph) (ho : s.Ordered) (hr : registered call = some (phase, effect, body))
    (hc : Captured s.graph G t (s.taskIdCtr + 1) call) (ha : a.phase = phase) :
    (∀ p, (treeShape.children G.logged p).Pairwise fun c d => c.nodeId < d.nodeId) ∧
      (∀ u m, stepNode (Function.update s.threads t (a :: rest) u) (G.curDpstIndex u) = some m →
        ∀ c ∈ G.logged, c.parent = m.nodeId → c.nodeId < m.childId) ∧
      ∀ k m, G.tempCurMap k = some m → ∀ c ∈ G.logged, c.parent ≠ m.nodeId := by
  have hlast : ∀ c ∈ s.graph.logged, c.nodeId < s.graph.lastAllocatedNode :=
    fun c hc => (h.entry_lt hc).2
  have hone : ∀ e : LogEntry, e.nodeId = s.graph.lastAllocatedNode → ∀ p,
      (treeShape.children (s.graph.logged ++ [e]) p).Pairwise fun c d => c.nodeId < d.nodeId :=
    fun e he => sorted_append ho.sorted fun c hc _ => by rw [he]; exact hlast c hc
  have htwo : ∀ e f : LogEntry, e.nodeId = s.graph.lastAllocatedNode →
      f.nodeId = s.graph.lastAllocatedNode + 1 → ∀ p,
      (treeShape.children (s.graph.logged ++ [e, f]) p).Pairwise
        fun c d => c.nodeId < d.nodeId := by
    intro e f he hf
    rw [← List.singleton_append, ← List.append_assoc]
    refine sorted_append (hone e he) fun c hc _ => ?_
    rcases List.mem_append.mp hc with hc | hc
    · have := hlast c hc
      omega
    · rw [List.mem_singleton.mp hc]
      omega
  have hwait : a.phase ≠ .running → ∀ stk m n, stepNode (a :: rest) stk = some m →
      s.graph.lastAllocatedNode + n ≤ m.childId := by
    intro hne stk m n hm
    rw [stepNode_of_ne hne] at hm
    cases hm
  cases hc with
  | @spawnAsync site body curNode rest₁ hst hy hsp =>
    cases hr
    have hlt := h.node_lt (goodNode_top hs hst)
    refine ordered_spawned h hs ho hst hsp (hone _ rfl) ?_ ?_ le_rfl ?_ ?_
    · simp
    · simp only [List.mem_singleton, forall_eq]
      omega
    · intro m hm
      rw [stepNode_running ha, Option.some.injEq] at hm
      rw [← hm]
      exact Nat.le_succ _
    · simp
  | @spawnFinish site body curNode rest₁ hst hy hsp =>
    cases hr
    have hlt := h.node_lt (goodNode_top hs hst)
    refine ordered_spawned h hs ho hst hsp (htwo _ _ rfl rfl) ?_ ?_ (Nat.le_succ _) ?_ ?_
    · simp
    · simp only [List.mem_cons, List.not_mem_nil, or_false, forall_eq_or_imp, forall_eq]
      omega
    · intro m hm
      rw [stepNode_running ha, Option.some.injEq] at hm
      rw [← hm]
      exact Nat.le_succ _
    · simp
  | @rootFinish site body curNode rest₁ hst hsp =>
    cases hr
    have hlt := h.node_lt (goodNode_top hs hst)
    refine ordered_spawned h hs ho hst hsp (hone _ rfl) ?_ ?_ le_rfl
      (fun m => hwait (by rw [ha]; exact fun h => nomatch h) _ m _) ?_
    · simp
    · simp only [List.mem_singleton, forall_eq]
      omega
    · simp
  | @waitAsync site body curNode rest₁ hst hy hsp =>
    cases hr
    have hlt := h.node_lt (goodNode_top hs hst)
    refine ordered_spawned h hs ho hst hsp (hone _ rfl) ?_ ?_ le_rfl
      (fun m => hwait (by rw [ha]; exact fun h => nomatch h) _ m _) ?_
    · simp
    · simp only [List.mem_singleton, forall_eq]
      omega
    · simp
  | @waitFinish site body curNode rest₁ hst hy hsp =>
    cases hr
    have hlt := h.node_lt (goodNode_top hs hst)
    refine ordered_spawned h hs ho hst hsp (htwo _ _ rfl rfl) ?_ ?_ (Nat.le_succ _)
      (fun m => hwait (by rw [ha]; exact fun h => nomatch h) _ m _) ?_
    · simp
    · simp only [List.mem_cons, List.not_mem_nil, or_false, forall_eq_or_imp, forall_eq]
      omega
    · simp

theorem ordered_step {e : Event κ} (h : s.Orderly) (hs : Sound s.graph) (ho : s.Ordered)
    (he : s.Step e s') : s'.Ordered := by
  cases e with
  | work t w code =>
    obtain ⟨a, rest, ht, hp, rfl⟩ := step_work he
    refine ⟨ho.sorted, fun u n hu => ho.next u n ?_, ho.temp⟩
    rw [← hu]
    show _ = stepNode (Function.update s.threads t _ u) _
    by_cases hut : u = t
    · rw [hut, Function.update_self, ht]
      exact stepNode_congr (a := a) (b := { a with code := code }) rfl rest rest _
    · rw [Function.update_of_ne hut]
      rfl
  | entry t call code =>
    obtain ⟨a, rest, curNode, stk, ht, hp, -, hst, rfl⟩ := step_entry he
    obtain ⟨h1, h2, h3⟩ := ordered_logStep h ho ht hp hst
      (d := ⟨t, curNode.childId, curNode.nodeId, s.counter t, .step, 0⟩) rfl rfl
      (stepNode_of_ne (a := { a with code := code, phase := entryPhase call })
        (entryPhase_ne call) rest (curNode :: stk))
    exact ⟨h1, h2, h3⟩
  | register t =>
    obtain ⟨a, rest, call, phase, effect, body, G, ht, hp, hr, hc, rfl⟩ :=
      step_register he (h.fresh _ (Nat.lt_succ_self _))
    obtain ⟨h1, h2, h3⟩ := ordered_captured
      (a := { a with phase := phase, effects := a.effects ++ [effect] }) h hs ho hr hc rfl
    exact ⟨h1, h2, h3⟩
  | execute t k =>
    obtain ⟨body, node, hc, hb, hn, rfl⟩ := step_execute he
    refine ⟨ho.sorted, ho.update t _ _ fun m hm c hcl hcm => ?_, fun j m hm => ?_⟩
    · obtain rfl : node = m := Option.some.inj hm
      exact absurd hcm (ho.temp k node hn c hcl)
    · have hm : Function.update s.graph.tempCurMap k none j = some m := hm
      by_cases hj : j = k
      · rw [hj, Function.update_self] at hm
        cases hm
      · rw [Function.update_of_ne hj] at hm
        exact ho.temp j m hm
  | resume t =>
    obtain ⟨a, rest, ht, ⟨hp, curNode, stk, hst, rfl⟩ | ⟨hp, node, curNode, stk, hst, rfl⟩⟩ :=
      step_resume he
    all_goals
      have hlog : ∀ G : AFTaskGraph, (G.advance 1 []).logged = G.logged :=
        fun G => List.append_nil _
      refine ⟨?_, ?_, ?_⟩
      · show ∀ p, (treeShape.children (s.graph.advance 1 []).logged p).Pairwise _
        rw [hlog]
        exact ho.sorted
      · show ∀ u n, _ → ∀ c ∈ (s.graph.advance 1 []).logged, _
        rw [hlog]
        refine ho.update t _ _ fun m hm c hcl _ => ?_
        rw [stepNode_running rfl, Option.some.injEq] at hm
        rw [← hm]
        exact (h.entry_lt hcl).2
      · show ∀ k n, _ → ∀ c ∈ (s.graph.advance 1 []).logged, _
        rw [hlog]
        exact ho.temp
  | leave t =>
    obtain ⟨a, rest, curNode, stk, ht, hp, hst, ⟨-, rfl⟩ | ⟨-, node, stk', rfl, rfl⟩⟩ :=
      step_leave he
    all_goals
      have hnest := h.nested t
      rw [ht] at hnest
      refine ⟨ho.sorted, ho.update t _ _ fun m hm => ?_, ho.temp⟩
      rw [hnest.stepNode_tail] at hm
      cases hm
  | fini =>
    obtain ⟨a, curNode, stk, ht, hp, hq, hst, rfl⟩ := step_fini he
    obtain ⟨h1, h2, h3⟩ := ordered_logStep (l := []) h ho ht hp hst
      (d := ⟨0, curNode.childId, curNode.nodeId, s.counter 0, .step, 0⟩) rfl rfl rfl
    exact ⟨h1, h2, h3⟩

theorem ordered_init (main : κ) : (init main).Ordered where
  sorted p := by
    by_cases hp : 0 = p
    · rw [← hp]
      exact List.pairwise_singleton _ _
    · show (treeShape.children ([] ++ [_]) p).Pairwise _
      rw [EntryShape.children_append_of_ne hp]
      exact List.Pairwise.nil
  next t n hn c hc hcn := by
    obtain ⟨_, _, stk, -, -, hstk⟩ := stepNode_eq_some hn
    by_cases ht : t = 0
    · rw [ht] at hstk
      obtain ⟨rfl, -⟩ := List.cons.inj hstk
      rw [List.mem_singleton.mp hc]
      exact Nat.lt_succ_self 1
    · have hnil : (init main).graph.curDpstIndex t = [] := Function.update_of_ne ht ..
      rw [hnil] at hstk
      cases hstk
  temp k n hn := nomatch hn

theorem Reachable.ordered {main : κ} (h : Reachable main s) : s.Ordered := by
  obtain ⟨es, hr⟩ := h
  have hinv : s.Orderly ∧ Sound s.graph ∧ s.Ordered :=
    hr.preserves (P := fun s => s.Orderly ∧ Sound s.graph ∧ s.Ordered)
      ⟨orderly_init main, sound_init main, ordered_init main⟩
      fun s e s' hs _ he => ⟨hs.1.step he, sound_step hs.1 hs.2.1 he, ordered_step hs.1 hs.2.1 hs.2.2 he⟩
  exact hinv.2.2

end Sys

end TaskProf.Collection
