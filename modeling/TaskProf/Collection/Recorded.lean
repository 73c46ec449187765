import TaskProf.Collection.Ownership

/-!
# The recorded tree

The entries of a finished run form the tree that the analysis pass expects.

* `TreeLog`: what the analysis relies on.
* `Sound`: the same of the entries so far, with what the nodes in use promise
  for the entries to come.
* `recorded_tree`: every finished run leaves a `TreeLog`.
-/

namespace TaskProf.Collection

variable {κ : Type}

/-- An entry that can have children. -/
def LogEntry.Inner (e : LogEntry) : Prop := e.nodeType = .async ∨ e.nodeType = .finish

/-- The log of a tree with the ids `1 … n`. -/
structure TreeLog (log : List LogEntry) (n : ℕ) : Prop where
  ids : ∀ i, i ∈ log.map LogEntry.nodeId ↔ 1 ≤ i ∧ i ≤ n
  nodup : (log.map LogEntry.nodeId).Nodup
  root : ∀ e ∈ log, e.parent = 0 ↔ e.nodeId = 1
  parent : ∀ e ∈ log, e.nodeId ≠ 1 →
    ∃ p ∈ log, p.nodeId = e.parent ∧ p.Inner ∧ p.nodeId < e.nodeId
  child : ∀ e ∈ log, e.Inner → ∃ c ∈ log, c.parent = e.nodeId
  async_parent : ∀ e ∈ log, e.nodeType = .async →
    ∃ p ∈ log, p.nodeId = e.parent ∧ p.nodeType = .finish ∧ p.nodeId ≠ 1 ∧ p.retAddr = 0 ∧
      ∃ c ∈ log, c.parent = p.nodeId ∧ c.nodeType = .async ∧
        ∀ d ∈ log, d.parent = p.nodeId → c.nodeId ≤ d.nodeId
  async_first : ∀ a ∈ log, ∀ f ∈ log, a.parent = f.parent → a.nodeType = .async →
    f.nodeType = .finish → a.nodeId < f.nodeId

/-! ## The entries so far -/

/-- Node `i` is an implicit finish with its first ASYNC child. -/
def Opened (log : List LogEntry) (i : ℕ) : Prop :=
  ∃ p ∈ log, p.nodeId = i ∧ p.nodeType = .finish ∧ i ≠ 1 ∧ p.retAddr = 0 ∧
    ∃ c ∈ log, c.parent = i ∧ c.nodeType = .async ∧ c.nodeId = i + 1

/-- The part of `TreeLog` that holds at any time. -/
structure Growing (log : List LogEntry) : Prop where
  root : ∀ e ∈ log, e.parent = 0 ↔ e.nodeId = 1
  parent : ∀ e ∈ log, e.nodeId ≠ 1 →
    ∃ p ∈ log, p.nodeId = e.parent ∧ p.Inner ∧ p.nodeId < e.nodeId
  opened : ∀ e ∈ log, e.nodeType = .async → Opened log e.parent
  async_first : ∀ a ∈ log, ∀ f ∈ log, a.parent = f.parent → a.nodeType = .async →
    f.nodeType = .finish → a.nodeId < f.nodeId

/-- What a node in use promises: with `youngNsChild` ASYNC it is an implicit
    finish that has no FINISH child, and the node of a task has no ASYNC child. -/
structure GoodNode (log : List LogEntry) (n : AFTask) : Prop where
  inner : ∃ p ∈ log, p.nodeId = n.nodeId ∧ p.Inner
  child : n.childId = 0 ∨ n.nodeId < n.childId
  young : n.youngNsChild = .async →
    Opened log n.nodeId ∧ ∀ f ∈ log, f.parent = n.nodeId → f.nodeType ≠ .finish
  own : n.syncFinishFlag = false →
    n.youngNsChild ≠ .async ∧ ∀ c ∈ log, c.parent = n.nodeId → c.nodeType ≠ .async

/-- The entries so far, and the nodes in use. -/
structure Sound (G : AFTaskGraph) : Prop where
  growing : Growing G.logged
  stack : ∀ t, ∀ n ∈ G.curDpstIndex t, GoodNode G.logged n
  temp : ∀ k n, G.tempCurMap k = some n → GoodNode G.logged n
  plain : ∀ k n, G.tempCurMap k = some n → n.syncFinishFlag = false

section Append

variable {log : List LogEntry} {i : ℕ} {e : LogEntry} {n : AFTask}

theorem Opened.append (h : Opened log i) (es : List LogEntry) : Opened (log ++ es) i := by
  obtain ⟨p, hp, h1, h2, h3, h4, c, hc, h5⟩ := h
  exact ⟨p, List.mem_append_left _ hp, h1, h2, h3, h4, c, List.mem_append_left _ hc, h5⟩

/-- An entry under a logged node. -/
theorem Growing.append (h : Growing log) (h0 : e.parent ≠ 0) (h1 : e.nodeId ≠ 1)
    (hp : ∃ p ∈ log, p.nodeId = e.parent ∧ p.Inner ∧ p.nodeId < e.nodeId)
    (ha : e.nodeType = .async → Opened (log ++ [e]) e.parent ∧
      ∀ f ∈ log, f.parent = e.parent → f.nodeType ≠ .finish)
    (hf : e.nodeType = .finish → ∀ a ∈ log, a.nodeId < e.nodeId) : Growing (log ++ [e]) where
  root := by
    intro d hd
    rcases List.mem_append.mp hd with hd | hd
    · exact h.root d hd
    · rw [List.mem_singleton.mp hd]
      exact iff_of_false h0 h1
  parent := by
    intro d hd hd1
    have hex : ∃ p ∈ log, p.nodeId = d.parent ∧ p.Inner ∧ p.nodeId < d.nodeId := by
      rcases List.mem_append.mp hd with hd | hd
      · exact h.parent d hd hd1
      · rw [List.mem_singleton.mp hd]
        exact hp
    obtain ⟨p, hpm, hp⟩ := hex
    exact ⟨p, List.mem_append_left _ hpm, hp⟩
  opened := by
    intro d hd hda
    rcases List.mem_append.mp hd with hd | hd
    · exact (h.opened d hd hda).append _
    · rw [List.mem_singleton.mp hd] at hda ⊢
      exact (ha hda).1
  async_first := by
    intro a ham f hfm haf hat hft
    rcases List.mem_append.mp ham with ham | ham <;> rcases List.mem_append.mp hfm with hfm | hfm
    · exact h.async_first a ham f hfm haf hat hft
    · rw [List.mem_singleton.mp hfm] at hft ⊢
      exact hf hft a ham
    · rw [List.mem_singleton.mp ham] at haf hat
      exact absurd hft ((ha hat).2 f hfm haf.symm)
    · rw [List.mem_singleton.mp ham] at hat
      rw [List.mem_singleton.mp hfm, hat] at hft
      cases hft

/-- A node keeps its promises if no entry under it breaks them. -/
theorem GoodNode.append (h : GoodNode log n)
    (he : e.parent = n.nodeId → (n.youngNsChild = .async → e.nodeType ≠ .finish) ∧
      (n.syncFinishFlag = false → e.nodeType ≠ .async)) :
    GoodNode (log ++ [e]) n where
  inner := by
    obtain ⟨p, hp, hi⟩ := h.inner
    exact ⟨p, List.mem_append_left _ hp, hi⟩
  child := h.child
  young := by
    intro hy
    obtain ⟨ho, hno⟩ := h.young hy
    refine ⟨ho.append _, fun f hf hfp => ?_⟩
    rcases List.mem_append.mp hf with hf | hf
    · exact hno f hf hfp
    · rw [List.mem_singleton.mp hf] at hfp ⊢
      exact (he hfp).1 hy
  own := by
    intro hsync
    obtain ⟨hy, hno⟩ := h.own hsync
    refine ⟨hy, fun c hc hcp => ?_⟩
    rcases List.mem_append.mp hc with hc | hc
    · exact hno c hc hcp
    · rw [List.mem_singleton.mp hc] at hcp ⊢
      exact (he hcp).2 hsync

/-- A STEP entry breaks no promise. -/
theorem GoodNode.append_step (h : GoodNode log n) (he : e.nodeType = .step) :
    GoodNode (log ++ [e]) n := by
  refine h.append fun _ => ⟨fun _ => ?_, fun _ => ?_⟩
  · rw [he]
    exact fun h => nomatch h
  · rw [he]
    exact fun h => nomatch h

/-- An entry breaks no promise of another node than its parent. -/
theorem GoodNode.append_other (h : GoodNode log n) (he : n.nodeId ≠ e.parent) :
    GoodNode (log ++ [e]) n := h.append fun hp => absurd hp.symm he

/-- The node gets another `child_id`. -/
theorem GoodNode.setChild (h : GoodNode log n) {c : ℕ} (hc : c = 0 ∨ n.nodeId < c) :
    GoodNode log { n with childId := c } := ⟨h.inner, hc, h.young, h.own⟩

/-- With `youngNsChild` FINISH a node may get FINISH children. -/
theorem GoodNode.setYoung (h : GoodNode log n) :
    GoodNode log { n with youngNsChild := .finish } :=
  ⟨h.inner, h.child, fun h => (nomatch h), fun hs => ⟨fun h => (nomatch h), (h.own hs).2⟩⟩

/-- No entry is under a node that is not logged. -/
theorem Growing.parent_ne (h : Growing log) (hi : i ∉ log.map LogEntry.nodeId) (h0 : i ≠ 0) :
    ∀ f ∈ log, f.parent ≠ i := by
  intro f hf hfi
  by_cases h1 : f.nodeId = 1
  · exact h0 (hfi.symm.trans ((h.root f hf).mpr h1))
  · obtain ⟨p, hp, hpi, -⟩ := h.parent f hf h1
    exact hi (List.mem_map.mpr ⟨p, hp, hpi.trans hfi⟩)

/-- A node that has just been logged. -/
theorem GoodNode.new (he : e ∈ log) (hi : e.Inner) {c : ℕ} (hc : c = 0 ∨ e.nodeId < c)
    (hno : ∀ f ∈ log, f.parent ≠ e.nodeId) : GoodNode log ⟨.noType, false, e.nodeId, c⟩ :=
  ⟨⟨e, he, rfl, hi⟩, hc, fun h => (nomatch h),
    fun _ => ⟨fun h => (nomatch h), fun f hf hfp => absurd hfp (hno f hf)⟩⟩

end Append

namespace Sys

variable {s s' : Sys κ} {t : ThreadId}

section Bounds

variable (h : s.Orderly) (hs : Sound s.graph)

include h

theorem Orderly.entry_lt {e : LogEntry} (he : e ∈ s.graph.logged) :
    1 ≤ e.nodeId ∧ e.nodeId < s.graph.lastAllocatedNode :=
  h.tickets.used_lt e.nodeId (List.mem_map_of_mem he)

theorem Orderly.node_lt {n : AFTask} (hn : GoodNode s.graph.logged n) :
    1 ≤ n.nodeId ∧ n.nodeId < s.graph.lastAllocatedNode := by
  obtain ⟨p, hp, hpn, -⟩ := hn.inner
  rw [← hpn]
  exact h.entry_lt hp

/-- The other nodes in use are other nodes than the current one of a thread. -/
theorem Orderly.top_ne {curNode : AFTask} {rest : List AFTask}
    (hst : s.graph.curDpstIndex t = curNode :: rest) :
    (∀ m ∈ rest, m.nodeId ≠ curNode.nodeId) ∧
      (∀ u, u ≠ t → ∀ m ∈ s.graph.curDpstIndex u, m.nodeId ≠ curNode.nodeId) ∧
      ∀ k m, s.graph.tempCurMap k = some m → m.nodeId ≠ curNode.nodeId := by
  have hcur : curNode.nodeId ∈ nodes s.graph.curDpstIndex s.graph.tempCurMap (.inl t) := by
    show curNode.nodeId ∈ (s.graph.curDpstIndex t).map AFTask.nodeId
    rw [hst]
    exact List.mem_cons_self ..
  refine ⟨fun m hm he => ?_, fun u hu m hm he => ?_, fun k m hm he => ?_⟩
  · have hnd : ((s.graph.curDpstIndex t).map AFTask.nodeId).Nodup := h.separate.nodup (.inl t)
    rw [hst, List.map_cons, List.nodup_cons] at hnd
    exact hnd.1 (he ▸ List.mem_map_of_mem hm)
  · have hu' := h.separate.disjoint (.inl u) (.inl t) curNode.nodeId
      (he ▸ List.mem_map_of_mem (f := AFTask.nodeId) hm) hcur
    exact hu (Sum.inl.inj hu')
  · have hmem : curNode.nodeId ∈ nodes s.graph.curDpstIndex s.graph.tempCurMap (.inr k) := by
      show curNode.nodeId ∈ ((s.graph.tempCurMap k).map AFTask.nodeId).toList
      rw [hm, ← he]
      exact List.mem_singleton_self _
    have := h.separate.disjoint (.inr k) (.inl t) curNode.nodeId hmem hcur
    cases this

end Bounds

/-! ## What a step does to the entries -/

/-- A spawn leaves a sound graph if the entries it logs are in order, and its
    stack and the other nodes in use keep their promises. -/
theorem sound_spawned {G : AFTaskGraph} {k n : ℕ} {es : List LogEntry} {stk : List AFTask}
    {node : AFTask} (hsp : Spawned s.graph G t k n es stk node)
    (hg : Growing (s.graph.logged ++ es))
    (hstk : ∀ m ∈ stk, GoodNode (s.graph.logged ++ es) m)
    (hnode : GoodNode (s.graph.logged ++ es) node)
    (hstack : ∀ u, u ≠ t → ∀ m ∈ s.graph.curDpstIndex u, GoodNode (s.graph.logged ++ es) m)
    (htemp : ∀ j m, s.graph.tempCurMap j = some m → GoodNode (s.graph.logged ++ es) m)
    (hs : Sound s.graph) (hplain : node.syncFinishFlag = false) : Sound G where
  growing := by
    rw [hsp.logged]
    exact hg
  stack u m hm := by
    rw [hsp.logged]
    rw [hsp.curDpstIndex] at hm
    by_cases hu : u = t
    · rw [hu, Function.update_self] at hm
      exact hstk m hm
    · rw [Function.update_of_ne hu] at hm
      exact hstack u hu m hm
  temp j m hm := by
    rw [hsp.logged]
    rw [hsp.tempCurMap] at hm
    by_cases hj : j = k
    · rw [hj, Function.update_self, Option.some.injEq] at hm
      rw [← hm]
      exact hnode
    · rw [Function.update_of_ne hj] at hm
      exact htemp j m hm
  plain j m hm := by
    rw [hsp.tempCurMap] at hm
    by_cases hj : j = k
    · rw [hj, Function.update_self, Option.some.injEq] at hm
      rw [← hm]
      exact hplain
    · rw [Function.update_of_ne hj] at hm
      exact hs.plain j m hm

section Spawn

variable (h : s.Orderly) (hs : Sound s.graph) {curNode : AFTask} {rest : List AFTask}
  (hst : s.graph.curDpstIndex t = curNode :: rest)

include h hs hst

omit h in
theorem goodNode_top : GoodNode s.graph.logged curNode :=
  hs.stack t curNode (by rw [hst]; exact List.mem_cons_self ..)

omit h in
theorem goodNode_rest : ∀ m ∈ rest, GoodNode s.graph.logged m :=
  fun m hm => hs.stack t m (by rw [hst]; exact List.mem_cons_of_mem _ hm)

/-- An entry with the next id under the current node. -/
theorem growing_under {e : LogEntry} (hep : e.parent = curNode.nodeId)
    (hei : e.nodeId = s.graph.lastAllocatedNode)
    (ha : e.nodeType = .async → curNode.youngNsChild = .async) :
    Growing (s.graph.logged ++ [e]) := by
  have hcur := goodNode_top hs hst
  have hlt := h.node_lt hcur
  refine hs.growing.append ?_ ?_ ?_ ?_ ?_
  · omega
  · omega
  · obtain ⟨p, hp, hpn, hpi⟩ := hcur.inner
    exact ⟨p, hp, by rw [hpn, hep], hpi, by omega⟩
  · intro het
    obtain ⟨ho, hno⟩ := hcur.young (ha het)
    rw [hep]
    exact ⟨ho.append _, hno⟩
  · intro _ a ham
    rw [hei]
    exact (h.entry_lt ham).2

/-- An entry under the current node breaks no promise of the others. -/
theorem goodNode_others {e : LogEntry} (hep : e.parent = curNode.nodeId) :
    (∀ m ∈ rest, GoodNode (s.graph.logged ++ [e]) m) ∧
      (∀ u, u ≠ t → ∀ m ∈ s.graph.curDpstIndex u, GoodNode (s.graph.logged ++ [e]) m) ∧
      ∀ j m, s.graph.tempCurMap j = some m → GoodNode (s.graph.logged ++ [e]) m := by
  obtain ⟨h1, h2, h3⟩ := h.top_ne hst
  refine ⟨fun m hm => ?_, fun u hu m hm => ?_, fun j m hm => ?_⟩
  · exact (goodNode_rest hs hst m hm).append_other (by rw [hep]; exact h1 m hm)
  · exact (hs.stack u m hm).append_other (by rw [hep]; exact h2 u hu m hm)
  · exact (hs.temp j m hm).append_other (by rw [hep]; exact h3 j m hm)

/-- Nothing is logged under a node with the next id. -/
theorem parent_ne_next {e : LogEntry} (hep : e.parent = curNode.nodeId) :
    ∀ f ∈ s.graph.logged ++ [e], f.parent ≠ s.graph.lastAllocatedNode := by
  have hlt := h.node_lt (goodNode_top hs hst)
  intro f hf
  rcases List.mem_append.mp hf with hf | hf
  · exact hs.growing.parent_ne (h.next_notMem _ le_rfl) (by omega) f hf
  · rw [List.mem_singleton.mp hf, hep]
    omega

/-- A spawn below an implicit finish that has ASYNC children. -/
theorem sound_async {G : AFTaskGraph} {k n c d : ℕ} {address : SizeT}
    (hy : curNode.youngNsChild = .async) (hc : c = 0 ∨ curNode.nodeId < c)
    (hd : s.graph.lastAllocatedNode < d)
    (hsp : Spawned s.graph G t k n
      [⟨t, s.graph.lastAllocatedNode, curNode.nodeId, 0, .async, address⟩]
      ({ curNode with childId := c } :: rest) ⟨.noType, false, s.graph.lastAllocatedNode, d⟩) :
    Sound G := by
  obtain ⟨h1, h2, h3⟩ := goodNode_others h hs hst
    (e := ⟨t, s.graph.lastAllocatedNode, curNode.nodeId, 0, .async, address⟩) rfl
  have hcur := goodNode_top hs hst
  refine sound_spawned hsp (growing_under h hs hst rfl rfl fun _ => hy) ?_ ?_ h2 h3 hs rfl
  · intro m hm
    rcases List.mem_cons.mp hm with rfl | hm
    · refine (hcur.append fun _ => ⟨fun _ => ?_, fun hsync => ?_⟩).setChild hc
      · show NodeType.async ≠ .finish
        exact fun h => nomatch h
      · exact absurd hy (hcur.own hsync).1
    · exact h1 m hm
  · exact GoodNode.new (List.mem_append_right _ (List.mem_singleton_self _)) (.inl rfl) (.inr hd)
      (parent_ne_next h hs hst rfl)

omit h in
/-- The current node gets a FINISH child. -/
theorem goodNode_setYoung {e : LogEntry} (he : e.nodeType = .finish) :
    GoodNode (s.graph.logged ++ [e]) { curNode with youngNsChild := .finish } := by
  refine (goodNode_top hs hst).setYoung.append fun _ => ⟨?_, fun _ => ?_⟩
  · show NodeType.finish = .async → _
    exact fun h => nomatch h
  · rw [he]
    exact fun h => nomatch h

/-- `CaptureSpawnAndWait`. -/
theorem sound_root {G : AFTaskGraph} {k n d : ℕ} {address : SizeT}
    (hd : s.graph.lastAllocatedNode < d)
    (hsp : Spawned s.graph G t k n
      [⟨t, s.graph.lastAllocatedNode, curNode.nodeId, 0, .finish, address⟩]
      ({ curNode with youngNsChild := .finish } :: rest)
      ⟨.noType, false, s.graph.lastAllocatedNode, d⟩) : Sound G := by
  obtain ⟨h1, h2, h3⟩ := goodNode_others h hs hst
    (e := ⟨t, s.graph.lastAllocatedNode, curNode.nodeId, 0, .finish, address⟩) rfl
  refine sound_spawned hsp (growing_under h hs hst rfl rfl fun h => nomatch h) ?_ ?_ h2 h3 hs rfl
  · intro m hm
    rcases List.mem_cons.mp hm with rfl | hm
    · exact goodNode_setYoung hs hst rfl
    · exact h1 m hm
  · exact GoodNode.new (List.mem_append_right _ (List.mem_singleton_self _)) (.inr rfl) (.inr hd)
      (parent_ne_next h hs hst rfl)

/-- A spawn that opens an implicit finish. -/
theorem sound_open {G : AFTaskGraph} {k n c d : ℕ} {address : SizeT}
    (hc : c = 0 ∨ s.graph.lastAllocatedNode < c) (hd : s.graph.lastAllocatedNode + 1 < d)
    (hsp : Spawned s.graph G t k n
      [⟨t, s.graph.lastAllocatedNode, curNode.nodeId, 0, .finish, 0⟩,
        ⟨t, s.graph.lastAllocatedNode + 1, s.graph.lastAllocatedNode, 0, .async, address⟩]
      (⟨.async, true, s.graph.lastAllocatedNode, c⟩ ::
        { curNode with youngNsChild := .finish } :: rest)
      ⟨.noType, false, s.graph.lastAllocatedNode + 1, d⟩) : Sound G := by
  have hlt := h.node_lt (goodNode_top hs hst)
  obtain ⟨h1, h2, h3⟩ := goodNode_others h hs hst
    (e := ⟨t, s.graph.lastAllocatedNode, curNode.nodeId, 0, .finish, 0⟩) rfl
  have hg := growing_under h hs hst
    (e := ⟨t, s.graph.lastAllocatedNode, curNode.nodeId, 0, .finish, 0⟩) rfl rfl
    (fun h => nomatch h)
  have hnew := goodNode_setYoung hs hst
    (e := ⟨t, s.graph.lastAllocatedNode, curNode.nodeId, 0, .finish, 0⟩) rfl
  -- nothing is logged under the new node yet
  have hno := parent_ne_next h hs hst
    (e := ⟨t, s.graph.lastAllocatedNode, curNode.nodeId, 0, .finish, 0⟩) rfl
  generalize hF : (⟨t, s.graph.lastAllocatedNode, curNode.nodeId, 0, .finish, 0⟩ : LogEntry) = F
    at hsp h1 h2 h3 hg hnew hno
  generalize hA : (⟨t, s.graph.lastAllocatedNode + 1, s.graph.lastAllocatedNode, 0, .async,
    address⟩ : LogEntry) = A at hsp
  have hFmem : F ∈ s.graph.logged ++ [F] := List.mem_append_right _ (List.mem_singleton_self F)
  have hAp : A.parent = s.graph.lastAllocatedNode := by rw [← hA]
  have hAne : A.nodeType ≠ .finish := by rw [← hA]; exact fun h => nomatch h
  have hop : Opened (s.graph.logged ++ [F] ++ [A]) s.graph.lastAllocatedNode := by
    refine ⟨F, List.mem_append_left _ hFmem, ?_, ?_, by omega, ?_, A,
      List.mem_append_right _ (List.mem_singleton_self A), hAp, ?_, ?_⟩
    · rw [← hF]
    · rw [← hF]
    · rw [← hF]
    · rw [← hA]
    · rw [← hA]
  have hgrow : Growing (s.graph.logged ++ [F] ++ [A]) := by
    refine hg.append ?_ ?_ ?_ ?_ (fun h => absurd h hAne)
    · omega
    · rw [← hA]
      show s.graph.lastAllocatedNode + 1 ≠ 1
      omega
    · exact ⟨F, hFmem, by rw [← hF, ← hA], by rw [← hF]; exact .inr rfl,
        by rw [← hF, ← hA]; exact Nat.lt_succ_self _⟩
    · intro _
      rw [hAp]
      exact ⟨hop, fun f hf hfp => absurd hfp (hno f hf)⟩
  have hes : s.graph.logged ++ [F, A] = s.graph.logged ++ [F] ++ [A] := by
    rw [List.append_assoc, List.singleton_append]
  -- the nodes in use from before have smaller ids
  have hother : ∀ m, 1 ≤ m.nodeId ∧ m.nodeId < s.graph.lastAllocatedNode →
      GoodNode (s.graph.logged ++ [F]) m → GoodNode (s.graph.logged ++ [F] ++ [A]) m :=
    fun m hlt hm => hm.append_other (by rw [hAp]; omega)
  refine sound_spawned hsp ?_ ?_ ?_ ?_ ?_ hs rfl
  all_goals rw [hes]
  · exact hgrow
  · intro m hm
    rcases List.mem_cons.mp hm with rfl | hm
    · refine ⟨⟨F, List.mem_append_left _ hFmem, by rw [← hF], by rw [← hF]; exact .inr rfl⟩, hc,
        fun _ => ⟨hop, fun f hf hfp => ?_⟩, fun h => (nomatch h)⟩
      rcases List.mem_append.mp hf with hf | hf
      · exact absurd hfp (hno f hf)
      · rw [List.mem_singleton.mp hf]
        exact hAne
    · rcases List.mem_cons.mp hm with rfl | hm
      · exact hother _ hlt hnew
      · exact hother m (h.node_lt (goodNode_rest hs hst m hm)) (h1 m hm)
  · have hAmem : A ∈ s.graph.logged ++ [F] ++ [A] :=
      List.mem_append_right _ (List.mem_singleton_self A)
    have hnoA : ∀ f ∈ s.graph.logged ++ [F] ++ [A], f.parent ≠ A.nodeId := by
      intro f hf
      rw [← hA]
      show f.parent ≠ s.graph.lastAllocatedNode + 1
      rcases List.mem_append.mp hf with hf | hf
      · rcases List.mem_append.mp hf with hf | hf
        · exact hs.growing.parent_ne (h.next_notMem _ (Nat.le_succ _)) (Nat.succ_ne_zero _) f hf
        · rw [List.mem_singleton.mp hf, ← hF]
          show curNode.nodeId ≠ _
          omega
      · rw [List.mem_singleton.mp hf, hAp]
        omega
    rw [← hA] at hAmem hnoA ⊢
    exact GoodNode.new hAmem (.inl rfl) (.inr hd) hnoA
  · exact fun u hu m hm => hother m (h.node_lt (hs.stack u m hm)) (h2 u hu m hm)
  · exact fun j m hm => hother m (h.node_lt (hs.temp j m hm)) (h3 j m hm)

end Spawn

theorem sound_captured {call : Call κ} {G : AFTaskGraph} (h : s.Orderly) (hs : Sound s.graph)
    (hc : Captured s.graph G t (s.taskIdCtr + 1) call) : Sound G := by
  cases hc with
  | spawnAsync hst hy hsp =>
    have hlt := h.node_lt (goodNode_top hs hst)
    exact sound_async h hs hst hy (.inr (by omega)) (Nat.lt_succ_self _) hsp
  | spawnFinish hst hy hsp => exact sound_open h hs hst (.inr (by omega)) (Nat.lt_succ_self _) hsp
  | rootFinish hst hsp => exact sound_root h hs hst (Nat.lt_succ_self _) hsp
  | waitAsync hst hy hsp =>
    exact sound_async h hs hst hy (goodNode_top hs hst).child (Nat.lt_succ_self _) hsp
  | waitFinish hst hy hsp => exact sound_open h hs hst (.inl rfl) (Nat.lt_succ_self _) hsp

/-- A STEP under the current node, with the id reserved for it. -/
theorem sound_logStep {curNode : AFTask} {rest : List AFTask} {e : LogEntry} (h : s.Orderly)
    (hs : Sound s.graph) (hst : s.graph.curDpstIndex t = curNode :: rest)
    (hep : e.parent = curNode.nodeId) (hei : e.nodeId = curNode.childId)
    (het : e.nodeType = .step) (h0 : curNode.childId ≠ 0) :
    Sound (s.graph.advance 0 [e]) where
  growing := by
    have hcur := goodNode_top hs hst
    have hlt := h.node_lt hcur
    have hchild := hcur.child
    refine hs.growing.append ?_ ?_ ?_ ?_ ?_
    · omega
    · omega
    · obtain ⟨p, hp, hpn, hpi⟩ := hcur.inner
      exact ⟨p, hp, by rw [hpn, hep], hpi, by omega⟩
    · intro ha
      rw [het] at ha
      cases ha
    · intro hf
      rw [het] at hf
      cases hf
  stack u m hm := (hs.stack u m hm).append_step het
  temp j m hm := (hs.temp j m hm).append_step het
  plain := hs.plain

theorem sound_step {e : Event κ} (h : s.Orderly) (hs : Sound s.graph) (he : s.Step e s') :
    Sound s'.graph := by
  -- a thread gets another stack
  have hset : ∀ t stk, (∀ m ∈ stk, GoodNode s.graph.logged m) →
      ∀ u, ∀ m ∈ Function.update s.graph.curDpstIndex t stk u, GoodNode s.graph.logged m := by
    intro t stk hstk u m hm
    by_cases hu : u = t
    · rw [hu, Function.update_self] at hm
      exact hstk m hm
    · rw [Function.update_of_ne hu] at hm
      exact hs.stack u m hm
  -- the reserved id is a number that was handed out
  have hid : ∀ t a rest curNode stk, s.threads t = a :: rest → a.phase = .running →
      s.graph.curDpstIndex t = curNode :: stk → curNode.childId ≠ 0 := by
    intro t a rest curNode stk ht hp hst
    have hheld : s.tickets.held (.inl t) = some curNode.childId := by
      show stepId (s.threads t) (s.graph.curDpstIndex t) = _
      rw [ht, hst, stepId_running hp]
    have := (h.tickets.held_lt _ _ hheld).1
    omega
  cases e with
  | work t w code =>
    obtain ⟨a, rest, ht, hp, rfl⟩ := step_work he
    exact hs
  | entry t call code =>
    obtain ⟨a, rest, curNode, stk, ht, hp, -, hst, rfl⟩ := step_entry he
    exact sound_logStep h hs hst rfl rfl rfl (hid t a rest curNode stk ht hp hst)
  | register t =>
    obtain ⟨a, rest, call, phase, effect, body, G, ht, hp, hr, hc, rfl⟩ :=
      step_register he (h.fresh _ (Nat.lt_succ_self _))
    exact sound_captured h hs hc
  | execute t k =>
    obtain ⟨body, node, hc, hb, hn, rfl⟩ := step_execute he
    -- the other pending tasks
    have htemp : ∀ j m, Function.update s.graph.tempCurMap k none j = some m →
        s.graph.tempCurMap j = some m := by
      intro j m hm
      by_cases hj : j = k
      · rw [hj, Function.update_self] at hm
        cases hm
      · rwa [Function.update_of_ne hj] at hm
    refine ⟨hs.growing, hset t _ fun m hm => ?_, fun j m hm => hs.temp j m (htemp j m hm),
      fun j m hm => hs.plain j m (htemp j m hm)⟩
    rcases List.mem_cons.mp hm with rfl | hm
    · exact hs.temp k m hn
    · exact hs.stack t m hm
  | resume t =>
    obtain ⟨a, rest, ht, ⟨hp, curNode, stk, hst, rfl⟩ | ⟨hp, node, curNode, stk, hst, rfl⟩⟩ :=
      step_resume he
    all_goals
      have hmem : ∀ m ∈ curNode :: stk, GoodNode s.graph.logged m := by
        intro m hm
        refine hs.stack t m ?_
        rw [hst]
        first | exact hm | exact List.mem_cons_of_mem _ hm
      have hcur := hmem curNode (List.mem_cons_self ..)
      have hlt := h.node_lt hcur
      have hstk := hset t ({ curNode with childId := s.graph.lastAllocatedNode } :: stk) (by
        intro m hm
        rcases List.mem_cons.mp hm with rfl | hm
        · exact hcur.setChild (.inr hlt.2)
        · exact hmem m (List.mem_cons_of_mem _ hm))
      rw [← List.append_nil s.graph.logged] at hstk
      refine ⟨?_, hstk, ?_, hs.plain⟩
      · show Growing (s.graph.logged ++ [])
        rw [List.append_nil]
        exact hs.growing
      · show ∀ k n, s.graph.tempCurMap k = some n → GoodNode (s.graph.logged ++ []) n
        rw [List.append_nil]
        exact hs.temp
  | leave t =>
    obtain ⟨a, rest, curNode, stk, ht, hp, hst, ⟨-, rfl⟩ | ⟨-, node, stk', rfl, rfl⟩⟩ :=
      step_leave he
    · refine ⟨hs.growing, hset t _ fun m hm => hs.stack t m ?_, hs.temp, hs.plain⟩
      rw [hst]
      exact List.mem_cons_of_mem _ hm
    · refine ⟨hs.growing, hset t _ fun m hm => hs.stack t m ?_, hs.temp, hs.plain⟩
      rw [hst]
      exact List.mem_cons_of_mem _ (List.mem_cons_of_mem _ hm)
  | fini =>
    obtain ⟨a, curNode, stk, ht, hp, hq, hst, rfl⟩ := step_fini he
    exact sound_logStep h hs hst rfl rfl rfl (hid 0 a [] curNode stk ht hp hst)

/-! ## Children -/

/-- A STEP under node `i` is still to come. -/
def Awaits (threads : ThreadId → List (Activation κ)) (dpst : ThreadId → List AFTask)
    (temp : ℕ → Option AFTask) (i : ℕ) : Prop :=
  (∃ k n, temp k = some n ∧ n.nodeId = i) ∨
    ∃ t n, stepNode (threads t) (dpst t) = some n ∧ n.nodeId = i

/-- Every inner entry has a child or awaits one. -/
def Fertile (s : Sys κ) : Prop :=
  ∀ e ∈ s.graph.logged, e.Inner → (∃ c ∈ s.graph.logged, c.parent = e.nodeId) ∨
    Awaits s.threads s.graph.curDpstIndex s.graph.tempCurMap e.nodeId

/-- A thread without a next STEP may move on. -/
theorem Awaits.update {threads : ThreadId → List (Activation κ)} {dpst : ThreadId → List AFTask}
    {temp : ℕ → Option AFTask} {i : ℕ} (h : Awaits threads dpst temp i)
    (ht : stepNode (threads t) (dpst t) = none) (l : List (Activation κ)) (stk : List AFTask) :
    Awaits (Function.update threads t l) (Function.update dpst t stk) temp i := by
  rcases h with h | ⟨u, n, hu, hn⟩
  · exact .inl h
  · refine .inr ⟨u, n, ?_, hn⟩
    have hut : u ≠ t := by
      intro hut
      rw [hut, ht] at hu
      cases hu
    rw [Function.update_of_ne hut, Function.update_of_ne hut]
    exact hu

/-- The node of a new task awaits its first STEP. -/
theorem Awaits.insert {threads : ThreadId → List (Activation κ)} {dpst : ThreadId → List AFTask}
    {temp : ℕ → Option AFTask} {i k : ℕ} (h : Awaits threads dpst temp i)
    (hk : temp k = none) (node : AFTask) :
    Awaits threads dpst (Function.update temp k (some node)) i := by
  rcases h with ⟨j, n, hj, hn⟩ | h
  · refine .inl ⟨j, n, ?_, hn⟩
    have hjk : j ≠ k := by
      intro hjk
      rw [hjk, hk] at hj
      cases hj
    rw [Function.update_of_ne hjk]
    exact hj
  · exact .inr h

theorem fertile_captured {call : Call κ} {G : AFTaskGraph} (h : s.Orderly) (hf : s.Fertile)
    (ht : stepNode (s.threads t) (s.graph.curDpstIndex t) = none)
    (hc : Captured s.graph G t (s.taskIdCtr + 1) call) (l : List (Activation κ)) :
    ∀ e ∈ G.logged, e.Inner → (∃ c ∈ G.logged, c.parent = e.nodeId) ∨
      Awaits (Function.update s.threads t l) G.curDpstIndex G.tempCurMap e.nodeId := by
  have hk := h.fresh _ (Nat.lt_succ_self s.taskIdCtr)
  -- the entries from before
  have hold : ∀ {n es stk node}, Spawned s.graph G t (s.taskIdCtr + 1) n es stk node →
      ∀ e ∈ s.graph.logged, e.Inner → (∃ c ∈ G.logged, c.parent = e.nodeId) ∨
        Awaits (Function.update s.threads t l) G.curDpstIndex G.tempCurMap
          e.nodeId := by
    intro n es stk node hsp e he hi
    rcases hf e he hi with ⟨c, hc, hce⟩ | ha
    · refine .inl ⟨c, ?_, hce⟩
      rw [hsp.logged]
      exact List.mem_append_left _ hc
    · refine .inr ?_
      rw [hsp.curDpstIndex, hsp.tempCurMap]
      exact (ha.update ht _ _).insert hk node
  -- the node of the new task
  have hnew : ∀ {n es stk node}, Spawned s.graph G t (s.taskIdCtr + 1) n es stk node →
      Awaits (Function.update s.threads t l) G.curDpstIndex G.tempCurMap
        node.nodeId := by
    intro n es stk node hsp
    refine .inl ⟨s.taskIdCtr + 1, node, ?_, rfl⟩
    rw [hsp.tempCurMap, Function.update_self]
  have hone : ∀ {n e' stk node}, Spawned s.graph G t (s.taskIdCtr + 1) n [e'] stk node →
      node.nodeId = e'.nodeId → ∀ e ∈ G.logged, e.Inner →
      (∃ c ∈ G.logged, c.parent = e.nodeId) ∨
        Awaits (Function.update s.threads t l) G.curDpstIndex G.tempCurMap
          e.nodeId := by
    intro n e' stk node hsp hn e he hi
    rw [hsp.logged] at he
    rcases List.mem_append.mp he with he | he
    · exact hold hsp e he hi
    · rw [List.mem_singleton.mp he, ← hn]
      exact .inr (hnew hsp)
  have htwo : ∀ {n F A stk node}, Spawned s.graph G t (s.taskIdCtr + 1) n [F, A] stk node →
      A.parent = F.nodeId → node.nodeId = A.nodeId → ∀ e ∈ G.logged, e.Inner →
      (∃ c ∈ G.logged, c.parent = e.nodeId) ∨
        Awaits (Function.update s.threads t l) G.curDpstIndex G.tempCurMap
          e.nodeId := by
    intro n F A stk node hsp hA hn e he hi
    rw [hsp.logged] at he
    rcases List.mem_append.mp he with he | he
    · exact hold hsp e he hi
    · rcases List.mem_cons.mp he with rfl | he
      · refine .inl ⟨A, ?_, hA⟩
        rw [hsp.logged]
        exact List.mem_append_right _ (List.mem_cons_of_mem _ (List.mem_singleton_self A))
      · rw [List.mem_singleton.mp he, ← hn]
        exact .inr (hnew hsp)
  cases hc with
  | spawnAsync hst hy hsp => exact hone hsp rfl
  | spawnFinish hst hy hsp => exact htwo hsp rfl rfl
  | rootFinish hst hsp => exact hone hsp rfl
  | waitAsync hst hy hsp => exact hone hsp rfl
  | waitFinish hst hy hsp => exact htwo hsp rfl rfl

theorem fertile_step {e : Event κ} (h : s.Orderly) (hf : s.Fertile) (he : s.Step e s') :
    s'.Fertile := by
  have hidle : ∀ t a rest, s.threads t = a :: rest → a.phase ≠ .running →
      stepNode (s.threads t) (s.graph.curDpstIndex t) = none := by
    intro t a rest ht hp
    rw [ht, stepNode_of_ne hp]
  -- a STEP is logged under the node that awaits it
  have hlog : ∀ t a rest curNode stk (d : LogEntry) l, s.threads t = a :: rest →
      a.phase = .running → s.graph.curDpstIndex t = curNode :: stk → d.parent = curNode.nodeId →
      d.nodeType = .step → ∀ e ∈ s.graph.logged ++ [d], e.Inner →
      (∃ c ∈ s.graph.logged ++ [d], c.parent = e.nodeId) ∨
        Awaits (Function.update s.threads t l) s.graph.curDpstIndex s.graph.tempCurMap
          e.nodeId := by
    intro t a rest curNode stk d l ht hp hst hdp hdt e he hi
    rcases List.mem_append.mp he with he | he
    · rcases hf e he hi with ⟨c, hc, hce⟩ | ha | ⟨u, n, hu, hn⟩
      · exact .inl ⟨c, List.mem_append_left _ hc, hce⟩
      · exact .inr (.inl ha)
      · by_cases hut : u = t
        · rw [hut, ht, hst, stepNode_running hp, Option.some.injEq] at hu
          rw [← hn, ← hu, ← hdp]
          exact .inl ⟨d, List.mem_append_right _ (List.mem_singleton_self d), rfl⟩
        · refine .inr (.inr ⟨u, n, ?_, hn⟩)
          rw [Function.update_of_ne hut]
          exact hu
    · rw [List.mem_singleton.mp he] at hi
      rcases hi with hi | hi <;> rw [hdt] at hi <;> cases hi
  cases e with
  | work t w code =>
    obtain ⟨a, rest, ht, hp, rfl⟩ := step_work he
    intro e he hi
    rcases hf e he hi with hc | ha | ⟨u, n, hu, hn⟩
    · exact .inl hc
    · exact .inr (.inl ha)
    · refine .inr (.inr ⟨u, n, ?_, hn⟩)
      show stepNode (Function.update s.threads t _ u) (s.graph.curDpstIndex u) = _
      by_cases hut : u = t
      · rw [hut, ht] at hu
        rw [hut, Function.update_self, stepNode_congr (a := { a with code := code }) (b := a) rfl rest rest]
        exact hu
      · rw [Function.update_of_ne hut]
        exact hu
  | entry t call code =>
    obtain ⟨a, rest, curNode, stk, ht, hp, -, hst, rfl⟩ := step_entry he
    exact hlog t a rest curNode stk _ _ ht hp hst rfl rfl
  | register t =>
    obtain ⟨a, rest, call, phase, effect, body, G, ht, hp, hr, hc, rfl⟩ :=
      step_register he (h.fresh _ (Nat.lt_succ_self _))
    have hne := hidle t a rest ht (by rw [hp]; exact fun h => nomatch h)
    have hv := fertile_captured h hf hne hc
      ({ a with phase := phase, effects := a.effects ++ [effect] } :: rest)
    exact hv
  | execute t k =>
    obtain ⟨body, node, hc, hb, hn, rfl⟩ := step_execute he
    intro e he hi
    rcases hf e he hi with hch | ⟨j, n, hj, hne⟩ | ha
    · exact .inl hch
    · by_cases hjk : j = k
      · -- the started task takes its node along
        rw [hjk, hn, Option.some.injEq] at hj
        refine .inr (.inr ⟨t, node, ?_, by rw [hj]; exact hne⟩)
        show stepNode (Function.update s.threads t _ t)
          (Function.update s.graph.curDpstIndex t _ t) = _
        rw [Function.update_self, Function.update_self]
        rfl
      · refine .inr (.inl ⟨j, n, ?_, hne⟩)
        show Function.update s.graph.tempCurMap k none j = _
        rw [Function.update_of_ne hjk]
        exact hj
    · refine .inr ?_
      have ha : Awaits s.threads s.graph.curDpstIndex (fun _ => none) e.nodeId := .inr ha
      rcases ha.update (stepNode_of_canExecute hc _) _ _ with ⟨j, n, hj, -⟩ | ha
      · cases hj
      · exact .inr ha
  | resume t =>
    obtain ⟨a, rest, ht, ⟨hp, curNode, stk, hst, rfl⟩ | ⟨hp, node, curNode, stk, hst, rfl⟩⟩ :=
      step_resume he
    all_goals
      intro e he hi
      have he : e ∈ s.graph.logged ++ [] := he
      rw [List.append_nil] at he
      have hne := hidle t a rest ht (by rw [hp]; exact fun h => nomatch h)
      show (∃ c ∈ s.graph.logged ++ [], c.parent = e.nodeId) ∨ _
      rw [List.append_nil]
      exact (hf e he hi).imp id fun ha => ha.update hne _ _
  | leave t =>
    obtain ⟨a, rest, curNode, stk, ht, hp, hst, ⟨-, rfl⟩ | ⟨-, node, stk', rfl, rfl⟩⟩ :=
      step_leave he
    all_goals
      intro e he hi
      have hne := hidle t a rest ht (by rw [hp]; exact fun h => nomatch h)
      exact (hf e he hi).imp id fun ha => ha.update hne _ _
  | fini =>
    obtain ⟨a, curNode, stk, ht, hp, hq, hst, rfl⟩ := step_fini he
    exact hlog 0 a [] curNode stk _ _ ht hp hst rfl rfl

/-! ## Every finished run -/

theorem sound_init (main : κ) : Sound (init main).graph where
  growing := by
    refine ⟨?_, ?_, ?_, ?_⟩
    all_goals
      intro e he
      rw [List.mem_singleton.mp he]
    · exact iff_of_true rfl rfl
    · exact fun h => absurd rfl h
    · exact fun h => nomatch h
    · exact fun _ _ _ h => nomatch h
  stack t m hm := by
    have hm : m ∈ Function.update (fun _ => []) 0 [(⟨.noType, false, 1, 2⟩ : AFTask)] t := hm
    by_cases ht : t = 0
    · rw [ht, Function.update_self] at hm
      rw [List.mem_singleton.mp hm]
      refine GoodNode.new (List.mem_singleton_self _) (.inr rfl) (.inr (Nat.lt_succ_self _)) ?_
      intro f hf
      rw [List.mem_singleton.mp hf]
      exact Nat.zero_ne_one
    · rw [Function.update_of_ne ht] at hm
      cases hm
  temp k m hm := nomatch hm
  plain k m hm := nomatch hm

theorem fertile_init (main : κ) : (init main).Fertile := by
  intro e he _
  rw [List.mem_singleton.mp he]
  exact .inr (.inr ⟨0, _, rfl, rfl⟩)

theorem Reachable.sound {main : κ} (h : Reachable main s) : Sound s.graph ∧ s.Fertile := by
  obtain ⟨es, hr⟩ := h
  have hinv : s.Orderly ∧ Sound s.graph ∧ s.Fertile :=
    hr.preserves (P := fun s => s.Orderly ∧ Sound s.graph ∧ s.Fertile)
      ⟨orderly_init main, sound_init main, fertile_init main⟩
      fun s e s' hs _ he => ⟨hs.1.step he, sound_step hs.1 hs.2.1 he, fertile_step hs.1 hs.2.2 he⟩
  exact hinv.2

/-- After `Fini` nothing is reserved and no node is pending. -/
theorem Orderly.released (h : s.Orderly) (hf : s.finished = true) :
    (∀ x, s.tickets.held x = none) ∧
      ∀ i, ¬Awaits s.threads s.graph.curDpstIndex s.graph.tempCurMap i := by
  obtain ⟨ht, hb⟩ := h.ended hf
  have hk : ∀ k, s.graph.tempCurMap k = none := fun k => (h.bodies k).mp (hb k)
  refine ⟨fun x => ?_, fun i hi => ?_⟩
  · rcases x with t | k
    · show stepId (s.threads t) (s.graph.curDpstIndex t) = none
      rw [ht t, stepId_nil]
    · show (s.graph.tempCurMap k).map AFTask.childId = none
      rw [hk k, Option.map_none]
  · rcases hi with ⟨k, n, hkn, -⟩ | ⟨t, n, htn, -⟩
    · rw [hk k] at hkn
      cases hkn
    · rw [ht t] at htn
      cases htn

/-- **The recorded tree.** Once `Fini` has run, the entries form a tree whose
    ids are `1 … last_allocated_node - 1`. -/
theorem recorded_tree {main : κ} (h : Reachable main s) (hf : s.finished = true) :
    TreeLog s.graph.logged (s.graph.lastAllocatedNode - 1) := by
  have ho := h.orderly
  obtain ⟨hs, hfert⟩ := h.sound
  obtain ⟨hheld, hawait⟩ := ho.released hf
  have hpos : 1 ≤ s.graph.lastAllocatedNode := ho.tickets.pos
  refine ⟨fun i => ?_, ho.tickets.nodup, hs.growing.root, hs.growing.parent, ?_, ?_,
    hs.growing.async_first⟩
  · have hmem := ho.tickets.mem_used_iff hheld i
    have hmem : i ∈ s.graph.logged.map LogEntry.nodeId ↔
        1 ≤ i ∧ i < s.graph.lastAllocatedNode := hmem
    rw [hmem]
    omega
  · intro e he hi
    rcases hfert e he hi with hc | ha
    · exact hc
    · exact absurd ha (hawait _)
  · intro e he hea
    obtain ⟨p, hp, hpe, hpt, hp1, hpr, c, hc, hcp, hct, hci⟩ := hs.growing.opened e he hea
    refine ⟨p, hp, hpe, hpt, by rw [hpe]; exact hp1, hpr, c, hc, by rw [hcp, hpe], hct, ?_⟩
    -- a child has a larger id than the node, and the first ASYNC has the next one
    intro d hd hdp
    have hd1 : d.nodeId ≠ 1 := by
      intro hd1
      have h0 := (hs.growing.root d hd).mpr hd1
      have := (ho.entry_lt hp).1
      omega
    obtain ⟨q, hq, hqd, -, hlt⟩ := hs.growing.parent d hd hd1
    rw [hci, ← hpe, ← hdp, ← hqd]
    exact hlt

/-- `main` spawns a task, thread 1 runs it, `main` waits and ends. -/
def forkRun : List (Event Unit) :=
  [.work 0 3 (), .entry 0 (.spawn ⟨64, some ['a'], 7, false⟩ ()) (), .register 0, .execute 1 1,
    .work 0 2 (), .entry 0 .waitForAll (), .work 1 5 (), .entry 1 .ret (), .leave 1, .resume 0,
    .work 0 4 (), .fini]

theorem forkRun_recorded : ∃ s, exec (fun _ _ => true) (init ()) forkRun = some s ∧
    TreeLog s.graph.logged (s.graph.lastAllocatedNode - 1) := by
  obtain ⟨s, hs⟩ := Option.isSome_iff_exists.mp
    (show (exec (fun _ _ => true) (init ()) forkRun).isSome = true by decide)
  have hf : (exec (fun _ _ => true) (init ()) forkRun).map Sys.finished = some true := by decide
  rw [hs, Option.map_some, Option.some.injEq] at hf
  exact ⟨s, hs, recorded_tree (run_of_exec hs).reachable hf⟩

end Sys

end TaskProf.Collection
