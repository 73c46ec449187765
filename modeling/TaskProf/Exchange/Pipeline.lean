import TaskProf.Analysis.CriticalPath
import TaskProf.Analysis.Report
import TaskProf.Exchange.CallSites
import TaskProf.Exchange.Files
import TaskProf.Exchange.RegionBound

/-!
# From a run to its profile

A run of an instrumented program is logged, the log is read, and the profile is
computed.

* `RecordedTree`: what every finished run leaves.
* `RecordedTree.typedGraph`: the graph of the lines is one that the analysis is
  right about.
* `profile_of_run`: the profile of every short run has the work and the critical
  path of the run.
-/

namespace TaskProf.Analysis

open Collection (LogEntry StepWorkData TaskLogger Growing Short Iterates GraphOp linesOf
  logCalls dumpCallsiteInfo)

/-! ## The recorded tree -/

/-- The log of a tree with the ids `1 … n`, below a FINISH node, in which the inner
    nodes have children and the ids fit into the node array. -/
structure RecordedTree (log : List LogEntry) (n : ℕ) : Prop extends Growing log where
  ids : ∀ i, i ∈ log.map LogEntry.nodeId ↔ 1 ≤ i ∧ i ≤ n
  nodup : (log.map LogEntry.nodeId).Nodup
  child : ∀ e ∈ log, e.Inner → ∃ c ∈ log, c.parent = e.nodeId
  typed : ∀ e ∈ log, e.nodeType ≠ .noType
  head : ⟨0, 1, 0, 0, .finish, 0⟩ ∈ log
  fits : n < numGraphNodes

/-- The graph of the lines, with the call sites that the lookups find. -/
def recordedGraph (log : List LogEntry) (callSiteMap : SizeT → Option CallSiteData) :
    AFTaskGraph :=
  { graphOf (log.map LogEntry.data) with callSiteMap := callSiteMap }

/-- The work of the STEP entries. -/
def loggedWork (log : List LogEntry) : ℕ :=
  (log.map fun e => if e.nodeType = .step then e.work.toNat else 0).sum

/-- The ids number the entries. -/
theorem length_eq_of_ids {log : List LogEntry} {n : ℕ}
    (hids : ∀ i, i ∈ log.map LogEntry.nodeId ↔ 1 ≤ i ∧ i ≤ n)
    (hnodup : (log.map LogEntry.nodeId).Nodup) : log.length = n := by
  have hset : (log.map LogEntry.nodeId).toFinset = Finset.Icc 1 n := by
    ext i
    rw [List.mem_toFinset, hids, Finset.mem_Icc]
  have hcard := List.toFinset_card_of_nodup hnodup
  rw [hset, Nat.card_Icc, List.length_map] at hcard
  omega

namespace RecordedTree

variable {log : List LogEntry} {n : ℕ} {callSiteMap : SizeT → Option CallSiteData}
  {e : LogEntry}

theorem id_mem (h : RecordedTree log n) (he : e ∈ log) : 1 ≤ e.nodeId ∧ e.nodeId ≤ n :=
  (h.ids _).mp (List.mem_map_of_mem he)

theorem id_toNat (h : RecordedTree log n) (he : e ∈ log) :
    (BitVec.ofNat 64 e.nodeId).toNat = e.nodeId := by
  have := h.id_mem he
  have := h.fits
  exact toNat_ofNat_of_lt (by omega)

theorem parent_le (h : RecordedTree log n) (he : e ∈ log) : e.parent ≤ n := by
  by_cases h1 : e.nodeId = 1
  · rw [(h.root e he).mpr h1]
    omega
  · obtain ⟨p, hp, hpe, -, -⟩ := h.parent e he h1
    rw [← hpe]
    exact (h.id_mem hp).2

theorem parent_toNat (h : RecordedTree log n) (he : e ∈ log) :
    (BitVec.ofNat 64 e.parent).toNat = e.parent := by
  have := h.parent_le he
  have := h.fits
  exact toNat_ofNat_of_lt (by omega)

theorem log_nodup (h : RecordedTree log n) : log.Nodup := h.nodup.of_map _

theorem eq_of_nodeId (h : RecordedTree log n) {e' : LogEntry} (he : e ∈ log) (he' : e' ∈ log)
    (heq : e.nodeId = e'.nodeId) : e = e' :=
  List.inj_on_of_nodup_map h.nodup he he' heq

/-- The lines make a graph. -/
theorem wellLogged (h : RecordedTree log n) : WellLogged (log.map LogEntry.data) where
  readable := by
    intro e' he'
    obtain ⟨e, he, rfl⟩ := List.mem_map.mp he'
    have hid := h.id_mem he
    have hparent := h.parent_le he
    have hfits := h.fits
    refine ⟨?_, ?_, ?_, h.typed e he, by simp⟩
    · rw [LogEntry.data_nodeId, h.id_toNat he]
      omega
    · rw [LogEntry.data_nodeId, h.id_toNat he]
      omega
    · rw [LogEntry.data_stepParent, h.parent_toNat he]
      omega
  nodup := by
    rw [List.map_map]
    refine List.Nodup.map_on (fun e he e' he' heq => ?_) h.log_nodup
    apply h.eq_of_nodeId he he'
    rw [← h.id_toNat he, ← h.id_toNat he']
    exact congrArg BitVec.toNat heq

theorem node_iff (h : RecordedTree log n) {i : ℕ} :
    (recordedGraph log callSiteMap).shape.Node i ↔ ∃ e ∈ log, e.nodeId = i := by
  have hsize : (recordedGraph log callSiteMap).shape.size = n := by
    show (graphOf (log.map LogEntry.data)).lastAllocatedNode = n
    unfold graphOf
    rw [foldl_addEntry_lastAllocatedNode, List.length_map, length_eq_of_ids h.ids h.nodup]
    exact Nat.zero_add n
  unfold Shape.Node
  rw [hsize, ← h.ids, List.mem_map]

/-- The node of an entry. -/
theorem node_eq (h : RecordedTree log n) (he : e ∈ log) :
    (recordedGraph log callSiteMap).tgraphNodes e.nodeId =
      { spRootNWtFlag := decide (e.nodeType = .finish ∧ e.retAddr ≠ 0)
        parent := e.parent
        type := e.nodeType
        numChildren := log.countP fun c => c.parent = e.nodeId
        tProf := { ProfilerData.zero with work := if e.nodeType = .step then e.work else 0 }
        callSite := e.retAddr } := by
  have hnode := graphOf_of_mem h.wellLogged (List.mem_map_of_mem he)
  rw [LogEntry.data_nodeId, h.id_toNat he] at hnode
  have hcount : (log.map LogEntry.data).countP
      (fun c => c.stepParent = BitVec.ofNat 64 e.nodeId) =
        log.countP fun c => c.parent = e.nodeId := by
    rw [List.countP_map]
    apply List.countP_congr
    intro c hc
    rw [Function.comp_apply, decide_eq_true_iff, decide_eq_true_iff, LogEntry.data_stepParent,
      ← BitVec.toNat_inj, h.parent_toNat hc, h.id_toNat he]
  show (graphOf (log.map LogEntry.data)).tgraphNodes e.nodeId = _
  rw [hnode, hcount]
  unfold nodeOf
  rw [LogEntry.data_stepParent, h.parent_toNat he]
  simp only [LogEntry.data_nodeType, LogEntry.data_retAddr, LogEntry.data_work,
    LogEntry.data_regionWork]
  by_cases ht : e.nodeType = .step <;> simp only [ht] <;> rfl

/-- The children of a node are the entries under it. -/
theorem mem_children (h : RecordedTree log n) {i c : ℕ} :
    c ∈ (recordedGraph log callSiteMap).shape.children i ↔
      ∃ e ∈ log, e.nodeId = c ∧ e.parent = i := by
  rw [Shape.mem_children, h.node_iff]
  constructor
  · rintro ⟨⟨e, he, rfl⟩, hp⟩
    rw [AFTaskGraph.shape_parent, h.node_eq he] at hp
    exact ⟨e, he, rfl, hp⟩
  · rintro ⟨e, he, rfl, hp⟩
    refine ⟨⟨e, he, rfl⟩, ?_⟩
    rw [AFTaskGraph.shape_parent, h.node_eq he]
    exact hp

theorem card_children (h : RecordedTree log n) (i : ℕ) :
    ((recordedGraph log callSiteMap).shape.children i).card = log.countP fun c => c.parent = i := by
  have hset : (recordedGraph log callSiteMap).shape.children i =
      ((log.filter fun c => c.parent = i).map LogEntry.nodeId).toFinset := by
    ext c
    rw [h.mem_children, List.mem_toFinset, List.mem_map]
    constructor
    · rintro ⟨e, he, hc, hp⟩
      exact ⟨e, List.mem_filter.mpr ⟨he, decide_eq_true hp⟩, hc⟩
    · rintro ⟨e, he, hc⟩
      obtain ⟨he, hp⟩ := List.mem_filter.mp he
      exact ⟨e, he, hc, of_decide_eq_true hp⟩
  have hnodup : ((log.filter fun c => c.parent = i).map LogEntry.nodeId).Nodup :=
    (List.filter_sublist.map LogEntry.nodeId).nodup h.nodup
  rw [hset, List.toFinset_card_of_nodup hnodup, List.length_map, ← List.countP_eq_length_filter]

/-- The shape of the graph is a tree. -/
theorem wellFormed (h : RecordedTree log n) :
    (recordedGraph log callSiteMap).shape.WellFormed := by
  have hparent : ∀ i, (recordedGraph log callSiteMap).shape.Node i → i ≠ 1 →
      1 ≤ (recordedGraph log callSiteMap).shape.parent i ∧
        (recordedGraph log callSiteMap).shape.parent i < i := by
    intro i hi h1
    obtain ⟨e, he, rfl⟩ := h.node_iff.mp hi
    obtain ⟨p, hp, hpe, -, hlt⟩ := h.parent e he h1
    have := h.id_mem hp
    rw [AFTaskGraph.shape_parent, h.node_eq he]
    dsimp only
    omega
  obtain ⟨c, hc, hcp⟩ := h.child _ h.head (.inr rfl)
  refine ⟨?_, ?_, fun i hi h1 => (hparent i hi h1).1, fun i hi h1 => (hparent i hi h1).2, ?_, ?_⟩
  · exact (h.node_iff.mpr ⟨_, h.head, rfl⟩).2
  · rw [AFTaskGraph.shape_parent]
    exact congrArg AFTask.parent (h.node_eq h.head)
  · intro i hi
    obtain ⟨e, he, rfl⟩ := h.node_iff.mp hi
    rw [h.card_children, AFTaskGraph.shape_arity, h.node_eq he]
  · have hnum : (recordedGraph log callSiteMap).shape.arity 1 = log.countP fun c => c.parent = 1 :=
      congrArg AFTask.numChildren (h.node_eq h.head)
    rw [hnum, ← Nat.pos_iff_ne_zero, List.countP_pos_iff]
    exact ⟨c, hc, decide_eq_true hcp⟩

/-- Every entry with a call site finds it. -/
def Resolved (log : List LogEntry) (callSiteMap : SizeT → Option CallSiteData) : Prop :=
  ∀ e ∈ log, e.retAddr ≠ 0 → callSiteMap e.retAddr ≠ none

/-- The work of the graph is the work of the entries. -/
theorem totalWork_eq (h : RecordedTree log n) :
    (recordedGraph log callSiteMap).totalWork = loggedWork log := by
  have hset : Finset.Icc 1 (recordedGraph log callSiteMap).lastAllocatedNode =
      (log.map LogEntry.nodeId).toFinset := by
    ext i
    have hnode : (recordedGraph log callSiteMap).shape.Node i ↔ ∃ e ∈ log, e.nodeId = i :=
      h.node_iff
    rw [List.mem_toFinset, List.mem_map, ← hnode, Finset.mem_Icc]
    rfl
  unfold AFTaskGraph.totalWork loggedWork
  rw [hset, List.sum_toFinset _ h.nodup, List.map_map]
  congr 1
  apply List.map_congr_left
  intro e he
  rw [Function.comp_apply, AFTaskGraph.stepWork, h.node_eq he]
  dsimp only
  split_ifs <;> rfl

/-- **The graph of a recorded tree.** The passes are right about it, if the call sites
    resolve and the work fits into a word. -/
theorem typedGraph (h : RecordedTree log n) (hsites : Resolved log callSiteMap)
    (hwork : loggedWork log < 2 ^ 64) : TypedGraph (recordedGraph log callSiteMap) where
  shape := h.wellFormed
  head := congrArg AFTask.type (h.node_eq h.head)
  has_child := by
    intro i hi ht
    obtain ⟨e, he, rfl⟩ := h.node_iff.mp hi
    rw [h.node_eq he] at ht ⊢
    dsimp only at ht ⊢
    have hinner : e.Inner := by
      have := h.typed e he
      unfold LogEntry.Inner
      cases hty : e.nodeType <;> simp_all
    obtain ⟨c, hc, hcp⟩ := h.child e he hinner
    rw [← Nat.pos_iff_ne_zero, List.countP_pos_iff]
    exact ⟨c, hc, decide_eq_true hcp⟩
  resolves := by
    intro i hi _ hflag
    obtain ⟨e, he, rfl⟩ := h.node_iff.mp hi
    rw [h.node_eq he] at hflag ⊢
    exact hsites e he (of_decide_eq_true hflag).2
  fresh := by
    intro i
    by_cases hi : ∃ e ∈ log, e.nodeId = i
    · obtain ⟨e, he, rfl⟩ := hi
      rw [h.node_eq he]
      unfold AFTask.Fresh
      by_cases ht : e.nodeType = .step <;> simp [ht, ProfilerData.zero]
    · have hnot : ∀ e ∈ log.map LogEntry.data, i ≠ e.nodeId.toNat := by
        intro e' he' hie
        obtain ⟨e, he, rfl⟩ := List.mem_map.mp he'
        rw [LogEntry.data_nodeId, h.id_toNat he] at hie
        exact hi ⟨e, he, hie.symm⟩
      show ((graphOf (log.map LogEntry.data)).tgraphNodes i).Fresh
      rw [graphOf_of_notMem hnot]
      rfl
  parent_not_step := by
    intro i hi h1
    obtain ⟨e, he, rfl⟩ := h.node_iff.mp hi
    obtain ⟨p, hp, hpe, hinner, -⟩ := h.parent e he h1
    rw [h.node_eq he]
    dsimp only
    rw [← hpe, h.node_eq hp]
    rcases hinner with ht | ht <;> simp [ht]
  finish_before_async := by
    -- an ASYNC node comes before its FINISH siblings
    intro f c x hf hc hfn hcn hp hlt _
    obtain ⟨ef, hef, rfl⟩ := h.node_iff.mp hfn
    obtain ⟨ec, hec, rfl⟩ := h.node_iff.mp hcn
    rw [h.node_eq hef, h.node_eq hec] at hp
    rw [h.node_eq hef] at hf
    rw [h.node_eq hec] at hc
    have := h.async_first ec hec ef hef hp.symm hc hf
    omega
  work_lt := by
    rw [h.totalWork_eq]
    exact hwork
  typed := by
    intro i hi
    obtain ⟨e, he, rfl⟩ := h.node_iff.mp hi
    rw [h.node_eq he]
    exact h.typed e he

end RecordedTree

/-! ## From a run to its profile -/

variable {G : AFTaskGraph}

/-- What `GenerateProfile` reports of the head. -/
theorem generateProfile_main {regionMap : List (SizeT × CallSiteData)}
    {st : Profile} {report : Report} (h : generateProfile G regionMap = .ok (st, report)) :
    ∃ st₁, calculateRecurse G (.init G) = .ok st₁ ∧
      report.main.work = (st₁.tProf 1).work ∧ report.totalWork = (st₁.tProf 1).work ∧
      report.main.span = (st₁.tProf 1).criticalChild := by
  unfold generateProfile at h
  obtain ⟨st₁, h1, h⟩ := bind_eq_ok.mp h
  obtain ⟨rows, -, h⟩ := bind_eq_ok.mp h
  obtain ⟨t, -, h⟩ := bind_eq_ok.mp h
  obtain ⟨-, rfl⟩ := Prod.mk.inj (Except.ok.inj h)
  exact ⟨st₁, h1, rfl, rfl, rfl⟩

/-- The profile of a typed graph whose sites resolve. -/
theorem TypedGraph.generateProfile (h : TypedGraph G) (regionMap : List (SizeT × CallSiteData))
    (hsites : ∀ n, G.shape.Node n → (G.tgraphNodes n).callSite ≠ 0 →
      G.callSiteMap (G.tgraphNodes n).callSite ≠ none) :
    ∃ st report, Analysis.generateProfile G regionMap = .ok (st, report) ∧
      report.totalWork.toNat = G.totalWork ∧ report.main.work.toNat = G.totalWork ∧
      report.main.span.toNat = crit G 1 := by
  have hroot := h.shape.root_node
  have hne : (G.tgraphNodes 1).type ≠ .step := by
    rw [h.head]
    decide
  obtain ⟨⟨st, report⟩, hrun⟩ := generateProfile_ok h.toRunnable regionMap hsites
  obtain ⟨st₁, h1, hwork, htotal, hspan⟩ := generateProfile_main hrun
  obtain ⟨st₂, h2, hres⟩ := h.calculateRecurse_result
  obtain rfl : st₁ = st₂ := Except.ok.inj (h1.symm.trans h2)
  obtain ⟨hcrit, hsum⟩ := hres 1 hroot hne
  rw [AFTaskGraph.subtreeWork_root h.shape] at hsum
  exact ⟨st, report, hrun, by rw [htotal, hsum], by rw [hwork, hsum], by rw [hspan, hcrit]⟩

section Runs

variable {κ : Type} {main : κ} {s s' : Collection.Sys κ} {es : List (Collection.Event κ)}
  {entries : List (SizeT × CallSiteData)}

/-- A short run has at most 32 rows of entries. -/
theorem length_le_of_short {log : List LogEntry} (h : Short log) : log.length ≤ 32 * 1023 := by
  have hlen := (flatMap_filter_perm log).length_eq
  rw [List.length_flatMap, ← Fin.sum_univ_def] at hlen
  rw [← hlen]
  calc ∑ t : Collection.ThreadId, (log.filter fun e => e.threadid = t).length
      ≤ ∑ _t : Collection.ThreadId, 1023 := by
        apply Finset.sum_le_sum
        intro t _
        have := h t
        unfold Collection.numEntries at this
        omega
    _ = 32 * 1023 := by simp

/-- Every finished short run leaves a recorded tree. -/
theorem recordedTree_of_run (h : Collection.Sys.Reachable main s) (hf : s.Step .fini s')
    (hshort : Short s.graph.logged) :
    RecordedTree s'.graph.logged (s'.graph.lastAllocatedNode - 1) := by
  have h' := h.step hf
  have ho := h'.orderly
  obtain ⟨hs, hfert⟩ := h'.sound
  obtain ⟨d, hlog, hfin⟩ : ∃ d, s'.graph.logged = s.graph.logged ++ [d] ∧ s'.finished = true := by
    obtain ⟨a, curNode, stk, -, -, -, -, rfl⟩ := Collection.Sys.step_fini hf
    exact ⟨_, rfl, rfl⟩
  obtain ⟨hheld, hawait⟩ := ho.released hfin
  have hpos : 1 ≤ s'.graph.lastAllocatedNode := ho.tickets.pos
  have hids : ∀ i, i ∈ s'.graph.logged.map LogEntry.nodeId ↔
      1 ≤ i ∧ i ≤ s'.graph.lastAllocatedNode - 1 := by
    intro i
    have hmem : i ∈ s'.graph.logged.map LogEntry.nodeId ↔
        1 ≤ i ∧ i < s'.graph.lastAllocatedNode := ho.tickets.mem_used_iff hheld i
    rw [hmem]
    omega
  have hlen := length_eq_of_ids hids ho.tickets.nodup
  have hle := length_le_of_short hshort
  rw [hlog, List.length_append, List.length_singleton] at hlen
  refine ⟨hs.growing, hids, ho.tickets.nodup, fun e he hi => ?_, h'.typed, h'.root_logged, ?_⟩
  · exact (hfert e he hi).resolve_right (hawait _)
  · unfold numGraphNodes
    omega

/-- The entries of the map of call sites are read back. -/
theorem entries_of_run (h : Collection.Sys.Run Collection.Sys.simpleCalls (.init main) es s)
    (hit : Iterates s.graph.callSiteMap entries) :
    ∃ m : CallSiteMap, loadCallSites [] (some (dumpCallsiteInfo entries)) = .ok m ∧
      ∀ e ∈ entries, m.lookup e.1 = some e.2 := by
  obtain ⟨ops, hrun, hops⟩ := h.operations
  -- the data of an entry come from a simple site
  have hsimple : ∀ e ∈ entries, reread e.2 = .ok e.2 ∧ '\n' ∉ e.2.csFilename := by
    intro e he
    have hd := (mem_entries_iff hrun hit e.1 e.2).mp he
    have hplain := Collection.plain_firstSite
      (fun op hop site hs => (hops op hop site hs).toPlain) hd
    exact ⟨reread_eq (Collection.comma_notMem_firstSite hops hd) hplain.1, hplain.2⟩
  have hload := loadCallSites_dump fun e he => (hsimple e he).2
  obtain ⟨m, hm⟩ := (foldlM_readCallSite_iff [] entries).mpr fun e he =>
    (exists_reread_iff e.2).mp ⟨e.2, (hsimple e he).1⟩
  exact ⟨m, hload.trans hm, fun e he =>
    lookup_of_foldlM hit.nodup (fun _ _ => rfl) hm he (hsimple e he).1⟩

/-- The call site of an entry of the log is in the map. -/
theorem exists_entry_of_run (h : Collection.Sys.Run Collection.Sys.simpleCalls (.init main) es s)
    (hit : Iterates s.graph.callSiteMap entries) :
    ∀ e ∈ s.graph.logged, e.retAddr ≠ 0 → ∃ d, (e.retAddr, d) ∈ entries := by
  intro e he hne
  obtain ⟨ops, hrun, -⟩ := h.operations
  have htracked := Collection.run_tracked hrun
  obtain ⟨d, hd⟩ := Option.ne_none_iff_exists'.mp (htracked.recorded e he hne)
  exact ⟨d, (hit.mem (e.retAddr, d)).mpr hd⟩

/-- The call sites of a run are read back. -/
theorem resolved_of_run (h : Collection.Sys.Run Collection.Sys.simpleCalls (.init main) es s)
    (hit : Iterates s.graph.callSiteMap entries) :
    ∃ m : CallSiteMap, loadCallSites [] (some (dumpCallsiteInfo entries)) = .ok m ∧
      RecordedTree.Resolved s.graph.logged (fun a => m.lookup a) := by
  obtain ⟨m, hload, hm⟩ := entries_of_run h hit
  refine ⟨m, hload, fun e he hne => ?_⟩
  obtain ⟨d, hd⟩ := exists_entry_of_run h hit e he hne
  show m.lookup e.retAddr ≠ none
  rw [hm _ hd]
  exact Option.some_ne_none d

/-- The files of a finished short run are read back. -/
theorem rebuilt_of_run
    (h : Collection.Sys.Run Collection.Sys.simpleCalls (.init main) es s) (hf : s.Step .fini s')
    (hshort : Short s.graph.logged) (hit : Iterates s'.graph.callSiteMap entries) :
    ∃ (d : LogEntry) (L : TaskLogger) (m : CallSiteMap),
      s'.graph.logged = s.graph.logged ++ [d] ∧
      TaskLogger.init.run (logCalls s.graph.logged) = .ok L ∧
      createDpst (folderOf (L.fini d.args)) =
        .ok (graphOf (s'.graph.logged.map LogEntry.data)) ∧
      loadCallSites [] (some (dumpCallsiteInfo entries)) = .ok m ∧
      RecordedTree.Resolved s'.graph.logged (fun a => m.lookup a) := by
  have hreach := h.reachable
  have h' : Collection.Sys.Run Collection.Sys.simpleCalls (.init main) (es ++ [.fini]) s' :=
    h.snoc (fun call hc => by cases hc) hf
  have htree := recordedTree_of_run hreach hf hshort
  obtain ⟨d, hlog, hd⟩ : ∃ d : LogEntry, s'.graph.logged = s.graph.logged ++ [d] ∧
      d.threadid = 0 := by
    obtain ⟨a, curNode, stk, -, -, -, -, rfl⟩ := Collection.Sys.step_fini hf
    exact ⟨_, rfl, rfl⟩
  obtain ⟨L, hrun, hL⟩ := TaskLogger.run_logCalls hshort
  obtain ⟨m, hm, hsites⟩ := resolved_of_run h' hit
  -- the files have the lines of all entries
  have hperm : (entriesOf (L.fini d.args)).Perm (s'.graph.logged.map LogEntry.data) := by
    rw [hL.fini hshort hd, hlog]
    exact entriesOf_linesOf _
  refine ⟨d, L, m, hlog, hrun, ?_, hm, hsites⟩
  rw [createDpst_folderOf (htree.wellLogged.perm hperm.symm), graphOf_perm htree.wellLogged hperm]

/-- The profile of a recorded tree. -/
theorem RecordedTree.generateProfile {log : List LogEntry} {n : ℕ}
    {callSiteMap : SizeT → Option CallSiteData} (h : RecordedTree log n)
    (hsites : Resolved log callSiteMap) (hwork : loggedWork log < 2 ^ 64)
    (regionMap : List (SizeT × CallSiteData)) :
    ∃ st report, Analysis.generateProfile (recordedGraph log callSiteMap) regionMap =
        .ok (st, report) ∧
      report.totalWork.toNat = loggedWork log ∧ report.main.work.toNat = loggedWork log ∧
      report.main.span.toNat = crit (recordedGraph log callSiteMap) 1 := by
  have hprofile := (h.typedGraph hsites hwork).generateProfile regionMap fun i hi hne => by
    obtain ⟨e, he, rfl⟩ := h.node_iff.mp hi
    rw [h.node_eq he] at hne ⊢
    exact hsites e he hne
  rw [h.totalWork_eq] at hprofile
  exact hprofile

/-- **From a run to its profile.** Let the threads run any program, in any order but one
    callback at a time, until `Fini`; no thread fills its row of the logger, the file names
    have no comma, and the steps work fewer than `2 ^ 64` cycles. The logger takes every
    call, `create_dpst` rebuilds every logged node from the files, the call sites are read
    back, and `GenerateProfile` returns: it reports the work of all steps, and as span the
    work of the heaviest chain of steps. -/
theorem profile_of_run
    (h : Collection.Sys.Run Collection.Sys.simpleCalls (.init main) es s) (hf : s.Step .fini s')
    (hshort : Short s.graph.logged) (hwork : loggedWork s'.graph.logged < 2 ^ 64)
    (hit : Iterates s'.graph.callSiteMap entries) :
    ∃ (d : LogEntry) (L : TaskLogger) (G : AFTaskGraph) (m : CallSiteMap),
      s'.graph.logged = s.graph.logged ++ [d] ∧
      TaskLogger.init.run (logCalls s.graph.logged) = .ok L ∧
      createDpst (folderOf (L.fini d.args)) = .ok G ∧
      (∀ e ∈ s'.graph.logged, (G.tgraphNodes e.nodeId).parent = e.parent ∧
        (G.tgraphNodes e.nodeId).type = e.nodeType ∧
        (G.tgraphNodes e.nodeId).callSite = e.retAddr ∧
        (e.nodeType = .step → (G.tgraphNodes e.nodeId).tProf.work = e.work)) ∧
      loadCallSites [] (some (dumpCallsiteInfo entries)) = .ok m ∧
      ∀ regionMap, ∃ st report,
        generateProfile { G with callSiteMap := fun a => m.lookup a } regionMap =
          .ok (st, report) ∧
        report.totalWork.toNat = loggedWork s'.graph.logged ∧
        report.main.work.toNat = loggedWork s'.graph.logged ∧
        IsGreatest {w | ∃ A, { G with callSiteMap := fun a => m.lookup a }.StepChain 1 A ∧
          ∑ x ∈ A, G.stepWork x = w} report.main.span.toNat := by
  have htree := recordedTree_of_run h.reachable hf hshort
  obtain ⟨d, L, m, hlog, hrun, hcreate, hm, hsites⟩ := rebuilt_of_run h hf hshort hit
  refine ⟨d, L, _, m, hlog, hrun, hcreate, fun e he => ?_, hm, fun regionMap => ?_⟩
  · have hnode : (graphOf (s'.graph.logged.map LogEntry.data)).tgraphNodes e.nodeId = _ :=
      htree.node_eq he
    rw [hnode]
    exact ⟨rfl, rfl, rfl, fun ht => if_pos ht⟩
  · have htyped := htree.typedGraph hsites hwork
    obtain ⟨st, report, hgen, htotal, hmain, hspan⟩ :=
      htree.generateProfile hsites hwork regionMap
    refine ⟨st, report, hgen, htotal, hmain, ?_⟩
    rw [hspan]
    have hgreatest := htyped.isCritical.isGreatest htyped.shape 1
    simp only [← htyped.stepChain_iff htyped.shape.root_node] at hgreatest
    exact hgreatest

end Runs

/-- The calls of a run are in line 7 of the file `a`. -/
def inFile (_ : Collection.Sys Unit) (e : Collection.Event Unit) : Bool :=
  match e.call.bind Collection.Call.site with
  | none => true
  | some site => decide (site.file = some ['a'] ∧ site.line = 7)

theorem simpleCalls_of_inFile {s : Collection.Sys Unit} {e : Collection.Event Unit}
    (h : inFile s e = true) : Collection.Sys.simpleCalls s e := by
  intro call hcall site hsite
  unfold inFile at h
  rw [hcall, Option.bind_some, hsite] at h
  obtain ⟨hfile, hline⟩ := of_decide_eq_true h
  refine ⟨⟨by rw [hline]; norm_num, fun file hf => ?_⟩, fun file hf => ?_⟩
  all_goals
    obtain rfl := Option.some.inj (hfile.symm.trans hf)
    decide

/-- The profile of `forkRun`. -/
theorem forkRun_profile : ∃ (d : LogEntry) (L : TaskLogger) (G : AFTaskGraph) (m : CallSiteMap)
    (st : Profile) (report : Report), createDpst (folderOf (L.fini d.args)) = .ok G ∧
      generateProfile { G with callSiteMap := fun a => m.lookup a } [] = .ok (st, report) ∧
      report.totalWork.toNat = 14 := by
  have hall : (Collection.Sys.exec inFile (.init ()) Collection.Sys.forkRun).map
      (fun s => (s.graph.logged.length, loggedWork s.graph.logged)) = some (7, 14) := by decide
  obtain ⟨s', hs', hnum⟩ := Option.map_eq_some_iff.mp hall
  obtain ⟨hlen, hwork⟩ := Prod.mk.inj hnum
  have hsplit : Collection.Sys.forkRun = Collection.Sys.forkRun.dropLast ++ [.fini] := rfl
  rw [hsplit] at hs'
  obtain ⟨s, hs, hlast⟩ := Collection.Sys.exec_append_eq_some hs'
  have hf : s.Step .fini s' := Collection.Sys.step_of_exec hlast
  have hrun := (Collection.Sys.run_of_exec hs).mono fun _ _ => simpleCalls_of_inFile
  have hshort : Short s.graph.logged := by
    have hprefix : s.graph.logged.length ≤ s'.graph.logged.length := by
      obtain ⟨a, curNode, stk, -, -, -, -, rfl⟩ := Collection.Sys.step_fini hf
      exact (List.prefix_append s.graph.logged _).length_le
    intro t
    have := List.length_filter_le (fun e => decide (e.threadid = t)) s.graph.logged
    unfold Collection.numEntries
    omega
  obtain ⟨ops, hops, -⟩ := (hrun.snoc (fun call hc => by cases hc) hf).operations
  obtain ⟨entries, hit⟩ := Collection.exists_iterates hops
  obtain ⟨d, L, G, m, -, -, hcreate, -, -, hgen⟩ :=
    profile_of_run hrun hf hshort (by rw [hwork]; decide) hit
  obtain ⟨st, report, hreport, htotal, -⟩ := hgen []
  exact ⟨d, L, G, m, st, report, hcreate, hreport, htotal.trans hwork⟩

end TaskProf.Analysis
