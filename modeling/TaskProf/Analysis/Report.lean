import TaskProf.Analysis.Sites
import TaskProf.Analysis.Speedup

/-!
# The report

`GenerateProfile` runs the first pass, writes one row for the program and one
for each call site, and then runs the region passes.

* `criticalCallSites_owned`: no map of critical call sites is shared, leaked into
  a second `delete` or used after it, and the head still has one afterwards.
* `work_conserved`: the work of a node is the work of the STEP nodes below it,
  after the first pass and any number of region passes; so is what
  `GenerateProfile` reports and returns.
-/

namespace TaskProf.Analysis

/-! ## The source functions -/

/-- A row of `ws_profile.csv`. The ratios it holds are quotients of these
    amounts; `critical` is `none` where the site is not on the critical path. -/
structure ReportRow where
  csFilename : List Char
  csLineNumber : ℤ
  work : SizeT
  span : SizeT
  critical : Option SizeT

/-- A row of `region_*.csv`: the factor, and the work and span whose quotient it
    holds. -/
structure RegionRow where
  parIncrease : BitVec 32
  work : SizeT
  span : SizeT

/-- `par_increase` in iteration `i` (lines 304–307): `PAR_INC_INIT` doubled `i`
    times. -/
def parIncrease (i : ℕ) : BitVec 32 := (List.range i).foldl (fun p _ => p * 2) 50

/-- The rows for one region, or for all of them if `region` is `0`
    (lines 300–319 and 334–352). -/
def reportRegion (G : AFTaskGraph) (st : Profile) (region : SizeT) :
    Except Fault (Profile × List RegionRow) :=
  (List.range 4).foldlM (fun s i => do
    let st ← regionPass G region (parIncrease i) s.1
    .ok (st, s.2 ++ [⟨parIncrease i, (st.tProf 1).work, (st.tProf 1).criticalChild⟩])) (st, [])

/-- `report_region_increase_par` (lines 285–356), with the entries of `regionMap`
    in the order of iteration. -/
def reportRegionIncreasePar (G : AFTaskGraph) (regionMap : List (SizeT × CallSiteData))
    (st : Profile) : Except Fault (Profile × List (List RegionRow)) := do
  let s ← regionMap.foldlM (fun s e => do
    let t ← reportRegion G s.1 e.1
    .ok (t.1, s.2 ++ [t.2])) (st, [])
  if regionMap.isEmpty = true then .ok s
  else do
    let t ← reportRegion G s.1 0
    .ok (t.1, s.2 ++ [t.2])

/-- What `GenerateProfile` writes and returns. -/
structure Report where
  main : ReportRow
  rows : List ReportRow
  regions : List (List RegionRow)
  totalWork : SizeT

/-- The row of a call site (lines 61–84). -/
def reportRow (G : AFTaskGraph) (st : Profile) (e : SizeT × WorkSpanData) :
    Except Fault ReportRow := do
  let callsiteData ← G.getSourceFileAndLine e.1
  let headCsData ← st.maps.read (st.tProf 1).criticalCallSites
  .ok ⟨callsiteData.csFilename, callsiteData.csLineNumber, e.2.work, e.2.span,
    headCsData.lookup e.1⟩

/-- `GenerateProfile` (lines 39–95), and the profile it ends with. -/
def generateProfile (G : AFTaskGraph) (regionMap : List (SizeT × CallSiteData)) :
    Except Fault (Profile × Report) := do
  let st ← calculateRecurse G (.init G)
  let head := st.tProf 1
  let rows ← st.workSpanMap.entries.mapM (reportRow G st)
  let s ← reportRegionIncreasePar G regionMap st
  .ok (s.1, {
    main := ⟨['m', 'a', 'i', 'n'], 0, head.work, head.criticalChild, some head.localLocalWork⟩
    rows := rows
    regions := s.2
    totalWork := head.work })

/-! ## The maps of critical call sites -/

/-- `critical_call_sites` of all nodes. -/
abbrev ptrsOf : (ℕ → ProfilerData) → ℕ → Option ℕ := fieldOf ProfilerData.criticalCallSites

/-- Closing a node without a parent leaves its map with it. -/
theorem finishCallSites_ptrs {G : AFTaskGraph} {st st' : Profile} {n p : ℕ}
    (h0 : (G.tgraphNodes n).parent = 0) (h : finishCallSites G st n p = .ok st') :
    ptrsOf st'.tProf = ptrsOf st.tProf := by
  unfold finishCallSites at h
  dsimp only at h
  split_ifs at h with hc hf hp
  · obtain ⟨d, -, h⟩ := bind_eq_ok.mp h
    split_ifs at h
    · obtain ⟨m, -, h⟩ := bind_eq_ok.mp h
      obtain ⟨maps, -, h⟩ := bind_eq_ok.mp h
      rw [insertCsData_tProf h]
      simp
    · rw [insertCsData_tProf h]
      simp
  · exact absurd h0 hp
  · rw [← Except.ok.inj h]
    simp
  · obtain ⟨m, -, h⟩ := bind_eq_ok.mp h
    rw [← Except.ok.inj h]
    simp

theorem calculateWorkSpan_ptrs {G : AFTaskGraph} {st st' : Profile} {n : ℕ}
    (ht : (G.tgraphNodes n).type = .finish) (h0 : (G.tgraphNodes n).parent = 0)
    (h : calculateWorkSpan G st n = .ok st') : ptrsOf st'.tProf = ptrsOf st.tProf := by
  simp only [calculateWorkSpan, ht, h0, ne_eq, not_true_eq_false, if_false] at h
  obtain ⟨st₁, h1, h⟩ := bind_eq_ok.mp h
  have hst₁ : ptrsOf st₁.tProf = ptrsOf st.tProf := by
    rw [finishCallSites_ptrs h0 h1]
    simp
  rw [← Except.ok.inj h, ← hst₁]
  simp

/-- The last event closes the head. -/
theorem schedule_eq_concat {S : Shape} (h : S.WellFormed) :
    ∃ P, S.schedule = P ++ [.finalise 1] := by
  have hmem : Event.finalise 1 ∈ S.schedule := (Shape.mem_schedule h).mpr h.root_node
  obtain ⟨P, Q, hPQ⟩ := List.append_of_mem hmem
  cases Q with
  | nil => exact ⟨P, hPQ⟩
  | cons e Q =>
    -- nothing happens after the head is closed
    exfalso
    have hpw := Shape.schedule_pairwise h
    rw [hPQ, List.pairwise_append, List.pairwise_cons] at hpw
    have hbefore := hpw.2.1.1 e (by simp)
    have he : e ∈ S.schedule := by rw [hPQ]; simp
    have hlast : ∀ n, S.Node n → S.last n ≤ S.last 1 := fun n hn =>
      (Shape.anc_root h hn).last_le h
    simp only [Shape.Before] at hbefore
    cases e with
    | visit n =>
      have hn := ((Shape.mem_schedule h).mp he).1
      have h1 := (hlast n hn).trans' (Shape.le_last h n)
      have h2 := h.size_pos
      simp only [Shape.position] at hbefore
      omega
    | finalise n =>
      have hn : S.Node n := (Shape.mem_schedule h).mp he
      have h1 := hlast n hn
      have h2 := hn.1
      simp only [Shape.position] at hbefore
      omega

/-- The profile after a prefix of the events. -/
theorem perform_tracks {G : AFTaskGraph} (h : Runnable G) {P : List Event}
    (hP : P <+: G.shape.schedule) :
    ∃ st, P.foldlM (passActions G).perform (.init G) = .ok st ∧ TracksLedger G P st := by
  refine Shape.prefix_induction (Q := fun P => ∃ st,
    P.foldlM (passActions G).perform (.init G) = .ok st ∧ TracksLedger G P st)
    ⟨.init G, rfl, .init h⟩ (fun P e hP ⟨st, h1, h2⟩ => ?_) hP
  obtain ⟨st', h3, h4⟩ := h2.perform h hP
  refine ⟨st', ?_, h4⟩
  rw [List.foldlM_append, h1]
  show [e].foldlM (passActions G).perform st = _
  rw [List.foldlM_cons, h3]
  rfl

/-- The head keeps a map. -/
theorem head_map {G : AFTaskGraph} (h : Runnable G) {st : Profile}
    (hrun : calculateRecurse G (.init G) = .ok st) :
    ∃ m, st.maps.read (st.tProf 1).criticalCallSites = .ok m := by
  have hw := h.shape
  obtain ⟨P, hP⟩ := schedule_eq_concat hw
  have hlast : P ++ [.finalise 1] <+: G.shape.schedule := by rw [hP]
  obtain ⟨st₁, h1, h2⟩ := perform_tracks h ((List.prefix_append _ _).trans hlast)
  obtain ⟨st₂, h3, h4⟩ := h2.perform h hlast
  obtain rfl : st₂ = st := by
    rw [calculateRecurse, Shape.sweep_eq_schedule hw, hP, List.foldlM_append, h1] at hrun
    obtain ⟨st₃, h5, hrun⟩ := bind_eq_ok.mp hrun
    obtain rfl := Except.ok.inj h5
    rw [List.foldlM_cons, h3] at hrun
    exact Except.ok.inj hrun
  -- the head is open until its own event, which leaves its map with it
  have hopen : OpenAfter P 1 := by
    refine ⟨(Shape.visited_before_finalise hw hlast).mpr ⟨hw.root_node, hw.root_arity, ?_⟩,
      Shape.not_mem_prefix_self hw hlast⟩
    exact Shape.le_last hw 1
  obtain ⟨st₄, h5, h6⟩ := bind_eq_ok.mp h3
  have hptr : ptrsOf st₂.tProf = ptrsOf st₁.tProf := by
    rw [updateWorkSpanMap_tProf h6, calculateWorkSpan_ptrs h.head hw.root h5]
  have hne : st₂.ptr 1 ≠ none := by
    show ptrsOf st₂.tProf 1 ≠ none
    rw [hptr]
    exact h2.tracks.held 1 hopen
  obtain ⟨q, m, hq, hm⟩ := h4.tracks.owned.get?_eq_some hne
  refine ⟨m, Store.read_eq ?_⟩
  show st₂.maps.get? (st₂.ptr 1) = some m
  rw [hq]
  exact hm

/-- **Ownership.** Through all of `calculateRecurse` every map of critical call
    sites has at most one node that points to it, and no null or deleted map is
    read, written or deleted; afterwards the head has a map. -/
theorem criticalCallSites_owned {G : AFTaskGraph} (h : Runnable G) :
    calculateRecurse G (.init G) = G.shape.schedule.foldlM (passActions G).perform (.init G) ∧
      (∀ P, P <+: G.shape.schedule → ∃ st,
        P.foldlM (passActions G).perform (.init G) = .ok st ∧ st.maps.Owned st.ptr) ∧
      ∃ st m, calculateRecurse G (.init G) = .ok st ∧
        st.maps.read (st.tProf 1).criticalCallSites = .ok m := by
  have heq := Shape.sweep_eq_schedule h.shape (passActions G) (.init G)
  refine ⟨heq, fun P hP => ?_, ?_⟩
  · obtain ⟨st, h1, h2⟩ := perform_tracks h hP
    exact ⟨st, h1, h2.tracks.owned⟩
  · obtain ⟨st, h1, -⟩ := perform_tracks h (P := G.shape.schedule) List.prefix_rfl
    have hrun : calculateRecurse G (.init G) = .ok st := heq.trans h1
    obtain ⟨m, hm⟩ := head_map h hrun
    exact ⟨st, m, hrun, hm⟩

theorem forkGraph_owned : ∃ st m, calculateRecurse forkGraph (.init forkGraph) = .ok st ∧
    st.maps.read (st.tProf 1).criticalCallSites = .ok m :=
  (criticalCallSites_owned forkGraph_spanGraph.toRunnable).2.2

/-! ## Work -/

/-- The work of a node, in every history. -/
theorem History.work {G : AFTaskGraph} (h : TaskTree G) {st : Profile} (hst : History G st) {n : ℕ}
    (hn : G.shape.Node n) : (st.tProf n).work = BitVec.ofNat 64 (G.subtreeWork n) := by
  have hw := h.shape
  induction hst with
  | @first st hrun =>
    obtain ⟨st', -, -, hrun', ht, -⟩ := calculateRecurseCalls_tracks h.toRunnable
    obtain rfl : st' = st := by
      rw [hrun'] at hrun
      exact Except.ok.inj hrun
    have hclosed : G.shape.closedIn G.shape.schedule n = G.shape.children n :=
      Finset.filter_true_of_mem fun c hc => (Shape.mem_schedule hw).mpr (Shape.mem_children.mp hc).1
    rw [ht.tracks.work, workInv h List.prefix_rfl n hn, hclosed, ← AFTaskGraph.subtreeWork_eq hw hn]
  | @region st st' _ r p hp hrun ih =>
    obtain ⟨st₂, h1, h2⟩ := regionPass_frame hw r hp st
    obtain rfl : st₂ = st' := by
      rw [h1] at hrun
      exact Except.ok.inj hrun
    rw [h2.work n, ih]

theorem History.head_work {G : AFTaskGraph} (h : TaskTree G) {st : Profile} (hst : History G st) :
    (st.tProf 1).work = BitVec.ofNat 64 G.totalWork := by
  rw [hst.work h h.shape.root_node, AFTaskGraph.subtreeWork_root h.shape]

/-! ## The report runs -/

/-- The rows of a region: each pass starts from a state of a history. -/
theorem reportRegion_ok {G : AFTaskGraph} (h : G.shape.WellFormed) {st : Profile}
    (hst : History G st) (region : SizeT) :
    ∃ t, reportRegion G st region = .ok t ∧ History G t.1 := by
  have hpar : ∀ i ∈ List.range 4, parIncrease i ≠ 0 := by decide
  refine foldlM_ok (fun s : Profile × List RegionRow => History G s.1) (fun s i hi hs => ?_) hst
  obtain ⟨st', h1, -⟩ := regionPass_frame h region (hpar i hi) s.1
  refine ⟨(st', s.2 ++ [⟨parIncrease i, (st'.tProf 1).work, (st'.tProf 1).criticalChild⟩]), ?_,
    .region hs region (hpar i hi) h1⟩
  simp only [h1, bind, Except.bind]

theorem reportRegionIncreasePar_ok {G : AFTaskGraph} (h : G.shape.WellFormed)
    (regionMap : List (SizeT × CallSiteData)) {st : Profile} (hst : History G st) :
    ∃ t, reportRegionIncreasePar G regionMap st = .ok t ∧ History G t.1 := by
  obtain ⟨s, h1, h2⟩ := foldlM_ok (f := fun (s : Profile × List (List RegionRow))
    (e : SizeT × CallSiteData) => do
      let t ← reportRegion G s.1 e.1
      .ok (t.1, s.2 ++ [t.2])) (fun s => History G s.1) (l := regionMap) (fun s e _ hs => by
    obtain ⟨t, h1, h2⟩ := reportRegion_ok h hs e.1
    exact ⟨(t.1, s.2 ++ [t.2]), by simp only [h1, bind, Except.bind], h2⟩) (b := (st, [])) hst
  obtain ⟨t, h3, h4⟩ := reportRegion_ok h h2 0
  unfold reportRegionIncreasePar
  rw [h1]
  simp only [bind, Except.bind]
  split_ifs
  · exact ⟨s, rfl, h2⟩
  · rw [h3]
    exact ⟨_, rfl, h4⟩

/-- The sites of the profile are call sites of nodes. -/
theorem exists_node_of_entry {G : AFTaskGraph} (h : Runnable G) {st : Profile}
    (ht : TracksLedger G G.shape.schedule st) {e : SizeT × WorkSpanData}
    (he : e ∈ st.workSpanMap.entries) :
    ∃ n, G.shape.Node n ∧ (G.tgraphNodes n).callSite = e.1 ∧ (G.tgraphNodes n).callSite ≠ 0 := by
  have hsome : st.workSpanMap.lookup e.1 ≠ none := fun hnone =>
    AccMap.find_eq_none.mp hnone (List.mem_map_of_mem he)
  rw [ht.workSpanMap, lookup_ledgerAfter h List.prefix_rfl] at hsome
  have hne : countedIn G G.shape.schedule e.1 ≠ ∅ := fun hempty => hsome (if_pos hempty)
  obtain ⟨n, hn⟩ := Finset.nonempty_iff_ne_empty.mpr hne
  obtain ⟨hmem, -, hcounted, hsite⟩ := Finset.mem_filter.mp hn
  exact ⟨n, Finset.mem_Icc.mp hmem, hsite, hcounted.1⟩

/-- `GenerateProfile` returns if the call sites of all nodes resolve. -/
theorem generateProfile_ok {G : AFTaskGraph} (h : Runnable G)
    (regionMap : List (SizeT × CallSiteData))
    (hsite : ∀ n, G.shape.Node n → (G.tgraphNodes n).callSite ≠ 0 →
      G.callSiteMap (G.tgraphNodes n).callSite ≠ none) :
    ∃ x, generateProfile G regionMap = .ok x := by
  obtain ⟨st, -, -, hrun, ht, -⟩ := calculateRecurseCalls_tracks h
  obtain ⟨m, hm⟩ := head_map h hrun
  have hrows : ∀ l : List (SizeT × WorkSpanData), (∀ e ∈ l, e ∈ st.workSpanMap.entries) →
      ∃ rows, l.mapM (reportRow G st) = .ok rows := by
    intro l hl
    induction l with
    | nil => exact ⟨[], rfl⟩
    | cons e l ih =>
      obtain ⟨rows, h1⟩ := ih fun e' he' => hl e' (List.mem_cons_of_mem e he')
      obtain ⟨n, hn, hs, h0⟩ := exists_node_of_entry h ht (hl e (by simp))
      obtain ⟨d, hd⟩ := Option.ne_none_iff_exists'.mp (hsite n hn h0)
      rw [hs] at hd
      have hrow : reportRow G st e = .ok ⟨d.csFilename, d.csLineNumber, e.2.work, e.2.span,
          m.lookup e.1⟩ := by
        simp only [reportRow, AFTaskGraph.getSourceFileAndLine, hd, hm, bind, Except.bind]
      rw [List.mapM_cons, hrow, h1]
      exact ⟨_, rfl⟩
  obtain ⟨rows, h1⟩ := hrows _ fun e he => he
  obtain ⟨t, h2, -⟩ := reportRegionIncreasePar_ok h.shape regionMap (.first hrun)
  unfold generateProfile
  rw [hrun]
  simp only [bind, Except.bind, h1, h2]
  exact ⟨_, rfl⟩

/-- **Work.** After the first pass and any number of region passes, the work of
    every ASYNC and FINISH node is the work of the STEP nodes in its subtree,
    and the work of the head that of all STEP nodes; `GenerateProfile` reports
    and returns this amount, and does return if the call sites resolve. -/
theorem work_conserved {G : AFTaskGraph} (h : TaskTree G) :
    (∃ st, calculateRecurse G (.init G) = .ok st) ∧
    (∀ st, History G st →
      (∀ n, G.shape.Node n → (G.tgraphNodes n).type = .async ∨ (G.tgraphNodes n).type = .finish →
        (st.tProf n).work = BitVec.ofNat 64 (∑ x ∈ G.shape.subtree n, G.stepWork x)) ∧
      (st.tProf 1).work = BitVec.ofNat 64 G.totalWork ∧
      ∀ r p, p ≠ 0 → ∃ st', regionPass G r p st = .ok st') ∧
    ∀ regionMap,
      (∀ st report, generateProfile G regionMap = .ok (st, report) → History G st ∧
        report.main.work = BitVec.ofNat 64 G.totalWork ∧
        report.totalWork = BitVec.ofNat 64 G.totalWork) ∧
      ((∀ n, G.shape.Node n → (G.tgraphNodes n).callSite ≠ 0 →
        G.callSiteMap (G.tgraphNodes n).callSite ≠ none) →
        ∃ x, generateProfile G regionMap = .ok x) := by
  refine ⟨?_, fun st hst => ⟨fun n hn _ => hst.work h hn, hst.head_work h, fun r p hp => ?_⟩,
    fun regionMap => ⟨fun st report hrun => ?_, generateProfile_ok h.toRunnable regionMap⟩⟩
  · obtain ⟨st, -, -, hrun, -⟩ := calculateRecurseCalls_tracks h.toRunnable
    exact ⟨st, hrun⟩
  · obtain ⟨st', h1, -⟩ := regionPass_frame h.shape r hp st
    exact ⟨st', h1⟩
  · unfold generateProfile at hrun
    obtain ⟨st₁, h1, hrun⟩ := bind_eq_ok.mp hrun
    obtain ⟨rows, -, hrun⟩ := bind_eq_ok.mp hrun
    obtain ⟨s, h2, hrun⟩ := bind_eq_ok.mp hrun
    obtain ⟨rfl, rfl⟩ := Prod.mk.inj (Except.ok.inj hrun)
    have hfirst : History G st₁ := .first h1
    obtain ⟨t, h3, h4⟩ := reportRegionIncreasePar_ok h.shape regionMap hfirst
    obtain rfl : t = s := by
      rw [h2] at h3
      exact (Except.ok.inj h3).symm
    exact ⟨h4, hfirst.head_work h, hfirst.head_work h⟩

/-- The `25` units of work of `forkGraph` reach its head. -/
theorem forkGraph_work : ∃ st, calculateRecurse forkGraph (.init forkGraph) = .ok st ∧
    (st.tProf 1).work = 25 := by
  obtain ⟨⟨st, h1⟩, h2, -⟩ := work_conserved forkGraph_workGraph.taskTree
  exact ⟨st, h1, (h2 st (.first h1)).2.1.trans (by decide)⟩

end TaskProf.Analysis
