import TaskProf.Analysis.CriticalPath
import TaskProf.Analysis.Report

/-!
# The report of the regions

`report_region_increase_par` runs the region pass four times for every region, and
four times for all of them, one pass after the other over the same nodes. Every row
is about the graph alone.

* `regionRow`: the row that is due for a region and a factor.
* `reportRegion_rows`: the passes write the rows that are due.
* `generateProfile_regions`: the regions of the report, and how their rows compare.
-/

namespace TaskProf.Analysis

/-- A loop that adds a row in every iteration, from states in which `P` holds. -/
theorem foldlM_rows {σ α β ε : Type} {P : σ → Prop} (row : α → β) {l : List α}
    {f : σ × List β → α → Except ε (σ × List β)}
    (hf : ∀ a ∈ l, ∀ st rows, P st → ∃ st', f (st, rows) a = .ok (st', rows ++ [row a]) ∧ P st')
    {st : σ} (hst : P st) (rows : List β) :
    ∃ st', l.foldlM f (st, rows) = .ok (st', rows ++ l.map row) ∧ P st' := by
  induction l generalizing st rows with
  | nil =>
    refine ⟨st, ?_, hst⟩
    rw [List.map_nil, List.append_nil]
    rfl
  | cons a l ih =>
    obtain ⟨st₁, h1, hst₁⟩ := hf a List.mem_cons_self st rows hst
    obtain ⟨st', h2, hst'⟩ := ih (fun b hb => hf b (List.mem_cons_of_mem a hb)) hst₁
      (rows ++ [row a])
    refine ⟨st', ?_, hst'⟩
    rw [List.foldlM_cons, h1]
    show l.foldlM f (st₁, rows ++ [row a]) = _
    rw [h2, List.map_cons, List.append_assoc, List.singleton_append]

variable {G : AFTaskGraph}

/-- The row for the region `r` and the factor `p`: the work of the program, and its span
    when the work that is saved is taken off every STEP node. -/
noncomputable def regionRow (G : AFTaskGraph) (r : SizeT) (p : BitVec 32) : RegionRow :=
  ⟨p, BitVec.ofNat 64 G.totalWork, BitVec.ofNat 64 ((G.optimised r p.toNat).span 1)⟩

/-- The rows of a region. -/
noncomputable def regionRows (G : AFTaskGraph) (r : SizeT) : List RegionRow :=
  (List.range 4).map fun i => regionRow G r (parIncrease i)

theorem regionRow_span (h : SpanGraph G) (r : SizeT) (p : BitVec 32) :
    (regionRow G r p).span.toNat = (G.optimised r p.toNat).span 1 := by
  have hopt := h.optimised r p.toNat
  have hlt := (AFTaskGraph.span_le_totalWork hopt.shape hopt.shape.root_node).trans_lt hopt.work_lt
  exact (BitVec.toNat_ofNat _ _).trans (Nat.mod_eq_of_lt hlt)

/-- A pass writes the row that is due. -/
theorem regionPass_row (h : TypedGraph G) (hb : G.RegionsBounded) (r : SizeT) {p : BitVec 32}
    (hp : p ≠ 0) {st : Profile} (hst : History G st) :
    ∃ st', regionPass G r p st = .ok st' ∧ History G st' ∧
      RegionRow.mk p (st'.tProf 1).work (st'.tProf 1).criticalChild = regionRow G r p := by
  obtain ⟨st', hrun, hspan⟩ := regionPass_span h.toSpanGraph hb r hp hst
  have hst' : History G st' := .region hst r hp hrun
  refine ⟨st', hrun, hst', ?_⟩
  have hwork := hst'.head_work h.taskTree
  have hhead : (st'.tProf 1).criticalChild = (regionRow G r p).span := by
    apply BitVec.eq_of_toNat_eq
    rw [hspan 1 h.shape.root_node (.inr h.head), regionRow_span h.toSpanGraph]
  rw [hwork, hhead]
  rfl

/-- The rows of a region do not depend on the passes before. -/
theorem reportRegion_rows (h : TypedGraph G) (hb : G.RegionsBounded) (r : SizeT) {st : Profile}
    (hst : History G st) :
    ∃ st', reportRegion G st r = .ok (st', regionRows G r) ∧ History G st' := by
  have hpar : ∀ i ∈ List.range 4, parIncrease i ≠ 0 := by decide
  apply foldlM_rows (P := History G) (fun i => regionRow G r (parIncrease i)) ?_ hst []
  intro i hi st₁ rows hst₁
  obtain ⟨st', hrun, hst', hrow⟩ := regionPass_row h hb r (hpar i hi) hst₁
  refine ⟨st', ?_, hst'⟩
  rw [← hrow]
  simp only [hrun, bind, Except.bind]

/-- The regions of the report: those of `regionMap` in its order, and all of them. -/
def reportedRegions (regionMap : List (SizeT × CallSiteData)) : List SizeT :=
  regionMap.map Prod.fst ++ if regionMap.isEmpty = true then [] else [0]

theorem reportRegionIncreasePar_rows (h : TypedGraph G) (hb : G.RegionsBounded)
    (regionMap : List (SizeT × CallSiteData)) {st : Profile} (hst : History G st) :
    ∃ st', reportRegionIncreasePar G regionMap st =
      .ok (st', (reportedRegions regionMap).map (regionRows G)) := by
  have hstep : ∀ e ∈ regionMap, ∀ st₁ rows, History G st₁ → ∃ st', (do
      let t ← reportRegion G st₁ e.1
      .ok (t.1, rows ++ [t.2])) = Except.ok (st', rows ++ [regionRows G e.1]) ∧ History G st' := by
    intro e _ st₁ rows hst₁
    obtain ⟨st', hrun, hst'⟩ := reportRegion_rows h hb e.1 hst₁
    refine ⟨st', ?_, hst'⟩
    simp only [hrun, bind, Except.bind]
  obtain ⟨st₁, h1, hst₁⟩ := foldlM_rows (P := History G) (fun e => regionRows G e.1)
    (f := fun (s : Profile × List (List RegionRow)) (e : SizeT × CallSiteData) => do
      let t ← reportRegion G s.1 e.1
      .ok (t.1, s.2 ++ [t.2])) hstep hst []
  obtain ⟨st₂, h2, -⟩ := reportRegion_rows h hb 0 hst₁
  have hmap : regionMap.map (fun e => regionRows G e.1) =
      (regionMap.map Prod.fst).map (regionRows G) := by
    rw [List.map_map]
    rfl
  unfold reportRegionIncreasePar reportedRegions
  rw [h1, List.nil_append, hmap, List.map_append]
  simp only [bind, Except.bind]
  split_ifs
  · exact ⟨st₁, by rw [List.map_nil, List.append_nil]⟩
  · refine ⟨st₂, ?_⟩
    rw [h2]
    rfl

/-! ## How the rows compare -/

/-- Greater factors come later. -/
theorem regionRows_sorted (h : SpanGraph G) (r : SizeT) :
    (regionRows G r).Pairwise fun a b =>
      a.parIncrease < b.parIncrease ∧ b.span.toNat ≤ a.span.toNat := by
  have hpar : (List.range 4).Pairwise fun i j =>
      (parIncrease i).toNat ≠ 0 ∧ parIncrease i < parIncrease j := by decide
  apply List.pairwise_map.mpr
  apply hpar.imp
  intro i j hij
  refine ⟨hij.2, ?_⟩
  rw [regionRow_span h, regionRow_span h]
  exact span_optimised_le h.shape (fun d => saving_mono d r hij.1 (BitVec.le_of_lt hij.2)) 1

/-- No factor makes the program slower than it is. -/
theorem regionRows_le (h : SpanGraph G) (r : SizeT) :
    ∀ row ∈ regionRows G r, row.work.toNat = G.totalWork ∧ row.span.toNat ≤ G.span 1 := by
  intro row hrow
  obtain ⟨i, -, rfl⟩ := List.mem_map.mp hrow
  refine ⟨(BitVec.toNat_ofNat _ _).trans (Nat.mod_eq_of_lt h.work_lt), ?_⟩
  rw [regionRow_span h]
  apply span_mono h.shape (optimised_shape G r _) (optimised_type G r _)
  exact optimised_stepWork_le G r _

/-- All regions together save more than one of them. -/
theorem regionRows_all (h : SpanGraph G) (r : SizeT) :
    List.Forall₂ (fun a b => a.parIncrease = b.parIncrease ∧ a.span.toNat ≤ b.span.toNat)
      (regionRows G 0) (regionRows G r) := by
  unfold regionRows
  rw [List.forall₂_map_left_iff, List.forall₂_map_right_iff, List.forall₂_same]
  intro i _
  refine ⟨rfl, ?_⟩
  rw [regionRow_span h, regionRow_span h]
  exact span_optimised_le h.shape (fun d => saving_le_all d r _) 1

/-- **The regions of the report.** `GenerateProfile` returns, and reports every region
    of `regionMap`, and then all of them together, each with the rows of the graph in
    which the region is optimised: no pass is disturbed by the passes before it, or by
    the order of `regionMap`. Within a region the span falls as the factor grows, no row
    has a longer span than the program, and the rows for all regions have the shortest. -/
theorem generateProfile_regions (h : TypedGraph G) (hb : G.RegionsBounded)
    (regionMap : List (SizeT × CallSiteData))
    (hsites : ∀ n, G.shape.Node n → (G.tgraphNodes n).callSite ≠ 0 →
      G.callSiteMap (G.tgraphNodes n).callSite ≠ none) :
    ∃ st report, generateProfile G regionMap = .ok (st, report) ∧
      report.regions = (reportedRegions regionMap).map (regionRows G) ∧
      ∀ rows ∈ report.regions,
        (rows.Pairwise fun a b => a.parIncrease < b.parIncrease ∧ b.span.toNat ≤ a.span.toNat) ∧
        (∀ row ∈ rows, row.work = report.main.work ∧
          row.span.toNat ≤ report.main.span.toNat) ∧
        List.Forall₂ (fun a b => a.parIncrease = b.parIncrease ∧ a.span.toNat ≤ b.span.toNat)
          (regionRows G 0) rows := by
  have hs := h.toSpanGraph
  obtain ⟨⟨st, report⟩, hrun⟩ := generateProfile_ok h.toRunnable regionMap hsites
  have hrun' := hrun
  unfold generateProfile at hrun'
  obtain ⟨st₁, h1, hrun'⟩ := bind_eq_ok.mp hrun'
  obtain ⟨sites, -, hrun'⟩ := bind_eq_ok.mp hrun'
  obtain ⟨t, ht, hrun'⟩ := bind_eq_ok.mp hrun'
  obtain ⟨rfl, rfl⟩ := Prod.mk.inj (Except.ok.inj hrun')
  have hfirst : History G st₁ := .first h1
  obtain ⟨st₂, h2⟩ := reportRegionIncreasePar_rows h hb regionMap hfirst
  obtain rfl : t = (st₂, (reportedRegions regionMap).map (regionRows G)) :=
    Except.ok.inj (ht.symm.trans h2)
  -- the row of the program
  have hwork := hfirst.head_work h.taskTree
  have hspan : (st₁.tProf 1).criticalChild.toNat = G.span 1 := by
    obtain ⟨st₃, h3, hres⟩ := h.calculateRecurse_result
    obtain rfl : st₁ = st₃ := Except.ok.inj (h1.symm.trans h3)
    have hne : (G.tgraphNodes 1).type ≠ .step := by
      rw [h.head]
      decide
    rw [(hres 1 h.shape.root_node hne).1, h.crit_of_ne_step h.shape.root_node hne]
  refine ⟨st₂, _, hrun, rfl, fun rows hrows => ?_⟩
  obtain ⟨r, -, rfl⟩ := List.mem_map.mp hrows
  refine ⟨regionRows_sorted hs r, fun row hrow => ?_, regionRows_all hs r⟩
  obtain ⟨hrw, hrs⟩ := regionRows_le hs r row hrow
  refine ⟨?_, hrs.trans_eq hspan.symm⟩
  apply BitVec.eq_of_toNat_eq
  show row.work.toNat = (st₁.tProf 1).work.toNat
  rw [hrw, hwork, BitVec.toNat_ofNat, Nat.mod_eq_of_lt h.work_lt]

/-- `regionGraph`, whose call sites are all in line 3 of the file `r`. -/
def reportGraph : AFTaskGraph :=
  { regionGraph with callSiteMap := fun _ => some ⟨['r'], 3, false⟩ }

theorem reportGraph_typedGraph : TypedGraph reportGraph where
  shape := regionGraph_spanGraph.shape
  head := regionGraph_spanGraph.head
  has_child := regionGraph_spanGraph.has_child
  resolves _ _ _ _ := Option.some_ne_none _
  fresh := regionGraph_spanGraph.fresh
  parent_not_step := regionGraph_spanGraph.parent_not_step
  finish_before_async := regionGraph_spanGraph.finish_before_async
  work_lt := regionGraph_spanGraph.work_lt
  typed n hn := by
    have h : ∀ n ∈ Finset.Icc 1 10, (reportGraph.tgraphNodes n).type ≠ .noType := by decide
    exact h n (Finset.mem_Icc.mpr hn)

/-- The report of `reportGraph` with its region. -/
theorem reportGraph_regions : ∃ st report,
    generateProfile reportGraph [(21, ⟨['r'], 3, false⟩)] = .ok (st, report) ∧
      report.regions = [regionRows reportGraph 21, regionRows reportGraph 0] := by
  obtain ⟨st, report, hrun, hregions, -⟩ := generateProfile_regions reportGraph_typedGraph
    regionGraph_bounded [(21, ⟨['r'], 3, false⟩)] fun _ _ _ => Option.some_ne_none _
  exact ⟨st, report, hrun, hregions⟩

end TaskProf.Analysis
