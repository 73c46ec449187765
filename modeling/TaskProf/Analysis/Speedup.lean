import TaskProf.Analysis.Regions

/-!
# Faster regions never lengthen the critical path

A region pass computes the spans of the graph with less work in its STEP nodes
(`TaskProf.Analysis.Regions`), and the span is monotone in the work of the STEP
nodes, whichever path attains it.

* `span_mono`: less work in every STEP node gives no longer span.
* `saving_mono`, `saving_le_all`: a greater factor, or all regions instead of
  one, saves at least as much work.
* `regionPass_antitone`: the order of the spans that the passes report.
-/

namespace TaskProf.Analysis

/-- The span is monotone in the work of the STEP nodes. -/
theorem span_mono {G G' : AFTaskGraph} (h : G.shape.WellFormed) (hs : G'.shape = G.shape)
    (ht : ∀ n, (G'.tgraphNodes n).type = (G.tgraphNodes n).type)
    (hw : ∀ n, G'.stepWork n ≤ G.stepWork n) (n : ℕ) : G'.span n ≤ G.span n := by
  have hchildren : ∀ n, G'.shape.children n = G.shape.children n := fun n => by rw [hs]
  have hasync : ∀ n, G'.asyncChildren n = G.asyncChildren n := fun n => by
    simp only [AFTaskGraph.asyncChildren, hchildren, ht]
  induction n using h.child_induction with
  | hQ n ih =>
    have hser : ∀ c ∈ G.shape.children n, G'.serial G'.span c ≤ G.serial G.span c := by
      intro c hc
      unfold AFTaskGraph.serial
      rw [ht]
      cases htc : (G.tgraphNodes c).type with
      | step =>
        have := hw c
        simpa only [AFTaskGraph.stepWork, ht, htc, if_true] using this
      | finish => exact ih c hc
      | _ => exact le_rfl
    rw [AFTaskGraph.span_eq (hs ▸ h) n, AFTaskGraph.span_eq h n]
    unfold AFTaskGraph.spanStep
    rw [hchildren, hasync]
    refine max_le_max (Finset.sum_le_sum hser) (Finset.sup_mono_fun fun c hc => ?_)
    refine Nat.add_le_add (ih c (AFTaskGraph.mem_asyncChildren.mp hc).1) ?_
    exact Finset.sum_le_sum fun d hd => hser d (Finset.mem_filter.mp hd).1

/-- A greater factor saves more. -/
theorem saving_mono (d : ProfilerData) (r : SizeT) {p q : ℕ} (hp : p ≠ 0) (hpq : p ≤ q) :
    d.saving r p ≤ d.saving r q := by
  unfold ProfilerData.saving
  cases d.regionWork with
  | none => exact le_rfl
  | some m =>
    refine List.sum_le_sum fun e _ => ?_
    exact Nat.sub_le_sub_left (Nat.div_le_div_left hpq (by omega)) _

/-- Optimising all regions saves more than optimising one. -/
theorem saving_le_all (d : ProfilerData) (r : SizeT) (p : ℕ) : d.saving r p ≤ d.saving 0 p := by
  unfold ProfilerData.saving
  cases d.regionWork with
  | none => exact le_rfl
  | some m =>
    have hall : (m.entries.filter fun e => (0 : SizeT) = 0 ∨ e.1 = 0) = m.entries :=
      List.filter_eq_self.mpr fun e _ => by simp
    dsimp only
    rw [hall]
    exact (List.filter_sublist.map _).sum_le_sum fun _ _ => Nat.zero_le _

/-- The work of a STEP node of the optimised graph. -/
theorem optimised_stepWork {G : AFTaskGraph} (r : SizeT) (p : ℕ) {n : ℕ}
    (ht : (G.tgraphNodes n).type = .step) : (G.optimised r p).stepWork n =
      (G.tgraphNodes n).tProf.work.toNat - (G.tgraphNodes n).tProf.saving r p := by
  rw [AFTaskGraph.stepWork, optimised_type, if_pos ht, optimised_work G r p ht, BitVec.toNat_ofNat,
    Nat.mod_eq_of_lt]
  exact (Nat.sub_le _ _).trans_lt (G.tgraphNodes n).tProf.work.isLt

/-- Saving more work gives no longer span. -/
theorem span_optimised_le {G : AFTaskGraph} (h : G.shape.WellFormed) {r r' : SizeT} {p p' : ℕ}
    (hsave : ∀ d : ProfilerData, d.saving r p ≤ d.saving r' p') (n : ℕ) :
    (G.optimised r' p').span n ≤ (G.optimised r p).span n := by
  refine span_mono (by rw [optimised_shape]; exact h) (by rw [optimised_shape, optimised_shape])
    (fun n => by rw [optimised_type, optimised_type]) (fun n => ?_) n
  by_cases ht : (G.tgraphNodes n).type = .step
  · rw [optimised_stepWork r p ht, optimised_stepWork r' p' ht]
    exact Nat.sub_le_sub_left (hsave _) _
  · simp [AFTaskGraph.stepWork, ht]

/-- What a region pass reports is the span of the optimised graph. -/
theorem regionPass_span {G : AFTaskGraph} (h : SpanGraph G) (hb : G.RegionsBounded) (r : SizeT)
    {p : BitVec 32} (hp : p ≠ 0) {st : Profile} (hst : History G st) :
    ∃ st', regionPass G r p st = .ok st' ∧ ∀ n, G.shape.Node n →
      (G.tgraphNodes n).type = .async ∨ (G.tgraphNodes n).type = .finish →
      (st'.tProf n).criticalChild.toNat = (G.optimised r p.toNat).span n := by
  obtain ⟨st', h1, -, h3⟩ := regionPass_mirrors h hb r hp hst
  have hopt := h.optimised r p.toNat
  have hinv : SpanInv (G.optimised r p.toNat) G.shape.schedule := spanInv hopt (by
    rw [optimised_shape])
  refine ⟨st', h1, fun n hn ht => ?_⟩
  have hns : (G.tgraphNodes n).type ≠ .step := by
    rcases ht with ht | ht <;> rw [ht] <;> simp
  have hnode : (G.optimised r p.toNat).shape.Node n := by
    rw [optimised_shape]
    exact hn
  have hlt := (AFTaskGraph.span_le_totalWork hopt.shape hnode).trans_lt hopt.work_lt
  rw [h3.criticalChild n hn hns, hinv.span n ((Shape.mem_schedule h.shape).mpr hn)
    (by rw [optimised_type]; exact ht), BitVec.toNat_ofNat, Nat.mod_eq_of_lt hlt]

/-- **Speedup.** From any three histories: optimising a region by a greater
    factor never gives a longer span, no factor gives a longer span than the
    first pass, and optimising all regions never gives a longer span than
    optimising one. -/
theorem regionPass_antitone {G : AFTaskGraph} (h : SpanGraph G) (hb : G.RegionsBounded) (r : SizeT)
    {p q : BitVec 32} (hp : p ≠ 0) (hpq : p ≤ q) {st₁ st₂ st₃ : Profile} (h₁ : History G st₁)
    (h₂ : History G st₂) (h₃ : History G st₃) :
    ∃ st stp stq sta, calculateRecurse G (.init G) = .ok st ∧ regionPass G r p st₁ = .ok stp ∧
      regionPass G r q st₂ = .ok stq ∧ regionPass G 0 p st₃ = .ok sta ∧
      ∀ n, G.shape.Node n → (G.tgraphNodes n).type = .async ∨ (G.tgraphNodes n).type = .finish →
        (stq.tProf n).criticalChild ≤ (stp.tProf n).criticalChild ∧
        (stp.tProf n).criticalChild ≤ (st.tProf n).criticalChild ∧
        (sta.tProf n).criticalChild ≤ (stp.tProf n).criticalChild := by
  have hp0 : p.toNat ≠ 0 := fun h0 => hp (BitVec.eq_of_toNat_eq (by simpa using h0))
  have hle : p.toNat ≤ q.toNat := hpq
  have hq : q ≠ 0 := by
    rintro rfl
    exact hp0 (Nat.le_zero.mp (by simpa using hle))
  obtain ⟨st, hrun, hspan⟩ := calculateRecurse_span h
  obtain ⟨stp, hrunp, hspanp⟩ := regionPass_span h hb r hp h₁
  obtain ⟨stq, hrunq, hspanq⟩ := regionPass_span h hb r hq h₂
  obtain ⟨sta, hruna, hspana⟩ := regionPass_span h hb 0 hp h₃
  refine ⟨st, stp, stq, sta, hrun, hrunp, hrunq, hruna, fun n hn ht => ?_⟩
  rw [BitVec.le_def, BitVec.le_def, BitVec.le_def, hspan n hn ht, hspanp n hn ht, hspanq n hn ht,
    hspana n hn ht]
  refine ⟨?_, ?_, ?_⟩
  · exact span_optimised_le h.shape (fun d => saving_mono d r hp0 hle) n
  · exact span_mono h.shape (optimised_shape G r p.toNat) (optimised_type G r p.toNat)
      (optimised_stepWork_le G r p.toNat) n
  · exact span_optimised_le h.shape (fun d => saving_le_all d r p.toNat) n

/-- Region `21` of `regionGraph`, twice and four times as fast. -/
theorem regionGraph_antitone : ∃ st stp stq sta,
    calculateRecurse regionGraph (.init regionGraph) = .ok st ∧
    regionPass regionGraph 21 2 st = .ok stp ∧ regionPass regionGraph 21 4 stp = .ok stq ∧
    regionPass regionGraph 0 2 stp = .ok sta ∧
    (stq.tProf 1).criticalChild ≤ (stp.tProf 1).criticalChild ∧
    (stp.tProf 1).criticalChild ≤ (st.tProf 1).criticalChild ∧
    (sta.tProf 1).criticalChild ≤ (stp.tProf 1).criticalChild := by
  obtain ⟨st, h1, -⟩ := calculateRecurse_span regionGraph_spanGraph
  obtain ⟨stp, h2, -⟩ := regionPass_frame regionGraph_spanGraph.shape 21 (p := 2) (by decide) st
  have hfirst : History regionGraph st := .first h1
  have hsecond : History regionGraph stp := .region hfirst 21 (by decide) h2
  obtain ⟨st', stp', stq, sta, h3, h4, h5, h6, h7⟩ := regionPass_antitone regionGraph_spanGraph
    regionGraph_bounded 21 (p := 2) (q := 4) (by decide) (by decide) hfirst hsecond hsecond
  rw [h1, Except.ok.injEq] at h3
  rw [h2, Except.ok.injEq] at h4
  subst h3 h4
  exact ⟨st, stp, stq, sta, h1, h2, h5, h6, h7 1 (by decide) (.inr rfl)⟩

end TaskProf.Analysis
