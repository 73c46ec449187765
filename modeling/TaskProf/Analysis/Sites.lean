import TaskProf.Analysis.Recursion

/-!
# Which spawn sites reach the profile

`workSpanMap` has an entry for a call site once one of its nodes is judged not
to be recursive. The outermost nodes of a site are not nested in another node of
the site, and should all be added.

* `lookup_ledgerAfter`: the entry of a site is the sum over the nodes counted
  for it.
* `sitesComplete_iff`: no site is missing and every outermost node is added, if
  and only if no path from an outermost node to the head has two adjacent nodes
  of one site. Two call-site-0 FINISH nodes in a row are enough to lose a site.
-/

namespace TaskProf.Analysis

variable {G : AFTaskGraph}

/-- The shape that the collection phase writes. -/
structure RecordedGraph (G : AFTaskGraph) : Prop extends TaskTree G where
  head_site : (G.tgraphNodes 1).callSite = 0
  step_site : ∀ n, G.shape.Node n → (G.tgraphNodes n).type = .step → (G.tgraphNodes n).callSite = 0
  flag : ∀ n, G.shape.Node n → (G.tgraphNodes n).type = .finish →
    ((G.tgraphNodes n).spRootNWtFlag = true ↔ (G.tgraphNodes n).callSite ≠ 0)
  async_parent : ∀ n, G.shape.Node n → (G.tgraphNodes n).type = .async →
    G.Implicit (G.tgraphNodes n).parent

theorem WorkGraph.recordedGraph (h : WorkGraph G) : RecordedGraph G where
  toTaskTree := h.taskTree
  head_site := h.head_site
  step_site := h.step_site
  flag := h.flag
  async_parent := h.async_parent

/-! ## The entries of the map -/

/-- The work, the span and the number of the nodes counted for `s`. -/
def siteData (G : AFTaskGraph) (P : List Event) (s : SizeT) : WorkSpanData where
  work := ∑ n ∈ countedIn G P s, ((ledgerAfter G P).accounts n).work
  span := ∑ n ∈ countedIn G P s, ((ledgerAfter G P).accounts n).criticalChild
  callCount := (countedIn G P s).card

/-- Nodes counted before the last event keep their work and span. -/
theorem sum_counted_congr (h : Runnable G) {P : List Event} {e : Event}
    (hP : P ++ [e] <+: G.shape.schedule) (s : SizeT) :
    ∑ n ∈ countedIn G P s, ((ledgerAfter G (P ++ [e])).accounts n).work =
      ∑ n ∈ countedIn G P s, ((ledgerAfter G P).accounts n).work ∧
    ∑ n ∈ countedIn G P s, ((ledgerAfter G (P ++ [e])).accounts n).criticalChild =
      ∑ n ∈ countedIn G P s, ((ledgerAfter G P).accounts n).criticalChild := by
  have hkeep : ∀ n ∈ countedIn G P s, Event.finalise n ∈ P := fun n hn =>
    (Finset.mem_filter.mp hn).2.1
  constructor
  · exact Finset.sum_congr rfl fun n hn => (closed_keeps h hP (hkeep n hn)).1
  · exact Finset.sum_congr rfl fun n hn => (closed_keeps h hP (hkeep n hn)).2

/-- The entry of a site is the sum over the nodes counted for it. -/
theorem lookup_ledgerAfter (h : Runnable G) {P : List Event} (hP : P <+: G.shape.schedule)
    (s : SizeT) : (ledgerAfter G P).workSpanMap.lookup s =
      if countedIn G P s = ∅ then none else some (siteData G P s) := by
  refine Shape.prefix_induction (Q := fun P => (ledgerAfter G P).workSpanMap.lookup s =
    if countedIn G P s = ∅ then none else some (siteData G P s)) ?_ (fun P e hP hI => ?_) hP
  · simp [countedIn, ledgerAfter, Ledger.init]
  · obtain ⟨hw, hc⟩ := sum_counted_congr h hP s
    cases e with
    | visit n =>
      have hset : countedIn G (P ++ [.visit n]) s = countedIn G P s := by simp [countedIn]
      have hdata : siteData G (P ++ [.visit n]) s = siteData G P s := by
        simp only [siteData, hset, hw, hc]
      rw [hset, hdata, ← hI, ledgerAfter_append]
      rfl
    | finalise n =>
      obtain ⟨hnot, hset⟩ := countedIn_finalise h.shape hP s
      have hlast : (ledgerAfter G (P ++ [.finalise n])).accounts n =
          closeAccount G (ledgerAfter G P).accounts n n := by
        rw [ledgerAfter_append]
        rfl
      rw [ledgerAfter_finalise_workSpanMap]
      by_cases hcs : Counted G n ∧ (G.tgraphNodes n).callSite = s
      · rw [if_pos hcs] at hset
        obtain ⟨hcn, rfl⟩ := hcs
        have hdata : siteData G (P ++ [.finalise n]) (G.tgraphNodes n).callSite =
            siteData G P (G.tgraphNodes n).callSite +
              ⟨(closeAccount G (ledgerAfter G P).accounts n n).work,
                (closeAccount G (ledgerAfter G P).accounts n n).criticalChild, 1⟩ := by
          unfold siteData
          rw [hset, Finset.sum_insert hnot, Finset.sum_insert hnot,
            Finset.card_insert_of_notMem hnot, hlast, hw, hc, Nat.cast_add, Nat.cast_one]
          show WorkSpanData.mk _ _ _ = WorkSpanData.mk _ _ _
          rw [add_comm, add_comm (closeAccount G _ n n).criticalChild]
        rw [if_pos hcn, AccMap.lookup_add_self, hI, hset, if_neg (Finset.insert_ne_empty _ _), hdata]
        split_ifs with hempty
        · have hzero : siteData G P (G.tgraphNodes n).callSite = ⟨0, 0, 0⟩ := by
            simp [siteData, hempty]
          rw [hzero]
          show some (WorkSpanData.mk _ _ _) = some (WorkSpanData.mk _ _ _)
          rw [zero_add, zero_add, zero_add]
        · rfl
      · rw [if_neg hcs] at hset
        have hdata : siteData G (P ++ [.finalise n]) s = siteData G P s := by
          simp only [siteData, hset, hw, hc]
        rw [hset, hdata, ← hI]
        by_cases hcn : Counted G n
        · rw [if_pos hcn, AccMap.lookup_add_of_ne _ fun he => hcs ⟨hcn, he.symm⟩]
        · rw [if_neg hcn]

/-! ## The result of the pass -/

/-- Closing node `n` added the work and the span of `n`, as they are in `st`, to
    the entry of `s`. -/
def Contributed (st : Profile) (calls : List (ℕ × Profile × Profile)) (s : SizeT) (n : ℕ) : Prop :=
  ∃ c ∈ calls, c.1 = n ∧ c.2.2.workSpanMap =
    c.2.1.workSpanMap.add s ⟨(st.tProf n).work, (st.tProf n).criticalChild, 1⟩

/-- The pass returns; every call site of an ASYNC or FINISH node has an entry,
    which is the sum of the contributions to it; and every node without a proper
    ancestor of its call site has contributed. -/
def SitesComplete (G : AFTaskGraph) : Prop :=
  ∃ st calls, calculateRecurse G (.init G) = .ok st ∧
    calculateRecurseCalls G (.init G) = .ok (st, calls) ∧
    ∀ s, s ≠ 0 →
      (∃ n, G.shape.Node n ∧ (G.tgraphNodes n).callSite = s ∧
        ((G.tgraphNodes n).type = .async ∨ (G.tgraphNodes n).type = .finish)) →
      (∃ cs : Finset ℕ, (∀ n, n ∈ cs ↔ Contributed st calls s n) ∧ st.workSpanMap.lookup s =
        some ⟨∑ n ∈ cs, (st.tProf n).work, ∑ n ∈ cs, (st.tProf n).criticalChild, cs.card⟩) ∧
      ∀ n, G.shape.Node n → (G.tgraphNodes n).callSite = s → ¬ G.Below s n → Contributed st calls s n

/-- A node contributes to the site it is counted for. -/
theorem contributed_iff (h : Runnable G) {st : Profile} {calls : List (ℕ × Profile × Profile)}
    (ht : TracksLedger G G.shape.schedule st) (hrec : RecordsCalls G G.shape.schedule calls)
    (s : SizeT) (n : ℕ) : Contributed st calls s n ↔ n ∈ countedIn G G.shape.schedule s := by
  have hw := h.shape
  have hnode : n ∈ countedIn G G.shape.schedule s ↔
      G.shape.Node n ∧ Counted G n ∧ (G.tgraphNodes n).callSite = s := by
    rw [countedIn, Finset.mem_filter, Finset.mem_Icc]
    constructor
    · rintro ⟨hn, -, hc⟩
      exact ⟨hn, hc⟩
    · rintro ⟨hn, hc⟩
      exact ⟨hn, (Shape.mem_schedule hw).mpr hn, hc⟩
  rw [hnode]
  constructor
  · rintro ⟨c, hc, rfl, hadd⟩
    obtain ⟨P, hP, htc, htc'⟩ := hrec.sound c hc
    have hn := (Shape.mem_schedule hw).mp (Shape.mem_schedule_of_prefix_append hP)
    refine ⟨hn, (callCount_ne_iff htc htc' s).mp ?_⟩
    rw [hadd, callCountAt_add, if_pos rfl]
    intro he
    rw [add_eq_left] at he
    have h1 : (1 : SizeT) ≠ 0 := by decide
    exact h1 he
  · rintro ⟨hn, hcounted, rfl⟩
    obtain ⟨P, Q, hPQ⟩ := List.append_of_mem ((Shape.mem_schedule (e := .finalise n) hw).mpr hn)
    have hsched : P ++ [.finalise n] ++ Q = G.shape.schedule := by rw [hPQ]; simp
    obtain ⟨c, hc, hcn, htc, htc'⟩ := hrec.complete P n ⟨Q, hsched⟩
    obtain ⟨hwork, hspan⟩ := closed_keeps h (P := P ++ [.finalise n]) (Q := Q)
      (by rw [hsched]) (n := n) (by simp)
    have hlast : (ledgerAfter G (P ++ [.finalise n])).accounts n =
        closeAccount G (ledgerAfter G P).accounts n n := by
      rw [ledgerAfter_append]
      rfl
    refine ⟨c, hc, hcn, ?_⟩
    rw [htc'.workSpanMap, ledgerAfter_finalise_workSpanMap, if_pos hcounted, htc.workSpanMap,
      ht.tracks.work, ht.tracks.criticalChild, ← hsched, hwork, hspan, hlast]

/-- Every call site has an outermost node. -/
theorem exists_outermost (h : G.shape.WellFormed) {n : ℕ} (hn : G.shape.Node n) :
    ∃ m, G.shape.Node m ∧ (G.tgraphNodes m).callSite = (G.tgraphNodes n).callSite ∧
      ¬ G.Below (G.tgraphNodes n).callSite m := by
  induction n using Nat.strong_induction_on with
  | _ n ih =>
    by_cases hb : G.Below (G.tgraphNodes n).callSite n
    · obtain ⟨m, hm, hmn, hne, hs⟩ := hb
      have hlt : m < n := lt_of_le_of_ne (hmn.le h) hne
      have := ih m hlt hm
      rwa [hs] at this
    · exact ⟨n, hn, rfl, hb⟩

/-- **Spawn sites.** No spawn site is missing and every outermost node is added
    to its site, if and only if no path from an outermost node to the head has
    a node with the call site of its parent. -/
theorem sitesComplete_iff (h : RecordedGraph G) :
    SitesComplete G ↔ ∀ n, G.shape.Node n → (G.tgraphNodes n).callSite ≠ 0 →
      ¬ G.Below (G.tgraphNodes n).callSite n → ∀ x, G.shape.Anc x n → ¬ G.SameAsParent x := by
  have hw := h.shape
  obtain ⟨st, calls, hcalls, hrun, ht, hrec⟩ := calculateRecurseCalls_tracks h.toRunnable
  constructor
  · rintro ⟨st', calls', hrun', hcalls', hall⟩ n hn hcs hout
    rw [hcalls, Except.ok.injEq, Prod.mk.injEq] at hcalls'
    obtain ⟨rfl, rfl⟩ := hcalls'
    have hty : (G.tgraphNodes n).type = .async ∨ (G.tgraphNodes n).type = .finish := by
      cases hty : (G.tgraphNodes n).type with
      | noType => exact absurd hty (h.typed n hn)
      | step => exact absurd (h.step_site n hn hty) hcs
      | async => exact .inl rfl
      | finish => exact .inr rfl
    have hcon := (hall _ hcs ⟨n, hn, rfl, hty⟩).2 n hn rfl hout
    rw [contributed_iff h.toRunnable ht hrec] at hcon
    exact ((counted_iff hw hn).mp (Finset.mem_filter.mp hcon).2.2.1).2
  · intro hcond
    have hcon : ∀ n, G.shape.Node n → (G.tgraphNodes n).callSite ≠ 0 →
        ¬ G.Below (G.tgraphNodes n).callSite n →
        n ∈ countedIn G G.shape.schedule (G.tgraphNodes n).callSite := by
      intro n hn hcs hout
      refine Finset.mem_filter.mpr ⟨Finset.mem_Icc.mpr hn, (Shape.mem_schedule hw).mpr hn, ?_, rfl⟩
      exact (counted_iff hw hn).mpr ⟨hcs, hcond n hn hcs hout⟩
    refine ⟨st, calls, hrun, hcalls, fun s hs ⟨n, hn, hns, hty⟩ => ⟨?_, fun m hm hms hout => ?_⟩⟩
    · refine ⟨countedIn G G.shape.schedule s, fun m => (contributed_iff h.toRunnable ht hrec s m).symm,
        ?_⟩
      obtain ⟨m, hm, hms, hout⟩ := exists_outermost hw hn
      have hne : countedIn G G.shape.schedule s ≠ ∅ := by
        have hmem := hcon m hm (by rw [hms, hns]; exact hs) (by rw [hms]; exact hout)
        rw [hms, hns] at hmem
        exact Finset.ne_empty_of_mem hmem
      rw [ht.workSpanMap, lookup_ledgerAfter h.toRunnable List.prefix_rfl, if_neg hne]
      simp only [siteData, ht.tracks.work, ht.tracks.criticalChild]
    · rw [contributed_iff h.toRunnable ht hrec]
      subst hms
      exact hcon m hm hs hout

/-- A task started by `spawn_root_and_wait` that spawns one task and waits for it. -/
def rootedGraph : AFTaskGraph :=
  .ofRows [⟨0, .finish, 0, 0⟩, ⟨1, .step, 0, 1⟩, ⟨1, .finish, 6, 0⟩, ⟨3, .step, 0, 1⟩,
    ⟨3, .finish, 0, 0⟩, ⟨5, .async, 5, 0⟩, ⟨6, .step, 0, 7⟩, ⟨5, .step, 0, 1⟩, ⟨3, .step, 0, 1⟩,
    ⟨1, .step, 0, 2⟩] fun cs => if cs = 6 then some ⟨[], 1, false⟩ else none

/-- Both sites of `rootedGraph` reach the profile. -/
theorem rootedGraph_sitesComplete : SitesComplete rootedGraph := by
  have hg : WorkGraph rootedGraph := workGraph_of_checks
    (runnable_ofRows (by decide) rfl (by decide)) rfl (by decide) (by decide)
  refine (sitesComplete_iff hg.recordedGraph).mpr fun n hn hcs _ x hxn => ?_
  rintro ⟨hx, hx1, hsame⟩
  have h : ∀ n ∈ Finset.Icc 1 10, (rootedGraph.tgraphNodes n).callSite ≠ 0 →
      ∀ x ∈ Finset.Icc 1 10, x ≤ n → n ≤ rootedGraph.shape.last x → x ≠ 1 →
        (rootedGraph.tgraphNodes (rootedGraph.tgraphNodes x).parent).callSite ≠
          (rootedGraph.tgraphNodes x).callSite := by decide
  exact h n (Finset.mem_Icc.mpr hn) hcs x (Finset.mem_Icc.mpr hx) (hxn.le hg.shape)
    (hxn.le_last hg.shape) hx1 hsame

/-- `main` spawns one task and waits for it. -/
def directGraph : AFTaskGraph :=
  .ofRows [⟨0, .finish, 0, 0⟩, ⟨1, .step, 0, 1⟩, ⟨1, .finish, 0, 0⟩, ⟨3, .async, 5, 0⟩,
    ⟨4, .step, 0, 7⟩, ⟨3, .step, 0, 1⟩, ⟨1, .step, 0, 2⟩] fun _ => none

/-- The task is missing from the profile of `directGraph`. -/
theorem not_sitesComplete : RecordedGraph directGraph ∧ ¬ SitesComplete directGraph := by
  have hg : WorkGraph directGraph := workGraph_of_checks
    (runnable_ofRows (by decide) rfl (by decide)) rfl (by decide) (by decide)
  refine ⟨hg.recordedGraph, ?_⟩
  rintro ⟨st, calls, hrun, -, hall⟩
  have h : (fun st : Profile => st.workSpanMap.lookup 5) <$>
      calculateRecurse directGraph (.init directGraph) = .ok none := by
    decide +kernel
  rw [hrun] at h
  simp only [Functor.map, Except.map, Except.ok.injEq] at h
  obtain ⟨cs, -, hcs⟩ := (hall 5 (by decide) ⟨4, by decide, rfl, .inl rfl⟩).1
  rw [h] at hcs
  cases hcs

end TaskProf.Analysis
