import TaskProf.Analysis.Charge

/-!
# Attribution of the critical path

The report charges the critical path to call sites: `local_local_work` of the
head and the values in its map should make up `critical_child` of the head
(`check_critical_work` in `GenerateProfile` adds them up).

* `BookedInv`: `local_local_work` and the map sums after a prefix of the events
  are the booked amounts of the closed children.
* `noWrap_iff`: the subtraction `critical_child - sum_cs` at a node does not
  wrap, if and only if the node has no `Overlap`.
* `attributed_iff`: the critical path is exactly attributed and no subtraction
  wraps, if and only if every ASYNC-attained implicit finish has at most its
  span on its map and no exposed implicit finish drops a map.
* `attributed_of_no_finish`: so it is if no implicit finish has a FINISH child.
-/

namespace TaskProf.Analysis

variable {G : AFTaskGraph}

/-- The closed FINISH children of `n`. -/
def closedFinish (G : AFTaskGraph) (P : List Event) (n : ℕ) : Finset ℕ :=
  {c ∈ G.shape.closedIn P n | (G.tgraphNodes c).type = .finish}

/-- `local_local_work` and the map sums after the events `P`. -/
structure BookedInv (G : AFTaskGraph) (P : List Event) : Prop where
  localLocalWork : ∀ n, G.shape.Node n → ((ledgerAfter G P).accounts n).localLocalWork =
    BitVec.ofNat 64 (∑ c ∈ G.shape.closedIn P n, G.toLocal c)
  sites : ∀ n, G.shape.Node n → .finalise n ∉ P → ((ledgerAfter G P).accounts n).sites =
    BitVec.ofNat 64 (G.mapSum G.toSites (closedAsync G P n) (closedFinish G P n))
  finishSites : ∀ n, .finalise n ∈ P → (G.tgraphNodes n).type = .finish →
    ((ledgerAfter G P).accounts n).sites = BitVec.ofNat 64 (G.toSites n)

theorem BookedInv.init (h : SiteGraph G) : BookedInv G [] := by
  have hz : ∀ n, (Ledger.init G).accounts n = (G.tgraphNodes n).tProf.account 0 := fun _ => rfl
  refine ⟨fun n _ => ?_, fun n _ _ => ?_, fun n hn => ?_⟩
  · rw [ledgerAfter, List.foldl_nil, hz, h.fresh n]
    simp [ProfilerData.account, ProfilerData.zero]
  · rw [ledgerAfter, List.foldl_nil, hz, h.fresh n]
    simp [ProfilerData.account, closedAsync, closedFinish]
  · simp at hn

theorem BookedInv.visit (h : SiteGraph G) {P : List Event} {n : ℕ}
    (hP : P ++ [.visit n] <+: G.shape.schedule) (hI : BookedInv G P) :
    BookedInv G (P ++ [.visit n]) := by
  have hw := h.shape
  have hacc : ∀ q, (ledgerAfter G (P ++ [.visit n])).accounts q =
      openAccount G (ledgerAfter G P).accounts n q := by
    intro q; rw [ledgerAfter_append]; rfl
  have hfin : ∀ q, Event.finalise q ∈ P ++ [Event.visit n] ↔ Event.finalise q ∈ P := by simp
  have hopen : Event.finalise n ∉ P := by
    rw [Shape.finalised_before_visit hw hP]
    have := Shape.le_last hw n
    omega
  refine ⟨fun q hq => ?_, fun q hq hf => ?_, fun q hf ht => ?_⟩
  · rw [hacc, openAccount_localLocalWork, hI.localLocalWork q hq, Shape.closedIn_visit]
  · rw [hacc, closedAsync, closedFinish, Shape.closedIn_visit]
    by_cases hqn : q = n
    · -- the map is new, and nothing below the node is closed yet
      subst hqn
      rw [openAccount_sites_self, Shape.closedIn_visit_self hw hP]
      simp
    · rw [openAccount_of_ne G _ hqn]
      exact hI.sites q hq fun hm => hf ((hfin q).mpr hm)
  · have hqn : q ≠ n := by rintro rfl; exact hopen ((hfin q).mp hf)
    rw [hacc, openAccount_of_ne G _ hqn]
    exact hI.finishSites q ((hfin q).mp hf) ht

/-! ## Closing a node -/

section Close

variable {P : List Event} {n : ℕ}

/-- When a node is closed, its map and its local work are those of all of its
    children. -/
theorem BookedInv.atClose (h : SiteGraph G) (hP : P ++ [.finalise n] <+: G.shape.schedule)
    (hI : BookedInv G P) :
    ((ledgerAfter G P).accounts n).sites = BitVec.ofNat 64 (G.onMap n) ∧
      ((ledgerAfter G P).accounts n).localLocalWork = BitVec.ofNat 64 (G.onLocal n) := by
  have hn : G.shape.Node n := (Shape.mem_schedule h.shape).mp (Shape.mem_schedule_of_prefix_append hP)
  rw [hI.sites n hn (Shape.not_mem_prefix_self h.shape hP), hI.localLocalWork n hn, closedAsync,
    closedFinish, Shape.closedIn_self h.shape hP]
  exact ⟨rfl, rfl⟩

/-- The test `local_work >= critical_child` asks whether the serial children
    attain the span. -/
theorem SpanInv.criticalChild_le_iff (h : SpanGraph G)
    (hP : P ++ [.finalise n] <+: G.shape.schedule) (hI : SpanInv G P) :
    ((ledgerAfter G P).accounts n).criticalChild ≤ ((ledgerAfter G P).accounts n).localWork ↔
      ¬ G.AsyncWins n := by
  have hw := h.shape
  have hn : G.shape.Node n := (Shape.mem_schedule hw).mp (Shape.mem_schedule_of_prefix_append hP)
  have hspan := (AFTaskGraph.span_le_totalWork hw hn).trans_lt h.work_lt
  have hasync : closedAsync G P n = G.asyncChildren n := by
    rw [closedAsync, Shape.closedIn_self hw hP]; rfl
  have h1 := (AFTaskGraph.serialWork_le_span hw n).trans_lt hspan
  have h2 := (AFTaskGraph.sup_through_le_span hw (subset_refl (G.asyncChildren n))).trans_lt hspan
  rw [hI.localWork n hn, hI.criticalChild n hn (Shape.not_mem_prefix_self hw hP), hasync,
    Shape.closedIn_self hw hP, AFTaskGraph.AsyncWins, not_lt]
  exact ofNat_le_ofNat h2 h1

theorem SpanInv.criticalChild_of_asyncWins (h : SpanGraph G)
    (hP : P ++ [.finalise n] <+: G.shape.schedule) (hI : SpanInv G P) (hw : G.AsyncWins n) :
    ((ledgerAfter G P).accounts n).criticalChild = BitVec.ofNat 64 (G.span n) := by
  have hs := hI.spanOf h hP
  rwa [Account.spanOf, if_neg fun hle => (hI.criticalChild_le_iff h hP).mp hle hw] at hs

theorem SpanInv.localWork_of_not_asyncWins (h : SpanGraph G)
    (hP : P ++ [.finalise n] <+: G.shape.schedule) (hI : SpanInv G P) (hw : ¬ G.AsyncWins n) :
    ((ledgerAfter G P).accounts n).localWork = BitVec.ofNat 64 (G.span n) := by
  have hs := hI.spanOf h hP
  rwa [Account.spanOf, if_pos ((hI.criticalChild_le_iff h hP).mpr hw)] at hs

/-- What closing a FINISH node leaves in its map and passes to its parent is
    what the node books. -/
theorem BookedInv.closeFinish (h : SiteGraph G) (hP : P ++ [.finalise n] <+: G.shape.schedule)
    (hS : SpanInv G P) (hI : BookedInv G P) (ht : (G.tgraphNodes n).type = .finish)
    (hO : G.Overlap n) :
    closedSites G n ((ledgerAfter G P).accounts n) = BitVec.ofNat 64 (G.toSites n) ∧
      (n ≠ 1 → passedUp G n ((ledgerAfter G P).accounts n) = BitVec.ofNat 64 (G.toLocal n)) := by
  have hn : G.shape.Node n := (Shape.mem_schedule h.shape).mp (Shape.mem_schedule_of_prefix_append hP)
  obtain ⟨hsites, hlocal⟩ := hI.atClose h hP
  have htest := hS.criticalChild_le_iff h.toSpanGraph hP
  rw [AFTaskGraph.toSites, AFTaskGraph.toLocal]
  by_cases hw : G.AsyncWins n
  · have hc := hS.criticalChild_of_asyncWins h.toSpanGraph hP hw
    rw [h.booked_asyncWins ht hw]
    have hnle := fun hle => htest.mp hle hw
    simp only [closedSites, passedUp]
    rw [if_neg hnle, if_neg hnle, hsites, hc]
    exact ⟨rfl, fun _ => ofNat_sub_ofNat (hO hw)⟩
  · have hlw := hS.localWork_of_not_asyncWins h.toSpanGraph hP hw
    simp only [closedSites, passedUp, if_pos (htest.mpr hw)]
    by_cases hcs : (G.tgraphNodes n).callSite = 0
    · have hflag : ¬ (G.tgraphNodes n).spRootNWtFlag = true := fun hf => (h.flag n hn ht).mp hf hcs
      by_cases h1 : n = 1
      · have hp : ¬ (G.tgraphNodes n).parent ≠ 0 := by subst h1; exact not_not.mpr h.shape.root
        rw [if_neg hflag, if_neg hp, hsites, AFTaskGraph.booked_eq h.shape]
        simp only [AFTaskGraph.close, ht, if_neg hw, if_pos h1]
        exact ⟨trivial, fun hn1 => absurd h1 hn1⟩
      · have hp : (G.tgraphNodes n).parent ≠ 0 :=
          Nat.one_le_iff_ne_zero.mp (h.node_parent hn h1).1
        rw [if_neg hflag, if_neg hflag, if_pos hp, if_pos hp, hlocal,
          h.booked_implicit ht ⟨ht, hcs, h1⟩ hw]
        exact ⟨rfl, fun _ => rfl⟩
    · have hflag : (G.tgraphNodes n).spRootNWtFlag = true := (h.flag n hn ht).mpr hcs
      have h1 : n ≠ 1 := by rintro rfl; exact hcs h.head_site
      rw [if_pos hflag, if_pos hflag]
      cases hd : G.callSiteMap (G.tgraphNodes n).callSite with
      | none => exact absurd hd (h.resolves n hn ht hflag)
      | some d =>
        by_cases hpl : G.ParLoop n
        · have hpf : d.parFor = true := by simpa [hd] using hpl.2
          rw [h.booked_parLoop ht hpl hw]
          simp only [hpf, if_true, hlw]
          exact ⟨trivial, fun _ => rfl⟩
        · have hpf : ¬ d.parFor = true := fun hpf => hpl ⟨hcs, by simpa [hd] using hpf⟩
          rw [AFTaskGraph.booked_eq h.shape]
          simp only [hpf, AFTaskGraph.close, ht, if_neg hw, if_neg h1, if_neg hcs, if_neg hpl,
            hsites, hlocal, BitVec.ofNat_add]
          exact ⟨by simp, fun _ => rfl⟩

theorem BookedInv.charged (h : SiteGraph G) (hP : P ++ [.finalise n] <+: G.shape.schedule)
    (hS : SpanInv G P) (hI : BookedInv G P) (hO : G.Overlap n) (h1 : n ≠ 1) :
    ((ledgerAfter G P).accounts n).charged G n = BitVec.ofNat 64 (G.toLocal n) := by
  have hn : G.shape.Node n := (Shape.mem_schedule h.shape).mp (Shape.mem_schedule_of_prefix_append hP)
  cases ht : (G.tgraphNodes n).type with
  | finish =>
    rw [Account.charged, ht]
    exact (hI.closeFinish h hP hS ht hO).2 h1
  | step =>
    rw [toLocal_eq_serial h.shape (by rw [ht]; decide), Account.charged, ht]
    simp [hS.work n hn ht, AFTaskGraph.serial, ht]
  | _ =>
    rw [toLocal_eq_serial h.shape (by rw [ht]; decide), Account.charged, ht]
    simp [AFTaskGraph.serial, ht]

/-- The map of the parent after a node is closed. -/
theorem BookedInv.sites_parent (h : SiteGraph G) (hP : P ++ [.finalise n] <+: G.shape.schedule)
    (hS : SpanInv G P) (hI : BookedInv G P) (hO : G.Overlap n)
    (hp : G.shape.Node (G.tgraphNodes n).parent) :
    (closeAccount G (ledgerAfter G P).accounts n (G.tgraphNodes n).parent).sites =
      BitVec.ofNat 64 (G.mapSum G.toSites
        (closedAsync G (P ++ [.finalise n]) (G.tgraphNodes n).parent)
        (closedFinish G (P ++ [.finalise n]) (G.tgraphNodes n).parent)) := by
  have hw := h.shape
  have hold := hI.sites _ hp (Shape.parent_not_finalised hw hP (.inr rfl))
  obtain ⟨hnot, hins⟩ := Shape.closedIn_finalise_parent hw hP
  rw [AFTaskGraph.shape_parent] at hnot hins
  have hasync : ∀ c ∈ closedAsync G P (G.tgraphNodes n).parent, G.shape.last c < G.shape.last n :=
    fun c hc => Shape.last_lt_of_closedIn hw hP (Finset.mem_filter.mp hc).1
  have hfinish : ∀ c ∈ closedFinish G P (G.tgraphNodes n).parent,
      G.shape.last c < G.shape.last n :=
    fun c hc => Shape.last_lt_of_closedIn hw hP (Finset.mem_filter.mp hc).1
  have hfin : closedFinish G (P ++ [.finalise n]) (G.tgraphNodes n).parent =
      if (G.tgraphNodes n).type = .finish then
        insert n (closedFinish G P (G.tgraphNodes n).parent)
      else closedFinish G P (G.tgraphNodes n).parent := by
    rw [closedFinish, hins, Finset.filter_insert]; rfl
  rw [closeAccount_sites_parent, closedAsync_finalise_parent h.toSpanGraph hP, hfin]
  cases ht : (G.tgraphNodes n).type with
  | async =>
    obtain ⟨hsites, hlocal⟩ := hI.atClose h hP
    have hlonger := hS.longer_iff h.toSpanGraph hP ht
    simp only [if_true, reduceCtorEq, if_false]
    rw [AFTaskGraph.mapSum_insert_async G.toSites hasync hfinish]
    by_cases hlt : (closedAsync G P (G.tgraphNodes n).parent).sup G.through < G.through n
    · rw [if_pos (hlonger.mpr hlt), if_pos hlt, hsites, hlocal, AFTaskGraph.toSites,
        AFTaskGraph.booked_eq hw]
      simp only [AFTaskGraph.close, ht, BitVec.ofNat_add]
    · rw [if_neg fun hc => hlt (hlonger.mp hc), if_neg hlt, hold]
  | finish =>
    have hp0 : (G.tgraphNodes n).parent ≠ 0 := Nat.one_le_iff_ne_zero.mp hp.1
    simp only [if_pos hp0, reduceCtorEq, if_false, if_true]
    have hnew : n ∉ closedFinish G P (G.tgraphNodes n).parent := fun hm =>
      hnot (Finset.mem_filter.mp hm).1
    have hinj : ∀ c ∈ closedAsync G P (G.tgraphNodes n).parent,
        ∀ d ∈ closedAsync G P (G.tgraphNodes n).parent, G.shape.last c = G.shape.last d → c = d := by
      intro c hc d hd hl
      by_contra hne
      exact Shape.last_ne_of_sibling hw (Shape.mem_closedIn.mp (Finset.mem_filter.mp hc).1).1
        (Shape.mem_closedIn.mp (Finset.mem_filter.mp hd).1).1 hne hl
    rw [AFTaskGraph.mapSum_insert_finish G.toSites hnew hinj hasync, hold,
      (hI.closeFinish h hP hS ht hO).1, BitVec.ofNat_add]
  | _ => simpa using hold

theorem BookedInv.finalise (h : SiteGraph G) (hP : P ++ [.finalise n] <+: G.shape.schedule)
    (hS : SpanInv G P) (hI : BookedInv G P) (hO : G.Overlap n) :
    BookedInv G (P ++ [.finalise n]) := by
  have hw := h.shape
  have hn : G.shape.Node n := (Shape.mem_schedule hw).mp (Shape.mem_schedule_of_prefix_append hP)
  have hne := h.parent_ne hn
  have hacc : ∀ q, (ledgerAfter G (P ++ [.finalise n])).accounts q =
      closeAccount G (ledgerAfter G P).accounts n q := by
    intro q; rw [ledgerAfter_append]; rfl
  have hfin : ∀ q, q ≠ n → (Event.finalise q ∈ P ++ [Event.finalise n] ↔ Event.finalise q ∈ P) := by
    intro q hq; simp [hq]
  refine ⟨fun q hq => ?_, fun q hq hf => ?_, fun q hf ht => ?_⟩
  · rw [hacc]
    by_cases hqp : q = (G.tgraphNodes n).parent
    · subst hqp
      have h1 : n ≠ 1 := hw.ne_one_of_parent hq
      obtain ⟨hnot, hins⟩ := Shape.closedIn_finalise_parent hw hP
      rw [AFTaskGraph.shape_parent] at hnot hins
      rw [closeAccount_localLocalWork_parent, hI.localLocalWork _ hq, hI.charged h hP hS hO h1, hins,
        Finset.sum_insert hnot, Nat.add_comm, BitVec.ofNat_add]
    · rw [Shape.closedIn_finalise_of_ne P hqp, ← hI.localLocalWork q hq]
      by_cases hqn : q = n
      · subst hqn; exact closeAccount_localLocalWork_self G _ hne
      · rw [closeAccount_of_ne G _ hqn hqp]
  · have hqn : q ≠ n := by rintro rfl; exact hf (by simp)
    rw [hacc]
    by_cases hqp : q = (G.tgraphNodes n).parent
    · subst hqp; exact hI.sites_parent h hP hS hO hq
    · rw [closeAccount_of_ne G _ hqn hqp, closedAsync, closedFinish,
        Shape.closedIn_finalise_of_ne P hqp]
      exact hI.sites q hq fun hm => hf ((hfin q hqn).mpr hm)
  · rw [hacc]
    by_cases hqn : q = n
    · subst hqn
      rw [closeAccount_sites_self_finish G _ hne ht]
      exact (hI.closeFinish h hP hS ht hO).1
    · have hm := (hfin q hqn).mp hf
      rw [closeAccount_of_ne G _ hqn (Shape.parent_ne_of_finalised hw hP hm)]
      exact hI.finishSites q hm ht

end Close

/-- The invariant holds as long as no closed node has an overlap. -/
theorem bookedInv (h : SiteGraph G) {P : List Event} (hP : P <+: G.shape.schedule)
    (hO : ∀ n, .finalise n ∈ P → G.Overlap n) : BookedInv G P := by
  revert hO
  refine Shape.prefix_induction (Q := fun P => (∀ n, .finalise n ∈ P → G.Overlap n) → BookedInv G P)
    (fun _ => .init h) (fun P e hP ih hO => ?_) hP
  have hI := ih fun n hn => hO n (List.mem_append_left _ hn)
  cases e with
  | visit n => exact hI.visit h hP
  | finalise n =>
    exact hI.finalise h hP (spanInv h.toSpanGraph ((List.prefix_append P _).trans hP))
      (hO n (by simp))

/-! ## The subtraction -/

/-- In the call of `calculateWorkSpan` at node `n` from state `st`, the
    subtraction `critical_child - sum_cs` (line 247), if it is made, does not
    wrap. -/
def NoWrap (G : AFTaskGraph) (n : ℕ) (st : Profile) : Prop :=
  (G.tgraphNodes n).type = .finish → ¬ (st.tProf n).criticalChild ≤ (st.tProf n).localWork →
    st.sitesAt (st.tProf n).criticalCallSites ≤ (st.tProf n).criticalChild

instance (G : AFTaskGraph) (n : ℕ) (st : Profile) : Decidable (NoWrap G n st) :=
  inferInstanceAs (Decidable (_ → _ → _))

theorem noWrap_iff (h : SiteGraph G) {P : List Event} {n : ℕ}
    (hP : P ++ [.finalise n] <+: G.shape.schedule) (hO : ∀ x, .finalise x ∈ P → G.Overlap x)
    {st : Profile} (ht : TracksLedger G P st) : NoWrap G n st ↔ G.Overlap n := by
  have hw := h.shape
  have hn : G.shape.Node n := (Shape.mem_schedule hw).mp (Shape.mem_schedule_of_prefix_append hP)
  have hP' : P <+: G.shape.schedule := (List.prefix_append P _).trans hP
  have hS := spanInv h.toSpanGraph hP'
  have hsites : st.sitesAt (st.tProf n).criticalCallSites = BitVec.ofNat 64 (G.onMap n) := by
    rw [← ((bookedInv h hP' hO).atClose h hP).1, ← ht.tracks.account]; rfl
  have hspan := (AFTaskGraph.span_le_totalWork hw hn).trans_lt h.work_lt
  -- everything below the node is closed
  have hmap : G.onMap n < 2 ^ 64 := h.onMap_lt hn fun x hx hne => hO x <|
    (Shape.finalised_before_finalise hw hP).mpr ⟨hx.node hn, by
      have h1 := hx.last_le hw
      have h2 := hx.le hw
      simp only [Shape.ClosedBefore]
      omega⟩
  rw [NoWrap, ht.tracks.criticalChild, ht.tracks.localWork, hsites,
    hS.criticalChild_le_iff h.toSpanGraph hP, not_not, AFTaskGraph.Overlap]
  constructor
  · intro hnw hwin
    have := hnw (h.implicit_of_asyncWins hwin).1 hwin
    rwa [hS.criticalChild_of_asyncWins h.toSpanGraph hP hwin, ofNat_le_ofNat hmap hspan] at this
  · intro hov _ hwin
    rw [hS.criticalChild_of_asyncWins h.toSpanGraph hP hwin, ofNat_le_ofNat hmap hspan]
    exact hov hwin

/-! ## The result of the pass -/

/-- The pass returns, its head accounts for its whole critical path, and none of
    its subtractions wraps. -/
def Attributed (G : AFTaskGraph) : Prop :=
  ∃ st calls, calculateRecurse G (.init G) = .ok st ∧
    calculateRecurseCalls G (.init G) = .ok (st, calls) ∧
    (st.tProf 1).localLocalWork + st.sitesAt (st.tProf 1).criticalCallSites =
      (st.tProf 1).criticalChild ∧
    ∀ c ∈ calls, NoWrap G c.1 c.2.1

/-- Without overlaps the head accounts for its critical path, if and only if no
    map is dropped. -/
theorem head_attributed_iff (h : SiteGraph G) (hO : ∀ n, G.shape.Node n → G.Overlap n)
    {st : Profile} (ht : TracksLedger G G.shape.schedule st) :
    (st.tProf 1).localLocalWork + st.sitesAt (st.tProf 1).criticalCallSites =
      (st.tProf 1).criticalChild ↔ G.Kept 1 := by
  have hw := h.shape
  have h1 : G.shape.Node 1 := hw.root_node
  have hf : .finalise 1 ∈ G.shape.schedule := (Shape.mem_schedule hw).mpr h1
  have hI := bookedInv h List.prefix_rfl fun n hn => hO n ((Shape.mem_schedule hw).mp hn)
  have hS := spanInv h.toSpanGraph (List.prefix_rfl (l := G.shape.schedule))
  have hbelow : ∀ x, G.shape.Anc 1 x → G.Overlap x := fun x hx => hO x (hx.node h1)
  have himp : ¬ G.Implicit 1 := fun hi => hi.2.2 rfl
  have hall : G.shape.closedIn G.shape.schedule 1 = G.shape.children 1 :=
    Finset.filter_true_of_mem fun c hc =>
      (Shape.mem_schedule hw).mpr (Shape.mem_children.mp hc).1
  have hlocal : ∑ c ∈ G.shape.closedIn G.shape.schedule 1, G.toLocal c = G.toLocal 1 := by
    rw [hall, AFTaskGraph.toLocal, AFTaskGraph.booked_eq hw]
    simp only [AFTaskGraph.close, h.head, if_neg (h.not_asyncWins himp), if_true]
    rfl
  have hsites : st.sitesAt (st.tProf 1).criticalCallSites = BitVec.ofNat 64 (G.toSites 1) := by
    rw [← hI.finishSites 1 hf h.head, ← ht.tracks.account]; rfl
  have hspan := (AFTaskGraph.span_le_totalWork hw h1).trans_lt h.work_lt
  have hle := h.booked_le 1 hbelow
  rw [AFTaskGraph.stepWork, if_neg (by rw [h.head]; decide), Nat.zero_add] at hle
  rw [ht.tracks.localLocalWork, ht.tracks.criticalChild, hsites, hI.localLocalWork 1 h1, hlocal,
    hS.span 1 hf (.inr h.head), ← BitVec.ofNat_add, ← h.booked_eq_span_iff 1 h.head hbelow,
    Nat.add_comm]
  constructor
  · intro heq
    have := congrArg BitVec.toNat heq
    rwa [BitVec.toNat_ofNat, BitVec.toNat_ofNat, Nat.mod_eq_of_lt (hle.trans_lt hspan),
      Nat.mod_eq_of_lt hspan] at this
  · intro heq; rw [heq]

/-- Without overlaps no subtraction wraps, and the head accounts for its critical path if no
    map is dropped. -/
theorem attributed_of_kept (h : SiteGraph G) (hO : ∀ n, G.shape.Node n → G.Overlap n)
    (hk : G.Kept 1) : Attributed G := by
  have hw := h.shape
  obtain ⟨st, calls, hcalls, hrun, ht, hrec⟩ := calculateRecurseCalls_tracks h.toRunnable
  refine ⟨st, calls, hrun, hcalls, (head_attributed_iff h hO ht).mpr hk, fun c hc => ?_⟩
  obtain ⟨P, hP, htc, -⟩ := hrec.sound c hc
  have hO' : ∀ x, .finalise x ∈ P → G.Overlap x := fun x hx =>
    hO x ((Shape.mem_schedule hw).mp
      (((List.prefix_append P _).trans hP).subset hx))
  have hn := (Shape.mem_schedule hw).mp (Shape.mem_schedule_of_prefix_append hP)
  exact (noWrap_iff h hP hO' htc).mpr (hO c.1 hn)

/-- The critical path is exactly attributed if no implicit finish has a FINISH child. -/
theorem attributed_of_no_finish (h : SiteGraph G)
    (hno : ∀ n, G.Implicit n → G.finishChildren n = ∅) : Attributed G := by
  refine attributed_of_kept h (fun n _ => h.overlap_of_no_finish hno n n (.refl n))
    fun f _ hi _ g hg => ?_
  rw [hno f hi] at hg
  exact absurd hg (Finset.notMem_empty g)

/-- **Attribution.** The critical path is exactly attributed and no subtraction
    wraps, if and only if no ASYNC-attained implicit finish has more than its
    span on its map, and no exposed implicit finish drops a map. -/
theorem attributed_iff (h : SiteGraph G) :
    Attributed G ↔ (∀ n, G.shape.Node n → G.Overlap n) ∧ G.Kept 1 := by
  have hw := h.shape
  obtain ⟨st, calls, hcalls, hrun, ht, hrec⟩ := calculateRecurseCalls_tracks h.toRunnable
  constructor
  · rintro ⟨st', calls', hrun', hcalls', hhead, hnw⟩
    rw [hcalls, Except.ok.injEq, Prod.mk.injEq] at hcalls'
    obtain ⟨rfl, rfl⟩ := hcalls'
    -- by induction over the pass: the calls so far show that there is no overlap so far
    have hO : ∀ P, P <+: G.shape.schedule → ∀ x, .finalise x ∈ P → G.Overlap x := by
      intro P hP
      refine Shape.prefix_induction (Q := fun P => ∀ x, .finalise x ∈ P → G.Overlap x)
        (fun x hx => by simp at hx) (fun P e hP ih x hx => ?_) hP
      rcases List.mem_append.mp hx with hx | hx
      · exact ih x hx
      · rw [List.mem_singleton] at hx
        subst hx
        obtain ⟨c, hc, hcx, htc, -⟩ := hrec.complete P x hP
        have := hnw c hc
        rw [hcx] at this
        exact (noWrap_iff h hP ih htc).mp this
    have hO' : ∀ n, G.shape.Node n → G.Overlap n := fun n hn =>
      hO _ List.prefix_rfl n ((Shape.mem_schedule hw).mpr hn)
    exact ⟨hO', (head_attributed_iff h hO' ht).mp hhead⟩
  · rintro ⟨hO, hk⟩
    exact attributed_of_kept h hO hk

theorem forkGraph_siteGraph : SiteGraph forkGraph :=
  siteGraph_of_checks forkGraph_spanGraph.toRunnable rfl (by decide) (by decide)

/-- In `forkGraph` no implicit finish has a FINISH child. -/
theorem forkGraph_attributed : Attributed forkGraph := by
  refine (attributed_iff forkGraph_siteGraph).mpr ⟨fun n hn => ?_, fun f _ hi _ g hg => ?_⟩
  · have h : ∀ n ∈ Finset.Icc 1 10, forkGraph.Overlap n := by decide
    exact h n (Finset.mem_Icc.mpr hn)
  · have h : ∀ g ∈ Finset.Icc 1 10, (forkGraph.tgraphNodes g).type = .finish →
        ¬ forkGraph.Implicit (forkGraph.tgraphNodes g).parent := by decide
    obtain ⟨hgc, ht⟩ := AFTaskGraph.mem_finishChildren.mp hg
    obtain ⟨hgn, rfl⟩ := Shape.mem_children.mp hgc
    exact absurd hi (h g (Finset.mem_Icc.mpr hgn) ht)

/-- `spawn; spawn_root_and_wait; wait_for_all`, where the awaited child does
    most of the work. -/
def droppedGraph : AFTaskGraph :=
  .ofRows [⟨0, .finish, 0, 0⟩, ⟨1, .step, 0, 1⟩, ⟨1, .finish, 0, 0⟩, ⟨3, .async, 5, 0⟩,
    ⟨4, .step, 0, 2⟩, ⟨3, .step, 0, 1⟩, ⟨3, .finish, 6, 0⟩, ⟨7, .step, 0, 10⟩, ⟨3, .step, 0, 1⟩,
    ⟨1, .step, 0, 1⟩] fun cs => if cs = 6 then some ⟨[], 1, false⟩ else none

/-- The same program, where the spawned child does most of the work. -/
def overlapGraph : AFTaskGraph :=
  .ofRows [⟨0, .finish, 0, 0⟩, ⟨1, .step, 0, 1⟩, ⟨1, .finish, 0, 0⟩, ⟨3, .async, 5, 0⟩,
    ⟨4, .step, 0, 20⟩, ⟨3, .step, 0, 1⟩, ⟨3, .finish, 6, 0⟩, ⟨7, .step, 0, 10⟩, ⟨3, .step, 0, 1⟩,
    ⟨1, .step, 0, 1⟩] fun cs => if cs = 6 then some ⟨[], 1, false⟩ else none

/-- The head of `droppedGraph` accounts for `4` of the `14` units of its critical
    path; at node 3 of `overlapGraph` the subtraction is `20 - 30`. -/
theorem not_attributed :
    (SiteGraph droppedGraph ∧ ¬ Attributed droppedGraph) ∧
      SiteGraph overlapGraph ∧ ¬ Attributed overlapGraph := by
  refine ⟨⟨siteGraph_of_checks (runnable_ofRows (by decide) rfl (by decide)) rfl (by decide)
    (by decide), ?_⟩, siteGraph_of_checks (runnable_ofRows (by decide) rfl (by decide)) rfl
    (by decide) (by decide), ?_⟩
  · rintro ⟨st, calls, hrun, -, hhead, -⟩
    have h : (fun st : Profile => ((st.tProf 1).localLocalWork +
        st.sitesAt (st.tProf 1).criticalCallSites, (st.tProf 1).criticalChild)) <$>
          calculateRecurse droppedGraph (.init droppedGraph) = .ok (4, 14) := by
      decide +kernel
    rw [hrun] at h
    simp only [Functor.map, Except.map, Except.ok.injEq, Prod.mk.injEq] at h
    rw [h.1, h.2] at hhead
    exact absurd hhead (by decide)
  · rintro ⟨st, calls, -, hcalls, -, hnw⟩
    have h : (fun r : Profile × List (ℕ × Profile × Profile) =>
        r.2.all fun c => decide (NoWrap overlapGraph c.1 c.2.1)) <$>
          calculateRecurseCalls overlapGraph (.init overlapGraph) = .ok false := by
      decide +kernel
    rw [hcalls] at h
    simp only [Functor.map, Except.map, Except.ok.injEq, List.all_eq_false] at h
    obtain ⟨c, hc, hw⟩ := h
    exact hw (decide_eq_true (hnw c hc))

end TaskProf.Analysis
