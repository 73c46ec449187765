import TaskProf.Analysis.Span

/-!
# What the critical path charges to call sites

The pass books the critical work below a node in two places: on call sites (in
the map behind `critical_call_sites`) and in `local_local_work` of the node's
parent. `booked n` is that pair, by recursion on the tree: `toSites n` and
`toLocal n`.

A call-site-0 FINISH below the head is an implicit finish. Where an ASYNC child
attains its span, it keeps the map of that child (`longest`) and of the FINISH
children that complete after it; otherwise it keeps no map at all.

* `booked_eq`: the recursion equation.
* `SiteGraph.booked_le`: no more than the span is booked, if no ASYNC-attained
  implicit finish has more on its map than its span (`Overlap`).
* `SiteGraph.booked_eq_span_iff`: exactly the span is booked, if and only if no
  FINISH child of an exposed implicit finish has anything on its map.
-/

namespace TaskProf.Analysis

namespace AFTaskGraph

/-! ## Booked amounts by recursion -/

/-- The FINISH children of `n`. -/
def finishChildren (G : AFTaskGraph) (n : ℕ) : Finset ℕ :=
  {c ∈ G.shape.children n | (G.tgraphNodes c).type = .finish}

/-- The ASYNC nodes of `cs` with the longest path through them; of several, the
    one that completes first. A path of length `0` does not count. -/
def longest (G : AFTaskGraph) (cs : Finset ℕ) : Finset ℕ :=
  {c ∈ cs | 0 < G.through c ∧ ∀ d ∈ cs, G.through d < G.through c ∨
    G.through d = G.through c ∧ G.shape.last c ≤ G.shape.last d}

/-- What lies on the map of a node whose closed children are the ASYNC nodes
    `cs` and the FINISH nodes `fs`: the map of the longest ASYNC child, and the
    maps of the FINISH children that complete after it. -/
def mapSum (G : AFTaskGraph) (toSites : ℕ → ℕ) (cs fs : Finset ℕ) : ℕ :=
  if G.longest cs = ∅ then ∑ g ∈ fs, toSites g
  else ∑ c ∈ G.longest cs, (toSites c + ∑ g ∈ {g ∈ fs | G.shape.last c < G.shape.last g}, toSites g)

/-- The span of `n` is attained only through an ASYNC child. -/
def AsyncWins (G : AFTaskGraph) (n : ℕ) : Prop :=
  G.serialWork n < (G.asyncChildren n).sup G.through

instance (G : AFTaskGraph) (n : ℕ) : Decidable (G.AsyncWins n) :=
  inferInstanceAs (Decidable (_ < _))

/-- Node `n` is the FINISH of a parallel loop. -/
def ParLoop (G : AFTaskGraph) (n : ℕ) : Prop :=
  (G.tgraphNodes n).callSite ≠ 0 ∧
    ((G.callSiteMap (G.tgraphNodes n).callSite).map CallSiteData.parFor).getD false = true

instance (G : AFTaskGraph) (n : ℕ) : Decidable (G.ParLoop n) :=
  inferInstanceAs (Decidable (_ ∧ _))

/-- Node `n` is a call-site-0 FINISH below the head. -/
def Implicit (G : AFTaskGraph) (n : ℕ) : Prop :=
  (G.tgraphNodes n).type = .finish ∧ (G.tgraphNodes n).callSite = 0 ∧ n ≠ 1

instance (G : AFTaskGraph) (n : ℕ) : Decidable (G.Implicit n) :=
  inferInstanceAs (Decidable (_ ∧ _ ∧ _))

/-- The amounts of `n` booked on call sites and locally, from the map sum and
    the local work that its children leave at `n`. -/
def close (G : AFTaskGraph) (n onMap onLocal : ℕ) : ℕ × ℕ :=
  match (G.tgraphNodes n).type with
  | .step => (0, (G.tgraphNodes n).tProf.work.toNat)
  | .async => (onMap + onLocal, 0)
  | .finish =>
    if G.AsyncWins n then (onMap, G.span n - onMap)
    else if n = 1 then (onMap, onLocal)
    else if (G.tgraphNodes n).callSite = 0 then (0, onLocal)
    else if G.ParLoop n then (G.span n, 0)
    else (onMap + onLocal, 0)
  | .noType => (0, 0)

/-- The amounts below `n` booked on call sites and in the parent's
    `local_local_work`. -/
def booked (G : AFTaskGraph) : ℕ → ℕ × ℕ :=
  upRec G.lastAllocatedNode fun n booked =>
    G.close n (G.mapSum (fun c => (booked c).1) (G.asyncChildren n) (G.finishChildren n))
      (∑ c ∈ G.shape.children n, (booked c).2)

/-- What is booked on call sites below `n`. -/
def toSites (G : AFTaskGraph) (n : ℕ) : ℕ := (G.booked n).1

/-- What is booked locally by the parent of `n`. -/
def toLocal (G : AFTaskGraph) (n : ℕ) : ℕ := (G.booked n).2

/-- The map sum of `n` when its children are closed. -/
def onMap (G : AFTaskGraph) (n : ℕ) : ℕ :=
  G.mapSum G.toSites (G.asyncChildren n) (G.finishChildren n)

/-- `local_local_work` of `n` when its children are closed. -/
def onLocal (G : AFTaskGraph) (n : ℕ) : ℕ := ∑ c ∈ G.shape.children n, G.toLocal c

variable {G : AFTaskGraph}

theorem mem_finishChildren {n c : ℕ} :
    c ∈ G.finishChildren n ↔ c ∈ G.shape.children n ∧ (G.tgraphNodes c).type = .finish := by
  simp [finishChildren]

theorem longest_subset (cs : Finset ℕ) : G.longest cs ⊆ cs := Finset.filter_subset _ _

theorem mapSum_congr {f g : ℕ → ℕ} {cs fs : Finset ℕ} (hc : ∀ c ∈ cs, f c = g c)
    (hf : ∀ c ∈ fs, f c = g c) : G.mapSum f cs fs = G.mapSum g cs fs := by
  unfold mapSum
  split_ifs
  · exact Finset.sum_congr rfl hf
  · refine Finset.sum_congr rfl fun c hmem => ?_
    rw [hc c (longest_subset cs hmem)]
    congr 1
    exact Finset.sum_congr rfl fun x hx => hf x (Finset.mem_filter.mp hx).1

theorem booked_eq (h : G.shape.WellFormed) (n : ℕ) :
    G.booked n = G.close n (G.onMap n) (G.onLocal n) := by
  have hrec : ∀ c ∈ G.shape.children n, (if n < c ∧ c ≤ G.lastAllocatedNode then
      upRec G.lastAllocatedNode (fun n booked => G.close n
        (G.mapSum (fun c => (booked c).1) (G.asyncChildren n) (G.finishChildren n))
        (∑ c ∈ G.shape.children n, (booked c).2)) c
      else default) = G.booked c := fun c hc => h.upRec_children _ hc
  rw [booked, upRec_eq]
  congr 1
  · refine mapSum_congr (fun c hc => ?_) fun c hc => ?_
    · exact congrArg Prod.fst (hrec c (mem_asyncChildren.mp hc).1)
    · exact congrArg Prod.fst (hrec c (mem_finishChildren.mp hc).1)
  · exact Finset.sum_congr rfl fun c hc => congrArg Prod.snd (hrec c hc)

/-! ## The longest ASYNC child -/

/-- Siblings complete at different indices. -/
theorem longest_eq_of_mem {cs : Finset ℕ}
    (hinj : ∀ c ∈ cs, ∀ d ∈ cs, G.shape.last c = G.shape.last d → c = d) {w : ℕ}
    (hw : w ∈ G.longest cs) : G.longest cs = {w} := by
  rw [Finset.eq_singleton_iff_unique_mem]
  refine ⟨hw, fun c hc => ?_⟩
  obtain ⟨hcs, -, hc⟩ := Finset.mem_filter.mp hc
  obtain ⟨hws, -, hw⟩ := Finset.mem_filter.mp hw
  have h1 := hc w hws
  have h2 := hw c hcs
  exact hinj c hcs w hws (by omega)

/-- A FINISH child that completes last adds its map. -/
theorem mapSum_insert_finish (f : ℕ → ℕ) {cs fs : Finset ℕ} {g : ℕ} (hg : g ∉ fs)
    (hinj : ∀ c ∈ cs, ∀ d ∈ cs, G.shape.last c = G.shape.last d → c = d)
    (hlast : ∀ c ∈ cs, G.shape.last c < G.shape.last g) :
    G.mapSum f cs (insert g fs) = G.mapSum f cs fs + f g := by
  unfold mapSum
  split_ifs with he
  · rw [Finset.sum_insert hg, Nat.add_comm]
  · obtain ⟨w, hw⟩ := Finset.nonempty_iff_ne_empty.mpr he
    have hnot : g ∉ {g ∈ fs | G.shape.last w < G.shape.last g} := fun hm =>
      hg (Finset.mem_filter.mp hm).1
    rw [longest_eq_of_mem hinj hw, Finset.sum_singleton, Finset.sum_singleton,
      Finset.filter_insert, if_pos (hlast w (longest_subset cs hw)), Finset.sum_insert hnot]
    omega

/-- An ASYNC child that completes last takes over the map if the path through
    it is longer than all before. -/
theorem mapSum_insert_async (f : ℕ → ℕ) {cs fs : Finset ℕ} {c : ℕ}
    (hcs : ∀ d ∈ cs, G.shape.last d < G.shape.last c)
    (hfs : ∀ g ∈ fs, G.shape.last g < G.shape.last c) :
    G.mapSum f (insert c cs) fs =
      if cs.sup G.through < G.through c then f c else G.mapSum f cs fs := by
  have hle : ∀ d ∈ cs, G.through d ≤ cs.sup G.through := fun d hd => Finset.le_sup hd
  split_ifs with hlt
  · have hlong : G.longest (insert c cs) = {c} := by
      refine Finset.eq_singleton_iff_unique_mem.mpr ⟨?_, fun d hd => ?_⟩
      · refine Finset.mem_filter.mpr ⟨Finset.mem_insert_self c cs, by omega, fun d hd => ?_⟩
        rcases Finset.mem_insert.mp hd with rfl | hd
        · exact .inr ⟨rfl, le_rfl⟩
        · exact .inl ((hle d hd).trans_lt hlt)
      · obtain ⟨hd, -, hmax⟩ := Finset.mem_filter.mp hd
        rcases Finset.mem_insert.mp hd with rfl | hd
        · rfl
        · have h1 := hmax c (Finset.mem_insert_self c cs)
          have h2 := hle d hd
          omega
    have hnone : {g ∈ fs | G.shape.last c < G.shape.last g} = (∅ : Finset ℕ) :=
      Finset.filter_eq_empty_iff.mpr fun g hg => by have := hfs g hg; omega
    rw [mapSum, if_neg (by rw [hlong]; exact Finset.singleton_ne_empty c), hlong,
      Finset.sum_singleton, hnone, Finset.sum_empty, Nat.add_zero]
  · have hlong : G.longest (insert c cs) = G.longest cs := by
      ext d
      simp only [longest, Finset.mem_filter, Finset.mem_insert, forall_eq_or_imp]
      constructor
      · rintro ⟨rfl | hd, hpos, hmax, hall⟩
        · -- `c` itself: some child before it has a path as long
          exfalso
          have hsup : 0 < cs.sup G.through := by omega
          obtain ⟨e, he, hsup⟩ := Finset.exists_mem_eq_sup cs
            (Finset.nonempty_iff_ne_empty.mpr (by rintro rfl; simp at hsup)) G.through
          have h1 := hall e he
          have h2 := hcs e he
          omega
        · exact ⟨hd, hpos, hall⟩
      · rintro ⟨hd, hpos, hall⟩
        refine ⟨.inr hd, hpos, ?_, hall⟩
        have hsup : cs.sup G.through ≤ G.through d := Finset.sup_le fun e he => by
          have := hall e he
          omega
        have := hcs d hd
        omega
    rw [mapSum, mapSum, hlong]

@[simp] theorem mapSum_empty (f : ℕ → ℕ) (fs : Finset ℕ) : G.mapSum f ∅ fs = ∑ g ∈ fs, f g := by
  simp [mapSum, longest]

end AFTaskGraph

/-! ## Graphs with call sites -/

/-- The shape that the collection phase writes: ASYNC nodes stand under an
    implicit finish, before its FINISH children, the first of them leftmost;
    every FINISH node is complete before its later siblings. -/
structure SiteGraph (G : AFTaskGraph) : Prop extends SpanGraph G where
  head_site : (G.tgraphNodes 1).callSite = 0
  flag : ∀ n, G.shape.Node n → (G.tgraphNodes n).type = .finish →
    ((G.tgraphNodes n).spRootNWtFlag = true ↔ (G.tgraphNodes n).callSite ≠ 0)
  async_parent : ∀ n, G.shape.Node n → (G.tgraphNodes n).type = .async →
    G.Implicit (G.tgraphNodes n).parent
  first_async : ∀ n, G.shape.Node n → G.Implicit n →
    ∃ a ∈ G.asyncChildren n, ∀ c ∈ G.shape.children n, a ≤ c
  async_before_finish : ∀ n a f, a ∈ G.asyncChildren n → f ∈ G.finishChildren n → a < f
  finish_before_sibling : ∀ n f c x, f ∈ G.finishChildren n → c ∈ G.shape.children n → f < c →
    G.shape.Anc f x → x < c

variable {G : AFTaskGraph}

/-- The shape is a finite check. -/
theorem siteGraph_of_checks (hr : Runnable G) (hsite : (G.tgraphNodes 1).callSite = 0)
    (hnode : ∀ n ∈ Finset.Icc 1 G.lastAllocatedNode,
      (n ≠ 1 → (G.tgraphNodes (G.tgraphNodes n).parent).type ≠ .step) ∧
      ((G.tgraphNodes n).type = .finish →
        ((G.tgraphNodes n).spRootNWtFlag = true ↔ (G.tgraphNodes n).callSite ≠ 0)) ∧
      ((G.tgraphNodes n).type = .async → G.Implicit (G.tgraphNodes n).parent) ∧
      (G.Implicit n → ∃ a ∈ G.asyncChildren n, ∀ c ∈ G.shape.children n, a ≤ c) ∧
      (∀ f ∈ G.finishChildren n, (∀ a ∈ G.asyncChildren n, a < f) ∧
        ∀ c ∈ G.shape.children n, f < c → G.shape.last f < c))
    (hwork : G.totalWork < 2 ^ 64) : SiteGraph G := by
  have hw := hr.shape
  have hc : ∀ n, G.shape.Node n → _ := fun n hn => hnode n (Finset.mem_Icc.mpr hn)
  -- children are found only below nodes
  have hnot : ∀ n c, c ∈ G.shape.children n → G.shape.Node n ∨ c = 1 := by
    intro n c hmem
    obtain ⟨hcn, rfl⟩ := Shape.mem_children.mp hmem
    by_cases h1 : c = 1
    · exact .inr h1
    · exact .inl (hw.parent_node hcn h1)
  have honly : ∀ n f c, f ∈ G.shape.children n → c ∈ G.shape.children n → f < c →
      G.shape.Node n := by
    intro n f c hf hc hlt
    rcases hnot n c hc with hn | rfl
    · exact hn
    · have := (Shape.mem_children.mp hf).1.1
      omega
  have hsib : ∀ n f c x, f ∈ G.finishChildren n → c ∈ G.shape.children n → f < c →
      G.shape.Anc f x → x < c := by
    intro n f c x hf hcc hlt hx
    have hn := honly n f c (AFTaskGraph.mem_finishChildren.mp hf).1 hcc hlt
    exact (hx.le_last hw).trans_lt (((hc n hn).2.2.2.2 f hf).2 c hcc hlt)
  exact
    { toRunnable := hr
      parent_not_step := fun n hn h1 => (hc n hn).1 h1
      finish_before_async := fun f c x hf _ hfn hcn hp hlt hx =>
        hsib (G.tgraphNodes c).parent f c x
          (AFTaskGraph.mem_finishChildren.mpr ⟨Shape.mem_children.mpr ⟨hfn, hp⟩, hf⟩)
          (Shape.mem_children.mpr ⟨hcn, rfl⟩) hlt hx
      work_lt := hwork
      head_site := hsite
      flag := fun n hn => (hc n hn).2.1
      async_parent := fun n hn => (hc n hn).2.2.1
      first_async := fun n hn => (hc n hn).2.2.2.1
      async_before_finish := fun n a f ha hf => by
        by_contra hle
        have hac := (AFTaskGraph.mem_asyncChildren.mp ha).1
        have hfc := (AFTaskGraph.mem_finishChildren.mp hf).1
        have hne : f ≠ a := by
          rintro rfl
          have h1 := (AFTaskGraph.mem_asyncChildren.mp ha).2
          rw [(AFTaskGraph.mem_finishChildren.mp hf).2] at h1
          cases h1
        have hn := honly n f a hfc hac (by omega)
        exact hle (((hc n hn).2.2.2.2 f hf).1 a ha)
      finish_before_sibling := hsib }

theorem SiteGraph.asyncChildren_eq_empty (h : SiteGraph G) {n : ℕ} (hn : ¬ G.Implicit n) :
    G.asyncChildren n = ∅ := by
  rw [Finset.eq_empty_iff_forall_notMem]
  intro c hc
  obtain ⟨hc, ht⟩ := AFTaskGraph.mem_asyncChildren.mp hc
  obtain ⟨hcn, rfl⟩ := Shape.mem_children.mp hc
  exact hn (h.async_parent c hcn ht)

theorem SiteGraph.not_asyncWins (h : SiteGraph G) {n : ℕ} (hn : ¬ G.Implicit n) :
    ¬ G.AsyncWins n := by
  simp [AFTaskGraph.AsyncWins, h.asyncChildren_eq_empty hn]

/-- An ASYNC-attained node is an implicit finish. -/
theorem SiteGraph.implicit_of_asyncWins (h : SiteGraph G) {n : ℕ} (hw : G.AsyncWins n) :
    G.Implicit n := by
  by_contra hi
  exact h.not_asyncWins hi hw

/-- Where the serial children attain the span, it is their serial work. -/
theorem SpanGraph.span_of_not_asyncWins (h : SpanGraph G) {n : ℕ} (hn : ¬ G.AsyncWins n) :
    G.span n = G.serialWork n := by
  rw [AFTaskGraph.span_eq_max h.shape]
  exact max_eq_left (not_lt.mp hn)

/-- The map of an ASYNC-attained finish does not exceed its span. -/
def AFTaskGraph.Overlap (G : AFTaskGraph) (n : ℕ) : Prop := G.AsyncWins n → G.onMap n ≤ G.span n

instance (G : AFTaskGraph) (n : ℕ) : Decidable (G.Overlap n) :=
  inferInstanceAs (Decidable (_ → _))

/-! ## At most the span is booked -/

/-- What the FINISH children of `n` book on call sites. -/
def AFTaskGraph.finishSites (G : AFTaskGraph) (n : ℕ) : ℕ := ∑ g ∈ G.finishChildren n, G.toSites g

theorem SiteGraph.onMap_eq_finishSites (h : SiteGraph G) {n : ℕ} (hn : ¬ G.Implicit n) :
    G.onMap n = G.finishSites n := by
  rw [AFTaskGraph.onMap, h.asyncChildren_eq_empty hn, AFTaskGraph.mapSum_empty]; rfl

theorem toLocal_eq_serial (h : G.shape.WellFormed) {c : ℕ}
    (ht : (G.tgraphNodes c).type ≠ .finish) : G.toLocal c = G.serial G.span c := by
  rw [AFTaskGraph.toLocal, AFTaskGraph.booked_eq h]
  cases hty : (G.tgraphNodes c).type with
  | finish => exact absurd hty ht
  | _ => simp [AFTaskGraph.close, AFTaskGraph.serial, hty]

section Finish

variable {n : ℕ} (h : SiteGraph G) (ht : (G.tgraphNodes n).type = .finish)

include h ht

theorem SiteGraph.booked_asyncWins (hw : G.AsyncWins n) :
    G.booked n = (G.onMap n, G.span n - G.onMap n) := by
  rw [AFTaskGraph.booked_eq h.shape]
  simp only [AFTaskGraph.close, ht]
  rw [if_pos hw]

theorem SiteGraph.booked_implicit (hi : G.Implicit n) (hw : ¬ G.AsyncWins n) :
    G.booked n = (0, G.onLocal n) := by
  rw [AFTaskGraph.booked_eq h.shape]
  simp only [AFTaskGraph.close, ht]
  rw [if_neg hw, if_neg hi.2.2, if_pos hi.2.1]

theorem SiteGraph.booked_parLoop (hp : G.ParLoop n) (hw : ¬ G.AsyncWins n) :
    G.booked n = (G.span n, 0) := by
  have h1 : n ≠ 1 := by rintro rfl; exact hp.1 h.head_site
  rw [AFTaskGraph.booked_eq h.shape]
  simp only [AFTaskGraph.close, ht]
  rw [if_neg hw, if_neg h1, if_neg hp.1, if_pos hp]

/-- The head and the FINISH of a `spawn_root_and_wait` keep everything. -/
theorem SiteGraph.booked_other (hi : ¬ G.Implicit n) (hp : ¬ G.ParLoop n) :
    G.toSites n + G.toLocal n = G.finishSites n + G.onLocal n := by
  rw [AFTaskGraph.toSites, AFTaskGraph.toLocal, AFTaskGraph.booked_eq h.shape,
    h.onMap_eq_finishSites hi]
  simp only [AFTaskGraph.close, ht]
  rw [if_neg (h.not_asyncWins hi)]
  by_cases h1 : n = 1
  · rw [if_pos h1]
  · have hcs : (G.tgraphNodes n).callSite ≠ 0 := fun hcs => hi ⟨ht, hcs, h1⟩
    rw [if_neg h1, if_neg hcs, if_neg hp, Nat.add_zero]

end Finish

/-- If every FINISH child books at most its span, the children book at most the
    serial work; exactly that if every FINISH child books exactly its span. -/
theorem finishSites_add_onLocal (h : G.shape.WellFormed) {n : ℕ}
    (hle : ∀ g ∈ G.finishChildren n, G.toSites g + G.toLocal g ≤ G.span g) :
    G.finishSites n + G.onLocal n ≤ G.serialWork n ∧
      (G.finishSites n + G.onLocal n = G.serialWork n ↔
        ∀ g ∈ G.finishChildren n, G.toSites g + G.toLocal g = G.span g) := by
  have hsum : G.finishSites n + G.onLocal n = ∑ c ∈ G.shape.children n,
      ((if (G.tgraphNodes c).type = .finish then G.toSites c else 0) + G.toLocal c) := by
    rw [Finset.sum_add_distrib, ← Finset.sum_filter]; rfl
  have hterm : ∀ c ∈ G.shape.children n,
      (if (G.tgraphNodes c).type = .finish then G.toSites c else 0) + G.toLocal c ≤
        G.serial G.span c := by
    intro c hc
    split_ifs with ht
    · simpa [AFTaskGraph.serial, ht] using hle c (AFTaskGraph.mem_finishChildren.mpr ⟨hc, ht⟩)
    · rw [toLocal_eq_serial h ht, Nat.zero_add]
  rw [hsum, AFTaskGraph.serialWork]
  refine ⟨Finset.sum_le_sum hterm, (Finset.sum_eq_sum_iff_of_le hterm).trans ⟨?_, ?_⟩⟩
  · intro heq g hg
    obtain ⟨hgc, ht⟩ := AFTaskGraph.mem_finishChildren.mp hg
    simpa [AFTaskGraph.serial, ht] using heq g hgc
  · intro heq c hc
    by_cases ht : (G.tgraphNodes c).type = .finish
    · simpa [AFTaskGraph.serial, ht] using heq c (AFTaskGraph.mem_finishChildren.mpr ⟨hc, ht⟩)
    · rw [if_neg ht, toLocal_eq_serial h ht, Nat.zero_add]

/-- A node books at most its span (a STEP node its work). -/
theorem SiteGraph.booked_le (h : SiteGraph G) (n : ℕ)
    (hO : ∀ x, G.shape.Anc n x → G.Overlap x) :
    G.toSites n + G.toLocal n ≤ G.stepWork n + G.span n := by
  induction n using h.shape.child_induction with
  | hQ n ih =>
    have hfin : ∀ g ∈ G.finishChildren n, G.toSites g + G.toLocal g ≤ G.span g := by
      intro g hg
      obtain ⟨hgc, ht⟩ := AFTaskGraph.mem_finishChildren.mp hg
      have := ih g hgc fun x hx => hO x ((Shape.anc_of_mem_children hgc).trans hx)
      rwa [AFTaskGraph.stepWork, if_neg (by rw [ht]; decide), Nat.zero_add] at this
    have hser := (finishSites_add_onLocal h.shape hfin).1
    have hspan := AFTaskGraph.serialWork_le_span h.shape n
    cases ht : (G.tgraphNodes n).type with
    | noType =>
      rw [AFTaskGraph.toSites, AFTaskGraph.toLocal, AFTaskGraph.booked_eq h.shape]
      simp [AFTaskGraph.close, ht]
    | step =>
      rw [AFTaskGraph.toSites, AFTaskGraph.toLocal, AFTaskGraph.booked_eq h.shape]
      simp [AFTaskGraph.close, AFTaskGraph.stepWork, ht]
    | async =>
      have himp : ¬ G.Implicit n := fun hi => by rw [hi.1] at ht; cases ht
      rw [AFTaskGraph.toSites, AFTaskGraph.toLocal, AFTaskGraph.booked_eq h.shape,
        h.onMap_eq_finishSites himp]
      simp only [AFTaskGraph.close, ht]
      omega
    | finish =>
      by_cases hw : G.AsyncWins n
      · have := hO n (.refl n) hw
        rw [AFTaskGraph.toSites, AFTaskGraph.toLocal, h.booked_asyncWins ht hw]
        dsimp only
        omega
      · by_cases himp : G.Implicit n
        · rw [AFTaskGraph.toSites, AFTaskGraph.toLocal, h.booked_implicit ht himp hw]
          dsimp only
          omega
        · by_cases hp : G.ParLoop n
          · rw [AFTaskGraph.toSites, AFTaskGraph.toLocal, h.booked_parLoop ht hp hw]
            dsimp only
            omega
          · rw [h.booked_other ht himp hp]
            omega

theorem stepWork_add_span_le (h : SpanGraph G) {n : ℕ} (hn : G.shape.Node n) :
    G.stepWork n + G.span n ≤ G.subtreeWork n := by
  by_cases ht : (G.tgraphNodes n).type = .step
  · have hc := h.children_step hn ht
    have hz : G.span n = 0 := by
      rw [AFTaskGraph.span_eq_max h.shape, AFTaskGraph.serialWork, AFTaskGraph.asyncChildren, hc]
      rfl
    rw [hz]
    exact AFTaskGraph.stepWork_le_subtreeWork h.shape hn
  · rw [AFTaskGraph.stepWork, if_neg ht, Nat.zero_add]
    exact AFTaskGraph.span_le_subtreeWork h.shape n hn

/-- The map is that of the longest ASYNC child and of the FINISH children that complete
    after it. -/
theorem onMap_of_longest (h : G.shape.WellFormed) {n w : ℕ}
    (hw : w ∈ G.longest (G.asyncChildren n)) :
    G.onMap n = G.toSites w +
      ∑ g ∈ {g ∈ G.finishChildren n | G.shape.last w < G.shape.last g}, G.toSites g := by
  have hinj : ∀ c ∈ G.asyncChildren n, ∀ d ∈ G.asyncChildren n,
      G.shape.last c = G.shape.last d → c = d := fun c hc d hd hl => by
    by_contra hne
    exact Shape.last_ne_of_sibling h (AFTaskGraph.mem_asyncChildren.mp hc).1
      (AFTaskGraph.mem_asyncChildren.mp hd).1 hne hl
  have hone := AFTaskGraph.longest_eq_of_mem hinj hw
  rw [AFTaskGraph.onMap, AFTaskGraph.mapSum, if_neg (Finset.ne_empty_of_mem hw), hone,
    Finset.sum_singleton]

/-- The map of a node fits in a word. -/
theorem SiteGraph.onMap_lt (h : SiteGraph G) {n : ℕ} (hn : G.shape.Node n)
    (hO : ∀ x, G.shape.Anc n x → x ≠ n → G.Overlap x) : G.onMap n < 2 ^ 64 := by
  refine lt_of_le_of_lt ?_ h.work_lt
  refine le_trans ?_ (AFTaskGraph.subtreeWork_le n)
  have hsites : ∀ c ∈ G.shape.children n, G.toSites c ≤ G.subtreeWork c := by
    intro c hc
    have hb := h.booked_le c fun x hx => hO x ((Shape.anc_of_mem_children hc).trans hx) (by
      have h1 := (h.shape.lt_of_mem_children hc).1
      have h2 := hx.le h.shape
      omega)
    have := stepWork_add_span_le h.toSpanGraph (Shape.mem_children.mp hc).1
    omega
  have hsub : ∀ cs ⊆ G.shape.children n, ∑ c ∈ cs, G.toSites c ≤ G.subtreeWork n := by
    intro cs hcs
    have h1 := Finset.sum_le_sum fun c hc => hsites c (hcs hc)
    have h2 := Finset.sum_le_sum_of_subset (f := G.subtreeWork) hcs
    have h3 := AFTaskGraph.subtreeWork_eq h.shape hn
    omega
  by_cases he : G.longest (G.asyncChildren n) = ∅
  · rw [AFTaskGraph.onMap, AFTaskGraph.mapSum, if_pos he]
    exact hsub _ (Finset.filter_subset _ _)
  · obtain ⟨w, hw⟩ := Finset.nonempty_iff_ne_empty.mpr he
    have hwa := AFTaskGraph.longest_subset _ hw
    obtain ⟨hwc, hwt⟩ := AFTaskGraph.mem_asyncChildren.mp hwa
    have hnot : w ∉ {g ∈ G.finishChildren n | G.shape.last w < G.shape.last g} := by
      simp
    rw [onMap_of_longest h.shape hw, ← Finset.sum_insert hnot]
    refine hsub _ (Finset.insert_subset hwc ?_)
    exact (Finset.filter_subset _ _).trans (Finset.filter_subset _ _)

/-! ## Overlap in paths -/

/-- If an ASYNC child attains the span, there is a longest one. -/
theorem exists_longest {n : ℕ} (hwins : G.AsyncWins n) : ∃ w, w ∈ G.longest (G.asyncChildren n) := by
  have hpos : 0 < (G.asyncChildren n).sup G.through := by
    unfold AFTaskGraph.AsyncWins at hwins
    omega
  obtain ⟨d, hd, hsup⟩ := Finset.exists_mem_eq_sup (G.asyncChildren n)
    (Finset.nonempty_iff_ne_empty.mpr (by rintro h; rw [h] at hpos; simp at hpos)) G.through
  -- of those with the longest path, the one that completes first
  obtain ⟨w, hw, hfirst⟩ := Finset.exists_min_image
    {c ∈ G.asyncChildren n | G.through c = (G.asyncChildren n).sup G.through} G.shape.last
    ⟨d, Finset.mem_filter.mpr ⟨hd, hsup.symm⟩⟩
  obtain ⟨hwa, hmax⟩ := Finset.mem_filter.mp hw
  refine ⟨w, Finset.mem_filter.mpr ⟨hwa, by omega, fun c hc => ?_⟩⟩
  have hle : G.through c ≤ (G.asyncChildren n).sup G.through := Finset.le_sup hc
  rcases hle.lt_or_eq with hlt | heq
  · exact .inl (by omega)
  · exact .inr ⟨by omega, hfirst c (Finset.mem_filter.mpr ⟨hc, heq⟩)⟩

/-- The longest path runs through the longest ASYNC child. -/
theorem span_of_longest (h : G.shape.WellFormed) {n w : ℕ} (hwins : G.AsyncWins n)
    (hw : w ∈ G.longest (G.asyncChildren n)) : G.span n = G.span w + G.leftWork w := by
  obtain ⟨hwa, -, hmax⟩ := Finset.mem_filter.mp hw
  have hsup : (G.asyncChildren n).sup G.through = G.through w := by
    refine le_antisymm (Finset.sup_le fun d hd => ?_) (Finset.le_sup hwa)
    rcases hmax d hd with hlt | ⟨heq, -⟩
    · exact hlt.le
    · exact heq.le
  rw [AFTaskGraph.span_eq_max h, max_eq_right hwins.le, hsup, AFTaskGraph.through]

/-- An ASYNC node books at most its span on call sites. -/
theorem SiteGraph.toSites_le_span (h : SiteGraph G) {w : ℕ} (ht : (G.tgraphNodes w).type = .async)
    (hO : ∀ x, G.shape.Anc w x → G.Overlap x) : G.toSites w ≤ G.span w := by
  have hle := h.booked_le w hO
  rw [AFTaskGraph.stepWork, if_neg (by rw [ht]; decide)] at hle
  omega

/-- The longest path below an implicit finish runs over the serial work to the left of
    an ASYNC child `w` and through this child. The FINISH children that complete after `w`
    may book on call sites what this path does not book there, and no more. -/
theorem SiteGraph.overlap_iff_path (h : SiteGraph G) {n w : ℕ} (hwins : G.AsyncWins n)
    (hw : w ∈ G.longest (G.asyncChildren n)) (hO : ∀ x, G.shape.Anc w x → G.Overlap x) :
    G.Overlap n ↔ ∑ g ∈ {g ∈ G.finishChildren n | G.shape.last w < G.shape.last g}, G.toSites g ≤
      G.leftWork w + (G.span w - G.toSites w) := by
  have ht := (AFTaskGraph.mem_asyncChildren.mp (AFTaskGraph.longest_subset _ hw)).2
  have hle := h.toSites_le_span ht hO
  rw [AFTaskGraph.Overlap, onMap_of_longest h.shape hw, span_of_longest h.shape hwins hw]
  constructor
  · intro hov
    have := hov hwins
    omega
  · intro hov _
    omega

/-- Where no implicit finish has a FINISH child, nothing overlaps. -/
theorem SiteGraph.overlap_of_no_finish (h : SiteGraph G)
    (hno : ∀ n, G.Implicit n → G.finishChildren n = ∅) (n : ℕ) :
    ∀ x, G.shape.Anc n x → G.Overlap x := by
  induction n using h.shape.child_induction with
  | hQ n ih =>
    intro x hx
    rcases Shape.anc_iff_eq_or_child.mp hx with rfl | ⟨c, hc, hcx⟩
    · intro hwins
      obtain ⟨w, hw⟩ := exists_longest hwins
      have hwc := (AFTaskGraph.mem_asyncChildren.mp (AFTaskGraph.longest_subset _ hw)).1
      refine (h.overlap_iff_path hwins hw (ih w hwc)).mpr ?_ hwins
      simp [hno x (h.implicit_of_asyncWins hwins)]
    · exact ih c hc x hcx

/-! ## Exactly the span is booked -/

/-- What `f` books for its FINISH child `g` is part of what `f` itself books. -/
def AFTaskGraph.Exposes (G : AFTaskGraph) (f g : ℕ) : Prop :=
  g ∈ G.finishChildren f ∧ ¬ G.AsyncWins f ∧ ¬ G.ParLoop f

/-- No implicit finish that `n` exposes drops a map with something on it. -/
def AFTaskGraph.Kept (G : AFTaskGraph) (n : ℕ) : Prop :=
  ∀ f, Relation.ReflTransGen G.Exposes n f → G.Implicit f → ¬ G.AsyncWins f →
    ∀ g ∈ G.finishChildren f, G.toSites g = 0

theorem kept_iff (n : ℕ) :
    G.Kept n ↔ (G.Implicit n → ¬ G.AsyncWins n → ∀ g ∈ G.finishChildren n, G.toSites g = 0) ∧
      ∀ g, G.Exposes n g → G.Kept g := by
  constructor
  · intro h
    exact ⟨h n .refl, fun g hg f hf => h f (.head hg hf)⟩
  · rintro ⟨h1, h2⟩ f hf
    rcases Relation.ReflTransGen.cases_head hf with rfl | ⟨g, hg, hgf⟩
    · exact h1
    · exact h2 g hg f hgf

/-- A FINISH node books exactly its span, if and only if nothing is dropped at
    the implicit finishes it exposes. -/
theorem SiteGraph.booked_eq_span_iff (h : SiteGraph G) (n : ℕ)
    (ht : (G.tgraphNodes n).type = .finish) (hO : ∀ x, G.shape.Anc n x → G.Overlap x) :
    G.toSites n + G.toLocal n = G.span n ↔ G.Kept n := by
  induction n using h.shape.child_induction with
  | hQ n ih =>
    have hO' : ∀ g ∈ G.finishChildren n, ∀ x, G.shape.Anc g x → G.Overlap x := fun g hg x hx =>
      hO x ((Shape.anc_of_mem_children (AFTaskGraph.mem_finishChildren.mp hg).1).trans hx)
    have hle : ∀ g ∈ G.finishChildren n, G.toSites g + G.toLocal g ≤ G.span g := by
      intro g hg
      have := h.booked_le g (hO' g hg)
      have htg := (AFTaskGraph.mem_finishChildren.mp hg).2
      rwa [AFTaskGraph.stepWork, if_neg (by rw [htg]; decide), Nat.zero_add] at this
    have ih' : ∀ g ∈ G.finishChildren n, (G.toSites g + G.toLocal g = G.span g ↔ G.Kept g) := by
      intro g hg
      obtain ⟨hgc, htg⟩ := AFTaskGraph.mem_finishChildren.mp hg
      exact ih g hgc htg (hO' g hg)
    obtain ⟨hsum, heq⟩ := finishSites_add_onLocal h.shape hle
    rw [kept_iff]
    by_cases hw : G.AsyncWins n
    · -- the rest of the span goes to the parent
      have := hO n (.refl n) hw
      rw [AFTaskGraph.toSites, AFTaskGraph.toLocal, h.booked_asyncWins ht hw]
      dsimp only
      exact iff_of_true (by omega) ⟨fun _ hnw => absurd hw hnw, fun g hg => absurd hw hg.2.1⟩
    · by_cases himp : G.Implicit n
      · -- the map is dropped
        have hp : ¬ G.ParLoop n := fun hp => hp.1 himp.2.1
        rw [AFTaskGraph.toSites, AFTaskGraph.toLocal, h.booked_implicit ht himp hw,
          h.span_of_not_asyncWins hw]
        dsimp only
        have hdrop : 0 + G.onLocal n = G.serialWork n ↔
            G.finishSites n = 0 ∧ G.finishSites n + G.onLocal n = G.serialWork n := by omega
        rw [hdrop, heq, AFTaskGraph.finishSites, Finset.sum_eq_zero_iff]
        constructor
        · rintro ⟨hz, hall⟩
          exact ⟨fun _ _ => hz, fun g hg => (ih' g hg.1).mp (hall g hg.1)⟩
        · rintro ⟨hz, hall⟩
          exact ⟨hz himp hw, fun g hg => (ih' g hg).mpr (hall g ⟨hg, hw, hp⟩)⟩
      · by_cases hp : G.ParLoop n
        · -- the map is replaced by the span
          rw [AFTaskGraph.toSites, AFTaskGraph.toLocal, h.booked_parLoop ht hp hw]
          exact iff_of_true (Nat.add_zero _)
            ⟨fun hi => absurd hi himp, fun g hg => absurd hp hg.2.2⟩
        · rw [h.booked_other ht himp hp, h.span_of_not_asyncWins hw, heq]
          constructor
          · intro hall
            exact ⟨fun hi => absurd hi himp, fun g hg => (ih' g hg.1).mp (hall g hg.1)⟩
          · rintro ⟨-, hall⟩ g hg
            exact (ih' g hg).mpr (hall g ⟨hg, hw, hp⟩)

end TaskProf.Analysis
