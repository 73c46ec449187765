import TaskProf.Lib.Forest

/-!
# Series-parallel forests

The children of a node run one after the other, except that a `par` child runs
beside the siblings to its right. The leaves take time.

* `Precedes`: one node must end before the other begins; a strict order.
* `IsCritical`: the length of the critical path, by recursion.
* `IsCritical.isGreatest`: it is the weight of the heaviest chain of leaves.
* `IsCritical.isLeast`: it is the least time in which the leaves can be run.
* `Schedule.work_le`: `P` processors take at least a `P`-th of the work.
* `IsCritical.elapse`: it is the time that a clock shows that goes over the children.
-/

namespace TaskProf

namespace Shape

variable {S : Shape} {par : ℕ → Prop} {a b c d e n p q x : ℕ}

/-! ## The order -/

variable (S par) in
/-- `a` and `b` are below two siblings, of which the left one is serial. -/
def Precedes (a b : ℕ) : Prop :=
  ∃ p, ∃ c ∈ S.children p, ∃ d ∈ S.children p, c < d ∧ ¬ par c ∧ S.Anc c a ∧ S.Anc d b

/-- A node below a sibling of `d` is not below `d`. -/
theorem not_anc_of_sibling (h : S.WellFormed) (hc : c ∈ S.children p) (hd : d ∈ S.children p)
    (hcd : c ≠ d) (hca : S.Anc c a) : ¬ S.Anc d a := fun hda =>
  hcd (sibling_eq h hc hd hca hda)

/-- A proper descendant of `c` has all its siblings below `c`. -/
theorem Anc.sibling (hx : S.Anc c x) (hne : x ≠ c) (hxp : x ∈ S.children p)
    (hy : d ∈ S.children p) : S.Anc c d := by
  have hp := hx.parent hne
  rw [(mem_children.mp hxp).2] at hp
  exact hp.trans (anc_of_mem_children hy)

/-- There is one pair of siblings above two nodes. -/
theorem siblings_unique (h : S.WellFormed) {c' d' : ℕ} (hc : c ∈ S.children p)
    (hd : d ∈ S.children p) (hcd : c ≠ d) (hca : S.Anc c a) (hdb : S.Anc d b)
    (hc' : c' ∈ S.children q) (hd' : d' ∈ S.children q) (hcd' : c' ≠ d') (hca' : S.Anc c' a)
    (hdb' : S.Anc d' b) : c = c' ∧ d = d' := by
  have hcc : c = c' := by
    by_contra hne
    rcases Nat.lt_or_gt_of_ne hne with hlt | hlt
    · -- the siblings `c'` and `d'` are both below `c`
      have hbelow := (hca.of_le h hca' hlt.le).sibling (Ne.symm hne) hc' hd'
      exact not_anc_of_sibling h hc hd hcd (hbelow.trans hdb') hdb
    · have hbelow := (hca'.of_le h hca hlt.le).sibling hne hc hd
      exact not_anc_of_sibling h hc' hd' hcd' (hbelow.trans hdb) hdb'
  subst hcc
  have hpq : p = q := (mem_children.mp hc).2.symm.trans (mem_children.mp hc').2
  subst hpq
  exact ⟨rfl, sibling_eq h hd hd' hdb hdb'⟩

theorem precedes_irrefl (h : S.WellFormed) (a : ℕ) : ¬ S.Precedes par a a := by
  rintro ⟨p, c, hc, d, hd, hlt, -, hca, hda⟩
  exact not_anc_of_sibling h hc hd hlt.ne hca hda

theorem precedes_trans (h : S.WellFormed) (hab : S.Precedes par a b) (hbe : S.Precedes par b e) :
    S.Precedes par a e := by
  obtain ⟨p, c, hc, d, hd, hlt, hpar, hca, hdb⟩ := hab
  obtain ⟨q, c', hc', d', hd', hlt', hpar', hcb', hde'⟩ := hbe
  rcases Nat.lt_trichotomy d c' with hdc | rfl | hdc
  · -- `c'` and `d'` are below `d`
    have hbelow := (hdb.of_le h hcb' hdc.le).sibling hdc.ne' hc' hd'
    exact ⟨p, c, hc, d, hd, hlt, hpar, hca, hbelow.trans hde'⟩
  · have hpq : p = q := (mem_children.mp hd).2.symm.trans (mem_children.mp hc').2
    subst hpq
    exact ⟨p, c, hc, d', hd', hlt.trans hlt', hpar, hca, hde'⟩
  · -- `c` and `d` are below `c'`
    have hbelow := (hcb'.of_le h hdb hdc.le).sibling hdc.ne' hd hc
    exact ⟨q, c', hc', d', hd', hlt', hpar', hbelow.trans hca, hde'⟩

/-- Below two siblings the order is that of the siblings. -/
theorem precedes_siblings (h : S.WellFormed) (hc : c ∈ S.children p) (hd : d ∈ S.children p)
    (hlt : c < d) (hca : S.Anc c a) (hdb : S.Anc d b) :
    (S.Precedes par a b ↔ ¬ par c) ∧ ¬ S.Precedes par b a := by
  refine ⟨⟨?_, fun hpar => ⟨p, c, hc, d, hd, hlt, hpar, hca, hdb⟩⟩, ?_⟩
  · rintro ⟨q, c', hc', d', hd', hlt', hpar, hca', hdb'⟩
    obtain ⟨rfl, -⟩ := siblings_unique h hc hd hlt.ne hca hdb hc' hd' hlt'.ne hca' hdb'
    exact hpar
  · rintro ⟨q, c', hc', d', hd', hlt', -, hcb', hda'⟩
    obtain ⟨rfl, rfl⟩ := siblings_unique h hc hd hlt.ne hca hdb hd' hc' hlt'.ne' hda' hcb'
    omega

/-! ## Chains -/

/-- Leaves below `n` that run one after the other. -/
structure LeafChain (S : Shape) (par : ℕ → Prop) (n : ℕ) (A : Finset ℕ) : Prop where
  below : ∀ x ∈ A, S.Anc n x
  leaf : ∀ x ∈ A, S.children x = ∅
  chain : IsChain (S.Precedes par) (A : Set ℕ)

theorem LeafChain.subset {A B : Finset ℕ} (hA : S.LeafChain par n A) (hB : B ⊆ A)
    (hm : ∀ x ∈ B, S.Anc p x) : S.LeafChain par p B :=
  ⟨hm, fun x hx => hA.leaf x (hB hx), hA.chain.mono (Finset.coe_subset.mpr hB)⟩

theorem leafChain_leaf (hn : S.children n = ∅) : S.LeafChain par n {n} where
  below x hx := by
    rw [Finset.mem_singleton.mp hx]
    exact .refl n
  leaf x hx := by
    rw [Finset.mem_singleton.mp hx]
    exact hn
  chain := by
    rw [Finset.coe_singleton]
    exact IsChain.singleton

/-- Chains below serial children, and below one more child, make a chain. -/
theorem leafChain_biUnion (h : S.WellFormed) {D : Finset ℕ} (hD : D ⊆ S.children n)
    (hserial : ∀ c ∈ D, ∀ d ∈ D, c < d → ¬ par c) {f : ℕ → Finset ℕ}
    (hf : ∀ c ∈ D, S.LeafChain par c (f c)) : S.LeafChain par n (D.biUnion f) where
  below x hx := by
    obtain ⟨c, hc, hx⟩ := Finset.mem_biUnion.mp hx
    exact (anc_of_mem_children (hD hc)).trans ((hf c hc).below x hx)
  leaf x hx := by
    obtain ⟨c, hc, hx⟩ := Finset.mem_biUnion.mp hx
    exact (hf c hc).leaf x hx
  chain := by
    intro x hx y hy hxy
    obtain ⟨c, hc, hx⟩ := Finset.mem_biUnion.mp (Finset.mem_coe.mp hx)
    obtain ⟨d, hd, hy⟩ := Finset.mem_biUnion.mp (Finset.mem_coe.mp hy)
    have hcx := (hf c hc).below x hx
    have hdy := (hf d hd).below y hy
    rcases Nat.lt_trichotomy c d with hcd | rfl | hcd
    · exact .inl ((precedes_siblings h (hD hc) (hD hd) hcd hcx hdy).1.mpr (hserial c hc d hd hcd))
    · exact (hf c hc).chain (Finset.mem_coe.mpr hx) (Finset.mem_coe.mpr hy) hxy
    · exact .inr ((precedes_siblings h (hD hd) (hD hc) hcd hdy hcx).1.mpr (hserial d hd c hc hcd))

/-- The chains below different children are disjoint. -/
theorem sum_biUnion_leafChain (h : S.WellFormed) {D : Finset ℕ} (hD : D ⊆ S.children n)
    {f : ℕ → Finset ℕ} (hf : ∀ c ∈ D, ∀ x ∈ f c, S.Anc c x) (weight : ℕ → ℕ) :
    ∑ x ∈ D.biUnion f, weight x = ∑ c ∈ D, ∑ x ∈ f c, weight x := by
  apply Finset.sum_biUnion
  intro c hc d hd hne
  rw [Function.onFun, Finset.disjoint_left]
  intro x hx hx'
  exact hne (sibling_eq h (hD hc) (hD hd) (hf c hc x hx) (hf d hd x hx'))

/-! ## The critical path -/

section Critical

variable [DecidablePred par] {weight crit : ℕ → ℕ}

/-- The length of the critical path of every node: a leaf takes its weight; the
    serial children of a node come after each other, and a `par` child after the
    serial ones to its left. -/
structure IsCritical (S : Shape) (par : ℕ → Prop) [DecidablePred par] (weight crit : ℕ → ℕ) :
    Prop where
  leaf : ∀ n, S.children n = ∅ → crit n = weight n
  inner : ∀ n, S.children n ≠ ∅ →
    crit n = max (∑ c ∈ S.children n with ¬ par c, crit c)
      ({c ∈ S.children n | par c}.sup fun c =>
        crit c + ∑ d ∈ S.children n with d < c ∧ ¬ par d, crit d)

/-- The children that one chain can go through are serial, except for the last. -/
theorem IsCritical.sum_le (hcrit : S.IsCritical par weight crit) (hn : S.children n ≠ ∅)
    {D : Finset ℕ} (hD : D ⊆ S.children n) (hserial : ∀ c ∈ D, ∀ d ∈ D, c < d → ¬ par c) :
    ∑ c ∈ D, crit c ≤ crit n := by
  rw [hcrit.inner n hn]
  by_cases hpar : ∃ m ∈ D, par m
  · obtain ⟨m, hm, hpm⟩ := hpar
    have hsub : D ⊆ insert m {d ∈ S.children n | d < m ∧ ¬ par d} := by
      intro c hc
      rw [Finset.mem_insert, Finset.mem_filter]
      rcases Nat.lt_trichotomy c m with hlt | heq | hlt
      · exact .inr ⟨hD hc, hlt, hserial c hc m hm hlt⟩
      · exact .inl heq
      · exact absurd hpm (hserial m hm c hc hlt)
    have hnot : m ∉ {d ∈ S.children n | d < m ∧ ¬ par d} := by simp
    calc ∑ c ∈ D, crit c
        ≤ ∑ c ∈ insert m {d ∈ S.children n | d < m ∧ ¬ par d}, crit c :=
          Finset.sum_le_sum_of_subset hsub
      _ = crit m + ∑ d ∈ S.children n with d < m ∧ ¬ par d, crit d := Finset.sum_insert hnot
      _ ≤ {c ∈ S.children n | par c}.sup fun c =>
            crit c + ∑ d ∈ S.children n with d < c ∧ ¬ par d, crit d :=
          Finset.le_sup (f := fun c => crit c + ∑ d ∈ S.children n with d < c ∧ ¬ par d, crit d)
            (Finset.mem_filter.mpr ⟨hD hm, hpm⟩)
      _ ≤ _ := le_max_right _ _
  · have hsub : D ⊆ {c ∈ S.children n | ¬ par c} := fun c hc =>
      Finset.mem_filter.mpr ⟨hD hc, fun hpc => hpar ⟨c, hc, hpc⟩⟩
    exact (Finset.sum_le_sum_of_subset hsub).trans (le_max_left _ _)

/-- No chain is heavier than the critical path. -/
theorem IsCritical.chain_le (h : S.WellFormed) (hcrit : S.IsCritical par weight crit)
    {A : Finset ℕ} (hA : S.LeafChain par n A) : ∑ x ∈ A, weight x ≤ crit n := by
  classical
  induction n using h.child_induction generalizing A with
  | hQ n ih =>
    by_cases hn : S.children n = ∅
    · have hsub : A ⊆ {n} := by
        intro x hx
        rcases anc_iff_eq_or_child.mp (hA.below x hx) with rfl | ⟨c, hc, -⟩
        · exact Finset.mem_singleton_self x
        · rw [hn] at hc
          cases hc
      have hle := Finset.sum_le_sum_of_subset (f := weight) hsub
      rw [Finset.sum_singleton] at hle
      rw [hcrit.leaf n hn]
      exact hle
    · -- the part of the chain below each child
      let f : ℕ → Finset ℕ := fun c => {x ∈ A | S.Anc c x}
      let D : Finset ℕ := {c ∈ S.children n | (f c).Nonempty}
      have hf : ∀ c, S.LeafChain par c (f c) := fun c =>
        hA.subset (Finset.filter_subset _ _) fun x hx => (Finset.mem_filter.mp hx).2
      have hD : D ⊆ S.children n := Finset.filter_subset _ _
      have hcover : A = D.biUnion f := by
        ext x
        rw [Finset.mem_biUnion]
        constructor
        · intro hx
          rcases anc_iff_eq_or_child.mp (hA.below x hx) with rfl | ⟨c, hc, hcx⟩
          · exact absurd (hA.leaf x hx) hn
          · have hxc : x ∈ f c := Finset.mem_filter.mpr ⟨hx, hcx⟩
            exact ⟨c, Finset.mem_filter.mpr ⟨hc, x, hxc⟩, hxc⟩
        · rintro ⟨c, -, hx⟩
          exact (Finset.mem_filter.mp hx).1
      have hserial : ∀ c ∈ D, ∀ d ∈ D, c < d → ¬ par c := by
        intro c hc d hd hlt
        obtain ⟨x, hx⟩ := (Finset.mem_filter.mp hc).2
        obtain ⟨y, hy⟩ := (Finset.mem_filter.mp hd).2
        have hcx := (hf c).below x hx
        have hdy := (hf d).below y hy
        obtain ⟨hiff, hno⟩ : (S.Precedes par x y ↔ ¬ par c) ∧ ¬ S.Precedes par y x :=
          precedes_siblings h (hD hc) (hD hd) hlt hcx hdy
        have hxy : x ≠ y := by
          rintro rfl
          exact not_anc_of_sibling h (hD hc) (hD hd) hlt.ne hcx hdy
        have hchain := hA.chain (Finset.mem_coe.mpr (Finset.mem_filter.mp hx).1)
          (Finset.mem_coe.mpr (Finset.mem_filter.mp hy).1) hxy
        exact hiff.mp (hchain.resolve_right hno)
      calc ∑ x ∈ A, weight x
          = ∑ c ∈ D, ∑ x ∈ f c, weight x := by
            rw [hcover]
            exact sum_biUnion_leafChain h hD (fun c _ => (hf c).below) weight
        _ ≤ ∑ c ∈ D, crit c := Finset.sum_le_sum fun c hc => ih c (hD hc) (hf c)
        _ ≤ crit n := hcrit.sum_le hn hD hserial

/-- Some chain is as heavy as the critical path. -/
theorem IsCritical.exists_chain (h : S.WellFormed) (hcrit : S.IsCritical par weight crit) (n : ℕ) :
    ∃ A, S.LeafChain par n A ∧ ∑ x ∈ A, weight x = crit n := by
  induction n using h.child_induction with
  | hQ n ih =>
    by_cases hn : S.children n = ∅
    · exact ⟨{n}, leafChain_leaf hn, by rw [Finset.sum_singleton, hcrit.leaf n hn]⟩
    · choose! f hf hsum using ih
      -- the chains of some children, put together
      have hjoin : ∀ D ⊆ S.children n, (∀ c ∈ D, ∀ d ∈ D, c < d → ¬ par c) →
          S.LeafChain par n (D.biUnion f) ∧ ∑ x ∈ D.biUnion f, weight x = ∑ c ∈ D, crit c := by
        intro D hD hserial
        refine ⟨leafChain_biUnion h hD hserial fun c hc => hf c (hD hc), ?_⟩
        rw [sum_biUnion_leafChain h hD fun c hc => (hf c (hD hc)).below]
        exact Finset.sum_congr rfl fun c hc => hsum c (hD hc)
      have hser := hjoin {c ∈ S.children n | ¬ par c} (Finset.filter_subset _ _)
        fun c hc _ _ _ => (Finset.mem_filter.mp hc).2
      rw [hcrit.inner n hn]
      by_cases hle : ({c ∈ S.children n | par c}.sup fun c =>
          crit c + ∑ d ∈ S.children n with d < c ∧ ¬ par d, crit d) ≤
          ∑ c ∈ S.children n with ¬ par c, crit c
      · rw [max_eq_left hle]
        exact ⟨_, hser⟩
      · rw [not_le] at hle
        rw [max_eq_right hle.le]
        have hne : {c ∈ S.children n | par c}.Nonempty := by
          rw [Finset.nonempty_iff_ne_empty]
          intro hempty
          rw [hempty, Finset.sup_empty] at hle
          exact Nat.not_lt_zero _ hle
        obtain ⟨m, hm, hsup⟩ := Finset.exists_mem_eq_sup _ hne fun c =>
          crit c + ∑ d ∈ S.children n with d < c ∧ ¬ par d, crit d
        obtain ⟨hmc, hpm⟩ := Finset.mem_filter.mp hm
        have hnot : m ∉ {d ∈ S.children n | d < m ∧ ¬ par d} := by simp
        obtain ⟨h1, h2⟩ := hjoin (insert m {d ∈ S.children n | d < m ∧ ¬ par d})
          (Finset.insert_subset hmc (Finset.filter_subset _ _)) (by
            intro c hc d hd hlt
            rcases Finset.mem_insert.mp hc with rfl | hc
            · -- nothing in the set is to the right of `m`
              rcases Finset.mem_insert.mp hd with rfl | hd
              · exact absurd hlt (lt_irrefl _)
              · have := (Finset.mem_filter.mp hd).2.1
                omega
            · exact (Finset.mem_filter.mp hc).2.2)
        refine ⟨_, h1, ?_⟩
        rw [h2, Finset.sum_insert hnot, hsup]

/-- **Critical path.** It is the weight of the heaviest chain. -/
theorem IsCritical.isGreatest (h : S.WellFormed) (hcrit : S.IsCritical par weight crit) (n : ℕ) :
    IsGreatest {w | ∃ A, S.LeafChain par n A ∧ ∑ x ∈ A, weight x = w} (crit n) := by
  refine ⟨hcrit.exists_chain h n, ?_⟩
  rintro w ⟨A, hA, rfl⟩
  exact hcrit.chain_le h hA

/-! ## Schedules -/

/-- `start` runs the leaves below `n` in their order, and all of them end by `T`. -/
structure Schedule (S : Shape) (par : ℕ → Prop) (weight : ℕ → ℕ) (n : ℕ) (start : ℕ → ℕ)
    (T : ℕ) : Prop where
  order : ∀ a b, S.Anc n a → S.Anc n b → S.children a = ∅ → S.children b = ∅ →
    S.Precedes par a b → start a + weight a ≤ start b
  ends : ∀ a, S.Anc n a → S.children a = ∅ → start a + weight a ≤ T

/-- Intervals that do not overlap fit into the time that contains them. -/
theorem sum_le_of_apart {A : Finset ℕ} (start : ℕ → ℕ) {T : ℕ}
    (hapart : ∀ a ∈ A, ∀ b ∈ A, a ≠ b →
      start a + weight a ≤ start b ∨ start b + weight b ≤ start a)
    (hends : ∀ a ∈ A, start a + weight a ≤ T) : ∑ a ∈ A, weight a ≤ T := by
  have hdis : Set.PairwiseDisjoint (A : Set ℕ)
      fun a => Finset.Ico (start a) (start a + weight a) := by
    intro a ha b hb hab
    rw [Function.onFun, Finset.disjoint_left]
    intro t hta htb
    rw [Finset.mem_Ico] at hta htb
    have := hapart a ha b hb hab
    omega
  have hsub : (A.biUnion fun a => Finset.Ico (start a) (start a + weight a)) ⊆
      Finset.range T := by
    intro t ht
    obtain ⟨a, ha, hta⟩ := Finset.mem_biUnion.mp ht
    rw [Finset.mem_Ico] at hta
    have := hends a ha
    apply Finset.mem_range.mpr
    omega
  calc ∑ a ∈ A, weight a
      = ∑ a ∈ A, (Finset.Ico (start a) (start a + weight a)).card := by simp
    _ = (A.biUnion fun a => Finset.Ico (start a) (start a + weight a)).card :=
        (Finset.card_biUnion hdis).symm
    _ ≤ (Finset.range T).card := Finset.card_le_card hsub
    _ = T := Finset.card_range T

omit [DecidablePred par] in
/-- A schedule runs the leaves of a chain one after the other. -/
theorem Schedule.chain_le {start : ℕ → ℕ} {T : ℕ} (hs : S.Schedule par weight n start T)
    {A : Finset ℕ} (hA : S.LeafChain par n A) : ∑ x ∈ A, weight x ≤ T := by
  refine sum_le_of_apart start (fun a ha b hb hab => ?_) fun a ha => ?_
  · have hchain := hA.chain (Finset.mem_coe.mpr ha) (Finset.mem_coe.mpr hb) hab
    refine hchain.imp (fun hlt => ?_) (fun hlt => ?_)
    · exact hs.order a b (hA.below a ha) (hA.below b hb) (hA.leaf a ha) (hA.leaf b hb) hlt
    · exact hs.order b a (hA.below b hb) (hA.below a ha) (hA.leaf b hb) (hA.leaf a ha) hlt
  · exact hs.ends a (hA.below a ha) (hA.leaf a ha)

omit [DecidablePred par] in
/-- A leaf extends a chain of leaves before it. -/
theorem LeafChain.insert {A : Finset ℕ} (hA : S.LeafChain par n A) (ha : S.Anc n a)
    (hleaf : S.children a = ∅) (hbefore : ∀ x ∈ A, S.Precedes par x a) :
    S.LeafChain par n (insert a A) where
  below x hx := by
    rcases Finset.mem_insert.mp hx with rfl | hx
    · exact ha
    · exact hA.below x hx
  leaf x hx := by
    rcases Finset.mem_insert.mp hx with rfl | hx
    · exact hleaf
    · exact hA.leaf x hx
  chain := by
    rw [Finset.coe_insert]
    exact hA.chain.insert fun x hx _ => .inr (hbefore x (Finset.mem_coe.mp hx))

/-- The weights of the chains that end before `b`. -/
def weightsBefore (S : Shape) (par : ℕ → Prop) (weight : ℕ → ℕ) (n b : ℕ) : Set ℕ :=
  {w | ∃ A, S.LeafChain par n A ∧ (∀ x ∈ A, S.Precedes par x b) ∧ ∑ x ∈ A, weight x = w}

/-- The earliest start: the heaviest chain that ends before `b`. -/
noncomputable def earliest (S : Shape) (par : ℕ → Prop) (weight : ℕ → ℕ) (n b : ℕ) : ℕ :=
  sSup (S.weightsBefore par weight n b)

theorem IsCritical.bddAbove_weightsBefore (h : S.WellFormed)
    (hcrit : S.IsCritical par weight crit) (n b : ℕ) :
    BddAbove (S.weightsBefore par weight n b) := by
  refine ⟨crit n, ?_⟩
  rintro w ⟨A, hA, -, rfl⟩
  exact hcrit.chain_le h hA

/-- The chain that the earliest start of `b` waits for. -/
theorem IsCritical.exists_earliest (h : S.WellFormed) (hcrit : S.IsCritical par weight crit)
    (n b : ℕ) : ∃ A, S.LeafChain par n A ∧ (∀ x ∈ A, S.Precedes par x b) ∧
      ∑ x ∈ A, weight x = S.earliest par weight n b := by
  have hempty : (0 : ℕ) ∈ S.weightsBefore par weight n b :=
    ⟨∅, ⟨by simp, by simp, by simp⟩, by simp, Finset.sum_empty⟩
  exact Nat.sSup_mem ⟨0, hempty⟩ (hcrit.bddAbove_weightsBefore h n b)

/-- Every leaf can start at its earliest start. -/
theorem IsCritical.schedule_earliest (h : S.WellFormed) (hcrit : S.IsCritical par weight crit)
    (n : ℕ) : S.Schedule par weight n (S.earliest par weight n) (crit n) := by
  -- the chain before a leaf, with the leaf
  have hextend : ∀ a, S.Anc n a → S.children a = ∅ → ∃ A, S.LeafChain par n A ∧
      (∀ x ∈ A, x = a ∨ S.Precedes par x a) ∧
      ∑ x ∈ A, weight x = S.earliest par weight n a + weight a := by
    intro a ha hleaf
    obtain ⟨A, hA, hbefore, hsum⟩ := hcrit.exists_earliest h n a
    refine ⟨insert a A, hA.insert ha hleaf hbefore, ?_, ?_⟩
    · intro x hx
      exact (Finset.mem_insert.mp hx).imp_right (hbefore x)
    · have hnot : a ∉ A := fun hmem => precedes_irrefl h a (hbefore a hmem)
      rw [Finset.sum_insert hnot, hsum, Nat.add_comm]
  refine ⟨fun a b ha _ hla _ hab => ?_, fun a ha hla => ?_⟩
  · obtain ⟨A, hA, hbefore, hsum⟩ := hextend a ha hla
    apply le_csSup (hcrit.bddAbove_weightsBefore h n b)
    refine ⟨A, hA, fun x hx => ?_, hsum⟩
    rcases hbefore x hx with rfl | hxa
    · exact hab
    · exact precedes_trans h hxa hab
  · obtain ⟨A, hA, -, hsum⟩ := hextend a ha hla
    rw [← hsum]
    exact hcrit.chain_le h hA

/-- **Completion time.** The critical path is the least time in which the leaves can
    be run, when there is a processor for each of them. -/
theorem IsCritical.isLeast (h : S.WellFormed) (hcrit : S.IsCritical par weight crit) (n : ℕ) :
    IsLeast {T | ∃ start, S.Schedule par weight n start T} (crit n) := by
  refine ⟨⟨_, hcrit.schedule_earliest h n⟩, ?_⟩
  rintro T ⟨start, hs⟩
  obtain ⟨A, hA, hsum⟩ := hcrit.exists_chain h n
  rw [← hsum]
  exact hs.chain_le hA

omit [DecidablePred par] in
/-- Processors that run one leaf at a time take at least their share of the work. -/
theorem Schedule.work_le {start : ℕ → ℕ} {T P : ℕ} (hs : S.Schedule par weight n start T)
    {L : Finset ℕ} (hL : ∀ a ∈ L, S.Anc n a ∧ S.children a = ∅) (proc : ℕ → Fin P)
    (hproc : ∀ a ∈ L, ∀ b ∈ L, a ≠ b → proc a = proc b →
      start a + weight a ≤ start b ∨ start b + weight b ≤ start a) :
    ∑ a ∈ L, weight a ≤ P * T := by
  calc ∑ a ∈ L, weight a
      = ∑ p : Fin P, ∑ a ∈ L with proc a = p, weight a :=
        (Finset.sum_fiberwise L proc weight).symm
    _ ≤ ∑ _p : Fin P, T := by
        apply Finset.sum_le_sum
        intro p _
        refine sum_le_of_apart start (fun a ha b hb hab => ?_) fun a ha => ?_
        · obtain ⟨ha, hpa⟩ := Finset.mem_filter.mp ha
          obtain ⟨hb, hpb⟩ := Finset.mem_filter.mp hb
          exact hproc a ha b hb hab (hpa.trans hpb.symm)
        · obtain ⟨h1, h2⟩ := hL a (Finset.mem_filter.mp ha).1
          exact hs.ends a h1 h2
    _ = P * T := by simp

/-! ## The children from left to right -/

/-- The time at which the last child ends, when the children that are left, `par` or not
    and with their lengths, are gone through from the time `clock` on, and the `par`
    children before them end at the time `pending`. -/
def elapse : ℕ → ℕ → List (Bool × ℕ) → ℕ
  | clock, pending, [] => max clock pending
  | clock, pending, (true, w) :: l => elapse clock (max pending (clock + w)) l
  | clock, pending, (false, w) :: l => elapse (clock + w) pending l

/-- The time as a maximum over the `par` children. -/
theorem elapse_eq_max (crit : ℕ → ℕ) {l : List ℕ} (hl : l.Pairwise (· < ·))
    (clock pending : ℕ) : elapse clock pending (l.map fun c => (decide (par c), crit c)) =
      max (clock + ∑ c ∈ l.toFinset with ¬ par c, crit c)
        (max pending ({c ∈ l.toFinset | par c}.sup fun c =>
          clock + (crit c + ∑ d ∈ l.toFinset with d < c ∧ ¬ par d, crit d))) := by
  induction l generalizing clock pending with
  | nil =>
    show max clock pending = _
    simp
  | cons x l ih =>
    obtain ⟨hx, hl⟩ := List.pairwise_cons.mp hl
    have hnot : x ∉ l.toFinset := fun h => lt_irrefl x (hx x (List.mem_toFinset.mp h))
    rw [List.map_cons, List.toFinset_cons]
    by_cases hp : par x
    · -- nothing to the left of `x`, and `x` is not serial
      have hleft : {d ∈ insert x l.toFinset | d < x ∧ ¬ par d} = ∅ := by
        apply Finset.filter_eq_empty_iff.mpr
        intro d hd hlt
        rcases Finset.mem_insert.mp hd with rfl | hd
        · exact lt_irrefl d hlt.1
        · exact lt_asymm hlt.1 (hx d (List.mem_toFinset.mp hd))
      have hothers : ∀ c, {d ∈ insert x l.toFinset | d < c ∧ ¬ par d} =
          {d ∈ l.toFinset | d < c ∧ ¬ par d} := by
        intro c
        rw [Finset.filter_insert, if_neg fun h => h.2 hp]
      rw [decide_eq_true hp, elapse, ih hl, Finset.filter_insert, if_neg (not_not_intro hp),
        Finset.filter_insert, if_pos hp, Finset.sup_insert, hleft, Finset.sum_empty]
      simp only [hothers, Nat.add_zero]
      rw [max_assoc]
    · have hsum : ∑ c ∈ insert x l.toFinset with ¬ par c, crit c =
          crit x + ∑ c ∈ l.toFinset with ¬ par c, crit c := by
        rw [Finset.filter_insert, if_pos hp, Finset.sum_insert fun h => hnot (Finset.mem_filter.mp h).1]
      -- `x` is to the left of all others
      have hothers : ∀ c ∈ {c ∈ l.toFinset | par c},
          clock + (crit c + ∑ d ∈ insert x l.toFinset with d < c ∧ ¬ par d, crit d) =
            clock + crit x + (crit c + ∑ d ∈ l.toFinset with d < c ∧ ¬ par d, crit d) := by
        intro c hc
        have hlt := hx c (List.mem_toFinset.mp (Finset.mem_filter.mp hc).1)
        rw [Finset.filter_insert, if_pos ⟨hlt, hp⟩,
          Finset.sum_insert fun h => hnot (Finset.mem_filter.mp h).1]
        omega
      rw [decide_eq_false hp, elapse, ih hl, hsum, Finset.filter_insert, if_neg hp,
        Finset.sup_congr rfl hothers, Nat.add_assoc]

/-- The critical path of a node is the time of its children. -/
theorem IsCritical.elapse (hcrit : S.IsCritical par weight crit) {l : List ℕ}
    (hl : l.Pairwise (· < ·)) (hmem : l.toFinset = S.children n) (hne : l ≠ []) :
    crit n = Shape.elapse 0 0 (l.map fun c => (decide (par c), crit c)) := by
  have hn : S.children n ≠ ∅ := by
    rw [← hmem]
    exact fun h => hne (List.toFinset_eq_empty_iff l |>.mp h)
  rw [elapse_eq_max crit hl, hmem, hcrit.inner n hn]
  simp only [Nat.zero_add, Nat.zero_max]

end Critical

end Shape

end TaskProf
