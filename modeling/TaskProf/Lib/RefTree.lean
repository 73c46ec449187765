import Mathlib

/-!
# Trees with reference counts

Objects with a parent whose parent counts them. A count may be set before the
children are there: the references that are still to come are its credit.

* `Counted`: a count is the number of the children and the credit.
* `Rooted`: every object that has a parent is below the root.
* `Rooted.eq_none`: when the root counts no child, there is no object below it.
* `Rooted.exists_leaf`: when it counts one, some object below it counts none.
-/

namespace TaskProf

/-! ## Counts -/

/-- Every count is that of the children, with the credit. -/
def Counted (parent : ℕ → Option ℕ) (refs credit : ℕ → ℕ) : Prop :=
  ∃ children : ℕ → Finset ℕ, (∀ p x, x ∈ children p ↔ parent x = some p) ∧
    ∀ p, refs p = (children p).card + credit p

section Counts

variable {parent : ℕ → Option ℕ} {refs credit : ℕ → ℕ} {x p n : ℕ}

theorem counted_empty : Counted (fun _ => none) (fun _ => 0) fun _ => 0 :=
  ⟨fun _ => ∅, by simp, by simp⟩

/-- A parent counts its child. -/
theorem Counted.credit_lt (h : Counted parent refs credit) (hx : parent x = some p) :
    credit p < refs p := by
  obtain ⟨children, hmem, hcard⟩ := h
  have hpos := Finset.card_pos.mpr ⟨x, (hmem p x).mpr hx⟩
  have := hcard p
  omega

theorem Counted.no_child (h : Counted parent refs credit) (hp : refs p = credit p) (x : ℕ) :
    parent x ≠ some p := by
  intro hx
  have := h.credit_lt hx
  omega

/-- A new child takes a reference from the credit. -/
theorem Counted.attach (h : Counted parent refs credit) (hx : parent x = none)
    (hn : credit p = n + 1) :
    Counted (Function.update parent x (some p)) refs (Function.update credit p n) := by
  obtain ⟨children, hmem, hcard⟩ := h
  have hnot : x ∉ children p := by
    rw [hmem, hx]
    simp
  refine ⟨Function.update children p (insert x (children p)), fun q y => ?_, fun q => ?_⟩
  · by_cases hq : q = p
    · subst hq
      rw [Function.update_self, Finset.mem_insert, hmem]
      by_cases hy : y = x
      · simp [hy]
      · simp [hy]
    · rw [Function.update_of_ne hq, hmem]
      by_cases hy : y = x
      · subst hy
        simp [hx, Ne.symm hq]
      · rw [Function.update_of_ne hy]
  · by_cases hq : q = p
    · subst hq
      rw [Function.update_self, Function.update_self, Finset.card_insert_of_notMem hnot, hcard]
      omega
    · rw [Function.update_of_ne hq, Function.update_of_ne hq, hcard]

/-- A child that leaves gives its reference back to the credit. -/
theorem Counted.release (h : Counted parent refs credit) (hx : parent x = some p) :
    Counted (Function.update parent x none) refs
      (Function.update credit p (credit p + 1)) := by
  obtain ⟨children, hmem, hcard⟩ := h
  have hin : x ∈ children p := (hmem p x).mpr hx
  refine ⟨Function.update children p ((children p).erase x), fun q y => ?_, fun q => ?_⟩
  · by_cases hq : q = p
    · subst hq
      rw [Function.update_self, Finset.mem_erase, hmem]
      by_cases hy : y = x
      · simp [hy]
      · simp [hy]
    · rw [Function.update_of_ne hq, hmem]
      by_cases hy : y = x
      · subst hy
        simp [hx, Ne.symm hq]
      · rw [Function.update_of_ne hy]
  · by_cases hq : q = p
    · subst hq
      have hpos := Finset.card_pos.mpr ⟨x, hin⟩
      rw [Function.update_self, Function.update_self, Finset.card_erase_of_mem hin, hcard]
      omega
    · rw [Function.update_of_ne hq, Function.update_of_ne hq, hcard]

/-- The count and the credit of `p` change by the same amount. -/
theorem Counted.setRefs (h : Counted parent refs credit) {c : ℕ}
    (hn : n + credit p = refs p + c) :
    Counted parent (Function.update refs p n) (Function.update credit p c) := by
  obtain ⟨children, hmem, hcard⟩ := h
  refine ⟨children, hmem, fun q => ?_⟩
  by_cases hq : q = p
  · subst hq
    have := hcard q
    rw [Function.update_self, Function.update_self]
    omega
  · rw [Function.update_of_ne hq, Function.update_of_ne hq, hcard]

/-- A child that leaves takes its reference with it. -/
theorem Counted.detach (h : Counted parent refs credit) (hx : parent x = some p) :
    Counted (Function.update parent x none) (Function.update refs p (refs p - 1)) credit := by
  have hlt := h.credit_lt hx
  have hset := (h.release hx).setRefs (p := p) (n := refs p - 1) (c := credit p) (by
    rw [Function.update_self]
    omega)
  rwa [Function.update_idem, Function.update_eq_self] at hset

/-- `y` takes the place of `x` below `p`, and counts `x` and another child `z`. -/
theorem Counted.interpose {y z : ℕ} (h : Counted parent refs credit) (hx : parent x = some p)
    (hy : parent y = none) (hz : parent z = none) (hxy : x ≠ y) (hxz : x ≠ z) (hyz : y ≠ z)
    (hrefs : refs y = 0) (hcredit : credit y = 0) :
    Counted (Function.update (Function.update (Function.update parent y (some p)) x (some y)) z
      (some y)) (Function.update refs y 2) credit := by
  have h1 := h.release hx
  have h2 := h1.attach (x := y) (p := p) (n := credit p)
    (by rw [Function.update_of_ne hxy.symm, hy]) (Function.update_self ..)
  rw [Function.update_idem, Function.update_eq_self] at h2
  have h3 := h2.setRefs (p := y) (n := 2) (c := 2) (by rw [hrefs, hcredit])
  have h4 := h3.attach (x := x) (p := y) (n := 1)
    (by rw [Function.update_of_ne hxy, Function.update_self]) (Function.update_self ..)
  have h5 := h4.attach (x := z) (p := y) (n := 0)
    (by rw [Function.update_of_ne hxz.symm, Function.update_of_ne hyz.symm,
      Function.update_of_ne hxz.symm, hz]) (Function.update_self ..)
  rwa [Function.update_idem, Function.update_idem, ← hcredit, Function.update_eq_self,
    Function.update_comm hxy, Function.update_idem] at h5

end Counts

/-! ## Below the root -/

/-- The parents of `x` lead to the root. -/
inductive Below (parent : ℕ → Option ℕ) (root : ℕ) : ℕ → Prop
  | child {x : ℕ} (h : parent x = some root) : Below parent root x
  | step {x y : ℕ} (h : parent x = some y) (hy : Below parent root y) : Below parent root x

/-- Every object that has a parent is below the root. -/
def Rooted (parent : ℕ → Option ℕ) (root : ℕ) : Prop := ∀ x, parent x ≠ none → Below parent root x

section Roots

variable {parent : ℕ → Option ℕ} {root x y p : ℕ}

theorem Below.ne_none (h : Below parent root x) : parent x ≠ none := by
  cases h with
  | child h | step h => simp [h]

/-- The parent of an object is the root or is below it. -/
theorem Rooted.parent_root_or (h : Rooted parent root) (hx : parent x = some p) :
    p = root ∨ parent p ≠ none := by
  have hbelow := h x (by simp [hx])
  cases hbelow with
  | child hr => exact .inl (Option.some.inj (hx.symm.trans hr))
  | step hy hb =>
    obtain rfl := Option.some.inj (hx.symm.trans hy)
    exact .inr hb.ne_none

theorem Rooted.attach (h : Rooted parent root) (hx : parent x = none)
    (hp : p = root ∨ parent p ≠ none) : Rooted (Function.update parent x (some p)) root := by
  have hkeep : ∀ y, Below parent root y → Below (Function.update parent x (some p)) root y := by
    intro y hy
    induction hy with
    | @child y hy =>
      apply Below.child
      rw [Function.update_of_ne, hy]
      rintro rfl
      rw [hx] at hy
      cases hy
    | @step y z hy _ ih =>
      refine Below.step (y := z) ?_ ih
      rw [Function.update_of_ne, hy]
      rintro rfl
      rw [hx] at hy
      cases hy
  intro y hy
  by_cases hyx : y = x
  · subst hyx
    rcases hp with rfl | hp
    · exact .child (Function.update_self ..)
    · exact .step (Function.update_self ..) (hkeep p (h p hp))
  · rw [Function.update_of_ne hyx] at hy
    exact hkeep y (h y hy)

/-- An object without children leaves. -/
theorem Rooted.detach (h : Rooted parent root) (hx : ∀ y, parent y ≠ some x) :
    Rooted (Function.update parent x none) root := by
  intro y hy
  have hyx : y ≠ x := by
    rintro rfl
    exact hy (Function.update_self ..)
  rw [Function.update_of_ne hyx] at hy
  have hbelow := h y hy
  clear hy
  induction hbelow with
  | child hy =>
    apply Below.child
    rw [Function.update_of_ne hyx, hy]
  | @step y z hy _ ih =>
    have hzx : z ≠ x := by
      rintro rfl
      exact hx y hy
    refine Below.step (y := z) ?_ (ih hzx)
    rw [Function.update_of_ne hyx, hy]

/-- An object moves below its sibling `y`. -/
theorem Rooted.redirect (h : Rooted parent root) (hx : parent x = some p)
    (hy : parent y = some p) (hxy : x ≠ y) : Rooted (Function.update parent x (some y)) root := by
  have hkeep : ∀ z, Below parent root z → Below (Function.update parent x (some y)) root z := by
    intro z hz
    induction hz with
    | @child z hz =>
      by_cases hzx : z = x
      · subst hzx
        obtain rfl := Option.some.inj (hx.symm.trans hz)
        refine .step (Function.update_self ..) (.child ?_)
        rw [Function.update_of_ne hxy.symm, hy]
      · apply Below.child
        rw [Function.update_of_ne hzx, hz]
    | @step z q hz _ ih =>
      by_cases hzx : z = x
      · subst hzx
        obtain rfl := Option.some.inj (hx.symm.trans hz)
        refine .step (Function.update_self ..) (.step (y := p) ?_ ih)
        rw [Function.update_of_ne hxy.symm, hy]
      · refine .step (y := q) ?_ ih
        rw [Function.update_of_ne hzx, hz]
  intro z hz
  apply hkeep
  apply h
  intro hnone
  by_cases hzx : z = x
  · rw [hzx, hx] at hnone
    cases hnone
  · rw [Function.update_of_ne hzx] at hz
    exact hz hnone

/-- `y` takes the place of `x` below `p`, above `x` and another child `z`. -/
theorem Rooted.interpose {z : ℕ} (h : Rooted parent root) (hx : parent x = some p)
    (hy : parent y = none) (hz : parent z = none) (hxy : x ≠ y) (hxz : x ≠ z) (hyz : y ≠ z) :
    Rooted (Function.update (Function.update (Function.update parent y (some p)) x (some y)) z
      (some y)) root := by
  have h1 := h.attach hy (h.parent_root_or hx)
  have h2 := h1.redirect (x := x) (y := y) (by rw [Function.update_of_ne hxy, hx])
    (Function.update_self ..) hxy
  refine h2.attach ?_ (.inr ?_)
  · rw [Function.update_of_ne hxz.symm, Function.update_of_ne hyz.symm, hz]
  · rw [Function.update_of_ne hxy.symm, Function.update_self]
    exact Option.some_ne_none p

/-- When the root counts nothing but its credit, nothing is below it. -/
theorem Rooted.eq_none {refs credit : ℕ → ℕ} (h : Rooted parent root)
    (hc : Counted parent refs credit) (hroot : refs root = credit root) (x : ℕ) :
    parent x = none := by
  by_contra hx
  have hbelow := h x hx
  clear hx
  induction hbelow with
  | child hy => exact hc.no_child hroot _ hy
  | step _ _ ih => exact ih

/-- Finitely many objects below the root cannot all have a child, if the root has one. -/
theorem Rooted.exists_leaf (h : Rooted parent root) {n : ℕ} (hfin : ∀ x, n ≤ x → parent x = none)
    (hroot : parent root = none) (hchild : parent x = some root) :
    ∃ y, parent y ≠ none ∧ ∀ z, parent z ≠ some y := by
  by_contra hno
  have hall : ∀ y, parent y ≠ none → ∃ z, parent z = some y := by
    intro y hy
    by_contra hleaf
    exact hno ⟨y, hy, fun z hz => hleaf ⟨z, hz⟩⟩
  let below : Finset ℕ := {y ∈ Finset.range n | parent y ≠ none}
  have hmem : ∀ y, y ∈ below ↔ parent y ≠ none := by
    intro y
    rw [Finset.mem_filter, Finset.mem_range]
    refine ⟨And.right, fun hy => ⟨?_, hy⟩⟩
    by_contra hle
    exact hy (hfin y (by omega))
  -- every object and the root is the parent of an object
  have hsurj : insert root below ⊆ below.image fun y => (parent y).getD 0 := by
    intro y hy
    have hz : ∃ z, parent z = some y := by
      rcases Finset.mem_insert.mp hy with rfl | hy
      · exact ⟨x, hchild⟩
      · exact hall y ((hmem y).mp hy)
    obtain ⟨z, hz⟩ := hz
    refine Finset.mem_image.mpr ⟨z, (hmem z).mpr ?_, ?_⟩
    · rw [hz]
      exact Option.some_ne_none y
    · rw [hz]
      rfl
  have hcard := (Finset.card_le_card hsurj).trans Finset.card_image_le
  rw [Finset.card_insert_of_notMem (by rw [hmem]; exact fun hne => hne hroot)] at hcard
  exact absurd hcard (Nat.not_succ_le_self _)

end Roots

end TaskProf
