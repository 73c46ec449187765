import Mathlib

/-!
# Objects at addresses

Objects that are allocated at increasing addresses, from `n` on.

* `place`: new objects at the next addresses.
* `Every`: a property of every object.
* `total`: the sum of an amount over the objects, and how it changes.
-/

namespace TaskProf

variable {α : Type}

/-- New objects from the address `n` on. -/
def place (objects : ℕ → Option α) : ℕ → List α → ℕ → Option α
  | _, [] => objects
  | n, a :: l => place (Function.update objects n (some a)) (n + 1) l

/-- Every object has the property `p`. -/
def Every (p : α → Prop) (objects : ℕ → Option α) : Prop := ∀ x a, objects x = some a → p a

/-- The sum of `f` over the objects below the address `n`. -/
def total (f : α → ℕ) (objects : ℕ → Option α) (n : ℕ) : ℕ :=
  ∑ x ∈ Finset.range n, ((objects x).map f).getD 0

section Objects

variable {objects : ℕ → Option α} {p : α → Prop} {f : α → ℕ} {n x : ℕ} {a : α} {l : List α}

theorem place_of_le (hfresh : ∀ x, n ≤ x → objects x = none) (hx : n + l.length ≤ x) :
    place objects n l x = none := by
  induction l generalizing objects n with
  | nil => exact hfresh x hx
  | cons a l ih =>
    rw [List.length_cons] at hx
    apply ih _ (by omega)
    intro y hy
    rw [Function.update_of_ne (by omega)]
    exact hfresh y (by omega)

/-! ## Properties -/

theorem Every.update (h : Every p objects) (ha : p a) :
    Every p (Function.update objects x (some a)) := by
  intro y b hy
  by_cases hyx : y = x
  · subst hyx
    rw [Function.update_self] at hy
    rwa [← Option.some.inj hy]
  · rw [Function.update_of_ne hyx] at hy
    exact h y b hy

theorem Every.free (h : Every p objects) (x : ℕ) : Every p (Function.update objects x none) := by
  intro y b hy
  by_cases hyx : y = x
  · rw [hyx, Function.update_self] at hy
    cases hy
  · rw [Function.update_of_ne hyx] at hy
    exact h y b hy

theorem Every.place (h : Every p objects) (hl : ∀ a ∈ l, p a) (n : ℕ) :
    Every p (place objects n l) := by
  induction l generalizing objects n with
  | nil => exact h
  | cons a l ih =>
    apply ih (h.update (hl a List.mem_cons_self))
    exact fun b hb => hl b (List.mem_cons_of_mem a hb)

/-! ## Totals -/

/-- The total changes by what the object at `x` does. -/
theorem total_update (objects : ℕ → Option α) (hx : x < n) (o : Option α) :
    total f (Function.update objects x o) n + ((objects x).map f).getD 0 =
      total f objects n + (o.map f).getD 0 := by
  have hmem : x ∈ Finset.range n := Finset.mem_range.mpr hx
  unfold total
  rw [← Finset.add_sum_erase _ _ hmem,
    ← Finset.add_sum_erase _ (fun y => ((objects y).map f).getD 0) hmem, Function.update_self]
  have hsame : ∑ y ∈ (Finset.range n).erase x, ((Function.update objects x o y).map f).getD 0 =
      ∑ y ∈ (Finset.range n).erase x, ((objects y).map f).getD 0 := by
    apply Finset.sum_congr rfl
    intro y hy
    rw [Function.update_of_ne (Finset.ne_of_mem_erase hy)]
  rw [hsame]
  omega

theorem total_modify (hx : objects x = some a) (hn : x < n) (a' : α) :
    total f (Function.update objects x (some a')) n + f a = total f objects n + f a' := by
  have hupdate := total_update objects (f := f) hn (some a')
  rw [hx] at hupdate
  exact hupdate

theorem total_free (hx : objects x = some a) (hn : x < n) :
    total f (Function.update objects x none) n + f a = total f objects n := by
  have hupdate := total_update objects (f := f) hn none
  rw [hx] at hupdate
  exact hupdate

/-- New objects bring their amounts. -/
theorem total_place (l : List α) :
    total f (place objects n l) (n + l.length) = total f objects n + (l.map f).sum := by
  induction l generalizing objects n with
  | nil => rfl
  | cons a l ih =>
    have hnew : total f (Function.update objects n (some a)) (n + 1) = total f objects n + f a := by
      unfold total
      rw [Finset.sum_range_succ, Function.update_self]
      congr 1
      apply Finset.sum_congr rfl
      intro y hy
      rw [Function.update_of_ne (Finset.mem_range.mp hy).ne]
    rw [place, List.length_cons, Nat.add_comm l.length, ← Nat.add_assoc, ih, hnew, List.map_cons,
      List.sum_cons, Nat.add_assoc]

theorem total_eq_zero (h : ∀ x a, objects x = some a → f a = 0) (n : ℕ) :
    total f objects n = 0 := by
  apply Finset.sum_eq_zero
  intro x _
  cases hx : objects x with
  | none => rfl
  | some a => exact h x a hx

end Objects

end TaskProf
