import Mathlib

/-!
# Numbers handed out by a counter

Parties `H` draw numbers from one counter. A number may be used at once
(`issue`), or be reserved for a party (`grant`), handed on (`move`) and used
later (`redeem`).

* `Valid`: every number below the counter has been used exactly once or is
  reserved for exactly one party.
* `Valid.mem_used_iff`: when nothing is reserved any more, exactly the numbers
  below the counter have been used.

`Separate` is the same discipline for objects named by numbers: each is in the
possession of one party, once.
-/

namespace TaskProf

variable {H : Type}

/-- The numbers used so far, in order, the reserved numbers and the counter. -/
@[ext] structure Tickets (H : Type) where
  used : List ℕ
  held : H → Option ℕ
  next : ℕ

namespace Tickets

/-- Use the next number. -/
def issue (T : Tickets H) : Tickets H := { T with used := T.used ++ [T.next], next := T.next + 1 }

variable [DecidableEq H]

/-- Reserve the next number for `x`. -/
def grant (T : Tickets H) (x : H) : Tickets H :=
  { T with held := Function.update T.held x (some T.next), next := T.next + 1 }

/-- Use the number `i` that is reserved for `x`. -/
def redeem (T : Tickets H) (x : H) (i : ℕ) : Tickets H :=
  { T with used := T.used ++ [i], held := Function.update T.held x none }

/-- Hand the number reserved for `x` on to `y`. -/
def move (T : Tickets H) (x y : H) : Tickets H :=
  { T with held := Function.update (Function.update T.held x none) y (T.held x) }

omit [DecidableEq H] in
/-- Numbers start at 1; every number below the counter is used once or reserved
    once. -/
structure Valid (T : Tickets H) : Prop where
  pos : 1 ≤ T.next
  nodup : T.used.Nodup
  used_lt : ∀ i ∈ T.used, 1 ≤ i ∧ i < T.next
  held_lt : ∀ x i, T.held x = some i → 1 ≤ i ∧ i < T.next
  held_notMem : ∀ x i, T.held x = some i → i ∉ T.used
  held_inj : ∀ x y i, T.held x = some i → T.held y = some i → x = y
  cover : ∀ i, 1 ≤ i → i < T.next → i ∈ T.used ∨ ∃ x, T.held x = some i

variable {T : Tickets H}

omit [DecidableEq H] in
theorem Valid.issue (h : T.Valid) : T.issue.Valid where
  pos := by show 1 ≤ T.next + 1; omega
  nodup := by
    show (T.used ++ [T.next]).Nodup
    refine List.nodup_append.mpr ⟨h.nodup, List.nodup_singleton _, ?_⟩
    intro i hi j hj
    rw [List.mem_singleton] at hj
    have := (h.used_lt i hi).2
    omega
  used_lt := by
    intro i hi
    show 1 ≤ i ∧ i < T.next + 1
    have h1 := h.pos
    rcases List.mem_append.mp hi with hi | hi
    · have := h.used_lt i hi
      omega
    · rw [List.mem_singleton] at hi
      omega
  held_lt := by
    intro x i hx
    show 1 ≤ i ∧ i < T.next + 1
    have := h.held_lt x i hx
    omega
  held_notMem := by
    intro x i hx hi
    rcases List.mem_append.mp hi with hi | hi
    · exact h.held_notMem x i hx hi
    · rw [List.mem_singleton] at hi
      have := (h.held_lt x i hx).2
      omega
  held_inj := h.held_inj
  cover := by
    intro i h1 hi
    have hi : i < T.next + 1 := hi
    by_cases he : i = T.next
    · exact .inl (List.mem_append_right _ (by rw [he]; exact List.mem_singleton_self _))
    · rcases h.cover i h1 (by omega) with hu | hx
      · exact .inl (List.mem_append_left _ hu)
      · exact .inr hx

theorem Valid.grant (h : T.Valid) (x : H) (hx : T.held x = none) : (T.grant x).Valid where
  pos := by show 1 ≤ T.next + 1; omega
  nodup := h.nodup
  used_lt := by
    intro i hi
    show 1 ≤ i ∧ i < T.next + 1
    have := h.used_lt i hi
    omega
  held_lt := by
    intro y i hy
    show 1 ≤ i ∧ i < T.next + 1
    have h1 := h.pos
    by_cases hyx : y = x
    · subst hyx
      have he : T.next = i := by simpa [Tickets.grant] using hy
      omega
    · have := h.held_lt y i (by simpa [Tickets.grant, hyx] using hy)
      omega
  held_notMem := by
    intro y i hy hi
    by_cases hyx : y = x
    · subst hyx
      have he : T.next = i := by simpa [Tickets.grant] using hy
      have := (h.used_lt i hi).2
      omega
    · exact h.held_notMem y i (by simpa [Tickets.grant, hyx] using hy) hi
  held_inj := by
    intro y z i hy hz
    have hlt : ∀ w, w ≠ x → (T.grant x).held w = some i → i < T.next := by
      intro w hw hwi
      exact (h.held_lt w i (by simpa [Tickets.grant, hw] using hwi)).2
    have heq : ∀ w, w = x → (T.grant x).held w = some i → T.next = i := by
      intro w hw hwi
      subst hw
      simpa [Tickets.grant] using hwi
    by_cases hyx : y = x <;> by_cases hzx : z = x
    · rw [hyx, hzx]
    · have h1 := heq y hyx hy
      have h2 := hlt z hzx hz
      omega
    · have h1 := heq z hzx hz
      have h2 := hlt y hyx hy
      omega
    · exact h.held_inj y z i (by simpa [Tickets.grant, hyx] using hy)
        (by simpa [Tickets.grant, hzx] using hz)
  cover := by
    intro i h1 hi
    have hi : i < T.next + 1 := hi
    by_cases he : i = T.next
    · exact .inr ⟨x, by simp [Tickets.grant, he]⟩
    · rcases h.cover i h1 (by omega) with hu | ⟨y, hy⟩
      · exact .inl hu
      · have hyx : y ≠ x := by rintro rfl; rw [hx] at hy; cases hy
        exact .inr ⟨y, by simpa [Tickets.grant, hyx] using hy⟩

theorem Valid.redeem (h : T.Valid) {x : H} {i : ℕ} (hx : T.held x = some i) :
    (T.redeem x i).Valid where
  pos := h.pos
  nodup := by
    show (T.used ++ [i]).Nodup
    refine List.nodup_append.mpr ⟨h.nodup, List.nodup_singleton _, ?_⟩
    intro j hj k hk he
    rw [List.mem_singleton] at hk
    subst hk he
    exact h.held_notMem x j hx hj
  used_lt := by
    intro j hj
    rcases List.mem_append.mp hj with hj | hj
    · exact h.used_lt j hj
    · rw [List.mem_singleton] at hj
      subst hj
      exact h.held_lt x j hx
  held_lt := by
    intro y j hy
    by_cases hyx : y = x
    · subst hyx; simp [Tickets.redeem] at hy
    · exact h.held_lt y j (by simpa [Tickets.redeem, hyx] using hy)
  held_notMem := by
    intro y j hy hj
    by_cases hyx : y = x
    · subst hyx; simp [Tickets.redeem] at hy
    · have hy' : T.held y = some j := by simpa [Tickets.redeem, hyx] using hy
      rcases List.mem_append.mp hj with hj | hj
      · exact h.held_notMem y j hy' hj
      · rw [List.mem_singleton] at hj
        subst hj
        exact hyx (h.held_inj y x j hy' hx)
  held_inj := by
    intro y z j hy hz
    by_cases hyx : y = x
    · subst hyx; simp [Tickets.redeem] at hy
    · by_cases hzx : z = x
      · subst hzx; simp [Tickets.redeem] at hz
      · exact h.held_inj y z j (by simpa [Tickets.redeem, hyx] using hy)
          (by simpa [Tickets.redeem, hzx] using hz)
  cover := by
    intro j h1 hj
    rcases h.cover j h1 hj with hu | ⟨y, hy⟩
    · exact .inl (List.mem_append_left _ hu)
    · by_cases hyx : y = x
      · subst hyx
        have he : i = j := by rw [hx] at hy; exact Option.some.inj hy
        exact .inl (List.mem_append_right _ (by rw [he]; exact List.mem_singleton_self _))
      · exact .inr ⟨y, by simpa [Tickets.redeem, hyx] using hy⟩

theorem Valid.move (h : T.Valid) {x y : H} (hxy : x ≠ y) (hy : T.held y = none) :
    (T.move x y).Valid := by
  -- the party that holds a number after the move, before it
  have hback : ∀ z i, (T.move x y).held z = some i →
      T.held (if z = y then x else z) = some i ∧ z ≠ x := by
    intro z i hz
    by_cases hzy : z = y
    · subst hzy
      exact ⟨by simpa [Tickets.move] using hz, hxy.symm⟩
    · by_cases hzx : z = x
      · subst hzx; simp [Tickets.move, hzy] at hz
      · exact ⟨by simpa [Tickets.move, hzy, hzx] using hz, hzx⟩
  refine ⟨h.pos, h.nodup, h.used_lt, fun z i hz => h.held_lt _ i (hback z i hz).1,
    fun z i hz => h.held_notMem _ i (hback z i hz).1, fun z w i hz hw => ?_, fun i h1 hi => ?_⟩
  · obtain ⟨hz1, hz2⟩ := hback z i hz
    obtain ⟨hw1, hw2⟩ := hback w i hw
    have heq := h.held_inj _ _ i hz1 hw1
    by_cases hzy : z = y <;> by_cases hwy : w = y
    · rw [hzy, hwy]
    · rw [if_pos hzy, if_neg hwy] at heq
      exact absurd heq.symm hw2
    · rw [if_neg hzy, if_pos hwy] at heq
      exact absurd heq hz2
    · rwa [if_neg hzy, if_neg hwy] at heq
  · rcases h.cover i h1 hi with hu | ⟨z, hz⟩
    · exact .inl hu
    · by_cases hzx : z = x
      · subst hzx
        exact .inr ⟨y, by simpa [Tickets.move] using hz⟩
      · have hzy : z ≠ y := by rintro rfl; rw [hy] at hz; cases hz
        exact .inr ⟨z, by simpa [Tickets.move, hzy, hzx] using hz⟩

omit [DecidableEq H] in
/-- When nothing is reserved, exactly the numbers below the counter are used. -/
theorem Valid.mem_used_iff (h : T.Valid) (hn : ∀ x, T.held x = none) (i : ℕ) :
    i ∈ T.used ↔ 1 ≤ i ∧ i < T.next := by
  refine ⟨h.used_lt i, fun hi => ?_⟩
  rcases h.cover i hi.1 hi.2 with hu | ⟨x, hx⟩
  · exact hu
  · rw [hn x] at hx
    cases hx

end Tickets

/-! ## Possession -/

/-- The objects in possession are among `ids`; none is in two hands, or twice in
    one. -/
structure Separate (own : H → List ℕ) (ids : List ℕ) : Prop where
  nodup : ∀ x, (own x).Nodup
  disjoint : ∀ x y i, i ∈ own x → i ∈ own y → x = y
  mem : ∀ x, ∀ i ∈ own x, i ∈ ids

namespace Separate

variable {own : H → List ℕ} {ids : List ℕ}

/-- Further objects come up. -/
theorem more (h : Separate own ids) (l : List ℕ) : Separate own (ids ++ l) :=
  ⟨h.nodup, h.disjoint, fun x i hi => List.mem_append_left _ (h.mem x i hi)⟩

variable [DecidableEq H]

/-- A party drops objects. -/
theorem drop (h : Separate own ids) (x : H) {l : List ℕ} (hl : l.Sublist (own x)) :
    Separate (Function.update own x l) ids := by
  have hsub : ∀ y i, i ∈ Function.update own x l y → i ∈ own y := by
    intro y i hi
    by_cases hy : y = x
    · subst hy
      rw [Function.update_self] at hi
      exact hl.subset hi
    · rwa [Function.update_of_ne hy] at hi
  refine ⟨fun y => ?_, fun y z i hy hz => h.disjoint y z i (hsub y i hy) (hsub z i hz),
    fun y i hi => h.mem y i (hsub y i hi)⟩
  by_cases hy : y = x
  · subst hy
    rw [Function.update_self]
    exact (h.nodup y).sublist hl
  · rw [Function.update_of_ne hy]
    exact h.nodup y

/-- A party takes an object that is in nobody's hands. -/
theorem take (h : Separate own ids) (x : H) {i : ℕ} (hi : ∀ y, i ∉ own y) (hid : i ∈ ids) :
    Separate (Function.update own x (i :: own x)) ids := by
  have hsub : ∀ y j, j ∈ Function.update own x (i :: own x) y →
      (y = x ∧ j = i) ∨ j ∈ own y := by
    intro y j hj
    by_cases hy : y = x
    · subst hy
      rw [Function.update_self, List.mem_cons] at hj
      exact hj.imp (fun he => ⟨rfl, he⟩) id
    · rw [Function.update_of_ne hy] at hj
      exact .inr hj
  refine ⟨fun y => ?_, fun y z j hy hz => ?_, fun y j hj => ?_⟩
  · by_cases hy : y = x
    · subst hy
      rw [Function.update_self]
      exact List.nodup_cons.mpr ⟨hi y, h.nodup y⟩
    · rw [Function.update_of_ne hy]
      exact h.nodup y
  · rcases hsub y j hy with ⟨hyx, hji⟩ | hy
    · rcases hsub z j hz with ⟨hzx, -⟩ | hz
      · rw [hyx, hzx]
      · rw [hji] at hz
        exact absurd hz (hi z)
    · rcases hsub z j hz with ⟨-, hji⟩ | hz
      · rw [hji] at hy
        exact absurd hy (hi y)
      · exact h.disjoint y z j hy hz
  · rcases hsub y j hj with ⟨-, hji⟩ | hj
    · rw [hji]
      exact hid
    · exact h.mem y j hj

/-- A party receives a new object. -/
theorem insert (h : Separate own ids) (x : H) {i : ℕ} (hi : i ∉ ids) :
    Separate (Function.update own x (i :: own x)) (ids ++ [i]) :=
  (h.more [i]).take x (fun y hy => hi (h.mem y i hy))
    (List.mem_append_right _ (List.mem_singleton_self i))

/-- A party hands its only object on. -/
theorem move (h : Separate own ids) {x y : H} (hxy : x ≠ y) {i : ℕ} (hi : own x = [i]) :
    Separate (Function.update (Function.update own x []) y (i :: own y)) ids := by
  have h1 := h.drop x (List.nil_sublist (own x))
  have hnot : ∀ z, i ∉ Function.update own x [] z := by
    intro z hz
    by_cases hzx : z = x
    · subst hzx; simp at hz
    · rw [Function.update_of_ne hzx] at hz
      exact hzx (h.disjoint z x i hz (by rw [hi]; exact List.mem_singleton_self i))
  have h2 := h1.take y hnot (h.mem x i (by rw [hi]; exact List.mem_singleton_self i))
  rwa [Function.update_of_ne hxy.symm] at h2

end Separate

end TaskProf
