import TaskProf.Tbb.Algorithms

/-!
# Ranges

`blocked_range<size_t>` (`blocked_range.h`): its indices, and what a split does to
them.

* `BlockedRange.Proper`: a range that is not empty and has a grain size.
* `BlockedRange.split_proper`, `contains_split`: the halves of a split are proper and
  have the indices of the range.
* `BlockedRange.pieces`: a bound for the splits, which a split makes smaller.
-/

namespace TaskProf.Tbb

namespace BlockedRange

/-- `size` (lines 69–72). -/
def size (r : BlockedRange) : ℕ := (r.myEnd - r.myBegin).toNat

/-- `i` is an index of the range. -/
def Contains (r : BlockedRange) (i : SizeT) : Prop := r.myBegin ≤ i ∧ i < r.myEnd

instance (r : BlockedRange) (i : SizeT) : Decidable (r.Contains i) :=
  inferInstanceAs (Decidable (_ ∧ _))

/-- A range that is not `empty`, with a grain size as its constructor asserts it. -/
def Proper (r : BlockedRange) : Prop := r.myBegin < r.myEnd ∧ 0 < r.myGrainsize

instance (r : BlockedRange) : Decidable r.Proper := inferInstanceAs (Decidable (_ ∧ _))

/-- How often `i` is an index of the ranges. -/
def countIn (i : SizeT) (rs : List BlockedRange) : ℕ := rs.countP fun r => decide (r.Contains i)

/-- A bound for the pieces that a range is split into. -/
def pieces (r : BlockedRange) : ℕ := 3 * r.size - 2

variable {r : BlockedRange} {i : SizeT}

@[simp] theorem countIn_nil : countIn i [] = 0 := rfl

theorem countIn_cons (r : BlockedRange) (rs : List BlockedRange) :
    countIn i (r :: rs) = countIn i rs + if r.Contains i then 1 else 0 := by
  unfold countIn
  rw [List.countP_cons]
  simp

theorem countIn_append (rs rs' : List BlockedRange) :
    countIn i (rs ++ rs') = countIn i rs + countIn i rs' := List.countP_append

theorem size_eq (h : r.Proper) : r.size = r.myEnd.toNat - r.myBegin.toNat := by
  unfold size
  exact BitVec.toNat_sub_of_le (BitVec.le_of_lt h.1)

theorem Proper.size_pos (h : r.Proper) : 0 < r.size := by
  rw [size_eq h]
  have := BitVec.lt_def.mp h.1
  omega

/-- A divisible range has two indices. -/
theorem Proper.two_le (h : r.Proper) (hd : r.isDivisible = true) : 2 ≤ r.size := by
  have hlt : r.myGrainsize < r.myEnd - r.myBegin := of_decide_eq_true hd
  have h1 := BitVec.lt_def.mp hlt
  have h2 : 0 < r.myGrainsize.toNat := BitVec.lt_def.mp h.2
  unfold size
  omega

/-- The middle of a range. -/
theorem toNat_middle (h : r.Proper) :
    (r.myBegin + (r.myEnd - r.myBegin) / 2).toNat = r.myBegin.toNat + r.size / 2 := by
  have hsize := size_eq h
  have hend := r.myEnd.isLt
  have hlt := BitVec.lt_def.mp h.1
  rw [BitVec.toNat_add, BitVec.toNat_udiv]
  show (r.myBegin.toNat + r.size / 2) % 2 ^ 64 = _
  apply Nat.mod_eq_of_lt
  omega

/-- The halves of a divisible range. -/
theorem split_proper (h : r.Proper) (hd : r.isDivisible = true) :
    r.split.1.Proper ∧ r.split.2.Proper ∧ r.split.1.size = r.size / 2 ∧
      r.split.2.size = r.size - r.size / 2 := by
  have htwo := h.two_le hd
  have hmid := toNat_middle h
  have hsize := size_eq h
  have hleft : r.split.1.Proper := by
    refine ⟨BitVec.lt_def.mpr ?_, h.2⟩
    show r.myBegin.toNat < (r.myBegin + (r.myEnd - r.myBegin) / 2).toNat
    omega
  have hright : r.split.2.Proper := by
    refine ⟨BitVec.lt_def.mpr ?_, h.2⟩
    show (r.myBegin + (r.myEnd - r.myBegin) / 2).toNat < r.myEnd.toNat
    omega
  refine ⟨hleft, hright, ?_, ?_⟩
  · rw [size_eq hleft]
    show (r.myBegin + (r.myEnd - r.myBegin) / 2).toNat - r.myBegin.toNat = _
    omega
  · rw [size_eq hright]
    show r.myEnd.toNat - (r.myBegin + (r.myEnd - r.myBegin) / 2).toNat = _
    omega

/-- The halves have the indices of the range. -/
theorem contains_split (h : r.Proper) (i : SizeT) :
    ((if r.split.1.Contains i then 1 else 0) + if r.split.2.Contains i then 1 else 0) =
      if r.Contains i then 1 else 0 := by
  have hmid := toNat_middle h
  have hsize := size_eq h
  have hlt := BitVec.lt_def.mp h.1
  have h1 : r.split.1.Contains i ↔
      r.myBegin.toNat ≤ i.toNat ∧ i.toNat < r.myBegin.toNat + r.size / 2 := by
    rw [← hmid]
    rfl
  have h2 : r.split.2.Contains i ↔
      r.myBegin.toNat + r.size / 2 ≤ i.toNat ∧ i.toNat < r.myEnd.toNat := by
    rw [← hmid]
    rfl
  have h3 : r.Contains i ↔ r.myBegin.toNat ≤ i.toNat ∧ i.toNat < r.myEnd.toNat := Iff.rfl
  simp only [h1, h2, h3]
  split_ifs <;> omega

/-- A split makes fewer pieces possible. -/
theorem pieces_split (h : r.Proper) (hd : r.isDivisible = true) :
    r.split.1.pieces + r.split.2.pieces + 2 = r.pieces := by
  obtain ⟨-, -, h1, h2⟩ := split_proper h hd
  have htwo := h.two_le hd
  unfold pieces
  rw [h1, h2]
  omega

theorem Proper.pieces_pos (h : r.Proper) : 0 < r.pieces := by
  have := h.size_pos
  unfold pieces
  omega

end BlockedRange

end TaskProf.Tbb
