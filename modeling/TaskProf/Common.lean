import TaskProf.Lib.Store

/-!
# Data of both phases

`size_t` amounts and addresses are `SizeT` (64-bit words, wrapping addition);
node indices and counters of nodes, which stay below the length of the node
array, are `ℕ`.
-/

namespace TaskProf

/-- `size_t` and `ADDRINT`: 64-bit words. -/
abbrev SizeT := BitVec 64

/-- `enum NodeType` (`AFTask.H`, the same in both phases). -/
inductive NodeType
  | noType
  | async
  | finish
  | step
  deriving DecidableEq, Repr

/-- The value of an enumerator. -/
def NodeType.code : NodeType → ℕ
  | .noType => 0
  | .async => 1
  | .finish => 2
  | .step => 3

/-- `struct CallSiteData`. -/
structure CallSiteData where
  csFilename : List Char
  csLineNumber : ℤ
  parFor : Bool

/-- Comparing amounts that fit in a word compares the words. -/
theorem ofNat_le_ofNat {a b : ℕ} (ha : a < 2 ^ 64) (hb : b < 2 ^ 64) :
    (BitVec.ofNat 64 a ≤ BitVec.ofNat 64 b) ↔ a ≤ b := by
  rw [BitVec.le_def, BitVec.toNat_ofNat, BitVec.toNat_ofNat, Nat.mod_eq_of_lt ha,
    Nat.mod_eq_of_lt hb]

theorem ofNat_lt_ofNat {a b : ℕ} (ha : a < 2 ^ 64) (hb : b < 2 ^ 64) :
    (BitVec.ofNat 64 a < BitVec.ofNat 64 b) ↔ a < b := by
  rw [BitVec.lt_def, BitVec.toNat_ofNat, BitVec.toNat_ofNat, Nat.mod_eq_of_lt ha,
    Nat.mod_eq_of_lt hb]

/-- Subtracting amounts that fit subtracts the words. -/
theorem ofNat_sub_ofNat {a b : ℕ} (hle : b ≤ a) :
    BitVec.ofNat 64 a - BitVec.ofNat 64 b = BitVec.ofNat 64 (a - b) := by
  rw [sub_eq_iff_eq_add, ← BitVec.ofNat_add, Nat.sub_add_cancel hle]

end TaskProf
