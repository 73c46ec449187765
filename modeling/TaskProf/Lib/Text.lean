import TaskProf.Lib.Store

/-!
# Text files of numbers

Printing and reading of numbers and of lines with separators, as the C++
standard library does it.

* `pieces`: the strings that `std::getline` reads one after the other;
  `pieces_getline` is its recursion in terms of one call.
* `pieces_append`, `pieces_last`: what was written with separators is read back
  piece by piece.
* `stoul_decimal`, `stoi_decimalInt`: a printed number is read back.
-/

namespace TaskProf

/-! ## Separators -/

/-- `std::getline(in, s, delim)` on the rest `cs` of a stream: `s`, and what is
    left. The call succeeds if `cs` is not empty. -/
def getline (delim : Char) (cs : List Char) : List Char × List Char :=
  (cs.takeWhile (· ≠ delim), (cs.dropWhile (· ≠ delim)).tail)

/-- The strings that `std::getline` reads until a call fails. -/
def pieces (delim : Char) : List Char → List (List Char)
  | [] => []
  | c :: cs =>
    if c = delim then [] :: pieces delim cs
    else
      match pieces delim cs with
      | [] => [[c]]
      | s :: rest => (c :: s) :: rest

/-- One call of `std::getline` reads the next piece. -/
theorem pieces_getline (delim : Char) {cs : List Char} (h : cs ≠ []) :
    pieces delim cs = (getline delim cs).1 :: pieces delim (getline delim cs).2 := by
  induction cs with
  | nil => exact absurd rfl h
  | cons c cs ih =>
    by_cases hc : c = delim
    · simp [pieces, getline, hc]
    · rw [pieces, if_neg hc]
      cases cs with
      | nil => simp [getline, pieces, hc]
      | cons c' cs =>
        rw [ih (by simp)]
        simp [getline, hc]

/-- What stands before a separator is a piece. -/
theorem pieces_append {delim : Char} {s : List Char} (hs : delim ∉ s) (cs : List Char) :
    pieces delim (s ++ delim :: cs) = s :: pieces delim cs := by
  induction s with
  | nil => simp [pieces]
  | cons c s ih =>
    rw [List.mem_cons, not_or] at hs
    rw [List.cons_append, pieces, if_neg (Ne.symm hs.1), ih hs.2]

/-- What stands after the last separator is a piece, unless it is empty. -/
theorem pieces_last {delim : Char} {s : List Char} (hs : delim ∉ s) (hne : s ≠ []) :
    pieces delim s = [s] := by
  induction s with
  | nil => exact absurd rfl hne
  | cons c s ih =>
    rw [List.mem_cons, not_or] at hs
    rw [pieces, if_neg (Ne.symm hs.1)]
    cases s with
    | nil => rfl
    | cons c' s => rw [ih hs.2 (by simp)]

/-- No piece holds a separator. -/
theorem notMem_of_mem_pieces {delim : Char} {cs s : List Char} (hs : s ∈ pieces delim cs) :
    delim ∉ s := by
  induction cs generalizing s with
  | nil => simp [pieces] at hs
  | cons c cs ih =>
    rw [pieces] at hs
    split_ifs at hs with hc
    · rcases List.mem_cons.mp hs with rfl | hs
      · exact List.not_mem_nil
      · exact ih hs
    · cases hp : pieces delim cs with
      | nil =>
        rw [hp] at hs
        obtain rfl := List.mem_singleton.mp hs
        rw [List.mem_singleton]
        exact Ne.symm hc
      | cons s' rest =>
        rw [hp] at hs ih
        rcases List.mem_cons.mp hs with rfl | hs
        · rw [List.mem_cons, not_or]
          exact ⟨Ne.symm hc, ih (by simp)⟩
        · exact ih (List.mem_cons_of_mem _ hs)

/-- Lines that end in a separator are read back. -/
theorem pieces_flatMap {delim : Char} {l : List (List Char)} (hl : ∀ s ∈ l, delim ∉ s) :
    pieces delim (l.flatMap fun s => s ++ [delim]) = l := by
  induction l with
  | nil => rfl
  | cons s l ih =>
    rw [List.flatMap_cons, List.append_assoc, List.singleton_append, pieces_append (hl s (by simp)),
      ih fun s' hs' => hl s' (List.mem_cons_of_mem s hs')]

/-- Fields with a separator before each are read back, unless the last of them is
    empty. -/
theorem pieces_fields {delim : Char} {s : List Char} {l : List (List Char)} (hs : delim ∉ s)
    (hne : s ≠ []) (hl : ∀ f ∈ l, delim ∉ f ∧ f ≠ []) :
    pieces delim (s ++ l.flatMap fun f => delim :: f) = s :: l := by
  induction l generalizing s with
  | nil => rw [List.flatMap_nil, List.append_nil, pieces_last hs hne]
  | cons f l ih =>
    have hf := hl f (by simp)
    rw [List.flatMap_cons, List.cons_append, pieces_append hs,
      ih hf.1 hf.2 fun f' hf' => hl f' (List.mem_cons_of_mem f hf')]

/-! ## Numbers -/

/-- `out << n` for an unsigned `n`. -/
def decimal (n : ℕ) : List Char := Nat.toDigits 10 n

/-- `out << i` for a signed `i`. -/
def decimalInt : ℤ → List Char
  | .ofNat n => decimal n
  | .negSucc n => '-' :: decimal (n + 1)

/-- `isspace`: the blank, and the codes of `\t`, `\n`, `\v`, `\f` and `\r`. -/
def isSpace (c : Char) : Bool := c = ' ' || (9 ≤ c.toNat && c.toNat ≤ 13)

/-- The sign of a number, and what follows it. -/
def signOf : List Char → Bool × List Char
  | [] => (false, [])
  | c :: cs => if c = '-' then (true, cs) else if c = '+' then (false, cs) else (false, c :: cs)

/-- What `strtol` and `strtoul` read in base 10: the sign and the magnitude of
    the number that `cs` starts with. -/
def scanNumber (cs : List Char) : Except Fault (Bool × ℕ) :=
  let s := signOf (cs.dropWhile isSpace)
  let digits := s.2.takeWhile Char.isDigit
  if digits = [] then .error .invalidArgument else .ok (s.1, Nat.ofDigitChars 10 digits 0)

/-- `std::stoul`. -/
def stoul (cs : List Char) : Except Fault (BitVec 64) := do
  let s ← scanNumber cs
  if 2 ^ 64 ≤ s.2 then .error .outOfRange
  else .ok (if s.1 = true then -BitVec.ofNat 64 s.2 else BitVec.ofNat 64 s.2)

/-- `std::stoi`. -/
def stoi (cs : List Char) : Except Fault ℤ := do
  let s ← scanNumber cs
  let v : ℤ := if s.1 = true then -s.2 else s.2
  if -2 ^ 31 ≤ v ∧ v < 2 ^ 31 then .ok v else .error .outOfRange

theorem decimal_ne_nil (n : ℕ) : decimal n ≠ [] := Nat.toDigits_ne_nil

theorem isDigit_of_mem_decimal {n : ℕ} {c : Char} (h : c ∈ decimal n) : c.isDigit = true :=
  Nat.isDigit_of_mem_toDigits (by decide) (by decide) h

/-- A character that is no digit does not occur in a number. -/
theorem notMem_decimal {c : Char} (hc : c.isDigit = false) (n : ℕ) : c ∉ decimal n := fun h => by
  rw [isDigit_of_mem_decimal h] at hc
  cases hc

theorem notMem_decimalInt {c : Char} (hc : c.isDigit = false) (hm : c ≠ '-') (i : ℤ) :
    c ∉ decimalInt i := by
  cases i with
  | ofNat n => exact notMem_decimal hc n
  | negSucc n =>
    unfold decimalInt
    rw [List.mem_cons, not_or]
    exact ⟨hm, notMem_decimal hc _⟩

theorem decimalInt_ne_nil (i : ℤ) : decimalInt i ≠ [] := by
  cases i with
  | ofNat n => exact decimal_ne_nil n
  | negSucc n => exact List.cons_ne_nil _ _

theorem isSpace_eq_false {c : Char} (h : c.isDigit = true) : isSpace c = false := by
  unfold Char.isDigit at h
  unfold isSpace
  simp only [Bool.and_eq_true, decide_eq_true_eq, ge_iff_le] at h
  have h1 : 48 ≤ c.toNat := h.1
  have hne : c ≠ ' ' := by
    rintro rfl
    exact absurd h1 (by decide)
  simp only [hne, decide_false, Bool.false_or, Bool.and_eq_false_iff, decide_eq_false_iff_not]
  omega

theorem signOf_decimal (n : ℕ) : signOf (decimal n) = (false, decimal n) := by
  cases hd : decimal n with
  | nil => rfl
  | cons c cs =>
    have hc : c.isDigit = true := isDigit_of_mem_decimal (n := n) (by rw [hd]; simp)
    have h1 : c ≠ '-' := by rintro rfl; exact absurd hc (by decide)
    have h2 : c ≠ '+' := by rintro rfl; exact absurd hc (by decide)
    rw [signOf, if_neg h1, if_neg h2]

theorem takeWhile_decimal (n : ℕ) : (decimal n).takeWhile Char.isDigit = decimal n :=
  List.takeWhile_eq_self_iff.mpr fun _ h => isDigit_of_mem_decimal h

theorem scanNumber_decimal (n : ℕ) : scanNumber (decimal n) = .ok (false, n) := by
  have hspace : (decimal n).dropWhile isSpace = decimal n := by
    cases hd : decimal n with
    | nil => rfl
    | cons c cs =>
      have hc : c.isDigit = true := isDigit_of_mem_decimal (n := n) (by rw [hd]; simp)
      exact List.dropWhile_cons_of_neg (by rw [isSpace_eq_false hc]; simp)
  unfold scanNumber
  rw [hspace, signOf_decimal]
  simp only [takeWhile_decimal, if_neg (decimal_ne_nil n)]
  rw [decimal, Nat.ofDigitChars_ten_toDigits]

theorem scanNumber_neg (n : ℕ) : scanNumber ('-' :: decimal n) = .ok (true, n) := by
  unfold scanNumber
  rw [List.dropWhile_cons_of_neg (by decide)]
  simp only [signOf, if_true, takeWhile_decimal, if_neg (decimal_ne_nil n)]
  rw [decimal, Nat.ofDigitChars_ten_toDigits]

theorem stoul_of_scan {cs : List Char} {n : ℕ} (h : scanNumber cs = .ok (false, n))
    (hn : n < 2 ^ 64) : stoul cs = .ok (BitVec.ofNat 64 n) := by
  unfold stoul
  rw [h]
  exact if_neg (not_le.mpr hn)

/-- A printed word is read back. -/
theorem stoul_decimal (w : BitVec 64) : stoul (decimal w.toNat) = .ok w := by
  rw [stoul_of_scan (scanNumber_decimal _) w.isLt, BitVec.ofNat_toNat, BitVec.setWidth_eq]

theorem stoi_of_scan {cs : List Char} {neg : Bool} {n : ℕ} (h : scanNumber cs = .ok (neg, n))
    {i : ℤ} (hi : (if neg = true then -(n : ℤ) else n) = i) (hr : -2 ^ 31 ≤ i ∧ i < 2 ^ 31) :
    stoi cs = .ok i := by
  unfold stoi
  rw [h]
  subst hi
  exact if_pos hr

/-- A printed `int` is read back. -/
theorem stoi_decimalInt {i : ℤ} (h : -2 ^ 31 ≤ i ∧ i < 2 ^ 31) : stoi (decimalInt i) = .ok i := by
  cases i with
  | ofNat n => exact stoi_of_scan (scanNumber_decimal n) rfl h
  | negSucc n => exact stoi_of_scan (scanNumber_neg (n + 1)) rfl h

theorem stoi_decimal {n : ℕ} (h : n < 2 ^ 31) : stoi (decimal n) = .ok n := by
  apply stoi_of_scan (scanNumber_decimal n) rfl
  omega

end TaskProf
