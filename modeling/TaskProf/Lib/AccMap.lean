import Mathlib

/-!
# Accumulating maps

`AccMap κ ν` is a finite map whose only update is `add k v`: insert `v` at `k`
if the key is absent, add it to the value found there otherwise. It is the
idiom `if (m.count(k)) m.at(k) += v; else m.insert({k, v});`.

* `lookup_add_self`, `lookup_add_of_ne`: what a key holds after an update.
* `total_add`, `total_merge`: the sum of all values grows by exactly what was
  added.
-/

namespace TaskProf

variable {κ ν : Type}

/-- A finite map as its list of entries, with distinct keys. -/
structure AccMap (κ ν : Type) where
  entries : List (κ × ν)
  nodup : (entries.map Prod.fst).Nodup

namespace AccMap

/-- The empty map. -/
def empty : AccMap κ ν := ⟨[], by simp⟩

/-- The sum of all values. -/
def total [AddCommMonoid ν] (m : AccMap κ ν) : ν := (m.entries.map Prod.snd).sum

@[simp] theorem total_empty [AddCommMonoid ν] : (empty : AccMap κ ν).total = 0 := rfl

variable [DecidableEq κ]

/-- The value stored at `k` in a list of entries. -/
def find (k : κ) : List (κ × ν) → Option ν
  | [] => none
  | e :: l => if e.1 = k then some e.2 else find k l

/-- `m.at(k)`, or `none` where `m.count(k) = 0`. -/
def lookup (m : AccMap κ ν) (k : κ) : Option ν := find k m.entries

@[simp] theorem lookup_empty (k : κ) : (empty : AccMap κ ν).lookup k = none := rfl

theorem find_eq_none {k : κ} {l : List (κ × ν)} : find k l = none ↔ k ∉ l.map Prod.fst := by
  induction l with
  | nil => simp [find]
  | cons e l ih =>
    by_cases h : e.1 = k
    · simp [find, h]
    · have : k ≠ e.1 := fun h' => h h'.symm
      simp [find, h, ih, this]

theorem find_of_mem {e : κ × ν} {l : List (κ × ν)} (hl : (l.map Prod.fst).Nodup) (he : e ∈ l) :
    find e.1 l = some e.2 := by
  induction l with
  | nil => exact absurd he List.not_mem_nil
  | cons d l ih =>
    rw [List.map_cons, List.nodup_cons] at hl
    rcases List.mem_cons.mp he with rfl | he
    · rw [find, if_pos rfl]
    · have hne : d.1 ≠ e.1 := by
        intro heq
        rw [heq] at hl
        exact hl.1 (List.mem_map_of_mem he)
      rw [find, if_neg hne]
      exact ih hl.2 he

theorem lookup_of_mem (m : AccMap κ ν) {e : κ × ν} (he : e ∈ m.entries) :
    m.lookup e.1 = some e.2 := find_of_mem m.nodup he

section Add

variable [Add ν]

/-- Insert or accumulate in a list of entries. -/
def bump (k : κ) (v : ν) : List (κ × ν) → List (κ × ν)
  | [] => [(k, v)]
  | e :: l => if e.1 = k then (e.1, e.2 + v) :: l else e :: bump k v l

theorem mem_keys_bump (k k' : κ) (v : ν) (l : List (κ × ν)) :
    k' ∈ (bump k v l).map Prod.fst ↔ k' = k ∨ k' ∈ l.map Prod.fst := by
  induction l with
  | nil => simp [bump]
  | cons e l ih =>
    by_cases h : e.1 = k
    · simp only [bump, h, if_true, List.map_cons, List.mem_cons]; tauto
    · simp only [bump, h, if_false, List.map_cons, List.mem_cons, ih]; tauto

theorem nodup_bump (k : κ) (v : ν) {l : List (κ × ν)} (hl : (l.map Prod.fst).Nodup) :
    ((bump k v l).map Prod.fst).Nodup := by
  induction l with
  | nil => simp [bump]
  | cons e l ih =>
    rw [List.map_cons, List.nodup_cons] at hl
    by_cases h : e.1 = k
    · rw [bump, if_pos h]; simpa using hl
    · rw [bump, if_neg h, List.map_cons, List.nodup_cons, mem_keys_bump]
      exact ⟨by rintro (h' | h'); exacts [h h', hl.1 h'], ih hl.2⟩

/-- `if (m.count(k)) m.at(k) += v; else m.insert({k, v});` -/
def add (m : AccMap κ ν) (k : κ) (v : ν) : AccMap κ ν := ⟨bump k v m.entries, nodup_bump k v m.nodup⟩

/-- Accumulate every entry of `src` into `m`, in the order of iteration. -/
def merge (m src : AccMap κ ν) : AccMap κ ν := src.entries.foldl (fun m e => m.add e.1 e.2) m

theorem find_bump_self (k : κ) (v : ν) (l : List (κ × ν)) :
    find k (bump k v l) = some (match find k l with | none => v | some w => w + v) := by
  induction l with
  | nil => simp [bump, find]
  | cons e l ih =>
    by_cases h : e.1 = k
    · simp [bump, find, h]
    · simp [bump, find, h, ih]

theorem find_bump_of_ne {k k' : κ} (h : k' ≠ k) (v : ν) (l : List (κ × ν)) :
    find k' (bump k v l) = find k' l := by
  induction l with
  | nil => simp [bump, find, h.symm]
  | cons e l ih =>
    by_cases h1 : e.1 = k
    · have : ¬ k = k' := fun h' => h h'.symm
      simp [bump, find, h1, this]
    · simp [bump, find, h1, ih]

theorem lookup_add_self (m : AccMap κ ν) (k : κ) (v : ν) :
    (m.add k v).lookup k = some (match m.lookup k with | none => v | some w => w + v) :=
  find_bump_self k v m.entries

theorem lookup_add_of_ne (m : AccMap κ ν) {k k' : κ} (h : k' ≠ k) (v : ν) :
    (m.add k v).lookup k' = m.lookup k' :=
  find_bump_of_ne h v m.entries

/-- A subadditive measure of the values grows by at most that of the value added. -/
theorem sum_bump_le {f : ν → ℕ} (hf : ∀ a b, f (a + b) ≤ f a + f b) (k : κ) (v : ν)
    (l : List (κ × ν)) :
    ((bump k v l).map fun e => f e.2).sum ≤ (l.map fun e => f e.2).sum + f v := by
  induction l with
  | nil => simp [bump]
  | cons e l ih =>
    rw [bump]
    split_ifs with h
    · have := hf e.2 v
      simp only [List.map_cons, List.sum_cons]
      omega
    · simp only [List.map_cons, List.sum_cons]
      omega

theorem bump_of_notMem {k : κ} (v : ν) {l : List (κ × ν)} (h : k ∉ l.map Prod.fst) :
    bump k v l = l ++ [(k, v)] := by
  induction l with
  | nil => rfl
  | cons e l ih =>
    rw [List.map_cons, List.mem_cons, not_or] at h
    rw [bump, if_neg (Ne.symm h.1), ih h.2, List.cons_append]

/-- New keys are entered one after the other. -/
theorem foldl_add_entries (l : List (κ × ν)) (m : AccMap κ ν)
    (h : ((m.entries ++ l).map Prod.fst).Nodup) :
    (l.foldl (fun m e => m.add e.1 e.2) m).entries = m.entries ++ l := by
  induction l generalizing m with
  | nil => rw [List.foldl_nil, List.append_nil]
  | cons e l ih =>
    have hk : e.1 ∉ m.entries.map Prod.fst := by
      intro hmem
      rw [List.map_append, List.map_cons] at h
      exact (List.nodup_append.mp h).2.2 e.1 hmem e.1 (List.mem_cons_self ..) rfl
    have he : (m.add e.1 e.2).entries = m.entries ++ [e] := bump_of_notMem e.2 hk
    rw [List.foldl_cons, ih, he, List.append_assoc, List.singleton_append]
    rw [he, List.append_assoc, List.singleton_append]
    exact h

/-- A map is the one that its entries make. -/
theorem foldl_add_empty (m : AccMap κ ν) :
    m.entries.foldl (fun m e => m.add e.1 e.2) empty = m := by
  have h : (m.entries.foldl (fun m e => m.add e.1 e.2) empty).entries = m.entries :=
    foldl_add_entries m.entries empty m.nodup
  cases m with
  | mk entries nodup =>
    rw [AccMap.mk.injEq]
    exact h

end Add

section Total

variable [AddCommMonoid ν]

/-- The value at `k`, read as `0` where the key is absent. -/
def valueAt (m : AccMap κ ν) (k : κ) : ν := (m.lookup k).getD 0

@[simp] theorem valueAt_empty (k : κ) : (empty : AccMap κ ν).valueAt k = 0 := rfl

@[simp] theorem total_add (m : AccMap κ ν) (k : κ) (v : ν) : (m.add k v).total = m.total + v := by
  have : ∀ l : List (κ × ν), ((bump k v l).map Prod.snd).sum = (l.map Prod.snd).sum + v := by
    intro l
    induction l with
    | nil => simp [bump]
    | cons e l ih =>
      by_cases h : e.1 = k
      · simp only [bump, h, if_true, List.map_cons, List.sum_cons]; abel
      · simp only [bump, h, if_false, List.map_cons, List.sum_cons, ih]; abel
  exact this m.entries

@[simp] theorem total_merge (m src : AccMap κ ν) : (m.merge src).total = m.total + src.total := by
  have : ∀ (l : List (κ × ν)) (m : AccMap κ ν),
      (l.foldl (fun m e => m.add e.1 e.2) m).total = m.total + (l.map Prod.snd).sum := by
    intro l
    induction l with
    | nil => intro m; simp
    | cons e l ih =>
      intro m
      rw [List.foldl_cons, ih, total_add, List.map_cons, List.sum_cons, add_assoc]
  exact this src.entries m

theorem valueAt_add (m : AccMap κ ν) (k k' : κ) (v : ν) :
    (m.add k v).valueAt k' = m.valueAt k' + if k' = k then v else 0 := by
  by_cases h : k' = k
  · subst h
    rw [valueAt, lookup_add_self, if_pos rfl, valueAt]
    cases m.lookup k' <;> simp
  · rw [valueAt, lookup_add_of_ne m h, if_neg h, add_zero, valueAt]

end Total

end AccMap

end TaskProf
