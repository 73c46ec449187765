import Mathlib

/-!
# Objects behind pointers

A `Store` is the part of the C++ heap that holds objects of one type. A
pointer is an `Option ℕ`; `none` is `NULL`. Reading, writing or deleting
through a pointer that does not refer to a live object is a `Fault`, so a run
that ends in `.ok` has used no null and no dangling pointer.

`Store.Owned` is the ownership discipline of a family of pointers: each
non-null pointer of the family refers to a live object that no other member
refers to.
-/

namespace TaskProf

/-- The ways in which a C++ execution can leave the behaviour its source
    describes: undefined behaviour, an uncaught exception, a failed `assert`,
    or a recursion that does not end. -/
inductive Fault
  | nullPointer
  | danglingPointer
  | outOfBounds
  | emptyStack
  | missingKey
  | invalidArgument
  | outOfRange
  | assertion
  | divisionByZero
  | divergence
  deriving DecidableEq, Repr

/-- A computation in steps returns when each step does. -/
theorem bind_eq_ok {ε α β : Type} {x : Except ε α} {f : α → Except ε β} {b : β} :
    x >>= f = .ok b ↔ ∃ a, x = .ok a ∧ f a = .ok b := by
  cases x with
  | error e => simp [bind, Except.bind]
  | ok a => simp [bind, Except.bind]

/-- A loop returns, and keeps `Q`, when each iteration does. -/
theorem foldlM_ok {ε α β : Type} {f : β → α → Except ε β} (Q : β → Prop) {l : List α}
    (hf : ∀ b a, a ∈ l → Q b → ∃ b', f b a = .ok b' ∧ Q b') {b : β} (hb : Q b) :
    ∃ b', l.foldlM f b = .ok b' ∧ Q b' := by
  induction l generalizing b with
  | nil => exact ⟨b, rfl, hb⟩
  | cons a l ih =>
    obtain ⟨b₁, h1, h2⟩ := hf b a (by simp) hb
    obtain ⟨b₂, h3, h4⟩ := ih (fun b a' ha' => hf b a' (List.mem_cons_of_mem a ha')) h2
    refine ⟨b₂, ?_, h4⟩
    rw [List.foldlM_cons, h1]
    exact h3

/-- A loop that returns keeps what each iteration keeps. -/
theorem foldlM_keeps {ε α β : Type} {f : β → α → Except ε β} (Q : β → Prop) {l : List α}
    (hf : ∀ b b' a, Q b → f b a = .ok b' → Q b') {b b' : β} (hb : Q b)
    (h : l.foldlM f b = .ok b') : Q b' := by
  induction l generalizing b with
  | nil =>
    rw [← Except.ok.inj h]
    exact hb
  | cons a l ih =>
    obtain ⟨b₁, h1, h2⟩ := bind_eq_ok.mp h
    exact ih (hf b b₁ a hb h1) h2

/-- What a list is mapped to, one result for each element. -/
theorem forall₂_of_mapM {ε α β : Type} {f : α → Except ε β} {l : List α} {l' : List β}
    (h : l.mapM f = .ok l') : List.Forall₂ (fun a b => f a = .ok b) l l' := by
  induction l generalizing l' with
  | nil =>
    rw [List.mapM_nil] at h
    rw [← Except.ok.inj h]
    exact .nil
  | cons a l ih =>
    rw [List.mapM_cons] at h
    obtain ⟨b, hb, h⟩ := bind_eq_ok.mp h
    obtain ⟨rest, hrest, h⟩ := bind_eq_ok.mp h
    rw [← Except.ok.inj h]
    exact .cons hb (ih hrest)

/-- Live objects of type `α`, addressed by `ℕ`; `next` is the next address
    that `new` hands out. -/
structure Store (α : Type) where
  cells : ℕ → Option α
  next : ℕ

namespace Store

variable {α : Type}

/-- The store before any `new`. -/
def empty : Store α := ⟨fun _ => none, 0⟩

/-- `new α(a)`. -/
def alloc (s : Store α) (a : α) : ℕ × Store α :=
  (s.next, ⟨Function.update s.cells s.next (some a), s.next + 1⟩)

/-- `*p` as a value. -/
def read (s : Store α) : Option ℕ → Except Fault α
  | none => .error .nullPointer
  | some p =>
    match s.cells p with
    | none => .error .danglingPointer
    | some a => .ok a

/-- `*p = a`. -/
def write (s : Store α) (p : Option ℕ) (a : α) : Except Fault (Store α) :=
  match p with
  | none => .error .nullPointer
  | some p =>
    match s.cells p with
    | none => .error .danglingPointer
    | some _ => .ok { s with cells := Function.update s.cells p (some a) }

/-- `delete p`; deleting `NULL` does nothing. -/
def free (s : Store α) : Option ℕ → Except Fault (Store α)
  | none => .ok s
  | some p =>
    match s.cells p with
    | none => .error .danglingPointer
    | some _ => .ok { s with cells := Function.update s.cells p none }

/-- The object a pointer refers to, if there is one. -/
def get? (s : Store α) (p : Option ℕ) : Option α := p.bind s.cells

@[simp] theorem get?_none (s : Store α) : s.get? none = none := rfl

@[simp] theorem get?_some (s : Store α) (p : ℕ) : s.get? (some p) = s.cells p := rfl

theorem read_eq {s : Store α} {p : Option ℕ} {a : α} (h : s.get? p = some a) :
    s.read p = .ok a := by
  cases p with
  | none => simp at h
  | some p => simp only [get?_some] at h; simp [read, h]

theorem write_eq {s : Store α} {p : ℕ} {a : α} (h : s.cells p = some a) (b : α) :
    s.write (some p) b = .ok { s with cells := Function.update s.cells p (some b) } := by
  simp [write, h]

theorem free_eq {s : Store α} {p : ℕ} {a : α} (h : s.cells p = some a) :
    s.free (some p) = .ok { s with cells := Function.update s.cells p none } := by
  simp [free, h]

/-! ## Ownership -/

/-- Every non-null pointer of the family `ptr` refers to a live object below
    `next`, and no two members of the family share one. -/
structure Owned (s : Store α) (ptr : ℕ → Option ℕ) : Prop where
  live : ∀ i p, ptr i = some p → ∃ a, s.cells p = some a
  lt_next : ∀ i p, ptr i = some p → p < s.next
  inj : ∀ i j p, ptr i = some p → ptr j = some p → i = j

theorem owned_empty : (empty : Store α).Owned fun _ => none :=
  ⟨by simp, by simp, by simp⟩

theorem Owned.get?_eq_some {s : Store α} {ptr : ℕ → Option ℕ} (h : s.Owned ptr) {i : ℕ}
    (hi : ptr i ≠ none) : ∃ p a, ptr i = some p ∧ s.cells p = some a := by
  obtain ⟨p, hp⟩ := Option.ne_none_iff_exists'.mp hi
  obtain ⟨a, ha⟩ := h.live i p hp
  exact ⟨p, a, hp, ha⟩

/-- Storing a fresh object's address in member `i` keeps ownership. -/
theorem Owned.alloc {s : Store α} {ptr : ℕ → Option ℕ} (h : s.Owned ptr) (i : ℕ) (a : α) :
    (s.alloc a).2.Owned (Function.update ptr i (some (s.alloc a).1)) := by
  have old : ∀ j p, j ≠ i → Function.update ptr i (some s.next) j = some p → ptr j = some p := by
    intro j p hj hp
    rwa [Function.update_of_ne hj] at hp
  refine ⟨?_, ?_, ?_⟩
  · intro j p hp
    by_cases hj : j = i
    · subst hj; simp [Store.alloc] at hp; subst hp; exact ⟨a, by simp [Store.alloc]⟩
    · have hp := old j p hj hp
      have := h.lt_next j p hp
      simpa [Store.alloc, Function.update_of_ne (show p ≠ s.next by omega)] using h.live j p hp
  · intro j p hp
    by_cases hj : j = i
    · subst hj; simp [Store.alloc] at hp; subst hp; simp [Store.alloc]
    · have := h.lt_next j p (old j p hj hp)
      simp only [Store.alloc]; omega
  · intro j k p hp hk
    by_cases hj : j = i <;> by_cases hki : k = i
    · rw [hj, hki]
    · subst hj
      have := h.lt_next k p (old k p hki hk)
      simp [Store.alloc] at hp; omega
    · subst hki
      have := h.lt_next j p (old j p hj hp)
      simp [Store.alloc] at hk; omega
    · exact h.inj j k p (old j p hj hp) (old k p hki hk)

/-- Overwriting a live object keeps ownership. -/
theorem Owned.write {s : Store α} {ptr : ℕ → Option ℕ} (h : s.Owned ptr) (p : ℕ) (b : α) :
    Owned { s with cells := Function.update s.cells p (some b) } ptr := by
  refine ⟨fun i q hq => ?_, h.lt_next, h.inj⟩
  by_cases hqp : q = p
  · subst hqp; exact ⟨b, by simp⟩
  · simpa [Function.update_of_ne hqp] using h.live i q hq

/-- Deleting the object of member `i` and nulling that member keeps
    ownership. -/
theorem Owned.free {s : Store α} {ptr : ℕ → Option ℕ} (h : s.Owned ptr) {i p : ℕ}
    (hi : ptr i = some p) :
    Owned { s with cells := Function.update s.cells p none } (Function.update ptr i none) := by
  have old : ∀ j q, Function.update ptr i none j = some q → j ≠ i ∧ ptr j = some q := by
    intro j q hq
    by_cases hj : j = i
    · subst hj; simp at hq
    · exact ⟨hj, by rwa [Function.update_of_ne hj] at hq⟩
  refine ⟨fun j q hq => ?_, fun j q hq => h.lt_next j q (old j q hq).2,
    fun j k q hj hk => h.inj j k q (old j q hj).2 (old k q hk).2⟩
  obtain ⟨hj, hq⟩ := old j q hq
  have hqp : q ≠ p := fun e => hj (h.inj j i q hq (e ▸ hi))
  simpa [Function.update_of_ne hqp] using h.live j q hq

/-- Moving the object of member `i` to the null member `j` keeps ownership. -/
theorem Owned.move {s : Store α} {ptr : ℕ → Option ℕ} (h : s.Owned ptr) {i j : ℕ} (hij : i ≠ j) :
    s.Owned (Function.update (Function.update ptr j (ptr i)) i none) := by
  have old : ∀ k q, Function.update (Function.update ptr j (ptr i)) i none k = some q →
      ptr (if k = j then i else k) = some q ∧ k ≠ i := by
    intro k q hq
    by_cases hk : k = i
    · subst hk; simp at hq
    · rw [Function.update_of_ne hk] at hq
      by_cases hkj : k = j
      · subst hkj; simpa [hk] using hq
      · rw [Function.update_of_ne hkj] at hq; simpa [hkj, hk] using hq
  refine ⟨fun k q hq => h.live _ q (old k q hq).1, fun k q hq => h.lt_next _ q (old k q hq).1,
    fun k l q hk hl => ?_⟩
  obtain ⟨hk, hki⟩ := old k q hk
  obtain ⟨hl, hli⟩ := old l q hl
  have := h.inj _ _ q hk hl
  split_ifs at this with h1 h2 h2
  · rw [h1, h2]
  · exact absurd this.symm hli
  · exact absurd this hki
  · exact this

end Store

end TaskProf
