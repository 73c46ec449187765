import Mathlib

/-!
# Forests stored as parent arrays

Nodes are the indices `1 … size`; node 1 is the root, every other node's parent
has a smaller index. `arity` is a stored child counter, as an array-based
program keeps it next to the parent index.

* `upRec`: recursion from a node to its children, for any function of the
  subtree (spans, totals, reading the array as a tree).
* `Anc`: ancestor-or-self. The ancestors of one node form a chain
  (`Anc.of_le`).
* `last n`: the greatest index in the subtree of `n`. A pass over the array in
  index order has seen the whole subtree exactly when it has reached `last n`.
* `sum_subtree`: a sum over a subtree is the node's own term plus the sums over
  its children's subtrees.
-/

namespace TaskProf

/-- The first `fuel` levels of the recursion `f n` over the indices above `n`
    and up to `size`. -/
def upRecFuel {α : Type} [Inhabited α] (size : ℕ) (f : ℕ → (ℕ → α) → α) : ℕ → ℕ → α
  | 0, n => f n fun _ => default
  | fuel + 1, n => f n fun c => if n < c ∧ c ≤ size then upRecFuel size f fuel c else default

/-- The recursion `f n` over the indices above `n` and up to `size`. -/
def upRec {α : Type} [Inhabited α] (size : ℕ) (f : ℕ → (ℕ → α) → α) (n : ℕ) : α :=
  upRecFuel size f (size - n) n

theorem upRecFuel_eq {α : Type} [Inhabited α] (size : ℕ) (f : ℕ → (ℕ → α) → α) {k n : ℕ}
    (h : size - n ≤ k) : upRecFuel size f k n = upRec size f n := by
  induction k using Nat.strong_induction_on generalizing n with
  | _ fuel ih =>
    rw [upRec]
    cases fuel with
    | zero => rw [show size - n = 0 by omega]
    | succ fuel =>
      cases hk : size - n with
      | zero =>
        simp only [upRecFuel]
        congr 1
        funext c
        exact if_neg (by omega)
      | succ m =>
        simp only [upRecFuel]
        congr 1
        funext c
        split_ifs with hc
        · rw [ih fuel (by omega) (by omega), ih m (by omega) (by omega)]
        · rfl

theorem upRec_eq {α : Type} [Inhabited α] (size : ℕ) (f : ℕ → (ℕ → α) → α) (n : ℕ) :
    upRec size f n = f n fun c => if n < c ∧ c ≤ size then upRec size f c else default := by
  rw [← upRecFuel_eq size f (k := size - n + 1) (by omega), upRecFuel]
  congr 1
  funext c
  split_ifs with hc
  · exact upRecFuel_eq size f (by omega)
  · rfl

/-- A parent array with child counters. -/
structure Shape where
  size : ℕ
  parent : ℕ → ℕ
  arity : ℕ → ℕ

namespace Shape

/-- `n` is one of the nodes `1 … size`. -/
def Node (S : Shape) (n : ℕ) : Prop := 1 ≤ n ∧ n ≤ S.size

instance (S : Shape) (n : ℕ) : Decidable (S.Node n) :=
  inferInstanceAs (Decidable (1 ≤ n ∧ n ≤ S.size))

/-- The children of `n`. -/
def children (S : Shape) (n : ℕ) : Finset ℕ := {c ∈ Finset.Icc 1 S.size | S.parent c = n}

@[simp] theorem mem_children {S : Shape} {n c : ℕ} :
    c ∈ S.children n ↔ S.Node c ∧ S.parent c = n := by
  simp [children, Node, and_assoc]

/-- A non-empty tree rooted at node 1, with correct child counters and at least
    one node below the root. -/
structure WellFormed (S : Shape) : Prop where
  size_pos : 1 ≤ S.size
  root : S.parent 1 = 0
  parent_pos : ∀ n, S.Node n → n ≠ 1 → 1 ≤ S.parent n
  parent_lt : ∀ n, S.Node n → n ≠ 1 → S.parent n < n
  arity_eq : ∀ n, S.Node n → S.arity n = (S.children n).card
  root_arity : S.arity 1 ≠ 0

/-- `n` is `x` or an ancestor of `x`. -/
def Anc (S : Shape) (n x : ℕ) : Prop := Relation.ReflTransGen (fun a b => b ∈ S.children a) n x

/-- The greatest index in the subtree of `n`. -/
def last (S : Shape) : ℕ → ℕ := upRec S.size fun n rec => max n ((S.children n).sup rec)

variable {S : Shape}

namespace WellFormed

theorem root_node (h : S.WellFormed) : S.Node 1 := ⟨le_rfl, h.size_pos⟩

theorem lt_of_mem_children (h : S.WellFormed) {n c : ℕ} (hc : c ∈ S.children n) :
    n < c ∧ c ≤ S.size := by
  obtain ⟨hn, rfl⟩ := mem_children.mp hc
  by_cases h1 : c = 1
  · subst h1; rw [h.root]; exact ⟨by omega, hn.2⟩
  · exact ⟨h.parent_lt c hn h1, hn.2⟩

theorem parent_node (h : S.WellFormed) {n : ℕ} (hn : S.Node n) (h1 : n ≠ 1) :
    S.Node (S.parent n) :=
  ⟨h.parent_pos n hn h1, by have := h.parent_lt n hn h1; have := hn.2; omega⟩

theorem ne_one_of_parent (h : S.WellFormed) {n : ℕ} (hn : S.Node (S.parent n)) : n ≠ 1 := by
  rintro rfl
  have := hn.1
  rw [h.root] at this
  omega

/-- Recursion to the children sees exactly the recursive values: the guard of
    `upRec` holds at every child. -/
theorem upRec_children (h : S.WellFormed) {α : Type} [Inhabited α] (f : ℕ → (ℕ → α) → α)
    {n c : ℕ} (hc : c ∈ S.children n) :
    (if n < c ∧ c ≤ S.size then upRec S.size f c else default) = upRec S.size f c :=
  if_pos (h.lt_of_mem_children hc)

/-- Well-formedness is a finite check. -/
instance (S : Shape) : Decidable S.WellFormed :=
  decidable_of_iff
    (1 ≤ S.size ∧ S.parent 1 = 0 ∧ S.arity 1 ≠ 0 ∧ ∀ n ∈ Finset.Icc 1 S.size,
      (n ≠ 1 → 1 ≤ S.parent n ∧ S.parent n < n) ∧ S.arity n = (S.children n).card)
    ⟨fun ⟨h1, h2, h3, h4⟩ =>
      { size_pos := h1
        root := h2
        parent_pos := fun n hn h => ((h4 n (Finset.mem_Icc.mpr hn)).1 h).1
        parent_lt := fun n hn h => ((h4 n (Finset.mem_Icc.mpr hn)).1 h).2
        arity_eq := fun n hn => (h4 n (Finset.mem_Icc.mpr hn)).2
        root_arity := h3 },
    fun h => ⟨h.size_pos, h.root, h.root_arity, fun n hn =>
      have hn : S.Node n := Finset.mem_Icc.mp hn
      ⟨fun h1 => ⟨h.parent_pos n hn h1, h.parent_lt n hn h1⟩, h.arity_eq n hn⟩⟩⟩

/-- Induction from the children to their parent. -/
theorem child_induction (h : S.WellFormed) {Q : ℕ → Prop}
    (hQ : ∀ n, (∀ c ∈ S.children n, Q c) → Q n) (n : ℕ) : Q n := by
  induction hk : S.size - n using Nat.strong_induction_on generalizing n with
  | _ k ih =>
    refine hQ n fun c hc => ?_
    have := h.lt_of_mem_children hc
    exact ih (S.size - c) (by omega) c rfl

end WellFormed

/-! ## Ancestors -/

theorem Anc.refl (n : ℕ) : S.Anc n n := Relation.ReflTransGen.refl

theorem Anc.trans {a b c : ℕ} (h1 : S.Anc a b) (h2 : S.Anc b c) : S.Anc a c :=
  Relation.ReflTransGen.trans h1 h2

theorem anc_of_mem_children {n c : ℕ} (h : c ∈ S.children n) : S.Anc n c :=
  Relation.ReflTransGen.single h

theorem Anc.le (h : S.WellFormed) {n x : ℕ} (hx : S.Anc n x) : n ≤ x := by
  induction hx with
  | refl => exact le_rfl
  | tail _ hc ih => have := (h.lt_of_mem_children hc).1; omega

theorem Anc.node {n x : ℕ} (hn : S.Node n) (hx : S.Anc n x) : S.Node x := by
  cases hx with
  | refl => exact hn
  | tail _ hc => exact (mem_children.mp hc).1

/-- The subtree of `n` is `n` and the subtrees of its children. -/
theorem anc_iff_eq_or_child {n x : ℕ} : S.Anc n x ↔ x = n ∨ ∃ c ∈ S.children n, S.Anc c x := by
  rw [Anc, Relation.ReflTransGen.cases_head_iff]
  exact or_congr eq_comm Iff.rfl

/-- A proper descendant's parent is still in the subtree. -/
theorem Anc.parent {n x : ℕ} (hx : S.Anc n x) (hne : x ≠ n) : S.Anc n (S.parent x) := by
  cases hx with
  | refl => exact absurd rfl hne
  | tail h hc => rw [(mem_children.mp hc).2]; exact h

/-- The ancestors of one node form a chain ordered by index. -/
theorem Anc.of_le (h : S.WellFormed) {a b x : ℕ} (ha : S.Anc a x) (hb : S.Anc b x) (hab : a ≤ b) :
    S.Anc a b := by
  induction hb with
  | refl => exact ha
  | @tail y z hy hz ih =>
    have hby : b ≤ y := Anc.le h hy
    have hyz : y < z := (h.lt_of_mem_children hz).1
    refine ih ?_
    rw [← (mem_children.mp hz).2]
    exact ha.parent (by omega)

theorem anc_root (h : S.WellFormed) {n : ℕ} (hn : S.Node n) : S.Anc 1 n := by
  induction n using Nat.strong_induction_on with
  | _ n ih =>
    by_cases h1 : n = 1
    · subst h1; exact .refl 1
    · exact (ih _ (h.parent_lt n hn h1) (h.parent_node hn h1)).trans
        (anc_of_mem_children (mem_children.mpr ⟨hn, rfl⟩))

/-- Two siblings have no common descendant. -/
theorem sibling_eq (h : S.WellFormed) {p c d x : ℕ} (hc : c ∈ S.children p) (hd : d ∈ S.children p)
    (hcx : S.Anc c x) (hdx : S.Anc d x) : c = d := by
  by_contra hne
  rcases Nat.lt_or_gt_of_ne hne with hlt | hlt
  · have hcd := (hcx.of_le h hdx hlt.le).parent (Ne.symm hne)
    rw [(mem_children.mp hd).2] at hcd
    have h1 := hcd.le h
    have h2 := (h.lt_of_mem_children hc).1
    omega
  · have hdc := (hdx.of_le h hcx hlt.le).parent hne
    rw [(mem_children.mp hc).2] at hdc
    have h1 := hdc.le h
    have h2 := (h.lt_of_mem_children hd).1
    omega

/-! ## The last index of a subtree -/

theorem last_eq (h : S.WellFormed) (n : ℕ) : S.last n = max n ((S.children n).sup S.last) := by
  rw [last, upRec_eq]
  congr 1
  exact Finset.sup_congr rfl fun c hc => h.upRec_children _ hc

theorem le_last (h : S.WellFormed) (n : ℕ) : n ≤ S.last n := by
  rw [last_eq h]; exact le_max_left _ _

theorem last_child_le (h : S.WellFormed) {n c : ℕ} (hc : c ∈ S.children n) : S.last c ≤ S.last n := by
  rw [last_eq h n]; exact le_max_of_le_right (Finset.le_sup (f := S.last) hc)

/-- The last index is reached at the node itself or below one of its
    children. -/
theorem last_cases (h : S.WellFormed) (n : ℕ) :
    (S.last n = n ∧ S.children n = ∅) ∨ ∃ c ∈ S.children n, S.last n = S.last c := by
  rcases (S.children n).eq_empty_or_nonempty with he | hne
  · left; rw [last_eq h, he]; simp
  · right
    obtain ⟨c, hc, hs⟩ := Finset.exists_mem_eq_sup _ hne S.last
    refine ⟨c, hc, ?_⟩
    rw [last_eq h, hs]
    have h1 := (h.lt_of_mem_children hc).1
    have h2 := le_last h c
    omega

theorem Anc.last_le (h : S.WellFormed) {n x : ℕ} (hx : S.Anc n x) : S.last x ≤ S.last n := by
  induction hx with
  | refl => exact le_rfl
  | tail _ hc ih => exact (last_child_le h hc).trans ih

theorem Anc.le_last (h : S.WellFormed) {n x : ℕ} (hx : S.Anc n x) : x ≤ S.last n :=
  (Shape.le_last h x).trans (hx.last_le h)

theorem anc_last (h : S.WellFormed) (n : ℕ) : S.Anc n (S.last n) := by
  induction n using h.child_induction with
  | hQ n ih =>
    rcases last_cases h n with ⟨hl, -⟩ | ⟨c, hc, hl⟩
    · rw [hl]; exact .refl n
    · rw [hl]; exact (anc_of_mem_children hc).trans (ih c hc)

theorem last_node (h : S.WellFormed) {n : ℕ} (hn : S.Node n) : S.Node (S.last n) :=
  (anc_last h n).node hn

/-- `last n` is a leaf. -/
theorem children_last (h : S.WellFormed) (n : ℕ) : S.children (S.last n) = ∅ := by
  rw [Finset.eq_empty_iff_forall_notMem]
  intro c hc
  have h1 := (h.lt_of_mem_children hc).1
  have h2 := ((anc_last h n).trans (anc_of_mem_children hc)).le_last h
  omega

theorem last_eq_self_iff (h : S.WellFormed) {n : ℕ} : S.last n = n ↔ S.children n = ∅ := by
  refine ⟨fun hl => hl ▸ children_last h n, fun he => ?_⟩
  rw [last_eq h, he]; simp

theorem last_ne_of_sibling (h : S.WellFormed) {p c d : ℕ} (hc : c ∈ S.children p)
    (hd : d ∈ S.children p) (hne : c ≠ d) : S.last c ≠ S.last d := fun he =>
  hne (sibling_eq h hc hd (anc_last h c) (he ▸ anc_last h d))

/-! ## Subtrees -/

open Classical in
/-- The nodes of the subtree of `n`. -/
noncomputable def subtree (S : Shape) (n : ℕ) : Finset ℕ := {x ∈ Finset.Icc 1 S.size | S.Anc n x}

theorem mem_subtree {n x : ℕ} : x ∈ S.subtree n ↔ S.Node x ∧ S.Anc n x := by
  simp [subtree, Node]

theorem sum_subtree (h : S.WellFormed) {M : Type} [AddCommMonoid M] (f : ℕ → M) {n : ℕ}
    (hn : S.Node n) :
    ∑ x ∈ S.subtree n, f x = f n + ∑ c ∈ S.children n, ∑ x ∈ S.subtree c, f x := by
  have hdis : Set.PairwiseDisjoint (S.children n : Set ℕ) S.subtree := by
    intro c hc d hd hne
    rw [Function.onFun, Finset.disjoint_left]
    intro x hx hx'
    exact hne (sibling_eq h hc hd (mem_subtree.mp hx).2 (mem_subtree.mp hx').2)
  have hnot : n ∉ (S.children n).biUnion S.subtree := by
    simp only [Finset.mem_biUnion, mem_subtree, not_exists, not_and]
    intro c hc _ hcn
    have h1 := (h.lt_of_mem_children hc).1
    have h2 := hcn.le h
    omega
  have hset : S.subtree n = insert n ((S.children n).biUnion S.subtree) := by
    ext x
    simp only [Finset.mem_insert, Finset.mem_biUnion, mem_subtree]
    constructor
    · rintro ⟨hx, hnx⟩
      rcases anc_iff_eq_or_child.mp hnx with rfl | ⟨c, hc, hcx⟩
      · exact .inl rfl
      · exact .inr ⟨c, hc, hx, hcx⟩
    · rintro (rfl | ⟨c, hc, hx, hcx⟩)
      · exact ⟨hn, .refl x⟩
      · exact ⟨hx, (anc_of_mem_children hc).trans hcx⟩
  rw [hset, Finset.sum_insert hnot, Finset.sum_biUnion hdis]

theorem subtree_subset (n : ℕ) : S.subtree n ⊆ Finset.Icc 1 S.size := fun _ hx =>
  Finset.mem_Icc.mpr (mem_subtree.mp hx).1

theorem subtree_root (h : S.WellFormed) : S.subtree 1 = Finset.Icc 1 S.size := by
  ext x
  rw [mem_subtree, Finset.mem_Icc]
  exact ⟨fun hx => hx.1, fun hx => ⟨hx, anc_root h hx⟩⟩

end Shape

end TaskProf
