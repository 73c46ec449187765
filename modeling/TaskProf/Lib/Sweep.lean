import TaskProf.Lib.Store
import TaskProf.Lib.Forest

/-!
# The counter-driven sweep

One pass over a parent array in index order that closes every node once its
last child is closed. A counter per node holds the number of closed children; a
leaf is closed when the pass reaches it, and closing a node climbs to its
parent, which is closed in turn when its counter reaches its arity. A node with
children is only visited when the pass reaches it.

The actions of the pass are parameters (`Actions`). The result is that the
order of the actions depends on the shape alone:

* `schedule`: the events `visit n` and `finalise n` in the order of the index
  at which they happen, and within one index from the leaf up;
* `sweep_eq_schedule`: the pass performs exactly the schedule, with no access
  outside the counters and no endless climb;
* `finalised_before_visit`, `finalised_before_finalise`: which nodes are closed
  when an event happens;
* `sweep_run`: the invariant rule for a whole pass.
-/

namespace TaskProf

variable {σ : Type}

/-- What the pass does on reaching a node with children, and on closing a
    node. -/
structure Actions (σ : Type) where
  visit : ℕ → σ → Except Fault σ
  finalise : ℕ → σ → Except Fault σ

/-- One action of a pass. -/
inductive Event
  | visit (n : ℕ)
  | finalise (n : ℕ)
  deriving DecidableEq, Repr

/-- Perform one event. -/
def Actions.perform (A : Actions σ) (st : σ) : Event → Except Fault σ
  | .visit n => A.visit n st
  | .finalise n => A.finalise n st

namespace Shape

variable (S : Shape) (A : Actions σ)

/-- `counts[p]++` on an array with the entries `0 … size`. -/
def bump (counts : ℕ → ℕ) (p : ℕ) : Except Fault (ℕ → ℕ) :=
  if p ≤ S.size then .ok (Function.update counts p (counts p + 1)) else .error .outOfBounds

/-- Count a closed child of `p`; if it was the last one, close `p` and go on
    with the parent of `p`. `fuel` bounds the depth of the recursion. -/
def climb : ℕ → ℕ → (ℕ → ℕ) × σ → Except Fault ((ℕ → ℕ) × σ)
  | 0, _, _ => .error .divergence
  | fuel + 1, p, (counts, st) => do
    let counts ← S.bump counts p
    if S.arity p = counts p then
      let st ← A.finalise p st
      if S.parent p ≠ 0 then climb fuel (S.parent p) (counts, st) else .ok (counts, st)
    else .ok (counts, st)

/-- The body of the loop at index `i`. -/
def reach (cs : (ℕ → ℕ) × σ) (i : ℕ) : Except Fault ((ℕ → ℕ) × σ) :=
  if S.arity i = cs.1 i then do
    let st ← A.finalise i cs.2
    S.climb A (S.size + 1) (S.parent i) (cs.1, st)
  else do
    let st ← A.visit i cs.2
    .ok (cs.1, st)

/-- The whole pass, from counters that are all zero. -/
def sweep (st : σ) : Except Fault σ :=
  Prod.snd <$> (List.range' 1 S.size).foldlM (S.reach A) (fun _ => 0, st)

/-! ## The schedule -/

/-- The nodes whose subtree ends at index `i`, from the leaf up. -/
def closing (i : ℕ) : List ℕ := (List.range' 1 S.size).reverse.filter (S.last · = i)

/-- The events at index `i`. -/
def slot (i : ℕ) : List Event :=
  if S.arity i = 0 then (S.closing i).map .finalise else [.visit i]

/-- All events of a pass. -/
def schedule : List Event := (List.range' 1 S.size).flatMap S.slot

/-- `d` is closed before `x`. -/
def ClosedBefore (d x : ℕ) : Prop := S.last d < S.last x ∨ S.last d = S.last x ∧ x < d

instance (d x : ℕ) : Decidable (S.ClosedBefore d x) := inferInstanceAs (Decidable (_ ∨ _))

variable {S A}

theorem mem_range'_size {n : ℕ} : n ∈ List.range' 1 S.size ↔ S.Node n := by
  rw [List.mem_range'_1, Node]; omega

theorem mem_closing {i n : ℕ} : n ∈ S.closing i ↔ S.Node n ∧ S.last n = i := by
  simp only [closing, List.mem_filter, List.mem_reverse, mem_range'_size, decide_eq_true_eq]

theorem closing_pairwise (i : ℕ) : (S.closing i).Pairwise (· > ·) := by
  refine List.Pairwise.filter _ ?_
  rw [List.pairwise_reverse]
  exact List.pairwise_lt_range'

theorem arity_eq_zero_iff (h : S.WellFormed) {n : ℕ} (hn : S.Node n) :
    S.arity n = 0 ↔ S.children n = ∅ := by
  rw [h.arity_eq n hn, Finset.card_eq_zero]

theorem arity_zero_iff_last (h : S.WellFormed) {n : ℕ} (hn : S.Node n) :
    S.arity n = 0 ↔ S.last n = n := by
  rw [arity_eq_zero_iff h hn, last_eq_self_iff h]

theorem arity_last (h : S.WellFormed) {n : ℕ} (hn : S.Node n) : S.arity (S.last n) = 0 := by
  rw [arity_eq_zero_iff h (last_node h hn), children_last h]

/-! ## One climb -/

/-- The part of `closing i` that a climb from `p` performs: `p` first if the
    subtree of `p` ends at `i`, nothing otherwise. -/
theorem closing_filter_le (h : S.WellFormed) {x : ℕ} (hx : S.Node x) (h1 : x ≠ 1) :
    (S.closing (S.last x)).filter (· ≤ S.parent x) =
      if S.last (S.parent x) = S.last x then
        S.parent x :: (S.closing (S.last x)).filter (· ≤ S.parent (S.parent x))
      else [] := by
  have hp := h.parent_node hx h1
  have hpx : S.Anc (S.parent x) x := anc_of_mem_children (mem_children.mpr ⟨hx, rfl⟩)
  have hchain : ∀ y, S.last y = S.last x → y ≤ S.parent x → S.Anc y (S.parent x) := fun y hy hle =>
    (hy ▸ anc_last h y).of_le h (hpx.trans (anc_last h x)) hle
  have hpp : S.parent (S.parent x) < S.parent x := by
    by_cases hp1 : S.parent x = 1
    · rw [hp1, h.root]; omega
    · exact h.parent_lt _ hp hp1
  split_ifs with hl
  · refine (((closing_pairwise _).filter _).eq_of_mem_iff ?_ ?_)
    · refine List.pairwise_cons.mpr ⟨fun y hy => ?_, (closing_pairwise _).filter _⟩
      simp only [List.mem_filter, decide_eq_true_eq] at hy
      omega
    · intro y
      simp only [List.mem_filter, List.mem_cons, mem_closing, decide_eq_true_eq]
      constructor
      · rintro ⟨⟨hy, hly⟩, hle⟩
        by_cases hyp : y = S.parent x
        · exact .inl hyp
        · refine .inr ⟨⟨hy, hly⟩, ?_⟩
          exact ((hchain y hly hle).parent (Ne.symm hyp)).le h
      · rintro (rfl | ⟨⟨hy, hly⟩, hle⟩)
        · exact ⟨⟨hp, hl⟩, le_rfl⟩
        · exact ⟨⟨hy, hly⟩, by omega⟩
  · rw [List.filter_eq_nil_iff]
    intro y hy
    rw [mem_closing] at hy
    simp only [decide_eq_true_eq, not_le]
    by_contra hle
    have h2 := (hchain y hy.2 (by omega)).last_le h
    have h3 := hpx.last_le h
    omega

/-- The children of `q` that are closed before `x`. -/
def closedChildren (S : Shape) (x q : ℕ) : Finset ℕ := {d ∈ S.children q | S.ClosedBefore d x}

theorem notMem_closedChildren_self (S : Shape) (x q : ℕ) : x ∉ S.closedChildren x q := by
  intro hx
  have := (Finset.mem_filter.mp hx).2
  simp only [ClosedBefore] at this
  omega

/-- The children of `q` that are closed once the pass has reached index `i`. -/
def closedUpTo (S : Shape) (i q : ℕ) : Finset ℕ := {d ∈ S.children q | S.last d ≤ i}

/-- Once `x` is counted, its parent's counter is full exactly when the parent's
    subtree ends where the subtree of `x` ends. -/
theorem card_closed_eq_arity_iff (h : S.WellFormed) {x : ℕ} (hx : S.Node x) (h1 : x ≠ 1) :
    S.arity (S.parent x) = (S.closedChildren x (S.parent x)).card + 1 ↔
      S.last (S.parent x) = S.last x := by
  have hp := h.parent_node hx h1
  have hxc : x ∈ S.children (S.parent x) := mem_children.mpr ⟨hx, rfl⟩
  have hxn := S.notMem_closedChildren_self x (S.parent x)
  have hsub : insert x (S.closedChildren x (S.parent x)) ⊆ S.children (S.parent x) := by
    intro d hd
    rcases Finset.mem_insert.mp hd with rfl | hd
    · exact hxc
    · exact (Finset.mem_filter.mp hd).1
  rw [h.arity_eq _ hp, ← Finset.card_insert_of_notMem hxn]
  constructor
  · intro hcard
    have heq := Finset.eq_of_subset_of_card_le hsub hcard.le
    rcases last_cases h (S.parent x) with ⟨-, he⟩ | ⟨c, hc, hl⟩
    · rw [he] at hxc; simp at hxc
    · have hcx := last_child_le h hxc
      rw [← heq, Finset.mem_insert] at hc
      rcases hc with rfl | hc
      · exact hl
      · have := (Finset.mem_filter.mp hc).2
        simp only [ClosedBefore] at this; omega
  · intro hl
    congr 1
    refine (Finset.Subset.antisymm hsub fun d hd => ?_).symm
    rw [Finset.mem_insert]
    by_cases hdx : d = x
    · exact .inl hdx
    · refine .inr (Finset.mem_filter.mpr ⟨hd, .inl ?_⟩)
      have := last_child_le h hd
      have := last_ne_of_sibling h hd hxc hdx
      omega

/-- Counting `x` turns "closed before `x`" into "closed before the parent of
    `x`" when both subtrees end together. -/
theorem closedBefore_parent_iff (h : S.WellFormed) {x d : ℕ} (hx : S.Node x) (h1 : x ≠ 1)
    (hl : S.last (S.parent x) = S.last x) :
    S.ClosedBefore d (S.parent x) ↔ S.ClosedBefore d x ∨ d = x := by
  have hpx := h.parent_lt x hx h1
  simp only [ClosedBefore, hl]
  constructor
  · rintro (h2 | ⟨h2, h3⟩)
    · exact .inl (.inl h2)
    · rcases Nat.lt_trichotomy x d with h4 | h4 | h4
      · exact .inl (.inr ⟨h2, h4⟩)
      · exact .inr h4.symm
      · have hdx : S.Anc d x := (h2 ▸ anc_last h d).of_le h (anc_last h x) h4.le
        have := (hdx.parent (by omega)).le h
        omega
  · rintro ((h2 | ⟨h2, h3⟩) | rfl)
    · exact .inl h2
    · exact .inr ⟨h2, by omega⟩
    · exact .inr ⟨rfl, hpx⟩

/-- When the climb stops at the parent of `x`, everything that ends at the
    current index is closed. -/
theorem closedBefore_or_eq_iff (h : S.WellFormed) {x d : ℕ} (hx : S.Node x) (h1 : x ≠ 1)
    (hl : S.last (S.parent x) ≠ S.last x) : S.ClosedBefore d x ∨ d = x ↔ S.last d ≤ S.last x := by
  have hxc : x ∈ S.children (S.parent x) := mem_children.mpr ⟨hx, rfl⟩
  simp only [ClosedBefore]
  constructor
  · rintro ((h2 | h2) | rfl) <;> omega
  · intro h2
    rcases Nat.lt_or_eq_of_le h2 with h3 | h3
    · exact .inl (.inl h3)
    · rcases Nat.lt_trichotomy x d with h4 | h4 | h4
      · exact .inl (.inr ⟨h3, h4⟩)
      · exact .inr h4.symm
      · have hdx : S.Anc d x := (h3 ▸ anc_last h d).of_le h (anc_last h x) h4.le
        have h5 := (hdx.parent (by omega)).last_le h
        have h6 := last_child_le h hxc
        omega

/-- Counting `x` at its parent. -/
theorem card_closed_bump {x q : ℕ} (hx : S.Node x) :
    ((S.children q).filter fun d => S.ClosedBefore d x ∨ d = x).card =
      (S.closedChildren x q).card + if q = S.parent x then 1 else 0 := by
  have hxn := S.notMem_closedChildren_self x q
  split_ifs with hq
  · rw [← Finset.card_insert_of_notMem hxn]
    congr 1
    ext d
    simp only [Finset.mem_filter, Finset.mem_insert, closedChildren]
    constructor
    · rintro ⟨hd, h2 | h2⟩
      · exact .inr ⟨hd, h2⟩
      · exact .inl h2
    · rintro (rfl | ⟨hd, h2⟩)
      · exact ⟨mem_children.mpr ⟨hx, hq.symm⟩, .inr rfl⟩
      · exact ⟨hd, .inl h2⟩
  · rw [add_zero, closedChildren]
    congr 1
    ext d
    simp only [Finset.mem_filter, and_congr_right_iff, or_iff_left_iff_imp]
    rintro hd rfl
    exact absurd (mem_children.mp hd).2.symm hq

/-- A climb from the parent of a closed node `x`: if the counters count what is
    closed before `x`, the climb closes the rest of `closing (last x)` and
    leaves counters that count everything closed up to that index. -/
theorem climb_eq (h : S.WellFormed) (A : Actions σ) (fuel : ℕ) :
    ∀ {x : ℕ}, S.Node x → x ≠ 1 → S.parent x < fuel →
      ∀ {counts : ℕ → ℕ}, (∀ q, S.Node q → counts q = (S.closedChildren x q).card) →
      ∃ counts', (∀ q, S.Node q → counts' q = (S.closedUpTo (S.last x) q).card) ∧
        ∀ st, S.climb A fuel (S.parent x) (counts, st) =
          (fun st => (counts', st)) <$> (((S.closing (S.last x)).filter (· ≤ S.parent x)).map
            Event.finalise).foldlM A.perform st := by
  induction fuel with
  | zero => intro x _ _ hf; omega
  | succ fuel ih =>
    intro x hx h1 hf counts hc
    have hp := h.parent_node hx h1
    set counts₁ := Function.update counts (S.parent x) (counts (S.parent x) + 1) with hcounts₁
    have hbump : S.bump counts (S.parent x) = .ok counts₁ := if_pos hp.2
    have hc₁ : ∀ q, S.Node q →
        counts₁ q = ((S.children q).filter fun d => S.ClosedBefore d x ∨ d = x).card := by
      intro q hq
      rw [card_closed_bump hx, ← hc q hq]
      by_cases hqp : q = S.parent x
      · subst hqp; simp [hcounts₁]
      · simp [hcounts₁, hqp]
    have hfull : S.arity (S.parent x) = counts₁ (S.parent x) ↔
        S.last (S.parent x) = S.last x := by
      rw [← card_closed_eq_arity_iff h hx h1, hcounts₁, Function.update_self, hc _ hp]
    rw [closing_filter_le h hx h1]
    by_cases hl : S.last (S.parent x) = S.last x
    · rw [if_pos hl]
      -- the counters now count what is closed before the parent
      have hc₂ : ∀ q, S.Node q → counts₁ q = (S.closedChildren (S.parent x) q).card := by
        intro q hq
        rw [hc₁ q hq, closedChildren]
        congr 1
        exact Finset.filter_congr fun d _ => (closedBefore_parent_iff h hx h1 hl).symm
      by_cases hp1 : S.parent x = 1
      · -- the climb ends at the root
        have hnil : (S.closing (S.last x)).filter (· ≤ S.parent (S.parent x)) = [] := by
          rw [List.filter_eq_nil_iff]
          intro y hy
          have := (mem_closing.mp hy).1.1
          rw [hp1, h.root]
          simp only [decide_eq_true_eq]; omega
        refine ⟨counts₁, fun q hq => ?_, fun st => ?_⟩
        · rw [hc₂ q hq, closedChildren, closedUpTo]
          congr 1
          refine Finset.filter_congr fun d hd => ?_
          have hd1 := (h.lt_of_mem_children hd).1
          have hq1 := hq.1
          simp only [ClosedBefore, hl]
          omega
        · rw [climb, hbump, hnil]
          simp only [bind, Except.bind, if_pos (hfull.mpr hl), List.map_cons, List.map_nil,
            List.foldlM_cons, List.foldlM_nil, Actions.perform]
          cases A.finalise (S.parent x) st with
          | error e => rfl
          | ok st' => simp [hp1, h.root, pure, Except.pure, Functor.map, Except.map]
      · have hlt := h.parent_lt _ hp hp1
        have hpp := h.parent_pos _ hp hp1
        obtain ⟨counts', h2, h3⟩ := ih hp hp1 (by omega) hc₂
        rw [hl] at h2 h3
        refine ⟨counts', h2, fun st => ?_⟩
        rw [climb, hbump]
        simp only [bind, Except.bind, if_pos (hfull.mpr hl), List.map_cons, List.foldlM_cons,
          Actions.perform]
        cases A.finalise (S.parent x) st with
        | error e => rfl
        | ok st' =>
          simp only [ne_eq, show S.parent (S.parent x) ≠ 0 by omega, not_false_eq_true, if_true]
          exact h3 st'
    · rw [if_neg hl]
      refine ⟨counts₁, fun q hq => ?_, fun st => ?_⟩
      · rw [hc₁ q hq, closedUpTo]
        congr 1
        exact Finset.filter_congr fun d _ => closedBefore_or_eq_iff h hx h1 hl
      · rw [climb, hbump]
        simp only [bind, Except.bind, if_neg (fun hh => hl (hfull.mp hh))]
        rfl

/-! ## The pass performs the schedule -/

/-- The loop body at index `i` performs `slot i`. -/
theorem reach_eq (h : S.WellFormed) (A : Actions σ) {i : ℕ} (hi : S.Node i) {counts : ℕ → ℕ}
    (hc : ∀ q, S.Node q → counts q = (S.closedUpTo (i - 1) q).card) :
    ∃ counts', (∀ q, S.Node q → counts' q = (S.closedUpTo i q).card) ∧
      ∀ st, S.reach A (counts, st) i =
        (fun st => (counts', st)) <$> (S.slot i).foldlM A.perform st := by
  have hi0 : counts i = 0 := by
    rw [hc i hi, Finset.card_eq_zero, closedUpTo, Finset.filter_eq_empty_iff]
    intro d hd
    have h1 := (h.lt_of_mem_children hd).1
    have h2 := le_last h d
    omega
  by_cases ha : S.arity i = 0
  · -- a leaf: close it, then climb
    have hl : S.last i = i := (arity_zero_iff_last h hi).mp ha
    have h1 : i ≠ 1 := by rintro rfl; exact h.root_arity ha
    have hlt := h.parent_lt i hi h1
    have hcb : ∀ q, S.Node q → counts q = (S.closedChildren i q).card := by
      intro q hq
      rw [hc q hq, closedUpTo, closedChildren]
      congr 1
      refine Finset.filter_congr fun d hd => ?_
      have h2 := le_last h d
      have hi1 := hi.1
      simp only [ClosedBefore, hl]
      omega
    obtain ⟨counts', h2, h3⟩ := climb_eq h A (S.size + 1) hi h1
      (by have := hi.2; omega) hcb
    rw [hl] at h2 h3
    have hslot : S.closing i = i :: (S.closing i).filter (· ≤ S.parent i) := by
      refine (closing_pairwise i).eq_of_mem_iff
        (List.pairwise_cons.mpr ⟨fun y hy => ?_, (closing_pairwise i).filter _⟩) fun y => ?_
      · simp only [List.mem_filter, decide_eq_true_eq] at hy
        omega
      · simp only [List.mem_cons, List.mem_filter, mem_closing, decide_eq_true_eq]
        constructor
        · rintro ⟨hy, hly⟩
          by_cases hyi : y = i
          · exact .inl hyi
          · have hya : S.Anc y i := hly ▸ anc_last h y
            exact .inr ⟨⟨hy, hly⟩, (hya.parent (Ne.symm hyi)).le h⟩
        · rintro (rfl | ⟨⟨hy, hly⟩, -⟩)
          · exact ⟨hi, hl⟩
          · exact ⟨hy, hly⟩
    refine ⟨counts', h2, fun st => ?_⟩
    rw [slot, if_pos ha, hslot, List.map_cons, List.foldlM_cons, reach]
    simp only [bind, Except.bind, ha, hi0, if_true, Actions.perform]
    cases A.finalise i st with
    | error e => rfl
    | ok st' => exact h3 st'
  · -- a node with children is only visited; no subtree ends here
    refine ⟨counts, fun q hq => ?_, fun st => ?_⟩
    · rw [hc q hq, closedUpTo, closedUpTo]
      congr 1
      refine Finset.filter_congr fun d hd => ?_
      have hd' : S.last d ≠ i := fun he => ha (he ▸ arity_last h (mem_children.mp hd).1)
      omega
    · rw [slot, if_neg ha, reach]
      simp only [bind, Except.bind, hi0, ha, if_false, List.foldlM_cons, List.foldlM_nil,
        Actions.perform]
      cases A.visit i st with
      | error e => rfl
      | ok st' => rfl

/-- The first `k` iterations of the loop perform the events up to index `k`. -/
theorem reach_prefix (h : S.WellFormed) (A : Actions σ) {k : ℕ} (hk : k ≤ S.size) :
    ∃ counts', (∀ q, S.Node q → counts' q = (S.closedUpTo k q).card) ∧
      ∀ st, (List.range' 1 k).foldlM (S.reach A) (fun _ => 0, st) =
        (fun st => (counts', st)) <$> ((List.range' 1 k).flatMap S.slot).foldlM A.perform st := by
  induction k with
  | zero =>
    refine ⟨fun _ => 0, fun q hq => ?_, fun st => rfl⟩
    rw [eq_comm, Finset.card_eq_zero, closedUpTo, Finset.filter_eq_empty_iff]
    intro d hd
    have h1 := (h.lt_of_mem_children hd).1
    have h2 := le_last h d
    omega
  | succ k ih =>
    obtain ⟨counts₁, hc₁, h1⟩ := ih (by omega)
    obtain ⟨counts', hc', h2⟩ := reach_eq h A (i := 1 + k) ⟨by omega, by omega⟩
      (by rwa [show 1 + k - 1 = k by omega])
    refine ⟨counts', by rwa [show k + 1 = 1 + k by omega], fun st => ?_⟩
    rw [List.range'_1_concat, List.foldlM_append, List.flatMap_append, List.foldlM_append, h1]
    simp only [List.flatMap_cons, List.flatMap_nil, List.append_nil, List.foldlM_cons,
      List.foldlM_nil, bind, Except.bind]
    cases ((List.range' 1 k).flatMap S.slot).foldlM A.perform st with
    | error e => rfl
    | ok st' =>
      have h3 := h2 st'
      simp only [Functor.map, Except.map] at h3 ⊢
      rw [h3]
      cases (S.slot (1 + k)).foldlM A.perform st' <;> rfl

/-- **The pass performs exactly the schedule**, in order, and ends. -/
theorem sweep_eq_schedule (h : S.WellFormed) (A : Actions σ) (st : σ) :
    S.sweep A st = S.schedule.foldlM A.perform st := by
  obtain ⟨counts', -, h1⟩ := reach_prefix h A le_rfl
  rw [sweep, h1, schedule]
  cases ((List.range' 1 S.size).flatMap S.slot).foldlM A.perform st <;> rfl

/-! ## What has happened when -/

/-- The position of an event: the index at which it happens, then from the leaf
    up. -/
def position (S : Shape) : Event → ℕ × ℕ
  | .visit n => (n, 0)
  | .finalise n => (S.last n, S.size + 1 - n)

/-- `e` happens before `e'`. -/
def Before (S : Shape) (e e' : Event) : Prop :=
  (S.position e).1 < (S.position e').1 ∨
    (S.position e).1 = (S.position e').1 ∧ (S.position e).2 < (S.position e').2

theorem mem_slot (h : S.WellFormed) {i : ℕ} (hi : S.Node i) {e : Event} :
    e ∈ S.slot i ↔ (S.position e).1 = i ∧
      match e with
      | .visit n => S.Node n ∧ S.arity n ≠ 0
      | .finalise n => S.Node n := by
  rw [slot]
  split_ifs with ha
  · rw [List.mem_map]
    constructor
    · rintro ⟨n, hn, rfl⟩
      exact ⟨(mem_closing.mp hn).2, (mem_closing.mp hn).1⟩
    · rintro ⟨hl, hm⟩
      cases e with
      | visit n => simp only [position] at hl; subst hl; exact absurd ha hm.2
      | finalise n => exact ⟨n, mem_closing.mpr ⟨hm, hl⟩, rfl⟩
  · rw [List.mem_singleton]
    constructor
    · rintro rfl; exact ⟨rfl, hi, ha⟩
    · rintro ⟨hl, hm⟩
      cases e with
      | visit n => simp only [position] at hl; rw [hl]
      | finalise n => simp only [position] at hl; exact absurd (hl ▸ arity_last h hm) ha

theorem mem_schedule (h : S.WellFormed) {e : Event} :
    e ∈ S.schedule ↔
      match e with
      | .visit n => S.Node n ∧ S.arity n ≠ 0
      | .finalise n => S.Node n := by
  rw [schedule, List.mem_flatMap]
  constructor
  · rintro ⟨i, hi, he⟩
    exact ((mem_slot h (mem_range'_size.mp hi)).mp he).2
  · intro he
    have hpos : S.Node (S.position e).1 := by
      cases e with
      | visit n => exact he.1
      | finalise n => exact last_node h he
    exact ⟨_, mem_range'_size.mpr hpos, (mem_slot h hpos).mpr ⟨rfl, he⟩⟩

theorem slot_pairwise (i : ℕ) : (S.slot i).Pairwise S.Before := by
  rw [slot]
  split_ifs
  · rw [List.pairwise_map]
    refine (closing_pairwise i).imp_of_mem fun {a b} ha hb hab => ?_
    obtain ⟨hna, hla⟩ := mem_closing.mp ha
    obtain ⟨hnb, hlb⟩ := mem_closing.mp hb
    have := hna.2
    simp only [Before, position]
    omega
  · exact List.pairwise_singleton _ _

theorem schedule_pairwise (h : S.WellFormed) : S.schedule.Pairwise S.Before := by
  rw [schedule, List.pairwise_flatMap]
  refine ⟨fun i _ => slot_pairwise i,
    List.Pairwise.imp_of_mem ?_ (List.pairwise_lt_range' (s := 1) (n := S.size))⟩
  intro i j hi hj hij e he e' he'
  rw [mem_slot h (mem_range'_size.mp hi)] at he
  rw [mem_slot h (mem_range'_size.mp hj)] at he'
  exact .inl (by omega)

/-- The events performed before `e` are the scheduled events with a smaller
    position. -/
theorem mem_prefix_iff (h : S.WellFormed) {P : List Event} {e e' : Event}
    (hP : P ++ [e] <+: S.schedule) : e' ∈ P ↔ e' ∈ S.schedule ∧ S.Before e' e := by
  obtain ⟨Q, hQ⟩ := hP
  have hpw := schedule_pairwise h
  rw [← hQ, List.append_assoc, List.pairwise_append] at hpw
  obtain ⟨-, hQ', hcross⟩ := hpw
  rw [← hQ, List.append_assoc]
  constructor
  · intro he'
    exact ⟨List.mem_append_left _ he', hcross e' he' e (by simp)⟩
  · rintro ⟨he', hlt⟩
    rcases List.mem_append.mp he' with he' | he'
    · exact he'
    · exfalso
      simp only [List.singleton_append, List.mem_cons] at he'
      rcases he' with rfl | he'
      · simp only [Before] at hlt; omega
      · have := (List.pairwise_cons.mp hQ').1 e' he'
        simp only [Before] at hlt this; omega

theorem mem_schedule_of_prefix_append {P : List Event} {e : Event} (hP : P ++ [e] <+: S.schedule) :
    e ∈ S.schedule := hP.subset (by simp)

/-- When a node with children is visited, exactly the nodes whose subtree ended
    earlier are closed. -/
theorem finalised_before_visit (h : S.WellFormed) {P : List Event} {n x : ℕ}
    (hP : P ++ [.visit n] <+: S.schedule) : .finalise x ∈ P ↔ S.Node x ∧ S.last x < n := by
  rw [mem_prefix_iff h hP, mem_schedule h]
  simp only [Before, position, Node]
  omega

/-- When a node is closed, exactly the nodes closed before it are. -/
theorem finalised_before_finalise (h : S.WellFormed) {P : List Event} {n x : ℕ}
    (hP : P ++ [.finalise n] <+: S.schedule) :
    .finalise x ∈ P ↔ S.Node x ∧ S.ClosedBefore x n := by
  have hn : S.Node n := (mem_schedule h).mp (mem_schedule_of_prefix_append hP)
  rw [mem_prefix_iff h hP, mem_schedule h]
  simp only [Before, position, ClosedBefore]
  refine and_congr_right fun hx => ?_
  have := hn.2
  have := hx.2
  omega

/-- When a node is closed, every node with children up to the current index has
    been visited. -/
theorem visited_before_finalise (h : S.WellFormed) {P : List Event} {n x : ℕ}
    (hP : P ++ [.finalise n] <+: S.schedule) :
    .visit x ∈ P ↔ S.Node x ∧ S.arity x ≠ 0 ∧ x ≤ S.last n := by
  have hn : S.Node n := (mem_schedule h).mp (mem_schedule_of_prefix_append hP)
  rw [mem_prefix_iff h hP, mem_schedule h]
  simp only [Before, position, Node]
  have := hn.2
  omega

/-- A node is closed after all of its children. -/
theorem children_finalised (h : S.WellFormed) {P : List Event} {n c : ℕ}
    (hP : P ++ [.finalise n] <+: S.schedule) (hc : c ∈ S.children n) : .finalise c ∈ P := by
  rw [finalised_before_finalise h hP]
  have h1 := last_child_le h hc
  have h2 := (h.lt_of_mem_children hc).1
  refine ⟨(mem_children.mp hc).1, ?_⟩
  simp only [ClosedBefore]
  omega

/-- A node's parent is still open when the node is closed or visited. -/
theorem parent_not_finalised (h : S.WellFormed) {P : List Event} {e : Event} {n : ℕ}
    (hP : P ++ [e] <+: S.schedule) (he : e = .visit n ∨ e = .finalise n) :
    .finalise (S.parent n) ∉ P := by
  have hm := mem_schedule_of_prefix_append hP
  rcases he with rfl | rfl
  · have hn := ((mem_schedule h).mp hm).1
    have hc : n ∈ S.children (S.parent n) := mem_children.mpr ⟨hn, rfl⟩
    rw [finalised_before_visit h hP]
    have h2 := last_child_le h hc
    have h3 := le_last h n
    omega
  · have hn : S.Node n := (mem_schedule h).mp hm
    have hc : n ∈ S.children (S.parent n) := mem_children.mpr ⟨hn, rfl⟩
    rw [finalised_before_finalise h hP]
    have h2 := last_child_le h hc
    have h3 := (h.lt_of_mem_children hc).1
    simp only [ClosedBefore]
    omega

theorem not_mem_prefix_self (h : S.WellFormed) {P : List Event} {e : Event}
    (hP : P ++ [e] <+: S.schedule) : e ∉ P := by
  rw [mem_prefix_iff h hP]
  simp only [Before]
  omega

/-! ## Closed children -/

/-- The children of `q` that the events `P` have closed. -/
def closedIn (S : Shape) (P : List Event) (q : ℕ) : Finset ℕ := {c ∈ S.children q | .finalise c ∈ P}

theorem mem_closedIn {P : List Event} {q c : ℕ} :
    c ∈ S.closedIn P q ↔ c ∈ S.children q ∧ .finalise c ∈ P := by
  simp [closedIn]

@[simp] theorem closedIn_nil (q : ℕ) : S.closedIn [] q = ∅ := by simp [closedIn]

@[simp] theorem closedIn_visit (P : List Event) (n q : ℕ) :
    S.closedIn (P ++ [.visit n]) q = S.closedIn P q := by
  simp [closedIn]

theorem closedIn_finalise_of_ne (P : List Event) {n q : ℕ} (hq : q ≠ S.parent n) :
    S.closedIn (P ++ [.finalise n]) q = S.closedIn P q := by
  refine Finset.filter_congr fun c hc => ?_
  have : c ≠ n := by rintro rfl; exact hq (mem_children.mp hc).2.symm
  simp [this]

theorem closedIn_finalise_parent (h : S.WellFormed) {P : List Event} {n : ℕ}
    (hP : P ++ [.finalise n] <+: S.schedule) :
    n ∉ S.closedIn P (S.parent n) ∧
      S.closedIn (P ++ [.finalise n]) (S.parent n) = insert n (S.closedIn P (S.parent n)) := by
  have hn : S.Node n := (mem_schedule h).mp (mem_schedule_of_prefix_append hP)
  refine ⟨fun hm => not_mem_prefix_self h hP (mem_closedIn.mp hm).2, ?_⟩
  ext c
  simp only [mem_closedIn, Finset.mem_insert, List.mem_append, List.mem_singleton,
    Event.finalise.injEq]
  constructor
  · rintro ⟨hc, hm | rfl⟩
    · exact .inr ⟨hc, hm⟩
    · exact .inl rfl
  · rintro (rfl | ⟨hc, hm⟩)
    · exact ⟨mem_children.mpr ⟨hn, rfl⟩, .inr rfl⟩
    · exact ⟨hc, .inl hm⟩

/-- When a node with children is reached, none of its children is closed. -/
theorem closedIn_visit_self (h : S.WellFormed) {P : List Event} {n : ℕ}
    (hP : P ++ [.visit n] <+: S.schedule) : S.closedIn P n = ∅ :=
  Finset.filter_eq_empty_iff.mpr fun c hc hm => by
    have h1 := ((finalised_before_visit h hP).mp hm).2
    have h2 := (h.lt_of_mem_children hc).1
    have h3 := le_last h c
    omega

/-- When a node is closed, all of its children are. -/
theorem closedIn_self (h : S.WellFormed) {P : List Event} {n : ℕ}
    (hP : P ++ [.finalise n] <+: S.schedule) : S.closedIn P n = S.children n :=
  Finset.filter_true_of_mem fun _ hc => children_finalised h hP hc

/-- Of two siblings the one with the smaller last index is closed first. -/
theorem last_lt_of_closedIn (h : S.WellFormed) {P : List Event} {n c : ℕ}
    (hP : P ++ [.finalise n] <+: S.schedule) (hc : c ∈ S.closedIn P (S.parent n)) :
    S.last c < S.last n := by
  have hn : S.Node n := (mem_schedule h).mp (mem_schedule_of_prefix_append hP)
  obtain ⟨hc, hm⟩ := mem_closedIn.mp hc
  have hne : c ≠ n := by rintro rfl; exact not_mem_prefix_self h hP hm
  have hl := last_ne_of_sibling h hc (mem_children.mpr ⟨hn, rfl⟩) hne
  have := ((finalised_before_finalise h hP).mp hm).2
  simp only [ClosedBefore] at this
  omega

/-- A closed node is not the parent of a node that is closed later. -/
theorem parent_ne_of_finalised (h : S.WellFormed) {P : List Event} {n q : ℕ}
    (hP : P ++ [.finalise n] <+: S.schedule) (hq : .finalise q ∈ P) : q ≠ S.parent n := fun he =>
  parent_not_finalised h hP (.inr rfl) (he ▸ hq)

/-! ## The invariant rule -/

/-- Induction over the prefixes of the schedule. -/
theorem prefix_induction {Q : List Event → Prop} (h0 : Q [])
    (hstep : ∀ P e, P ++ [e] <+: S.schedule → Q P → Q (P ++ [e])) {P : List Event}
    (hP : P <+: S.schedule) : Q P := by
  induction P using List.reverseRecOn with
  | nil => exact h0
  | append_singleton P e ih => exact hstep P e hP (ih ((List.prefix_append P [e]).trans hP))

/-- **Invariant rule.** An invariant of the events performed so far and the
    state that every scheduled event preserves holds after the pass, and the
    pass runs to its end. -/
theorem sweep_run (h : S.WellFormed) (A : Actions σ) (Inv : List Event → σ → Prop) (st : σ)
    (h0 : Inv [] st)
    (hstep : ∀ P e st, P ++ [e] <+: S.schedule → Inv P st →
      ∃ st', A.perform st e = .ok st' ∧ Inv (P ++ [e]) st') :
    ∃ st', S.sweep A st = .ok st' ∧ Inv S.schedule st' := by
  rw [sweep_eq_schedule h]
  have key : ∀ Q P st, P ++ Q = S.schedule → Inv P st →
      ∃ st', Q.foldlM A.perform st = .ok st' ∧ Inv S.schedule st' := by
    intro Q
    induction Q with
    | nil => intro P st hP hI; rw [List.append_nil] at hP; exact ⟨st, rfl, hP ▸ hI⟩
    | cons e Q ih =>
      intro P st hP hI
      obtain ⟨st₁, h1, hI₁⟩ := hstep P e st ⟨Q, by simpa using hP⟩ hI
      obtain ⟨st', h2, hI'⟩ := ih (P ++ [e]) st₁ (by simpa using hP) hI₁
      refine ⟨st', ?_, hI'⟩
      rw [List.foldlM_cons, h1]
      exact h2
  exact key S.schedule [] st (by simp) h0

end Shape

/-! ## The order of the events -/

/-- Actions that record the events and do nothing else. -/
def Actions.trace : Actions (List Event) where
  visit n done := .ok (done ++ [.visit n])
  finalise n done := .ok (done ++ [.finalise n])

theorem foldlM_trace (l done : List Event) :
    l.foldlM Actions.trace.perform done = .ok (done ++ l) := by
  induction l generalizing done with
  | nil => rw [List.append_nil]; rfl
  | cons e l ih =>
    have hstep : Actions.trace.perform done e = .ok (done ++ [e]) := by
      cases e <;> rfl
    rw [List.foldlM_cons, hstep, List.append_cons done e l]
    exact ih (done ++ [e])

namespace Shape

variable {S : Shape}

theorem schedule_nodup (h : S.WellFormed) : S.schedule.Nodup := by
  refine (schedule_pairwise h).imp fun {a b} hab => ?_
  rintro rfl
  simp only [Before] at hab
  omega

/-- Every node is closed once. -/
theorem count_finalise (h : S.WellFormed) (n : ℕ) :
    S.schedule.count (.finalise n) = if S.Node n then 1 else 0 := by
  split_ifs with hn
  · exact List.count_eq_one_of_mem (schedule_nodup h) ((mem_schedule h).mpr hn)
  · exact List.count_eq_zero_of_not_mem fun hm => hn ((mem_schedule h).mp hm)

/-- After `k` iterations exactly the nodes are closed whose subtree the loop has
    visited. -/
theorem finalise_mem_upTo (h : S.WellFormed) {k n : ℕ} (hk : k ≤ S.size) :
    .finalise n ∈ (List.range' 1 k).flatMap S.slot ↔ S.Node n ∧ ∀ x, S.Anc n x → x ≤ k := by
  rw [List.mem_flatMap]
  constructor
  · rintro ⟨i, hi, hm⟩
    rw [List.mem_range'_1] at hi
    obtain ⟨hlast, hn⟩ := (mem_slot h ⟨hi.1, by omega⟩).mp hm
    refine ⟨hn, fun x hx => (hx.le_last h).trans ?_⟩
    have hle : S.last n = i := hlast
    omega
  · rintro ⟨hn, hall⟩
    have hl := last_node h hn
    have hle := hall _ (anc_last h n)
    refine ⟨S.last n, List.mem_range'_1.mpr ⟨hl.1, by omega⟩, ?_⟩
    exact (mem_slot h hl).mpr ⟨rfl, hn⟩

theorem upTo_prefix (S : Shape) {k : ℕ} (hk : k ≤ S.size) :
    (List.range' 1 k).flatMap S.slot <+: S.schedule := by
  rw [schedule, show S.size = k + (S.size - k) by omega, ← List.range'_append_1,
    List.flatMap_append]
  exact List.prefix_append _ _

end Shape

/-! ## Recording a pass -/

/-- The same actions, with a record of every call of `finalise`: the node, the
    state before the call and the state after it. -/
def Actions.record (A : Actions σ) : Actions (σ × List (ℕ × σ × σ)) where
  visit n st := (fun st' => (st', st.2)) <$> A.visit n st.1
  finalise n st := (fun st' => (st', st.2 ++ [(n, st.1, st')])) <$> A.finalise n st.1

/-- Recording does not change the pass. -/
theorem Shape.sweep_record {S : Shape} (h : S.WellFormed) (A : Actions σ) (st : σ)
    (calls : List (ℕ × σ × σ)) : Prod.fst <$> S.sweep A.record (st, calls) = S.sweep A st := by
  rw [sweep_eq_schedule h, sweep_eq_schedule h]
  generalize S.schedule = Q
  induction Q generalizing st calls with
  | nil => rfl
  | cons e Q ih =>
    rw [List.foldlM_cons, List.foldlM_cons]
    cases e with
    | visit n =>
      simp only [Actions.perform, Actions.record, bind, Except.bind]
      cases A.visit n st with
      | error e => rfl
      | ok st' => exact ih st' calls
    | finalise n =>
      simp only [Actions.perform, Actions.record, bind, Except.bind]
      cases A.finalise n st with
      | error e => rfl
      | ok st' => exact ih st' (calls ++ [(n, st, st')])

end TaskProf
