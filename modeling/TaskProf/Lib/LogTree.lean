import Mathlib

/-!
# Trees read from a log

A log lists the nodes of a tree, each entry with its own number, the number of
its parent and a label. `Completes` reads a log that is still being written: the
node with the number `i` will get the further children `fut i`.

* `Completes.append`: logging the next child that is due changes nothing in the
  tree.
* `Completes.unique`: a log reads as one tree at most.
* `reads_of_completes`: a finished log whose children come in the order of their
  numbers reads, in this order, as the tree.
* `Reads.fold_eq`: what is computed over the log by recursion is computed over the
  tree.
* `Reads.tally_eq`: a sum over the log, in which every node gets something from its
  parent, is a sum over the tree.
-/

namespace TaskProf

/-- Trees with labels and any number of children. -/
inductive Tree (L : Type)
  | node (label : L) (children : List (Tree L))

/-- How entries of a log are read. -/
structure EntryShape (E L : Type) where
  id : E → ℕ
  parent : E → ℕ
  label : E → L

variable {E L : Type} (S : EntryShape E L)

namespace EntryShape

/-- The entries under node `i`, in the order of the log. -/
def children (log : List E) (i : ℕ) : List E := log.filter fun e => S.parent e = i

/-- The entries under node `i`, in the order of their numbers. -/
def childrenById (log : List E) (i : ℕ) : List E :=
  (S.children log i).mergeSort fun d e => decide (S.id d ≤ S.id e)

end EntryShape

section Completes

variable (kids : ℕ → List E) (fut : ℕ → List (Tree L))

mutual

/-- The entry `e` is the root of the tree, where a node `i` has the children
    `kids i` and will get `fut i`. -/
def Completes : Tree L → E → Prop
  | .node x ts, e => x = S.label e ∧ CompletesAll ts (kids (S.id e)) (fut (S.id e))

/-- The trees of the entries, followed by `tail`. -/
def CompletesAll : List (Tree L) → List E → List (Tree L) → Prop
  | ts, [], tail => ts = tail
  | [], _ :: _, _ => False
  | t :: ts, e :: es, tail => Completes t e ∧ CompletesAll ts es tail

end

/-- The finished log reads as the tree below the entry. -/
def Reads (log : List E) (t : Tree L) (e : E) : Prop :=
  Completes S (S.childrenById log) (fun _ => []) t e

end Completes

variable {S} {kids : ℕ → List E} {fut : ℕ → List (Tree L)}

theorem completes_node {x : L} {ts : List (Tree L)} {e : E} :
    Completes S kids fut (.node x ts) e ↔
      x = S.label e ∧ CompletesAll S kids fut ts (kids (S.id e)) (fut (S.id e)) := by
  rw [Completes]

theorem completesAll_nil {ts tail : List (Tree L)} :
    CompletesAll S kids fut ts [] tail ↔ ts = tail := by
  cases ts <;> rw [CompletesAll]

theorem completesAll_cons {ts tail : List (Tree L)} {e : E} {es : List E} :
    CompletesAll S kids fut ts (e :: es) tail ↔
      ∃ t ts', ts = t :: ts' ∧ Completes S kids fut t e ∧ CompletesAll S kids fut ts' es tail := by
  cases ts with
  | nil =>
    rw [CompletesAll]
    exact iff_of_false id fun ⟨_, _, h, _⟩ => nomatch h
  | cons t ts =>
    rw [CompletesAll]
    constructor
    · exact fun h => ⟨t, ts, rfl, h⟩
    · rintro ⟨t', ts', heq, h⟩
      obtain ⟨rfl, rfl⟩ := List.cons.inj heq
      exact h

mutual

theorem Completes.unique {t t' : Tree L} {e : E} (h : Completes S kids fut t e)
    (h' : Completes S kids fut t' e) : t = t' := by
  match t, t' with
  | .node x ts, .node x' ts' =>
    rw [completes_node] at h h'
    rw [h.1, h'.1, h.2.unique h'.2]
termination_by sizeOf t

theorem CompletesAll.unique {ts ts' tail : List (Tree L)} {es : List E}
    (h : CompletesAll S kids fut ts es tail) (h' : CompletesAll S kids fut ts' es tail) :
    ts = ts' := by
  match es, ts with
  | [], _ => rw [completesAll_nil.mp h, completesAll_nil.mp h']
  | e :: es, [] =>
    obtain ⟨_, _, heq, -⟩ := completesAll_cons.mp h
    cases heq
  | e :: es, t :: ts =>
    obtain ⟨_, _, heq, ht, hts⟩ := completesAll_cons.mp h
    obtain ⟨rfl, rfl⟩ := List.cons.inj heq
    obtain ⟨t', ts'', rfl, ht', hts'⟩ := completesAll_cons.mp h'
    rw [ht.unique ht', hts.unique hts']
termination_by sizeOf ts

end

/-- Another child is due after the entries. -/
theorem CompletesAll.concat {ts tail : List (Tree L)} {es : List E} {t : Tree L} {e : E}
    (h : CompletesAll S kids fut ts es (t :: tail)) (ht : Completes S kids fut t e) :
    CompletesAll S kids fut ts (es ++ [e]) tail := by
  induction es generalizing ts with
  | nil =>
    rw [completesAll_nil.mp h]
    exact completesAll_cons.mpr ⟨t, tail, rfl, ht, completesAll_nil.mpr rfl⟩
  | cons d es ih =>
    obtain ⟨t', ts', rfl, ht', hts⟩ := completesAll_cons.mp h
    exact completesAll_cons.mpr ⟨t', ts', rfl, ht', ih hts⟩

section Append

variable {log : List E} {e : E} {cs rest : List (Tree L)}

theorem EntryShape.children_append_of_ne {i : ℕ} (hi : S.parent e ≠ i) :
    S.children (log ++ [e]) i = S.children log i := by
  unfold children
  rw [List.filter_append, List.filter_singleton, decide_eq_false hi]
  exact List.append_nil _

theorem EntryShape.children_append_self :
    S.children (log ++ [e]) (S.parent e) = S.children log (S.parent e) ++ [e] := by
  unfold children
  rw [List.filter_append, List.filter_singleton, decide_eq_true rfl]
  rfl

theorem EntryShape.mem_children {d : E} {i : ℕ} :
    d ∈ S.children log i ↔ d ∈ log ∧ S.parent d = i := by
  unfold children
  rw [List.mem_filter, decide_eq_true_iff]

/-- The new entry `e` is the child that is due at its parent: `cs` are its own
    children to come, and `rest` those of its parent after it. -/
structure Due (S : EntryShape E L) (log : List E) (fut : ℕ → List (Tree L)) (e : E)
    (cs rest : List (Tree L)) : Prop where
  fresh : ∀ d ∈ log, S.id d ≠ S.id e
  child : ∀ d ∈ log, S.parent d ≠ S.id e
  self : S.parent e ≠ S.id e
  fut : fut (S.parent e) = .node (S.label e) cs :: rest

mutual

/-- The child that is due at its parent is logged; what is due below it are the
    rest of its tree. -/
theorem Completes.append {t : Tree L} {d : E} (hdue : Due S log fut e cs rest) (hd : d ∈ log)
    (h : Completes S (S.children log) fut t d) :
    Completes S (S.children (log ++ [e]))
      (Function.update (Function.update fut (S.parent e) rest) (S.id e) cs) t d := by
  match t with
  | .node x ts =>
    rw [completes_node] at h ⊢
    refine ⟨h.1, ?_⟩
    have hmem : ∀ c ∈ S.children log (S.id d), c ∈ log :=
      fun c hc => (EntryShape.mem_children.mp hc).1
    have hall := h.2.append hdue hmem
    rw [Function.update_of_ne (hdue.fresh d hd)]
    by_cases hp : S.id d = S.parent e
    · rw [hp] at hall ⊢
      rw [hdue.fut] at hall
      rw [EntryShape.children_append_self, Function.update_self]
      refine hall.concat (completes_node.mpr ⟨rfl, ?_⟩)
      -- the new entry has no children yet
      have hnone : S.children (log ++ [e]) (S.id e) = [] := by
        rw [EntryShape.children_append_of_ne hdue.self]
        exact List.filter_eq_nil_iff.mpr fun c hc => by
          rw [decide_eq_true_iff]
          exact hdue.child c hc
      rw [hnone, Function.update_self]
      exact completesAll_nil.mpr rfl
    · rw [EntryShape.children_append_of_ne (Ne.symm hp), Function.update_of_ne hp]
      exact hall
termination_by sizeOf t

theorem CompletesAll.append {ts tail : List (Tree L)} {es : List E}
    (hdue : Due S log fut e cs rest) (hes : ∀ d ∈ es, d ∈ log)
    (h : CompletesAll S (S.children log) fut ts es tail) :
    CompletesAll S (S.children (log ++ [e]))
      (Function.update (Function.update fut (S.parent e) rest) (S.id e) cs) ts es tail := by
  match es, ts with
  | [], _ => exact completesAll_nil.mpr (completesAll_nil.mp h)
  | d :: es, [] =>
    obtain ⟨_, _, heq, -⟩ := completesAll_cons.mp h
    cases heq
  | d :: es, t :: ts =>
    obtain ⟨_, _, heq, ht, hts⟩ := completesAll_cons.mp h
    obtain ⟨rfl, rfl⟩ := List.cons.inj heq
    exact completesAll_cons.mpr ⟨t, ts, rfl, ht.append hdue (hes d (List.mem_cons_self ..)),
      hts.append hdue fun c hc => hes c (List.mem_cons_of_mem d hc)⟩
termination_by sizeOf ts

end

end Append

/-- When no more children are due and every node has got its children in the
    order of their numbers, the log reads as the tree. -/
theorem reads_of_completes {log : List E} {t : Tree L} {e : E}
    (hsorted : ∀ i, (S.children log i).Pairwise fun c d => S.id c < S.id d)
    (h : Completes S (S.children log) fut t e) (hfut : ∀ i, fut i = []) : Reads S log t e := by
  have hkids : S.childrenById log = S.children log := by
    funext i
    refine List.mergeSort_of_pairwise ((hsorted i).imp fun hlt => ?_)
    exact decide_eq_true (Nat.le_of_lt hlt)
  have hfut : fut = fun _ => [] := funext hfut
  unfold Reads
  rw [hkids, ← hfut]
  exact h

/-! ## Recursion over a tree -/

def Tree.label : Tree L → L
  | .node x _ => x

section Fold

variable {V : Type}

mutual

/-- A value of the tree, from its label and the labels and values of its children. -/
def Tree.fold (F : L → List (L × V) → V) : Tree L → V
  | .node x ts => F x (Tree.foldAll F ts)

/-- The labels and the values of the trees. -/
def Tree.foldAll (F : L → List (L × V) → V) : List (Tree L) → List (L × V)
  | [] => []
  | t :: ts => (t.label, t.fold F) :: Tree.foldAll F ts

end

theorem Completes.label_eq {t : Tree L} {e : E} (h : Completes S kids fut t e) :
    t.label = S.label e := by
  cases t with
  | node x ts => exact (completes_node.mp h).1

variable {F : L → List (L × V) → V} {f : ℕ → V} {log : List E}

mutual

/-- The recursion over the children of a node is the one over the tree. -/
theorem Completes.fold_eq (hkids : ∀ i, ∀ c ∈ kids i, c ∈ log)
    (hf : ∀ e ∈ log, f (S.id e) =
      F (S.label e) ((kids (S.id e)).map fun c => (S.label c, f (S.id c))))
    {t : Tree L} {e : E} (he : e ∈ log) (h : Completes S kids (fun _ => []) t e) :
    f (S.id e) = t.fold F := by
  match t with
  | .node x ts =>
    obtain ⟨rfl, hall⟩ := completes_node.mp h
    rw [hf e he, Tree.fold, hall.foldAll_eq hkids hf (hkids _)]
termination_by sizeOf t

theorem CompletesAll.foldAll_eq (hkids : ∀ i, ∀ c ∈ kids i, c ∈ log)
    (hf : ∀ e ∈ log, f (S.id e) =
      F (S.label e) ((kids (S.id e)).map fun c => (S.label c, f (S.id c))))
    {ts : List (Tree L)} {es : List E} (hes : ∀ c ∈ es, c ∈ log)
    (h : CompletesAll S kids (fun _ => []) ts es []) :
    es.map (fun c => (S.label c, f (S.id c))) = Tree.foldAll F ts := by
  match es, ts with
  | [], _ =>
    rw [completesAll_nil.mp h]
    rfl
  | c :: es, [] =>
    obtain ⟨_, _, heq, -⟩ := completesAll_cons.mp h
    cases heq
  | c :: es, t :: ts =>
    obtain ⟨_, _, heq, ht, hts⟩ := completesAll_cons.mp h
    obtain ⟨rfl, rfl⟩ := List.cons.inj heq
    rw [List.map_cons, Tree.foldAll, ht.label_eq,
      ht.fold_eq hkids hf (hes c List.mem_cons_self),
      hts.foldAll_eq hkids hf fun d hd => hes d (List.mem_cons_of_mem c hd)]
termination_by sizeOf ts

end

/-- What is computed over a finished log by recursion over the children, in the order of
    their numbers, is computed over the tree that the log reads as. -/
theorem Reads.fold_eq {t : Tree L} {e : E} (he : e ∈ log)
    (hf : ∀ e ∈ log, f (S.id e) =
      F (S.label e) ((S.childrenById log (S.id e)).map fun c => (S.label c, f (S.id c))))
    (h : Reads S log t e) : f (S.id e) = t.fold F := by
  apply Completes.fold_eq ?_ hf he h
  intro i c hc
  exact (EntryShape.mem_children.mp (List.mem_mergeSort.mp hc)).1

end Fold

/-! ## Sums over a tree -/

section Tally

variable {C M : Type} [AddCommMonoid M] (down : C → L → L → C) (g : C → Tree L → M)

mutual

/-- The sum of `g` over the nodes of a tree, where a node gets a value of `C` from its
    parent: `down c x y` is what a parent with the label `x`, which has got `c`, hands
    down to a child with the label `y`. -/
def Tree.tally : C → Tree L → M
  | c, .node x ts => g c (.node x ts) + Tree.tallyAll c x ts

/-- The sum over the trees below a node with the label `x` that has got `c`. -/
def Tree.tallyAll (c : C) (x : L) : List (Tree L) → M
  | [] => 0
  | t :: ts => t.tally (down c x t.label) + Tree.tallyAll c x ts

end

variable {down g} {log : List E} {context : ℕ → C} {own total : ℕ → M}

mutual

/-- A sum over the nodes of the log, by recursion over the children, is the one over the
    tree. -/
theorem Completes.tally_eq (hkids : ∀ i, ∀ c ∈ kids i, c ∈ log)
    (hcontext : ∀ e ∈ log, ∀ c ∈ kids (S.id e),
      context (S.id c) = down (context (S.id e)) (S.label e) (S.label c))
    (hown : ∀ e ∈ log, ∀ t, Completes S kids (fun _ => []) t e →
      own (S.id e) = g (context (S.id e)) t)
    (htotal : ∀ e ∈ log, total (S.id e) =
      own (S.id e) + ((kids (S.id e)).map fun c => total (S.id c)).sum)
    {t : Tree L} {e : E} (he : e ∈ log) (h : Completes S kids (fun _ => []) t e) :
    total (S.id e) = t.tally down g (context (S.id e)) := by
  match t with
  | .node x ts =>
    obtain ⟨rfl, hall⟩ := completes_node.mp h
    rw [htotal e he, hown e he _ h, Tree.tally]
    congr 1
    exact hall.tallyAll_eq hkids hcontext hown htotal he fun _ hc => hc
termination_by sizeOf t

theorem CompletesAll.tallyAll_eq (hkids : ∀ i, ∀ c ∈ kids i, c ∈ log)
    (hcontext : ∀ e ∈ log, ∀ c ∈ kids (S.id e),
      context (S.id c) = down (context (S.id e)) (S.label e) (S.label c))
    (hown : ∀ e ∈ log, ∀ t, Completes S kids (fun _ => []) t e →
      own (S.id e) = g (context (S.id e)) t)
    (htotal : ∀ e ∈ log, total (S.id e) =
      own (S.id e) + ((kids (S.id e)).map fun c => total (S.id c)).sum)
    {ts : List (Tree L)} {es : List E} {e : E} (he : e ∈ log) (hes : ∀ c ∈ es, c ∈ kids (S.id e))
    (h : CompletesAll S kids (fun _ => []) ts es []) :
    (es.map fun c => total (S.id c)).sum =
      Tree.tallyAll down g (context (S.id e)) (S.label e) ts := by
  match es, ts with
  | [], _ =>
    rw [completesAll_nil.mp h]
    rfl
  | c :: es, [] =>
    obtain ⟨_, _, heq, -⟩ := completesAll_cons.mp h
    cases heq
  | c :: es, t :: ts =>
    obtain ⟨_, _, heq, ht, hts⟩ := completesAll_cons.mp h
    obtain ⟨rfl, rfl⟩ := List.cons.inj heq
    have hc := hes c List.mem_cons_self
    rw [List.map_cons, List.sum_cons, Tree.tallyAll, ht.label_eq, ← hcontext e he c hc,
      ht.tally_eq hkids hcontext hown htotal (hkids _ c hc),
      hts.tallyAll_eq hkids hcontext hown htotal he fun d hd => hes d (List.mem_cons_of_mem c hd)]
termination_by sizeOf ts

end

/-- What is summed over a finished log is summed over the tree that the log reads as. -/
theorem Reads.tally_eq {t : Tree L} {e : E} (he : e ∈ log)
    (hcontext : ∀ e ∈ log, ∀ c ∈ S.childrenById log (S.id e),
      context (S.id c) = down (context (S.id e)) (S.label e) (S.label c))
    (hown : ∀ e ∈ log, ∀ t, Reads S log t e → own (S.id e) = g (context (S.id e)) t)
    (htotal : ∀ e ∈ log, total (S.id e) =
      own (S.id e) + ((S.childrenById log (S.id e)).map fun c => total (S.id c)).sum)
    (h : Reads S log t e) : total (S.id e) = t.tally down g (context (S.id e)) := by
  refine Completes.tally_eq ?_ hcontext hown htotal he h
  intro i c hc
  exact (EntryShape.mem_children.mp (List.mem_mergeSort.mp hc)).1

end Tally

end TaskProf
