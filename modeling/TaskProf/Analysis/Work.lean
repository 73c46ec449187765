import TaskProf.Analysis.Span

/-!
# The work of the analysis pass

Every node passes its work up to its parent exactly once, when it is closed.

* `WorkInv`: the work of the nodes after a prefix of the events.
* `closed_keeps`: the work and the span of a closed node are final.
-/

namespace TaskProf.Analysis

variable {G : AFTaskGraph}

/-- A runnable graph of ASYNC, FINISH and STEP nodes whose STEP nodes are
    leaves. -/
structure TaskTree (G : AFTaskGraph) : Prop extends Runnable G where
  typed : ∀ n, G.shape.Node n → (G.tgraphNodes n).type ≠ .noType
  parent_not_step : ∀ n, G.shape.Node n → n ≠ 1 → (G.tgraphNodes (G.tgraphNodes n).parent).type ≠ .step

/-- The work of the nodes after the events `P`. -/
def WorkInv (G : AFTaskGraph) (P : List Event) : Prop :=
  ∀ n, G.shape.Node n → ((ledgerAfter G P).accounts n).work =
    BitVec.ofNat 64 (G.stepWork n + ∑ c ∈ G.shape.closedIn P n, G.subtreeWork c)

theorem WorkInv.atClose (h : TaskTree G) {P : List Event} {n : ℕ}
    (hP : P ++ [.finalise n] <+: G.shape.schedule) (hI : WorkInv G P) :
    ((ledgerAfter G P).accounts n).work = BitVec.ofNat 64 (G.subtreeWork n) := by
  have hn : G.shape.Node n := (Shape.mem_schedule h.shape).mp (Shape.mem_schedule_of_prefix_append hP)
  rw [hI n hn, Shape.closedIn_self h.shape hP, ← AFTaskGraph.subtreeWork_eq h.shape hn]

theorem workInv (h : TaskTree G) {P : List Event} (hP : P <+: G.shape.schedule) : WorkInv G P := by
  have hw := h.shape
  refine Shape.prefix_induction (fun n _ => ?_) (fun P e hP hI q hq => ?_) hP
  · change ((G.tgraphNodes n).tProf.account 0).work = _
    rw [h.fresh n]
    by_cases ht : (G.tgraphNodes n).type = .step <;>
      simp [ProfilerData.account, ProfilerData.zero, AFTaskGraph.stepWork, ht]
  · rw [ledgerAfter_append]
    cases e with
    | visit n =>
      change (openAccount G (ledgerAfter G P).accounts n q).work = _
      rw [openAccount_work, hI q hq, Shape.closedIn_visit]
    | finalise n =>
      have hn : G.shape.Node n := (Shape.mem_schedule hw).mp (Shape.mem_schedule_of_prefix_append hP)
      change (closeAccount G (ledgerAfter G P).accounts n q).work = _
      by_cases hqp : q = (G.tgraphNodes n).parent
      · subst hqp
        obtain ⟨hnot, hins⟩ := Shape.closedIn_finalise_parent hw hP
        rw [AFTaskGraph.shape_parent] at hnot hins
        rw [closeAccount_work_parent, hI _ hq, if_neg (h.typed n hn), WorkInv.atClose h hP hI, hins,
          Finset.sum_insert hnot, ← BitVec.ofNat_add]
        congr 1
        omega
      · rw [Shape.closedIn_finalise_of_ne P hqp, ← hI q hq]
        by_cases hqn : q = n
        · subst hqn; exact closeAccount_work_self G _ (h.parent_ne hn)
        · rw [closeAccount_of_ne G _ hqn hqp]

/-- A closed node is not touched again, except for its place in the maps. -/
theorem closed_keeps (h : Runnable G) {P Q : List Event} (hPQ : P ++ Q <+: G.shape.schedule) {n : ℕ}
    (hn : .finalise n ∈ P) :
    ((ledgerAfter G (P ++ Q)).accounts n).work = ((ledgerAfter G P).accounts n).work ∧
    ((ledgerAfter G (P ++ Q)).accounts n).criticalChild =
      ((ledgerAfter G P).accounts n).criticalChild := by
  induction Q using List.reverseRecOn with
  | nil => rw [List.append_nil]; exact ⟨rfl, rfl⟩
  | append_singleton Q e ih =>
    rw [← List.append_assoc] at hPQ ⊢
    obtain ⟨h1, h2⟩ := ih ((List.prefix_append _ _).trans hPQ)
    have hmem : Event.finalise n ∈ P ++ Q := List.mem_append_left Q hn
    rw [ledgerAfter_append, ← h1, ← h2]
    cases e with
    | visit m => exact ⟨openAccount_work G _ n, openAccount_criticalChild G _ n⟩
    | finalise m =>
      have hnm : n ≠ m := by
        rintro rfl
        exact Shape.not_mem_prefix_self h.shape hPQ hmem
      have hnp := Shape.parent_ne_of_finalised h.shape hPQ hmem
      have hof : closeAccount G (ledgerAfter G (P ++ Q)).accounts m n =
          (ledgerAfter G (P ++ Q)).accounts n := closeAccount_of_ne G _ hnm hnp
      show (closeAccount G _ m n).work = _ ∧ (closeAccount G _ m n).criticalChild = _
      rw [hof]
      exact ⟨rfl, rfl⟩

end TaskProf.Analysis
