import TaskProf.Analysis.Work
import TaskProf.Lib.SeriesParallel

/-!
# What the span is

The task graph is a series-parallel forest in which the ASYNC nodes run beside
their siblings to the right, and the STEP nodes take time.

* `isCritical`: `span` is the length of the critical path of this forest.
* `criticalChild_heaviest`: after the pass, `critical_child` of an ASYNC or FINISH
  node is the work of the heaviest chain of STEP nodes below it.
* `criticalChild_fastest`: it is also the least time in which the STEP nodes below
  the node can be run, on any number of processors.
-/

namespace TaskProf.Analysis

namespace AFTaskGraph

/-- STEP node `a` ends before STEP node `b` begins. -/
def HappensBefore (G : AFTaskGraph) : ℕ → ℕ → Prop :=
  G.shape.Precedes fun c => (G.tgraphNodes c).type = .async

/-- STEP nodes below `n` that run one after the other. -/
structure StepChain (G : AFTaskGraph) (n : ℕ) (A : Finset ℕ) : Prop where
  below : ∀ x ∈ A, G.shape.Anc n x
  step : ∀ x ∈ A, (G.tgraphNodes x).type = .step
  chain : IsChain G.HappensBefore (A : Set ℕ)

/-- An execution of the STEP nodes below `n` on the processors `proc`: no node begins
    before those that happen before it have ended, a processor runs one node at a time,
    and all is done at time `T`. -/
structure Execution (G : AFTaskGraph) (n P : ℕ) (start : ℕ → ℕ) (proc : ℕ → Fin P) (T : ℕ) :
    Prop where
  order : ∀ a b, G.shape.Anc n a → G.shape.Anc n b → (G.tgraphNodes a).type = .step →
    (G.tgraphNodes b).type = .step → G.HappensBefore a b → start a + G.stepWork a ≤ start b
  apart : ∀ a b, G.shape.Anc n a → G.shape.Anc n b → (G.tgraphNodes a).type = .step →
    (G.tgraphNodes b).type = .step → a ≠ b → proc a = proc b →
      start a + G.stepWork a ≤ start b ∨ start b + G.stepWork b ≤ start a
  ends : ∀ a, G.shape.Anc n a → (G.tgraphNodes a).type = .step → start a + G.stepWork a ≤ T

end AFTaskGraph

/-- A graph that the pass computes the span of, all of whose nodes have a type. -/
structure TypedGraph (G : AFTaskGraph) : Prop extends SpanGraph G where
  typed : ∀ n, G.shape.Node n → (G.tgraphNodes n).type ≠ .noType

variable {G : AFTaskGraph}

theorem TypedGraph.taskTree (h : TypedGraph G) : TaskTree G :=
  ⟨h.toRunnable, h.typed, h.parent_not_step⟩

/-- The STEP nodes are the leaves. -/
theorem TypedGraph.step_iff (h : TypedGraph G) {n : ℕ} (hn : G.shape.Node n) :
    (G.tgraphNodes n).type = .step ↔ G.shape.children n = ∅ := by
  refine ⟨h.children_step hn, fun hleaf => ?_⟩
  by_contra ht
  apply h.has_child n hn ht
  rw [← AFTaskGraph.shape_arity, h.shape.arity_eq n hn, hleaf, Finset.card_empty]

/-- A leaf takes the work of the STEP node, another node its span. -/
def crit (G : AFTaskGraph) (n : ℕ) : ℕ := if G.shape.children n = ∅ then G.stepWork n else G.span n

theorem TypedGraph.crit_of_ne_step (h : TypedGraph G) {n : ℕ} (hn : G.shape.Node n)
    (ht : (G.tgraphNodes n).type ≠ .step) : crit G n = G.span n := by
  rw [crit, if_neg]
  exact fun hleaf => ht ((h.step_iff hn).mpr hleaf)

/-- The serial length of a child that is not ASYNC. -/
theorem TypedGraph.serial_eq_crit (h : TypedGraph G) {c : ℕ} (hc : G.shape.Node c) :
    G.serial G.span c = if ¬ (G.tgraphNodes c).type = .async then crit G c else 0 := by
  have htyped := h.typed c hc
  cases ht : (G.tgraphNodes c).type with
  | noType => exact absurd ht htyped
  | async => simp [AFTaskGraph.serial, ht]
  | finish =>
    rw [h.crit_of_ne_step hc (by rw [ht]; decide)]
    simp [AFTaskGraph.serial, ht]
  | step =>
    have hleaf := (h.step_iff hc).mp ht
    simp [AFTaskGraph.serial, crit, hleaf, AFTaskGraph.stepWork, ht]

/-- `span` is the length of the critical path. -/
theorem TypedGraph.isCritical (h : TypedGraph G) :
    G.shape.IsCritical (fun c => (G.tgraphNodes c).type = .async) G.stepWork (crit G) where
  leaf n hn := by rw [crit, if_pos hn]
  inner n hn := by
    -- sums of `serial` are sums of `crit` over the children that are not ASYNC
    have hserial : ∀ D ⊆ G.shape.children n, ∑ c ∈ D, G.serial G.span c =
        ∑ c ∈ D with ¬ (G.tgraphNodes c).type = .async, crit G c := by
      intro D hD
      rw [Finset.sum_filter]
      apply Finset.sum_congr rfl
      intro c hc
      exact h.serial_eq_crit (Shape.mem_children.mp (hD hc)).1
    rw [crit, if_neg hn, AFTaskGraph.span_eq h.shape, AFTaskGraph.spanStep,
      hserial _ subset_rfl]
    congr 1
    apply Finset.sup_congr rfl
    intro c hc
    obtain ⟨hcc, htc⟩ := AFTaskGraph.mem_asyncChildren.mp hc
    rw [hserial _ (Finset.filter_subset _ _), Finset.filter_filter,
      h.crit_of_ne_step (Shape.mem_children.mp hcc).1 (by rw [htc]; decide)]

theorem TypedGraph.stepChain_iff (h : TypedGraph G) {n : ℕ} (hn : G.shape.Node n) {A : Finset ℕ} :
    G.StepChain n A ↔
      G.shape.LeafChain (fun c => (G.tgraphNodes c).type = .async) n A := by
  constructor
  · intro hA
    exact ⟨hA.below, fun x hx => (h.step_iff ((hA.below x hx).node hn)).mp (hA.step x hx),
      hA.chain⟩
  · intro hA
    exact ⟨hA.below, fun x hx => (h.step_iff ((hA.below x hx).node hn)).mpr (hA.leaf x hx),
      hA.chain⟩

/-- An execution keeps the order of the leaves. -/
theorem TypedGraph.schedule (h : TypedGraph G) {n P T : ℕ} (hn : G.shape.Node n)
    {start : ℕ → ℕ} {proc : ℕ → Fin P} (he : G.Execution n P start proc T) :
    G.shape.Schedule (fun c => (G.tgraphNodes c).type = .async) G.stepWork n start T where
  order a b ha hb hla hlb hab := he.order a b ha hb ((h.step_iff (ha.node hn)).mpr hla)
    ((h.step_iff (hb.node hn)).mpr hlb) hab
  ends a ha hla := he.ends a ha ((h.step_iff (ha.node hn)).mpr hla)

/-- There are as many processors as nodes. -/
theorem TypedGraph.exists_execution (h : TypedGraph G) {n : ℕ} (hn : G.shape.Node n) :
    ∃ P start proc, G.Execution n P start proc (crit G n) := by
  set start := G.shape.earliest (fun c => (G.tgraphNodes c).type = .async) G.stepWork n
  have hs : G.shape.Schedule _ G.stepWork n start (crit G n) :=
    h.isCritical.schedule_earliest h.shape n
  refine ⟨G.lastAllocatedNode + 1, start,
    fun x => Fin.ofNat (G.lastAllocatedNode + 1) x, ?_, ?_, ?_⟩
  · intro a b ha hb hta htb hab
    exact hs.order a b ha hb ((h.step_iff (ha.node hn)).mp hta) ((h.step_iff (hb.node hn)).mp htb)
      hab
  · intro a b ha hb _ _ hne hproc
    have hla : a ≤ G.lastAllocatedNode := (ha.node hn).2
    have hlb : b ≤ G.lastAllocatedNode := (hb.node hn).2
    have hval := congrArg Fin.val hproc
    rw [Fin.val_ofNat, Fin.val_ofNat, Nat.mod_eq_of_lt (by omega), Nat.mod_eq_of_lt (by omega)]
      at hval
    exact absurd hval hne
  · intro a ha hta
    exact hs.ends a ha ((h.step_iff (ha.node hn)).mp hta)

/-- The work below a node is the work of the STEP nodes below it. -/
theorem subtreeWork_eq_sum_step (n : ℕ) :
    G.subtreeWork n = ∑ x ∈ G.shape.subtree n with (G.tgraphNodes x).type = .step, G.stepWork x := by
  rw [AFTaskGraph.subtreeWork, Finset.sum_filter]
  apply Finset.sum_congr rfl
  intro x _
  unfold AFTaskGraph.stepWork
  split_ifs <;> rfl

/-- `P` processors that take time `T` do at most `P` times `T` work. -/
theorem TypedGraph.subtreeWork_le (h : TypedGraph G) {n P T : ℕ} (hn : G.shape.Node n)
    {start : ℕ → ℕ} {proc : ℕ → Fin P} (he : G.Execution n P start proc T) :
    G.subtreeWork n ≤ P * T := by
  have hmem : ∀ x ∈ {x ∈ G.shape.subtree n | (G.tgraphNodes x).type = .step},
      G.shape.Anc n x ∧ (G.tgraphNodes x).type = .step := by
    intro x hx
    obtain ⟨hx, htx⟩ := Finset.mem_filter.mp hx
    exact ⟨(Shape.mem_subtree.mp hx).2, htx⟩
  rw [subtreeWork_eq_sum_step]
  refine (h.schedule hn he).work_le ?_ proc ?_
  · intro a ha
    obtain ⟨h1, h2⟩ := hmem a ha
    exact ⟨h1, (h.step_iff (h1.node hn)).mp h2⟩
  · intro a ha b hb
    obtain ⟨ha, hta⟩ := hmem a ha
    obtain ⟨hb, htb⟩ := hmem b hb
    exact he.apart a b ha hb hta htb

/-- What the pass leaves in `critical_child` and `work`. -/
theorem TypedGraph.calculateRecurse_result (h : TypedGraph G) :
    ∃ st, calculateRecurse G (.init G) = .ok st ∧ ∀ n, G.shape.Node n →
      (G.tgraphNodes n).type ≠ .step → (st.tProf n).criticalChild.toNat = crit G n ∧
        (st.tProf n).work.toNat = G.subtreeWork n := by
  obtain ⟨st, -, -, hrun, ht, -⟩ := calculateRecurseCalls_tracks h.toRunnable
  refine ⟨st, hrun, fun n hn hty => ⟨?_, ?_⟩⟩
  · have hf : .finalise n ∈ G.shape.schedule := (Shape.mem_schedule h.shape).mpr hn
    have hspan := (AFTaskGraph.span_le_totalWork h.shape hn).trans_lt h.work_lt
    have hclosed : (G.tgraphNodes n).type = .async ∨ (G.tgraphNodes n).type = .finish := by
      have := h.typed n hn
      cases hc : (G.tgraphNodes n).type <;> simp_all
    rw [ht.tracks.criticalChild, (spanInv h.toSpanGraph List.prefix_rfl).span n hf hclosed,
      BitVec.toNat_ofNat, Nat.mod_eq_of_lt hspan, h.crit_of_ne_step hn hty]
  · have hwork := (AFTaskGraph.subtreeWork_le n).trans_lt h.work_lt
    have hall : G.shape.closedIn G.shape.schedule n = G.shape.children n := by
      apply Finset.filter_true_of_mem
      intro c hc
      exact (Shape.mem_schedule h.shape).mpr (Shape.mem_children.mp hc).1
    rw [ht.tracks.work, workInv h.taskTree List.prefix_rfl n hn, hall,
      ← AFTaskGraph.subtreeWork_eq h.shape hn, BitVec.toNat_ofNat, Nat.mod_eq_of_lt hwork]

/-! ## The results -/

/-- **Heaviest chain.** Happens-before is a strict order on the STEP nodes, and after
    the pass `critical_child` of an ASYNC or FINISH node is the work of the heaviest
    chain of STEP nodes below it. -/
theorem criticalChild_heaviest (h : TypedGraph G) :
    IsStrictOrder ℕ G.HappensBefore ∧
    ∃ st, calculateRecurse G (.init G) = .ok st ∧ ∀ n, G.shape.Node n →
      (G.tgraphNodes n).type ≠ .step →
      IsGreatest {w | ∃ A, G.StepChain n A ∧ ∑ x ∈ A, G.stepWork x = w}
        (st.tProf n).criticalChild.toNat := by
  refine ⟨?_, ?_⟩
  · exact { irrefl := Shape.precedes_irrefl h.shape
            trans := fun _ _ _ => Shape.precedes_trans h.shape }
  obtain ⟨st, hrun, hres⟩ := h.calculateRecurse_result
  refine ⟨st, hrun, fun n hn hty => ?_⟩
  rw [(hres n hn hty).1]
  simp only [h.stepChain_iff hn]
  exact h.isCritical.isGreatest h.shape n

theorem forkGraph_typedGraph : TypedGraph forkGraph where
  toSpanGraph := forkGraph_spanGraph
  typed n hn := by
    have h : ∀ n ∈ Finset.Icc 1 10, (forkGraph.tgraphNodes n).type ≠ .noType := by decide
    exact h n (Finset.mem_Icc.mpr hn)

/-- No chain of STEP nodes of `forkGraph` is heavier than `critical_child` of the head,
    and one is as heavy. -/
theorem forkGraph_heaviest :
    ∃ st, calculateRecurse forkGraph (.init forkGraph) = .ok st ∧
      IsGreatest {w | ∃ A, forkGraph.StepChain 1 A ∧ ∑ x ∈ A, forkGraph.stepWork x = w}
        (st.tProf 1).criticalChild.toNat := by
  obtain ⟨-, st, hrun, hst⟩ := criticalChild_heaviest forkGraph_typedGraph
  exact ⟨st, hrun, hst 1 (by decide) (by decide)⟩

/-- **Fastest execution.** After the pass `critical_child` of an ASYNC or FINISH node is
    the least time in which the STEP nodes below it can be executed on any number of
    processors, and `P` processors need at least a `P`-th of its `work`. -/
theorem criticalChild_fastest (h : TypedGraph G) :
    ∃ st, calculateRecurse G (.init G) = .ok st ∧ ∀ n, G.shape.Node n →
      (G.tgraphNodes n).type ≠ .step →
      IsLeast {T | ∃ P start proc, G.Execution n P start proc T}
        (st.tProf n).criticalChild.toNat ∧
      ∀ P start proc T, G.Execution n P start proc T → (st.tProf n).work.toNat ≤ P * T := by
  obtain ⟨st, hrun, hres⟩ := h.calculateRecurse_result
  refine ⟨st, hrun, fun n hn hty => ?_⟩
  obtain ⟨hcrit, hwork⟩ := hres n hn hty
  rw [hcrit, hwork]
  refine ⟨⟨h.exists_execution hn, ?_⟩, fun P start proc T he => h.subtreeWork_le hn he⟩
  rintro T ⟨P, start, proc, he⟩
  apply (h.isCritical.isLeast h.shape n).2
  exact ⟨start, h.schedule hn he⟩

/-- The head of `forkGraph` has span 18, so no execution is faster. -/
theorem forkGraph_fastest :
    ∃ st, calculateRecurse forkGraph (.init forkGraph) = .ok st ∧
      IsLeast {T | ∃ P start proc, forkGraph.Execution 1 P start proc T}
        (st.tProf 1).criticalChild.toNat := by
  obtain ⟨st, hrun, hst⟩ := criticalChild_fastest forkGraph_typedGraph
  exact ⟨st, hrun, (hst 1 (by decide) (by decide)).1⟩

end TaskProf.Analysis
