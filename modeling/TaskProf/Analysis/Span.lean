import TaskProf.Analysis.Pass

/-!
# The span of the analysis pass

`span` is the critical path by recursion on the tree: the children of a node in
index order are a serial sequence of STEP and FINISH nodes, and an ASYNC child
runs in parallel with everything to its right. The pass computes it with one
running sum per node (`local_work`), a snapshot of the parent's sum when an
ASYNC node is reached (`parent_work`) and a running maximum (`critical_child`).

* `span_eq`: the recursion equation.
* `span_le_totalWork`: no span exceeds the work of the graph.
* `SpanInv`: what the three fields hold after a prefix of the events.
* `calculateRecurse_span`: after the pass, `critical_child` of every ASYNC and
  FINISH node is its span.
-/

namespace TaskProf.Analysis

namespace AFTaskGraph

/-! ## Span by recursion -/

/-- The work of a STEP node. -/
def stepWork (G : AFTaskGraph) (n : ℕ) : ℕ :=
  if (G.tgraphNodes n).type = .step then (G.tgraphNodes n).tProf.work.toNat else 0

/-- The work of all STEP nodes. -/
def totalWork (G : AFTaskGraph) : ℕ := ∑ n ∈ Finset.Icc 1 G.lastAllocatedNode, G.stepWork n

/-- The serial length of child `c`: the work of a STEP node, the span of a
    FINISH node. -/
def serial (G : AFTaskGraph) (span : ℕ → ℕ) (c : ℕ) : ℕ :=
  match (G.tgraphNodes c).type with
  | .step => (G.tgraphNodes c).tProf.work.toNat
  | .finish => span c
  | _ => 0

/-- The ASYNC children of `n`. -/
def asyncChildren (G : AFTaskGraph) (n : ℕ) : Finset ℕ :=
  {c ∈ G.shape.children n | (G.tgraphNodes c).type = .async}

/-- `span n`, from the spans of the children. -/
def spanStep (G : AFTaskGraph) (n : ℕ) (span : ℕ → ℕ) : ℕ :=
  max (∑ c ∈ G.shape.children n, G.serial span c)
    ((G.asyncChildren n).sup fun c =>
      span c + ∑ d ∈ {d ∈ G.shape.children n | d < c}, G.serial span d)

/-- The span of node `n`: the longest path through its children, in index
    order. -/
def span (G : AFTaskGraph) : ℕ → ℕ := upRec G.lastAllocatedNode G.spanStep

variable {G : AFTaskGraph}

/-- The serial work of the children of `n`. -/
def serialWork (G : AFTaskGraph) (n : ℕ) : ℕ := ∑ c ∈ G.shape.children n, G.serial G.span c

/-- The serial work to the left of `n` under its parent. -/
def leftWork (G : AFTaskGraph) (n : ℕ) : ℕ :=
  ∑ d ∈ {d ∈ G.shape.children (G.tgraphNodes n).parent | d < n}, G.serial G.span d

/-- The longest path through the ASYNC node `c` under its parent. -/
def through (G : AFTaskGraph) (c : ℕ) : ℕ := G.span c + G.leftWork c

theorem serial_congr {f g : ℕ → ℕ} {c : ℕ} (h : f c = g c) : G.serial f c = G.serial g c := by
  unfold serial
  cases (G.tgraphNodes c).type <;> simp [h]

theorem mem_asyncChildren {n c : ℕ} :
    c ∈ G.asyncChildren n ↔ c ∈ G.shape.children n ∧ (G.tgraphNodes c).type = .async := by
  simp [asyncChildren]

theorem span_eq (h : G.shape.WellFormed) (n : ℕ) : G.span n = G.spanStep n G.span := by
  have hrec : ∀ c ∈ G.shape.children n,
      (if n < c ∧ c ≤ G.lastAllocatedNode then upRec G.lastAllocatedNode G.spanStep c
        else default) = G.span c := fun c hc => h.upRec_children _ hc
  rw [span, upRec_eq]
  unfold spanStep
  congr 1
  · exact Finset.sum_congr rfl fun c hc => serial_congr (hrec c hc)
  · refine Finset.sup_congr rfl fun c hc => ?_
    congr 1
    · exact hrec c (mem_asyncChildren.mp hc).1
    · exact Finset.sum_congr rfl fun d hd => serial_congr (hrec d (Finset.mem_filter.mp hd).1)

theorem span_eq_max (h : G.shape.WellFormed) (n : ℕ) :
    G.span n = max (G.serialWork n) ((G.asyncChildren n).sup G.through) := by
  rw [span_eq h, spanStep, serialWork]
  congr 1
  refine Finset.sup_congr rfl fun c hc => ?_
  rw [through, leftWork, (Shape.mem_children.mp (mem_asyncChildren.mp hc).1).2.symm]
  rfl

/-! ## Bounds -/

/-- The work of the STEP nodes in the subtree of `n`. -/
noncomputable def subtreeWork (G : AFTaskGraph) (n : ℕ) : ℕ := ∑ x ∈ G.shape.subtree n, G.stepWork x

theorem subtreeWork_eq (h : G.shape.WellFormed) {n : ℕ} (hn : G.shape.Node n) :
    G.subtreeWork n = G.stepWork n + ∑ c ∈ G.shape.children n, G.subtreeWork c :=
  Shape.sum_subtree h _ hn

theorem subtreeWork_le (n : ℕ) : G.subtreeWork n ≤ G.totalWork :=
  Finset.sum_le_sum_of_subset (Shape.subtree_subset n)

theorem subtreeWork_root (h : G.shape.WellFormed) : G.subtreeWork 1 = G.totalWork := by
  rw [subtreeWork, Shape.subtree_root h]; rfl

theorem stepWork_le_subtreeWork (h : G.shape.WellFormed) {n : ℕ} (hn : G.shape.Node n) :
    G.stepWork n ≤ G.subtreeWork n := by
  rw [subtreeWork_eq h hn]; omega

theorem serial_le {c : ℕ} (h : G.shape.WellFormed) (hc : G.shape.Node c)
    (hs : G.span c ≤ G.subtreeWork c) : G.serial G.span c ≤ G.subtreeWork c := by
  unfold serial
  split
  · rename_i ht
    have := stepWork_le_subtreeWork h hc
    rwa [stepWork, if_pos ht] at this
  · exact hs
  · exact Nat.zero_le _

/-- No span exceeds the work below the node. -/
theorem span_le_subtreeWork (h : G.shape.WellFormed) (n : ℕ) (hn : G.shape.Node n) :
    G.span n ≤ G.subtreeWork n := by
  induction n using h.child_induction with
  | hQ n ih =>
    have hser : ∀ c ∈ G.shape.children n, G.serial G.span c ≤ G.subtreeWork c := fun c hc =>
      have hcn := (Shape.mem_children.mp hc).1
      serial_le h hcn (ih c hc hcn)
    have hsub := subtreeWork_eq h hn
    rw [span_eq_max h, max_le_iff]
    constructor
    · have := Finset.sum_le_sum hser
      rw [serialWork]
      omega
    · rw [Finset.sup_le_iff]
      intro c hc
      have hcc := (mem_asyncChildren.mp hc).1
      have hcn := (Shape.mem_children.mp hcc).1
      have hpar : (G.tgraphNodes c).parent = n := (Shape.mem_children.mp hcc).2
      have hleft : G.leftWork c ≤ ∑ d ∈ {d ∈ G.shape.children n | d < c}, G.subtreeWork d := by
        rw [leftWork, hpar]
        exact Finset.sum_le_sum fun d hd => hser d (Finset.mem_filter.mp hd).1
      -- `c` and the children to its left are distinct children of `n`
      have hnot : c ∉ {d ∈ G.shape.children n | d < c} := by simp
      have hins : insert c {d ∈ G.shape.children n | d < c} ⊆ G.shape.children n :=
        Finset.insert_subset hcc (Finset.filter_subset _ _)
      have hle := Finset.sum_le_sum_of_subset (f := G.subtreeWork) hins
      rw [Finset.sum_insert hnot] at hle
      have := ih c hcc hcn
      rw [through]
      omega

theorem span_le_totalWork (h : G.shape.WellFormed) {n : ℕ} (hn : G.shape.Node n) :
    G.span n ≤ G.totalWork :=
  (span_le_subtreeWork h n hn).trans (subtreeWork_le n)

theorem serialWork_le_span (h : G.shape.WellFormed) (n : ℕ) : G.serialWork n ≤ G.span n := by
  rw [span_eq_max h]; exact le_max_left _ _

theorem sup_through_le_span (h : G.shape.WellFormed) {n : ℕ} {cs : Finset ℕ}
    (hcs : cs ⊆ G.asyncChildren n) : cs.sup G.through ≤ G.span n := by
  rw [span_eq_max h]; exact (Finset.sup_mono hcs).trans (le_max_right _ _)

end AFTaskGraph

/-! ## The invariant of the pass -/

/-- A runnable graph on which the span is well defined as a word and every
    FINISH node is complete when an ASYNC sibling to its right is reached. -/
structure SpanGraph (G : AFTaskGraph) : Prop extends Runnable G where
  parent_not_step : ∀ n, G.shape.Node n → n ≠ 1 → (G.tgraphNodes (G.tgraphNodes n).parent).type ≠ .step
  finish_before_async : ∀ f c x, (G.tgraphNodes f).type = .finish →
    (G.tgraphNodes c).type = .async → G.shape.Node f → G.shape.Node c →
    (G.tgraphNodes f).parent = (G.tgraphNodes c).parent → f < c → G.shape.Anc f x → x < c
  work_lt : G.totalWork < 2 ^ 64

/-- The closed ASYNC children of `n`. -/
def closedAsync (G : AFTaskGraph) (P : List Event) (n : ℕ) : Finset ℕ :=
  {c ∈ G.shape.closedIn P n | (G.tgraphNodes c).type = .async}

/-- `local_work`, `parent_work` and `critical_child` after the events `P`. -/
structure SpanInv (G : AFTaskGraph) (P : List Event) : Prop where
  work : ∀ n, G.shape.Node n → (G.tgraphNodes n).type = .step →
    ((ledgerAfter G P).accounts n).work = (G.tgraphNodes n).tProf.work
  localWork : ∀ n, G.shape.Node n → ((ledgerAfter G P).accounts n).localWork =
    BitVec.ofNat 64 (∑ c ∈ G.shape.closedIn P n, G.serial G.span c)
  parentWork : ∀ n, .visit n ∈ P → (G.tgraphNodes n).type = .async →
    ((ledgerAfter G P).accounts n).parentWork = BitVec.ofNat 64 (G.leftWork n)
  criticalChild : ∀ n, G.shape.Node n → .finalise n ∉ P →
    ((ledgerAfter G P).accounts n).criticalChild =
      BitVec.ofNat 64 ((closedAsync G P n).sup G.through)
  span : ∀ n, .finalise n ∈ P →
    (G.tgraphNodes n).type = .async ∨ (G.tgraphNodes n).type = .finish →
    ((ledgerAfter G P).accounts n).criticalChild = BitVec.ofNat 64 (G.span n)

variable {G : AFTaskGraph}

/-- A STEP node is a leaf. -/
theorem SpanGraph.children_step (h : SpanGraph G) {n : ℕ} (hn : G.shape.Node n)
    (ht : (G.tgraphNodes n).type = .step) : G.shape.children n = ∅ := by
  rw [Finset.eq_empty_iff_forall_notMem]
  intro c hc
  obtain ⟨hcn, hcp⟩ := Shape.mem_children.mp hc
  have hc1 : c ≠ 1 := h.shape.ne_one_of_parent (by rw [hcp]; exact hn)
  rw [AFTaskGraph.shape_parent] at hcp
  exact h.parent_not_step c hcn hc1 (hcp ▸ ht)

/-- When an ASYNC node is reached, the closed serial children of its parent are
    the ones to its left. -/
theorem SpanGraph.sum_closedIn_visit (h : SpanGraph G) {P : List Event} {n : ℕ}
    (hP : P ++ [.visit n] <+: G.shape.schedule) (ht : (G.tgraphNodes n).type = .async) :
    ∑ c ∈ G.shape.closedIn P (G.tgraphNodes n).parent, G.serial G.span c = G.leftWork n := by
  have hn : G.shape.Node n := ((Shape.mem_schedule h.shape).mp (Shape.mem_schedule_of_prefix_append hP)).1
  rw [AFTaskGraph.leftWork, Shape.closedIn, Finset.sum_filter, Finset.sum_filter]
  refine Finset.sum_congr rfl fun d hd => ?_
  obtain ⟨hdn, hdp⟩ := Shape.mem_children.mp hd
  have hle := Shape.le_last h.shape d
  -- only STEP and FINISH nodes count; they are closed exactly when they are to the left
  have hiff : (G.tgraphNodes d).type = .step ∨ (G.tgraphNodes d).type = .finish →
      (.finalise d ∈ P ↔ d < n) := by
    intro htd
    rw [Shape.finalised_before_visit h.shape hP]
    refine ⟨fun hl => hle.trans_lt hl.2, fun hl => ⟨hdn, ?_⟩⟩
    rcases htd with htd | htd
    · rwa [(Shape.last_eq_self_iff h.shape).mpr (h.children_step hdn htd)]
    · exact h.finish_before_async d n _ htd ht hdn hn hdp hl (Shape.anc_last h.shape d)
  cases htd : (G.tgraphNodes d).type <;> simp only [AFTaskGraph.serial, htd]
  · simp
  · simp
  · simp [hiff (.inr htd)]
  · simp [hiff (.inl htd)]

theorem SpanInv.init (h : SpanGraph G) : SpanInv G [] := by
  have hz : ∀ n, (Ledger.init G).accounts n = (G.tgraphNodes n).tProf.account 0 := fun _ => rfl
  refine ⟨fun n _ _ => rfl, fun n _ => ?_, fun n hn => ?_, fun n _ _ => ?_, fun n hn => ?_⟩
  · rw [ledgerAfter, List.foldl_nil, hz, h.fresh n]
    simp [ProfilerData.account, ProfilerData.zero]
  · simp at hn
  · rw [ledgerAfter, List.foldl_nil, hz, h.fresh n]
    simp [ProfilerData.account, ProfilerData.zero, closedAsync]
  · simp at hn

theorem SpanInv.visit (h : SpanGraph G) {P : List Event} {n : ℕ}
    (hP : P ++ [.visit n] <+: G.shape.schedule) (hI : SpanInv G P) :
    SpanInv G (P ++ [.visit n]) := by
  have hw := h.shape
  have hn : G.shape.Node n := ((Shape.mem_schedule hw).mp (Shape.mem_schedule_of_prefix_append hP)).1
  have hacc : ∀ q, (ledgerAfter G (P ++ [.visit n])).accounts q =
      openAccount G (ledgerAfter G P).accounts n q := by
    intro q; rw [ledgerAfter_append]; rfl
  have hfin : ∀ q, Event.finalise q ∈ P ++ [Event.visit n] ↔ Event.finalise q ∈ P := by simp
  refine ⟨fun q hq ht => ?_, fun q hq => ?_, fun q hq ht => ?_, fun q hq hf => ?_, fun q hf ht => ?_⟩
  · rw [hacc, openAccount_work, hI.work q hq ht]
  · rw [hacc, openAccount_localWork, hI.localWork q hq, Shape.closedIn_visit]
  · rw [hacc]
    by_cases hqn : q = n
    · subst hqn
      have h1 := h.ne_one_of_async ht
      rw [openAccount_parentWork_async G _ ht, hI.localWork _ (h.node_parent hn h1),
        h.sum_closedIn_visit hP ht]
    · rw [openAccount_of_ne G _ hqn]
      exact hI.parentWork q (by simpa [hqn] using hq) ht
  · rw [hacc, openAccount_criticalChild, hI.criticalChild q hq fun hm => hf ((hfin q).mpr hm)]
    simp [closedAsync]
  · rw [hacc, openAccount_criticalChild, hI.span q ((hfin q).mp hf) ht]

/-- When a node is closed, the two running amounts make up its span. -/
theorem SpanInv.spanOf (h : SpanGraph G) {P : List Event} {n : ℕ}
    (hP : P ++ [.finalise n] <+: G.shape.schedule) (hI : SpanInv G P) :
    ((ledgerAfter G P).accounts n).spanOf = BitVec.ofNat 64 (G.span n) := by
  have hw := h.shape
  have hn : G.shape.Node n := (Shape.mem_schedule hw).mp (Shape.mem_schedule_of_prefix_append hP)
  have hlocal := hI.localWork n hn
  have hcrit := hI.criticalChild n hn (Shape.not_mem_prefix_self hw hP)
  rw [Shape.closedIn_self hw hP] at hlocal
  have hasync : closedAsync G P n = G.asyncChildren n := by
    rw [closedAsync, Shape.closedIn_self hw hP]; rfl
  rw [hasync] at hcrit
  have hspan := (AFTaskGraph.span_le_totalWork hw hn).trans_lt h.work_lt
  have h1 := (AFTaskGraph.serialWork_le_span hw n).trans_lt hspan
  have h2 := (AFTaskGraph.sup_through_le_span hw (subset_refl (G.asyncChildren n))).trans_lt hspan
  rw [Account.spanOf, hlocal, hcrit, AFTaskGraph.span_eq_max hw]
  change (if BitVec.ofNat 64 _ ≤ BitVec.ofNat 64 (G.serialWork n) then _ else _) = _
  rw [if_congr (ofNat_le_ofNat h2 h1) rfl rfl]
  split_ifs with hle
  · rw [max_eq_left hle]; rfl
  · rw [max_eq_right (by omega)]

theorem SpanInv.serial (h : SpanGraph G) {P : List Event} {n : ℕ}
    (hP : P ++ [.finalise n] <+: G.shape.schedule) (hI : SpanInv G P) :
    ((ledgerAfter G P).accounts n).serial (G.tgraphNodes n).type =
      BitVec.ofNat 64 (G.serial G.span n) := by
  have hn : G.shape.Node n := (Shape.mem_schedule h.shape).mp (Shape.mem_schedule_of_prefix_append hP)
  cases ht : (G.tgraphNodes n).type with
  | step =>
    simp only [Account.serial, AFTaskGraph.serial, ht, hI.work n hn ht]
    simp
  | finish => simp only [Account.serial, AFTaskGraph.serial, ht, hI.spanOf h hP]
  | _ => simp [Account.serial, AFTaskGraph.serial, ht]

/-- The path through an ASYNC node, when the node is closed. -/
theorem SpanInv.through (h : SpanGraph G) {P : List Event} {n : ℕ}
    (hP : P ++ [.finalise n] <+: G.shape.schedule) (hI : SpanInv G P)
    (ht : (G.tgraphNodes n).type = .async) :
    ((ledgerAfter G P).accounts n).spanOf + ((ledgerAfter G P).accounts n).parentWork =
      BitVec.ofNat 64 (G.through n) := by
  have hn : G.shape.Node n := (Shape.mem_schedule h.shape).mp (Shape.mem_schedule_of_prefix_append hP)
  have hv : .visit n ∈ P := (Shape.visited_before_finalise h.shape hP).mpr
    ⟨hn, h.has_child n hn (by rw [ht]; decide), Shape.le_last h.shape n⟩
  rw [hI.spanOf h hP, hI.parentWork n hv ht, AFTaskGraph.through, BitVec.ofNat_add]

/-- The test that replaces `critical_child` of the parent compares the path
    through the node with the paths through the ASYNC nodes closed before. -/
theorem SpanInv.longer_iff (h : SpanGraph G) {P : List Event} {n : ℕ}
    (hP : P ++ [.finalise n] <+: G.shape.schedule) (hI : SpanInv G P)
    (ht : (G.tgraphNodes n).type = .async) :
    ((ledgerAfter G P).accounts (G.tgraphNodes n).parent).criticalChild <
        ((ledgerAfter G P).accounts n).spanOf + ((ledgerAfter G P).accounts n).parentWork ↔
      (closedAsync G P (G.tgraphNodes n).parent).sup G.through < G.through n := by
  have hw := h.shape
  have hn : G.shape.Node n := (Shape.mem_schedule hw).mp (Shape.mem_schedule_of_prefix_append hP)
  have hp := h.node_parent hn (h.ne_one_of_async ht)
  have hspan := (AFTaskGraph.span_le_totalWork hw hp).trans_lt h.work_lt
  have hc : n ∈ G.asyncChildren (G.tgraphNodes n).parent :=
    AFTaskGraph.mem_asyncChildren.mpr ⟨Shape.mem_children.mpr ⟨hn, rfl⟩, ht⟩
  have h1 : G.through n < 2 ^ 64 := by
    refine lt_of_le_of_lt ?_ hspan
    simpa using AFTaskGraph.sup_through_le_span hw (Finset.singleton_subset_iff.mpr hc)
  have h2 : (closedAsync G P (G.tgraphNodes n).parent).sup G.through < 2 ^ 64 := by
    refine lt_of_le_of_lt (AFTaskGraph.sup_through_le_span hw fun c hc => ?_) hspan
    obtain ⟨hc, htc⟩ := Finset.mem_filter.mp hc
    exact AFTaskGraph.mem_asyncChildren.mpr ⟨(Shape.mem_closedIn.mp hc).1, htc⟩
  rw [hI.criticalChild _ hp (Shape.parent_not_finalised hw hP (.inr rfl)), hI.through h hP ht,
    ofNat_lt_ofNat h2 h1]

theorem closedAsync_finalise_parent (h : SpanGraph G) {P : List Event} {n : ℕ}
    (hP : P ++ [.finalise n] <+: G.shape.schedule) :
    closedAsync G (P ++ [.finalise n]) (G.tgraphNodes n).parent =
      if (G.tgraphNodes n).type = .async then
        insert n (closedAsync G P (G.tgraphNodes n).parent)
      else closedAsync G P (G.tgraphNodes n).parent := by
  have hins := (Shape.closedIn_finalise_parent h.shape hP).2
  rw [AFTaskGraph.shape_parent] at hins
  rw [closedAsync, hins, Finset.filter_insert]
  rfl

/-- Closing an ASYNC node extends the running maximum of its parent. -/
theorem SpanInv.criticalChild_parent (h : SpanGraph G) {P : List Event} {n : ℕ}
    (hP : P ++ [.finalise n] <+: G.shape.schedule) (hI : SpanInv G P)
    (hp : G.shape.Node (G.tgraphNodes n).parent) :
    (closeAccount G (ledgerAfter G P).accounts n (G.tgraphNodes n).parent).criticalChild =
      BitVec.ofNat 64 ((closedAsync G (P ++ [.finalise n]) (G.tgraphNodes n).parent).sup
        G.through) := by
  have hold := hI.criticalChild _ hp (Shape.parent_not_finalised h.shape hP (.inr rfl))
  rw [closeAccount_criticalChild_parent, closedAsync_finalise_parent h hP]
  by_cases ht : (G.tgraphNodes n).type = .async
  · have hlonger := hI.longer_iff h hP ht
    rw [if_pos ht, Finset.sup_insert]
    by_cases hlt : (closedAsync G P (G.tgraphNodes n).parent).sup G.through < G.through n
    · rw [if_pos ⟨ht, hlonger.mpr hlt⟩, hI.through h hP ht, sup_eq_left.mpr hlt.le]
    · rw [if_neg fun hc => hlt (hlonger.mp hc.2), hold, sup_eq_right.mpr (not_lt.mp hlt)]
  · rw [if_neg ht, if_neg fun hc => ht hc.1, hold]

theorem SpanInv.finalise (h : SpanGraph G) {P : List Event} {n : ℕ}
    (hP : P ++ [.finalise n] <+: G.shape.schedule) (hI : SpanInv G P) :
    SpanInv G (P ++ [.finalise n]) := by
  have hw := h.shape
  have hn : G.shape.Node n := (Shape.mem_schedule hw).mp (Shape.mem_schedule_of_prefix_append hP)
  have hne := h.parent_ne hn
  have hself := Shape.not_mem_prefix_self hw hP
  have hacc : ∀ q, (ledgerAfter G (P ++ [.finalise n])).accounts q =
      closeAccount G (ledgerAfter G P).accounts n q := by
    intro q; rw [ledgerAfter_append]; rfl
  have hfin : ∀ q, q ≠ n → (Event.finalise q ∈ P ++ [Event.finalise n] ↔ Event.finalise q ∈ P) := by
    intro q hq; simp [hq]
  refine ⟨fun q hq ht => ?_, fun q hq => ?_, fun q hq ht => ?_, fun q hq hf => ?_, fun q hf ht => ?_⟩
  · -- a STEP node is nobody's parent
    rw [hacc, ← hI.work q hq ht]
    by_cases hqn : q = n
    · subst hqn; exact closeAccount_work_self G _ hne
    · by_cases hqp : q = (G.tgraphNodes n).parent
      · subst hqp
        exact absurd ht (h.parent_not_step n hn (hw.ne_one_of_parent hq))
      · rw [closeAccount_of_ne G _ hqn hqp]
  · rw [hacc]
    by_cases hqp : q = (G.tgraphNodes n).parent
    · subst hqp
      obtain ⟨hnot, hins⟩ := Shape.closedIn_finalise_parent hw hP
      rw [AFTaskGraph.shape_parent] at hnot hins
      rw [closeAccount_localWork_parent, hI.localWork _ hq, hI.serial h hP, hins,
        Finset.sum_insert hnot, Nat.add_comm, BitVec.ofNat_add]
    · rw [Shape.closedIn_finalise_of_ne P hqp, ← hI.localWork q hq]
      by_cases hqn : q = n
      · subst hqn; exact closeAccount_localWork_self G _ hne
      · rw [closeAccount_of_ne G _ hqn hqp]
  · rw [hacc, closeAccount_parentWork]
    exact hI.parentWork q (by simpa using hq) ht
  · have hqn : q ≠ n := by rintro rfl; exact hf (by simp)
    rw [hacc]
    by_cases hqp : q = (G.tgraphNodes n).parent
    · subst hqp; exact hI.criticalChild_parent h hP hq
    · rw [closeAccount_of_ne G _ hqn hqp, closedAsync, Shape.closedIn_finalise_of_ne P hqp]
      exact hI.criticalChild q hq fun hm => hf ((hfin q hqn).mpr hm)
  · rw [hacc]
    by_cases hqn : q = n
    · subst hqn
      rw [closeAccount_criticalChild_self G _ hne ht, hI.spanOf h hP]
    · have hm := (hfin q hqn).mp hf
      rw [closeAccount_of_ne G _ hqn (Shape.parent_ne_of_finalised hw hP hm)]
      exact hI.span q hm ht

/-- The invariant holds after every scheduled prefix. -/
theorem spanInv (h : SpanGraph G) {P : List Event} (hP : P <+: G.shape.schedule) : SpanInv G P := by
  refine Shape.prefix_induction (.init h) (fun P e hP hI => ?_) hP
  cases e with
  | visit n => exact hI.visit h hP
  | finalise n => exact hI.finalise h hP

/-! ## The result of the pass -/

/-- **Span.** The pass returns, and then `critical_child` of every ASYNC and
    FINISH node is the span of the node. -/
theorem calculateRecurse_span (h : SpanGraph G) :
    ∃ st, calculateRecurse G (.init G) = .ok st ∧
      ∀ n, G.shape.Node n →
        (G.tgraphNodes n).type = .async ∨ (G.tgraphNodes n).type = .finish →
        (st.tProf n).criticalChild.toNat = G.span n := by
  obtain ⟨st, -, -, hrun, ht, -⟩ := calculateRecurseCalls_tracks h.toRunnable
  refine ⟨st, hrun, fun n hn hty => ?_⟩
  have hf : .finalise n ∈ G.shape.schedule := (Shape.mem_schedule h.shape).mpr hn
  have hspan := (AFTaskGraph.span_le_totalWork h.shape hn).trans_lt h.work_lt
  rw [ht.tracks.criticalChild, (spanInv h List.prefix_rfl).span n hf hty, BitVec.toNat_ofNat,
    Nat.mod_eq_of_lt hspan]

/-- A fork block with two ASYNC children, a `spawn_root_and_wait` and a STEP
    after them. -/
def forkGraph : AFTaskGraph :=
  .ofRows [⟨0, .finish, 0, 0⟩, ⟨1, .finish, 0, 0⟩, ⟨2, .async, 5, 0⟩, ⟨3, .step, 0, 7⟩,
    ⟨2, .step, 0, 3⟩, ⟨2, .async, 5, 0⟩, ⟨6, .step, 0, 9⟩, ⟨1, .finish, 6, 0⟩, ⟨8, .step, 0, 4⟩,
    ⟨1, .step, 0, 2⟩] fun cs => if cs = 6 then some ⟨[], 1, false⟩ else none

theorem forkGraph_spanGraph : SpanGraph forkGraph where
  toRunnable := runnable_ofRows (by decide) rfl (by decide)
  parent_not_step n hn := by
    have h : ∀ n ∈ Finset.Icc 1 10, n ≠ 1 →
        (forkGraph.tgraphNodes (forkGraph.tgraphNodes n).parent).type ≠ .step := by decide
    exact h n (Finset.mem_Icc.mpr hn)
  finish_before_async f c x hf hc hfn hcn hp hlt hx := by
    have h : ∀ f ∈ Finset.Icc 1 10, ∀ c ∈ Finset.Icc 1 10, (forkGraph.tgraphNodes f).type = .finish →
        (forkGraph.tgraphNodes c).type = .async →
        (forkGraph.tgraphNodes f).parent = (forkGraph.tgraphNodes c).parent → ¬ f < c := by decide
    exact absurd hlt (h f (Finset.mem_Icc.mpr hfn) c (Finset.mem_Icc.mpr hcn) hf hc hp)
  work_lt := by decide

/-- The head of `forkGraph` has span `12 + 4 + 2`: the longer child of the fork
    block with the work to its left, and then the nodes in series. -/
theorem forkGraph_span :
    ∃ st, calculateRecurse forkGraph (.init forkGraph) = .ok st ∧
      (st.tProf 1).criticalChild.toNat = 18 := by
  obtain ⟨st, h1, h2⟩ := calculateRecurse_span forkGraph_spanGraph
  exact ⟨st, h1, (h2 1 (by decide) (.inr rfl)).trans (by decide)⟩

end TaskProf.Analysis
