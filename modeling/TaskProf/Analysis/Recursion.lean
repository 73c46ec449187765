import TaskProf.Analysis.Charge
import TaskProf.Analysis.Work

/-!
# Work per call site and recursive calls

`workSpanMap` accumulates the work and the number of the nodes of a call site.
A node that `recursiveCall` recognises as a nested activation of its site is
left out. The walk of `checkRecursiveCall` compares each node with its own
parent instead of with the site it was called for, so it recognises a node if
any two adjacent nodes on its path to the head have the same site.

* `recursiveCall_iff`: what `recursiveCall` answers.
* `workAt_ledgerAfter`: the entries of `workSpanMap` after a prefix of the
  events.
* `countedOnce_iff`: no site counts a nested activation, if and only if every
  nested activation has two adjacent nodes of one site on its path.
-/

namespace TaskProf.Analysis

variable {G : AFTaskGraph}

/-! ## The walk -/

/-- Node `x` has the call site of its parent. -/
def AFTaskGraph.SameAsParent (G : AFTaskGraph) (x : ℕ) : Prop :=
  G.shape.Node x ∧ x ≠ 1 ∧
    (G.tgraphNodes (G.tgraphNodes x).parent).callSite = (G.tgraphNodes x).callSite

theorem recursiveCall_iff (h : G.shape.WellFormed) {n : ℕ} (hn : G.shape.Node n) :
    recursiveCall G n = .ok true ↔ ∃ x, G.shape.Anc x n ∧ G.SameAsParent x := by
  have walk : ∀ fuel n cs, G.shape.Node n → n < fuel →
      (checkRecursiveCall G fuel n cs = .ok true ↔ ∃ x, G.shape.Anc x n ∧ G.SameAsParent x) := by
    intro fuel
    induction fuel with
    | zero => intro n cs _ hf; omega
    | succ fuel ih =>
      intro n cs hn hf
      by_cases h1 : n = 1
      · -- the head has no parent, and no ancestor but itself
        subst h1
        have hroot : (G.tgraphNodes 1).parent = 0 := h.root
        refine iff_of_false (by simp [checkRecursiveCall, hroot]) ?_
        rintro ⟨x, hx, hxn, hx1, -⟩
        have h2 := hx.le h
        have h3 := hxn.1
        omega
      · have hp := h.parent_node hn h1
        have hlt : (G.tgraphNodes n).parent < n := h.parent_lt n hn h1
        have hc : n ∈ G.shape.children (G.tgraphNodes n).parent := Shape.mem_children.mpr ⟨hn, rfl⟩
        have h0 : (G.tgraphNodes n).parent ≠ 0 := Nat.one_le_iff_ne_zero.mp hp.1
        simp only [checkRecursiveCall, if_neg h0]
        split_ifs with heq
        · exact iff_of_true rfl ⟨n, .refl n, hn, h1, heq⟩
        · rw [ih (G.tgraphNodes n).parent cs hp (by omega)]
          constructor
          · rintro ⟨x, hx, hs⟩
            exact ⟨x, hx.trans (Shape.anc_of_mem_children hc), hs⟩
          · rintro ⟨x, hx, hs⟩
            have hne : n ≠ x := by rintro rfl; exact heq hs.2.2
            exact ⟨x, hx.parent hne, hs⟩
  exact walk _ n _ hn (by have : n ≤ G.lastAllocatedNode := hn.2; omega)

/-! ## Nested activations -/

/-- The shape that the collection phase writes, as far as work is concerned. -/
structure WorkGraph (G : AFTaskGraph) : Prop extends Runnable G where
  typed : ∀ n, G.shape.Node n → (G.tgraphNodes n).type ≠ .noType
  parent_not_step : ∀ n, G.shape.Node n → n ≠ 1 → (G.tgraphNodes (G.tgraphNodes n).parent).type ≠ .step
  head_site : (G.tgraphNodes 1).callSite = 0
  step_site : ∀ n, G.shape.Node n → (G.tgraphNodes n).type = .step → (G.tgraphNodes n).callSite = 0
  flag : ∀ n, G.shape.Node n → (G.tgraphNodes n).type = .finish →
    ((G.tgraphNodes n).spRootNWtFlag = true ↔ (G.tgraphNodes n).callSite ≠ 0)
  async_parent : ∀ n, G.shape.Node n → (G.tgraphNodes n).type = .async →
    G.Implicit (G.tgraphNodes n).parent
  work_lt : G.totalWork < 2 ^ 64

theorem WorkGraph.taskTree (h : WorkGraph G) : TaskTree G where
  toRunnable := h.toRunnable
  typed := h.typed
  parent_not_step := h.parent_not_step

/-- The shape is a finite check. -/
theorem workGraph_of_checks (hr : Runnable G) (hsite : (G.tgraphNodes 1).callSite = 0)
    (hnode : ∀ n ∈ Finset.Icc 1 G.lastAllocatedNode,
      (G.tgraphNodes n).type ≠ .noType ∧
      (n ≠ 1 → (G.tgraphNodes (G.tgraphNodes n).parent).type ≠ .step) ∧
      ((G.tgraphNodes n).type = .step → (G.tgraphNodes n).callSite = 0) ∧
      ((G.tgraphNodes n).type = .finish →
        ((G.tgraphNodes n).spRootNWtFlag = true ↔ (G.tgraphNodes n).callSite ≠ 0)) ∧
      ((G.tgraphNodes n).type = .async → G.Implicit (G.tgraphNodes n).parent))
    (hwork : G.totalWork < 2 ^ 64) : WorkGraph G where
  toRunnable := hr
  typed n hn := (hnode n (Finset.mem_Icc.mpr hn)).1
  parent_not_step n hn := (hnode n (Finset.mem_Icc.mpr hn)).2.1
  head_site := hsite
  step_site n hn := (hnode n (Finset.mem_Icc.mpr hn)).2.2.1
  flag n hn := (hnode n (Finset.mem_Icc.mpr hn)).2.2.2.1
  async_parent n hn := (hnode n (Finset.mem_Icc.mpr hn)).2.2.2.2
  work_lt := hwork

/-- Node `n` has a proper ancestor with the call site `s`. -/
def AFTaskGraph.Below (G : AFTaskGraph) (s : SizeT) (n : ℕ) : Prop :=
  ∃ m, G.shape.Node m ∧ G.shape.Anc m n ∧ m ≠ n ∧ (G.tgraphNodes m).callSite = s

open Classical in
/-- The work of the STEP nodes below some node with the call site `s`. -/
noncomputable def AFTaskGraph.siteWork (G : AFTaskGraph) (s : SizeT) : ℕ :=
  ∑ x ∈ {x ∈ Finset.Icc 1 G.lastAllocatedNode | G.Below s x}, G.stepWork x

/-- The work of nodes with the call site `s`, none of which is below another, is
    work below `s`. -/
theorem sum_subtreeWork_le (h : WorkGraph G) {s : SizeT} (hs : s ≠ 0) {cs : Finset ℕ}
    (hcs : ∀ n ∈ cs, G.shape.Node n ∧ (G.tgraphNodes n).callSite = s ∧ ¬ G.Below s n) :
    ∑ n ∈ cs, G.subtreeWork n ≤ G.siteWork s := by
  classical
  have hdis : Set.PairwiseDisjoint (cs : Set ℕ) G.shape.subtree := by
    intro a ha b hb hne
    rw [Function.onFun, Finset.disjoint_left]
    intro x hxa hxb
    obtain ⟨han, has, hna⟩ := hcs a ha
    obtain ⟨hbn, hbs, hnb⟩ := hcs b hb
    have hax := (Shape.mem_subtree.mp hxa).2
    have hbx := (Shape.mem_subtree.mp hxb).2
    rcases Nat.lt_or_gt_of_ne hne with hlt | hlt
    · exact hnb ⟨a, han, hax.of_le h.shape hbx hlt.le, hne, has⟩
    · exact hna ⟨b, hbn, hbx.of_le h.shape hax hlt.le, hne.symm, hbs⟩
  unfold AFTaskGraph.subtreeWork
  rw [← Finset.sum_biUnion hdis, AFTaskGraph.siteWork]
  -- a node of `cs` is no STEP node, so only the nodes below it contribute
  refine Finset.sum_le_sum_of_ne_zero fun x hx hwork => ?_
  obtain ⟨n, hn, hxn⟩ := Finset.mem_biUnion.mp hx
  obtain ⟨hnn, hns, -⟩ := hcs n hn
  obtain ⟨hxnode, hnx⟩ := Shape.mem_subtree.mp hxn
  refine Finset.mem_filter.mpr ⟨Finset.mem_Icc.mpr hxnode, n, hnn, hnx, ?_, hns⟩
  rintro rfl
  rw [AFTaskGraph.stepWork] at hwork
  have ht : (G.tgraphNodes n).type = .step := by
    by_contra ht
    exact hwork (if_neg ht)
  exact hs (hns ▸ h.step_site n hnn ht)

open Classical in
theorem siteWork_le (s : SizeT) : G.siteWork s ≤ G.totalWork :=
  Finset.sum_le_sum_of_subset (Finset.filter_subset _ _)

/-! ## The invariants of the pass -/

/-- The nodes that have been counted for the call site `s`. -/
def countedIn (G : AFTaskGraph) (P : List Event) (s : SizeT) : Finset ℕ :=
  {n ∈ Finset.Icc 1 G.lastAllocatedNode |
    .finalise n ∈ P ∧ Counted G n ∧ (G.tgraphNodes n).callSite = s}

theorem countedIn_finalise (h : G.shape.WellFormed) {P : List Event} {n : ℕ}
    (hP : P ++ [.finalise n] <+: G.shape.schedule) (s : SizeT) :
    n ∉ countedIn G P s ∧ countedIn G (P ++ [.finalise n]) s =
      if Counted G n ∧ (G.tgraphNodes n).callSite = s then insert n (countedIn G P s)
      else countedIn G P s := by
  have hn : G.shape.Node n := (Shape.mem_schedule h).mp (Shape.mem_schedule_of_prefix_append hP)
  refine ⟨fun hm => Shape.not_mem_prefix_self h hP (Finset.mem_filter.mp hm).2.1, ?_⟩
  have hxm : n ∈ Finset.Icc 1 G.lastAllocatedNode := Finset.mem_Icc.mpr hn
  ext x
  by_cases hx : x = n
  · subst hx
    split_ifs with hc
    · simp only [countedIn, Finset.mem_filter, hxm, hc, List.mem_append, List.mem_singleton,
        Finset.mem_insert]
      tauto
    · simp only [countedIn, Finset.mem_filter, hc, and_false]
  · split_ifs <;> simp [countedIn, hx]

/-- The work stored for call site `s`. -/
def workAt (m : AccMap SizeT WorkSpanData) (s : SizeT) : SizeT :=
  match m.lookup s with
  | none => 0
  | some d => d.work

/-- The call count stored for call site `s`. -/
def callCountAt (m : AccMap SizeT WorkSpanData) (s : SizeT) : SizeT :=
  match m.lookup s with
  | none => 0
  | some d => d.callCount

theorem workAt_add (m : AccMap SizeT WorkSpanData) (k s : SizeT) (v : WorkSpanData) :
    workAt (m.add k v) s = workAt m s + if s = k then v.work else 0 := by
  by_cases hs : s = k
  · subst hs
    rw [workAt, AccMap.lookup_add_self, workAt]
    cases m.lookup s <;> simp
  · rw [workAt, AccMap.lookup_add_of_ne m hs, workAt, if_neg hs, add_zero]

theorem callCountAt_add (m : AccMap SizeT WorkSpanData) (k s : SizeT) (v : WorkSpanData) :
    callCountAt (m.add k v) s = callCountAt m s + if s = k then v.callCount else 0 := by
  by_cases hs : s = k
  · subst hs
    rw [callCountAt, AccMap.lookup_add_self, callCountAt]
    cases m.lookup s <;> simp
  · rw [callCountAt, AccMap.lookup_add_of_ne m hs, callCountAt, if_neg hs, add_zero]

/-- What closing node `n` does to the map. -/
theorem ledgerAfter_finalise_workSpanMap (P : List Event) (n : ℕ) :
    (ledgerAfter G (P ++ [.finalise n])).workSpanMap =
      if Counted G n then (ledgerAfter G P).workSpanMap.add (G.tgraphNodes n).callSite
        ⟨(closeAccount G (ledgerAfter G P).accounts n n).work,
          (closeAccount G (ledgerAfter G P).accounts n n).criticalChild, 1⟩
      else (ledgerAfter G P).workSpanMap := by
  rw [ledgerAfter_append]; rfl

/-- The work of a call site is the work of the nodes counted for it. -/
theorem workAt_ledgerAfter (h : WorkGraph G) {P : List Event} (hP : P <+: G.shape.schedule)
    (s : SizeT) : workAt (ledgerAfter G P).workSpanMap s =
      BitVec.ofNat 64 (∑ n ∈ countedIn G P s, G.subtreeWork n) := by
  refine Shape.prefix_induction (Q := fun P => workAt (ledgerAfter G P).workSpanMap s =
    BitVec.ofNat 64 (∑ n ∈ countedIn G P s, G.subtreeWork n)) ?_ (fun P e hP hI => ?_) hP
  · simp [countedIn, ledgerAfter, Ledger.init, workAt]
  · cases e with
    | visit n =>
      have hc : countedIn G (P ++ [.visit n]) s = countedIn G P s := by simp [countedIn]
      rw [ledgerAfter_append, hc]
      exact hI
    | finalise n =>
      have hn : G.shape.Node n :=
        (Shape.mem_schedule h.shape).mp (Shape.mem_schedule_of_prefix_append hP)
      have hwork := (workInv h.taskTree ((List.prefix_append P _).trans hP)).atClose h.taskTree hP
      obtain ⟨hnot, hset⟩ := countedIn_finalise h.shape hP s
      rw [ledgerAfter_finalise_workSpanMap, hset]
      by_cases hc : Counted G n
      · rw [if_pos hc, workAt_add, hI, closeAccount_work_self G _ (h.parent_ne hn), hwork]
        by_cases hs : (G.tgraphNodes n).callSite = s
        · rw [if_pos hs.symm, if_pos ⟨hc, hs⟩, Finset.sum_insert hnot, Nat.add_comm,
            BitVec.ofNat_add]
        · rw [if_neg (Ne.symm hs), if_neg fun hh => hs hh.2, add_zero]
      · rw [if_neg hc, if_neg fun hh => hc hh.1, hI]

/-! ## The result of the pass -/

/-- The pass returns, and for every call site: the stored work is at most the
    work of the STEP nodes below the site, and at most the work of the head; and
    only nodes that are not themselves below the site are added to the call
    count. -/
def CountedOnce (G : AFTaskGraph) : Prop :=
  ∃ st calls, calculateRecurse G (.init G) = .ok st ∧
    calculateRecurseCalls G (.init G) = .ok (st, calls) ∧
    ∀ s, s ≠ 0 →
      (∀ d, st.workSpanMap.lookup s = some d →
        d.work.toNat ≤ G.siteWork s ∧ d.work ≤ (st.tProf 1).work) ∧
      ∀ c ∈ calls, callCountAt c.2.2.workSpanMap s ≠ callCountAt c.2.1.workSpanMap s →
        (G.tgraphNodes c.1).callSite = s ∧ ¬ G.Below s c.1

/-- A node with a call site is left out if a node on its path to the head has
    the call site of its parent. -/
theorem counted_iff (h : G.shape.WellFormed) {n : ℕ} (hn : G.shape.Node n) :
    Counted G n ↔ (G.tgraphNodes n).callSite ≠ 0 ∧
      ∀ x, G.shape.Anc x n → ¬ G.SameAsParent x := by
  obtain ⟨b, hb⟩ := recursiveCall_ok h hn
  have hiff := recursiveCall_iff h hn
  rw [Counted]
  refine and_congr_right fun _ => ?_
  rw [hb, Except.ok.injEq] at hiff ⊢
  rw [← Bool.not_eq_true, hiff, not_exists]
  exact forall_congr' fun x => not_and

/-- The call of `calculateWorkSpan` at `n` raises the call count of the site of
    `n`, if `n` is counted, and no other. -/
theorem callCount_ne_iff {P : List Event} {n : ℕ} {st st' : Profile} (ht : TracksLedger G P st)
    (ht' : TracksLedger G (P ++ [.finalise n]) st') (s : SizeT) :
    callCountAt st'.workSpanMap s ≠ callCountAt st.workSpanMap s ↔
      Counted G n ∧ (G.tgraphNodes n).callSite = s := by
  rw [ht'.workSpanMap, ht.workSpanMap, ledgerAfter_finalise_workSpanMap]
  by_cases hc : Counted G n
  · rw [if_pos hc, callCountAt_add]
    by_cases hs : (G.tgraphNodes n).callSite = s
    · rw [if_pos hs.symm]
      refine iff_of_true (fun he => ?_) ⟨hc, hs⟩
      rw [add_eq_left] at he
      have h1 : (1 : SizeT) ≠ 0 := by decide
      exact h1 he
    · rw [if_neg (Ne.symm hs), add_zero]
      exact iff_of_false (fun hne => hne rfl) fun hh => hs hh.2
  · rw [if_neg hc]
    exact iff_of_false (fun hne => hne rfl) fun hh => hc hh.1

/-- **Recursive call sites.** No call site counts a nested activation, if and
    only if every node below a node of its own call site has, on its path to the
    head, a node with the call site of its parent. -/
theorem countedOnce_iff (h : WorkGraph G) :
    CountedOnce G ↔ ∀ n, G.shape.Node n → (G.tgraphNodes n).callSite ≠ 0 →
      G.Below (G.tgraphNodes n).callSite n → ∃ x, G.shape.Anc x n ∧ G.SameAsParent x := by
  have hw := h.shape
  obtain ⟨st, calls, hcalls, hrun, ht, hrec⟩ := calculateRecurseCalls_tracks h.toRunnable
  constructor
  · rintro ⟨st', calls', hrun', hcalls', hall⟩ n hn hcs hbelow
    rw [hcalls, Except.ok.injEq, Prod.mk.injEq] at hcalls'
    obtain ⟨rfl, rfl⟩ := hcalls'
    by_contra hnone
    have hcounted : Counted G n := (counted_iff hw hn).mpr ⟨hcs, fun x hx hs => hnone ⟨x, hx, hs⟩⟩
    obtain ⟨P, Q, hPQ⟩ := List.append_of_mem
      ((Shape.mem_schedule (e := .finalise n) hw).mpr hn)
    have hP : P ++ [.finalise n] <+: G.shape.schedule := ⟨Q, by rw [hPQ]; simp⟩
    obtain ⟨c, hc, hcn, htc, htc'⟩ := hrec.complete P n hP
    have hcount := (hall _ hcs).2 c hc
      ((callCount_ne_iff htc htc' _).mpr ⟨hcounted, rfl⟩)
    rw [hcn] at hcount
    exact hcount.2 hbelow
  · intro hcond
    refine ⟨st, calls, hrun, hcalls, fun s hs => ⟨fun d hd => ?_, fun c hc hne => ?_⟩⟩
    · have hnodes : ∀ n ∈ countedIn G G.shape.schedule s, G.shape.Node n ∧
          (G.tgraphNodes n).callSite = s ∧ ¬ G.Below s n := by
        intro n hn
        obtain ⟨hmem, -, hcounted, rfl⟩ := Finset.mem_filter.mp hn
        have hn : G.shape.Node n := Finset.mem_Icc.mp hmem
        refine ⟨hn, rfl, fun hbelow => ?_⟩
        obtain ⟨x, hx, hsame⟩ := hcond n hn hs hbelow
        exact ((counted_iff hw hn).mp hcounted).2 x hx hsame
      have hle := sum_subtreeWork_le h hs hnodes
      have htot := siteWork_le (G := G) s
      have hlt := h.work_lt
      have hwork : d.work =
          BitVec.ofNat 64 (∑ n ∈ countedIn G G.shape.schedule s, G.subtreeWork n) := by
        rw [← workAt_ledgerAfter h List.prefix_rfl, ← ht.workSpanMap, workAt, hd]
      have hhead : (st.tProf 1).work = BitVec.ofNat 64 G.totalWork := by
        rw [ht.tracks.work, workInv h.taskTree List.prefix_rfl 1 hw.root_node, Shape.closedIn,
          Finset.filter_true_of_mem fun c hc => (Shape.mem_schedule hw).mpr
            (Shape.mem_children.mp hc).1,
          ← AFTaskGraph.subtreeWork_eq hw hw.root_node, AFTaskGraph.subtreeWork_root hw]
      rw [hwork, hhead, ofNat_le_ofNat (by omega) hlt, BitVec.toNat_ofNat,
        Nat.mod_eq_of_lt (by omega)]
      exact ⟨hle, hle.trans htot⟩
    · obtain ⟨P, hP, htc, htc'⟩ := hrec.sound c hc
      obtain ⟨hcounted, rfl⟩ := (callCount_ne_iff htc htc' s).mp hne
      have hn := (Shape.mem_schedule hw).mp (Shape.mem_schedule_of_prefix_append hP)
      refine ⟨rfl, fun hbelow => ?_⟩
      obtain ⟨x, hx, hsame⟩ := hcond c.1 hn hs hbelow
      exact ((counted_iff hw hn).mp hcounted).2 x hx hsame

theorem forkGraph_workGraph : WorkGraph forkGraph :=
  workGraph_of_checks forkGraph_spanGraph.toRunnable rfl (by decide) (by decide)

/-- A task started by `spawn_root_and_wait` that starts itself once more from the same
    call site. -/
def recursiveGraph : AFTaskGraph :=
  .ofRows [⟨0, .finish, 0, 0⟩, ⟨1, .step, 0, 1⟩, ⟨1, .finish, 6, 0⟩, ⟨3, .step, 0, 2⟩,
    ⟨3, .finish, 6, 0⟩, ⟨5, .step, 0, 10⟩, ⟨3, .step, 0, 1⟩, ⟨1, .step, 0, 1⟩]
    fun cs => if cs = 6 then some ⟨[], 1, false⟩ else none

/-- The nested activation, node 5 of `recursiveGraph`, is recognised. -/
theorem recursiveGraph_countedOnce :
    recursiveGraph.Below 6 5 ∧ CountedOnce recursiveGraph := by
  have hg : WorkGraph recursiveGraph := workGraph_of_checks
    (runnable_ofRows (by decide) rfl (by decide)) rfl (by decide) (by decide)
  have hanc : recursiveGraph.shape.Anc 3 5 :=
    Shape.anc_of_mem_children (Shape.mem_children.mpr ⟨by decide, rfl⟩)
  refine ⟨⟨3, by decide, hanc, by decide, rfl⟩,
    (countedOnce_iff hg).mpr fun n hn hcs hbelow => ?_⟩
  obtain ⟨m, hm, hmn, hne, hsite⟩ := hbelow
  have h : ∀ n ∈ Finset.Icc 1 8, ∀ m ∈ Finset.Icc 1 8,
      (recursiveGraph.tgraphNodes n).callSite ≠ 0 →
      (recursiveGraph.tgraphNodes m).callSite = (recursiveGraph.tgraphNodes n).callSite →
      m ≠ n → m ≤ n → n = 5 := by decide
  obtain rfl := h n (Finset.mem_Icc.mpr hn) m (Finset.mem_Icc.mpr hm) hcs hsite hne (hmn.le hg.shape)
  exact ⟨5, .refl 5, hn, by decide, rfl⟩

/-- A task started by `spawn_root_and_wait` spawns a task, and this one spawns a task
    from the same call site; each waits for its own. -/
def nestedGraph : AFTaskGraph :=
  .ofRows [⟨0, .finish, 0, 0⟩, ⟨1, .step, 0, 1⟩, ⟨1, .finish, 6, 0⟩, ⟨3, .step, 0, 1⟩,
    ⟨3, .finish, 0, 0⟩, ⟨5, .async, 5, 0⟩, ⟨6, .step, 0, 1⟩, ⟨5, .step, 0, 1⟩, ⟨6, .finish, 0, 0⟩,
    ⟨9, .async, 5, 0⟩, ⟨10, .step, 0, 10⟩, ⟨9, .step, 0, 1⟩, ⟨6, .step, 0, 1⟩, ⟨3, .step, 0, 1⟩,
    ⟨1, .step, 0, 1⟩] fun cs => if cs = 6 then some ⟨[], 1, false⟩ else none

/-- Call site `5` of `nestedGraph` is charged `23` units of work, of `18` in the
    whole program. -/
theorem not_countedOnce : WorkGraph nestedGraph ∧ ¬ CountedOnce nestedGraph := by
  refine ⟨workGraph_of_checks (runnable_ofRows (by decide) rfl (by decide)) rfl (by decide)
    (by decide), ?_⟩
  rintro ⟨st, calls, hrun, -, hall⟩
  have h : (fun st : Profile => (st.workSpanMap.lookup 5, (st.tProf 1).work)) <$>
      calculateRecurse nestedGraph (.init nestedGraph) = .ok (some ⟨23, 22, 2⟩, 18) := by
    decide +kernel
  rw [hrun] at h
  simp only [Functor.map, Except.map, Except.ok.injEq, Prod.mk.injEq] at h
  have hle := ((hall 5 (by decide)).1 _ h.1).2
  rw [h.2] at hle
  exact absurd hle (by decide)

end TaskProf.Analysis
