import TaskProf.Analysis.Span

/-!
# The region passes

After the work and span pass, `report_region_increase_par` asks how the critical
path would change if the annotated regions ran faster: `reset_work_span` clears
the fields that hold spans, and `calculateRecurse_region` computes the spans
again with less work in the regions.

* `History`: the states reached by the first pass and any number of region
  passes.
* `calculateRecurseRegion_frame`: a region pass returns, and changes nothing but
  the fields that hold spans.
* `regionPass_refines`: whatever ran before, a region pass computes
  the spans that the first pass computes on a graph with the reduced work.
-/

namespace TaskProf.Analysis

/-! ## The source functions -/

/-- The loop body of `reset_work_span` (lines 361–366). -/
def resetNode (G : AFTaskGraph) (st : Profile) (i : ℕ) : Profile :=
  if (G.tgraphNodes i).type = .step then st
  else st.modify i fun d => { d with criticalChild := 0, localWork := 0, parentWork := 0 }

/-- `reset_work_span` (lines 358–369). -/
def resetWorkSpan (G : AFTaskGraph) (st : Profile) : Profile :=
  (List.range' 1 G.lastAllocatedNode).foldl (resetNode G) st

/-- `region_work - (region_work/par_increase)` (lines 419 and 425). `unsigned int` is a
    32-bit word, widened by the division. -/
def regionWorkDecrease (regionWork : SizeT) (parIncrease : BitVec 32) : Except Fault SizeT :=
  if parIncrease = 0 then .error .divisionByZero
  else .ok (regionWork - regionWork / parIncrease.setWidth 64)

/-- `step_work` of a STEP node (lines 414–428). -/
def regionStepWork (d : ProfilerData) (updatedRegion : SizeT) (parIncrease : BitVec 32) :
    Except Fault SizeT :=
  match d.regionWork with
  | none => .ok d.work
  | some m =>
    if updatedRegion = 0 then
      m.entries.foldlM (fun stepWork e => do
        let decrease ← regionWorkDecrease e.2 parIncrease
        .ok (stepWork - decrease)) d.work
    else
      match m.lookup updatedRegion with
      | none => .ok d.work
      | some regionWork => do
        let decrease ← regionWorkDecrease regionWork parIncrease
        .ok (d.work - decrease)

/-- `calculateWorkSpan_region` (lines 410–461). -/
def calculateWorkSpanRegion (G : AFTaskGraph) (updatedRegion : SizeT) (parIncrease : BitVec 32)
    (st : Profile) (n : ℕ) : Except Fault Profile :=
  let node := G.tgraphNodes n
  let p := node.parent
  match node.type with
  | .step => do
    let stepWork ← regionStepWork (st.tProf n) updatedRegion parIncrease
    .ok (st.modify p fun d => { d with localWork := d.localWork + stepWork })
  | .async =>
    let st :=
      if (st.tProf n).criticalChild ≤ (st.tProf n).localWork then
        st.modify n fun d => { d with criticalChild := d.localWork }
      else st
    let throughNode := (st.tProf n).criticalChild + (st.tProf n).parentWork
    if (st.tProf p).criticalChild < throughNode then
      .ok (st.modify p fun d => { d with criticalChild := throughNode })
    else .ok st
  | .finish =>
    let st :=
      if (st.tProf n).criticalChild ≤ (st.tProf n).localWork then
        st.modify n fun d => { d with criticalChild := d.localWork }
      else st
    .ok (st.modify p fun d => { d with localWork := d.localWork + (st.tProf n).criticalChild })
  | .noType => .ok st

/-- The `else` branch of the loop of `calculateRecurse_region` (lines 387–389). -/
def openNodeRegion (G : AFTaskGraph) (st : Profile) (n : ℕ) : Profile :=
  let node := G.tgraphNodes n
  if node.type = .async then
    st.modify n fun d => { d with parentWork := (st.tProf node.parent).localWork }
  else st

/-- What a region pass does at a node it reaches and at a node it closes. -/
def regionActions (G : AFTaskGraph) (updatedRegion : SizeT) (parIncrease : BitVec 32) :
    Actions Profile where
  visit n st := .ok (openNodeRegion G st n)
  finalise n st := calculateWorkSpanRegion G updatedRegion parIncrease st n

/-- `checkUpdateParentWorkSpan_region` (lines 394–408), on `num_processed` and the
    profile. -/
def checkUpdateParentWorkSpanRegion (G : AFTaskGraph) (updatedRegion : SizeT)
    (parIncrease : BitVec 32) (fuel parentIndex : ℕ) (numProcessed : ℕ → ℕ) (st : Profile) :
    Except Fault ((ℕ → ℕ) × Profile) :=
  G.shape.climb (regionActions G updatedRegion parIncrease) fuel parentIndex (numProcessed, st)

/-- `calculateRecurse_region` (lines 371–392). -/
def calculateRecurseRegion (G : AFTaskGraph) (updatedRegion : SizeT) (parIncrease : BitVec 32)
    (st : Profile) : Except Fault Profile :=
  G.shape.sweep (regionActions G updatedRegion parIncrease) st

/-- `reset_work_span` and `calculateRecurse_region`, as lines 301–312 run them. -/
def regionPass (G : AFTaskGraph) (updatedRegion : SizeT) (parIncrease : BitVec 32)
    (st : Profile) : Except Fault Profile :=
  calculateRecurseRegion G updatedRegion parIncrease (resetWorkSpan G st)

/-- The states after the first pass and any number of region passes. -/
inductive History (G : AFTaskGraph) : Profile → Prop
  | first {st : Profile} (h : calculateRecurse G (.init G) = .ok st) : History G st
  | region {st st' : Profile} (h : History G st) (r : SizeT) {p : BitVec 32} (hp : p ≠ 0)
      (hrun : regionPass G r p st = .ok st') : History G st'

/-! ## What a region pass leaves alone -/

/-- The two profiles differ in `local_work`, `parent_work` and `critical_child`
    only. -/
structure SameWork (st st' : Profile) : Prop where
  work : ∀ i, (st'.tProf i).work = (st.tProf i).work
  localLocalWork : ∀ i, (st'.tProf i).localLocalWork = (st.tProf i).localLocalWork
  criticalCallSites : ∀ i, (st'.tProf i).criticalCallSites = (st.tProf i).criticalCallSites
  regionWork : ∀ i, (st'.tProf i).regionWork = (st.tProf i).regionWork
  maps : st'.maps = st.maps
  workSpanMap : st'.workSpanMap = st.workSpanMap

theorem SameWork.refl (st : Profile) : SameWork st st :=
  ⟨fun _ => rfl, fun _ => rfl, fun _ => rfl, fun _ => rfl, rfl, rfl⟩

theorem SameWork.trans {st₁ st₂ st₃ : Profile} (h : SameWork st₁ st₂) (h' : SameWork st₂ st₃) :
    SameWork st₁ st₃ where
  work i := (h'.work i).trans (h.work i)
  localLocalWork i := (h'.localLocalWork i).trans (h.localLocalWork i)
  criticalCallSites i := (h'.criticalCallSites i).trans (h.criticalCallSites i)
  regionWork i := (h'.regionWork i).trans (h.regionWork i)
  maps := h'.maps.trans h.maps
  workSpanMap := h'.workSpanMap.trans h.workSpanMap

/-- Changing one of the three fields at node `i`. -/
theorem SameWork.modify (st : Profile) (i : ℕ) {f : ProfilerData → ProfilerData}
    (hf : ∀ d, ∃ l p c, f d = { d with localWork := l, parentWork := p, criticalChild := c }) :
    SameWork st (st.modify i f) := by
  have hself : ∀ j, ∃ l p c, (st.modify i f).tProf j =
      { st.tProf j with localWork := l, parentWork := p, criticalChild := c } := by
    intro j
    by_cases hj : j = i
    · subst hj
      rw [Profile.modify_self]
      exact hf _
    · rw [Profile.modify_of_ne st hj]
      exact ⟨_, _, _, rfl⟩
  refine ⟨fun j => ?_, fun j => ?_, fun j => ?_, fun j => ?_, rfl, rfl⟩
  all_goals
    obtain ⟨l, p, c, hj⟩ := hself j
    rw [hj]

theorem resetWorkSpan_frame (G : AFTaskGraph) (st : Profile) : SameWork st (resetWorkSpan G st) := by
  unfold resetWorkSpan
  generalize List.range' 1 G.lastAllocatedNode = l
  induction l generalizing st with
  | nil => exact .refl st
  | cons i l ih =>
    refine SameWork.trans ?_ (ih (resetNode G st i))
    unfold resetNode
    split_ifs
    · exact .refl st
    · exact .modify st i fun d => ⟨_, _, _, rfl⟩

theorem regionStepWork_ok (d : ProfilerData) (r : SizeT) {p : BitVec 32} (hp : p ≠ 0) :
    ∃ w, regionStepWork d r p = .ok w := by
  unfold regionStepWork
  cases d.regionWork with
  | none => exact ⟨_, rfl⟩
  | some m =>
    simp only [regionWorkDecrease, if_neg hp, bind, Except.bind]
    split_ifs
    · generalize d.work = w
      induction m.entries generalizing w with
      | nil => exact ⟨w, rfl⟩
      | cons e l ih => exact ih _
    · cases m.lookup r with
      | none => exact ⟨_, rfl⟩
      | some v => exact ⟨_, rfl⟩

theorem calculateWorkSpanRegion_frame (G : AFTaskGraph) (r : SizeT) {p : BitVec 32} (hp : p ≠ 0)
    (st : Profile) (n : ℕ) :
    ∃ st', calculateWorkSpanRegion G r p st n = .ok st' ∧ SameWork st st' := by
  have hspan : SameWork st (if (st.tProf n).criticalChild ≤ (st.tProf n).localWork then
      st.modify n fun d => { d with criticalChild := d.localWork } else st) := by
    split_ifs
    · exact .modify st n fun d => ⟨_, _, _, rfl⟩
    · exact .refl st
  unfold calculateWorkSpanRegion
  cases ht : (G.tgraphNodes n).type with
  | noType => exact ⟨st, by simp only [ht], .refl st⟩
  | step =>
    obtain ⟨w, hw⟩ := regionStepWork_ok (st.tProf n) r hp
    simp only [ht, hw, bind, Except.bind]
    exact ⟨_, rfl, .modify st _ fun d => ⟨_, _, _, rfl⟩⟩
  | async =>
    simp only [ht]
    generalize (if (st.tProf n).criticalChild ≤ (st.tProf n).localWork then
      st.modify n fun d => { d with criticalChild := d.localWork } else st) = st₁ at hspan ⊢
    split_ifs
    · exact ⟨_, rfl, hspan.trans (.modify st₁ _ fun d => ⟨_, _, _, rfl⟩)⟩
    · exact ⟨_, rfl, hspan⟩
  | finish =>
    simp only [ht]
    exact ⟨_, rfl, hspan.trans (.modify _ _ fun d => ⟨_, _, _, rfl⟩)⟩

theorem openNodeRegion_frame (G : AFTaskGraph) (st : Profile) (n : ℕ) :
    SameWork st (openNodeRegion G st n) := by
  unfold openNodeRegion
  dsimp only
  split_ifs
  · exact .modify st n fun d => ⟨_, _, _, rfl⟩
  · exact .refl st

/-- A region pass returns, and leaves work, maps and regions as they were. -/
theorem calculateRecurseRegion_frame {G : AFTaskGraph} (h : G.shape.WellFormed) (r : SizeT)
    {p : BitVec 32} (hp : p ≠ 0) (st : Profile) :
    ∃ st', calculateRecurseRegion G r p st = .ok st' ∧ SameWork st st' := by
  refine Shape.sweep_run h _ (fun _ st' => SameWork st st') st (.refl st) fun P e st₁ _ hs => ?_
  cases e with
  | visit n => exact ⟨_, rfl, hs.trans (openNodeRegion_frame G st₁ n)⟩
  | finalise n =>
    obtain ⟨st₂, h1, h2⟩ := calculateWorkSpanRegion_frame G r hp st₁ n
    exact ⟨st₂, h1, hs.trans h2⟩

theorem regionPass_frame {G : AFTaskGraph} (h : G.shape.WellFormed) (r : SizeT)
    {p : BitVec 32} (hp : p ≠ 0) (st : Profile) :
    ∃ st', regionPass G r p st = .ok st' ∧ SameWork st st' := by
  obtain ⟨st', h1, h2⟩ := calculateRecurseRegion_frame h r hp (resetWorkSpan G st)
  exact ⟨st', h1, (resetWorkSpan_frame G st).trans h2⟩

/-! ## What the first pass leaves alone -/

/-- One field of all nodes. -/
def fieldOf {α : Type} (field : ProfilerData → α) (t : ℕ → ProfilerData) (i : ℕ) : α := field (t i)

@[simp] theorem fieldOf_modify {α : Type} {field : ProfilerData → α} (st : Profile) (i : ℕ)
    {f : ProfilerData → ProfilerData} (hf : ∀ d, field (f d) = field d) :
    fieldOf field (st.modify i f).tProf = fieldOf field st.tProf := by
  funext j
  by_cases hj : j = i
  · subst hj
    simp [fieldOf, hf]
  · simp [fieldOf, Profile.modify_of_ne st hj]

/-- `region_work` of all nodes. -/
abbrev regionsOf : (ℕ → ProfilerData) → ℕ → Option CallSiteWork := fieldOf ProfilerData.regionWork

theorem insertCsData_tProf {st st' : Profile} {csMap : Option ℕ} {cs w : SizeT}
    (h : insertCsData st csMap cs w = .ok st') : st'.tProf = st.tProf := by
  unfold insertCsData at h
  obtain ⟨m, -, h⟩ := bind_eq_ok.mp h
  obtain ⟨maps, -, h⟩ := bind_eq_ok.mp h
  rw [← Except.ok.inj h]

theorem mergeCriticalCallSites_tProf {st st' : Profile} {source dest : Option ℕ}
    (h : mergeCriticalCallSites st source dest = .ok st') : st'.tProf = st.tProf := by
  have hfold : ∀ (l : List (SizeT × SizeT)) (st : Profile),
      l.foldlM (fun st e => insertCsData st dest e.1 e.2) st = .ok st' → st'.tProf = st.tProf := by
    intro l
    induction l with
    | nil =>
      intro st h
      rw [← Except.ok.inj h]
    | cons e l ih =>
      intro st h
      rw [List.foldlM_cons] at h
      obtain ⟨st₁, h1, h2⟩ := bind_eq_ok.mp h
      rw [ih st₁ h2, insertCsData_tProf h1]
  cases source with
  | none => rw [← Except.ok.inj h]
  | some q =>
    obtain ⟨m, -, h⟩ := bind_eq_ok.mp h
    exact hfold m.entries st h

theorem finishCallSites_regions {G : AFTaskGraph} {st st' : Profile} {n p : ℕ}
    (h : finishCallSites G st n p = .ok st') : regionsOf st'.tProf = regionsOf st.tProf := by
  unfold finishCallSites at h
  dsimp only at h
  split_ifs at h with hc hf hp
  · obtain ⟨d, -, h⟩ := bind_eq_ok.mp h
    split_ifs at h
    · obtain ⟨m, -, h⟩ := bind_eq_ok.mp h
      obtain ⟨maps, -, h⟩ := bind_eq_ok.mp h
      rw [insertCsData_tProf h]
      simp
    · rw [insertCsData_tProf h]
      simp
  · obtain ⟨maps, -, h⟩ := bind_eq_ok.mp h
    rw [← Except.ok.inj h]
    simp
  · rw [← Except.ok.inj h]
    simp
  · obtain ⟨m, -, h⟩ := bind_eq_ok.mp h
    rw [← Except.ok.inj h]
    simp

theorem calculateWorkSpan_regions {G : AFTaskGraph} {st st' : Profile} {n : ℕ}
    (h : calculateWorkSpan G st n = .ok st') : regionsOf st'.tProf = regionsOf st.tProf := by
  unfold calculateWorkSpan at h
  cases ht : (G.tgraphNodes n).type with
  | noType =>
    simp only [ht] at h
    rw [← Except.ok.inj h]
  | step =>
    simp only [ht] at h
    rw [← Except.ok.inj h]
    simp
  | async =>
    simp only [ht] at h
    obtain ⟨st₁, h1, h⟩ := bind_eq_ok.mp h
    have hst₁ : regionsOf st₁.tProf = regionsOf st.tProf := by
      rw [insertCsData_tProf h1]
      split_ifs <;> simp
    split_ifs at h
    · obtain ⟨maps, -, h⟩ := bind_eq_ok.mp h
      rw [← Except.ok.inj h, ← hst₁]
      simp
    · rw [← Except.ok.inj h, hst₁]
  | finish =>
    simp only [ht] at h
    obtain ⟨st₁, h1, h⟩ := bind_eq_ok.mp h
    have hst₁ : regionsOf st₁.tProf = regionsOf st.tProf := by
      rw [finishCallSites_regions h1]
      simp
    split_ifs at h
    · rw [mergeCriticalCallSites_tProf h, ← hst₁]
      simp
    · rw [← Except.ok.inj h, ← hst₁]
      simp

theorem openNode_regions (G : AFTaskGraph) (st : Profile) (n : ℕ) :
    regionsOf (openNode G st n).tProf = regionsOf st.tProf := by
  unfold openNode
  dsimp only
  split_ifs <;> simp

theorem updateWorkSpanMap_tProf {G : AFTaskGraph} {st st' : Profile} {n : ℕ}
    (h : updateWorkSpanMap G st n = .ok st') : st'.tProf = st.tProf := by
  unfold updateWorkSpanMap at h
  dsimp only at h
  split_ifs at h
  · obtain ⟨b, -, h⟩ := bind_eq_ok.mp h
    split_ifs at h <;> rw [← Except.ok.inj h]
  · rw [← Except.ok.inj h]

theorem calculateRecurse_regions {G : AFTaskGraph} (hw : G.shape.WellFormed) {st st' : Profile}
    (h : calculateRecurse G st = .ok st') : regionsOf st'.tProf = regionsOf st.tProf := by
  rw [calculateRecurse, Shape.sweep_eq_schedule hw] at h
  generalize G.shape.schedule = l at h
  induction l generalizing st with
  | nil => rw [← Except.ok.inj h]
  | cons e l ih =>
    rw [List.foldlM_cons] at h
    obtain ⟨st₁, h1, h2⟩ := bind_eq_ok.mp h
    rw [ih h2]
    cases e with
    | visit n =>
      rw [← Except.ok.inj h1]
      exact openNode_regions G st n
    | finalise n =>
      obtain ⟨st₂, h3, h4⟩ := bind_eq_ok.mp h1
      rw [updateWorkSpanMap_tProf h4, calculateWorkSpan_regions h3]

/-! ## The work without the optimised regions -/

/-- The work that running the selected regions `p` times faster takes off a
    node; `r = 0` selects all regions. -/
def ProfilerData.saving (d : ProfilerData) (r : SizeT) (p : ℕ) : ℕ :=
  match d.regionWork with
  | none => 0
  | some m =>
    ((m.entries.filter fun e => r = 0 ∨ e.1 = r).map fun e => e.2.toNat - e.2.toNat / p).sum

/-- The regions of a node have no more work than the node. -/
def ProfilerData.RegionsBounded (d : ProfilerData) : Prop :=
  match d.regionWork with
  | none => True
  | some m => (m.entries.map fun e => e.2.toNat).sum ≤ d.work.toNat

instance (d : ProfilerData) : Decidable d.RegionsBounded := by
  unfold ProfilerData.RegionsBounded
  cases d.regionWork with
  | none => exact instDecidableTrue
  | some m => exact inferInstanceAs (Decidable (_ ≤ _))

/-- The graph in which every STEP node has the work that remains when the
    selected regions run `p` times faster. -/
def AFTaskGraph.optimised (G : AFTaskGraph) (r : SizeT) (p : ℕ) : AFTaskGraph :=
  { G with
    tgraphNodes := fun n =>
      let node := G.tgraphNodes n
      if node.type = .step then
        { node with
          tProf := { node.tProf with
            work := BitVec.ofNat 64 (node.tProf.work.toNat - node.tProf.saving r p) } }
      else node }

theorem regionWorkDecrease_eq (v : SizeT) {p : BitVec 32} (hp : p ≠ 0) :
    ∃ d, regionWorkDecrease v p = .ok d ∧ d.toNat = v.toNat - v.toNat / p.toNat ∧
      d.toNat ≤ v.toNat := by
  have hdiv : (v / p.setWidth 64).toNat = v.toNat / p.toNat := by
    rw [BitVec.toNat_udiv, BitVec.toNat_setWidth, Nat.mod_eq_of_lt (by have := p.isLt; omega)]
  have hle : v / p.setWidth 64 ≤ v := by
    rw [BitVec.le_def, hdiv]
    exact Nat.div_le_self _ _
  have hsub : (v - v / p.setWidth 64).toNat = v.toNat - v.toNat / p.toNat := by
    rw [BitVec.toNat_sub_of_le hle, hdiv]
  exact ⟨v - v / p.setWidth 64, if_neg hp, hsub, hsub.trans_le (Nat.sub_le _ _)⟩

/-- Subtracting the savings one after another does not wrap. -/
theorem foldlM_regionWorkDecrease {p : BitVec 32} (hp : p ≠ 0) (l : List (SizeT × SizeT)) (w : SizeT)
    (hl : (l.map fun e => e.2.toNat).sum ≤ w.toNat) :
    ∃ w', l.foldlM (fun stepWork e => do
        let decrease ← regionWorkDecrease e.2 p
        .ok (stepWork - decrease)) w = .ok w' ∧
      w'.toNat = w.toNat - (l.map fun e => e.2.toNat - e.2.toNat / p.toNat).sum := by
  induction l generalizing w with
  | nil => exact ⟨w, rfl, rfl⟩
  | cons e l ih =>
    obtain ⟨d, hd, hdn, hdle⟩ := regionWorkDecrease_eq e.2 hp
    rw [List.map_cons, List.sum_cons] at hl
    have hsub : (w - d).toNat = w.toNat - d.toNat :=
      BitVec.toNat_sub_of_le (by rw [BitVec.le_def]; omega)
    obtain ⟨w', h1, h2⟩ := ih (w - d) (by omega)
    refine ⟨w', ?_, ?_⟩
    · rw [List.foldlM_cons, hd]
      exact h1
    · rw [h2, hsub, hdn, List.map_cons, List.sum_cons, Nat.sub_sub]

/-- The entries of a map with the key `k`. -/
theorem filter_eq_toList_lookup (m : CallSiteWork) (k : SizeT) :
    (m.entries.filter fun e => e.1 = k) = ((m.lookup k).map fun v => (k, v)).toList := by
  obtain ⟨l, hl⟩ := m
  unfold AccMap.lookup
  dsimp only
  induction l with
  | nil => rfl
  | cons e l ih =>
    rw [List.map_cons, List.nodup_cons] at hl
    by_cases hk : e.1 = k
    · have hnone : l.filter (fun e => e.1 = k) = [] := by
        rw [List.filter_eq_nil_iff]
        intro x hx he
        refine hl.1 ?_
        rw [hk, ← of_decide_eq_true he]
        exact List.mem_map_of_mem hx
      obtain ⟨k', v⟩ := e
      dsimp only at hk
      subst hk
      simp [AccMap.find, hnone]
    · simp [AccMap.find, hk, ih hl.2]

/-- `step_work` does not wrap. -/
theorem regionStepWork_eq {d : ProfilerData} (hd : d.RegionsBounded) (r : SizeT) {p : BitVec 32}
    (hp : p ≠ 0) :
    ∃ w, regionStepWork d r p = .ok w ∧ w.toNat = d.work.toNat - d.saving r p.toNat := by
  unfold regionStepWork ProfilerData.saving
  unfold ProfilerData.RegionsBounded at hd
  cases hm : d.regionWork with
  | none => exact ⟨d.work, rfl, rfl⟩
  | some m =>
    rw [hm] at hd
    dsimp only at hd ⊢
    by_cases hr : r = 0
    · rw [if_pos hr]
      simpa [hr] using foldlM_regionWorkDecrease hp m.entries d.work hd
    · rw [if_neg hr]
      simp only [hr, false_or]
      rw [filter_eq_toList_lookup]
      cases hv : m.lookup r with
      | none => exact ⟨d.work, rfl, rfl⟩
      | some v =>
        obtain ⟨c, hc, hcn, hcle⟩ := regionWorkDecrease_eq v hp
        have hmem : (r, v) ∈ m.entries := by
          have : (r, v) ∈ m.entries.filter fun e => e.1 = r := by
            rw [filter_eq_toList_lookup, hv]
            simp
          exact List.mem_of_mem_filter this
        have hle : v.toNat ≤ (m.entries.map fun e => e.2.toNat).sum :=
          List.single_le_sum (fun _ _ => Nat.zero_le _) _
            (List.mem_map_of_mem (f := fun e => e.2.toNat) hmem)
        refine ⟨d.work - c, by simp only [hc, bind, Except.bind], ?_⟩
        rw [BitVec.toNat_sub_of_le (by rw [BitVec.le_def]; omega), hcn]
        simp

section Optimised

variable (G : AFTaskGraph) (r : SizeT) (p : ℕ)

@[simp] theorem optimised_lastAllocatedNode :
    (G.optimised r p).lastAllocatedNode = G.lastAllocatedNode := rfl

@[simp] theorem optimised_callSiteMap : (G.optimised r p).callSiteMap = G.callSiteMap := rfl

@[simp] theorem optimised_type (n : ℕ) :
    ((G.optimised r p).tgraphNodes n).type = (G.tgraphNodes n).type := by
  unfold AFTaskGraph.optimised
  dsimp only
  split_ifs <;> rfl

@[simp] theorem optimised_parent (n : ℕ) :
    ((G.optimised r p).tgraphNodes n).parent = (G.tgraphNodes n).parent := by
  unfold AFTaskGraph.optimised
  dsimp only
  split_ifs <;> rfl

@[simp] theorem optimised_numChildren (n : ℕ) :
    ((G.optimised r p).tgraphNodes n).numChildren = (G.tgraphNodes n).numChildren := by
  unfold AFTaskGraph.optimised
  dsimp only
  split_ifs <;> rfl

@[simp] theorem optimised_callSite (n : ℕ) :
    ((G.optimised r p).tgraphNodes n).callSite = (G.tgraphNodes n).callSite := by
  unfold AFTaskGraph.optimised
  dsimp only
  split_ifs <;> rfl

@[simp] theorem optimised_spRootNWtFlag (n : ℕ) :
    ((G.optimised r p).tgraphNodes n).spRootNWtFlag = (G.tgraphNodes n).spRootNWtFlag := by
  unfold AFTaskGraph.optimised
  dsimp only
  split_ifs <;> rfl

@[simp] theorem optimised_shape : (G.optimised r p).shape = G.shape := by
  simp [AFTaskGraph.shape]

theorem optimised_work {n : ℕ} (ht : (G.tgraphNodes n).type = .step) :
    ((G.optimised r p).tgraphNodes n).tProf.work =
      BitVec.ofNat 64 ((G.tgraphNodes n).tProf.work.toNat - (G.tgraphNodes n).tProf.saving r p) := by
  unfold AFTaskGraph.optimised
  dsimp only
  rw [if_pos ht]

theorem optimised_fresh {n : ℕ} (h : (G.tgraphNodes n).Fresh) :
    ((G.optimised r p).tgraphNodes n).Fresh := by
  by_cases ht : (G.tgraphNodes n).type = .step
  · unfold AFTask.Fresh at h ⊢
    rw [if_pos ht] at h
    simp only [AFTaskGraph.optimised, if_pos ht]
    rw [h]
  · simpa only [AFTaskGraph.optimised, if_neg ht] using h

theorem Runnable.optimised {G : AFTaskGraph} (h : Runnable G) : Runnable (G.optimised r p) where
  shape := by rw [optimised_shape]; exact h.shape
  head := by rw [optimised_type]; exact h.head
  has_child n hn ht := by
    rw [optimised_shape] at hn
    rw [optimised_type] at ht
    rw [optimised_numChildren]
    exact h.has_child n hn ht
  resolves n hn ht hf := by
    rw [optimised_shape] at hn
    rw [optimised_type] at ht
    rw [optimised_spRootNWtFlag] at hf
    rw [optimised_callSite]
    exact h.resolves n hn ht hf
  fresh n := optimised_fresh G r p (h.fresh n)

end Optimised

theorem optimised_stepWork_le (G : AFTaskGraph) (r : SizeT) (p n : ℕ) :
    (G.optimised r p).stepWork n ≤ G.stepWork n := by
  unfold AFTaskGraph.stepWork
  rw [optimised_type]
  split_ifs with ht
  · rw [optimised_work G r p ht, BitVec.toNat_ofNat]
    exact (Nat.mod_le _ _).trans (Nat.sub_le _ _)
  · exact le_rfl

theorem SpanGraph.optimised {G : AFTaskGraph} (h : SpanGraph G) (r : SizeT) (p : ℕ) :
    SpanGraph (G.optimised r p) where
  toRunnable := h.toRunnable.optimised r p
  parent_not_step n hn h1 := by
    rw [optimised_shape] at hn
    rw [optimised_parent, optimised_type]
    exact h.parent_not_step n hn h1
  finish_before_async f c x hf hc hfn hcn hp hlt hx := by
    rw [optimised_type] at hf hc
    rw [optimised_shape] at hfn hcn hx
    rw [optimised_parent, optimised_parent] at hp
    exact h.finish_before_async f c x hf hc hfn hcn hp hlt hx
  work_lt := (Finset.sum_le_sum fun n _ => optimised_stepWork_le G r p n).trans_lt h.work_lt

/-! ## The region pass and the first pass -/

/-- The fields that hold spans are those of the accounts, on ASYNC and FINISH
    nodes. -/
structure Mirrors (G : AFTaskGraph) (a : ℕ → Account) (st : Profile) : Prop where
  localWork : ∀ q, G.shape.Node q → (G.tgraphNodes q).type ≠ .step →
    (st.tProf q).localWork = (a q).localWork
  parentWork : ∀ q, G.shape.Node q → (G.tgraphNodes q).type ≠ .step →
    (st.tProf q).parentWork = (a q).parentWork
  criticalChild : ∀ q, G.shape.Node q → (G.tgraphNodes q).type ≠ .step →
    (st.tProf q).criticalChild = (a q).criticalChild

theorem foldl_resetNode (G : AFTaskGraph) (l : List ℕ) (st : Profile) (q : ℕ) :
    (l.foldl (resetNode G) st).tProf q =
      if q ∈ l ∧ (G.tgraphNodes q).type ≠ .step then
        { st.tProf q with criticalChild := 0, localWork := 0, parentWork := 0 }
      else st.tProf q := by
  induction l generalizing st with
  | nil => simp
  | cons i l ih =>
    rw [List.foldl_cons, ih, resetNode]
    by_cases hi : (G.tgraphNodes i).type = .step
    · rw [if_pos hi]
      by_cases hq : q = i
      · subst hq
        simp [hi]
      · simp [hq]
    · rw [if_neg hi]
      by_cases hq : q = i
      · subst hq
        simp [hi]
      · simp [hq, Profile.modify_of_ne st hq]

/-- A region pass starts from the fields that the first pass starts from. -/
theorem Mirrors.reset {G : AFTaskGraph} (r : SizeT) (p : ℕ)
    (hf : ∀ n, (G.tgraphNodes n).Fresh) (st : Profile) :
    Mirrors G (ledgerAfter (G.optimised r p) []).accounts (resetWorkSpan G st) := by
  have hreset : ∀ q, G.shape.Node q → (G.tgraphNodes q).type ≠ .step →
      (resetWorkSpan G st).tProf q =
        { st.tProf q with criticalChild := 0, localWork := 0, parentWork := 0 } := by
    intro q hq ht
    rw [resetWorkSpan, foldl_resetNode, if_pos ⟨Shape.mem_range'_size.mpr hq, ht⟩]
  have hinit : ∀ q, (ledgerAfter (G.optimised r p) []).accounts q =
      ((G.optimised r p).tgraphNodes q).tProf.account 0 := fun q => rfl
  refine ⟨fun q hq ht => ?_, fun q hq ht => ?_, fun q hq ht => ?_⟩
  all_goals
    rw [hreset q hq ht, hinit, optimised_fresh G r p (hf q)]
    rfl

/-- The test that both passes start an ASYNC and a FINISH node with. -/
theorem setSpan_eq (st : Profile) (n : ℕ) :
    (if (st.tProf n).criticalChild ≤ (st.tProf n).localWork then
        st.modify n fun d => { d with criticalChild := d.localWork } else st) =
      st.modify n fun d => { d with criticalChild := (d.account 0).spanOf } := by
  unfold Profile.modify Account.spanOf ProfilerData.account
  split_ifs with hc
  · simp [hc]
  · simp [hc]

section Simulation

variable {G : AFTaskGraph} {r : SizeT} {p : ℕ} {a : ℕ → Account} {st : Profile} {n : ℕ}

theorem Mirrors.visit (h : SpanGraph G) (hm : Mirrors G a st) (hn : G.shape.Node n) :
    Mirrors G (openAccount (G.optimised r p) a n) (openNodeRegion G st n) := by
  unfold openNodeRegion
  by_cases ht : (G.tgraphNodes n).type = .async
  · have hp := h.node_parent hn (h.ne_one_of_async ht)
    have hpt := h.parent_not_step n hn (h.ne_one_of_async ht)
    rw [if_pos ht]
    refine ⟨fun q hq hqt => ?_, fun q hq hqt => ?_, fun q hq hqt => ?_⟩
    · rw [openAccount_localWork, ← hm.localWork q hq hqt]
      by_cases hqn : q = n
      · subst hqn
        rw [Profile.modify_self]
      · rw [Profile.modify_of_ne st hqn]
    · by_cases hqn : q = n
      · subst hqn
        rw [Profile.modify_self, openAccount_parentWork_async _ _ (by rw [optimised_type]; exact ht),
          optimised_parent]
        exact hm.localWork _ hp hpt
      · rw [Profile.modify_of_ne st hqn, openAccount_of_ne _ _ hqn, hm.parentWork q hq hqt]
    · rw [openAccount_criticalChild, ← hm.criticalChild q hq hqt]
      by_cases hqn : q = n
      · subst hqn
        rw [Profile.modify_self]
      · rw [Profile.modify_of_ne st hqn]
  · rw [if_neg ht]
    refine ⟨fun q hq hqt => ?_, fun q hq hqt => ?_, fun q hq hqt => ?_⟩
    · rw [openAccount_localWork, hm.localWork q hq hqt]
    · rw [hm.parentWork q hq hqt]
      by_cases hqn : q = n
      · subst hqn
        simp [openAccount, ht]
      · rw [openAccount_of_ne _ _ hqn]
    · rw [openAccount_criticalChild, hm.criticalChild q hq hqt]

/-- A closed node changes its own span and adds to its parent. -/
theorem Mirrors.of_close (hne : (G.tgraphNodes n).parent ≠ n) {st' : Profile}
    (hother : ∀ q, G.shape.Node q → (G.tgraphNodes q).type ≠ .step → q ≠ n →
      q ≠ (G.tgraphNodes n).parent → st'.tProf q = st.tProf q) (hm : Mirrors G a st)
    (hself : G.shape.Node n → (G.tgraphNodes n).type ≠ .step →
      (st'.tProf n).localWork = (a n).localWork ∧ (st'.tProf n).parentWork = (a n).parentWork ∧
      (st'.tProf n).criticalChild = (closeAccount (G.optimised r p) a n n).criticalChild)
    (hparent : G.shape.Node (G.tgraphNodes n).parent →
      (G.tgraphNodes (G.tgraphNodes n).parent).type ≠ .step →
      (st'.tProf (G.tgraphNodes n).parent).localWork =
        (closeAccount (G.optimised r p) a n (G.tgraphNodes n).parent).localWork ∧
      (st'.tProf (G.tgraphNodes n).parent).parentWork = (a (G.tgraphNodes n).parent).parentWork ∧
      (st'.tProf (G.tgraphNodes n).parent).criticalChild =
        (closeAccount (G.optimised r p) a n (G.tgraphNodes n).parent).criticalChild) :
    Mirrors G (closeAccount (G.optimised r p) a n) st' := by
  have hof : ∀ q, q ≠ n → q ≠ (G.tgraphNodes n).parent → closeAccount (G.optimised r p) a n q = a q :=
    fun q hqn hqp => closeAccount_of_ne _ _ hqn (by rw [optimised_parent]; exact hqp)
  have hlocal : (closeAccount (G.optimised r p) a n n).localWork = (a n).localWork :=
    closeAccount_localWork_self _ _ (by rw [optimised_parent]; exact hne)
  refine ⟨fun q hq ht => ?_, fun q hq ht => ?_, fun q hq ht => ?_⟩
  · by_cases hqn : q = n
    · subst hqn
      rw [(hself hq ht).1, hlocal]
    · by_cases hqp : q = (G.tgraphNodes n).parent
      · subst hqp
        exact (hparent hq ht).1
      · rw [hother q hq ht hqn hqp, hof q hqn hqp, hm.localWork q hq ht]
  · rw [closeAccount_parentWork]
    by_cases hqn : q = n
    · subst hqn
      exact (hself hq ht).2.1
    · by_cases hqp : q = (G.tgraphNodes n).parent
      · subst hqp
        exact (hparent hq ht).2.1
      · rw [hother q hq ht hqn hqp, hm.parentWork q hq ht]
  · by_cases hqn : q = n
    · subst hqn
      exact (hself hq ht).2.2
    · by_cases hqp : q = (G.tgraphNodes n).parent
      · subst hqp
        exact (hparent hq ht).2.2
      · rw [hother q hq ht hqn hqp, hof q hqn hqp, hm.criticalChild q hq ht]

theorem Mirrors.spanOf (hm : Mirrors G a st) (hn : G.shape.Node n)
    (ht : (G.tgraphNodes n).type ≠ .step) : ((st.tProf n).account 0).spanOf = (a n).spanOf := by
  unfold Account.spanOf ProfilerData.account
  rw [hm.localWork n hn ht, hm.criticalChild n hn ht]

theorem Mirrors.closeStep (hm : Mirrors G a st) (hne : (G.tgraphNodes n).parent ≠ n)
    (ht : (G.tgraphNodes n).type = .step) :
    Mirrors G (closeAccount (G.optimised r p) a n)
      (st.modify (G.tgraphNodes n).parent fun d => { d with localWork := d.localWork + (a n).work }) := by
  refine .of_close hne (fun q _ _ _ hqp => Profile.modify_of_ne st hqp _) hm
    (fun _ hns => absurd ht hns) fun hp hpt => ?_
  rw [Profile.modify_self, ← optimised_parent G r p n, closeAccount_localWork_parent,
    closeAccount_criticalChild_parent, optimised_parent, optimised_type]
  refine ⟨?_, hm.parentWork _ hp hpt, ?_⟩
  · rw [hm.localWork _ hp hpt, Account.serial.eq_def, ht]
  · rw [if_neg (by rw [ht]; simp), ← hm.criticalChild _ hp hpt]

theorem Mirrors.closeFinish (hm : Mirrors G a st) (hne : (G.tgraphNodes n).parent ≠ n)
    (hn : G.shape.Node n) (ht : (G.tgraphNodes n).type = .finish) :
    Mirrors G (closeAccount (G.optimised r p) a n)
      ((st.modify n fun d => { d with criticalChild := (d.account 0).spanOf }).modify
        (G.tgraphNodes n).parent fun d => { d with localWork := d.localWork + (a n).spanOf }) := by
  have hns : (G.tgraphNodes n).type ≠ .step := by rw [ht]; simp
  refine .of_close hne (fun q _ _ hqn hqp => ?_) hm (fun _ _ => ?_) fun hp hpt => ?_
  · rw [Profile.modify_of_ne _ hqp, Profile.modify_of_ne _ hqn]
  · rw [Profile.modify_of_ne _ hne.symm, Profile.modify_self,
      closeAccount_criticalChild_self _ _ (by rw [optimised_parent]; exact hne)
        (by rw [optimised_type]; exact .inr ht)]
    exact ⟨hm.localWork n hn hns, hm.parentWork n hn hns, hm.spanOf hn hns⟩
  · rw [Profile.modify_self, Profile.modify_of_ne _ hne, ← optimised_parent G r p n,
      closeAccount_localWork_parent, closeAccount_criticalChild_parent, optimised_parent,
      optimised_type]
    refine ⟨?_, hm.parentWork _ hp hpt, ?_⟩
    · rw [hm.localWork _ hp hpt, Account.serial.eq_def, ht]
    · rw [if_neg (by rw [ht]; simp), ← hm.criticalChild _ hp hpt]

theorem Mirrors.closeAsync (hm : Mirrors G a st) (hne : (G.tgraphNodes n).parent ≠ n)
    (hn : G.shape.Node n) (ht : (G.tgraphNodes n).type = .async) :
    Mirrors G (closeAccount (G.optimised r p) a n)
      (let st := st.modify n fun d => { d with criticalChild := (d.account 0).spanOf }
        if (st.tProf (G.tgraphNodes n).parent).criticalChild < (a n).spanOf + (a n).parentWork then
          st.modify (G.tgraphNodes n).parent fun d =>
            { d with criticalChild := (a n).spanOf + (a n).parentWork }
        else st) := by
  have hns : (G.tgraphNodes n).type ≠ .step := by rw [ht]; simp
  dsimp only
  rw [Profile.modify_of_ne _ hne]
  refine .of_close hne (fun q _ _ hqn hqp => ?_) hm (fun _ _ => ?_) fun hp hpt => ?_
  · split_ifs
    · rw [Profile.modify_of_ne _ hqp, Profile.modify_of_ne _ hqn]
    · rw [Profile.modify_of_ne _ hqn]
  · have hself := closeAccount_criticalChild_self (G.optimised r p) a
      (by rw [optimised_parent]; exact hne) (by rw [optimised_type]; exact .inl ht)
    rw [hself]
    split_ifs
    · rw [Profile.modify_of_ne _ hne.symm, Profile.modify_self]
      exact ⟨hm.localWork n hn hns, hm.parentWork n hn hns, hm.spanOf hn hns⟩
    · rw [Profile.modify_self]
      exact ⟨hm.localWork n hn hns, hm.parentWork n hn hns, hm.spanOf hn hns⟩
  · rw [← optimised_parent G r p n, closeAccount_localWork_parent,
      closeAccount_criticalChild_parent, optimised_parent, optimised_type,
      hm.criticalChild _ hp hpt, Account.serial.eq_def, ht]
    simp only [true_and, add_zero]
    split_ifs
    · rw [Profile.modify_self, Profile.modify_of_ne _ hne]
      exact ⟨hm.localWork _ hp hpt, hm.parentWork _ hp hpt, rfl⟩
    · rw [Profile.modify_of_ne _ hne]
      exact ⟨hm.localWork _ hp hpt, hm.parentWork _ hp hpt, hm.criticalChild _ hp hpt⟩

end Simulation

/-- Closing a node does the same to the fields that hold spans in both passes. -/
theorem Mirrors.finalise {G : AFTaskGraph} (h : SpanGraph G) {r : SizeT} {p : BitVec 32}
    (hp : p ≠ 0) {a : ℕ → Account} {st : Profile} {n : ℕ} (hm : Mirrors G a st)
    (hn : G.shape.Node n) (hb : (G.tgraphNodes n).tProf.RegionsBounded)
    (hwork : (G.tgraphNodes n).type = .step → (st.tProf n).work = (G.tgraphNodes n).tProf.work ∧
      (a n).work = ((G.optimised r p.toNat).tgraphNodes n).tProf.work)
    (hregion : (st.tProf n).regionWork = (G.tgraphNodes n).tProf.regionWork) :
    ∃ st', calculateWorkSpanRegion G r p st n = .ok st' ∧
      Mirrors G (closeAccount (G.optimised r p.toNat) a n) st' := by
  have hne := h.parent_ne hn
  unfold calculateWorkSpanRegion
  cases ht : (G.tgraphNodes n).type with
  | noType =>
    refine ⟨st, by simp only [ht], ?_⟩
    have hclose : closeAccount (G.optimised r p.toNat) a n = a := by
      simp only [closeAccount, optimised_type, ht]
    rwa [hclose]
  | step =>
    obtain ⟨hst, ha⟩ := hwork ht
    obtain ⟨w, hw, hwn⟩ := regionStepWork_eq hb r hp
    have hstep : regionStepWork (st.tProf n) r p = .ok w := by
      rw [← hw]
      unfold regionStepWork
      rw [hst, hregion]
    have hwa : w = (a n).work := by
      rw [ha, optimised_work G r p.toNat ht, ← hwn]
      simp
    simp only [ht, hstep, bind, Except.bind]
    refine ⟨_, rfl, ?_⟩
    rw [hwa]
    exact hm.closeStep hne ht
  | async =>
    have hns : (G.tgraphNodes n).type ≠ .step := by rw [ht]; simp
    simp only [ht, setSpan_eq]
    have hthrough : ((st.modify n fun d => { d with criticalChild := (d.account 0).spanOf }).tProf
          n).criticalChild +
        ((st.modify n fun d => { d with criticalChild := (d.account 0).spanOf }).tProf n).parentWork =
        (a n).spanOf + (a n).parentWork := by
      rw [Profile.modify_self, ← hm.spanOf hn hns, ← hm.parentWork n hn hns]
    rw [hthrough]
    have hclose := hm.closeAsync (r := r) (p := p.toNat) hne hn ht
    dsimp only at hclose
    split_ifs at hclose ⊢
    · exact ⟨_, rfl, hclose⟩
    · exact ⟨_, rfl, hclose⟩
  | finish =>
    have hns : (G.tgraphNodes n).type ≠ .step := by rw [ht]; simp
    simp only [ht, setSpan_eq]
    refine ⟨_, rfl, ?_⟩
    have hspan : ((st.modify n fun d => { d with criticalChild := (d.account 0).spanOf }).tProf
        n).criticalChild = (a n).spanOf := by
      rw [Profile.modify_self]
      exact hm.spanOf hn hns
    rw [hspan]
    exact hm.closeFinish hne hn ht

/-! ## Any history -/

/-- The regions of every STEP node have no more work than the node. -/
def AFTaskGraph.RegionsBounded (G : AFTaskGraph) : Prop :=
  ∀ n, G.shape.Node n → (G.tgraphNodes n).tProf.RegionsBounded

/-- STEP nodes keep their work, and all nodes their regions, in every history. -/
theorem History.keeps {G : AFTaskGraph} (h : SpanGraph G) {st : Profile} (hst : History G st) :
    (∀ n, G.shape.Node n → (G.tgraphNodes n).type = .step →
      (st.tProf n).work = (G.tgraphNodes n).tProf.work) ∧
    ∀ n, (st.tProf n).regionWork = (G.tgraphNodes n).tProf.regionWork := by
  induction hst with
  | @first st hrun =>
    obtain ⟨st', -, -, hrun', ht, -⟩ := calculateRecurseCalls_tracks h.toRunnable
    obtain rfl : st' = st := by
      rw [hrun'] at hrun
      exact Except.ok.inj hrun
    refine ⟨fun n hn hty => ?_, fun n => congrFun (calculateRecurse_regions h.shape hrun) n⟩
    rw [ht.tracks.work, (spanInv h List.prefix_rfl).work n hn hty]
  | @region st st' _ r p hp hrun ih =>
    obtain ⟨st₂, h1, h2⟩ := regionPass_frame h.shape r hp st
    obtain rfl : st₂ = st' := by
      rw [h1] at hrun
      exact Except.ok.inj hrun
    exact ⟨fun n hn hty => (h2.work n).trans (ih.1 n hn hty), fun n => (h2.regionWork n).trans (ih.2 n)⟩

/-- A region pass has the fields that hold spans of the first pass over the
    optimised graph. -/
theorem regionPass_mirrors {G : AFTaskGraph} (h : SpanGraph G) (hb : G.RegionsBounded) (r : SizeT)
    {p : BitVec 32} (hp : p ≠ 0) {st : Profile} (hst : History G st) :
    ∃ st', regionPass G r p st = .ok st' ∧ SameWork st st' ∧
      Mirrors G (ledgerAfter (G.optimised r p.toNat) G.shape.schedule).accounts st' := by
  obtain ⟨hwork, hregion⟩ := hst.keeps h
  have hopt := h.optimised r p.toNat
  obtain ⟨st', h1, h2, h3⟩ := Shape.sweep_run h.shape (regionActions G r p)
    (fun P st' => SameWork st st' ∧
      Mirrors G (ledgerAfter (G.optimised r p.toNat) P).accounts st')
    (resetWorkSpan G st) ⟨resetWorkSpan_frame G st, .reset r p.toNat h.fresh st⟩ (by
      rintro P e st₁ hP ⟨hs, hm⟩
      have hmem := (Shape.mem_schedule h.shape).mp (Shape.mem_schedule_of_prefix_append hP)
      rw [ledgerAfter_append]
      cases e with
      | visit n =>
        exact ⟨openNodeRegion G st₁ n, rfl, hs.trans (openNodeRegion_frame G st₁ n),
          hm.visit h hmem.1⟩
      | finalise n =>
        have hinv : SpanInv (G.optimised r p.toNat) P := spanInv hopt (by
          rw [optimised_shape]
          exact (List.prefix_append P _).trans hP)
        obtain ⟨st₂, h1, h2⟩ := hm.finalise h hp hmem (hb n hmem)
          (fun ht => ⟨(hs.work n).trans (hwork n hmem ht),
            hinv.work n (by rw [optimised_shape]; exact hmem) (by rw [optimised_type]; exact ht)⟩)
          ((hs.regionWork n).trans (hregion n))
        obtain ⟨st₃, h3, h4⟩ := calculateWorkSpanRegion_frame G r hp st₁ n
        obtain rfl : st₃ = st₂ := by
          rw [h1] at h3
          exact (Except.ok.inj h3).symm
        exact ⟨st₃, h1, hs.trans h4, h2⟩)
  exact ⟨st', h1, h2, h3⟩

/-- **Region passes.** Whatever passes ran before, optimising the regions `r` by
    the factor `p` gives the spans that the first pass gives on the graph in
    which the work saved in these regions is taken off every STEP node; the
    work of the nodes and their regions stay as they are. -/
theorem regionPass_refines {G : AFTaskGraph} (h : SpanGraph G) (hb : G.RegionsBounded) (r : SizeT)
    {p : BitVec 32} (hp : p ≠ 0) {st : Profile} (hst : History G st) :
    ∃ st' st'', regionPass G r p st = .ok st' ∧
      calculateRecurse (G.optimised r p.toNat) (.init (G.optimised r p.toNat)) = .ok st'' ∧
      (∀ n, G.shape.Node n → (G.tgraphNodes n).type = .async ∨ (G.tgraphNodes n).type = .finish →
        (st'.tProf n).criticalChild = (st''.tProf n).criticalChild) ∧
      ∀ n, (st'.tProf n).work = (st.tProf n).work ∧
        (st'.tProf n).regionWork = (st.tProf n).regionWork := by
  obtain ⟨st', h1, h2, h3⟩ := regionPass_mirrors h hb r hp hst
  obtain ⟨st'', -, -, h4, h5, -⟩ := calculateRecurseCalls_tracks (h.optimised r p.toNat).toRunnable
  refine ⟨st', st'', h1, h4, fun n hn ht => ?_, fun n => ⟨h2.work n, h2.regionWork n⟩⟩
  have hns : (G.tgraphNodes n).type ≠ .step := by
    rcases ht with ht | ht <;> rw [ht] <;> simp
  rw [optimised_shape] at h5
  rw [h3.criticalChild n hn hns, h5.tracks.criticalChild]

/-- `forkGraph`, with 6 units of the work of its longer task in a region. -/
def regionGraph : AFTaskGraph :=
  { forkGraph with
    tgraphNodes := fun n =>
      let node := forkGraph.tgraphNodes n
      if n = 7 then
        { node with tProf := { node.tProf with regionWork := some (AccMap.empty.add 21 6) } }
      else node }

theorem regionGraph_spanGraph : SpanGraph regionGraph where
  shape := by decide
  head := rfl
  has_child n hn := by
    have h : ∀ n ∈ Finset.Icc 1 10, (regionGraph.tgraphNodes n).type ≠ .step →
        (regionGraph.tgraphNodes n).numChildren ≠ 0 := by decide
    exact h n (Finset.mem_Icc.mpr hn)
  resolves n hn _ := by
    have h : ∀ n ∈ Finset.Icc 1 10, (regionGraph.tgraphNodes n).spRootNWtFlag = true →
        (regionGraph.tgraphNodes n).callSite = 6 := by decide
    intro hf
    rw [h n (Finset.mem_Icc.mpr hn) hf]
    simp [regionGraph, forkGraph, AFTaskGraph.ofRows]
  fresh n := by
    by_cases hn : n = 7
    · subst hn
      rfl
    · simp only [regionGraph, if_neg hn]
      exact forkGraph_spanGraph.fresh n
  parent_not_step n hn := by
    have h : ∀ n ∈ Finset.Icc 1 10, n ≠ 1 →
        (regionGraph.tgraphNodes (regionGraph.tgraphNodes n).parent).type ≠ .step := by decide
    exact h n (Finset.mem_Icc.mpr hn)
  finish_before_async f c x hf hc hfn hcn hp hlt hx := by
    have h : ∀ f ∈ Finset.Icc 1 10, ∀ c ∈ Finset.Icc 1 10,
        (regionGraph.tgraphNodes f).type = .finish → (regionGraph.tgraphNodes c).type = .async →
        (regionGraph.tgraphNodes f).parent = (regionGraph.tgraphNodes c).parent → ¬ f < c := by decide
    exact absurd hlt (h f (Finset.mem_Icc.mpr hfn) c (Finset.mem_Icc.mpr hcn) hf hc hp)
  work_lt := by decide

theorem regionGraph_bounded : regionGraph.RegionsBounded := by
  have h : ∀ n ∈ Finset.Icc 1 10, (regionGraph.tgraphNodes n).tProf.RegionsBounded := by decide
  exact fun n hn => h n (Finset.mem_Icc.mpr hn)

/-- Running region `21` twice as fast takes `3` off the longer task. -/
theorem regionGraph_optimised : ∃ st st' st'',
    calculateRecurse regionGraph (.init regionGraph) = .ok st ∧
    regionPass regionGraph 21 2 st = .ok st' ∧
    calculateRecurse (regionGraph.optimised 21 2) (.init (regionGraph.optimised 21 2)) = .ok st'' ∧
    (st'.tProf 1).criticalChild = (st''.tProf 1).criticalChild := by
  obtain ⟨st, h1, -⟩ := calculateRecurse_span regionGraph_spanGraph
  obtain ⟨st', st'', h2, h3, h4, -⟩ := regionPass_refines regionGraph_spanGraph regionGraph_bounded 21
    (p := 2) (by decide) (.first h1)
  exact ⟨st, st', st'', h1, h2, h3, h4 1 (by decide) (.inr rfl)⟩

end TaskProf.Analysis
