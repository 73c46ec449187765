import TaskProf.Analysis.Account

/-!
# The whole pass on accounts

`Ledger` is the state of the pass in numbers: the accounts of all nodes and
`workSpanMap`. `ledgerAfter G P` is the ledger after the events `P`.

* `calculateRecurseCalls_tracks`: on a graph that is `Runnable`,
  `calculateRecurse` ends without fault, and its state after every scheduled
  prefix has the numbers of the ledger after that prefix. Results about the
  pass are then results about `ledgerAfter`, by induction over the prefixes of
  the schedule (`Shape.prefix_induction`).
-/

namespace TaskProf.Analysis

/-- What the pass needs to run: a well-formed tree below a FINISH head, a child
    below every ASYNC and FINISH node, and call sites that resolve; `t_prof` is
    zero except for the work (and regions) of STEP nodes. -/
structure Runnable (G : AFTaskGraph) : Prop where
  shape : G.shape.WellFormed
  head : (G.tgraphNodes 1).type = .finish
  has_child : ∀ n, G.shape.Node n → (G.tgraphNodes n).type ≠ .step → (G.tgraphNodes n).numChildren ≠ 0
  resolves : ∀ n, G.shape.Node n → (G.tgraphNodes n).type = .finish →
    (G.tgraphNodes n).spRootNWtFlag = true → G.callSiteMap (G.tgraphNodes n).callSite ≠ none
  fresh : ∀ n, (G.tgraphNodes n).Fresh

section Runnable

variable {G : AFTaskGraph}

theorem Runnable.node_parent (h : Runnable G) {n : ℕ} (hn : G.shape.Node n) (h1 : n ≠ 1) :
    G.shape.Node (G.tgraphNodes n).parent := h.shape.parent_node hn h1

theorem Runnable.parent_ne (h : Runnable G) {n : ℕ} (hn : G.shape.Node n) :
    (G.tgraphNodes n).parent ≠ n := by
  by_cases h1 : n = 1
  · subst h1
    have : (G.tgraphNodes 1).parent = 0 := h.shape.root
    omega
  · exact (h.shape.parent_lt n hn h1).ne

/-- The head is not an ASYNC node. -/
theorem Runnable.ne_one_of_async (h : Runnable G) {n : ℕ} (ht : (G.tgraphNodes n).type = .async) :
    n ≠ 1 := by
  rintro rfl
  rw [h.head] at ht
  cases ht

end Runnable

/-- A table is a runnable graph if its shape is well formed, its first row is a
    FINISH node, every other node than a STEP has a row below it, and its call
    sites resolve. -/
theorem runnable_ofRows {rows : List Row} {callSiteMap : SizeT → Option CallSiteData}
    (h : (AFTaskGraph.ofRows rows callSiteMap).shape.WellFormed)
    (hhead : ((AFTaskGraph.ofRows rows callSiteMap).tgraphNodes 1).type = .finish)
    (hnode : ∀ n ∈ Finset.Icc 1 rows.length,
      let node := (AFTaskGraph.ofRows rows callSiteMap).tgraphNodes n
      (node.type ≠ .step → node.numChildren ≠ 0) ∧
        (node.spRootNWtFlag = true → callSiteMap node.callSite ≠ none)) :
    Runnable (AFTaskGraph.ofRows rows callSiteMap) where
  shape := h
  head := hhead
  has_child n hn := (hnode n (Finset.mem_Icc.mpr hn)).1
  resolves n hn _ := (hnode n (Finset.mem_Icc.mpr hn)).2
  fresh := AFTaskGraph.ofRows_fresh rows callSiteMap

/-- `recursiveCall` answers on every node: the walk ends at the head. -/
theorem recursiveCall_ok {G : AFTaskGraph} (h : G.shape.WellFormed) {n : ℕ} (hn : G.shape.Node n) :
    ∃ b, recursiveCall G n = .ok b := by
  have walk : ∀ fuel n cs, G.shape.Node n → n < fuel →
      ∃ b, checkRecursiveCall G fuel n cs = .ok b := by
    intro fuel
    induction fuel with
    | zero => intro n cs _ hf; omega
    | succ fuel ih =>
      intro n cs hn hf
      rw [checkRecursiveCall]
      by_cases h0 : (G.tgraphNodes n).parent = 0
      · exact ⟨false, by simp [h0]⟩
      · have h1 : n ≠ 1 := by rintro rfl; exact h0 h.root
        simp only [h0, if_false]
        split_ifs
        · exact ⟨true, rfl⟩
        · have hlt : (G.tgraphNodes n).parent < n := h.parent_lt n hn h1
          exact ih _ cs (h.parent_node hn h1) (by omega)
  exact walk _ n _ hn (by have : n ≤ G.lastAllocatedNode := hn.2; omega)

/-- Node `n` contributes to `workSpanMap` when it is closed (line 128). -/
def Counted (G : AFTaskGraph) (n : ℕ) : Prop :=
  (G.tgraphNodes n).callSite ≠ 0 ∧ recursiveCall G n = .ok false

instance (G : AFTaskGraph) (n : ℕ) : Decidable (Counted G n) :=
  haveI : Decidable (recursiveCall G n = .ok false) :=
    match recursiveCall G n with
    | .ok false => isTrue rfl
    | .ok true => isFalse (by simp)
    | .error _ => isFalse (by simp)
  inferInstanceAs (Decidable (_ ∧ _))

/-- The pass state in numbers. -/
structure Ledger where
  accounts : ℕ → Account
  workSpanMap : AccMap SizeT WorkSpanData

/-- The ledger before the first event. -/
def Ledger.init (G : AFTaskGraph) : Ledger :=
  ⟨fun i => (G.tgraphNodes i).tProf.account 0, .empty⟩

/-- One event of the pass on the ledger. -/
def ledgerEvent (G : AFTaskGraph) (L : Ledger) : Event → Ledger
  | .visit n => { L with accounts := openAccount G L.accounts n }
  | .finalise n =>
    let a := closeAccount G L.accounts n
    let wsdata : WorkSpanData := ⟨(a n).work, (a n).criticalChild, 1⟩
    { accounts := a
      workSpanMap :=
        if Counted G n then L.workSpanMap.add (G.tgraphNodes n).callSite wsdata
        else L.workSpanMap }

/-- The ledger after the events `P`. -/
def ledgerAfter (G : AFTaskGraph) (P : List Event) : Ledger := P.foldl (ledgerEvent G) (.init G)

theorem ledgerAfter_append (G : AFTaskGraph) (P : List Event) (e : Event) :
    ledgerAfter G (P ++ [e]) = ledgerEvent G (ledgerAfter G P) e := by
  simp [ledgerAfter, List.foldl_append]

/-- The nodes that have been visited and not yet closed. -/
def OpenAfter (P : List Event) (n : ℕ) : Prop := .visit n ∈ P ∧ .finalise n ∉ P

/-- The profile `st` has the numbers of the ledger after `P`. -/
structure TracksLedger (G : AFTaskGraph) (P : List Event) (st : Profile) : Prop where
  tracks : Tracks (OpenAfter P) (ledgerAfter G P).accounts st
  workSpanMap : st.workSpanMap = (ledgerAfter G P).workSpanMap

theorem TracksLedger.init {G : AFTaskGraph} (h : Runnable G) : TracksLedger G [] (.init G) := by
  refine ⟨(Tracks.init G fun i => ?_).mono fun i hi => by simp [OpenAfter] at hi, rfl⟩
  rw [h.fresh i]; rfl

/-- One event keeps the profile and the ledger in step. -/
theorem TracksLedger.perform {G : AFTaskGraph} (h : Runnable G) {P : List Event} {e : Event}
    (hP : P ++ [e] <+: G.shape.schedule) {st : Profile} (ht : TracksLedger G P st) :
    ∃ st', (passActions G).perform st e = .ok st' ∧ TracksLedger G (P ++ [e]) st' := by
  have hw := h.shape
  cases e with
  | visit n =>
    obtain ⟨h1, h2⟩ := ht.tracks.openNode G n
    refine ⟨openNode G st n, rfl, ?_, ?_⟩
    · rw [ledgerAfter_append]
      refine h2.mono fun i hi => ?_
      simp only [OpenAfter, List.mem_append, List.mem_singleton, Event.visit.injEq, reduceCtorEq,
        or_false] at hi ⊢
      tauto
    · rw [ledgerAfter_append, h1, ht.workSpanMap]; rfl
  | finalise n =>
    have hn : G.shape.Node n := (Shape.mem_schedule hw).mp (Shape.mem_schedule_of_prefix_append hP)
    have hne := h.parent_ne hn
    have hopen : ∀ x, G.shape.Node x → G.shape.arity x ≠ 0 → x ≤ G.shape.last n →
        Event.finalise x ∉ P → OpenAfter P x := fun x hx ha hl hf =>
      ⟨(Shape.visited_before_finalise hw hP).mpr ⟨hx, ha, hl⟩, hf⟩
    have hself := Shape.not_mem_prefix_self hw hP
    obtain ⟨st₁, h1, h2, h3⟩ := ht.tracks.calculateWorkSpan (G := G) (n := n) hne
      (fun hty => hopen n hn (h.has_child n hn (by rcases hty with e | e <;> rw [e] <;> simp))
        (Shape.le_last hw n) hself)
      (fun hp => by
        have h1 : n ≠ 1 := by rintro rfl; exact hp hw.root
        have hpn := hw.parent_node hn h1
        have hc : n ∈ G.shape.children (G.shape.parent n) := Shape.mem_children.mpr ⟨hn, rfl⟩
        have hlt := (hw.lt_of_mem_children hc).1
        refine hopen (G.shape.parent n) hpn ?_ (hlt.le.trans (Shape.le_last hw n))
          (Shape.parent_not_finalised hw hP (.inr rfl))
        rw [ne_eq, Shape.arity_eq_zero_iff hw hpn, ← ne_eq, ← Finset.nonempty_iff_ne_empty]
        exact ⟨n, hc⟩)
      (fun hty => Nat.one_le_iff_ne_zero.mp (h.node_parent hn (h.ne_one_of_async hty)).1)
      (h.resolves n hn)
    obtain ⟨b, hb⟩ := recursiveCall_ok hw hn
    set cs := (G.tgraphNodes n).callSite with hcs
    have htr : Tracks (OpenAfter (P ++ [.finalise n]))
        (closeAccount G (ledgerAfter G P).accounts n) st₁ := by
      refine h3.mono fun i hi => ?_
      simp only [OpenAfter, List.mem_append, List.mem_singleton, reduceCtorEq, or_false,
        Event.finalise.injEq, not_or] at hi ⊢
      tauto
    have hws : (⟨(st₁.tProf n).work, (st₁.tProf n).criticalChild, 1⟩ : WorkSpanData) =
        ⟨(closeAccount G (ledgerAfter G P).accounts n n).work,
          (closeAccount G (ledgerAfter G P).accounts n n).criticalChild, 1⟩ := by
      rw [htr.work, htr.criticalChild]
    simp only [Actions.perform, passActions, bind, Except.bind, h1, updateWorkSpanMap, ← hcs, hb]
    by_cases hc : Counted G n
    · have h4 : cs ≠ 0 := hc.1
      have h5 : b = false := by have := hc.2; rw [hb] at this; simpa using this
      simp only [ne_eq, h4, not_false_eq_true, if_true, h5, Bool.false_eq_true, if_false]
      refine ⟨_, rfl, ⟨?_, ?_, ?_⟩, ?_⟩
      · exact htr.owned
      · exact htr.held
      · rw [ledgerAfter_append]; exact htr.account
      · rw [ledgerAfter_append]
        simp only [ledgerEvent, if_pos hc, h2, ht.workSpanMap, ← hcs, hws]
    · have h4 : cs = 0 ∨ b = true := by
        rcases eq_or_ne cs 0 with h4 | h4
        · exact .inl h4
        · cases b with
          | true => exact .inr rfl
          | false => exact absurd ⟨h4, hb⟩ hc
      refine ⟨st₁, ?_, ?_, ?_⟩
      · rcases h4 with h4 | h4 <;> simp [h4]
      · rw [ledgerAfter_append]; exact htr
      · rw [ledgerAfter_append]
        simp only [ledgerEvent, if_neg hc, h2, ht.workSpanMap]

/-- What the record of the calls says once the events `P` have happened: it
    lists the closed nodes, each with the states that the ledgers before and
    after its event describe. -/
structure RecordsCalls (G : AFTaskGraph) (P : List Event)
    (calls : List (ℕ × Profile × Profile)) : Prop where
  sound : ∀ c ∈ calls, ∃ P', P' ++ [.finalise c.1] <+: P ∧ TracksLedger G P' c.2.1 ∧
    TracksLedger G (P' ++ [.finalise c.1]) c.2.2
  complete : ∀ P' n, P' ++ [.finalise n] <+: P → ∃ c ∈ calls, c.1 = n ∧ TracksLedger G P' c.2.1 ∧
    TracksLedger G (P' ++ [.finalise n]) c.2.2

theorem RecordsCalls.visit {G : AFTaskGraph} {P : List Event}
    {calls : List (ℕ × Profile × Profile)} (h : RecordsCalls G P calls) (n : ℕ) :
    RecordsCalls G (P ++ [.visit n]) calls := by
  refine ⟨fun c hc => ?_, fun P' m hP' => ?_⟩
  · obtain ⟨P', h1, h2⟩ := h.sound c hc
    exact ⟨P', h1.trans (List.prefix_append _ _), h2⟩
  · rcases List.prefix_concat_iff.mp hP' with he | he
    · have := List.append_inj_right' he rfl
      simp at this
    · exact h.complete P' m he

theorem RecordsCalls.finalise {G : AFTaskGraph} {P : List Event}
    {calls : List (ℕ × Profile × Profile)} (h : RecordsCalls G P calls) {n : ℕ} {st st' : Profile}
    (ht : TracksLedger G P st) (ht' : TracksLedger G (P ++ [.finalise n]) st') :
    RecordsCalls G (P ++ [.finalise n]) (calls ++ [(n, st, st')]) := by
  refine ⟨fun c hc => ?_, fun P' m hP' => ?_⟩
  · rcases List.mem_append.mp hc with hc | hc
    · obtain ⟨P', h1, h2⟩ := h.sound c hc
      exact ⟨P', h1.trans (List.prefix_append _ _), h2⟩
    · rw [List.mem_singleton] at hc
      subst hc
      exact ⟨P, List.prefix_rfl, ht, ht'⟩
  · rcases List.prefix_concat_iff.mp hP' with he | he
    · have h1 := List.append_inj_left' he rfl
      have h2 := List.append_inj_right' he rfl
      simp only [List.cons.injEq, Event.finalise.injEq, and_true] at h2
      subst h1 h2
      exact ⟨(m, st, st'), by simp, rfl, ht, ht'⟩
    · obtain ⟨c, hc, h1⟩ := h.complete P' m he
      exact ⟨c, List.mem_append_left _ hc, h1⟩

/-- **The pass runs and computes the ledger.** On a runnable graph
    `calculateRecurse` returns; its result has the numbers of the ledger after
    the whole schedule, and its calls of `calculateWorkSpan` are exactly the
    scheduled ones, each from a state with the numbers of the ledger before
    it. -/
theorem calculateRecurseCalls_tracks {G : AFTaskGraph} (h : Runnable G) :
    ∃ st calls, calculateRecurseCalls G (.init G) = .ok (st, calls) ∧
      calculateRecurse G (.init G) = .ok st ∧ TracksLedger G G.shape.schedule st ∧
      RecordsCalls G G.shape.schedule calls := by
  have h0 : RecordsCalls G [] [] := ⟨by simp, fun P' n hP' => by simp at hP'⟩
  obtain ⟨⟨st, calls⟩, h1, h2, h3⟩ := Shape.sweep_run h.shape (passActions G).record
    (fun P s => TracksLedger G P s.1 ∧ RecordsCalls G P s.2)
    (Profile.init G, []) ⟨.init h, h0⟩ (by
      rintro P e ⟨st, calls⟩ hP ⟨ht, hr⟩
      obtain ⟨st', h1, h2⟩ := ht.perform h hP
      cases e with
      | visit n =>
        simp only [Actions.perform] at h1
        refine ⟨(st', calls), ?_, h2, hr.visit n⟩
        simp [Actions.perform, Actions.record, h1, Functor.map, Except.map]
      | finalise n =>
        simp only [Actions.perform] at h1
        refine ⟨(st', calls ++ [(n, st, st')]), ?_, h2, hr.finalise ht h2⟩
        simp [Actions.perform, Actions.record, h1, Functor.map, Except.map])
  refine ⟨st, calls, h1, ?_, h2, h3⟩
  rw [calculateRecurse, ← Shape.sweep_record h.shape (passActions G) (.init G) [], h1]
  rfl

end TaskProf.Analysis
