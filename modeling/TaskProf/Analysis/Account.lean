import TaskProf.Analysis.Profiler

/-!
# The pass without its heap

`Account` is what `t_prof` of one node amounts to in numbers: its five `size_t`
fields, and the sum of the map that `critical_call_sites` points to.
`openAccount` and `closeAccount` are the effect of `openNode` and
`calculateWorkSpan` on the accounts of all nodes; they are total and know no
pointers.

`Tracks held a st` relates a profile to the accounts `a`: every non-null
`critical_call_sites` refers to a live map of its own, the nodes in `held` have
one, and the numbers agree. Results:

* `Tracks.openNode`, `Tracks.calculateWorkSpan`: the heap operations simulate
  the account operations, and do not fault.
-/

namespace TaskProf.Analysis

/-- The numbers in `t_prof`; `sites` is the sum of the values in the map behind
    `critical_call_sites` (`0` for `NULL`). -/
structure Account where
  work : SizeT
  localWork : SizeT
  criticalChild : SizeT
  parentWork : SizeT
  localLocalWork : SizeT
  sites : SizeT

/-- The numbers of `d`, whose map sums to `sites`. -/
def ProfilerData.account (d : ProfilerData) (sites : SizeT) : Account :=
  ⟨d.work, d.localWork, d.criticalChild, d.parentWork, d.localLocalWork, sites⟩

/-- The sum of the map a pointer refers to. -/
def Profile.sitesAt (st : Profile) (ptr : Option ℕ) : SizeT :=
  match st.maps.get? ptr with
  | none => 0
  | some m => m.total

/-- The account of node `i`. -/
def Profile.account (st : Profile) (i : ℕ) : Account :=
  (st.tProf i).account (st.sitesAt (st.tProf i).criticalCallSites)

/-- `critical_call_sites` of node `i`. -/
def Profile.ptr (st : Profile) (i : ℕ) : Option ℕ := (st.tProf i).criticalCallSites

/-! ## The account operations -/

/-- `openNode` on accounts. -/
def openAccount (G : AFTaskGraph) (a : ℕ → Account) (n : ℕ) : ℕ → Account :=
  let node := G.tgraphNodes n
  Function.update a n
    { a n with
      sites := 0
      parentWork := if node.type = .async then (a node.parent).localWork else (a n).parentWork }

/-- The span of an ASYNC or FINISH node with account `x`. -/
def Account.spanOf (x : Account) : SizeT :=
  if x.criticalChild ≤ x.localWork then x.localWork else x.criticalChild

/-- What `finishCallSites` leaves in the map of a FINISH node `n` with account
    `x`, as a sum. -/
def closedSites (G : AFTaskGraph) (n : ℕ) (x : Account) : SizeT :=
  let node := G.tgraphNodes n
  if x.criticalChild ≤ x.localWork then
    if node.spRootNWtFlag = true then
      match G.callSiteMap node.callSite with
      | some d => if d.parFor = true then x.localWork else x.sites + x.localLocalWork
      | none => x.sites
    else if node.parent ≠ 0 then 0 else x.sites
  else x.sites

/-- What `finishCallSites` adds to `local_local_work` of the parent. -/
def passedUp (G : AFTaskGraph) (n : ℕ) (x : Account) : SizeT :=
  let node := G.tgraphNodes n
  if x.criticalChild ≤ x.localWork then
    if node.spRootNWtFlag = true then 0
    else if node.parent ≠ 0 then x.localLocalWork else 0
  else x.criticalChild - x.sites

/-- `calculateWorkSpan` on accounts. -/
def closeAccount (G : AFTaskGraph) (a : ℕ → Account) (n : ℕ) : ℕ → Account :=
  let node := G.tgraphNodes n
  let p := node.parent
  let x := a n
  let d := a p
  match node.type with
  | .step =>
    Function.update a p
      { d with
        work := d.work + x.work
        localWork := d.localWork + x.work
        localLocalWork := d.localLocalWork + x.work }
  | .async =>
    let s := x.sites + x.localLocalWork
    if d.criticalChild < x.spanOf + x.parentWork then
      Function.update
        (Function.update a n { x with criticalChild := x.spanOf, sites := 0 }) p
        { d with work := d.work + x.work, criticalChild := x.spanOf + x.parentWork, sites := s }
    else
      Function.update
        (Function.update a n { x with criticalChild := x.spanOf, sites := s }) p
        { d with work := d.work + x.work }
  | .finish =>
    let s := closedSites G n x
    Function.update
      (Function.update a n { x with criticalChild := x.spanOf, sites := s }) p
      { d with
        work := d.work + x.work
        localWork := d.localWork + x.spanOf
        localLocalWork := d.localLocalWork + passedUp G n x
        sites := if p ≠ 0 then d.sites + s else d.sites }
  | .noType => a

/-! ## One field at a time -/

section Fields

variable (G : AFTaskGraph) (a : ℕ → Account) {n : ℕ}

theorem openAccount_of_ne {q : ℕ} (hq : q ≠ n) : openAccount G a n q = a q := by
  simp [openAccount, hq]

@[simp] theorem openAccount_work (q : ℕ) : (openAccount G a n q).work = (a q).work := by
  by_cases hq : q = n
  · subst hq; simp [openAccount]
  · rw [openAccount_of_ne G a hq]

@[simp] theorem openAccount_localWork (q : ℕ) :
    (openAccount G a n q).localWork = (a q).localWork := by
  by_cases hq : q = n
  · subst hq; simp [openAccount]
  · rw [openAccount_of_ne G a hq]

@[simp] theorem openAccount_criticalChild (q : ℕ) :
    (openAccount G a n q).criticalChild = (a q).criticalChild := by
  by_cases hq : q = n
  · subst hq; simp [openAccount]
  · rw [openAccount_of_ne G a hq]

@[simp] theorem openAccount_localLocalWork (q : ℕ) :
    (openAccount G a n q).localLocalWork = (a q).localLocalWork := by
  by_cases hq : q = n
  · subst hq; simp [openAccount]
  · rw [openAccount_of_ne G a hq]

theorem openAccount_sites_self : (openAccount G a n n).sites = 0 := by simp [openAccount]

theorem openAccount_parentWork_async (ht : (G.tgraphNodes n).type = .async) :
    (openAccount G a n n).parentWork = (a (G.tgraphNodes n).parent).localWork := by
  simp [openAccount, ht]

/-- `calculateWorkSpan` writes to the node and to its parent. -/
theorem closeAccount_of_ne {q : ℕ} (hn : q ≠ n) (hp : q ≠ (G.tgraphNodes n).parent) :
    closeAccount G a n q = a q := by
  cases ht : (G.tgraphNodes n).type with
  | noType => simp only [closeAccount, ht]
  | async => simp only [closeAccount, ht]; split_ifs <;> simp [hn, hp]
  | finish => simp only [closeAccount, ht]; simp [hn, hp]
  | step => simp only [closeAccount, ht]; simp [hp]

theorem closeAccount_work_self (hne : (G.tgraphNodes n).parent ≠ n) :
    (closeAccount G a n n).work = (a n).work := by
  cases ht : (G.tgraphNodes n).type with
  | noType => simp only [closeAccount, ht]
  | async => simp only [closeAccount, ht]; split_ifs <;> simp [hne.symm]
  | finish => simp only [closeAccount, ht]; simp [hne.symm]
  | step => simp only [closeAccount, ht]; simp [hne.symm]

theorem closeAccount_work_parent :
    (closeAccount G a n (G.tgraphNodes n).parent).work = (a (G.tgraphNodes n).parent).work +
      if (G.tgraphNodes n).type = .noType then 0 else (a n).work := by
  cases ht : (G.tgraphNodes n).type with
  | noType => simp [closeAccount, ht]
  | async => simp only [closeAccount, ht]; split_ifs <;> simp_all
  | finish => simp [closeAccount, ht]
  | step => simp [closeAccount, ht]

/-- The amount that closing a node with account `x` adds to `local_work` of its
    parent. -/
def Account.serial (x : Account) : NodeType → SizeT
  | .step => x.work
  | .finish => x.spanOf
  | _ => 0

theorem closeAccount_localWork_self (hne : (G.tgraphNodes n).parent ≠ n) :
    (closeAccount G a n n).localWork = (a n).localWork := by
  cases ht : (G.tgraphNodes n).type with
  | noType => simp only [closeAccount, ht]
  | async => simp only [closeAccount, ht]; split_ifs <;> simp [hne.symm]
  | finish => simp only [closeAccount, ht]; simp [hne.symm]
  | step => simp only [closeAccount, ht]; simp [hne.symm]

theorem closeAccount_localWork_parent :
    (closeAccount G a n (G.tgraphNodes n).parent).localWork =
      (a (G.tgraphNodes n).parent).localWork + (a n).serial (G.tgraphNodes n).type := by
  cases ht : (G.tgraphNodes n).type with
  | noType => simp [closeAccount, ht, Account.serial]
  | async => simp only [closeAccount, ht, Account.serial]; split_ifs <;> simp
  | finish => simp [closeAccount, ht, Account.serial]
  | step => simp [closeAccount, ht, Account.serial]

theorem closeAccount_parentWork (q : ℕ) :
    (closeAccount G a n q).parentWork = (a q).parentWork := by
  by_cases hp : q = (G.tgraphNodes n).parent
  · subst hp
    cases ht : (G.tgraphNodes n).type with
    | async => simp only [closeAccount, ht]; split_ifs <;> simp
    | _ => simp [closeAccount, ht]
  · by_cases hn : q = n
    · subst hn
      cases ht : (G.tgraphNodes q).type with
      | async => simp only [closeAccount, ht]; split_ifs <;> simp [hp]
      | _ => simp [closeAccount, ht, hp]
    · rw [closeAccount_of_ne G a hn hp]

/-- Closing an ASYNC or FINISH node settles its span. -/
theorem closeAccount_criticalChild_self (hne : (G.tgraphNodes n).parent ≠ n)
    (ht : (G.tgraphNodes n).type = .async ∨ (G.tgraphNodes n).type = .finish) :
    (closeAccount G a n n).criticalChild = (a n).spanOf := by
  rcases ht with ht | ht <;> simp only [closeAccount, ht]
  · split_ifs <;> simp [hne.symm]
  · simp [hne.symm]

/-- `critical_child` of the parent is replaced by a longer path through an
    ASYNC node, and by nothing else. -/
theorem closeAccount_criticalChild_parent :
    (closeAccount G a n (G.tgraphNodes n).parent).criticalChild =
      if (G.tgraphNodes n).type = .async ∧
          (a (G.tgraphNodes n).parent).criticalChild < (a n).spanOf + (a n).parentWork then
        (a n).spanOf + (a n).parentWork
      else (a (G.tgraphNodes n).parent).criticalChild := by
  cases ht : (G.tgraphNodes n).type with
  | async => simp only [closeAccount, ht, true_and]; split_ifs <;> simp
  | _ => simp [closeAccount, ht]

theorem closeAccount_localLocalWork_self (hne : (G.tgraphNodes n).parent ≠ n) :
    (closeAccount G a n n).localLocalWork = (a n).localLocalWork := by
  cases ht : (G.tgraphNodes n).type with
  | noType => simp only [closeAccount, ht]
  | async => simp only [closeAccount, ht]; split_ifs <;> simp [hne.symm]
  | finish => simp only [closeAccount, ht]; simp [hne.symm]
  | step => simp only [closeAccount, ht]; simp [hne.symm]

/-- The amount that closing node `n` with account `x` adds to
    `local_local_work` of its parent. -/
def Account.charged (x : Account) (G : AFTaskGraph) (n : ℕ) : SizeT :=
  match (G.tgraphNodes n).type with
  | .step => x.work
  | .finish => passedUp G n x
  | _ => 0

theorem closeAccount_localLocalWork_parent :
    (closeAccount G a n (G.tgraphNodes n).parent).localLocalWork =
      (a (G.tgraphNodes n).parent).localLocalWork + (a n).charged G n := by
  cases ht : (G.tgraphNodes n).type with
  | noType => simp [closeAccount, ht, Account.charged]
  | async => simp only [closeAccount, ht, Account.charged]; split_ifs <;> simp
  | finish => simp [closeAccount, ht, Account.charged]
  | step => simp [closeAccount, ht, Account.charged]

theorem closeAccount_sites_self_finish (hne : (G.tgraphNodes n).parent ≠ n)
    (ht : (G.tgraphNodes n).type = .finish) :
    (closeAccount G a n n).sites = closedSites G n (a n) := by
  simp only [closeAccount, ht]; simp [hne.symm]

/-- The map of the parent is replaced by the map of a longer ASYNC child, and
    collects the map of a FINISH child. -/
theorem closeAccount_sites_parent :
    (closeAccount G a n (G.tgraphNodes n).parent).sites =
      match (G.tgraphNodes n).type with
      | .async =>
        if (a (G.tgraphNodes n).parent).criticalChild < (a n).spanOf + (a n).parentWork then
          (a n).sites + (a n).localLocalWork
        else (a (G.tgraphNodes n).parent).sites
      | .finish =>
        if (G.tgraphNodes n).parent ≠ 0 then
          (a (G.tgraphNodes n).parent).sites + closedSites G n (a n)
        else (a (G.tgraphNodes n).parent).sites
      | _ => (a (G.tgraphNodes n).parent).sites := by
  cases ht : (G.tgraphNodes n).type with
  | async => simp only [closeAccount, ht]; split_ifs <;> simp
  | _ => simp [closeAccount, ht]

end Fields

/-! ## Tracking -/

/-- The profile `st` has the accounts `a`, owns its maps, and the nodes in
    `held` have one. -/
structure Tracks (held : ℕ → Prop) (a : ℕ → Account) (st : Profile) : Prop where
  owned : st.maps.Owned st.ptr
  held : ∀ i, held i → st.ptr i ≠ none
  account : st.account = a

theorem Tracks.init (G : AFTaskGraph) (h : ∀ i, (G.tgraphNodes i).tProf.criticalCallSites = none) :
    Tracks (fun _ => False) (fun i => (G.tgraphNodes i).tProf.account 0) (.init G) := by
  refine ⟨?_, fun _ hi => hi.elim, ?_⟩
  · have : (Profile.init G).ptr = fun _ => none := funext h
    rw [this]
    exact Store.owned_empty
  · funext i
    simp [Profile.account, Profile.init, Profile.sitesAt, h]

variable {held : ℕ → Prop} {a : ℕ → Account} {st : Profile}

theorem Tracks.mono (h : Tracks held a st) {q : ℕ → Prop} (hh : ∀ i, q i → held i) :
    Tracks q a st := ⟨h.owned, fun i hi => h.held i (hh i hi), h.account⟩

@[simp] theorem ptr_modify_eq (st : Profile) (i : ℕ) {f : ProfilerData → ProfilerData}
    (hf : ∀ d, (f d).criticalCallSites = d.criticalCallSites) : (st.modify i f).ptr = st.ptr := by
  funext j
  by_cases hj : j = i
  · subst hj; simp [Profile.ptr, hf]
  · simp [Profile.ptr, Profile.modify_of_ne st hj]

/-- Changing a number of node `i` changes its account and nothing else. -/
theorem Tracks.modify (h : Tracks held a st) (i : ℕ) {f : ProfilerData → ProfilerData}
    (hf : ∀ d, (f d).criticalCallSites = d.criticalCallSites) :
    Tracks held (Function.update a i ((f (st.tProf i)).account (a i).sites)) (st.modify i f) := by
  refine ⟨?_, ?_, ?_⟩
  · rw [ptr_modify_eq st i hf]; exact h.owned
  · rw [ptr_modify_eq st i hf]; exact h.held
  · rw [← h.account]
    funext j
    by_cases hj : j = i
    · subst hj
      simp [Profile.account, Profile.sitesAt, hf, ProfilerData.account]
    · rw [Function.update_of_ne hj]
      simp [Profile.account, Profile.sitesAt, Profile.modify_of_ne st hj]

theorem Tracks.ptr_eq_some (h : Tracks held a st) {i : ℕ} (hi : st.ptr i ≠ none) :
    ∃ p m, st.ptr i = some p ∧ st.maps.cells p = some m ∧ (a i).sites = m.total := by
  obtain ⟨p, m, hp, hm⟩ := h.owned.get?_eq_some hi
  refine ⟨p, m, hp, hm, ?_⟩
  rw [← h.account]
  simp only [Profile.ptr] at hp
  simp [Profile.account, ProfilerData.account, Profile.sitesAt, hp, hm]

/-- Replacing the map of node `i`. -/
theorem Tracks.writeMap (h : Tracks held a st) {i p : ℕ} (hp : st.ptr i = some p)
    (m : CallSiteWork) :
    Tracks held (Function.update a i { a i with sites := m.total })
      { st with maps := { st.maps with cells := Function.update st.maps.cells p (some m) } } := by
  refine ⟨h.owned.write p m, h.held, ?_⟩
  rw [← h.account]
  funext j
  by_cases hj : j = i
  · subst hj
    simp only [Profile.ptr] at hp
    simp [Profile.account, ProfilerData.account, Profile.sitesAt, hp]
  · rw [Function.update_of_ne hj]
    have hne : (st.tProf j).criticalCallSites ≠ some p := fun he =>
      hj (h.owned.inj j i p he hp)
    cases hq : (st.tProf j).criticalCallSites with
    | none => simp [Profile.account, Profile.sitesAt, hq]
    | some q =>
      have : q ≠ p := fun he => hne (by rw [hq, he])
      simp [Profile.account, Profile.sitesAt, hq, Function.update_of_ne this]

/-- `insert_cs_data` on the map of node `i` adds to its sum. -/
theorem Tracks.insertCsData (h : Tracks held a st) {i : ℕ} (hi : st.ptr i ≠ none)
    (callSite w : SizeT) :
    ∃ st', insertCsData st (st.ptr i) callSite w = .ok st' ∧ st'.tProf = st.tProf ∧
      st'.workSpanMap = st.workSpanMap ∧
      Tracks held (Function.update a i { a i with sites := (a i).sites + w }) st' := by
  obtain ⟨p, m, hp, hm, hs⟩ := h.ptr_eq_some hi
  have hget : st.maps.get? (st.ptr i) = some m := by rw [hp]; exact hm
  refine ⟨{ st with maps := { st.maps with
    cells := Function.update st.maps.cells p (some (m.add callSite w)) } }, ?_, rfl, rfl, ?_⟩
  · rw [Analysis.insertCsData, Store.read_eq hget, hp]
    simp only [bind, Except.bind, Store.write_eq hm]
  · have := h.writeMap hp (m.add callSite w)
    rwa [AccMap.total_add, ← hs] at this

/-- `merge_critical_call_sites` adds the sum of the source to the sum of the
    destination. -/
theorem Tracks.mergeCriticalCallSites (h : Tracks held a st) {i : ℕ} (hi : st.ptr i ≠ none)
    (j : ℕ) :
    ∃ st', mergeCriticalCallSites st (st.ptr j) (st.ptr i) = .ok st' ∧ st'.tProf = st.tProf ∧
      st'.workSpanMap = st.workSpanMap ∧
      Tracks held (Function.update a i { a i with sites := (a i).sites + (a j).sites }) st' := by
  have fold : ∀ (l : List (SizeT × SizeT)) (a : ℕ → Account) (st₁ : Profile),
      st₁.tProf = st.tProf → Tracks held a st₁ →
      ∃ st', l.foldlM (fun st e => Analysis.insertCsData st (st₁.ptr i) e.1 e.2) st₁ = .ok st' ∧
        st'.tProf = st₁.tProf ∧ st'.workSpanMap = st₁.workSpanMap ∧
        Tracks held (Function.update a i
          { a i with sites := (a i).sites + (l.map Prod.snd).sum }) st' := by
    intro l
    induction l with
    | nil =>
      intro a st₁ _ ht
      refine ⟨st₁, rfl, rfl, rfl, ?_⟩
      have : Function.update a i { a i with sites := (a i).sites + 0 } = a := by simp
      rw [List.map_nil, List.sum_nil, this]
      exact ht
    | cons e l ih =>
      intro a st₁ he ht
      have hi₁ : st₁.ptr i ≠ none := by rwa [Profile.ptr, he]
      obtain ⟨st₂, h1, h2, h3, ht₂⟩ := ht.insertCsData hi₁ e.1 e.2
      obtain ⟨st', h4, h5, h6, ht'⟩ := ih _ st₂ (h2.trans he) ht₂
      refine ⟨st', ?_, h5.trans h2, h6.trans h3, ?_⟩
      · rw [List.foldlM_cons, h1]
        have : st₂.ptr i = st₁.ptr i := by rw [Profile.ptr, Profile.ptr, h2]
        rw [this] at h4
        exact h4
      · simpa [add_assoc] using ht'
  cases hj : st.ptr j with
  | none =>
    refine ⟨st, rfl, rfl, rfl, ?_⟩
    have hz : (a j).sites = 0 := by
      rw [← h.account]
      simp only [Profile.ptr] at hj
      simp [Profile.account, ProfilerData.account, Profile.sitesAt, hj]
    have : Function.update a i { a i with sites := (a i).sites + 0 } = a := by simp
    rw [hz, this]
    exact h
  | some q =>
    obtain ⟨p, m, hp, hm, hs⟩ := h.ptr_eq_some (i := j) (by rw [hj]; simp)
    rw [hj, Option.some.injEq] at hp
    subst hp
    obtain ⟨st', h1, h2, h3, ht⟩ := fold m.entries a st rfl h
    refine ⟨st', ?_, h2, h3, ?_⟩
    · have hr : st.maps.read (some q) = .ok m := Store.read_eq (by simpa using hm)
      simp only [Analysis.mergeCriticalCallSites, hr, bind, Except.bind]
      exact h1
    · rw [hs]
      exact ht

/-- `delete` of the map of node `i`, and `NULL` in its place. -/
theorem Tracks.dropMap (h : Tracks held a st) {i p : ℕ} (hp : st.ptr i = some p) :
    Tracks (fun j => held j ∧ j ≠ i) (Function.update a i { a i with sites := 0 })
      (Profile.modify
        { st with maps := { st.maps with cells := Function.update st.maps.cells p none } } i
        fun d => { d with criticalCallSites := none }) := by
  have hptr : (Profile.modify
      { st with maps := { st.maps with cells := Function.update st.maps.cells p none } } i
      fun d => { d with criticalCallSites := none }).ptr = Function.update st.ptr i none := by
    funext j
    by_cases hj : j = i
    · subst hj; simp [Profile.ptr]
    · simp [Profile.ptr, Profile.modify_of_ne _ hj, Function.update_of_ne hj]
  refine ⟨?_, ?_, ?_⟩
  · rw [hptr]; exact h.owned.free hp
  · rintro j ⟨hj, hji⟩
    rw [hptr, Function.update_of_ne hji]
    exact h.held j hj
  · rw [← h.account]
    funext j
    by_cases hj : j = i
    · subst hj; simp [Profile.account, ProfilerData.account, Profile.sitesAt]
    · rw [Function.update_of_ne hj]
      have hne : (st.tProf j).criticalCallSites ≠ some p := fun he =>
        hj (h.owned.inj j i p he hp)
      cases hq : (st.tProf j).criticalCallSites with
      | none => simp [Profile.account, Profile.sitesAt, Profile.modify_of_ne _ hj, hq]
      | some q =>
        have : q ≠ p := fun he => hne (by rw [hq, he])
        simp [Profile.account, Profile.sitesAt, Profile.modify_of_ne _ hj, hq,
          Function.update_of_ne this]

/-- The map of node `i` moves to node `j`, whose own map is gone. -/
theorem Tracks.moveMap (h : Tracks held a st) {i j : ℕ} (hij : i ≠ j) (hj : st.ptr j = none)
    (hi : st.ptr i ≠ none) :
    Tracks (fun k => (held k ∨ k = j) ∧ k ≠ i)
      (Function.update (Function.update a i { a i with sites := 0 }) j
        { a j with sites := (a i).sites })
      ((st.modify j fun d => { d with criticalCallSites := st.ptr i }).modify i
        fun d => { d with criticalCallSites := none }) := by
  have hptr : ((st.modify j fun d => { d with criticalCallSites := st.ptr i }).modify i
      fun d => { d with criticalCallSites := none }).ptr =
        Function.update (Function.update st.ptr j (st.ptr i)) i none := by
    funext k
    by_cases hk : k = i
    · subst hk; simp [Profile.ptr]
    · by_cases hkj : k = j
      · subst hkj; simp [Profile.ptr, Profile.modify_of_ne _ hk, hk]
      · simp [Profile.ptr, Profile.modify_of_ne _ hk, Profile.modify_of_ne _ hkj, hk, hkj]
  refine ⟨?_, ?_, ?_⟩
  · rw [hptr]; exact h.owned.move hij
  · rintro k ⟨hk, hki⟩
    rw [hptr, Function.update_of_ne hki]
    by_cases hkj : k = j
    · subst hkj; simpa using hi
    · rw [Function.update_of_ne hkj]
      exact h.held k (hk.resolve_right hkj)
  · rw [← h.account]
    funext k
    by_cases hk : k = i
    · subst hk
      rw [Function.update_of_ne hij]
      simp [Profile.account, ProfilerData.account, Profile.sitesAt, Profile.modify_of_ne _ hij]
    · by_cases hkj : k = j
      · subst hkj
        simp [Profile.account, ProfilerData.account, Profile.sitesAt, Profile.modify_of_ne _ hk,
          Profile.ptr]
      · rw [Function.update_of_ne hkj, Function.update_of_ne hk]
        simp [Profile.account, Profile.sitesAt, Profile.modify_of_ne _ hk,
          Profile.modify_of_ne _ hkj]

/-! ## The pass operations -/

/-- Each account is the numbers of its node. -/
theorem Tracks.eq (h : Tracks held a st) (i : ℕ) : a i = (st.tProf i).account (a i).sites := by
  rw [← h.account]; rfl

theorem Tracks.work (h : Tracks held a st) (i : ℕ) : (st.tProf i).work = (a i).work := by
  rw [h.eq i]; rfl

theorem Tracks.localWork (h : Tracks held a st) (i : ℕ) :
    (st.tProf i).localWork = (a i).localWork := by
  rw [h.eq i]; rfl

theorem Tracks.criticalChild (h : Tracks held a st) (i : ℕ) :
    (st.tProf i).criticalChild = (a i).criticalChild := by
  rw [h.eq i]; rfl

theorem Tracks.parentWork (h : Tracks held a st) (i : ℕ) :
    (st.tProf i).parentWork = (a i).parentWork := by
  rw [h.eq i]; rfl

theorem Tracks.localLocalWork (h : Tracks held a st) (i : ℕ) :
    (st.tProf i).localLocalWork = (a i).localLocalWork := by
  rw [h.eq i]; rfl

/-- `openNode` gives node `n` a map of its own. -/
theorem Tracks.openNode (h : Tracks held a st) (G : AFTaskGraph) (n : ℕ) :
    (openNode G st n).workSpanMap = st.workSpanMap ∧
      Tracks (fun i => held i ∨ i = n) (openAccount G a n) (openNode G st n) := by
  set st₁ : Profile := Profile.modify { st with maps := (st.maps.alloc .empty).2 } n fun d =>
    { d with criticalCallSites := some (st.maps.alloc .empty).1 } with hst₁
  have hptr : st₁.ptr = Function.update st.ptr n (some (st.maps.alloc .empty).1) := by
    funext j
    by_cases hj : j = n
    · subst hj; simp [hst₁, Profile.ptr]
    · simp [hst₁, Profile.ptr, Profile.modify_of_ne _ hj, hj]
  have h₁ : Tracks (fun i => held i ∨ i = n) (Function.update a n { a n with sites := 0 }) st₁ := by
    refine ⟨?_, ?_, ?_⟩
    · rw [hptr]; exact h.owned.alloc n .empty
    · intro i hi
      rw [hptr]
      by_cases hin : i = n
      · subst hin; simp
      · rw [Function.update_of_ne hin]; exact h.held i (hi.resolve_right hin)
    · rw [← h.account]
      funext j
      by_cases hj : j = n
      · subst hj
        simp [hst₁, Profile.account, ProfilerData.account, Profile.sitesAt, Store.alloc]
      · rw [Function.update_of_ne hj]
        cases hq : (st.tProf j).criticalCallSites with
        | none => simp [hst₁, Profile.account, Profile.sitesAt, Profile.modify_of_ne _ hj, hq]
        | some q =>
          have := h.owned.lt_next j q hq
          simp [hst₁, Profile.account, Profile.sitesAt, Profile.modify_of_ne _ hj, hq, Store.alloc,
            Function.update_of_ne (show q ≠ st.maps.next by omega)]
  by_cases ht : (G.tgraphNodes n).type = .async
  · have h₂ := h₁.modify n (f := fun d =>
      { d with parentWork := (st₁.tProf (G.tgraphNodes n).parent).localWork }) fun _ => rfl
    have hopen : Analysis.openNode G st n = st₁.modify n fun d =>
        { d with parentWork := (st₁.tProf (G.tgraphNodes n).parent).localWork } := by
      simp only [Analysis.openNode, ht, if_true]; rfl
    rw [hopen]
    refine ⟨rfl, ?_⟩
    convert h₂ using 1
    have hlw : (st₁.tProf (G.tgraphNodes n).parent).localWork =
        (a (G.tgraphNodes n).parent).localWork := by
      rw [h.eq (G.tgraphNodes n).parent]
      by_cases hp : (G.tgraphNodes n).parent = n
      · rw [hp]; simp [hst₁, ProfilerData.account]
      · simp [hst₁, ProfilerData.account, Profile.modify_of_ne _ hp]
    funext j
    by_cases hj : j = n
    · subst hj
      have hself : st₁.tProf j = { st.tProf j with
          criticalCallSites := some (st.maps.alloc .empty).1 } := by simp [hst₁]
      simp [openAccount, ht, hlw, hself, ProfilerData.account, h.work, h.localWork,
        h.criticalChild, h.localLocalWork]
    · simp [openAccount, hj]
  · have hopen : Analysis.openNode G st n = st₁ := by
      simp only [Analysis.openNode, ht, if_false]; rfl
    rw [hopen]
    refine ⟨rfl, ?_⟩
    convert h₁ using 1
    simp [openAccount, ht]

section Close

variable {G : AFTaskGraph} {n : ℕ}

theorem Tracks.closeStep (h : Tracks held a st) (hne : (G.tgraphNodes n).parent ≠ n)
    (ht : (G.tgraphNodes n).type = .step) :
    ∃ st', Analysis.calculateWorkSpan G st n = .ok st' ∧ st'.workSpanMap = st.workSpanMap ∧
      Tracks held (closeAccount G a n) st' := by
  simp only [Analysis.calculateWorkSpan, closeAccount, ht]
  set p := (G.tgraphNodes n).parent
  refine ⟨_, rfl, rfl, ?_⟩
  have h3 := ((h.modify p (f := fun d => { d with work := d.work + (st.tProf n).work })
    fun _ => rfl).modify p (f := fun d => { d with localWork := d.localWork + (st.tProf n).work })
    fun _ => rfl).modify p
      (f := fun d => { d with localLocalWork := d.localLocalWork + (st.tProf n).work }) fun _ => rfl
  simp only [Profile.modify_of_ne _ hne.symm]
  convert h3 using 1
  funext j
  by_cases hj : j = p
  · subst hj
    simp [ProfilerData.account, h.work, h.localWork, h.criticalChild, h.parentWork,
      h.localLocalWork]
  · simp [hj]

/-- Setting `critical_child` of node `n` to its span, as the ASYNC and FINISH
    branches begin. -/
theorem Tracks.setSpan (h : Tracks held a st) (n : ℕ) :
    Tracks held (Function.update a n { a n with criticalChild := (a n).spanOf })
      (if (st.tProf n).criticalChild ≤ (st.tProf n).localWork then
        st.modify n fun d => { d with criticalChild := d.localWork } else st) := by
  split_ifs with hc
  · convert h.modify n (f := fun d => { d with criticalChild := d.localWork }) fun _ => rfl using 2
    rw [h.criticalChild, h.localWork] at hc
    simp [Account.spanOf, hc, ProfilerData.account, h.work, h.localWork, h.parentWork,
      h.localLocalWork]
  · rw [h.criticalChild, h.localWork] at hc
    simpa [Account.spanOf, hc] using h

theorem Tracks.closeAsync (h : Tracks held a st) (hne : (G.tgraphNodes n).parent ≠ n)
    (ht : (G.tgraphNodes n).type = .async) (hn : held n) (hp : held (G.tgraphNodes n).parent) :
    ∃ st', Analysis.calculateWorkSpan G st n = .ok st' ∧ st'.workSpanMap = st.workSpanMap ∧
      Tracks (fun i => held i ∧ i ≠ n) (closeAccount G a n) st' := by
  simp only [Analysis.calculateWorkSpan, closeAccount, ht]
  set p := (G.tgraphNodes n).parent
  have h₂ := (h.modify p (f := fun d => { d with work := d.work + (st.tProf n).work })
    fun _ => rfl).setSpan n
  set st₂ := if ((st.modify p fun d => { d with work := d.work + (st.tProf n).work }).tProf
    n).criticalChild ≤ ((st.modify p fun d => { d with work := d.work + (st.tProf n).work }).tProf
    n).localWork then (st.modify p fun d => { d with work := d.work + (st.tProf n).work }).modify n
      fun d => { d with criticalChild := d.localWork }
    else st.modify p fun d => { d with work := d.work + (st.tProf n).work } with hst₂
  have hw₂ : st₂.workSpanMap = st.workSpanMap := by rw [hst₂]; split_ifs <;> rfl
  clear_value st₂
  -- the node's own call site
  obtain ⟨st₃, h3, he₃, hw₃, h₃⟩ := h₂.insertCsData (h₂.held n hn) (G.tgraphNodes n).callSite
    (st₂.tProf n).localLocalWork
  rw [Profile.ptr] at h3
  simp only [h3, bind, Except.bind]
  have hcond : (st₃.tProf p).criticalChild < (st₃.tProf n).criticalChild + (st₃.tProf n).parentWork ↔
      (a p).criticalChild < (a n).spanOf + (a n).parentWork := by
    rw [h₃.criticalChild, h₃.criticalChild, h₃.parentWork]
    simp [hne, hne.symm, ProfilerData.account, h.criticalChild, h.parentWork]
  by_cases hc : (a p).criticalChild < (a n).spanOf + (a n).parentWork
  · -- the parent drops its map and takes over the node's
    rw [if_pos (hcond.mpr hc), if_pos hc]
    have h₄ := h₃.modify p (f := fun d => { d with
      criticalChild := (st₃.tProf n).criticalChild + (st₃.tProf n).parentWork }) fun _ => rfl
    set st₄ := st₃.modify p fun d => { d with
      criticalChild := (st₃.tProf n).criticalChild + (st₃.tProf n).parentWork } with hst₄
    obtain ⟨q, m, hq, hm, -⟩ := h₄.ptr_eq_some (h₄.held p hp)
    have h₅ := h₄.dropMap hq
    have h₆ := h₅.moveMap hne.symm (by simp [Profile.ptr]) (h₅.held n ⟨hn, hne.symm⟩)
    have hq' : (st₄.tProf p).criticalCallSites = some q := hq
    rw [hq', Store.free_eq hm]
    refine ⟨_, rfl, hw₃.trans hw₂, ?_⟩
    have hmm : ∀ (s : Profile) (f g : ProfilerData → ProfilerData),
        (s.modify p f).modify p g = s.modify p fun d => g (f d) := by
      intro s f g
      simp [Profile.modify]
    rw [hmm] at h₆
    have h₇ := h₆.mono (q := fun i => held i ∧ i ≠ n) fun i hi =>
      ⟨or_iff_not_imp_right.mpr fun hip => ⟨hi.1, hip⟩, hi.2⟩
    convert h₇ using 1
    · funext j
      by_cases hj : j = p
      · subst hj
        simp [hne, hne.symm, ProfilerData.account, h.work, h.localWork, h.criticalChild,
          h.parentWork, h.localLocalWork, h₃.work, h₃.localWork, h₃.criticalChild, h₃.parentWork,
          h₃.localLocalWork, h₂.localLocalWork]
      · by_cases hjn : j = n
        · subst hjn
          simp [hj, Account.spanOf]
        · simp [hj, hjn]
    · simp only [Profile.ptr, Profile.modify_of_ne _ hne.symm]
  · rw [if_neg (mt hcond.mp hc), if_neg hc]
    refine ⟨st₃, rfl, hw₃.trans hw₂, ?_⟩
    convert h₃.mono (q := fun i => held i ∧ i ≠ n) fun i hi => hi.1 using 1
    funext j
    by_cases hj : j = p
    · subst hj
      simp [hne, ProfilerData.account, h.work, h.localWork, h.criticalChild, h.parentWork,
        h.localLocalWork]
    · by_cases hjn : j = n
      · subst hjn
        simp [hj, h₂.localLocalWork, Account.spanOf]
      · simp [hj, hjn]

theorem Tracks.finishCallSites (h : Tracks held a st) {p : ℕ} (hpn : p ≠ n) (hn : held n)
    (hcs : (G.tgraphNodes n).spRootNWtFlag = true →
      G.callSiteMap (G.tgraphNodes n).callSite ≠ none) :
    ∃ st', Analysis.finishCallSites G st n p = .ok st' ∧ st'.workSpanMap = st.workSpanMap ∧
      Tracks (fun i => held i ∧ i ≠ n)
        (Function.update
          (Function.update a n
            { a n with criticalChild := (a n).spanOf, sites := closedSites G n (a n) }) p
          { a p with localLocalWork := (a p).localLocalWork + passedUp G n (a n) }) st' := by
  have hcond : (st.tProf n).criticalChild ≤ (st.tProf n).localWork ↔
      (a n).criticalChild ≤ (a n).localWork := by rw [h.criticalChild, h.localWork]
  have h₁ := h.setSpan n
  by_cases hc : (a n).criticalChild ≤ (a n).localWork
  · -- the serial work of the node is its span
    rw [if_pos (hcond.mpr hc)] at h₁
    simp only [Analysis.finishCallSites, if_pos (hcond.mpr hc)]
    set st₁ := st.modify n fun d => { d with criticalChild := d.localWork } with hst₁
    have hw₁ : st₁.workSpanMap = st.workSpanMap := rfl
    clear_value st₁
    by_cases hf : (G.tgraphNodes n).spRootNWtFlag = true
    · obtain ⟨d, hd⟩ := Option.ne_none_iff_exists'.mp (hcs hf)
      simp only [if_pos hf, AFTaskGraph.getSourceFileAndLine, hd, bind, Except.bind]
      by_cases hpf : d.parFor = true
      · obtain ⟨q, m, hq, hm, -⟩ := h₁.ptr_eq_some (h₁.held n hn)
        have hq' : (st₁.tProf n).criticalCallSites = some q := hq
        have h₂ := h₁.writeMap hq .empty
        obtain ⟨st₃, h3, -, hw₃, h₃⟩ := h₂.insertCsData (h₂.held n hn) (G.tgraphNodes n).callSite
          (st₁.tProf n).criticalChild
        rw [Profile.ptr] at h3
        simp only [hq'] at h3
        have hread : st₁.maps.read (some q) = .ok m := Store.read_eq (by simpa using hm)
        simp only [if_pos hpf, hq', hread, Store.write_eq hm, h3]
        refine ⟨st₃, rfl, hw₃.trans hw₁, ?_⟩
        convert h₃.mono (q := fun i => held i ∧ i ≠ n) fun i hi => hi.1 using 1
        funext j
        by_cases hj : j = p
        · subst hj; simp [hpn, passedUp, hc, hf]
        · by_cases hjn : j = n
          · subst hjn
            simp [hj, closedSites, hc, hf, hd, hpf, h₁.criticalChild, Account.spanOf]
          · simp [hj, hjn]
      · obtain ⟨st₃, h3, -, hw₃, h₃⟩ := h₁.insertCsData (h₁.held n hn) (G.tgraphNodes n).callSite
          (st₁.tProf n).localLocalWork
        rw [Profile.ptr] at h3
        simp only [if_neg hpf, h3]
        refine ⟨st₃, rfl, hw₃.trans hw₁, ?_⟩
        convert h₃.mono (q := fun i => held i ∧ i ≠ n) fun i hi => hi.1 using 1
        funext j
        by_cases hj : j = p
        · subst hj; simp [hpn, passedUp, hc, hf]
        · by_cases hjn : j = n
          · subst hjn
            simp [hj, closedSites, hc, hf, hd, hpf, h₁.localLocalWork, Account.spanOf]
          · simp [hj, hjn]
    · by_cases hp0 : (G.tgraphNodes n).parent = 0
      · -- the head keeps its map
        simp only [if_neg hf, ne_eq, hp0, not_true_eq_false, if_false]
        refine ⟨st₁, rfl, hw₁, ?_⟩
        convert h₁.mono (q := fun i => held i ∧ i ≠ n) fun i hi => hi.1 using 1
        funext j
        by_cases hj : j = p
        · subst hj; simp [hpn, passedUp, hc, hf, hp0]
        · by_cases hjn : j = n
          · subst hjn; simp [hj, closedSites, hc, hf, hp0, Account.spanOf]
          · simp [hj, hjn]
      · -- an implicit finish drops its map
        obtain ⟨q, m, hq, hm, -⟩ := h₁.ptr_eq_some (h₁.held n hn)
        have hq' : (st₁.tProf n).criticalCallSites = some q := hq
        simp only [if_neg hf, ne_eq, hp0, not_false_eq_true, if_true, bind, Except.bind, hq',
          Store.free_eq hm]
        refine ⟨_, rfl, hw₁, ?_⟩
        convert (h₁.dropMap hq).modify p (f := fun d => { d with
          localLocalWork := d.localLocalWork + (st₁.tProf n).localLocalWork }) fun _ => rfl using 1
        · funext j
          by_cases hj : j = p
          · subst hj
            simp [hpn, passedUp, hc, hf, hp0, ProfilerData.account, Profile.modify_of_ne _ hpn,
              h₁.work, h₁.localWork, h₁.criticalChild, h₁.parentWork, h₁.localLocalWork]
          · by_cases hjn : j = n
            · subst hjn; simp [hj, closedSites, hc, hf, hp0, Account.spanOf]
            · simp [hj, hjn]
        · simp only [Profile.modify_self]
  · -- an ASYNC child is on the critical path
    rw [if_neg (mt hcond.mp hc)] at h₁
    obtain ⟨q, m, hq, hm, hs⟩ := h.ptr_eq_some (h.held n hn)
    have hq' : (st.tProf n).criticalCallSites = some q := hq
    have hread : st.maps.read (some q) = .ok m := Store.read_eq (by simpa using hm)
    simp only [Analysis.finishCallSites, if_neg (mt hcond.mp hc), bind, Except.bind, hq', hread]
    refine ⟨_, rfl, rfl, ?_⟩
    have h₂ := (h.modify p (f := fun d => { d with
      localLocalWork := d.localLocalWork + ((st.tProf n).criticalChild - m.total) })
      fun _ => rfl).mono (q := fun i => held i ∧ i ≠ n) fun i hi => hi.1
    convert h₂ using 1
    funext j
    by_cases hj : j = p
    · subst hj
      simp [passedUp, hc, ProfilerData.account, h.work, h.localWork, h.criticalChild,
        h.parentWork, h.localLocalWork, hs]
    · by_cases hjn : j = n
      · subst hjn; simp [hj, closedSites, hc, Account.spanOf]
      · simp [hj, hjn]

theorem Tracks.closeFinish (h : Tracks held a st) (hne : (G.tgraphNodes n).parent ≠ n)
    (ht : (G.tgraphNodes n).type = .finish) (hn : held n)
    (hp : (G.tgraphNodes n).parent ≠ 0 → held (G.tgraphNodes n).parent)
    (hcs : (G.tgraphNodes n).spRootNWtFlag = true →
      G.callSiteMap (G.tgraphNodes n).callSite ≠ none) :
    ∃ st', Analysis.calculateWorkSpan G st n = .ok st' ∧ st'.workSpanMap = st.workSpanMap ∧
      Tracks (fun i => held i ∧ i ≠ n) (closeAccount G a n) st' := by
  simp only [Analysis.calculateWorkSpan, closeAccount, ht]
  set p := (G.tgraphNodes n).parent with hpdef
  have h₁ := h.modify p (f := fun d => { d with work := d.work + (st.tProf n).work }) fun _ => rfl
  set st₁ := st.modify p fun d => { d with work := d.work + (st.tProf n).work } with hst₁
  have hw₁ : st₁.workSpanMap = st.workSpanMap := rfl
  clear_value st₁
  obtain ⟨st₂, h2, hw₂, h₂⟩ := h₁.finishCallSites hne hn hcs
  have h₃ := h₂.modify p (f := fun d => { d with
    localWork := d.localWork + (st₂.tProf n).criticalChild }) fun _ => rfl
  set st₃ := st₂.modify p fun d => { d with
    localWork := d.localWork + (st₂.tProf n).criticalChild } with hst₃
  have hw₃ : st₃.workSpanMap = st₂.workSpanMap := rfl
  simp only [h2, bind, Except.bind, ← hst₃]
  clear_value st₃
  have h₄ : Tracks (fun i => held i ∧ i ≠ n)
      (Function.update
        (Function.update a n
          { a n with criticalChild := (a n).spanOf, sites := closedSites G n (a n) }) p
        { a p with
          work := (a p).work + (a n).work
          localWork := (a p).localWork + (a n).spanOf
          localLocalWork := (a p).localLocalWork + passedUp G n (a n) }) st₃ := by
    convert h₃ using 1
    funext j
    by_cases hj : j = p
    · subst hj
      simp [hne.symm, ProfilerData.account, h.work, h.localWork, h.criticalChild, h.parentWork,
        h.localLocalWork, h₂.work, h₂.localWork, h₂.criticalChild, h₂.parentWork,
        h₂.localLocalWork]
    · by_cases hjn : j = n
      · subst hjn; simp [hj]
      · simp [hj, hjn]
  by_cases hp0 : p = 0
  · simp only [ne_eq, hp0, not_true_eq_false, if_false]
    rw [hp0] at h₄
    exact ⟨st₃, rfl, hw₃.trans (hw₂.trans hw₁), h₄⟩
  · obtain ⟨st₅, h5, -, hw₅, h₅⟩ := h₄.mergeCriticalCallSites (h₄.held p ⟨hp hp0, hne⟩) n
    simp only [Profile.ptr] at h5
    simp only [ne_eq, hp0, not_false_eq_true, if_true]
    refine ⟨st₅, h5, hw₅.trans (hw₃.trans (hw₂.trans hw₁)), ?_⟩
    convert h₅ using 1
    funext j
    by_cases hj : j = p
    · subst hj; simp [hne.symm]
    · simp [hj]

/-- `calculateWorkSpan` closes node `n`: the heap operation runs without fault
    and does to the numbers what `closeAccount` says. -/
theorem Tracks.calculateWorkSpan (h : Tracks held a st) (hne : (G.tgraphNodes n).parent ≠ n)
    (hn : (G.tgraphNodes n).type = .async ∨ (G.tgraphNodes n).type = .finish → held n)
    (hp : (G.tgraphNodes n).parent ≠ 0 → held (G.tgraphNodes n).parent)
    (hp0 : (G.tgraphNodes n).type = .async → (G.tgraphNodes n).parent ≠ 0)
    (hcs : (G.tgraphNodes n).type = .finish → (G.tgraphNodes n).spRootNWtFlag = true →
      G.callSiteMap (G.tgraphNodes n).callSite ≠ none) :
    ∃ st', Analysis.calculateWorkSpan G st n = .ok st' ∧ st'.workSpanMap = st.workSpanMap ∧
      Tracks (fun i => held i ∧ i ≠ n) (closeAccount G a n) st' := by
  cases ht : (G.tgraphNodes n).type with
  | step =>
    obtain ⟨st', h1, h2, h3⟩ := h.closeStep hne ht
    exact ⟨st', h1, h2, h3.mono fun i hi => hi.1⟩
  | async => exact h.closeAsync hne ht (hn (.inl ht)) (hp (hp0 ht))
  | finish => exact h.closeFinish hne ht (hn (.inr ht)) hp (hcs ht)
  | noType =>
    refine ⟨st, by simp [Analysis.calculateWorkSpan, ht], rfl, ?_⟩
    have : closeAccount G a n = a := by simp [closeAccount, ht]
    rw [this]
    exact h.mono fun i hi => hi.1

end Close

end TaskProf.Analysis
