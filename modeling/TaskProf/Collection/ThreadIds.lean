import TaskProf.Collection.TaskGraph

/-!
# The ids of the threads

`get_cur_tid` of `collection_phase/src/exec_calls.cpp` (lines 54–68): under
`tid_map_lock`, a thread looks itself up in `tid_map`, and takes the next number of
`tid_ctr` where it is not found. Every callback asks for the id of its thread, so any
number of threads may be in the function at once. A step is one statement of one thread.

A thread that is found reads the map with `at` after it has released the lock. An
`insert` that begins before the `at` has ended is a data race, after which nothing is
known; the runs are those in which no `insert` does. The lock excludes the other order:
no thread comes to its `at` during an `insert`.

* `TidState.Races`: the next statement of a thread is such an `insert`.
* `TidState.Inv`: `tid_map` numbers some threads in order.
* `getCurTid_ids`: the ids of any run without a race.
* `turns_races`: two threads are enough for a race.
-/

namespace TaskProf.Collection

/-! ## The function -/

/-- Where a thread is in `get_cur_tid`; `my_tid` is the argument once it is set. -/
inductive TidPhase
  | outside
  | getLock
  | count
  | draw
  | insert (myTid : ℕ)
  | releaseLock (myTid : ℕ)
  | releaseFound
  | atKey
  | ret (myTid : ℕ)
  deriving DecidableEq

/-- The next statement is `tid_map.insert`. -/
def TidPhase.inserts : TidPhase → Bool
  | .insert _ => true
  | _ => false

/-- The globals, the threads, and the calls that have returned, each with the id that it
    has returned. -/
structure TidState (κ : Type) where
  tidMapLock : Option κ
  tidCtr : ℕ
  tidMap : κ → Option ℕ
  phase : κ → TidPhase
  returned : List (κ × ℕ)

namespace TidState

variable {κ : Type}

def init : TidState κ := ⟨none, 0, fun _ => none, fun _ => .outside, []⟩

variable [DecidableEq κ]

/-- The thread goes on to the next statement. -/
def goto (s : TidState κ) (k : κ) (p : TidPhase) : TidState κ :=
  { s with phase := Function.update s.phase k p }

/-- The next statement of a thread, or `none` while it waits for the lock. -/
def step (s : TidState κ) (k : κ) : Option (Except Fault (TidState κ)) :=
  match s.phase k with
  | .outside => some (.ok (s.goto k .getLock))
  | .getLock =>
    if s.tidMapLock = none then some (.ok { s.goto k .count with tidMapLock := some k })
    else none
  | .count => some (.ok (s.goto k (if s.tidMap k = none then .draw else .releaseFound)))
  | .draw => some (.ok { s.goto k (.insert s.tidCtr) with tidCtr := s.tidCtr + 1 })
  | .insert i =>
    -- `std::map::insert` keeps the value of a key that it finds
    some (.ok { s.goto k (.releaseLock i) with
      tidMap := Function.update s.tidMap k ((s.tidMap k).or (some i)) })
  | .releaseLock i => some (.ok { s.goto k (.ret i) with tidMapLock := none })
  | .releaseFound => some (.ok { s.goto k .atKey with tidMapLock := none })
  | .atKey =>
    match s.tidMap k with
    | none => some (.error .missingKey)
    | some i => some (.ok (s.goto k (.ret i)))
  | .ret i => some (.ok { s.goto k .outside with returned := s.returned ++ [(k, i)] })

omit [DecidableEq κ] in
/-- The thread is about to change `tid_map` while a thread reads it outside of the lock. -/
def Races (s : TidState κ) (k : κ) : Prop :=
  (s.phase k).inserts = true ∧ ∃ u, s.phase u = .atKey

instance [Fintype κ] (s : TidState κ) (k : κ) : Decidable (s.Races k) :=
  inferInstanceAs (Decidable (_ ∧ _))

/-- A run without a race, with the threads that made its steps. -/
inductive Run : List κ → TidState κ → Prop
  | nil : Run [] init
  | snoc {ks : List κ} {s s' : TidState κ} {k : κ} (h : Run ks s) (hrace : ¬ s.Races k)
    (hk : s.step k = some (.ok s')) : Run (ks ++ [k]) s'

end TidState

/-! ## The invariant -/

namespace TidPhase

/-- The thread has the lock. -/
def Holds : TidPhase → Prop
  | .count | .draw | .insert _ | .releaseLock _ | .releaseFound => True
  | .outside | .getLock | .atKey | .ret _ => False

/-- What the thread knows of its entry in `tid_map`, of which there are `n`. -/
def Knows (entry : Option ℕ) (n : ℕ) : TidPhase → Prop
  | .outside | .getLock | .count => True
  | .draw => entry = none
  | .insert i => entry = none ∧ i = n
  | .releaseFound | .atKey => entry ≠ none
  | .releaseLock i | .ret i => entry = some i

/-- The numbers that the thread has drawn and not yet inserted. -/
def drawn : TidPhase → ℕ
  | .insert _ => 1
  | _ => 0

/-- Only a thread that holds the lock looks at the number of entries. -/
theorem Knows.of_not_holds {entry : Option ℕ} {n m : ℕ} {p : TidPhase} (h : p.Knows entry n)
    (hp : ¬ p.Holds) : p.Knows entry m := by
  cases p with
  | insert i => exact absurd trivial hp
  | _ => exact h

end TidPhase

namespace TidState

variable {κ : Type} {s s' : TidState κ} {order : List κ} {k : κ}

/-- `tid_map` numbers the threads of `order`. -/
structure Inv (s : TidState κ) (order : List κ) : Prop where
  holder : ∀ u, (s.phase u).Holds ↔ s.tidMapLock = some u
  nodup : order.Nodup
  tidMap : ∀ u i, s.tidMap u = some i ↔ order[i]? = some u
  tidCtr : s.tidCtr = order.length + s.tidMapLock.elim 0 fun u => (s.phase u).drawn
  knows : ∀ u, (s.phase u).Knows (s.tidMap u) order.length
  returned : ∀ p ∈ s.returned, s.tidMap p.1 = some p.2

theorem Inv.init : (init : TidState κ).Inv [] where
  holder _ := iff_of_false id (Option.some_ne_none _).symm
  nodup := List.nodup_nil
  tidMap _ _ := iff_of_false (Option.some_ne_none _).symm (by simp)
  tidCtr := rfl
  knows _ := trivial
  returned p hp := absurd hp List.not_mem_nil

/-- At most one thread holds the lock. -/
theorem Inv.exclusive (h : s.Inv order) {u : κ} (hk : (s.phase k).Holds)
    (hu : (s.phase u).Holds) : u = k := by
  rw [h.holder] at hk hu
  exact Option.some.inj (hu.symm.trans hk)

section Steps

variable [DecidableEq κ]

@[simp]
theorem goto_phase_self (p : TidPhase) : (s.goto k p).phase k = p := Function.update_self ..

theorem goto_phase_of_ne {u : κ} (hu : u ≠ k) (p : TidPhase) : (s.goto k p).phase u = s.phase u :=
  Function.update_of_ne hu ..

/-- The thread goes on, with the lock if it had it. -/
theorem Inv.holder_goto (h : s.Inv order) {p : TidPhase} (hp : p.Holds ↔ (s.phase k).Holds)
    (u : κ) : ((s.goto k p).phase u).Holds ↔ s.tidMapLock = some u := by
  by_cases hu : u = k
  · subst hu
    rw [goto_phase_self, hp]
    exact h.holder u
  · rw [goto_phase_of_ne hu]
    exact h.holder u

theorem Inv.knows_goto (h : s.Inv order) {p : TidPhase}
    (hp : p.Knows (s.tidMap k) order.length) (u : κ) :
    ((s.goto k p).phase u).Knows (s.tidMap u) order.length := by
  by_cases hu : u = k
  · subst hu
    rw [goto_phase_self]
    exact hp
  · rw [goto_phase_of_ne hu]
    exact h.knows u

/-- A statement that leaves the globals. -/
theorem Inv.goto (h : s.Inv order) {p : TidPhase} (hholds : p.Holds ↔ (s.phase k).Holds)
    (hdrawn : p.drawn = (s.phase k).drawn) (hknows : p.Knows (s.tidMap k) order.length) :
    (s.goto k p).Inv order where
  holder := h.holder_goto hholds
  nodup := h.nodup
  tidMap := h.tidMap
  tidCtr := by
    have hsame : ∀ u, ((s.goto k p).phase u).drawn = (s.phase u).drawn := by
      intro u
      by_cases hu : u = k
      · rw [hu, goto_phase_self, hdrawn]
      · rw [goto_phase_of_ne hu]
    simp only [hsame]
    exact h.tidCtr
  knows := h.knows_goto hknows
  returned := h.returned

/-- `PIN_GetLock`. -/
theorem Inv.acquire (h : s.Inv order) (hfree : s.tidMapLock = none) :
    ({ s.goto k .count with tidMapLock := some k } : TidState κ).Inv order where
  holder u := by
    show ((s.goto k .count).phase u).Holds ↔ some k = some u
    by_cases hu : u = k
    · subst hu
      rw [goto_phase_self]
      exact iff_of_true trivial rfl
    · rw [goto_phase_of_ne hu, h.holder, hfree]
      simp [Ne.symm hu]
  nodup := h.nodup
  tidMap := h.tidMap
  tidCtr := by
    show s.tidCtr = order.length + ((s.goto k .count).phase k).drawn
    rw [goto_phase_self, h.tidCtr, hfree]
    rfl
  knows := h.knows_goto trivial
  returned := h.returned

/-- `PIN_ReleaseLock`. -/
theorem Inv.release (h : s.Inv order) {p : TidPhase} (hk : (s.phase k).Holds)
    (hp : ¬ p.Holds) (hdrawn : (s.phase k).drawn = 0)
    (hknows : p.Knows (s.tidMap k) order.length) :
    ({ s.goto k p with tidMapLock := none } : TidState κ).Inv order where
  holder u := by
    show ((s.goto k p).phase u).Holds ↔ none = some u
    refine iff_of_false ?_ (Option.some_ne_none _).symm
    by_cases hu : u = k
    · subst hu
      rwa [goto_phase_self]
    · rw [goto_phase_of_ne hu]
      exact fun hholds => hu (h.exclusive hk hholds)
  nodup := h.nodup
  tidMap := h.tidMap
  tidCtr := by
    show s.tidCtr = order.length + 0
    rw [h.tidCtr, (h.holder k).mp hk]
    exact congrArg _ hdrawn
  knows := h.knows_goto hknows
  returned := h.returned

/-- `tid_ctr++`: the number is that of the next entry. -/
theorem Inv.draw (h : s.Inv order) (hk : s.phase k = .draw) :
    ({ s.goto k (.insert s.tidCtr) with tidCtr := s.tidCtr + 1 } : TidState κ).Inv order := by
  have hholds : (s.phase k).Holds := by
    rw [hk]
    trivial
  have hlock := (h.holder k).mp hholds
  have hctr : s.tidCtr = order.length := by
    rw [h.tidCtr, hlock, Option.elim_some, hk]
    rfl
  have hentry : s.tidMap k = none := by
    have := h.knows k
    rwa [hk] at this
  refine ⟨h.holder_goto (iff_of_true trivial hholds), h.nodup, h.tidMap, ?_,
    h.knows_goto ⟨hentry, hctr⟩, h.returned⟩
  · show s.tidCtr + 1 = order.length +
      s.tidMapLock.elim 0 fun u => ((s.goto k (.insert s.tidCtr)).phase u).drawn
    rw [hlock, Option.elim_some, goto_phase_self, hctr]
    rfl

/-- `tid_map.insert`: the thread comes last in the order. -/
theorem Inv.insert (h : s.Inv order) {i : ℕ} (hk : s.phase k = .insert i) :
    ({ s.goto k (.releaseLock i) with
      tidMap := Function.update s.tidMap k ((s.tidMap k).or (some i)) } : TidState κ).Inv
        (order ++ [k]) := by
  have hholds : (s.phase k).Holds := by
    rw [hk]
    trivial
  have hlock := (h.holder k).mp hholds
  obtain ⟨hentry, rfl⟩ : s.tidMap k = none ∧ i = order.length := by
    have := h.knows k
    rwa [hk] at this
  have hnot : k ∉ order := by
    intro hmem
    obtain ⟨j, hj⟩ := List.getElem?_of_mem hmem
    rw [← h.tidMap, hentry] at hj
    exact Option.some_ne_none j hj.symm
  rw [hentry, Option.none_or]
  refine ⟨h.holder_goto (iff_of_true trivial hholds), ?_, fun u j => ?_, ?_, fun u => ?_,
    fun p hp => ?_⟩
  · rw [List.nodup_append]
    refine ⟨h.nodup, List.nodup_singleton k, fun a ha b hb => ?_⟩
    rw [List.mem_singleton.mp hb]
    rintro rfl
    exact hnot ha
  · show Function.update s.tidMap k (some order.length) u = some j ↔ (order ++ [k])[j]? = some u
    by_cases hu : u = k
    · subst hu
      rw [Function.update_self, Option.some.injEq, List.getElem?_append]
      split_ifs with hj
      · -- the thread was not in the order
        refine iff_of_false (by omega) fun hget => hnot (List.mem_of_getElem? hget)
      · rw [List.getElem?_singleton]
        split_ifs with h0
        · exact iff_of_true (by omega) rfl
        · exact iff_of_false (by omega) (by simp)
    · rw [Function.update_of_ne hu, h.tidMap, List.getElem?_append]
      split_ifs with hj
      · rfl
      · rw [List.getElem?_eq_none (by omega), List.getElem?_singleton]
        refine iff_of_false (Option.some_ne_none _).symm ?_
        split_ifs
        · exact fun heq => hu (Option.some.inj heq).symm
        · simp
  · show s.tidCtr = (order ++ [k]).length +
      s.tidMapLock.elim 0 fun u => ((s.goto k (.releaseLock _)).phase u).drawn
    rw [h.tidCtr, hlock, Option.elim_some, Option.elim_some, goto_phase_self, hk,
      List.length_append]
    rfl
  · show ((s.goto k (.releaseLock _)).phase u).Knows
      (Function.update s.tidMap k (some order.length) u) (order ++ [k]).length
    by_cases hu : u = k
    · subst hu
      rw [goto_phase_self, Function.update_self]
      rfl
    · rw [goto_phase_of_ne hu, Function.update_of_ne hu]
      exact (h.knows u).of_not_holds fun hholds' => hu (h.exclusive hholds hholds')
  · show Function.update s.tidMap k (some order.length) p.1 = some p.2
    have hp := h.returned p hp
    have hne : p.1 ≠ k := by
      intro heq
      rw [heq, hentry] at hp
      exact Option.some_ne_none _ hp.symm
    rw [Function.update_of_ne hne]
    exact hp

/-- A statement is not a fault, and keeps the invariant; at most it adds its thread to the
    order. -/
theorem Inv.step (h : s.Inv order) (k : κ) :
    (∀ e, s.step k ≠ some (.error e)) ∧ ∀ s', s.step k = some (.ok s') →
      ∃ order', s'.Inv order' ∧ (order' = order ∨ order' = order ++ [k]) := by
  have hknows := h.knows k
  -- the other statements do not add to the order
  have hsame : ∀ {t : TidState κ}, t.Inv order → s.step k = some (.ok t) →
      (∀ e, s.step k ≠ some (.error e)) ∧ ∀ s', s.step k = some (.ok s') →
        ∃ order', s'.Inv order' ∧ (order' = order ∨ order' = order ++ [k]) := by
    intro t ht hstep
    rw [hstep]
    refine ⟨fun e he => (nomatch he), fun s' hs' => ⟨order, ?_, .inl rfl⟩⟩
    rwa [← Except.ok.inj (Option.some.inj hs')]
  cases hk : s.phase k with
  | outside =>
    refine hsame (h.goto ?_ ?_ ?_) (by rw [TidState.step, hk])
    · rw [hk]
      exact Iff.rfl
    · rw [hk]
      rfl
    · trivial
  | getLock =>
    by_cases hfree : s.tidMapLock = none
    · refine hsame (h.acquire (k := k) hfree) ?_
      rw [TidState.step, hk]
      exact if_pos hfree
    · have hnone : s.step k = none := by
        rw [TidState.step, hk]
        exact if_neg hfree
      rw [hnone]
      exact ⟨fun e he => (nomatch he), fun s' hs' => (nomatch hs')⟩
  | count =>
    refine hsame (h.goto ?_ ?_ ?_) (by rw [TidState.step, hk])
    · rw [hk]
      split_ifs <;> exact Iff.rfl
    · rw [hk]
      split_ifs <;> rfl
    · split_ifs with hentry <;> exact hentry
  | draw => exact hsame (h.draw hk) (by rw [TidState.step, hk])
  | insert i =>
    have hstep := h.insert hk
    refine ⟨fun e he => ?_, fun s' hs' => ⟨order ++ [k], ?_, .inr rfl⟩⟩
    · rw [TidState.step, hk] at he
      cases he
    · rw [TidState.step, hk] at hs'
      rwa [← Except.ok.inj (Option.some.inj hs')]
  | releaseLock i =>
    rw [hk] at hknows
    refine hsame (h.release (p := .ret i) ?_ id ?_ hknows) (by rw [TidState.step, hk])
    · rw [hk]
      trivial
    · rw [hk]
      rfl
  | releaseFound =>
    rw [hk] at hknows
    refine hsame (h.release (p := .atKey) ?_ id ?_ hknows) (by rw [TidState.step, hk])
    · rw [hk]
      trivial
    · rw [hk]
      rfl
  | atKey =>
    rw [hk] at hknows
    obtain ⟨i, hi⟩ := Option.ne_none_iff_exists'.mp hknows
    refine hsame (h.goto (p := .ret i) ?_ ?_ hi) (by rw [TidState.step, hk, hi])
    · rw [hk]
      exact Iff.rfl
    · rw [hk]
      rfl
  | ret i =>
    rw [hk] at hknows
    have hout : (s.goto k .outside).Inv order := by
      refine h.goto ?_ ?_ trivial
      · rw [hk]
        exact Iff.rfl
      · rw [hk]
        rfl
    have hret : ({ s.goto k .outside with returned := s.returned ++ [(k, i)] } : TidState κ).Inv
        order := by
      refine ⟨hout.holder, hout.nodup, hout.tidMap, hout.tidCtr, hout.knows, fun p hp => ?_⟩
      rcases List.mem_append.mp hp with hp | hp
      · exact h.returned p hp
      · rw [List.mem_singleton.mp hp]
        exact hknows
    exact hsame hret (by rw [TidState.step, hk])

/-! ## Runs -/

/-- In any run `tid_map` numbers threads that made a step. -/
theorem Run.inv {ks : List κ} (h : Run ks s) : ∃ order, s.Inv order ∧ order ⊆ ks := by
  induction h with
  | nil => exact ⟨[], .init, List.nil_subset _⟩
  | @snoc ks s s' k _ _ hk ih =>
    obtain ⟨order, hinv, hsub⟩ := ih
    have hsub' : order ⊆ ks ++ [k] := fun u hu => List.mem_append_left _ (hsub hu)
    obtain ⟨order', hinv', rfl | rfl⟩ := (hinv.step k).2 s' hk
    · exact ⟨_, hinv', hsub'⟩
    · refine ⟨_, hinv', fun u hu => ?_⟩
      exact (List.mem_append.mp hu).elim (fun hu => hsub' hu) fun hu =>
        List.mem_append_right _ hu

/-- A thread in the function can go on without a race: the one that reads the map, the one
    that holds the lock, or any. -/
theorem Inv.progress (h : s.Inv order) (hk : s.phase k ≠ .outside) :
    ∃ u s', s.phase u ≠ .outside ∧ ¬ s.Races u ∧ s.step u = some (.ok s') := by
  -- only `PIN_GetLock` can block
  have hgo : ∀ u, s.phase u ≠ .getLock ∨ s.tidMapLock = none →
      ∃ s', s.step u = some (.ok s') := by
    intro u hlock
    have hfault := (h.step u).1
    have hsome : s.step u ≠ none := by
      unfold TidState.step
      cases hp : s.phase u with
      | getLock =>
        have hfree := hlock.resolve_left fun hne => hne hp
        simp [hfree]
      | atKey => cases s.tidMap u <;> simp
      | _ => simp
    obtain ⟨r, hr⟩ := Option.ne_none_iff_exists'.mp hsome
    cases r with
    | error e => exact absurd hr (hfault e)
    | ok s' => exact ⟨s', hr⟩
  by_cases hread : ∃ u, s.phase u = .atKey
  · obtain ⟨u, hu⟩ := hread
    obtain ⟨s', hs'⟩ := hgo u (.inl (by rw [hu]; simp))
    refine ⟨u, s', by rw [hu]; simp, ?_, hs'⟩
    rintro ⟨hinsert, -⟩
    rw [hu] at hinsert
    cases hinsert
  · have hrace : ∀ u, ¬ s.Races u := fun u hr => hread hr.2
    cases hlock : s.tidMapLock with
    | none =>
      obtain ⟨s', hs'⟩ := hgo k (.inr hlock)
      exact ⟨k, s', hk, hrace k, hs'⟩
    | some u =>
      have hholds := (h.holder u).mpr hlock
      have hne : s.phase u ≠ .outside ∧ s.phase u ≠ .getLock := by
        constructor <;>
        · intro heq
          rw [heq] at hholds
          exact hholds
      obtain ⟨s', hs'⟩ := hgo u (.inl hne.2)
      exact ⟨u, s', hne.1, hrace u, hs'⟩

/-- **The ids of the threads.** Let any threads call `get_cur_tid` any number of times,
    with their statements in any order, but such that no `insert` begins while another
    thread is between its release of the lock and the end of its `at`. Then `at` finds its
    key. Calls of one thread return one id and calls of two threads return two; an id is
    less than the number of the threads that have made a step so far, so the first thread
    has the id 0 and 32 threads stay below `NUM_THREADS`, and every smaller number is the
    id of some thread. One thread at most is inside of the lock, and while some thread is
    in the function one of them can go on without a race. -/
theorem getCurTid_ids {ks : List κ} (h : Run ks s) :
    (∀ k e, s.step k ≠ some (.error e)) ∧
    (∀ p ∈ s.returned, ∀ q ∈ s.returned, p.1 = q.1 ↔ p.2 = q.2) ∧
    (∀ p ∈ s.returned, p.2 < ks.dedup.length ∧ ∀ j < p.2, ∃ u ∈ ks, s.tidMap u = some j) ∧
    (∀ k u, (s.phase k).Holds → (s.phase u).Holds → u = k) ∧
    ∀ k, s.phase k ≠ .outside →
      ∃ u s', s.phase u ≠ .outside ∧ ¬ s.Races u ∧ s.step u = some (.ok s') := by
  obtain ⟨order, hinv, hsub⟩ := h.inv
  have hget : ∀ p ∈ s.returned, order[p.2]? = some p.1 := fun p hp =>
    (hinv.tidMap _ _).mp (hinv.returned p hp)
  have hlt : ∀ p ∈ s.returned, p.2 < order.length := fun p hp =>
    (List.getElem?_eq_some_iff.mp (hget p hp)).1
  refine ⟨fun k => (hinv.step k).1, fun p hp q hq => ?_, fun p hp => ⟨?_, fun j hj => ?_⟩,
    fun k u => hinv.exclusive, fun k => hinv.progress⟩
  · constructor
    · intro heq
      have hpq := hinv.returned p hp
      rw [heq, hinv.returned q hq] at hpq
      exact (Option.some.inj hpq).symm
    · intro heq
      have hpq := hget p hp
      rw [heq, hget q hq] at hpq
      exact (Option.some.inj hpq).symm
  · have hdedup : order ⊆ ks.dedup := fun u hu => List.mem_dedup.mpr (hsub hu)
    exact (hlt p hp).trans_le (List.subperm_of_subset hinv.nodup hdedup).length_le
  · have hj' : j < order.length := hj.trans (hlt p hp)
    refine ⟨order[j], hsub (List.getElem_mem hj'), ?_⟩
    rw [hinv.tidMap]
    exact List.getElem?_eq_getElem hj'

/-- The state after steps of the threads, without a race. -/
def exec [Fintype κ] (s : TidState κ) : List κ → Option (TidState κ)
  | [] => some s
  | k :: ks =>
    if s.Races k then none
    else
      match s.step k with
      | some (.ok s') => exec s' ks
      | _ => none

theorem run_of_exec [Fintype κ] {ks ks' : List κ} (h : Run ks s) (hs : s.exec ks' = some s') :
    Run (ks ++ ks') s' := by
  induction ks' generalizing ks s with
  | nil =>
    rw [← Option.some.inj hs, List.append_nil]
    exact h
  | cons k ks' ih =>
    rw [exec] at hs
    split_ifs at hs with hrace
    split at hs
    · next s₁ hk =>
      have hrun := ih (h.snoc hrace hk) hs
      rwa [List.append_assoc] at hrun
    · cases hs

end Steps

/-- The first thread calls once, and once more up to `at`; the second is about to insert
    itself. -/
def turns : List Bool := List.replicate 11 false ++ List.replicate 4 true

/-- Two threads are enough for a race. -/
theorem turns_races : ∃ s : TidState Bool, Run turns s ∧ s.Races true := by
  have hall : (init.exec turns).map (fun s => decide (s.Races true)) = some true := by decide
  obtain ⟨s, hs, hrace⟩ := Option.map_eq_some_iff.mp hall
  have hrun : Run ([] ++ turns) s := run_of_exec .nil hs
  rw [List.nil_append] at hrun
  exact ⟨s, hrun, of_decide_eq_true hrace⟩

/-- The first thread reads the map before the second inserts itself. -/
theorem turns_ids : ∃ s : TidState Bool, Run (turns ++ [false, true, true, false, true]) s ∧
    s.returned = [(false, 0), (false, 0), (true, 1)] ∧
    ∀ p ∈ s.returned, ∀ q ∈ s.returned, p.1 = q.1 ↔ p.2 = q.2 := by
  have hall : (init.exec (turns ++ [false, true, true, false, true])).map TidState.returned =
      some [(false, 0), (false, 0), (true, 1)] := by decide
  obtain ⟨s, hs, hret⟩ := Option.map_eq_some_iff.mp hall
  have hrun : Run ([] ++ (turns ++ [false, true, true, false, true])) s := run_of_exec .nil hs
  rw [List.nil_append] at hrun
  exact ⟨s, hrun, hret, (getCurTid_ids hrun).2.1⟩

end TidState

end TaskProf.Collection
