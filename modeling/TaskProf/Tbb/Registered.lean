import TaskProf.Tbb.Algorithms

/-!
# Registered tasks

What `temp_cur_map` promises: the tasks that are ready and will call
`__exec_begin__` have ids of their own, and these ids are the keys of the map.

* `Unconsumed`: a call of `CaptureSetTaskId` that no `__exec_begin__` has consumed.
* `Registered`: the invariant; `Registered.spawn`, `Registered.begin` and
  `Registered.free` say what the steps do to it.
* `FindsNode`: every instrumented task that is started finds its node.
-/

namespace TaskProf.Tbb

/-! ## The calls -/

/-- The last `CaptureSetTaskId` of `taskId` comes after its last `__exec_begin__`. -/
def Unconsumed (calls : List Call) (taskId : ℕ) : Prop :=
  ∃ pre post, calls = pre ++ .setTaskId taskId :: post ∧ .execBegin taskId ∉ post

theorem unconsumed_concat {calls : List Call} {c : Call} {k : ℕ} :
    Unconsumed (calls ++ [c]) k ↔
      c = .setTaskId k ∨ c ≠ .execBegin k ∧ Unconsumed calls k := by
  constructor
  · rintro ⟨pre, post, heq, hpost⟩
    rcases List.eq_nil_or_concat post with rfl | ⟨post', c', rfl⟩
    · obtain ⟨-, hc⟩ := List.append_inj' heq rfl
      exact .inl (List.singleton_inj.mp hc)
    · rw [List.concat_eq_append, ← List.cons_append, ← List.append_assoc] at heq
      rw [List.concat_eq_append, List.mem_append, not_or, List.mem_singleton] at hpost
      obtain ⟨rfl, hc⟩ := List.append_inj' heq rfl
      rw [List.singleton_inj.mp hc]
      exact .inr ⟨Ne.symm hpost.2, pre, post', rfl, hpost.1⟩
  · rintro (rfl | ⟨hc, pre, post, rfl, hpost⟩)
    · exact ⟨calls, [], rfl, List.not_mem_nil⟩
    · refine ⟨pre, post ++ [c], by rw [List.append_assoc, List.cons_append], ?_⟩
      rw [List.mem_append, List.mem_singleton, not_or]
      exact ⟨hpost, Ne.symm hc⟩

theorem not_unconsumed_nil (k : ℕ) : ¬ Unconsumed [] k := by
  rintro ⟨pre, post, h, -⟩
  exact absurd h.symm (List.append_ne_nil_of_right_ne_nil _ (List.cons_ne_nil _ _))

/-! ## The invariant -/

/-- For the ids of the tasks and the tasks that are pending: the pending tasks have
    ids of their own, and the map has exactly these. -/
structure Registered (ids : ℕ → Option ℕ) (pending : ℕ → Bool) (taskIdCtr : ℕ)
    (tempCurMap : ℕ → Bool) (calls : List Call) : Prop where
  bound : ∀ x k, ids x = some k → k ≤ taskIdCtr
  unique : ∀ x y k, ids x = some k → ids y = some k → x = y
  hasId : ∀ x, pending x = true → ∃ k, ids x = some k
  keys : ∀ k, tempCurMap k = true ↔ ∃ x, pending x = true ∧ ids x = some k
  log : ∀ k, tempCurMap k = true ↔ Unconsumed calls k
  preceded : ∀ pre k post, calls = pre ++ .execBegin k :: post → Unconsumed pre k

namespace Registered

variable {ids : ℕ → Option ℕ} {pending : ℕ → Bool} {ctr : ℕ} {map : ℕ → Bool}
  {calls : List Call} {x : ℕ} {k : ℕ}

theorem init : Registered (fun _ => none) (fun _ => false) 0 (fun _ => false) [] where
  bound := by simp
  unique := by simp
  hasId := by simp
  keys := by simp
  log k := iff_of_false Bool.false_ne_true (not_unconsumed_nil k)
  preceded pre k post h := absurd h.symm
    (List.append_ne_nil_of_right_ne_nil _ (List.cons_ne_nil _ _))

/-- The calls before an `__exec_begin__`, when one call is added. -/
theorem preceded_concat (h : ∀ pre k post, calls = pre ++ .execBegin k :: post → Unconsumed pre k)
    {c : Call} (hc : ∀ k, c = .execBegin k → Unconsumed calls k) :
    ∀ pre k post, calls ++ [c] = pre ++ .execBegin k :: post → Unconsumed pre k := by
  intro pre k post heq
  rcases List.eq_nil_or_concat post with rfl | ⟨post', c', rfl⟩
  · obtain ⟨rfl, hlast⟩ := List.append_inj' heq rfl
    exact hc k (List.singleton_inj.mp hlast)
  · rw [List.concat_eq_append, ← List.cons_append, ← List.append_assoc] at heq
    obtain ⟨hcalls, -⟩ := List.append_inj' heq rfl
    exact h pre k post' hcalls

/-- A task without an id is spawned. -/
theorem spawn (h : Registered ids pending ctr map calls) (hx : ids x = none) :
    Registered (Function.update ids x (some (ctr + 1))) (Function.update pending x true) (ctr + 1)
      (Function.update map (ctr + 1) true) (calls ++ [.setTaskId (ctr + 1)]) where
  bound := by
    intro y k hy
    by_cases hyx : y = x
    · subst hyx
      rw [Function.update_self, Option.some.injEq] at hy
      omega
    · rw [Function.update_of_ne hyx] at hy
      have := h.bound y k hy
      omega
  unique := by
    intro y z k hy hz
    by_cases hyx : y = x <;> by_cases hzx : z = x
    · rw [hyx, hzx]
    · subst hyx
      rw [Function.update_self, Option.some.injEq] at hy
      rw [Function.update_of_ne hzx] at hz
      have := h.bound z k hz
      omega
    · subst hzx
      rw [Function.update_self, Option.some.injEq] at hz
      rw [Function.update_of_ne hyx] at hy
      have := h.bound y k hy
      omega
    · rw [Function.update_of_ne hyx] at hy
      rw [Function.update_of_ne hzx] at hz
      exact h.unique y z k hy hz
  hasId := by
    intro y hy
    by_cases hyx : y = x
    · subst hyx
      exact ⟨ctr + 1, Function.update_self ..⟩
    · rw [Function.update_of_ne hyx] at hy ⊢
      exact h.hasId y hy
  keys := by
    intro k
    by_cases hk : k = ctr + 1
    · subst hk
      rw [Function.update_self]
      exact iff_of_true rfl ⟨x, Function.update_self .., Function.update_self ..⟩
    · rw [Function.update_of_ne hk, h.keys]
      have hne : ∀ y, ids y = some k → y ≠ x := by
        rintro y hy rfl
        rw [hx] at hy
        cases hy
      constructor
      · rintro ⟨y, hp, hy⟩
        refine ⟨y, ?_, ?_⟩
        · rw [Function.update_of_ne (hne y hy), hp]
        · rw [Function.update_of_ne (hne y hy), hy]
      · rintro ⟨y, hp, hy⟩
        by_cases hyx : y = x
        · subst hyx
          rw [Function.update_self, Option.some.injEq] at hy
          exact absurd hy.symm hk
        · rw [Function.update_of_ne hyx] at hp hy
          exact ⟨y, hp, hy⟩
  log := by
    intro k
    rw [unconsumed_concat, ← h.log]
    by_cases hk : k = ctr + 1
    · subst hk
      simp
    · simp [Function.update_of_ne hk, Ne.symm hk]
  preceded := preceded_concat h.preceded (by simp)

/-- A pending task is in the map. -/
theorem mem (h : Registered ids pending ctr map calls) (hp : pending x = true)
    (hx : ids x = some k) : map k = true := (h.keys k).mpr ⟨x, hp, hx⟩

/-- A pending task begins, and consumes its id. -/
theorem begin (h : Registered ids pending ctr map calls) (hp : pending x = true)
    (hx : ids x = some k) :
    Registered ids (Function.update pending x false) ctr (Function.update map k false)
      (calls ++ [.execBegin k]) where
  bound := h.bound
  unique := h.unique
  hasId := by
    intro y hy
    by_cases hyx : y = x
    · subst hyx
      exact ⟨k, hx⟩
    · rw [Function.update_of_ne hyx] at hy
      exact h.hasId y hy
  keys := by
    intro j
    by_cases hj : j = k
    · subst hj
      rw [Function.update_self]
      refine iff_of_false Bool.false_ne_true ?_
      rintro ⟨y, hpy, hy⟩
      rw [h.unique y x j hy hx, Function.update_self] at hpy
      cases hpy
    · rw [Function.update_of_ne hj, h.keys]
      constructor
      · rintro ⟨y, hpy, hy⟩
        refine ⟨y, ?_, hy⟩
        rw [Function.update_of_ne, hpy]
        rintro rfl
        exact hj (Option.some.inj (hy.symm.trans hx))
      · rintro ⟨y, hpy, hy⟩
        refine ⟨y, ?_, hy⟩
        by_cases hyx : y = x
        · subst hyx
          exact hp
        · rwa [Function.update_of_ne hyx] at hpy
  log := by
    intro j
    rw [unconsumed_concat, ← h.log]
    by_cases hj : j = k
    · subst hj
      simp
    · simp [Function.update_of_ne hj, Ne.symm hj]
  preceded := by
    apply preceded_concat h.preceded
    rintro j hj
    obtain rfl := Call.execBegin.inj hj
    exact (h.log k).mp (h.mem hp hx)

/-- A task that is not pending leaves. -/
theorem free (h : Registered ids pending ctr map calls) (hp : pending x = false) :
    Registered (Function.update ids x none) pending ctr map calls where
  bound := by
    intro y j hy
    by_cases hyx : y = x
    · subst hyx
      rw [Function.update_self] at hy
      cases hy
    · rw [Function.update_of_ne hyx] at hy
      exact h.bound y j hy
  unique := by
    intro y z j hy hz
    by_cases hyx : y = x
    · subst hyx
      rw [Function.update_self] at hy
      cases hy
    · by_cases hzx : z = x
      · subst hzx
        rw [Function.update_self] at hz
        cases hz
      · rw [Function.update_of_ne hyx] at hy
        rw [Function.update_of_ne hzx] at hz
        exact h.unique y z j hy hz
  hasId := by
    intro y hy
    have hyx : y ≠ x := by
      rintro rfl
      rw [hp] at hy
      cases hy
    rw [Function.update_of_ne hyx]
    exact h.hasId y hy
  keys := by
    intro j
    rw [h.keys]
    apply exists_congr
    intro y
    by_cases hyx : y = x
    · subst hyx
      rw [hp]
      simp
    · rw [Function.update_of_ne hyx]
  log := h.log
  preceded := h.preceded

end Registered

/-! ## Tasks of a state -/

section Views

variable {ρ R : Type}

/-- Ready, and `execute` will call `__exec_begin__`. -/
def Task.pending (task : Task ρ R) : Bool :=
  match task.status with
  | .ready _ => task.cls.instrumented
  | _ => false

namespace World

variable (w : World ρ R)

/-- The id of a task. -/
def idOf (x : ℕ) : Option ℕ := (w.tasks x).bind Task.taskId

def pending (x : ℕ) : Bool := ((w.tasks x).map Task.pending).getD false

/-- The ids of the pending tasks are the keys of `temp_cur_map`. -/
def Registered : Prop := Tbb.Registered w.idOf w.pending w.taskIdCtr w.tempCurMap w.calls

end World

/-- Every instrumented execution finds its node: a task that is ready has a
    `CaptureSetTaskId` that is not consumed, and its start does not throw; so was
    every `__exec_begin__` before; and when the algorithm has returned, no entry is
    left. -/
structure FindsNode (w : World ρ R) : Prop where
  registered : ∀ x task, w.tasks x = some task → task.pending = true →
    ∃ k, task.taskId = some k ∧ Unconsumed w.calls k
  found : ∀ x stolen fault, w.start x stolen ≠ some (.error fault)
  preceded : ∀ pre k post, w.calls = pre ++ .execBegin k :: post → Unconsumed pre k
  empty : w.caller = .returned → ∀ k, w.tempCurMap k = false

end Views

end TaskProf.Tbb
