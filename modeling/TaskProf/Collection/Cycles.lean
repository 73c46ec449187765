import TaskProf.Collection.Operations

/-!
# The cycles of a run

The counter of a thread is read when a call begins and starts again when the call
returns. What the threads have worked is in the log or in a counter that runs.

* `counted`: the cycles on the counter of a thread that computes.
* `step_cycles`: an event moves cycles from the counter to the log.
* `cycles_logged`: at the end the log has the cycles of every thread, up to whole
  turns of the 64-bit counter.
-/

namespace TaskProf.Collection

variable {κ : Type}

/-- The cycles that thread `t` works in an event. -/
def Event.cycles (t : ThreadId) : Event κ → ℕ
  | .work u w _ => if u = t then w.toNat else 0
  | _ => 0

/-- The cycles that the STEP entries of thread `t` have. -/
def cyclesOf (t : ThreadId) (log : List LogEntry) : ℕ :=
  ((log.filter fun e => e.threadid = t ∧ e.nodeType = .step).map fun e => e.work.toNat).sum

theorem cyclesOf_append (t : ThreadId) (log es : List LogEntry) :
    cyclesOf t (log ++ es) = cyclesOf t log + cyclesOf t es := by
  unfold cyclesOf
  rw [List.filter_append, List.map_append, List.sum_append]

/-- Entries without work. -/
theorem cyclesOf_eq_zero {t : ThreadId} {es : List LogEntry} (h : ∀ e ∈ es, e.work = 0) :
    cyclesOf t es = 0 := by
  unfold cyclesOf
  apply List.sum_eq_zero
  intro n hn
  obtain ⟨e, he, rfl⟩ := List.mem_map.mp hn
  rw [h e (List.mem_filter.mp he).1]
  rfl

theorem cyclesOf_step (t : ThreadId) {e : LogEntry} (he : e.nodeType = .step) :
    cyclesOf t [e] = if e.threadid = t then e.work.toNat else 0 := by
  unfold cyclesOf
  rw [List.filter_singleton]
  by_cases ht : e.threadid = t <;> simp [ht, he]

namespace Sys

/-- The cycles on the counter of a thread, while its innermost activation computes. -/
def counted (l : List (Activation κ)) (count : SizeT) : ℕ :=
  match l with
  | [] => 0
  | a :: _ =>
    match a.phase with
    | .running => count.toNat
    | _ => 0

/-- The cycles of thread `t` that are in the log or on its counter. -/
def cycles (s : Sys κ) (t : ThreadId) : ℕ :=
  cyclesOf t s.graph.logged + counted (s.threads t) (s.counter t)

theorem counted_running {a : Activation κ} (ha : a.phase = .running) (rest : List (Activation κ))
    (count : SizeT) : counted (a :: rest) count = count.toNat := by
  rw [counted, ha]

theorem counted_of_ne {a : Activation κ} (ha : a.phase ≠ .running) (rest : List (Activation κ))
    (count : SizeT) : counted (a :: rest) count = 0 := by
  unfold counted
  dsimp only
  split
  · next hp => exact absurd hp ha
  · rfl

/-- A counter that has been started again. -/
theorem counted_zero (l : List (Activation κ)) : counted l 0 = 0 := by
  unfold counted
  split
  · rfl
  · split <;> rfl

/-- Below the innermost activation nothing computes. -/
theorem Nested.counted_tail {a : Activation κ} {rest : List (Activation κ)}
    (h : Nested (a :: rest)) (count : SizeT) : counted rest count = 0 := by
  cases rest with
  | nil => rfl
  | cons b rest => exact counted_of_ne (not_running_of_waits (h b List.mem_cons_self)) _ _

theorem counted_of_canExecute {s : Sys κ} {t : ThreadId} (hc : s.canExecute t = true)
    (count : SizeT) : counted (s.threads t) count = 0 := by
  cases ht : s.threads t with
  | nil => rfl
  | cons a rest =>
    apply counted_of_ne
    intro hp
    unfold canExecute at hc
    simp [ht, hp] at hc

section Step

variable {s s' : Sys κ} {t u : ThreadId}

/-- A thread that changes its activations and starts its counter again, and logs `es`. -/
theorem cycles_restart {G : AFTaskGraph} {l : List (Activation κ)} {es : List LogEntry}
    (hg : s'.graph = G) (ht : s'.threads = Function.update s.threads u l)
    (hcount : s'.counter = Function.update s.counter u 0)
    (hlog : G.logged = s.graph.logged ++ es) (hes : ∀ e ∈ es, e.work = 0)
    (hidle : counted (s.threads u) (s.counter u) = 0) : s'.cycles t = s.cycles t := by
  unfold cycles
  rw [hg, hlog, cyclesOf_append, cyclesOf_eq_zero hes, ht, hcount, Nat.add_zero]
  by_cases htu : t = u
  · subst htu
    rw [Function.update_self, Function.update_self, counted_zero, hidle]
  · rw [Function.update_of_ne htu, Function.update_of_ne htu]

/-- A thread logs what is on its counter, and computes no more. -/
theorem cycles_log {G : AFTaskGraph} {a : Activation κ} {rest l : List (Activation κ)}
    {d : LogEntry} (hg : s'.graph = G) (ht : s'.threads = Function.update s.threads u l)
    (hcount : s'.counter = s.counter) (hlog : G.logged = s.graph.logged ++ [d])
    (hd : d.threadid = u ∧ d.work = s.counter u) (hstep : d.nodeType = .step)
    (hold : s.threads u = a :: rest) (hp : a.phase = .running)
    (hidle : counted l (s.counter u) = 0) : s'.cycles t = s.cycles t := by
  unfold cycles
  rw [hg, hlog, cyclesOf_append, cyclesOf_step t hstep, ht, hcount, hd.1, hd.2]
  by_cases htu : t = u
  · subst htu
    rw [Function.update_self, if_pos rfl, hidle, hold, counted_running hp, Nat.add_zero]
  · rw [Function.update_of_ne htu, if_neg (Ne.symm htu), Nat.add_zero]

/-- An event adds the cycles that it works, up to a turn of the counter. -/
theorem step_cycles {e : Event κ} (h : s.Orderly) (he : s.Step e s') (t : ThreadId) :
    ∃ turns, s.cycles t + e.cycles t = s'.cycles t + 2 ^ 64 * turns := by
  -- only `work` adds cycles
  have hsame : e.cycles t = 0 → s'.cycles t = s.cycles t →
      ∃ turns, s.cycles t + e.cycles t = s'.cycles t + 2 ^ 64 * turns := by
    intro h0 heq
    refine ⟨0, ?_⟩
    omega
  cases e with
  | work u w code =>
    obtain ⟨a, rest, ht, hp, rfl⟩ := step_work he
    unfold cycles
    show ∃ turns, cyclesOf t s.graph.logged + counted (s.threads t) (s.counter t) +
      (if u = t then w.toNat else 0) = cyclesOf t s.graph.logged +
        counted (Function.update s.threads u ({ a with code := code } :: rest) t)
          (Function.update s.counter u (s.counter u + w) t) + 2 ^ 64 * turns
    by_cases htu : t = u
    · subst htu
      rw [Function.update_self, Function.update_self, if_pos rfl, ht, counted_running hp,
        counted_running (a := { a with code := code }) hp, BitVec.toNat_add]
      refine ⟨((s.counter t).toNat + w.toNat) / 2 ^ 64, ?_⟩
      have := Nat.mod_add_div ((s.counter t).toNat + w.toNat) (2 ^ 64)
      omega
    · rw [Function.update_of_ne htu, Function.update_of_ne htu, if_neg (Ne.symm htu)]
      exact ⟨0, rfl⟩
  | entry u call code =>
    obtain ⟨a, rest, curNode, stk, ht, hp, -, hs, rfl⟩ := step_entry he
    apply hsame rfl
    exact cycles_log rfl rfl rfl rfl ⟨rfl, rfl⟩ rfl ht hp (counted_of_ne (entryPhase_ne call) _ _)
  | register u =>
    obtain ⟨a, rest, call, phase, effect, body, G, ht, hp, hr, hc, rfl⟩ :=
      step_register he (h.fresh _ (Nat.lt_succ_self _))
    apply hsame rfl
    have hidle : counted (s.threads u) (s.counter u) = 0 := by
      rw [ht]
      apply counted_of_ne
      rw [hp]
      exact fun h => nomatch h
    cases hc with
    | spawnAsync _ _ hsp | spawnFinish _ _ hsp | rootFinish _ hsp | waitAsync _ _ hsp
    | waitFinish _ _ hsp => exact cycles_restart rfl rfl rfl hsp.logged (by simp) hidle
  | execute u k =>
    obtain ⟨body, node, hc, -, -, rfl⟩ := step_execute he
    apply hsame rfl
    exact cycles_restart rfl rfl rfl (List.append_nil _).symm (by simp)
      (counted_of_canExecute hc _)
  | resume u =>
    obtain ⟨a, rest, ht, ⟨hp, curNode, stk, -, rfl⟩ | ⟨hp, node, curNode, stk, -, rfl⟩⟩ :=
      step_resume he
    all_goals
      apply hsame rfl
      refine cycles_restart rfl rfl rfl rfl (by simp) ?_
      rw [ht]
      apply counted_of_ne
      rw [hp]
      exact fun h => nomatch h
  | leave u =>
    obtain ⟨a, rest, curNode, stk, ht, hp, -, ⟨-, rfl⟩ | ⟨-, node, stk', -, rfl⟩⟩ := step_leave he
    all_goals
      apply hsame rfl
      have hnested := h.nested u
      rw [ht] at hnested
      unfold cycles
      show _ + counted (Function.update s.threads u rest t) (s.counter t) = _
      by_cases htu : t = u
      · subst htu
        have hne : a.phase ≠ .running := by
          rw [hp]
          exact fun h => nomatch h
        rw [Function.update_self, ht, hnested.counted_tail, counted_of_ne hne]
        rfl
      · rw [Function.update_of_ne htu]
        rfl
  | fini =>
    obtain ⟨a, curNode, stk, ht, hp, -, -, rfl⟩ := step_fini he
    apply hsame rfl
    exact cycles_log rfl rfl rfl rfl ⟨rfl, rfl⟩ rfl ht hp rfl

end Step

section Runs

variable {s : Sys κ} {main : κ} {es : List (Event κ)} {ok : Sys κ → Event κ → Prop}

/-- The cycles that thread `t` works in a run. -/
def workedBy (t : ThreadId) (es : List (Event κ)) : ℕ := (es.map (Event.cycles t)).sum

/-- After every run the cycles of a thread are in the log or on its counter. -/
theorem Run.cycles (h : Run ok (init main) es s) (t : ThreadId) :
    s.Orderly ∧ ∃ turns, workedBy t es = s.cycles t + 2 ^ 64 * turns := by
  induction h with
  | nil =>
    refine ⟨orderly_init main, 0, ?_⟩
    unfold Sys.cycles
    have hlogged : cyclesOf t (init main).graph.logged = 0 := by
      apply cyclesOf_eq_zero
      intro e he
      rw [List.mem_singleton.mp he]
    rw [show (init main).counter t = 0 from rfl, counted_zero, hlogged]
    rfl
  | snoc _ _ he ih =>
    obtain ⟨ho, turns, hturns⟩ := ih
    obtain ⟨more, hmore⟩ := step_cycles ho he t
    refine ⟨ho.step he, turns + more, ?_⟩
    unfold workedBy at hturns ⊢
    rw [List.map_append, List.sum_append, hturns, List.map_singleton, List.sum_singleton]
    omega

/-- **No cycle is lost.** When a run has ended, the STEP entries of every thread have the
    cycles that the thread has worked, up to whole turns of its 64-bit counter, and
    exactly these if it has worked fewer than `2 ^ 64`. -/
theorem cycles_logged (h : Run ok (init main) es s) (hf : s.finished = true) (t : ThreadId) :
    (∃ turns, workedBy t es = cyclesOf t s.graph.logged + 2 ^ 64 * turns) ∧
      (workedBy t es < 2 ^ 64 → cyclesOf t s.graph.logged = workedBy t es) := by
  obtain ⟨ho, turns, hturns⟩ := h.cycles t
  have hend : s.cycles t = cyclesOf t s.graph.logged := by
    unfold Sys.cycles
    rw [(ho.ended hf).1 t]
    rfl
  rw [hend] at hturns
  refine ⟨⟨turns, hturns⟩, fun hlt => ?_⟩
  have hzero : turns = 0 := by
    by_contra hne
    have := Nat.pos_of_ne_zero hne
    omega
  rw [hturns, hzero]
  rfl

/-- The cycles of `forkRun`, on both threads. -/
theorem forkRun_cycles : ∃ s, exec (fun _ _ => true) (init ()) forkRun = some s ∧
    cyclesOf 0 s.graph.logged = 9 ∧ cyclesOf 1 s.graph.logged = 5 := by
  obtain ⟨s, hs⟩ := Option.isSome_iff_exists.mp
    (show (exec (fun _ _ => true) (init ()) forkRun).isSome = true by decide)
  have hf : (exec (fun _ _ => true) (init ()) forkRun).map Sys.finished = some true := by decide
  rw [hs, Option.map_some, Option.some.injEq] at hf
  have hcycles := fun t => (cycles_logged (run_of_exec hs) hf t).2
  exact ⟨s, hs, hcycles 0 (by decide), hcycles 1 (by decide)⟩

end Runs

end Sys

end TaskProf.Collection
