import TaskProf.Collection.Balance
import TaskProf.Collection.Lines

/-!
# The callbacks of a thread in a run

`TP_CaptureBeginOptimize` and `TP_CaptureEndOptimize` may come at any time while a
task runs. They leave the task graph as it is and start the cycle counter again,
so a run with them is a run of the task graph.

* `Traced`: a run of a program, with the callbacks of one of its threads.
* `Traced.reachable`: the task graph is one of a run.
* `Traced.issued`, `Traced.logged`: the thread calls `log` in the right order, with
  the entries that the task graph has recorded for it.
-/

namespace TaskProf.Collection

/-- The arguments of `log`. -/
def LogEntry.args (e : LogEntry) : LogArgs :=
  ⟨BitVec.ofNat 64 e.nodeId, BitVec.ofNat 64 e.parent, e.work, e.nodeType, e.retAddr⟩

/-- The calls of `log` by thread `t`. -/
def logsOf (t : ThreadId) (es : List LogEntry) : List Callback :=
  (es.filter fun e => e.threadid = t).map fun e => .log e.args

theorem logged_logsOf (t : ThreadId) (es : List LogEntry) :
    logged (logsOf t es) = (es.filter fun e => e.threadid = t).map LogEntry.args := by
  unfold logsOf
  induction es.filter fun e => e.threadid = t with
  | nil => rfl
  | cons e l ih => exact congrArg (e.args :: ·) ih

/-! ## The order of the callbacks -/

theorem Issued.concat {cs : List Callback} {c : Callback} (h : Issued cs)
    (hc : ∀ a, c = .log a → regionsOf (Unbuffered.after cs).since ≠ none → a.nodeType = .step) :
    Issued (cs ++ [c]) := by
  intro pre a post heq
  rcases List.eq_nil_or_concat post with rfl | ⟨post', c', rfl⟩
  · obtain ⟨rfl, hlog⟩ := List.append_inj' heq rfl
    exact hc a (List.singleton_inj.mp hlog)
  · rw [List.concat_eq_append, ← List.cons_append, ← List.append_assoc] at heq
    obtain ⟨rfl, -⟩ := List.append_inj' heq rfl
    exact h pre a post' rfl

/-- Calls of `log` with no region pending. -/
theorem Issued.append_logs {cs : List Callback} (h : Issued cs)
    (hnone : regionsOf (Unbuffered.after cs).since = none) (as : List LogArgs) :
    Issued (cs ++ as.map .log) ∧
      regionsOf (Unbuffered.after (cs ++ as.map .log)).since = none := by
  induction as generalizing cs with
  | nil =>
    rw [List.map_nil, List.append_nil]
    exact ⟨h, hnone⟩
  | cons a as ih =>
    have hcons : cs ++ (a :: as).map Callback.log = cs ++ [.log a] ++ as.map .log := by
      rw [List.map_cons, List.append_assoc, List.singleton_append]
    rw [hcons]
    apply ih (h.concat fun _ _ hne => absurd hnone hne)
    rw [Unbuffered.after_concat]
    rfl

namespace Sys

variable {κ : Type}

/-- A run of `main` up to the state `s`, and the callbacks `cs` of thread `t` in it. -/
inductive Traced (main : κ) (t : ThreadId) : Sys κ → List Callback → Prop
  | init : Traced main t (init main) (logsOf t (init main).graph.logged)
  | event {s s' : Sys κ} {cs : List Callback} {e : Event κ} {es : List LogEntry}
      (h : Traced main t s cs) (he : s.Step e s') (hne : e ≠ .fini)
      (hlog : s'.graph.logged = s.graph.logged ++ es) : Traced main t s' (cs ++ logsOf t es)
  | beginOptimize {s : Sys κ} {cs : List Callback} {u : ThreadId} {a : Activation κ}
      {rest : List (Activation κ)} {curNode : AFTask} {stk : List AFTask}
      (h : Traced main t s cs) (ht : s.threads u = a :: rest) (hp : a.phase = .running)
      (hs : s.graph.curDpstIndex u = curNode :: stk) :
      Traced main t (s.setCounter u 0) (cs ++ if u = t then
        [.beginOptimize (BitVec.ofNat 64 curNode.childId) (BitVec.ofNat 64 curNode.nodeId)
          (s.counter u)] else [])
  | endOptimize {s : Sys κ} {cs : List Callback} {u : ThreadId} {a : Activation κ}
      {rest : List (Activation κ)} {curNode : AFTask} {stk : List AFTask}
      (h : Traced main t s cs) (ht : s.threads u = a :: rest) (hp : a.phase = .running)
      (hs : s.graph.curDpstIndex u = curNode :: stk) (returnAddress : SizeT) :
      Traced main t (s.setCounter u 0) (cs ++ if u = t then
        [.endOptimize (BitVec.ofNat 64 curNode.childId) (BitVec.ofNat 64 curNode.nodeId)
          (s.counter u) returnAddress] else [])

section Steps

variable {s s' : Sys κ} {main : κ} {t : ThreadId} {cs : List Callback}

/-- Starting the counter again is as good as work that wraps it to zero. -/
theorem step_setCounter {a : Activation κ} {rest : List (Activation κ)}
    (ht : s.threads t = a :: rest) (hp : a.phase = .running) :
    s.Step (.work t (0 - s.counter t) a.code) (s.setCounter t 0) := by
  obtain ⟨isMain, node, code, phase, effects⟩ := a
  dsimp only at hp
  subst hp
  have hset : s.setThread t (⟨isMain, node, code, .running, effects⟩ :: rest) = s := by
    unfold setThread
    rw [← ht, Function.update_eq_self]
  have hcount : s.counter t + (0 - s.counter t) = 0 := add_sub_cancel _ _
  unfold Step step onTop
  simp only [ht]
  rw [hset, hcount]

theorem Traced.reachable (h : Traced main t s cs) : Reachable main s := by
  induction h with
  | init => exact ⟨[], .nil⟩
  | event _ he _ _ ih => exact ih.step he
  | beginOptimize _ ht hp _ ih => exact ih.step (step_setCounter ht hp)
  | endOptimize _ ht hp _ _ ih => exact ih.step (step_setCounter ht hp)

/-- The entries logged by an event are those of its thread. While a task runs it
    logs nothing, or one STEP. -/
theorem step_logged {e : Event κ} (h : s.Orderly) (he : s.Step e s') :
    ∃ es, s'.graph.logged = s.graph.logged ++ es ∧
      (∀ d ∈ es, d.threadid = e.thread ∧ d.nodeType ≠ .noType) ∧
      ∀ a rest, s.threads e.thread = a :: rest → a.phase = .running →
        (es = [] ∧ ∃ a', s'.threads e.thread = a' :: rest ∧ a'.phase = .running) ∨
          ∃ d, es = [d] ∧ d.nodeType = .step := by
  -- an event of an activation that does not run
  have hidle : ∀ {a : Activation κ} {rest} {es : List LogEntry} {u : ThreadId},
      s.threads u = a :: rest → a.phase ≠ .running → ∀ a' rest', s.threads u = a' :: rest' →
        a'.phase = .running → (es = [] ∧ ∃ a'', s'.threads u = a'' :: rest' ∧ a''.phase = .running) ∨
          ∃ d, es = [d] ∧ d.nodeType = .step := by
    intro a rest es u ht hp a' rest' ht' hp'
    rw [ht] at ht'
    obtain ⟨rfl, -⟩ := List.cons.inj ht'
    exact absurd hp' hp
  cases e with
  | work u w code =>
    obtain ⟨a, rest, ht, hp, rfl⟩ := step_work he
    refine ⟨[], (List.append_nil _).symm, fun d hd => absurd hd List.not_mem_nil,
      fun a' rest' ht' hp' => .inl ⟨rfl, { a with code := code }, ?_, hp⟩⟩
    obtain ⟨-, rfl⟩ := List.cons.inj (ht.symm.trans ht')
    exact Function.update_self ..
  | entry u call code =>
    obtain ⟨a, rest, curNode, stk, ht, hp, -, hs, rfl⟩ := step_entry he
    refine ⟨[⟨u, curNode.childId, curNode.nodeId, s.counter u, .step, 0⟩], rfl, fun d hd => ?_,
      fun a' rest' ht' hp' => .inr ⟨_, rfl, rfl⟩⟩
    rw [List.mem_singleton.mp hd]
    exact ⟨rfl, by simp⟩
  | register u =>
    obtain ⟨a, rest, call, phase, effect, body, G, ht, hp, hr, hc, rfl⟩ :=
      step_register he (h.fresh _ (Nat.lt_succ_self _))
    have hne : a.phase ≠ .running := by
      rw [hp]
      simp
    cases hc with
    | rootFinish hs hsp =>
      refine ⟨_, hsp.logged, fun d hd => ?_, hidle ht hne⟩
      rw [List.mem_singleton.mp hd]
      exact ⟨rfl, by simp⟩
    | spawnAsync hs hy hsp | waitAsync hs hy hsp =>
      refine ⟨_, hsp.logged, fun d hd => ?_, hidle ht hne⟩
      rw [List.mem_singleton.mp hd]
      exact ⟨rfl, by simp⟩
    | spawnFinish hs hy hsp | waitFinish hs hy hsp =>
      refine ⟨_, hsp.logged, fun d hd => ?_, hidle ht hne⟩
      simp only [List.mem_cons, List.not_mem_nil, or_false] at hd
      rcases hd with rfl | rfl <;> exact ⟨rfl, by simp⟩
  | execute u k =>
    obtain ⟨body, node, hc, hb, hn, rfl⟩ := step_execute he
    refine ⟨[], (List.append_nil _).symm, fun d hd => absurd hd List.not_mem_nil,
      fun a rest ht hp => ?_⟩
    have ht : s.threads u = a :: rest := ht
    unfold canExecute at hc
    simp [ht, hp] at hc
  | resume u =>
    obtain ⟨a, rest, ht, ⟨hp, curNode, stk, hs, rfl⟩ | ⟨hp, node, curNode, stk, hs, rfl⟩⟩ :=
      step_resume he
    all_goals
      have hne : a.phase ≠ .running := by
        rw [hp]
        simp
      exact ⟨[], rfl, fun d hd => absurd hd List.not_mem_nil, hidle ht hne⟩
  | leave u =>
    obtain ⟨a, rest, curNode, stk, ht, hp, hs, ⟨-, rfl⟩ | ⟨-, node, stk', -, rfl⟩⟩ := step_leave he
    all_goals
      have hne : a.phase ≠ .running := by
        rw [hp]
        simp
      exact ⟨[], (List.append_nil _).symm, fun d hd => absurd hd List.not_mem_nil, hidle ht hne⟩
  | fini =>
    obtain ⟨a, curNode, stk, ht, hp, hq, hs, rfl⟩ := step_fini he
    refine ⟨[⟨0, curNode.childId, curNode.nodeId, s.counter 0, .step, 0⟩], rfl, fun d hd => ?_,
      fun a' rest' ht' hp' => .inr ⟨_, rfl, rfl⟩⟩
    rw [List.mem_singleton.mp hd]
    exact ⟨rfl, by simp⟩

/-- The calls of `log` are those that the task graph has recorded. -/
theorem Traced.logged (h : Traced main t s cs) :
    Collection.logged cs =
      (s.graph.logged.filter fun e => e.threadid = t).map LogEntry.args := by
  induction h with
  | init => exact logged_logsOf t _
  | event _ _ _ hlog ih =>
    rw [logged_append, ih, logged_logsOf, hlog, List.filter_append, List.map_append]
  | beginOptimize _ _ _ _ ih =>
    rw [logged_append, ih]
    split_ifs <;> exact List.append_nil _
  | endOptimize _ _ _ _ _ ih =>
    rw [logged_append, ih]
    split_ifs <;> exact List.append_nil _

/-- Every recorded entry has a type. -/
theorem Traced.types (h : Traced main t s cs) : ∀ d ∈ s.graph.logged, d.nodeType ≠ .noType := by
  induction h with
  | init =>
    intro d hd
    rw [List.mem_singleton.mp hd]
    simp
  | event h he _ hlog ih =>
    obtain ⟨es, hlog', hes, -⟩ := step_logged h.reachable.orderly he
    intro d hd
    rw [hlog'] at hd
    rcases List.mem_append.mp hd with hd | hd
    · exact ih d hd
    · exact (hes d hd).2
  | beginOptimize _ _ _ _ ih => exact ih
  | endOptimize _ _ _ _ _ ih => exact ih

/-- A region is pending only while the task runs that has ended it, and then the
    next call of `log` is for a STEP. -/
theorem Traced.issued (h : Traced main t s cs) :
    Issued cs ∧ (regionsOf (Unbuffered.after cs).since ≠ none →
      ∃ a rest, s.threads t = a :: rest ∧ a.phase = .running) := by
  induction h with
  | init =>
    have hnil : Issued [] := by
      intro pre a post h
      exact absurd h (List.append_ne_nil_of_right_ne_nil _ (List.cons_ne_nil _ _)).symm
    obtain ⟨h1, h2⟩ := hnil.append_logs rfl
      (((Sys.init main).graph.logged.filter fun e => e.threadid = t).map LogEntry.args)
    rw [List.map_map, List.nil_append] at h1 h2
    exact ⟨h1, fun hne => absurd h2 hne⟩
  | @event s s' cs e es h he hne hlog ih =>
    obtain ⟨hi, hrun⟩ := ih
    obtain ⟨es', hlog', hes, hstep⟩ := step_logged h.reachable.orderly he
    obtain rfl : es = es' := List.append_cancel_left (hlog.symm.trans hlog')
    by_cases hu : e.thread = t
    · have hall : es.filter (fun d => d.threadid = t) = es :=
        List.filter_eq_self.mpr fun d hd => decide_eq_true ((hes d hd).1.trans hu)
      by_cases hreg : regionsOf (Unbuffered.after cs).since = none
      · obtain ⟨h1, h2⟩ := hi.append_logs hreg
          ((es.filter fun d => d.threadid = t).map LogEntry.args)
        rw [List.map_map] at h1 h2
        exact ⟨h1, fun hne => absurd h2 hne⟩
      · obtain ⟨a, rest, ht, hp⟩ := hrun hreg
        rw [hu] at hstep
        rcases hstep a rest ht hp with ⟨rfl, a', ht', hp'⟩ | ⟨d, rfl, hd⟩
        · rw [show logsOf t [] = [] from rfl, List.append_nil]
          exact ⟨hi, fun _ => ⟨a', rest, ht', hp'⟩⟩
        · have hlogs : logsOf t [d] = [.log d.args] := by
            unfold logsOf
            rw [hall]
            rfl
          rw [hlogs]
          refine ⟨hi.concat fun b hb _ => ?_, fun hne => absurd ?_ hne⟩
          · rw [← Callback.log.inj hb]
            exact hd
          · rw [Unbuffered.after_concat]
            rfl
    · have hnone : logsOf t es = [] := by
        unfold logsOf
        rw [List.filter_eq_nil_iff.mpr, List.map_nil]
        intro d hd
        rw [decide_eq_true_eq, (hes d hd).1]
        exact hu
      rw [hnone, List.append_nil, (step_frame h.reachable.orderly he hu).1]
      exact ⟨hi, hrun⟩
  | beginOptimize _ ht hp _ ih =>
    obtain ⟨hi, hrun⟩ := ih
    split_ifs with hu
    · refine ⟨hi.concat fun b hb => ?_, fun _ => ⟨_, _, hu ▸ ht, hp⟩⟩
      cases hb
    · rw [List.append_nil]
      exact ⟨hi, hrun⟩
  | endOptimize _ ht hp _ _ ih =>
    obtain ⟨hi, hrun⟩ := ih
    split_ifs with hu
    · refine ⟨hi.concat fun b hb => ?_, fun _ => ⟨_, _, hu ▸ ht, hp⟩⟩
      cases hb
    · rw [List.append_nil]
      exact ⟨hi, hrun⟩

end Steps

end Sys

end TaskProf.Collection
