import TaskProf.Tbb.Progress

/-!
# Every index once

* `Behaviour.Conserves`: an amount that the callbacks pass on or execute.
* `Change.amount`, `Run.amount`: what has been executed and what is left is what was
  there at the beginning.
* `Run.covers`: a `parallel_for` executes every index of its range once.
* `parallelFor_simple`: the same under `simple_partitioner`.
-/

namespace TaskProf.Tbb

variable {ρ χ R : Type}

/-- A callback passes `amount` on, but for what `run_body` executes. -/
structure Behaviour.Conserves (P : Behaviour ρ χ R) (ok : ρ → Prop) (amount : ρ → ℕ)
    (body : ρ → χ → ℕ) : Prop where
  offerWork : ∀ {work rest right : ρ} {choice : χ}, ok work →
    P.next work choice = .offerWork rest right → amount rest + amount right = amount work
  runBody : ∀ {work rest : ρ} {choice : χ}, ok work →
    P.next work choice = .runBody rest → amount rest + body work choice = amount work
  done : ∀ {work : ρ} {choice : χ}, ok work → P.next work choice = .done → amount work = 0

/-! ## Amounts -/

def TaskClass.amount (amount : ρ → ℕ) : TaskClass ρ R → ℕ
  | .startFor work => amount work
  | _ => 0

/-- The amount that a task has still to execute. -/
def Task.amount (amount : ρ → ℕ) (task : Task ρ R) : ℕ :=
  match task.status with
  | .executing (.returning _ _) => 0
  | _ => task.cls.amount amount

def Caller.amount (amount : ρ → ℕ) : Caller ρ R → ℕ
  | .call (.parallelFor work) => amount work
  | _ => 0

/-- The amount that is left. -/
def World.amount (amount : ρ → ℕ) (w : World ρ R) : ℕ :=
  total (Task.amount amount) w.tasks w.next + w.caller.amount amount

/-- The amount that has been executed. -/
def executed (body : ρ → χ → ℕ) (bodies : List (ρ × χ)) : ℕ := (bodies.map fun b => body b.1 b.2).sum

section Amounts

variable {P : Behaviour ρ χ R} {ok : ρ → Prop} {amount : ρ → ℕ} {body : ρ → χ → ℕ} {μ : ρ → ℕ}
  {w w' : World ρ R} {task task' : Task ρ R} {bodies : List (ρ × χ)} {new : List (Task ρ R)}
  {alg : Algorithm ρ R} {es : List (Event χ)}

theorem amount_of_status (amount : ρ → ℕ)
    (hs : ∀ recycled next, task.status ≠ .executing (.returning recycled next)) :
    task.amount amount = task.cls.amount amount := by
  unfold Task.amount
  split
  · next recycled next hs' => exact absurd hs' (hs recycled next)
  · rfl

theorem amount_entered (amount : ρ → ℕ) (hs : task.status = .executing .entered) :
    task.amount amount = task.cls.amount amount := by
  unfold Task.amount
  rw [hs]

/-- A task that is no `start_for`. -/
theorem amount_of_cls (amount : ρ → ℕ) (hc : task.cls.amount amount = 0) :
    task.amount amount = 0 := by
  unfold Task.amount
  split
  · rfl
  · exact hc

/-- A move passes the amount on, or executes a part of it. -/
theorem Moves.amount_eq (hm : Moves P w.next task bodies task' new) (hP : P.Conserves ok amount body)
    (h : task.Live ok) :
    task'.amount amount + (new.map (Task.amount amount)).sum + executed body bodies =
      task.amount amount := by
  cases hm with
  | start hs =>
    have hready : task.amount amount = task.cls.amount amount := by
      apply amount_of_status
      intro recycled next hs'
      rw [hs] at hs'
      cases hs'
    rw [hready]
    rfl
  | @offerWork work rest right choice k hs hc hnext =>
    have hrest : Task.amount (R := R) amount { task with
        cls := .startFor rest, parent := some w.next } = amount rest := amount_entered amount hs
    rw [amount_entered amount hs, hc, hrest]
    have hsum := hP.offerWork (h.work _ hc) hnext
    show amount rest + (0 + (amount right + 0)) + 0 = amount work
    omega
  | @runBody work rest choice hs hc hnext =>
    have hrest : Task.amount (R := R) amount { task with cls := .startFor rest } = amount rest :=
      amount_entered amount hs
    rw [amount_entered amount hs, hc, hrest]
    exact hP.runBody (h.work _ hc) hnext
  | done hs hc hnext =>
    rw [amount_entered amount hs, hc]
    exact (hP.done (h.work _ hc) hnext).symm
  | leave hs hc =>
    rw [amount_entered amount hs]
    rcases hc with hc | hc
    all_goals
      rw [hc]
      rfl
  | @scan f f' hs hc =>
    have hscan : Task.amount (R := R) amount { task with
        cls := .startScan f', status := .executing (.returning false none) } = 0 := rfl
    rw [amount_entered amount hs, hc, hscan]
    rfl
  | @setRefCount n hn hs hc | @spawn n left k x hs hc | @spawnAndWait n k x hs hc | @wake n hs hc =>
    -- a `spawner` executes nothing
    have hzero : task.cls.amount amount = 0 := by
      rw [hc]
      rfl
    have hsame : ∀ status refCount, Task.amount (R := R) amount { task with
        status := status, refCount := refCount } = 0 := fun _ _ => amount_of_cls amount hzero
    rw [amount_of_cls amount hzero]
    exact (Nat.add_zero _).trans ((Nat.add_zero _).trans (hsame _ _))

theorem amount_groupClass (n : ℕ) :
    (World.groupClass n : TaskClass ρ R).amount amount = 0 := by
  unfold World.groupClass
  split_ifs <;> rfl

theorem Calls.amount_eq {caller caller' : Caller ρ R} (hcall : Calls caller new caller')
    (amount : ρ → ℕ) :
    (new.map (Task.amount amount)).sum + caller'.amount amount = caller.amount amount := by
  cases hcall with
  | parallelFor | parallelInvoke | parallelScan | spawnAndWait => rfl
  | spawn n groups root k =>
    show TaskClass.amount amount (World.groupClass n : TaskClass ρ R) + 0 + 0 = 0
    rw [amount_groupClass]

/-- **What is left and what is executed.** -/
theorem Change.amount_eq (hc : Change P w w' bodies) (hP : P.Conserves ok amount body)
    (h : Live ok w) : w'.amount amount + executed body bodies = w.amount amount := by
  unfold World.amount
  cases hc with
  | @move x task task' bodies new hx hm ht hn hc =>
    have hmove := hm.amount_eq hP (h.tasks x task hx)
    have htotal := total_modify (f := Task.amount amount) hx (h.lt_next hx) task'
    rw [ht, hn, hc, total_place]
    omega
  | @finish x p task parent hx hs hp hpx hzero ht hn hc =>
    have hfree := total_free (f := Task.amount amount) hx (h.lt_next hx)
    have hp' : Function.update w.tasks x none p = some parent := by
      rw [Function.update_of_ne hpx, hp]
    have hmodify := total_modify (f := Task.amount amount) hp' (h.lt_next hp) { parent with
      refCount := parent.refCount - 1
      status := if parent.refCount - 1 = 0 then .ready true else parent.status }
    have hnone : task.amount amount = 0 := by
      unfold Task.amount
      rw [hs]
    have hsame : Task.amount amount { parent with
        refCount := parent.refCount - 1
        status := if parent.refCount - 1 = 0 then .ready true else parent.status } =
        parent.amount amount := by
      unfold Task.amount
      dsimp only
      split_ifs with h0
      · obtain ⟨hcls, hstatus⟩ := hzero h0
        rw [hcls, hstatus]
      · rfl
    have hno : executed body ([] : List (ρ × χ)) = 0 := rfl
    rw [ht, hn, hc, hno]
    omega
  | call hcall ht hn =>
    have hcaller := hcall.amount_eq amount
    have hno : executed body ([] : List (ρ × χ)) = 0 := rfl
    rw [ht, hn, total_place, hno]
    omega
  | ret hc hleft hnone hc' =>
    -- no `start_for` is left
    have hbefore : total (Task.amount amount) w.tasks w.next = 0 := by
      apply total_eq_zero
      intro x task hx
      apply amount_of_cls
      have hspawned := (h.tasks x task hx).spawned
      cases hcls : task.cls with
      | startFor work => exact absurd (hleft x task hx) (hspawned work hcls)
      | _ => rfl
    have hafter : total (Task.amount amount) w'.tasks w'.next = 0 := by
      apply total_eq_zero
      intro x task hx
      rw [hnone] at hx
      cases hx
    rw [hbefore, hafter, hc, hc']
    rfl

/-- What a run has executed, and what is left, is what was there. -/
theorem Run.amount_eq (hS : P.Shrinks ok μ) (hP : P.Conserves ok amount body) (halg : alg.Unsplit P)
    (hcall : alg.Callable ok) (h : Run P alg es bodies w) :
    executed body bodies + w.amount amount = Caller.amount amount (.call alg : Caller ρ R) := by
  induction h with
  | init =>
    have hzero : total (Task.amount amount) (World.init alg).tasks (World.init alg).next = 0 := rfl
    show 0 + (_ + _) = _
    rw [hzero]
    exact (Nat.zero_add _).trans (Nat.zero_add _)
  | @step es bodies w w' e h he ih =>
    have hstep := ((h.reachable.safe halg).change he).amount_eq hP (h.live hS halg hcall)
    have happend : executed body (bodies ++ w.bodiesOf P e) =
        executed body bodies + executed body (w.bodiesOf P e) := by
      unfold executed
      rw [List.map_append, List.sum_append]
    rw [happend]
    omega

/-- A run executes the bodies of sound partitions. -/
theorem Run.bodies_ok (hS : P.Shrinks ok μ) (halg : alg.Unsplit P) (hcall : alg.Callable ok)
    (h : Run P alg es bodies w) :
    ∀ b ∈ bodies, ok b.1 ∧ ∃ rest, P.next b.1 b.2 = .runBody rest := by
  induction h with
  | init => exact fun b hb => nomatch hb
  | @step es bodies w w' e h he ih =>
    intro b hb
    rcases List.mem_append.mp hb with hb | hb
    · exact ih b hb
    · have hlive := h.live hS halg hcall
      generalize hnew : w.bodiesOf P e = new at hb
      have hchange := (h.reachable.safe halg).change he
      rw [hnew] at hchange
      cases hchange with
      | @move x task task' bodies new hx hm =>
        cases hm with
        | @runBody work rest choice hs hc hnext =>
          obtain rfl := List.mem_singleton.mp hb
          exact ⟨(hlive.tasks x task hx).work _ hc, rest, hnext⟩
        | _ => cases hb
      | _ => cases hb

end Amounts

/-! ## Indices -/

section Indices

open BlockedRange (countIn countIn_nil countIn_cons countIn_append)

/-- The ranges that the bodies of a run have executed. -/
def rangesOf (ran : ρ → χ → List BlockedRange) (bodies : List (ρ × χ)) : List BlockedRange :=
  bodies.flatMap fun b => ran b.1 b.2

variable {P : Behaviour ρ χ R} {ok : ρ → Prop} {μ : ρ → ℕ} {ranges : ρ → List BlockedRange}
  {ran : ρ → χ → List BlockedRange} {work : ρ} {es : List (Event χ)} {bodies : List (ρ × χ)}
  {w : World ρ R} {i : SizeT}

theorem executed_countIn (ran : ρ → χ → List BlockedRange) (bodies : List (ρ × χ)) (i : SizeT) :
    executed (fun work choice => countIn i (ran work choice)) bodies =
      countIn i (rangesOf ran bodies) := by
  induction bodies with
  | nil => rfl
  | cons b bodies ih =>
    unfold rangesOf at ih ⊢
    rw [List.flatMap_cons, countIn_append, ← ih]
    unfold executed
    rw [List.map_cons, List.sum_cons]

/-- A `parallel_for` executes its indices at most as often as its range has them, and
    exactly as often when it has returned. -/
theorem Run.covers (hS : P.Shrinks ok μ)
    (hP : P.Conserves ok (fun work => countIn i (ranges work)) fun work choice =>
      countIn i (ran work choice))
    (hok : ok work) (h : Run P (.parallelFor work) es bodies w) :
    countIn i (rangesOf ran bodies) ≤ countIn i (ranges work) ∧
      (w.caller = .returned → countIn i (rangesOf ran bodies) = countIn i (ranges work)) := by
  have halg : (Algorithm.parallelFor work : Algorithm ρ R).Unsplit P := trivial
  have hsum := h.amount_eq hS hP halg hok
  rw [executed_countIn] at hsum
  have hinit : Caller.amount (fun work => countIn i (ranges work))
      (.call (.parallelFor work) : Caller ρ R) = countIn i (ranges work) := rfl
  rw [hinit] at hsum
  refine ⟨by omega, fun hret => ?_⟩
  have hstage := (h.reachable.safe halg).stage
  rw [hret] at hstage
  cases hstage with
  | returned hnone =>
    have hleft : w.amount (fun work => countIn i (ranges work)) = 0 := by
      unfold World.amount
      rw [hret, total_eq_zero]
      · rfl
      · intro x task hx
        rw [hnone] at hx
        cases hx
    omega

end Indices

/-! ## `simple_partitioner` -/

section Simple

open BlockedRange (countIn countIn_nil countIn_cons)

/-- The range that is left, and that `run_body` executes. -/
def simpleRanges (work : Option BlockedRange) : List BlockedRange := work.toList

theorem countIn_simpleRanges (r : BlockedRange) (i : SizeT) :
    countIn i (simpleRanges (some r)) = if r.Contains i then 1 else 0 := by
  show countIn i [r] = _
  rw [countIn_cons, countIn_nil, Nat.zero_add]

theorem simple_conserves (i : SizeT) :
    simpleBehaviour.Conserves ProperWork (fun work => countIn i (simpleRanges work))
      fun work _ => countIn i (simpleRanges work) where
  offerWork := by
    intro work rest right choice hok hnext
    cases work with
    | none => cases hnext
    | some r =>
      rw [simple_cases rfl] at hnext
      split_ifs at hnext
      obtain ⟨rfl, rfl⟩ := Callback.offerWork.inj hnext
      simp only [countIn_simpleRanges]
      exact BlockedRange.contains_split (hok r rfl) i
  runBody := by
    intro work rest choice hok hnext
    cases work with
    | none => cases hnext
    | some r =>
      rw [simple_cases rfl] at hnext
      split_ifs at hnext
      obtain rfl := Callback.runBody.inj hnext
      exact Nat.zero_add _
  done := by
    intro work choice hok hnext
    cases work with
    | none => rfl
    | some r =>
      rw [simple_cases rfl] at hnext
      split_ifs at hnext

variable {r : BlockedRange} {es : List (Event Unit)} {bodies : List (Option BlockedRange × Unit)}
  {w : World (Option BlockedRange) BlockedRange}

/-- **Every index once.** A `parallel_for` over a `blocked_range` with
    `simple_partitioner` calls its body with ranges that are not empty and have no more
    indices than the grain size. In whatever order the threads go on, no index is
    executed twice, none outside of the range is executed, and when the algorithm has
    returned each of the range has been executed. -/
theorem parallelFor_simple (hr : r.Proper) (h : Run simpleBehaviour (.parallelFor (some r)) es bodies w) :
    (∀ s ∈ rangesOf (fun work _ => simpleRanges work) bodies,
      s.Proper ∧ s.myEnd - s.myBegin ≤ s.myGrainsize) ∧
    ∀ i, countIn i (rangesOf (fun work _ => simpleRanges work) bodies) ≤
        (if r.Contains i then 1 else 0) ∧
      (w.caller = .returned → countIn i (rangesOf (fun work _ => simpleRanges work) bodies) =
        if r.Contains i then 1 else 0) := by
  have hok : ProperWork (some r) := fun s hs => Option.some.inj hs ▸ hr
  have halg : (Algorithm.parallelFor (some r)).Unsplit simpleBehaviour := trivial
  constructor
  · intro s hs
    obtain ⟨⟨work, u⟩, hb, hs⟩ := List.mem_flatMap.mp hs
    obtain ⟨hwork, rest, hnext⟩ := h.bodies_ok simple_shrinks halg hok _ hb
    obtain rfl : work = some s := Option.mem_toList.mp hs
    refine ⟨hwork s rfl, ?_⟩
    rw [simple_cases rfl] at hnext
    split_ifs at hnext with hd
    by_contra hle
    exact hd (decide_eq_true (BitVec.not_le.mp hle))
  · intro i
    rw [← countIn_simpleRanges r i]
    exact h.covers simple_shrinks (simple_conserves i) hok

/-- A `parallel_for` over ten indices with the grain size 3. -/
theorem parallelFor_ten : ∃ (es : List (Event Unit)) (bodies : List (Option BlockedRange × Unit))
    (w : World (Option BlockedRange) BlockedRange),
    Run simpleBehaviour (.parallelFor (some ⟨10, 0, 3⟩)) es bodies w ∧ w.caller = .returned ∧
      countIn 9 (rangesOf (fun work _ => simpleRanges work) bodies) = 1 := by
  have hr : (BlockedRange.mk 10 0 3).Proper := by decide
  have hok : ProperWork (some ⟨10, 0, 3⟩) := fun s hs => Option.some.inj hs ▸ hr
  have halg : (Algorithm.parallelFor (some (BlockedRange.mk 10 0 3))).Unsplit simpleBehaviour :=
    trivial
  have h₀ : Run simpleBehaviour (.parallelFor (some ⟨10, 0, 3⟩)) [] []
    (.init (.parallelFor (some ⟨10, 0, 3⟩))) := .init
  obtain ⟨es, bodies, w, hrun, hret⟩ := h₀.completes simple_shrinks halg hok
  obtain ⟨-, hcount⟩ := parallelFor_simple hr hrun
  exact ⟨es, bodies, w, hrun, hret, (hcount 9).2 hret⟩

end Simple

end TaskProf.Tbb
