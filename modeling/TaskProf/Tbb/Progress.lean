import TaskProf.Tbb.Moves
import TaskProf.Tbb.Ranges

/-!
# The algorithms return

* `Behaviour.Shrinks`: a partition whose callbacks make its work smaller.
* `World.measure`, `Change.measure_lt`: every step makes the measure smaller.
* `Safe.progress`: while the caller has not returned, some step is possible.
* `returns`: an algorithm that splits no scan returns, in whatever order it goes on.
* `simple_shrinks`: `simple_partitioner` makes its range smaller.
-/

namespace TaskProf.Tbb

variable {ρ χ R : Type}

/-- The callbacks keep `ok` and make the work `μ` smaller. -/
structure Behaviour.Shrinks (P : Behaviour ρ χ R) (ok : ρ → Prop) (μ : ρ → ℕ) : Prop where
  offerWork : ∀ {work rest right : ρ} {choice : χ}, ok work →
    P.next work choice = .offerWork rest right → ok rest ∧ ok right ∧ μ rest + μ right < μ work
  runBody : ∀ {work rest : ρ} {choice : χ}, ok work →
    P.next work choice = .runBody rest → ok rest ∧ μ rest < μ work

/-- The arguments for which the algorithms exist. -/
def Algorithm.Callable (ok : ρ → Prop) : Algorithm ρ R → Prop
  | .parallelFor work => ok work
  | .parallelInvoke n => 2 ≤ n ∧ n ≤ 10
  | .parallelScan _ _ => True

/-! ## The tasks that wait -/

/-- A `flag_task` that is not spawned waits for a child, and a `start_for` is spawned. -/
structure Task.Live (ok : ρ → Prop) (task : Task ρ R) : Prop where
  flag : task.cls = .flagTask → task.status = .allocated → 0 < task.refCount
  work : ∀ work, task.cls = .startFor work → ok work
  spawned : ∀ work, task.cls = .startFor work → task.status ≠ .allocated

/-- Every task that waits for a child has a count. -/
structure Live (ok : ρ → Prop) (w : World ρ R) : Prop where
  fresh : ∀ x, w.next ≤ x → w.tasks x = none
  tasks : Every (Task.Live ok) w.tasks
  callable : ∀ alg, w.caller = .call alg → alg.Callable ok

section Live

variable {P : Behaviour ρ χ R} {ok : ρ → Prop} {μ : ρ → ℕ} {w w' : World ρ R} {x : ℕ}
  {task task' : Task ρ R} {bodies : List (ρ × χ)} {new : List (Task ρ R)}

theorem Live.init {alg : Algorithm ρ R} (h : alg.Callable ok) : Live ok (World.init alg) := by
  refine ⟨fun _ _ => rfl, fun x task hx => (nomatch hx), fun alg' hc => ?_⟩
  obtain rfl := Caller.call.inj hc
  exact h

theorem Live.lt_next (h : Live ok w) (hx : w.tasks x = some task) : x < w.next := by
  by_contra hle
  rw [h.fresh x (by omega)] at hx
  cases hx

/-- A task that is spawned or runs. -/
theorem Task.Live.of_status (hs : task.status ≠ .allocated)
    (hwork : ∀ work, task.cls = .startFor work → ok work) : task.Live ok :=
  ⟨fun _ hs' => absurd hs' hs, hwork, fun _ _ => hs⟩

/-- A task that is neither a `flag_task` nor a `start_for`. -/
theorem Task.Live.of_cls (hflag : task.cls ≠ .flagTask) (hwork : ∀ work, task.cls ≠ .startFor work) :
    task.Live ok :=
  ⟨fun hc => absurd hc hflag, fun work hc => absurd hc (hwork work),
    fun work hc => absurd hc (hwork work)⟩

theorem Moves.live (hm : Moves P w.next task bodies task' new) (hP : P.Shrinks ok μ)
    (h : task.Live ok) : task'.Live ok ∧ ∀ a ∈ new, Task.Live ok a := by
  cases hm with
  | start hs => exact ⟨.of_status (fun hs' => nomatch hs') h.work, fun a ha => nomatch ha⟩
  | offerWork k hs hc hnext =>
    obtain ⟨hrest, hright, -⟩ := hP.offerWork (h.work _ hc) hnext
    constructor
    · refine .of_status (fun hs' => ?_) fun work hc' => ?_
      · rw [hs] at hs'
        cases hs'
      · obtain rfl := TaskClass.startFor.inj hc'
        exact hrest
    · rw [List.forall_mem_cons]
      refine ⟨⟨fun _ _ => Nat.two_pos, fun work hc' => (nomatch hc'), fun work hc' => (nomatch hc')⟩, ?_⟩
      rw [List.forall_mem_singleton]
      refine .of_status (fun hs' => nomatch hs') fun work hc' => ?_
      obtain rfl := TaskClass.startFor.inj hc'
      exact hright
  | runBody hs hc hnext =>
    refine ⟨.of_status (fun hs' => ?_) fun work hc' => ?_, fun a ha => nomatch ha⟩
    · rw [hs] at hs'
      cases hs'
    · obtain rfl := TaskClass.startFor.inj hc'
      exact (hP.runBody (h.work _ hc) hnext).1
  | done | leave | setRefCount | wake =>
    exact ⟨.of_status (fun hs' => nomatch hs') h.work, fun a ha => nomatch ha⟩
  | scan =>
    exact ⟨.of_status (fun hs' => nomatch hs') (fun work hc' => nomatch hc'), fun a ha => nomatch ha⟩
  | spawn | spawnAndWait =>
    refine ⟨.of_status (fun hs' => nomatch hs') h.work, ?_⟩
    rw [List.forall_mem_singleton]
    exact .of_cls (fun hc' => nomatch hc') fun work hc' => nomatch hc'

theorem Task.Live.groupClass (n p k : ℕ) :
    (⟨World.groupClass n, some p, 0, .ready true, some k, false⟩ : Task ρ R).Live ok := by
  apply Task.Live.of_cls
  all_goals
    dsimp only
    unfold World.groupClass
    split_ifs <;> simp

theorem Calls.live {caller caller' : Caller ρ R} (hcall : Calls caller new caller')
    (h : ∀ alg, caller = .call alg → alg.Callable ok) :
    (∀ a ∈ new, Task.Live ok a) ∧ ∀ alg, caller' ≠ .call alg := by
  cases hcall with
  | parallelFor work k d =>
    refine ⟨?_, fun alg hc => nomatch hc⟩
    rw [List.forall_mem_cons]
    refine ⟨.of_status (fun hs => nomatch hs) fun work' hc => ?_, ?_⟩
    · obtain rfl := TaskClass.startFor.inj hc
      exact h _ rfl
    · rw [List.forall_mem_singleton]
      exact .of_cls (fun hc => nomatch hc) fun work hc => nomatch hc
  | parallelInvoke | spawnAndWait =>
    refine ⟨?_, fun alg hc => nomatch hc⟩
    rw [List.forall_mem_singleton]
    exact .of_cls (fun hc => nomatch hc) fun work hc => nomatch hc
  | parallelScan =>
    refine ⟨?_, fun alg hc => nomatch hc⟩
    intro a ha
    simp only [List.mem_cons, List.not_mem_nil, or_false] at ha
    rcases ha with rfl | rfl | rfl
    all_goals exact .of_cls (fun hc => nomatch hc) fun work hc => nomatch hc
  | spawn n groups root k =>
    refine ⟨?_, fun alg hc => nomatch hc⟩
    rw [List.forall_mem_singleton]
    exact .groupClass n root k

theorem Live.change (h : Live ok w) (hP : P.Shrinks ok μ) (hc : Change P w w' bodies) :
    Live ok w' := by
  cases hc with
  | @move x task task' bodies new hx hm ht hn hc =>
    have hlt := h.lt_next hx
    obtain ⟨htask', hnew⟩ := hm.live hP (h.tasks x task hx)
    constructor
    · intro y hy
      rw [ht]
      refine place_of_le (fun z hz => ?_) (hn ▸ hy)
      rw [Function.update_of_ne (by omega)]
      exact h.fresh z hz
    · rw [ht]
      exact (h.tasks.update htask').place hnew _
    · rw [hc]
      exact h.callable
  | @finish x p task parent hx hs hp hpx hzero ht hn hc =>
    have hlt := h.lt_next hp
    have hparent := h.tasks p parent hp
    constructor
    · intro y hy
      rw [hn] at hy
      rw [ht, Function.update_of_ne (by omega)]
      by_cases hyx : y = x
      · rw [hyx, Function.update_self]
      · rw [Function.update_of_ne hyx]
        exact h.fresh y hy
    · rw [ht]
      refine (h.tasks.free x).update ⟨fun _ hs' => ?_, hparent.work, fun work hc' => ?_⟩
      · dsimp only at hs' ⊢
        by_cases h0 : parent.refCount - 1 = 0
        · rw [if_pos h0] at hs'
          cases hs'
        · exact Nat.pos_of_ne_zero h0
      · dsimp only
        split_ifs
        · exact fun hs' => nomatch hs'
        · exact hparent.spawned work hc'
    · rw [hc]
      exact h.callable
  | call hcall ht hn =>
    obtain ⟨hnew, hcaller⟩ := hcall.live h.callable
    constructor
    · intro y hy
      rw [ht]
      exact place_of_le h.fresh (hn ▸ hy)
    · rw [ht]
      exact h.tasks.place hnew _
    · exact fun alg hc => absurd hc (hcaller alg)
  | ret hc hleft hnone hc' =>
    refine ⟨fun y _ => hnone y, fun y a hy => ?_, fun alg hc => ?_⟩
    · rw [hnone] at hy
      cases hy
    · rw [hc'] at hc
      cases hc

end Live

/-! ## The measure -/

/-- The steps of a call of `execute` and of the tasks that it makes, with its end. -/
def TaskClass.steps (μ : ρ → ℕ) : TaskClass ρ R → ℕ
  | .startFor work => 7 * μ work + 2
  | .spawner n => 4 * n + 4
  | .flagTask | .functionInvoker | .startScan _ => 2
  | _ => 0

/-- The steps that are left of a task. -/
def Task.weight (μ : ρ → ℕ) (task : Task ρ R) : ℕ :=
  match task.status, task.cls with
  | .allocated, .flagTask => 3
  | .allocated, _ => 0
  | .ready _, cls => cls.steps μ + 1
  | .executing .entered, cls => cls.steps μ
  | .executing (.spawning left), _ => 4 * left + 7
  | .executing .waiting, _ => 2
  | .executing (.returning _ _), _ => 1

/-- The steps that are left of the caller, with the tasks that it will make. -/
def Caller.weight (μ : ρ → ℕ) : Caller ρ R → ℕ
  | .call (.parallelFor work) => 7 * μ work + 5
  | .call (.parallelInvoke n) =>
    match World.invokeArguments n with
    | none => 0
    | some arguments => (arguments.2.map fun n => 4 * n + 6).sum + 6
  | .call (.parallelScan _ _) => 5
  | .invoking _ groups => (groups.map fun n => 4 * n + 6).sum + 5
  | .waiting _ _ => 1
  | .returned => 0

def World.measure (μ : ρ → ℕ) (w : World ρ R) : ℕ :=
  total (Task.weight μ) w.tasks w.next + w.caller.weight μ

section Measure

variable {P : Behaviour ρ χ R} {ok : ρ → Prop} {μ : ρ → ℕ} {w w' : World ρ R}
  {task task' : Task ρ R} {bodies : List (ρ × χ)} {new : List (Task ρ R)}

theorem weight_entered (μ : ρ → ℕ) (hs : task.status = .executing .entered) :
    task.weight μ = task.cls.steps μ := by
  unfold Task.weight
  rw [hs]

/-- A move leaves fewer steps. -/
theorem Moves.weight_lt (hm : Moves P w.next task bodies task' new) (hP : P.Shrinks ok μ)
    (h : task.Live ok) :
    task'.weight μ + (new.map (Task.weight μ)).sum < task.weight μ := by
  cases hm with
  | start hs =>
    unfold Task.weight
    rw [hs]
    exact Nat.lt_succ_self _
  | @offerWork work rest right choice k hs hc hnext =>
    obtain ⟨-, -, hlt⟩ := hP.offerWork (h.work _ hc) hnext
    have hrest : Task.weight (R := R) μ { task with
        cls := .startFor rest, parent := some w.next } = 7 * μ rest + 2 :=
      weight_entered μ hs
    rw [weight_entered μ hs, hc, hrest]
    show 7 * μ rest + 2 + (3 + (7 * μ right + 2 + 1 + 0)) < 7 * μ work + 2
    omega
  | @runBody work rest choice hs hc hnext =>
    obtain ⟨-, hlt⟩ := hP.runBody (h.work _ hc) hnext
    have hrest : Task.weight (R := R) μ { task with cls := .startFor rest } = 7 * μ rest + 2 :=
      weight_entered μ hs
    rw [weight_entered μ hs, hc, hrest]
    show 7 * μ rest + 2 + 0 < 7 * μ work + 2
    omega
  | done hs hc hnext =>
    rw [weight_entered μ hs, hc]
    show 1 + 0 < 7 * μ _ + 2
    omega
  | leave hs hc =>
    rw [weight_entered μ hs]
    rcases hc with hc | hc
    all_goals
      rw [hc]
      exact Nat.one_lt_two
  | scan hs hc =>
    rw [weight_entered μ hs, hc]
    exact Nat.one_lt_two
  | setRefCount hn hs hc =>
    rw [weight_entered μ hs, hc]
    show 4 * (_ - 1) + 7 + 0 < 4 * _ + 4
    omega
  | spawn k x hs hc =>
    unfold Task.weight
    rw [hs]
    show 4 * _ + 7 + (3 + 0) < 4 * (_ + 1) + 7
    omega
  | spawnAndWait k x hs hc =>
    unfold Task.weight
    rw [hs]
    show 2 + (3 + 0) < 7
    omega
  | wake hs hc =>
    unfold Task.weight
    rw [hs]
    exact Nat.one_lt_two

theorem weight_groupClass_lt (n p k : ℕ) :
    (⟨World.groupClass n, some p, 0, .ready true, some k, false⟩ : Task ρ R).weight μ < 4 * n + 6 := by
  show TaskClass.steps μ (World.groupClass n : TaskClass ρ R) + 1 < 4 * n + 6
  unfold World.groupClass
  split_ifs
  · show 2 + 1 < _
    omega
  · show 4 * n + 4 + 1 < _
    omega

theorem Calls.weight_lt {caller caller' : Caller ρ R} (hcall : Calls caller new caller') :
    (new.map (Task.weight μ)).sum + caller'.weight μ < caller.weight μ := by
  cases hcall with
  | parallelFor work k d =>
    show 7 * μ work + 2 + 1 + (0 + 0) + 1 < 7 * μ work + 5
    omega
  | @parallelInvoke n numberOfChildren groups root hn =>
    unfold Caller.weight
    dsimp only
    rw [hn]
    show 0 + 0 + ((groups.map _).sum + 5) < (groups.map _).sum + 6
    omega
  | parallelScan range partition f k d tempBody =>
    show 0 + (2 + 1 + (0 + 0)) + 1 < 5
    omega
  | spawn n groups root k =>
    have hlt := weight_groupClass_lt (μ := μ) (R := R) n root k
    show _ + 0 + ((List.map _ groups).sum + 5) < (4 * n + 6 + (List.map _ groups).sum) + 5
    omega
  | spawnAndWait root k =>
    show 2 + 1 + 0 + 1 < 0 + 5
    omega

/-- **Every step leaves fewer steps.** -/
theorem Change.measure_lt (hc : Change P w w' bodies) (hP : P.Shrinks ok μ) (h : Live ok w) :
    w'.measure μ < w.measure μ := by
  unfold World.measure
  cases hc with
  | @move x task task' bodies new hx hm ht hn hc =>
    have hlt := hm.weight_lt hP (h.tasks x task hx)
    have htotal := total_modify (f := Task.weight μ) hx (h.lt_next hx) task'
    rw [ht, hn, hc, total_place]
    omega
  | @finish x p task parent hx hs hp hpx hzero ht hn hc =>
    have hfree := total_free (f := Task.weight μ) hx (h.lt_next hx)
    have hp' : Function.update w.tasks x none p = some parent := by
      rw [Function.update_of_ne hpx, hp]
    have hmodify := total_modify (f := Task.weight μ) hp' (h.lt_next hp) { parent with
      refCount := parent.refCount - 1
      status := if parent.refCount - 1 = 0 then .ready true else parent.status }
    have hone : task.weight μ = 1 := by
      unfold Task.weight
      rw [hs]
    -- a flag that becomes ready has as many steps as before
    have hsame : Task.weight μ { parent with
        refCount := parent.refCount - 1
        status := if parent.refCount - 1 = 0 then .ready true else parent.status } =
        parent.weight μ := by
      unfold Task.weight
      dsimp only
      split_ifs with h0
      · obtain ⟨hcls, hstatus⟩ := hzero h0
        rw [hcls, hstatus]
        rfl
      · rfl
    rw [ht, hn, hc]
    omega
  | call hcall ht hn =>
    have hlt := hcall.weight_lt (μ := μ)
    rw [ht, hn, total_place]
    omega
  | ret hc hleft hnone hc' =>
    have hzero : total (Task.weight μ) w'.tasks w'.next = 0 := by
      apply total_eq_zero
      intro x task hx
      rw [hnone] at hx
      cases hx
    rw [hzero, hc, hc']
    show 0 + 0 < _ + 1
    omega

end Measure

/-! ## Progress -/

section Progress

variable {P : Behaviour ρ χ R} {ok : ρ → Prop} {μ : ρ → ℕ} {w w' : World ρ R} {x root : ℕ}
  {task : Task ρ R} {alg : Algorithm ρ R} {es : List (Event χ)} {bodies : List (ρ × χ)}

theorem start_ne_none (hx : w.tasks x = some task) {pooled : Bool} (hs : task.status = .ready pooled) :
    w.start x false ≠ none := by
  unfold World.start
  rw [hx]
  dsimp only
  rw [hs]
  dsimp only
  rw [if_neg (by simp)]
  exact Option.some_ne_none _

/-- A call of `execute` that is not about to call its partition, and does not wait. -/
theorem run_ne_none (hx : w.tasks x = some task) {loc : Loc} (hs : task.status = .executing loc)
    (hcls : (∃ recycled next, loc = .returning recycled next) ∨
      (loc = .entered ∧ (task.cls = .flagTask ∨ task.cls = .functionInvoker ∨
        ∃ f, task.cls = .startScan f)) ∨
      ∃ n, task.cls = .spawner n ∧ (loc = .waiting → task.refCount = 1)) : w.run P x ≠ none := by
  unfold World.run
  rw [hx]
  dsimp only
  rw [hs]
  rcases hcls with ⟨recycled, next, rfl⟩ | ⟨rfl, hc | hc | ⟨f, hc⟩⟩ | ⟨n, hc, hwait⟩
  · exact Option.some_ne_none _
  · rw [hc]
    exact Option.some_ne_none _
  · rw [hc]
    exact Option.some_ne_none _
  · rw [hc]
    exact Option.some_ne_none _
  · rw [hc]
    cases loc with
    | entered | returning => exact Option.some_ne_none _
    | spawning left => cases left <;> exact Option.some_ne_none _
    | waiting =>
      show (w.runSpawner x n .waiting).map Except.ok ≠ none
      unfold World.runSpawner
      dsimp only
      rw [hx, Option.map_some, hwait rfl, if_pos rfl]
      exact Option.some_ne_none _

/-- A task of a tree that has no child can go on. -/
theorem Tree.task_step [Nonempty χ] (h : Tree w root) (hx : w.tasks x = some task) (hne : x ≠ root)
    (hlive : task.Live ok) (hchild : task.refCount = task.credit) :
    ∃ e : Event χ, w.step P e ≠ none := by
  have hok := h.taskOk x task hx hne
  have hcls := hok.cls
  rcases hok.status with ⟨hidle, -⟩ | ⟨hflag, hs⟩ | ⟨n, hc, ⟨left, hs⟩ | hs⟩
  · cases hs : task.status with
    | allocated =>
      rw [hs] at hidle
      cases hidle
    | ready pooled => exact ⟨.start x false, start_ne_none hx hs⟩
    | executing loc =>
      cases loc with
      | spawning | waiting =>
        rw [hs] at hidle
        cases hidle
      | returning recycled next => exact ⟨.run x, run_ne_none hx hs (.inl ⟨_, _, rfl⟩)⟩
      | entered =>
        cases hc : task.cls with
        | startFor work =>
          obtain ⟨choice⟩ := ‹Nonempty χ›
          refine ⟨.callback x choice, ?_⟩
          show w.callback P x choice ≠ none
          unfold World.callback
          rw [hx]
          dsimp only
          rw [hs, hc]
          exact Option.some_ne_none _
        | flagTask => exact ⟨.run x, run_ne_none hx hs (.inr (.inl ⟨rfl, .inl hc⟩))⟩
        | functionInvoker => exact ⟨.run x, run_ne_none hx hs (.inr (.inl ⟨rfl, .inr (.inl hc)⟩))⟩
        | spawner n =>
          exact ⟨.run x, run_ne_none hx hs (.inr (.inr ⟨n, hc, fun hl => nomatch hl⟩))⟩
        | emptyTask | invokeHelper | finalSum | sumNode | finishScan | startScan =>
          rw [hc] at hcls
          cases hcls
  · -- a flag without a child is spawned
    have hpos := hlive.flag hflag hs
    rw [hchild] at hpos
    unfold Task.credit at hpos
    rw [hs] at hpos
    exact absurd hpos (Nat.not_lt_zero _)
  · exact ⟨.run x, run_ne_none hx hs (.inr (.inr ⟨n, hc, fun hl => nomatch hl⟩))⟩
  · refine ⟨.run x, run_ne_none hx hs (.inr (.inr ⟨n, hc, fun _ => ?_⟩))⟩
    rw [hchild]
    unfold Task.credit
    rw [hs]
    rfl

/-- A tree whose root counts a child has a task that can go on. -/
theorem Tree.step_of_refs [Nonempty χ] (h : Tree w root) (hlive : Live ok w)
    (hroot : w.refsOf root ≠ w.caller.credit) : ∃ e : Event χ, w.step P e ≠ none := by
  obtain ⟨children, hmem, hcard⟩ := h.counted
  obtain ⟨r, hr, hr0, -⟩ := h.rootTask
  have hparent : w.parentOf root = none := by rw [parentOf_of hr, hr0]
  have hcount := hcard root
  rw [creditOf_root] at hcount
  obtain ⟨c, hc⟩ : (children root).Nonempty := by
    rw [← Finset.card_pos]
    omega
  have hfin : ∀ x, w.next ≤ x → w.parentOf x = none := by
    intro x hx
    exact (h.unused hx).1
  obtain ⟨y, hy, hleaf⟩ := h.rooted.exists_leaf hfin hparent ((hmem root c).mp hc)
  obtain ⟨task, ht⟩ : ∃ task, w.tasks y = some task := by
    rw [← Option.ne_none_iff_exists']
    intro hnone
    unfold World.parentOf at hy
    rw [hnone] at hy
    exact hy rfl
  have hyr : y ≠ root := by
    rintro rfl
    exact hy hparent
  -- nothing counts as a child of `y`
  have hempty : children y = ∅ := by
    rw [Finset.eq_empty_iff_forall_notMem]
    intro z hz
    exact hleaf z ((hmem y z).mp hz)
  have hcounty := hcard y
  rw [hempty, Finset.card_empty, Nat.zero_add, creditOf_of hyr ht, refsOf_of ht] at hcounty
  exact h.task_step ht hyr (hlive.tasks y task ht) hcounty

theorem FirstPass.step_or_done {tempBody d : ℕ} (h : FirstPass P w tempBody d) :
    (∃ e : Event χ, w.step P e ≠ none) ∨ (w.tasks d).map Task.refCount = some 1 := by
  cases h with
  | @running x task f hleaf hd hb htasks =>
    have hx : w.tasks x = some task := by
      rw [htasks, Function.update_self]
    left
    rcases hleaf.status with ⟨hready | hentered, -⟩ | hreturning
    · exact ⟨.start x false, start_ne_none hx hready⟩
    · exact ⟨.run x, run_ne_none hx hentered (.inr (.inl ⟨rfl, .inr (.inr ⟨f, hleaf.cls⟩)⟩))⟩
    · exact ⟨.run x, run_ne_none hx hreturning (.inl ⟨_, _, rfl⟩)⟩
  | done htasks =>
    right
    rw [htasks, Function.update_self]
    rfl

theorem invokeArguments_ne_none {n : ℕ} (hn : 2 ≤ n ∧ n ≤ 10) : World.invokeArguments n ≠ none := by
  obtain ⟨h1, h2⟩ := hn
  interval_cases n <;> exact Option.some_ne_none _

/-- **No deadlock.** While the caller has not returned, some step is possible. -/
theorem Safe.progress [Nonempty χ] (h : Safe P w) (hlive : Live ok w) (hc : w.caller ≠ .returned) :
    ∃ e : Event χ, w.step P e ≠ none := by
  have hstage := h.stage
  have hcallable := hlive.callable
  -- a wait ends when the count is one
  have hwait : ∀ {d : ℕ} {after : After}, w.caller = .waiting d after →
      (w.tasks d).map Task.refCount = some 1 → w.step P (.caller : Event χ) ≠ none := by
    intro d after hwaiting hone
    show w.runCaller ≠ none
    unfold World.runCaller
    rw [hwaiting]
    dsimp only
    rw [if_pos hone]
    exact Option.some_ne_none _
  generalize hcaller : w.caller = caller at hstage
  cases hstage with
  | @call alg hnone hroot halg =>
    refine ⟨.caller, ?_⟩
    show w.runCaller ≠ none
    unfold World.runCaller
    rw [hcaller]
    cases alg with
    | parallelFor | parallelScan => exact Option.some_ne_none _
    | parallelInvoke n =>
      obtain ⟨arguments, hn⟩ := Option.ne_none_iff_exists'.mp
        (invokeArguments_ne_none (hcallable _ hcaller))
      dsimp only
      rw [hn]
      exact Option.some_ne_none _
  | @invoking root groups htree =>
    refine ⟨.caller, ?_⟩
    show w.runCaller ≠ none
    unfold World.runCaller
    rw [hcaller]
    cases groups <;> exact Option.some_ne_none _
  | @waiting root htree =>
    by_cases hone : w.refsOf root = w.caller.credit
    · obtain ⟨r, hr, -⟩ := htree.rootTask
      refine ⟨.caller, hwait hcaller ?_⟩
      rw [hcaller] at hone
      unfold World.refsOf at hone
      rw [hr] at hone ⊢
      exact congrArg some hone
    · exact htree.step_of_refs hlive hone
  | @firstPass tempBody d hroot hbd hpass =>
    rcases hpass.step_or_done with hstep | hone
    · exact hstep
    · exact ⟨.caller, hwait hcaller hone⟩
  | returned => exact absurd hcaller hc

/-! ## Runs -/

theorem Run.live (hP : P.Shrinks ok μ) (halg : alg.Unsplit P) (hcall : alg.Callable ok)
    (h : Run P alg es bodies w) : Live ok w := by
  induction h with
  | init => exact .init hcall
  | step h he ih => exact ih.change hP ((h.reachable.safe halg).change he)

/-- A run and the steps that are left are as many as the algorithm has at most. -/
theorem Run.length_add_measure_le (hP : P.Shrinks ok μ) (halg : alg.Unsplit P)
    (hcall : alg.Callable ok) (h : Run P alg es bodies w) :
    es.length + w.measure μ ≤ (World.init alg).measure μ := by
  induction h with
  | init => exact (Nat.zero_add _).le
  | step h he ih =>
    have hlt := ((h.reachable.safe halg).change he).measure_lt hP (h.live hP halg hcall)
    rw [List.length_append, List.length_singleton]
    omega

/-- A run can be continued until the caller has returned. -/
theorem Run.completes [Nonempty χ] (hP : P.Shrinks ok μ) (halg : alg.Unsplit P)
    (hcall : alg.Callable ok) (h : Run P alg es bodies w) :
    ∃ es' bodies' w', Run P alg (es ++ es') bodies' w' ∧ w'.caller = .returned := by
  generalize hm : w.measure μ = m
  induction m using Nat.strong_induction_on generalizing es bodies w with
  | _ m ih =>
    by_cases hret : w.caller = .returned
    · refine ⟨[], bodies, w, ?_, hret⟩
      rw [List.append_nil]
      exact h
    · have hsafe := h.reachable.safe halg
      have hlive := h.live hP halg hcall
      obtain ⟨e, he⟩ := hsafe.progress hlive hret
      obtain ⟨r, hr⟩ := Option.ne_none_iff_exists'.mp he
      obtain ⟨w₁, rfl, -⟩ := hsafe.step hr
      have hlt := (hsafe.change hr).measure_lt hP hlive
      obtain ⟨es', bodies', w', hrun, hret'⟩ := ih _ (hm ▸ hlt) (h.step hr) rfl
      refine ⟨e :: es', bodies', w', ?_, hret'⟩
      rw [List.append_cons]
      exact hrun

/-- **The algorithms return.** Let an algorithm run that splits no scan, with a partition
    that makes its work smaller, as those of `blocked_range` do (`simple_shrinks`,
    `auto_shrinks`). Then, in whatever order the threads go on: no step is a
    fault, a run has at most so many steps, while the caller has not returned some step
    is possible, and every run can be continued until it has returned and no task is
    left. -/
theorem returns [Nonempty χ] (hP : P.Shrinks ok μ) (halg : alg.Unsplit P) (hcall : alg.Callable ok)
    (h : Run P alg es bodies w) :
    (∀ (e : Event χ) r, w.step P e = some r → ∃ w', r = .ok w') ∧
    es.length ≤ Caller.weight μ (.call alg : Caller ρ R) ∧
    (w.caller ≠ .returned → ∃ (e : Event χ) (w' : World ρ R), w.step P e = some (.ok w')) ∧
    ∃ es' bodies' w', Run P alg (es ++ es') bodies' w' ∧ w'.caller = .returned ∧
      ∀ x, w'.tasks x = none := by
  have hsafe := h.reachable.safe halg
  refine ⟨fun e r hr => ?_, ?_, fun hret => ?_, ?_⟩
  · obtain ⟨w', hw', -⟩ := hsafe.step hr
    exact ⟨w', hw'⟩
  · have hle := h.length_add_measure_le hP halg hcall
    have hinit : (World.init alg : World ρ R).measure μ = Caller.weight μ (.call alg : Caller ρ R) :=
      Nat.zero_add _
    omega
  · obtain ⟨e, he⟩ := hsafe.progress (h.live hP halg hcall) hret
    obtain ⟨r, hr⟩ := Option.ne_none_iff_exists'.mp he
    obtain ⟨w', rfl, -⟩ := hsafe.step hr
    exact ⟨e, w', hr⟩
  · obtain ⟨es', bodies', w', hrun, hret⟩ := h.completes hP halg hcall
    refine ⟨es', bodies', w', hrun, hret, ?_⟩
    have hstage := (hrun.reachable.safe halg).stage
    rw [hret] at hstage
    cases hstage with
    | returned hnone => exact hnone

/-- The range of a `start_for` under `simple_partitioner` is proper. -/
def ProperWork (work : Option BlockedRange) : Prop := ∀ r, work = some r → r.Proper

/-- The pieces of the range that is left. -/
def piecesLeft (work : Option BlockedRange) : ℕ := (work.map BlockedRange.pieces).getD 0

/-- `simple_partitioner` splits a range or executes it. -/
theorem simple_cases {work : Option BlockedRange} {r : BlockedRange} (hr : work = some r) (u : Unit) :
    simpleBehaviour.next work u =
      if r.isDivisible = true then .offerWork (some r.split.1) (some r.split.2) else .runBody none := by
  subst hr
  rfl

theorem simple_shrinks : simpleBehaviour.Shrinks ProperWork piecesLeft where
  offerWork := by
    intro work rest right choice hok hnext
    cases work with
    | none => cases hnext
    | some r =>
      rw [simple_cases rfl] at hnext
      split_ifs at hnext with hd
      obtain ⟨rfl, rfl⟩ := Callback.offerWork.inj hnext
      have hr := hok r rfl
      obtain ⟨h1, h2, -⟩ := BlockedRange.split_proper hr hd
      have hpieces := BlockedRange.pieces_split hr hd
      refine ⟨fun s hs => Option.some.inj hs ▸ h1, fun s hs => Option.some.inj hs ▸ h2, ?_⟩
      show r.split.1.pieces + r.split.2.pieces < r.pieces
      omega
  runBody := by
    intro work rest choice hok hnext
    cases work with
    | none => cases hnext
    | some r =>
      rw [simple_cases rfl] at hnext
      split_ifs at hnext with hd
      obtain rfl := Callback.runBody.inj hnext
      exact ⟨fun s hs => (nomatch hs), (hok r rfl).pieces_pos⟩

/-- A `parallel_for` over ten indices with the grain size 3 returns. -/
theorem parallelFor_returns : ∃ (es : List (Event Unit)) (bodies : List (Option BlockedRange × Unit))
    (w : World (Option BlockedRange) BlockedRange),
    Run simpleBehaviour (.parallelFor (some ⟨10, 0, 3⟩)) (.caller :: es) bodies w ∧
      w.caller = .returned := by
  have hproper : ProperWork (some ⟨10, 0, 3⟩) := fun r hr => Option.some.inj hr ▸ by decide
  have halg : (Algorithm.parallelFor (some (BlockedRange.mk 10 0 3))).Unsplit simpleBehaviour :=
    trivial
  let w₀ : World (Option BlockedRange) BlockedRange := .init (.parallelFor (some ⟨10, 0, 3⟩))
  have h₀ : Run simpleBehaviour (.parallelFor (some ⟨10, 0, 3⟩)) [] [] w₀ := .init
  have h₁ := h₀.step (e := .caller) rfl
  obtain ⟨-, -, -, es, bodies, w, hrun, hret, -⟩ := returns simple_shrinks halg hproper h₁
  exact ⟨es, bodies, w, hrun, hret⟩

end Progress

end TaskProf.Tbb
