import TaskProf.Collection.Recorded

/-!
# Implicit finishes on the stack

How many implicit finishes a task has on the stack depends on the order of its
calls: a spawn opens one unless the call before it is a spawn too, and a wait
closes one. `openings` counts the spawns that open one.

* `balanced_iff`: a task leaves the stack as it found it exactly when at most
  one implicit finish is open at its end.
* `wait_joins_iff`: in a run that so far met this condition at every end, and
  had one implicit finish open at every wait, a wait returns to the node of its
  task exactly when one implicit finish is open.
-/

namespace TaskProf.Collection

variable {κ : Type}

/-! ## Counting -/

/-- The spawns of `effects` that open an implicit finish, after the effect
    `prev`: those that do not follow a spawn directly. -/
def openingsAfter : Option Effect → List Effect → ℕ
  | _, [] => 0
  | prev, e :: effects =>
    (if e = .spawn ∧ prev ≠ some .spawn then 1 else 0) + openingsAfter (some e) effects

def openings (effects : List Effect) : ℕ := openingsAfter none effects

/-- The task may return: it has at most one implicit finish open. -/
def AtMostOneOpen (effects : List Effect) : Prop := openings effects ≤ effects.count .wait + 1

/-- The task may wait: it has exactly one implicit finish open. -/
def ExactlyOneOpen (effects : List Effect) : Prop := openings effects = effects.count .wait + 1

instance (effects : List Effect) : Decidable (AtMostOneOpen effects) :=
  inferInstanceAs (Decidable (_ ≤ _))

instance (effects : List Effect) : Decidable (ExactlyOneOpen effects) :=
  inferInstanceAs (Decidable (_ = _))

/-- Every wait has a spawn before it that no wait has joined; `unjoined` says
    that there is one at the start. -/
def Preceded : Bool → List Effect → Prop
  | _, [] => True
  | _, .spawn :: effects => Preceded true effects
  | unjoined, .root :: effects => Preceded unjoined effects
  | unjoined, .wait :: effects => unjoined = true ∧ Preceded false effects

instance decidablePreceded : (unjoined : Bool) → (effects : List Effect) →
    Decidable (Preceded unjoined effects)
  | _, [] => isTrue trivial
  | _, .spawn :: effects => decidablePreceded true effects
  | unjoined, .root :: effects => decidablePreceded unjoined effects
  | _, .wait :: effects =>
    let _ := decidablePreceded false effects
    inferInstanceAs (Decidable (_ ∧ _))

theorem openingsAfter_concat (prev : Option Effect) (effects : List Effect) (e : Effect) :
    openingsAfter prev (effects ++ [e]) = openingsAfter prev effects +
      if e = .spawn ∧ effects.getLast?.or prev ≠ some .spawn then 1 else 0 := by
  induction effects generalizing prev with
  | nil =>
    rw [List.nil_append, openingsAfter, List.getLast?_nil, Option.none_or]
    simp only [openingsAfter, Nat.add_zero, Nat.zero_add]
  | cons d effects ih =>
    rw [List.cons_append, openingsAfter, ih, openingsAfter, Nat.add_assoc]
    cases effects with
    | nil => rfl
    | cons d' effects =>
      obtain ⟨x, hx⟩ : ∃ x, (d' :: effects).getLast? = some x :=
        Option.isSome_iff_exists.mp (List.getLast?_isSome.mpr (List.cons_ne_nil _ _))
      rw [List.getLast?_cons_cons, hx]
      rfl

theorem openings_concat (effects : List Effect) (e : Effect) :
    openings (effects ++ [e]) =
      openings effects + if e = .spawn ∧ effects.getLast? ≠ some .spawn then 1 else 0 := by
  unfold openings
  rw [openingsAfter_concat, Option.or_none]

theorem Preceded.of_append {b : Bool} {effects new : List Effect}
    (h : Preceded b (effects ++ new)) : Preceded b effects := by
  induction effects generalizing b with
  | nil => trivial
  | cons e effects ih =>
    cases e with
    | spawn => exact ih (b := true) h
    | root => exact ih (b := b) h
    | wait => exact ⟨h.1, ih h.2⟩

/-- Between two waits there is a spawn that opens an implicit finish. -/
theorem Preceded.count_lt {b : Bool} {p : Option Effect} {effects : List Effect}
    (h : Preceded b (effects ++ [.wait])) (hprev : p = some .spawn → b = true) :
    effects.count .wait + 1 ≤
      openingsAfter p effects + if b = true then 1 else 0 := by
  induction effects generalizing b p with
  | nil =>
    have h : b = true := h.1
    simp [h]
  | cons e effects ih =>
    unfold openingsAfter
    cases e with
    | spawn =>
      have := ih (b := true) (p := some .spawn) h fun _ => rfl
      rw [List.count_cons_of_ne (by decide)]
      rw [if_pos rfl] at this
      by_cases hp : p = some .spawn
      · rw [if_pos (hprev hp)]
        omega
      · rw [if_pos ⟨rfl, hp⟩]
        omega
    | root =>
      have := ih (b := b) (p := some .root) h fun h => nomatch h
      rw [List.count_cons_of_ne (by decide)]
      omega
    | wait =>
      have := ih (b := false) (p := some .wait) h.2 fun h => nomatch h
      rw [List.count_cons_self, if_pos h.1]
      simp only [Bool.false_eq_true, if_false] at this
      omega

/-! ## The part of the stack that belongs to a task -/

/-- The node of a task under `n` implicit finishes. Only the topmost of these
    nodes can take an ASYNC child. -/
inductive Segment (node : ℕ) : ℕ → List AFTask → Prop
  | own {o : AFTask} (hn : o.nodeId = node) (hs : o.syncFinishFlag = false)
      (hy : o.youngNsChild ≠ .async) : Segment node 0 [o]
  | frame {f c : AFTask} {l : List AFTask} {n : ℕ} (hs : f.syncFinishFlag = true)
      (hy : c.youngNsChild ≠ .async) (h : Segment node n (c :: l)) :
      Segment node (n + 1) (f :: c :: l)

theorem Segment.length {node n : ℕ} {l : List AFTask} (h : Segment node n l) :
    l.length = n + 1 := by
  induction h with
  | own => rfl
  | frame _ _ _ ih => rw [List.length_cons, ih]

/-- The current node is changed. -/
theorem Segment.replace {node n : ℕ} {c c' : AFTask} {l : List AFTask}
    (h : Segment node n (c :: l)) (hid : c'.nodeId = c.nodeId)
    (hs : c'.syncFinishFlag = c.syncFinishFlag)
    (hy : c'.youngNsChild = .async → c.youngNsChild = .async) : Segment node n (c' :: l) := by
  cases h with
  | own hn hs' hy' => exact .own (hid.trans hn) (hs.trans hs') fun h => hy' (hy h)
  | frame hs' hy' h => exact .frame (hs.trans hs') hy' h

theorem Segment.node_mem {node n : ℕ} {l : List AFTask} (h : Segment node n l) :
    ∃ o ∈ l, o.nodeId = node ∧ o.syncFinishFlag = false := by
  induction h with
  | own hn hs hy => exact ⟨_, List.mem_singleton_self _, hn, hs⟩
  | frame _ _ _ ih =>
    obtain ⟨o, ho, h⟩ := ih
    exact ⟨o, List.mem_cons_of_mem _ ho, h⟩

/-- The nodes `c :: l` of a task that has made the calls `effects`. -/
structure Frames (node : ℕ) (effects : List Effect) (c : AFTask) (l : List AFTask) (n : ℕ) :
    Prop where
  segment : Segment node n (c :: l)
  count : n + effects.count .wait = openings effects
  young : c.youngNsChild = .async ↔ effects.getLast? = some .spawn

section Frames

variable {node n : ℕ} {effects : List Effect} {c c' : AFTask} {l : List AFTask}

/-- A task that starts. -/
theorem Frames.start (hs : c.syncFinishFlag = false) (hy : c.youngNsChild ≠ .async) :
    Frames c.nodeId [] c [] 0 :=
  ⟨.own rfl hs hy, rfl, iff_of_false hy fun h => nomatch h⟩

theorem Frames.setChild (h : Frames node effects c l n) (i : ℕ) :
    Frames node effects { c with childId := i } l n :=
  ⟨h.segment.replace rfl rfl id, h.count, h.young⟩

/-- A spawn after a spawn. -/
theorem Frames.spawn (h : Frames node effects c l n) (hy : c.youngNsChild = .async) :
    Frames node (effects ++ [.spawn]) c l n := by
  refine ⟨h.segment, ?_, iff_of_true hy List.getLast?_concat⟩
  rw [openings_concat, if_neg (fun hc => hc.2 (h.young.mp hy)), List.count_append, ← h.count]
  rfl

/-- A spawn that opens an implicit finish. -/
theorem Frames.open (h : Frames node effects c l n) (hy : c.youngNsChild ≠ .async) {f : AFTask}
    (hf : f.syncFinishFlag = true) (hfy : f.youngNsChild = .async) :
    Frames node (effects ++ [.spawn]) f ({ c with youngNsChild := .finish } :: l) (n + 1) := by
  refine ⟨.frame hf (fun h => nomatch h) (h.segment.replace rfl rfl fun h => nomatch h), ?_,
    iff_of_true hfy List.getLast?_concat⟩
  rw [openings_concat, if_pos ⟨rfl, fun hl => hy (h.young.mpr hl)⟩, List.count_append, ← h.count]
  show n + 1 + (_ + 0) = _
  omega

/-- `spawn_root_and_wait`. -/
theorem Frames.root (h : Frames node effects c l n) :
    Frames node (effects ++ [.root]) { c with youngNsChild := .finish } l n := by
  refine ⟨h.segment.replace rfl rfl (fun h => nomatch h), ?_,
    iff_of_false (fun h => nomatch h) (by rw [List.getLast?_concat]; exact fun h => nomatch h)⟩
  rw [openings_concat, if_neg (fun hc => nomatch hc.1), List.count_append, ← h.count]
  rfl

/-- A wait closes the topmost implicit finish. -/
theorem Frames.wait (h : Frames node effects c (c' :: l) (n + 1)) :
    Frames node (effects ++ [.wait]) c' l n := by
  have hcount := h.count
  cases h.segment with
  | frame hs hy hseg =>
    refine ⟨hseg, ?_, iff_of_false hy (by rw [List.getLast?_concat]; exact fun h => nomatch h)⟩
    rw [openings_concat, if_neg (fun hc => nomatch hc.1), List.count_append, ← hcount]
    show n + (_ + 1) = _
    omega

end Frames

/-! ## Steps -/

/-- An event of the innermost activation of thread `t` that leaves it there. -/
def Event.isCall (t : ThreadId) : Event κ → Bool
  | .work u _ _ | .entry u _ _ | .register u | .resume u => decide (u = t)
  | _ => false

/-- An event that logs a STEP. -/
def Event.isStep : Event κ → Bool
  | .entry _ _ _ | .fini => true
  | _ => false

/-- A piece of work of thread `t`. -/
def Event.isWork (t : ThreadId) : Event κ → Bool
  | .work u _ _ => decide (u = t)
  | _ => false

namespace Sys

variable {s s' : Sys κ} {t : ThreadId}

/-- An event of another thread leaves the stacks of a thread as they are. -/
theorem step_frame {e : Event κ} (h : s.Orderly) (he : s.Step e s') (hu : e.thread ≠ t) :
    s'.threads t = s.threads t ∧ s'.graph.curDpstIndex t = s.graph.curDpstIndex t := by
  cases e with
  | work u w code =>
    obtain ⟨a, rest, ht, hp, rfl⟩ := step_work he
    exact ⟨Function.update_of_ne (Ne.symm hu) .., rfl⟩
  | entry u call code =>
    obtain ⟨a, rest, c, stk, ht, hp, -, hst, rfl⟩ := step_entry he
    exact ⟨Function.update_of_ne (Ne.symm hu) .., rfl⟩
  | register u =>
    obtain ⟨a, rest, call, phase, effect, body, G, ht, hp, hr, hc, rfl⟩ :=
      step_register he (h.fresh _ (Nat.lt_succ_self _))
    refine ⟨Function.update_of_ne (Ne.symm hu) .., ?_⟩
    show G.curDpstIndex t = _
    cases hc with
    | rootFinish hst hsp =>
      rw [hsp.curDpstIndex]
      exact Function.update_of_ne (Ne.symm hu) ..
    | _ hst hy hsp =>
      rw [hsp.curDpstIndex]
      exact Function.update_of_ne (Ne.symm hu) ..
  | execute u k =>
    obtain ⟨body, node, hc, hb, hn, rfl⟩ := step_execute he
    exact ⟨Function.update_of_ne (Ne.symm hu) .., Function.update_of_ne (Ne.symm hu) ..⟩
  | resume u =>
    obtain ⟨a, rest, ht, ⟨hp, c, stk, hst, rfl⟩ | ⟨hp, d, c, stk, hst, rfl⟩⟩ := step_resume he
    all_goals
      exact ⟨Function.update_of_ne (Ne.symm hu) .., Function.update_of_ne (Ne.symm hu) ..⟩
  | leave u =>
    obtain ⟨a, rest, c, stk, ht, hp, hst, ⟨-, rfl⟩ | ⟨-, d, stk', rfl, rfl⟩⟩ := step_leave he
    all_goals
      exact ⟨Function.update_of_ne (Ne.symm hu) .., Function.update_of_ne (Ne.symm hu) ..⟩
  | fini =>
    obtain ⟨a, c, stk, ht, hp, hq, hst, rfl⟩ := step_fini he
    exact ⟨Function.update_of_ne (Ne.symm hu) .., rfl⟩

/-- A call of the innermost activation, whose nodes are on top of `below`: it
    has nodes on top of `below` again, if it does not wait without an implicit
    finish. -/
theorem frames_call {e : Event κ} {a : Activation κ} {rest : List (Activation κ)} {c : AFTask}
    {l below : List AFTask} {n : ℕ} (h : s.Orderly) (he : s.Step e s') (hcall : e.isCall t = true)
    (ht : s.threads t = a :: rest) (hst : s.graph.curDpstIndex t = c :: (l ++ below))
    (hf : Frames a.node a.effects c l n)
    (hw : e = .resume t → a.phase = .waitingAll → n ≠ 0) :
    ∃ a' c' l' n', s'.threads t = a' :: rest ∧ a'.node = a.node ∧
      s'.graph.curDpstIndex t = c' :: (l' ++ below) ∧ Frames a'.node a'.effects c' l' n' := by
  -- the activation and the stack in the state after the event
  have htop : ∀ {a₁ : Activation κ} {rest₁}, s.threads t = a₁ :: rest₁ → a₁ = a ∧ rest₁ = rest := by
    intro a₁ rest₁ h1
    rw [ht] at h1
    exact ⟨(List.cons.inj h1).1.symm, (List.cons.inj h1).2.symm⟩
  have hstk : ∀ {c₁ l₁}, s.graph.curDpstIndex t = c₁ :: l₁ → c₁ = c ∧ l₁ = l ++ below := by
    intro c₁ l₁ h1
    rw [hst] at h1
    exact ⟨(List.cons.inj h1).1.symm, (List.cons.inj h1).2.symm⟩
  cases e with
  | work u w code =>
    obtain rfl : u = t := of_decide_eq_true hcall
    obtain ⟨a₁, rest₁, ht₁, hp, rfl⟩ := step_work he
    obtain ⟨rfl, rfl⟩ := htop ht₁
    exact ⟨_, c, l, n, Function.update_self .., rfl, hst, hf⟩
  | entry u call code =>
    obtain rfl : u = t := of_decide_eq_true hcall
    obtain ⟨a₁, rest₁, c₁, stk, ht₁, hp, -, hst₁, rfl⟩ := step_entry he
    obtain ⟨rfl, rfl⟩ := htop ht₁
    exact ⟨_, c, l, n, Function.update_self .., rfl, hst, hf⟩
  | register u =>
    obtain rfl : u = t := of_decide_eq_true hcall
    obtain ⟨a₁, rest₁, call, phase, effect, body, G, ht₁, hp, hr, hc, rfl⟩ :=
      step_register he (h.fresh _ (Nat.lt_succ_self _))
    obtain ⟨rfl, rfl⟩ := htop ht₁
    refine ⟨{ a₁ with phase := phase, effects := a₁.effects ++ [effect] }, ?_⟩
    have hset : ∀ {n es stk node}, Spawned s.graph G u (s.taskIdCtr + 1) n es stk node →
        G.curDpstIndex u = stk :=
      fun hsp => (congrFun hsp.curDpstIndex u).trans (Function.update_self ..)
    cases hc with
    | spawnAsync hst₁ hy hsp =>
      obtain ⟨rfl, rfl⟩ := hstk hst₁
      cases hr
      exact ⟨_, l, n, Function.update_self .., rfl, hset hsp, (hf.spawn hy).setChild _⟩
    | @spawnFinish site body c₁ rest₂ hst₁ hy hsp =>
      obtain ⟨rfl, rfl⟩ := hstk hst₁
      cases hr
      exact ⟨_, { c₁ with youngNsChild := .finish } :: l, n + 1, Function.update_self .., rfl,
        hset hsp, hf.open hy rfl rfl⟩
    | rootFinish hst₁ hsp =>
      obtain ⟨rfl, rfl⟩ := hstk hst₁
      cases hr
      exact ⟨_, l, n, Function.update_self .., rfl, hset hsp, hf.root⟩
    | waitAsync hst₁ hy hsp =>
      obtain ⟨rfl, rfl⟩ := hstk hst₁
      cases hr
      exact ⟨_, l, n, Function.update_self .., rfl, hset hsp, hf.spawn hy⟩
    | @waitFinish site body c₁ rest₂ hst₁ hy hsp =>
      obtain ⟨rfl, rfl⟩ := hstk hst₁
      cases hr
      exact ⟨_, { c₁ with youngNsChild := .finish } :: l, n + 1, Function.update_self .., rfl,
        hset hsp, hf.open hy rfl rfl⟩
  | resume u =>
    obtain rfl : u = t := of_decide_eq_true hcall
    obtain ⟨a₁, rest₁, ht₁, ⟨hp, c₁, stk, hst₁, rfl⟩ | ⟨hp, d, c₁, stk, hst₁, rfl⟩⟩ :=
      step_resume he
    · obtain ⟨rfl, rfl⟩ := htop ht₁
      obtain ⟨rfl, rfl⟩ := hstk hst₁
      exact ⟨_, _, l, n, Function.update_self .., rfl, Function.update_self .., hf.setChild _⟩
    · obtain ⟨rfl, rfl⟩ := htop ht₁
      obtain ⟨rfl, hl⟩ := hstk hst₁
      obtain ⟨n, rfl⟩ := Nat.exists_eq_succ_of_ne_zero (hw rfl hp)
      cases l with
      | nil => cases hf.segment
      | cons c₂ l =>
        obtain ⟨rfl, rfl⟩ := List.cons.inj hl
        exact ⟨_, _, l, n, Function.update_self .., rfl, Function.update_self ..,
          hf.wait.setChild _⟩
  | execute u k => cases hcall
  | leave u => cases hcall
  | fini => cases hcall

/-- `CaptureReturn` takes the nodes of the task off the stack exactly if there
    is at most one implicit finish. -/
theorem frames_leave {a : Activation κ} {rest : List (Activation κ)} {c : AFTask}
    {l below : List AFTask} {n : ℕ} (he : s.Step (.leave t) s')
    (ht : s.threads t = a :: rest) (hst : s.graph.curDpstIndex t = c :: (l ++ below))
    (hf : Frames a.node a.effects c l n) :
    s'.threads t = rest ∧ (s'.graph.curDpstIndex t = below ↔ n ≤ 1) := by
  obtain ⟨a₁, rest₁, c₁, stk, ht₁, hp, hst₁, hcase⟩ := step_leave he
  rw [ht] at ht₁
  obtain ⟨rfl, rfl⟩ := List.cons.inj ht₁
  rw [hst] at hst₁
  obtain ⟨rfl, rfl⟩ := List.cons.inj hst₁
  have hlen := hf.segment.length
  rw [List.length_cons] at hlen
  rcases hcase with ⟨hsync, rfl⟩ | ⟨hsync, d, stk', hd, rfl⟩
  · refine ⟨Function.update_self .., ?_⟩
    show Function.update _ t _ t = _ ↔ _
    rw [Function.update_self]
    cases hf.segment with
    | own => exact iff_of_true rfl (Nat.zero_le 1)
    | frame hs hy hseg =>
      rw [hsync] at hs
      cases hs
  · refine ⟨Function.update_self .., ?_⟩
    show Function.update _ t _ t = _ ↔ _
    rw [Function.update_self]
    cases hf.segment with
    | own hn hs hy =>
      rw [hsync] at hs
      cases hs
    | @frame f c₂ l₂ n₂ hs hy hseg =>
      obtain ⟨-, rfl⟩ := List.cons.inj hd
      have := hseg.length
      rw [List.length_cons] at this
      show l₂ ++ below = below ↔ _
      constructor
      · intro heq
        have := congrArg List.length heq
        rw [List.length_append] at this
        omega
      · intro hn
        rw [List.eq_nil_of_length_eq_zero (l := l₂) (by omega), List.nil_append]

/-! ## One execution of a task -/

/-- What happens between the start of a task on thread `t` and its end: events
    of other threads, calls of the task, and whole executions of other tasks that
    leave the stack as they found it. -/
inductive Inside (t : ThreadId) : Sys κ → Sys κ → Prop
  | start (s : Sys κ) : Inside t s s
  | other {s s₁ s₂ : Sys κ} {e : Event κ} (hi : Inside t s s₁) (hu : e.thread ≠ t)
      (he : s₁.Step e s₂) : Inside t s s₂
  | call {s s₁ s₂ : Sys κ} {e : Event κ} (hi : Inside t s s₁) (hc : e.isCall t = true)
      (he : s₁.Step e s₂) : Inside t s s₂
  | nested {s s₁ s₂ s₃ s₄ : Sys κ} {k : ℕ} (hi : Inside t s s₁) (he : s₁.Step (.execute t k) s₂)
      (hn : Inside t s₂ s₃) (hl : s₃.Step (.leave t) s₄)
      (hb : s₄.graph.curDpstIndex t = s₁.graph.curDpstIndex t) : Inside t s s₄

theorem Reachable.step {main : κ} {e : Event κ} (h : Reachable main s) (he : s.Step e s') :
    Reachable main s' := by
  obtain ⟨es, hr⟩ := h
  exact ⟨es ++ [e], hr.snoc trivial he⟩

theorem Inside.reachable {main : κ} (hi : Inside t s s') (h : Reachable main s) :
    Reachable main s' := by
  induction hi with
  | start => exact h
  | other _ _ he ih => exact (ih h).step he
  | call _ _ he ih => exact (ih h).step he
  | nested _ he _ hl _ ih1 ih2 => exact (ih2 ((ih1 h).step he)).step hl

/-- A call changes nothing below the innermost activation. -/
theorem threads_call {e : Event κ} {a : Activation κ} {rest : List (Activation κ)}
    (h : s.Orderly) (he : s.Step e s') (hcall : e.isCall t = true)
    (ht : s.threads t = a :: rest) :
    ∃ a' new, s'.threads t = a' :: rest ∧ a'.effects = a.effects ++ new ∧
      (e = .resume t → a.phase = .waitingAll → new = [.wait]) := by
  have htop : ∀ {a₁ : Activation κ} {rest₁}, s.threads t = a₁ :: rest₁ → a₁ = a ∧ rest₁ = rest := by
    intro a₁ rest₁ h1
    rw [ht] at h1
    exact ⟨(List.cons.inj h1).1.symm, (List.cons.inj h1).2.symm⟩
  cases e with
  | work u w code =>
    obtain rfl : u = t := of_decide_eq_true hcall
    obtain ⟨a₁, rest₁, ht₁, hp, rfl⟩ := step_work he
    obtain ⟨rfl, rfl⟩ := htop ht₁
    exact ⟨_, [], Function.update_self .., (List.append_nil _).symm, fun h => nomatch h⟩
  | entry u call code =>
    obtain rfl : u = t := of_decide_eq_true hcall
    obtain ⟨a₁, rest₁, c₁, stk, ht₁, hp, -, hst₁, rfl⟩ := step_entry he
    obtain ⟨rfl, rfl⟩ := htop ht₁
    exact ⟨_, [], Function.update_self .., (List.append_nil _).symm, fun h => nomatch h⟩
  | register u =>
    obtain rfl : u = t := of_decide_eq_true hcall
    obtain ⟨a₁, rest₁, call, phase, effect, body, G, ht₁, hp, hr, hc, rfl⟩ :=
      step_register he (h.fresh _ (Nat.lt_succ_self _))
    obtain ⟨rfl, rfl⟩ := htop ht₁
    exact ⟨_, [effect], Function.update_self .., rfl, fun h => nomatch h⟩
  | resume u =>
    obtain rfl : u = t := of_decide_eq_true hcall
    obtain ⟨a₁, rest₁, ht₁, ⟨hp, c₁, stk, hst₁, rfl⟩ | ⟨hp, d, c₁, stk, hst₁, rfl⟩⟩ :=
      step_resume he
    · obtain ⟨rfl, rfl⟩ := htop ht₁
      refine ⟨_, [], Function.update_self .., (List.append_nil _).symm, fun _ hp' => ?_⟩
      rw [hp] at hp'
      cases hp'
    · obtain ⟨rfl, rfl⟩ := htop ht₁
      exact ⟨_, [.wait], Function.update_self .., rfl, fun _ _ => rfl⟩
  | execute u k => cases hcall
  | leave u => cases hcall
  | fini => cases hcall

/-- The activations below the innermost one stay. -/
theorem Inside.threads {main : κ} (hi : Inside t s s') (h : Reachable main s) {a : Activation κ}
    {rest : List (Activation κ)} (ht : s.threads t = a :: rest) :
    ∃ a', s'.threads t = a' :: rest := by
  induction hi generalizing a rest with
  | start => exact ⟨a, ht⟩
  | other hi hu he ih =>
    obtain ⟨a', ha'⟩ := ih h ht
    exact ⟨a', (step_frame (hi.reachable h).orderly he hu).1.trans ha'⟩
  | call hi hc he ih =>
    obtain ⟨a', ha'⟩ := ih h ht
    obtain ⟨a'', -, ha'', -⟩ := threads_call (hi.reachable h).orderly he hc ha'
    exact ⟨a'', ha''⟩
  | nested hi he hn hl hb ih1 ih2 =>
    obtain ⟨a', ha'⟩ := ih1 h ht
    obtain ⟨body, node, -, -, -, rfl⟩ := step_execute he
    obtain ⟨a'', ha''⟩ := ih2 ((hi.reachable h).step he) (Function.update_self ..)
    obtain ⟨a₁, rest₁, c, stk, ht₁, hp, hst, ⟨-, rfl⟩ | ⟨-, d, stk', -, rfl⟩⟩ := step_leave hl
    all_goals
      rw [ha''] at ht₁
      obtain ⟨rfl, rfl⟩ := List.cons.inj ht₁
      exact ⟨a', (Function.update_self ..).trans ha'⟩

/-- During an execution whose waits all have something to join, the task has its
    nodes on top of the stack. -/
theorem Inside.frames {main : κ} (hi : Inside t s s') (h : Reachable main s) {a : Activation κ}
    {rest : List (Activation κ)} {c : AFTask} {l : List AFTask} {n : ℕ} (below : List AFTask)
    (ht : s.threads t = a :: rest) (hst : s.graph.curDpstIndex t = c :: (l ++ below))
    (hf : Frames a.node a.effects c l n) :
    ∃ a', s'.threads t = a' :: rest ∧ (Preceded false a'.effects →
      ∃ c' l' n', s'.graph.curDpstIndex t = c' :: (l' ++ below) ∧
        Frames a'.node a'.effects c' l' n') := by
  induction hi with
  | start => exact ⟨a, ht, fun _ => ⟨c, l, n, hst, hf⟩⟩
  | other hi hu he ih =>
    obtain ⟨a', ha', hfr⟩ := ih h ht hst
    obtain ⟨h1, h2⟩ := step_frame (hi.reachable h).orderly he hu
    rw [h1, h2]
    exact ⟨a', ha', hfr⟩
  | @call s s₁ s₂ e hi hc he ih =>
    obtain ⟨a', ha', hfr⟩ := ih h ht hst
    have ho := (hi.reachable h).orderly
    obtain ⟨a'', new, ha'', heff, hnew⟩ := threads_call ho he hc ha'
    refine ⟨a'', ha'', fun hpre => ?_⟩
    rw [heff] at hpre
    obtain ⟨c', l', n', hst', hf'⟩ := hfr hpre.of_append
    have hw : e = .resume t → a'.phase = .waitingAll → n' ≠ 0 := by
      intro he hp
      rw [hnew he hp] at hpre
      have hlt : _ ≤ openings a'.effects + 0 := hpre.count_lt (p := none) fun h => nomatch h
      have hcount := hf'.count
      omega
    obtain ⟨a₃, c₃, l₃, n₃, ha₃, -, hst₃, hf₃⟩ := frames_call ho he hc ha' hst' hf' hw
    rw [ha''] at ha₃
    obtain ⟨rfl, -⟩ := List.cons.inj ha₃
    exact ⟨c₃, l₃, n₃, hst₃, hf₃⟩
  | nested hi he hn hl hb ih1 ih2 =>
    obtain ⟨a', ha', hfr⟩ := ih1 h ht hst
    have hs₄ := Inside.threads (hi.nested he hn hl hb) h ht
    obtain ⟨a₄, ha₄⟩ := hs₄
    obtain ⟨body, node, -, -, -, rfl⟩ := step_execute he
    obtain ⟨a'', ha''⟩ := hn.threads ((hi.reachable h).step he) (Function.update_self ..)
    obtain ⟨a₁, rest₁, c₁, stk, ht₁, hp, hst₁, ⟨-, rfl⟩ | ⟨-, d, stk', -, rfl⟩⟩ := step_leave hl
    all_goals
      rw [ha''] at ht₁
      obtain ⟨rfl, rfl⟩ := List.cons.inj ht₁
      refine ⟨a', (Function.update_self ..).trans ha', fun hpre => ?_⟩
      obtain ⟨c', l', n', hst', hf'⟩ := hfr hpre
      exact ⟨c', l', n', hb.trans hst', hf'⟩

/-- **Balance.** A task whose waits all have something to join leaves the stack
    of its thread as it found it exactly if at its end at most one implicit
    finish is open. -/
theorem balanced_iff {main : κ} {s₁ s₂ : Sys κ} {k : ℕ} {a : Activation κ}
    (h : Reachable main s) (he : s.Step (.execute t k) s₁) (hi : Inside t s₁ s₂)
    (hl : s₂.Step (.leave t) s') (ha : (s₂.threads t).head? = some a)
    (hpre : Preceded false a.effects) :
    s'.graph.curDpstIndex t = s.graph.curDpstIndex t ↔ AtMostOneOpen a.effects := by
  have h₁ := h.step he
  obtain ⟨body, node, -, -, hn, rfl⟩ := step_execute he
  obtain ⟨hs, -⟩ := h.sound
  have hsync := hs.plain k node hn
  have hstart := Frames.start hsync ((hs.temp k node hn).own hsync).1
  obtain ⟨a', ha', hfr⟩ := hi.frames (c := node) (l := []) h₁ (s.graph.curDpstIndex t)
    (Function.update_self ..) (Function.update_self ..) hstart
  rw [ha', List.head?_cons, Option.some.injEq] at ha
  subst ha
  obtain ⟨c, l, n, hst, hf⟩ := hfr hpre
  have hcount := hf.count
  rw [(frames_leave hl ha' hst hf).2]
  unfold AtMostOneOpen
  omega

/-- The execution goes on with calls of the task. -/
theorem Inside.exec {s₀ : Sys κ} {es : List (Event κ)} (hi : Inside t s₀ s)
    (hes : es.all (Event.isCall t) = true) (h : s.exec (fun _ _ => true) es = some s') :
    Inside t s₀ s' := by
  induction es generalizing s with
  | nil =>
    obtain rfl : s = s' := Option.some.inj h
    exact hi
  | cons e es ih =>
    rw [List.all_cons, Bool.and_eq_true] at hes
    unfold Sys.exec at h
    split at h
    · next s₁ _ hs => exact ih (hi.call hes.1 hs) hes.2 h
    · cases h

/-! ### A task that spawns around a `spawn_root_and_wait` -/

/-- `main` waits for a task; the task spawns and runs a root task, both of its
    thread; `last` is the rest of the task. -/
def aroundRoot (last : List (Event Unit)) : List (List (Event Unit)) :=
  let site : Site := ⟨64, some ['a'], 7, false⟩
  [[.entry 0 (.spawnRootAndWait site ()) (), .register 0],
    [.execute 0 1],
    [.entry 0 (.spawn site ()) (), .register 0, .entry 0 (.spawnRootAndWait site ()) (),
      .register 0],
    [.execute 0 3], [.entry 0 .ret ()], [.leave 0], last, [.leave 0]]

/-- The stack of thread 0 after some of these events. -/
def stackAfter (es : List (List (Event Unit))) : Option (List AFTask) :=
  (exec (fun _ _ => true) (init ()) es.flatten).map fun s => s.graph.curDpstIndex 0

/-- These events are an execution of the task from the second on. -/
theorem aroundRoot_execution (last : List (Event Unit)) (hcall : last.all (Event.isCall 0) = true)
    (hex : (exec (fun _ _ => true) (init ()) (aroundRoot last).flatten).isSome = true)
    (hbal : stackAfter ((aroundRoot last).take 6) = stackAfter ((aroundRoot last).take 3)) :
    ∃ s s₁ s₂ s' : Sys Unit, Reachable () s ∧ s.Step (.execute 0 1) s₁ ∧ Inside 0 s₁ s₂ ∧
      s₂.Step (.leave 0) s' ∧
      exec (fun _ _ => true) (init ()) ((aroundRoot last).take 7).flatten = some s₂ ∧
      stackAfter ((aroundRoot last).take 1) = some (s.graph.curDpstIndex 0) ∧
      stackAfter (aroundRoot last) = some (s'.graph.curDpstIndex 0) := by
  obtain ⟨s', hs'⟩ := Option.isSome_iff_exists.mp hex
  have hsplit : ∀ n (s : Sys Unit),
      exec (fun _ _ => true) (init ()) ((aroundRoot last).take (n + 1)).flatten = some s →
      ∀ es, (aroundRoot last)[n]? = some es → ∃ s₁,
        exec (fun _ _ => true) (init ()) ((aroundRoot last).take n).flatten = some s₁ ∧
        exec (fun _ _ => true) s₁ es = some s := by
    intro n s hs es hes
    rw [List.take_add_one, hes, Option.toList_some, List.flatten_append, List.flatten_singleton]
      at hs
    exact exec_append_eq_some hs
  have hlen : (aroundRoot last).take 8 = aroundRoot last := rfl
  rw [← hlen] at hs'
  obtain ⟨s₂, h7, e7⟩ := hsplit 7 s' hs' _ rfl
  obtain ⟨u₄, h6, e6⟩ := hsplit 6 s₂ h7 _ rfl
  obtain ⟨u₃, h5, e5⟩ := hsplit 5 u₄ h6 _ rfl
  obtain ⟨u₂, h4, e4⟩ := hsplit 4 u₃ h5 _ rfl
  obtain ⟨u₁, h3, e3⟩ := hsplit 3 u₂ h4 _ rfl
  obtain ⟨s₁, h2, e2⟩ := hsplit 2 u₁ h3 _ rfl
  obtain ⟨s, h1, e1⟩ := hsplit 1 s₁ h2 _ rfl
  have hbefore : Inside 0 s₁ u₁ := (Inside.start s₁).exec rfl e2
  have hroot : Inside 0 u₂ u₃ := (Inside.start u₂).exec rfl e4
  have hstack : u₄.graph.curDpstIndex 0 = u₁.graph.curDpstIndex 0 := by
    unfold stackAfter at hbal
    rw [h6, h3] at hbal
    exact Option.some.inj hbal
  have hnest : Inside 0 s₁ u₄ :=
    hbefore.nested (step_of_exec e3) hroot (step_of_exec e5) hstack
  refine ⟨s, s₁, s₂, s', (run_of_exec h1).reachable, step_of_exec e1, hnest.exec hcall e6,
    step_of_exec e7, h7, ?_, ?_⟩
  · unfold stackAfter
    rw [h1, Option.map_some]
  · unfold stackAfter
    rw [← hlen, hs', Option.map_some]

/-- A task that spawns, runs a root task and returns. -/
theorem aroundRoot_balanced : ∃ (s s₁ s₂ s' : Sys Unit) (a : Activation Unit),
    s.Step (.execute 0 1) s₁ ∧ Inside 0 s₁ s₂ ∧ s₂.Step (.leave 0) s' ∧
      (s₂.threads 0).head? = some a ∧ a.effects = [.spawn, .root] ∧
      s'.graph.curDpstIndex 0 = s.graph.curDpstIndex 0 := by
  obtain ⟨s, s₁, s₂, s', hr, he, hi, hl, h₂, -, -⟩ :=
    aroundRoot_execution [.resume 0, .entry 0 .ret ()] (by decide) (by decide) (by decide)
  have hact : (exec (fun _ _ => true) (init ())
      ((aroundRoot [.resume 0, .entry 0 .ret ()]).take 7).flatten).map
        (fun s => (s.threads 0).head?.map Activation.effects) = some (some [.spawn, .root]) := by
    decide
  rw [h₂, Option.map_some, Option.some.injEq, Option.map_eq_some_iff] at hact
  obtain ⟨a, ha, heff⟩ := hact
  refine ⟨s, s₁, s₂, s', a, he, hi, hl, ha, heff, ?_⟩
  exact (balanced_iff hr he hi hl ha (by rw [heff]; decide)).mpr (by rw [heff]; decide)

/-- After another spawn the task leaves its node on the stack. -/
theorem not_balanced : ∃ (s s₁ s₂ s' : Sys Unit) (a : Activation Unit),
    Reachable () s ∧ s.Step (.execute 0 1) s₁ ∧ Inside 0 s₁ s₂ ∧ s₂.Step (.leave 0) s' ∧
      (s₂.threads 0).head? = some a ∧ a.effects = [.spawn, .root, .spawn] ∧
      Preceded false a.effects ∧ s'.graph.curDpstIndex 0 ≠ s.graph.curDpstIndex 0 := by
  obtain ⟨s, s₁, s₂, s', hr, he, hi, hl, h₂, hs, hs'⟩ := aroundRoot_execution
    [.resume 0, .entry 0 (.spawn ⟨64, some ['a'], 8, false⟩ ()) (), .register 0, .entry 0 .ret ()]
    (by decide) (by decide) (by decide)
  have hact : (exec (fun _ _ => true) (init ()) ((aroundRoot [.resume 0,
      .entry 0 (.spawn ⟨64, some ['a'], 8, false⟩ ()) (), .register 0, .entry 0 .ret ()]).take
        7).flatten).map (fun s => (s.threads 0).head?.map Activation.effects) =
          some (some [.spawn, .root, .spawn]) := by
    decide
  rw [h₂, Option.map_some, Option.some.injEq, Option.map_eq_some_iff] at hact
  obtain ⟨a, ha, heff⟩ := hact
  refine ⟨s, s₁, s₂, s', a, hr, he, hi, hl, ha, heff, by rw [heff]; decide, fun heq => ?_⟩
  rw [← Option.some.injEq, ← hs, ← hs'] at heq
  exact absurd heq (by decide)

/-! ## Waits -/

/-- Every wait of the run is made with one implicit finish open, and every task
    returns with at most one. -/
def Met (s : Sys κ) : Event κ → Prop
  | .resume t => ∀ a rest, s.threads t = a :: rest → a.phase = .waitingAll →
      ExactlyOneOpen a.effects
  | .leave t => ∀ a rest, s.threads t = a :: rest → AtMostOneOpen a.effects
  | _ => True

/-- The stack of a thread that runs the activations, each with its nodes. -/
inductive Stacked : List (Activation κ) → List AFTask → Prop
  | nil : Stacked [] []
  | cons {a : Activation κ} {rest : List (Activation κ)} {c : AFTask} {l below : List AFTask}
      {n : ℕ} (h : Frames a.node a.effects c l n) (hr : Stacked rest below) :
      Stacked (a :: rest) (c :: (l ++ below))

/-- The wait of a task with the node `node` has returned on thread `t`: the node
    is on top, so that the next STEP is logged under it, with an id above all that is
    logged; and as the node has no ASYNC child, everything logged below it comes before
    that STEP in series. -/
structure Joined (s : Sys κ) (t : ThreadId) (node : ℕ) : Prop where
  top : (s.graph.curDpstIndex t).head?.map AFTask.nodeId = some node
  next : ∀ es s₁ e s₂, Run (fun _ e => e.thread ≠ t ∨ e.isWork t = true) s es s₁ →
    e.thread = t → e.isStep = true → s₁.Step e s₂ →
    ∃ d, s₂.graph.logged = s₁.graph.logged ++ [d] ∧ d.nodeType = .step ∧ d.parent = node ∧
      ∀ c ∈ s.graph.logged, c.nodeId < d.nodeId
  serial : ∀ c ∈ s.graph.logged, c.parent = node → c.nodeType ≠ .async

theorem stacked_step {e : Event κ} (h : s.Orderly) (hs : Sound s.graph)
    (hst : ∀ u, Stacked (s.threads u) (s.graph.curDpstIndex u)) (hok : s.Met e)
    (he : s.Step e s') :
    s'.finished = true ∨ ∀ u, Stacked (s'.threads u) (s'.graph.curDpstIndex u) := by
  -- the other threads keep what they have
  have hthread : ∀ t, e.thread = t → Stacked (s'.threads t) (s'.graph.curDpstIndex t) →
      ∀ u, Stacked (s'.threads u) (s'.graph.curDpstIndex u) := by
    intro t het ht u
    by_cases hu : e.thread = u
    · rw [← hu, het]
      exact ht
    · obtain ⟨h1, h2⟩ := step_frame h he hu
      rw [h1, h2]
      exact hst u
  have hcall : ∀ t, e.thread = t → e.isCall t = true →
      ∀ u, Stacked (s'.threads u) (s'.graph.curDpstIndex u) := by
    intro t het hc
    refine hthread t het ?_
    have hsu := hst t
    cases ha : s.threads t with
    | nil =>
      exfalso
      cases e with
      | work u w code =>
        obtain ⟨a, rest, ht, -⟩ := step_work he
        rw [show u = t from het, ha] at ht
        cases ht
      | entry u call code =>
        obtain ⟨a, rest, c, stk, ht, -⟩ := step_entry he
        rw [show u = t from het, ha] at ht
        cases ht
      | register u =>
        obtain ⟨a, rest, call, phase, effect, body, G, ht, -⟩ :=
          step_register he (h.fresh _ (Nat.lt_succ_self _))
        rw [show u = t from het, ha] at ht
        cases ht
      | resume u =>
        obtain ⟨a, rest, ht, -⟩ := step_resume he
        rw [show u = t from het, ha] at ht
        cases ht
      | execute u k => cases hc
      | leave u => cases hc
      | fini => cases hc
    | cons a rest =>
      rw [ha] at hsu
      generalize hstk : s.graph.curDpstIndex t = stk at hsu
      cases hsu with
      | @cons _ _ c l below n hf hr =>
        have hw : e = .resume t → a.phase = .waitingAll → n ≠ 0 := by
          intro heq hp
          rw [heq] at hok
          have hone : openings a.effects = a.effects.count .wait + 1 := hok a rest ha hp
          have hcount := hf.count
          omega
        obtain ⟨a', c', l', n', ht', -, hst', hf'⟩ := frames_call h he hc ha hstk hf hw
        rw [ht', hst']
        exact .cons hf' hr
  cases e with
  | work t w code => exact .inr (hcall t rfl (decide_eq_true rfl))
  | entry t call code => exact .inr (hcall t rfl (decide_eq_true rfl))
  | register t => exact .inr (hcall t rfl (decide_eq_true rfl))
  | resume t => exact .inr (hcall t rfl (decide_eq_true rfl))
  | execute t k =>
    refine .inr (hthread t rfl ?_)
    obtain ⟨body, node, hc, hb, hn, rfl⟩ := step_execute he
    have hsync := hs.plain k node hn
    have hstart := Frames.start hsync ((hs.temp k node hn).own hsync).1
    show Stacked (Function.update s.threads t _ t) (Function.update s.graph.curDpstIndex t _ t)
    rw [Function.update_self, Function.update_self]
    exact .cons (l := []) (a := ⟨false, node.nodeId, body, .running, []⟩) hstart (hst t)
  | leave t =>
    refine .inr (hthread t rfl ?_)
    obtain ⟨a, rest, c₁, stk, ha, -⟩ := step_leave he
    have hsu := hst t
    rw [ha] at hsu
    generalize hstk : s.graph.curDpstIndex t = stk at hsu
    cases hsu with
    | @cons _ _ c l below n hf hr =>
      have hle : openings a.effects ≤ a.effects.count .wait + 1 := hok a rest ha
      have hcount := hf.count
      obtain ⟨h1, h2⟩ := frames_leave he ha hstk hf
      rw [h1, h2.mpr (by omega)]
      exact hr
  | fini =>
    obtain ⟨a, c, stk, ht, hp, hq, hst, rfl⟩ := step_fini he
    exact .inl rfl

theorem stacked_init (main : κ) (u : ThreadId) :
    Stacked ((init main).threads u) ((init main).graph.curDpstIndex u) := by
  by_cases hu : u = 0
  · rw [hu]
    exact .cons (l := []) (a := ⟨true, 1, main, .running, []⟩)
      (Frames.start (c := ⟨.noType, false, 1, 2⟩) rfl fun h => nomatch h) .nil
  · have h1 : (init main).threads u = [] := if_neg hu
    have h2 : (init main).graph.curDpstIndex u = [] := Function.update_of_ne hu ..
    rw [h1, h2]
    exact .nil

/-- A run that meets the condition leaves every thread with the nodes of its
    activations, until the end. -/
theorem Run.stacked {main : κ} {es : List (Event κ)} (h : Run Met (init main) es s) :
    s.finished = true ∨ ∀ u, Stacked (s.threads u) (s.graph.curDpstIndex u) := by
  induction h with
  | nil => exact .inr (stacked_init main)
  | @snoc es s₁ s' e hr hok he ih =>
    have hreach := hr.reachable
    have ho := hreach.orderly
    rcases ih with hf | hst
    · exact absurd he (ho.no_step hf)
    · exact stacked_step ho hreach.sound.1 hst hok he

/-- The stack of a thread does not change while it works. -/
theorem Run.stack_eq {es : List (Event κ)}
    (h : Run (fun _ e => e.thread ≠ t ∨ e.isWork t = true) s es s') (ho : s.Orderly) :
    s'.Orderly ∧ s'.graph.curDpstIndex t = s.graph.curDpstIndex t := by
  induction h with
  | nil => exact ⟨ho, rfl⟩
  | @snoc es s₁ s' e hr hok he ih =>
    obtain ⟨ho₁, heq⟩ := ih
    refine ⟨ho₁.step he, ?_⟩
    rcases hok with hu | hw
    · exact (step_frame ho₁ he hu).2.trans heq
    · cases e with
      | work u w code =>
        obtain ⟨a, rest, ht, hp, rfl⟩ := step_work he
        exact heq
      | _ => cases hw

/-- The node of a task is on top. -/
theorem joined_of_own (h : s.Orderly) (hs : Sound s.graph) {o : AFTask} {below : List AFTask}
    (hst : s.graph.curDpstIndex t = o :: below) (hsync : o.syncFinishFlag = false)
    (hid : ∀ c ∈ s.graph.logged, c.nodeId < o.childId) : Joined s t o.nodeId where
  top := by rw [hst]; rfl
  next := by
    intro es s₁ e s₂ hr ht he hstep
    obtain ⟨ho₁, heq⟩ := hr.stack_eq h
    rw [hst] at heq
    cases e with
    | entry u call code =>
      obtain ⟨a, rest, c, stk, ha, hp, -, hst₁, rfl⟩ := step_entry hstep
      rw [show u = t from ht, heq] at hst₁
      obtain ⟨rfl, -⟩ := List.cons.inj hst₁
      exact ⟨_, rfl, rfl, rfl, hid⟩
    | fini =>
      obtain ⟨a, c, stk, ha, hp, hq, hst₁, rfl⟩ := step_fini hstep
      rw [show 0 = t from ht, heq] at hst₁
      obtain ⟨rfl, -⟩ := List.cons.inj hst₁
      exact ⟨_, rfl, rfl, rfl, hid⟩
    | _ => cases he
  serial := ((hs.stack t o (by rw [hst]; exact List.mem_cons_self ..)).own hsync).2

/-- **Joining.** In a run in which every wait so far was made with one implicit
    finish open, and every task returned with at most one, the next wait returns
    to the node of its task exactly if it is made with one implicit finish open. -/
theorem wait_joins_iff {main : κ} {es : List (Event κ)} (h : Run Met (init main) es s)
    {a : Activation κ} {rest : List (Activation κ)} (ht : s.threads t = a :: rest)
    (hp : a.phase = .waitingAll) :
    (∃ s', s.Step (.resume t) s' ∧ Joined s' t a.node) ↔ ExactlyOneOpen a.effects := by
  have hreach := h.reachable
  have ho := hreach.orderly
  have hst : ∀ u, Stacked (s.threads u) (s.graph.curDpstIndex u) := by
    rcases h.stacked with hf | hst
    · rw [(ho.ended hf).1 t] at ht
      cases ht
    · exact hst
  have hstt := hst t
  rw [ht] at hstt
  generalize hstk : s.graph.curDpstIndex t = stk at hstt
  cases hstt with
  | @cons _ _ c l below n hf hr =>
    have hcount := hf.count
    have hone : ExactlyOneOpen a.effects ↔ n = 1 := by
      unfold ExactlyOneOpen
      omega
    have hnd : ((s.graph.curDpstIndex t).map AFTask.nodeId).Nodup := ho.separate.nodup (.inl t)
    rw [hone]
    constructor
    · rintro ⟨s', he, hj⟩
      obtain ⟨a₁, rest₁, ht₁, ⟨hp₁, -⟩ | ⟨-, d, cur, stk, hst₁, rfl⟩⟩ := step_resume he
      · rw [ht] at ht₁
        obtain ⟨rfl, -⟩ := List.cons.inj ht₁
        rw [hp] at hp₁
        cases hp₁
      · rw [ht] at ht₁
        obtain ⟨rfl, rfl⟩ := List.cons.inj ht₁
        -- the node that the wait returns to
        have htop : cur.nodeId = a.node := by
          have hnew : (Function.update s.graph.curDpstIndex t
              ({ cur with childId := s.graph.lastAllocatedNode } :: stk) t).head?.map
                AFTask.nodeId = some a.node := hj.top
          rw [Function.update_self] at hnew
          exact Option.some.inj hnew
        rw [hst₁] at hstk hnd
        obtain ⟨rfl, hl⟩ := List.cons.inj hstk
        cases hf.segment with
        | own hn hs hy =>
          -- the node itself has been dropped, and there is no other with its id
          rw [List.map_cons, List.map_cons, List.nodup_cons, hn, htop] at hnd
          exact absurd (List.mem_cons_self ..) hnd.1
        | @frame f c₂ l₂ n₂ hs hy hseg =>
          obtain ⟨rfl, rfl⟩ := List.cons.inj hl
          cases hseg with
          | own => rfl
          | frame hs' hy' hseg' =>
            -- there is another implicit finish above the node
            obtain ⟨o, ho, hon, -⟩ := hseg'.node_mem
            rw [List.map_cons, List.map_cons, List.nodup_cons, List.nodup_cons, htop, ← hon] at hnd
            exact absurd (List.mem_map_of_mem (List.mem_append_left _ ho)) hnd.2.1
    · rintro rfl
      cases hf.segment with
      | @frame f c₂ l₂ n₂ hs hy hseg =>
        cases hseg with
        | own hn hs' hy' =>
          obtain ⟨s', he⟩ := step_resume_all ht hp hstk
          refine ⟨s', he, ?_⟩
          have ho' := ho.step he
          have hs' := sound_step ho hreach.sound.1 he
          obtain ⟨a₁, rest₁, ht₁, ⟨hp₁, -⟩ | ⟨-, d, cur, stk, hst₁, rfl⟩⟩ := step_resume he
          · rw [ht] at ht₁
            obtain ⟨rfl, -⟩ := List.cons.inj ht₁
            rw [hp] at hp₁
            cases hp₁
          · rw [hstk] at hst₁
            obtain ⟨-, hl⟩ := List.cons.inj hst₁
            obtain ⟨rfl, -⟩ := List.cons.inj hl
            rw [← hn]
            refine joined_of_own (o := { c₂ with childId := s.graph.lastAllocatedNode }) ho' hs'
              (Function.update_self ..) ‹_› fun c hc => ?_
            -- the id of the next STEP is drawn when the wait returns
            have hold : c ∈ s.graph.logged ++ [] := hc
            rw [List.append_nil] at hold
            exact (ho.entry_lt hold).2

/-- `main` spawns and waits. -/
theorem spawnWait_joined : ∃ (s : Sys Unit) (a : Activation Unit),
    (s.threads 0).head? = some a ∧ a.effects = [.spawn] ∧
      ∃ s', s.Step (.resume 0) s' ∧ Joined s' 0 a.node := by
  let es : List (Event Unit) :=
    [.entry 0 (.spawn ⟨64, some ['a'], 7, false⟩ ()) (), .register 0, .entry 0 .waitForAll ()]
  let ok (_ : Sys Unit) : Event Unit → Bool
    | .entry _ _ _ | .register _ => true
    | _ => false
  obtain ⟨s, hs⟩ := Option.isSome_iff_exists.mp
    (show (exec ok (init ()) es).isSome = true by decide)
  have hrun : Run Met (init ()) es s := (run_of_exec hs).mono fun s e hok => by
    cases e with
    | entry => trivial
    | register => trivial
    | _ => cases hok
  have hact : (exec ok (init ()) es).map (fun s => (s.threads 0).map fun a =>
      (a.effects, match a.phase with | .waitingAll => true | _ => false)) =
        some [([.spawn], true)] := by decide
  rw [hs, Option.map_some, Option.some.injEq] at hact
  cases ht : s.threads 0 with
  | nil =>
    rw [ht] at hact
    cases hact
  | cons a rest =>
    rw [ht, List.map_cons, List.cons.injEq, Prod.mk.injEq] at hact
    obtain ⟨⟨heff, hph⟩, -⟩ := hact
    have hp : a.phase = .waitingAll := by
      split at hph
      · assumption
      · cases hph
    exact ⟨s, a, by rw [ht]; rfl, heff,
      (wait_joins_iff hrun ht hp).mpr (by rw [heff]; decide)⟩

/-- `main` spawns around a root task and waits; the tasks run on its thread. -/
def rootInBlock : List (Event Unit) :=
  let site : Site := ⟨64, some ['a'], 7, false⟩
  [.entry 0 (.spawn site ()) (), .register 0, .entry 0 (.spawnRootAndWait site ()) (),
    .register 0, .execute 0 2, .entry 0 .ret (), .leave 0, .resume 0, .entry 0 (.spawn site ()) (),
    .register 0, .entry 0 .waitForAll (), .execute 0 1, .entry 0 .ret (), .leave 0, .execute 0 3,
    .entry 0 .ret (), .leave 0]

/-- Its wait returns to an implicit finish. -/
theorem not_joined : ∃ (s : Sys Unit) (a : Activation Unit), Reachable () s ∧
    (s.threads 0).head? = some a ∧ a.phase = .waitingAll ∧ a.node = 1 ∧
      a.effects = [.spawn, .root, .spawn] ∧ (∃ s', s.Step (.resume 0) s') ∧
        ∀ s', s.Step (.resume 0) s' → ¬Joined s' 0 a.node := by
  obtain ⟨s', hs'⟩ := Option.isSome_iff_exists.mp
    (show (exec (fun _ _ => true) (init ()) (rootInBlock ++ [.resume 0])).isSome = true by decide)
  have htop : (exec (fun _ _ => true) (init ()) (rootInBlock ++ [.resume 0])).map
      (fun s => (s.graph.curDpstIndex 0).head?.map AFTask.nodeId) = some (some 3) := by decide
  rw [hs', Option.map_some, Option.some.injEq] at htop
  obtain ⟨s, hs, he⟩ := exec_append_eq_some hs'
  have he := step_of_exec he
  have hact : (exec (fun _ _ => true) (init ()) rootInBlock).map
      (fun s => (s.threads 0).head?.map fun a =>
        (a.node, a.effects, match a.phase with | .waitingAll => true | _ => false)) =
          some (some (1, [.spawn, .root, .spawn], true)) := by decide
  rw [hs, Option.map_some, Option.some.injEq, Option.map_eq_some_iff] at hact
  obtain ⟨a, ha, hact⟩ := hact
  rw [Prod.mk.injEq, Prod.mk.injEq] at hact
  obtain ⟨hnode, heff, hph⟩ := hact
  have hp : a.phase = .waitingAll := by
    split at hph
    · assumption
    · cases hph
  refine ⟨s, a, (run_of_exec hs).reachable, ha, hp, hnode, heff, ⟨s', he⟩, fun s'' he' hj => ?_⟩
  -- the step is determined by its event
  obtain rfl : s' = s'' := by
    have heq := he.symm.trans he'
    exact Except.ok.inj (Option.some.inj heq)
  have := hj.top
  rw [htop, hnode] at this
  cases this

end Sys

end TaskProf.Collection
