import TaskProf.Collection.ForkJoin
import TaskProf.Collection.Operations

/-!
# What a text says

The cost of a fork-join program and its call sites, read off the text.

* `Body.cycles`: the cycles of all tasks.
* `Body.time`: the time of a task when every task that it spawns has a processor.
* `Body.AllSites`: the sites of the calls.
* `Run.simpleCalls`: a run that follows a text has the sites of the text.
-/

namespace TaskProf.Collection

/-! ## Cost -/

/-- The cycles that the code and the tasks that it spawns will work. -/
def Body.cycles : (o : Bool) → Body o → ℕ
  | _, .ret => 0
  | o, .work v c => v.toNat + c.cycles o
  | _, .root _ b c => b.cycles false + c.cycles false
  | _, .spawn _ b c => b.cycles false + c.cycles true
  | _, .wait c => c.cycles false
  | _, .spawnWait _ b c => b.cycles false + c.cycles false

/-- The time at which a task ends, when every task runs as soon as it is spawned: the
    code that is left begins at the time `clock`, and the tasks of the block that it is
    in end at the time `pending`. `spawn_root_and_wait` waits for its own task, and the
    other waits for all tasks of the block. A task ends after those that it has spawned. -/
def Body.time : (o : Bool) → Body o → ℕ → ℕ → ℕ
  | _, .ret, clock, pending => max clock pending
  | o, .work v c, clock, pending => c.time o (clock + v.toNat) pending
  | _, .root _ b c, clock, pending => c.time false (clock + b.time false 0 0) pending
  | _, .spawn _ b c, clock, pending => c.time true clock (max pending (clock + b.time false 0 0))
  | _, .wait c, clock, pending => c.time false (max clock pending) 0
  | _, .spawnWait _ b c, clock, pending =>
    c.time false (max clock (max pending (clock + b.time false 0 0))) 0

/-! ## Sites -/

/-- Every call of the text has a site with the property `P`. -/
def Body.AllSites (P : Site → Prop) : (o : Bool) → Body o → Prop
  | _, .ret => True
  | o, .work _ c => c.AllSites P o
  | _, .root site b c => P site ∧ b.AllSites P false ∧ c.AllSites P false
  | _, .spawn site b c => P site ∧ b.AllSites P false ∧ c.AllSites P true
  | _, .wait c => c.AllSites P false
  | _, .spawnWait site b c => P site ∧ b.AllSites P false ∧ c.AllSites P false

def Code.AllSites (P : Site → Prop) (c : Code) : Prop := c.body.AllSites P c.inBlock

/-- The body of the task that a call spawns. -/
def Call.body {κ : Type} : Call κ → Option κ
  | .spawn _ body | .spawnRootAndWait _ body | .spawnAndWaitForAll _ body => some body
  | .waitForAll | .ret => none

/-- The code that is left after an event. -/
def Event.code {κ : Type} : Event κ → Option κ
  | .work _ _ code | .entry _ _ code => some code
  | _ => none

/-- The next event has the sites of the text. -/
theorem nextEvent_sites {P : Site → Prop} {c : Code} (h : c.AllSites P) (t : ThreadId) :
    (∀ code, (nextEvent t c).code = some code → code.AllSites P) ∧
      ∀ call, (nextEvent t c).call = some call →
        (∀ site, call.site = some site → P site) ∧ ∀ b, call.body = some b → b.AllSites P := by
  obtain ⟨o, c⟩ := c
  cases c with
  | ret =>
    refine ⟨fun code hc => ?_, fun call hc => ?_⟩
    · obtain rfl := Option.some.inj hc
      trivial
    · obtain rfl := Option.some.inj hc
      exact ⟨fun _ hs => (nomatch hs), fun _ hb => (nomatch hb)⟩
  | work v c =>
    refine ⟨fun code hc => ?_, fun call hc => nomatch hc⟩
    obtain rfl := Option.some.inj hc
    exact h
  | wait c =>
    refine ⟨fun code hc => ?_, fun call hc => ?_⟩
    · obtain rfl := Option.some.inj hc
      exact h
    · obtain rfl := Option.some.inj hc
      exact ⟨fun _ hs => (nomatch hs), fun _ hb => (nomatch hb)⟩
  | root site b c | spawn site b c | spawnWait site b c =>
    obtain ⟨hsite, hb, hc⟩ := h
    refine ⟨fun code hcode => ?_, fun call hcall => ?_⟩
    · obtain rfl := Option.some.inj hcode
      exact hc
    · obtain rfl := Option.some.inj hcall
      refine ⟨fun s hs => ?_, fun d hd => ?_⟩
      · obtain rfl := Option.some.inj hs
        exact hsite
      · obtain rfl := Option.some.inj hd
        exact hb

namespace Sys

section Left

variable {κ : Type} {s s' : Sys κ} {P : κ → Prop} {t : ThreadId}

/-- The code that is left has the property `P`. -/
structure Left (P : κ → Prop) (s : Sys κ) : Prop where
  code : ∀ t, ∀ a ∈ s.threads t, P a.code
  calls : s.CallsOf fun call => ∀ b, call.body = some b → P b
  bodies : ∀ k b, s.bodies k = some b → P b

theorem Left.setThread (h : s.Left P) {l : List (Activation κ)} (hl : ∀ a ∈ l, P a.code)
    (u : ThreadId) : ∀ a ∈ (s.setThread t l).threads u, P a.code := by
  intro a ha
  have ha : a ∈ Function.update s.threads t l u := ha
  by_cases hu : u = t
  · rw [hu, Function.update_self] at ha
    exact hl a ha
  · rw [Function.update_of_ne hu] at ha
    exact h.code u a ha

theorem Left.step {e : Event κ} (h : s.Left P) (hcode : ∀ code, e.code = some code → P code)
    (hcall : ∀ call, e.call = some call → ∀ b, call.body = some b → P b) (he : s.Step e s') :
    s'.Left P := by
  have hcalls : s'.CallsOf fun call => ∀ b, call.body = some b → P b := h.calls.step hcall he
  -- the innermost activation changes
  have htop : ∀ {u a rest} (b : Activation κ), s.threads u = a :: rest → P b.code →
      ∀ c ∈ b :: rest, P c.code := by
    intro u a rest b ht hb c hc
    rcases List.mem_cons.mp hc with rfl | hc
    · exact hb
    · apply h.code u c
      rw [ht]
      exact List.mem_cons_of_mem a hc
  have hold : ∀ {u a rest}, s.threads u = a :: rest → P a.code := by
    intro u a rest ht
    apply h.code u a
    rw [ht]
    exact List.mem_cons_self
  cases e with
  | work u w code =>
    obtain ⟨a, rest, ht, -, rfl⟩ := step_work he
    exact ⟨h.setThread (htop _ ht (hcode _ rfl)), hcalls, h.bodies⟩
  | entry u call code =>
    obtain ⟨a, rest, curNode, stk, ht, -, -, -, rfl⟩ := step_entry he
    exact ⟨h.setThread (htop _ ht (hcode _ rfl)), hcalls, h.bodies⟩
  | register u =>
    obtain ⟨a, rest, ht, hf⟩ := onTop_eq_some.mp he
    cases hp : a.phase with
    | called call =>
      simp only [hp] at hf
      have ha : a ∈ s.threads u := by
        rw [ht]
        exact List.mem_cons_self
      have hbody := h.calls u a ha call hp
      cases call with
      | waitForAll | ret => simp [registered] at hf
      | spawn site b | spawnRootAndWait site b | spawnAndWaitForAll site b =>
        simp only [registered, Option.some.injEq] at hf
        obtain ⟨G, -, hf⟩ := bind_eq_ok.mp hf
        obtain rfl := Except.ok.inj hf
        have hcode := hold ht
        refine ⟨h.setThread (htop _ ht hcode), hcalls, fun k c hk => ?_⟩
        have hk : Function.update s.bodies (s.taskIdCtr + 1) (some b) k = some c := hk
        by_cases hkn : k = s.taskIdCtr + 1
        · rw [hkn, Function.update_self] at hk
          obtain rfl := Option.some.inj hk
          exact hbody b rfl
        · rw [Function.update_of_ne hkn] at hk
          exact h.bodies k c hk
    | _ => simp [hp] at hf
  | execute u k =>
    obtain ⟨body, node, -, hb, -, rfl⟩ := step_execute he
    refine ⟨h.setThread fun c hc => ?_, hcalls, fun j c hj => ?_⟩
    · rcases List.mem_cons.mp hc with rfl | hc
      · exact h.bodies k body hb
      · exact h.code u c hc
    · have hj : Function.update s.bodies k none j = some c := hj
      by_cases hjk : j = k
      · rw [hjk, Function.update_self] at hj
        cases hj
      · rw [Function.update_of_ne hjk] at hj
        exact h.bodies j c hj
  | resume u =>
    obtain ⟨a, rest, ht, ⟨-, curNode, stk, -, rfl⟩ | ⟨-, node, curNode, stk, -, rfl⟩⟩ :=
      step_resume he
    all_goals
      have hcode := hold ht
      exact ⟨h.setThread (htop _ ht hcode), hcalls, h.bodies⟩
  | leave u =>
    obtain ⟨a, rest, curNode, stk, ht, -, -, ⟨-, rfl⟩ | ⟨-, node, stk', -, rfl⟩⟩ := step_leave he
    all_goals
      refine ⟨h.setThread fun c hc => ?_, hcalls, h.bodies⟩
      apply h.code u c
      rw [ht]
      exact List.mem_cons_of_mem a hc
  | fini =>
    obtain ⟨a, curNode, stk, -, -, -, -, rfl⟩ := step_fini he
    exact ⟨h.setThread fun c hc => absurd hc List.not_mem_nil, hcalls, h.bodies⟩

end Left

variable {s : Sys Code} {main : Body false} {es : List (Event Code)} {P : Site → Prop}

/-- An event that follows the text takes its code and its call from the text. -/
theorem follows_sites {e : Event Code} {s' : Sys Code} (hf : Follows s e) (he : s.Step e s')
    (h : s.Left (Code.AllSites P)) : (∀ code, e.code = some code → code.AllSites P) ∧
      ∀ call, e.call = some call →
        (∀ site, call.site = some site → P site) ∧ ∀ b, call.body = some b → b.AllSites P := by
  have hnext : ∀ {t a rest}, s.threads t = a :: rest → e = nextEvent t a.code →
      (∀ code, e.code = some code → code.AllSites P) ∧
        ∀ call, e.call = some call →
          (∀ site, call.site = some site → P site) ∧ ∀ b, call.body = some b → b.AllSites P := by
    intro t a rest ht hn
    rw [hn]
    apply nextEvent_sites
    apply h.code t a
    rw [ht]
    exact List.mem_cons_self
  cases e with
  | work t w code =>
    obtain ⟨a, rest, ht, -, -⟩ := step_work he
    exact hnext ht (hf a rest ht)
  | entry t call code =>
    obtain ⟨a, rest, curNode, stk, ht, -, -, -, -⟩ := step_entry he
    exact hnext ht (hf a rest ht)
  | _ => exact ⟨fun _ hc => (nomatch hc), fun _ hc => (nomatch hc)⟩

theorem left_init (hmain : main.AllSites P false) :
    (init (⟨false, main⟩ : Code)).Left (Code.AllSites P) where
  code t a ha := by
    have ha : a ∈ if t = 0 then [(⟨true, 1, ⟨false, main⟩, .running, []⟩ : Activation Code)]
      else [] := ha
    split_ifs at ha
    · rw [List.mem_singleton.mp ha]
      exact hmain
    · cases ha
  calls t a ha call hc := by
    have ha : a ∈ if t = 0 then [(⟨true, 1, ⟨false, main⟩, .running, []⟩ : Activation Code)]
      else [] := ha
    split_ifs at ha
    · rw [List.mem_singleton.mp ha] at hc
      cases hc
    · cases ha
  bodies k b hb := nomatch hb

/-- A run that follows a text whose sites are simple has simple calls. -/
theorem Run.simpleCalls (h : Run Follows (init ⟨false, main⟩) es s)
    (hmain : main.AllSites Site.Simple false) :
    Run Sys.simpleCalls (init ⟨false, main⟩) es s := by
  have hall : s.Left (Code.AllSites Site.Simple) ∧
      Run Sys.simpleCalls (init ⟨false, main⟩) es s := by
    induction h with
    | nil => exact ⟨left_init hmain, .nil⟩
    | snoc _ hf he ih =>
      obtain ⟨hleft, hrun⟩ := ih
      obtain ⟨hcode, hcall⟩ := follows_sites hf he hleft
      exact ⟨hleft.step hcode (fun call hc => (hcall call hc).2) he,
        hrun.snoc (fun call hc => (hcall call hc).1) he⟩
  exact hall.2

end Sys

end TaskProf.Collection
