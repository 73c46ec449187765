import TaskProf.Collection.CallSites
import TaskProf.Collection.Traced

/-!
# Runs as lists of operations

What the threads do in a run reaches the task graph as a list of its operations.

* `step_operations`: one event is a list of operations.
* `Run.operations`: so is a run, and the sites of the operations are those of the
  calls of the program.
* `Reachable.typed`, `Reachable.root_logged`: every entry has a type, and the first
  one is the FINISH node 1.
-/

namespace TaskProf.Collection

variable {κ : Type}

/-- The site of a call. -/
def Call.site : Call κ → Option Site
  | .spawn site _ | .spawnRootAndWait site _ | .spawnAndWaitForAll site _ => some site
  | .waitForAll | .ret => none

/-- The calls of an event. -/
def Event.call : Event κ → Option (Call κ)
  | .entry _ call _ => some call
  | _ => none

/-- A plain site whose file name has no comma. -/
structure Site.Simple (site : Site) : Prop extends site.Plain where
  comma : ∀ file, site.file = some file → ',' ∉ file

/-- A call with a simple site, or without a site. -/
def Call.Simple (call : Call κ) : Prop := ∀ site, call.site = some site → site.Simple

/-- A recorded file name has no comma. -/
theorem comma_notMem_firstSite {ops : List GraphOp} {a : SizeT} {d : CallSiteData}
    (hops : ∀ op ∈ ops, ∀ site, op.site = some site → site.Simple)
    (h : GraphOp.firstSite ops a = some d) : ',' ∉ d.csFilename := by
  obtain ⟨op, hop, hsup⟩ := List.exists_of_findSome?_eq_some h
  obtain ⟨site, hs, hd⟩ := Option.bind_eq_some_iff.mp hsup
  unfold Site.supplied at hd
  cases hf : site.file with
  | none =>
    rw [hf] at hd
    cases hd
  | some file =>
    rw [hf] at hd
    dsimp only at hd
    split_ifs at hd
    rw [← Option.some.inj hd]
    exact (hops op hop site hs).comma file hf

namespace Sys

/-- The operation of `CaptureSetTaskId`. -/
def captureOperation (t : ThreadId) (taskId : ℕ) : Call κ → List GraphOp
  | .spawn site _ => [.setTaskId t taskId true (spawnSite site)]
  | .spawnRootAndWait site _ => [.setTaskId t taskId false site]
  | .spawnAndWaitForAll site _ => [.setTaskIdWait t taskId { site with parFor := false }]
  | .waitForAll | .ret => []

/-- The operations of an activation of thread `t` that registers a task or returns
    from a wait. -/
def phaseOperations (s : Sys κ) (t : ThreadId) : Phase κ → List GraphOp
  | .called call => captureOperation t (s.taskIdCtr + 1) call
  | .waitingRoot => [.wait t]
  | .waitingAll => [.waitOnly t]
  | .running | .leaving => []

/-- The same of the innermost activation. -/
def topOperations (s : Sys κ) (t : ThreadId) : List GraphOp :=
  match s.threads t with
  | [] => []
  | a :: _ => s.phaseOperations t a.phase

/-- The operations of an event. -/
def operations (s : Sys κ) : Event κ → List GraphOp
  | .work _ _ _ => []
  | .entry t _ _ => [.step t (s.counter t)]
  | .register t | .resume t => s.topOperations t
  | .execute t taskId => [.execute t taskId]
  | .leave t => [.ret t]
  | .fini => [.step 0 (s.counter 0)]

variable {s s' : Sys κ} {t : ThreadId} {main : κ}

theorem foldlM_singleton {G : AFTaskGraph} (op : GraphOp) :
    [op].foldlM GraphOp.apply G = op.apply G := by
  rw [List.foldlM_cons]
  exact bind_pure _

theorem topOperations_eq {a : Activation κ} {rest : List (Activation κ)}
    (ht : s.threads t = a :: rest) : s.topOperations t = s.phaseOperations t a.phase := by
  rw [topOperations, ht]

theorem capture_eq_operation {G : AFTaskGraph} (taskId : ℕ) (call : Call κ) :
    capture G t taskId call = (captureOperation t taskId call).foldlM GraphOp.apply G := by
  cases call with
  | spawn | spawnRootAndWait | spawnAndWaitForAll =>
    rw [captureOperation, foldlM_singleton]
    rfl
  | waitForAll | ret => rfl

/-- An event does its operations. -/
theorem step_operations {e : Event κ} (h : s.Step e s') :
    (s.operations e).foldlM GraphOp.apply s.graph = .ok s'.graph := by
  cases e with
  | work t w code =>
    obtain ⟨a, rest, -, -, rfl⟩ := step_work h
    rfl
  | entry t call code =>
    obtain ⟨a, rest, curNode, stk, -, -, -, hs, rfl⟩ := step_entry h
    rw [operations, foldlM_singleton]
    exact AFTaskGraph.logStep_eq hs _
  | register t =>
    obtain ⟨a, rest, ht, hf⟩ := onTop_eq_some.mp h
    rw [operations, topOperations_eq ht]
    cases hp : a.phase with
    | called call =>
      simp only [hp] at hf
      cases hr : registered call with
      | none => simp [hr] at hf
      | some r =>
        simp only [hr, Option.some.injEq] at hf
        obtain ⟨G, hG, hf⟩ := bind_eq_ok.mp hf
        rw [phaseOperations, ← capture_eq_operation, hG, ← Except.ok.inj hf]
        rfl
    | _ => simp [hp] at hf
  | execute t taskId =>
    obtain ⟨body, node, -, -, hn, rfl⟩ := step_execute h
    rw [operations, foldlM_singleton]
    exact AFTaskGraph.captureExecute_eq hn
  | resume t =>
    obtain ⟨a, rest, ht, hf⟩ := onTop_eq_some.mp h
    rw [operations, topOperations_eq ht]
    cases hp : a.phase with
    | waitingRoot | waitingAll =>
      simp only [hp, Option.some.injEq] at hf
      obtain ⟨G, hG, hf⟩ := bind_eq_ok.mp hf
      rw [phaseOperations, foldlM_singleton, ← Except.ok.inj hf]
      exact hG
    | _ => simp [hp] at hf
  | leave t =>
    obtain ⟨a, rest, ht, hf⟩ := onTop_eq_some.mp h
    rw [operations, foldlM_singleton]
    cases hp : a.phase with
    | leaving =>
      simp only [hp, Option.some.injEq] at hf
      obtain ⟨G, hG, hf⟩ := bind_eq_ok.mp hf
      rw [← Except.ok.inj hf]
      exact hG
    | _ => simp [hp] at hf
  | fini =>
    obtain ⟨a, curNode, stk, -, -, -, hs, rfl⟩ := step_fini h
    rw [operations, foldlM_singleton]
    exact AFTaskGraph.logStep_eq hs _

/-! ## The sites of a run -/

/-- Every call in progress is one of the program. -/
def CallsOf (P : Call κ → Prop) (s : Sys κ) : Prop :=
  ∀ t, ∀ a ∈ s.threads t, ∀ call, a.phase = .called call → P call

theorem CallsOf.setThread {P : Call κ → Prop} (h : s.CallsOf P) {l : List (Activation κ)}
    (hl : ∀ a ∈ l, ∀ call, a.phase = .called call → P call) : (s.setThread t l).CallsOf P := by
  intro u a ha call hp
  have ha : a ∈ Function.update s.threads t l u := ha
  by_cases hu : u = t
  · rw [hu, Function.update_self] at ha
    exact hl a ha call hp
  · rw [Function.update_of_ne hu] at ha
    exact h u a ha call hp

/-- Only `entry` starts a call. -/
theorem CallsOf.step {P : Call κ → Prop} (h : s.CallsOf P) {e : Event κ}
    (hP : ∀ call, e.call = some call → P call) (he : s.Step e s') : s'.CallsOf P := by
  have hrest : ∀ {t a rest} (b : Activation κ), s.threads t = a :: rest →
      (∀ call, b.phase = .called call → P call) →
      ∀ c ∈ b :: rest, ∀ call, c.phase = .called call → P call := by
    intro t a rest b ht hb c hc
    rcases List.mem_cons.mp hc with rfl | hc
    · exact hb
    · apply h t c
      rw [ht]
      exact List.mem_cons_of_mem a hc
  cases e with
  | work t w code =>
    obtain ⟨a, rest, ht, hp, rfl⟩ := step_work he
    apply h.setThread (hrest _ ht _)
    intro call hc
    rw [show a.phase = .called call from hc] at hp
    cases hp
  | entry t call code =>
    obtain ⟨a, rest, curNode, stk, ht, -, -, -, rfl⟩ := step_entry he
    refine CallsOf.setThread (s := s.setGraph _) h (hrest _ ht fun call' hc => ?_)
    apply hP
    cases call with
    | spawn | spawnRootAndWait | spawnAndWaitForAll =>
      exact congrArg some (Phase.called.inj hc)
    | waitForAll | ret => cases hc
  | register t =>
    obtain ⟨a, rest, ht, hf⟩ := onTop_eq_some.mp he
    cases hp : a.phase with
    | called call =>
      simp only [hp] at hf
      cases call with
      | waitForAll | ret => simp [registered] at hf
      | spawn | spawnRootAndWait | spawnAndWaitForAll =>
        simp only [registered, Option.some.injEq] at hf
        obtain ⟨G, -, hf⟩ := bind_eq_ok.mp hf
        rw [← Except.ok.inj hf]
        refine CallsOf.setThread (s := (s.setGraph G).addBody _ _) h (hrest _ ht fun call' hc => ?_)
        cases hc
    | _ => simp [hp] at hf
  | execute t taskId =>
    obtain ⟨body, node, -, -, -, rfl⟩ := step_execute he
    refine CallsOf.setThread (s := (s.setGraph _).takeBody _) h fun c hc call hcall => ?_
    rcases List.mem_cons.mp hc with rfl | hc
    · cases hcall
    · exact h t c hc call hcall
  | resume t =>
    obtain ⟨a, rest, ht, ⟨-, curNode, stk, -, rfl⟩ | ⟨-, node, curNode, stk, -, rfl⟩⟩ :=
      step_resume he
    all_goals
      refine CallsOf.setThread (s := s.setGraph _) h (hrest _ ht fun call hc => ?_)
      cases hc
  | leave t =>
    obtain ⟨a, rest, curNode, stk, ht, -, -, ⟨-, rfl⟩ | ⟨-, node, stk', -, rfl⟩⟩ := step_leave he
    all_goals
      refine CallsOf.setThread (s := s.setGraph _) h fun c hc => ?_
      apply h t c
      rw [ht]
      exact List.mem_cons_of_mem a hc
  | fini =>
    obtain ⟨a, curNode, stk, -, -, -, -, rfl⟩ := step_fini he
    intro u c hc
    have hc : c ∈ Function.update s.threads 0 [] u := hc
    by_cases hu : u = 0
    · rw [hu, Function.update_self] at hc
      cases hc
    · rw [Function.update_of_ne hu] at hc
      exact h u c hc

theorem spawnSite_simple {site : Site} (h : site.Simple) : (spawnSite site).Simple := by
  unfold spawnSite
  split_ifs
  · exact { line := by norm_num
            file := by simp
            comma := by simp }
  · exact { line := h.line
            file := h.file
            comma := h.comma }

/-- The operations of an event have simple sites. -/
theorem operations_simple (h : s.CallsOf Call.Simple) (e : Event κ) :
    ∀ op ∈ s.operations e, ∀ site, op.site = some site → site.Simple := by
  intro op hop site hsite
  have hphase : ∀ {t a rest}, s.threads t = a :: rest → op ∈ s.phaseOperations t a.phase →
      site.Simple := by
    intro t a rest ht hop
    have ha := h t a (by rw [ht]; exact List.mem_cons_self)
    cases hp : a.phase with
    | called call =>
      have hcall := ha call hp
      rw [hp] at hop
      cases call with
      | spawn site' body =>
        rw [List.mem_singleton.mp hop] at hsite
        rw [← Option.some.inj hsite]
        exact spawnSite_simple (hcall site' rfl)
      | spawnRootAndWait site' body =>
        rw [List.mem_singleton.mp hop] at hsite
        rw [← Option.some.inj hsite]
        exact hcall site' rfl
      | spawnAndWaitForAll site' body =>
        rw [List.mem_singleton.mp hop] at hsite
        rw [← Option.some.inj hsite]
        have hs := hcall site' rfl
        exact { line := hs.line
                file := hs.file
                comma := hs.comma }
      | waitForAll | ret => cases hop
    | waitingRoot | waitingAll =>
      rw [hp] at hop
      rw [List.mem_singleton.mp hop] at hsite
      cases hsite
    | running | leaving =>
      rw [hp] at hop
      cases hop
  cases e with
  | work => cases hop
  | entry | execute | leave | fini =>
    rw [List.mem_singleton.mp hop] at hsite
    cases hsite
  | register t | resume t =>
    cases ht : s.threads t with
    | nil =>
      rw [operations, topOperations, ht] at hop
      cases hop
    | cons a rest =>
      rw [operations, topOperations_eq ht] at hop
      exact hphase ht hop

/-- Every call of the program has a simple site. -/
def simpleCalls (_ : Sys κ) (e : Event κ) : Prop := ∀ call, e.call = some call → call.Simple

/-- The operations of a run. -/
theorem Run.operations {es : List (Event κ)} (h : Run simpleCalls (init main) es s) :
    ∃ ops, GraphOp.run ops = .ok s.graph ∧
      ∀ op ∈ ops, ∀ site, op.site = some site → site.Simple := by
  have hinv := h.preserves (P := fun s => s.CallsOf Call.Simple ∧
    ∃ ops, GraphOp.run ops = .ok s.graph ∧
      ∀ op ∈ ops, ∀ site, op.site = some site → site.Simple) ?_ ?_
  · exact hinv.2
  · refine ⟨fun t a ha call hc => ?_, [], rfl, by simp⟩
    have ha : a ∈ if t = 0 then [(⟨true, 1, main, .running, []⟩ : Activation κ)] else [] := ha
    split_ifs at ha
    · rw [List.mem_singleton.mp ha] at hc
      cases hc
    · cases ha
  · rintro s e s' ⟨hcalls, ops, hrun, hops⟩ hok he
    refine ⟨hcalls.step hok he, ops ++ s.operations e, ?_, ?_⟩
    · unfold GraphOp.run at hrun ⊢
      rw [List.foldlM_append, hrun]
      exact step_operations he
    · intro op hop
      rcases List.mem_append.mp hop with hop | hop
      · exact hops op hop
      · exact operations_simple hcalls e op hop

/-! ## The entries of a run -/

/-- Every entry has a type. -/
theorem Reachable.typed (h : Reachable main s) : ∀ d ∈ s.graph.logged, d.nodeType ≠ .noType := by
  obtain ⟨es, hr⟩ := h
  have hinv := hr.preserves
    (P := fun s => s.Orderly ∧ ∀ d ∈ s.graph.logged, d.nodeType ≠ .noType) ?_ ?_
  · exact hinv.2
  · refine ⟨orderly_init main, fun d hd => ?_⟩
    rw [List.mem_singleton.mp hd]
    simp
  · rintro s e s' ⟨ho, htyped⟩ - he
    obtain ⟨es, hlog, hes, -⟩ := step_logged ho he
    refine ⟨ho.step he, fun d hd => ?_⟩
    rw [hlog] at hd
    exact (List.mem_append.mp hd).elim (htyped d) fun hd => (hes d hd).2

/-- The entry of the head. -/
theorem Reachable.root_logged (h : Reachable main s) : ⟨0, 1, 0, 0, .finish, 0⟩ ∈ s.graph.logged := by
  obtain ⟨es, hr⟩ := h
  have hinv := hr.preserves
    (P := fun s => s.Orderly ∧ ⟨0, 1, 0, 0, .finish, 0⟩ ∈ s.graph.logged) ?_ ?_
  · exact hinv.2
  · exact ⟨orderly_init main, List.mem_singleton_self _⟩
  · rintro s e s' ⟨ho, hroot⟩ - he
    obtain ⟨es, hlog, -⟩ := step_logged ho he
    refine ⟨ho.step he, ?_⟩
    rw [hlog]
    exact List.mem_append_left _ hroot

end Sys

/-! ## The sites of the entries -/

section StepSites

variable {G G' : AFTaskGraph} {ops : List GraphOp} {op : GraphOp}

/-- A spawn logs no STEP. -/
theorem spawn_logged {t : ThreadId} {taskId : ℕ} {a : SizeT}
    (h : G.captureSpawnOnly t taskId a = .ok G' ∨ G.captureSpawnAndWait t taskId a = .ok G' ∨
      G.captureSpawnAndWaitForAll t taskId a = .ok G') :
    ∃ es, G'.logged = G.logged ++ es ∧ ∀ e ∈ es, e.nodeType ≠ .step := by
  rcases hs : G.curDpstIndex t with _ | ⟨curNode, rest⟩
  · simp [AFTaskGraph.captureSpawnOnly, AFTaskGraph.captureSpawnAndWait,
      AFTaskGraph.captureSpawnAndWaitForAll, AFTaskGraph.newAsync, hs, bind, Except.bind] at h
  · rw [AFTaskGraph.captureSpawnAndWait_eq hs] at h
    by_cases hy : curNode.youngNsChild = .async
    · rw [AFTaskGraph.captureSpawnOnly_async hs _ _ hy,
        AFTaskGraph.captureSpawnAndWaitForAll_async hs _ _ hy] at h
      rcases h with h | h | h <;>
      · rw [← Except.ok.inj h]
        exact ⟨_, rfl, by simp⟩
    · rw [AFTaskGraph.captureSpawnOnly_other hs _ _ hy,
        AFTaskGraph.captureSpawnAndWaitForAll_other hs _ _ hy] at h
      rcases h with h | h | h <;>
      · rw [← Except.ok.inj h]
        exact ⟨_, rfl, by simp⟩

/-- A STEP is logged without an address. -/
theorem apply_stepSite (h : op.apply G = .ok G') :
    ∃ es, G'.logged = G.logged ++ es ∧ ∀ e ∈ es, e.nodeType = .step → e.retAddr = 0 := by
  cases hop : op.site with
  | none =>
    obtain ⟨-, es, hlog, hes⟩ := other_eq_ok hop h
    exact ⟨es, hlog, fun e he _ => hes e he⟩
  | some site =>
    have hspawn : ∃ es, G'.logged = (G.recordSite site).logged ++ es ∧
        ∀ e ∈ es, e.nodeType ≠ .step := by
      cases op with
      | setTaskId t taskId spOnly site =>
        obtain rfl := Option.some.inj hop
        unfold GraphOp.apply AFTaskGraph.captureSetTaskId at h
        dsimp only at h
        split_ifs at h
        · exact spawn_logged (.inl h)
        · exact spawn_logged (.inr (.inl h))
      | setTaskIdWait t taskId site =>
        obtain rfl := Option.some.inj hop
        exact spawn_logged (.inr (.inr h))
      | execute | wait | waitOnly | ret | step => cases hop
    rw [AFTaskGraph.recordSite_logged] at hspawn
    obtain ⟨es, hlog, hes⟩ := hspawn
    exact ⟨es, hlog, fun e he ht => absurd ht (hes e he)⟩

theorem run_stepSite (h : GraphOp.run ops = .ok G) :
    ∀ e ∈ G.logged, e.nodeType = .step → e.retAddr = 0 := by
  refine foldlM_keeps (fun G => ∀ e ∈ G.logged, e.nodeType = .step → e.retAddr = 0)
    (fun G op G' hG happ e he => ?_) (fun e he _ => ?_) h
  · obtain ⟨es, hlog, hes⟩ := apply_stepSite happ
    rw [hlog] at he
    exact (List.mem_append.mp he).elim (hG e) (hes e)
  · rw [List.mem_singleton.mp he]

end StepSites

end TaskProf.Collection
