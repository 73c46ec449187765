import TaskProf.Collection.Amounts

/-!
# The lines of a thread

The lines of one thread, in its file and in its row, are those of its calls of
`log`, whatever becomes of their amounts; only a STEP has regions.

* `Recorded`: what holds of the lines of a thread after its callbacks.
* `capture_recorded`: it holds after any callbacks that are issued in the right
  order.
* `Recorded.fini`: what `Fini` leaves in the files then.
-/

namespace TaskProf.Collection

/-- The part of a line that is not an amount. -/
structure LineLabel where
  nodeId : SizeT
  parent : SizeT
  nodeType : NodeType
  retAddr : SizeT

def LogArgs.label (a : LogArgs) : LineLabel := ⟨a.nodeId, a.parent, a.nodeType, a.retAddr⟩

def StepWorkData.label (e : StepWorkData) : LineLabel :=
  ⟨e.nodeId, e.stepParent, e.nodeType, e.retAddr⟩

/-- The calls of `log` among the callbacks. -/
def logged : List Callback → List LogArgs
  | [] => []
  | .log a :: cs => a :: logged cs
  | .beginOptimize _ _ _ :: cs => logged cs
  | .endOptimize _ _ _ _ :: cs => logged cs

theorem logged_append (cs cs' : List Callback) : logged (cs ++ cs') = logged cs ++ logged cs' := by
  induction cs with
  | nil => rfl
  | cons c cs ih =>
    cases c with
    | log a => exact congrArg (a :: ·) ih
    | beginOptimize => exact ih
    | endOptimize => exact ih

namespace StepWorkData

/-- A map of regions is not empty. -/
def Filled (e : StepWorkData) : Prop := ∀ m, e.regionWork = some m → m.entries ≠ []

theorem Filled.of_none {e : StepWorkData} (h : e.regionWork = none) : e.Filled := by
  intro m hm
  rw [h] at hm
  cases hm

theorem filled_addRegion (e : StepWorkData) (returnAddress work : SizeT) :
    (e.addRegion returnAddress work).Filled := by
  intro m hm
  obtain rfl := Option.some.inj hm
  have hmem : returnAddress ∈
      ((e.regionWork.getD .empty).add returnAddress work).entries.map Prod.fst :=
    (AccMap.mem_keys_bump returnAddress returnAddress work _).mpr (.inl rfl)
  intro hnil
  rw [hnil] at hmem
  cases hmem

end StepWorkData

namespace TaskLogger

/-- The lines of a thread so far, in its file and in its row. -/
def written (L : TaskLogger) (t : ThreadId) : List StepWorkData :=
  L.report t ++ L.row t (L.lastAllocated t)

/-- The pending entry of a thread. -/
def pending (L : TaskLogger) (t : ThreadId) : StepWorkData := L.entry t (L.lastAllocated t)

/-- Thread `t` has made the calls `as` of `log`, and no other thread any; only a
    STEP has regions, and the maps of regions are not empty. -/
structure Recorded (L : TaskLogger) (t : ThreadId) (as : List LogArgs) : Prop where
  labels : (L.written t).map StepWorkData.label = as.map LogArgs.label
  steps : ∀ e ∈ L.written t, e.regionWork ≠ none → e.nodeType = .step
  others : ∀ u ≠ t, L.report u = [] ∧ L.lastAllocated u = 0
  filled : ∀ k, (L.stepWorkList k).Filled
  filledLines : ∀ e ∈ L.report t, e.Filled

section Steps

variable {L L' : TaskLogger} {t : ThreadId} {as : List LogArgs}

theorem Recorded.filledWritten (h : Recorded L t as) : ∀ e ∈ L.written t, e.Filled := by
  intro e he
  rcases List.mem_append.mp he with he | he
  · exact h.filledLines e he
  · obtain ⟨i, -, rfl⟩ := mem_row.mp he
    exact h.filled _

theorem recorded_init (t : ThreadId) : Recorded init t [] where
  labels := rfl
  steps _ he := absurd he List.not_mem_nil
  others _ _ := ⟨rfl, rfl⟩
  filled _ := .of_none rfl
  filledLines _ he := absurd he List.not_mem_nil

/-- A flush moves the lines of the row to the file. -/
theorem Recorded.flush (h : Recorded L t as) (hrun : L.flush t = .ok L') :
    Recorded L' t as ∧ ((L'.pending t).regionWork ≠ none → (L.pending t).regionWork ≠ none) := by
  rcases flush_eq_ok.mp hrun with ⟨-, rfl⟩ | ⟨hfull, -, rfl⟩
  · exact ⟨h, id⟩
  · have hwritten : (L.printed t).written t = L.written t := by
      unfold written
      rw [hfull]
      show Function.update L.report t (L.report t ++ L.row t numEntries) t ++
        row _ t (Function.update L.lastAllocated t 0 t) = _
      rw [Function.update_self, Function.update_self]
      exact List.append_nil _
    have hpending : (L.printed t).pending t = (L.entry t 0).clear := by
      unfold pending
      rw [show (L.printed t).lastAllocated t = 0 from setLast_lastAllocated_self 0]
      exact put_entry_self _
    refine ⟨⟨by rw [hwritten]; exact h.labels, by rw [hwritten]; exact h.steps, ?_, ?_, ?_⟩, ?_⟩
    · intro u hu
      obtain ⟨h1, h2⟩ := h.others u hu
      exact ⟨(Function.update_of_ne hu ..).trans h1, (Function.update_of_ne hu ..).trans h2⟩
    · intro k
      show (Function.update L.stepWorkList (slot t 0) (L.entry t 0).clear k).Filled
      by_cases hk : k = slot t 0
      · rw [hk, Function.update_self]
        exact .of_none rfl
      · rw [Function.update_of_ne hk]
        exact h.filled k
    · intro e he
      have he : e ∈ Function.update L.report t (L.report t ++ L.row t numEntries) t := he
      rw [Function.update_self, ← hfull] at he
      exact h.filledWritten e he
    · intro hne
      rw [hpending] at hne
      exact absurd rfl hne

/-- Another pending entry. -/
theorem Recorded.put (h : Recorded L t as) {e : StepWorkData} (he : e.Filled) :
    Recorded (L.put t (L.lastAllocated t) e) t as := by
  have hwritten : (L.put t (L.lastAllocated t) e).written t = L.written t := by
    unfold written
    rw [put_report, put_lastAllocated, row_congr]
    intro i hi
    apply put_entry_of_ne
    unfold slot
    omega
  refine ⟨by rw [hwritten]; exact h.labels, by rw [hwritten]; exact h.steps, h.others, fun k => ?_,
    h.filledLines⟩
  show (Function.update L.stepWorkList (slot t (L.lastAllocated t)) e k).Filled
  by_cases hk : k = slot t (L.lastAllocated t)
  · rw [hk, Function.update_self]
    exact he
  · rw [Function.update_of_ne hk]
    exact h.filled k

/-- The pending entry becomes a line, and the next one is cleared. -/
theorem Recorded.advance (h : Recorded L t as) {a : LogArgs}
    (hlabel : (L.pending t).label = a.label)
    (hstep : (L.pending t).regionWork ≠ none → a.nodeType = .step) :
    Recorded ((L.setLast t (L.lastAllocated t + 1)).put t (L.lastAllocated t + 1)
      (L.entry t (L.lastAllocated t + 1)).clear) t (as ++ [a]) := by
  have hwritten : ((L.setLast t (L.lastAllocated t + 1)).put t (L.lastAllocated t + 1)
      (L.entry t (L.lastAllocated t + 1)).clear).written t = L.written t ++ [L.pending t] := by
    unfold written pending
    rw [put_report, setLast_report, put_lastAllocated, setLast_lastAllocated_self, row_succ,
      List.append_assoc]
    have hrow : ∀ i < L.lastAllocated t + 1, ((L.setLast t (L.lastAllocated t + 1)).put t
        (L.lastAllocated t + 1) (L.entry t (L.lastAllocated t + 1)).clear).entry t i =
        L.entry t i := by
      intro i hi
      apply put_entry_of_ne
      unfold slot
      omega
    rw [row_congr fun i hi => hrow i (by omega), hrow _ (by omega)]
  have htype : (L.pending t).nodeType = a.nodeType := congrArg LineLabel.nodeType hlabel
  refine ⟨?_, fun e he hr => ?_, fun u hu => ?_, fun k => ?_, h.filledLines⟩
  · rw [hwritten, List.map_append, List.map_append, h.labels, List.map_singleton,
      List.map_singleton, hlabel]
  · rw [hwritten] at he
    rcases List.mem_append.mp he with he | he
    · exact h.steps e he hr
    · obtain rfl := List.mem_singleton.mp he
      rw [htype]
      exact hstep hr
  · rw [put_report, setLast_report, put_lastAllocated, setLast_lastAllocated_of_ne _ hu]
    exact h.others u hu
  · show (Function.update L.stepWorkList (slot t (L.lastAllocated t + 1)) _ k).Filled
    by_cases hk : k = slot t (L.lastAllocated t + 1)
    · rw [hk, Function.update_self]
      exact .of_none rfl
    · rw [Function.update_of_ne hk]
      exact h.filled k

/-- One callback. A region is pending only if one has ended since the last call of
    `log`. -/
theorem Recorded.capture (h : Recorded L t as) {since : List Callback} {c : Callback}
    (hpending : (L.pending t).regionWork ≠ none → regionsOf since ≠ none)
    (hissued : ∀ a, c = .log a → regionsOf since ≠ none → a.nodeType = .step)
    (hrun : L.capture t [c] = .ok L') :
    Recorded L' t (as ++ logged [c]) ∧ ((L'.pending t).regionWork ≠ none →
      regionsOf ((⟨[], since⟩ : Unbuffered).next c).since ≠ none) := by
  have hassign : ∀ {L : TaskLogger} {as : List LogArgs}, Recorded L t as → ∀ a,
      ((L.pending t).assign a).Filled := by
    intro L as h a m hm
    exact h.filled _ m hm
  cases c with
  | log a =>
    rw [capture_log] at hrun
    obtain ⟨L₁, h1, -, rfl⟩ := log_eq_ok.mp hrun
    obtain ⟨hr, hp⟩ := h.flush h1
    have hself : (L₁.put t (L₁.lastAllocated t) ((L₁.pending t).assign a)).pending t =
        (L₁.pending t).assign a := put_entry_self _
    have hnext : (L₁.put t (L₁.lastAllocated t) ((L₁.pending t).assign a)).entry t
        (L₁.lastAllocated t + 1) = L₁.entry t (L₁.lastAllocated t + 1) := by
      apply put_entry_of_ne
      unfold slot
      omega
    have hadv := (hr.put (hassign hr a)).advance (a := a) (by rw [hself]; rfl) (by
      rw [hself]
      exact fun hne => hissued a rfl (hpending (hp hne)))
    rw [put_lastAllocated, hnext] at hadv
    refine ⟨hadv, fun hne => absurd ?_ hne⟩
    unfold pending
    rw [put_lastAllocated, setLast_lastAllocated_self, put_entry_self]
    rfl
  | beginOptimize nodeId parent count =>
    rw [capture_beginOptimize] at hrun
    obtain ⟨L₁, h1, -, rfl⟩ := logIntermediateStep_eq_ok.mp hrun
    obtain ⟨hr, hp⟩ := h.flush h1
    have hself : (L₁.put t (L₁.lastAllocated t) ((L₁.pending t).assign
        ⟨nodeId, parent, count, .step, 0⟩)).pending t = (L₁.pending t).assign _ := put_entry_self _
    refine ⟨by rw [logged, logged, List.append_nil]; exact hr.put (hassign hr _), fun hne => ?_⟩
    rw [show L₁.entry t (L₁.lastAllocated t) = L₁.pending t from rfl, hself] at hne
    show regionsOf (since ++ [_]) ≠ none
    rw [regionsOf_concat_none rfl]
    exact hpending (hp hne)
  | endOptimize nodeId parent count returnAddress =>
    obtain ⟨-, rfl⟩ := capture_endOptimize_eq_ok.mp hrun
    refine ⟨by
      rw [logged, logged, List.append_nil]
      exact h.put (StepWorkData.filled_addRegion _ _ _), fun _ => ?_⟩
    show regionsOf (since ++ [_]) ≠ none
    rw [regionsOf_concat_some rfl]
    exact Option.some_ne_none _

end Steps

/-- The lines after any callbacks. -/
theorem capture_recorded {L : TaskLogger} {t : ThreadId} {cs : List Callback}
    (hissued : Issued cs) (hrun : init.capture t cs = .ok L) :
    Recorded L t (logged cs) ∧ ((L.pending t).regionWork ≠ none →
      regionsOf (Unbuffered.after cs).since ≠ none) := by
  induction cs using List.reverseRecOn generalizing L with
  | nil =>
    obtain rfl := Except.ok.inj hrun
    exact ⟨recorded_init t, fun hne => absurd rfl hne⟩
  | append_singleton cs c ih =>
    obtain ⟨L₁, h1, h2⟩ := capture_append.mp hrun
    obtain ⟨hr, hp⟩ := ih hissued.of_append h1
    obtain ⟨hr', hp'⟩ := hr.capture hp (fun a ha hne => hissued cs a [] (by rw [ha]) hne) h2
    rw [logged_append, Unbuffered.after_concat]
    refine ⟨hr', fun hne => ?_⟩
    have hne' := hp' hne
    cases c <;> exact hne'

/-- What `Fini` leaves in the files: the lines of the thread, and its own. -/
theorem Recorded.fini {L : TaskLogger} {t : ThreadId} {as : List LogArgs} (h : Recorded L t as)
    (a : LogArgs) (u : ThreadId) :
    L.fini a u = (if u = t then L.written t else []) ++ if u = 0 then [L.finiLine a] else [] := by
  unfold TaskLogger.fini
  by_cases hu : u = t
  · rw [if_pos hu, hu]
    rfl
  · obtain ⟨h1, h2⟩ := h.others u hu
    rw [if_neg hu, h1, h2]
    rfl

end TaskLogger

end TaskProf.Collection
