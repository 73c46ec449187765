import TaskProf.Collection.TaskLogger

/-!
# The logger without its buffer

The file of a thread as the calls of the logger describe it: one line for each
call of `log`, with the work and the regions that were given since the call
before.

* `Represents`: what the row of a thread and its file have in common with the
  unbuffered logger.
* `capture_represents`: as long as no call flushes a full row behind which
  something is pending, and the last row does not fill, the row of a thread
  represents its unbuffered logger.
* `buffered_eq_unbuffered`: the file that `Fini` closes is then the one of the
  unbuffered logger.
* `not_buffered_eq_unbuffered`: what a region leaves behind a full row is lost.
-/

namespace TaskProf.Collection

/-! ## The unbuffered logger -/

namespace Callback

/-- The cycles that a callback accounts for. -/
def work : Callback → SizeT
  | .log a => a.work
  | .beginOptimize _ _ count => count
  | .endOptimize _ _ count _ => count

/-- The region that a callback ends, with its cycles. -/
def region : Callback → Option (SizeT × SizeT)
  | .log _ => none
  | .beginOptimize _ _ _ => none
  | .endOptimize _ _ count returnAddress => some (returnAddress, count)

end Callback

/-- The regions ended by the callbacks `since`, if there are any. -/
def regionsOf (since : List Callback) : Option RegionWork :=
  match since.filterMap Callback.region with
  | [] => none
  | r :: rs => some ((r :: rs).foldl (fun m e => m.add e.1 e.2) .empty)

/-- The lines written so far, and the callbacks since the last call of `log`. -/
structure Unbuffered where
  lines : List StepWorkData
  since : List Callback

namespace Unbuffered

/-- The line of a call with the arguments `a`. -/
def line (u : Unbuffered) (a : LogArgs) : StepWorkData :=
  ⟨a.parent, (u.since.map Callback.work).sum + a.work, a.nodeId, a.nodeType, a.retAddr,
    regionsOf u.since⟩

/-- One callback: a call of `log` writes its line. -/
def next (u : Unbuffered) : Callback → Unbuffered
  | .log a => ⟨u.lines ++ [u.line a], []⟩
  | c => ⟨u.lines, u.since ++ [c]⟩

/-- The logger after the callbacks `cs`. -/
def after (cs : List Callback) : Unbuffered := cs.foldl next ⟨[], []⟩

/-- The file of thread `t`: thread 0 also writes the line of `Fini`. -/
def file (u : Unbuffered) (t : ThreadId) (a : LogArgs) : List StepWorkData :=
  u.lines ++ if t = 0 then [u.line a] else []

end Unbuffered

/-- Only a STEP is logged after a region has ended: the callbacks log the STEP
    node before they log a new node. -/
def Issued (cs : List Callback) : Prop :=
  ∀ pre a post, cs = pre ++ .log a :: post → regionsOf (Unbuffered.after pre).since ≠ none →
    a.nodeType = .step

/-! ## Regions -/

theorem regionsOf_concat_none {since : List Callback} {c : Callback} (hc : c.region = none) :
    regionsOf (since ++ [c]) = regionsOf since := by
  have hf : [c].filterMap Callback.region = [] := by rw [List.filterMap_cons_none hc]; rfl
  unfold regionsOf
  rw [List.filterMap_append, hf, List.append_nil]

theorem regionsOf_concat_some {since : List Callback} {c : Callback} {r : SizeT × SizeT}
    (hc : c.region = some r) :
    regionsOf (since ++ [c]) = some (((regionsOf since).getD .empty).add r.1 r.2) := by
  have hf : [c].filterMap Callback.region = [r] := by rw [List.filterMap_cons_some hc]; rfl
  unfold regionsOf
  rw [List.filterMap_append, hf]
  cases since.filterMap Callback.region with
  | nil => rfl
  | cons r' rs =>
    simp only [List.cons_append, Option.getD_some]
    rw [← List.cons_append, List.foldl_append]
    rfl

/-- A line has, for each region, the sum of the cycles that were given for it. -/
theorem regionsOf_valueAt (since : List Callback) (returnAddress : SizeT) :
    ((regionsOf since).getD .empty).valueAt returnAddress =
      (((since.filterMap Callback.region).filter fun r => r.1 = returnAddress).map Prod.snd).sum := by
  induction since using List.reverseRecOn with
  | nil => rfl
  | append_singleton since c ih =>
    rw [List.filterMap_append]
    cases hc : c.region with
    | none =>
      have hf : [c].filterMap Callback.region = [] := by rw [List.filterMap_cons_none hc]; rfl
      rw [regionsOf_concat_none hc, ih, hf, List.append_nil]
    | some r =>
      have hf : [c].filterMap Callback.region = [r] := by rw [List.filterMap_cons_some hc]; rfl
      rw [regionsOf_concat_some hc, Option.getD_some, AccMap.valueAt_add, ih, hf,
        List.filter_append, List.map_append, List.sum_append]
      by_cases hr : r.1 = returnAddress
      · simp [hr]
      · have hr' : ¬returnAddress = r.1 := fun h => hr h.symm
        simp [hr, hr']

/-! ## The row of a thread -/

/-- How many entries of the row are in use after a callback, if there were `n`. -/
def nextFill (n : ℕ) (c : Callback) : ℕ := c.calls.foldl LogCall.nextLast n

/-- How many entries of the row are in use after the callbacks `cs`. -/
def fill (cs : List Callback) : ℕ := cs.foldl nextFill 0

/-- After the callbacks `pre` of thread `t`, the callback `c` flushes nothing that
    is pending, and does not fill the last row. -/
def Safe (t : ThreadId) (pre : List Callback) : Callback → Prop
  | .log _ => (fill pre = numEntries → (Unbuffered.after pre).since = []) ∧
      (t.val = 31 → fill pre + 1 < numEntries)
  | .beginOptimize _ _ _ => fill pre = numEntries → (Unbuffered.after pre).since = []
  | .endOptimize _ _ _ _ => True

theorem fill_concat (cs : List Callback) (c : Callback) :
    fill (cs ++ [c]) = nextFill (fill cs) c := by
  unfold fill
  rw [List.foldl_append]
  rfl

theorem Unbuffered.after_concat (cs : List Callback) (c : Callback) :
    after (cs ++ [c]) = (after cs).next c := by
  unfold after
  rw [List.foldl_append]
  rfl

theorem fill_le (cs : List Callback) : fill cs ≤ numEntries := by
  induction cs using List.reverseRecOn with
  | nil => exact Nat.zero_le _
  | append_singleton cs c ih =>
    rw [fill_concat]
    cases c with
    | log a => exact LogCall.nextLast_le ih (.log a)
    | beginOptimize nodeId parent count =>
      exact LogCall.nextLast_le ih (.logIntermediateStep ⟨nodeId, parent, count, .step, 0⟩)
    | endOptimize nodeId parent count returnAddress => exact ih

theorem Issued.of_append {cs cs' : List Callback} (h : Issued (cs ++ cs')) : Issued cs := by
  rintro pre a post rfl
  exact h pre a (post ++ cs') (by rw [List.append_assoc, List.cons_append])

namespace TaskLogger

/-- Thread `t` has written, and has in its row, what the unbuffered logger has;
    `n` entries are in use, and the next one is pending. -/
structure Represents (L : TaskLogger) (t : ThreadId) (n : ℕ) (u : Unbuffered) : Prop where
  lastAllocated : L.lastAllocated t = n
  lines : L.report t ++ L.row t n = u.lines
  work : (L.entry t n).work = (u.since.map Callback.work).sum
  regions : (L.entry t n).regionWork = regionsOf u.since
  steps : ∀ i < n, (L.entry t i).regionWork.isSome = true → (L.entry t i).nodeType = .step

section Steps

variable {L : TaskLogger} {t : ThreadId} {n : ℕ} {u : Unbuffered}

theorem represents_init (t : ThreadId) : Represents init t 0 ⟨[], []⟩ :=
  ⟨rfl, rfl, rfl, rfl, fun i hi => absurd hi (Nat.not_lt_zero i)⟩

/-- A full row is written, and what is pending behind it is forgotten. -/
theorem Represents.printed (h : Represents L t numEntries u) :
    L.flush t = .ok (L.printed t) ∧ Represents (L.printed t) t 0 ⟨u.lines, []⟩ := by
  have hentry : (L.printed t).entry t 0 = (L.entry t 0).clear := put_entry_self _
  refine ⟨flush_eq_ok.mpr (.inr ⟨h.lastAllocated, ?_, rfl⟩), setLast_lastAllocated_self 0, ?_, ?_, ?_,
    fun i hi => absurd hi (Nat.not_lt_zero i)⟩
  · intro e he
    obtain ⟨i, hi, rfl⟩ := mem_row.mp he
    exact h.steps i hi
  · rw [← h.lines]
    show Function.update L.report t (L.report t ++ L.row t numEntries) t ++ [] = _
    rw [Function.update_self, List.append_nil]
  · rw [hentry]
    rfl
  · rw [hentry]
    rfl

/-- Nothing is lost by writing a full row if nothing is pending. -/
theorem Represents.flush (h : Represents L t n u) (hs : n = numEntries → u.since = []) :
    ∃ L', L.flush t = .ok L' ∧ Represents L' t (if n = numEntries then 0 else n) u := by
  by_cases hn : n = numEntries
  · obtain rfl := hn
    obtain ⟨h1, h2⟩ := h.printed
    have hu : u = ⟨u.lines, []⟩ := by rw [← hs rfl]
    rw [if_pos rfl, hu]
    exact ⟨_, h1, h2⟩
  · rw [if_neg hn]
    exact ⟨L, flush_eq_ok.mpr (.inl ⟨h.lastAllocated ▸ hn, rfl⟩), h⟩

/-- Changing the pending entry leaves the lines alone. -/
theorem Represents.put (h : Represents L t n u) (e : StepWorkData) {u' : Unbuffered}
    (hlines : u'.lines = u.lines) (hwork : e.work = (u'.since.map Callback.work).sum)
    (hregions : e.regionWork = regionsOf u'.since) : Represents (L.put t n e) t n u' := by
  have hother : ∀ i < n, (L.put t n e).entry t i = L.entry t i := by
    intro i hi
    apply put_entry_of_ne
    unfold slot
    omega
  refine ⟨h.lastAllocated, ?_, ?_, ?_, fun i hi => ?_⟩
  · rw [row_congr hother, hlines]
    exact h.lines
  · rw [put_entry_self, hwork]
  · rw [put_entry_self, hregions]
  · rw [hother i hi]
    exact h.steps i hi

/-- A call of `log` on a row that is not full. -/
theorem Represents.log (h : Represents L t n u) (hn : n < numEntries)
    (hlast : slot t (n + 1) < 32 * numEntries) {a : LogArgs}
    (hstep : regionsOf u.since ≠ none → a.nodeType = .step) :
    ∃ L', L.log t a = .ok L' ∧ Represents L' t (n + 1) ⟨u.lines ++ [u.line a], []⟩ := by
  have hflush : L.flush t = .ok L :=
    flush_eq_ok.mpr (.inl ⟨by rw [h.lastAllocated]; exact hn.ne, rfl⟩)
  have hlt : slot t (L.lastAllocated t + 1) < 32 * numEntries := by
    rw [h.lastAllocated]
    exact hlast
  refine ⟨_, log_eq_ok.mpr ⟨L, hflush, hlt, rfl⟩, ?_⟩
  rw [h.lastAllocated]
  have hne : slot t n ≠ slot t (n + 1) := by
    unfold slot
    omega
  have hself : (((L.put t n ((L.entry t n).assign a)).setLast t (n + 1)).put t (n + 1)
      (L.entry t (n + 1)).clear).entry t n = (L.entry t n).assign a := by
    rw [put_entry_of_ne _ hne, setLast_entry, put_entry_self]
  have hother : ∀ i < n, (((L.put t n ((L.entry t n).assign a)).setLast t (n + 1)).put t (n + 1)
      (L.entry t (n + 1)).clear).entry t i = L.entry t i := by
    intro i hi
    have h1 : slot t i ≠ slot t (n + 1) := by unfold slot; omega
    have h2 : slot t i ≠ slot t n := by unfold slot; omega
    rw [put_entry_of_ne _ h1, setLast_entry, put_entry_of_ne _ h2]
  have hline : (L.entry t n).assign a = u.line a := by
    unfold StepWorkData.assign Unbuffered.line
    rw [h.work, h.regions]
  refine ⟨setLast_lastAllocated_self _, ?_, ?_, ?_, fun i hi => ?_⟩
  · rw [row_succ, row_congr hother, hself, hline, ← h.lines, List.append_assoc]
    rfl
  · rw [put_entry_self]
    rfl
  · rw [put_entry_self]
    rfl
  · rcases Nat.lt_succ_iff_lt_or_eq.mp hi with hi | rfl
    · rw [hother i hi]
      exact h.steps i hi
    · rw [hself]
      intro hr
      apply hstep
      rw [← h.regions]
      exact Option.isSome_iff_ne_none.mp hr

/-- One callback. -/
theorem Represents.next (h : Represents L t n u) (hle : n ≤ numEntries) {c : Callback}
    (hflush : (∀ nodeId parent count r, c ≠ .endOptimize nodeId parent count r) →
      n = numEntries → u.since = [])
    (hstep : ∀ a, c = .log a → regionsOf u.since ≠ none → a.nodeType = .step)
    (hlast : t.val = 31 → nextFill n c < numEntries) :
    ∃ L', L.capture t [c] = .ok L' ∧ Represents L' t (nextFill n c) (u.next c) := by
  cases c with
  | log a =>
    obtain ⟨L₁, h1, hr⟩ := h.flush (hflush fun _ _ _ _ => Callback.noConfusion)
    have hn : (if n = numEntries then 0 else n) < numEntries := by
      unfold numEntries at *
      split_ifs <;> omega
    have hlt : slot t ((if n = numEntries then 0 else n) + 1) < 32 * numEntries := by
      by_cases ht : t.val = 31
      · exact slot_lt t (hlast ht)
      · exact slot_numEntries_lt t hn ht
    obtain ⟨L', h2, hr'⟩ := hr.log hn hlt (hstep a rfl)
    refine ⟨L', ?_, hr'⟩
    have hnf : L₁.flush t = .ok L₁ :=
      flush_eq_ok.mpr (.inl ⟨by rw [hr.lastAllocated]; exact hn.ne, rfl⟩)
    obtain ⟨L₂, h3, h4, h5⟩ := log_eq_ok.mp h2
    obtain rfl : L₁ = L₂ := Except.ok.inj (hnf.symm.trans h3)
    rw [capture_log]
    exact log_eq_ok.mpr ⟨L₁, h1, h4, h5⟩
  | beginOptimize nodeId parent count =>
    obtain ⟨L₁, h1, hr⟩ := h.flush (hflush fun _ _ _ _ => Callback.noConfusion)
    have hn : (if n = numEntries then 0 else n) < numEntries := by
      unfold numEntries at *
      split_ifs <;> omega
    refine ⟨_, ?_, hr.put ((L₁.entry t (if n = numEntries then 0 else n)).assign
      ⟨nodeId, parent, count, .step, 0⟩) rfl ?_ ?_⟩
    · rw [capture_beginOptimize]
      refine logIntermediateStep_eq_ok.mpr ⟨L₁, h1, ?_, ?_⟩
      · rw [hr.lastAllocated]
        exact slot_lt t hn
      · rw [hr.lastAllocated]
    · show (L₁.entry t _).work + count = ((u.since ++ [_]).map Callback.work).sum
      rw [hr.work, List.map_append, List.sum_append]
      simp [Callback.work]
    · show (L₁.entry t _).regionWork = regionsOf (u.since ++ [_])
      rw [hr.regions, regionsOf_concat_none rfl]
  | endOptimize nodeId parent count returnAddress =>
    refine ⟨_, ?_, h.put (((L.entry t n).assign ⟨nodeId, parent, count, .step, 0⟩).addRegion
      returnAddress count) rfl ?_ ?_⟩
    · refine capture_endOptimize_eq_ok.mpr ⟨?_, ?_⟩
      · rw [h.lastAllocated]
        by_cases ht : t.val = 31
        · exact slot_lt t (hlast ht)
        · exact slot_numEntries_lt t hle ht
      · rw [h.lastAllocated]
    · show (L.entry t n).work + count = ((u.since ++ [_]).map Callback.work).sum
      rw [h.work, List.map_append, List.sum_append]
      simp [Callback.work]
    · show some (((L.entry t n).regionWork.getD .empty).add returnAddress count) =
        regionsOf (u.since ++ [_])
      rw [h.regions, regionsOf_concat_some rfl]

/-- What `Fini` leaves in the file of thread `t`. -/
theorem Represents.fini (h : Represents L t n u) (a : LogArgs) : L.fini a t = u.file t a := by
  unfold TaskLogger.fini Unbuffered.file
  rw [h.lastAllocated, h.lines]
  split_ifs with ht
  · obtain rfl := ht
    unfold finiLine Unbuffered.line
    dsimp only
    rw [h.lastAllocated, h.work, h.regions]
  · rfl

end Steps

/-! ## Runs -/

/-- After every sequence of safe callbacks the row of the thread represents its
    unbuffered logger. -/
theorem capture_represents {t : ThreadId} {cs : List Callback} (hissued : Issued cs)
    (hsafe : ∀ pre c post, cs = pre ++ c :: post → Safe t pre c) :
    ∃ L, init.capture t cs = .ok L ∧ Represents L t (fill cs) (.after cs) ∧
      (t.val = 31 → fill cs < numEntries) := by
  induction cs using List.reverseRecOn with
  | nil => exact ⟨init, rfl, represents_init t, fun _ => by decide⟩
  | append_singleton cs c ih =>
    obtain ⟨L, hrun, hr, hlast⟩ := ih hissued.of_append fun pre c' post h =>
      hsafe pre c' (post ++ [c]) (by rw [h, List.append_assoc, List.cons_append])
    have hc : Safe t cs c := hsafe cs c [] rfl
    have hle := fill_le cs
    rw [fill_concat, Unbuffered.after_concat]
    have hlast' : t.val = 31 → nextFill (fill cs) c < numEntries := by
      intro ht
      have h31 := hlast ht
      cases c with
      | log a =>
        show (if fill cs = numEntries then 0 else fill cs) + 1 < numEntries
        rw [if_neg h31.ne]
        exact hc.2 ht
      | beginOptimize nodeId parent count =>
        show (if fill cs = numEntries then 0 else fill cs) < numEntries
        rw [if_neg h31.ne]
        exact h31
      | endOptimize nodeId parent count returnAddress => exact h31
    have hflush : (∀ nodeId parent count r, c ≠ .endOptimize nodeId parent count r) →
        fill cs = numEntries → (Unbuffered.after cs).since = [] := by
      intro hne
      cases c with
      | log a => exact hc.1
      | beginOptimize nodeId parent count => exact hc
      | endOptimize nodeId parent count returnAddress => exact absurd rfl (hne _ _ _ _)
    obtain ⟨L', hnext, hr'⟩ := hr.next hle hflush
      (fun a ha hreg => hissued cs a [] (by rw [ha]) hreg) hlast'
    exact ⟨L', capture_append.mpr ⟨L, hrun, hnext⟩, hr', hlast'⟩

/-! ## Full rows -/

/-- Calls of `log` alone fill a row. -/
theorem fill_logs {as : List LogArgs} (h : as.length ≤ numEntries) :
    fill (as.map .log) = as.length := by
  induction as using List.reverseRecOn with
  | nil => rfl
  | append_singleton as a ih =>
    rw [List.length_append, List.length_singleton] at h
    rw [List.map_append, List.map_singleton, fill_concat, ih (by omega), List.length_append,
      List.length_singleton]
    show (if as.length = numEntries then 0 else as.length) + 1 = as.length + 1
    rw [if_neg (by omega)]

theorem after_logs_since (as : List LogArgs) : (Unbuffered.after (as.map .log)).since = [] := by
  induction as using List.reverseRecOn with
  | nil => rfl
  | append_singleton as a ih =>
    rw [List.map_append, List.map_singleton, Unbuffered.after_concat]
    rfl

theorem safe_logs {t : ThreadId} (ht : t.val ≠ 31) {as : List LogArgs}
    (h : as.length ≤ numEntries) (pre : List Callback) (c : Callback) (post : List Callback)
    (hcs : as.map Callback.log = pre ++ c :: post) : Safe t pre c := by
  obtain ⟨as₁, as₂, rfl, rfl, h2⟩ := List.map_eq_append_iff.mp hcs
  obtain ⟨a, as₃, rfl, rfl, -⟩ := List.map_eq_cons_iff.mp h2
  refine ⟨fun _ => after_logs_since as₁, fun ht' => absurd ht' ht⟩

/-- What is safe alone, and after the callbacks `cs`. -/
theorem safe_append {t : ThreadId} {cs ds : List Callback}
    (hcs : ∀ pre c post, cs = pre ++ c :: post → Safe t pre c)
    (hds : ∀ pre c post, ds = pre ++ c :: post → Safe t (cs ++ pre) c)
    (pre : List Callback) (c : Callback) (post : List Callback)
    (h : cs ++ ds = pre ++ c :: post) : Safe t pre c := by
  rcases List.append_eq_append_iff.mp h with ⟨mid, rfl, hmid⟩ | ⟨mid, hmid, hds'⟩
  · exact hds mid c post hmid
  · cases mid with
    | nil =>
      rw [List.append_nil] at hmid
      rw [← hmid]
      have := hds [] c post hds'.symm
      rwa [List.append_nil] at this
    | cons c' mid =>
      obtain ⟨rfl, -⟩ := List.cons.inj hds'
      exact hcs pre c mid hmid

theorem issued_of_steps {cs : List Callback} (h : ∀ a, Callback.log a ∈ cs → a.nodeType = .step) :
    Issued cs := by
  rintro pre a post rfl -
  exact h a (List.mem_append_right _ (List.mem_cons_self ..))

/-- As many STEP nodes as fill a row. -/
def fullRow : List LogArgs :=
  (List.range numEntries).map fun i => ⟨BitVec.ofNat 64 (i + 2), 1, 1, .step, 0⟩

theorem length_fullRow : fullRow.length = numEntries := by
  unfold fullRow
  rw [List.length_map, List.length_range]

theorem step_of_mem_fullRow {a : LogArgs} (ha : a ∈ fullRow) : a.nodeType = .step := by
  obtain ⟨i, -, rfl⟩ := List.mem_map.mp ha
  rfl

theorem step_of_log_mem_fullRow {a : LogArgs} (ha : Callback.log a ∈ fullRow.map Callback.log) :
    a.nodeType = .step := by
  obtain ⟨a', ha', h⟩ := List.mem_map.mp ha
  obtain rfl := Callback.log.inj h
  exact step_of_mem_fullRow ha'

/-! ## The files -/

/-- **The buffer.** If every call that flushes a full row comes with nothing
    pending behind the row, and the last row never fills, then the callbacks of a
    thread, followed by `Fini`, leave in its file what the unbuffered logger writes. -/
theorem buffered_eq_unbuffered {t : ThreadId} {cs : List Callback} (hissued : Issued cs)
    (hsafe : ∀ pre c post, cs = pre ++ c :: post → Safe t pre c) (a : LogArgs) :
    ∃ L, init.capture t cs = .ok L ∧ L.fini a t = (Unbuffered.after cs).file t a := by
  obtain ⟨L, hrun, hr, -⟩ := capture_represents hissued hsafe
  exact ⟨L, hrun, hr.fini a⟩

/-- A region begins in a step behind a full row and ends in the next step. -/
def spanning : List Callback :=
  fullRow.map .log ++
    [.beginOptimize 1026 1 5, .log ⟨1026, 1, 3, .step, 0⟩, .endOptimize 1028 1 7 99]

theorem spanning_buffered : ∃ L, init.capture 0 spanning = .ok L ∧
    L.fini ⟨1028, 1, 2, .step, 0⟩ 0 =
      (Unbuffered.after spanning).file 0 ⟨1028, 1, 2, .step, 0⟩ := by
  have hfill : fill (fullRow.map .log) = numEntries := by
    rw [fill_logs length_fullRow.le, length_fullRow]
  apply buffered_eq_unbuffered
  · apply issued_of_steps
    intro a ha
    rcases List.mem_append.mp ha with ha | ha
    · exact step_of_log_mem_fullRow ha
    · simp only [List.mem_cons, reduceCtorEq, Callback.log.injEq, false_or, List.not_mem_nil,
        or_false] at ha
      rw [ha]
  · refine safe_append (safe_logs (by decide) length_fullRow.le) fun pre c post h => ?_
    rcases pre with _ | ⟨c₁, _ | ⟨c₂, _ | ⟨c₃, pre⟩⟩⟩
    · -- the row is flushed, with nothing pending
      obtain ⟨rfl, -⟩ := List.cons.inj h
      rw [List.append_nil]
      exact fun _ => after_logs_since fullRow
    · simp only [List.cons_append, List.nil_append, List.cons.injEq] at h
      obtain ⟨rfl, rfl, -⟩ := h
      refine ⟨fun hf => ?_, fun ht => absurd ht (by decide)⟩
      rw [fill_concat, hfill] at hf
      exact absurd hf (by decide)
    · simp only [List.cons_append, List.nil_append, List.cons.injEq] at h
      obtain ⟨rfl, rfl, rfl, -⟩ := h
      trivial
    · simp at h

/-! ## What a full row loses -/

/-- A call of `log` on a full row forgets what is pending behind it. -/
theorem Represents.log_full {L L' : TaskLogger} {t : ThreadId} {u : Unbuffered} {a : LogArgs}
    (h : Represents L t numEntries u) (hrun : L.log t a = .ok L') :
    Represents L' t 1 ⟨u.lines ++ [(⟨u.lines, []⟩ : Unbuffered).line a], []⟩ := by
  obtain ⟨hflush, hr⟩ := h.printed
  obtain ⟨L₁, h1, hlt, rfl⟩ := log_eq_ok.mp hrun
  obtain rfl : L.printed t = L₁ := Except.ok.inj (hflush.symm.trans h1)
  have hn : (0 : ℕ) < numEntries := by decide
  obtain ⟨L₂, h2, hr₂⟩ := hr.log hn (slot_lt t (by decide)) (a := a) fun hreg => absurd rfl hreg
  have hnf : (L.printed t).flush t = .ok (L.printed t) :=
    flush_eq_ok.mpr (.inl ⟨by rw [hr.lastAllocated]; decide, rfl⟩)
  obtain ⟨L₃, h3, -, rfl⟩ := log_eq_ok.mp h2
  obtain rfl : L.printed t = L₃ := Except.ok.inj (hnf.symm.trans h3)
  exact hr₂

/-- Behind any full row of STEP nodes, the work and the region that
    `TP_CaptureEndOptimize` records are not in the next line. -/
theorem file_ne_of_full {as : List LogArgs} (hlen : as.length = numEntries)
    (hsteps : ∀ a ∈ as, a.nodeType = .step) {b : LogArgs}
    {nodeId parent count returnAddress : SizeT} (hcount : count ≠ 0) {L : TaskLogger}
    (hrun : init.capture 0
      (as.map .log ++ [.endOptimize nodeId parent count returnAddress] ++ [.log b]) = .ok L) :
    L.fini b 0 ≠ (Unbuffered.after (as.map .log ++
      [.endOptimize nodeId parent count returnAddress] ++ [.log b])).file 0 b := by
  have hissued : Issued (as.map .log) := by
    apply issued_of_steps
    intro a ha
    obtain ⟨a', ha', h⟩ := List.mem_map.mp ha
    obtain rfl := Callback.log.inj h
    exact hsteps a' ha'
  obtain ⟨L₂, hrun₂, hlog⟩ := capture_append.mp hrun
  obtain ⟨L₁, hrun₁, hend⟩ := capture_append.mp hrun₂
  obtain ⟨L₁', hrun₁', hr, -⟩ := capture_represents hissued (safe_logs (t := 0) (by decide) hlen.le)
  obtain rfl : L₁' = L₁ := Except.ok.inj (hrun₁'.symm.trans hrun₁)
  rw [fill_logs hlen.le, hlen] at hr
  -- the region is recorded behind the row
  obtain ⟨L₂', hend', hr₂⟩ := hr.next le_rfl
    (c := .endOptimize nodeId parent count returnAddress)
    (fun h => absurd rfl (h _ _ _ _)) (by rintro a ⟨⟩) (fun h => absurd h (by decide))
  obtain rfl : L₂' = L₂ := Except.ok.inj (hend'.symm.trans hend)
  -- and forgotten by the next call
  rw [capture_log] at hlog
  have hr₃ := Represents.log_full hr₂ hlog
  intro hfile
  rw [hr₃.fini b, Unbuffered.after_concat, Unbuffered.after_concat] at hfile
  unfold Unbuffered.file at hfile
  rw [if_pos rfl] at hfile
  have hlines := (List.append_inj' hfile rfl).1
  have hline := List.singleton_inj.mp (List.append_inj' hlines rfl).2
  have hwork : (0 : SizeT) + b.work =
      (((Unbuffered.after (as.map .log)).since ++
        [Callback.endOptimize nodeId parent count returnAddress]).map Callback.work).sum + b.work :=
    congrArg StepWorkData.work hline
  rw [after_logs_since] at hwork
  apply hcount
  simpa [Callback.work] using (add_right_cancel hwork).symm

theorem not_buffered_eq_unbuffered :
    ¬∀ (t : ThreadId) (cs : List Callback), Issued cs → ∀ a, ∃ L, init.capture t cs = .ok L ∧
      L.fini a t = (Unbuffered.after cs).file t a := by
  intro hall
  obtain ⟨L, hrun, hfile⟩ := hall 0 (fullRow.map .log ++ [.endOptimize 1026 1 7 99] ++
    [.log ⟨1026, 1, 3, .step, 0⟩]) (by
      apply issued_of_steps
      intro a ha
      rcases List.mem_append.mp ha with ha | ha
      · rcases List.mem_append.mp ha with ha | ha
        · exact step_of_log_mem_fullRow ha
        · cases List.mem_singleton.mp ha
      · obtain rfl := Callback.log.inj (List.mem_singleton.mp ha)
        rfl) ⟨1026, 1, 3, .step, 0⟩
  exact file_ne_of_full length_fullRow (fun a => step_of_mem_fullRow) (by decide) hrun hfile

end TaskLogger

end TaskProf.Collection
