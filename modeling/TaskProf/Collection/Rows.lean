import TaskProf.Collection.TaskLogger

/-!
# The rows of the logger

What a thread does to its own row and file, and to those of the others.

* `Row`: the row and the file of one thread, without the entry behind the row.
* `rowOf_own`, `rowOf_other`: a call changes the row of its thread as `Row.next`
  says, and no other row as long as the thread does not fill its own.
* `file_eq_file`: the file of a thread is a function of its own calls, if the
  thread of the row before never fills that row and, for thread 0, the row is not
  full at the end.
* `not_file_eq_file`: filling a row clears what the next thread has logged.
-/

namespace TaskProf.Collection

/-- The row and the file of one thread. -/
structure Row where
  report : List StepWorkData
  last : ℕ
  entries : ℕ → StepWorkData

namespace Row

/-- Change an entry of the row. -/
def modify (r : Row) (i : ℕ) (f : StepWorkData → StepWorkData) : Row :=
  if i < numEntries then { r with entries := Function.update r.entries i (f (r.entries i)) } else r

/-- The lines that the first `n` entries make. -/
def lines (r : Row) (n : ℕ) : List StepWorkData := (List.range n).map r.entries

/-- A full row is printed, and its first entry cleared. -/
def flush (r : Row) : Row :=
  if r.last = numEntries then
    modify { r with report := r.report ++ r.lines numEntries, last := 0 } 0 .clear
  else r

/-- What a call does to the row of its thread. -/
def next (r : Row) : LogCall → Row
  | .log a =>
    let r := r.flush.modify r.flush.last fun e => e.assign a
    modify { r with last := r.last + 1 } (r.last + 1) .clear
  | .logIntermediateStep a => r.flush.modify r.flush.last fun e => e.assign a
  | .bufferInfo a => r.modify r.last fun e => e.assign a
  | .logRegionWork returnAddress work => r.modify r.last fun e => e.addRegion returnAddress work

/-- The row after the calls `cs` of its thread. -/
def after (cs : List LogCall) : Row := cs.foldl next ⟨[], 0, fun _ => .zero⟩

/-- The file of thread `t` when `Fini` has closed it. -/
def file (r : Row) (t : ThreadId) (a : LogArgs) : List StepWorkData :=
  r.report ++ r.lines r.last ++ if t = 0 then
    let e := r.entries r.last
    [⟨a.parent, e.work + a.work, a.nodeId, a.nodeType, a.retAddr, e.regionWork⟩]
  else []

@[simp] theorem modify_last (r : Row) (i : ℕ) (f : StepWorkData → StepWorkData) :
    (r.modify i f).last = r.last := by
  unfold modify
  split_ifs <;> rfl

end Row

/-- The calls of thread `t`. -/
def callsOf (t : ThreadId) (calls : List (ThreadId × LogCall)) : List LogCall :=
  (calls.filter fun c => c.1 = t).map Prod.snd

/-- The calls of `log` among the calls of a thread. -/
def LogCall.isLog : LogCall → Bool
  | .log _ => true
  | _ => false

/-- How many entries of its row a thread uses after its calls `cs`. -/
def lastAfter (cs : List LogCall) : ℕ := cs.foldl LogCall.nextLast 0

/-- The thread of the row before that of `t` never fills its row, and the row of
    thread 0 is not full at the end. -/
def Confined (t : ThreadId) (calls : List (ThreadId × LogCall)) : Prop :=
  (∀ u : ThreadId, u.val + 1 = t.val → (callsOf u calls).countP LogCall.isLog < numEntries) ∧
  (t = 0 → lastAfter (callsOf t calls) ≠ numEntries)

theorem callsOf_cons_self (t : ThreadId) (c : LogCall) (calls : List (ThreadId × LogCall)) :
    callsOf t ((t, c) :: calls) = c :: callsOf t calls := by
  unfold callsOf
  rw [List.filter_cons_of_pos (by simp), List.map_cons]

theorem callsOf_cons_of_ne {t u : ThreadId} (h : u ≠ t) (c : LogCall)
    (calls : List (ThreadId × LogCall)) : callsOf t ((u, c) :: calls) = callsOf t calls := by
  unfold callsOf
  rw [List.filter_cons_of_neg (by simpa using h)]

theorem LogCall.nextLast_le_add (n : ℕ) (c : LogCall) :
    c.nextLast n ≤ n + [c].countP isLog := by
  cases c with
  | log a =>
    show (if n = numEntries then 0 else n) + 1 ≤ n + 1
    split_ifs <;> omega
  | logIntermediateStep a =>
    show (if n = numEntries then 0 else n) ≤ n
    split_ifs <;> omega
  | bufferInfo a => exact le_rfl
  | logRegionWork returnAddress work => exact le_rfl

namespace TaskLogger

/-- The row and the file of thread `t`; what lies behind the row is left out. -/
def rowOf (L : TaskLogger) (t : ThreadId) : Row where
  report := L.report t
  last := L.lastAllocated t
  entries i := if i < numEntries then L.entry t i else .zero

section Steps

variable {L L' : TaskLogger} {t u : ThreadId}

theorem rowOf_put_self (f : StepWorkData → StepWorkData) (i : ℕ) :
    (L.put t i (f (L.entry t i))).rowOf t = (L.rowOf t).modify i f := by
  unfold rowOf Row.modify
  by_cases hi : i < numEntries
  · rw [if_pos hi]
    simp only [put_report, put_lastAllocated, Row.mk.injEq, true_and, if_pos hi]
    funext j
    by_cases hj : j = i
    · subst hj
      rw [if_pos hi, put_entry_self, Function.update_self]
    · rw [Function.update_of_ne hj]
      have hne : slot t j ≠ slot t i := by unfold slot; omega
      rw [put_entry_of_ne _ hne]
  · rw [if_neg hi]
    simp only [put_report, put_lastAllocated, Row.mk.injEq, true_and]
    funext j
    split_ifs with hj
    · have hne : slot t j ≠ slot t i := by unfold slot; omega
      rw [put_entry_of_ne _ hne]
    · rfl

theorem rowOf_put_other (hu : u ≠ t) {i : ℕ} (hi : i ≤ numEntries)
    (hnext : u.val + 1 = t.val → i ≠ numEntries) (e : StepWorkData) :
    (L.put u i e).rowOf t = L.rowOf t := by
  unfold rowOf
  simp only [put_report, put_lastAllocated, Row.mk.injEq, true_and]
  funext j
  split_ifs with hj
  · apply put_entry_of_ne
    intro h
    exact hu ((slot_inj hi hj hnext).mp h.symm).1
  · rfl

theorem rowOf_setLast_self (n : ℕ) : (L.setLast t n).rowOf t = { L.rowOf t with last := n } := by
  unfold rowOf
  rw [setLast_lastAllocated_self]
  rfl

theorem rowOf_setLast_other (hu : u ≠ t) (n : ℕ) : (L.setLast u n).rowOf t = L.rowOf t := by
  unfold rowOf
  rw [setLast_lastAllocated_of_ne n hu.symm]
  rfl

theorem rowOf_lines {n : ℕ} (hn : n ≤ numEntries) : (L.rowOf t).lines n = L.row t n :=
  List.map_congr_left fun _ hi => if_pos ((List.mem_range.mp hi).trans_le hn)

theorem flush_rowOf (h : L.flush t = .ok L') : L'.rowOf t = (L.rowOf t).flush := by
  unfold Row.flush
  rcases flush_eq_ok.mp h with ⟨hn, rfl⟩ | ⟨hn, -, rfl⟩
  · exact (if_neg hn).symm
  · rw [if_pos (show (L.rowOf t).last = numEntries from hn), rowOf_lines le_rfl]
    unfold printed
    rw [show (L.entry t 0).clear = StepWorkData.clear
      (({ L with report := Function.update L.report t (L.report t ++ L.row t numEntries) }.setLast t
        0).entry t 0) from rfl, rowOf_put_self, rowOf_setLast_self]
    unfold rowOf
    dsimp only
    rw [Function.update_self]
    rfl

theorem flush_other (hu : u ≠ t) (h : L.flush u = .ok L') : L'.rowOf t = L.rowOf t := by
  rcases flush_eq_ok.mp h with ⟨-, rfl⟩ | ⟨-, -, rfl⟩
  · rfl
  · unfold printed
    rw [rowOf_put_other hu (Nat.zero_le _) (fun _ => by decide), rowOf_setLast_other hu]
    unfold rowOf
    dsimp only
    rw [Function.update_of_ne hu.symm]
    rfl

theorem flush_lastAllocated (h : L.flush t = .ok L') :
    L'.lastAllocated t = if L.lastAllocated t = numEntries then 0 else L.lastAllocated t := by
  rcases flush_eq_ok.mp h with ⟨hn, rfl⟩ | ⟨hn, -, rfl⟩
  · rw [if_neg hn]
  · rw [if_pos hn]
    exact setLast_lastAllocated_self 0

/-- What a call does to the row of its thread. -/
theorem rowOf_own {c : LogCall} (h : L.perform t c = .ok L') :
    L'.rowOf t = (L.rowOf t).next c := by
  cases c with
  | log a =>
    obtain ⟨L₁, h1, -, rfl⟩ := log_eq_ok.mp h
    have hlast : (L.rowOf t).flush.last = L₁.lastAllocated t := by rw [← flush_rowOf h1]; rfl
    have hne : slot t (L₁.lastAllocated t + 1) ≠ slot t (L₁.lastAllocated t) := by
      unfold slot
      omega
    have hentry : ((L₁.put t (L₁.lastAllocated t) ((L₁.entry t (L₁.lastAllocated t)).assign a)).setLast
        t (L₁.lastAllocated t + 1)).entry t (L₁.lastAllocated t + 1) =
        L₁.entry t (L₁.lastAllocated t + 1) := by
      rw [setLast_entry, put_entry_of_ne _ hne]
    rw [← hentry, rowOf_put_self, rowOf_setLast_self,
      rowOf_put_self (fun e => e.assign a), flush_rowOf h1]
    unfold Row.next
    simp only [Row.modify_last, hlast]
  | logIntermediateStep a =>
    obtain ⟨L₁, h1, -, rfl⟩ := logIntermediateStep_eq_ok.mp h
    have hlast : (L.rowOf t).flush.last = L₁.lastAllocated t := by rw [← flush_rowOf h1]; rfl
    rw [rowOf_put_self (fun e => e.assign a), flush_rowOf h1]
    unfold Row.next
    rw [hlast]
  | bufferInfo a =>
    obtain ⟨-, rfl⟩ := bufferInfo_eq_ok.mp h
    exact rowOf_put_self (fun e => e.assign a) _
  | logRegionWork returnAddress work =>
    obtain ⟨-, -, rfl⟩ := logRegionWork_eq_ok.mp h
    exact rowOf_put_self (fun e => e.addRegion returnAddress work) _

/-- How many entries are in use after a call. -/
theorem perform_lastAllocated {c : LogCall} (h : L.perform t c = .ok L') :
    L'.lastAllocated t = c.nextLast (L.lastAllocated t) := by
  cases c with
  | log a =>
    obtain ⟨L₁, h1, -, rfl⟩ := log_eq_ok.mp h
    rw [put_lastAllocated, setLast_lastAllocated_self, flush_lastAllocated h1]
    rfl
  | logIntermediateStep a =>
    obtain ⟨L₁, h1, -, rfl⟩ := logIntermediateStep_eq_ok.mp h
    rw [put_lastAllocated, flush_lastAllocated h1]
    rfl
  | bufferInfo a =>
    obtain ⟨-, rfl⟩ := bufferInfo_eq_ok.mp h
    rfl
  | logRegionWork returnAddress work =>
    obtain ⟨-, -, rfl⟩ := logRegionWork_eq_ok.mp h
    rfl

/-- A call leaves another row alone, unless it is the next row and the thread
    writes behind its own. -/
theorem rowOf_other {c : LogCall} (hu : u ≠ t) (h : L.perform u c = .ok L')
    (hle : L.lastAllocated u ≤ numEntries)
    (hnext : u.val + 1 = t.val → L.lastAllocated u ≠ numEntries ∧ L'.lastAllocated u ≠ numEntries) :
    L'.rowOf t = L.rowOf t := by
  have hfull := perform_lastAllocated h
  have hpos : 0 < numEntries := by decide
  cases c with
  | log a =>
    obtain ⟨L₁, h1, -, rfl⟩ := log_eq_ok.mp h
    rw [put_lastAllocated, setLast_lastAllocated_self] at hfull hnext
    have hlt : L₁.lastAllocated u < numEntries := by
      rw [flush_lastAllocated h1]
      split_ifs <;> omega
    rw [rowOf_put_other hu hlt fun he => (hnext he).2, rowOf_setLast_other hu,
      rowOf_put_other hu hlt.le fun _ => hlt.ne, flush_other hu h1]
  | logIntermediateStep a =>
    obtain ⟨L₁, h1, -, rfl⟩ := logIntermediateStep_eq_ok.mp h
    have hlt : L₁.lastAllocated u < numEntries := by
      rw [flush_lastAllocated h1]
      split_ifs <;> omega
    rw [rowOf_put_other hu hlt.le fun _ => hlt.ne, flush_other hu h1]
  | bufferInfo a =>
    obtain ⟨-, rfl⟩ := bufferInfo_eq_ok.mp h
    exact rowOf_put_other hu hle (fun he => (hnext he).1) _
  | logRegionWork returnAddress work =>
    obtain ⟨-, -, rfl⟩ := logRegionWork_eq_ok.mp h
    exact rowOf_put_other hu hle (fun he => (hnext he).1) _

theorem flush_lastAllocated_of_ne (hu : u ≠ t) (h : L.flush u = .ok L') :
    L'.lastAllocated t = L.lastAllocated t :=
  congrArg Row.last (flush_other hu h)

theorem perform_lastAllocated_of_ne {c : LogCall} (hu : u ≠ t) (h : L.perform u c = .ok L') :
    L'.lastAllocated t = L.lastAllocated t := by
  cases c with
  | log a =>
    obtain ⟨L₁, h1, -, rfl⟩ := log_eq_ok.mp h
    rw [put_lastAllocated, setLast_lastAllocated_of_ne _ hu.symm, put_lastAllocated,
      flush_lastAllocated_of_ne hu h1]
  | logIntermediateStep a =>
    obtain ⟨L₁, h1, -, rfl⟩ := logIntermediateStep_eq_ok.mp h
    rw [put_lastAllocated, flush_lastAllocated_of_ne hu h1]
  | bufferInfo a =>
    obtain ⟨-, rfl⟩ := bufferInfo_eq_ok.mp h
    rfl
  | logRegionWork returnAddress work =>
    obtain ⟨-, -, rfl⟩ := logRegionWork_eq_ok.mp h
    rfl

/-- What `Fini` leaves in a file is in the row. -/
theorem fini_eq (hle : L.lastAllocated t ≤ numEntries)
    (h0 : t = 0 → L.lastAllocated t ≠ numEntries) (a : LogArgs) :
    L.fini a t = (L.rowOf t).file t a := by
  unfold fini Row.file
  rw [show (L.rowOf t).last = L.lastAllocated t from rfl, rowOf_lines hle]
  split_ifs with ht
  · have hentry : (L.rowOf t).entries (L.lastAllocated t) = L.entry t (L.lastAllocated t) :=
      if_pos (hle.lt_of_ne (h0 ht))
    rw [hentry, ht]
    rfl
  · rfl

end Steps

/-! ## Runs -/

section Runs

variable {L L' : TaskLogger} {t : ThreadId} {calls : List (ThreadId × LogCall)}

theorem run_lastAllocated (h : L.run calls = .ok L') (t : ThreadId) :
    L'.lastAllocated t = (callsOf t calls).foldl LogCall.nextLast (L.lastAllocated t) := by
  induction calls generalizing L with
  | nil =>
    obtain rfl := Except.ok.inj h
    rfl
  | cons c calls ih =>
    obtain ⟨L₁, h1, h2⟩ := run_cons.mp h
    obtain ⟨u, c⟩ := c
    rw [ih h2]
    by_cases hu : u = t
    · subst hu
      rw [callsOf_cons_self, List.foldl_cons, perform_lastAllocated h1]
    · rw [callsOf_cons_of_ne hu, perform_lastAllocated_of_ne hu h1]

theorem foldl_nextLast_le {n : ℕ} (hn : n ≤ numEntries) (cs : List LogCall) :
    cs.foldl LogCall.nextLast n ≤ numEntries := by
  induction cs generalizing n with
  | nil => exact hn
  | cons c cs ih => exact ih (c.nextLast_le hn)

/-- The row of a thread after the calls of all threads is its row after its own
    calls. -/
theorem rowOf_run (h : L.run calls = .ok L') (hle : ∀ u, L.lastAllocated u ≤ numEntries)
    (hfree : ∀ u : ThreadId, u.val + 1 = t.val →
      L.lastAllocated u + (callsOf u calls).countP LogCall.isLog < numEntries) :
    L'.rowOf t = (callsOf t calls).foldl Row.next (L.rowOf t) := by
  induction calls generalizing L with
  | nil =>
    obtain rfl := Except.ok.inj h
    rfl
  | cons c calls ih =>
    obtain ⟨L₁, h1, h2⟩ := run_cons.mp h
    obtain ⟨u, c⟩ := c
    dsimp only at h1
    have hle₁ : ∀ v, L₁.lastAllocated v ≤ numEntries := by
      intro v
      by_cases hv : u = v
      · subst hv
        rw [perform_lastAllocated h1]
        exact c.nextLast_le (hle u)
      · rw [perform_lastAllocated_of_ne hv h1]
        exact hle v
    have hfree₁ : ∀ v : ThreadId, v.val + 1 = t.val →
        L₁.lastAllocated v + (callsOf v calls).countP LogCall.isLog < numEntries := by
      intro v hv
      have hlt := hfree v hv
      by_cases huv : u = v
      · subst huv
        have hadd := c.nextLast_le_add (L.lastAllocated u)
        rw [callsOf_cons_self, ← List.singleton_append, List.countP_append] at hlt
        rw [perform_lastAllocated h1]
        omega
      · rw [callsOf_cons_of_ne huv] at hlt
        rw [perform_lastAllocated_of_ne huv h1]
        exact hlt
    rw [ih h2 hle₁ hfree₁]
    by_cases hu : u = t
    · subst hu
      rw [callsOf_cons_self, List.foldl_cons, rowOf_own h1]
    · rw [callsOf_cons_of_ne hu]
      congr 1
      apply rowOf_other hu h1 (hle u)
      intro hnext
      have hlt := hfree u hnext
      have hlt₁ := hfree₁ u hnext
      omega

/-- The file of a thread as a function of its own calls. -/
theorem file_eq (h : init.run calls = .ok L) (hc : Confined t calls) (a : LogArgs) :
    L.fini a t = (Row.after (callsOf t calls)).file t a := by
  have hlast : L.lastAllocated t = lastAfter (callsOf t calls) := run_lastAllocated h t
  have hle : L.lastAllocated t ≤ numEntries := by
    rw [hlast]
    exact foldl_nextLast_le (Nat.zero_le _) _
  rw [fini_eq hle (fun ht => hlast ▸ hc.2 ht), rowOf_run h (fun _ => Nat.zero_le _) (by
    intro u hu
    rw [show init.lastAllocated u = 0 from rfl, Nat.zero_add]
    exact hc.1 u hu)]
  have hinit : init.rowOf t = ⟨[], 0, fun _ => .zero⟩ := by
    unfold rowOf
    simp only [Row.mk.injEq]
    refine ⟨rfl, rfl, ?_⟩
    funext i
    split_ifs <;> rfl
  rw [hinit]
  rfl

/-- **The threads are apart.** Two interleavings with the same calls of thread `t`
    leave the same file, if in both of them the thread of the row before never fills
    its row and, for thread 0, the row is not full at the end. -/
theorem file_eq_file {calls' : List (ThreadId × LogCall)} {a a' : LogArgs}
    (h : init.run calls = .ok L) (h' : init.run calls' = .ok L')
    (hown : callsOf t calls = callsOf t calls') (ha : t = 0 → a = a') (hc : Confined t calls)
    (hc' : Confined t calls') : L.fini a t = L'.fini a' t := by
  rw [file_eq h hc, file_eq h' hc', ← hown]
  unfold Row.file
  split_ifs with ht
  · rw [ha ht]
  · rfl

/-! ## Threads that do disturb each other -/

/-- Calls of `log` that do not overrun the row. -/
theorem run_logs (ht : t.val ≠ 31) (as : List LogArgs)
    (hlen : L.lastAllocated t + as.length ≤ numEntries) :
    ∃ L', L.run (as.map fun a => (t, .log a)) = .ok L' ∧
      L'.lastAllocated t = L.lastAllocated t + as.length ∧
      (∀ u ≠ t, L'.lastAllocated u = L.lastAllocated u) ∧ L'.report = L.report ∧
      (as ≠ [] → (L'.entry t (L'.lastAllocated t)).work = 0) := by
  induction as using List.reverseRecOn with
  | nil => exact ⟨L, rfl, rfl, fun _ _ => rfl, rfl, fun h => absurd rfl h⟩
  | append_singleton as a ih =>
    rw [List.length_append, List.length_singleton] at hlen
    obtain ⟨L₁, h1, hlast, hother, hreport, -⟩ := ih (by omega)
    have hflush : L₁.flush t = .ok L₁ := flush_eq_ok.mpr (.inl ⟨by omega, rfl⟩)
    have hlog : L₁.log t a = .ok _ :=
      log_eq_ok.mpr ⟨L₁, hflush, slot_numEntries_lt t (by omega) ht, rfl⟩
    rw [List.map_append]
    refine ⟨_, run_append.mpr ⟨L₁, h1, run_cons.mpr ⟨_, hlog, rfl⟩⟩, ?_, ?_, hreport, ?_⟩
    · rw [put_lastAllocated, setLast_lastAllocated_self, hlast, List.length_append,
        List.length_singleton, Nat.add_assoc]
    · intro u hu
      rw [put_lastAllocated, setLast_lastAllocated_of_ne _ hu]
      exact hother u hu
    · intro _
      rw [put_lastAllocated, setLast_lastAllocated_self, put_entry_self]
      rfl

/-- Thread 1 logs once, and thread 0 makes the calls `as` of `log`. -/
def oneLog (b : LogArgs) : List (ThreadId × LogCall) := [(1, .log b)]

def zeroLogs (as : List LogArgs) : List (ThreadId × LogCall) := as.map fun a => (0, .log a)

theorem callsOf_zeroLogs (as : List LogArgs) : callsOf 1 (zeroLogs as) = [] := by
  unfold callsOf zeroLogs
  rw [List.map_eq_nil_iff, List.filter_eq_nil_iff]
  rintro c hc
  obtain ⟨a, -, rfl⟩ := List.mem_map.mp hc
  simp

theorem callsOf_append (t : ThreadId) (calls calls' : List (ThreadId × LogCall)) :
    callsOf t (calls ++ calls') = callsOf t calls ++ callsOf t calls' := by
  unfold callsOf
  rw [List.filter_append, List.map_append]

/-- Both orders run. -/
theorem run_oneLog_zeroLogs (as : List LogArgs) (hlen : as.length ≤ numEntries) (b : LogArgs) :
    (∃ L, init.run (oneLog b ++ zeroLogs as) = .ok L) ∧
      ∃ L, init.run (zeroLogs as ++ oneLog b) = .ok L := by
  have h0 : init.lastAllocated 0 = 0 := rfl
  have hone : 0 + [b].length ≤ numEntries := by
    rw [List.length_singleton]
    decide
  constructor
  · obtain ⟨L₁, h1, -, hother, -⟩ := run_logs (L := init) (t := 1) (by decide) [b] hone
    have hlast : L₁.lastAllocated 0 = 0 := hother 0 (by decide)
    obtain ⟨L₂, h2, -⟩ := run_logs (L := L₁) (t := 0) (by decide) as (by omega)
    exact ⟨L₂, run_append.mpr ⟨L₁, h1, h2⟩⟩
  · obtain ⟨L₁, h1, -, hother, -⟩ := run_logs (L := init) (t := 0) (by decide) as (by omega)
    have hlast : L₁.lastAllocated 1 = 0 := hother 1 (by decide)
    obtain ⟨L₂, h2, -⟩ := run_logs (L := L₁) (t := 1) (by decide) [b] (by rwa [hlast])
    exact ⟨L₂, run_append.mpr ⟨L₁, h1, h2⟩⟩

/-- Two threads that log once each, in both orders. -/
theorem twoLogs_file : ∃ L L',
    init.run (oneLog ⟨3, 1, 5, .step, 0⟩ ++ zeroLogs [⟨2, 1, 4, .step, 0⟩]) = .ok L ∧
    init.run (zeroLogs [⟨2, 1, 4, .step, 0⟩] ++ oneLog ⟨3, 1, 5, .step, 0⟩) = .ok L' ∧
    L.fini ⟨4, 1, 0, .step, 0⟩ 1 = L'.fini ⟨4, 1, 0, .step, 0⟩ 1 := by
  obtain ⟨⟨L, h⟩, L', h'⟩ := run_oneLog_zeroLogs [⟨2, 1, 4, .step, 0⟩] (by decide)
    ⟨3, 1, 5, .step, 0⟩
  refine ⟨L, L', h, h', file_eq_file h h' rfl (fun _ => rfl) ⟨?_, ?_⟩ ⟨?_, ?_⟩⟩
  · intro u hu
    obtain rfl : u = 0 := by
      apply Fin.ext
      have : (1 : ThreadId).val = 1 := rfl
      omega
    decide
  · intro h
    exact absurd h (by decide)
  · intro u hu
    obtain rfl : u = 0 := by
      apply Fin.ext
      have : (1 : ThreadId).val = 1 := rfl
      omega
    decide
  · intro h
    exact absurd h (by decide)

/-- The file of a thread that has used one entry of its row. -/
theorem fini_one (hreport : L.report 1 = []) (hlast : L.lastAllocated 1 = 1) (a : LogArgs) :
    L.fini a 1 = [L.entry 0 numEntries] := by
  have hslot : L.entry 1 0 = L.entry 0 numEntries := congrArg L.stepWorkList (by decide)
  unfold fini
  rw [hreport, hlast, row_succ, hslot, if_neg (by decide), List.append_nil]
  rfl

/-- The line of thread 1 has lost its work if thread 0 fills its row afterwards. -/
theorem file_oneLog_zeroLogs {as : List LogArgs} (hlen : as.length = numEntries) {b a : LogArgs}
    (h : init.run (oneLog b ++ zeroLogs as) = .ok L) : (L.fini a 1).map StepWorkData.work = [0] := by
  obtain ⟨L₁, h1, h2⟩ := run_append.mp h
  obtain ⟨L₁', h1', hlast₁, hother₁, hreport₁, -⟩ := run_logs (L := init) (t := 1) (by decide)
    [b] (by rw [List.length_singleton]; decide)
  obtain rfl : L₁' = L₁ := Except.ok.inj (h1'.symm.trans h1)
  have h0 : L₁'.lastAllocated 0 = 0 := hother₁ 0 (by decide)
  obtain ⟨L₂, h2', hlast₂, hother₂, hreport₂, hwork⟩ := run_logs (L := L₁') (t := 0) (by decide)
    as (by omega)
  obtain rfl : L₂ = L := Except.ok.inj (h2'.symm.trans h2)
  have hne : as ≠ [] := List.length_pos_iff.mp (by rw [hlen]; decide)
  rw [fini_one (by rw [hreport₂, hreport₁]; rfl) ((hother₂ 1 (by decide)).trans hlast₁),
    List.map_singleton, ← hwork hne, hlast₂, h0, hlen, Nat.zero_add]

/-- It has its work if thread 0 fills its row before. -/
theorem file_zeroLogs_oneLog {as : List LogArgs} (hlen : as.length = numEntries) {b a : LogArgs}
    (h : init.run (zeroLogs as ++ oneLog b) = .ok L) :
    (L.fini a 1).map StepWorkData.work = [b.work] := by
  obtain ⟨L₁, h1, h2⟩ := run_append.mp h
  have h0 : init.lastAllocated 0 = 0 := rfl
  obtain ⟨L₁', h1', hlast₁, hother₁, hreport₁, hwork⟩ := run_logs (L := init) (t := 0) (by decide)
    as (by omega)
  obtain rfl : L₁' = L₁ := Except.ok.inj (h1'.symm.trans h1)
  have hlast : L₁'.lastAllocated 1 = 0 := hother₁ 1 (by decide)
  have hne : as ≠ [] := List.length_pos_iff.mp (by rw [hlen]; decide)
  have hclear : (L₁'.entry 1 0).work = 0 := by
    have hslot : L₁'.entry 1 0 = L₁'.entry 0 numEntries := congrArg L₁'.stepWorkList (by decide)
    rw [hslot, ← hwork hne, hlast₁, h0, hlen, Nat.zero_add]
  obtain ⟨L₂, hlog, h3⟩ := run_cons.mp h2
  obtain rfl := Except.ok.inj h3
  obtain ⟨L₃, hflush, -, hL⟩ := log_eq_ok.mp hlog
  have hnf : L₁'.flush 1 = .ok L₁' := flush_eq_ok.mpr (.inl ⟨by rw [hlast]; decide, rfl⟩)
  obtain rfl : L₁' = L₃ := Except.ok.inj (hnf.symm.trans hflush)
  dsimp only at hL
  rw [hlast] at hL
  have hreport : L₂.report 1 = [] := by
    rw [hL, put_report, setLast_report, put_report, hreport₁]
    rfl
  have hone : L₂.lastAllocated 1 = 1 := by
    rw [hL, put_lastAllocated, setLast_lastAllocated_self]
  have hslot : L₂.entry 0 numEntries = L₂.entry 1 0 := congrArg L₂.stepWorkList (by decide)
  rw [fini_one hreport hone, hslot, hL, put_entry_of_ne _ (by decide), setLast_entry,
    put_entry_self]
  show [(L₁'.entry 1 0).work + b.work] = [b.work]
  rw [hclear, zero_add]

/-- The row of thread 0 is full. -/
def zeroRow : List LogArgs :=
  (List.range numEntries).map fun i => ⟨BitVec.ofNat 64 (i + 4), 1, 1, .step, 0⟩

/-- When thread 0 fills its row after thread 1 has logged, the work that thread 1
    has logged is cleared. -/
theorem not_file_eq_file : ¬∀ (t : ThreadId) (calls calls' : List (ThreadId × LogCall))
    (L L' : TaskLogger) (a : LogArgs), init.run calls = .ok L → init.run calls' = .ok L' →
      callsOf t calls = callsOf t calls' → L.fini a t = L'.fini a t := by
  intro hall
  have hlen : zeroRow.length = numEntries := by
    unfold zeroRow
    rw [List.length_map, List.length_range]
  let b : LogArgs := ⟨3, 1, 5, .step, 0⟩
  obtain ⟨⟨L, h⟩, L', h'⟩ := run_oneLog_zeroLogs _ hlen.le b
  have hfile := hall 1 _ _ L L' b h h' (by
    rw [callsOf_append, callsOf_append, callsOf_zeroLogs, List.append_nil, List.nil_append])
  have hworks := congrArg (List.map StepWorkData.work) hfile
  rw [file_oneLog_zeroLogs hlen h, file_zeroLogs_oneLog hlen h'] at hworks
  exact absurd hworks (by decide)

end Runs

end TaskLogger

end TaskProf.Collection
