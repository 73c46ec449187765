import TaskProf.Collection.Operations
import TaskProf.Exchange.StepWork

/-!
# The files of a short run

As long as no thread fills its row, no row is flushed and none disturbs its
neighbour: the files hold the entries that the task graph has logged.

* `Holds`: what the rows hold after the calls so far.
* `run_logCalls`: the logger takes every call.
* `Holds.fini`: the files that `Fini` leaves.
* `entriesOf_linesOf`: together they have the line of every entry.
-/

namespace TaskProf.Collection

/-- What is printed for an entry. -/
def LogEntry.data (e : LogEntry) : StepWorkData := StepWorkData.zero.assign e.args

@[simp] theorem LogEntry.data_nodeId (e : LogEntry) :
    e.data.nodeId = BitVec.ofNat 64 e.nodeId := rfl

@[simp] theorem LogEntry.data_stepParent (e : LogEntry) :
    e.data.stepParent = BitVec.ofNat 64 e.parent := rfl

@[simp] theorem LogEntry.data_nodeType (e : LogEntry) : e.data.nodeType = e.nodeType := rfl

@[simp] theorem LogEntry.data_retAddr (e : LogEntry) : e.data.retAddr = e.retAddr := rfl

@[simp] theorem LogEntry.data_regionWork (e : LogEntry) : e.data.regionWork = none := rfl

@[simp] theorem LogEntry.data_work (e : LogEntry) : e.data.work = e.work := BitVec.zero_add _

/-- The calls of `log`, by all threads. -/
def logCalls (log : List LogEntry) : List (ThreadId × LogCall) :=
  log.map fun e => (e.threadid, .log e.args)

/-- The entries of thread `t`. -/
def linesOf (log : List LogEntry) (t : ThreadId) : List StepWorkData :=
  (log.filter fun e => e.threadid = t).map LogEntry.data

/-- No thread fills its row. -/
def Short (log : List LogEntry) : Prop :=
  ∀ t, (log.filter fun e => e.threadid = t).length < numEntries

theorem linesOf_concat (log : List LogEntry) (e : LogEntry) (t : ThreadId) :
    linesOf (log ++ [e]) t = linesOf log t ++ if e.threadid = t then [e.data] else [] := by
  unfold linesOf
  rw [List.filter_append, List.map_append]
  by_cases ht : e.threadid = t
  · rw [if_pos ht, List.filter_singleton, decide_eq_true ht]
    rfl
  · rw [if_neg ht, List.filter_singleton, decide_eq_false ht]
    rfl

theorem Short.of_concat {log : List LogEntry} {e : LogEntry} (h : Short (log ++ [e])) :
    Short log ∧ (linesOf log e.threadid).length + 1 < numEntries := by
  constructor
  · intro t
    have := h t
    rw [List.filter_append, List.length_append] at this
    omega
  · have := h e.threadid
    rw [List.filter_append, List.length_append, List.filter_singleton, decide_eq_true rfl] at this
    rw [linesOf, List.length_map]
    exact this

namespace TaskLogger

/-- The rows hold the lines of `log`, and nothing has been printed. -/
structure Holds (L : TaskLogger) (log : List LogEntry) : Prop where
  report : ∀ t, L.report t = []
  lastAllocated : ∀ t, L.lastAllocated t = (linesOf log t).length
  entry : ∀ t i, i < numEntries → L.entry t i = (linesOf log t).getD i .zero

theorem holds_init : init.Holds [] := ⟨fun _ => rfl, fun _ => rfl, fun _ _ _ => rfl⟩

variable {L : TaskLogger} {log : List LogEntry}

/-- One more entry. -/
theorem Holds.append (h : L.Holds log) {e : LogEntry}
    (hlt : (linesOf log e.threadid).length + 1 < numEntries) :
    ∃ L', L.log e.threadid e.args = .ok L' ∧ L'.Holds (log ++ [e]) := by
  set n := (linesOf log e.threadid).length with hn
  have hlast : L.lastAllocated e.threadid = n := h.lastAllocated _
  have hflush : L.flush e.threadid = .ok L := flush_eq_ok.mpr (.inl ⟨by omega, rfl⟩)
  -- the entry and the one behind it are unused
  have hfree : ∀ i, n ≤ i → i < numEntries → L.entry e.threadid i = .zero := by
    intro i hi hi'
    rw [h.entry _ _ hi', List.getD_eq_default _ _ hi]
  refine ⟨_, log_eq_ok.mpr ⟨L, hflush, slot_lt _ (by omega), rfl⟩, ?_, ?_, ?_⟩
  · exact h.report
  · intro t
    rw [put_lastAllocated, linesOf_concat, List.length_append]
    by_cases ht : t = e.threadid
    · subst ht
      rw [setLast_lastAllocated_self, if_pos rfl, hlast]
      rfl
    · rw [setLast_lastAllocated_of_ne _ ht, if_neg (Ne.symm ht)]
      exact h.lastAllocated t
  · intro t i hi
    rw [hlast, hfree n le_rfl (by omega), hfree (n + 1) (by omega) hlt, linesOf_concat]
    by_cases ht : t = e.threadid
    · subst ht
      rw [if_pos rfl]
      rcases Nat.lt_trichotomy i n with hin | rfl | hin
      · have h1 : slot e.threadid i ≠ slot e.threadid (n + 1) := by unfold slot; omega
        have h2 : slot e.threadid i ≠ slot e.threadid n := by unfold slot; omega
        rw [put_entry_of_ne _ h1, setLast_entry, put_entry_of_ne _ h2, h.entry _ _ hi,
          List.getD_append _ _ _ _ hin]
      · have h1 : slot e.threadid n ≠ slot e.threadid (n + 1) := by unfold slot; omega
        rw [put_entry_of_ne _ h1, setLast_entry, put_entry_self,
          List.getD_append_right _ _ _ _ le_rfl, Nat.sub_self]
        rfl
      · rw [List.getD_eq_default _ _ (by rw [List.length_append, List.length_singleton]; omega)]
        by_cases hin' : i = n + 1
        · rw [hin', put_entry_self]
          rfl
        · have h1 : slot e.threadid i ≠ slot e.threadid (n + 1) := by unfold slot; omega
          have h2 : slot e.threadid i ≠ slot e.threadid n := by unfold slot; omega
          rw [put_entry_of_ne _ h1, setLast_entry, put_entry_of_ne _ h2]
          exact hfree i hin.le hi
    · have hne : ∀ j, j < numEntries → slot t i ≠ slot e.threadid j := by
        intro j hj heq
        exact ht ((slot_inj hi.le hj (fun _ => hi.ne)).mp heq).1
      rw [put_entry_of_ne _ (hne _ hlt), setLast_entry, put_entry_of_ne _ (hne _ (by omega)),
        if_neg (Ne.symm ht), List.append_nil]
      exact h.entry t i hi

/-- **The logger takes every call** of a short run. -/
theorem run_logCalls (h : Short log) :
    ∃ L, init.run (logCalls log) = .ok L ∧ L.Holds log := by
  induction log using List.reverseRecOn with
  | nil => exact ⟨init, rfl, holds_init⟩
  | append_singleton log e ih =>
    obtain ⟨hshort, hlt⟩ := h.of_concat
    obtain ⟨L, hrun, hL⟩ := ih hshort
    obtain ⟨L', hlog, hL'⟩ := hL.append hlt
    refine ⟨L', ?_, hL'⟩
    rw [logCalls, List.map_append]
    exact run_append.mpr ⟨L, hrun, run_cons.mpr ⟨L', hlog, rfl⟩⟩

/-- The files hold the lines of the threads, and the line of `Fini`. -/
theorem Holds.fini (h : L.Holds log) (hshort : Short log) {d : LogEntry} (hd : d.threadid = 0) :
    L.fini d.args = linesOf (log ++ [d]) := by
  have hlen : ∀ t, (linesOf log t).length < numEntries := by
    intro t
    rw [linesOf, List.length_map]
    exact hshort t
  funext t
  have hrow : L.row t (L.lastAllocated t) = linesOf log t := by
    apply List.ext_getElem
    · rw [row, List.length_map, List.length_range, h.lastAllocated]
    · intro i h1 h2
      have hi := h2.trans (hlen t)
      simp only [row, List.getElem_map, List.getElem_range]
      rw [h.entry t i hi, List.getD_eq_getElem _ _ h2]
  have hline : L.finiLine d.args = d.data := by
    have hzero : L.entry 0 (L.lastAllocated 0) = .zero := by
      rw [h.lastAllocated, h.entry 0 _ (hlen 0), List.getD_eq_default _ _ le_rfl]
    rw [finiLine, hzero]
    rfl
  rw [TaskLogger.fini, h.report, hrow, hline, List.nil_append, linesOf_concat, hd]
  simp only [eq_comm]

end TaskLogger

end TaskProf.Collection

namespace TaskProf.Analysis

open Collection (LogEntry ThreadId linesOf)

/-- Every entry is in the file of its thread. -/
theorem flatMap_filter_perm (l : List LogEntry) :
    ((List.finRange 32).flatMap fun t => l.filter fun e => e.threadid = t).Perm l := by
  rw [List.perm_iff_count]
  intro e
  rw [List.count_flatMap]
  have hcount : ∀ t : ThreadId,
      List.count e (l.filter fun e => e.threadid = t) = if t = e.threadid then l.count e else 0 := by
    intro t
    split_ifs with ht
    · exact List.count_filter (decide_eq_true ht.symm)
    · rw [List.count_eq_zero]
      intro he
      exact ht (of_decide_eq_true (List.mem_filter.mp he).2).symm
  have hsum : ∑ t : ThreadId, (if t = e.threadid then l.count e else 0) = l.count e := by
    rw [Finset.sum_ite_eq', if_pos (Finset.mem_univ _)]
  rw [Fin.sum_univ_def] at hsum
  refine Eq.trans ?_ hsum
  exact congrArg List.sum (List.map_congr_left fun t _ => hcount t)

/-- The files have the line of every entry. -/
theorem entriesOf_linesOf (log : List LogEntry) :
    (entriesOf (linesOf log)).Perm (log.map LogEntry.data) := by
  have hmap : entriesOf (linesOf log) =
      ((List.finRange 32).flatMap fun t => log.filter fun e => e.threadid = t).map
        LogEntry.data := by
    rw [List.map_flatMap]
    rfl
  rw [hmap]
  exact (flatMap_filter_perm log).map _

end TaskProf.Analysis
