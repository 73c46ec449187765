import TaskProf.Collection.Unbuffered

/-!
# Work and regions of an entry

The work of an entry and the work of its regions are kept by different calls.
For the callbacks of one thread the regions never have more work than the entry,
also where what is pending behind a full row is lost.

* `StepWorkData.Bounded`: the regions of an entry have no more work than the entry.
* `capture_bounded`: so it is for every entry and every line after any callbacks.
* `Bounded.fini`: and for every line in the files.
-/

namespace TaskProf.Collection

namespace StepWorkData

/-- The work of the regions. -/
def regionSum (e : StepWorkData) : ℕ :=
  match e.regionWork with
  | none => 0
  | some m => (m.entries.map fun r => r.2.toNat).sum

/-- The regions have no more work than the entry, and the entry no more than
    `total`. -/
structure Bounded (e : StepWorkData) (total : ℕ) : Prop where
  regions : e.regionSum ≤ e.work.toNat
  work : e.work.toNat ≤ total

section Bounds

variable {e : StepWorkData} {total : ℕ}

theorem Bounded.mono (h : e.Bounded total) {total' : ℕ} (hle : total ≤ total') :
    e.Bounded total' :=
  ⟨h.regions, h.work.trans hle⟩

theorem bounded_zero (total : ℕ) : zero.Bounded total := ⟨le_rfl, Nat.zero_le _⟩

theorem bounded_clear (e : StepWorkData) (total : ℕ) : e.clear.Bounded total :=
  ⟨le_rfl, Nat.zero_le _⟩

theorem toNat_add_eq {a b : SizeT} (h : a.toNat + b.toNat < 2 ^ 64) :
    (a + b).toNat = a.toNat + b.toNat := by
  rw [BitVec.toNat_add, Nat.mod_eq_of_lt h]

theorem Bounded.assign (h : e.Bounded total) {a : LogArgs} (ha : total + a.work.toNat < 2 ^ 64) :
    (e.assign a).Bounded (total + a.work.toNat) := by
  have hle := h.work
  have hr := h.regions
  have hwork : (e.work + a.work).toNat = e.work.toNat + a.work.toNat := toNat_add_eq (by omega)
  refine ⟨?_, ?_⟩
  · show e.regionSum ≤ (e.work + a.work).toNat
    omega
  · show (e.work + a.work).toNat ≤ _
    omega

theorem regionSum_addRegion (e : StepWorkData) (returnAddress count : SizeT) :
    (e.addRegion returnAddress count).regionSum ≤ e.regionSum + count.toNat := by
  have hf : ∀ a b : SizeT, (a + b).toNat ≤ a.toNat + b.toNat := by
    intro a b
    rw [BitVec.toNat_add]
    exact Nat.mod_le _ _
  unfold addRegion regionSum
  cases e.regionWork with
  | none => exact AccMap.sum_bump_le hf returnAddress count []
  | some m => exact AccMap.sum_bump_le hf returnAddress count m.entries

/-- The end of a region adds as much to the work as to the regions. -/
theorem Bounded.assign_addRegion (h : e.Bounded total) {a : LogArgs}
    (ha : total + a.work.toNat < 2 ^ 64) (returnAddress : SizeT) :
    ((e.assign a).addRegion returnAddress a.work).Bounded (total + a.work.toNat) := by
  have hle := h.work
  have hr := h.regions
  have hwork : (e.work + a.work).toNat = e.work.toNat + a.work.toNat := toNat_add_eq (by omega)
  have hsum := regionSum_addRegion (e.assign a) returnAddress a.work
  have hassign : (e.assign a).regionSum = e.regionSum := rfl
  refine ⟨?_, ?_⟩
  · show _ ≤ (e.work + a.work).toNat
    omega
  · show (e.work + a.work).toNat ≤ _
    omega

end Bounds

end StepWorkData

namespace TaskLogger

/-- Every entry and every line is bounded. -/
structure Bounded (L : TaskLogger) (total : ℕ) : Prop where
  entries : ∀ k, (L.stepWorkList k).Bounded total
  lines : ∀ t, ∀ e ∈ L.report t, e.Bounded total

section Steps

variable {L L' : TaskLogger} {t : ThreadId} {total : ℕ}

theorem Bounded.mono (h : L.Bounded total) {total' : ℕ} (hle : total ≤ total') :
    L.Bounded total' :=
  ⟨fun k => (h.entries k).mono hle, fun t e he => (h.lines t e he).mono hle⟩

theorem bounded_init : init.Bounded 0 :=
  ⟨fun _ => StepWorkData.bounded_zero 0, fun _ _ he => absurd he List.not_mem_nil⟩

theorem Bounded.put (h : L.Bounded total) {i : ℕ} {e : StepWorkData} (he : e.Bounded total) :
    (L.put t i e).Bounded total := by
  refine ⟨fun k => ?_, h.lines⟩
  show (Function.update L.stepWorkList (slot t i) e k).Bounded total
  by_cases hk : k = slot t i
  · rw [hk, Function.update_self]
    exact he
  · rw [Function.update_of_ne hk]
    exact h.entries k

theorem Bounded.setLast (h : L.Bounded total) (n : ℕ) : (L.setLast t n).Bounded total :=
  ⟨h.entries, h.lines⟩

theorem Bounded.row (h : L.Bounded total) (n : ℕ) : ∀ e ∈ L.row t n, e.Bounded total := by
  intro e he
  obtain ⟨i, -, rfl⟩ := mem_row.mp he
  exact h.entries _

theorem Bounded.flush (h : L.Bounded total) (hrun : L.flush t = .ok L') : L'.Bounded total := by
  rcases flush_eq_ok.mp hrun with ⟨-, rfl⟩ | ⟨-, -, rfl⟩
  · exact h
  · have hlines : ∀ u, ∀ e ∈ Function.update L.report t (L.report t ++ L.row t numEntries) u,
        e.Bounded total := by
      intro u e he
      by_cases hu : u = t
      · rw [hu, Function.update_self] at he
        rcases List.mem_append.mp he with he | he
        · exact h.lines t e he
        · exact h.row numEntries e he
      · rw [Function.update_of_ne hu] at he
        exact h.lines u e he
    have hreport : Bounded
        { L with report := Function.update L.report t (L.report t ++ L.row t numEntries) } total :=
      ⟨h.entries, hlines⟩
    exact (hreport.setLast 0).put (StepWorkData.bounded_clear _ _)

/-- One callback adds its cycles. -/
theorem Bounded.capture (h : L.Bounded total) {c : Callback}
    (hc : total + c.work.toNat < 2 ^ 64) (hrun : L.capture t [c] = .ok L') :
    L'.Bounded (total + c.work.toNat) := by
  cases c with
  | log a =>
    rw [capture_log] at hrun
    obtain ⟨L₁, h1, -, rfl⟩ := log_eq_ok.mp hrun
    have hb := h.flush h1
    exact (((hb.mono (Nat.le_add_right ..)).put ((hb.entries _).assign hc)).setLast _).put
      (StepWorkData.bounded_clear _ _)
  | beginOptimize nodeId parent count =>
    rw [capture_beginOptimize] at hrun
    obtain ⟨L₁, h1, -, rfl⟩ := logIntermediateStep_eq_ok.mp hrun
    have hb := h.flush h1
    exact (hb.mono (Nat.le_add_right ..)).put ((hb.entries _).assign hc)
  | endOptimize nodeId parent count returnAddress =>
    obtain ⟨-, rfl⟩ := capture_endOptimize_eq_ok.mp hrun
    exact (h.mono (Nat.le_add_right ..)).put ((h.entries _).assign_addRegion hc returnAddress)

end Steps

/-- All cycles that the callbacks account for. -/
def totalWork (cs : List Callback) : ℕ := (cs.map fun c => c.work.toNat).sum

theorem totalWork_concat (cs : List Callback) (c : Callback) :
    totalWork (cs ++ [c]) = totalWork cs + c.work.toNat := by
  unfold totalWork
  rw [List.map_append, List.sum_append]
  simp

/-- The bound holds after every sequence of callbacks of a thread. -/
theorem capture_bounded {L : TaskLogger} {t : ThreadId} {cs : List Callback}
    (hrun : init.capture t cs = .ok L) (htotal : totalWork cs < 2 ^ 64) :
    L.Bounded (totalWork cs) := by
  induction cs using List.reverseRecOn generalizing L with
  | nil =>
    obtain rfl := Except.ok.inj hrun
    exact bounded_init
  | append_singleton cs c ih =>
    obtain ⟨L₁, h1, h2⟩ := capture_append.mp hrun
    rw [totalWork_concat] at htotal ⊢
    exact (ih h1 (by omega)).capture htotal h2

/-- Every line in the files is bounded, those of full rows and those of `Fini`. -/
theorem Bounded.fini {L : TaskLogger} {total : ℕ} (h : L.Bounded total) {a : LogArgs}
    (ha : total + a.work.toNat < 2 ^ 64) (t : ThreadId) :
    ∀ e ∈ L.fini a t, e.Bounded (total + a.work.toNat) := by
  have hm := h.mono (Nat.le_add_right total a.work.toNat)
  intro e he
  unfold TaskLogger.fini at he
  rcases List.mem_append.mp he with he | he
  · rcases List.mem_append.mp he with he | he
    · exact hm.lines t e he
    · exact hm.row _ e he
  · split_ifs at he
    · rw [List.mem_singleton.mp he]
      exact (h.entries (slot 0 (L.lastAllocated 0))).assign ha
    · cases he

end TaskLogger

end TaskProf.Collection
