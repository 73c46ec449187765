import TaskProf.Collection.TaskGraph
import TaskProf.Lib.AccMap
import TaskProf.Lib.Text

/-!
# The logger of the collection phase

`collection_phase/src/Task_Logger.cpp` and `include/Task_Logger.H`. Each thread
fills a row of `step_work_list` and writes it to its file when it is full. The
rows lie one after the other in memory, so that entry `NUM_ENTRIES` of a row is
the first entry of the next row; behind the last row ends the array.

A file is the list of the entries printed to it; `StepWorkData.line` is the text
that is printed for one.
-/

namespace TaskProf.Collection

/-- `std::unordered_map<size_t, size_t>` from regions to work. -/
abbrev RegionWork := AccMap SizeT SizeT

/-- `struct step_work_data`. `region_work` is never shared, so it is the map
    itself. -/
structure StepWorkData where
  stepParent : SizeT
  work : SizeT
  nodeId : SizeT
  nodeType : NodeType
  retAddr : SizeT
  regionWork : Option RegionWork

/-- The arguments that `log`, `log_intermediate_step`, `buffer_info` and `Fini`
    have in common. -/
structure LogArgs where
  nodeId : SizeT
  parent : SizeT
  work : SizeT
  nodeType : NodeType
  retAddr : SizeT

namespace StepWorkData

/-- The initial value of an entry. -/
def zero : StepWorkData := ⟨0, 0, 0, .noType, 0, none⟩

/-- The assignments that `log` (lines 51–57), `log_intermediate_step` (lines
    103–109) and `buffer_info` (lines 118–123) make. -/
def assign (e : StepWorkData) (a : LogArgs) : StepWorkData :=
  { e with
    nodeId := a.nodeId
    stepParent := a.parent
    nodeType := a.nodeType
    retAddr := a.retAddr
    work := e.work + a.work }

/-- `work = 0`, and `region_work` is deleted if there is one. -/
def clear (e : StepWorkData) : StepWorkData := { e with work := 0, regionWork := none }

/-- Lines 128–138: a region that is new gets an entry of the map, the amount is
    added otherwise. -/
def addRegion (e : StepWorkData) (returnAddress work : SizeT) : StepWorkData :=
  { e with regionWork := some ((e.regionWork.getD .empty).add returnAddress work) }

/-- What is printed after the first field, separated by commas: the other fields
    and the regions, in the order of iteration. -/
def fields (e : StepWorkData) : List (List Char) :=
  [decimal e.stepParent.toNat, decimal e.nodeType.code, decimal e.retAddr.toNat,
    decimal e.work.toNat] ++
  match e.regionWork with
  | none => []
  | some m => m.entries.flatMap fun r => [decimal r.1.toNat, decimal r.2.toNat]

/-- One line of a file (lines 25–37, 77–89, 148–160 and 166–177), without the
    `std::endl`. -/
def line (e : StepWorkData) : List Char :=
  decimal e.nodeId.toNat ++ e.fields.flatMap fun f => ',' :: f

end StepWorkData

/-- The text of a file: every line ends with `std::endl`. -/
def fileText (es : List StepWorkData) : List Char := es.flatMap fun e => e.line ++ ['\n']

/-- `NUM_ENTRIES`. -/
def numEntries : ℕ := 1024

/-- `class Task_Logger`: the lines written to the files, and the rows one after
    the other. -/
structure TaskLogger where
  report : ThreadId → List StepWorkData
  lastAllocated : ThreadId → ℕ
  stepWorkList : ℕ → StepWorkData

/-- The calls of a thread to its logger. -/
inductive LogCall
  | log (a : LogArgs)
  | logIntermediateStep (a : LogArgs)
  | bufferInfo (a : LogArgs)
  | logRegionWork (returnAddress work : SizeT)

namespace TaskLogger

/-! ## The source functions -/

/-- The constructor. -/
def init : TaskLogger := ⟨fun _ => [], fun _ => 0, fun _ => .zero⟩

/-- Where `step_work_list[threadid][i]` lies. -/
def slot (t : ThreadId) (i : ℕ) : ℕ := numEntries * t + i

/-- `step_work_list[threadid][i]`, inside the array. -/
def entry (L : TaskLogger) (t : ThreadId) (i : ℕ) : StepWorkData := L.stepWorkList (slot t i)

/-- Read `step_work_list[threadid][i]`. -/
def readEntry (L : TaskLogger) (t : ThreadId) (i : ℕ) : Except Fault StepWorkData :=
  if slot t i < 32 * numEntries then .ok (L.entry t i) else .error .outOfBounds

/-- Change `step_work_list[threadid][i]`. -/
def modifyEntry (L : TaskLogger) (t : ThreadId) (i : ℕ) (f : StepWorkData → StepWorkData) :
    Except Fault TaskLogger := do
  let e ← L.readEntry t i
  .ok { L with stepWorkList := Function.update L.stepWorkList (slot t i) (f e) }

/-- The entries of row `t` below `n`. -/
def row (L : TaskLogger) (t : ThreadId) (n : ℕ) : List StepWorkData :=
  (List.range n).map (L.entry t)

/-- Set `last_allocated[threadid]`. -/
def setLast (L : TaskLogger) (t : ThreadId) (n : ℕ) : TaskLogger :=
  { L with lastAllocated := Function.update L.lastAllocated t n }

/-- Lines 22–49 and 74–101: a full row is printed, and the first entry cleared.
    Only a STEP may have regions (lines 32 and 84). -/
def flush (L : TaskLogger) (t : ThreadId) : Except Fault TaskLogger :=
  if L.lastAllocated t = numEntries then
    if ∀ e ∈ L.row t numEntries, e.regionWork.isSome = true → e.nodeType = .step then
      let report := Function.update L.report t (L.report t ++ L.row t numEntries)
      ({ L with report := report }.setLast t 0).modifyEntry t 0 .clear
    else .error .assertion
  else .ok L

/-- `log` (lines 15–65). -/
def log (L : TaskLogger) (t : ThreadId) (a : LogArgs) : Except Fault TaskLogger := do
  let L ← L.flush t
  let L ← L.modifyEntry t (L.lastAllocated t) fun e => e.assign a
  let L := L.setLast t (L.lastAllocated t + 1)
  L.modifyEntry t (L.lastAllocated t) .clear

/-- `log_intermediate_step` (lines 67–110). -/
def logIntermediateStep (L : TaskLogger) (t : ThreadId) (a : LogArgs) :
    Except Fault TaskLogger := do
  let L ← L.flush t
  L.modifyEntry t (L.lastAllocated t) fun e => e.assign a

/-- `buffer_info` (lines 112–124). -/
def bufferInfo (L : TaskLogger) (t : ThreadId) (a : LogArgs) : Except Fault TaskLogger :=
  L.modifyEntry t (L.lastAllocated t) fun e => e.assign a

/-- `log_region_work` (lines 126–139). -/
def logRegionWork (L : TaskLogger) (t : ThreadId) (returnAddress work : SizeT) :
    Except Fault TaskLogger := do
  let e ← L.readEntry t (L.lastAllocated t)
  if e.nodeType = .step then
    L.modifyEntry t (L.lastAllocated t) fun e => e.addRegion returnAddress work
  else .error .assertion

/-- The line that `Fini` prints for itself (lines 166–179). -/
def finiLine (L : TaskLogger) (a : LogArgs) : StepWorkData :=
  let e := L.entry 0 (L.lastAllocated 0)
  ⟨a.parent, e.work + a.work, a.nodeId, a.nodeType, a.retAddr, e.regionWork⟩

/-- `Fini` (lines 141–184): what the files hold when they are closed. -/
def fini (L : TaskLogger) (a : LogArgs) (t : ThreadId) : List StepWorkData :=
  L.report t ++ L.row t (L.lastAllocated t) ++ if t = 0 then [L.finiLine a] else []

/-- One call. -/
def perform (L : TaskLogger) (t : ThreadId) : LogCall → Except Fault TaskLogger
  | .log a => L.log t a
  | .logIntermediateStep a => L.logIntermediateStep t a
  | .bufferInfo a => L.bufferInfo t a
  | .logRegionWork returnAddress work => L.logRegionWork t returnAddress work

/-- Calls of the threads, in the order in which they are made. -/
def run (L : TaskLogger) (calls : List (ThreadId × LogCall)) : Except Fault TaskLogger :=
  calls.foldlM (fun L c => L.perform c.1 c.2) L

end TaskLogger

/-- How many entries of a row are in use after a call, if there were `n`. -/
def LogCall.nextLast (n : ℕ) : LogCall → ℕ
  | .log _ => (if n = numEntries then 0 else n) + 1
  | .logIntermediateStep _ => if n = numEntries then 0 else n
  | .bufferInfo _ => n
  | .logRegionWork _ _ => n

theorem LogCall.nextLast_le {n : ℕ} (hn : n ≤ numEntries) (c : LogCall) :
    c.nextLast n ≤ numEntries := by
  unfold numEntries at hn
  cases c with
  | log a =>
    show (if n = 1024 then 0 else n) + 1 ≤ 1024
    split_ifs <;> omega
  | logIntermediateStep a =>
    show (if n = 1024 then 0 else n) ≤ 1024
    split_ifs <;> omega
  | bufferInfo a => exact hn
  | logRegionWork returnAddress work => exact hn

/-- What a thread asks of its logger: a call of `log` by one of the callbacks, or
    `TP_CaptureBeginOptimize` and `TP_CaptureEndOptimize` at the node `nodeId` with
    the cycles `count`. -/
inductive Callback
  | log (a : LogArgs)
  | beginOptimize (nodeId parent count : SizeT)
  | endOptimize (nodeId parent count returnAddress : SizeT)

/-- The calls of the logger (`Task_Profiler.cpp`, lines 89–108). -/
def Callback.calls : Callback → List LogCall
  | .log a => [.log a]
  | .beginOptimize nodeId parent count => [.logIntermediateStep ⟨nodeId, parent, count, .step, 0⟩]
  | .endOptimize nodeId parent count returnAddress =>
    [.bufferInfo ⟨nodeId, parent, count, .step, 0⟩, .logRegionWork returnAddress count]

namespace TaskLogger

/-- The callbacks of one thread. -/
def capture (L : TaskLogger) (t : ThreadId) (cs : List Callback) : Except Fault TaskLogger :=
  L.run ((cs.flatMap Callback.calls).map fun c => (t, c))

/-! ## Entries and rows -/

section Entries

variable {L L' : TaskLogger} {t u : ThreadId} {i j : ℕ}

/-- Only neighbouring rows touch, and only at the end of the first one. -/
theorem slot_inj (hi : i ≤ numEntries) (hj : j < numEntries)
    (h : u.val + 1 = t.val → i ≠ numEntries) : slot u i = slot t j ↔ u = t ∧ i = j := by
  unfold slot numEntries at *
  rw [Fin.ext_iff]
  omega

/-- Entries within a row are inside the array. -/
theorem slot_lt (t : ThreadId) (hi : i < numEntries) : slot t i < 32 * numEntries := by
  have ht := t.isLt
  unfold slot numEntries at *
  omega

/-- The entry behind a row is inside the array, except for the last row. -/
theorem slot_numEntries_lt (t : ThreadId) (hi : i ≤ numEntries) (ht : t.val ≠ 31) :
    slot t i < 32 * numEntries := by
  have ht' := t.isLt
  unfold slot numEntries at *
  omega

/-- The logger with another value in `step_work_list[threadid][i]`. -/
def put (L : TaskLogger) (t : ThreadId) (i : ℕ) (e : StepWorkData) : TaskLogger :=
  { L with stepWorkList := Function.update L.stepWorkList (slot t i) e }

@[simp] theorem put_report (e : StepWorkData) : (L.put t i e).report = L.report := rfl

@[simp] theorem put_lastAllocated (e : StepWorkData) :
    (L.put t i e).lastAllocated = L.lastAllocated := rfl

@[simp] theorem put_entry_self (e : StepWorkData) : (L.put t i e).entry t i = e :=
  Function.update_self ..

theorem put_entry_of_ne (e : StepWorkData) (h : slot u j ≠ slot t i) :
    (L.put t i e).entry u j = L.entry u j :=
  Function.update_of_ne h ..

@[simp] theorem setLast_report (n : ℕ) : (L.setLast t n).report = L.report := rfl

@[simp] theorem setLast_stepWorkList (n : ℕ) :
    (L.setLast t n).stepWorkList = L.stepWorkList := rfl

@[simp] theorem setLast_entry (n : ℕ) : (L.setLast t n).entry u i = L.entry u i := rfl

@[simp] theorem setLast_lastAllocated_self (n : ℕ) : (L.setLast t n).lastAllocated t = n :=
  Function.update_self ..

theorem setLast_lastAllocated_of_ne (n : ℕ) (h : u ≠ t) :
    (L.setLast t n).lastAllocated u = L.lastAllocated u :=
  Function.update_of_ne h ..

theorem modifyEntry_eq_ok {f : StepWorkData → StepWorkData} :
    L.modifyEntry t i f = .ok L' ↔
      slot t i < 32 * numEntries ∧ L' = L.put t i (f (L.entry t i)) := by
  unfold modifyEntry readEntry
  rw [bind_eq_ok]
  constructor
  · rintro ⟨e, he, h⟩
    split_ifs at he with hlt
    obtain rfl := Except.ok.inj he
    exact ⟨hlt, (Except.ok.inj h).symm⟩
  · rintro ⟨hlt, rfl⟩
    exact ⟨L.entry t i, if_pos hlt, rfl⟩

theorem row_succ (n : ℕ) : L.row t (n + 1) = L.row t n ++ [L.entry t n] := by
  unfold row
  rw [List.range_succ, List.map_append]
  rfl

theorem mem_row {e : StepWorkData} {n : ℕ} : e ∈ L.row t n ↔ ∃ i < n, L.entry t i = e := by
  unfold row
  simp only [List.mem_map, List.mem_range]

theorem row_congr {n : ℕ} (h : ∀ i < n, L'.entry t i = L.entry t i) :
    L'.row t n = L.row t n :=
  List.map_congr_left fun i hi => h i (List.mem_range.mp hi)

end Entries

/-! ## What the calls do -/

section Calls

variable {L L' : TaskLogger} {t : ThreadId}

/-- The logger after a full row has been printed. -/
def printed (L : TaskLogger) (t : ThreadId) : TaskLogger :=
  ({ L with report := Function.update L.report t (L.report t ++ L.row t numEntries) }.setLast t
    0).put t 0 (L.entry t 0).clear

theorem flush_eq_ok :
    L.flush t = .ok L' ↔
      (L.lastAllocated t ≠ numEntries ∧ L' = L) ∨
      (L.lastAllocated t = numEntries ∧
        (∀ e ∈ L.row t numEntries, e.regionWork.isSome = true → e.nodeType = .step) ∧
        L' = L.printed t) := by
  unfold flush
  split_ifs with hfull hstep
  · dsimp only
    rw [modifyEntry_eq_ok]
    constructor
    · rintro ⟨-, h⟩
      exact .inr ⟨hfull, hstep, h⟩
    · rintro (⟨h, -⟩ | ⟨-, -, h⟩)
      · exact absurd hfull h
      · exact ⟨slot_lt t (by decide), h⟩
  · constructor
    · intro h
      cases h
    · rintro (⟨h, -⟩ | ⟨-, h, -⟩)
      · exact absurd hfull h
      · exact absurd h hstep
  · constructor
    · intro h
      exact .inl ⟨hfull, (Except.ok.inj h).symm⟩
    · rintro (⟨-, h⟩ | ⟨h, -, -⟩)
      · exact congrArg Except.ok h.symm
      · exact absurd h hfull

theorem log_eq_ok {a : LogArgs} :
    L.log t a = .ok L' ↔ ∃ L₁, L.flush t = .ok L₁ ∧
      slot t (L₁.lastAllocated t + 1) < 32 * numEntries ∧
      L' = ((L₁.put t (L₁.lastAllocated t) ((L₁.entry t (L₁.lastAllocated t)).assign a)).setLast t
        (L₁.lastAllocated t + 1)).put t (L₁.lastAllocated t + 1)
          (L₁.entry t (L₁.lastAllocated t + 1)).clear := by
  unfold log
  rw [bind_eq_ok]
  refine exists_congr fun L₁ => and_congr_right fun _ => ?_
  rw [bind_eq_ok]
  have hne : slot t (L₁.lastAllocated t + 1) ≠ slot t (L₁.lastAllocated t) := by
    unfold slot
    omega
  constructor
  · rintro ⟨L₂, h2, h⟩
    obtain ⟨-, rfl⟩ := modifyEntry_eq_ok.mp h2
    obtain ⟨hlt, rfl⟩ := modifyEntry_eq_ok.mp h
    simp only [put_lastAllocated, setLast_lastAllocated_self, setLast_entry] at hlt ⊢
    rw [put_entry_of_ne _ hne]
    exact ⟨hlt, rfl⟩
  · rintro ⟨hlt, rfl⟩
    refine ⟨_, modifyEntry_eq_ok.mpr ⟨?_, rfl⟩, modifyEntry_eq_ok.mpr ?_⟩
    · unfold slot at hlt ⊢
      omega
    · simp only [put_lastAllocated, setLast_lastAllocated_self, setLast_entry]
      rw [put_entry_of_ne _ hne]
      exact ⟨hlt, rfl⟩

theorem logIntermediateStep_eq_ok {a : LogArgs} :
    L.logIntermediateStep t a = .ok L' ↔ ∃ L₁, L.flush t = .ok L₁ ∧
      slot t (L₁.lastAllocated t) < 32 * numEntries ∧
      L' = L₁.put t (L₁.lastAllocated t) ((L₁.entry t (L₁.lastAllocated t)).assign a) := by
  unfold logIntermediateStep
  rw [bind_eq_ok]
  exact exists_congr fun L₁ => and_congr_right fun _ => modifyEntry_eq_ok

theorem bufferInfo_eq_ok {a : LogArgs} :
    L.bufferInfo t a = .ok L' ↔
      slot t (L.lastAllocated t) < 32 * numEntries ∧
      L' = L.put t (L.lastAllocated t) ((L.entry t (L.lastAllocated t)).assign a) :=
  modifyEntry_eq_ok

theorem logRegionWork_eq_ok {returnAddress work : SizeT} :
    L.logRegionWork t returnAddress work = .ok L' ↔
      slot t (L.lastAllocated t) < 32 * numEntries ∧
      (L.entry t (L.lastAllocated t)).nodeType = .step ∧
      L' = L.put t (L.lastAllocated t)
        ((L.entry t (L.lastAllocated t)).addRegion returnAddress work) := by
  unfold logRegionWork
  rw [bind_eq_ok]
  constructor
  · rintro ⟨e, he, h⟩
    unfold readEntry at he
    split_ifs at he with hlt
    obtain rfl := Except.ok.inj he
    split_ifs at h with hstep
    exact ⟨hlt, hstep, (modifyEntry_eq_ok.mp h).2⟩
  · rintro ⟨hlt, hstep, rfl⟩
    refine ⟨L.entry t (L.lastAllocated t), if_pos hlt, ?_⟩
    rw [if_pos hstep]
    exact modifyEntry_eq_ok.mpr ⟨hlt, rfl⟩

theorem run_cons {c : ThreadId × LogCall} {calls : List (ThreadId × LogCall)} :
    L.run (c :: calls) = .ok L' ↔ ∃ L₁, L.perform c.1 c.2 = .ok L₁ ∧ L₁.run calls = .ok L' := by
  unfold run
  rw [List.foldlM_cons, bind_eq_ok]

theorem run_append {calls calls' : List (ThreadId × LogCall)} :
    L.run (calls ++ calls') = .ok L' ↔ ∃ L₁, L.run calls = .ok L₁ ∧ L₁.run calls' = .ok L' := by
  unfold run
  rw [List.foldlM_append, bind_eq_ok]

theorem capture_append {cs cs' : List Callback} :
    L.capture t (cs ++ cs') = .ok L' ↔
      ∃ L₁, L.capture t cs = .ok L₁ ∧ L₁.capture t cs' = .ok L' := by
  unfold capture
  rw [List.flatMap_append, List.map_append, run_append]

theorem capture_log {a : LogArgs} : L.capture t [.log a] = L.log t a := by
  show L.log t a >>= .ok = L.log t a
  cases L.log t a <;> rfl

theorem capture_beginOptimize {nodeId parent count : SizeT} :
    L.capture t [.beginOptimize nodeId parent count] =
      L.logIntermediateStep t ⟨nodeId, parent, count, .step, 0⟩ := by
  show L.logIntermediateStep t ⟨nodeId, parent, count, .step, 0⟩ >>= .ok = _
  cases L.logIntermediateStep t ⟨nodeId, parent, count, .step, 0⟩ <;> rfl

/-- The end of a region adds its work and its region to the pending entry. -/
theorem capture_endOptimize_eq_ok {nodeId parent count returnAddress : SizeT} :
    L.capture t [.endOptimize nodeId parent count returnAddress] = .ok L' ↔
      slot t (L.lastAllocated t) < 32 * numEntries ∧
      L' = L.put t (L.lastAllocated t)
        (((L.entry t (L.lastAllocated t)).assign ⟨nodeId, parent, count, .step, 0⟩).addRegion
          returnAddress count) := by
  have hput : ∀ e e' : StepWorkData, (L.put t (L.lastAllocated t) e).put t (L.lastAllocated t) e' =
      L.put t (L.lastAllocated t) e' := by
    intro e e'
    unfold put
    rw [Function.update_idem]
  show (L.bufferInfo t ⟨nodeId, parent, count, .step, 0⟩ >>= fun L₁ =>
    L₁.logRegionWork t returnAddress count >>= .ok) = .ok L' ↔ _
  rw [bind_eq_ok]
  constructor
  · rintro ⟨L₁, h1, h⟩
    obtain ⟨hlt, rfl⟩ := bufferInfo_eq_ok.mp h1
    obtain ⟨L₂, h2, h⟩ := bind_eq_ok.mp h
    obtain ⟨-, -, rfl⟩ := logRegionWork_eq_ok.mp h2
    obtain rfl := Except.ok.inj h
    refine ⟨hlt, ?_⟩
    simp only [put_lastAllocated, put_entry_self, hput]
  · rintro ⟨hlt, rfl⟩
    refine ⟨_, bufferInfo_eq_ok.mpr ⟨hlt, rfl⟩, bind_eq_ok.mpr ⟨_, logRegionWork_eq_ok.mpr ?_, rfl⟩⟩
    refine ⟨hlt, congrArg StepWorkData.nodeType (put_entry_self _), ?_⟩
    simp only [put_lastAllocated, put_entry_self, hput]

end Calls

end TaskLogger

end TaskProf.Collection
