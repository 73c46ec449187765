import TaskProf.Collection.Amounts
import TaskProf.Collection.CallSites

/-!
# The regions of the collection phase

`Task_Profiler` of `collection_phase/src/Task_Profiler.cpp`: its calls of the logger
(lines 62–108), the regions that `TP_CaptureEndOptimize` records, and
`dumpRegionInfo` (lines 128–140).

* `run_regionMap`: `regionMap` holds the first call of every region.
* `fini_regions`: every region in a file of the logger has been recorded.
-/

namespace TaskProf.Collection

/-! ## The source functions -/

/-- `class Task_Profiler`, with the logger that it calls. -/
structure Profiler where
  taskLogger : TaskLogger
  regionMap : SizeT → Option CallSiteData

/-- A callback of a thread. `file` and `line` are the arguments of `__optimize_begin__`
    and `__optimize_end__`, which only the latter keeps. -/
structure ProfilerCall where
  threadid : ThreadId
  callback : Callback
  file : List Char
  line : ℤ

/-- The region that a call ends, with its data. -/
def ProfilerCall.region (c : ProfilerCall) : Option (SizeT × CallSiteData) :=
  match c.callback with
  | .endOptimize _ _ _ returnAddress => some (returnAddress, ⟨c.file, c.line, false⟩)
  | _ => none

namespace Profiler

def init : Profiler := ⟨.init, fun _ => none⟩

/-- Lines 99–104 of `TP_CaptureEndOptimize`. -/
def insertRegion (regionMap : SizeT → Option CallSiteData) (r : SizeT × CallSiteData) :
    SizeT → Option CallSiteData :=
  match regionMap r.1 with
  | none => Function.update regionMap r.1 (some r.2)
  | some _ => regionMap

/-- One callback. `TP_CaptureEndOptimize` records the region between its two calls of
    the logger, which do not read it. -/
def perform (P : Profiler) (c : ProfilerCall) : Except Fault Profiler := do
  let taskLogger ← P.taskLogger.capture c.threadid [c.callback]
  match c.region with
  | none => .ok { P with taskLogger := taskLogger }
  | some r => .ok ⟨taskLogger, insertRegion P.regionMap r⟩

/-- Callbacks of the threads, in the order in which they are made. -/
def run (calls : List ProfilerCall) : Except Fault Profiler := calls.foldlM perform init

/-- A line of `region_info.csv` (lines 134–137), without the line break. -/
def regionLine (e : SizeT × CallSiteData) : List Char :=
  decimal e.1.toNat ++ ',' :: (e.2.csFilename ++ ',' :: decimalInt e.2.csLineNumber)

/-- `dumpRegionInfo`, with the entries of the map in the order of its iteration. -/
def dumpRegionInfo (entries : List (SizeT × CallSiteData)) : List Char :=
  entries.flatMap fun e => regionLine e ++ ['\n']

/-- `region_info.csv` after `Fini` (lines 123–125): without a region the file of an
    earlier run stays. -/
def regionFile (old : Option (List Char)) (entries : List (SizeT × CallSiteData)) :
    Option (List Char) :=
  if entries.isEmpty = true then old else some (dumpRegionInfo entries)

/-! ## What the callbacks record -/

variable {P P' : Profiler} {calls : List ProfilerCall} {c : ProfilerCall} {a : SizeT}

/-- The data of the first call that ends the region `a`. -/
def firstRegion (calls : List ProfilerCall) (a : SizeT) : Option CallSiteData :=
  calls.findSome? fun c => c.region.bind fun r => if r.1 = a then some r.2 else none

theorem insertRegion_apply (m : SizeT → Option CallSiteData) (r : SizeT × CallSiteData)
    (a : SizeT) : insertRegion m r a = (m a).or (if r.1 = a then some r.2 else none) := by
  unfold insertRegion
  by_cases hr : r.1 = a
  · rw [if_pos hr, ← hr]
    cases hm : m r.1 with
    | none => exact Function.update_self ..
    | some d => exact hm
  · rw [if_neg hr, Option.or_none]
    cases m r.1 with
    | none => exact Function.update_of_ne (Ne.symm hr) ..
    | some d => rfl

theorem perform_eq_ok : P.perform c = .ok P' ↔
    P.taskLogger.capture c.threadid [c.callback] = .ok P'.taskLogger ∧
      P'.regionMap = (c.region.map (insertRegion P.regionMap)).getD P.regionMap := by
  unfold perform
  rw [bind_eq_ok]
  cases hc : c.region with
  | none | some r =>
    constructor
    · rintro ⟨L, hL, h⟩
      obtain rfl := Except.ok.inj h
      exact ⟨hL, rfl⟩
    · rintro ⟨hL, hmap⟩
      refine ⟨P'.taskLogger, hL, ?_⟩
      obtain ⟨L', m'⟩ := P'
      dsimp only at hmap
      subst hmap
      rfl

theorem run_concat : run (calls ++ [c]) = .ok P' ↔
    ∃ P, run calls = .ok P ∧ P.perform c = .ok P' := by
  unfold run
  rw [List.foldlM_append, bind_eq_ok]
  simp only [List.foldlM_cons, List.foldlM_nil]
  refine exists_congr fun P => and_congr_right fun _ => ?_
  cases P.perform c <;> rfl

/-- A region keeps the data of its first call. -/
theorem run_regionMap (h : run calls = .ok P) (a : SizeT) :
    P.regionMap a = firstRegion calls a := by
  induction calls using List.reverseRecOn generalizing P with
  | nil =>
    obtain rfl := Except.ok.inj h
    rfl
  | append_singleton calls c ih =>
    obtain ⟨P₁, h1, h2⟩ := run_concat.mp h
    obtain ⟨-, hmap⟩ := perform_eq_ok.mp h2
    have hlast : firstRegion (calls ++ [c]) a = (firstRegion calls a).or
        (c.region.bind fun r => if r.1 = a then some r.2 else none) := by
      unfold firstRegion
      rw [List.findSome?_append, List.findSome?_singleton]
    rw [hmap, hlast, ← ih h1]
    cases hc : c.region with
    | none => exact (Option.or_none).symm
    | some r => exact insertRegion_apply _ r a

/-! ## The regions of the files -/

/-- Every region of the entry is in `K`. -/
def InRegions (K : SizeT → Prop) (e : StepWorkData) : Prop :=
  ∀ m, e.regionWork = some m → ∀ r ∈ m.entries, K r.1

/-- Every region of an entry or a line is in `K`. -/
structure Within (K : SizeT → Prop) (L : TaskLogger) : Prop where
  entries : ∀ k, InRegions K (L.stepWorkList k)
  lines : ∀ t, ∀ e ∈ L.report t, InRegions K e

section Steps

variable {K : SizeT → Prop} {L L' : TaskLogger} {t : ThreadId} {e : StepWorkData}

theorem inRegions_clear : InRegions K e.clear := fun _ hm => nomatch hm

theorem InRegions.assign (h : InRegions K e) (a : LogArgs) : InRegions K (e.assign a) := h

theorem InRegions.addRegion (h : InRegions K e) {returnAddress : SizeT} (hr : K returnAddress)
    (work : SizeT) : InRegions K (e.addRegion returnAddress work) := by
  intro m hm r hmem
  obtain rfl := Option.some.inj hm
  have hkey : r.1 = returnAddress ∨ r.1 ∈ ((e.regionWork.getD .empty).entries).map Prod.fst :=
    (AccMap.mem_keys_bump _ _ _ _).mp (List.mem_map_of_mem hmem)
  rcases hkey with hkey | hkey
  · rw [hkey]
    exact hr
  · obtain ⟨r', hr', heq⟩ := List.mem_map.mp hkey
    rw [← heq]
    cases hreg : e.regionWork with
    | none =>
      rw [hreg] at hr'
      cases hr'
    | some m₀ =>
      rw [hreg] at hr'
      exact h m₀ hreg r' hr'

theorem Within.mono {K' : SizeT → Prop} (h : Within K L) (hK : ∀ a, K a → K' a) : Within K' L :=
  ⟨fun k m hm r hr => hK _ (h.entries k m hm r hr),
    fun t e he m hm r hr => hK _ (h.lines t e he m hm r hr)⟩

theorem Within.put (h : Within K L) {i : ℕ} (he : InRegions K e) : Within K (L.put t i e) := by
  refine ⟨fun k => ?_, h.lines⟩
  show InRegions K (Function.update L.stepWorkList (TaskLogger.slot t i) e k)
  by_cases hk : k = TaskLogger.slot t i
  · rw [hk, Function.update_self]
    exact he
  · rw [Function.update_of_ne hk]
    exact h.entries k

theorem Within.setLast (h : Within K L) (n : ℕ) : Within K (L.setLast t n) := ⟨h.entries, h.lines⟩

theorem Within.row (h : Within K L) (n : ℕ) : ∀ e ∈ L.row t n, InRegions K e := by
  intro e he
  obtain ⟨i, -, rfl⟩ := TaskLogger.mem_row.mp he
  exact h.entries _

theorem Within.flush (h : Within K L) (hrun : L.flush t = .ok L') : Within K L' := by
  rcases TaskLogger.flush_eq_ok.mp hrun with ⟨-, rfl⟩ | ⟨-, -, rfl⟩
  · exact h
  · have hreport : Within K
        { L with report := Function.update L.report t (L.report t ++ L.row t numEntries) } := by
      refine ⟨h.entries, fun u e he => ?_⟩
      have he : e ∈ Function.update L.report t (L.report t ++ L.row t numEntries) u := he
      by_cases hu : u = t
      · rw [hu, Function.update_self] at he
        rcases List.mem_append.mp he with he | he
        · exact h.lines t e he
        · exact h.row numEntries e he
      · rw [Function.update_of_ne hu] at he
        exact h.lines u e he
    exact (hreport.setLast 0).put inRegions_clear

/-- A callback adds its region only. -/
theorem Within.capture (h : Within K L) {c : Callback}
    (hc : ∀ r, c.region = some r → K r.1) (hrun : L.capture t [c] = .ok L') : Within K L' := by
  cases c with
  | log a =>
    rw [TaskLogger.capture_log] at hrun
    obtain ⟨L₁, h1, -, rfl⟩ := TaskLogger.log_eq_ok.mp hrun
    have hflush := h.flush h1
    exact ((hflush.put ((hflush.entries _).assign a)).setLast _).put inRegions_clear
  | beginOptimize nodeId parent count =>
    rw [TaskLogger.capture_beginOptimize] at hrun
    obtain ⟨L₁, h1, -, rfl⟩ := TaskLogger.logIntermediateStep_eq_ok.mp hrun
    have hflush := h.flush h1
    exact hflush.put ((hflush.entries _).assign _)
  | endOptimize nodeId parent count returnAddress =>
    obtain ⟨-, rfl⟩ := TaskLogger.capture_endOptimize_eq_ok.mp hrun
    exact h.put (((h.entries _).assign _).addRegion (hc (returnAddress, count) rfl) _)

end Steps

/-- A region that is recorded stays so. -/
theorem firstRegion_concat_ne_none (h : firstRegion calls a ≠ none) :
    firstRegion (calls ++ [c]) a ≠ none := by
  unfold firstRegion at h ⊢
  rw [List.findSome?_append]
  obtain ⟨d, hd⟩ := Option.ne_none_iff_exists'.mp h
  rw [hd]
  exact Option.some_ne_none d

theorem run_within (h : run calls = .ok P) :
    Within (fun a => firstRegion calls a ≠ none) P.taskLogger := by
  induction calls using List.reverseRecOn generalizing P with
  | nil =>
    obtain rfl := Except.ok.inj h
    exact ⟨fun _ _ hm => (nomatch hm), fun _ _ he => absurd he List.not_mem_nil⟩
  | append_singleton calls c ih =>
    obtain ⟨P₁, h1, h2⟩ := run_concat.mp h
    obtain ⟨hcapture, -⟩ := perform_eq_ok.mp h2
    refine ((ih h1).mono fun a ha => firstRegion_concat_ne_none ha).capture ?_ hcapture
    intro r hr hnone
    unfold firstRegion at hnone
    rw [List.findSome?_append, Option.or_eq_none_iff, List.findSome?_singleton] at hnone
    cases hc : c.callback with
    | endOptimize nodeId parent count returnAddress =>
      rw [hc] at hr
      obtain rfl := Option.some.inj hr
      simp [ProfilerCall.region, hc] at hnone
    | _ =>
      rw [hc] at hr
      cases hr

/-- Every region in the files of the threads has been recorded. -/
theorem fini_regions (h : run calls = .ok P) (args : LogArgs) (t : ThreadId) :
    ∀ e ∈ P.taskLogger.fini args t, InRegions (fun a => P.regionMap a ≠ none) e := by
  have hK : Within (fun a => P.regionMap a ≠ none) P.taskLogger := by
    apply (run_within h).mono
    intro a ha
    rwa [run_regionMap h]
  intro e he
  unfold TaskLogger.fini at he
  rcases List.mem_append.mp he with he | he
  · rcases List.mem_append.mp he with he | he
    · exact hK.lines t e he
    · exact hK.row _ e he
  · split_ifs at he
    · rw [List.mem_singleton.mp he]
      exact hK.entries _
    · cases he

end Profiler

end TaskProf.Collection
