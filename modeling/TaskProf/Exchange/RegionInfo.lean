import TaskProf.Analysis.CallSites
import TaskProf.Collection.Profiler

/-!
# The regions of a run are read back

The collection phase writes `region_info.csv`, and the constructor of the analysis
phase reads it (lines 16–35 of `analysis_phase/src/Task_Profiler.cpp`).

* `rereadRegion`: what is read of the line of a region.
* `loadRegions_iff`: the regions are read as they were recorded exactly when no file
  name has a comma.
* `regions_resolve`: so it is after any callbacks of the threads, and the regions in
  the files of the threads are among them.

**Deviation.** A comma in a file name shifts the fields, as in `callsite_info.csv`;
if the rest of the name is no number the constructor throws, and there is no profile.
A run without regions leaves the file of an earlier run, which is then read.
-/

namespace TaskProf.Analysis

open Collection (Profiler ProfilerCall Iterates LogArgs ThreadId)

/-! ## The source functions -/

/-- One line (lines 21–33). -/
def readRegion (m : CallSiteMap) (line : List Char) : Except Fault CallSiteMap := do
  let fields := pieces ',' line
  let csLineNumber ← stoi (fields.getD 2 [])
  let csAddr ← stoul (fields.getD 0 [])
  .ok (m.insert csAddr ⟨fields.getD 1 [], csLineNumber, false⟩)

/-- `regionMap` after lines 16–35; `none` is a file that cannot be opened. -/
def loadRegions : Option (List Char) → Except Fault CallSiteMap
  | none => .ok []
  | some text => (pieces '\n' text).foldlM readRegion []

/-! ## One line -/

/-- What `readRegion` makes of a region. -/
def rereadRegion (d : CallSiteData) : Except Fault CallSiteData := do
  let fields := pieces ',' (d.csFilename ++ ',' :: decimalInt d.csLineNumber)
  let csLineNumber ← stoi (fields.getD 1 [])
  .ok ⟨fields.getD 0 [], csLineNumber, false⟩

theorem readRegion_regionLine (m : CallSiteMap) (e : SizeT × CallSiteData) :
    readRegion m (Profiler.regionLine e) = rereadRegion e.2 >>= fun d => .ok (m.insert e.1 d) := by
  unfold readRegion rereadRegion Profiler.regionLine
  rw [pieces_append (notMem_decimal (by decide) _)]
  simp only [List.getD_cons_succ, List.getD_cons_zero, stoul_decimal, bind_assoc]
  rfl

/-- What the C++ types promise of a region: the line is an `int`, and the file name has
    no line break. -/
structure PlainRegion (d : CallSiteData) : Prop where
  line : -2 ^ 31 ≤ d.csLineNumber ∧ d.csLineNumber < 2 ^ 31
  file : '\n' ∉ d.csFilename
  parFor : d.parFor = false

/-- A region is read back exactly if its file name has no comma. -/
theorem rereadRegion_iff {d : CallSiteData} (hd : PlainRegion d) :
    rereadRegion d = .ok d ↔ ',' ∉ d.csFilename := by
  constructor
  · intro h
    obtain ⟨l, -, h⟩ := bind_eq_ok.mp h
    rw [← Except.ok.inj h]
    dsimp only
    cases hf : pieces ',' (d.csFilename ++ ',' :: decimalInt d.csLineNumber) with
    | nil => simp
    | cons s rest =>
      rw [List.getD_cons_zero]
      apply notMem_of_mem_pieces
      rw [hf]
      exact List.mem_cons_self
  · intro hc
    have hfields : pieces ',' (d.csFilename ++ ',' :: decimalInt d.csLineNumber) =
        [d.csFilename, decimalInt d.csLineNumber] := by
      rw [pieces_append hc,
        pieces_last (notMem_decimalInt (by decide) (by decide) _) (decimalInt_ne_nil _)]
    unfold rereadRegion
    rw [hfields]
    simp only [List.getD_cons_succ, List.getD_cons_zero, stoi_decimalInt hd.line]
    show Except.ok (CallSiteData.mk _ _ _) = _
    rw [← hd.parFor]

/-! ## The file -/

section File

variable {entries : List (SizeT × CallSiteData)} {regionMap : SizeT → Option CallSiteData}

theorem newline_notMem_regionLine {e : SizeT × CallSiteData} (h : '\n' ∉ e.2.csFilename) :
    '\n' ∉ Profiler.regionLine e := by
  have hint := notMem_decimalInt (c := '\n') (by decide) (by decide) e.2.csLineNumber
  have hdec := notMem_decimal (c := '\n') (by decide) e.1.toNat
  simp [Profiler.regionLine, h, hint, hdec]

/-- The lines of the file are read one after the other. -/
theorem loadRegions_dump (hl : ∀ e ∈ entries, '\n' ∉ e.2.csFilename) :
    loadRegions (some (Profiler.dumpRegionInfo entries)) =
      (entries.map Profiler.regionLine).foldlM readRegion [] := by
  have hpieces : pieces '\n' (Profiler.dumpRegionInfo entries) =
      entries.map Profiler.regionLine := by
    have hlines : ∀ s ∈ entries.map Profiler.regionLine, '\n' ∉ s := by
      intro s hs
      obtain ⟨e, he, rfl⟩ := List.mem_map.mp hs
      exact newline_notMem_regionLine (hl e he)
    rw [← pieces_flatMap hlines, List.flatMap_map]
    rfl
  unfold loadRegions
  rw [← hpieces]

/-- The regions of the file are the recorded ones exactly if no file name has a
    comma. -/
theorem loadRegions_iff (hit : Iterates regionMap entries)
    (hplain : ∀ a d, regionMap a = some d → PlainRegion d) :
    (∃ m : CallSiteMap, loadRegions (some (Profiler.dumpRegionInfo entries)) = .ok m ∧
        (m.map Prod.fst).Nodup ∧ ∀ a, m.lookup a = regionMap a) ↔
      ∀ a d, regionMap a = some d → ',' ∉ d.csFilename := by
  have hplain' : ∀ e ∈ entries, PlainRegion e.2 := fun e he =>
    hplain e.1 e.2 ((hit.mem e).mp he)
  rw [loadRegions_dump fun e he => (hplain' e he).file]
  constructor
  · rintro ⟨m, hm, -, hlookup⟩ a d hd
    have he : (a, d) ∈ entries := (hit.mem (a, d)).mpr hd
    obtain ⟨d', hd'⟩ := (foldlM_read_iff readRegion_regionLine [] entries).mp ⟨m, hm⟩ _ he
    have ha := lookup_of_foldlM_read readRegion_regionLine hit.nodup (fun _ _ => rfl) hm he hd'
    obtain rfl := Option.some.inj (ha.symm.trans ((hlookup a).trans hd))
    exact (rereadRegion_iff (hplain a d' hd)).mp hd'
  · intro hcomma
    have hagain : ∀ e ∈ entries, rereadRegion e.2 = .ok e.2 := fun e he =>
      (rereadRegion_iff (hplain' e he)).mpr (hcomma e.1 e.2 ((hit.mem e).mp he))
    obtain ⟨m, hm⟩ := (foldlM_read_iff readRegion_regionLine [] entries).mpr
      fun e he => ⟨e.2, hagain e he⟩
    have hnil : (([] : CallSiteMap).map Prod.fst).Nodup := List.nodup_nil
    refine ⟨m, hm, nodup_foldlM_read readRegion_regionLine hnil hm, fun a => ?_⟩
    cases ha : regionMap a with
    | none =>
      apply lookup_foldlM_read_eq_none readRegion_regionLine rfl hm
      rintro e he rfl
      rw [(hit.mem e).mp he] at ha
      cases ha
    | some d =>
      have he : (a, d) ∈ entries := (hit.mem (a, d)).mpr ha
      exact lookup_of_foldlM_read readRegion_regionLine hit.nodup (fun _ _ => rfl) hm he
        (hagain _ he)

end File

/-! ## The regions of a run -/

section Run

variable {calls : List ProfilerCall} {P : Profiler} {entries : List (SizeT × CallSiteData)}

/-- The data of a region are those of a call. -/
theorem plain_firstRegion (hplain : ∀ c ∈ calls, ∀ r, c.region = some r → PlainRegion r.2)
    {a : SizeT} {d : CallSiteData} (h : Profiler.firstRegion calls a = some d) :
    PlainRegion d := by
  obtain ⟨c, hc, h⟩ := List.exists_of_findSome?_eq_some h
  obtain ⟨r, hr, h⟩ := Option.bind_eq_some_iff.mp h
  split_ifs at h
  rw [← Option.some.inj h]
  exact hplain c hc r hr

/-- **The regions of a run.** After any callbacks of the threads, one at a time, in which a
    region has ended, the analysis phase reads from `region_info.csv` one entry for each region,
    with the data of its first call, exactly when none of these has a comma in its file
    name; and then every region in a file of a thread is among them. After callbacks
    without regions the file is the one that was there, and no line has a region. -/
theorem regions_resolve (hrun : Profiler.run calls = .ok P)
    (hplain : ∀ c ∈ calls, ∀ r, c.region = some r → PlainRegion r.2)
    (hit : Iterates P.regionMap entries) (old : Option (List Char)) (args : LogArgs) :
    ((∃ a, Profiler.firstRegion calls a ≠ none) →
      ((∃ m : CallSiteMap, loadRegions (Profiler.regionFile old entries) = .ok m ∧
          (m.map Prod.fst).Nodup ∧ (∀ a, m.lookup a = Profiler.firstRegion calls a) ∧
          ∀ t, ∀ e ∈ P.taskLogger.fini args t, ∀ w, e.regionWork = some w →
            ∀ r ∈ w.entries, m.lookup r.1 ≠ none) ↔
        ∀ a d, Profiler.firstRegion calls a = some d → ',' ∉ d.csFilename)) ∧
    ((∀ a, Profiler.firstRegion calls a = none) →
      Profiler.regionFile old entries = old ∧
        ∀ t, ∀ e ∈ P.taskLogger.fini args t, ∀ w, e.regionWork = some w → w.entries = []) := by
  have hmap := Profiler.run_regionMap hrun
  have hfiles := Profiler.fini_regions hrun args
  constructor
  · rintro ⟨a₀, ha₀⟩
    obtain ⟨d₀, hd₀⟩ := Option.ne_none_iff_exists'.mp ha₀
    have hmem : (a₀, d₀) ∈ entries := (hit.mem _).mpr ((hmap a₀).trans hd₀)
    have hfile : Profiler.regionFile old entries = some (Profiler.dumpRegionInfo entries) := by
      unfold Profiler.regionFile
      rw [if_neg]
      rw [List.isEmpty_iff]
      exact List.ne_nil_of_mem hmem
    have hiff := loadRegions_iff hit fun a d hd => plain_firstRegion hplain ((hmap a).symm.trans hd)
    simp only [hmap] at hiff
    rw [hfile, ← hiff]
    constructor
    · rintro ⟨m, hm, hnodup, hlookup, -⟩
      exact ⟨m, hm, hnodup, hlookup⟩
    · rintro ⟨m, hm, hnodup, hlookup⟩
      refine ⟨m, hm, hnodup, hlookup, fun t e he w hw r hr => ?_⟩
      have := hfiles t e he w hw r hr
      rwa [hlookup, ← hmap]
  · intro hnone
    constructor
    · unfold Profiler.regionFile
      rw [if_pos]
      rw [List.isEmpty_iff, List.eq_nil_iff_forall_not_mem]
      intro e he
      have := (hit.mem e).mp he
      rw [hmap, hnone] at this
      cases this
    · intro t e he w hw
      rw [List.eq_nil_iff_forall_not_mem]
      intro r hr
      exact hfiles t e he w hw r hr ((hmap _).trans (hnone _))

end Run

/-- One region, ended twice from different lines. -/
def regionCalls : List ProfilerCall :=
  [⟨0, .beginOptimize 2 1 5, "r.cpp".toList, 3⟩, ⟨0, .endOptimize 2 1 7 21, "r.cpp".toList, 4⟩,
    ⟨1, .endOptimize 6 5 2 21, "r.cpp".toList, 9⟩, ⟨0, .log ⟨2, 1, 3, .step, 0⟩, [], 0⟩]

theorem firstRegion_regionCalls (a : SizeT) : Profiler.firstRegion regionCalls a =
    if 21 = a then some ⟨"r.cpp".toList, 4, false⟩ else none := by
  by_cases ha : 21 = a
  · subst ha
    rfl
  · rw [if_neg ha]
    unfold Profiler.firstRegion
    rw [List.findSome?_eq_none_iff]
    intro c hc
    simp only [regionCalls, List.mem_cons, List.not_mem_nil, or_false] at hc
    rcases hc with rfl | rfl | rfl | rfl
    · rfl
    · exact if_neg ha
    · exact if_neg ha
    · rfl

/-- The first line is read back. -/
theorem regionCalls_resolve : ∃ P, Profiler.run regionCalls = .ok P ∧
    ∃ m : CallSiteMap, loadRegions (Profiler.regionFile none
      [(21, ⟨"r.cpp".toList, 4, false⟩)]) = .ok m ∧
      m.lookup 21 = some ⟨"r.cpp".toList, 4, false⟩ := by
  obtain ⟨P, hrun⟩ : ∃ P, Profiler.run regionCalls = .ok P := ⟨_, rfl⟩
  have hmap := Profiler.run_regionMap hrun
  have hit : Iterates P.regionMap [(21, ⟨"r.cpp".toList, 4, false⟩)] := by
    refine ⟨by decide, fun e => ?_⟩
    rw [List.mem_singleton, hmap, firstRegion_regionCalls]
    obtain ⟨a, d⟩ := e
    by_cases ha : 21 = a
    · subst ha
      rw [if_pos rfl, Option.some.injEq, Prod.mk.injEq, eq_comm (a := d), and_iff_right rfl]
    · rw [if_neg ha]
      exact iff_of_false (fun h => ha (congrArg Prod.fst h).symm) (fun h => nomatch h)
  have hplain : ∀ c ∈ regionCalls, ∀ r, c.region = some r → PlainRegion r.2 := by
    intro c hc r hr
    simp only [regionCalls, List.mem_cons, List.not_mem_nil, or_false] at hc
    rcases hc with rfl | rfl | rfl | rfl
    · cases hr
    · obtain rfl := Option.some.inj hr
      exact ⟨by decide, by decide, rfl⟩
    · obtain rfl := Option.some.inj hr
      exact ⟨by decide, by decide, rfl⟩
    · cases hr
  obtain ⟨m, hm, -, hlookup, -⟩ := ((regions_resolve hrun hplain hit none ⟨4, 1, 0, .step, 0⟩).1
    ⟨21, by rw [firstRegion_regionCalls]; simp⟩).mpr (by
      intro a d hd
      rw [firstRegion_regionCalls] at hd
      split_ifs at hd
      rw [← Option.some.inj hd]
      decide)
  refine ⟨P, hrun, m, hm, ?_⟩
  rw [hlookup, firstRegion_regionCalls, if_pos rfl]

end TaskProf.Analysis
