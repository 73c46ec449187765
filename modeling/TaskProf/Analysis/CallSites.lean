import TaskProf.Analysis.Graph
import TaskProf.Lib.Text

/-!
# Reading the call sites

`getSourceFileAndLine` of `analysis_phase/src/AFTaskGraph.cpp` (lines 114–145),
which reads `callsite_info.csv` while its map is empty.

* `lookup_insert`: an address keeps its first data.
* `foldlM_read_iff`, `lookup_of_foldlM_read`: a file with one line for each address.
* `Loaded`: the maps that any lookups leave; `Loaded.eq_or` says that there are
  two of them.
-/

namespace TaskProf.Analysis

/-! ## The source functions -/

/-- `callSiteMap`, by its entries. -/
abbrev CallSiteMap := List (SizeT × CallSiteData)

/-- `callSiteMap.insert(…)`, which keeps an entry that is there. -/
def CallSiteMap.insert (m : CallSiteMap) (csAddr : SizeT) (csData : CallSiteData) : CallSiteMap :=
  match m.lookup csAddr with
  | some _ => m
  | none => m ++ [(csAddr, csData)]

/-- One line (lines 121–136). -/
def readCallSite (m : CallSiteMap) (line : List Char) : Except Fault CallSiteMap := do
  let fields := pieces ',' line
  let csLineNumber ← stoi (fields.getD 2 [])
  let parFor ← stoi (fields.getD 3 [])
  let csAddr ← stoul (fields.getD 0 [])
  .ok (m.insert csAddr ⟨fields.getD 1 [], csLineNumber, decide (parFor ≠ 0)⟩)

/-- Lines 115–142; `none` is a file that cannot be opened. -/
def loadCallSites (m : CallSiteMap) (file : Option (List Char)) : Except Fault CallSiteMap :=
  if m.isEmpty = true then
    match file with
    | none => .error .assertion
    | some text => (pieces '\n' text).foldlM readCallSite m
  else .ok m

/-- `getSourceFileAndLine`, with the map that it leaves. -/
def getSourceFileAndLine (m : CallSiteMap) (returnAddress : SizeT) (file : Option (List Char)) :
    Except Fault (CallSiteData × CallSiteMap) := do
  let m ← loadCallSites m file
  match m.lookup returnAddress with
  | none => .error .missingKey
  | some data => .ok (data, m)

/-! ## The map -/

theorem lookup_insert (m : CallSiteMap) (a b : SizeT) (d : CallSiteData) :
    (m.insert a d).lookup b =
      if b = a then some ((m.lookup a).getD d) else m.lookup b := by
  unfold CallSiteMap.insert
  cases ha : m.lookup a with
  | some d' =>
    dsimp only
    split_ifs with hb
    · rw [hb, ha]
      rfl
    · rfl
  | none =>
    dsimp only
    rw [List.lookup_append]
    split_ifs with hb
    · subst hb
      rw [ha, List.lookup_cons_self]
      rfl
    · have hne : (b == a) = false := beq_eq_false_iff_ne.mpr hb
      rw [List.lookup_cons, hne]
      cases m.lookup b <;> rfl

theorem lookup_insert_of_eq_some {m : CallSiteMap} {a : SizeT} {d : CallSiteData}
    (h : m.lookup a = some d) (b : SizeT) (d' : CallSiteData) :
    (m.insert b d').lookup a = some d := by
  rw [lookup_insert]
  split_ifs with hab
  · rw [← hab, h]
    rfl
  · exact h

theorem nodup_insert {m : CallSiteMap} (h : (m.map Prod.fst).Nodup) (a : SizeT)
    (d : CallSiteData) : ((m.insert a d).map Prod.fst).Nodup := by
  unfold CallSiteMap.insert
  cases ha : m.lookup a with
  | some d' => exact h
  | none =>
    dsimp only
    rw [List.map_append, List.nodup_append]
    refine ⟨h, List.nodup_singleton a, ?_⟩
    intro b hb c hc hbc
    obtain ⟨e, he, rfl⟩ := List.mem_map.mp hb
    obtain rfl : c = a := List.mem_singleton.mp hc
    have hnone := List.lookup_eq_none_iff.mp ha e he
    exact absurd hbc.symm (bne_iff_ne.mp hnone)

/-! ## A file with a line for each address

A line is read as `again` says, and its data are kept for an address that is new. -/

section Lines

variable {read : CallSiteMap → List Char → Except Fault CallSiteMap}
  {line : SizeT × CallSiteData → List Char} {again : CallSiteData → Except Fault CallSiteData}
  {m m' : CallSiteMap} {entries : List (SizeT × CallSiteData)} {a : SizeT} {d d' : CallSiteData}

/-- A file is read as a whole or not at all. -/
theorem foldlM_read_iff
    (hread : ∀ m e, read m (line e) = again e.2 >>= fun d => .ok (m.insert e.1 d))
    (m : CallSiteMap) (entries : List (SizeT × CallSiteData)) :
    (∃ m', (entries.map line).foldlM read m = .ok m') ↔
      ∀ e ∈ entries, ∃ d, again e.2 = .ok d := by
  induction entries generalizing m with
  | nil => exact iff_of_true ⟨m, rfl⟩ (by simp)
  | cons e entries ih =>
    rw [List.map_cons, List.foldlM_cons, List.forall_mem_cons, hread]
    constructor
    · rintro ⟨m', h⟩
      obtain ⟨m₁, h1, h2⟩ := bind_eq_ok.mp h
      obtain ⟨d, hd, -⟩ := bind_eq_ok.mp h1
      exact ⟨⟨d, hd⟩, (ih m₁).mp ⟨m', h2⟩⟩
    · rintro ⟨⟨d, hd⟩, hrest⟩
      obtain ⟨m', h⟩ := (ih (m.insert e.1 d)).mpr hrest
      refine ⟨m', ?_⟩
      rw [hd]
      exact h

/-- An address keeps its data. -/
theorem foldlM_read_keeps
    (hread : ∀ m e, read m (line e) = again e.2 >>= fun d => .ok (m.insert e.1 d))
    (h : m.lookup a = some d) (hm : (entries.map line).foldlM read m = .ok m') :
    m'.lookup a = some d := by
  rw [List.foldlM_map] at hm
  refine foldlM_keeps (fun m : CallSiteMap => m.lookup a = some d) ?_ h hm
  intro m m' e h he
  rw [hread] at he
  obtain ⟨d', -, he⟩ := bind_eq_ok.mp he
  rw [← Except.ok.inj he]
  exact lookup_insert_of_eq_some h _ _

/-- Each address has what is read of its line. -/
theorem lookup_of_foldlM_read
    (hread : ∀ m e, read m (line e) = again e.2 >>= fun d => .ok (m.insert e.1 d))
    (hn : (entries.map Prod.fst).Nodup) (hm : ∀ e ∈ entries, m.lookup e.1 = none)
    (hfile : (entries.map line).foldlM read m = .ok m') (he : (a, d) ∈ entries)
    (hd : again d = .ok d') : m'.lookup a = some d' := by
  induction entries generalizing m with
  | nil => cases he
  | cons e entries ih =>
    rw [List.map_cons, List.nodup_cons] at hn
    rw [List.map_cons, List.foldlM_cons, hread] at hfile
    obtain ⟨m₁, h1, h2⟩ := bind_eq_ok.mp hfile
    obtain ⟨d₁, hd₁, h1⟩ := bind_eq_ok.mp h1
    obtain rfl := Except.ok.inj h1
    rcases List.mem_cons.mp he with rfl | he
    · obtain rfl := Except.ok.inj (hd₁.symm.trans hd)
      refine foldlM_read_keeps hread ?_ h2
      rw [lookup_insert, if_pos rfl, hm _ List.mem_cons_self]
      rfl
    · refine ih hn.2 (fun e' he' => ?_) h2 he
      have hne : e'.1 ≠ e.1 := by
        intro heq
        exact hn.1 (heq ▸ List.mem_map_of_mem he')
      rw [lookup_insert, if_neg hne]
      exact hm e' (List.mem_cons_of_mem e he')

/-- No other address has data. -/
theorem lookup_foldlM_read_eq_none
    (hread : ∀ m e, read m (line e) = again e.2 >>= fun d => .ok (m.insert e.1 d))
    (hm : m.lookup a = none) (hfile : (entries.map line).foldlM read m = .ok m')
    (ha : ∀ e ∈ entries, e.1 ≠ a) : m'.lookup a = none := by
  induction entries generalizing m with
  | nil =>
    rw [← Except.ok.inj hfile]
    exact hm
  | cons e entries ih =>
    rw [List.map_cons, List.foldlM_cons, hread] at hfile
    obtain ⟨m₁, h1, h2⟩ := bind_eq_ok.mp hfile
    obtain ⟨d₁, -, h1⟩ := bind_eq_ok.mp h1
    obtain rfl := Except.ok.inj h1
    refine ih ?_ h2 fun e' he' => ha e' (List.mem_cons_of_mem e he')
    rw [lookup_insert, if_neg (ha e List.mem_cons_self).symm]
    exact hm

theorem nodup_foldlM_read
    (hread : ∀ m e, read m (line e) = again e.2 >>= fun d => .ok (m.insert e.1 d))
    (hm : (m.map Prod.fst).Nodup) (hfile : (entries.map line).foldlM read m = .ok m') :
    (m'.map Prod.fst).Nodup := by
  rw [List.foldlM_map] at hfile
  refine foldlM_keeps (fun m : CallSiteMap => (m.map Prod.fst).Nodup) ?_ hm hfile
  intro m m' e h he
  rw [hread] at he
  obtain ⟨d', -, he⟩ := bind_eq_ok.mp he
  rw [← Except.ok.inj he]
  exact nodup_insert h _ _

end Lines

/-- The maps after successful lookups, of any addresses. -/
inductive Loaded (file : Option (List Char)) : CallSiteMap → Prop
  | init : Loaded file []
  | lookup {m m' : CallSiteMap} {returnAddress : SizeT} {data : CallSiteData}
      (h : Loaded file m) (hget : getSourceFileAndLine m returnAddress file = .ok (data, m')) :
      Loaded file m'

theorem getSourceFileAndLine_eq_ok {m m' : CallSiteMap} {a : SizeT} {d : CallSiteData}
    {file : Option (List Char)} :
    getSourceFileAndLine m a file = .ok (d, m') ↔
      loadCallSites m file = .ok m' ∧ m'.lookup a = some d := by
  unfold getSourceFileAndLine
  rw [bind_eq_ok]
  constructor
  · rintro ⟨m₁, h1, h⟩
    cases ha : m₁.lookup a with
    | none =>
      rw [ha] at h
      cases h
    | some d' =>
      rw [ha] at h
      obtain ⟨rfl, rfl⟩ := Prod.mk.inj (Except.ok.inj h)
      exact ⟨h1, ha⟩
  · rintro ⟨h1, ha⟩
    refine ⟨m', h1, ?_⟩
    rw [ha]

/-- The file is read once, or nothing is kept of it. -/
theorem Loaded.eq_or {file : Option (List Char)} {m : CallSiteMap} (h : Loaded file m) :
    m = [] ∨ loadCallSites [] file = .ok m := by
  induction h with
  | init => exact .inl rfl
  | lookup _ hget ih =>
    obtain ⟨h1, -⟩ := getSourceFileAndLine_eq_ok.mp hget
    rcases ih with rfl | ih
    · exact .inr h1
    · unfold loadCallSites at h1
      split_ifs at h1 with hm
      · rw [List.isEmpty_iff.mp hm] at ih h1
        exact .inr h1
      · rw [← Except.ok.inj h1]
        exact .inr ih

/-- Every lookup finds what the file says. -/
theorem Loaded.getSourceFileAndLine_eq {file : Option (List Char)} {m m' : CallSiteMap}
    (h : Loaded file m) (hload : loadCallSites [] file = .ok m') (a : SizeT) :
    getSourceFileAndLine m a file = getSourceFileAndLine [] a file := by
  have hm : loadCallSites m file = .ok m' := by
    rcases h.eq_or with rfl | h
    · exact hload
    · obtain rfl := Except.ok.inj (h.symm.trans hload)
      unfold loadCallSites
      split_ifs with he
      · rw [List.isEmpty_iff.mp he] at hload ⊢
        exact hload
      · rfl
  unfold getSourceFileAndLine
  rw [hm, hload]

/-- The passes look the sites up in the map that is kept. -/
theorem getSourceFileAndLine_graph {file : Option (List Char)} {m m' : CallSiteMap}
    (hload : loadCallSites m file = .ok m') {G : AFTaskGraph}
    (hG : G.callSiteMap = fun a => m'.lookup a) (a : SizeT) :
    getSourceFileAndLine m a file = (G.getSourceFileAndLine a).map fun d => (d, m') := by
  unfold getSourceFileAndLine AFTaskGraph.getSourceFileAndLine
  rw [hload, hG]
  dsimp only [bind, Except.bind]
  cases m'.lookup a <;> rfl

end TaskProf.Analysis
