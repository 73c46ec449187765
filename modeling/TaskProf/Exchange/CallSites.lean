import TaskProf.Analysis.CallSites
import TaskProf.Collection.CallSites

/-!
# Every logged site resolves

The collection phase writes the file names of the call sites as they are, and the
analysis phase reads the fields of a line by their positions.

* `reread`: what is read of the line of a site; `reread_eq` says that it is the
  site if its file name has no comma.
* `loadCallSites_dump`: the map that is read from the file.
* `resolves_iff`: the lookups find the sites exactly when the file names of the
  non-zero addresses have no comma, and the line of address zero can be read.

**Deviation.** A comma in a file name shifts the fields: the name is cut there,
and the line number is read from the rest of the name. If that is no number,
`std::stoi` throws, and no site is found at all.
-/

namespace TaskProf.Analysis

open Collection (GraphOp LogEntry siteText callSiteLine dumpCallsiteInfo Iterates)

/-! ## One line -/

/-- What `readCallSite` makes of a site. -/
def reread (d : CallSiteData) : Except Fault CallSiteData := do
  let fields := pieces ',' (siteText d)
  let csLineNumber ← stoi (fields.getD 1 [])
  let parFor ← stoi (fields.getD 2 [])
  .ok ⟨fields.getD 0 [], csLineNumber, decide (parFor ≠ 0)⟩

/-- The two fields that follow the first comma after the address are numbers. -/
def NumbersFollow (d : CallSiteData) : Prop :=
  (∃ csLineNumber, stoi ((pieces ',' (siteText d)).getD 1 []) = .ok csLineNumber) ∧
    ∃ parFor, stoi ((pieces ',' (siteText d)).getD 2 []) = .ok parFor

theorem readCallSite_callSiteLine (m : CallSiteMap) (e : SizeT × CallSiteData) :
    readCallSite m (callSiteLine e) = reread e.2 >>= fun d => .ok (m.insert e.1 d) := by
  unfold readCallSite reread callSiteLine
  rw [pieces_append (notMem_decimal (by decide) _)]
  simp only [List.getD_cons_succ, List.getD_cons_zero, stoul_decimal, bind_assoc]
  rfl

theorem exists_reread_iff (d : CallSiteData) : (∃ d', reread d = .ok d') ↔ NumbersFollow d := by
  unfold reread NumbersFollow
  simp only [bind_eq_ok]
  constructor
  · rintro ⟨d', l, hl, p, hp, -⟩
    exact ⟨⟨l, hl⟩, p, hp⟩
  · rintro ⟨⟨l, hl⟩, p, hp⟩
    exact ⟨_, l, hl, p, hp, rfl⟩

/-- Without a comma in the file name a site is read back. -/
theorem reread_eq {d : CallSiteData} (hc : ',' ∉ d.csFilename)
    (hl : -2 ^ 31 ≤ d.csLineNumber ∧ d.csLineNumber < 2 ^ 31) : reread d = .ok d := by
  have hfields : pieces ',' (siteText d) =
      [d.csFilename, decimalInt d.csLineNumber, decimal d.parFor.toNat] := by
    unfold siteText
    rw [pieces_append hc, pieces_append (notMem_decimalInt (by decide) (by decide) _),
      pieces_last (notMem_decimal (by decide) _) (decimal_ne_nil _)]
  have hpar : d.parFor.toNat < 2 ^ 31 := by
    cases d.parFor <;> decide
  unfold reread
  rw [hfields]
  simp only [List.getD_cons_succ, List.getD_cons_zero, stoi_decimalInt hl, stoi_decimal hpar]
  show Except.ok (CallSiteData.mk _ _ _) = _
  obtain ⟨file, line, parFor⟩ := d
  cases parFor <;> rfl

/-- A file name that is read has no comma. -/
theorem comma_notMem_of_reread {d d' : CallSiteData} (h : reread d = .ok d') :
    ',' ∉ d'.csFilename := by
  obtain ⟨l, -, h⟩ := bind_eq_ok.mp h
  obtain ⟨p, -, h⟩ := bind_eq_ok.mp h
  rw [← Except.ok.inj h]
  dsimp only
  cases hf : pieces ',' (siteText d) with
  | nil => simp
  | cons s rest =>
    rw [List.getD_cons_zero]
    exact notMem_of_mem_pieces (by rw [hf]; exact List.mem_cons_self)

/-! ## The file -/

section File

variable {m m' : CallSiteMap} {entries : List (SizeT × CallSiteData)} {a : SizeT}
  {d d' : CallSiteData}

/-- A file is read as a whole or not at all. -/
theorem foldlM_readCallSite_iff (m : CallSiteMap) (entries : List (SizeT × CallSiteData)) :
    (∃ m', (entries.map callSiteLine).foldlM readCallSite m = .ok m') ↔
      ∀ e ∈ entries, NumbersFollow e.2 := by
  simp only [← exists_reread_iff]
  exact foldlM_read_iff readCallSite_callSiteLine m entries

/-- Each address has what is read of its line. -/
theorem lookup_of_foldlM (hn : (entries.map Prod.fst).Nodup)
    (hm : ∀ e ∈ entries, m.lookup e.1 = none)
    (hread : (entries.map callSiteLine).foldlM readCallSite m = .ok m')
    (he : (a, d) ∈ entries) (hd : reread d = .ok d') : m'.lookup a = some d' :=
  lookup_of_foldlM_read readCallSite_callSiteLine hn hm hread he hd

theorem newline_notMem_callSiteLine {e : SizeT × CallSiteData} (h : '\n' ∉ e.2.csFilename) :
    '\n' ∉ callSiteLine e := by
  have hint := notMem_decimalInt (c := '\n') (by decide) (by decide) e.2.csLineNumber
  have hdec : ∀ n, '\n' ∉ decimal n := notMem_decimal (by decide)
  simp [callSiteLine, siteText, h, hint, hdec]

/-- The lines of the file are read one after the other. -/
theorem loadCallSites_dump (hl : ∀ e ∈ entries, '\n' ∉ e.2.csFilename) :
    loadCallSites [] (some (dumpCallsiteInfo entries)) =
      (entries.map callSiteLine).foldlM readCallSite [] := by
  have hpieces : pieces '\n' (dumpCallsiteInfo entries) = entries.map callSiteLine := by
    have hlines : ∀ s ∈ entries.map callSiteLine, '\n' ∉ s := by
      intro s hs
      obtain ⟨e, he, rfl⟩ := List.mem_map.mp hs
      exact newline_notMem_callSiteLine (hl e he)
    rw [← pieces_flatMap hlines, List.flatMap_map]
    rfl
  unfold loadCallSites
  rw [← hpieces]
  rfl

end File

/-! ## Every logged site -/

/-- In whatever order the sites are looked up, a logged address gives the data of
    the first call that has supplied it. -/
def Resolves (ops : List GraphOp) (logged : List LogEntry) (csv : List Char) : Prop :=
  ∀ m, Loaded (some csv) m → ∀ e ∈ logged, e.retAddr ≠ 0 →
    ∃ d m', GraphOp.firstSite ops e.retAddr = some d ∧
      getSourceFileAndLine m e.retAddr (some csv) = .ok (d, m')

section Sites

variable {ops : List GraphOp} {G : Collection.AFTaskGraph}
  {entries : List (SizeT × CallSiteData)}

theorem mem_entries_iff (hrun : GraphOp.run ops = .ok G) (hit : Iterates G.callSiteMap entries)
    (a : SizeT) (d : CallSiteData) :
    (a, d) ∈ entries ↔ GraphOp.firstSite ops a = some d := by
  rw [hit.mem, Collection.run_callSiteMap hrun]

/-- The condition, for the entries of the file. -/
theorem numbersFollow_of_comma (hrun : GraphOp.run ops = .ok G)
    (hops : ∀ op ∈ ops, ∀ site, op.site = some site → site.Plain)
    (hit : Iterates G.callSiteMap entries)
    (hcomma : ∀ a d, a ≠ 0 → GraphOp.firstSite ops a = some d → ',' ∉ d.csFilename)
    (hzero : ∀ d, GraphOp.firstSite ops 0 = some d → NumbersFollow d) :
    ∀ e ∈ entries, NumbersFollow e.2 := by
  intro e he
  have hd := (mem_entries_iff hrun hit e.1 e.2).mp he
  by_cases h0 : e.1 = 0
  · exact hzero _ (h0 ▸ hd)
  · rw [← exists_reread_iff]
    exact ⟨e.2, reread_eq (hcomma _ _ h0 hd) (Collection.plain_firstSite hops hd).1⟩

/-- **Every logged site resolves**, whatever the order of the iteration, exactly
    when no file name of a non-zero address has a comma and, if there is such an
    address, the line of address zero has numbers in its place. -/
theorem resolves_iff (hrun : GraphOp.run ops = .ok G)
    (hops : ∀ op ∈ ops, ∀ site, op.site = some site → site.Plain)
    (hit : Iterates G.callSiteMap entries) :
    Resolves ops G.logged (dumpCallsiteInfo entries) ↔
      (∀ a d, a ≠ 0 → GraphOp.firstSite ops a = some d → ',' ∉ d.csFilename) ∧
        ((∃ a, a ≠ 0 ∧ GraphOp.firstSite ops a ≠ none) →
          ∀ d, GraphOp.firstSite ops 0 = some d → NumbersFollow d) := by
  have hmem := mem_entries_iff hrun hit
  have htracked := Collection.run_tracked hrun
  have hload : loadCallSites [] (some (dumpCallsiteInfo entries)) =
      (entries.map callSiteLine).foldlM readCallSite [] := by
    apply loadCallSites_dump
    intro e he
    exact (Collection.plain_firstSite hops ((hmem e.1 e.2).mp he)).2
  have hlookup : ∀ {m' a d d'}, loadCallSites [] (some (dumpCallsiteInfo entries)) = .ok m' →
      GraphOp.firstSite ops a = some d → reread d = .ok d' → m'.lookup a = some d' := by
    intro m' a d d' hm hd hr
    rw [hload] at hm
    exact lookup_of_foldlM hit.nodup (fun _ _ => rfl) hm ((hmem a d).mpr hd) hr
  constructor
  · intro hres
    -- a recorded address is logged, so it is looked up
    have hget : ∀ a d, a ≠ 0 → GraphOp.firstSite ops a = some d →
        ∃ m', loadCallSites [] (some (dumpCallsiteInfo entries)) = .ok m' ∧
          m'.lookup a = some d := by
      intro a d ha hd
      obtain ⟨e, he, rfl⟩ := htracked.logged a (by
        rw [Collection.run_callSiteMap hrun, hd]
        exact Option.some_ne_none d)
      obtain ⟨d', m', hd', h⟩ := hres [] .init e he ha
      obtain rfl := Option.some.inj (hd'.symm.trans hd)
      exact ⟨m', getSourceFileAndLine_eq_ok.mp h⟩
    have hread : ∀ a d, a ≠ 0 → GraphOp.firstSite ops a = some d →
        ∀ e ∈ entries, NumbersFollow e.2 := by
      intro a d ha hd
      obtain ⟨m', hm, -⟩ := hget a d ha hd
      exact (foldlM_readCallSite_iff [] entries).mp ⟨m', hload ▸ hm⟩
    constructor
    · intro a d ha hd
      obtain ⟨m', hm, hma⟩ := hget a d ha hd
      obtain ⟨d', hd'⟩ := (exists_reread_iff d).mpr
        (hread a d ha hd _ ((hmem a d).mpr hd))
      obtain rfl := Option.some.inj (hma.symm.trans (hlookup hm hd hd'))
      exact comma_notMem_of_reread hd'
    · rintro ⟨a, ha, hne⟩ d₀ hd₀
      obtain ⟨d, hd⟩ := Option.ne_none_iff_exists'.mp hne
      exact hread a d ha hd _ ((hmem 0 d₀).mpr hd₀)
  · rintro ⟨hcomma, hzero⟩ m hm e he hne
    obtain ⟨d, hd⟩ := Option.ne_none_iff_exists'.mp (htracked.recorded e he hne)
    rw [Collection.run_callSiteMap hrun] at hd
    have hfollow := numbersFollow_of_comma hrun hops hit hcomma
      (hzero ⟨e.retAddr, hne, by rw [hd]; exact Option.some_ne_none d⟩)
    obtain ⟨m', hm'⟩ := (foldlM_readCallSite_iff [] entries).mpr hfollow
    rw [← hload] at hm'
    have hr : reread d = .ok d :=
      reread_eq (hcomma _ d hne hd) (Collection.plain_firstSite hops hd).1
    refine ⟨d, m', hd, ?_⟩
    rw [hm.getSourceFileAndLine_eq hm' e.retAddr, getSourceFileAndLine_eq_ok]
    exact ⟨hm', hlookup hm' hd hr⟩

end Sites

/-- Two spawns with one address. -/
def plainRun : List GraphOp :=
  [.setTaskId 0 1 true ⟨5, some "a.cpp".toList, 3, true⟩,
    .setTaskIdWait 0 2 ⟨5, some "b.cpp".toList, 4, false⟩]

theorem plainRun_resolves : ∃ G entries, GraphOp.run plainRun = .ok G ∧
    Iterates G.callSiteMap entries ∧ Resolves plainRun G.logged (dumpCallsiteInfo entries) := by
  obtain ⟨G, hrun⟩ : ∃ G, GraphOp.run plainRun = .ok G := ⟨_, rfl⟩
  obtain ⟨entries, hit⟩ := Collection.exists_iterates hrun
  have hops : ∀ op ∈ plainRun, ∀ site, op.site = some site → site.Plain := by
    intro op hop site hs
    simp only [plainRun, List.mem_cons, List.not_mem_nil, or_false] at hop
    rcases hop with rfl | rfl
    all_goals
      obtain rfl := Option.some.inj hs
      exact ⟨by decide, by simp⟩
  refine ⟨G, entries, hrun, hit, (resolves_iff hrun hops hit).mpr ⟨?_, ?_⟩⟩
  · intro a d _ hd
    by_cases h5 : a = 5
    · subst h5
      obtain rfl : CallSiteData.mk "a.cpp".toList 3 true = d := Option.some.inj hd
      decide
    · rw [Collection.firstSite_eq_none] at hd
      · cases hd
      · intro op hop site hs
        simp only [plainRun, List.mem_cons, List.not_mem_nil, or_false] at hop
        rcases hop with rfl | rfl
        all_goals
          obtain rfl := Option.some.inj hs
          exact h5
  · intro _ d hd
    cases hd

/-- A spawn in a file with a comma in its name. -/
def commaRun : List GraphOp := [.setTaskId 0 1 true ⟨5, some "a,b.cpp".toList, 3, false⟩]

def commaEntries : List (SizeT × CallSiteData) := [(5, ⟨"a,b.cpp".toList, 3, false⟩)]

theorem iterates_commaEntries {G : Collection.AFTaskGraph} (hrun : GraphOp.run commaRun = .ok G) :
    Iterates G.callSiteMap commaEntries where
  nodup := by decide
  mem := by
    rintro ⟨a, d⟩
    rw [Collection.run_callSiteMap hrun, commaEntries, List.mem_singleton]
    by_cases h5 : a = 5
    · subst h5
      have hfirst : GraphOp.firstSite commaRun 5 = some ⟨"a,b.cpp".toList, 3, false⟩ := rfl
      rw [hfirst, Option.some.injEq, Prod.mk.injEq, eq_comm (a := d), and_iff_right rfl]
    · refine iff_of_false (fun h => h5 (congrArg Prod.fst h)) fun h => ?_
      rw [Collection.firstSite_eq_none] at h
      · cases h
      · intro op hop site hs
        rw [List.mem_singleton.mp hop] at hs
        obtain rfl := Option.some.inj hs
        exact h5

/-- The line number is read from `b.cpp`: the lookup throws. -/
theorem not_resolves : ∃ G, GraphOp.run commaRun = .ok G ∧
    Iterates G.callSiteMap commaEntries ∧
    getSourceFileAndLine [] 5 (some (dumpCallsiteInfo commaEntries)) = .error .invalidArgument ∧
    ¬ Resolves commaRun G.logged (dumpCallsiteInfo commaEntries) := by
  obtain ⟨G, hrun, e, he, hadd⟩ : ∃ G, GraphOp.run commaRun = .ok G ∧
      ∃ e ∈ G.logged, e.retAddr = 5 :=
    ⟨_, rfl, ⟨0, 4, 3, 0, .async, 5⟩, by decide, rfl⟩
  have hget : getSourceFileAndLine [] 5 (some (dumpCallsiteInfo commaEntries)) =
      .error .invalidArgument := by rfl
  refine ⟨G, hrun, iterates_commaEntries hrun, hget, fun h => ?_⟩
  obtain ⟨d, m', -, h⟩ := h [] .init e he (by rw [hadd]; decide)
  rw [hadd, hget] at h
  cases h

end TaskProf.Analysis
