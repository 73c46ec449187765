import TaskProf.Collection.TaskGraph
import TaskProf.Lib.Text

/-!
# The call sites of a run

The call sites that `CaptureSetTaskId` records, and `dumpCallsiteInfo` of
`collection_phase/src/AFTaskGraph.cpp` (lines 224–237).

* `firstSite`: the data of the first call that supplies an address.
* `run_callSiteMap`: `callSiteMap` holds the first data of every address.
* `run_tracked`: a logged address is in the map, and a recorded one is logged.
-/

namespace TaskProf.Collection

/-! ## Runs of the task graph -/

/-- What a call of `CaptureSetTaskId` supplies for an address. -/
def Site.supplied (site : Site) (returnAddress : SizeT) : Option CallSiteData :=
  match site.file with
  | none => none
  | some file =>
    if site.line = 0 ∨ site.returnAddress ≠ returnAddress then none
    else some ⟨file, site.line, site.parFor⟩

/-- The operations of the task graph. -/
inductive GraphOp
  | setTaskId (t : ThreadId) (taskId : ℕ) (spOnly : Bool) (site : Site)
  | setTaskIdWait (t : ThreadId) (taskId : ℕ) (site : Site)
  | execute (t : ThreadId) (taskId : ℕ)
  | wait (t : ThreadId)
  | waitOnly (t : ThreadId)
  | ret (t : ThreadId)
  | step (t : ThreadId) (count : SizeT)

namespace GraphOp

def apply (G : AFTaskGraph) : GraphOp → Except Fault AFTaskGraph
  | .setTaskId t taskId spOnly site => G.captureSetTaskId t taskId spOnly site
  | .setTaskIdWait t taskId site => G.captureSetTaskIdWait t taskId site
  | .execute t taskId => G.captureExecute t taskId
  | .wait t => G.captureWait t
  | .waitOnly t => G.captureWaitOnly t
  | .ret t => G.captureReturn t
  | .step t count => G.logStep t count

/-- The site of a call of `CaptureSetTaskId`. -/
def site : GraphOp → Option Site
  | .setTaskId _ _ _ site => some site
  | .setTaskIdWait _ _ site => some site
  | _ => none

def supplied (op : GraphOp) (returnAddress : SizeT) : Option CallSiteData :=
  op.site.bind fun site => site.supplied returnAddress

/-- A run from the start. -/
def run (ops : List GraphOp) : Except Fault AFTaskGraph := ops.foldlM apply .init

/-- The first call with a file and a line that supplies the address. -/
def firstSite (ops : List GraphOp) (returnAddress : SizeT) : Option CallSiteData :=
  ops.findSome? fun op => op.supplied returnAddress

end GraphOp

/-! ## The file -/

/-- What follows the address in a line of `callsite_info.csv`. -/
def siteText (d : CallSiteData) : List Char :=
  d.csFilename ++ ',' :: (decimalInt d.csLineNumber ++ ',' :: decimal d.parFor.toNat)

/-- A line (lines 230–233), without the line break. -/
def callSiteLine (e : SizeT × CallSiteData) : List Char := decimal e.1.toNat ++ ',' :: siteText e.2

/-- `dumpCallsiteInfo`, with the entries of the map in the order of its iteration. -/
def dumpCallsiteInfo (entries : List (SizeT × CallSiteData)) : List Char :=
  entries.flatMap fun e => callSiteLine e ++ ['\n']

/-- An iteration over the map. -/
structure Iterates (m : SizeT → Option CallSiteData) (entries : List (SizeT × CallSiteData)) :
    Prop where
  nodup : (entries.map Prod.fst).Nodup
  mem : ∀ e, e ∈ entries ↔ m e.1 = some e.2

/-! ## What the operations do to the map -/

section Steps

variable {G G' : AFTaskGraph} {t : ThreadId} {taskId : ℕ} {a : SizeT}

theorem recordSite_callSiteMap (G : AFTaskGraph) (site : Site) (a : SizeT) :
    (G.recordSite site).callSiteMap a = (G.callSiteMap a).or (site.supplied a) := by
  unfold AFTaskGraph.recordSite Site.supplied
  cases site.file with
  | none => exact (Option.or_none ..).symm
  | some file =>
    dsimp only
    by_cases hl : site.line = 0
    · rw [if_pos hl, if_pos (.inl hl), Option.or_none]
    · rw [if_neg hl]
      show Function.update G.callSiteMap site.returnAddress _ a = _
      by_cases ha : site.returnAddress = a
      · subst ha
        rw [if_neg (by simp [hl]), Function.update_self]
        cases G.callSiteMap site.returnAddress <;> rfl
      · rw [if_pos (.inr ha), Function.update_of_ne (Ne.symm ha), Option.or_none]

/-- A non-zero address that is passed on is supplied. -/
theorem supplied_address {site : Site} (h : site.address ≠ 0) :
    site.supplied site.address ≠ none := by
  by_cases hs : site.line = 0 ∨ site.file = none
  · unfold Site.address at h
    rw [if_pos hs] at h
    exact absurd rfl h
  · have hadd : site.address = site.returnAddress := if_neg hs
    rw [not_or] at hs
    obtain ⟨file, hf⟩ := Option.ne_none_iff_exists'.mp hs.2
    rw [hadd]
    unfold Site.supplied
    rw [hf]
    dsimp only
    rw [if_neg (by simp [hs.1])]
    exact Option.some_ne_none _

/-- An address is supplied by the calls that pass it on. -/
theorem address_of_supplied {site : Site} {d : CallSiteData} (h : site.supplied a = some d) :
    site.address = a := by
  unfold Site.supplied at h
  unfold Site.address
  cases hf : site.file with
  | none =>
    rw [hf] at h
    cases h
  | some file =>
    rw [hf] at h
    dsimp only at h
    split_ifs at h with hs
    rw [not_or, not_not] at hs
    rw [if_neg (by simp [hs.1]), hs.2]

/-- A spawn logs the address, and leaves the map. -/
structure LogsAddress (G G' : AFTaskGraph) (a : SizeT) : Prop where
  callSiteMap : G'.callSiteMap = G.callSiteMap
  logged : ∃ es, G'.logged = G.logged ++ es ∧ (∃ e ∈ es, e.retAddr = a) ∧
    ∀ e ∈ es, e.retAddr = 0 ∨ e.retAddr = a

theorem captureSpawnOnly_eq_ok (h : G.captureSpawnOnly t taskId a = .ok G') :
    LogsAddress G G' a := by
  rcases hs : G.curDpstIndex t with _ | ⟨curNode, rest⟩
  · simp [AFTaskGraph.captureSpawnOnly, AFTaskGraph.newAsync, hs, bind, Except.bind] at h
  · by_cases hy : curNode.youngNsChild = .async
    · rw [AFTaskGraph.captureSpawnOnly_async hs _ _ hy] at h
      rw [← Except.ok.inj h]
      exact ⟨rfl, _, rfl, by simp, by simp⟩
    · rw [AFTaskGraph.captureSpawnOnly_other hs _ _ hy] at h
      rw [← Except.ok.inj h]
      exact ⟨rfl, _, rfl, by simp, by simp⟩

theorem captureSpawnAndWaitForAll_eq_ok (h : G.captureSpawnAndWaitForAll t taskId a = .ok G') :
    LogsAddress G G' a := by
  rcases hs : G.curDpstIndex t with _ | ⟨curNode, rest⟩
  · simp [AFTaskGraph.captureSpawnAndWaitForAll, AFTaskGraph.newAsync, hs, bind, Except.bind] at h
  · by_cases hy : curNode.youngNsChild = .async
    · rw [AFTaskGraph.captureSpawnAndWaitForAll_async hs _ _ hy] at h
      rw [← Except.ok.inj h]
      exact ⟨rfl, _, rfl, by simp, by simp⟩
    · rw [AFTaskGraph.captureSpawnAndWaitForAll_other hs _ _ hy] at h
      rw [← Except.ok.inj h]
      exact ⟨rfl, _, rfl, by simp, by simp⟩

theorem captureSpawnAndWait_eq_ok (h : G.captureSpawnAndWait t taskId a = .ok G') :
    LogsAddress G G' a := by
  rcases hs : G.curDpstIndex t with _ | ⟨curNode, rest⟩
  · simp [AFTaskGraph.captureSpawnAndWait, hs] at h
  · rw [AFTaskGraph.captureSpawnAndWait_eq hs] at h
    rw [← Except.ok.inj h]
    exact ⟨rfl, _, rfl, by simp, by simp⟩

/-- Both versions of `CaptureSetTaskId` record their site, and then log its
    address. -/
theorem site_eq_ok {op : GraphOp} {site : Site} (hop : op.site = some site)
    (h : op.apply G = .ok G') : LogsAddress (G.recordSite site) G' site.address := by
  cases op with
  | setTaskId t taskId spOnly site' =>
    obtain rfl := Option.some.inj hop
    unfold GraphOp.apply AFTaskGraph.captureSetTaskId at h
    dsimp only at h
    split_ifs at h
    · exact captureSpawnOnly_eq_ok h
    · exact captureSpawnAndWait_eq_ok h
  | setTaskIdWait t taskId site' =>
    obtain rfl := Option.some.inj hop
    exact captureSpawnAndWaitForAll_eq_ok h
  | execute | wait | waitOnly | ret | step => cases hop

/-- The other operations log no address and leave the map. -/
theorem other_eq_ok {op : GraphOp} (hop : op.site = none) (h : op.apply G = .ok G') :
    G'.callSiteMap = G.callSiteMap ∧
      ∃ es, G'.logged = G.logged ++ es ∧ ∀ e ∈ es, e.retAddr = 0 := by
  cases op with
  | setTaskId | setTaskIdWait => cases hop
  | execute t taskId =>
    cases hk : G.tempCurMap taskId with
    | none =>
      simp [GraphOp.apply, AFTaskGraph.captureExecute, hk] at h
    | some node =>
      rw [GraphOp.apply, AFTaskGraph.captureExecute_eq hk] at h
      rw [← Except.ok.inj h]
      exact ⟨rfl, [], (List.append_nil _).symm, by simp⟩
  | wait t =>
    cases hs : G.curDpstIndex t with
    | nil => simp [GraphOp.apply, AFTaskGraph.captureWait, AFTaskGraph.refreshChild, hs] at h
    | cons curNode rest =>
      rw [GraphOp.apply, AFTaskGraph.captureWait, AFTaskGraph.refreshChild_eq hs] at h
      rw [← Except.ok.inj h]
      exact ⟨rfl, [], rfl, by simp⟩
  | waitOnly t =>
    cases hs : G.curDpstIndex t with
    | nil =>
      simp [GraphOp.apply, AFTaskGraph.captureWaitOnly, AFTaskGraph.pop, hs, bind, Except.bind] at h
    | cons curNode rest =>
      rw [GraphOp.apply, AFTaskGraph.captureWaitOnly_eq hs] at h
      have htop : (G.setStack t rest).curDpstIndex t = rest := Function.update_self ..
      cases rest with
      | nil => simp [AFTaskGraph.refreshChild] at h
      | cons node rest' =>
        rw [AFTaskGraph.refreshChild_eq htop] at h
        rw [← Except.ok.inj h]
        exact ⟨rfl, [], rfl, by simp⟩
  | ret t =>
    cases hs : G.curDpstIndex t with
    | nil =>
      simp [GraphOp.apply, AFTaskGraph.captureReturn, AFTaskGraph.top, hs, bind, Except.bind] at h
    | cons curNode rest =>
      rw [GraphOp.apply, AFTaskGraph.captureReturn_eq hs] at h
      split_ifs at h
      · cases rest with
        | nil => cases h
        | cons node rest' =>
          rw [← Except.ok.inj h]
          exact ⟨rfl, [], (List.append_nil _).symm, by simp⟩
      · rw [← Except.ok.inj h]
        exact ⟨rfl, [], (List.append_nil _).symm, by simp⟩
  | step t count =>
    cases hs : G.curDpstIndex t with
    | nil => simp [GraphOp.apply, AFTaskGraph.logStep, AFTaskGraph.top, hs, bind, Except.bind] at h
    | cons curNode rest =>
      rw [GraphOp.apply, AFTaskGraph.logStep_eq hs] at h
      rw [← Except.ok.inj h]
      exact ⟨rfl, _, rfl, by simp⟩

end Steps

/-! ## Runs -/

section Runs

variable {G G' : AFTaskGraph} {op : GraphOp} {ops : List GraphOp} {a : SizeT} {d : CallSiteData}

/-- An address keeps the data that it has. -/
theorem apply_callSiteMap (h : op.apply G = .ok G') (a : SizeT) :
    G'.callSiteMap a = (G.callSiteMap a).or (op.supplied a) := by
  unfold GraphOp.supplied
  cases hop : op.site with
  | none => rw [(other_eq_ok hop h).1, Option.bind_none, Option.or_none]
  | some site => rw [(site_eq_ok hop h).callSiteMap, recordSite_callSiteMap, Option.bind_some]

theorem foldlM_callSiteMap (h : ops.foldlM GraphOp.apply G = .ok G') (a : SizeT) :
    G'.callSiteMap a = (G.callSiteMap a).or (GraphOp.firstSite ops a) := by
  induction ops generalizing G with
  | nil =>
    rw [← Except.ok.inj h]
    exact (Option.or_none ..).symm
  | cons op ops ih =>
    obtain ⟨G₁, h1, h2⟩ := bind_eq_ok.mp h
    rw [ih h2, apply_callSiteMap h1, Option.or_assoc]
    unfold GraphOp.firstSite
    rw [List.findSome?_cons]
    cases op.supplied a <;> rfl

/-- The map holds what the first call has supplied. -/
theorem run_callSiteMap (h : GraphOp.run ops = .ok G) : G.callSiteMap = GraphOp.firstSite ops :=
  funext fun a => foldlM_callSiteMap h a

/-- The addresses in the log are those in the map. -/
structure Tracked (G : AFTaskGraph) : Prop where
  recorded : ∀ e ∈ G.logged, e.retAddr ≠ 0 → G.callSiteMap e.retAddr ≠ none
  logged : ∀ a, G.callSiteMap a ≠ none → ∃ e ∈ G.logged, e.retAddr = a

theorem tracked_init : Tracked .init where
  recorded := by
    intro e he hne
    rw [List.mem_singleton.mp he] at hne
    exact absurd rfl hne
  logged := fun a ha => absurd rfl ha

theorem Tracked.apply (hG : Tracked G) (h : op.apply G = .ok G') : Tracked G' := by
  have hmap := apply_callSiteMap h
  have hkeep : ∀ b, G.callSiteMap b ≠ none → G'.callSiteMap b ≠ none := by
    intro b hb
    rw [hmap b]
    exact fun hnone => hb (Option.or_eq_none_iff.mp hnone).1
  cases hop : op.site with
  | none =>
    obtain ⟨hm, es, hlog, hes⟩ := other_eq_ok hop h
    constructor
    · intro e he hne
      rw [hlog] at he
      rcases List.mem_append.mp he with he | he
      · exact hkeep _ (hG.recorded e he hne)
      · exact absurd (hes e he) hne
    · intro a ha
      rw [hm] at ha
      obtain ⟨e, he, rfl⟩ := hG.logged a ha
      exact ⟨e, hlog ▸ List.mem_append_left _ he, rfl⟩
  | some site =>
    have hsup : op.supplied = site.supplied := by
      unfold GraphOp.supplied
      rw [hop]
      rfl
    obtain ⟨hm, es, hlog, ⟨e₀, he₀, hadd⟩, hes⟩ := site_eq_ok hop h
    rw [AFTaskGraph.recordSite_logged] at hlog
    constructor
    · intro e he hne
      rw [hlog] at he
      rcases List.mem_append.mp he with he | he
      · exact hkeep _ (hG.recorded e he hne)
      · rcases hes e he with h0 | h0
        · exact absurd h0 hne
        · rw [h0] at hne ⊢
          rw [hmap, hsup]
          exact fun hnone => supplied_address hne (Option.or_eq_none_iff.mp hnone).2
    · intro a ha
      by_cases hold : G.callSiteMap a = none
      · rw [hmap, hold, Option.none_or, hsup] at ha
        obtain ⟨d, hd⟩ := Option.ne_none_iff_exists'.mp ha
        refine ⟨e₀, hlog ▸ List.mem_append_right _ he₀, ?_⟩
        rw [hadd, address_of_supplied hd]
      · obtain ⟨e, he, rfl⟩ := hG.logged a hold
        exact ⟨e, hlog ▸ List.mem_append_left _ he, rfl⟩

/-- So it is after every run. -/
theorem run_tracked (h : GraphOp.run ops = .ok G) : Tracked G :=
  foldlM_keeps Tracked (fun _ _ _ hG h => hG.apply h) tracked_init h

theorem supplied_of_ne {site : Site} (h : a ≠ site.returnAddress) : site.supplied a = none := by
  unfold Site.supplied
  split
  · rfl
  · rw [if_pos (.inr (Ne.symm h))]

theorem firstSite_eq_none
    (h : ∀ op ∈ ops, ∀ site, op.site = some site → a ≠ site.returnAddress) :
    GraphOp.firstSite ops a = none := by
  unfold GraphOp.firstSite
  rw [List.findSome?_eq_none_iff]
  intro op hop
  unfold GraphOp.supplied
  rw [Option.bind_eq_none_iff]
  intro site hs
  exact supplied_of_ne (h op hop site hs)

theorem Iterates.insert {m f : SizeT → Option CallSiteData}
    {entries : List (SizeT × CallSiteData)} (hm : Iterates m entries)
    (hf : ∀ b, b ≠ a → f b = none) : ∃ entries', Iterates (fun b => (m b).or (f b)) entries' := by
  by_cases hnew : m a = none ∧ f a ≠ none
  · obtain ⟨hma, hfa⟩ := hnew
    obtain ⟨d, hd⟩ := Option.ne_none_iff_exists'.mp hfa
    refine ⟨entries ++ [(a, d)], ?_, fun e => ?_⟩
    · rw [List.map_append, List.map_singleton, ← List.concat_eq_append]
      refine hm.nodup.concat fun hmem => ?_
      obtain ⟨e, he, rfl⟩ := List.mem_map.mp hmem
      have := (hm.mem e).mp he
      rw [hma] at this
      cases this
    · rw [List.mem_append, hm.mem, List.mem_singleton]
      by_cases he : e.1 = a
      · rw [he, hma, hd, Option.none_or, Option.some.injEq, Prod.ext_iff]
        constructor
        · rintro (h | h)
          · cases h
          · exact h.2.symm
        · exact fun h => .inr ⟨he, h.symm⟩
      · rw [hf _ he, Option.or_none, or_iff_left]
        rintro rfl
        exact he rfl
  · refine ⟨entries, hm.nodup, fun e => ?_⟩
    have heq : (m e.1).or (f e.1) = m e.1 := by
      by_cases he : e.1 = a
      · rw [he]
        cases hma : m a with
        | some d => rfl
        | none =>
          rw [not_and_not_right] at hnew
          exact hnew hma
      · rw [hf _ he, Option.or_none]
    rw [heq]
    exact hm.mem e

/-- The map of a run can be iterated. -/
theorem exists_iterates (h : GraphOp.run ops = .ok G) :
    ∃ entries, Iterates G.callSiteMap entries := by
  refine foldlM_keeps (fun G => ∃ entries, Iterates G.callSiteMap entries) ?_ ?_ h
  · rintro G G' op ⟨entries, hG⟩ h
    rw [funext (apply_callSiteMap h)]
    unfold GraphOp.supplied
    cases op.site with
    | none => exact hG.insert (a := 0) fun _ _ => rfl
    | some site => exact hG.insert fun b hb => supplied_of_ne hb
  · exact ⟨[], List.nodup_nil, by simp [AFTaskGraph.init, AFTaskGraph.createNode,
      AFTaskGraph.log, AFTaskGraph.setStack, AFTaskGraph.reserve]⟩

/-- What the C++ types promise of a site: `__LINE__` is an `int`, and a file name
    is one line of text. -/
structure Site.Plain (site : Site) : Prop where
  line : -2 ^ 31 ≤ site.line ∧ site.line < 2 ^ 31
  file : ∀ file, site.file = some file → '\n' ∉ file

theorem plain_firstSite (hops : ∀ op ∈ ops, ∀ site, op.site = some site → site.Plain)
    (h : GraphOp.firstSite ops a = some d) :
    (-2 ^ 31 ≤ d.csLineNumber ∧ d.csLineNumber < 2 ^ 31) ∧ '\n' ∉ d.csFilename := by
  obtain ⟨op, hop, hsup⟩ := List.exists_of_findSome?_eq_some h
  obtain ⟨site, hs, hd⟩ := Option.bind_eq_some_iff.mp hsup
  have hplain := hops op hop site hs
  unfold Site.supplied at hd
  cases hf : site.file with
  | none =>
    rw [hf] at hd
    cases hd
  | some file =>
    rw [hf] at hd
    dsimp only at hd
    split_ifs at hd
    rw [← Option.some.inj hd]
    exact ⟨hplain.line, hplain.file file hf⟩

end Runs

end TaskProf.Collection
