import TaskProf.Analysis.CreateDpst
import TaskProf.Collection.TaskLogger

/-!
# From the logger to the graph

`create_dpst` of the analysis phase reads the files that `Task_Logger` of the
collection phase writes.

* `readLine_line`: a printed entry is read back.
* `createDpst_files`: from the files of the logger `create_dpst` builds the graph
  of their entries, in whatever order and in whichever files they stand.
-/

namespace TaskProf.Analysis

open Collection (StepWorkData fileText)

/-! ## Lines -/

/-- What an entry says about its node: all but the number of children. -/
def nodeOf (e : StepWorkData) : AFTask where
  spRootNWtFlag := decide (e.nodeType = .finish ∧ e.retAddr ≠ 0)
  parent := e.stepParent.toNat
  type := e.nodeType
  numChildren := 0
  tProf := { ProfilerData.zero with
    work := if e.nodeType = .step then e.work else 0
    regionWork := if e.nodeType = .step then e.regionWork else none }
  callSite := e.retAddr

/-- The entry is one of the graph: its ids are inside the node array, it has a
    type, and only a STEP has regions, at least one. -/
structure Readable (e : StepWorkData) : Prop where
  pos : 0 < e.nodeId.toNat
  id_lt : e.nodeId.toNat < numGraphNodes
  parent_lt : e.stepParent.toNat < numGraphNodes
  type : e.nodeType ≠ .noType
  regions : ∀ m, e.regionWork = some m → e.nodeType = .step ∧ m.entries ≠ []

theorem notMem_fields {c : Char} (hc : c.isDigit = false) {e : StepWorkData} {f : List Char}
    (hf : f ∈ e.fields) : c ∉ f ∧ f ≠ [] := by
  have hdec : ∀ n, c ∉ decimal n ∧ decimal n ≠ [] :=
    fun n => ⟨notMem_decimal hc n, decimal_ne_nil n⟩
  unfold StepWorkData.fields at hf
  rcases List.mem_append.mp hf with hf | hf
  · simp only [List.mem_cons, List.not_mem_nil, or_false] at hf
    rcases hf with rfl | rfl | rfl | rfl <;> exact hdec _
  · cases hm : e.regionWork with
    | none =>
      rw [hm] at hf
      cases hf
    | some m =>
      rw [hm] at hf
      obtain ⟨r, -, hr⟩ := List.mem_flatMap.mp hf
      simp only [List.mem_cons, List.not_mem_nil, or_false] at hr
      rcases hr with rfl | rfl <;> exact hdec _

/-- The fields of a line are read back. -/
theorem pieces_line (e : StepWorkData) :
    pieces ',' e.line = decimal e.nodeId.toNat :: e.fields :=
  pieces_fields (notMem_decimal (by decide) _) (decimal_ne_nil _) fun _ hf =>
    notMem_fields (by decide) hf

/-- A line is one line. -/
theorem newline_notMem_line (e : StepWorkData) : '\n' ∉ e.line := by
  unfold StepWorkData.line
  rw [List.mem_append, not_or]
  refine ⟨notMem_decimal (by decide) _, fun h => ?_⟩
  obtain ⟨f, hf, h⟩ := List.mem_flatMap.mp h
  rcases List.mem_cons.mp h with h | h
  · exact absurd h (by decide)
  · exact (notMem_fields (by decide) hf).1 h

theorem nodeTypeOf_code (ty : NodeType) : nodeTypeOf ty.code = .ok ty := by
  cases ty <;> rfl

theorem stoi_code (ty : NodeType) : stoi (decimal ty.code) = .ok ty.code := by
  apply stoi_decimal
  cases ty <;> decide

/-- Printed regions are read back, one after the other. -/
theorem readRegions_pairs (l : List (SizeT × SizeT)) (rwMap : Option CallSiteWork) :
    readRegions (l.flatMap fun r => [decimal r.1.toNat, decimal r.2.toNat]) rwMap =
      .ok (if l = [] then rwMap
        else some (l.foldl (fun m e => m.add e.1 e.2) (rwMap.getD .empty))) := by
  induction l generalizing rwMap with
  | nil => rfl
  | cons r l ih =>
    rw [List.flatMap_cons, List.cons_append, List.singleton_append, readRegions, stoul_decimal,
      stoul_decimal]
    show readRegions _ _ = _
    rw [ih, if_neg (List.cons_ne_nil r l), List.foldl_cons, Option.getD_some]
    split_ifs with hl
    · rw [hl]
      rfl
    · rfl

/-- The regions of an entry are read back. -/
theorem readRegions_fields {e : StepWorkData} (he : Readable e) :
    readRegions (e.fields.drop 4) none = .ok e.regionWork := by
  unfold StepWorkData.fields
  cases hm : e.regionWork with
  | none => rfl
  | some m =>
    show readRegions (m.entries.flatMap fun r => [decimal r.1.toNat, decimal r.2.toNat]) none = _
    rw [readRegions_pairs, if_neg (he.regions m hm).2, Option.getD_none, AccMap.foldl_add_empty]

/-! ## One entry -/

/-- What an entry adds to the graph. -/
def addEntry (G : AFTaskGraph) (e : StepWorkData) : AFTaskGraph where
  lastAllocatedNode := G.lastAllocatedNode + 1
  tgraphNodes i :=
    { (if i = e.nodeId.toNat then nodeOf e else G.tgraphNodes i) with
      numChildren := (G.tgraphNodes i).numChildren +
        if i ≠ 0 ∧ i = e.stepParent.toNat then 1 else 0 }
  callSiteMap := G.callSiteMap

/-- No entry has been read for node `i`. -/
def Unread (G : AFTaskGraph) (i : ℕ) : Prop :=
  G.tgraphNodes i = { AFTask.zero with numChildren := (G.tgraphNodes i).numChildren }

section Stages

variable {G : AFTaskGraph} {i : ℕ}

theorem modifyNode_eq (hi : i < numGraphNodes) (f : AFTask → AFTask) :
    modifyNode G i f = .ok (setNode G i (f (G.tgraphNodes i))) :=
  if_pos hi

theorem initializeTask_eq {e : StepWorkData} (he : Readable e) (hu : Unread G e.nodeId.toNat) :
    initializeTask G e.nodeId.toNat e.nodeType e.retAddr e.stepParent.toNat =
      .ok (setNode { G with lastAllocatedNode := G.lastAllocatedNode + 1 } e.nodeId.toNat
        { nodeOf e with
          numChildren := (G.tgraphNodes e.nodeId.toNat).numChildren
          tProf := .zero }) := by
  unfold initializeTask
  rw [modifyNode_eq he.id_lt]
  dsimp only
  rw [hu]
  rfl

/-- Counting a child changes the counter of the parent only. -/
theorem countChild_eq (hi : i < numGraphNodes) :
    countChild G i = .ok { G with
      tgraphNodes := fun j => { G.tgraphNodes j with
        numChildren := (G.tgraphNodes j).numChildren + if j ≠ 0 ∧ j = i then 1 else 0 } } := by
  unfold countChild
  split_ifs with h0
  · refine congrArg Except.ok ?_
    have hno : ∀ j, ¬(j ≠ 0 ∧ j = i) := fun j hj => hj.1 (hj.2.trans h0)
    simp only [if_neg (hno _), Nat.add_zero]
  · rw [modifyNode_eq hi]
    refine congrArg Except.ok ?_
    unfold setNode
    rw [AFTaskGraph.mk.injEq]
    refine ⟨rfl, funext fun j => ?_, rfl⟩
    by_cases hj : j = i
    · subst hj
      rw [Function.update_self, if_pos ⟨h0, rfl⟩]
    · rw [Function.update_of_ne hj, if_neg fun h => hj h.2]
      rfl

theorem readStepWork_eq {e : StepWorkData} (he : Readable e)
    (hr : (G.tgraphNodes e.nodeId.toNat).tProf = .zero) :
    readStepWork G e.nodeId.toNat (e.fields.drop 3) =
      .ok (setNode G e.nodeId.toNat { G.tgraphNodes e.nodeId.toNat with
        tProf := { ProfilerData.zero with work := e.work, regionWork := e.regionWork } }) := by
  have hfields : e.fields.drop 3 = decimal e.work.toNat :: e.fields.drop 4 := rfl
  unfold readStepWork
  rw [hfields, List.getD_cons_zero, stoul_decimal, List.drop_succ_cons, List.drop_zero, hr]
  show (readRegions (e.fields.drop 4) none >>= _) = _
  rw [readRegions_fields he]
  simp only [bind, Except.bind]
  rw [modifyNode_eq he.id_lt, hr]

end Stages

/-- **A printed entry is read back.** -/
theorem readLine_line {G : AFTaskGraph} {e : StepWorkData} (he : Readable e)
    (hu : Unread G e.nodeId.toNat) : readLine G e.line = .ok (addEntry G e) := by
  have hfields : e.fields = decimal e.stepParent.toNat :: decimal e.nodeType.code ::
      decimal e.retAddr.toNat :: e.fields.drop 3 := rfl
  unfold readLine
  rw [pieces_line, hfields]
  simp only [List.getD_cons_zero, List.getD_cons_succ, List.drop_succ_cons, List.drop_zero,
    stoul_decimal, stoi_code, nodeTypeOf_code, bind, Except.bind, initializeTask_eq he hu,
    countChild_eq he.parent_lt]
  split_ifs with hstep
  · rw [readStepWork_eq he (by simp [setNode])]
    refine congrArg Except.ok ?_
    unfold setNode addEntry
    rw [AFTaskGraph.mk.injEq]
    refine ⟨rfl, funext fun j => ?_, rfl⟩
    by_cases hj : j = e.nodeId.toNat
    · simp [hj, nodeOf, hstep]
    · simp [hj]
  · refine congrArg Except.ok ?_
    have hnone : e.regionWork = none := by
      cases hm : e.regionWork with
      | none => rfl
      | some m => exact absurd (he.regions m hm).1 hstep
    unfold setNode addEntry
    rw [AFTaskGraph.mk.injEq]
    refine ⟨rfl, funext fun j => ?_, rfl⟩
    by_cases hj : j = e.nodeId.toNat
    · simp [hj, nodeOf, hstep, ProfilerData.zero]
    · simp [hj]

/-! ## All entries -/

/-- The entries of a graph: each can be read, and no two are for one node. -/
structure WellLogged (es : List StepWorkData) : Prop where
  readable : ∀ e ∈ es, Readable e
  nodup : (es.map StepWorkData.nodeId).Nodup

/-- The files of the 32 threads, as they are read. -/
def folderOf (files : Fin 32 → List StepWorkData) (t : Fin 32) : Option (List Char) :=
  some (fileText (files t))

/-- The entries of all files. -/
def entriesOf (files : Fin 32 → List StepWorkData) : List StepWorkData :=
  (List.finRange 32).flatMap files

section Entries

variable {G : AFTaskGraph} {es es' : List StepWorkData} {i : ℕ}

theorem WellLogged.of_cons {e : StepWorkData} (h : WellLogged (e :: es)) :
    Readable e ∧ WellLogged es ∧ ∀ e' ∈ es, e.nodeId.toNat ≠ e'.nodeId.toNat := by
  have hn := h.nodup
  rw [List.map_cons, List.nodup_cons] at hn
  refine ⟨h.readable e (List.mem_cons_self ..),
    ⟨fun e' he' => h.readable e' (List.mem_cons_of_mem e he'), hn.2⟩, fun e' he' heq => hn.1 ?_⟩
  rw [BitVec.toNat_inj.mp heq]
  exact List.mem_map_of_mem he'

theorem WellLogged.of_append (h : WellLogged (es ++ es')) :
    WellLogged es ∧ WellLogged es' ∧
      ∀ e ∈ es, ∀ e' ∈ es', e.nodeId.toNat ≠ e'.nodeId.toNat := by
  have hn := h.nodup
  rw [List.map_append, List.nodup_append] at hn
  refine ⟨⟨fun e he => h.readable e (List.mem_append_left _ he), hn.1⟩,
    ⟨fun e he => h.readable e (List.mem_append_right _ he), hn.2.1⟩, fun e he e' he' heq => ?_⟩
  exact hn.2.2 _ (List.mem_map_of_mem he) _ (List.mem_map_of_mem he') (BitVec.toNat_inj.mp heq)

theorem WellLogged.perm (h : WellLogged es) (hp : es.Perm es') : WellLogged es' :=
  ⟨fun e he => h.readable e (hp.mem_iff.mpr he), (hp.map StepWorkData.nodeId).nodup_iff.mp h.nodup⟩

theorem Unread.addEntry (hu : Unread G i) {e : StepWorkData} (hi : i ≠ e.nodeId.toNat) :
    Unread (addEntry G e) i := by
  unfold Unread at hu ⊢
  simp only [Analysis.addEntry, if_neg hi]
  rw [hu]

theorem Unread.foldl (hu : Unread G i) (hi : ∀ e ∈ es, i ≠ e.nodeId.toNat) :
    Unread (es.foldl Analysis.addEntry G) i := by
  induction es generalizing G with
  | nil => exact hu
  | cons e es ih =>
    exact ih (hu.addEntry (hi e (List.mem_cons_self ..))) fun e' he' =>
      hi e' (List.mem_cons_of_mem e he')

/-- The lines of one file. -/
theorem foldlM_readLine (h : WellLogged es) (hu : ∀ e ∈ es, Unread G e.nodeId.toNat) :
    (es.map StepWorkData.line).foldlM readLine G = .ok (es.foldl addEntry G) := by
  induction es generalizing G with
  | nil => rfl
  | cons e es ih =>
    obtain ⟨he, hes, hne⟩ := h.of_cons
    rw [List.map_cons, List.foldlM_cons, readLine_line he (hu e (List.mem_cons_self ..))]
    exact ih hes fun e' he' =>
      (hu e' (List.mem_cons_of_mem e he')).addEntry (hne e' he').symm

theorem pieces_fileText (es : List StepWorkData) :
    pieces '\n' (fileText es) = es.map StepWorkData.line := by
  have hl : ∀ s ∈ es.map StepWorkData.line, '\n' ∉ s := by
    intro s hs
    obtain ⟨e, -, rfl⟩ := List.mem_map.mp hs
    exact newline_notMem_line e
  unfold fileText
  rw [← pieces_flatMap hl, List.flatMap_map]

/-- The files, one after the other. -/
theorem foldlM_readFile {files : Fin 32 → List StepWorkData} {ts : List (Fin 32)}
    (h : WellLogged (ts.flatMap files)) (hu : ∀ e ∈ ts.flatMap files, Unread G e.nodeId.toNat) :
    ts.foldlM (fun G t => readFile G (folderOf files t)) G =
      .ok ((ts.flatMap files).foldl addEntry G) := by
  induction ts generalizing G with
  | nil => rfl
  | cons t ts ih =>
    rw [List.flatMap_cons] at h hu ⊢
    obtain ⟨hes, hes', hne⟩ := h.of_append
    have hfile : readFile G (folderOf files t) = .ok ((files t).foldl addEntry G) := by
      show (pieces '\n' (fileText (files t))).foldlM readLine G = _
      rw [pieces_fileText]
      exact foldlM_readLine hes fun e he => hu e (List.mem_append_left _ he)
    rw [List.foldlM_cons, hfile, List.foldl_append]
    exact ih hes' fun e' he' =>
      (hu e' (List.mem_append_right _ he')).foldl fun e he => (hne e he e' he').symm

/-! ## The graph -/

theorem foldl_addEntry_lastAllocatedNode (es : List StepWorkData) (G : AFTaskGraph) :
    (es.foldl addEntry G).lastAllocatedNode = G.lastAllocatedNode + es.length := by
  induction es generalizing G with
  | nil => rfl
  | cons e es ih =>
    rw [List.foldl_cons, ih, List.length_cons]
    show G.lastAllocatedNode + 1 + es.length = _
    omega

theorem foldl_addEntry_callSiteMap (es : List StepWorkData) (G : AFTaskGraph) :
    (es.foldl addEntry G).callSiteMap = G.callSiteMap := by
  induction es generalizing G with
  | nil => rfl
  | cons e es ih => exact ih (addEntry G e)

theorem foldl_addEntry_numChildren (es : List StepWorkData) (G : AFTaskGraph) (i : ℕ) :
    ((es.foldl addEntry G).tgraphNodes i).numChildren = (G.tgraphNodes i).numChildren +
      if i = 0 then 0 else es.countP fun e => e.stepParent.toNat = i := by
  induction es generalizing G with
  | nil => simp
  | cons e es ih =>
    rw [List.foldl_cons, ih]
    by_cases h0 : i = 0
    · simp [addEntry, h0]
    · by_cases hi : e.stepParent.toNat = i
      · simp only [addEntry, h0, hi, if_false, List.countP_cons, not_false_iff, ne_eq, and_true,
          if_true, decide_true]
        omega
      · have hi' : ¬i = e.stepParent.toNat := fun h => hi h.symm
        simp [addEntry, h0, hi, hi']

theorem foldl_addEntry_of_notMem (hi : ∀ e ∈ es, i ≠ e.nodeId.toNat) :
    (es.foldl addEntry G).tgraphNodes i = { G.tgraphNodes i with
      numChildren := ((es.foldl addEntry G).tgraphNodes i).numChildren } := by
  induction es generalizing G with
  | nil => rfl
  | cons e es ih =>
    rw [List.foldl_cons, ih fun e' he' => hi e' (List.mem_cons_of_mem e he')]
    have hne := hi e (List.mem_cons_self ..)
    simp [addEntry, hne]

theorem foldl_addEntry_of_mem (hn : WellLogged es) {e : StepWorkData} (he : e ∈ es) :
    (es.foldl addEntry G).tgraphNodes e.nodeId.toNat = { nodeOf e with
      numChildren := ((es.foldl addEntry G).tgraphNodes e.nodeId.toNat).numChildren } := by
  induction es generalizing G with
  | nil => cases he
  | cons e' es ih =>
    obtain ⟨-, hes, hne⟩ := hn.of_cons
    rw [List.foldl_cons]
    rcases List.mem_cons.mp he with rfl | he
    · rw [foldl_addEntry_of_notMem hne]
      simp [addEntry]
    · exact ih hes he

/-- The graph of the entries. -/
def graphOf (es : List StepWorkData) : AFTaskGraph := es.foldl addEntry emptyGraph

theorem graphOf_of_mem (h : WellLogged es) {e : StepWorkData} (he : e ∈ es) :
    (graphOf es).tgraphNodes e.nodeId.toNat =
      { nodeOf e with numChildren := es.countP fun c => c.stepParent = e.nodeId } := by
  have hpos := (h.readable e he).pos
  unfold graphOf
  rw [foldl_addEntry_of_mem h he, foldl_addEntry_numChildren, if_neg hpos.ne']
  simp only [← BitVec.toNat_inj]
  rw [show (emptyGraph.tgraphNodes e.nodeId.toNat).numChildren = 0 from rfl, Nat.zero_add]

theorem graphOf_of_notMem (hi : ∀ e ∈ es, i ≠ e.nodeId.toNat) :
    (graphOf es).tgraphNodes i = { AFTask.zero with
      numChildren := if i = 0 then 0 else es.countP fun c => c.stepParent.toNat = i } := by
  unfold graphOf
  rw [foldl_addEntry_of_notMem hi, foldl_addEntry_numChildren,
    show (emptyGraph.tgraphNodes i).numChildren = 0 from rfl, Nat.zero_add]
  rfl

/-- The order of the entries does not matter. -/
theorem graphOf_perm (h : WellLogged es) (hp : es'.Perm es) : graphOf es' = graphOf es := by
  have h' : WellLogged es' := h.perm hp.symm
  have hnodes : (graphOf es').tgraphNodes = (graphOf es).tgraphNodes := by
    funext i
    by_cases hi : ∃ e ∈ es, i = e.nodeId.toNat
    · obtain ⟨e, he, rfl⟩ := hi
      rw [graphOf_of_mem h he, graphOf_of_mem h' (hp.mem_iff.mpr he), hp.countP_eq]
    · have hi : ∀ e ∈ es, i ≠ e.nodeId.toNat := fun e he hie => hi ⟨e, he, hie⟩
      rw [graphOf_of_notMem hi, graphOf_of_notMem fun e he => hi e (hp.mem_iff.mp he),
        hp.countP_eq]
  have hlast : (graphOf es').lastAllocatedNode = (graphOf es).lastAllocatedNode := by
    unfold graphOf
    rw [foldl_addEntry_lastAllocatedNode, foldl_addEntry_lastAllocatedNode, hp.length_eq]
  have hmap : (graphOf es').callSiteMap = (graphOf es).callSiteMap := by
    unfold graphOf
    rw [foldl_addEntry_callSiteMap, foldl_addEntry_callSiteMap]
  generalize graphOf es' = G' at hnodes hlast hmap ⊢
  generalize graphOf es = G at hnodes hlast hmap ⊢
  cases G
  cases G'
  rw [AFTaskGraph.mk.injEq]
  exact ⟨hlast, hnodes, hmap⟩

/-- The files make the graph of their entries. -/
theorem createDpst_folderOf {files : Fin 32 → List StepWorkData}
    (h : WellLogged (entriesOf files)) :
    createDpst (folderOf files) = .ok (graphOf (entriesOf files)) :=
  foldlM_readFile h fun _ _ => rfl

end Entries

/-- **Log writer and reader agree.** `create_dpst` rebuilds the node of every entry
    and counts its children, and all else stays zero. The entries may stand in any
    order and in any of the files. -/
theorem createDpst_files {files : Fin 32 → List StepWorkData} (h : WellLogged (entriesOf files)) :
    ∃ G, createDpst (folderOf files) = .ok G ∧
      G.lastAllocatedNode = (entriesOf files).length ∧
      (∀ e ∈ entriesOf files, G.tgraphNodes e.nodeId.toNat = { nodeOf e with
        numChildren := (entriesOf files).countP fun c => c.stepParent = e.nodeId }) ∧
      (∀ i, (∀ e ∈ entriesOf files, i ≠ e.nodeId.toNat) →
        G.tgraphNodes i = { AFTask.zero with
          numChildren := if i = 0 then 0
            else (entriesOf files).countP fun c => c.stepParent.toNat = i }) ∧
      ∀ files' : Fin 32 → List StepWorkData, (entriesOf files').Perm (entriesOf files) →
        createDpst (folderOf files') = .ok G := by
  refine ⟨graphOf (entriesOf files), createDpst_folderOf h, ?_, fun e he => graphOf_of_mem h he,
    fun i hi => graphOf_of_notMem hi, fun files' hp => ?_⟩
  · unfold graphOf
    rw [foldl_addEntry_lastAllocatedNode]
    exact Nat.zero_add _
  · rw [createDpst_folderOf (h.perm hp.symm), graphOf_perm h hp]

/-- Two nodes in file 0 and a step with a region in file 1. -/
def twoFiles (t : Fin 32) : List StepWorkData :=
  if t = 0 then [⟨0, 0, 1, .finish, 0, none⟩, ⟨1, 6, 3, .step, 0, none⟩]
  else if t = 1 then [⟨1, 9, 2, .step, 0, some (AccMap.empty.add 77 4)⟩]
  else []

theorem twoFiles_graph : ∃ G, createDpst (folderOf twoFiles) = .ok G ∧
    (G.tgraphNodes 1).numChildren = 2 := by
  have hentries : entriesOf twoFiles = [⟨0, 0, 1, .finish, 0, none⟩, ⟨1, 6, 3, .step, 0, none⟩,
      ⟨1, 9, 2, .step, 0, some (AccMap.empty.add 77 4)⟩] := rfl
  have h : WellLogged (entriesOf twoFiles) := by
    rw [hentries]
    refine ⟨fun e he => ?_, by decide⟩
    simp only [List.mem_cons, List.not_mem_nil, or_false] at he
    rcases he with rfl | rfl | rfl
    · exact ⟨by decide, by decide, by decide, by decide, fun m hm => by cases hm⟩
    · exact ⟨by decide, by decide, by decide, by decide, fun m hm => by cases hm⟩
    · refine ⟨by decide, by decide, by decide, by decide, fun m hm => ⟨rfl, ?_⟩⟩
      rw [← Option.some.inj hm]
      decide
  obtain ⟨G, hG, -, hmem, -⟩ := createDpst_files h
  refine ⟨G, hG, ?_⟩
  have hone := hmem ⟨0, 0, 1, .finish, 0, none⟩ (by rw [hentries]; exact List.mem_cons_self ..)
  exact congrArg AFTask.numChildren hone

end TaskProf.Analysis
