import TaskProf.Analysis.Graph

/-!
# The work and span pass

The functions of `analysis_phase/src/Task_Profiler.cpp` that
`GenerateProfile` runs over the task graph: `calculateRecurse`,
`checkUpdateParentWorkSpan`, `calculateWorkSpan`, `insert_cs_data`,
`merge_critical_call_sites` and `recursiveCall`.

`calculateRecurse` and `checkUpdateParentWorkSpan` are the counter-driven
sweep of `TaskProf.Lib.Sweep`, run with the actions of this pass.
-/

namespace TaskProf.Analysis

/-! ## Critical call sites -/

/-- `insert_cs_data` (lines 260–266). -/
def insertCsData (st : Profile) (csMap : Option ℕ) (callSite localLocalWork : SizeT) :
    Except Fault Profile := do
  let m ← st.maps.read csMap
  let maps ← st.maps.write csMap (m.add callSite localLocalWork)
  .ok { st with maps := maps }

/-- `merge_critical_call_sites` (lines 268–281). The loop body is the one of
    `insert_cs_data`. -/
def mergeCriticalCallSites (st : Profile) (source dest : Option ℕ) : Except Fault Profile :=
  match source with
  | none => .ok st
  | some _ => do
    let m ← st.maps.read source
    m.entries.foldlM (fun st e => insertCsData st dest e.1 e.2) st

/-! ## `calculateWorkSpan` -/

/-- Lines 219–248 for a FINISH node `n` with parent `p`: the span of the node,
    and what becomes of its call sites. -/
def finishCallSites (G : AFTaskGraph) (st : Profile) (n p : ℕ) : Except Fault Profile :=
  let node := G.tgraphNodes n
  if (st.tProf n).criticalChild ≤ (st.tProf n).localWork then
    let st := st.modify n fun d => { d with criticalChild := d.localWork }
    if node.spRootNWtFlag = true then do
      let callsiteData ← G.getSourceFileAndLine node.callSite
      if callsiteData.parFor = true then do
        let _ ← st.maps.read (st.tProf n).criticalCallSites
        let maps ← st.maps.write (st.tProf n).criticalCallSites .empty
        let st := { st with maps := maps }
        insertCsData st (st.tProf n).criticalCallSites node.callSite (st.tProf n).criticalChild
      else
        insertCsData st (st.tProf n).criticalCallSites node.callSite (st.tProf n).localLocalWork
    else if node.parent ≠ 0 then do
      let maps ← st.maps.free (st.tProf n).criticalCallSites
      let st := { st with maps := maps }
      let st := st.modify n fun d => { d with criticalCallSites := none }
      .ok (st.modify p fun d =>
        { d with localLocalWork := d.localLocalWork + (st.tProf n).localLocalWork })
    else .ok st
  else do
    let csMap ← st.maps.read (st.tProf n).criticalCallSites
    let sumCs := csMap.total
    .ok (st.modify p fun d =>
      { d with localLocalWork := d.localLocalWork + ((st.tProf n).criticalChild - sumCs) })

/-- `calculateWorkSpan` (lines 185–258). -/
def calculateWorkSpan (G : AFTaskGraph) (st : Profile) (n : ℕ) : Except Fault Profile :=
  let node := G.tgraphNodes n
  let p := node.parent
  match node.type with
  | .step =>
    let st := st.modify p fun d => { d with work := d.work + (st.tProf n).work }
    let st := st.modify p fun d => { d with localWork := d.localWork + (st.tProf n).work }
    .ok (st.modify p fun d => { d with localLocalWork := d.localLocalWork + (st.tProf n).work })
  | .async => do
    let st := st.modify p fun d => { d with work := d.work + (st.tProf n).work }
    let st :=
      if (st.tProf n).criticalChild ≤ (st.tProf n).localWork then
        st.modify n fun d => { d with criticalChild := d.localWork }
      else st
    let st ← insertCsData st (st.tProf n).criticalCallSites node.callSite
      (st.tProf n).localLocalWork
    let throughNode := (st.tProf n).criticalChild + (st.tProf n).parentWork
    if (st.tProf p).criticalChild < throughNode then do
      let st := st.modify p fun d => { d with criticalChild := throughNode }
      let maps ← st.maps.free (st.tProf p).criticalCallSites
      let st := { st with maps := maps }
      let st := st.modify p fun d =>
        { d with criticalCallSites := (st.tProf n).criticalCallSites }
      .ok (st.modify n fun d => { d with criticalCallSites := none })
    else .ok st
  | .finish => do
    let st := st.modify p fun d => { d with work := d.work + (st.tProf n).work }
    let st ← finishCallSites G st n p
    let st := st.modify p fun d => { d with localWork := d.localWork + (st.tProf n).criticalChild }
    if node.parent ≠ 0 then
      mergeCriticalCallSites st (st.tProf n).criticalCallSites (st.tProf p).criticalCallSites
    else .ok st
  | .noType => .ok st

/-! ## Recursive call sites -/

/-- `checkRecursiveCall` (lines 97–108). The parameter `call_site` is passed
    along and never read; the comparison on line 102 is between a node of the
    walk and its own parent. `fuel` bounds the depth of the recursion. -/
def checkRecursiveCall (G : AFTaskGraph) : ℕ → ℕ → SizeT → Except Fault Bool
  | 0, _, _ => .error .divergence
  | fuel + 1, n, callSite =>
    let node := G.tgraphNodes n
    if node.parent = 0 then .ok false
    else
      let parent := G.tgraphNodes node.parent
      if parent.callSite = node.callSite then .ok true
      else checkRecursiveCall G fuel node.parent callSite

/-- `recursiveCall` (lines 110–112). -/
def recursiveCall (G : AFTaskGraph) (n : ℕ) : Except Fault Bool :=
  checkRecursiveCall G (G.lastAllocatedNode + 1) n (G.tgraphNodes n).callSite

/-- The block that both `calculateRecurse` (lines 127–140) and
    `checkUpdateParentWorkSpan` (lines 165–177) run after
    `calculateWorkSpan`. -/
def updateWorkSpanMap (G : AFTaskGraph) (st : Profile) (n : ℕ) : Except Fault Profile :=
  let callSite := (G.tgraphNodes n).callSite
  if callSite ≠ 0 then do
    let recursive ← recursiveCall G n
    let wsdata : WorkSpanData := ⟨(st.tProf n).work, (st.tProf n).criticalChild, 1⟩
    if recursive = true then .ok st
    else .ok { st with workSpanMap := st.workSpanMap.add callSite wsdata }
  else .ok st

/-! ## The pass -/

/-- The `else` branch of the loop (lines 144–152): the map of critical call
    sites, and the work to the left of an ASYNC node. -/
def openNode (G : AFTaskGraph) (st : Profile) (n : ℕ) : Profile :=
  let node := G.tgraphNodes n
  let (ptr, maps) := st.maps.alloc .empty
  let st := { st with maps := maps }
  let st := st.modify n fun d => { d with criticalCallSites := some ptr }
  if node.type = .async then
    st.modify n fun d => { d with parentWork := (st.tProf node.parent).localWork }
  else st

/-- What the pass does at a node it reaches and at a node it closes. -/
def passActions (G : AFTaskGraph) : Actions Profile where
  visit n st := .ok (openNode G st n)
  finalise n st := do
    let st ← calculateWorkSpan G st n
    updateWorkSpanMap G st n

/-- `checkUpdateParentWorkSpan` (lines 156–183), on `num_processed` and the
    profile. -/
def checkUpdateParentWorkSpan (G : AFTaskGraph) (fuel parentIndex : ℕ)
    (numProcessed : ℕ → ℕ) (st : Profile) : Except Fault ((ℕ → ℕ) × Profile) :=
  G.shape.climb (passActions G) fuel parentIndex (numProcessed, st)

/-- `calculateRecurse` (lines 114–154). -/
def calculateRecurse (G : AFTaskGraph) (st : Profile) : Except Fault Profile :=
  G.shape.sweep (passActions G) st

/-- `calculateRecurse` with a record of its `calculateWorkSpan` calls: the
    node, the profile before the call, and the profile after it and after the
    update of `workSpanMap` that follows. -/
def calculateRecurseCalls (G : AFTaskGraph) (st : Profile) :
    Except Fault (Profile × List (ℕ × Profile × Profile)) :=
  G.shape.sweep (passActions G).record (st, [])

end TaskProf.Analysis
