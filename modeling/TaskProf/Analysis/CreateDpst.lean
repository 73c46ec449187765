import TaskProf.Analysis.Graph
import TaskProf.Lib.Text

/-!
# Reading the step work

`initialize_task` and `create_dpst` of `analysis_phase/src/AFTaskGraph.cpp`
(lines 31–112), which build the graph from the files `step_work_0.csv` to
`step_work_31.csv`.
-/

namespace TaskProf.Analysis

/-! ## The source functions -/

/-- `NUM_GRAPH_NODES`. -/
def numGraphNodes : ℕ := 146650394

/-- Set `tgraph_nodes[i]`. -/
def setNode (G : AFTaskGraph) (i : ℕ) (node : AFTask) : AFTaskGraph :=
  { G with tgraphNodes := Function.update G.tgraphNodes i node }

/-- Change `tgraph_nodes[i]`. -/
def modifyNode (G : AFTaskGraph) (i : ℕ) (f : AFTask → AFTask) : Except Fault AFTaskGraph :=
  if i < numGraphNodes then .ok (setNode G i (f (G.tgraphNodes i))) else .error .outOfBounds

/-- `static_cast<NodeType>`; a value without an enumerator is undefined behaviour. -/
def nodeTypeOf : ℤ → Except Fault NodeType
  | 0 => .ok .noType
  | 1 => .ok .async
  | 2 => .ok .finish
  | 3 => .ok .step
  | _ => .error .outOfRange

/-- `initialize_task` (lines 31–41). -/
def initializeTask (G : AFTaskGraph) (index : ℕ) (nodeType : NodeType) (callSite : SizeT)
    (parentIdx : ℕ) : Except Fault AFTaskGraph :=
  modifyNode { G with lastAllocatedNode := G.lastAllocatedNode + 1 } index fun node =>
    { node with
      parent := parentIdx
      type := nodeType
      callSite := callSite
      spRootNWtFlag := decide (nodeType = .finish ∧ callSite ≠ 0) }

/-- The loop of lines 87–103 on the fields that are left. A region without an
    amount reads an empty string. -/
def readRegions : List (List Char) → Option CallSiteWork → Except Fault (Option CallSiteWork)
  | [], rwMap => .ok rwMap
  | [region], _ => do
    let _ ← stoul region
    let _ ← stoul []
    .ok none
  | region :: regWork :: rest, rwMap => do
    let r ← stoul region
    let w ← stoul regWork
    readRegions rest (some ((rwMap.getD .empty).add r w))

/-- Lines 75–78. -/
def countChild (G : AFTaskGraph) (parentIndex : ℕ) : Except Fault AFTaskGraph :=
  if parentIndex = 0 then .ok G
  else modifyNode G parentIndex fun node => { node with numChildren := node.numChildren + 1 }

/-- Lines 81–103, on the fields that are left. -/
def readStepWork (G : AFTaskGraph) (insertIdx : ℕ) (fields : List (List Char)) :
    Except Fault AFTaskGraph := do
  let work ← stoul (fields.getD 0 [])
  let regionWork ← readRegions (fields.drop 1) (G.tgraphNodes insertIdx).tProf.regionWork
  modifyNode G insertIdx fun node =>
    { node with tProf := { node.tProf with work := work, regionWork := regionWork } }

/-- One line (lines 55–104). -/
def readLine (G : AFTaskGraph) (line : List Char) : Except Fault AFTaskGraph := do
  let fields := pieces ',' line
  let insertIdx ← stoul (fields.getD 0 [])
  let parentIndex ← stoul (fields.getD 1 [])
  let code ← stoi (fields.getD 2 [])
  let nodeType ← nodeTypeOf code
  let callSite ← stoul (fields.getD 3 [])
  let G ← initializeTask G insertIdx.toNat nodeType callSite parentIndex.toNat
  let G ← countChild G parentIndex.toNat
  if nodeType = .step then readStepWork G insertIdx.toNat (fields.drop 4) else .ok G

/-- One file (lines 46–110); `none` is a file that cannot be opened. -/
def readFile (G : AFTaskGraph) : Option (List Char) → Except Fault AFTaskGraph
  | none => .error .assertion
  | some text => (pieces '\n' text).foldlM readLine G

/-- The graph before `create_dpst`, as `mmap` returns it. -/
def emptyGraph : AFTaskGraph := ⟨0, fun _ => .zero, fun _ => none⟩

/-- `create_dpst` (lines 43–112). -/
def createDpst (folder : Fin 32 → Option (List Char)) : Except Fault AFTaskGraph :=
  (List.finRange 32).foldlM (fun G t => readFile G (folder t)) emptyGraph

end TaskProf.Analysis
