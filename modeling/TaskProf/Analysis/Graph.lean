import TaskProf.Common
import TaskProf.Lib.AccMap
import TaskProf.Lib.Sweep

/-!
# The task graph of the analysis phase

The data of `analysis_phase/include/AFTask.H`, `AFTaskGraph.H`,
`CallSiteData.H` and `WorkSpanData.H`.
-/

namespace TaskProf

namespace Analysis

/-- `std::unordered_map<size_t, size_t>` from call sites (or regions) to work. -/
abbrev CallSiteWork := AccMap SizeT SizeT

/-- `struct profiler_data`. `critical_call_sites` is a pointer into a `Store`;
    `region_work` is never shared, so it is the map itself. -/
structure ProfilerData where
  work : SizeT
  localWork : SizeT
  criticalChild : SizeT
  parentWork : SizeT
  localLocalWork : SizeT
  criticalCallSites : Option ℕ
  regionWork : Option CallSiteWork

/-- A zeroed `profiler_data`, as `mmap` returns it. -/
def ProfilerData.zero : ProfilerData := ⟨0, 0, 0, 0, 0, none, none⟩

/-- `struct AFTask`. -/
structure AFTask where
  spRootNWtFlag : Bool
  parent : ℕ
  type : NodeType
  numChildren : ℕ
  tProf : ProfilerData
  callSite : SizeT

/-- A zeroed `AFTask`. -/
def AFTask.zero : AFTask := ⟨false, 0, .noType, 0, .zero, 0⟩

/-- `t_prof` is zero, except for the work and the regions of a STEP node. -/
def AFTask.Fresh (node : AFTask) : Prop :=
  node.tProf =
    { ProfilerData.zero with
      work := if node.type = .step then node.tProf.work else 0
      regionWork := node.tProf.regionWork }

/-- `class AFTaskGraph`: the node array and its counter, and the call sites
    that `getSourceFileAndLine` finds. -/
structure AFTaskGraph where
  lastAllocatedNode : ℕ
  tgraphNodes : ℕ → AFTask
  callSiteMap : SizeT → Option CallSiteData

/-- `getSourceFileAndLine`, line 144: `callSiteMap.at(return_address)`. -/
def AFTaskGraph.getSourceFileAndLine (G : AFTaskGraph) (returnAddress : SizeT) :
    Except Fault CallSiteData :=
  match G.callSiteMap returnAddress with
  | none => .error .missingKey
  | some d => .ok d

/-- The part of the graph that steers the passes: parents and child
    counters. -/
def AFTaskGraph.shape (G : AFTaskGraph) : Shape where
  size := G.lastAllocatedNode
  parent i := (G.tgraphNodes i).parent
  arity i := (G.tgraphNodes i).numChildren

@[simp] theorem AFTaskGraph.shape_parent (G : AFTaskGraph) (i : ℕ) :
    G.shape.parent i = (G.tgraphNodes i).parent := rfl

@[simp] theorem AFTaskGraph.shape_arity (G : AFTaskGraph) (i : ℕ) :
    G.shape.arity i = (G.tgraphNodes i).numChildren := rfl

/-- `struct WorkSpanData`. -/
structure WorkSpanData where
  work : SizeT
  span : SizeT
  callCount : SizeT
  deriving DecidableEq, Repr

/-- The three `+=` of `calculateRecurse`, lines 130–132. -/
instance : Add WorkSpanData :=
  ⟨fun a b => ⟨a.work + b.work, a.span + b.span, a.callCount + b.callCount⟩⟩

@[simp] theorem WorkSpanData.add_work (a b : WorkSpanData) : (a + b).work = a.work + b.work := rfl

@[simp] theorem WorkSpanData.add_callCount (a b : WorkSpanData) :
    (a + b).callCount = a.callCount + b.callCount := rfl

/-- What a pass of `Task_Profiler` writes: `t_prof` of every node (from the
    values in the graph), the maps that `critical_call_sites` points to, and
    `workSpanMap`. All other fields of the nodes are only read, from the
    graph. -/
structure Profile where
  tProf : ℕ → ProfilerData
  maps : Store CallSiteWork
  workSpanMap : AccMap SizeT WorkSpanData

/-- The state before the first pass. -/
def Profile.init (G : AFTaskGraph) : Profile where
  tProf i := (G.tgraphNodes i).tProf
  maps := .empty
  workSpanMap := .empty

/-- Update `t_prof` of node `i`. -/
def Profile.modify (st : Profile) (i : ℕ) (f : ProfilerData → ProfilerData) : Profile :=
  { st with tProf := Function.update st.tProf i (f (st.tProf i)) }

@[simp] theorem Profile.modify_maps (st : Profile) (i : ℕ) (f : ProfilerData → ProfilerData) :
    (st.modify i f).maps = st.maps := rfl

@[simp] theorem Profile.modify_workSpanMap (st : Profile) (i : ℕ)
    (f : ProfilerData → ProfilerData) : (st.modify i f).workSpanMap = st.workSpanMap := rfl

@[simp] theorem Profile.modify_self (st : Profile) (i : ℕ) (f : ProfilerData → ProfilerData) :
    (st.modify i f).tProf i = f (st.tProf i) := by
  simp [Profile.modify]

theorem Profile.modify_of_ne (st : Profile) {i j : ℕ} (h : j ≠ i)
    (f : ProfilerData → ProfilerData) : (st.modify i f).tProf j = st.tProf j := by
  simp [Profile.modify, h]

/-! ## Graphs given row by row -/

/-- One node of a graph written out as a table. -/
structure Row where
  parent : ℕ
  type : NodeType
  callSite : SizeT
  work : SizeT

/-- The node at position `i + 1` of a table. -/
def Row.node (rows : List Row) (i : ℕ) (r : Row) : AFTask where
  spRootNWtFlag := decide (r.type = .finish ∧ r.callSite ≠ 0)
  parent := r.parent
  type := r.type
  numChildren := rows.countP fun c => decide (c.parent = i + 1)
  tProf := { ProfilerData.zero with work := if r.type = .step then r.work else 0 }
  callSite := r.callSite

/-- The graph whose nodes `1 …` are the rows of a table. -/
def AFTaskGraph.ofRows (rows : List Row) (callSiteMap : SizeT → Option CallSiteData) :
    AFTaskGraph where
  lastAllocatedNode := rows.length
  tgraphNodes
    | 0 => .zero
    | i + 1 => match rows[i]? with
      | none => .zero
      | some r => r.node rows i
  callSiteMap := callSiteMap

theorem AFTaskGraph.ofRows_fresh (rows : List Row) (callSiteMap : SizeT → Option CallSiteData)
    (n : ℕ) : ((ofRows rows callSiteMap).tgraphNodes n).Fresh := by
  cases n with
  | zero => rfl
  | succ i =>
    simp only [ofRows]
    cases rows[i]? with
    | none => rfl
    | some r => by_cases ht : r.type = .step <;> simp [AFTask.Fresh, Row.node, ProfilerData.zero, ht]

end Analysis

end TaskProf
