import TaskProf.Analysis.Regions
import TaskProf.Collection.Traced
import TaskProf.Exchange.StepWork

/-!
# The regions of a step have no more work than the step

The collection phase adds the same cycles to a region and to its step, and the
analysis phase takes them off again.

* `neverWraps`: with no more work in the regions than in the step, the running
  value of `calculateWorkSpan_region` stays above zero.
* `entriesOf_fini`: the files of a thread are those of a graph.
* `traced_neverWraps`: so it is for the steps that are read from the files of any
  thread in any run.
-/

namespace TaskProf.Analysis

open Collection (StepWorkData TaskLogger ThreadId Callback LogEntry LogArgs)

/-! ## The running value -/

/-- `step_work` in `calculateWorkSpan_region` is never less than what is subtracted
    next, in whatever order the regions are iterated. -/
def NeverWraps (d : ProfilerData) (updatedRegion : SizeT) (parIncrease : BitVec 32) : Prop :=
  ∀ m, d.regionWork = some m →
    (updatedRegion = 0 → ∀ pre e post, (pre ++ e :: post).Perm m.entries →
      ∃ stepWork decrease,
        pre.foldlM (fun stepWork e => do
          let decrease ← regionWorkDecrease e.2 parIncrease
          .ok (stepWork - decrease)) d.work = .ok stepWork ∧
        regionWorkDecrease e.2 parIncrease = .ok decrease ∧ decrease ≤ stepWork) ∧
    ∀ regionWork, m.lookup updatedRegion = some regionWork →
      ∃ decrease, regionWorkDecrease regionWork parIncrease = .ok decrease ∧ decrease ≤ d.work

theorem find_le_sum {k v : SizeT} {l : List (SizeT × SizeT)} (h : AccMap.find k l = some v) :
    v.toNat ≤ (l.map fun e => e.2.toNat).sum := by
  induction l with
  | nil => cases h
  | cons e l ih =>
    rw [AccMap.find] at h
    rw [List.map_cons, List.sum_cons]
    split_ifs at h
    · rw [← Option.some.inj h]
      omega
    · have := ih h
      omega

theorem neverWraps {d : ProfilerData} (hd : d.RegionsBounded) (r : SizeT) {p : BitVec 32}
    (hp : p ≠ 0) : NeverWraps d r p := by
  intro m hm
  unfold ProfilerData.RegionsBounded at hd
  rw [hm] at hd
  dsimp only at hd
  refine ⟨fun _ pre e post hperm => ?_, fun v hv => ?_⟩
  · have hsum := (hperm.map fun e : SizeT × SizeT => e.2.toNat).sum_eq
    rw [List.map_append, List.sum_append, List.map_cons, List.sum_cons] at hsum
    obtain ⟨w, hw, hwn⟩ := foldlM_regionWorkDecrease hp pre d.work (by omega)
    obtain ⟨dec, hdec, -, hle⟩ := regionWorkDecrease_eq e.2 hp
    refine ⟨w, dec, hw, hdec, ?_⟩
    have hsave : (pre.map fun e => e.2.toNat - e.2.toNat / p.toNat).sum ≤
        (pre.map fun e => e.2.toNat).sum :=
      List.sum_le_sum fun e _ => Nat.sub_le _ _
    rw [BitVec.le_def, hwn]
    omega
  · obtain ⟨dec, hdec, -, hle⟩ := regionWorkDecrease_eq v hp
    refine ⟨dec, hdec, ?_⟩
    have := find_le_sum hv
    rw [BitVec.le_def]
    omega

/-! ## The graph that is read -/

/-- Bounded entries make bounded nodes. -/
theorem regionsBounded_of_entries {es : List StepWorkData} (h : WellLogged es)
    (hb : ∀ e ∈ es, e.regionSum ≤ e.work.toNat) (n : ℕ) :
    ((graphOf es).tgraphNodes n).tProf.RegionsBounded := by
  by_cases hn : ∃ e ∈ es, n = e.nodeId.toNat
  · obtain ⟨e, he, rfl⟩ := hn
    rw [graphOf_of_mem h he]
    unfold ProfilerData.RegionsBounded nodeOf
    dsimp only
    by_cases hstep : e.nodeType = .step
    · have hsum := hb e he
      unfold StepWorkData.regionSum at hsum
      rw [if_pos hstep, if_pos hstep]
      cases hm : e.regionWork with
      | none => trivial
      | some m =>
        rw [hm] at hsum
        exact hsum
    · rw [if_neg hstep]
      trivial
  · rw [graphOf_of_notMem fun e he hne => hn ⟨e, he, hne⟩]
    trivial

/-- The lines of thread `t`, and the line of `Fini`. -/
theorem entriesOf_fini {L : TaskLogger} {t : ThreadId} {as : List LogArgs}
    (h : L.Recorded t as) (a : LogArgs) :
    (entriesOf (L.fini a)).Perm (L.written t ++ [L.finiLine a]) := by
  have hsingle : ∀ (u : Fin 32) (A : List StepWorkData) (l : List (Fin 32)), l.Nodup → u ∈ l →
      l.flatMap (fun v => if v = u then A else []) = A := by
    intro u A l hl hu
    induction l with
    | nil => cases hu
    | cons v l ih =>
      rw [List.nodup_cons] at hl
      rw [List.flatMap_cons]
      by_cases hv : v = u
      · have hnone : l.flatMap (fun v => if v = u then A else []) = [] := by
          rw [List.flatMap_eq_nil_iff]
          intro v' hv'
          rw [if_neg]
          rintro rfl
          exact hl.1 (hv ▸ hv')
        rw [if_pos hv, hnone, List.append_nil]
      · rw [if_neg hv, List.nil_append]
        exact ih hl.2 ((List.mem_cons.mp hu).resolve_left (Ne.symm hv))
  have hfiles : L.fini a = fun u =>
      (if u = t then L.written t else []) ++ if u = 0 then [L.finiLine a] else [] :=
    funext (h.fini a)
  unfold entriesOf
  rw [hfiles]
  refine (List.flatMap_append_perm (List.finRange 32) _ _).symm.trans ?_
  rw [hsingle t _ _ (List.nodup_finRange 32) (List.mem_finRange t),
    hsingle 0 _ _ (List.nodup_finRange 32) (List.mem_finRange 0)]

section Runs

variable {κ : Type} {main : κ} {s s' : Collection.Sys κ} {t : ThreadId} {cs : List Callback}

/-- Ids that the graph can hold are printed as they are. -/
theorem toNat_ofNat_of_lt {i : ℕ} (h : i < numGraphNodes) : (BitVec.ofNat 64 i).toNat = i := by
  have hn : numGraphNodes < 2 ^ 64 := by decide
  rw [BitVec.toNat_ofNat, Nat.mod_eq_of_lt (by omega)]

/-- The lines of a thread are those of a graph: the task graph has given every node
    an id of its own. -/
theorem wellLogged_fini (h : Collection.Sys.Traced main t s cs) (hf : s.Step .fini s')
    {d : LogEntry} (hd : s'.graph.logged = s.graph.logged ++ [d])
    (hn : s'.graph.lastAllocatedNode ≤ numGraphNodes) {L : TaskLogger}
    (hrun : TaskLogger.init.capture t cs = .ok L) : WellLogged (entriesOf (L.fini d.args)) := by
  obtain ⟨hrec, -⟩ := TaskLogger.capture_recorded h.issued.1 hrun
  have hreach := h.reachable.step hf
  have ho := hreach.orderly
  obtain ⟨hs, -⟩ := hreach.sound
  have hdstep : d.nodeType = .step := by
    obtain ⟨a, curNode, stk, -, -, -, -, rfl⟩ := Collection.Sys.step_fini hf
    have hcancel := List.append_cancel_left hd
    rw [← List.singleton_inj.mp hcancel]
  -- the ids and the parents
  have hid : ∀ c ∈ s'.graph.logged, 1 ≤ c.nodeId ∧ c.nodeId < numGraphNodes := by
    intro c hc
    have := ho.entry_lt hc
    omega
  have hparent : ∀ c ∈ s'.graph.logged, c.parent < numGraphNodes := by
    intro c hc
    by_cases h1 : c.nodeId = 1
    · rw [(hs.growing.root c hc).mpr h1]
      decide
    · obtain ⟨p, hp, hpc, -, -⟩ := hs.growing.parent c hc h1
      rw [← hpc]
      exact (hid p hp).2
  have htype : ∀ c ∈ s'.graph.logged, c.nodeType ≠ .noType := by
    intro c hc
    rw [hd] at hc
    rcases List.mem_append.mp hc with hc | hc
    · exact h.types c hc
    · rw [List.mem_singleton.mp hc, hdstep]
      simp
  -- every line is that of an entry
  have hlabels : (L.written t ++ [L.finiLine d.args]).map StepWorkData.label =
      ((s.graph.logged.filter fun e => e.threadid = t) ++ [d]).map fun e => e.args.label := by
    rw [List.map_append, hrec.labels, h.logged, List.map_map, List.map_append]
    rfl
  have hsub : ((s.graph.logged.filter fun e => e.threadid = t) ++ [d]).Sublist s'.graph.logged := by
    rw [hd]
    exact List.filter_sublist.append (List.Sublist.refl _)
  have hline : ∀ e ∈ L.written t ++ [L.finiLine d.args],
      ∃ c ∈ s'.graph.logged, e.label = c.args.label := by
    intro e he
    have hmem := List.mem_map_of_mem (f := StepWorkData.label) he
    rw [hlabels] at hmem
    obtain ⟨c, hc, hce⟩ := List.mem_map.mp hmem
    exact ⟨c, hsub.subset hc, hce.symm⟩
  refine WellLogged.perm ⟨fun e he => ?_, ?_⟩ (entriesOf_fini hrec d.args).symm
  · obtain ⟨c, hc, hce⟩ := hline e he
    have h1 : e.nodeId = BitVec.ofNat 64 c.nodeId := congrArg Collection.LineLabel.nodeId hce
    have h2 : e.stepParent = BitVec.ofNat 64 c.parent := congrArg Collection.LineLabel.parent hce
    have h3 : e.nodeType = c.nodeType := congrArg Collection.LineLabel.nodeType hce
    have hlt := hid c hc
    refine ⟨?_, ?_, ?_, by rw [h3]; exact htype c hc, fun m hm => ?_⟩
    · rw [h1, toNat_ofNat_of_lt hlt.2]
      omega
    · rw [h1, toNat_ofNat_of_lt hlt.2]
      exact hlt.2
    · rw [h2, toNat_ofNat_of_lt (hparent c hc)]
      exact hparent c hc
    · rcases List.mem_append.mp he with he | he
      · exact ⟨hrec.steps e he (by rw [hm]; exact Option.some_ne_none m),
          hrec.filledWritten e he m hm⟩
      · obtain rfl := List.mem_singleton.mp he
        exact ⟨hdstep, hrec.filled _ m hm⟩
  · have hids : (L.written t ++ [L.finiLine d.args]).map StepWorkData.nodeId =
        (((s.graph.logged.filter fun e => e.threadid = t) ++ [d]).map LogEntry.nodeId).map
          (BitVec.ofNat 64) := by
      have hmap := congrArg (List.map Collection.LineLabel.nodeId) hlabels
      rw [List.map_map, List.map_map] at hmap
      rw [List.map_map]
      exact hmap
    rw [hids]
    have hnodup : (((s.graph.logged.filter fun e => e.threadid = t) ++ [d]).map
        LogEntry.nodeId).Nodup := (hsub.map LogEntry.nodeId).nodup ho.tickets.nodup
    refine hnodup.map_on fun i hi j hj hij => ?_
    obtain ⟨c, hc, rfl⟩ := List.mem_map.mp hi
    obtain ⟨c', hc', rfl⟩ := List.mem_map.mp hj
    rw [← toNat_ofNat_of_lt (hid c (hsub.subset hc)).2,
      ← toNat_ofNat_of_lt (hid c' (hsub.subset hc')).2, hij]

/-- **The causal pass never subtracts more than a step has.** For any callbacks of
    a thread, no line of a full row or of `Fini` has more work in its regions than
    in its step. When the files of a run are read, no region pass makes the running
    value of a step wrap. -/
theorem traced_neverWraps (h : Collection.Sys.Traced main t s cs) (hf : s.Step .fini s')
    {d : LogEntry} (hd : s'.graph.logged = s.graph.logged ++ [d])
    (hn : s'.graph.lastAllocatedNode ≤ numGraphNodes)
    (htotal : TaskLogger.totalWork cs + d.work.toNat < 2 ^ 64) {L : TaskLogger}
    (hrun : TaskLogger.init.capture t cs = .ok L) :
    (∀ (u : ThreadId) (callbacks : List Callback) (a : LogArgs) (L' : TaskLogger),
      TaskLogger.totalWork callbacks + a.work.toNat < 2 ^ 64 →
        TaskLogger.init.capture u callbacks = .ok L' →
        ∀ v, ∀ e ∈ L'.fini a v, e.regionSum ≤ e.work.toNat) ∧
      ∃ G, createDpst (folderOf (L.fini d.args)) = .ok G ∧
        ∀ n data, data.work = (G.tgraphNodes n).tProf.work →
          data.regionWork = (G.tgraphNodes n).tProf.regionWork →
          ∀ updatedRegion parIncrease, parIncrease ≠ 0 →
            NeverWraps data updatedRegion parIncrease := by
  have hlines : ∀ (u : ThreadId) (callbacks : List Callback) (a : LogArgs) (L' : TaskLogger),
      TaskLogger.totalWork callbacks + a.work.toNat < 2 ^ 64 →
        TaskLogger.init.capture u callbacks = .ok L' →
        ∀ v, ∀ e ∈ L'.fini a v, e.regionSum ≤ e.work.toNat := by
    intro u callbacks a L' htotal hrun v e he
    have hb := TaskLogger.capture_bounded hrun (by omega)
    exact (hb.fini htotal v e he).regions
  have hw := wellLogged_fini h hf hd hn hrun
  refine ⟨hlines, _, createDpst_folderOf hw, fun n data h1 h2 r p hp => neverWraps ?_ r hp⟩
  have hnode := regionsBounded_of_entries hw (fun e he => by
    obtain ⟨u, -, he⟩ := List.mem_flatMap.mp he
    exact hlines t cs d.args L htotal hrun u e he) n
  unfold ProfilerData.RegionsBounded at hnode ⊢
  rw [h1, h2]
  exact hnode

end Runs

/-- `main` runs the region 9 with 5 cycles. -/
def regionCallbacks : List Callback :=
  [.log ⟨1, 0, 0, .finish, 0⟩, .beginOptimize 2 1 0, .endOptimize 2 1 5 9]

theorem regionRun_traced : Collection.Sys.Traced () 0
    ((((Collection.Sys.init ()).setCounter 0 0).setCounter 0 5).setCounter 0 0)
      regionCallbacks := by
  let s₀ := Collection.Sys.init ()
  have h0 : Collection.Sys.Traced () 0 s₀ [.log ⟨1, 0, 0, .finish, 0⟩] := .init
  have h1 := h0.beginOptimize (u := 0) rfl rfl rfl
  have hwork : (s₀.setCounter 0 0).Step (.work 0 5 ())
      (((s₀.setCounter 0 0).setThread 0 (s₀.threads 0)).setCounter 0 5) := rfl
  have hset : (s₀.setCounter 0 0).setThread 0 (s₀.threads 0) = s₀.setCounter 0 0 := by
    unfold Collection.Sys.setThread
    rw [Collection.Sys.setCounter, Function.update_eq_self]
  rw [hset] at hwork
  have h2 := h1.event hwork (by simp) (List.append_nil _).symm
  exact h2.endOptimize (u := 0) rfl rfl rfl 9

theorem regionRun_neverWraps : ∃ L, TaskLogger.init.capture 0 regionCallbacks = .ok L ∧
    (∀ u, ∀ e ∈ L.fini ⟨2, 1, 0, .step, 0⟩ u, e.regionSum ≤ e.work.toNat) ∧
      ∃ G, createDpst (folderOf (L.fini ⟨2, 1, 0, .step, 0⟩)) = .ok G ∧
        ∀ n data, data.work = (G.tgraphNodes n).tProf.work →
          data.regionWork = (G.tgraphNodes n).tProf.regionWork →
          ∀ updatedRegion parIncrease, parIncrease ≠ 0 →
            NeverWraps data updatedRegion parIncrease := by
  obtain ⟨L, hL⟩ : ∃ L, TaskLogger.init.capture 0 regionCallbacks = .ok L := ⟨_, rfl⟩
  obtain ⟨s', hf, hlog, hn⟩ : ∃ s', (((((Collection.Sys.init ()).setCounter 0 0).setCounter 0
      5).setCounter 0 0).Step .fini s') ∧
      s'.graph.logged = [⟨0, 1, 0, 0, .finish, 0⟩] ++ [⟨0, 2, 1, 0, .step, 0⟩] ∧
      s'.graph.lastAllocatedNode = 3 := ⟨_, rfl, rfl, rfl⟩
  obtain ⟨hlines, hread⟩ :=
    traced_neverWraps regionRun_traced hf hlog (by rw [hn]; decide) (by decide) hL
  exact ⟨L, hL, hlines 0 regionCallbacks ⟨2, 1, 0, .step, 0⟩ L (by decide) hL, hread⟩

end TaskProf.Analysis
