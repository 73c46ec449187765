import TaskProf.Analysis.Regions

/-!
# The order of the passes

Both passes call `calculateWorkSpan`, or its region variant, from the loop and
from the recursion that the loop starts. On every task graph the calls are the
ones of one schedule: each node once, after its whole subtree.
-/

namespace TaskProf.Analysis

/-- **Order.** There is one sequence of events that both passes perform, up to
    the first exception of one of their calls. The counters alone let all of it
    happen: the traced pass ends, so the recursion does, and uses no index of
    `num_processed` above the number of nodes. Each node is closed exactly once
    and after its children; and once the loop has visited `k` nodes, exactly the
    nodes are closed whose whole subtree is among them. -/
theorem passes_bottomUp {G : AFTaskGraph} (h : G.shape.WellFormed) :
    ∃ events, G.shape.sweep Actions.trace [] = .ok events ∧
      (∀ st, calculateRecurse G st = events.foldlM (passActions G).perform st) ∧
      (∀ r p st, calculateRecurseRegion G r p st = events.foldlM (regionActions G r p).perform st) ∧
      (∀ n, events.count (.finalise n) = if G.shape.Node n then 1 else 0) ∧
      (∀ P n, P ++ [.finalise n] <+: events → ∀ c ∈ G.shape.children n, .finalise c ∈ P) ∧
      ∀ k ≤ G.lastAllocatedNode, ∃ counts done,
        (List.range' 1 k).foldlM (G.shape.reach Actions.trace) (fun _ => 0, []) = .ok (counts, done) ∧
        done <+: events ∧ ∀ n, .finalise n ∈ done ↔ G.shape.Node n ∧ ∀ x, G.shape.Anc n x → x ≤ k := by
  refine ⟨G.shape.schedule, ?_, fun st => Shape.sweep_eq_schedule h _ st,
    fun r p st => Shape.sweep_eq_schedule h _ st, Shape.count_finalise h,
    fun P n hP c hc => Shape.children_finalised h hP hc, fun k hk => ?_⟩
  · rw [Shape.sweep_eq_schedule h, foldlM_trace]
    rfl
  · obtain ⟨counts, -, hrun⟩ := Shape.reach_prefix h Actions.trace hk
    refine ⟨counts, (List.range' 1 k).flatMap G.shape.slot, ?_, Shape.upTo_prefix _ hk, fun n =>
      Shape.finalise_mem_upTo h hk⟩
    rw [hrun, foldlM_trace]
    rfl

/-- The sequence of `forkGraph`. -/
theorem forkGraph_bottomUp : ∃ events, forkGraph.shape.sweep Actions.trace [] = .ok events ∧
    ∀ n, events.count (.finalise n) = if forkGraph.shape.Node n then 1 else 0 := by
  obtain ⟨events, h1, -, -, h2, -⟩ := passes_bottomUp forkGraph_spanGraph.shape
  exact ⟨events, h1, h2⟩

end TaskProf.Analysis
