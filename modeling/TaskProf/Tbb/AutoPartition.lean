import TaskProf.Tbb.Coverage

/-!
# The default partition

`auto_partition_type` (`partitioner.h`, lines 154–270, 277–337 and 498–522), with its
pool of ranges, as a partition of a `start_for`.

* `AutoPartition`, `splitToFill`, `poolIteration`, `autoStep`: the model.
* `splitToFill_spec`: what the pool has after it is filled.
* `autoStep_sound`: a callback passes its indices on or executes them.
* `parallelFor_auto`: a `parallel_for` returns and executes every index once.

**Deviation.** Whether a task runs while its left sibling runs, and whether there is
demand, are choices. A loop that `is_cancelled` ends is left out.
-/

namespace TaskProf.Tbb

/-! ## The partition -/

/-- `depth_t`. -/
abbrev DepthT := BitVec 8

/-- The fields of `adaptive_partition_type_base`. -/
structure AutoPartition where
  myDivisor : SizeT
  myMaxDepth : DepthT

namespace AutoPartition

variable (p : AutoPartition)

/-- `check_being_stolen` (lines 315–333). -/
def checkBeingStolen (stolen : Bool) : AutoPartition :=
  if p.myDivisor = 0 then
    if stolen = true then ⟨1, (if p.myMaxDepth = 0 then 1 else p.myMaxDepth) + 2⟩
    else ⟨1, p.myMaxDepth⟩
  else p

/-- `is_divisible` (lines 506–514), and the partition after it. -/
def isDivisible : Bool × AutoPartition :=
  if 1 < p.myDivisor then (true, p)
  else if p.myDivisor ≠ 0 ∧ p.myMaxDepth ≠ 0 then (true, ⟨0, p.myMaxDepth - 1⟩)
  else (false, p)

/-- The splitting constructor (lines 284–302): what it leaves, and the new partition. -/
def split : AutoPartition × AutoPartition :=
  let myDivisor := p.myDivisor / 2
  let left := p.myDivisor - myDivisor
  let log := BitVec.ofNat 8 (Nat.log2 (left / myDivisor).toNat)
  (⟨left, if myDivisor = 0 then p.myMaxDepth else p.myMaxDepth + log⟩, ⟨myDivisor, p.myMaxDepth⟩)

/-- `align_depth` (lines 334–337). -/
def alignDepth (base : DepthT) : AutoPartition := { p with myMaxDepth := p.myMaxDepth - base }

/-- `check_for_demand` (lines 515–520). -/
def checkForDemand (demand : Bool) : AutoPartition :=
  if demand = true then { p with myMaxDepth := p.myMaxDepth + 2 } else p

end AutoPartition

/-! ## The pool of ranges -/

section Pool

variable {R : Type} (isDivisible : R → Bool) (split : R → R × R)

/-- `range_vector` with the depths, from the back to the front. -/
abbrev RangeVector (R : Type) := List (R × DepthT)

/-- `range_vector::is_divisible` (lines 214–216). -/
def poolDivisible (maxDepth : DepthT) : RangeVector R → Bool
  | [] => false
  | (range, depth) :: _ => decide (depth < maxDepth) && isDivisible range

/-- `split_to_fill` (lines 174–184). The back keeps the first part of its range. -/
def splitToFill (maxDepth : DepthT) : ℕ → RangeVector R → RangeVector R
  | fuel + 1, (range, depth) :: pool =>
    if pool.length + 1 < 8 ∧ poolDivisible isDivisible maxDepth ((range, depth) :: pool) = true then
      splitToFill maxDepth fuel
        (((split range).1, depth + 1) :: ((split range).2, depth + 1) :: pool)
    else (range, depth) :: pool
  | _, pool => pool

/-- Where a `start_for` is in `execute` of its partition. -/
inductive AutoWork (R : Type)
  | entered (p : AutoPartition) (range : R)
  | spreading (p : AutoPartition) (range : R)
  | pooled (p : AutoPartition) (pool : RangeVector R)
  | ended

/-- What the task meets before its next callback. -/
structure AutoChoice where
  stolen : Bool
  demand : Bool
  demandAgain : Bool

/-- A callback with the range that `run_body` executes, or another iteration. -/
inductive AutoStep (R : Type)
  | offerWork (rest right : AutoWork R)
  | runBody (range : R) (rest : AutoWork R)
  | again (p : AutoPartition) (pool : RangeVector R)
  | done

/-- An iteration of the loop over the pool (lines 257–268). -/
def poolIteration (p : AutoPartition) (pool : RangeVector R) (demand : Bool) : AutoStep R :=
  let pool := splitToFill isDivisible split p.myMaxDepth 8 pool
  let p := p.checkForDemand demand
  match pool with
  | [] => .done
  | (range, depth) :: rest =>
    if demand = true ∧ 1 < pool.length then
      let front := pool.getLastD (range, depth)
      .offerWork (.pooled p.split.1 pool.dropLast) (.entered (p.split.2.alignDepth front.2) front.1)
    else if demand = true ∧ poolDivisible isDivisible p.myMaxDepth pool = true then .again p pool
    else .runBody range (if rest = [] then .ended else .pooled p rest)

/-- The loop over the pool, up to the next callback. -/
def poolStep (p : AutoPartition) (pool : RangeVector R) (choice : AutoChoice) : AutoStep R :=
  match poolIteration isDivisible split p pool choice.demand with
  | .again p pool => poolIteration isDivisible split p pool choice.demandAgain
  | step => step

/-- `execute` before the pool (lines 245–256). -/
def spreadStep (p : AutoPartition) (range : R) (choice : AutoChoice) : AutoStep R :=
  if isDivisible range = true then
    let (divisible, p) := p.isDivisible
    if divisible = true then
      .offerWork (.spreading p.split.1 (split range).1) (.entered p.split.2 (split range).2)
    else if p.myMaxDepth = 0 then .runBody range .ended
    else poolStep isDivisible split p [(range, 0)] choice
  else .runBody range .ended

/-- `check_being_stolen`, then `execute` (lines 236–271). -/
def autoStep : AutoWork R → AutoChoice → AutoStep R
  | .entered p range, choice =>
    spreadStep isDivisible split (p.checkBeingStolen choice.stolen) range choice
  | .spreading p range, choice => spreadStep isDivisible split p range choice
  | .pooled p pool, choice => poolStep isDivisible split p pool choice
  | .ended, _ => .done

/-- The callback; a second iteration always ends in one. -/
def AutoStep.callback : AutoStep R → Callback (AutoWork R)
  | .offerWork rest right => .offerWork rest right
  | .runBody _ rest => .runBody rest
  | .again _ _ | .done => .done

end Pool

/-- A `blocked_range` under `auto_partitioner`. -/
def autoBehaviour : Behaviour (AutoWork BlockedRange) AutoChoice BlockedRange where
  next work choice := (autoStep BlockedRange.isDivisible BlockedRange.split work choice).callback
  isDivisible := BlockedRange.isDivisible
  split := BlockedRange.split

/-! ## The indices of the pool -/

open BlockedRange (countIn countIn_nil countIn_cons countIn_append)

/-- The ranges that are left. -/
def AutoWork.ranges : AutoWork BlockedRange → List BlockedRange
  | .entered _ range | .spreading _ range => [range]
  | .pooled _ pool => pool.map Prod.fst
  | .ended => []

/-- Every range that is left is proper. -/
def AutoWork.Ok (work : AutoWork BlockedRange) : Prop :=
  (∀ r ∈ work.ranges, r.Proper) ∧ ∀ p pool, work = .pooled p pool → pool ≠ []

/-- A bound for the pieces that the pool is split into. -/
def poolPieces (pool : RangeVector BlockedRange) : ℕ := (pool.map fun e => e.1.pieces + 1).sum

def AutoWork.pieces : AutoWork BlockedRange → ℕ
  | .entered _ range | .spreading _ range => range.pieces
  | .pooled _ pool => poolPieces pool
  | .ended => 0

/-- A callback passes on or executes the indices that `count` counts, and leaves fewer
    than `m` pieces. -/
def AutoStep.Sound (count : SizeT → ℕ) (m : ℕ) : AutoStep BlockedRange → Prop
  | .offerWork rest right => rest.Ok ∧ right.Ok ∧ rest.pieces + right.pieces < m ∧
      ∀ i, countIn i rest.ranges + countIn i right.ranges = count i
  | .runBody range rest => range.Proper ∧ rest.Ok ∧ rest.pieces < m ∧
      ∀ i, countIn i rest.ranges + countIn i [range] = count i
  | .again _ _ => False
  | .done => ∀ i, count i = 0

theorem AutoStep.Sound.mono {step : AutoStep BlockedRange} {count : SizeT → ℕ} {m m' : ℕ}
    (h : step.Sound count m) (hm : m ≤ m') : step.Sound count m' := by
  cases step with
  | offerWork rest right =>
    obtain ⟨h1, h2, hlt, hcount⟩ := h
    exact ⟨h1, h2, hlt.trans_le hm, hcount⟩
  | runBody range rest =>
    obtain ⟨h1, h2, hlt, hcount⟩ := h
    exact ⟨h1, h2, hlt.trans_le hm, hcount⟩
  | again => exact h
  | done => exact h

section Pool

variable {p : AutoPartition} {pool : RangeVector BlockedRange}

/-- The indices of a pool. -/
def poolCount (pool : RangeVector BlockedRange) (i : SizeT) : ℕ := countIn i (pool.map Prod.fst)

theorem poolPieces_cons (e : BlockedRange × DepthT) (pool : RangeVector BlockedRange) :
    poolPieces (e :: pool) = e.1.pieces + 1 + poolPieces pool := rfl

/-- A pool that is filled has the same indices, and its pieces fall with every split. -/
theorem splitToFill_spec (maxDepth : DepthT) (fuel : ℕ) (hpool : ∀ e ∈ pool, e.1.Proper) :
    (∀ e ∈ splitToFill BlockedRange.isDivisible BlockedRange.split maxDepth fuel pool, e.1.Proper) ∧
    poolPieces (splitToFill BlockedRange.isDivisible BlockedRange.split maxDepth fuel pool) +
      (splitToFill BlockedRange.isDivisible BlockedRange.split maxDepth fuel pool).length =
        poolPieces pool + pool.length ∧
    pool.length ≤
      (splitToFill BlockedRange.isDivisible BlockedRange.split maxDepth fuel pool).length ∧
    poolCount (splitToFill BlockedRange.isDivisible BlockedRange.split maxDepth fuel pool) =
      poolCount pool := by
  induction fuel generalizing pool with
  | zero => exact ⟨hpool, rfl, le_rfl, rfl⟩
  | succ fuel ih =>
    cases pool with
    | nil => exact ⟨hpool, rfl, le_rfl, rfl⟩
    | cons e pool =>
      obtain ⟨r, depth⟩ := e
      rw [splitToFill]
      split_ifs with hsplit
      · have hdiv : r.isDivisible = true := (Bool.and_eq_true_iff.mp hsplit.2).2
        obtain ⟨hr, hrest⟩ : r.Proper ∧ ∀ e ∈ pool, e.1.Proper := List.forall_mem_cons.mp hpool
        obtain ⟨h1, h2, -⟩ := BlockedRange.split_proper hr hdiv
        have hpieces := BlockedRange.pieces_split hr hdiv
        obtain ⟨i1, i2, i3, i4⟩ := ih (List.forall_mem_cons.mpr
          ⟨h1, List.forall_mem_cons.mpr ⟨h2, hrest⟩⟩ : ∀ e ∈ (r.split.1, depth + 1) ::
            (r.split.2, depth + 1) :: pool, e.1.Proper)
        simp only [poolPieces_cons, List.length_cons] at i2 i3 ⊢
        refine ⟨i1, by omega, by omega, i4.trans ?_⟩
        funext i
        have hcontains := BlockedRange.contains_split hr i
        unfold poolCount
        simp only [List.map_cons, countIn_cons]
        omega
      · exact ⟨hpool, rfl, le_rfl, rfl⟩

/-- A pool whose back is divisible is split. -/
theorem lt_length_splitToFill (maxDepth : DepthT) (fuel : ℕ) (hpool : ∀ e ∈ pool, e.1.Proper)
    (hlen : pool.length < 8)
    (hdiv : poolDivisible BlockedRange.isDivisible maxDepth pool = true) :
    pool.length <
      (splitToFill BlockedRange.isDivisible BlockedRange.split maxDepth (fuel + 1) pool).length := by
  cases pool with
  | nil => cases hdiv
  | cons e pool =>
    obtain ⟨r, depth⟩ := e
    have hr : r.isDivisible = true := (Bool.and_eq_true_iff.mp hdiv).2
    obtain ⟨hproper, hrest⟩ : r.Proper ∧ ∀ e ∈ pool, e.1.Proper := List.forall_mem_cons.mp hpool
    obtain ⟨h1, h2, -⟩ := BlockedRange.split_proper hproper hr
    obtain ⟨-, -, hle, -⟩ := splitToFill_spec maxDepth fuel
      (List.forall_mem_cons.mpr ⟨h1, List.forall_mem_cons.mpr ⟨h2, hrest⟩⟩ :
        ∀ e ∈ (r.split.1, depth + 1) :: (r.split.2, depth + 1) :: pool, e.1.Proper)
    rw [splitToFill, if_pos ⟨hlen, hdiv⟩]
    simp only [List.length_cons] at hle ⊢
    omega

theorem poolPieces_append (pool pool' : RangeVector BlockedRange) :
    poolPieces (pool ++ pool') = poolPieces pool + poolPieces pool' := by
  unfold poolPieces
  rw [List.map_append, List.sum_append]

/-- The bound for a pool; the first iteration must leave fewer pieces than its range has. -/
def poolBound (pool : RangeVector BlockedRange) : ℕ :=
  if pool.length = 1 then poolPieces pool - 1 else poolPieces pool

/-- An iteration over the pool ends in a callback, or the back of the pool can be split
    now, but could not before. -/
theorem poolIteration_sound (p : AutoPartition) (demand : Bool) (hpool : ∀ e ∈ pool, e.1.Proper)
    (hne : pool ≠ []) :
    (∃ p' pool', poolIteration BlockedRange.isDivisible BlockedRange.split p pool demand =
        .again p' pool' ∧ (∀ e ∈ pool', e.1.Proper) ∧ pool.length = 1 ∧ pool'.length = 1 ∧
        poolPieces pool' = poolPieces pool ∧ poolCount pool' = poolCount pool ∧
        poolDivisible BlockedRange.isDivisible p'.myMaxDepth pool' = true ∧
        poolDivisible BlockedRange.isDivisible p.myMaxDepth pool = false) ∨
      (poolIteration BlockedRange.isDivisible BlockedRange.split p pool demand).Sound
        (poolCount pool) (poolBound pool) := by
  obtain ⟨hproper, hpieces, hlen, hcount⟩ := splitToFill_spec p.myMaxDepth 8 hpool
  have hlt := lt_length_splitToFill p.myMaxDepth 7 hpool
  have hpos := List.length_pos_iff.mpr hne
  unfold poolIteration
  dsimp only
  generalize splitToFill BlockedRange.isDivisible BlockedRange.split p.myMaxDepth 8 pool = filled at *
  cases filled with
  | nil =>
    rw [List.length_nil] at hlen
    omega
  | cons e rest =>
    obtain ⟨range, depth⟩ := e
    obtain ⟨hrange, hrest⟩ : range.Proper ∧ ∀ e ∈ rest, e.1.Proper := List.forall_mem_cons.mp hproper
    have hone := hrange.pieces_pos
    have hbound : poolPieces pool - 1 ≤ poolBound pool := by
      unfold poolBound
      split_ifs <;> omega
    dsimp only
    split_ifs with hdemand hagain hempty
    · -- the front goes to a new task
      right
      obtain hnil | ⟨init, front, hsplit⟩ := List.eq_nil_or_concat ((range, depth) :: rest)
      · cases hnil
      rw [List.concat_eq_append] at hsplit
      rw [hsplit] at hproper hpieces hlen hcount hdemand ⊢
      rw [List.dropLast_concat, List.getLastD_concat]
      rw [poolPieces_append] at hpieces
      rw [List.length_append, List.length_singleton] at hpieces hlen hdemand
      have hlast : poolPieces [front] = front.1.pieces + 1 := rfl
      have hinit : init ≠ [] := by
        rw [← List.length_pos_iff]
        omega
      refine ⟨⟨fun r hr => ?_, fun p' pool' hp' => ?_⟩, ⟨fun r hr => ?_, fun p' pool' hp' => ?_⟩, ?_,
        fun i => ?_⟩
      · obtain ⟨e, he, rfl⟩ := List.mem_map.mp hr
        exact hproper e (List.mem_append_left _ he)
      · obtain ⟨-, rfl⟩ := AutoWork.pooled.inj hp'
        exact hinit
      · obtain rfl := List.mem_singleton.mp hr
        exact hproper front (List.mem_append_right _ (List.mem_singleton_self front))
      · cases hp'
      · show poolPieces init + front.1.pieces < poolBound pool
        unfold poolBound
        split_ifs <;> omega
      · rw [← hcount]
        show countIn i (init.map Prod.fst) + countIn i [front.1] = poolCount (init ++ [front]) i
        unfold poolCount
        rw [List.map_append, countIn_append]
        rfl
    · -- the pool has one range, and there was no split
      left
      have hshort : rest.length = 0 := by
        by_contra hlong
        exact hdemand ⟨hagain.1, by rw [List.length_cons]; omega⟩
      rw [List.length_cons, hshort] at hlen hpieces
      refine ⟨_, _, rfl, hproper, by omega, by rw [List.length_cons, hshort], by omega, hcount,
        hagain.2, ?_⟩
      by_contra hdiv
      have := hlt (by omega) (Bool.eq_true_of_not_eq_false hdiv)
      rw [List.length_cons] at this
      omega
    · right
      rw [hempty] at hpieces hlen hcount
      rw [List.length_singleton] at hpieces hlen
      have hsingle : poolPieces [(range, depth)] = range.pieces + 1 := rfl
      refine ⟨hrange, ⟨fun r hr => (nomatch hr), fun p' pool' hp' => (nomatch hp')⟩, ?_, fun i => ?_⟩
      · show 0 < poolBound pool
        omega
      · rw [← hcount]
        exact Nat.zero_add _
    · right
      rw [poolPieces_cons] at hpieces
      rw [List.length_cons] at hpieces hlen
      refine ⟨hrange, ⟨fun r hr => ?_, fun p' pool' hp' => ?_⟩, ?_, fun i => ?_⟩
      · obtain ⟨e, he, rfl⟩ := List.mem_map.mp hr
        exact hrest e he
      · obtain ⟨-, rfl⟩ := AutoWork.pooled.inj hp'
        exact hempty
      · show poolPieces rest < poolBound pool
        dsimp only at hpieces
        omega
      · rw [← hcount]
        show countIn i (rest.map Prod.fst) + countIn i [range] = countIn i (range :: rest.map Prod.fst)
        rw [countIn_cons, countIn_cons, countIn_nil, Nat.zero_add]

/-- The loop over the pool ends in a callback. -/
theorem poolStep_sound (p : AutoPartition) (choice : AutoChoice) (hpool : ∀ e ∈ pool, e.1.Proper)
    (hne : pool ≠ []) :
    (poolStep BlockedRange.isDivisible BlockedRange.split p pool choice).Sound (poolCount pool)
      (poolBound pool) := by
  unfold poolStep
  rcases poolIteration_sound p choice.demand hpool hne with
    ⟨p', pool', heq, hpool', hlen, hlen', hpieces, hcount, hdiv, -⟩ | hsound
  · rw [heq]
    have hne' : pool' ≠ [] := by
      rw [← List.length_pos_iff, hlen']
      exact Nat.one_pos
    have hbound : poolBound pool' = poolBound pool := by
      unfold poolBound
      rw [hlen, hlen', hpieces]
    rw [← hcount, ← hbound]
    -- the back is split in the second iteration
    rcases poolIteration_sound p' choice.demandAgain hpool' hne' with
      ⟨_, _, -, -, -, -, -, -, -, hnot⟩ | hsound
    · rw [hdiv] at hnot
      cases hnot
    · exact hsound
  · split
    · next heq =>
      rw [heq] at hsound
      cases hsound
    · exact hsound

/-- The callbacks before the pool. -/
theorem spreadStep_sound (p : AutoPartition) (choice : AutoChoice) {range : BlockedRange}
    (hrange : range.Proper) :
    (spreadStep BlockedRange.isDivisible BlockedRange.split p range choice).Sound
      (fun i => countIn i [range]) range.pieces := by
  have hbody : (AutoStep.runBody range .ended).Sound (fun i => countIn i [range]) range.pieces :=
    ⟨hrange, ⟨fun r hr => (nomatch hr), fun p' pool' hp' => (nomatch hp')⟩, hrange.pieces_pos,
      fun i => Nat.zero_add _⟩
  unfold spreadStep
  dsimp only
  split_ifs with hdiv hoffer hdepth
  · obtain ⟨h1, h2, -⟩ := BlockedRange.split_proper hrange hdiv
    have hpieces := BlockedRange.pieces_split hrange hdiv
    refine ⟨⟨fun r hr => ?_, fun p' pool' hp' => (nomatch hp')⟩,
      ⟨fun r hr => ?_, fun p' pool' hp' => (nomatch hp')⟩, ?_, fun i => ?_⟩
    · rwa [List.mem_singleton.mp hr]
    · rwa [List.mem_singleton.mp hr]
    · show range.split.1.pieces + range.split.2.pieces < range.pieces
      omega
    · have hcontains := BlockedRange.contains_split hrange i
      show countIn i [range.split.1] + countIn i [range.split.2] = countIn i [range]
      rw [countIn_cons, countIn_cons, countIn_cons, countIn_nil]
      omega
  · exact hbody
  · have hpool : ∀ e ∈ [(range, (0 : DepthT))], e.1.Proper := List.forall_mem_singleton.mpr hrange
    exact poolStep_sound _ choice hpool (List.cons_ne_nil _ _)
  · exact hbody

/-- **A callback of `auto_partitioner`** passes its indices on or executes them. -/
theorem autoStep_sound {work : AutoWork BlockedRange} (hok : work.Ok) (choice : AutoChoice) :
    (autoStep BlockedRange.isDivisible BlockedRange.split work choice).Sound
      (fun i => countIn i work.ranges) work.pieces := by
  obtain ⟨hproper, hne⟩ := hok
  cases work with
  | entered p range | spreading p range =>
    exact spreadStep_sound _ choice (hproper range (List.mem_singleton_self range))
  | pooled p pool =>
    have hpool : ∀ e ∈ pool, e.1.Proper := fun e he => hproper e.1 (List.mem_map_of_mem he)
    have hsound := poolStep_sound p choice hpool (hne p pool rfl)
    have hbound : poolBound pool ≤ poolPieces pool := by
      unfold poolBound
      split_ifs <;> omega
    exact hsound.mono hbound
  | ended => exact fun _ => rfl

end Pool

/-! ## `parallel_for` -/

/-- The range that `run_body` executes. -/
def autoRan (work : AutoWork BlockedRange) (choice : AutoChoice) : List BlockedRange :=
  match autoStep BlockedRange.isDivisible BlockedRange.split work choice with
  | .runBody range _ => [range]
  | _ => []

section ParallelFor

variable {work rest right : AutoWork BlockedRange} {choice : AutoChoice}

theorem auto_offerWork (hok : work.Ok) (h : autoBehaviour.next work choice = .offerWork rest right) :
    rest.Ok ∧ right.Ok ∧ rest.pieces + right.pieces < work.pieces ∧
      ∀ i, countIn i rest.ranges + countIn i right.ranges = countIn i work.ranges := by
  have hsound := autoStep_sound hok choice
  have h : (autoStep _ _ work choice).callback = _ := h
  cases hstep : autoStep BlockedRange.isDivisible BlockedRange.split work choice with
  | offerWork rest' right' =>
    rw [hstep] at h hsound
    obtain ⟨rfl, rfl⟩ := Callback.offerWork.inj h
    exact hsound
  | runBody | again | done =>
    rw [hstep] at h
    cases h

theorem auto_runBody (hok : work.Ok) (h : autoBehaviour.next work choice = .runBody rest) :
    ∃ range, autoRan work choice = [range] ∧ range.Proper ∧ rest.Ok ∧ rest.pieces < work.pieces ∧
      ∀ i, countIn i rest.ranges + countIn i [range] = countIn i work.ranges := by
  have hsound := autoStep_sound hok choice
  have h : (autoStep _ _ work choice).callback = _ := h
  unfold autoRan
  cases hstep : autoStep BlockedRange.isDivisible BlockedRange.split work choice with
  | runBody range rest' =>
    rw [hstep] at h hsound
    obtain rfl := Callback.runBody.inj h
    exact ⟨range, rfl, hsound⟩
  | offerWork | again | done =>
    rw [hstep] at h
    cases h

theorem auto_done (hok : work.Ok) (h : autoBehaviour.next work choice = .done) (i : SizeT) :
    countIn i work.ranges = 0 := by
  have hsound := autoStep_sound hok choice
  have h : (autoStep _ _ work choice).callback = _ := h
  cases hstep : autoStep BlockedRange.isDivisible BlockedRange.split work choice with
  | done =>
    rw [hstep] at hsound
    exact hsound i
  | again =>
    rw [hstep] at hsound
    cases hsound
  | offerWork | runBody =>
    rw [hstep] at h
    cases h

theorem auto_shrinks : autoBehaviour.Shrinks AutoWork.Ok AutoWork.pieces where
  offerWork hok h := by
    obtain ⟨h1, h2, hlt, -⟩ := auto_offerWork hok h
    exact ⟨h1, h2, hlt⟩
  runBody hok h := by
    obtain ⟨range, -, -, hrest, hlt, -⟩ := auto_runBody hok h
    exact ⟨hrest, hlt⟩

theorem auto_conserves (i : SizeT) :
    autoBehaviour.Conserves AutoWork.Ok (fun work => countIn i work.ranges)
      fun work choice => countIn i (autoRan work choice) where
  offerWork hok h := (auto_offerWork hok h).2.2.2 i
  runBody hok h := by
    obtain ⟨range, hran, -, -, -, hcount⟩ := auto_runBody hok h
    rw [hran]
    exact hcount i
  done hok h := auto_done hok h i

variable {r : BlockedRange} {p : AutoPartition} {es : List (Event AutoChoice)}
  {bodies : List (AutoWork BlockedRange × AutoChoice)} {w : World (AutoWork BlockedRange) BlockedRange}

/-- **The default `parallel_for`.** A `parallel_for` over a `blocked_range` with
    `auto_partitioner`, for any number of workers and whatever is stolen: a run has at
    most `21 * size - 9` steps, while it has not returned some step is possible, the
    ranges of its body are not empty, no index is executed twice, none outside of the
    range is executed, and when it has returned each of the range has been executed. -/
theorem parallelFor_auto (hr : r.Proper)
    (h : Run autoBehaviour (.parallelFor (.entered p r)) es bodies w) :
    es.length ≤ 21 * r.size - 9 ∧
    (w.caller ≠ .returned →
      ∃ (e : Event AutoChoice) (w' : World (AutoWork BlockedRange) BlockedRange),
        w.step autoBehaviour e = some (.ok w')) ∧
    (∀ s ∈ rangesOf autoRan bodies, s.Proper) ∧
    ∀ i, countIn i (rangesOf autoRan bodies) ≤ (if r.Contains i then 1 else 0) ∧
      (w.caller = .returned →
        countIn i (rangesOf autoRan bodies) = if r.Contains i then 1 else 0) := by
  have hok : (AutoWork.entered p r).Ok := by
    refine ⟨fun s hs => ?_, fun p' pool' hp' => (nomatch hp')⟩
    rwa [List.mem_singleton.mp hs]
  have halg : (Algorithm.parallelFor (AutoWork.entered p r)).Unsplit autoBehaviour := trivial
  have hsafe := h.reachable.safe halg
  have hlive := h.live auto_shrinks halg hok
  refine ⟨?_, fun hret => ?_, fun s hs => ?_, fun i => ?_⟩
  · have hle := h.length_add_measure_le auto_shrinks halg hok
    have hinit : (World.init (.parallelFor (.entered p r)) : World (AutoWork BlockedRange)
        BlockedRange).measure AutoWork.pieces = 7 * (3 * r.size - 2) + 5 := Nat.zero_add _
    have := hr.size_pos
    omega
  · have : Nonempty AutoChoice := ⟨⟨false, false, false⟩⟩
    obtain ⟨e, he⟩ := hsafe.progress hlive hret
    obtain ⟨r, hr⟩ := Option.ne_none_iff_exists'.mp he
    obtain ⟨w', rfl, -⟩ := hsafe.step hr
    exact ⟨e, w', hr⟩
  · obtain ⟨⟨work, choice⟩, hb, hs⟩ := List.mem_flatMap.mp hs
    obtain ⟨hwork, rest, hnext⟩ := h.bodies_ok auto_shrinks halg hok _ hb
    obtain ⟨range, hran, hrange, -⟩ := auto_runBody hwork hnext
    dsimp only at hs
    rw [hran] at hs
    rwa [List.mem_singleton.mp hs]
  · have hcount : countIn i (AutoWork.entered p r).ranges = if r.Contains i then 1 else 0 := by
      show countIn i [r] = _
      rw [countIn_cons, countIn_nil, Nat.zero_add]
    rw [← hcount]
    exact h.covers auto_shrinks (auto_conserves i) hok

/-- A `parallel_for` over a hundred indices, with three workers. -/
theorem parallelFor_hundred : ∃ (es : List (Event AutoChoice))
    (bodies : List (AutoWork BlockedRange × AutoChoice)) (w : World (AutoWork BlockedRange) BlockedRange),
    Run autoBehaviour (.parallelFor (.entered ⟨8, 5⟩ ⟨100, 0, 1⟩)) es bodies w ∧
      w.caller = .returned ∧ countIn 99 (rangesOf autoRan bodies) = 1 := by
  have hr : (BlockedRange.mk 100 0 1).Proper := by decide
  have hok : (AutoWork.entered ⟨8, 5⟩ (BlockedRange.mk 100 0 1)).Ok :=
    ⟨fun s hs => List.mem_singleton.mp hs ▸ hr, fun p' pool' hp' => (nomatch hp')⟩
  have halg : (Algorithm.parallelFor (AutoWork.entered ⟨8, 5⟩ (BlockedRange.mk 100 0 1))).Unsplit
    autoBehaviour := trivial
  have : Nonempty AutoChoice := ⟨⟨false, false, false⟩⟩
  have h₀ : Run autoBehaviour (.parallelFor (.entered ⟨8, 5⟩ ⟨100, 0, 1⟩)) [] []
    (.init (.parallelFor (.entered ⟨8, 5⟩ ⟨100, 0, 1⟩))) := .init
  obtain ⟨es, bodies, w, hrun, hret⟩ := h₀.completes auto_shrinks halg hok
  obtain ⟨-, -, -, hcount⟩ := parallelFor_auto hr hrun
  exact ⟨es, bodies, w, hrun, hret, (hcount 99).2 hret⟩

end ParallelFor

end TaskProf.Tbb
