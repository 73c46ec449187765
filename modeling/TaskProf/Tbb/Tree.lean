import TaskProf.Lib.RefTree
import TaskProf.Tbb.Algorithms

/-!
# The tree of tasks

`parallel_for` and `parallel_invoke` execute every task once. Their tasks form a
tree with reference counts below the task that the caller waits for.

* `Tree`: the invariant.
* `Tree.modify`, `Tree.addChild`, `Tree.addChildRoot`, `Tree.offerWork`,
  `Tree.finish`: what the steps do to it.
* `Tree.eq_none`: when the wait of the caller ends, no other task is left.
-/

namespace TaskProf.Tbb

variable {ρ R : Type}

/-! ## Views -/

/-- The references that a task has counted and not yet given to a child: for the
    children that a `spawner` has still to spawn, and for its wait. -/
def Status.credit : Status → ℕ
  | .executing (.spawning left) => left + 2
  | .executing .waiting => 1
  | _ => 0

def Task.credit (task : Task ρ R) : ℕ := task.status.credit

/-- The same of the task that the caller waits for. -/
def Caller.credit : Caller ρ R → ℕ
  | .invoking _ groups => groups.length + 2
  | .waiting _ _ => 1
  | _ => 0

namespace World

variable (w : World ρ R)

def parentOf (x : ℕ) : Option ℕ := (w.tasks x).bind Task.parent

def refsOf (x : ℕ) : ℕ := ((w.tasks x).map Task.refCount).getD 0

def creditOf (root : ℕ) : ℕ → ℕ :=
  Function.update (fun x => ((w.tasks x).map Task.credit).getD 0) root w.caller.credit

end World

section Views

variable {w w' : World ρ R} {x root : ℕ} {o : Option (Task ρ R)}

theorem parentOf_eq (h : w'.tasks = Function.update w.tasks x o) :
    w'.parentOf = Function.update w.parentOf x (o.bind Task.parent) := by
  show (fun o : Option (Task ρ R) => o.bind Task.parent) ∘ w'.tasks = _
  rw [h]
  exact Function.comp_update ..

theorem refsOf_eq (h : w'.tasks = Function.update w.tasks x o) :
    w'.refsOf = Function.update w.refsOf x ((o.map Task.refCount).getD 0) := by
  show (fun o : Option (Task ρ R) => (o.map Task.refCount).getD 0) ∘ w'.tasks = _
  rw [h]
  exact Function.comp_update ..

theorem creditOf_eq (h : w'.tasks = Function.update w.tasks x o) (hx : x ≠ root)
    (hc : w'.caller = w.caller) :
    w'.creditOf root = Function.update (w.creditOf root) x ((o.map Task.credit).getD 0) := by
  have hview : (fun y => ((w'.tasks y).map Task.credit).getD 0) =
      Function.update (fun y => ((w.tasks y).map Task.credit).getD 0) x
        ((o.map Task.credit).getD 0) := by
    show (fun o : Option (Task ρ R) => (o.map Task.credit).getD 0) ∘ w'.tasks = _
    rw [h]
    exact Function.comp_update ..
  unfold World.creditOf
  rw [hc, hview, Function.update_comm hx]

theorem creditOf_root : w.creditOf root root = w.caller.credit := Function.update_self ..

theorem creditOf_of_ne (hx : x ≠ root) :
    w.creditOf root x = ((w.tasks x).map Task.credit).getD 0 := Function.update_of_ne hx ..

variable {task : Task ρ R}

theorem parentOf_of (hx : w.tasks x = some task) : w.parentOf x = task.parent := by
  simp [World.parentOf, hx]

theorem refsOf_of (hx : w.tasks x = some task) : w.refsOf x = task.refCount := by
  simp [World.refsOf, hx]

theorem creditOf_of (hne : x ≠ root) (hx : w.tasks x = some task) :
    w.creditOf root x = task.credit := by
  simp [creditOf_of_ne hne, hx]

end Views

/-! ## The invariant -/

/-- A task that waits for no child. -/
def Status.Idle : Status → Prop
  | .ready _ => True
  | .executing .entered => True
  | .executing (.returning recycled next) => recycled = false ∧ next = none
  | _ => False

/-- The tasks of `parallel_for` and `parallel_invoke`. -/
def TaskClass.SingleShot : TaskClass ρ R → Prop
  | .flagTask | .startFor _ | .functionInvoker => True
  | .spawner n => 1 ≤ n
  | _ => False

/-- A task that waits for a child is a `flag_task` or a `spawner`. -/
structure Task.Ok (task : Task ρ R) : Prop where
  cls : task.cls.SingleShot
  parent : task.parent ≠ none
  status : (task.status.Idle ∧ task.refCount = 0) ∨
    (task.cls = .flagTask ∧ task.status = .allocated) ∨
    ∃ n, task.cls = .spawner n ∧
      ((∃ left, task.status = .executing (.spawning left)) ∨ task.status = .executing .waiting)

/-- The tasks below `root` with their counts. -/
structure Tree (w : World ρ R) (root : ℕ) : Prop where
  fresh : ∀ x, w.next ≤ x → w.tasks x = none
  counted : Counted w.parentOf w.refsOf (w.creditOf root)
  rooted : Rooted w.parentOf root
  rootTask : ∃ task, w.tasks root = some task ∧ task.parent = none ∧ task.status = .allocated
  taskOk : ∀ x task, w.tasks x = some task → x ≠ root → task.Ok

theorem Status.Idle.credit {status : Status} (h : status.Idle) : status.credit = 0 := by
  unfold Status.credit
  split
  · cases h
  · cases h
  · rfl

/-! ## One task -/

section Update

variable {tasks : ℕ → Option (Task ρ R)} {o : Option (Task ρ R)} {root x n n' : ℕ}

/-- One task changes, is new, or is destroyed. -/
theorem taskOk_update (h : ∀ y t, tasks y = some t → y ≠ root → t.Ok)
    (ho : ∀ t, o = some t → x ≠ root → t.Ok) (y : ℕ) (t : Task ρ R)
    (hy : Function.update tasks x o y = some t) (hyr : y ≠ root) : t.Ok := by
  by_cases hyx : y = x
  · subst hyx
    rw [Function.update_self] at hy
    exact ho t hy hyr
  · rw [Function.update_of_ne hyx] at hy
    exact h y t hy hyr

theorem taskOk_update_some {task : Task ρ R} (h : ∀ y t, tasks y = some t → y ≠ root → t.Ok)
    (hok : task.Ok) (y : ℕ) (t : Task ρ R) (hy : Function.update tasks x (some task) y = some t)
    (hyr : y ≠ root) : t.Ok :=
  taskOk_update h (fun _ ht _ => Option.some.inj ht ▸ hok) y t hy hyr

/-- The addresses from `n'` on are unused. -/
theorem fresh_update (h : ∀ y, n ≤ y → tasks y = none) (hle : n ≤ n') (hx : x < n') (y : ℕ)
    (hy : n' ≤ y) : Function.update tasks x o y = none := by
  rw [Function.update_of_ne (by omega)]
  exact h y (by omega)

end Update

namespace Tree

variable {w w' : World ρ R} {root x p : ℕ} {task task' : Task ρ R}

theorem lt_next (h : Tree w root) (hx : w.tasks x = some task) : x < w.next := by
  by_contra hle
  rw [h.fresh x (by omega)] at hx
  cases hx

theorem ne_next (h : Tree w root) (hx : w.tasks x = some task) : x ≠ w.next := (h.lt_next hx).ne

theorem root_lt_next (h : Tree w root) : root < w.next := by
  obtain ⟨r, hr, -⟩ := h.rootTask
  exact h.lt_next hr

/-- There is nothing at the next address. -/
theorem unused (h : Tree w root) {y : ℕ} (hy : w.next ≤ y) :
    w.parentOf y = none ∧ w.refsOf y = 0 ∧ w.creditOf root y = 0 := by
  have := h.root_lt_next
  unfold World.parentOf World.refsOf
  rw [creditOf_of_ne (by omega), h.fresh y hy]
  exact ⟨rfl, rfl, rfl⟩

/-- A task other than the root has a parent that counts it. -/
theorem parentOf_ne_none (h : Tree w root) (hx : w.tasks x = some task) (hne : x ≠ root) :
    w.parentOf x ≠ none := by
  rw [parentOf_of hx]
  exact (h.taskOk x task hx hne).parent

theorem parentOf_update_same (hx : w.tasks x = some task)
    (ht : w'.tasks = Function.update w.tasks x (some task')) (hparent : task'.parent = task.parent) :
    w'.parentOf = w.parentOf := by
  rw [parentOf_eq ht, Option.bind_some, hparent, Function.update_eq_self_iff, parentOf_of hx]

/-- A task changes, but not its parent; its count changes with its credit. -/
theorem modify (h : Tree w root) (hx : w.tasks x = some task) (hne : x ≠ root)
    (ht : w'.tasks = Function.update w.tasks x (some task')) (hnext : w'.next = w.next)
    (hcaller : w'.caller = w.caller) (hparent : task'.parent = task.parent)
    (hcount : task'.refCount + task.credit = task.refCount + task'.credit) (hok : task'.Ok) :
    Tree w' root where
  fresh := by
    rw [ht, hnext]
    exact fresh_update h.fresh le_rfl (h.lt_next hx)
  counted := by
    rw [parentOf_update_same hx ht hparent, refsOf_eq ht, creditOf_eq ht hne hcaller]
    apply h.counted.setRefs
    rw [creditOf_of hne hx, refsOf_of hx]
    exact hcount
  rooted := by
    rw [parentOf_update_same hx ht hparent]
    exact h.rooted
  rootTask := by
    rw [ht, Function.update_of_ne hne.symm]
    exact h.rootTask
  taskOk := by
    rw [ht]
    exact taskOk_update_some h.taskOk hok

/-- A new child of a `spawner` takes a reference from its credit. -/
theorem addChild (h : Tree w root) (hx : w.tasks x = some task) (hne : x ≠ root)
    {child : Task ρ R}
    (ht : w'.tasks = Function.update (Function.update w.tasks x (some task')) w.next (some child))
    (hnext : w'.next = w.next + 1) (hcaller : w'.caller = w.caller)
    (hparent : task'.parent = task.parent) (hrefs : task'.refCount = task.refCount)
    (hcredit : task.credit = task'.credit + 1) (hok : task'.Ok)
    (hchild : child.parent = some x) (hidle : child.status.Idle) (hzero : child.refCount = 0)
    (hchildOk : child.Ok) : Tree w' root := by
  have hxn : x ≠ w.next := h.ne_next hx
  have hrn : root ≠ w.next := h.root_lt_next.ne
  -- first the child, then the task
  let w₁ : World ρ R := w.alloc child
  have ht₁ : w₁.tasks = Function.update w.tasks w.next (some child) := rfl
  have hx₁ : w₁.tasks x = some task := by
    rw [ht₁, Function.update_of_ne hxn, hx]
  have ht' : w'.tasks = Function.update w₁.tasks x (some task') := by
    rw [ht, ht₁, Function.update_comm hxn]
  have hnone : w.parentOf w.next = none := (h.unused le_rfl).1
  have hp₁ : w'.parentOf = Function.update w.parentOf w.next (some x) := by
    rw [parentOf_update_same hx₁ ht' hparent, parentOf_eq ht₁, Option.bind_some, hchild]
  constructor
  · rw [ht, hnext]
    exact fresh_update (fresh_update h.fresh le_rfl (h.lt_next hx)) (by omega) (by omega)
  · have hr : w'.refsOf = w.refsOf := by
      rw [refsOf_eq ht', refsOf_eq ht₁, Function.update_comm hxn.symm]
      have hself : Function.update w.refsOf x ((Option.map Task.refCount (some task')).getD 0) =
          w.refsOf := by
        rw [Function.update_eq_self_iff, refsOf_of hx]
        exact hrefs
      rw [hself, Function.update_eq_self_iff, (h.unused le_rfl).2.1]
      exact hzero
    have hc : w'.creditOf root = Function.update (w.creditOf root) x task'.credit := by
      rw [creditOf_eq ht' hne hcaller, creditOf_eq ht₁ hrn.symm rfl]
      congr 1
      rw [Function.update_eq_self_iff, creditOf_of_ne hrn.symm, h.fresh _ le_rfl]
      exact hidle.credit
    rw [hp₁, hr, hc]
    apply h.counted.attach hnone
    rw [creditOf_of hne hx]
    exact hcredit
  · rw [hp₁]
    exact h.rooted.attach hnone (.inr (h.parentOf_ne_none hx hne))
  · rw [ht, Function.update_of_ne hrn, Function.update_of_ne hne.symm]
    exact h.rootTask
  · rw [ht]
    exact taskOk_update_some (taskOk_update_some h.taskOk hok) hchildOk

/-- A new child of the root takes a reference from the credit of the caller. -/
theorem addChildRoot (h : Tree w root) {child : Task ρ R}
    (ht : w'.tasks = Function.update w.tasks w.next (some child)) (hnext : w'.next = w.next + 1)
    (hcredit : w.caller.credit = w'.caller.credit + 1) (hchild : child.parent = some root)
    (hidle : child.status.Idle) (hzero : child.refCount = 0) (hchildOk : child.Ok) :
    Tree w' root := by
  have hrn : root ≠ w.next := h.root_lt_next.ne
  have hnone : w.parentOf w.next = none := (h.unused le_rfl).1
  have hp : w'.parentOf = Function.update w.parentOf w.next (some root) := by
    rw [parentOf_eq ht, Option.bind_some, hchild]
  constructor
  · rw [ht, hnext]
    exact fresh_update h.fresh (by omega) (by omega)
  · have hr : w'.refsOf = w.refsOf := by
      rw [refsOf_eq ht, Function.update_eq_self_iff, (h.unused le_rfl).2.1]
      exact hzero
    have hc : w'.creditOf root = Function.update (w.creditOf root) root w'.caller.credit := by
      funext y
      by_cases hyr : y = root
      · subst hyr
        rw [creditOf_root, Function.update_self]
      · rw [Function.update_of_ne hyr, creditOf_of_ne hyr, creditOf_of_ne hyr, ht]
        by_cases hyn : y = w.next
        · subst hyn
          rw [Function.update_self, h.fresh _ le_rfl]
          exact hidle.credit
        · rw [Function.update_of_ne hyn]
    rw [hp, hr, hc]
    apply h.counted.attach hnone
    rw [creditOf_root]
    exact hcredit
  · rw [hp]
    exact h.rooted.attach hnone (.inl rfl)
  · rw [ht, Function.update_of_ne hrn]
    exact h.rootTask
  · rw [ht]
    exact taskOk_update_some h.taskOk hchildOk

section Offer

variable {flag child : Task ρ R}
  (ht : w'.tasks = Function.update (Function.update (Function.update w.tasks w.next (some flag)) x
    (some task')) (w.next + 1) (some child))

include ht

/-- What an offer does to a view of the tasks. -/
theorem view_offer {α : Type} (view : Option (Task ρ R) → α) :
    (fun y => view (w'.tasks y)) = Function.update (Function.update (Function.update
      (fun y => view (w.tasks y)) w.next (view (some flag))) x (view (some task'))) (w.next + 1)
        (view (some child)) := by
  show view ∘ w'.tasks = _
  rw [ht, Function.comp_update, Function.comp_update, Function.comp_update]
  rfl

/-- The `flag_task` counts two, and the other counts stay as they are. -/
theorem refsOf_offer (h : Tree w root) (hx : w.tasks x = some task) (hcount : flag.refCount = 2)
    (hrefs : task'.refCount = task.refCount) (hzero : child.refCount = 0) :
    w'.refsOf = Function.update w.refsOf w.next 2 := by
  have hxn : x ≠ w.next := h.ne_next hx
  have hself : w.refsOf x = task'.refCount := by rw [refsOf_of hx, hrefs]
  have hview : w'.refsOf = _ := view_offer ht fun o => (o.map Task.refCount).getD 0
  rw [hview, Option.map_some, Option.map_some, Option.map_some, Option.getD_some,
    Option.getD_some, Option.getD_some, hcount, hzero, ← hself]
  show Function.update (Function.update (Function.update w.refsOf _ _) _ _) _ _ = _
  rw [Function.update_comm hxn.symm, Function.update_eq_self, Function.update_eq_self_iff,
    Function.update_of_ne (by omega), (h.unused (Nat.le_succ _)).2.1]

/-- The credits stay as they are. -/
theorem creditOf_offer (h : Tree w root) (hx : w.tasks x = some task)
    (hcaller : w'.caller = w.caller) (hflag0 : flag.credit = 0)
    (hcredit : task'.credit = task.credit) (hchild0 : child.credit = 0) :
    w'.creditOf root = w.creditOf root := by
  funext y
  by_cases hyr : y = root
  · rw [hyr, creditOf_root, creditOf_root, hcaller]
  · rw [creditOf_of_ne hyr, creditOf_of_ne hyr, ht]
    by_cases hyc : y = w.next + 1
    · rw [hyc, Function.update_self, h.fresh _ (Nat.le_succ _)]
      exact hchild0
    · rw [Function.update_of_ne hyc]
      by_cases hyx : y = x
      · rw [hyx, Function.update_self, hx]
        exact hcredit
      · rw [Function.update_of_ne hyx]
        by_cases hyn : y = w.next
        · rw [hyn, Function.update_self, h.fresh _ le_rfl]
          exact hflag0
        · rw [Function.update_of_ne hyn]

end Offer

/-- A `flag_task` takes the place of `x`, which becomes its child together with a
    new task. -/
theorem offerWork (h : Tree w root) (hx : w.tasks x = some task) (hne : x ≠ root)
    (hp : task.parent = some p) {flag child : Task ρ R}
    (ht : w'.tasks = Function.update (Function.update (Function.update w.tasks w.next (some flag)) x
      (some task')) (w.next + 1) (some child))
    (hnext : w'.next = w.next + 2) (hcaller : w'.caller = w.caller)
    (hflag : flag.parent = some p) (hcount : flag.refCount = 2) (hflag0 : flag.credit = 0)
    (hparent : task'.parent = some w.next) (hrefs : task'.refCount = task.refCount)
    (hcredit : task'.credit = task.credit) (hchild : child.parent = some w.next)
    (hzero : child.refCount = 0) (hchild0 : child.credit = 0)
    (hok : flag.Ok ∧ task'.Ok ∧ child.Ok) : Tree w' root := by
  have hlt := h.lt_next hx
  have hrlt := h.root_lt_next
  have hxn : x ≠ w.next := hlt.ne
  have hxc : x ≠ w.next + 1 := by omega
  have hnc : w.next ≠ w.next + 1 := by omega
  have hPx : w.parentOf x = some p := by rw [parentOf_of hx, hp]
  obtain ⟨hPn, hRn, hCn⟩ := h.unused le_rfl
  have hPc := (h.unused (Nat.le_succ w.next)).1
  have hP : w'.parentOf = Function.update (Function.update (Function.update w.parentOf w.next
      (some p)) x (some w.next)) (w.next + 1) (some w.next) := by
    have hview : w'.parentOf = _ := view_offer ht fun o => o.bind Task.parent
    rw [hview, Option.bind_some, Option.bind_some, Option.bind_some, hflag, hparent, hchild]
    rfl
  constructor
  · rw [ht, hnext]
    exact fresh_update (fresh_update (fresh_update h.fresh (Nat.le_succ _) (by omega)) le_rfl
      (by omega)) (by omega) (by omega)
  · -- `x` leaves `p` to the flag, which then counts `x` and the child
    rw [hP, refsOf_offer ht h hx hcount hrefs hzero,
      creditOf_offer ht h hx hcaller hflag0 hcredit hchild0]
    exact h.counted.interpose hPx hPn hPc hxn hxc hnc hRn hCn
  · rw [hP]
    exact h.rooted.interpose hPx hPn hPc hxn hxc hnc
  · rw [ht, Function.update_of_ne (by omega), Function.update_of_ne hne.symm,
      Function.update_of_ne hrlt.ne]
    exact h.rootTask
  · rw [ht]
    exact taskOk_update_some (taskOk_update_some (taskOk_update_some h.taskOk hok.1) hok.2.1)
      hok.2.2

/-- Only a flag that waits can come to zero by the return of a child. -/
theorem parent_of_child (h : Tree w root) (hx : w.tasks x = some task) (hp : task.parent = some p)
    (hcaller : 1 ≤ w.caller.credit) :
    ∃ parent, w.tasks p = some parent ∧ w.creditOf root p < parent.refCount ∧
      (parent.refCount - 1 = 0 → p ≠ root ∧ parent.cls = .flagTask ∧
        parent.status = .allocated) := by
  have hPx : w.parentOf x = some p := by rw [parentOf_of hx, hp]
  have hlt := h.counted.credit_lt hPx
  unfold World.refsOf at hlt
  cases hparent : w.tasks p with
  | none =>
    rw [hparent] at hlt
    exact absurd hlt (Nat.not_lt_zero _)
  | some parent =>
    rw [hparent, Option.map_some, Option.getD_some] at hlt
    refine ⟨parent, rfl, hlt, fun h0 => ?_⟩
    have hpr : p ≠ root := by
      rintro rfl
      rw [creditOf_root] at hlt
      omega
    rw [creditOf_of hpr hparent] at hlt
    rcases (h.taskOk p parent hparent hpr).status with ⟨-, h0'⟩ | hf | ⟨n, -, ⟨left, hs⟩ | hs⟩
    · omega
    · exact ⟨hpr, hf⟩
    · have hcr : parent.credit = left + 2 := by
        unfold Task.credit
        rw [hs]
        rfl
      omega
    · have hcr : parent.credit = 1 := by
        unfold Task.credit
        rw [hs]
        rfl
      omega

section Finish

variable {parent parent' : Task ρ R}

/-- A parent that has counted a child off keeps the conditions. -/
theorem ok_tallied (hok : parent.Ok)
    (hs : parent'.status = if parent.refCount - 1 = 0 then .ready true else parent.status)
    (hcls : parent'.cls = parent.cls) (hparent : parent'.parent = parent.parent)
    (hrefs : parent'.refCount = parent.refCount - 1) : parent'.Ok := by
  refine ⟨hcls ▸ hok.cls, hparent ▸ hok.parent, ?_⟩
  by_cases h0 : parent.refCount - 1 = 0
  · refine .inl ⟨?_, hrefs.trans h0⟩
    rw [hs, if_pos h0]
    trivial
  · rw [hs, if_neg h0, hcls]
    rcases hok.status with ⟨-, hzero⟩ | hwaits
    · rw [hzero] at h0
      exact absurd rfl h0
    · exact .inr hwaits

/-- The task `x` is destroyed and its parent `p` changes, with the same parent and credit. -/
theorem views_finish (hx : w.tasks x = some task) (hidle : task.status.Idle)
    (hzero : task.refCount = 0) (hp : w.tasks p = some parent)
    (ht : w'.tasks = Function.update (Function.update w.tasks x none) p (some parent'))
    (hcaller : w'.caller = w.caller) (hpx : p ≠ x) (hparent : parent'.parent = parent.parent)
    (hcredit : parent'.credit = parent.credit) :
    w'.parentOf = Function.update w.parentOf x none ∧
      w'.refsOf = Function.update w.refsOf p parent'.refCount ∧
      w'.creditOf root = w.creditOf root := by
  let w₁ : World ρ R := w.free x
  have ht₁ : w₁.tasks = Function.update w.tasks x none := rfl
  have ht' : w'.tasks = Function.update w₁.tasks p (some parent') := ht
  have hp₁ : w₁.tasks p = some parent := by
    rw [ht₁, Function.update_of_ne hpx, hp]
  refine ⟨?_, ?_, ?_⟩
  · rw [parentOf_update_same hp₁ ht' hparent, parentOf_eq ht₁, Option.bind_none]
  · rw [refsOf_eq ht', refsOf_eq ht₁]
    congr 1
    rw [Function.update_eq_self_iff, refsOf_of hx]
    exact hzero.symm
  · funext y
    by_cases hyr : y = root
    · rw [hyr, creditOf_root, creditOf_root, hcaller]
    · rw [creditOf_of_ne hyr, creditOf_of_ne hyr, ht]
      by_cases hyp : y = p
      · rw [hyp, Function.update_self, hp]
        exact hcredit
      · rw [Function.update_of_ne hyp]
        by_cases hyx : y = x
        · rw [hyx, Function.update_self, hx]
          exact hidle.credit.symm
        · rw [Function.update_of_ne hyx]

end Finish

/-- A task has returned: it is destroyed, and its parent may become ready. -/
theorem finish (h : Tree w root) (hx : w.tasks x = some task) (hne : x ≠ root)
    (hidle : task.status.Idle) (hzero : task.refCount = 0) (hcaller : 1 ≤ w.caller.credit) :
    ∃ p parent, task.parent = some p ∧ w.tasks p = some parent ∧ p ≠ x ∧
      ((w.finish x false none).tasks =
        Function.update (Function.update w.tasks x none) p (some { parent with
          refCount := parent.refCount - 1
          status := if parent.refCount - 1 = 0 then .ready true else parent.status })) ∧
      (parent.refCount - 1 = 0 → parent.cls = .flagTask) ∧ Tree (w.finish x false none) root := by
  obtain ⟨p, hp⟩ := Option.ne_none_iff_exists'.mp (h.taskOk x task hx hne).parent
  have hPx : w.parentOf x = some p := by rw [parentOf_of hx, hp]
  obtain ⟨parent, hparent, hlt, hflag⟩ := h.parent_of_child hx hp hcaller
  have hpx : p ≠ x := by
    rintro rfl
    obtain rfl := Option.some.inj (hx.symm.trans hparent)
    omega
  let parent' : Task ρ R := { parent with
    refCount := parent.refCount - 1
    status := if parent.refCount - 1 = 0 then .ready true else parent.status }
  have ht : (w.finish x false none).tasks =
      Function.update (Function.update w.tasks x none) p (some parent') := by
    show ((w.free x).tally ((w.tasks x).bind Task.parent)).tasks = _
    rw [hx, Option.bind_some, hp]
    show Function.update (Function.update w.tasks x none) p
      ((Function.update w.tasks x none p).map _) = _
    rw [Function.update_of_ne hpx, hparent]
    rfl
  have hsame : (w.finish x false none).caller = w.caller ∧
      (w.finish x false none).next = w.next := by
    show ((w.free x).tally ((w.tasks x).bind Task.parent)).caller = _ ∧
      ((w.free x).tally ((w.tasks x).bind Task.parent)).next = _
    rw [hx, Option.bind_some, hp]
    exact ⟨rfl, rfl⟩
  have hcredit : parent'.credit = parent.credit := by
    show (if parent.refCount - 1 = 0 then Status.ready true else parent.status).credit =
      parent.status.credit
    by_cases h0 : parent.refCount - 1 = 0
    · rw [if_pos h0, (hflag h0).2.2]
      rfl
    · rw [if_neg h0]
  obtain ⟨hP, hR, hC⟩ := views_finish hx hidle hzero hparent ht hsame.1 hpx rfl hcredit
  refine ⟨p, parent, hp, hparent, hpx, ht, fun h0 => (hflag h0).2.1, ?_⟩
  constructor
  · rw [ht, hsame.2]
    exact fresh_update (fresh_update h.fresh le_rfl (h.lt_next hx)) le_rfl (h.lt_next hparent)
  · have hRp : parent'.refCount = w.refsOf p - 1 := by rw [refsOf_of hparent]
    rw [hP, hR, hC, hRp]
    exact h.counted.detach hPx
  · rw [hP]
    refine h.rooted.detach (h.counted.no_child ?_)
    rw [creditOf_of hne hx, refsOf_of hx]
    exact hzero.trans hidle.credit.symm
  · obtain ⟨r, hr, hr1, hr2⟩ := h.rootTask
    by_cases hpr : p = root
    · subst hpr
      obtain rfl := Option.some.inj (hparent.symm.trans hr)
      refine ⟨parent', by rw [ht, Function.update_self], hr1, ?_⟩
      show (if parent.refCount - 1 = 0 then Status.ready true else parent.status) = _
      rw [if_neg fun h0 => (hflag h0).1 rfl, hr2]
    · refine ⟨r, ?_, hr1, hr2⟩
      rw [ht, Function.update_of_ne (Ne.symm hpr), Function.update_of_ne hne.symm, hr]
  · rw [ht]
    exact taskOk_update (taskOk_update h.taskOk fun _ ho => nomatch ho) fun t ho hpr =>
      Option.some.inj ho ▸ ok_tallied (h.taskOk p parent hparent hpr) rfl rfl rfl rfl

/-- When the wait of the caller ends, only the root is left. -/
theorem eq_none (h : Tree w root) (hroot : w.refsOf root = w.caller.credit) (hx : x ≠ root) :
    w.tasks x = none := by
  by_contra hne
  obtain ⟨task, ht⟩ := Option.ne_none_iff_exists'.mp hne
  exact h.parentOf_ne_none ht hx
    (h.rooted.eq_none h.counted (by rw [creditOf_root, hroot]) x)

end Tree

end TaskProf.Tbb
