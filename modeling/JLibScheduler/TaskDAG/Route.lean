import JLibScheduler.TaskDAG.Basic
import JLibScheduler.TaskScheduler.Push

/-!
# Where `Fire` puts the task of a node

The first `Fire` of a task node, as a whole call on the scheduler. It pushes the task of a main
node to `mainQ`, and that of a local one with the affinity of the node; the result of the push is
not looked at. The task reaches a queue exactly when the node is a main node, or has no priority
and either names a worker that is free or names none while one of the first 256 workers is free.
-/

namespace JLibScheduler.TaskDAG

open TaskScheduler

/-- The call that made a task node. -/
inductive NodeOp
  | createNode (priority cpuID : UInt8)
  | createMainNode (priority : UInt8)
  deriving DecidableEq

/-- The node that the call makes. -/
def NodeOp.node : NodeOp → TaskNode
  | .createNode priority cpuID => newNode priority cpuID
  | .createMainNode priority => { newNode priority NONE with isMain := true }

/-- The end of `Fire` for a task node: the push of its task, for a number of turns of the loop of
`PushLocal`. -/
def firePush {n : Nat} [NeZero n] {τ : Type} (fuel : Nat) (pool : Pool n τ) (node : TaskNode)
    (task : τ) (hiPri : Bool) : Option (Pool n τ) :=
  if node.isMain then some (pool.pushMain task).2
  else if node.isFork then some (pool.pushToCore node.cpuID.toNat task).2
  else if node.isLocal then
    if node.cpuID = 0 then (pool.pushLocal fuel task hiPri 0).map (·.2)
    else (pool.pushLocal fuel task hiPri node.cpuID).map (·.2)
  else some pool

/-- The call's node reaches a queue of the pool: a main node does; a node without priority does
when it names a free worker, or names no worker and one of the first 256 is free. -/
def NodeOp.Routed {n : Nat} {τ : Type} (pool : Pool n τ) : NodeOp → Prop
  | .createMainNode _ => True
  | .createNode priority cpuID => priority = NONE ∧
      if h : cpuID.toNat > 0 ∧ cpuID.toNat - 1 < n then
        pool.immediateCoresInUse ⟨cpuID.toNat - 1, h.2⟩ = false
      else ∃ w : Fin n, w.val < 256 ∧ pool.immediateCoresInUse w = false

section
variable {n : Nat} [NeZero n] {τ : Type} [DecidableEq τ] {pool pool' : Pool n τ} {task : τ}
  {hiPri : Bool} {fuel : Nat}

/-- When `PushLocal` leaves the task in one queue. -/
theorem pushLocal_places (hfree : pool.places task = 0) (hiPri : Bool) (cpuID : UInt8) :
    (∃ fuel r, pool.pushLocal fuel task hiPri cpuID = some r ∧ r.2.places task = 1) ↔
      if h : cpuID.toNat > 0 ∧ cpuID.toNat - 1 < n then
        pool.immediateCoresInUse ⟨cpuID.toNat - 1, h.2⟩ = false
      else ∃ w : Fin n, w.val < 256 ∧ pool.immediateCoresInUse w = false := by
  unfold Pool.pushLocal
  split_ifs with h hused
  · simp [hfree, hused]
  · simp [Pool.places_enqueue, hfree, hused]
  · rw [← chooseWorker_isSome pool.nextWorker]
    constructor
    · rintro ⟨fuel, r, hr, -⟩
      obtain ⟨x, hx, -⟩ := Option.map_eq_some_iff.1 hr
      exact ⟨fuel, by rw [hx]; rfl⟩
    · rintro ⟨fuel, hsome⟩
      obtain ⟨⟨w, next⟩, hx⟩ := Option.isSome_iff_exists.1 hsome
      refine ⟨fuel, _, by rw [hx]; rfl, ?_⟩
      rw [Pool.places_enqueue]
      exact congrArg (· + 1) hfree

/-- For every node of `CreateNode` or `CreateMainNode` whose task is in no queue, and every state
of an active pool: the first `Fire` returns with the task in exactly one queue if and only if the
node is a main node, or has no priority and names a free worker, or names none while one of the
first 256 workers is free. -/
theorem fire_places_iff (op : NodeOp) (hactive : pool.poolActive = true)
    (hfree : pool.places task = 0) :
    (∃ fuel pool', firePush fuel pool op.node task hiPri = some pool' ∧ pool'.places task = 1) ↔
      op.Routed pool := by
  cases op with
  | createMainNode priority =>
    have hplaces : (pool.pushMain task).2.places task = 1 := by
      rw [Pool.places_pushMain hactive, hfree]
    exact iff_of_true ⟨0, _, rfl, hplaces⟩ trivial
  | createNode priority cpuID =>
    by_cases hp : priority = NONE
    · subst hp
      have hfire : ∀ fuel, firePush fuel pool (NodeOp.createNode NONE cpuID).node task hiPri =
          (pool.pushLocal fuel task hiPri cpuID).map (·.2) := by
        intro fuel
        simp only [firePush, NodeOp.node, newNode, decide_true, if_true, Bool.false_eq_true,
          if_false]
        split_ifs with hcpu
        · rw [hcpu]
        · rfl
      simp only [hfire, NodeOp.Routed, true_and]
      rw [← pushLocal_places hfree hiPri cpuID]
      simp only [Option.map_eq_some_iff]
      constructor
      · rintro ⟨fuel, _, ⟨r, hr, rfl⟩, hone⟩
        exact ⟨fuel, r, hr, hone⟩
      · rintro ⟨fuel, r, hr, hone⟩
        exact ⟨fuel, r.2, ⟨r, hr, rfl⟩, hone⟩
    · -- no branch of `Fire` pushes the task
      have hfire : ∀ fuel, firePush fuel pool (NodeOp.createNode priority cpuID).node task hiPri =
          some pool := by
        intro fuel
        simp [firePush, NodeOp.node, newNode, hp]
      refine iff_of_false ?_ fun h => hp h.1
      rintro ⟨fuel, pool', hpool', hone⟩
      rw [hfire fuel] at hpool'
      cases hpool'
      omega

end

/-- A pool of two workers with empty queues, of which the first is in use. -/
def oneFree : Pool 2 Nat :=
  { immediateCoresInUse := fun w => w.val == 0, nextWorker := ⟨0, Nat.two_pos⟩
    hiPriInboxes := fun _ => [], loPriInboxes := fun _ => [], immediateTask := fun _ => none
    mainQ := [], pendingTasks := 0, poolActive := true }

theorem fire_places_iff_oneFree :
    (∃ fuel pool', firePush fuel oneFree (NodeOp.createNode NONE 2).node 7 false = some pool' ∧
      pool'.places 7 = 1) ↔ (NodeOp.createNode NONE 2).Routed oneFree :=
  fire_places_iff _ rfl (by decide)

/-- The task of a node with a priority is in no queue after the first `Fire`. -/
theorem fire_priority_lost : ¬ ∀ (op : NodeOp) (pool : Pool 2 Nat) (task : Nat) (hiPri : Bool),
    pool.poolActive = true → pool.places task = 0 →
      ∃ fuel pool', firePush fuel pool op.node task hiPri = some pool' ∧
        pool'.places task = 1 := by
  intro h
  obtain ⟨fuel, pool', hfire, hone⟩ := h (.createNode 0 NONE) oneFree 7 false rfl (by decide)
  have hlost : firePush fuel oneFree (NodeOp.createNode 0 NONE).node 7 false = some oneFree := rfl
  rw [hlost] at hfire
  cases hfire
  exact absurd hone (by decide)

end JLibScheduler.TaskDAG
