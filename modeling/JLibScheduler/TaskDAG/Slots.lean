import JLibScheduler.TaskDAG.HasCycle
import JLibScheduler.Lib.Slab

/-!
# The slots of a task graph

A node of a graph takes four slots of the allocator: the node, its `dependents` list, and the two
sentinels of the list; each new entry of a list takes one more, and a task has one of its own. This
is the build of `TaskDAG/Basic.lean` with these slots: `Store` has the graph and what each slot
holds. No entry is ever removed from a dependents list, so the marks of its links are left out.

The allocator gives null when no slot is free. `CreateNode` checks its own slot, the constructor of
`TaskNode` checks the slot of the list and throws, and the constructor of `LockFreeList` and `add`
construct in what they are given (`Outcome`). `Submit` takes a rejected graph apart node by node.
-/

open Slab

namespace JLibScheduler.TaskDAG

/-- The key of the last sentinel, `UINT64_MAX`. -/
def maxKey : Nat := 2 ^ 64 - 1

/-- What a slot holds. The key of an entry is the address of its data. -/
inductive Cell
  /-- nothing was constructed in it yet -/
  | raw
  | task
  | node (task : Option Nat) (dependents : Nat)
  /-- a `LockFreeList` -/
  | list (head tail : Nat)
  /-- an `LNode` -/
  | entry (next : Option Nat) (key : Nat)
  deriving DecidableEq, Repr

/-- A graph during its build, and the allocator. `taken` lists the slots that were given for the
nodes, lists, sentinels and entries of the graph, and `tasks` the tasks of its nodes. -/
structure Store where
  graph : Graph
  slab : Heap Nat Cell
  taken : List Nat
  tasks : List Nat

/-- How a call of the build ends. -/
inductive Outcome
  | done (s : Store)
  /-- it returns `nullptr` -/
  | null (s : Store)
  | threw (s : Store)
  /-- it writes through a null slot, or reads a slot that holds no such object -/
  | fault

/-! ## The build -/

/-- The constructor of `LockFreeList` in the slot `m`, with the sentinels; `none` when it writes
through null. -/
def newList (slab : Heap Nat Cell) (m : Nat) : Option (Heap Nat Cell × Nat × Nat) :=
  let (mem, slab) := slab.alloc .raw
  let (mem2, slab) := slab.alloc .raw
  match mem, mem2 with
  | some head, some tail =>
    let slab := slab.put head (.entry (some tail) 0)
    let slab := slab.put tail (.entry none maxKey)
    some (slab.put m (.list head tail), head, tail)
  | _, _ => none

/-- `CreateNode` and `CreateGate`, for a node with the given fields. -/
def Store.create (s : Store) (task : Option Nat) (node : TaskNode) : Outcome :=
  match s.slab.alloc .raw with
  | (none, _) => .null s
  | (some mem, slab) =>
    match slab.alloc .raw with
    | (none, slab) => .threw { s with slab }
    | (some m, slab) =>
      match newList slab m with
      | none => .fault
      | some (slab, head, tail) =>
        .done {
          graph := s.graph.insert mem node
          slab := slab.put mem (.node task m)
          taken := s.taken ++ [mem, m, head, tail]
          tasks := s.tasks ++ task.toList }

/-- `CreateNode`. -/
def Store.createNode (s : Store) (task : Option Nat) (priority cpuID : UInt8) : Outcome :=
  s.create task (newNode priority cpuID)

/-- `CreateMainNode`. -/
def Store.createMainNode (s : Store) (task : Option Nat) (priority : UInt8) : Outcome :=
  s.create task { newNode priority NONE with isMain := true }

/-- `CreateGate`. -/
def Store.createGate (s : Store) (type : LogicType) : Outcome :=
  s.create none { isGate := true, gateType := type }

/-- `Window::find` from `pred` on, for a number of turns: `pred`, `curr` and the key of `curr`. -/
def window (cell : Nat → Option Cell) (key : Nat) : ℕ → Nat → Option (Nat × Nat × Nat)
  | 0, _ => none
  | fuel + 1, pred =>
    match cell pred with
    | some (.entry (some curr) _) =>
      match cell curr with
      | some (.entry _ k) => if key ≤ k then some (pred, curr, k) else window cell key fuel curr
      | _ => none
    | _ => none

/-- The list in the slot that the node's `dependents` points to. -/
def dependentsOf (cell : Nat → Option Cell) (n : Nat) : Option (Nat × Nat × Nat) :=
  match cell n with
  | some (.node _ m) =>
    match cell m with
    | some (.list head tail) => some (m, head, tail)
    | _ => none
  | _ => none

/-- The link of the entry in the slot `a` is set. -/
def setNext (slab : Heap Nat Cell) (a next : Nat) : Heap Nat Cell :=
  match slab.cell a with
  | some (.entry _ key) => slab.put a (.entry (some next) key)
  | _ => slab

/-- `AddDependency`: the counter of the dependent, and the entry, if the list has none with its
key. -/
def Store.addDependency (s : Store) (dependent dependency : Nat) : Outcome :=
  let graph := s.graph.addDependency dependent dependency
  match dependentsOf s.slab.cell dependency with
  | none => .fault
  | some (_, head, _) =>
    -- a list has at most one entry for each node
    match window s.slab.cell dependent (s.graph.nodes.length + 1) head with
    | none => .fault
    | some (pred, curr, key) =>
      if key = dependent then .done { s with graph }
      else
        match s.slab.alloc .raw with
        | (none, _) => .fault
        | (some mem, slab) =>
          .done { s with
            graph
            slab := setNext (slab.put mem (.entry (some curr) dependent)) pred mem
            taken := s.taken ++ [mem] }

/-- A call of the build, or what other code does to the allocator meanwhile. -/
inductive Call
  | createTask
  | createNode (task : Option Nat) (priority cpuID : UInt8)
  | createMainNode (task : Option Nat) (priority : UInt8)
  | createGate (type : LogicType)
  | addDependency (dependent dependency : Nat)
  /-- other code takes slots and gives slots back -/
  | others (free : List Nat)
  deriving DecidableEq

/-- The state after a call that returns or throws. -/
def Outcome.store? : Outcome → Option Store
  | .done s | .null s | .threw s => some s
  | .fault => none

/-- A call on a graph. A node gets a task that is alive, and dependencies are between nodes of the
graph. -/
def Store.step (s : Store) : Call → Option Store
  | .createTask =>
    match s.slab.alloc .task with
    | (none, _) => some s
    | (some _, slab) => some { s with slab }
  | .createNode task priority cpuID =>
    if ∀ t ∈ task, s.slab.cell t = some .task then (s.createNode task priority cpuID).store?
    else none
  | .createMainNode task priority =>
    if ∀ t ∈ task, s.slab.cell t = some .task then (s.createMainNode task priority).store?
    else none
  | .createGate type => (s.createGate type).store?
  | .addDependency dependent dependency =>
    if dependent ∈ s.graph.nodes ∧ dependency ∈ s.graph.nodes then
      (s.addDependency dependent dependency).store?
    else none
  | .others free =>
    if free.Nodup ∧ ∀ a ∈ free, s.slab.cell a = none ∧ 0 < a ∧ a < maxKey then
      some { s with slab := { s.slab with free } }
    else none

/-- A new `TaskDAG`, when no slot is known to be free. -/
def Store.empty : Store where
  graph := .empty
  slab := { free := [], cell := fun _ => none }
  taken := []
  tasks := []

/-- The state that a list of calls builds. -/
def Store.build (calls : List Call) : Option Store := Lts.run Store.step .empty calls

/-! ## The submission -/

/-- The loop of `~LockFreeList` from `curr` on, for a number of turns. -/
def freeEntries (tail : Nat) : ℕ → Heap Nat Cell → Nat → Option (Heap Nat Cell)
  | 0, _, _ => none
  | fuel + 1, slab, curr =>
    if curr = tail then some slab
    else
      match slab.cell curr with
      | some (.entry (some next) _) =>
        (slab.release curr).bind fun slab => freeEntries tail fuel slab next
      | _ => none

/-- `~TaskNode`, with `~LockFreeList`. -/
def destroyNode (fuel : ℕ) (slab : Heap Nat Cell) (n : Nat) : Option (Heap Nat Cell) := do
  let (m, head, tail) ← dependentsOf slab.cell n
  match slab.cell head with
  | some (.entry (some curr) _) =>
    let slab ← freeEntries tail fuel slab curr
    let slab ← slab.release head
    let slab ← slab.release tail
    slab.release m
  | _ => none

/-- A turn of the loop of `Submit` that takes a rejected graph apart. -/
def reclaimNode (fuel : ℕ) (slab : Heap Nat Cell) (n : Nat) : Option (Heap Nat Cell) :=
  match slab.cell n with
  | some (.node task _) => do
    let slab ← destroyNode fuel slab n
    let slab ← slab.release n
    match task with
    | none => some slab
    -- the destructor of the task reads the task
    | some t => if slab.cell t = some .task then slab.release t else none
  | _ => none

/-- What `Submit` returns, the state when it does, and the nodes that it fires. -/
def Store.submit (s : Store) : Option (Bool × Store × List Nat) := do
  if ← s.graph.hasCycle then
    let slab ← s.graph.nodes.foldlM (reclaimNode (s.graph.nodes.length + 1)) s.slab
    some (false, { s with slab, graph := { s.graph with nodes := [] } }, [])
  else
    let roots := s.graph.nodes.filter fun n => (s.graph.node n).dependenciesLeft = 0
    some (true, { s with graph := { s.graph with nodes := [] } }, roots)

end JLibScheduler.TaskDAG
