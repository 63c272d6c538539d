import Mathlib
import JLibScheduler.Lib.Lts
import JLibScheduler.Lib.Sums

/-!
# Building a task graph

`TaskDAG` (`include/TaskDAG.h`, `src/TaskDAG.cpp`) and its nodes (`include/TaskNode.h`). A node is
named by its address, which is also its key in the `dependents` list of each of its predecessors;
these lists are sorted by key, so the addresses that the allocator gives decide the order in which
a node's dependents are visited. A graph is built by a list of calls (`BuildOp`), each with the
address that its allocation returned. `dependencies_left` is an `int` that `AddDependency` counts up
by one in each call, for a repeated pair too. It is an integer without bounds here: a build has
fewer than `2 ^ 31` calls of `AddDependency` for one dependent, so that the `int` does not wrap.

`WellBuilt` is what holds of every graph that is built without repeating a dependency.
-/

namespace JLibScheduler.TaskDAG

/-- The default of the optional byte arguments, for no priority and no affinity. -/
def NONE : UInt8 := 255

/-- `TaskNode::LogicType`. -/
inductive LogicType
  | AND
  | OR
  deriving DecidableEq, Repr

/-- `TaskNode`: how the node fires, its dependents in key order, and where its task is pushed.
`dependenciesLeft` is the `int` of the source for fewer than `2 ^ 31` calls of `AddDependency` with
this node as the dependent. -/
structure TaskNode where
  gateType : LogicType := .AND
  isGate : Bool := false
  dependents : List Nat := []
  dependenciesLeft : Int := 0
  cpuID : UInt8 := 0
  priority : UInt8 := 0
  isLocal : Bool := true
  isFork : Bool := false
  isMain : Bool := false

/-- `TaskDAG` during the build: the addresses of its nodes in the order of their creation, and the
memory. -/
structure Graph where
  nodes : List Nat
  node : Nat → TaskNode

/-- A graph without nodes. -/
def Graph.empty : Graph := { nodes := [], node := fun _ => {} }

/-- `LockFreeList::add` on a list sorted by key: nothing changes when the key is there. -/
def add (key : Nat) : List Nat → List Nat
  | [] => [key]
  | x :: l => if x < key then x :: add key l else if x = key then x :: l else key :: x :: l

/-- A new node at the address `a`. -/
def Graph.insert (g : Graph) (a : Nat) (node : TaskNode) : Graph :=
  { nodes := g.nodes ++ [a], node := Function.update g.node a node }

/-- The node that `CreateNode` makes. -/
def newNode (priority cpuID : UInt8) : TaskNode :=
  { isLocal := priority = NONE, priority := if priority = NONE then 0 else priority, cpuID }

/-- `CreateNode`. -/
def Graph.createNode (g : Graph) (a : Nat) (priority cpuID : UInt8) : Graph :=
  g.insert a (newNode priority cpuID)

/-- `CreateMainNode`. -/
def Graph.createMainNode (g : Graph) (a : Nat) (priority : UInt8) : Graph :=
  g.insert a { newNode priority NONE with isMain := true }

/-- `CreateGate`. -/
def Graph.createGate (g : Graph) (a : Nat) (type : LogicType) : Graph :=
  g.insert a { isGate := true, gateType := type }

/-- `AddDependency`: the dependent counts one more, and is added to the dependents of the
dependency. -/
def Graph.addDependency (g : Graph) (dependent dependency : Nat) : Graph :=
  let left := (g.node dependent).dependenciesLeft + 1
  let node := Function.update g.node dependent { g.node dependent with dependenciesLeft := left }
  let dependents := add dependent (node dependency).dependents
  { g with node := Function.update node dependency { node dependency with dependents } }

/-- A call of the build, with the address of the node it allocates. -/
inductive BuildOp
  | createNode (a : Nat) (priority cpuID : UInt8)
  | createMainNode (a : Nat) (priority : UInt8)
  | createGate (a : Nat) (type : LogicType)
  | addDependency (dependent dependency : Nat)
  deriving DecidableEq

/-- A call on a graph. The allocator gives no address that is in use, and dependencies are between
nodes of the graph. -/
def BuildOp.apply (g : Graph) : BuildOp → Option Graph
  | .createNode a priority cpuID =>
    if a ∈ g.nodes then none else some (g.createNode a priority cpuID)
  | .createMainNode a priority =>
    if a ∈ g.nodes then none else some (g.createMainNode a priority)
  | .createGate a type => if a ∈ g.nodes then none else some (g.createGate a type)
  | .addDependency dependent dependency =>
    if dependent ∈ g.nodes ∧ dependency ∈ g.nodes then
      some (g.addDependency dependent dependency)
    else none

/-- The graph that a list of calls builds. -/
def build (ops : List BuildOp) : Option Graph := Lts.run BuildOp.apply .empty ops

/-- The pair of an `AddDependency`. -/
def BuildOp.pair? : BuildOp → Option (Nat × Nat)
  | .addDependency dependent dependency => some (dependent, dependency)
  | _ => none

/-- The (dependent, dependency) pairs of a build, in order. -/
def pairs (ops : List BuildOp) : List (Nat × Nat) := ops.filterMap BuildOp.pair?

/-- The direct predecessors of a node. -/
def Graph.preds (g : Graph) (n : Nat) : List Nat :=
  g.nodes.filter fun p => n ∈ (g.node p).dependents

/-- How many entries of dependents lists are the node. -/
def Graph.indegree (g : Graph) (n : Nat) : Nat :=
  (g.nodes.map fun p => (g.node p).dependents.count n).sum

/-- The push of `Fire` hands the node's task to some queue. -/
def TaskNode.routed (node : TaskNode) : Bool := node.isMain || node.isFork || node.isLocal

/-- The node that the call makes, if any, is handed to some queue: `CreateNode` makes it local
when no priority is given. -/
def BuildOp.routed : BuildOp → Bool
  | .createNode _ priority _ => priority = NONE
  | _ => true

/-- What holds of every built graph. -/
structure WellBuilt (g : Graph) : Prop where
  nodup : g.nodes.Nodup
  sorted : ∀ p, (g.node p).dependents.Pairwise (· < ·)
  mem : ∀ p d, d ∈ (g.node p).dependents → p ∈ g.nodes ∧ d ∈ g.nodes
  left : ∀ n, (g.node n).dependenciesLeft = g.indegree n
  task : ∀ n, (g.node n).isGate = false → (g.node n).gateType = .AND
  gate : ∀ n, (g.node n).isGate = true → (g.node n).routed = true

section
variable {g g' : Graph} {a key d p : Nat} {l : List Nat} {op : BuildOp} {ops : List BuildOp}

/-! ## Sorted lists -/

@[simp] theorem mem_add {x : Nat} : x ∈ add key l ↔ x = key ∨ x ∈ l := by
  induction l with
  | nil => simp [add]
  | cons y l ih =>
    unfold add
    split_ifs with h₁ h₂
    · rw [List.mem_cons, ih, List.mem_cons, or_left_comm]
    · simp [h₂]
    · simp

theorem pairwise_add (h : l.Pairwise (· < ·)) : (add key l).Pairwise (· < ·) := by
  induction l with
  | nil => simp [add]
  | cons y l ih =>
    rw [List.pairwise_cons] at h
    unfold add
    split_ifs with h₁ h₂
    · rw [List.pairwise_cons]
      refine ⟨fun x hx => ?_, ih h.2⟩
      rcases mem_add.1 hx with rfl | hx
      · exact h₁
      · exact h.1 x hx
    · exact List.pairwise_cons.2 h
    · refine List.pairwise_cons.2 ⟨fun x hx => ?_, List.pairwise_cons.2 h⟩
      rcases List.mem_cons.1 hx with rfl | hx
      · omega
      · have := h.1 x hx
        omega

theorem count_add (h : key ∉ l) (x : Nat) :
    (add key l).count x = l.count x + if x = key then 1 else 0 := by
  induction l with
  | nil =>
    by_cases hx : x = key
    · simp [add, hx]
    · simp [add, hx, Ne.symm hx]
  | cons y l ih =>
    rw [List.mem_cons, not_or] at h
    unfold add
    split_ifs with h₁ h₂ h₃ h₃ <;> simp_all [List.count_cons] <;> omega

/-! ## The calls of a build -/

@[simp] theorem insert_nodes (node : TaskNode) : (g.insert a node).nodes = g.nodes ++ [a] := rfl

theorem WellBuilt.notMem_dependents (h : WellBuilt g) (ha : a ∉ g.nodes) :
    (g.node a).dependents = [] := by
  refine List.eq_nil_iff_forall_not_mem.2 fun d hd => ha (h.mem a d hd).1

theorem WellBuilt.indegree_eq_zero (h : WellBuilt g) (ha : a ∉ g.nodes) : g.indegree a = 0 := by
  refine List.sum_eq_zero fun x hx => ?_
  obtain ⟨p, -, rfl⟩ := List.mem_map.1 hx
  exact List.count_eq_zero.2 fun hd => ha (h.mem p a hd).2

/-- A new node has no dependents and is no dependent. -/
theorem WellBuilt.insert (h : WellBuilt g) (ha : a ∉ g.nodes) {node : TaskNode}
    (hdep : node.dependents = []) (hleft : node.dependenciesLeft = 0)
    (htask : node.isGate = false → node.gateType = .AND)
    (hgate : node.isGate = true → node.routed = true) : WellBuilt (g.insert a node) := by
  have hdeps : ∀ p, ((g.insert a node).node p).dependents = (g.node p).dependents := by
    intro p
    by_cases hp : p = a
    · subst hp
      simp [Graph.insert, hdep, h.notMem_dependents ha]
    · simp [Graph.insert, hp]
  refine ⟨?_, fun p => by rw [hdeps]; exact h.sorted p, fun p d hd => ?_, fun n => ?_,
    fun n hn => ?_, fun n hn => ?_⟩
  · simpa [List.nodup_append'] using ⟨h.nodup, ha⟩
  · rw [hdeps] at hd
    simp [h.mem p d hd]
  · have hind : (g.insert a node).indegree n = g.indegree n := by
      simp [Graph.indegree, hdeps, h.notMem_dependents ha]
    rw [hind]
    by_cases hn : n = a
    · subst hn
      simp [Graph.insert, hleft, h.indegree_eq_zero ha]
    · simp [Graph.insert, hn, h.left n]
  · by_cases hn' : n = a
    · subst hn'
      simpa [Graph.insert] using htask (by simpa [Graph.insert] using hn)
    · simpa [Graph.insert, hn'] using h.task n (by simpa [Graph.insert, hn'] using hn)
  · by_cases hn' : n = a
    · subst hn'
      simpa [Graph.insert] using hgate (by simpa [Graph.insert] using hn)
    · simpa [Graph.insert, hn'] using h.gate n (by simpa [Graph.insert, hn'] using hn)

/-- The fields of a node after a dependency is added. -/
theorem addDependency_node (n : Nat) :
    ((g.addDependency d p).node n).dependents =
        (if n = p then add d (g.node p).dependents else (g.node n).dependents) ∧
      ((g.addDependency d p).node n).dependenciesLeft =
        (g.node n).dependenciesLeft + (if n = d then 1 else 0) ∧
      ((g.addDependency d p).node n).isGate = (g.node n).isGate ∧
      ((g.addDependency d p).node n).gateType = (g.node n).gateType ∧
      ((g.addDependency d p).node n).routed = (g.node n).routed := by
  unfold Graph.addDependency
  by_cases hnp : n = p <;> by_cases hnd : n = d
  · subst hnp; subst hnd; simp [TaskNode.routed]
  · subst hnp; simp [TaskNode.routed, hnd]
  · subst hnd; simp [TaskNode.routed, hnp]
  · simp [TaskNode.routed, hnp, hnd]

/-- A new dependency between two nodes. -/
theorem WellBuilt.addDependency (h : WellBuilt g) (hd : d ∈ g.nodes) (hp : p ∈ g.nodes)
    (hnew : d ∉ (g.node p).dependents) : WellBuilt (g.addDependency d p) := by
  have hdeps := fun n => (addDependency_node (g := g) (d := d) (p := p) n).1
  refine ⟨h.nodup, fun n => ?_, fun n x hx => ?_, fun n => ?_, fun n hn => ?_, fun n hn => ?_⟩
  · rw [hdeps]
    split_ifs
    · exact pairwise_add (h.sorted p)
    · exact h.sorted n
  · rw [hdeps] at hx
    change n ∈ g.nodes ∧ x ∈ g.nodes
    split_ifs at hx with hnp
    · rcases mem_add.1 hx with rfl | hx
      · exact ⟨hnp ▸ hp, hd⟩
      · exact ⟨hnp ▸ hp, (h.mem p x hx).2⟩
    · exact h.mem n x hx
  · have hind : (g.addDependency d p).indegree n = g.indegree n + if n = d then 1 else 0 := by
      rw [Graph.indegree, Graph.indegree, ← Sums.map_add_ite h.nodup hp]
      refine congrArg List.sum (List.map_congr_left fun x _ => ?_)
      rw [hdeps]
      split_ifs with hxp hnd
      all_goals simp_all [count_add hnew]
    rw [(addDependency_node n).2.1, h.left n, hind]
    split_ifs <;> simp
  · rw [(addDependency_node n).2.2.1] at hn
    rw [(addDependency_node n).2.2.2.1]
    exact h.task n hn
  · rw [(addDependency_node n).2.2.1] at hn
    rw [(addDependency_node n).2.2.2.2]
    exact h.gate n hn

/-- What a call does, when it succeeds. -/
theorem apply_cases (h : op.apply g = some g') :
    (∃ a node, a ∉ g.nodes ∧ g' = g.insert a node ∧ op.pair? = none ∧ node.dependents = [] ∧
      node.dependenciesLeft = 0 ∧ (node.isGate = false → node.gateType = .AND) ∧
      (node.isGate = true → node.routed = true) ∧ node.routed = op.routed) ∨
    (∃ d p, d ∈ g.nodes ∧ p ∈ g.nodes ∧ g' = g.addDependency d p ∧ op.pair? = some (d, p) ∧
      op.routed = true) := by
  cases op with
  | createNode a priority cpuID =>
    simp only [BuildOp.apply] at h
    split_ifs at h with ha
    cases h
    exact .inl ⟨a, _, ha, rfl, rfl, rfl, rfl, fun _ => rfl, nofun, by
      simp [newNode, TaskNode.routed, BuildOp.routed]⟩
  | createMainNode a priority =>
    simp only [BuildOp.apply] at h
    split_ifs at h with ha
    cases h
    exact .inl ⟨a, _, ha, rfl, rfl, rfl, rfl, fun _ => rfl, nofun, rfl⟩
  | createGate a type =>
    simp only [BuildOp.apply] at h
    split_ifs at h with ha
    cases h
    exact .inl ⟨a, _, ha, rfl, rfl, rfl, rfl, nofun, fun _ => rfl, rfl⟩
  | addDependency d p =>
    simp only [BuildOp.apply] at h
    split_ifs at h with hmem
    cases h
    exact .inr ⟨d, p, hmem.1, hmem.2, rfl, rfl, rfl⟩

theorem pairs_append_singleton (ops : List BuildOp) (op : BuildOp) :
    pairs (ops ++ [op]) = pairs ops ++ op.pair?.toList := by
  rw [pairs, List.filterMap_append]
  cases h : op.pair? <;> simp [pairs, h]

theorem WellBuilt.empty : WellBuilt .empty :=
  ⟨List.nodup_nil, fun _ => .nil, nofun, fun _ => rfl, fun _ _ => rfl, nofun⟩

/-- Every graph that is built without repeating a pair is well built; its dependents lists hold the
pairs of the build. -/
theorem wellBuilt_of_build (h : build ops = some g) (hnodup : (pairs ops).Nodup) :
    WellBuilt g ∧ ∀ d p, d ∈ (g.node p).dependents → (d, p) ∈ pairs ops := by
  revert hnodup
  refine Lts.run_history (I := fun ops g => (pairs ops).Nodup →
    WellBuilt g ∧ ∀ d p, d ∈ (g.node p).dependents → (d, p) ∈ pairs ops) ?_
    (fun _ => ⟨.empty, nofun⟩) h
  intro ops g op g' ih hop hnodup
  rw [pairs_append_singleton, List.nodup_append'] at hnodup
  obtain ⟨hw, hpairs⟩ := ih hnodup.1
  rw [pairs_append_singleton]
  rcases apply_cases hop with ⟨a, node, ha, rfl, -, hdep, hleft, htask, hgate, -⟩ |
    ⟨d, p, hd, hp, rfl, hpair, -⟩
  · refine ⟨hw.insert ha hdep hleft htask hgate, fun d p hd =>
      List.mem_append_left _ (hpairs d p ?_)⟩
    by_cases hpa : p = a
    · subst hpa
      simp [Graph.insert, hdep] at hd
    · simpa [Graph.insert, hpa] using hd
  · have hnew : d ∉ (g.node p).dependents := fun hmem =>
      hnodup.2.2 (hpairs d p hmem) (by simp [hpair])
    refine ⟨hw.addDependency hd hp hnew, fun x n hx => ?_⟩
    rw [(addDependency_node n).1] at hx
    split_ifs at hx with hnp
    · rcases mem_add.1 hx with rfl | hx
      · simp [hpair, hnp]
      · exact List.mem_append_left _ (hpairs x n (hnp ▸ hx))
    · exact List.mem_append_left _ (hpairs x n hx)

/-- The nodes that are handed to some queue are those whose call says so. -/
theorem routed_iff_of_build (h : build ops = some g) :
    (∀ n ∈ g.nodes, (g.node n).routed = true) ↔ ∀ op ∈ ops, op.routed = true := by
  refine Lts.run_history (I := fun ops g => (∀ n ∈ g.nodes, (g.node n).routed = true) ↔
    ∀ op ∈ ops, op.routed = true) ?_ (by simp [Graph.empty]) h
  intro ops g op g' ih hop
  rw [List.forall_mem_append, ← ih]
  rcases apply_cases hop with ⟨a, node, ha, rfl, -, -, -, -, -, hrouted⟩ |
    ⟨d, p, -, -, rfl, -, hrouted⟩
  · have hold : ∀ n ∈ g.nodes, ((g.insert a node).node n).routed = (g.node n).routed := by
      intro n hn
      have hna : n ≠ a := fun h => ha (h ▸ hn)
      simp [Graph.insert, hna]
    have hself : ((g.insert a node).node a).routed = node.routed := by simp [Graph.insert]
    rw [insert_nodes, List.forall_mem_append, List.forall_mem_singleton, List.forall_mem_singleton,
      hself, hrouted]
    exact and_congr_left' (forall₂_congr fun n hn => by rw [hold n hn])
  · simp only [List.forall_mem_singleton, hrouted, and_true]
    exact forall₂_congr fun n _ => by rw [(addDependency_node n).2.2.2.2]

end

end JLibScheduler.TaskDAG
