import JLibScheduler.TaskDAG.Layout

/-!
# Rejected graphs and full allocators

`Submit` takes a rejected graph apart: for each node the entries of its list, the sentinels, the
list, the node and its task are given back, one after the other. Each loop is described by the list
of the slots that it gives back (`freeEntries_spec`, `destroyNode_spec`, `reclaimNode_spec`), so
that a rejected graph gives back what was taken for it, each slot once (`submit_reclaims`).

A build with too few free slots is not undone (`build_atomic_iff`).
-/

open Slab

namespace JLibScheduler.TaskDAG

/-- The slots of a node and its task, in the order in which they are given back. -/
def Layout.freed (L : Layout) (n : Nat) : List Nat :=
  L.entries.map Prod.fst ++ [L.head, L.tail, L.list] ++ (n :: L.task.toList)

section
variable {slab : Heap Nat Cell} {a k t n : Nat} {es : List (Nat × Nat)} {L : Layout} {l : List Nat}

/-! ## The loops -/

/-- The loop of `~LockFreeList` gives back the entries of the list. -/
theorem freeEntries_spec (h : Links slab.cell a k es t) (ht : t ∉ es.map Prod.fst)
    (hnodup : (es.map Prod.fst).Nodup) (hl : l.Disjoint (es.map Prod.fst)) {fuel : ℕ}
    (hfuel : es.length < fuel) :
    ∃ curr, slab.cell a = some (.entry (some curr) k) ∧
      freeEntries t fuel (slab.releaseAll l) curr =
        some (slab.releaseAll (l ++ es.map Prod.fst)) := by
  induction es generalizing a k l fuel with
  | nil =>
    obtain ⟨fuel, rfl⟩ : ∃ f, fuel = f + 1 := ⟨fuel - 1, by omega⟩
    exact ⟨t, h, by simp [freeEntries]⟩
  | cons e es ih =>
    obtain ⟨e, k'⟩ := e
    obtain ⟨fuel, rfl⟩ : ∃ f, fuel = f + 1 := ⟨fuel - 1, by omega⟩
    rw [List.map_cons, List.mem_cons, not_or] at ht
    rw [List.map_cons, List.nodup_cons] at hnodup
    rw [List.map_cons, List.disjoint_cons_right] at hl
    have hdisj : (l ++ [e]).Disjoint (es.map Prod.fst) := by
      rw [List.disjoint_append_left, List.singleton_disjoint]
      exact ⟨hl.2, hnodup.1⟩
    obtain ⟨curr, hcurr, hrest⟩ :=
      ih h.2 ht.2 hnodup.2 hdisj (Nat.lt_of_succ_lt_succ hfuel)
    refine ⟨e, h.1, ?_⟩
    rw [freeEntries, if_neg (Ne.symm ht.1), releaseAll_cell_of_notMem hl.1, hcurr]
    simp only [release_releaseAll hcurr hl.1, Option.bind_some, hrest, List.map_cons,
      List.append_assoc, List.singleton_append]

/-- `~TaskNode` gives back the entries, the sentinels and the list. -/
theorem destroyNode_spec (h : Holds slab.cell n L) (hnodup : (L.slots n).Nodup)
    (hl : l.Disjoint (L.slots n)) {fuel : ℕ} (hfuel : L.entries.length < fuel) :
    destroyNode fuel (slab.releaseAll l) n =
      some (slab.releaseAll (l ++ (L.entries.map Prod.fst ++ [L.head, L.tail, L.list]))) := by
  simp only [Layout.slots, List.nodup_cons, List.mem_cons, not_or] at hnodup
  obtain ⟨⟨-, -, -, -⟩, ⟨hlt, hlh, hle⟩, ⟨hth, hte⟩, hhe, hes⟩ := hnodup
  simp only [Layout.slots, List.disjoint_cons_right] at hl
  obtain ⟨hnl, hll, htl, hhl, hel⟩ := hl
  have hnode : (slab.releaseAll l).cell n = _ := (releaseAll_cell_of_notMem hnl).trans h.node
  have hlist : (slab.releaseAll l).cell L.list = _ := (releaseAll_cell_of_notMem hll).trans h.list
  obtain ⟨curr, hcurr, hfree⟩ := freeEntries_spec h.links hte hes hel hfuel
  have hhead : (slab.releaseAll l).cell L.head = _ := (releaseAll_cell_of_notMem hhl).trans hcurr
  have hrelease₁ := release_releaseAll (l := l ++ L.entries.map Prod.fst) hcurr (by simp [hhl, hhe])
  have hrelease₂ := release_releaseAll (l := l ++ L.entries.map Prod.fst ++ [L.head]) h.tail
    (by simp [htl, hte, hth])
  have hrelease₃ := release_releaseAll (l := l ++ L.entries.map Prod.fst ++ [L.head] ++ [L.tail])
    h.list (by simp [hll, hle, hlh, hlt])
  simp only [destroyNode, dependentsOf, hnode, hlist, hhead, hfree, hrelease₁, hrelease₂, hrelease₃,
    Option.bind_eq_bind, Option.bind_some]
  simp only [List.append_assoc, List.cons_append, List.nil_append]

/-- What a node gives back: its slots and its task. -/
theorem Layout.freed_perm (L : Layout) (n : Nat) :
    (L.freed n).Perm (L.slots n ++ L.task.toList) := by
  rw [List.perm_iff_count]
  intro x
  simp only [Layout.freed, Layout.slots, List.count_append, List.count_cons, List.count_nil]
  omega

/-- A turn of the loop of `Submit` gives back the slots of the node and its task. -/
theorem reclaimNode_spec (h : Holds slab.cell n L) (hnodup : (L.freed n).Nodup)
    (htask : ∀ t ∈ L.task, slab.cell t = some .task) (hl : l.Disjoint (L.freed n)) {fuel : ℕ}
    (hfuel : L.entries.length < fuel) :
    reclaimNode fuel (slab.releaseAll l) n = some (slab.releaseAll (l ++ L.freed n)) := by
  have hperm := L.freed_perm n
  have hslots : (L.slots n).Nodup := (hperm.nodup_iff.1 hnodup).of_append_left
  have hdisj : l.Disjoint (L.slots n) := fun x hx hmem =>
    hl hx (hperm.mem_iff.2 (List.mem_append_left _ hmem))
  rw [Layout.freed, List.nodup_append'] at hnodup
  rw [Layout.freed, List.disjoint_append_right] at hl
  have hnl : n ∉ l := fun hn => hl.2 hn (.head _)
  have hnode : (slab.releaseAll l).cell n = _ := (releaseAll_cell_of_notMem hnl).trans h.node
  have hdestroy := destroyNode_spec h hslots hdisj hfuel
  have hlists : ∀ x ∈ n :: L.task.toList,
      x ∉ l ++ (L.entries.map Prod.fst ++ [L.head, L.tail, L.list]) := by
    intro x hx hmem
    rcases List.mem_append.1 hmem with hmem | hmem
    · exact hl.2 hmem hx
    · exact hnodup.2.2 hmem hx
  have hrelease := release_releaseAll h.node (hlists n (.head _))
  simp only [reclaimNode, hnode, hdestroy, hrelease, Option.bind_eq_bind, Option.bind_some,
    Layout.freed]
  cases ht : L.task with
  | none => simp only [Option.toList_none, List.append_assoc]
  | some t =>
    rw [ht] at hlists hnodup
    have htn : t ∉ [n] := fun hmem => by
      rw [List.mem_singleton] at hmem
      simp [hmem] at hnodup
    have hnot : t ∉ l ++ (L.entries.map Prod.fst ++ [L.head, L.tail, L.list]) ++ [n] := by
      rw [List.mem_append, not_or]
      exact ⟨hlists t (.tail _ (.head _)), htn⟩
    have hcell := htask t ht
    simp only [releaseAll_cell_of_notMem hnot, hcell, if_true, release_releaseAll hcell hnot,
      Option.toList_some]
    simp only [List.append_assoc, List.cons_append, List.nil_append]

/-- The loop of `Submit` gives back the slots and the tasks of all nodes. -/
theorem reclaim_spec {lay : Nat → Layout} {nodes : List Nat} {fuel : ℕ}
    (hholds : ∀ n ∈ nodes, Holds slab.cell n (lay n))
    (htask : ∀ n ∈ nodes, ∀ t ∈ (lay n).task, slab.cell t = some .task)
    (hfuel : ∀ n ∈ nodes, (lay n).entries.length < fuel)
    (hnodup : (nodes.flatMap fun n => (lay n).freed n).Nodup)
    (hl : l.Disjoint (nodes.flatMap fun n => (lay n).freed n)) :
    nodes.foldlM (reclaimNode fuel) (slab.releaseAll l) =
      some (slab.releaseAll (l ++ nodes.flatMap fun n => (lay n).freed n)) := by
  induction nodes generalizing l with
  | nil => simp
  | cons n nodes ih =>
    rw [List.flatMap_cons, List.nodup_append'] at hnodup
    rw [List.flatMap_cons, List.disjoint_append_right] at hl
    simp only [List.forall_mem_cons] at hholds htask hfuel
    have hturn := reclaimNode_spec hholds.1 hnodup.1 htask.1 hl.1 hfuel.1
    have hdisj : (l ++ (lay n).freed n).Disjoint (nodes.flatMap fun n => (lay n).freed n) := by
      rw [List.disjoint_append_left]
      exact ⟨hl.2, hnodup.2.2⟩
    rw [List.foldlM_cons, hturn, Option.bind_eq_bind, Option.bind_some,
      ih hholds.2 htask.2 hfuel.2 hnodup.2.1 hdisj, List.flatMap_cons, List.append_assoc]

end

section
variable {s : Store} {lay : Nat → Layout}

/-- What the nodes give back is what was taken for the graph, and the tasks. -/
theorem Ok.freed_perm (h : Ok s lay) :
    (s.graph.nodes.flatMap fun n => (lay n).freed n).Perm (s.taken ++ s.tasks) := by
  have hsplit : (s.graph.nodes.flatMap fun n => (lay n).freed n).Perm
      (s.graph.nodes.flatMap fun n => (lay n).slots n ++ (lay n).task.toList) :=
    List.Perm.flatMap_left _ fun n _ => (lay n).freed_perm n
  refine hsplit.trans ((List.flatMap_append_perm _ _ _).symm.trans ?_)
  rw [h.tasks, List.filterMap_eq_flatMap_toList]
  exact h.taken.symm.append_right _

/-- A list has no more entries than the graph has nodes. -/
theorem Ok.length_entries_le (h : Ok s lay) {n : Nat} (hn : n ∈ s.graph.nodes) :
    (lay n).entries.length ≤ s.graph.nodes.length := by
  have hsub := List.subperm_of_subset (h.sorted n hn).nodup (h.mem n hn)
  have := hsub.length_le
  rwa [← h.keys n hn, List.length_map] at this

/-- `Submit` gives back the slots of a graph that it rejects and those of its tasks, each once, and
no others; it reads no slot that it has given back, and fires no node. -/
theorem submit_reclaims {calls : List Call} (h : Store.build calls = some s)
    (htasks : s.tasks.Nodup) (hcycle : s.graph.hasCycle = some true) :
    ∃ s', ∃ freed : List Nat, s.submit = some (false, s', []) ∧ freed.Perm (s.taken ++ s.tasks) ∧
      freed.Nodup ∧ s'.slab.free = freed.reverse ++ s.slab.free ∧
      (∀ a, s'.slab.cell a = if a ∈ freed then none else s.slab.cell a) ∧
      s'.graph.nodes = [] := by
  obtain ⟨lay, hok⟩ := ok_of_build h
  have hperm := hok.freed_perm
  have hnodup : (s.graph.nodes.flatMap fun n => (lay n).freed n).Nodup := by
    refine hperm.nodup_iff.2 (List.nodup_append'.2 ⟨hok.nodup, htasks, fun x hx ht => ?_⟩)
    -- a slot of the graph holds no task
    obtain ⟨c, hc, hne⟩ := hok.isSome hx
    rw [hok.alive x ht] at hc
    exact hne (Option.some.inj hc).symm
  have halive : ∀ n ∈ s.graph.nodes, ∀ t ∈ (lay n).task, s.slab.cell t = some .task := by
    intro n hn t ht
    refine hok.alive t ?_
    rw [hok.tasks]
    exact List.mem_filterMap.2 ⟨n, hn, ht⟩
  have hloop := reclaim_spec (l := []) hok.holds halive
    (fun n hn => Nat.lt_succ_of_le (hok.length_entries_le hn)) hnodup (List.disjoint_nil_left _)
  rw [releaseAll_nil, List.nil_append] at hloop
  refine ⟨{ s with
    slab := s.slab.releaseAll (s.graph.nodes.flatMap fun n => (lay n).freed n)
    graph := { s.graph with nodes := [] } }, _, ?_, hperm, hnodup, rfl, fun a => rfl, rfl⟩
  simp only [Store.submit, hcycle, hloop, Option.bind_eq_bind, Option.bind_some, if_true]

/-- Two nodes that wait for each other, one with a task. -/
def rejected : List Call :=
  [.others (List.range' 1 12), .createTask, .createNode (some 1) NONE NONE, .createGate .AND,
    .addDependency 2 6, .addDependency 6 2]

theorem submit_reclaims_rejected : ∃ s', ∃ freed : List Nat,
    ((Store.build rejected).get (by decide)).submit = some (false, s', []) ∧
      freed.Perm (((Store.build rejected).get (by decide)).taken ++
        ((Store.build rejected).get (by decide)).tasks) ∧
      freed.Nodup ∧
      s'.slab.free = freed.reverse ++ ((Store.build rejected).get (by decide)).slab.free ∧
      (∀ a, s'.slab.cell a = if a ∈ freed then none
        else ((Store.build rejected).get (by decide)).slab.cell a) ∧ s'.graph.nodes = [] :=
  submit_reclaims (Option.some_get (by decide)).symm (by decide) (by decide)

/-! ## Allocations that fail -/

/-- The slots that are handed out and the graph are the same. -/
def Store.Same (s s' : Store) : Prop :=
  (∀ a, (s'.slab.cell a).isSome = (s.slab.cell a).isSome) ∧ s'.graph.nodes = s.graph.nodes ∧
    ∀ n, (s'.graph.node n).dependenciesLeft = (s.graph.node n).dependenciesLeft ∧
      (s'.graph.node n).dependents = (s.graph.node n).dependents

/-- The call completes, or it reports a failure and has changed nothing. -/
def Outcome.Atomic (s : Store) (complete : Graph → Prop) : Outcome → Prop
  | .done s' => complete s'.graph
  | .null s' | .threw s' => s.Same s'
  | .fault => False

/-- The node takes four slots; if one to three are free, it is not undone. -/
theorem create_atomic_iff (h : Ok s lay) (task : Option Nat) (node : TaskNode) :
    (s.create task node).Atomic s (fun g => ∃ a ∉ s.graph.nodes, g = s.graph.insert a node) ↔
      s.slab.free = [] ∨ 4 ≤ s.slab.free.length := by
  rcases create_cases s task node with ⟨hfree, hcreate⟩ | ⟨a, hfree, hcreate⟩ |
    ⟨hlength, hcreate⟩ | ⟨a, m, hd, tl, rest, cell', hfree, hcreate, -⟩ <;> rw [hcreate]
  · exact iff_of_true ⟨fun _ => rfl, rfl, fun _ => ⟨rfl, rfl⟩⟩ (.inl hfree)
  · refine iff_of_false (fun hsame => ?_) (by simp [hfree])
    -- the slot of the node stays handed out
    have hslot := hsame.1 a
    rw [(h.unused a (hfree ▸ .head _)).1] at hslot
    simp at hslot
  · refine iff_of_false id ?_
    rintro (hnil | hfour)
    · simp [hnil] at hlength
    · omega
  · refine iff_of_true ⟨a, fun ha => ?_, rfl⟩ (.inr (by simp [hfree]))
    have hnode := (h.holds a ha).node
    rw [(h.unused a (hfree ▸ .head _)).1] at hnode
    cases hnode

/-- When a call of the build completes or fails without a trace: `CreateNode`, `CreateMainNode` and
`CreateGate` with no free slot or with four, `AddDependency` with a free slot or when the dependency
is there. -/
theorem build_atomic_iff {calls : List Call} (h : Store.build calls = some s) :
    (∀ task priority cpuID, (s.createNode task priority cpuID).Atomic s
        (fun g => ∃ a ∉ s.graph.nodes, g = s.graph.createNode a priority cpuID) ↔
      s.slab.free = [] ∨ 4 ≤ s.slab.free.length) ∧
    (∀ task priority, (s.createMainNode task priority).Atomic s
        (fun g => ∃ a ∉ s.graph.nodes, g = s.graph.createMainNode a priority) ↔
      s.slab.free = [] ∨ 4 ≤ s.slab.free.length) ∧
    (∀ type, (s.createGate type).Atomic s
        (fun g => ∃ a ∉ s.graph.nodes, g = s.graph.createGate a type) ↔
      s.slab.free = [] ∨ 4 ≤ s.slab.free.length) ∧
    ∀ d ∈ s.graph.nodes, ∀ p ∈ s.graph.nodes, ((s.addDependency d p).Atomic s
        (fun g => g = s.graph.addDependency d p) ↔
      d ∈ (s.graph.node p).dependents ∨ s.slab.free ≠ []) := by
  obtain ⟨lay, hok⟩ := ok_of_build h
  refine ⟨fun task _ _ => create_atomic_iff hok task _, fun task _ => create_atomic_iff hok task _,
    fun _ => create_atomic_iff hok none _, fun d hd p hp => ?_⟩
  rcases hok.addDependency hd hp with ⟨hmem, s', hdone, hgraph, -⟩ | ⟨hnot, hfree, hfault⟩ |
    ⟨-, hfree, s', lay', hdone, hgraph, -⟩
  · rw [hdone]
    exact iff_of_true hgraph (.inl hmem)
  · rw [hfault]
    exact iff_of_false id (by simp [hnot, hfree])
  · rw [hdone]
    exact iff_of_true hgraph (.inr hfree)

theorem build_atomic_iff_four :
    ((Store.build [.others [1, 2, 3, 4]]).get (by decide)).slab.free = [] ∨
      4 ≤ ((Store.build [.others [1, 2, 3, 4]]).get (by decide)).slab.free.length := by
  have h : Store.build [.others [1, 2, 3, 4]] = some _ := (Option.some_get (by decide)).symm
  exact ((build_atomic_iff h).2.2.1 .AND).1 ⟨1, by decide, rfl⟩

/-- With one free slot `CreateNode` throws, and the slot of the node stays handed out. -/
theorem not_atomic_createNode : ¬ ∀ (calls : List Call) (s : Store), Store.build calls = some s →
    ∀ task priority cpuID, (s.createNode task priority cpuID).Atomic s
      fun g => ∃ a ∉ s.graph.nodes, g = s.graph.createNode a priority cpuID := by
  intro h
  have hsame : ∀ a, _ = _ :=
    (h [.others [1]] _ (Option.some_get (by decide)).symm none NONE NONE).1
  exact absurd (hsame 1) (by decide)

end

end JLibScheduler.TaskDAG
