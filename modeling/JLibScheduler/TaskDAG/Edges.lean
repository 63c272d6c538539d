import JLibScheduler.TaskDAG.HasCycle

/-!
# The edges of a task graph

`AddDependency` writes an edge twice: it counts the dependent up, and adds it to the `dependents`
list of the dependency, which keeps one entry for each key. So the count of a node is the number of
calls that name it, and its entries are the distinct pairs of the calls (`Edges`). The two agree for
all nodes exactly when no pair is repeated (`left_eq_preds_iff`). Then `HasCycle` is exact: it finds
the directed cycles of the relation that the calls describe (`hasCycle_exact`). A node that counts a
repeated pair never comes to zero, so a graph that `Submit` accepts repeats none
(`nodup_pairs_of_submit`).
-/

namespace JLibScheduler.TaskDAG

/-- The calls of a build make `dependent` wait for `dependency`. -/
def DependsOn (ops : List BuildOp) (dependent dependency : Nat) : Prop :=
  (dependent, dependency) ∈ pairs ops

/-- What the calls so far have written. -/
structure Edges (ops : List BuildOp) (g : Graph) : Prop where
  nodup : g.nodes.Nodup
  sorted : ∀ p, (g.node p).dependents.Pairwise (· < ·)
  nodes : ∀ d p, (d, p) ∈ pairs ops → d ∈ g.nodes ∧ p ∈ g.nodes
  dependents : ∀ d p, d ∈ (g.node p).dependents ↔ (d, p) ∈ pairs ops
  left : ∀ n, (g.node n).dependenciesLeft = (pairs ops).countP fun pair => pair.1 = n

section
variable {g : Graph} {ops : List BuildOp}

/-- Every build writes the edges of its calls. -/
theorem edges_of_build (h : build ops = some g) : Edges ops g := by
  refine Lts.run_history (I := Edges) ?_
    ⟨List.nodup_nil, fun _ => .nil, fun d p hp => (by cases hp),
      fun d p => ⟨fun hp => (by cases hp), fun hp => (by cases hp)⟩, fun n => rfl⟩ h
  intro ops g op g' ih hop
  rcases apply_cases hop with ⟨a, node, ha, rfl, hpair, hdep, hleft, -⟩ |
    ⟨d, p, hd, hp, rfl, hpair, -⟩
  · have hpairs : pairs (ops ++ [op]) = pairs ops := by
      rw [pairs_append_singleton, hpair, Option.toList_none, List.append_nil]
    have hnone : ∀ x y, (x, y) ∈ pairs ops → x ≠ a ∧ y ≠ a := by
      rintro x y hxy
      obtain ⟨hx, hy⟩ := ih.nodes x y hxy
      exact ⟨fun heq => ha (heq ▸ hx), fun heq => ha (heq ▸ hy)⟩
    constructor
    · simpa [List.nodup_append'] using ⟨ih.nodup, ha⟩
    · intro n
      by_cases hn : n = a
      · subst hn
        simp [Graph.insert, hdep]
      · simpa [Graph.insert, hn] using ih.sorted n
    · intro x y hxy
      rw [hpairs] at hxy
      obtain ⟨hx, hy⟩ := ih.nodes x y hxy
      exact ⟨List.mem_append_left _ hx, List.mem_append_left _ hy⟩
    · intro x y
      rw [hpairs]
      by_cases hy : y = a
      · subst hy
        simp only [Graph.insert, Function.update_self, hdep, List.not_mem_nil, false_iff]
        exact fun hxy => (hnone x y hxy).2 rfl
      · rw [← ih.dependents x y]
        simp [Graph.insert, hy]
    · intro n
      rw [hpairs]
      by_cases hn : n = a
      · subst hn
        simp only [Graph.insert, Function.update_self, hleft]
        rw [eq_comm, Int.natCast_eq_zero, List.countP_eq_zero]
        rintro ⟨x, y⟩ hxy
        simpa using (hnone x y hxy).1
      · rw [← ih.left n]
        simp [Graph.insert, hn]
  · have hpairs : pairs (ops ++ [op]) = pairs ops ++ [(d, p)] := by
      rw [pairs_append_singleton, hpair]
      rfl
    constructor
    · exact ih.nodup
    · intro n
      rw [(addDependency_node n).1]
      split_ifs
      · exact pairwise_add (ih.sorted p)
      · exact ih.sorted n
    · intro x y hxy
      rw [hpairs, List.mem_append, List.mem_singleton] at hxy
      rcases hxy with hxy | hxy
      · exact ih.nodes x y hxy
      · cases hxy
        exact ⟨hd, hp⟩
    · intro x y
      rw [(addDependency_node y).1, hpairs, List.mem_append, List.mem_singleton, Prod.mk.injEq]
      split_ifs with hy
      · subst hy
        rw [mem_add, ih.dependents]
        simp [or_comm]
      · rw [ih.dependents]
        simp [hy]
    · intro n
      rw [(addDependency_node n).2.1, ih.left n, hpairs, List.countP_append]
      by_cases hn : n = d
      · subst hn
        simp
      · simp [hn, Ne.symm hn]

/-- The calls that name a node as the dependent, by the dependency. -/
def dependencies (ops : List BuildOp) (n : Nat) : List Nat :=
  ((pairs ops).filter fun pair => pair.1 = n).map Prod.snd

theorem mem_dependencies {n p : Nat} : p ∈ dependencies ops n ↔ (n, p) ∈ pairs ops := by
  simp [dependencies]

/-- A node counts the calls that name it. -/
theorem Edges.left_eq (h : Edges ops g) (n : Nat) :
    (g.node n).dependenciesLeft = (dependencies ops n).length := by
  rw [h.left n, dependencies, List.length_map, List.countP_eq_length_filter]

/-- The predecessors of a node are the distinct dependencies of the calls. -/
theorem Edges.length_preds (h : Edges ops g) (n : Nat) :
    (g.preds n).length = (dependencies ops n).dedup.length := by
  refine ((List.perm_ext_iff_of_nodup (h.nodup.filter _)
    (List.nodup_dedup _)).2 fun p => ?_).length_eq
  rw [List.mem_dedup, mem_dependencies, ← h.dependents]
  simp only [List.mem_filter, decide_eq_true_eq]
  refine ⟨fun hp => hp.2, fun hp => ⟨?_, hp⟩⟩
  exact (h.nodes n p ((h.dependents n p).1 hp)).2

/-- A node has no more entries than it counts. -/
theorem Edges.listed (h : Edges ops g) : Listed g where
  nodup := h.nodup
  sorted := h.sorted
  mem p d hd := (h.nodes d p ((h.dependents d p).1 hd)).symm
  le n := by
    rw [h.left_eq, indegree_eq h.sorted, h.length_preds, Int.ofNat_le]
    exact (List.dedup_sublist _).length_le

/-- No pair is repeated when no node repeats a dependency. -/
theorem nodup_pairs_iff : (pairs ops).Nodup ↔ ∀ n, (dependencies ops n).Nodup := by
  have hcount : ∀ n p, (dependencies ops n).count p = (pairs ops).count (n, p) := by
    intro n p
    rw [dependencies, List.count, List.countP_map, List.countP_filter, List.count]
    refine List.countP_congr fun pair _ => ?_
    obtain ⟨x, y⟩ := pair
    simp [and_comm]
  constructor
  · intro h n
    rw [List.nodup_iff_count_le_one] at h ⊢
    exact fun p => hcount n p ▸ h (n, p)
  · intro h
    rw [List.nodup_iff_count_le_one]
    rintro ⟨n, p⟩
    rw [← hcount]
    exact List.nodup_iff_count_le_one.1 (h n) p

/-- The count of every node is the number of lists that contain it, exactly when no dependency is
repeated. -/
theorem left_eq_preds_iff (h : build ops = some g) :
    (∀ n, (g.node n).dependenciesLeft = (g.preds n).length) ↔ (pairs ops).Nodup := by
  have hedges := edges_of_build h
  rw [nodup_pairs_iff]
  refine forall_congr' fun n => ?_
  rw [hedges.left_eq n, hedges.length_preds n, Int.natCast_inj]
  constructor
  · intro heq
    have hsub := (List.dedup_sublist (dependencies ops n)).eq_of_length heq.symm
    exact hsub ▸ List.nodup_dedup _
  · intro hnodup
    rw [hnodup.dedup]

/-- A repeated dependency is counted twice and is one entry. -/
theorem left_ne_preds : ¬ ∀ (ops : List BuildOp) (g : Graph), build ops = some g →
    ∀ n, (g.node n).dependenciesLeft = (g.preds n).length := by
  intro hall
  have := hall [.createNode 1 NONE NONE, .createNode 2 NONE NONE, .addDependency 2 1,
    .addDependency 2 1] _ (Option.some_get (by decide)).symm 2
  exact absurd this (by decide)

/-! ## The cycle check -/

/-- What is before a node of a topological order is in the order. -/
theorem Topological.mem_of_preds {l : List Nat} {n p : Nat} (h : Topological g l) (hn : n ∈ l)
    (hp : p ∈ g.preds n) : p ∈ l := by
  induction l with
  | nil => cases hn
  | cons x l ih =>
    rcases List.mem_cons.1 hn with rfl | hn
    · exact .tail _ (h.1 p hp)
    · exact .tail _ (ih h.2 hn)

/-- No node of a topological order is before itself. -/
theorem Topological.not_cycle {l : List Nat} {n : Nat} (h : Topological g l) (hnodup : l.Nodup)
    (hn : n ∈ l) : ¬ Relation.TransGen (fun n p => p ∈ g.preds n) n n := by
  induction l with
  | nil => cases hn
  | cons x l ih =>
    rw [List.nodup_cons] at hnodup
    rcases List.mem_cons.1 hn with rfl | hn
    · intro hcycle
      obtain ⟨p, hp, hreach⟩ := Relation.TransGen.head'_iff.1 hcycle
      -- what is reached from a predecessor stays in the rest of the order
      have hclosed : ∀ q, Relation.ReflTransGen (fun n p => p ∈ g.preds n) p q → q ∈ l := by
        intro q hq
        induction hq with
        | refl => exact h.1 p hp
        | tail _ hq ih' => exact h.2.mem_of_preds ih' hq
      exact hnodup.1 (hclosed n hreach)
    · exact ih h.2 hnodup.2 hn

/-- A node that the loop did not reach has a predecessor that it did not reach. -/
theorem KahnInv.exists_pred {indeg : Nat → Int} {order : List Nat} {n : Nat} (hw : WellBuilt g)
    (h : KahnInv g indeg [] order) (hn : n ∈ g.nodes) (hnot : n ∉ order) :
    ∃ p ∈ g.preds n, p ∉ order := by
  by_contra hall
  push Not at hall
  refine hnot ?_
  have hmem := h.mem n
  rw [List.append_nil] at hmem
  refine hmem.2 ⟨hn, ?_⟩
  have hle := Sums.map_le (φ := fun p => (g.node p).dependents.count n)
    h.nodup.of_append_left fun x hx => ((h.mem x).1 (List.mem_append_left _ hx)).1
  have hge := Sums.map_le (φ := fun p => (g.node p).dependents.count n) (hw.nodup.filter _) hall
  have hone : ((g.preds n).map fun p => (g.node p).dependents.count n).sum =
      (g.preds n).length := by
    rw [List.map_congr_left (g := fun _ => 1), List.map_const', List.sum_replicate, smul_eq_mul,
      Nat.mul_one]
    intro p hp
    rw [count_dependents hw.sorted, if_pos]
    simpa [Graph.preds] using (List.mem_filter.1 hp).2
  have hcount := h.count n
  have hlen := indegree_eq hw.sorted n
  rw [hw.left n] at hcount
  rw [Graph.indegree] at hlen hcount
  rw [Graph.preds] at hone hlen
  omega

/-- `HasCycle` returns, and finds a cycle exactly when the calls describe one. -/
theorem hasCycle_exact (h : build ops = some g) (hnodup : (pairs ops).Nodup) :
    ∃ b, g.hasCycle = some b ∧ (b = true ↔ ∃ n, Relation.TransGen (DependsOn ops) n n) := by
  have hw := (wellBuilt_of_build h hnodup).1
  have hedges := edges_of_build h
  have hl := hw.listed
  obtain ⟨indeg, order, hkahn, hinv⟩ := kahn_inv hl (KahnInv.init hl) g.nodes.length (by simp)
  have hpreds : ∀ n p, p ∈ g.preds n ↔ DependsOn ops n p := by
    intro n p
    simp only [Graph.preds, List.mem_filter, decide_eq_true_eq, hedges.dependents]
    exact ⟨fun hp => hp.2, fun hp => ⟨(hedges.nodes n p hp).2, hp⟩⟩
  have hsub : ∀ x ∈ order, x ∈ g.nodes := fun x hx =>
    ((hinv.mem x).1 (List.mem_append_left _ hx)).1
  have hdone := hinv.nodup.of_append_left
  refine ⟨decide (order.length ≠ g.nodes.length), by
    simp only [List.length_nil] at hkahn
    simp [Graph.hasCycle, hkahn], ?_⟩
  rw [decide_eq_true_eq]
  constructor
  · intro hne
    by_contra hacyclic
    push Not at hacyclic
    obtain ⟨n, hn, hnot⟩ : ∃ n ∈ g.nodes, n ∉ order := by
      by_contra hall
      push Not at hall
      have hperm := (List.perm_ext_iff_of_nodup hdone hw.nodup).2 fun x => ⟨hsub x, hall x⟩
      exact hne hperm.length_eq
    -- among the nodes that were not reached, take one before which there is none
    let before : {n // n ∈ g.nodes} → {n // n ∈ g.nodes} → Prop := fun a b =>
      Relation.TransGen (DependsOn ops) b.1 a.1
    have : IsTrans _ before := ⟨fun a b c hab hbc => hbc.trans hab⟩
    have : Std.Irrefl before := ⟨fun a => hacyclic a.1⟩
    have : Finite {n // n ∈ g.nodes} := (List.finite_toSet g.nodes).to_subtype
    obtain ⟨m, hm, hmin⟩ := (Finite.wellFounded_of_trans_of_irrefl before).has_min
      {m | m.1 ∉ order} ⟨⟨n, hn⟩, hnot⟩
    obtain ⟨p, hp, hpnot⟩ := hinv.exists_pred hw m.2 hm
    have hdep := (hpreds m.1 p).1 hp
    exact hmin ⟨p, (hedges.nodes _ _ hdep).2⟩ hpnot (.single hdep)
  · rintro ⟨n, hcycle⟩ hlen
    have hperm := (List.subperm_of_subset hdone hsub).perm_of_length_le hlen.ge
    obtain ⟨p, hp, -⟩ := Relation.TransGen.head'_iff.1 hcycle
    refine hinv.order.not_cycle hdone (hperm.mem_iff.2 (hedges.nodes n p hp).1)
      (Relation.TransGen.mono (fun a b hab => (hpreds a b).2 hab) _ _ hcycle)

/-- `Submit` accepts no graph in which a pair is repeated. -/
theorem nodup_pairs_of_submit {roots : List Nat} (h : build ops = some g)
    (hroots : g.submit = some roots) : (pairs ops).Nodup := by
  have hedges := edges_of_build h
  obtain ⟨indeg, order, hinv, hperm⟩ :=
    exists_kahnInv hedges.listed (submit_eq_some.1 hroots).1
  rw [nodup_pairs_iff]
  intro n
  by_cases hn : n ∈ g.nodes
  · -- the node came to zero, so it counts one for each of its entries
    have hzero := ((hinv.mem n).1 (List.mem_append_left _ (hperm.mem_iff.2 hn))).2
    have hcount := hinv.count n
    have hsum : (order.map fun p => (g.node p).dependents.count n).sum = g.indegree n :=
      (hperm.map _).sum_eq
    rw [hzero, hsum, hedges.left_eq, indegree_eq hedges.sorted, hedges.length_preds] at hcount
    have hsub := (List.dedup_sublist (dependencies ops n)).eq_of_length (by omega)
    exact hsub ▸ List.nodup_dedup _
  · have hnil : dependencies ops n = [] := List.eq_nil_iff_forall_not_mem.2 fun p hp =>
      hn (hedges.nodes n p (mem_dependencies.1 hp)).1
    rw [hnil]
    exact List.nodup_nil

/-- A graph that `Submit` accepts is well built. -/
theorem wellBuilt_of_submit {roots : List Nat} (h : build ops = some g)
    (hroots : g.submit = some roots) : WellBuilt g :=
  (wellBuilt_of_build h (nodup_pairs_of_submit h hroots)).1

/-- Two nodes that wait for each other. -/
def twoCycle : List BuildOp :=
  [.createNode 1 NONE NONE, .createGate 2 .AND, .addDependency 2 1, .addDependency 1 2]

theorem hasCycle_exact_twoCycle : ∃ b, ((build twoCycle).get (by decide)).hasCycle = some b ∧
    (b = true ↔ ∃ n, Relation.TransGen (DependsOn twoCycle) n n) :=
  hasCycle_exact (Option.some_get (by decide)).symm (by decide)

theorem left_eq_preds_iff_twoCycle :
    (∀ n, (((build twoCycle).get (by decide)).node n).dependenciesLeft =
      (((build twoCycle).get (by decide)).preds n).length) ↔ (pairs twoCycle).Nodup :=
  left_eq_preds_iff (Option.some_get (by decide)).symm

end

end JLibScheduler.TaskDAG
