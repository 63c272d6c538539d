import JLibScheduler.TaskDAG.Basic

/-!
# The cycle check before a submission

`HasCycle` is Kahn's algorithm on a copy of the in-degrees: the nodes without predecessors are put
on a stack, and each node that is taken off it decrements its dependents, which are put on the
stack when they reach zero. `Submit` rejects the graph unless every node was processed, and
otherwise fires the nodes without predecessors. The loop takes one node off the stack in each turn;
`kahn` bounds the turns by the number of nodes, which is enough for every built graph (`kahn_inv`).

The loop only needs that no node has more entries in the lists than it counts (`Listed`), which
also holds when a dependency is repeated. The nodes come off the stack in topological order, so an
accepted graph has one (`exists_topological`).
-/

namespace JLibScheduler.TaskDAG

/-- The visit of the dependents of a node: each counts one less, and is put on the stack when it
reaches zero. -/
def kahnVisit (indeg : Nat → Int) (ready : List Nat) : List Nat → (Nat → Int) × List Nat
  | [] => (indeg, ready)
  | d :: ds =>
    let indeg := Function.update indeg d (indeg d - 1)
    kahnVisit indeg (if indeg d = 0 then d :: ready else ready) ds

/-- The loop of `HasCycle`, for a number of turns: the count of processed nodes. -/
def kahn (g : Graph) : Nat → (Nat → Int) → List Nat → Nat → Option Nat
  | _, _, [], processed => some processed
  | 0, _, _ :: _, _ => none
  | fuel + 1, indeg, n :: ready, processed =>
    let visit := kahnVisit indeg ready (g.node n).dependents
    kahn g fuel visit.1 visit.2 (processed + 1)

/-- The nodes without predecessors, as they are put on the stack. -/
def Graph.ready (g : Graph) : List Nat :=
  (g.nodes.filter fun n => (g.node n).dependenciesLeft = 0).reverse

/-- `HasCycle`. -/
def Graph.hasCycle (g : Graph) : Option Bool :=
  (kahn g g.nodes.length (fun n => (g.node n).dependenciesLeft) g.ready 0).map
    fun processed => processed ≠ g.nodes.length

/-- `Submit` up to the first `Fire`: the roots that it fires, or `none` when it returns `false`. -/
def Graph.submit (g : Graph) : Option (List Nat) :=
  if g.hasCycle = some false then
    some (g.nodes.filter fun n => (g.node n).dependenciesLeft = 0)
  else none

/-- A list of nodes, last first, in which every node comes after its predecessors. -/
def Topological (g : Graph) : List Nat → Prop
  | [] => True
  | n :: l => (∀ p ∈ g.preds n, p ∈ l) ∧ Topological g l

/-- The lists hold nodes of the graph, each key once, and no node has more entries than it
counts. -/
structure Listed (g : Graph) : Prop where
  nodup : g.nodes.Nodup
  sorted : ∀ p, (g.node p).dependents.Pairwise (· < ·)
  mem : ∀ p d, d ∈ (g.node p).dependents → p ∈ g.nodes ∧ d ∈ g.nodes
  le : ∀ n, (g.indegree n : Int) ≤ (g.node n).dependenciesLeft

section
variable {g : Graph} {indeg : Nat → Int} {ready done ds : List Nat} {n : Nat}

theorem WellBuilt.listed (hw : WellBuilt g) : Listed g where
  nodup := hw.nodup
  sorted := hw.sorted
  mem := hw.mem
  le n := (hw.left n).ge

theorem submit_eq_some {roots : List Nat} : g.submit = some roots ↔ g.hasCycle = some false ∧
    roots = g.nodes.filter fun n => (g.node n).dependenciesLeft = 0 := by
  unfold Graph.submit
  split_ifs with h
  · simp [h, eq_comm]
  · simp [h]

/-- The roots are the nodes without predecessors, each once. -/
theorem count_roots (hw : WellBuilt g) {roots : List Nat} (h : g.submit = some roots) (n : Nat) :
    roots.count n = if n ∈ g.nodes ∧ g.indegree n = 0 then 1 else 0 := by
  obtain ⟨-, rfl⟩ := submit_eq_some.1 h
  have hnodup := hw.nodup.filter fun n => decide ((g.node n).dependenciesLeft = 0)
  split_ifs with hn
  · exact List.count_eq_one_of_mem hnodup (by simpa [hw.left] using hn)
  · exact List.count_eq_zero.2 (by simpa [hw.left] using hn)

/-- What the visit of distinct dependents does to the in-degrees and the stack. -/
theorem kahnVisit_spec (indeg : Nat → Int) (ready : List Nat) (h : ds.Nodup) :
    (∀ n, (kahnVisit indeg ready ds).1 n = indeg n - if n ∈ ds then 1 else 0) ∧
      (kahnVisit indeg ready ds).2 = (ds.filter fun d => indeg d = 1).reverse ++ ready := by
  induction ds generalizing indeg ready with
  | nil => simp [kahnVisit]
  | cons d ds ih =>
    rw [List.nodup_cons] at h
    obtain ⟨h₁, h₂⟩ := ih (Function.update indeg d (indeg d - 1))
      (if indeg d - 1 = 0 then d :: ready else ready) h.2
    have hsame : ∀ x ∈ ds, Function.update indeg d (indeg d - 1) x = indeg x := by
      intro x hx
      rw [Function.update_of_ne]
      rintro rfl
      exact h.1 hx
    simp only [kahnVisit, Function.update_self]
    refine ⟨fun n => ?_, ?_⟩
    · rw [h₁]
      by_cases hn : n = d
      · subst hn
        simp [h.1]
      · simp [hn]
    · rw [h₂, List.filter_congr (q := fun x => decide (indeg x = 1))
        fun x hx => by rw [hsame x hx]]
      by_cases hd : indeg d = 1
      · simp [hd]
      · have hd' : indeg d - 1 ≠ 0 := by omega
        simp [hd, hd']

/-- The invariant of the loop, for the nodes processed so far, last first: an in-degree is less by
the predecessors that are processed, and the nodes at zero are those on the stack or processed. -/
structure KahnInv (g : Graph) (indeg : Nat → Int) (ready done : List Nat) : Prop where
  nodup : (done ++ ready).Nodup
  mem : ∀ n, n ∈ done ++ ready ↔ n ∈ g.nodes ∧ indeg n = 0
  count : ∀ n, indeg n =
    (g.node n).dependenciesLeft - (done.map fun p => (g.node p).dependents.count n).sum
  order : Topological g done

/-- A node at zero comes after its predecessors. -/
theorem KahnInv.preds_mem (hl : Listed g) (h : KahnInv g indeg ready done) (hzero : indeg n = 0) :
    ∀ p ∈ g.preds n, p ∈ done := by
  intro p hp
  by_contra hpd
  obtain ⟨hp, hdep⟩ : p ∈ g.nodes ∧ n ∈ (g.node p).dependents := by
    simpa [Graph.preds] using hp
  have hsub : p :: done ⊆ g.nodes := by
    intro x hx
    rcases List.mem_cons.1 hx with rfl | hx
    · exact hp
    · exact ((h.mem x).1 (List.mem_append_left _ hx)).1
  have hle := Sums.map_le (φ := fun p => (g.node p).dependents.count n)
    (List.nodup_cons.2 ⟨hpd, h.nodup.of_append_left⟩) hsub
  have hpos : 0 < (g.node p).dependents.count n := List.count_pos_iff.2 hdep
  have hcount := h.count n
  have hleft := hl.le n
  rw [List.map_cons, List.sum_cons] at hle
  rw [Graph.indegree] at hleft
  omega

/-- A node has at most one entry in a list. -/
theorem count_dependents (hsorted : ∀ p, (g.node p).dependents.Pairwise (· < ·)) (p n : Nat) :
    (g.node p).dependents.count n = if n ∈ (g.node p).dependents then 1 else 0 := by
  have hnodup : (g.node p).dependents.Nodup := (hsorted p).imp fun h => Nat.ne_of_lt h
  exact hnodup.count

/-- A node has as many entries as predecessors. -/
theorem indegree_eq (hsorted : ∀ p, (g.node p).dependents.Pairwise (· < ·)) (n : Nat) :
    g.indegree n = (g.preds n).length := by
  rw [Graph.indegree, Graph.preds, ← List.countP_eq_length_filter]
  induction g.nodes with
  | nil => rfl
  | cons p l ih =>
    rw [List.map_cons, List.sum_cons, ih, List.countP_cons, count_dependents hsorted]
    simp [Nat.add_comm]

/-- One turn of the loop. -/
theorem KahnInv.turn (hl : Listed g) (h : KahnInv g indeg (n :: ready) done) :
    KahnInv g (kahnVisit indeg ready (g.node n).dependents).1
      (kahnVisit indeg ready (g.node n).dependents).2 (n :: done) := by
  have hds : (g.node n).dependents.Nodup := (hl.sorted n).imp fun h => Nat.ne_of_lt h
  obtain ⟨h₁, h₂⟩ := kahnVisit_spec indeg ready hds
  have hn : n ∈ g.nodes := ((h.mem n).1 (by simp)).1
  -- a dependent of `n` is not at zero yet
  have hold : ∀ x ∈ (g.node n).dependents, indeg x ≠ 0 := by
    intro x hx hzero
    have hpred : n ∈ g.preds x := by simpa [Graph.preds] using ⟨hn, hx⟩
    have hnd := (List.nodup_append'.1 h.nodup).2.2 (h.preds_mem hl hzero n hpred)
    exact hnd (.head _)
  refine ⟨?_, fun x => ?_, fun x => ?_, h.preds_mem hl ((h.mem n).1 (by simp)).2, h.order⟩
  · rw [h₂]
    have hperm : (n :: done ++ (((g.node n).dependents.filter fun d => indeg d = 1).reverse ++
        ready)).Perm (((g.node n).dependents.filter fun d => indeg d = 1).reverse ++
        (done ++ n :: ready)) := by
      rw [List.cons_append, ← List.append_assoc]
      exact (((List.perm_append_comm.append_right ready).trans (by rw [List.append_assoc])).cons n
        |>.trans (List.perm_middle.symm)).trans
        (List.Perm.append_left _ List.perm_middle.symm)
    refine hperm.nodup_iff.2 (List.nodup_append'.2 ⟨List.nodup_reverse.2 (hds.filter _), h.nodup,
      fun x hx hx' => ?_⟩)
    have hone : indeg x = 1 := by simpa using (List.mem_filter.1 (List.mem_reverse.1 hx)).2
    have hzero := ((h.mem x).1 hx').2
    omega
  · rw [h₁, h₂]
    have hmem := h.mem x
    simp only [List.mem_append, List.mem_cons, List.mem_reverse, List.mem_filter,
      decide_eq_true_eq] at hmem ⊢
    by_cases hx : x ∈ (g.node n).dependents
    · have hne := hold x hx
      have hxn := (hl.mem n x hx).2
      simp only [hx, if_true, true_and, hxn] at hmem ⊢
      have : ¬ (x ∈ done ∨ x = n ∨ x ∈ ready) := fun hc => hne (hmem.1 hc)
      constructor
      · intro hc
        have hone : indeg x = 1 := by tauto
        omega
      · intro hc
        exact .inr (.inl (by omega))
    · simp only [hx, if_false, false_and, false_or, Int.sub_zero] at hmem ⊢
      rw [← hmem]
      tauto
  · rw [h₁, h.count x, List.map_cons, List.sum_cons, count_dependents hl.sorted n x]
    split_ifs <;> push_cast <;> omega

/-- The loop starts with the nodes without predecessors. -/
theorem KahnInv.init (hl : Listed g) :
    KahnInv g (fun n => (g.node n).dependenciesLeft) g.ready [] := by
  refine ⟨?_, fun n => ?_, fun n => ?_, trivial⟩
  · exact List.nodup_reverse.2 (hl.nodup.filter _)
  · simp [Graph.ready]
  · simp

/-- The loop ends within one turn for each node, with an empty stack. -/
theorem kahn_inv (hl : Listed g) (h : KahnInv g indeg ready done) (fuel : Nat)
    (hfuel : g.nodes.length ≤ fuel + done.length) :
    ∃ indeg' order, kahn g fuel indeg ready done.length = some order.length ∧
      KahnInv g indeg' [] order := by
  induction fuel generalizing indeg ready done with
  | zero =>
    cases ready with
    | nil => exact ⟨indeg, done, rfl, h⟩
    | cons n ready =>
      -- there are more distinct nodes than nodes
      have hle := (List.subperm_of_subset h.nodup fun x hx => ((h.mem x).1 hx).1).length_le
      rw [List.length_append, List.length_cons] at hle
      omega
  | succ fuel ih =>
    cases ready with
    | nil => exact ⟨indeg, done, by simp [kahn], h⟩
    | cons n ready => exact ih (h.turn hl) (by rw [List.length_cons]; omega)

/-- A graph that `Submit` accepts was processed as a whole. -/
theorem exists_kahnInv (hl : Listed g) (h : g.hasCycle = some false) :
    ∃ indeg order, KahnInv g indeg [] order ∧ order.Perm g.nodes := by
  obtain ⟨indeg, order, hkahn, hinv⟩ := kahn_inv hl (KahnInv.init hl) g.nodes.length (by simp)
  simp only [List.length_nil] at hkahn
  have hlen : order.length = g.nodes.length := by simpa [Graph.hasCycle, hkahn] using h
  have hsub : ∀ x ∈ order, x ∈ g.nodes := fun x hx =>
    ((hinv.mem x).1 (List.mem_append_left _ hx)).1
  exact ⟨indeg, order, hinv,
    (List.subperm_of_subset hinv.nodup.of_append_left hsub).perm_of_length_le hlen.ge⟩

/-- A graph that `Submit` accepts has a topological order. -/
theorem exists_topological (hl : Listed g) (h : g.hasCycle = some false) :
    ∃ order, Topological g order ∧ ∀ n ∈ g.nodes, n ∈ order := by
  obtain ⟨_, order, hinv, hperm⟩ := exists_kahnInv hl h
  exact ⟨order, hinv.order, fun n hn => hperm.mem_iff.2 hn⟩

end

end JLibScheduler.TaskDAG
