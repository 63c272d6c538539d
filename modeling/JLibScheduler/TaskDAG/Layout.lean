import JLibScheduler.TaskDAG.Slots

/-!
# Where the slots of a graph are

`Ok s lay` says where the slots of every node are (`Layout`), that they are all distinct, that they
are the slots that were taken for the graph, and that the entries of a list are the dependents of
the node in the graph of `TaskDAG/Basic.lean`, in order. Every call keeps it (`ok_of_build`): a new
node gets four slots, and `Window::find` stops where `add` inserts the key (`window_spec`).
-/

open Slab

namespace JLibScheduler.TaskDAG

/-- The task of a node and the slots of its list: the list, its sentinels, and its entries with
their keys. -/
structure Layout where
  task : Option Nat
  list : Nat
  head : Nat
  tail : Nat
  entries : List (Nat × Nat)

/-- The slots of a node that are no tasks. -/
def Layout.slots (L : Layout) (n : Nat) : List Nat :=
  n :: L.list :: L.tail :: L.head :: L.entries.map Prod.fst

/-- The entry in the slot `a` has the key `k`, and the links go from it over the entries `es` to
`t`. -/
def Links (cell : Nat → Option Cell) : Nat → Nat → List (Nat × Nat) → Nat → Prop
  | a, k, [], t => cell a = some (.entry (some t) k)
  | a, k, (e, k') :: es, t => cell a = some (.entry (some e) k) ∧ Links cell e k' es t

/-- The slots hold what the layout says. -/
structure Holds (cell : Nat → Option Cell) (n : Nat) (L : Layout) : Prop where
  node : cell n = some (.node L.task L.list)
  list : cell L.list = some (.list L.head L.tail)
  links : Links cell L.head 0 L.entries L.tail
  tail : cell L.tail = some (.entry none maxKey)

/-- What holds of every graph that is built. -/
structure Ok (s : Store) (lay : Nat → Layout) : Prop where
  holds : ∀ n ∈ s.graph.nodes, Holds s.slab.cell n (lay n)
  keys : ∀ n ∈ s.graph.nodes, (lay n).entries.map Prod.snd = (s.graph.node n).dependents
  taken : s.taken.Perm (s.graph.nodes.flatMap fun n => (lay n).slots n)
  nodup : s.taken.Nodup
  tasks : s.tasks = s.graph.nodes.filterMap fun n => (lay n).task
  alive : ∀ t ∈ s.tasks, s.slab.cell t = some .task
  free : s.slab.free.Nodup
  unused : ∀ a ∈ s.slab.free, s.slab.cell a = none ∧ 0 < a ∧ a < maxKey
  bound : ∀ n ∈ s.graph.nodes, n < maxKey
  sorted : ∀ n ∈ s.graph.nodes, (s.graph.node n).dependents.Pairwise (· < ·)
  mem : ∀ n ∈ s.graph.nodes, ∀ d ∈ (s.graph.node n).dependents, d ∈ s.graph.nodes

section
variable {cell cell' : Nat → Option Cell} {a k key t n : Nat} {es : List (Nat × Nat)} {L : Layout}

/-! ## Links -/

theorem Links.congr (h : Links cell a k es t)
    (heq : ∀ x ∈ a :: es.map Prod.fst, cell' x = cell x) : Links cell' a k es t := by
  induction es generalizing a k with
  | nil => exact (heq a (.head _)).trans h
  | cons e es ih =>
    exact ⟨(heq a (.head _)).trans h.1, ih h.2 fun x hx => heq x (.tail _ hx)⟩

/-- The slots of the links hold entries. -/
theorem Links.entry (h : Links cell a k es t) :
    ∀ x ∈ a :: es.map Prod.fst, ∃ next key, cell x = some (.entry (some next) key) := by
  induction es generalizing a k with
  | nil =>
    intro x hx
    rw [List.map_nil, List.mem_singleton] at hx
    exact hx ▸ ⟨_, _, h⟩
  | cons e es ih =>
    intro x hx
    rcases List.mem_cons.1 hx with rfl | hx
    · exact ⟨_, _, h.1⟩
    · exact ih h.2 x hx

/-- `Window::find` finds the place of the key: the entry with it, or the two slots between which an
entry with it goes. -/
theorem window_spec (h : Links cell a k es t) (ht : cell t = some (.entry none maxKey))
    (hkey : key < maxKey) (hnodup : (a :: es.map Prod.fst).Nodup) {fuel : ℕ}
    (hfuel : es.length < fuel) :
    ∃ pred curr c kp, window cell key fuel a = some (pred, curr, c) ∧
      pred ∈ a :: es.map Prod.fst ∧ cell pred = some (.entry (some curr) kp) ∧
      (c = key → key ∈ es.map Prod.snd ∧ add key (es.map Prod.snd) = es.map Prod.snd) ∧
      (c ≠ key → ((es.map Prod.snd).Pairwise (· < ·) → key ∉ es.map Prod.snd) ∧
        ∀ (cell' : Nat → Option Cell) (mem : Nat), cell' mem = some (.entry (some curr) key) →
          cell' pred = some (.entry (some mem) kp) →
          (∀ x ∈ a :: es.map Prod.fst, x ≠ pred → cell' x = cell x) →
          ∃ es', Links cell' a k es' t ∧ es'.map Prod.snd = add key (es.map Prod.snd) ∧
            (es'.map Prod.fst).Perm (mem :: es.map Prod.fst)) := by
  induction es generalizing a k fuel with
  | nil =>
    obtain ⟨fuel, rfl⟩ : ∃ f, fuel = f + 1 := ⟨fuel - 1, by omega⟩
    refine ⟨a, t, maxKey, k, ?_, .head _, h, fun hc => by omega, fun _ => ⟨fun _ => by simp, ?_⟩⟩
    · simp only [window, show cell a = _ from h, ht, if_pos hkey.le]
    · intro cell' mem hmem hpred _
      exact ⟨[(mem, key)], ⟨hpred, hmem⟩, rfl, .refl _⟩
  | cons e es ih =>
    obtain ⟨e, k'⟩ := e
    obtain ⟨fuel, rfl⟩ : ∃ f, fuel = f + 1 := ⟨fuel - 1, by omega⟩
    obtain ⟨ha, hlinks⟩ := h
    obtain ⟨next, hnext⟩ : ∃ next, cell e = some (.entry next k') := by
      cases es with
      | nil => exact ⟨_, hlinks⟩
      | cons e' es => exact ⟨_, hlinks.1⟩
    rw [List.map_cons, List.nodup_cons] at hnodup
    by_cases hle : key ≤ k'
    · -- the loop stops at the first entry
      refine ⟨a, e, k', k, ?_, .head _, ha, fun hc => ?_, fun hc => ⟨fun hsorted => ?_, ?_⟩⟩
      · simp only [window, ha, hnext, if_pos hle]
      · subst hc
        exact ⟨.head _, by simp [add]⟩
      · rw [List.map_cons, List.pairwise_cons] at hsorted
        rw [List.map_cons, List.mem_cons, not_or]
        refine ⟨Ne.symm hc, fun hmem => ?_⟩
        have := hsorted.1 key hmem
        omega
      · intro cell' mem hmem hpred hrest
        have htail : Links cell' e k' es t := by
          refine hlinks.congr fun x hx => hrest x (.tail _ hx) ?_
          rintro rfl
          exact hnodup.1 hx
        refine ⟨(mem, key) :: (e, k') :: es, ⟨hpred, hmem, htail⟩, ?_, .refl _⟩
        rw [List.map_cons, List.map_cons, add, if_neg (by omega), if_neg hc]
    · obtain ⟨pred, curr, c, kp, hwindow, hmem, hpred, hfound, hnew⟩ :=
        ih hlinks hnodup.2 (Nat.lt_of_succ_lt_succ hfuel)
      have hne : pred ≠ a := by
        rintro rfl
        exact hnodup.1 hmem
      refine ⟨pred, curr, c, kp, ?_, .tail _ hmem, hpred, fun hc => ?_,
        fun hc => ⟨fun hsorted => ?_, ?_⟩⟩
      · simp only [window, ha, hnext, if_neg hle, hwindow]
      · obtain ⟨hin, hadd⟩ := hfound hc
        refine ⟨.tail _ hin, ?_⟩
        rw [List.map_cons, add, if_pos (by omega), hadd]
      · rw [List.map_cons, List.pairwise_cons] at hsorted
        rw [List.map_cons, List.mem_cons, not_or]
        exact ⟨by omega, (hnew hc).1 hsorted.2⟩
      · intro cell' mem hmem' hpred' hrest
        obtain ⟨es', hlinks', hkeys, hperm⟩ := (hnew hc).2 cell' mem hmem' hpred' fun x hx hxp =>
          hrest x (.tail _ hx) hxp
        refine ⟨(e, k') :: es', ⟨(hrest a (.head _) hne.symm).trans ha, hlinks'⟩, ?_, ?_⟩
        · rw [List.map_cons, List.map_cons, add, if_pos (by omega), hkeys]
        · exact (hperm.cons e).trans (List.Perm.swap mem e _)

/-! ## The slots of a node -/

theorem Holds.congr (h : Holds cell n L) (heq : ∀ x ∈ L.slots n, cell' x = cell x) :
    Holds cell' n L where
  node := (heq _ (by simp [Layout.slots])).trans h.node
  list := (heq _ (by simp [Layout.slots])).trans h.list
  links := h.links.congr fun x hx => heq x (.tail _ (.tail _ (.tail _ hx)))
  tail := (heq _ (by simp [Layout.slots])).trans h.tail

/-- The slots of a node are handed out, and none of them holds a task. -/
theorem Holds.isSome (h : Holds cell n L) {x : Nat} (hx : x ∈ L.slots n) :
    ∃ c, cell x = some c ∧ c ≠ .task := by
  simp only [Layout.slots, List.mem_cons] at hx
  rcases hx with rfl | rfl | rfl | hx
  · exact ⟨_, h.node, nofun⟩
  · exact ⟨_, h.list, nofun⟩
  · exact ⟨_, h.tail, nofun⟩
  · obtain ⟨next, key, hcell⟩ := h.links.entry x (List.mem_cons.2 hx)
    exact ⟨_, hcell, nofun⟩

end

section
variable {s s' : Store} {lay : Nat → Layout} {n : Nat}

/-! ## The calls -/

/-- `CreateNode` by the number of free slots. -/
theorem create_cases (s : Store) (task : Option Nat) (node : TaskNode) :
    (s.slab.free = [] ∧ s.create task node = .null s) ∨
    (∃ a, s.slab.free = [a] ∧ s.create task node =
      .threw { s with slab := ⟨[], Function.update s.slab.cell a (some .raw)⟩ }) ∨
    (s.slab.free.length = 2 ∨ s.slab.free.length = 3) ∧ s.create task node = .fault ∨
    ∃ a m h t rest cell', s.slab.free = a :: m :: h :: t :: rest ∧
      s.create task node = .done ⟨s.graph.insert a node, ⟨rest, cell'⟩, s.taken ++ [a, m, h, t],
        s.tasks ++ task.toList⟩ ∧
      ([a, m, h, t].Nodup → cell' a = some (.node task m) ∧ cell' m = some (.list h t) ∧
        cell' h = some (.entry (some t) 0) ∧ cell' t = some (.entry none maxKey) ∧
        ∀ x ∉ [a, m, h, t], cell' x = s.slab.cell x) := by
  rcases hfree : s.slab.free with _ | ⟨a, _ | ⟨m, _ | ⟨h, _ | ⟨t, rest⟩⟩⟩⟩
  · exact .inl ⟨rfl, by simp [Store.create, Heap.alloc, hfree]⟩
  · exact .inr (.inl ⟨a, rfl, by simp [Store.create, Heap.alloc, hfree]⟩)
  · exact .inr (.inr (.inl ⟨.inl rfl, by simp [Store.create, Heap.alloc, hfree, newList]⟩))
  · exact .inr (.inr (.inl ⟨.inr rfl, by simp [Store.create, Heap.alloc, hfree, newList]⟩))
  · refine .inr (.inr (.inr ⟨a, m, h, t, rest, _, rfl, by
      simp only [Store.create, Heap.alloc, hfree, newList, Heap.put]; rfl, fun hnodup => ?_⟩))
    simp only [List.nodup_cons, List.mem_cons, not_or, List.not_mem_nil, not_false_eq_true,
      and_true] at hnodup
    obtain ⟨⟨ham, hah, hat⟩, ⟨hmh, hmt⟩, hht⟩ := hnodup
    refine ⟨by simp, ?_, ?_, ?_, fun x hx => ?_⟩
    · simp [Ne.symm ham]
    · simp [Ne.symm hah, Ne.symm hmh, hht]
    · simp [Ne.symm hat, Ne.symm hmt]
    · simp only [List.mem_cons, not_or, List.not_mem_nil, not_false_eq_true, and_true] at hx
      simp [hx.1, hx.2.1, hx.2.2.1, hx.2.2.2]

/-- A slot that was taken is handed out, and holds no task. -/
theorem Ok.isSome (h : Ok s lay) {x : Nat} (hx : x ∈ s.taken) :
    ∃ c, s.slab.cell x = some c ∧ c ≠ .task := by
  obtain ⟨n, hn, hmem⟩ := List.mem_flatMap.1 (h.taken.mem_iff.1 hx)
  exact (h.holds n hn).isSome hmem

theorem Ok.nodup_slots (h : Ok s lay) (hn : n ∈ s.graph.nodes) : ((lay n).slots n).Nodup :=
  (List.nodup_flatMap.1 (h.taken.nodup_iff.1 h.nodup)).1 n hn

theorem Ok.nodup_nodes (h : Ok s lay) : s.graph.nodes.Nodup := by
  have hpair := (List.nodup_flatMap.1 (h.taken.nodup_iff.1 h.nodup)).2
  refine hpair.imp_of_mem fun {m n} _ _ hdisj heq => ?_
  subst heq
  exact hdisj (.head _) (.head _)

/-- Two nodes share no slot. -/
theorem Ok.disjoint (h : Ok s lay) {m : Nat} (hm : m ∈ s.graph.nodes) (hn : n ∈ s.graph.nodes)
    (hne : m ≠ n) : ((lay m).slots m).Disjoint ((lay n).slots n) := by
  have hpair := (List.nodup_flatMap.1 (h.taken.nodup_iff.1 h.nodup)).2
  have : Std.Symm (Function.onFun List.Disjoint fun n => (lay n).slots n) :=
    ⟨fun _ _ h => h.symm⟩
  exact hpair.forall hm hn hne

/-- Nothing changes for the graph when only free slots are written. -/
theorem Ok.frame (h : Ok s lay) {slab : Heap Nat Cell}
    (hcell : ∀ x c, s.slab.cell x = some c → slab.cell x = some c) (hfree : slab.free.Nodup)
    (hunused : ∀ a ∈ slab.free, slab.cell a = none ∧ 0 < a ∧ a < maxKey) :
    Ok { s with slab } lay := by
  refine { h with
    holds := fun n hn => (h.holds n hn).congr fun x hx => ?_
    alive := fun t ht => hcell t _ (h.alive t ht)
    free := hfree
    unused := hunused }
  obtain ⟨c, hc, -⟩ := (h.holds n hn).isSome hx
  rw [hc]
  exact hcell x c hc

/-- A new node in the first four free slots. -/
theorem Ok.create (h : Ok s lay) {a m hd tl : Nat} {rest : List Nat} {task : Option Nat}
    {node : TaskNode} {cell' : Nat → Option Cell} (hfree : s.slab.free = a :: m :: hd :: tl :: rest)
    (htask : ∀ t ∈ task, s.slab.cell t = some .task) (hnode : node.dependents = [])
    (hcell : cell' a = some (.node task m) ∧ cell' m = some (.list hd tl) ∧
      cell' hd = some (.entry (some tl) 0) ∧ cell' tl = some (.entry none maxKey) ∧
      ∀ x ∉ [a, m, hd, tl], cell' x = s.slab.cell x) :
    Ok ⟨s.graph.insert a node, ⟨rest, cell'⟩, s.taken ++ [a, m, hd, tl], s.tasks ++ task.toList⟩
      (Function.update lay a ⟨task, m, hd, tl, []⟩) := by
  obtain ⟨hcella, hcellm, hcellhd, hcelltl, hrest⟩ := hcell
  have hnew : ∀ x ∈ [a, m, hd, tl], x ∈ s.slab.free := by
    intro x hx
    rw [hfree]
    exact List.mem_append_left rest hx
  have hnodup : ([a, m, hd, tl] ++ rest).Nodup := by
    have := h.free
    rwa [hfree] at this
  obtain ⟨hfour, hfree', hsep⟩ := List.nodup_append'.1 hnodup
  have hold : ∀ x c, s.slab.cell x = some c → cell' x = some c := by
    intro x c hx
    rw [hrest x fun hmem => ?_, hx]
    have := (h.unused x (hnew x hmem)).1
    rw [hx] at this
    cases this
  have hfresh : a ∉ s.graph.nodes := by
    intro ha
    have := (h.holds a ha).node
    rw [(h.unused a (hnew a (.head _))).1] at this
    cases this
  have hlay : ∀ n ∈ s.graph.nodes, Function.update lay a ⟨task, m, hd, tl, []⟩ n = lay n := by
    intro n hn
    refine Function.update_of_ne ?_ _ _
    rintro rfl
    exact hfresh hn
  have hgraph : ∀ n ∈ s.graph.nodes, (s.graph.insert a node).node n = s.graph.node n := by
    intro n hn
    refine Function.update_of_ne ?_ _ _
    rintro rfl
    exact hfresh hn
  have hself : (s.graph.insert a node).node a = node := Function.update_self ..
  have hcases : ∀ {n}, n ∈ (s.graph.insert a node).nodes → n ∈ s.graph.nodes ∨ n = a := by
    intro n hn
    simpa using hn
  constructor
  · intro n hn
    rcases hcases hn with hn | rfl
    · rw [hlay n hn]
      refine (h.holds n hn).congr fun x hx => ?_
      obtain ⟨c, hc, -⟩ := (h.holds n hn).isSome hx
      rw [hc]
      exact hold x c hc
    · rw [Function.update_self]
      exact ⟨hcella, hcellm, hcellhd, hcelltl⟩
  · intro n hn
    rcases hcases hn with hn | rfl
    · rw [hlay n hn, hgraph n hn]
      exact h.keys n hn
    · rw [Function.update_self, hself, hnode]
      rfl
  · change (s.taken ++ _).Perm (List.flatMap _ (s.graph.nodes ++ [a]))
    rw [List.flatMap_append, List.flatMap_singleton, Function.update_self]
    refine List.Perm.append ?_ ((List.Perm.swap tl hd _).cons m |>.cons a)
    rw [List.flatMap_congr fun n hn => by rw [hlay n hn]]
    exact h.taken
  · refine List.nodup_append'.2 ⟨h.nodup, hfour, fun x hx hmem => ?_⟩
    obtain ⟨c, hc, -⟩ := h.isSome hx
    rw [(h.unused x (hnew x hmem)).1] at hc
    cases hc
  · change s.tasks ++ _ = List.filterMap _ (s.graph.nodes ++ [a])
    rw [List.filterMap_append, h.tasks]
    congr 1
    · exact List.filterMap_congr fun n hn => by rw [hlay n hn]
    · cases task <;> simp
  · intro t ht
    rcases List.mem_append.1 ht with ht | ht
    · exact hold t _ (h.alive t ht)
    · exact hold t _ (htask t (Option.mem_toList.1 ht))
  · exact hfree'
  · intro x hx
    have hmem : x ∈ s.slab.free := by
      rw [hfree]
      exact List.mem_append_right [a, m, hd, tl] hx
    refine ⟨?_, (h.unused x hmem).2⟩
    rw [← (h.unused x hmem).1]
    exact hrest x fun hmem' => hsep hmem' hx
  · intro n hn
    rcases hcases hn with hn | rfl
    · exact h.bound n hn
    · exact (h.unused n (hnew n (.head _))).2.2
  · intro n hn
    rcases hcases hn with hn | rfl
    · rw [hgraph n hn]
      exact h.sorted n hn
    · rw [hself, hnode]
      exact .nil
  · intro n hn d hd
    rcases hcases hn with hn | rfl
    · rw [hgraph n hn] at hd
      exact List.mem_append_left _ (h.mem n hn d hd)
    · rw [hself, hnode] at hd
      cases hd

/-- One more element in the list of one of the elements. -/
theorem flatMap_perm_cons (f f' : Nat → List Nat) {l : List Nat} {p x : Nat} (hl : l.Nodup)
    (hp : p ∈ l) (hperm : (f' p).Perm (x :: f p)) (hne : ∀ n, n ≠ p → f' n = f n) :
    (l.flatMap f').Perm (x :: l.flatMap f) := by
  obtain ⟨l₁, l₂, rfl⟩ := List.append_of_mem hp
  obtain ⟨-, hl₂, hdisj⟩ := List.nodup_append'.1 hl
  have h₁ : l₁.flatMap f' = l₁.flatMap f := List.flatMap_congr fun n hn => hne n fun heq =>
    hdisj hn (heq ▸ .head _)
  have h₂ : l₂.flatMap f' = l₂.flatMap f := List.flatMap_congr fun n hn => hne n fun heq =>
    (List.nodup_cons.1 hl₂).1 (heq ▸ hn)
  rw [List.flatMap_append, List.flatMap_cons, List.flatMap_append, List.flatMap_cons, h₁, h₂]
  exact ((hperm.append_right _).append_left _).trans List.perm_middle

/-- The dependents after a dependency is added. -/
theorem Ok.dependents_addDependency (h : Ok s lay) {d p : Nat} (hd : d ∈ s.graph.nodes) :
    (∀ n ∈ s.graph.nodes, ((s.graph.addDependency d p).node n).dependents.Pairwise (· < ·)) ∧
      ∀ n ∈ s.graph.nodes, ∀ x ∈ ((s.graph.addDependency d p).node n).dependents,
        x ∈ s.graph.nodes := by
  refine ⟨fun n hn => ?_, fun n hn x hx => ?_⟩
  · rw [(addDependency_node n).1]
    split_ifs with hnp
    · exact pairwise_add (hnp ▸ h.sorted n hn)
    · exact h.sorted n hn
  · rw [(addDependency_node n).1] at hx
    split_ifs at hx with hnp
    · rcases mem_add.1 hx with rfl | hx
      · exact hd
      · exact h.mem n hn x (hnp ▸ hx)
    · exact h.mem n hn x hx

/-- A new entry in the list of a node, in the first free slot. -/
theorem Ok.newEntry (h : Ok s lay) {d p mem : Nat} (hd : d ∈ s.graph.nodes)
    (hp : p ∈ s.graph.nodes) {rest : List Nat} (hfree : s.slab.free = mem :: rest)
    {cell' : Nat → Option Cell} {es' : List (Nat × Nat)}
    (hother : ∀ x, x ≠ mem → x ∉ (lay p).head :: (lay p).entries.map Prod.fst →
      cell' x = s.slab.cell x)
    (hlinks : Links cell' (lay p).head 0 es' (lay p).tail)
    (hkeys : es'.map Prod.snd = add d (s.graph.node p).dependents)
    (hperm : (es'.map Prod.fst).Perm (mem :: (lay p).entries.map Prod.fst)) :
    Ok ⟨s.graph.addDependency d p, ⟨rest, cell'⟩, s.taken ++ [mem], s.tasks⟩
      (Function.update lay p { lay p with entries := es' }) := by
  obtain ⟨hsorted', hmem'⟩ := h.dependents_addDependency (p := p) hd
  have hmemfree : mem ∈ s.slab.free := hfree ▸ .head _
  have hdead := (h.unused mem hmemfree).1
  have halive : ∀ x c, s.slab.cell x = some c → x ≠ mem := by
    rintro x c hx rfl
    rw [hdead] at hx
    cases hx
  have hlay : ∀ n, n ≠ p → Function.update lay p { lay p with entries := es' } n = lay n :=
    fun n hn => Function.update_of_ne hn _ _
  have hfree' := h.free
  rw [hfree, List.nodup_cons] at hfree'
  -- the slots of the list that are not on its links
  have hslots := h.nodup_slots hp
  simp only [Layout.slots, List.nodup_cons, List.mem_cons, not_or] at hslots
  obtain ⟨⟨-, -, hnh, hne⟩, ⟨-, hlh, hle⟩, ⟨hth, hte⟩, -⟩ := hslots
  have hlinksmem : ∀ x ∈ (lay p).head :: (lay p).entries.map Prod.fst, x ∈ (lay p).slots p :=
    fun x hx => .tail _ (.tail _ (.tail _ hx))
  constructor
  · intro n hn
    by_cases hnp : n = p
    · subst hnp
      have hholds := h.holds n hn
      rw [Function.update_self]
      refine ⟨?_, ?_, hlinks, ?_⟩
      · exact (hother n (halive _ _ hholds.node) (by simp [hnh, hne])).trans hholds.node
      · exact (hother _ (halive _ _ hholds.list) (by simp [hlh, hle])).trans hholds.list
      · exact (hother _ (halive _ _ hholds.tail) (by simp [hth, hte])).trans hholds.tail
    · rw [hlay n hnp]
      refine (h.holds n hn).congr fun x hx => hother x ?_ fun hxp => ?_
      · obtain ⟨c, hc, -⟩ := (h.holds n hn).isSome hx
        exact halive x c hc
      · exact h.disjoint hn hp hnp hx (hlinksmem x hxp)
  · intro n hn
    rw [(addDependency_node n).1]
    split_ifs with hnp
    · subst hnp
      rw [Function.update_self]
      exact hkeys
    · rw [hlay n hnp]
      exact h.keys n hn
  · have hslots' : (Layout.slots { lay p with entries := es' } p).Perm
        (mem :: (lay p).slots p) := by
      exact (hperm.append_left [p, (lay p).list, (lay p).tail, (lay p).head]).trans
        List.perm_middle
    have hflat := flatMap_perm_cons (fun n => (lay n).slots n)
      (fun n => (Function.update lay p { lay p with entries := es' } n).slots n)
      h.nodup_nodes hp (by rw [Function.update_self]; exact hslots') fun n hn => by rw [hlay n hn]
    exact (List.perm_append_singleton mem _).trans ((h.taken.cons mem).trans hflat.symm)
  · refine List.nodup_append'.2 ⟨h.nodup, List.nodup_singleton mem, fun x hx hxm => ?_⟩
    obtain ⟨c, hc, -⟩ := h.isSome hx
    exact halive x c hc (List.mem_singleton.1 hxm)
  · rw [h.tasks]
    refine List.filterMap_congr fun n _ => ?_
    by_cases hnp : n = p
    · rw [hnp, Function.update_self]
    · rw [hlay n hnp]
  · intro t ht
    have hcell := h.alive t ht
    refine (hother t (halive _ _ hcell) fun hmem => ?_).trans hcell
    obtain ⟨c, hc, hne⟩ := (h.holds p hp).isSome (hlinksmem t hmem)
    rw [hcell] at hc
    exact hne (Option.some.inj hc).symm
  · exact hfree'.2
  · intro x hx
    have hxfree : x ∈ s.slab.free := hfree ▸ .tail _ hx
    have hxdead := (h.unused x hxfree).1
    refine ⟨?_, (h.unused x hxfree).2⟩
    refine (hother x (fun heq => hfree'.1 (heq ▸ hx)) fun hmem => ?_).trans hxdead
    obtain ⟨c, hc, -⟩ := (h.holds p hp).isSome (hlinksmem x hmem)
    rw [hxdead] at hc
    cases hc
  · exact h.bound
  · exact hsorted'
  · exact hmem'

/-- `AddDependency`: the dependency is there; or there is no slot for it; or it gets one. -/
theorem Ok.addDependency (h : Ok s lay) {d p : Nat} (hd : d ∈ s.graph.nodes)
    (hp : p ∈ s.graph.nodes) :
    (d ∈ (s.graph.node p).dependents ∧
      ∃ s', s.addDependency d p = .done s' ∧ s'.graph = s.graph.addDependency d p ∧ Ok s' lay) ∨
    (d ∉ (s.graph.node p).dependents ∧ s.slab.free = [] ∧ s.addDependency d p = .fault) ∨
    (d ∉ (s.graph.node p).dependents ∧ s.slab.free ≠ [] ∧
      ∃ s' lay', s.addDependency d p = .done s' ∧ s'.graph = s.graph.addDependency d p ∧
        Ok s' lay') := by
  have hholds := h.holds p hp
  have hslots := h.nodup_slots hp
  have hkeys := h.keys p hp
  have hlength : (lay p).entries.length < s.graph.nodes.length + 1 := by
    have hsub := List.subperm_of_subset (h.sorted p hp).nodup (h.mem p hp)
    have := hsub.length_le
    rw [← hkeys, List.length_map] at this
    omega
  have hentries : ((lay p).head :: (lay p).entries.map Prod.fst).Nodup :=
    ((hslots.of_cons).of_cons).of_cons
  obtain ⟨pred, curr, c, kp, hwindow, hpredmem, hpred, hfound, hnew⟩ :=
    window_spec hholds.links hholds.tail (h.bound d hd) hentries hlength
  rw [hkeys] at hfound hnew
  obtain ⟨hsorted', hmem'⟩ := h.dependents_addDependency (p := p) hd
  have hlist : dependentsOf s.slab.cell p = some ((lay p).list, (lay p).head, (lay p).tail) := by
    simp only [dependentsOf, hholds.node, hholds.list]
  by_cases hc : c = d
  · obtain ⟨hmem, hadd⟩ := hfound hc
    refine .inl ⟨hmem, { s with graph := s.graph.addDependency d p }, ?_, rfl, ?_⟩
    · simp only [Store.addDependency, hlist, hwindow, if_pos hc]
    · refine { h with keys := fun n hn => ?_, sorted := hsorted', mem := hmem' }
      rw [h.keys n hn, (addDependency_node n).1]
      split_ifs with hnp
      · rw [hadd, hnp]
      · rfl
  · obtain ⟨hnotmem, hinsert⟩ := hnew hc
    have hnotmem := hnotmem (h.sorted p hp)
    cases hfree : s.slab.free with
    | nil =>
      refine .inr (.inl ⟨hnotmem, rfl, ?_⟩)
      simp only [Store.addDependency, hlist, hwindow, if_neg hc, Heap.alloc, hfree]
    | cons mem rest =>
      have hmemfree : mem ∈ s.slab.free := hfree ▸ .head _
      have hdead := (h.unused mem hmemfree).1
      have hne : pred ≠ mem := by
        rintro rfl
        rw [hdead] at hpred
        cases hpred
      -- what the slots hold then
      let cell' := Function.update (Function.update s.slab.cell mem (some (.entry (some curr) d)))
        pred (some (.entry (some mem) kp))
      have hcell' : setNext (Heap.put ⟨rest, Function.update s.slab.cell mem (some .raw)⟩ mem
          (.entry (some curr) d)) pred mem = ⟨rest, cell'⟩ := by
        simp [setNext, Heap.put, hne, hpred, cell']
      have hother : ∀ x, x ≠ mem → x ≠ pred → cell' x = s.slab.cell x := by
        intro x hx hxp
        simp [cell', hx, hxp]
      obtain ⟨es', hlinks', hkeys', hperm⟩ := hinsert cell' mem (by simp [cell', hne.symm])
        (by simp [cell']) fun x hx hxp => hother x (by
          rintro rfl
          obtain ⟨_, _, hx⟩ := hholds.links.entry x hx
          rw [hdead] at hx
          cases hx) hxp
      refine .inr (.inr ⟨hnotmem, by simp, _, _, ?_, rfl, h.newEntry hd hp hfree (fun x hx hlinks =>
        hother x hx fun heq => hlinks (heq ▸ hpredmem)) hlinks' hkeys' hperm⟩)
      simp only [Store.addDependency, hlist, hwindow, if_neg hc, Heap.alloc, hfree, hcell']

/-- A call of `CreateNode` or `CreateGate` that returns or throws. -/
theorem Ok.store?_create (h : Ok s lay) {task : Option Nat} {node : TaskNode}
    (htask : ∀ t ∈ task, s.slab.cell t = some .task) (hnode : node.dependents = [])
    (hs : (s.create task node).store? = some s') : ∃ lay', Ok s' lay' := by
  rcases create_cases s task node with ⟨-, hcreate⟩ | ⟨a, hfree, hcreate⟩ | ⟨-, hcreate⟩ |
    ⟨a, m, hd, tl, rest, cell', hfree, hcreate, hcell⟩ <;> rw [hcreate] at hs <;> cases hs
  · exact ⟨lay, h⟩
  · refine ⟨lay, h.frame (fun x c hx => ?_) List.nodup_nil fun x hx => (by cases hx)⟩
    have hne : x ≠ a := by
      rintro rfl
      rw [(h.unused x (hfree ▸ .head _)).1] at hx
      cases hx
    exact (Function.update_of_ne hne _ _).trans hx
  · have hnodup : ([a, m, hd, tl] ++ rest).Nodup := by
      have := h.free
      rwa [hfree] at this
    exact ⟨_, h.create hfree htask hnode (hcell (List.nodup_append'.1 hnodup).1)⟩

/-- Every call keeps the layout. -/
theorem Ok.step (h : Ok s lay) {call : Call} (hs : s.step call = some s') :
    ∃ lay', Ok s' lay' := by
  cases call with
  | createTask =>
    simp only [Store.step, Heap.alloc] at hs
    cases hfree : s.slab.free with
    | nil =>
      rw [hfree] at hs
      cases hs
      exact ⟨lay, h⟩
    | cons a rest =>
      rw [hfree] at hs
      cases hs
      have hnodup := h.free
      rw [hfree, List.nodup_cons] at hnodup
      refine ⟨lay, h.frame (fun x c hx => ?_) hnodup.2 fun x hx => ?_⟩
      · have hne : x ≠ a := by
          rintro rfl
          rw [(h.unused x (hfree ▸ .head _)).1] at hx
          cases hx
        exact (Function.update_of_ne hne _ _).trans hx
      · have hne : x ≠ a := fun heq => hnodup.1 (heq ▸ hx)
        have hunused := h.unused x (hfree ▸ .tail _ hx)
        exact ⟨(Function.update_of_ne hne _ _).trans hunused.1, hunused.2⟩
  | createNode task priority cpuID =>
    simp only [Store.step] at hs
    split_ifs at hs with htask
    exact h.store?_create htask rfl hs
  | createMainNode task priority =>
    simp only [Store.step] at hs
    split_ifs at hs with htask
    exact h.store?_create htask rfl hs
  | createGate type => exact h.store?_create (fun t ht => (by cases ht)) rfl hs
  | addDependency d p =>
    simp only [Store.step] at hs
    split_ifs at hs with hmem
    rcases h.addDependency hmem.1 hmem.2 with ⟨-, t, hdone, -, ht⟩ | ⟨-, -, hfault⟩ |
      ⟨-, -, t, lay', hdone, -, ht⟩
    · rw [hdone] at hs
      cases hs
      exact ⟨lay, ht⟩
    · rw [hfault] at hs
      cases hs
    · rw [hdone] at hs
      cases hs
      exact ⟨lay', ht⟩
  | others free =>
    simp only [Store.step] at hs
    split_ifs at hs with hfree
    cases hs
    exact ⟨lay, h.frame (fun x c hx => hx) hfree.1 hfree.2⟩

theorem ok_of_build {calls : List Call} (h : Store.build calls = some s) : ∃ lay, Ok s lay := by
  refine Lts.run_inv (I := fun s => ∃ lay, Ok s lay) (fun h hs => h.elim fun lay h => h.step hs)
    ⟨fun _ => ⟨none, 0, 0, 0, []⟩, ?_⟩ h
  constructor
  · exact fun n hn => (by cases hn)
  · exact fun n hn => (by cases hn)
  · exact .refl _
  · exact List.nodup_nil
  · rfl
  · exact fun t ht => (by cases ht)
  · exact List.nodup_nil
  · exact fun a ha => (by cases ha)
  · exact fun n hn => (by cases hn)
  · exact fun n hn => (by cases hn)
  · exact fun n hn => (by cases hn)

end

end JLibScheduler.TaskDAG
