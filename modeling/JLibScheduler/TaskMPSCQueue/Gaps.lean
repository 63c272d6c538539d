import JLibScheduler.TaskMPSCQueue.Whole

/-!
# A queue with unfinished pushes

A push that has exchanged `head_` and not yet linked its task leaves a gap: the tasks behind it are
not reached, and neither is the one before it, because `pop` finds that it has no successor and is
not the last. `Nodes` lists the nodes from `tail_` to `head_`, with whether the link to each is made
(`Represents`). A push is the exchange (`Represents.exchange`) and the link (`Represents.link`), and
`popNodes` is what `pop` does to the list (`Represents.pop`). What successive pops can give while no
push is begun is `avail` (`popNodes_spec`).
-/

namespace JLibScheduler.TaskMPSCQueue

/-- The nodes from `tail_` on, each with whether the link to it is made. -/
abbrev Nodes (τ : Type) := List (τ × Bool)

section
variable {τ : Type} [DecidableEq τ]

/-- `pop` at a node that is not the stub. -/
def popFront (stub : τ) : Nodes τ → Option τ × Nodes τ
  | [] => (none, [])
  | [(x, _)] => (some x, [(stub, true)])
  | (x, _) :: (y, true) :: c => (some x, (y, true) :: c)
  | (x, b) :: (y, false) :: c => (none, (x, b) :: (y, false) :: c)

/-- `pop`. -/
def popNodes (stub : τ) : Nodes τ → Option τ × Nodes τ
  | [] => (none, [])
  | [(x, b)] => if x = stub then (none, [(x, b)]) else popFront stub [(x, b)]
  | (x, b) :: (y, true) :: c =>
    if x = stub then popFront stub ((y, true) :: c) else popFront stub ((x, b) :: (y, true) :: c)
  | (x, b) :: (y, false) :: c => (none, (x, b) :: (y, false) :: c)

/-- The tasks that pops give while no push makes its link: those before the first gap, the last of
them left out when there is a gap. -/
def avail (stub : τ) : Nodes τ → List τ
  | [] => []
  | [(x, _)] => if x = stub then [] else [x]
  | (x, _) :: (y, true) :: c =>
    if x = stub then avail stub ((y, true) :: c) else x :: avail stub ((y, true) :: c)
  | (_, _) :: (_, false) :: _ => []

/-- The tasks in the queue. -/
def tasks (stub : τ) (c : Nodes τ) : List τ := (c.map Prod.fst).filter fun x => x ≠ stub

/-- The link to a node is made. -/
def link (n : τ) (c : Nodes τ) : Nodes τ := c.map fun x => (x.1, x.2 || decide (x.1 = n))

/-- The links between the nodes. -/
def Gapped (next : τ → Option τ) : Nodes τ → Prop
  | [] => True
  | [x] => next x.1 = none
  | x :: y :: c => next x.1 = (if y.2 then some y.1 else none) ∧ Gapped next (y :: c)

/-- The nodes are those of the queue: there is one, `tail_` is linked, and no node is there
twice. -/
structure Represents (stub : τ) (next : τ → Option τ) (q : Ends τ) (c : Nodes τ) : Prop where
  tail : c.head? = some (q.tail, true)
  head : (c.map Prod.fst).getLast? = some q.head
  nodup : (c.map Prod.fst).Nodup
  gapped : Gapped next c

variable {stub x y n : τ} {b : Bool} {next : τ → Option τ} {q : Ends τ} {c : Nodes τ}

/-! ## The code -/

omit [DecidableEq τ] in
theorem nodup_append {b : Bool} (hc : (c.map Prod.fst).Nodup) (hn : n ∉ c.map Prod.fst) :
    ((c ++ [(n, b)]).map Prod.fst).Nodup := by
  rw [List.map_append, List.map_cons, List.map_nil, ← List.concat_eq_append]
  exact hc.concat hn

theorem Gapped.exchange (h : Gapped next c) (hn : n ∉ c.map Prod.fst) :
    Gapped (Function.update next n none) (c ++ [(n, false)]) := by
  induction c with
  | nil => exact Function.update_self ..
  | cons x c ih =>
    have hx : x.1 ≠ n := fun heq => hn (heq ▸ .head _)
    have hc : n ∉ c.map Prod.fst := fun hmem => hn (.tail _ hmem)
    cases c with
    | nil => exact ⟨by rw [Function.update_of_ne hx]; exact h, Function.update_self ..⟩
    | cons y c => exact ⟨by rw [Function.update_of_ne hx]; exact h.1, ih h.2 hc⟩

/-- The exchange of `head_` by a push: the task is the last node, and not linked. -/
theorem Represents.exchange (h : Represents stub next q c) (hn : n ∉ c.map Prod.fst) :
    Represents stub (Function.update next n none) { q with head := n } (c ++ [(n, false)]) where
  tail := by
    rw [List.head?_append, h.tail]
    rfl
  head := by rw [List.map_append, List.map_cons, List.map_nil, List.getLast?_concat]
  nodup := nodup_append h.nodup hn
  gapped := h.gapped.exchange hn

omit [DecidableEq τ] in
theorem Gapped.congr {next' : τ → Option τ} (h : Gapped next c)
    (heq : ∀ x ∈ c, next' x.1 = next x.1) : Gapped next' c := by
  induction c with
  | nil => trivial
  | cons x c ih =>
    cases c with
    | nil => exact (heq x (.head _)).trans h
    | cons y c => exact ⟨(heq x (.head _)).trans h.1, ih h.2 fun z hz => heq z (.tail _ hz)⟩

theorem Gapped.link {a d : Nodes τ} {p : τ × Bool} (h : Gapped next (a ++ p :: (n, b) :: d))
    (hnodup : ((a ++ p :: (n, b) :: d).map Prod.fst).Nodup) :
    Gapped (Function.update next p.1 (some n)) (a ++ p :: (n, true) :: d) := by
  induction a with
  | nil =>
    rw [List.nil_append, List.map_cons, List.nodup_cons] at hnodup
    refine ⟨Function.update_self .., ?_⟩
    have hrest : Gapped next ((n, true) :: d) := by
      cases d with
      | nil => exact h.2
      | cons y d => exact h.2
    refine hrest.congr fun y hy => Function.update_of_ne (fun heq => hnodup.1 ?_) ..
    rw [← heq]
    rcases List.mem_cons.1 hy with rfl | hy
    · exact .head _
    · exact .tail _ (List.mem_map.2 ⟨y, hy, rfl⟩)
  | cons x a ih =>
    rw [List.cons_append, List.map_cons, List.nodup_cons] at hnodup
    have hx : x.1 ≠ p.1 := fun heq => hnodup.1 (by rw [heq]; simp)
    cases a with
    | nil => exact ⟨by rw [Function.update_of_ne hx]; exact h.1, ih h.2 hnodup.2⟩
    | cons y a => exact ⟨by rw [Function.update_of_ne hx]; exact h.1, ih h.2 hnodup.2⟩

theorem link_of_notMem (hn : n ∉ c.map Prod.fst) : link n c = c := by
  refine (List.map_congr_left fun x hx => ?_).trans (List.map_id c)
  have hne : x.1 ≠ n := fun heq => hn (List.mem_map.2 ⟨x, hx, heq⟩)
  rw [decide_eq_false hne, Bool.or_false]
  rfl

/-- The store to the `next` of the node before the task ends its push. -/
theorem Represents.link {a d : Nodes τ} {p : τ × Bool}
    (h : Represents stub next q (a ++ p :: (n, false) :: d)) :
    Represents stub (Function.update next p.1 (some n)) q
      (TaskMPSCQueue.link n (a ++ p :: (n, false) :: d)) := by
  have hne : n ∉ (a ++ [p]).map Prod.fst ++ d.map Prod.fst := by
    have hnodup := h.nodup
    rw [List.append_cons, List.map_append, List.map_cons, List.nodup_middle] at hnodup
    exact (List.nodup_cons.1 hnodup).1
  have hlink : TaskMPSCQueue.link n (a ++ p :: (n, false) :: d) = a ++ p :: (n, true) :: d := by
    rw [List.append_cons, TaskMPSCQueue.link, List.map_append, List.map_cons]
    change TaskMPSCQueue.link n (a ++ [p]) ++ (n, false || decide (n = n)) ::
      TaskMPSCQueue.link n d = _
    rw [link_of_notMem fun hmem => hne (List.mem_append_left _ hmem),
      link_of_notMem fun hmem => hne (List.mem_append_right _ hmem), decide_eq_true rfl,
      List.append_assoc]
    rfl
  rw [hlink]
  exact
    { tail := by cases a <;> exact h.tail
      head := by simpa using h.head
      nodup := by simpa using h.nodup
      gapped := h.gapped.link h.nodup }

/-- `pop` at a node that is not the stub does what `popFront` does. -/
theorem Represents.popFrom (h : Represents stub next q ((x, b) :: c))
    (hx : x ≠ stub) :
    ∃ next' q', TaskMPSCQueue.popFrom stub next q x =
        ((popFront stub ((x, b) :: c)).1, next', q') ∧
      Represents stub next' q' (popFront stub ((x, b) :: c)).2 := by
  have htail : x = q.tail := congrArg Prod.fst (Option.some.inj h.tail)
  cases c with
  | nil =>
    have hnext : next x = none := h.gapped
    have hhead : x = q.head := Option.some.inj h.head
    refine ⟨Function.update (Function.update next stub none) x (some stub), ⟨stub, stub⟩, ?_,
      rfl, rfl, List.nodup_singleton _, ?_⟩
    · simp only [TaskMPSCQueue.popFrom, hnext, append, ← hhead, ne_eq, not_true_eq_false, if_false,
        Function.update_self, popFront]
    · change Function.update (Function.update next stub none) x (some stub) stub = none
      rw [Function.update_of_ne hx.symm, Function.update_self]
  | cons z c =>
    obtain ⟨y, linked⟩ := z
    obtain ⟨hlink, hgapped⟩ := h.gapped
    have hnodup := h.nodup
    rw [List.map_cons, List.nodup_cons] at hnodup
    have hlast : (((y, linked) :: c).map Prod.fst).getLast? = some q.head := by
      have := h.head
      rwa [List.map_cons, List.map_cons, List.getLast?_cons_cons] at this
    cases linked with
    | true =>
      have hnext : next x = some y := hlink
      refine ⟨next, { q with tail := y }, ?_, rfl, hlast, hnodup.2, hgapped⟩
      simp only [TaskMPSCQueue.popFrom, hnext, popFront]
    | false =>
      have hnext : next x = none := hlink
      have hne : x ≠ q.head := by
        rintro rfl
        exact hnodup.1 (List.mem_of_getLast? hlast)
      refine ⟨next, q, ?_, h⟩
      simp only [TaskMPSCQueue.popFrom, hnext, if_pos hne, popFront]

/-- `pop` does what `popNodes` does to the nodes. -/
theorem Represents.pop (h : Represents stub next q c) :
    ∃ next' q', TaskMPSCQueue.pop stub next q = ((popNodes stub c).1, next', q') ∧
      Represents stub next' q' (popNodes stub c).2 := by
  cases c with
  | nil => cases h.tail
  | cons x c =>
    obtain ⟨x, b⟩ := x
    have htail : x = q.tail := congrArg Prod.fst (Option.some.inj h.tail)
    by_cases hx : x = stub
    · subst hx
      cases c with
      | nil =>
        have hnext : next x = none := h.gapped
        have hnodes : popNodes x [(x, b)] = (none, [(x, b)]) := if_pos rfl
        rw [hnodes]
        refine ⟨next, q, ?_, h⟩
        rw [TaskMPSCQueue.pop, if_pos htail.symm, ← htail, hnext]
      | cons z c =>
        obtain ⟨y, linked⟩ := z
        obtain ⟨hlink, hgapped⟩ := h.gapped
        have hnodup := h.nodup
        rw [List.map_cons, List.nodup_cons] at hnodup
        cases linked with
        | true =>
          have hnext : next x = some y := hlink
          have hyx : y ≠ x := by
            rintro rfl
            exact hnodup.1 (.head _)
          have hrest : Represents x next { q with tail := y } ((y, true) :: c) := by
            refine ⟨rfl, ?_, hnodup.2, hgapped⟩
            have := h.head
            rwa [List.map_cons, List.map_cons, List.getLast?_cons_cons] at this
          obtain ⟨next', q', hpop, hrep⟩ := hrest.popFrom hyx
          refine ⟨next', q', ?_, ?_⟩
          · rw [TaskMPSCQueue.pop, if_pos htail.symm, ← htail, hnext]
            simp only [hpop, popNodes, if_true]
          · simp only [popNodes, if_true]
            exact hrep
        | false =>
          have hnext : next x = none := hlink
          refine ⟨next, q, ?_, h⟩
          rw [TaskMPSCQueue.pop, if_pos htail.symm, ← htail, hnext]
          rfl
    · have hnodes : popNodes stub ((x, b) :: c) = popFront stub ((x, b) :: c) := by
        cases c with
        | nil => simp only [popNodes, hx, if_false]
        | cons z c =>
          obtain ⟨y, linked⟩ := z
          cases linked with
          | true => simp only [popNodes, hx, if_false]
          | false => rfl
      obtain ⟨next', q', hpop, hrep⟩ := h.popFrom hx
      refine ⟨next', q', ?_, ?_⟩
      · rw [TaskMPSCQueue.pop, ← htail, if_neg hx, hnodes]
        exact hpop
      · rw [hnodes]
        exact hrep

/-! ## Pops in a row -/

/-- The link to the first node is made, and no node is there twice. -/
structure Fronted (c : Nodes τ) : Prop where
  head : ∃ x, c.head? = some (x, true)
  nodup : (c.map Prod.fst).Nodup

omit [DecidableEq τ] in
theorem Represents.fronted (h : Represents stub next q c) : Fronted c := ⟨⟨_, h.tail⟩, h.nodup⟩

omit [DecidableEq τ] in
theorem Fronted.singleton (x : τ) : Fronted [(x, true)] := ⟨⟨x, rfl⟩, List.nodup_singleton x⟩

omit [DecidableEq τ] in
theorem Fronted.linked (h : Fronted ((x, b) :: c)) : b = true := by
  obtain ⟨y, hy⟩ := h.head
  exact congrArg Prod.snd (Option.some.inj hy)

omit [DecidableEq τ] in
theorem Fronted.tail (h : Fronted ((x, b) :: c)) : (c.map Prod.fst).Nodup ∧ ∀ y ∈ c, y.1 ≠ x := by
  have hnodup := h.nodup
  rw [List.map_cons, List.nodup_cons] at hnodup
  exact ⟨hnodup.2, fun y hy heq => hnodup.1 (List.mem_map.2 ⟨y, hy, heq⟩)⟩

omit [DecidableEq τ] in
theorem Fronted.append (h : Fronted c) (b : Bool) (hn : n ∉ c.map Prod.fst) :
    Fronted (c ++ [(n, b)]) where
  head := by
    obtain ⟨x, hx⟩ := h.head
    exact ⟨x, by rw [List.head?_append, hx]; rfl⟩
  nodup := nodup_append h.nodup hn

theorem map_fst_link (n : τ) (c : Nodes τ) : (link n c).map Prod.fst = c.map Prod.fst := by
  rw [link, List.map_map]
  rfl

theorem Fronted.link (h : Fronted c) (n : τ) : Fronted (link n c) where
  head := by
    obtain ⟨x, hx⟩ := h.head
    refine ⟨x, ?_⟩
    rw [TaskMPSCQueue.link, List.head?_map, hx]
    rfl
  nodup := by
    rw [map_fst_link]
    exact h.nodup

theorem tasks_link (stub n : τ) (c : Nodes τ) : tasks stub (link n c) = tasks stub c := by
  rw [tasks, tasks, map_fst_link]

theorem tasks_append (stub : τ) (c d : Nodes τ) :
    tasks stub (c ++ d) = tasks stub c ++ tasks stub d := by
  rw [tasks, tasks, tasks, List.map_append, List.filter_append]

/-- `pop` gives the first task that can be had, and leaves the others. -/
theorem popNodes_spec (stub : τ) (h : Fronted c) :
    (popNodes stub c).1 = (avail stub c).head? ∧
      avail stub (popNodes stub c).2 = (avail stub c).tail ∧
      tasks stub c = (popNodes stub c).1.toList ++ tasks stub (popNodes stub c).2 ∧
      Fronted (popNodes stub c).2 := by
  match c, h with
  | [], h =>
    obtain ⟨x, hx⟩ := h.head
    cases hx
  | [(x, b)], h =>
    obtain rfl := h.linked
    by_cases hx : x = stub
    · simp only [popNodes, avail, hx, if_true]
      exact ⟨rfl, rfl, rfl, Fronted.singleton stub⟩
    · simp only [popNodes, popFront, avail, hx, if_false]
      exact ⟨rfl, by simp, by simp [tasks, hx], Fronted.singleton stub⟩
  | (x, b) :: (y, false) :: c, h =>
    simp only [popNodes, avail]
    exact ⟨rfl, rfl, rfl, h⟩
  | (x, b) :: (y, true) :: c, h =>
    obtain ⟨hnodup, hne⟩ := h.tail
    have hrest : Fronted ((y, true) :: c) := ⟨⟨y, rfl⟩, hnodup⟩
    by_cases hx : x = stub
    · subst hx
      have hy : y ≠ x := hne (y, true) (.head _)
      have htasks : tasks x ((x, b) :: (y, true) :: c) = tasks x ((y, true) :: c) := by
        simp [tasks]
      simp only [popNodes, if_true, htasks]
      rw [avail, if_pos rfl]
      match c, hrest with
      | [], _ =>
        simp only [popFront, avail, hy, if_false]
        exact ⟨rfl, by simp, by simp [tasks, hy], Fronted.singleton x⟩
      | (z, true) :: c, hrest =>
        simp only [popFront, avail, hy, if_false]
        exact ⟨rfl, rfl, by simp [tasks, hy], ⟨z, rfl⟩, hrest.tail.1⟩
      | (z, false) :: c, hrest =>
        simp only [popFront, avail]
        exact ⟨rfl, rfl, rfl, hrest⟩
    · simp only [popNodes, popFront, avail, hx, if_false]
      exact ⟨rfl, rfl, by simp [tasks, hx], hrest⟩

end

end JLibScheduler.TaskMPSCQueue
