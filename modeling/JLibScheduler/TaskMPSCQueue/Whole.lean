import Mathlib.Data.List.Nodup
import JLibScheduler.TaskMPSCQueue.Basic

/-!
# The queue between whole calls

`push_batch` and `pop` as whole calls, when no other call is in progress: the accesses that
`TaskMPSCQueue/Basic.lean` makes one per step are then one function of the `next` fields and the two
ends of the queue (`run_pushBatch`, `run_pop`). `Holds` says which tasks a queue holds. A batch is
put behind them (`Holds.pushBatch`), and successive calls of `pop` give them in order and then
nothing (`pops_eq`).
-/

namespace JLibScheduler.TaskMPSCQueue

/-- `head_` and `tail_`. -/
structure Ends (τ : Type) where
  head : τ
  tail : τ

section
variable {τ : Type} [DecidableEq τ]

/-- `append`. -/
def append (next : τ → Option τ) (q : Ends τ) (n : τ) : (τ → Option τ) × Ends τ :=
  (Function.update (Function.update next n none) q.head (some n), { q with head := n })

/-- `push_batch`. -/
def pushBatch (next : τ → Option τ) (q : Ends τ) (first last : τ) : (τ → Option τ) × Ends τ :=
  (Function.update (Function.update next last none) q.head (some first), { q with head := last })

/-- `pop` from the load of the `next` of `tail`, which is not the stub. -/
def popFrom (stub : τ) (next : τ → Option τ) (q : Ends τ) (tail : τ) :
    Option τ × (τ → Option τ) × Ends τ :=
  match next tail with
  | some n => (some tail, next, { q with tail := n })
  | none =>
    if tail ≠ q.head then (none, next, q)
    else
      let (next, q) := append next q stub
      match next tail with
      | some n => (some tail, next, { q with tail := n })
      | none => (none, next, q)

/-- `pop`. -/
def pop (stub : τ) (next : τ → Option τ) (q : Ends τ) : Option τ × (τ → Option τ) × Ends τ :=
  if q.tail = stub then
    match next q.tail with
    | none => (none, next, q)
    | some tail => popFrom stub next { q with tail } tail
  else popFrom stub next q q.tail

/-- What successive calls of `pop` give. -/
def pops (stub : τ) (next : τ → Option τ) (q : Ends τ) : ℕ → List (Option τ)
  | 0 => []
  | k + 1 =>
    let (out, next, q) := pop stub next q
    out :: pops stub next q k

/-- The nodes are linked in order, and the last one to nothing. -/
def Linked (next : τ → Option τ) : List τ → Prop
  | [] => True
  | [x] => next x = none
  | x :: y :: c => next x = some y ∧ Linked next (y :: c)

/-- The queue holds the tasks `l`: they are linked in order from `tail_` to `head_`, with the stub
before them or not. -/
structure Holds (stub : τ) (next : τ → Option τ) (q : Ends τ) (l : List τ) : Prop where
  notMem : stub ∉ l
  nodup : l.Nodup
  chain : ∃ c, (c = stub :: l ∨ c = l) ∧ c.head? = some q.tail ∧ c.getLast? = some q.head ∧
    Linked next c

variable {stub x y z : τ} {next next' : τ → Option τ} {q : Ends τ} {l b c : List τ}

/-! ## Links -/

omit [DecidableEq τ] in
theorem Linked.congr (h : Linked next c) (heq : ∀ x ∈ c, next' x = next x) : Linked next' c := by
  induction c with
  | nil => trivial
  | cons x c ih =>
    cases c with
    | nil => exact (heq x (.head _)).trans h
    | cons y c =>
      exact ⟨(heq x (.head _)).trans h.1, ih h.2 fun z hz => heq z (.tail _ hz)⟩

omit [DecidableEq τ] in
/-- Two lists of nodes, once the last of the first is linked to the first of the second. -/
theorem Linked.append (hc : Linked next c) (hb : Linked next' b) (hz : c.getLast? = some z)
    (hy : b.head? = some y) (hlink : next' z = some y)
    (heq : ∀ x ∈ c, x ≠ z → next' x = next x) (hnodup : c.Nodup) : Linked next' (c ++ b) := by
  induction c with
  | nil => cases hz
  | cons x c ih =>
    rw [List.nodup_cons] at hnodup
    cases c with
    | nil =>
      cases hz
      cases b with
      | nil => cases hy
      | cons y' b =>
        cases hy
        exact ⟨hlink, hb⟩
    | cons x' c =>
      rw [List.getLast?_cons_cons] at hz
      have hne : x ≠ z := fun h => hnodup.1 (h ▸ List.mem_of_getLast? hz)
      exact ⟨(heq x (.head _) hne).trans hc.1,
        ih hc.2 hz (fun w hw => heq w (.tail _ hw)) hnodup.2⟩

omit [DecidableEq τ] in
/-- The chain of a queue is not empty, and has no node twice. -/
theorem Holds.nodup_chain (h : Holds stub next q l) (hc : c = stub :: l ∨ c = l) : c.Nodup := by
  rcases hc with rfl | rfl
  · exact List.nodup_cons.2 ⟨h.notMem, h.nodup⟩
  · exact h.nodup

omit [DecidableEq τ] in
theorem Holds.congr (h : Holds stub next q l) (hstub : next' stub = next stub)
    (heq : ∀ x ∈ l, next' x = next x) : Holds stub next' q l := by
  refine ⟨h.notMem, h.nodup, ?_⟩
  obtain ⟨c, hc, hhead, hlast, hlinked⟩ := h.chain
  refine ⟨c, hc, hhead, hlast, hlinked.congr fun x hx => ?_⟩
  rcases hc with rfl | rfl
  · rcases List.mem_cons.1 hx with rfl | hx
    · exact hstub
    · exact heq x hx
  · exact heq x hx

omit [DecidableEq τ] in
/-- The last node of a queue is the stub or one of its tasks. -/
theorem Holds.head_mem (h : Holds stub next q l) : q.head = stub ∨ q.head ∈ l := by
  obtain ⟨c, hc, -, hlast, -⟩ := h.chain
  have hmem := List.mem_of_getLast? hlast
  rcases hc with rfl | rfl
  · exact List.mem_cons.1 hmem
  · exact .inr hmem

/-- `push_batch` of tasks that are linked in order puts them behind the tasks of the queue. -/
theorem Holds.pushBatch (h : Holds stub next q l) (hb : Linked (Function.update next z none) b)
    (hy : b.head? = some y) (hz : b.getLast? = some z) (hnodup : (l ++ b).Nodup)
    (hstub : stub ∉ b) :
    Holds stub (TaskMPSCQueue.pushBatch next q y z).1 (TaskMPSCQueue.pushBatch next q y z).2
      (l ++ b) := by
  obtain ⟨c, hc, hhead, hlast, hlinked⟩ := h.chain
  have hcb : c.Disjoint b := by
    have hlb := (List.nodup_append'.1 hnodup).2.2
    rcases hc with rfl | rfl
    · exact List.disjoint_cons_left.2 ⟨hstub, hlb⟩
    · exact hlb
  have hzmem : z ∈ b := List.mem_of_getLast? hz
  have hheadmem : q.head ∈ c := List.mem_of_getLast? hlast
  have hheadb : q.head ∉ b := fun hmem => hcb hheadmem hmem
  refine ⟨by simp [h.notMem, hstub], hnodup, c ++ b, ?_, ?_, ?_, ?_⟩
  · rcases hc with rfl | rfl
    · exact .inl rfl
    · exact .inr rfl
  · rw [List.head?_append, hhead]
    rfl
  · rw [List.getLast?_append, hz]
    rfl
  · refine hlinked.append (hb.congr fun x hx => ?_) hlast hy (Function.update_self ..)
      (fun x hx hne => ?_) (h.nodup_chain hc)
    · refine Function.update_of_ne ?_ _ _
      rintro rfl
      exact hheadb hx
    · have hxz : x ≠ z := by
        rintro rfl
        exact hcb hx hzmem
      simp only [TaskMPSCQueue.pushBatch]
      rw [Function.update_of_ne hne, Function.update_of_ne hxz]

/-! ## Pops -/

/-- `pop` takes the first of the nodes that are no stub. When it is the last of them, the stub is
appended. -/
theorem popFrom_spec (hlinked : Linked next (x :: l)) (hlast : (x :: l).getLast? = some q.head)
    (hstub : stub ∉ x :: l) (hnodup : (x :: l).Nodup) :
    ∃ next' q', popFrom stub next q x = (some x, next', q') ∧ Holds stub next' q' l := by
  rw [List.mem_cons, not_or] at hstub
  cases l with
  | nil =>
    have hnext : next x = none := hlinked
    have hhead : x = q.head := Option.some.inj hlast
    refine ⟨Function.update (Function.update next stub none) x (some stub), ⟨stub, stub⟩, ?_,
      List.not_mem_nil, List.nodup_nil, [stub], .inl rfl, rfl, rfl, ?_⟩
    · simp only [popFrom, hnext, append, ← hhead, ne_eq, not_true_eq_false, if_false,
        Function.update_self]
    · change Function.update (Function.update next stub none) x (some stub) stub = none
      rw [Function.update_of_ne hstub.1, Function.update_self]
  | cons y l =>
    refine ⟨next, { q with tail := y }, ?_, hstub.2, (List.nodup_cons.1 hnodup).2, y :: l, .inr rfl,
      rfl, hlast, hlinked.2⟩
    simp only [popFrom, hlinked.1]

/-- `pop` gives the first task of the queue, and nothing when there is none. -/
theorem Holds.pop (h : Holds stub next q l) :
    (l = [] ∧ TaskMPSCQueue.pop stub next q = (none, next, q)) ∨
    ∃ x l' next' q', l = x :: l' ∧ TaskMPSCQueue.pop stub next q = (some x, next', q') ∧
      Holds stub next' q' l' := by
  obtain ⟨c, hc, hhead, hlast, hlinked⟩ := h.chain
  cases l with
  | nil =>
    have hchain : c = [stub] := by
      rcases hc with hc | rfl
      · exact hc
      · cases hhead
    subst hchain
    have htail : stub = q.tail := Option.some.inj hhead
    have hnext : next stub = none := hlinked
    refine .inl ⟨rfl, ?_⟩
    simp only [TaskMPSCQueue.pop, ← htail, if_true, hnext]
  | cons x l =>
    refine .inr ⟨x, l, ?_⟩
    have hne : x ≠ stub := fun heq => h.notMem (heq ▸ .head _)
    rcases hc with rfl | rfl
    · -- the stub is the first node
      have htail : stub = q.tail := Option.some.inj hhead
      obtain ⟨next', q', hpop, hholds⟩ :=
        popFrom_spec (q := { q with tail := x }) hlinked.2 hlast h.notMem h.nodup
      refine ⟨next', q', rfl, ?_, hholds⟩
      rw [TaskMPSCQueue.pop, if_pos htail.symm, ← htail, hlinked.1]
      exact hpop
    · have htail : x = q.tail := Option.some.inj hhead
      obtain ⟨next', q', hpop, hholds⟩ := popFrom_spec hlinked hlast h.notMem h.nodup
      refine ⟨next', q', rfl, ?_, hholds⟩
      rw [TaskMPSCQueue.pop, ← htail, if_neg hne]
      exact hpop

/-- Successive calls of `pop` give the tasks of the queue in order, and then nothing. -/
theorem Holds.pops_eq (h : Holds stub next q l) :
    pops stub next q (l.length + 1) = l.map some ++ [none] := by
  induction l generalizing next q with
  | nil =>
    rcases h.pop with ⟨-, hpop⟩ | ⟨x, l', next', q', hl, -⟩
    · simp [pops, hpop]
    · cases hl
  | cons x l ih =>
    rcases h.pop with ⟨hl, -⟩ | ⟨x', l', next', q', hl, hpop, hholds⟩
    · cases hl
    · cases hl
      rw [List.length_cons, pops, hpop, List.map_cons, List.cons_append]
      exact congrArg _ (ih hholds)

/-! ## Runs of the accesses -/

variable {ι : Type} [DecidableEq ι] {s s' : State ι τ}

/-- The ends of the queue in a state of the machine. -/
def State.ends (s : State ι τ) : Ends τ := ⟨s.head, s.tail⟩

/-- A producer that runs alone makes the accesses of `push_batch`. -/
theorem run_pushBatch {i : ι} {b : Batch τ} (h : enter stub s i b = some s') :
    ∃ t, Lts.run (step stub) s [.pushBatch i b, .producer i, .producer i, .producer i] = some t ∧
      (t.next, t.ends) = TaskMPSCQueue.pushBatch s.next s.ends b.first b.last ∧
      t.appending (some i) = .idle := by
  have henter : step stub s (.pushBatch i b) = some s' := h
  simp only [enter] at h
  split at h
  case h_2 => cases h
  case h_1 =>
    split_ifs at h
    cases h
    let s₀ : State ι τ := { s with
      appending := Function.update s.appending (some i) (.clear b)
      live := fun x => decide (x ∈ b.tasks) || s.live x
      busy := insert i s.busy
      quiet := false }
    let s₁ : State ι τ := { s₀ with
      next := Function.update s.next b.last none
      appending := Function.update s₀.appending (some i) (.exchange b) }
    let s₂ : State ι τ := { s₁ with
      head := b.last
      appending := Function.update s₁.appending (some i) (.link s.head b.first)
      pushed := s.pushed ++ b.tasks.filter (· ≠ stub) }
    let s₃ : State ι τ := { s₂ with
      next := Function.update s₂.next s.head (some b.first)
      appending := Function.update s₂.appending (some i) .idle
      busy := s₂.busy.erase i }
    refine ⟨s₃, ?_, rfl, Function.update_self ..⟩
    have h₁ : step stub s₀ (.producer i) = some s₁ := by
      simp only [step, producerStep, s₀, Function.update_self, appendStep]
      rfl
    have h₂ : step stub s₁ (.producer i) = some s₂ := by
      simp only [step, producerStep, s₁, Function.update_self, appendStep]
      rfl
    have h₃ : step stub s₂ (.producer i) = some s₃ := by
      simp only [step, producerStep, s₂, Function.update_self, appendStep]
      rfl
    rw [Lts.run_cons, henter, Option.bind_some, Lts.run_cons, h₁, Option.bind_some, Lts.run_cons,
      h₂, Option.bind_some, Lts.run_cons, h₃, Option.bind_some, Lts.run_nil]

/-- The consumer, running alone, ends its `pop` with the result `r`. -/
def Finishes (stub : τ) (s : State ι τ) (r : Option τ × (τ → Option τ) × Ends τ) : Prop :=
  ∃ k t, Lts.run (step stub) s (List.replicate k .consumer) = some t ∧ t.consumer = .idle ∧
    (t.out, t.next, t.ends) = r

theorem Finishes.idle (h : s.consumer = .idle) : Finishes stub s (s.out, s.next, s.ends) :=
  ⟨0, s, rfl, h, rfl⟩

theorem Finishes.step {r : Option τ × (τ → Option τ) × Ends τ}
    (hs : consumerStep stub s = some s') (h : Finishes stub s' r) : Finishes stub s r := by
  obtain ⟨k, t, hrun, hidle, hr⟩ := h
  refine ⟨k + 1, t, ?_, hidle, hr⟩
  rw [List.replicate_succ, Lts.run_cons_eq_some]
  exact ⟨s', hs, hrun⟩

/-- The accesses from the load of `head_` on. -/
theorem finishes_loadHead (hconsumer : s.consumer = .loadHead s.tail)
    (hnext : s.next s.tail = none) :
    Finishes stub s (popFrom stub s.next s.ends s.tail) := by
  by_cases hhead : s.tail = s.head
  · -- the stub is appended behind the last task
    let s₁ : State ι τ := { s with
      consumer := .appendStub s.tail
      appending := Function.update s.appending none (.clear (.single stub)) }
    let s₂ : State ι τ := { s₁ with
      next := Function.update s.next stub none
      appending := Function.update s₁.appending none (.exchange (.single stub)) }
    let s₃ : State ι τ := { s₂ with
      head := stub
      appending := Function.update s₂.appending none (.link s.head stub)
      pushed := s.pushed ++ [stub].filter (· ≠ stub) }
    let s₄ : State ι τ := { s₃ with
      next := Function.update s₂.next s.head (some stub)
      appending := Function.update s₃.appending none .idle
      consumer := .reloadNext s.tail }
    have h₁ : consumerStep stub s = some s₁ := by
      simp only [consumerStep, hconsumer, hhead, ne_eq, not_true_eq_false, if_false, s₁]
    have h₂ : consumerStep stub s₁ = some s₂ := by
      simp only [consumerStep, s₁, Function.update_self, appendStep]
      rfl
    have h₃ : consumerStep stub s₂ = some s₃ := by
      simp only [consumerStep, s₂, s₁, Function.update_self, appendStep]
      rfl
    have h₄ : consumerStep stub s₃ = some s₄ := by
      simp only [consumerStep, s₃, s₂, s₁, Function.update_self, appendStep]
      rfl
    have hlink : s₄.next s.tail = some stub := by
      rw [hhead]
      exact Function.update_self ..
    have h₅ : consumerStep stub s₄ = some (s₄.popTrue s.tail stub) := by
      simp only [consumerStep, s₄]
      simp only [s₄] at hlink
      rw [hlink]
    have hpop : popFrom stub s.next s.ends s.tail =
        ((s₄.popTrue s.tail stub).out, (s₄.popTrue s.tail stub).next,
          (s₄.popTrue s.tail stub).ends) := by
      have hends : ¬ s.tail ≠ s.ends.head := not_not.2 hhead
      have hself : (append s.next s.ends stub).1 s.tail = some stub := by
        rw [hhead]
        exact Function.update_self ..
      simp only [popFrom, hnext, if_neg hends, hself]
      rfl
    rw [hpop]
    exact (((((Finishes.idle rfl).step h₅).step h₄).step h₃).step h₂).step h₁
  · have hs : consumerStep stub s = some s.popFalse := by
      simp only [consumerStep, hconsumer, ne_eq, hhead, not_false_eq_true, if_true]
    have hpop : popFrom stub s.next s.ends s.tail = (none, s.next, s.ends) := by
      have hends : ¬ s.tail = s.ends.head := hhead
      simp only [popFrom, hnext, ne_eq, hends, not_false_eq_true, if_true]
    rw [hpop]
    exact (Finishes.idle rfl).step hs

/-- The accesses from the load of the `next` of the tail on. -/
theorem finishes_popFrom
    (hsome : ∀ n, s.next s.tail = some n → consumerStep stub s = some (s.popTrue s.tail n))
    (hnone : s.next s.tail = none →
      consumerStep stub s = some { s with consumer := .loadHead s.tail }) :
    Finishes stub s (popFrom stub s.next s.ends s.tail) := by
  cases hnext : s.next s.tail with
  | some n =>
    have hpop : popFrom stub s.next s.ends s.tail =
        ((s.popTrue s.tail n).out, (s.popTrue s.tail n).next, (s.popTrue s.tail n).ends) := by
      simp only [popFrom, hnext]
      rfl
    rw [hpop]
    exact (Finishes.idle rfl).step (hsome n hnext)
  | none =>
    let s₁ : State ι τ := { s with consumer := .loadHead s.tail }
    have hload : Finishes stub s₁ (popFrom stub s₁.next s₁.ends s₁.tail) :=
      finishes_loadHead rfl hnext
    exact hload.step (hnone hnext)

/-- A consumer that runs alone makes the accesses of `pop`. -/
theorem run_pop (hidle : s.consumer = .idle) :
    ∃ k t, Lts.run (step stub) s (.pop :: List.replicate k .consumer) = some t ∧
      t.consumer = .idle ∧ (t.out, t.next, t.ends) = TaskMPSCQueue.pop stub s.next s.ends := by
  let s₀ : State ι τ := { s with consumer := .loadNext, quiet := decide (s.busy = ∅) }
  have hends : s.ends.tail = s.tail := rfl
  have hfinish : Finishes stub s₀ (TaskMPSCQueue.pop stub s.next s.ends) := by
    by_cases htail : s.tail = stub
    · cases hnext : s.next s.tail with
      | none =>
        have hs : consumerStep stub s₀ = some s₀.popFalse := by
          simp only [consumerStep, s₀, if_pos htail, hnext]
        rw [TaskMPSCQueue.pop, hends, if_pos htail, hnext]
        exact (Finishes.idle rfl).step hs
      | some x =>
        let s₁ : State ι τ := { s₀ with tail := x, consumer := .skipStub x }
        have hs : consumerStep stub s₀ = some s₁ := by
          simp only [consumerStep, s₀, if_pos htail, hnext, s₁]
        have hskip : Finishes stub s₁ (popFrom stub s₁.next s₁.ends s₁.tail) := by
          refine finishes_popFrom (fun n hn => ?_) fun hn => ?_
          · simp only [s₁] at hn
            simp only [consumerStep, s₁, hn]
          · simp only [s₁] at hn
            simp only [consumerStep, s₁, hn]
        rw [TaskMPSCQueue.pop, hends, if_pos htail, hnext]
        exact hskip.step hs
    · rw [TaskMPSCQueue.pop, hends, if_neg htail]
      refine finishes_popFrom (s := s₀) (fun n hn => ?_) fun hn => ?_
      · simp only [s₀] at hn
        simp only [consumerStep, s₀, if_neg htail, hn]
      · simp only [s₀] at hn
        simp only [consumerStep, s₀, if_neg htail, hn]
  obtain ⟨k, t, hrun, ht, hr⟩ := hfinish
  refine ⟨k, t, ?_, ht, hr⟩
  rw [Lts.run_cons_eq_some]
  exact ⟨s₀, by simp only [step, hidle, s₀], hrun⟩

end

end JLibScheduler.TaskMPSCQueue
