import JLibScheduler.TaskMPSCQueue.Order

/-!
# A push that stalls

Between its exchange of `head_` and its link a push holds up the consumer. The tasks of the queue
are linked up to the node that the push got from its exchange, and `pop` gives a task away only
over a link that is there, or when it is the last one. So as long as the producer does not go on, in
whatever order the others take their steps, neither the tasks of the push nor any that is pushed
after them are returned, and neither is the task before them (`stalled_blocks`).
-/

namespace JLibScheduler.TaskMPSCQueue

open Adjacent

section
variable {ι τ : Type} [DecidableEq ι] [DecidableEq τ] {stub : τ} {s s' : State ι τ}

/-- No producer is about to link the stub. -/
def State.LinksTasks (stub : τ) (s : State ι τ) : Prop :=
  ∀ i a b, s.appending (some i) = .link a b → b ≠ stub

omit [DecidableEq ι] [DecidableEq τ] in
theorem State.LinksTasks.congr (h : s.LinksTasks stub)
    (happending : ∀ i, s'.appending (some i) = s.appending (some i)) : s'.LinksTasks stub :=
  fun i a b hlink => h i a b ((happending i).symm.trans hlink)

omit [DecidableEq τ] in
/-- A producer is at a place before its link. -/
theorem State.LinksTasks.update (h : s.LinksTasks stub) {i : ι} {pc : AppendPc τ}
    (hpc : ∀ a b, pc = .link a b → b ≠ stub)
    (happending : s'.appending = Function.update s.appending (some i) pc) :
    s'.LinksTasks stub := by
  intro j a b hlink
  rw [happending] at hlink
  by_cases hj : j = i
  · subst hj
    rw [Function.update_self] at hlink
    exact hpc a b hlink
  · rw [Function.update_of_ne (fun heq => hj (Option.some.inj heq))] at hlink
    exact h j a b hlink

/-- The tasks of a producer that is about to exchange `head_` are not the stub. -/
theorem State.LinksTasks.producer {q : List τ} {i : ι} (h : s.LinksTasks stub)
    (hinv : MemInv stub s q) (hs : producerStep stub s i = some s') : s'.LinksTasks stub := by
  unfold producerStep appendStep at hs
  cases hw : s.appending (some i) with
  | idle =>
    rw [hw] at hs
    cases hs
  | clear b =>
    rw [hw] at hs
    cases hs
    exact h.update (fun _ _ heq => by cases heq) rfl
  | exchange b =>
    rw [hw] at hs
    cases hs
    refine h.update (fun a c heq => ?_) rfl
    cases heq
    have hown := hinv.append (some i)
    rw [hw] at hown
    intro hfirst
    have hmem : stub ∈ b.tasks := hfirst ▸ List.head_mem b.ne
    cases hown.1.ofStub hmem
  | link a b =>
    rw [hw] at hs
    cases hs
    exact h.update (fun _ _ heq => by cases heq) rfl

/-- The consumer moves no producer. -/
theorem consumerStep_appending (hs : consumerStep stub s = some s') (i : ι) :
    s'.appending (some i) = s.appending (some i) := by
  have hne : (some i : Option ι) ≠ none := fun heq => by cases heq
  unfold consumerStep at hs
  cases hpc : s.consumer with
  | idle => simp [hpc] at hs
  | loadNext =>
    simp only [hpc] at hs
    split_ifs at hs <;> split at hs <;> cases hs <;> rfl
  | skipStub t | reloadNext t =>
    simp only [hpc] at hs
    split at hs <;> cases hs <;> rfl
  | loadHead t =>
    simp only [hpc] at hs
    split_ifs at hs <;> cases hs
    · rfl
    · exact Function.update_of_ne hne (.clear (.single stub)) s.appending
  | appendStub t =>
    simp only [hpc, appendStep] at hs
    cases hw : s.appending none with
    | idle =>
      simp only [hw] at hs
      cases hs
    | clear b =>
      simp only [hw] at hs
      cases hs
      exact Function.update_of_ne hne (.exchange b) s.appending
    | exchange b =>
      simp only [hw] at hs
      cases hs
      exact Function.update_of_ne hne (.link s.head b.first) s.appending
    | link a b =>
      simp only [hw] at hs
      cases hs
      exact Function.update_of_ne hne .idle s.appending

theorem State.LinksTasks.step {q : List τ} {a : Act ι τ} (h : s.LinksTasks stub)
    (hinv : MemInv stub s q) (hs : TaskMPSCQueue.step stub s a = some s') :
    s'.LinksTasks stub := by
  cases a with
  | write x v =>
    simp only [TaskMPSCQueue.step] at hs
    split_ifs at hs
    cases hs
    exact h.congr fun _ => rfl
  | push i x | pushBatch i b =>
    simp only [TaskMPSCQueue.step, enter] at hs
    split at hs
    · split_ifs at hs
      cases hs
      exact h.update (fun _ _ heq => by cases heq) rfl
    · cases hs
  | producer i => exact h.producer hinv hs
  | pop =>
    simp only [TaskMPSCQueue.step] at hs
    split at hs <;> cases hs
    exact h.congr fun _ => rfl
  | consumer => exact h.congr (consumerStep_appending hs)

/-- In every state that is reached, the queue is in order and producers link tasks. -/
theorem exists_linksTasks (h : Lts.Reachable (TaskMPSCQueue.step stub) (State.init stub) s) :
    (∃ q, Inv stub s q) ∧ s.LinksTasks stub := by
  have hinit : (State.init stub : State ι τ).LinksTasks stub := by
    intro i a b heq
    cases heq
  refine Lts.Reachable.inv (I := fun s => (∃ q, Inv stub s q) ∧ s.LinksTasks stub)
    (fun h hs => ?_) ⟨⟨[stub], Inv.init⟩, hinit⟩ h
  obtain ⟨⟨q, hinv⟩, hlinks⟩ := h
  exact ⟨Inv.step ⟨q, hinv⟩ hs, hlinks.step hinv.mem hs⟩

/-- While the push of `b` stands between its exchange and its link, `pop` has returned only tasks
that were pushed before it, and not the one just before it. -/
theorem stalled_blocks (h : Lts.Reachable (TaskMPSCQueue.step stub) (State.init stub) s)
    {i : ι} {a b : τ} (hlink : s.appending (some i) = .link a b) :
    ∃ l r, s.pushed = l ++ b :: r ∧ s.returned <+: l ∧
      (a ≠ stub → ∃ l', l = l' ++ [a] ∧ s.returned <+: l') := by
  obtain ⟨⟨q, hinv⟩, hlinks⟩ := exists_linksTasks h
  have happend := hinv.mem.append (some i)
  rw [hlink] at happend
  obtain ⟨l, r, rfl⟩ := happend.1.split
  have hb : b ≠ stub := hlinks i a b hlink
  have horder := hinv.mem.order
  have htasks : (b :: r).filter (· ≠ stub) = b :: r.filter (· ≠ stub) :=
    List.filter_cons_of_pos (decide_eq_true hb)
  rw [List.append_cons, List.filter_append, List.filter_append, htasks] at horder
  refine ⟨s.returned ++ (l.filter (· ≠ stub) ++ [a].filter (· ≠ stub)), r.filter (· ≠ stub), ?_,
    List.prefix_append .., fun ha => ⟨s.returned ++ l.filter (· ≠ stub), ?_,
      List.prefix_append ..⟩⟩
  · rw [← horder]
    simp only [List.append_assoc]
  · have htask : [a].filter (· ≠ stub) = [a] := List.filter_cons_of_pos (decide_eq_true ha)
    rw [htask, List.append_assoc]

end

/-- 1 is pushed, the push of 2 has exchanged and not linked, and 3 is pushed: two calls of `pop`
return nothing, not even 1. -/
def stalledRun : List (Act Bool Nat) :=
  [.push false 1, .producer false, .producer false, .producer false,
    .push false 2, .producer false, .producer false,
    .push true 3, .producer true, .producer true, .producer true,
    .pop, .consumer, .consumer, .consumer, .pop, .consumer, .consumer]

theorem stalled_blocks_stalledRun : ∃ s : State Bool Nat,
    Lts.run (TaskMPSCQueue.step 0) (State.init 0) stalledRun = some s ∧ s.pushed = [1, 2, 3] ∧
      (∃ l r, s.pushed = l ++ 2 :: r ∧ s.returned <+: l ∧
        (1 ≠ 0 → ∃ l', l = l' ++ [1] ∧ s.returned <+: l')) ∧
      s.consumer = .idle ∧ s.returned = [] := by
  refine ⟨_, (Option.some_get (x := Lts.run _ _ _) (by decide)).symm, by decide, ?_, by decide,
    by decide⟩
  exact stalled_blocks (i := false)
    ⟨stalledRun, (Option.some_get (x := Lts.run _ _ _) (by decide)).symm⟩ rfl

end JLibScheduler.TaskMPSCQueue
