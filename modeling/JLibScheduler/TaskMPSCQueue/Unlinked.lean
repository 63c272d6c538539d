import JLibScheduler.TaskMPSCQueue.Order

/-!
# A popped task is free of pending writes

A producer writes into its predecessor after it has exchanged `head_`, when the predecessor may be
at the front of the queue already. `pop` gives a task away only when its link is there, so no
append is left that holds it as predecessor, and no access of the queue writes its `next` any more
until it is pushed again (`popped_unlinked`). `pop` appends the stub again only when it is not in
the list, so up to the exchange of that append no producer holds it either.
-/

namespace JLibScheduler.TaskMPSCQueue

section
variable {ι τ : Type} {stub : τ} {s s' : State ι τ} {q : List τ} {x : τ} {a : Act ι τ}

/-- The task whose `next` the next access of an append writes. -/
def AppendPc.writes : AppendPc τ → Option τ
  | .clear b => some b.last
  | .link prev _ => some prev
  | .idle | .exchange _ => none

/-- The task whose `next` a step writes. -/
def State.writes (s : State ι τ) : Act ι τ → Option τ
  | .write x _ => some x
  | .producer i => (s.appending (some i)).writes
  | .consumer => match s.consumer with
    | .appendStub _ => (s.appending none).writes
    | _ => none
  | .push _ _ | .pushBatch _ _ | .pop => none

/-- The tasks that a step pushes. -/
def Act.pushes : Act ι τ → List τ
  | .push _ x => [x]
  | .pushBatch _ b => b.tasks
  | _ => []

/-- The append `w` has exchanged `head_` at `x` and has not linked `x` yet. -/
def State.Holding (s : State ι τ) (w : Option ι) (x : τ) : Prop :=
  ∃ first, s.appending w = .link x first

section
variable [DecidableEq ι] [DecidableEq τ]

/-- An append writes only the `next` that it is about to write. -/
theorem appendStep_next {w : Option ι} (hs : appendStep stub s w = some s')
    (hx : (s.appending w).writes ≠ some x) : s'.next x = s.next x := by
  unfold appendStep at hs
  cases hw : s.appending w with
  | idle => simp [hw] at hs
  | clear b | link b _ =>
    rw [hw] at hs hx
    cases hs
    exact Function.update_of_ne (fun heq => hx (congrArg some heq.symm)) _ _
  | exchange b =>
    rw [hw] at hs
    cases hs
    rfl

/-- A producer's access writes only the `next` that it is about to write. -/
theorem producerStep_next {i : ι} (hs : producerStep stub s i = some s')
    (hx : (s.appending (some i)).writes ≠ some x) : s'.next x = s.next x := by
  unfold producerStep at hs
  split at hs
  · obtain ⟨t, ht, rfl⟩ := Option.map_eq_some_iff.1 hs
    have hnext : t.next x = s.next x := appendStep_next ht hx
    exact hnext
  · exact appendStep_next hs hx

/-- The consumer writes a `next` only in its append of the stub. -/
theorem consumerStep_next (hs : consumerStep stub s = some s')
    (hx : s.writes .consumer ≠ some x) : s'.next x = s.next x := by
  unfold consumerStep at hs
  cases hpc : s.consumer with
  | appendStub t =>
    simp only [State.writes, hpc] at hs hx
    split at hs
    · obtain ⟨t, ht, rfl⟩ := Option.map_eq_some_iff.1 hs
      have hnext : t.next x = s.next x := appendStep_next ht hx
      exact hnext
    · exact appendStep_next hs hx
  | idle => simp [hpc] at hs
  | loadNext =>
    simp only [hpc] at hs
    split_ifs at hs <;> split at hs <;> cases hs <;> rfl
  | skipStub t | reloadNext t =>
    simp only [hpc] at hs
    split at hs <;> cases hs <;> rfl
  | loadHead t =>
    simp only [hpc] at hs
    split_ifs at hs <;> cases hs <;> rfl

/-- A step changes no `next` but the one it writes. -/
theorem step_next (hs : step stub s a = some s') (hx : s.writes a ≠ some x) :
    s'.next x = s.next x := by
  cases a with
  | write y v =>
    simp only [step] at hs
    split_ifs at hs
    cases hs
    exact Function.update_of_ne (fun heq => hx (congrArg some heq.symm)) _ _
  | push i y | pushBatch i b =>
    simp only [step, enter] at hs
    split at hs
    · split_ifs at hs
      cases hs
      rfl
    · cases hs
  | producer i => exact producerStep_next hs hx
  | pop =>
    simp only [step] at hs
    split at hs <;> cases hs
    rfl
  | consumer => exact consumerStep_next hs hx

/-- An append leaves it as it is which tasks were pushed and not returned. -/
theorem appendStep_live {w : Option ι} (hs : appendStep stub s w = some s') : s'.live = s.live := by
  unfold appendStep at hs
  split at hs <;> cases hs <;> rfl

/-- The consumer takes no task in. -/
theorem consumerStep_live (hs : consumerStep stub s = some s') (hlive : s.live x = false) :
    s'.live x = false := by
  have hpop : ∀ tail next, (s.popTrue tail next).live x = false := fun tail next => by
    change Function.update s.live tail false x = false
    by_cases hx : x = tail
    · rw [hx, Function.update_self]
    · rw [Function.update_of_ne hx, hlive]
  unfold consumerStep at hs
  cases hpc : s.consumer with
  | idle => simp [hpc] at hs
  | loadNext =>
    simp only [hpc] at hs
    split_ifs at hs <;> split at hs <;> cases hs
    · exact hlive
    · exact hlive
    · exact hpop _ _
    · exact hlive
  | skipStub t | reloadNext t =>
    simp only [hpc] at hs
    split at hs <;> cases hs
    · exact hpop _ _
    · exact hlive
  | loadHead t =>
    simp only [hpc] at hs
    split_ifs at hs <;> cases hs <;> exact hlive
  | appendStub t =>
    simp only [hpc] at hs
    split at hs
    · obtain ⟨t, ht, rfl⟩ := Option.map_eq_some_iff.1 hs
      change t.live x = false
      rwa [appendStep_live ht]
    · rwa [appendStep_live hs]

/-- A task in no queue stays so until it is pushed. -/
theorem step_live (hs : step stub s a = some s') (hx : x ∉ a.pushes) (hlive : s.live x = false) :
    s'.live x = false := by
  cases a with
  | write y v =>
    simp only [step] at hs
    split_ifs at hs
    cases hs
    exact hlive
  | push i y | pushBatch i b =>
    simp only [step, enter] at hs
    split at hs
    · split_ifs at hs
      cases hs
      simpa [hlive, Act.pushes, Batch.single] using hx
    · cases hs
  | producer i =>
    simp only [step, producerStep] at hs
    split at hs
    · obtain ⟨t, ht, rfl⟩ := Option.map_eq_some_iff.1 hs
      change t.live x = false
      rwa [appendStep_live ht]
    · rwa [appendStep_live hs]
  | pop =>
    simp only [step] at hs
    split at hs <;> cases hs
    exact hlive
  | consumer => exact consumerStep_live hs hlive

/-- A task that a `pop` has just given is in no queue. -/
theorem consumerStep_out (hs : consumerStep stub s = some s') (hidle : s'.consumer = .idle)
    (hout : s'.out = some x) : s'.live x = false ∧ x ∈ s'.returned := by
  have hpop : ∀ tail next, (s.popTrue tail next).out = some x →
      (s.popTrue tail next).live x = false ∧ x ∈ (s.popTrue tail next).returned := by
    intro tail next htail
    cases htail
    exact ⟨Function.update_self .., List.mem_append_right _ (List.mem_singleton.2 rfl)⟩
  unfold consumerStep at hs
  cases hpc : s.consumer with
  | idle => simp [hpc] at hs
  | loadNext =>
    simp only [hpc] at hs
    split_ifs at hs <;> split at hs <;> cases hs
    · cases hout
    · cases hidle
    · exact hpop _ _ hout
    · cases hidle
  | skipStub t =>
    simp only [hpc] at hs
    split at hs <;> cases hs
    · exact hpop _ _ hout
    · cases hidle
  | reloadNext t =>
    simp only [hpc] at hs
    split at hs <;> cases hs
    · exact hpop _ _ hout
    · cases hout
  | loadHead t =>
    simp only [hpc] at hs
    split_ifs at hs <;> cases hs
    · cases hout
    · cases hidle
  | appendStub t =>
    simp only [hpc] at hs
    unfold appendStep at hs
    cases hw : s.appending none with
    | idle => simp [hw] at hs
    | clear b | exchange b =>
      simp only [hw, Option.some.injEq] at hs
      subst hs
      cases hpc.symm.trans hidle
    | link a b =>
      simp only [hw, Option.map_some, Option.some.injEq] at hs
      subst hs
      cases hidle

end

/-- An append is about to write a task of the list, or one that it owns. -/
theorem MemInv.writes_mem [DecidableEq τ] (h : MemInv stub s q) {w : Option ι}
    (hx : (s.appending w).writes = some x) : x ∈ q ∨ x ∈ (s.appending w).owned := by
  have happ := h.append w
  cases hw : s.appending w with
  | idle | exchange b => rw [hw] at hx; cases hx
  | clear b =>
    rw [hw] at hx
    cases hx
    exact .inr b.last_mem
  | link prev first =>
    rw [hw] at hx happ
    cases hx
    exact .inl happ.1.mem_left

/-- No append is about to write a task that is in no queue. -/
theorem MemInv.writes_dead [DecidableEq τ] (h : MemInv stub s q) (hne : x ≠ stub)
    (hlive : s.live x = false) (w : Option ι) : (s.appending w).writes ≠ some x := by
  intro hx
  have htrue : s.live x = true := by
    rcases h.writes_mem hx with hq | hown
    · exact h.live x hq hne
    · exact h.owned_live hown hne
  rw [hlive] at htrue
  cases htrue

/-- What an append holds it is about to write. -/
theorem State.Holding.writes {w : Option ι} (h : s.Holding w x) :
    (s.appending w).writes = some x := by
  obtain ⟨first, hw⟩ := h
  rw [hw]
  rfl

variable [DecidableEq τ]

/-- No access of the queue writes the `next` of a task that is in no queue. -/
theorem Inv.writes_dead (h : Inv stub s q) (hne : x ≠ stub) (hlive : s.live x = false)
    (hx : s.writes a = some x) : ∃ v, a = .write x v := by
  cases a with
  | write y v =>
    cases hx
    exact ⟨v, rfl⟩
  | push | pushBatch | pop => cases hx
  | producer i => exact absurd hx (h.mem.writes_dead hne hlive (some i))
  | consumer =>
    simp only [State.writes] at hx
    split at hx
    · exact absurd hx (h.mem.writes_dead hne hlive none)
    · cases hx

/-- No append but the consumer's own is about to write the stub before its exchange. -/
theorem MemInv.writes_stub (h : MemInv stub s q) (hown : stub ∈ (s.appending none).owned)
    {w : Option ι} (hx : (s.appending w).writes = some stub) : w = none := by
  rcases h.writes_mem hx with hq | hown'
  · exact absurd hq (h.owned_notMem hown)
  · by_contra hne
    exact h.disjoint w none hne hown' hown

variable [DecidableEq ι]

/-- A task that was in no queue is in no queue after a run that does not push it. -/
theorem live_of_run {as : List (Act ι τ)} (hrun : Lts.run (step stub) s as = some s')
    (hpushes : ∀ a ∈ as, x ∉ a.pushes) (hlive : s.live x = false) : s'.live x = false := by
  refine Lts.run_inv_of (I := fun s => s.live x = false) (G := fun _ a => x ∉ a.pushes)
    (fun hs ha hstep => step_live hstep ha hs) hlive hrun fun p hp => ?_
  exact hpushes p.2 (Lts.mem_of_mem_visits hp)

omit [DecidableEq ι] in
/-- No append holds the stub while the consumer's append owns it. -/
theorem MemInv.not_holding_stub (h : MemInv stub s q) (hown : stub ∈ (s.appending none).owned)
    (w : Option ι) : ¬ s.Holding w stub := by
  intro hw
  have hnone : w = none := h.writes_stub hown hw.writes
  obtain ⟨first, hw⟩ := hw
  rw [← hnone, hw] at hown
  cases hown

/-- Only the consumer writes the `next` of the stub while its append owns it. -/
theorem MemInv.not_writes_stub (h : MemInv stub s q) (hown : stub ∈ (s.appending none).owned)
    (hs : step stub s a = some s') (ha : a ≠ .consumer) : s.writes a ≠ some stub := by
  intro hx
  cases a with
  | write y v =>
    -- the clients do not write the stub
    cases hx
    simp [step] at hs
  | push | pushBatch | pop => cases hx
  | producer i => cases h.writes_stub hown hx
  | consumer => exact ha rfl

/-- At the access with which a `pop` gives a task, no append holds that task as its predecessor, and
until the task is pushed again no step writes its `next` but a client's own write. In every state
from the one in which `pop` begins to append the stub again up to its exchange of `head_`, no append
holds the stub, and no step but the consumer's writes its `next`. -/
theorem popped_unlinked (h : Lts.Reachable (step stub) (State.init stub) s) :
    (∀ s' x, step stub s .consumer = some s' → s'.consumer = .idle → s'.out = some x →
      (∀ w, ¬ s'.Holding w x) ∧
        ∀ bs t, Lts.run (step stub) s' bs = some t → (∀ b ∈ bs, x ∉ b.pushes) →
          ∀ a t', step stub t a = some t' → (∀ v, a ≠ .write x v) →
            t.writes a ≠ some x ∧ t'.next x = t.next x) ∧
    (stub ∈ (s.appending none).owned →
      (∀ w, ¬ s.Holding w stub) ∧
        ∀ a t, step stub s a = some t → a ≠ .consumer →
          s.writes a ≠ some stub ∧ t.next stub = s.next stub) := by
  obtain ⟨q, hinv⟩ := Inv.reachable h
  refine ⟨fun s' x hs hidle hout => ?_, fun hown => ?_⟩
  · obtain ⟨q', hinv'⟩ := Inv.step ⟨q, hinv⟩ hs
    obtain ⟨hlive, hret⟩ := consumerStep_out hs hidle hout
    have hne : x ≠ stub := fun heq => hinv'.mem.notReturned (heq ▸ hret)
    refine ⟨fun w hw => hinv'.mem.writes_dead hne hlive w hw.writes,
      fun bs t hrun hpushes a t' hstep ha => ?_⟩
    obtain ⟨r, hinvt⟩ := Lts.run_inv Inv.step ⟨q', hinv'⟩ hrun
    have hwrites : t.writes a ≠ some x := by
      intro hx
      obtain ⟨v, rfl⟩ := hinvt.writes_dead hne (live_of_run hrun hpushes hlive) hx
      exact ha v rfl
    exact ⟨hwrites, step_next hstep hwrites⟩
  · refine ⟨hinv.mem.not_holding_stub hown, fun a t hstep ha => ?_⟩
    have hwrites : s.writes a ≠ some stub := hinv.mem.not_writes_stub hown hstep ha
    exact ⟨hwrites, step_next hstep hwrites⟩

/-- A `pop` gives the only task of a queue, after it has appended the stub. -/
theorem popped_unlinked_single : ∃ s s' : State Bool Nat,
    Lts.run (step 0) (State.init 0) [.push true 1, .producer true, .producer true, .producer true,
      .pop, .consumer, .consumer, .consumer, .consumer, .consumer, .consumer] = some s ∧
      step 0 s .consumer = some s' ∧ s'.consumer = .idle ∧ s'.out = some 1 ∧
      (∀ w, ¬ s'.Holding w 1) := by
  refine ⟨(Lts.run (step 0) (State.init 0) [.push true 1, .producer true, .producer true,
    .producer true, .pop, .consumer, .consumer, .consumer, .consumer, .consumer, .consumer]).get
      (by decide), _, (Option.some_get _).symm,
      (Option.some_get (x := step 0 _ _) (by decide)).symm,
    by decide, by decide, ?_⟩
  exact ((popped_unlinked ⟨_, (Option.some_get _).symm⟩).1 _ 1
    (Option.some_get (x := step 0 _ _) (by decide)).symm (by decide) (by decide)).1

end

end JLibScheduler.TaskMPSCQueue
