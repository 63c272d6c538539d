import JLibScheduler.Lib.Lts
import JLibScheduler.Lib.Update
import JLibScheduler.ConditionVariable.Basic

/-!
# The order of the notifications

`Effect` says what one step does to the queues of the condition variables and to the semaphores that
notifies still have to signal. `Order` and `Tokens` follow from it: the semaphores leave a queue in
the order of the `Wait` calls, and a semaphore that was taken is still to be signalled by one
context, or has been signalled once.
-/

namespace JLibScheduler.ConditionVariable

section
variable {κ χ ν : Type}

/-- The semaphore of the `Wait` call that goes on. -/
def After.waits : After ν → Option ℕ
  | .wait k _ => some k
  | _ => none

/-- The semaphore of the `Wait` call that a context is in, from the moment it is queued until the
context is past the wait for it. -/
def Pc.waits : Pc κ χ ν → Option ℕ
  | .unlock _ after | .resume _ after => after.waits
  | .waitSpin k _ | .waitBody k _ | .waitClear k _ _ | .waitSuspended k _ => some k
  | _ => none

/-- The semaphores that a notify still has to signal. -/
def After.toSignal : After ν → List ℕ
  | .signals ks => ks
  | _ => []

/-- The semaphores on which a context still has to run the section of `Signal`. -/
def Pc.toSignal : Pc κ χ ν → List ℕ
  | .unlock _ after | .resume _ after => after.toSignal
  | .signalSpin k ks | .signalBody k ks => k :: ks
  | .signalClear _ _ ks => ks
  | _ => []

@[simp] theorem After.waits_pc (after : After ν) : (after.pc : Pc κ χ ν).waits = after.waits := by
  match after with
  | .done | .wait _ _ | .lock _ | .signals [] | .signals (_ :: _) => rfl

@[simp] theorem After.toSignal_pc (after : After ν) :
    (after.pc : Pc κ χ ν).toSignal = after.toSignal := by
  match after with
  | .done | .wait _ _ | .lock _ | .signals [] | .signals (_ :: _) => rfl

@[simp] theorem Pc.waits_elim (nextFiber : Option κ) (after : After ν) :
    (nextFiber.elim after.pc fun f => .resume f after : Pc κ χ ν).waits = after.waits := by
  cases nextFiber with
  | none => exact after.waits_pc
  | some f => rfl

@[simp] theorem Pc.toSignal_elim (nextFiber : Option κ) (after : After ν) :
    (nextFiber.elim after.pc fun f => .resume f after : Pc κ χ ν).toSignal = after.toSignal := by
  cases nextFiber with
  | none => exact after.toSignal_pc
  | some f => rfl

/-- The context that moves. -/
def Act.context : Act κ χ ν → κ
  | .wait c _ _ | .notifyOne c _ | .notifyAll c _ | .lock c _ | .unlock c _ | .next c => c

/-- The context `c` moves, and no queue changes. -/
structure Quiet (s s' : State κ χ ν) (c : κ) : Prop where
  pc : ∀ d, d ≠ c → s'.pc d = s.pc d
  waits : (s'.pc c).waits = none ∨ (s'.pc c).waits = (s.pc c).waits
  toSignal : (s'.pc c).toSignal = (s.pc c).toSignal
  waitingQueue : s'.waitingQueue = s.waitingQueue
  call : s'.call = s.call
  queued : s'.queued = s.queued
  taken : s'.taken = s.taken
  made : s'.made = s.made
  signals : s'.signals = s.signals

end

section
variable {κ χ ν : Type} [DecidableEq κ]

/-- A step that changes the place of a context and none of the queues. -/
theorem Quiet.of_eq {s s' : State κ χ ν} {c : κ} {p : Pc κ χ ν}
    (hpc : s'.pc = Function.update s.pc c p) (hwaits : p.waits = none ∨ p.waits = (s.pc c).waits)
    (htoSignal : p.toSignal = (s.pc c).toSignal) (hwaitingQueue : s'.waitingQueue = s.waitingQueue)
    (hcall : s'.call = s.call) (hqueued : s'.queued = s.queued) (htaken : s'.taken = s.taken)
    (hmade : s'.made = s.made) (hsignals : s'.signals = s.signals) : Quiet s s' c where
  pc d hd := by rw [hpc, Function.update_of_ne hd]
  waits := by rwa [hpc, Function.update_self]
  toSignal := by rwa [hpc, Function.update_self]
  waitingQueue := hwaitingQueue
  call := hcall
  queued := hqueued
  taken := htaken
  made := hmade
  signals := hsignals

/-- A call begins. -/
theorem Quiet.begin {s : State κ χ ν} {c : κ} {p : Pc κ χ ν} (hpc : s.pc c = .idle)
    (hwaits : p.waits = none) (htoSignal : p.toSignal = []) : Quiet s (s.setPc c p) c :=
  .of_eq rfl (.inl hwaits) (by rw [htoSignal, hpc]; rfl) rfl rfl rfl rfl rfl rfl

variable [DecidableEq χ]

/-- What a step of the context `c` does to the queues. -/
inductive Effect (s : State κ χ ν) (c : κ) : State κ χ ν → Prop where
  | quiet {s' : State κ χ ν} (h : Quiet s s' c) : Effect s c s'
  | push {v : χ} {x : ν} (hpc : s.pc c = .push v x) : Effect s c (s.push c v x)
  | take {v : χ} {n : ℕ}
      (hpc : s.pc c = .notifyOne v ∧ n = 1 ∨
        s.pc c = .notifyAll v ∧ n = (s.waitingQueue v).length) :
      Effect s c (s.take c v n)
  | signal {k : ℕ} {ks : List ℕ} (hpc : s.pc c = .signalBody k ks) :
      Effect s c (s.signalBody c k ks)

variable [DecidableEq ν] {fiber : κ → Bool} {s s' : State κ χ ν}

/-- What the next step of a call does to the queues. -/
theorem nextStep_effect {c : κ} (hs : nextStep fiber s c = some s') : Effect s c s' := by
  unfold nextStep at hs
  cases hpc : s.pc c with
  | idle =>
    rw [hpc] at hs
    cases hs
  | push v x =>
    simp only [hpc, Option.some.injEq] at hs
    subst hs
    cases hf : fiber c with
    | true => exact .push hpc
    | false =>
      exact .quiet (.of_eq rfl (.inl rfl) (by rw [hpc]; rfl) rfl rfl rfl rfl rfl rfl)
  | unlock x after =>
    simp only [hpc, Option.some.injEq] at hs
    subst hs
    refine .quiet (.of_eq rfl (.inr ?_) ?_ rfl rfl rfl rfl rfl rfl)
    · rw [Pc.waits_elim, hpc]
      rfl
    · rw [Pc.toSignal_elim, hpc]
      rfl
  | lock x =>
    simp only [hpc] at hs
    split at hs
    · cases hs
      unfold State.lock
      split
      · exact .quiet (.of_eq rfl (.inl rfl) (by rw [hpc]; rfl) rfl rfl rfl rfl rfl rfl)
      · exact .quiet (.of_eq rfl (.inl rfl) (by rw [hpc]; rfl) rfl rfl rfl rfl rfl rfl)
    · split at hs
      · cases hs
        exact .quiet (.of_eq rfl (.inl rfl) (by rw [hpc]; rfl) rfl rfl rfl rfl rfl rfl)
      · cases hs
        exact .quiet ⟨fun _ _ => rfl, .inr rfl, rfl, rfl, rfl, rfl, rfl, rfl, rfl⟩
  | lockSuspended x =>
    simp only [hpc, Option.ite_none_right_eq_some, Option.some.injEq] at hs
    obtain ⟨-, rfl⟩ := hs
    exact .quiet (.of_eq rfl (.inl rfl) (by rw [hpc]; rfl) rfl rfl rfl rfl rfl rfl)
  | waitSpin k x =>
    simp only [hpc, Option.ite_none_left_eq_some, Option.some.injEq] at hs
    obtain ⟨-, rfl⟩ := hs
    exact .quiet (.of_eq rfl (.inr (by rw [hpc]; rfl)) (by rw [hpc]; rfl) rfl rfl rfl rfl rfl rfl)
  | waitBody k x =>
    simp only [hpc, Option.some.injEq] at hs
    subst hs
    exact .quiet (.of_eq rfl (.inr (by rw [hpc]; rfl)) (by rw [hpc]; rfl) rfl rfl rfl rfl rfl rfl)
  | waitClear k x got =>
    simp only [hpc, Option.some.injEq] at hs
    subst hs
    cases got with
    | true => exact .quiet (.of_eq rfl (.inl rfl) (by rw [hpc]; rfl) rfl rfl rfl rfl rfl rfl)
    | false =>
      exact .quiet (.of_eq rfl (.inr (by rw [hpc]; rfl)) (by rw [hpc]; rfl) rfl rfl rfl rfl rfl rfl)
  | waitSuspended k x =>
    simp only [hpc, Option.ite_none_right_eq_some, Option.some.injEq] at hs
    obtain ⟨-, rfl⟩ := hs
    exact .quiet (.of_eq rfl (.inl rfl) (by rw [hpc]; rfl) rfl rfl rfl rfl rfl rfl)
  | notifyOne v =>
    simp only [hpc, Option.some.injEq] at hs
    subst hs
    exact .take (.inl ⟨hpc, rfl⟩)
  | notifyAll v =>
    simp only [hpc, Option.some.injEq] at hs
    subst hs
    exact .take (.inr ⟨hpc, rfl⟩)
  | signalSpin k ks =>
    simp only [hpc, Option.ite_none_left_eq_some, Option.some.injEq] at hs
    obtain ⟨-, rfl⟩ := hs
    exact .quiet (.of_eq rfl (.inl rfl) (by rw [hpc]; rfl) rfl rfl rfl rfl rfl rfl)
  | signalBody k ks =>
    simp only [hpc, Option.some.injEq] at hs
    subst hs
    exact .signal hpc
  | signalClear k nextFiber ks =>
    simp only [hpc, Option.some.injEq] at hs
    subst hs
    refine .quiet (.of_eq rfl (.inl ?_) ?_ rfl rfl rfl rfl rfl rfl)
    · rw [Pc.waits_elim]
      rfl
    · rw [Pc.toSignal_elim, hpc]
      rfl
  | resume f after =>
    simp only [hpc, Option.some.injEq] at hs
    subst hs
    refine .quiet (.of_eq rfl (.inr ?_) ?_ rfl rfl rfl rfl rfl rfl)
    · rw [After.waits_pc, hpc]
      rfl
    · rw [After.toSignal_pc, hpc]
      rfl

/-- What a step does to the queues. -/
theorem step_effect {a : Act κ χ ν} (hs : step fiber s a = some s') : Effect s a.context s' := by
  cases a with
  | wait c v x =>
    obtain ⟨hpc, rfl⟩ : s.pc c = .idle ∧ s.setPc c (.push v x) = s' := by simpa [step] using hs
    exact .quiet (.begin hpc rfl rfl)
  | notifyOne c v =>
    obtain ⟨hpc, rfl⟩ : s.pc c = .idle ∧ s.setPc c (.notifyOne v) = s' := by simpa [step] using hs
    exact .quiet (.begin hpc rfl rfl)
  | notifyAll c v =>
    obtain ⟨hpc, rfl⟩ : s.pc c = .idle ∧ s.setPc c (.notifyAll v) = s' := by simpa [step] using hs
    exact .quiet (.begin hpc rfl rfl)
  | lock c x =>
    obtain ⟨hpc, rfl⟩ : s.pc c = .idle ∧ s.setPc c (.lock x) = s' := by simpa [step] using hs
    exact .quiet (.begin hpc rfl rfl)
  | unlock c x =>
    obtain ⟨hpc, rfl⟩ : s.pc c = .idle ∧ s.setPc c (.unlock x .done) = s' := by
      simpa [step] using hs
    exact .quiet (.begin hpc rfl rfl)
  | next c => exact nextStep_effect hs

end

/-! ## The order of a queue -/

section
variable {κ χ ν : Type}

/-- The semaphores leave a queue in the order in which they came. -/
structure Order (s : State κ χ ν) : Prop where
  queued : ∀ v, s.queued v = s.taken v ++ s.waitingQueue v
  sorted : ∀ v, (s.queued v).Pairwise (· < ·)
  call : ∀ v k, k ∈ s.queued v ↔ ∃ c, s.call k = some (c, v)
  made : ∀ k, (s.call k).isSome ↔ k < s.made
  waits : ∀ c k, (s.pc c).waits = some k → ∃ v, s.call k = some (c, v)

theorem Order.init : Order (State.init : State κ χ ν) where
  queued v := rfl
  sorted v := .nil
  call v k := by simp [State.init]
  made k := by simp [State.init]
  waits c k h := by cases h

variable {s s' : State κ χ ν} {c : κ} {v w : χ} {k : ℕ}

theorem Order.mem_queued (h : Order s) (hk : k ∈ s.waitingQueue v) : k ∈ s.queued v :=
  h.queued v ▸ List.mem_append_right _ hk

theorem Order.mem_queued_of_taken (h : Order s) (hk : k ∈ s.taken v) : k ∈ s.queued v :=
  h.queued v ▸ List.mem_append_left _ hk

/-- A semaphore was put in the queue of one condition variable. -/
theorem Order.queue_unique (h : Order s) (hv : k ∈ s.queued v) (hw : k ∈ s.queued w) : v = w := by
  obtain ⟨c, hc⟩ := (h.call v k).1 hv
  obtain ⟨d, hd⟩ := (h.call w k).1 hw
  have := hc.symm.trans hd
  cases this
  rfl

/-- A semaphore that waits was not taken. -/
theorem Order.not_taken (h : Order s) (hk : k ∈ s.waitingQueue v) : k ∉ s.taken w := by
  intro hw
  obtain rfl := h.queue_unique (h.mem_queued hk) (h.mem_queued_of_taken hw)
  have hsorted := h.sorted v
  rw [h.queued v, List.pairwise_append] at hsorted
  exact absurd (hsorted.2.2 k hw k hk) (Nat.lt_irrefl k)

theorem Order.waitingQueue_nodup (h : Order s) (v : χ) : (s.waitingQueue v).Nodup := by
  have hsorted := h.sorted v
  rw [h.queued v, List.pairwise_append] at hsorted
  exact hsorted.2.1.imp Nat.ne_of_lt

/-- A step that leaves the queues alone keeps their order. -/
theorem Order.congr (h : Order s)
    (hwaits : ∀ d, (s'.pc d).waits = none ∨ (s'.pc d).waits = (s.pc d).waits)
    (hwaitingQueue : s'.waitingQueue = s.waitingQueue) (hcall : s'.call = s.call)
    (hqueued : s'.queued = s.queued) (htaken : s'.taken = s.taken) (hmade : s'.made = s.made) :
    Order s' where
  queued v := by rw [hqueued, htaken, hwaitingQueue, h.queued]
  sorted v := hqueued ▸ h.sorted v
  call v k := by rw [hqueued, hcall, h.call]
  made k := by rw [hcall, hmade, h.made]
  waits d k hk := by
    rw [hcall]
    rcases hwaits d with hnone | heq
    · rw [hnone] at hk
      cases hk
    · exact h.waits d k (heq ▸ hk)

theorem Quiet.waits_eq (hq : Quiet s s' c) (d : κ) :
    (s'.pc d).waits = none ∨ (s'.pc d).waits = (s.pc d).waits := by
  by_cases hd : d = c
  · subst hd
    exact hq.waits
  · exact .inr (congrArg Pc.waits (hq.pc d hd))

/-- Every context that will signal a semaphore is the only one, and it was taken from a queue. -/
structure Tokens (s : State κ χ ν) : Prop where
  once : ∀ c d k, k ∈ (s.pc c).toSignal → k ∈ (s.pc d).toSignal → c = d
  nodup : ∀ c, (s.pc c).toSignal.Nodup
  unsent : ∀ c, ∀ k ∈ (s.pc c).toSignal, s.signals k = 0 ∧ ∃ v, k ∈ s.taken v
  sent : ∀ v, ∀ k ∈ s.taken v, s.signals k = 1 ∨ ∃ c, k ∈ (s.pc c).toSignal
  untaken : ∀ k, (∀ v, k ∉ s.taken v) → s.signals k = 0

theorem Tokens.init : Tokens (State.init : State κ χ ν) where
  once c d k h := by cases h
  nodup c := List.nodup_nil
  unsent c k h := by cases h
  sent v k h := by cases h
  untaken k _ := rfl

/-- A semaphore is signalled at most once. -/
theorem Tokens.signals_le_one (h : Tokens s) (k : ℕ) : s.signals k ≤ 1 := by
  by_cases hk : ∃ v, k ∈ s.taken v
  · obtain ⟨v, hv⟩ := hk
    rcases h.sent v k hv with hone | ⟨c, hc⟩
    · exact hone.le
    · rw [(h.unsent c k hc).1]
      exact Nat.zero_le 1
  · rw [h.untaken k fun v hv => hk ⟨v, hv⟩]
    exact Nat.zero_le 1

/-- A step that leaves alone what contexts will signal keeps the tokens. -/
theorem Tokens.congr (h : Tokens s) (htoSignal : ∀ d, (s'.pc d).toSignal = (s.pc d).toSignal)
    (htaken : s'.taken = s.taken) (hsignals : s'.signals = s.signals) : Tokens s' where
  once c d k hc hd := h.once c d k (htoSignal c ▸ hc) (htoSignal d ▸ hd)
  nodup c := htoSignal c ▸ h.nodup c
  unsent c k hk := by
    rw [hsignals, htaken]
    exact h.unsent c k (htoSignal c ▸ hk)
  sent v k hk := by
    rw [htaken] at hk
    rw [hsignals]
    exact (h.sent v k hk).imp id fun ⟨c, hc⟩ => ⟨c, (htoSignal c).symm ▸ hc⟩
  untaken k hk := by
    rw [hsignals]
    exact h.untaken k fun v hv => hk v (htaken.symm ▸ hv)

theorem Quiet.toSignal_eq (hq : Quiet s s' c) (d : κ) : (s'.pc d).toSignal = (s.pc d).toSignal := by
  by_cases hd : d = c
  · subst hd
    exact hq.toSignal
  · rw [hq.pc d hd]

end

section
variable {κ χ ν : Type} [DecidableEq κ] {s : State κ χ ν} {c : κ}

/-- A semaphore is signalled by the context that had to. -/
theorem Tokens.signal {k : ℕ} {ks : List ℕ} (h : Tokens s) (hpc : s.pc c = .signalBody k ks) :
    Tokens (s.signalBody c k ks) := by
  have hc : (s.pc c).toSignal = k :: ks := by rw [hpc]; rfl
  have hself : ((s.signalBody c k ks).pc c).toSignal = ks := by
    rw [State.pc_signalBody, Function.update_self]
    rfl
  have hne : ∀ d, d ≠ c → (s.signalBody c k ks).pc d = s.pc d :=
    fun d hd => Function.update_of_ne hd _ _
  have hsub : ∀ d j, j ∈ ((s.signalBody c k ks).pc d).toSignal → j ∈ (s.pc d).toSignal := by
    intro d j hj
    by_cases hd : d = c
    · rw [hd, hself] at hj
      rw [hd, hc]
      exact .tail _ hj
    · rwa [hne d hd] at hj
  have hnodup := h.nodup c
  rw [hc, List.nodup_cons] at hnodup
  have hk : ∀ d, k ∉ ((s.signalBody c k ks).pc d).toSignal := by
    intro d hd
    obtain rfl := h.once d c k (hsub d k hd) (hc ▸ .head _)
    exact hnodup.1 (hself ▸ hd)
  have hsignals : ∀ j, j ≠ k → (s.signalBody c k ks).signals j = s.signals j :=
    fun j hj => Function.update_of_ne hj _ _
  have hone : (s.signalBody c k ks).signals k = 1 := by
    refine (Function.update_self _ _ _).trans ?_
    rw [(h.unsent c k (hc ▸ .head _)).1]
  constructor
  · exact fun d e j hd he => h.once d e j (hsub d j hd) (hsub e j he)
  · intro d
    by_cases hd : d = c
    · rw [hd, hself]
      exact hnodup.2
    · rw [hne d hd]
      exact h.nodup d
  · intro d j hj
    have hjk : j ≠ k := by
      rintro rfl
      exact hk d hj
    rw [hsignals j hjk]
    exact h.unsent d j (hsub d j hj)
  · intro w j hj
    by_cases hjk : j = k
    · exact .inl (hjk ▸ hone)
    · rw [hsignals j hjk]
      refine (h.sent w j hj).imp id fun ⟨d, hd⟩ => ⟨d, ?_⟩
      by_cases hdc : d = c
      · rw [hdc, hc] at hd
        rw [hdc, hself]
        exact (List.mem_cons.1 hd).resolve_left hjk
      · rwa [hne d hdc]
  · intro j hj
    have hjk : j ≠ k := by
      rintro rfl
      obtain ⟨-, w, hw⟩ := h.unsent c j (hc ▸ .head _)
      exact hj w hw
    rw [hsignals j hjk]
    exact h.untaken j hj

end

section
variable {κ χ ν : Type} [DecidableEq κ] [DecidableEq χ] {s s' : State κ χ ν} {c : κ} {v : χ} {n : ℕ}

/-- `Wait` queues a new semaphore. -/
theorem Order.push (h : Order s) (c : κ) (v : χ) (x : ν) : Order (s.push c v x) := by
  have hcall : s.call s.made = none := by
    have hnot := mt (h.made s.made).1 (Nat.lt_irrefl _)
    rwa [Option.not_isSome_iff_eq_none] at hnot
  have hlt : ∀ w, ∀ k ∈ s.queued w, k < s.made := by
    intro w k hk
    obtain ⟨d, hd⟩ := (h.call w k).1 hk
    exact (h.made k).1 (hd ▸ rfl)
  have hold : ∀ w k, k < s.made →
      (Function.update s.call s.made (some (c, v)) k = some w ↔ s.call k = some w) := by
    intro w k hk
    rw [Function.update_of_ne hk.ne]
  constructor
  · intro w
    simp only [State.push, State.setPc, Function.update_apply]
    split
    next heq => rw [heq, h.queued v, List.append_assoc]
    next => exact h.queued w
  · intro w
    simp only [State.push, State.setPc, Function.update_apply]
    split
    next heq =>
      rw [List.pairwise_append]
      refine ⟨h.sorted v, List.pairwise_singleton _ _, fun k hk j hj => ?_⟩
      rw [List.mem_singleton.1 hj]
      exact hlt v k hk
    next => exact h.sorted w
  · intro w k
    simp only [State.push, State.setPc, Function.update_apply]
    split
    next heq =>
      subst heq
      rw [List.mem_append, List.mem_singleton, h.call]
      by_cases hk : k = s.made
      · subst hk
        simp
      · simp [hk]
    next hne =>
      rw [h.call]
      by_cases hk : k = s.made
      · subst hk
        simp [hcall, Ne.symm hne]
      · simp [hk]
  · intro k
    simp only [State.push, State.setPc, Function.update_apply]
    split
    next heq => simp [heq]
    next hne =>
      rw [h.made]
      omega
  · intro d k hk
    simp only [State.push, State.setPc] at hk ⊢
    by_cases hd : d = c
    · subst hd
      rw [Function.update_self] at hk
      cases hk
      exact ⟨v, Function.update_self _ _ _⟩
    · rw [Function.update_of_ne hd] at hk
      obtain ⟨w, hw⟩ := h.waits d k hk
      exact ⟨w, (hold _ k ((h.made k).1 (hw ▸ rfl))).2 hw⟩

/-- A notify takes the semaphores that came first. -/
theorem Order.take (h : Order s) (c : κ) (v : χ) (n : ℕ) : Order (s.take c v n) where
  queued w := by
    simp only [State.take, State.setPc, Function.update_apply]
    split
    next heq => rw [heq, List.append_assoc, List.take_append_drop, h.queued]
    next => exact h.queued w
  sorted := h.sorted
  call := h.call
  made := h.made
  waits d k hk := by
    simp only [State.take, State.setPc, Function.update_apply] at hk
    split at hk
    · rw [After.waits_pc] at hk
      cases hk
    · exact h.waits d k hk

theorem Tokens.push {x : ν} (h : Tokens s) (hpc : s.pc c = .push v x) : Tokens (s.push c v x) := by
  refine h.congr (fun d => ?_) rfl rfl
  by_cases hd : d = c
  · subst hd
    rw [State.pc_push, Function.update_self, hpc]
    rfl
  · rw [State.pc_push, Function.update_of_ne hd]

/-- The notify has to signal what it took. -/
theorem Tokens.take (h : Tokens s) (ho : Order s) (hpc : (s.pc c).toSignal = []) :
    Tokens (s.take c v n) := by
  have hself : ((s.take c v n).pc c).toSignal = (s.waitingQueue v).take n := by
    rw [State.pc_take, Function.update_self, After.toSignal_pc]
    rfl
  have hne : ∀ d, d ≠ c → (s.take c v n).pc d = s.pc d := fun d hd => Function.update_of_ne hd _ _
  have htaken : ∀ w k, k ∈ (s.take c v n).taken w ↔
      k ∈ s.taken w ∨ w = v ∧ k ∈ (s.waitingQueue v).take n := by
    intro w k
    simp only [State.take, Function.update_apply]
    split
    next heq => simp [heq]
    next hwv => simp [hwv]
  have hmem : ∀ k, k ∈ (s.waitingQueue v).take n → k ∈ s.waitingQueue v :=
    fun k => List.mem_of_mem_take
  have hfresh : ∀ d k, k ∈ (s.waitingQueue v).take n → k ∉ (s.pc d).toSignal := by
    intro d k hk hd
    obtain ⟨-, w, hw⟩ := h.unsent d k hd
    exact ho.not_taken (hmem k hk) hw
  constructor
  · intro d e k hd he
    by_cases hdc : d = c
    · by_cases hec : e = c
      · rw [hdc, hec]
      · subst hdc
        rw [hself] at hd
        rw [hne e hec] at he
        exact absurd he (hfresh e k hd)
    · rw [hne d hdc] at hd
      by_cases hec : e = c
      · subst hec
        rw [hself] at he
        exact absurd hd (hfresh d k he)
      · rw [hne e hec] at he
        exact h.once d e k hd he
  · intro d
    by_cases hdc : d = c
    · rw [hdc, hself]
      exact (ho.waitingQueue_nodup v).sublist (List.take_sublist n _)
    · rw [hne d hdc]
      exact h.nodup d
  · intro d k hk
    by_cases hdc : d = c
    · rw [hdc, hself] at hk
      refine ⟨h.untaken k fun w hw => ho.not_taken (hmem k hk) hw, v, ?_⟩
      exact (htaken v k).2 (.inr ⟨rfl, hk⟩)
    · rw [hne d hdc] at hk
      obtain ⟨hz, w, hw⟩ := h.unsent d k hk
      exact ⟨hz, w, (htaken w k).2 (.inl hw)⟩
  · intro w k hk
    rcases (htaken w k).1 hk with hk | ⟨-, hk⟩
    · rcases h.sent w k hk with hone | ⟨d, hd⟩
      · exact .inl hone
      · refine .inr ⟨d, ?_⟩
        rwa [hne d (by rintro rfl; rw [hpc] at hd; cases hd)]
    · exact .inr ⟨c, hself ▸ hk⟩
  · intro k hk
    exact h.untaken k fun w hw => hk w ((htaken w k).2 (.inl hw))

/-- Every effect keeps the order of the queues. -/
theorem Order.effect (h : Order s) (he : Effect s c s') : Order s' := by
  cases he with
  | quiet hq =>
    exact h.congr hq.waits_eq hq.waitingQueue hq.call hq.queued hq.taken hq.made
  | push hpc => exact h.push _ _ _
  | take hpc => exact h.take _ _ _
  | signal hpc =>
    refine h.congr (fun d => ?_) rfl rfl rfl rfl rfl
    rw [State.pc_signalBody, Function.update_apply]
    split
    · exact .inl rfl
    · exact .inr rfl

/-- Every effect keeps the tokens. -/
theorem Tokens.effect (h : Tokens s) (ho : Order s) (he : Effect s c s') : Tokens s' := by
  cases he with
  | quiet hq => exact h.congr hq.toSignal_eq hq.taken hq.signals
  | push hpc => exact h.push hpc
  | take hpc =>
    refine h.take ho ?_
    rcases hpc with ⟨hpc, -⟩ | ⟨hpc, -⟩ <;> rw [hpc] <;> rfl
  | signal hpc => exact h.signal hpc

end

end JLibScheduler.ConditionVariable
