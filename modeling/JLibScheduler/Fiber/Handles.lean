import JLibScheduler.Fiber.Events

/-!
# Signals through the handles of direct events

The callback `arm` of `WaitOnEventDirectArmed` gets the address of the direct event, and whoever it
hands this address to calls `DirectEvent::Signal` on it as often as it likes. The event goes back to
the pool when the fiber runs again, while the address stays with the signaler. Here the machine of
`Fiber.Basic` signals direct events only through such handles. A signal through a handle wakes the
wait that the handle was made for as long as this wait has the event or nobody waits on it
(`ownWakes_iff`); it wakes somebody else's wait once the event is armed again
(`not_ownWakes_reused`).
-/

namespace JLibScheduler

namespace Fiber

/-- The event that `arm` was called with, and the wait that called it (history only: a signaler has
the address of the event). -/
structure Handle (τ δ : Type) where
  task : τ
  wait : ℕ
  event : δ
  deriving DecidableEq, Repr

/-- The fibers with the handles that were given to signalers, and the wake-ups that signals through
handles have caused: the wait of the handle and the wait whose task was resumed (history only). -/
structure HandleState (τ ε δ ω ι : Type) where
  fibers : State τ ε δ ω ι
  given : List (Handle τ δ)
  woken : List ((τ × ℕ) × (τ × ℕ))

/-- A step of the fibers, of the workers or of a `Resume` call, or `Signal` through a handle. -/
inductive HandleAct (τ ε δ ω ι : Type) where
  | fibers (a : Act τ ε δ ω ι)
  | signal (i : ι) (h : Handle τ δ)
  deriving DecidableEq, Repr

section
variable {τ ε δ ω ι : Type}

/-- The handle that a step gives away: `arm(e)`, right after the waiter is published. -/
def armedBy (s : State τ ε δ ω ι) : Act τ ε δ ω ι → Option (Handle τ δ)
  | .fiber w .next =>
    match s.worker w with
    | .on t =>
      match (s.fiber t).pc with
      | .announcedDirect d => some ⟨t, (s.fiber t).waits, d⟩
      | _ => none
    | _ => none
  | _ => none

/-- No handle is given away and nothing is woken. -/
def HandleState.init (pool : List δ) : HandleState τ ε δ ω ι := ⟨Fiber.init pool, [], []⟩

/-- Every wake-up through a handle is one of the handle's own wait, and no wait is woken twice
through its handle. -/
def HandleState.OwnWakes (s : HandleState τ ε δ ω ι) : Prop :=
  (∀ p ∈ s.woken, p.2 = p.1) ∧ (s.woken.map Prod.fst).Nodup

/-- A signal comes through the handle of a wait that still has its event, or finds nobody waiting
on the event. -/
def HandleState.Current (s : HandleState τ ε δ ω ι) : HandleAct τ ε δ ω ι → Prop
  | .signal _ h => s.fibers.waiter h.event = none ∨
      (s.fibers.events.stage h.task).event? = some h.event ∧ (s.fibers.fiber h.task).waits = h.wait
  | .fibers _ => True

end

section
variable {τ ε δ ω ι : Type} [DecidableEq τ] [DecidableEq ε] [DecidableEq δ] [DecidableEq ω]
  [DecidableEq ι]

/-- One step; a direct event is signaled through a handle that was given away. -/
def HandleState.step (s : HandleState τ ε δ ω ι) :
    HandleAct τ ε δ ω ι → Option (HandleState τ ε δ ω ι)
  | .fibers (.signalDirect _ _) => none
  | .fibers a =>
    (Fiber.step s.fibers a).map fun s' =>
      { s with fibers := s', given := (armedBy s.fibers a).toList ++ s.given }
  | .signal i h =>
    if h ∈ s.given then
      (Fiber.step s.fibers (.signalDirect i h.event)).map fun s' =>
        { s with
          fibers := s'
          woken := ((s.fibers.waiter h.event).toList.map fun u =>
            ((h.task, h.wait), (u, (s.fibers.fiber u).waits))) ++ s.woken }
    else none

end

/-! ## What a step does to the waits -/

section
variable {τ ε δ ω ι : Type}

/-- A step begins a wait of a fiber, or its waits stay and it announces no further one. -/
def WaitsStep (f f' : FiberState ε δ) : Prop :=
  f'.waits = f.waits + 1 ∨
    f'.waits = f.waits ∧ ∀ d, f'.pc = .announcedDirect d → f.pc = .announcedDirect d

theorem WaitsStep.refl (f : FiberState ε δ) : WaitsStep f f := .inr ⟨rfl, fun _ h => h⟩

/-- When one fiber moves, it is enough to look at that one. -/
theorem WaitsStep.update [DecidableEq τ] {s s' : State τ ε δ ω ι} {t : τ} {f : FiberState ε δ}
    (hf : s'.fiber = Function.update s.fiber t f) (h : WaitsStep (s.fiber t) f) (u : τ) :
    WaitsStep (s.fiber u) (s'.fiber u) := by
  rw [hf]
  by_cases hu : u = t
  · subst hu
    rwa [Function.update_self]
  · rw [Function.update_of_ne hu]
    exact .refl _

/-- The fiber that a worker continues does not announce a wait by that. -/
theorem FiberPc.continue_eq_announcedDirect {pc : FiberPc ε δ} {d : δ}
    (h : pc.continue = .announcedDirect d) : pc = .announcedDirect d := by
  cases pc with
  | away r => cases r <;> cases h
  | _ => exact h

end

section
variable {τ ε δ ω ι : Type} [DecidableEq τ] [DecidableEq ε] [DecidableEq δ] [DecidableEq ω]
  {s s' : State τ ε δ ω ι}

theorem fiberStep_waits {w : ω} {t : τ} {m : Move ε δ} (hs : Fiber.fiberStep s w t m = some s')
    (u : τ) : WaitsStep (s.fiber u) (s'.fiber u) := by
  revert hs
  fun_cases Fiber.fiberStep s w t m with
  | case1 f e hpc | case6 f d hpc =>
    rintro ⟨⟩
    exact .update rfl (.inl rfl) u
  | case2 f e hpc | case3 f d hpc hd | case5 f d hpc | case7 f d hpc | case8 f r hpc | case9 f hpc
    | case10 f hpc | case11 f hpc | case12 f d hpc =>
    rintro ⟨⟩
    refine .update (t := t) rfl (.inr ⟨?_, ?_⟩) u
    · rfl
    · rintro d ⟨⟩
  | case4 | case13 => simp

omit [DecidableEq ε] [DecidableEq δ] in
theorem workerStep_waits {w : ω} (hs : Fiber.workerStep s w = some s') (u : τ) :
    WaitsStep (s.fiber u) (s'.fiber u) := by
  revert hs
  fun_cases Fiber.workerStep s w with
  | case1 t hw f =>
    rintro ⟨⟩
    refine .update (t := t) rfl (.inr ⟨?_, ?_⟩) u
    · rfl
    · exact fun d => FiberPc.continue_eq_announcedDirect
  | case2 t k pc hw f v pc' hv =>
    rintro ⟨⟩
    refine .update (t := t) rfl (.inr ⟨?_, ?_⟩) u
    · rfl
    · exact fun d h => h
  | case3 => simp

variable [DecidableEq ι]

/-- What a step of the fibers does to the waits of each. -/
theorem step_waits {a : Act τ ε δ ω ι} (hs : Fiber.step s a = some s') (u : τ) :
    WaitsStep (s.fiber u) (s'.fiber u) := by
  cases a with
  | push t =>
    simp only [Fiber.step, Option.ite_none_right_eq_some, Option.some.injEq] at hs
    obtain ⟨-, rfl⟩ := hs
    refine .update (t := t) rfl (.inr ⟨?_, ?_⟩) u
    · rfl
    · rintro d ⟨⟩
  | pick w t =>
    simp only [Fiber.step, Option.ite_none_right_eq_some, Option.some.injEq] at hs
    obtain ⟨-, rfl⟩ := hs
    exact .refl _
  | fiber w m =>
    simp only [Fiber.step] at hs
    split at hs
    case h_1 t ht => exact fiberStep_waits hs u
    case h_2 => cases hs
  | worker w => exact workerStep_waits hs u
  | signal i e t =>
    simp only [Fiber.step, Option.ite_none_right_eq_some] at hs
    obtain ⟨-, hs⟩ := hs
    split at hs <;> cases hs <;> exact .refl _
  | signalAll i e order =>
    simp only [Fiber.step, Option.ite_none_right_eq_some, Option.some.injEq] at hs
    obtain ⟨-, rfl⟩ := hs
    exact .refl _
  | signalDirect i d =>
    simp only [Fiber.step, Option.ite_none_right_eq_some] at hs
    obtain ⟨-, hs⟩ := hs
    split at hs <;> cases hs <;> exact .refl _
  | resume i =>
    revert hs
    simp only [Fiber.step]
    fun_cases Fiber.resumeStep s i with
    | case1 => simp
    | case2 t k rest pc hsig f v pc' hv =>
      rintro ⟨⟩
      refine .update (t := t) rfl (.inr ⟨?_, ?_⟩) u
      · rfl
      · exact fun d h => h

/-- A waiter was there before the step, or its fiber published itself. -/
theorem step_waiter {a : Act τ ε δ ω ι} (hs : Fiber.step s a = some s') {d : δ} {u : τ}
    (hd : s'.waiter d = some u) : s.waiter d = some u ∨ (s.fiber u).pc = .announcedDirect d := by
  cases a with
  | push t | pick w t | signalAll i e order =>
    simp only [Fiber.step, Option.ite_none_right_eq_some, Option.some.injEq] at hs
    obtain ⟨-, rfl⟩ := hs
    exact .inl hd
  | fiber w m =>
    simp only [Fiber.step] at hs
    split at hs
    case h_2 => cases hs
    case h_1 t ht =>
      revert hs
      fun_cases Fiber.fiberStep s w t m with
      | case5 f e hpc =>
        rintro ⟨⟩
        rcases Update.eq_cases hd with ⟨-, hnone⟩ | ⟨-, hd⟩
        · cases hnone
        · exact .inl hd
      | case7 f e hpc =>
        rintro ⟨⟩
        rcases Update.eq_cases hd with ⟨rfl, hsome⟩ | ⟨-, hd⟩
        · cases hsome
          exact .inr hpc
        · exact .inl hd
      | case4 | case13 => simp
      | _ =>
        rintro ⟨⟩
        exact .inl hd
  | worker w =>
    revert hs
    simp only [Fiber.step]
    fun_cases Fiber.workerStep s w with
    | case1 | case2 =>
      rintro ⟨⟩
      exact .inl hd
    | case3 => simp
  | signal i e t =>
    simp only [Fiber.step, Option.ite_none_right_eq_some] at hs
    obtain ⟨-, hs⟩ := hs
    split at hs <;> cases hs <;> exact .inl hd
  | signalDirect i e =>
    simp only [Fiber.step, Option.ite_none_right_eq_some] at hs
    obtain ⟨-, hs⟩ := hs
    split at hs <;> cases hs
    · rcases Update.eq_cases hd with ⟨-, hnone⟩ | ⟨-, hd⟩
      · cases hnone
      · exact .inl hd
    · exact .inl hd
  | resume i =>
    revert hs
    simp only [Fiber.step]
    fun_cases Fiber.resumeStep s i with
    | case1 => simp
    | case2 =>
      rintro ⟨⟩
      exact .inl hd

end

/-! ## The waits that were woken -/

section
variable {τ ε δ ω ι : Type}

/-- The waits `l` have begun, and none of them is announced or published now. -/
structure Over (s : State τ ε δ ω ι) (l : List (τ × ℕ)) : Prop where
  begun : ∀ u k, (u, k) ∈ l → k ≤ (s.fiber u).waits
  announced : ∀ u d, (s.fiber u).pc = .announcedDirect d → (u, (s.fiber u).waits) ∉ l
  waiting : ∀ u d, s.waiter d = some u → (u, (s.fiber u).waits) ∉ l

/-- What holds in every state that some interleaving reaches. -/
structure HandleInv [DecidableEq τ] (s : HandleState τ ε δ ω ι) : Prop where
  fibers : ∃ ph, Inv s.fibers ph
  events : s.fibers.events.Ok
  ended : Over s.fibers (s.woken.map Prod.snd)
  once : (s.woken.map Prod.snd).Nodup

end

section
variable {τ ε δ ω ι : Type} [DecidableEq τ] [DecidableEq ε] [DecidableEq δ] [DecidableEq ω]
  [DecidableEq ι] {s s' : State τ ε δ ω ι} {l : List (τ × ℕ)}

/-- A wait that is over stays so: the next wait of its fiber has another number. -/
theorem Over.step (h : Over s l) {a : Act τ ε δ ω ι} (hs : Fiber.step s a = some s') :
    Over s' l where
  begun u k hk := by
    have hle := h.begun u k hk
    rcases step_waits hs u with hw | ⟨hw, -⟩ <;> omega
  announced u d hd hmem := by
    rcases step_waits hs u with hw | ⟨hw, hpc⟩
    · have hle := h.begun u _ hmem
      omega
    · rw [hw] at hmem
      exact h.announced u d (hpc d hd) hmem
  waiting u d hd hmem := by
    rcases step_waits hs u with hw | ⟨hw, -⟩
    · have hle := h.begun u _ hmem
      omega
    · rw [hw] at hmem
      rcases step_waiter hs hd with hd | hpc
      · exact h.waiting u d hd hmem
      · exact h.announced u d hpc hmem

/-- What `Signal` on an event does before its `Resume`: it empties the slot. -/
theorem step_signalDirect {i : ι} {d : δ} (hs : Fiber.step s (.signalDirect i d) = some s') :
    s'.fiber = s.fiber ∧ s'.waiter = Function.update s.waiter d none := by
  simp only [Fiber.step, Option.ite_none_right_eq_some] at hs
  obtain ⟨-, hs⟩ := hs
  split at hs
  case h_1 t ht =>
    cases hs
    exact ⟨rfl, rfl⟩
  case h_2 hnone =>
    cases hs
    exact ⟨rfl, ((Function.update_eq_self_iff).2 hnone.symm).symm⟩

/-- The wait that a `Signal` wakes is over then: its fiber waits on no other event. -/
theorem Over.signal (h : Over s l) (he : s.events.Ok) {i : ι} {d : δ} {u : τ}
    (hd : s.waiter d = some u) (hs : Fiber.step s (.signalDirect i d) = some s') :
    Over s' ((u, (s.fiber u).waits) :: l) := by
  have hstep := h.step hs
  obtain ⟨hfiber, hwaiter⟩ := step_signalDirect hs
  refine ⟨fun v k hk => ?_, fun v e hv hmem => ?_, fun v e hv hmem => ?_⟩
  · rcases List.mem_cons.1 hk with heq | hk
    · cases heq
      rw [hfiber]
    · exact hstep.begun v k hk
  · rcases List.mem_cons.1 hmem with heq | hmem
    · obtain ⟨rfl, -⟩ := Prod.mk.inj heq
      rw [hfiber] at hv
      rcases he.waiter d v hd with hg | hg <;> simp [State.events, hv, FiberPc.stage] at hg
    · exact hstep.announced v e hv hmem
  · rcases List.mem_cons.1 hmem with heq | hmem
    · obtain ⟨rfl, -⟩ := Prod.mk.inj heq
      rw [hwaiter] at hv
      obtain ⟨-, hnone⟩ | ⟨hne, hv⟩ := Update.eq_cases hv
      · cases hnone
      · -- its fiber has the event that is signaled, so it has no other one
        rcases he.waiter d v hd with hg | hg <;> rcases he.waiter e v hv with hg' | hg' <;>
          rw [hg] at hg' <;> cases hg' <;> exact hne rfl
    · exact hstep.waiting v e hv hmem

end

section
variable {τ ε δ ω ι : Type} [DecidableEq τ] [DecidableEq ε] [DecidableEq δ] [DecidableEq ω]
  [DecidableEq ι] {s s' : HandleState τ ε δ ω ι} {a : HandleAct τ ε δ ω ι}

/-- What a step is: one of the fibers that wakes nothing, or a `Signal` through a handle. -/
theorem HandleState.step_cases (hs : s.step a = some s') :
    (∃ b, a = .fibers b ∧ Fiber.step s.fibers b = some s'.fibers ∧ s'.woken = s.woken) ∨
    ∃ i h, a = .signal i h ∧
      Fiber.step s.fibers (.signalDirect i h.event) = some s'.fibers ∧
      s'.woken = ((s.fibers.waiter h.event).toList.map fun u =>
        ((h.task, h.wait), (u, (s.fibers.fiber u).waits))) ++ s.woken := by
  revert hs
  fun_cases HandleState.step s a with
  | case1 => simp
  | case2 b hb =>
    simp only [Option.map_eq_some_iff]
    rintro ⟨b', hb', rfl⟩
    exact .inl ⟨b, rfl, hb', rfl⟩
  | case3 i h hgiven =>
    simp only [Option.map_eq_some_iff]
    rintro ⟨b', hb', rfl⟩
    exact .inr ⟨i, h, rfl, hb', rfl⟩
  | case4 => simp

omit [DecidableEq ε] [DecidableEq ω] [DecidableEq ι] in
theorem HandleInv.init (n : ℕ) :
    HandleInv (HandleState.init (List.finRange n) : HandleState τ ε (Fin n) ω ι) where
  fibers := ⟨_, Inv.init _⟩
  events := EventPool.Ok.init (List.nodup_finRange n)
  ended := ⟨by simp [HandleState.init], by simp [HandleState.init], by simp [HandleState.init]⟩
  once := List.nodup_nil

theorem HandleInv.step (h : HandleInv s) (hs : s.step a = some s') : HandleInv s' := by
  obtain ⟨ph, hph⟩ := h.fibers
  rcases HandleState.step_cases hs with ⟨b, -, hb, hwoken⟩ | ⟨i, g, -, hb, hwoken⟩
  · exact ⟨hph.step hb, h.events.fibers hph hb, hwoken ▸ h.ended.step hb, hwoken ▸ h.once⟩
  · cases hd : s.fibers.waiter g.event with
    | none =>
      rw [hd] at hwoken
      exact ⟨hph.step hb, h.events.fibers hph hb, hwoken ▸ h.ended.step hb, hwoken ▸ h.once⟩
    | some u =>
      rw [hd] at hwoken
      have hsnd : s'.woken.map Prod.snd =
          (u, (s.fibers.fiber u).waits) :: s.woken.map Prod.snd := by rw [hwoken]; rfl
      refine ⟨hph.step hb, h.events.fibers hph hb, ?_, ?_⟩ <;> rw [hsnd]
      · exact h.ended.signal h.events hd hb
      · exact List.nodup_cons.2 ⟨h.ended.waiting u _ hd, h.once⟩

omit [DecidableEq ε] [DecidableEq δ] [DecidableEq ω] [DecidableEq ι] in
/-- No wait is woken twice at all, so wake-ups of the right waits are wake-ups at most once. -/
theorem HandleInv.ownWakes_iff_woken (h : HandleInv s) : s.OwnWakes ↔ ∀ p ∈ s.woken, p.2 = p.1 := by
  refine ⟨And.left, fun heq => ⟨heq, ?_⟩⟩
  rw [← List.map_congr_left heq]
  exact h.once

/-- A wake-up through a handle is one of the wait that has the event. -/
theorem HandleInv.step_equal (h : HandleInv s) (hs : s.step a = some s') :
    (∀ p ∈ s'.woken, p.2 = p.1) ↔ (∀ p ∈ s.woken, p.2 = p.1) ∧ s.Current a := by
  rcases HandleState.step_cases hs with ⟨b, rfl, -, hwoken⟩ | ⟨i, g, rfl, -, hwoken⟩
  · rw [hwoken]
    exact (and_iff_left trivial).symm
  · cases hd : s.fibers.waiter g.event with
    | none =>
      rw [hd] at hwoken
      rw [hwoken]
      exact (and_iff_left (.inl hd)).symm
    | some u =>
      rw [hd] at hwoken
      have hcur : s.Current (.signal i g) ↔ (u, (s.fibers.fiber u).waits) = (g.task, g.wait) := by
        refine ⟨fun hcur => ?_, fun heq => ?_⟩
        · rcases hcur with hnone | ⟨hstage, hwaits⟩
          · rw [hd] at hnone
            cases hnone
          · obtain rfl := h.events.waiter_eq hstage hd
            rw [hwaits]
        · obtain ⟨rfl, hwaits⟩ := Prod.mk.inj heq
          refine .inr ⟨?_, hwaits⟩
          rcases h.events.waiter _ _ hd with hg | hg <;> rw [hg] <;> rfl
      rw [hwoken, hcur, and_comm]
      exact List.forall_mem_cons

end

section
variable {τ ε ω ι : Type} [DecidableEq τ] [DecidableEq ε] [DecidableEq ω] [DecidableEq ι]

/-- In every interleaving of waits over a pool of any number of events and of signalers that signal
through their handles as often as they like, the signals wake only the waits of their handles, each
at most once, exactly when every signal comes through the handle of a wait that still has its event
or finds nobody waiting. -/
theorem ownWakes_iff (n : ℕ) {as : List (HandleAct τ ε (Fin n) ω ι)}
    {s : HandleState τ ε (Fin n) ω ι}
    (hrun : Lts.run HandleState.step (.init (List.finRange n)) as = some s) :
    s.OwnWakes ↔ ∀ p ∈ Lts.visits HandleState.step (.init (List.finRange n)) as,
      HandleState.Current p.1 p.2 := by
  have hinv : HandleInv s := Lts.run_inv (fun h hs => h.step hs) (.init n) hrun
  rw [hinv.ownWakes_iff_woken, Lts.run_iff (P := fun s => ∀ p ∈ s.woken, p.2 = p.1)
    (G := HandleState.Current) (fun h hs => HandleInv.step h hs)
    (fun h hs => HandleInv.step_equal h hs) (.init n) hrun]
  exact and_iff_right (by simp [HandleState.init])

end

/-- Task 0 waits and is woken through its handle; it releases the event and finishes. Task 1 takes
the same event and waits, and the signaler of task 0 signals once more. -/
def reusedRun : List (HandleAct (Fin 2) Unit (Fin 1) Unit Unit) :=
  [.fibers (.push 0), .fibers (.pick () 0), .fibers (.worker ()),
    .fibers (.fiber () (.waitOnEventDirect 0)), .fibers (.fiber () .next),
    .fibers (.fiber () .next),
    .fibers (.fiber () .next), .fibers (.fiber () .next), .fibers (.worker ()),
    .fibers (.worker ()),
    .signal () ⟨0, 1, 0⟩, .fibers (.resume ()), .fibers (.resume ()), .fibers (.resume ()),
    .fibers (.pick () 0), .fibers (.worker ()), .fibers (.fiber () .next),
    .fibers (.fiber () .finish), .fibers (.fiber () .next), .fibers (.worker ()),
    .fibers (.worker ()), .fibers (.push 1), .fibers (.pick () 1), .fibers (.worker ()),
    .fibers (.fiber () (.waitOnEventDirect 0)), .fibers (.fiber () .next),
    .fibers (.fiber () .next),
    .fibers (.fiber () .next), .signal () ⟨0, 1, 0⟩]

/-- The second signal wakes the wait of task 1. -/
theorem not_ownWakes_reused : ¬ ∀ (as : List (HandleAct (Fin 2) Unit (Fin 1) Unit Unit)) s,
    Lts.run HandleState.step (.init (List.finRange 1)) as = some s → s.OwnWakes := by
  intro h
  have hrun := h reusedRun _ (Option.some_get (by decide)).symm
  exact absurd (hrun.1 ((0, 1), (1, 1)) (by decide)) (by decide)

/-- In the run up to its first wake-up, with a second signal right after it, task 0 is woken once
and both signals come while it has the event. -/
theorem ownWakes_iff_twice : ∃ s : HandleState (Fin 2) Unit (Fin 1) Unit Unit,
    Lts.run HandleState.step (.init (List.finRange 1))
      (reusedRun.take 14 ++ [.signal () ⟨0, 1, 0⟩]) = some s ∧ s.woken = [((0, 1), (0, 1))] ∧
    ∀ p ∈ Lts.visits HandleState.step (.init (List.finRange 1))
      (reusedRun.take 14 ++ [.signal () ⟨0, 1, 0⟩]),
      HandleState.Current (τ := Fin 2) (ε := Unit) (δ := Fin 1) (ω := Unit) (ι := Unit)
        p.1 p.2 := by
  obtain ⟨s, hrun, hwoken⟩ : ∃ s : HandleState (Fin 2) Unit (Fin 1) Unit Unit,
      Lts.run HandleState.step (.init (List.finRange 1))
        (reusedRun.take 14 ++ [.signal () ⟨0, 1, 0⟩]) = some s ∧ s.woken = [((0, 1), (0, 1))] :=
    ⟨_, (Option.some_get (by decide)).symm, by decide⟩
  refine ⟨s, hrun, hwoken, (ownWakes_iff 1 hrun).1 ⟨?_, ?_⟩⟩ <;> rw [hwoken] <;> decide

end Fiber

end JLibScheduler
