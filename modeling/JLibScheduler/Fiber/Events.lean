import JLibScheduler.Fiber.Wake

/-!
# Direct events and who has them

A direct event belongs to the pool or to one fiber: the fiber takes it from the pool, publishes
itself as the waiter, switches out, and gives the event back when it runs again. `EventPool` is this
life cycle alone: the stage of every fiber, the waiter slots and the free events. The machine of
`Fiber.Basic` refines it (`step_events`): a fiber comes back from its wait only after somebody has
taken it from the waiter slot, which is where the phases of `Fiber.Phase` are used.
-/

namespace JLibScheduler

namespace Fiber

/-- Where a fiber stands with a direct event. -/
inductive Stage (δ : Type) where
  | out
  /-- taken from the pool, the waiter is not published -/
  | held (d : δ)
  /-- the waiter is published, the fiber still runs -/
  | armed (d : δ)
  /-- switched out -/
  | away (d : δ)
  /-- back from the wait, the event is not released -/
  | returned (d : δ)
  deriving DecidableEq, Repr

/-- The event that the fiber has. -/
def Stage.event? {δ : Type} : Stage δ → Option δ
  | .out => none
  | .held d | .armed d | .away d | .returned d => some d

/-- The stage by where the code of a fiber stands. -/
def FiberPc.stage {ε δ : Type} : FiberPc ε δ → Stage δ
  | .dequeued d | .acquired d | .announcedDirect d => .held d
  | .armed (some d) => .armed d
  | .away (some d) => .away d
  | .release d => .returned d
  | _ => .out

/-- The direct events of a state: who has them and who waits on them. -/
structure EventPool (τ δ : Type) where
  stage : τ → Stage δ
  waiter : δ → Option τ
  freeq : List δ

/-- What a step does to the direct events. -/
inductive EventMove (τ δ : Type) where
  | stay
  | acquire (t : τ) (d : δ)
  | publish (t : τ) (d : δ)
  | switchOut (t : τ) (d : δ)
  | comeBack (t : τ) (d : δ)
  | release (t : τ) (d : δ)
  | signal (d : δ)
  deriving DecidableEq, Repr

section
variable {τ δ : Type} [DecidableEq τ] [DecidableEq δ]

/-- The fiber of `t` goes to the stage `g`. -/
def EventPool.setStage (p : EventPool τ δ) (t : τ) (g : Stage δ) : EventPool τ δ :=
  { p with stage := Function.update p.stage t g }

/-- One step of the life cycle. -/
def EventPool.step (p : EventPool τ δ) : EventMove τ δ → Option (EventPool τ δ)
  | .stay => some p
  | .acquire t d =>
    if p.stage t = .out ∧ d ∈ p.freeq then
      some { p.setStage t (.held d) with freeq := p.freeq.erase d }
    else none
  | .publish t d =>
    if p.stage t = .held d then
      some { p.setStage t (.armed d) with waiter := Function.update p.waiter d (some t) }
    else none
  | .switchOut t d => if p.stage t = .armed d then some (p.setStage t (.away d)) else none
  | .comeBack t d =>
    if p.stage t = .away d ∧ p.waiter d ≠ some t then some (p.setStage t (.returned d)) else none
  | .release t d =>
    if p.stage t = .returned d then some { p.setStage t .out with freeq := p.freeq ++ [d] }
    else none
  | .signal d => some { p with waiter := Function.update p.waiter d none }

end

section
variable {τ δ : Type}

/-- Every event is free or with one fiber, and the waiter of an event has it and waits. -/
structure EventPool.Ok (p : EventPool τ δ) : Prop where
  nodup : p.freeq.Nodup
  free : ∀ d ∈ p.freeq, ∀ t, (p.stage t).event? ≠ some d
  own : ∀ t u d, (p.stage t).event? = some d → (p.stage u).event? = some d → t = u
  waiter : ∀ d t, p.waiter d = some t → p.stage t = .armed d ∨ p.stage t = .away d

/-- The waiter of an event is the fiber that has it. -/
theorem EventPool.Ok.waiter_eq {p : EventPool τ δ} (h : p.Ok) {t u : τ} {d : δ}
    (ht : (p.stage t).event? = some d) (hu : p.waiter d = some u) : u = t := by
  refine h.own u t d ?_ ht
  rcases h.waiter d u hu with hu | hu <;> rw [hu] <;> rfl

/-- Before it is published, an event has no waiter. -/
theorem EventPool.Ok.waiter_held {p : EventPool τ δ} (h : p.Ok) {t : τ} {d : δ}
    (ht : p.stage t = .held d) : p.waiter d = none := by
  cases hu : p.waiter d with
  | none => rfl
  | some u =>
    obtain rfl := h.waiter_eq (by rw [ht]; rfl) hu
    rcases h.waiter d u hu with hu | hu <;> rw [ht] at hu <;> cases hu

/-- The life cycle keeps the events apart. -/
theorem EventPool.Ok.step [DecidableEq τ] [DecidableEq δ] {p p' : EventPool τ δ} (h : p.Ok)
    {l : EventMove τ δ} (hs : p.step l = some p') : p'.Ok := by
  have hheld (t : τ) (d : δ) := h.waiter_held (t := t) (d := d)
  obtain ⟨hnodup, hfree, hown, hwaiter⟩ := h
  cases l with
  | stay =>
    cases hs
    exact ⟨hnodup, hfree, hown, hwaiter⟩
  | signal d =>
    cases hs
    refine ⟨hnodup, hfree, hown, fun e t ht => ?_⟩
    rcases Update.eq_cases ht with ⟨-, hnone⟩ | ⟨-, ht⟩
    · cases hnone
    · exact hwaiter e t ht
  | acquire t d | publish t d | switchOut t d | comeBack t d | release t d =>
    simp only [EventPool.step, Option.ite_none_right_eq_some, Option.some.injEq] at hs
    obtain ⟨hc, rfl⟩ := hs
    constructor <;> simp only [EventPool.setStage, Function.update_apply] <;>
      grind [Stage.event?, List.nodup_append, List.Nodup.mem_erase_iff, List.Nodup.erase]

end

section
variable {τ ε δ ω ι : Type}

/-- The direct events of a state of the fibers. -/
def State.events (s : State τ ε δ ω ι) : EventPool τ δ where
  stage t := (s.fiber t).pc.stage
  waiter := s.waiter
  freeq := s.freeq

theorem EventPool.Ok.init {pool : List δ} (hpool : pool.Nodup) :
    (Fiber.init pool : State τ ε δ ω ι).events.Ok where
  nodup := hpool
  free d hd t h := by cases h
  own t u d h := by cases h
  waiter d t h := by cases h

/-- What a step of the fiber of `t` does to the direct events. -/
def fiberMove (pc : FiberPc ε δ) (m : Move ε δ) (t : τ) : EventMove τ δ :=
  match pc, m with
  | .body, .waitOnEventDirect d => .acquire t d
  | .announcedDirect d, .next => .publish t d
  | .armed (some d), .next => .switchOut t d
  | .release d, .next => .release t d
  | _, _ => .stay

/-- What the switch to the fiber of `t` does to the direct events. -/
def continueMove (pc : FiberPc ε δ) (t : τ) : EventMove τ δ :=
  match pc with
  | .away (some d) => .comeBack t d
  | _ => .stay

/-- What a step of the fibers does to the direct events. -/
def eventMove (s : State τ ε δ ω ι) : Act τ ε δ ω ι → EventMove τ δ
  | .fiber w m =>
    match s.worker w with
    | .on t => fiberMove (s.fiber t).pc m t
    | _ => .stay
  | .worker w =>
    match s.worker w with
    | .picked t => continueMove (s.fiber t).pc t
    | _ => .stay
  | .signalDirect _ d => .signal d
  | _ => .stay

end

section
variable {τ ε δ ω ι : Type} [DecidableEq τ] {s s' : State τ ε δ ω ι} {t : τ} {f : FiberState ε δ}

/-- The direct events after the fiber of `t` moved. -/
theorem eq_events {p : EventPool τ δ} (hf : s'.fiber = Function.update s.fiber t f)
    (hstage : p.stage = Function.update s.events.stage t f.pc.stage) (hw : p.waiter = s'.waiter)
    (hq : p.freeq = s'.freeq) : p = s'.events := by
  have hstage' : s'.events.stage = Function.update s.events.stage t f.pc.stage := by
    funext u
    simp only [State.events, hf]
    by_cases hu : u = t
    · subst hu; rw [Function.update_self, Function.update_self]
    · rw [Function.update_of_ne hu, Function.update_of_ne hu]
  obtain ⟨stage, waiter, freeq⟩ := p
  cases hw
  cases hq
  cases hstage.trans hstage'.symm
  rfl

/-- The direct events do not change with a fiber whose stage stays. -/
theorem eq_events_stay (hf : s'.fiber = Function.update s.fiber t f)
    (hstage : f.pc.stage = (s.fiber t).pc.stage) (hw : s.waiter = s'.waiter)
    (hq : s.freeq = s'.freeq) : s.events = s'.events := by
  refine eq_events hf ?_ hw hq
  rw [hstage]
  exact (Function.update_eq_self t _).symm

end

section
variable {τ ε δ ω ι : Type} [DecidableEq τ] [DecidableEq δ] [DecidableEq ω]
  {s s' : State τ ε δ ω ι} {ph : τ → Phase ε δ ω ι}

/-- A step of a worker is a step of the life cycle: a fiber that it continues is in no waiter
slot. -/
theorem workerStep_events (h : Inv s ph) {w : ω} (hs : Fiber.workerStep s w = some s') :
    s.events.step (eventMove s (.worker w : Act τ ε δ ω ι)) = some s'.events := by
  have hworker := h.worker w
  revert hs
  fun_cases Fiber.workerStep s w with
  | case1 t hw f =>
    rintro ⟨⟩
    rw [hw] at hworker
    have hph : ph t = .picked w := hworker
    have hmove : eventMove s (.worker w : Act τ ε δ ω ι) = continueMove (s.fiber t).pc t := by
      simp only [eventMove, hw]
    rw [hmove]
    have htask := h.task t
    rw [hph] at htask
    obtain ⟨-, r, hr⟩ := htask
    rw [hr]
    cases r with
    | none =>
      refine congrArg some (eq_events_stay (t := t) rfl ?_ rfl rfl)
      simp only [hr]
      rfl
    | some d =>
      have hstage : s.events.stage t = .away d := by simp only [State.events, hr, FiberPc.stage]
      have hslot : s.events.waiter d ≠ some t := by
        intro hd
        have hreg := h.waiter d t hd
        rw [hph] at hreg
        cases hreg
      exact (if_pos ⟨hstage, hslot⟩).trans
        (congrArg some (eq_events (s := s) (t := t) rfl rfl rfl rfl))
  | case2 t k pc hw f v pc' hv =>
    rintro ⟨⟩
    have hmove : eventMove s (.worker w : Act τ ε δ ω ι) = .stay := by simp only [eventMove, hw]
    rw [hmove]
    exact congrArg some (eq_events_stay (t := t) rfl rfl rfl rfl)
  | case3 => simp

end

section
variable {τ ε δ ω ι : Type} [DecidableEq τ] [DecidableEq ε] [DecidableEq δ] [DecidableEq ω]
  {s s' : State τ ε δ ω ι} {ph : τ → Phase ε δ ω ι}

/-- A step of a running fiber is a step of the life cycle of its event. -/
theorem fiberStep_events (he : s.events.Ok) {w : ω} {t : τ} {m : Move ε δ}
    (hs : Fiber.fiberStep s w t m = some s') :
    s.events.step (fiberMove (s.fiber t).pc m t) = some s'.events := by
  revert hs
  fun_cases Fiber.fiberStep s w t m with
  | case1 f e hpc | case2 f e hpc | case6 f d hpc | case9 f hpc | case10 f hpc | case11 f hpc =>
    rintro ⟨⟩
    have hpc : (s.fiber t).pc = _ := hpc
    rw [hpc]
    refine congrArg some (eq_events_stay (t := t) rfl ?_ rfl rfl)
    rw [hpc]; rfl
  | case3 f d hpc hd =>
    rintro ⟨⟩
    have hpc : (s.fiber t).pc = _ := hpc
    have hstage : s.events.stage t = .out := by simp only [State.events, hpc, FiberPc.stage]
    rw [hpc]
    exact (if_pos ⟨hstage, hd⟩).trans (congrArg some (eq_events (s := s) (t := t) rfl rfl rfl rfl))
  | case4 f d hpc hd => simp
  | case5 f d hpc =>
    rintro ⟨⟩
    have hpc : (s.fiber t).pc = _ := hpc
    have hnone := he.waiter_held (t := t) (d := d) (by simp only [State.events, hpc, FiberPc.stage])
    have hwaiter : Function.update s.waiter d none = s.waiter := by
      rw [Function.update_eq_self_iff]
      exact hnone.symm
    rw [hpc]
    refine congrArg some (eq_events_stay (t := t) rfl ?_ hwaiter.symm rfl)
    rw [hpc]; rfl
  | case7 f d hpc =>
    rintro ⟨⟩
    have hpc : (s.fiber t).pc = _ := hpc
    have hstage : s.events.stage t = .held d := by simp only [State.events, hpc, FiberPc.stage]
    rw [hpc]
    exact (if_pos hstage).trans (congrArg some (eq_events (s := s) (t := t) rfl rfl rfl rfl))
  | case8 f r hpc =>
    rintro ⟨⟩
    have hpc : (s.fiber t).pc = _ := hpc
    rw [hpc]
    cases r with
    | none =>
      refine congrArg some (eq_events_stay (t := t) rfl ?_ rfl rfl)
      rw [hpc]; rfl
    | some d =>
      have hstage : s.events.stage t = .armed d := by simp only [State.events, hpc, FiberPc.stage]
      exact (if_pos hstage).trans (congrArg some (eq_events (s := s) (t := t) rfl rfl rfl rfl))
  | case12 f d hpc =>
    rintro ⟨⟩
    have hpc : (s.fiber t).pc = _ := hpc
    have hstage : s.events.stage t = .returned d := by
      simp only [State.events, hpc, FiberPc.stage]
    rw [hpc]
    exact (if_pos hstage).trans (congrArg some (eq_events (s := s) (t := t) rfl rfl rfl rfl))
  | case13 => simp

/-- Every step of the fibers is a step of the life cycle of the direct events. -/
theorem step_events [DecidableEq ι] (h : Inv s ph) (he : s.events.Ok) {a : Act τ ε δ ω ι}
    (hs : Fiber.step s a = some s') : s.events.step (eventMove s a) = some s'.events := by
  cases a with
  | push t =>
    simp only [Fiber.step, Option.ite_none_right_eq_some, Option.some.injEq] at hs
    obtain ⟨hpc, rfl⟩ := hs
    refine congrArg some (eq_events_stay (t := t) rfl ?_ rfl rfl)
    rw [hpc]; rfl
  | pick w t =>
    simp only [Fiber.step, Option.ite_none_right_eq_some, Option.some.injEq] at hs
    obtain ⟨-, rfl⟩ := hs
    rfl
  | fiber w m =>
    simp only [Fiber.step] at hs
    split at hs
    case h_1 t ht =>
      simp only [eventMove, ht]
      exact fiberStep_events he hs
    case h_2 => cases hs
  | worker w => exact workerStep_events h hs
  | signal i e t =>
    simp only [Fiber.step, Option.ite_none_right_eq_some] at hs
    obtain ⟨-, hs⟩ := hs
    split at hs <;> cases hs <;> rfl
  | signalAll i e order =>
    simp only [Fiber.step, Option.ite_none_right_eq_some, Option.some.injEq] at hs
    obtain ⟨-, rfl⟩ := hs
    rfl
  | signalDirect i d =>
    simp only [Fiber.step, Option.ite_none_right_eq_some] at hs
    obtain ⟨-, hs⟩ := hs
    split at hs
    case h_1 t ht => cases hs; rfl
    case h_2 hnone =>
      cases hs
      have hwaiter : Function.update s.waiter d none = s.waiter := by
        rw [Function.update_eq_self_iff]
        exact hnone.symm
      simp only [eventMove, EventPool.step, State.events, hwaiter]
  | resume i =>
    revert hs
    simp only [Fiber.step]
    fun_cases Fiber.resumeStep s i with
    | case1 => simp
    | case2 t k rest pc hsig f v pc' hv =>
      rintro ⟨⟩
      exact congrArg some (eq_events_stay (t := t) rfl rfl rfl rfl)

/-- The direct events are apart in every state that some interleaving reaches. -/
theorem EventPool.Ok.fibers [DecidableEq ι] (h : Inv s ph) (he : s.events.Ok)
    {a : Act τ ε δ ω ι} (hs : Fiber.step s a = some s') : s'.events.Ok :=
  he.step (step_events h he hs)

end

end Fiber

end JLibScheduler
