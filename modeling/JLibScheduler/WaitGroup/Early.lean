import JLibScheduler.Fiber.Events
import JLibScheduler.WaitGroup.Waiters

/-!
# No early wake-up by a wait group

A fiber returns from `WaitFor` when its event was signaled, by its own callback that found the count
zero or by a completer that took the event from the set. That completer saw the count become zero
before it locked the mutex, and takes whatever is in the set then: a fiber that registered in
between, with new tasks counted, is woken too early (`earlyRun`). In every run in which no callback
registers in between, a fiber that returns has seen the count zero during its call (`waitFor_zero`).

`Located` follows every event that is to be signaled to the one place where it is, so that a signal
meets the wait it is for; `ZeroOk` says who has seen the count zero.
-/

namespace JLibScheduler.WaitGroup

open JLibScheduler.Fiber (EventMove EventPool Stage)

/-- Where an event that is to be signaled is. -/
inductive Loc (τ ι : Type) where
  | arm (t : τ)
  | set
  | completer (i : ι)
  deriving DecidableEq

/-- The event of the callback, while it is not in the set. -/
def ArmPc.own? {δ : Type} : ArmPc δ → Option δ
  | .lock ev | .insert ev | .signal ev => some ev
  | _ => none

/-- The callback takes its event back. -/
def ArmPc.takesBack {δ : Type} : ArmPc δ → Bool
  | .erase _ | .signal _ => true
  | _ => false

/-- The events that a completer took and has not signaled. -/
def CompleterPc.toWake {δ : Type} : CompleterPc δ → List δ
  | .clearBit l | .unlock l | .signal l | .resume l => l
  | _ => []

section
variable {τ δ ω ι : Type}

/-- Every event that is to be signaled is in one place, and its fiber is in the waiter slot. -/
structure Located (s : State τ δ ω ι) (loc : δ → Option (Loc τ ι)) : Prop where
  set : ∀ d ∈ s.waiters, loc d = some .set
  wake : ∀ i, (s.completer i).toWake.Nodup ∧
    ∀ d ∈ (s.completer i).toWake, loc d = some (.completer i)
  own : ∀ t d, (s.arm t).own? = some d → loc d = some (.arm t)
  inserted : ∀ t d, (s.arm t).ev? = some d → d ∈ s.waiters
  armed : ∀ t, s.arm t ≠ .idle → ∃ d, s.fibers.events.stage t = .armed d ∧
    ∀ e, (s.arm t).own? = some e ∨ (s.arm t).ev? = some e → e = d
  fresh : ∀ t d, s.fibers.events.stage t = .armed d → s.arm t = .idle →
    loc d = none ∧ s.fibers.events.waiter d = some t
  waiter : ∀ d, loc d ≠ none → ∃ t, s.fibers.events.waiter d = some t

/-- Who has seen the count zero during the current call: everybody if the count is zero, a fiber
that is in no waiter slot any more, one that takes its event back, and the fibers of the events that
a completer took or is about to take. -/
structure ZeroOk (s : State τ δ ω ι) : Prop where
  start : ∀ t, (s.fibers.events.stage t).event? ≠ none → s.counted = 0 → s.zero t = true
  woken : ∀ t d, (s.fibers.events.stage t).event? = some d → s.fibers.events.stage t ≠ .held d →
    s.fibers.events.waiter d ≠ some t → s.zero t = true
  takesBack : ∀ t, (s.arm t).takesBack = true → s.zero t = true
  taken : ∀ i, ∀ d ∈ (s.completer i).toWake, ∀ t, s.fibers.events.waiter d = some t →
    s.zero t = true
  pending : ∀ i, (s.completer i).pending = true → ∀ d ∈ s.waiters, (∀ u, s.arm u ≠ .fetchOr d) →
    ∀ t, s.fibers.events.waiter d = some t → s.zero t = true

/-- Both, with the events in some places. -/
def WakeOk (s : State τ δ ω ι) : Prop := ∃ loc, Located s loc ∧ ZeroOk s

variable {s s' : State τ δ ω ι} {loc : δ → Option (Loc τ ι)}

/-- Neither is about the word or the mutex. -/
theorem WakeOk.frame (h : WakeOk s) (n : BitVec 32) (mtx : Option (τ ⊕ ι)) :
    WakeOk { s with n, mtx } := by
  obtain ⟨loc, h, hz⟩ := h
  exact ⟨loc, ⟨h.set, h.wake, h.own, h.inserted, h.armed, h.fresh, h.waiter⟩,
    ⟨hz.start, hz.woken, hz.takesBack, hz.taken, hz.pending⟩⟩

theorem Located.init (pool : List δ) :
    Located (State.init pool : State τ δ ω ι) fun _ => none where
  set d h := by cases h
  wake i := ⟨List.nodup_nil, fun d h => by cases h⟩
  own t d h := by cases h
  inserted t d h := by cases h
  armed t h := absurd rfl h
  fresh t d h := by cases h
  waiter d h := absurd rfl h

theorem ZeroOk.init (pool : List δ) : ZeroOk (State.init pool : State τ δ ω ι) where
  start t h := absurd rfl h
  woken t d h := by cases h
  takesBack t h := by cases h
  taken i d h := by cases h
  pending i h := by cases h

/-- The move is neither the start of a wait, nor the switch, nor a signal. -/
def isCalm : EventMove τ δ → Bool
  | .acquire _ _ | .switchOut _ _ | .signal _ => false
  | _ => true

/-- The callback moves on with the event that it has. -/
theorem Located.setArm [DecidableEq τ] (h : Located s loc) {t : τ} {p : ArmPc δ}
    (hne : s.arm t ≠ .idle)
    (hp : p ≠ .idle ∧ p.own? = (s.arm t).own? ∧ p.ev? = (s.arm t).ev?) :
    Located (s.setArm t p) loc := by
  obtain ⟨hset, hwake, hown, hinserted, harmed, hfresh, hwaiter⟩ := h
  constructor <;> simp only [State.setArm, Function.update_apply] <;> grind

theorem ZeroOk.setArm [DecidableEq τ] (hz : ZeroOk s) {t : τ} {p : ArmPc δ}
    (hp : p.takesBack = true → s.zero t = true) (hev : (s.arm t).ev? = none) :
    ZeroOk (s.setArm t p) := by
  obtain ⟨hstart, hwoken, htakesBack, htaken, hpending⟩ := hz
  constructor <;> simp only [State.setArm, Function.update_apply] <;> grind [ArmPc.ev?]

/-- The callback sets the flag; with a positive count its event is registered from now on, so no
completer may be about to take the set. -/
theorem Located.armFetchOr [DecidableEq τ] {b : Bool} {t : τ} {ev : δ} (h : Located s loc)
    (hz : ZeroOk s) (hg : GroupOk s b) (hlt : s.counted < 2 ^ 30) (he : s.fibers.events.Ok)
    (harm : s.arm t = .fetchOr ev)
    (hgood : count s.n ≠ 0 → ∀ i, s.completer i ≠ .lock) :
    WakeOk { s.setArm t (if count s.n = 0 then .erase ev else .unlock) with
      n := s.n ||| waiterBit } := by
  obtain ⟨-, hcompleters⟩ := hg.arm_alone (t := t) (by rw [harm]; rfl)
  have hcount : count s.n = s.counted := by rw [hg.word, count_pack hlt]
  obtain ⟨d, hstage, hd⟩ := h.armed t (by rw [harm]; simp)
  obtain rfl : ev = d := hd ev (.inr (by rw [harm]; rfl))
  have hevent : (s.fibers.events.stage t).event? = some ev := by rw [hstage]; rfl
  have hzero : s.counted = 0 → s.zero t = true := hz.start t (by rw [hevent]; simp)
  have howner (u : τ) (hu : s.fibers.events.waiter ev = some u) : u = t := he.waiter_eq hevent hu
  have hnotake : count s.n ≠ 0 → ∀ i, (s.completer i).pending = false := by
    intro hne i
    have hin := hcompleters i
    have hlock := hgood hne i
    cases hpc : s.completer i <;> simp_all [CompleterPc.pending, CompleterPc.inside]
  obtain ⟨hset, hwake, hown, hinserted, harmed, hfresh, hwaiter⟩ := h
  obtain ⟨hstart, hwoken, htakesBack, htaken, hpending⟩ := hz
  refine ⟨loc, ?_, ?_⟩
  · constructor <;> simp only [State.setArm, Function.update_apply] <;>
      grind [ArmPc.own?, ArmPc.ev?]
  · constructor <;> simp only [State.setArm, Function.update_apply] <;>
      grind [ArmPc.takesBack]

/-- A completer moves on with the events that it has. -/
theorem Located.setCompleter [DecidableEq ι] (h : Located s loc) {i : ι} {p : CompleterPc δ}
    (hp : p.toWake = (s.completer i).toWake) : Located (s.setCompleter i p) loc := by
  obtain ⟨hset, hwake, hown, hinserted, harmed, hfresh, hwaiter⟩ := h
  refine ⟨hset, fun j => ?_, hown, hinserted, harmed, hfresh, hwaiter⟩
  simp only [State.setCompleter, Function.update_apply]
  split
  case isTrue hj => subst hj; rw [hp]; exact hwake j
  case isFalse => exact hwake j

theorem ZeroOk.setCompleter [DecidableEq ι] (hz : ZeroOk s) {i : ι} {p : CompleterPc δ}
    (hp : p.toWake = (s.completer i).toWake)
    (hpend : p.pending = true → (s.completer i).pending = true) : ZeroOk (s.setCompleter i p) := by
  obtain ⟨hstart, hwoken, htakesBack, htaken, hpending⟩ := hz
  refine ⟨hstart, hwoken, htakesBack, fun j => ?_, fun j => ?_⟩ <;>
    simp only [State.setCompleter, Function.update_apply] <;> grind

/-- A completer takes the set. -/
theorem Located.take [DecidableEq ι] [DecidableEq δ] {b : Bool} (h : Located s loc) (hz : ZeroOk s)
    (hg : GroupOk s b) {i : ι} {order : List δ} (hpc : s.completer i = .take)
    (hperm : order.Perm s.waiters) :
    WakeOk { s.setCompleter i (.clearBit order) with waiters := [] } := by
  obtain ⟨harms, -⟩ := hg.completer_alone (i := i) (by rw [hpc]; rfl)
  have hev (u : τ) (d : δ) : (s.arm u).ev? ≠ some d := by
    intro hd
    have hin := harms u
    rw [ArmPc.inside_of_ev? hd] at hin
    cases hin
  have hfetch (u : τ) (d : δ) : s.arm u ≠ .fetchOr d := by
    intro hu
    exact hev u d (by rw [hu]; rfl)
  have hnodup : order.Nodup := hperm.nodup_iff.2 hg.nodup
  have hmem (d : δ) : d ∈ order ↔ d ∈ s.waiters := hperm.mem_iff
  have hzero := hz.pending i (by rw [hpc]; rfl)
  obtain ⟨hset, hwake, hown, hinserted, harmed, hfresh, hwaiter⟩ := h
  obtain ⟨hstart, hwoken, htakesBack, htaken, hpending⟩ := hz
  clear hg harms hperm
  refine ⟨fun d => if d ∈ s.waiters then some (.completer i) else loc d, ?_, ?_⟩
  · constructor <;> simp only [State.setCompleter, Function.update_apply] <;>
      grind [CompleterPc.toWake]
  · constructor <;> simp only [State.setCompleter, Function.update_apply] <;>
      grind [CompleterPc.toWake]

/-- The completion of a counted task: when it takes the count to zero, everybody sees that. -/
theorem ZeroOk.complete [DecidableEq ι] {b : Bool} (hz : ZeroOk s) (hg : GroupOk s b)
    (hlt : s.counted < 2 ^ 30) {i : ι} (hidle : s.completer i = .idle) (hpos : 0 < s.counted) :
    ZeroOk { s.setCompleter i (if lastWithWaiter s.n then .lock else .idle) with
      n := s.n - 1
      counted := s.counted - 1
      zero := fun t => s.zero t || s.counted == 1 } := by
  have hlast : lastWithWaiter s.n = (s.counted == 1 && b) := by
    rw [hg.word, lastWithWaiter_pack hlt]
  rw [hlast]
  by_cases hone : s.counted = 1
  · constructor <;> simp [hone]
  · obtain ⟨hstart, hwoken, htakesBack, htaken, hpending⟩ := hz
    constructor <;> simp only [State.setCompleter, Function.update_apply] <;>
      grind [CompleterPc.toWake, CompleterPc.pending]

variable [DecidableEq τ] [DecidableEq δ]

/-- A calm move leaves every event where it is. -/
theorem Located.calm (h : Located s loc) (he : s.fibers.events.Ok)
    {f : Fiber.State τ Empty δ ω (τ ⊕ ι)} {l : EventMove τ δ} (hl : isCalm l = true)
    (hs : s.fibers.events.step l = some f.events) : Located { s with fibers := f } loc := by
  have hheld (t : τ) (d : δ) := he.waiter_held (t := t) (d := d)
  obtain ⟨hset, hwake, hown, hinserted, harmed, hfresh, hwaiter⟩ := h
  cases l with
  | acquire t d | switchOut t d | signal d => cases hl
  | stay =>
    simp only [EventPool.step, Option.some.injEq] at hs
    rw [hs] at harmed hfresh hwaiter
    exact ⟨hset, hwake, hown, hinserted, harmed, hfresh, hwaiter⟩
  | publish t d | comeBack t d | release t d =>
    simp only [EventPool.step, Option.ite_none_right_eq_some, Option.some.injEq] at hs
    obtain ⟨hc, hs⟩ := hs
    refine ⟨hset, hwake, hown, hinserted, ?_, ?_, ?_⟩ <;>
      simp only [← hs, EventPool.setStage, Function.update_apply] <;> grind

/-- A calm move leaves who has seen the count zero. -/
theorem ZeroOk.calm (hz : ZeroOk s) (h : Located s loc) (he : s.fibers.events.Ok)
    {f : Fiber.State τ Empty δ ω (τ ⊕ ι)} {l : EventMove τ δ} (hl : isCalm l = true)
    (hs : s.fibers.events.step l = some f.events) : ZeroOk { s with fibers := f } := by
  have hheld (t : τ) (d : δ) := he.waiter_held (t := t) (d := d)
  have hset := h.set
  have hwake := h.wake
  have hwaiter := h.waiter
  obtain ⟨hstart, hwoken, htakesBack, htaken, hpending⟩ := hz
  cases l with
  | acquire t d | switchOut t d | signal d => cases hl
  | stay =>
    simp only [EventPool.step, Option.some.injEq] at hs
    rw [hs] at hstart hwoken htaken hpending
    exact ⟨hstart, hwoken, htakesBack, htaken, hpending⟩
  | publish t d | comeBack t d | release t d =>
    simp only [EventPool.step, Option.ite_none_right_eq_some, Option.some.injEq] at hs
    obtain ⟨hc, hs⟩ := hs
    refine ⟨?_, ?_, htakesBack, ?_, ?_⟩ <;>
      simp only [← hs, EventPool.setStage, Function.update_apply] <;> grind [Stage.event?]

/-- A fiber begins a wait with an event of the pool. -/
theorem Located.acquire (h : Located s loc) {f : Fiber.State τ Empty δ ω (τ ⊕ ι)} {t : τ} {d : δ}
    {zero : τ → Bool} (hs : s.fibers.events.step (.acquire t d) = some f.events) :
    Located { s with fibers := f, zero := zero } loc := by
  obtain ⟨hset, hwake, hown, hinserted, harmed, hfresh, hwaiter⟩ := h
  simp only [EventPool.step, Option.ite_none_right_eq_some, Option.some.injEq] at hs
  obtain ⟨hc, hs⟩ := hs
  refine ⟨hset, hwake, hown, hinserted, ?_, ?_, ?_⟩ <;>
    simp only [← hs, EventPool.setStage, Function.update_apply] <;> grind

theorem ZeroOk.acquire (hz : ZeroOk s) (h : Located s loc) (he : s.fibers.events.Ok)
    {f : Fiber.State τ Empty δ ω (τ ⊕ ι)} {t : τ} {d : δ}
    (hs : s.fibers.events.step (.acquire t d) = some f.events) :
    ZeroOk { s with fibers := f, zero := Function.update s.zero t (s.counted == 0) } := by
  have hslot := he.waiter
  obtain ⟨hstart, hwoken, htakesBack, htaken, hpending⟩ := hz
  simp only [EventPool.step, Option.ite_none_right_eq_some, Option.some.injEq] at hs
  obtain ⟨hc, hs⟩ := hs
  have hidle : s.arm t = .idle := by
    by_contra hne
    obtain ⟨e, hstage, -⟩ := h.armed t hne
    rw [hc.1] at hstage
    cases hstage
  constructor <;> simp only [← hs, EventPool.setStage, Function.update_apply] <;>
    grind [Stage.event?, ArmPc.takesBack]

section
variable {b : Bool} {t : τ} {ev : δ}

/-- The callback begins with the event of its fiber. -/
theorem Located.armBegin (h : Located s loc) (hz : ZeroOk s) (harm : s.arm t = .idle)
    (hstage : s.fibers.events.stage t = .armed ev) : WakeOk (s.setArm t (.lock ev)) := by
  obtain ⟨hnone, hslot⟩ := h.fresh t ev hstage harm
  obtain ⟨hset, hwake, hown, hinserted, harmed, hfresh, hwaiter⟩ := h
  refine ⟨Function.update loc ev (some (.arm t)), ?_, hz.setArm (by simp [ArmPc.takesBack]) ?_⟩
  · constructor <;> simp only [State.setArm, Function.update_apply] <;>
      grind [ArmPc.own?, ArmPc.ev?]
  · rw [harm]; rfl

/-- The callback puts its event into the set. -/
theorem Located.armInsert (h : Located s loc) (hz : ZeroOk s) (harm : s.arm t = .insert ev) :
    WakeOk { s.setArm t (.fetchOr ev) with waiters := s.waiters.insert ev } := by
  obtain ⟨hset, hwake, hown, hinserted, harmed, hfresh, hwaiter⟩ := h
  obtain ⟨hstart, hwoken, htakesBack, htaken, hpending⟩ := hz
  refine ⟨Function.update loc ev (some .set), ?_, ?_⟩
  · constructor <;> simp only [State.setArm, Function.update_apply] <;>
      grind [ArmPc.own?, ArmPc.ev?]
  · constructor <;> simp only [State.setArm, Function.update_apply] <;> grind [ArmPc.takesBack]

/-- The callback takes its event back. -/
theorem Located.armErase (h : Located s loc) (hz : ZeroOk s) (hg : GroupOk s b)
    (harm : s.arm t = .erase ev) :
    WakeOk { s.setArm t (.signal ev) with waiters := s.waiters.erase ev } := by
  obtain ⟨harms, -⟩ := hg.arm_alone (t := t) (by rw [harm]; rfl)
  have hev (u : τ) (d : δ) (hu : u ≠ t) : (s.arm u).ev? ≠ some d := by
    intro hd
    have hin := harms u hu
    rw [ArmPc.inside_of_ev? hd] at hin
    cases hin
  have hmem (d : δ) : d ∈ s.waiters.erase ev ↔ d ≠ ev ∧ d ∈ s.waiters := hg.nodup.mem_erase_iff
  have hzero := hz.takesBack t (by rw [harm]; rfl)
  have hin := h.inserted t ev (by rw [harm]; rfl)
  obtain ⟨hset, hwake, hown, hinserted, harmed, hfresh, hwaiter⟩ := h
  obtain ⟨hstart, hwoken, htakesBack, htaken, hpending⟩ := hz
  clear hg harms
  refine ⟨Function.update loc ev (some (.arm t)), ?_, ?_⟩
  · constructor <;> simp only [State.setArm, Function.update_apply, hmem] <;>
      grind [ArmPc.own?, ArmPc.ev?]
  · constructor <;> simp only [State.setArm, Function.update_apply, hmem] <;>
      grind [ArmPc.takesBack]

/-- The callback signals its own event. -/
theorem Located.armSignal (h : Located s loc) (hz : ZeroOk s) (he : s.fibers.events.Ok)
    {f : Fiber.State τ Empty δ ω (τ ⊕ ι)} (harm : s.arm t = .signal ev)
    (hs : s.fibers.events.step (.signal ev) = some f.events) :
    WakeOk { s.setArm t .resume with fibers := f } := by
  simp only [EventPool.step, Option.some.injEq] at hs
  have hzero := hz.takesBack t (by rw [harm]; rfl)
  obtain ⟨d, hstage, hd⟩ := h.armed t (by rw [harm]; simp)
  obtain rfl : ev = d := hd ev (.inl (by rw [harm]; rfl))
  have hown' := he.own t
  have hevent : (s.fibers.events.stage t).event? = some ev := by rw [hstage]; rfl
  have hloc := h.own t ev (by rw [harm]; rfl)
  obtain ⟨hset, hwake, hown, hinserted, harmed, hfresh, hwaiter⟩ := h
  obtain ⟨hstart, hwoken, htakesBack, htaken, hpending⟩ := hz
  refine ⟨Function.update loc ev none, ?_, ?_⟩
  · constructor <;> simp only [State.setArm, ← hs, Function.update_apply] <;>
      grind [ArmPc.own?, ArmPc.ev?]
  · constructor <;> simp only [State.setArm, ← hs, Function.update_apply] <;>
      grind [ArmPc.takesBack]

/-- After the callback the fiber switches out. -/
theorem Located.armDone (h : Located s loc) (hz : ZeroOk s)
    {f : Fiber.State τ Empty δ ω (τ ⊕ ι)} (harm : s.arm t = .done)
    (hs : s.fibers.events.step (.switchOut t ev) = some f.events) :
    WakeOk { s.setArm t .idle with fibers := f } := by
  simp only [EventPool.step, Option.ite_none_right_eq_some, Option.some.injEq,
    EventPool.setStage] at hs
  obtain ⟨hstage, hs⟩ := hs
  obtain ⟨hset, hwake, hown, hinserted, harmed, hfresh, hwaiter⟩ := h
  obtain ⟨hstart, hwoken, htakesBack, htaken, hpending⟩ := hz
  refine ⟨loc, ?_, ?_⟩
  · constructor <;> simp only [State.setArm, ← hs, Function.update_apply] <;>
      grind [ArmPc.own?, ArmPc.ev?]
  · constructor <;> simp only [State.setArm, ← hs, Function.update_apply] <;>
      grind [ArmPc.takesBack, Stage.event?]

end

/-- A completer signals an event that it took. -/
theorem Located.wakeSignal [DecidableEq ι] (h : Located s loc) (hz : ZeroOk s)
    (he : s.fibers.events.Ok) {f : Fiber.State τ Empty δ ω (τ ⊕ ι)} {i : ι} {d : δ}
    {toWake : List δ} (hpc : s.completer i = .signal (d :: toWake))
    (hs : s.fibers.events.step (.signal d) = some f.events) :
    WakeOk { s.setCompleter i (.resume toWake) with fibers := f } := by
  simp only [EventPool.step, Option.some.injEq] at hs
  have hd : d ∈ (s.completer i).toWake := by rw [hpc]; exact .head _
  have hloc := (h.wake i).2 d hd
  have hzero := hz.taken i d hd
  have hnodup := (h.wake i).1
  rw [hpc] at hnodup
  obtain ⟨hnot, hrest⟩ := List.nodup_cons.1 hnodup
  have hsub : ∀ e ∈ toWake, e ∈ (s.completer i).toWake := by
    intro e hmem
    rw [hpc]
    exact .tail _ hmem
  have hown' := he.own
  obtain ⟨u, hu⟩ := h.waiter d (by rw [hloc]; simp)
  have hslot := fun t ht => he.waiter_eq (t := t) (u := u) (d := d) ht hu
  obtain ⟨hset, hwake, hown, hinserted, harmed, hfresh, hwaiter⟩ := h
  obtain ⟨hstart, hwoken, htakesBack, htaken, hpending⟩ := hz
  refine ⟨Function.update loc d none, ?_, ?_⟩
  · constructor <;> simp only [State.setCompleter, ← hs, Function.update_apply] <;>
      grind [CompleterPc.toWake]
  · constructor <;> simp only [State.setCompleter, ← hs, Function.update_apply] <;>
      grind [CompleterPc.toWake, CompleterPc.pending]

end

section
variable {τ δ ω ι : Type}

/-- The step is the access of a `WaitFor` callback to the word, when the count is positive and a
completer that saw it zero is still about to call `WakeAll`. -/
def RegistersLate (s : State τ δ ω ι) : Act τ δ ω ι → Prop
  | .fiber w _ => ∃ t, s.fibers.worker w = .on t ∧ (s.arm t).setsFlag = true ∧ count s.n ≠ 0 ∧
      ∃ i, s.completer i = .lock
  | _ => False

instance [Fintype τ] [Fintype ι] [DecidableEq τ] [DecidableEq δ] (s : State τ δ ω ι) :
    ∀ a, Decidable (RegistersLate s a)
  | .fiber w _ => inferInstanceAs (Decidable (∃ t, s.fibers.worker w = .on t ∧
      (s.arm t).setsFlag = true ∧ count s.n ≠ 0 ∧ ∃ i, s.completer i = .lock))
  | .push _ | .pick _ _ | .worker _ | .add | .complete _ | .wakeAll _ _ =>
    inferInstanceAs (Decidable False)

variable [DecidableEq τ] [DecidableEq δ] [DecidableEq ω] [DecidableEq ι] {s s' : State τ δ ω ι}
  {b : Bool} {ph : τ → Fiber.Phase Empty δ ω (τ ⊕ ι)}

/-- A calm step of the fibers. -/
theorem WakeOk.fibersStep (h : WakeOk s) (he : s.fibers.events.Ok) (hph : Fiber.Inv s.fibers ph)
    {a : Fiber.Act τ Empty δ ω (τ ⊕ ι)} (hcalm : isCalm (Fiber.eventMove s.fibers a) = true)
    (hs : s.fibersStep a = some s') : WakeOk s' := by
  obtain ⟨f, hf, rfl⟩ := fibersStep_eq hs
  obtain ⟨loc, h, hz⟩ := h
  have hev := Fiber.step_events hph he hf
  exact ⟨loc, h.calm he hcalm hev, hz.calm h he hcalm hev⟩

/-- A step of the callback. -/
theorem WakeOk.armStep (h : WakeOk s) (hg : GroupOk s b) (hlt : s.counted < 2 ^ 30)
    (he : s.fibers.events.Ok) (hph : Fiber.Inv s.fibers ph) {w : ω} {t : τ} {ev : δ}
    (hw : s.fibers.worker w = .on t) (hpc : (s.fibers.fiber t).pc = .armed (some ev))
    (hgood : (s.arm t).setsFlag = true → count s.n ≠ 0 → ∀ i, s.completer i ≠ .lock)
    (hs : armStep s w t ev = some s') : WakeOk s' := by
  have hstage : s.fibers.events.stage t = .armed ev := by
    simp only [Fiber.State.events, hpc, Fiber.FiberPc.stage]
  have hall := h
  obtain ⟨loc, h, hz⟩ := h
  -- the places that change neither the set nor the word
  have hlater {p : ArmPc δ} (hne : s.arm t ≠ .idle) (hev : (s.arm t).ev? = none)
      (hp : p ≠ .idle ∧ p.own? = (s.arm t).own? ∧ p.ev? = (s.arm t).ev?)
      (hback : p.takesBack = false) : Located (s.setArm t p) loc ∧ ZeroOk (s.setArm t p) :=
    ⟨h.setArm hne hp, hz.setArm (by simp [hback]) hev⟩
  revert hs
  fun_cases WaitGroup.armStep s w t ev with
  | case1 harm =>
    rintro ⟨⟩
    exact h.armBegin hz harm hstage
  | case2 ev harm hfree =>
    rintro ⟨⟩
    have hset := hlater (p := .insert ev) (by simp [harm]) (by rw [harm]; rfl)
      (by rw [harm]; simp [ArmPc.own?, ArmPc.ev?]) rfl
    exact WakeOk.frame ⟨loc, hset⟩ _ _
  | case3 ev harm hbusy => simp
  | case4 ev harm =>
    rintro ⟨⟩
    exact h.armInsert hz harm
  | case5 ev harm =>
    rintro ⟨⟩
    exact h.armFetchOr hz hg hlt he harm (hgood (by rw [harm]; rfl))
  | case6 ev harm =>
    rintro ⟨⟩
    exact h.armErase hz hg harm
  | case7 ev harm =>
    intro hs
    obtain ⟨f, hf, rfl⟩ := fibersStep_eq hs
    exact h.armSignal hz he harm (Fiber.step_events hph he hf)
  | case8 harm hdone =>
    rintro ⟨⟩
    exact ⟨loc, hlater (by simp [harm]) (by rw [harm]; rfl)
      (by rw [harm]; simp [ArmPc.own?, ArmPc.ev?]) rfl⟩
  | case9 harm hdone =>
    intro hs
    exact hall.fibersStep he hph rfl hs
  | case10 harm =>
    rintro ⟨⟩
    have hset := hlater (p := .done) (by simp [harm]) (by rw [harm]; rfl)
      (by rw [harm]; simp [ArmPc.own?, ArmPc.ev?]) rfl
    exact WakeOk.frame ⟨loc, hset⟩ _ _
  | case11 harm =>
    intro hs
    obtain ⟨f, hf, rfl⟩ := fibersStep_eq hs
    have hmove : Fiber.eventMove s.fibers (.fiber w .next) = .switchOut t ev := by
      simp only [Fiber.eventMove, hw, hpc, Fiber.fiberMove]
    have hev := Fiber.step_events hph he hf
    simp only [hmove] at hev
    exact h.armDone hz harm hev

/-- A step of `WakeAll`. -/
theorem WakeOk.wakeAllStep (h : WakeOk s) (hg : GroupOk s b) (he : s.fibers.events.Ok)
    (hph : Fiber.Inv s.fibers ph) {i : ι} {order : List δ}
    (hs : wakeAllStep s i order = some s') : WakeOk s' := by
  have hall := h
  obtain ⟨loc, h, hz⟩ := h
  have hlater {p : CompleterPc δ} (hp : p.toWake = (s.completer i).toWake)
      (hpend : p.pending = true → (s.completer i).pending = true) :
      Located (s.setCompleter i p) loc ∧ ZeroOk (s.setCompleter i p) :=
    ⟨h.setCompleter hp, hz.setCompleter hp hpend⟩
  revert hs
  fun_cases WaitGroup.wakeAllStep s i order with
  | case1 hpc => simp
  | case2 hpc hfree =>
    rintro ⟨⟩
    have hset := hlater (p := .take) (by rw [hpc]; rfl) (by rw [hpc]; simp [CompleterPc.pending])
    exact WakeOk.frame ⟨loc, hset⟩ _ _
  | case3 hpc hbusy => simp
  | case4 hpc hperm =>
    rintro ⟨⟩
    exact h.take hz hg hpc hperm
  | case5 hpc hperm => simp
  | case6 toWake hpc =>
    rintro ⟨⟩
    have hset := hlater (p := .unlock toWake) (by rw [hpc]; rfl) (by simp [CompleterPc.pending])
    exact WakeOk.frame ⟨loc, hset⟩ _ _
  | case7 toWake hpc =>
    rintro ⟨⟩
    have hset := hlater (p := .signal toWake) (by rw [hpc]; rfl) (by simp [CompleterPc.pending])
    exact WakeOk.frame ⟨loc, hset⟩ _ _
  | case8 hpc =>
    rintro ⟨⟩
    exact ⟨loc, hlater (by rw [hpc]; rfl) (by simp [CompleterPc.pending])⟩
  | case9 d toWake hpc =>
    intro hs
    obtain ⟨f, hf, rfl⟩ := fibersStep_eq hs
    exact h.wakeSignal hz he hpc (Fiber.step_events hph he hf)
  | case10 toWake hpc hdone =>
    rintro ⟨⟩
    exact ⟨loc, hlater (by rw [hpc]; rfl) (by simp [CompleterPc.pending])⟩
  | case11 toWake hpc hdone =>
    intro hs
    exact hall.fibersStep he hph rfl hs

/-- A step of a fiber. -/
theorem WakeOk.fiberStep (h : WakeOk s) (hg : GroupOk s b) (hlt : s.counted < 2 ^ 30)
    (he : s.fibers.events.Ok) (hph : Fiber.Inv s.fibers ph) {w : ω} {t : τ}
    {m : Fiber.Move Empty δ} (hw : s.fibers.worker w = .on t)
    (hgood : (s.arm t).setsFlag = true → count s.n ≠ 0 → ∀ i, s.completer i ≠ .lock)
    (hs : fiberStep s w t m = some s') : WakeOk s' := by
  revert hs
  fun_cases WaitGroup.fiberStep s w t m with
  | case1 ev hpc => exact h.armStep hg hlt he hph hw hpc hgood
  | case2 ev hpc =>
    intro hs
    obtain ⟨f, hf, rfl⟩ := fibersStep_eq hs
    obtain ⟨loc, h, hz⟩ := h
    have hmove : Fiber.eventMove s.fibers (.fiber w (.waitOnEventDirect ev)) = .acquire t ev := by
      simp only [Fiber.eventMove, hw, hpc, Fiber.fiberMove]
    have hev := Fiber.step_events hph he hf
    simp only [hmove] at hev
    exact ⟨loc, h.acquire hev, hz.acquire h he hev⟩
  | case3 hnext hbegin =>
    intro hs
    refine h.fibersStep he hph ?_ hs
    simp only [Fiber.eventMove, hw]
    unfold Fiber.fiberMove
    split <;> simp_all [isCalm]

/-- Every step that does not register late. -/
theorem WakeOk.step (h : WakeOk s) (hg : GroupOk s b) (hlt : s.counted < 2 ^ 30)
    (he : s.fibers.events.Ok) (hph : Fiber.Inv s.fibers ph) {a : Act τ δ ω ι}
    (hgood : ¬ RegistersLate s a) (hs : step s a = some s') : WakeOk s' := by
  cases a with
  | push t => exact h.fibersStep he hph rfl hs
  | pick w t => exact h.fibersStep he hph rfl hs
  | worker w =>
    refine h.fibersStep he hph ?_ hs
    simp only [Fiber.eventMove]
    unfold Fiber.continueMove
    split
    · split <;> rfl
    · rfl
  | fiber w m =>
    simp only [WaitGroup.step] at hs
    split at hs
    case h_1 t ht =>
      refine h.fiberStep hg hlt he hph ht (fun hflag hne i hi => ?_) hs
      exact hgood ⟨t, ht, hflag, hne, i, hi⟩
    case h_2 => cases hs
  | add =>
    cases hs
    obtain ⟨loc, h, hz⟩ := h
    exact ⟨loc, ⟨h.set, h.wake, h.own, h.inserted, h.armed, h.fresh, h.waiter⟩,
      ⟨by simp, hz.woken, hz.takesBack, hz.taken, hz.pending⟩⟩
  | complete i =>
    simp only [WaitGroup.step] at hs
    split at hs
    case isTrue hc =>
      cases hs
      obtain ⟨loc, h, hz⟩ := h
      have hset := h.setCompleter (i := i) (p := if lastWithWaiter s.n then .lock else .idle) (by
        rw [hc.1]
        split <;> rfl)
      exact ⟨loc, ⟨hset.set, hset.wake, hset.own, hset.inserted, hset.armed, hset.fresh,
        hset.waiter⟩, hz.complete hg hlt hc.1 hc.2⟩
    case isFalse => cases hs
  | wakeAll i order => exact h.wakeAllStep hg he hph hs

/-- A step of the wait group is a step of the fibers or leaves them. -/
theorem step_fibers {a : Act τ δ ω ι} (hs : step s a = some s') :
    s'.fibers = s.fibers ∨ ∃ fa, Fiber.step s.fibers fa = some s'.fibers := by
  have hfibers {r : State τ δ ω ι} {fa : Fiber.Act τ Empty δ ω (τ ⊕ ι)}
      (hs : r.fibersStep fa = some s') (hr : r.fibers = s.fibers) :
      ∃ fa, Fiber.step s.fibers fa = some s'.fibers := by
    obtain ⟨f, hf, rfl⟩ := fibersStep_eq hs
    exact ⟨fa, hr ▸ hf⟩
  cases a with
  | push t => exact .inr (hfibers hs rfl)
  | pick w t => exact .inr (hfibers hs rfl)
  | worker w => exact .inr (hfibers hs rfl)
  | fiber w m =>
    simp only [WaitGroup.step] at hs
    split at hs
    case h_1 t ht =>
      revert hs
      fun_cases WaitGroup.fiberStep s w t m with
      | case1 ev hpc =>
        fun_cases WaitGroup.armStep s w t ev with
        | case1 | case2 | case4 | case5 | case6 | case8 | case10 => rintro ⟨⟩; exact .inl rfl
        | case3 => simp
        | case7 | case9 | case11 => intro hs; exact .inr (hfibers hs rfl)
      | case2 ev hpc => intro hs; exact .inr (hfibers hs rfl)
      | case3 => intro hs; exact .inr (hfibers hs rfl)
    case h_2 => cases hs
  | add => cases hs; exact .inl rfl
  | complete i =>
    simp only [WaitGroup.step] at hs
    split at hs
    · cases hs; exact .inl rfl
    · cases hs
  | wakeAll i order =>
    simp only [WaitGroup.step] at hs
    revert hs
    fun_cases WaitGroup.wakeAllStep s i order with
    | case1 | case3 | case5 => simp
    | case2 | case4 | case6 | case7 | case8 | case10 => rintro ⟨⟩; exact .inl rfl
    | case9 | case11 => intro hs; exact .inr (hfibers hs rfl)

/-- What holds of the group, of its fibers and of their events after every run that does not
register late. -/
theorem exists_wakeOk {pool : List δ} (hpool : pool.Nodup) {as : List (Act τ δ ω ι)}
    (hrun : Lts.run step (State.init pool) as = some s)
    (hlt : ∀ r ∈ Lts.states step (State.init pool) as, r.counted < 2 ^ 30)
    (hgood : ∀ p ∈ Lts.visits step (State.init pool) as, ¬ RegistersLate p.1 p.2) :
    ∃ b ph, GroupOk s b ∧ Fiber.Inv s.fibers ph ∧ s.fibers.events.Ok ∧ WakeOk s := by
  refine Lts.run_inv_of
    (I := fun s => ∃ b ph, GroupOk s b ∧ Fiber.Inv s.fibers ph ∧ s.fibers.events.Ok ∧ WakeOk s)
    (G := fun r a => r.counted < 2 ^ 30 ∧ ¬ RegistersLate r a) ?_ ?_ hrun fun p hp =>
      ⟨hlt p.1 (Lts.fst_mem_states_of_mem_visits hp), hgood p hp⟩
  · rintro r a r' ⟨b, ph, hg, hph, he, h⟩ ⟨hr, hlate⟩ hs
    obtain ⟨b', hg'⟩ := hg.step hr hs
    have hwake := h.step hg hr he hph hlate hs
    rcases step_fibers hs with heq | ⟨fa, hfa⟩
    · exact ⟨b', ph, hg', heq ▸ hph, heq ▸ he, hwake⟩
    · obtain ⟨ph', hph'⟩ := hph.step hfa
      exact ⟨b', ph', hg', hph', he.step (Fiber.step_events hph he hfa), hwake⟩
  · exact ⟨false, _, GroupOk.init pool, Fiber.Inv.init pool, EventPool.Ok.init hpool, _,
      Located.init pool, ZeroOk.init pool⟩

/-- The step begins a `WaitFor` call of the fiber of `t`. -/
def begins (t : τ) (s : State τ δ ω ι) : Act τ δ ω ι → Bool
  | .fiber w (.waitOnEventDirect _) => decide (s.fibers.worker w = .on t)
  | _ => false

/-- Only counting and completing change the number of counted tasks, and only they and the begin of
a call the record of the call. -/
theorem step_frame {a : Act τ δ ω ι} (hs : step s a = some s') (hadd : a ≠ .add)
    (hcomplete : ∀ i, a ≠ .complete i) :
    s'.counted = s.counted ∧ ∀ t, begins t s a = false → s'.zero t = s.zero t := by
  have hfibers {r : State τ δ ω ι} {fa : Fiber.Act τ Empty δ ω (τ ⊕ ι)}
      (hs : r.fibersStep fa = some s') (hr : r.counted = s.counted)
      (hz : ∀ t, begins t s a = false → r.zero t = s.zero t) :
      s'.counted = s.counted ∧ ∀ t, begins t s a = false → s'.zero t = s.zero t := by
    obtain ⟨f, hf, rfl⟩ := fibersStep_eq hs
    exact ⟨hr, hz⟩
  cases a with
  | push u => exact hfibers hs rfl fun _ _ => rfl
  | pick w u => exact hfibers hs rfl fun _ _ => rfl
  | worker w => exact hfibers hs rfl fun _ _ => rfl
  | fiber w m =>
    simp only [WaitGroup.step] at hs
    split at hs
    case h_1 u hu =>
      revert hs
      fun_cases WaitGroup.fiberStep s w u m with
      | case1 ev hpc =>
        fun_cases WaitGroup.armStep s w u ev with
        | case1 | case2 | case4 | case5 | case6 | case8 | case10 =>
          rintro ⟨⟩
          exact ⟨rfl, fun _ _ => rfl⟩
        | case3 => simp
        | case7 | case9 | case11 => intro hs; exact hfibers hs rfl fun _ _ => rfl
      | case2 ev hpc =>
        intro hs
        refine hfibers hs rfl fun t ht => Function.update_of_ne ?_ _ _
        rintro rfl
        simp [begins, hu] at ht
      | case3 => intro hs; exact hfibers hs rfl fun _ _ => rfl
    case h_2 => cases hs
  | add => exact absurd rfl hadd
  | complete i => exact absurd rfl (hcomplete i)
  | wakeAll i order =>
    simp only [WaitGroup.step] at hs
    revert hs
    fun_cases WaitGroup.wakeAllStep s i order with
    | case1 | case3 | case5 => simp
    | case2 | case4 | case6 | case7 | case8 | case10 => rintro ⟨⟩; exact ⟨rfl, fun _ _ => rfl⟩
    | case9 | case11 => intro hs; exact hfibers hs rfl fun _ _ => rfl

/-- The record that the count was zero is made when it becomes zero. -/
theorem zero_step {a : Act τ δ ω ι} {t : τ} (hs : step s a = some s')
    (hbegin : begins t s a = false)
    (hzero : s'.zero t = true) : s.zero t = true ∨ s'.counted = 0 := by
  cases a with
  | add => cases hs; exact .inl hzero
  | complete i =>
    simp only [WaitGroup.step] at hs
    split at hs
    · cases hs
      rcases Bool.or_eq_true_iff.1 hzero with hold | hone
      · exact .inl hold
      · exact .inr (by simp [eq_of_beq hone])
    · cases hs
  | _ =>
    obtain ⟨-, hz⟩ := step_frame hs (by simp) (by simp)
    exact .inl (hz t hbegin ▸ hzero)

/-- The record of a call is right: the count was zero when the call began or at a later moment. -/
theorem exists_zero_of_run {as : List (Act τ δ ω ι)} {t : τ}
    (hrun : Lts.run step s as = some s')
    (hbegin : ∀ p ∈ Lts.visits step s as, begins t p.1 p.2 = false)
    (hzero : s'.zero t = true) : s.zero t = true ∨ ∃ r ∈ Lts.states step s as, r.counted = 0 := by
  induction as generalizing s with
  | nil => cases hrun; exact .inl hzero
  | cons a as ih =>
    obtain ⟨s₁, hs, hrun⟩ := Lts.run_cons_eq_some.1 hrun
    simp only [Lts.visits, hs, Option.elim_some, List.forall_mem_cons] at hbegin
    simp only [Lts.states, hs, Option.elim_some, List.exists_mem_cons_iff]
    rcases ih hrun hbegin.2 with hold | hlater
    · rcases zero_step hs hbegin.1 hold with hold | hnow
      · exact .inl hold
      · exact .inr (.inr ⟨s₁, by cases as <;> exact .head _, hnow⟩)
    · exact .inr (.inr hlater)

/-- A call begins with the record of the count at that moment. -/
theorem zero_begin {w : ω} {t : τ} {d : δ} (hw : s.fibers.worker w = .on t)
    (hs : step s (.fiber w (.waitOnEventDirect d)) = some s') : s'.zero t = (s.counted == 0) := by
  simp only [WaitGroup.step, hw, WaitGroup.fiberStep] at hs
  cases hpc : (s.fibers.fiber t).pc with
  | body =>
    simp only [hpc] at hs
    obtain ⟨f, -, rfl⟩ := fibersStep_eq hs
    exact Function.update_self _ _ _
  | _ => simp [hpc, State.fibersStep, Fiber.step, hw, Fiber.fiberStep] at hs

/-- A fiber is not woken early, in every run in which the count stays below the flag and no
`WaitFor` sets the flag with a positive count while a completer that saw zero is about to call
`WakeAll`: when the call of `t` that began at `s₁` returns, the count was zero when it began or at a
moment since. -/
theorem waitFor_zero {pool : List δ} (hpool : pool.Nodup) {as bs : List (Act τ δ ω ι)}
    {s₁ : State τ δ ω ι} {w : ω} {t : τ} {d e : δ}
    (hbefore : Lts.run step (State.init pool) as = some s₁) (hw : s₁.fibers.worker w = .on t)
    (hrun : Lts.run step s₁ (.fiber w (.waitOnEventDirect d) :: bs) = some s)
    (honce : ∀ p ∈ (Lts.visits step s₁ (.fiber w (.waitOnEventDirect d) :: bs)).tail,
      begins t p.1 p.2 = false)
    (hlt : ∀ r ∈ Lts.states step (State.init pool) (as ++ .fiber w (.waitOnEventDirect d) :: bs),
      r.counted < 2 ^ 30)
    (hgood : ∀ p ∈ Lts.visits step (State.init pool) (as ++ .fiber w (.waitOnEventDirect d) :: bs),
      ¬ RegistersLate p.1 p.2)
    (hreturn : (s.fibers.fiber t).pc = .release e) :
    ∃ r ∈ Lts.states step s₁ (.fiber w (.waitOnEventDirect d) :: bs), count r.n = 0 := by
  have hall :
      Lts.run step (State.init pool) (as ++ .fiber w (.waitOnEventDirect d) :: bs) = some s := by
    rw [Lts.run_append, hbefore]
    exact hrun
  obtain ⟨-, -, -, -, he, loc, -, hz⟩ := exists_wakeOk hpool hall hlt hgood
  have hstage : s.fibers.events.stage t = .returned e := by
    simp only [Fiber.State.events, hreturn, Fiber.FiberPc.stage]
  have hzero : s.zero t = true := by
    refine hz.woken t e (by rw [hstage]; rfl) (by rw [hstage]; simp) fun hslot => ?_
    rcases he.waiter e t hslot with h | h <;> rw [hstage] at h <;> cases h
  have hcount : ∀ r ∈ Lts.states step s₁ (.fiber w (.waitOnEventDirect d) :: bs),
      r.counted = 0 → count r.n = 0 := by
    intro r hr hc
    have hmem := Lts.mem_states_append hbefore hr
    have hg := Lts.states_inv_of (I := fun s => ∃ b, GroupOk s b)
      (G := fun r (_ : Act τ δ ω ι) => r.counted < 2 ^ 30)
      (by rintro r a r' ⟨b, h⟩ hlt hs; exact h.step hlt hs) ⟨false, GroupOk.init pool⟩
      (fun p hp => hlt p.1 (Lts.fst_mem_states_of_mem_visits hp)) r hmem
    obtain ⟨b, hg⟩ := hg
    rw [hg.word, count_pack (hlt r hmem), hc]
  obtain ⟨s₂, hcall, hafter⟩ := Lts.run_cons_eq_some.1 hrun
  simp only [Lts.visits, Lts.states, hcall, Option.elim_some, List.tail_cons] at honce hcount ⊢
  rcases exists_zero_of_run hafter honce hzero with hold | ⟨r, hr, hc⟩
  · rw [zero_begin hw hcall] at hold
    exact ⟨s₁, .head _, hcount s₁ (.head _) (eq_of_beq hold)⟩
  · exact ⟨r, .tail _ hr, hcount r (.tail _ hr) hc⟩

end

/-- A fiber `t` is pushed and runs on worker `w`. -/
def started (w t : Bool) : List (Act Bool Bool Bool Unit) := [.push t, .pick w t, .worker w]

/-- The fiber on worker `w` registers in `WaitFor` and switches out, and the worker parks it. -/
def registers (w : Bool) : List (Act Bool Bool Bool Unit) :=
  List.replicate 9 (.fiber w .next) ++ [.worker w, .worker w]

/-- The completer wakes the events in this order; the first fiber is requeued. -/
def wakes (order : List Bool) : List (Act Bool Bool Bool Unit) :=
  [.wakeAll () [], .wakeAll () order] ++ List.replicate 6 (.wakeAll () [])

/-- A counted task is completed while a fiber waits, and the fiber comes back. -/
theorem waitFor_zero_wakes : ∃ s₁ s : State Bool Bool Bool Unit,
    Lts.run step (State.init [false, true]) (.add :: started true true) = some s₁ ∧
    Lts.run step s₁ (.fiber true (.waitOnEventDirect true) :: (registers true ++ [.complete ()] ++
      wakes [true] ++ [.pick true true, .worker true])) = some s ∧
    ∃ r ∈ Lts.states step s₁ (.fiber true (.waitOnEventDirect true) :: (registers true ++
      [.complete ()] ++ wakes [true] ++ [.pick true true, .worker true])), count r.n = 0 := by
  have hbefore : Lts.run step (State.init [false, true]) (.add :: started true true) = some _ :=
    (Option.some_get (by decide)).symm
  refine ⟨_, _, hbefore, (Option.some_get (by decide)).symm, ?_⟩
  exact waitFor_zero (t := true) (e := true) (by decide) hbefore (by decide)
    (Option.some_get (by decide)).symm (by decide) (by decide) (by decide) (by decide)

/-- The first fiber waits for the first task. It is completed; then a second task is counted and the
second fiber is started. -/
def earlyBefore : List (Act Bool Bool Bool Unit) :=
  .add :: started false false ++ .fiber false (.waitOnEventDirect false) :: registers false ++
    [.complete (), .add] ++ started true true

/-- The second fiber registers, and the completer of the first task wakes it. -/
def earlyRun : List (Act Bool Bool Bool Unit) :=
  registers true ++ wakes [true, false] ++ [.pick true true, .worker true]

/-- The second fiber comes back from `WaitFor`, and the count was never zero since its call
began. -/
theorem waitFor_early : ¬ ∀ (as bs : List (Act Bool Bool Bool Unit))
    (s₁ s : State Bool Bool Bool Unit) (w t d e : Bool),
    Lts.run step (State.init [false, true]) as = some s₁ → s₁.fibers.worker w = .on t →
    Lts.run step s₁ (.fiber w (.waitOnEventDirect d) :: bs) = some s →
    (∀ p ∈ (Lts.visits step s₁ (.fiber w (.waitOnEventDirect d) :: bs)).tail,
      begins t p.1 p.2 = false) →
    (s.fibers.fiber t).pc = .release e →
    ∃ r ∈ Lts.states step s₁ (.fiber w (.waitOnEventDirect d) :: bs), count r.n = 0 := by
  intro h
  have hearly := h earlyBefore earlyRun _ _ true true true true (Option.some_get (by decide)).symm
    (by decide) (Option.some_get (by decide)).symm (by decide) (by decide)
  exact absurd hearly (by decide)

end JLibScheduler.WaitGroup
