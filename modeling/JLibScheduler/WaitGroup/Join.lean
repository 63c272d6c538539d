import JLibScheduler.WaitGroup.Early

/-!
# A wait group with one waiter

A group that one caller counts tasks into, waits for once and then destroys. While `opn` holds, the
caller still counts tasks; after that a task is counted only by a task that is not completed, so a
count of zero stays zero. `JoinOk` says what follows for the completers: none of them calls
`WakeAll` before the caller set the flag (`Before`), at most one does, and it holds the caller's
event until it has left the mutex. So when the caller returns, no completer is on the group any more
(`ret`).
-/

namespace JLibScheduler.WaitGroup

open JLibScheduler.Fiber (EventMove EventPool Stage)
open PackedWord (pack_add_one)

/-- The completer is going to access the group. -/
def CompleterPc.onGroup {δ : Type} : CompleterPc δ → Bool
  | .lock | .take | .clearBit _ | .unlock _ => true
  | _ => false

/-- The callback has not set the flag. -/
def ArmPc.early {δ : Type} : ArmPc δ → Bool
  | .idle | .lock _ | .insert _ | .fetchOr _ => true
  | _ => false

/-- The fiber has not switched out with its event. -/
def Stage.early {δ : Type} : Stage δ → Bool
  | .out | .held _ | .armed _ => true
  | _ => false

section
variable {δ ω ι : Type}

/-- The caller has not set the flag. -/
def Before (s : State Unit δ ω ι) (ret : Bool) : Prop :=
  ret = false ∧ Stage.early (s.fibers.events.stage ()) = true ∧ (s.arm ()).early = true

/-- What holds of a group with one waiter. -/
structure JoinOk (s : State Unit δ ω ι) (b opn ret : Bool) : Prop where
  before : Before s ret → b = false ∧ ∀ k, s.completer k = .idle
  opened : opn = true → s.fibers.events.stage () = .out ∧ s.arm () = .idle ∧ ret = false
  busy : ∀ k, s.completer k ≠ .idle → s.counted = 0
  alone : ∀ j k, s.completer j ≠ .idle → s.completer k ≠ .idle → j = k
  registered : b = true → 0 < s.counted → s.waiters ≠ []
  erase : ∀ ev, s.arm () = .erase ev → s.counted = 0 ∧ ∀ k, s.completer k = .idle
  pending : ∀ k, (s.completer k).pending = true → s.waiters ≠ []
  taken : ∀ k, (s.completer k).taken = true → (s.completer k).toWake ≠ []
  zero : opn = false → s.fibers.events.stage () ≠ .out → s.zero () = true → s.counted = 0
  inserted : ∀ ev, s.arm () = .fetchOr ev → ev ∈ s.waiters
  returned : ret = true → s.counted = 0 ∧ s.fibers.events.stage () = .out ∧ s.arm () = .idle ∧
    ∀ k, (s.completer k).onGroup = false

variable {s s' : State Unit δ ω ι} {b opn ret : Bool} {loc : δ → Option (Loc Unit ι)}

theorem JoinOk.init (pool : List δ) :
    JoinOk (State.init pool : State Unit δ ω ι) false true false where
  before _ := ⟨rfl, fun _ => rfl⟩
  opened _ := ⟨rfl, rfl, rfl⟩
  busy k h := absurd rfl h
  alone j k h := absurd rfl h
  registered h := by cases h
  erase ev h := by cases h
  pending k h := by cases h
  taken k h := by cases h
  zero h := by cases h
  inserted ev h := by cases h
  returned h := by cases h

/-- The caller counts no more tasks. -/
theorem JoinOk.close (h : JoinOk s b true ret) : JoinOk s b false ret := by
  obtain ⟨hbefore, hopened, hbusy, halone, hregistered, herase, hpending, htaken, -, hinserted,
    hreturned⟩ := h
  obtain ⟨hout, -⟩ := hopened rfl
  exact ⟨hbefore, by simp, hbusy, halone, hregistered, herase, hpending, htaken,
    fun _ hne => absurd hout hne, hinserted, hreturned⟩

/-- While a task is counted, no completer has seen the count zero. -/
theorem JoinOk.idle (h : JoinOk s b opn ret) (hopen : opn = true ∨ 0 < s.counted) (k : ι) :
    s.completer k = .idle := by
  rcases hopen with hopen | hpos
  · obtain ⟨hout, hidle, hret⟩ := h.opened hopen
    refine (h.before ⟨hret, ?_, ?_⟩).2 k
    · rw [hout]; rfl
    · rw [hidle]; rfl
  · by_contra hne
    have := h.busy k hne
    omega

/-- A task is counted, by the caller or by a task that is counted. -/
theorem JoinOk.add (h : JoinOk s b opn ret) (hopen : opn = true ∨ 0 < s.counted) :
    JoinOk { s with n := s.n + 1, counted := s.counted + 1 } b opn ret := by
  have hidle := h.idle hopen
  have hflag : opn = true → b = false := by
    intro ho
    obtain ⟨hout, harm, hret⟩ := h.opened ho
    exact (h.before ⟨hret, by rw [hout]; rfl, by rw [harm]; rfl⟩).1
  obtain ⟨hbefore, hopened, hbusy, halone, hregistered, herase, hpending, htaken, hzero, hinserted,
    hreturned⟩ := h
  refine ⟨hbefore, hopened, ?_, halone, ?_, ?_, hpending, htaken, ?_, hinserted, ?_⟩ <;> grind

section
variable [DecidableEq ι]

/-- A counted task is completed. -/
theorem JoinOk.complete (h : JoinOk s b opn ret) (hg : GroupOk s b) (hlt : s.counted < 2 ^ 30)
    {i : ι} (hpos : 0 < s.counted) :
    JoinOk { s.setCompleter i (if lastWithWaiter s.n then .lock else .idle) with
      n := s.n - 1
      counted := s.counted - 1
      zero := fun t => s.zero t || s.counted == 1 } b opn ret := by
  have hidle := h.idle (.inr hpos)
  have hlast : lastWithWaiter s.n = (s.counted == 1 && b) := by
    rw [hg.word, lastWithWaiter_pack hlt]
  rw [hlast]
  obtain ⟨hbefore, hopened, hbusy, halone, hregistered, herase, hpending, htaken, hzero, hinserted,
    hreturned⟩ := h
  constructor <;> simp only [State.setCompleter, Function.update_apply, Before] at * <;>
    grind [CompleterPc.pending, CompleterPc.taken, CompleterPc.onGroup]

/-- A completer that takes the set holds what was in it. -/
theorem JoinOk.take (h : JoinOk s b opn ret) {k : ι} {order : List δ} (hpc : s.completer k = .take)
    (hperm : order.Perm s.waiters) (hg : GroupOk s b) :
    JoinOk { s.setCompleter k (.clearBit order) with waiters := [] } b opn ret := by
  obtain ⟨harms, -⟩ := hg.completer_alone (i := k) (by rw [hpc]; rfl)
  have harm := harms ()
  have hne : order ≠ [] := by
    intro hnil
    refine h.pending k (by rw [hpc]; rfl) ?_
    rw [hnil] at hperm
    exact hperm.symm.eq_nil
  obtain ⟨hbefore, hopened, hbusy, halone, hregistered, herase, hpending, htaken, hzero, hinserted,
    hreturned⟩ := h
  have hcounted := hbusy k (by rw [hpc]; simp)
  clear hg harms hperm
  constructor <;> simp only [State.setCompleter, Function.update_apply, Before] at * <;>
    grind [CompleterPc.pending, CompleterPc.taken, CompleterPc.onGroup, CompleterPc.toWake,
      ArmPc.inside]

/-- A completer moves on in `WakeAll` with the events that it has. -/
theorem JoinOk.setCompleter (h : JoinOk s b opn ret) {k : ι} {p : CompleterPc δ}
    (hne : s.completer k ≠ .idle) (hpend : p.pending = true → (s.completer k).pending = true)
    (htake : p.taken = true → (s.completer k).taken = true ∧ p.toWake = (s.completer k).toWake)
    (hon : p.onGroup = true → (s.completer k).onGroup = true) :
    JoinOk (s.setCompleter k p) b opn ret := by
  obtain ⟨hbefore, hopened, hbusy, halone, hregistered, herase, hpending, htaken, hzero, hinserted,
    hreturned⟩ := h
  constructor <;> simp only [State.setCompleter, Function.update_apply, Before] at * <;> grind

end

/-- It is not about the word or the mutex. -/
theorem JoinOk.frame (h : JoinOk s b opn ret) (n : BitVec 32) (mtx : Option (Unit ⊕ ι)) :
    JoinOk { s with n, mtx } b opn ret :=
  ⟨h.before, h.opened, h.busy, h.alone, h.registered, h.erase, h.pending, h.taken, h.zero,
    h.inserted, h.returned⟩

/-- The flag may be cleared at any time. -/
theorem JoinOk.clear (h : JoinOk s b opn ret) : JoinOk s false opn ret :=
  ⟨fun hb => ⟨rfl, (h.before hb).2⟩, h.opened, h.busy, h.alone, by simp, h.erase, h.pending,
    h.taken, h.zero, h.inserted, h.returned⟩

/-- The callback moves on, without an access to the set. -/
theorem JoinOk.setArm (h : JoinOk s b opn ret) {p : ArmPc δ} (hne : s.arm () ≠ .idle)
    (hearly : p.early = true → (s.arm ()).early = true)
    (hp : (∀ ev, p ≠ .fetchOr ev) ∧ ∀ ev, p ≠ .erase ev) :
    JoinOk (s.setArm () p) b opn ret := by
  obtain ⟨hbefore, hopened, hbusy, halone, hregistered, -, hpending, htaken, hzero, -,
    hreturned⟩ := h
  constructor <;> simp only [State.setArm, Function.update_apply, Before] at * <;> grind

/-- The callback begins. -/
theorem JoinOk.armBegin (h : JoinOk s b opn ret) {ev : δ} (harm : s.arm () = .idle)
    (hstage : s.fibers.events.stage () = .armed ev) :
    JoinOk (s.setArm () (.lock ev)) b opn ret := by
  obtain ⟨hbefore, hopened, hbusy, halone, hregistered, herase, hpending, htaken, hzero, hinserted,
    hreturned⟩ := h
  constructor <;> simp only [State.setArm, Function.update_apply, Before] at * <;>
    grind [ArmPc.early]

/-- The callback sets the flag, as the first and only one. -/
theorem JoinOk.armFetchOr (h : JoinOk s b opn ret) (hl : Located s loc) (hg : GroupOk s b)
    (hlt : s.counted < 2 ^ 30) {ev : δ} (harm : s.arm () = .fetchOr ev) :
    JoinOk { s.setArm () (if count s.n = 0 then .erase ev else .unlock) with
      n := s.n ||| waiterBit } true opn ret := by
  have hcount : count s.n = s.counted := by rw [hg.word, count_pack hlt]
  have hbusy := h.busy
  have hfirst : ret = false → ∀ k, s.completer k = .idle := by
    intro hret
    obtain ⟨d, hstage, -⟩ := hl.armed () (by rw [harm]; simp)
    exact (h.before ⟨hret, by rw [hstage]; rfl, by rw [harm]; rfl⟩).2
  have hmem := List.ne_nil_of_mem (h.inserted ev harm)
  obtain ⟨-, hopened, hbusy, halone, -, -, hpending, htaken, hzero, -, hreturned⟩ := h
  clear hg hl
  constructor <;> simp only [State.setArm, Function.update_apply, Before] at * <;>
    grind [ArmPc.early]

section
variable [DecidableEq δ]

/-- The callback puts its event into the set. -/
theorem JoinOk.armInsert (h : JoinOk s b opn ret) {ev : δ} (harm : s.arm () = .insert ev) :
    JoinOk { s.setArm () (.fetchOr ev) with waiters := s.waiters.insert ev } b opn ret := by
  have hmem : ev ∈ s.waiters.insert ev := List.mem_insert_self
  have hne := List.ne_nil_of_mem hmem
  obtain ⟨hbefore, hopened, hbusy, halone, hregistered, herase, hpending, htaken, hzero, hinserted,
    hreturned⟩ := h
  constructor <;> simp only [State.setArm, Function.update_apply, Before] at * <;>
    grind [ArmPc.early]

/-- The callback takes its event back, while no completer holds the set. -/
theorem JoinOk.armErase (h : JoinOk s b opn ret) {ev : δ} (harm : s.arm () = .erase ev) :
    JoinOk { s.setArm () (.signal ev) with waiters := s.waiters.erase ev } b opn ret := by
  obtain ⟨hcounted, hidle⟩ := h.erase ev harm
  obtain ⟨hbefore, hopened, hbusy, halone, hregistered, -, hpending, htaken, hzero, -,
    hreturned⟩ := h
  constructor <;> simp only [State.setArm, Function.update_apply, Before] at * <;>
    grind [ArmPc.early, CompleterPc.pending]

/-- The caller's fiber publishes its wait, comes back from it, or does something else. -/
theorem JoinOk.fibers (h : JoinOk s b opn ret) (hl : Located s loc)
    {f : Fiber.State Unit Empty δ ω (Unit ⊕ ι)} {l : EventMove Unit δ}
    (hcalm : isCalm l = true) (hnot : ∀ t d, l ≠ .release t d)
    (hs : s.fibers.events.step l = some f.events) : JoinOk { s with fibers := f } b opn ret := by
  have harmed := hl.armed ()
  obtain ⟨hbefore, hopened, hbusy, halone, hregistered, herase, hpending, htaken, hzero, hinserted,
    hreturned⟩ := h
  cases l with
  | acquire t d | switchOut t d | signal d => cases hcalm
  | release t d => exact absurd rfl (hnot t d)
  | stay =>
    simp only [EventPool.step, Option.some.injEq] at hs
    constructor <;> simp only [Before, ← hs] at * <;> assumption
  | publish t d | comeBack t d =>
    simp only [EventPool.step, Option.ite_none_right_eq_some, Option.some.injEq] at hs
    obtain ⟨hc, hs⟩ := hs
    clear hl
    constructor <;> simp only [Before, ← hs, EventPool.setStage, Function.update_apply] at * <;>
      grind [Stage.early]

/-- The caller begins its wait. -/
theorem JoinOk.acquire (h : JoinOk s b false false)
    {f : Fiber.State Unit Empty δ ω (Unit ⊕ ι)} {t : Unit} {d : δ}
    (hs : s.fibers.events.step (.acquire t d) = some f.events) :
    JoinOk { s with fibers := f, zero := Function.update s.zero t (s.counted == 0) }
      b false false := by
  obtain ⟨hbefore, hopened, hbusy, halone, hregistered, herase, hpending, htaken, hzero, hinserted,
    hreturned⟩ := h
  simp only [EventPool.step, Option.ite_none_right_eq_some, Option.some.injEq] at hs
  obtain ⟨hc, hs⟩ := hs
  constructor <;> simp only [Before, ← hs, EventPool.setStage, Function.update_apply] at * <;>
    grind [Stage.early]

/-- After the callback the caller's fiber switches out. -/
theorem JoinOk.armDone (h : JoinOk s b opn ret) {f : Fiber.State Unit Empty δ ω (Unit ⊕ ι)}
    {t : Unit} {d : δ} (harm : s.arm () = .done)
    (hs : s.fibers.events.step (.switchOut t d) = some f.events) :
    JoinOk { s.setArm () .idle with fibers := f } b opn ret := by
  obtain ⟨hbefore, hopened, hbusy, halone, hregistered, herase, hpending, htaken, hzero, hinserted,
    hreturned⟩ := h
  simp only [EventPool.step, Option.ite_none_right_eq_some, Option.some.injEq] at hs
  obtain ⟨hc, hs⟩ := hs
  constructor <;>
    simp only [State.setArm, Before, ← hs, EventPool.setStage, Function.update_apply] at * <;>
    grind [Stage.early]

/-- An event is signaled. -/
theorem JoinOk.signal (h : JoinOk s b opn ret) {f : Fiber.State Unit Empty δ ω (Unit ⊕ ι)} {d : δ}
    (hs : s.fibers.events.step (.signal d) = some f.events) :
    JoinOk { s with fibers := f } b opn ret := by
  obtain ⟨hbefore, hopened, hbusy, halone, hregistered, herase, hpending, htaken, hzero, hinserted,
    hreturned⟩ := h
  simp only [EventPool.step, Option.some.injEq] at hs
  constructor <;> simp only [Before, ← hs] at * <;> assumption

/-- The caller returns from its wait: the count was zero during the wait and is zero for good, and
the completer that signaled the caller has left the group. -/
theorem JoinOk.release (h : JoinOk s b opn ret) (hl : Located s loc) (hz : ZeroOk s)
    (he : s.fibers.events.Ok) {f : Fiber.State Unit Empty δ ω (Unit ⊕ ι)} {t : Unit} {d : δ}
    (hs : s.fibers.events.step (.release t d) = some f.events) :
    JoinOk { s with fibers := f } b opn true := by
  simp only [EventPool.step, Option.ite_none_right_eq_some, Option.some.injEq] at hs
  obtain ⟨hc, hs⟩ := hs
  have hslot : ∀ e u, s.fibers.events.waiter e ≠ some u := by
    intro e u hu
    rcases he.waiter e u hu with hstage | hstage <;> rw [hc] at hstage <;> cases hstage
  have hnone : ∀ e, loc e = none := by
    intro e
    by_contra hne
    obtain ⟨u, hu⟩ := hl.waiter e hne
    exact hslot e u hu
  have hclosed : opn = false := by
    by_contra hopen
    rw [Bool.not_eq_false] at hopen
    obtain ⟨hout, -⟩ := h.opened hopen
    rw [hc] at hout
    cases hout
  have hcounted : s.counted = 0 := by
    refine h.zero hclosed (by rw [hc]; simp) ?_
    exact hz.woken t d (by rw [hc]; rfl) (by rw [hc]; simp) (hslot d t)
  have hidle : s.arm () = .idle := by
    by_contra hne
    obtain ⟨e, hstage, -⟩ := hl.armed () hne
    rw [hc] at hstage
    cases hstage
  have hoff : ∀ k, (s.completer k).onGroup = false := by
    intro k
    -- a completer on the group holds an event that is not signaled, or is about to take one
    have hwaiters : s.waiters = [] := by
      rw [List.eq_nil_iff_forall_not_mem]
      intro e hmem
      have hloc := hl.set e hmem
      rw [hnone e] at hloc
      cases hloc
    have hwake : (s.completer k).toWake = [] := by
      rw [List.eq_nil_iff_forall_not_mem]
      intro e hmem
      have hloc := (hl.wake k).2 e hmem
      rw [hnone e] at hloc
      cases hloc
    have hpending := h.pending k
    have htaken := h.taken k
    cases hpc : s.completer k <;>
      simp_all [CompleterPc.onGroup, CompleterPc.pending, CompleterPc.taken]
  obtain ⟨hbefore, hopened, hbusy, halone, hregistered, herase, hpending, htaken, hzero, hinserted,
    -⟩ := h
  constructor <;> simp only [Before, ← hs, EventPool.setStage, Function.update_apply] <;> grind

end

/-- The step is the return of the caller from `WaitFor`. -/
def returns (s : State Unit δ ω ι) : Act Unit δ ω ι → Bool
  | .fiber _ _ =>
    match (s.fibers.fiber ()).pc with
    | .release _ => true
    | _ => false
  | _ => false

/-- The step uses the group as one caller does: tasks are counted by the caller or by counted tasks,
and the caller waits once, after it has counted its tasks. -/
def OneCaller (s : State Unit δ ω ι) (opn ret : Bool) : Act Unit δ ω ι → Prop
  | .add => opn = true ∨ 0 < s.counted
  | .fiber _ (.waitOnEventDirect _) => opn = false ∧ ret = false
  | _ => True

/-- Everything that holds of a group with one caller. -/
def OneCallerOk (s : State Unit δ ω ι) (opn ret : Bool) : Prop :=
  ∃ b ph loc, GroupOk s b ∧ Fiber.Inv s.fibers ph ∧ s.fibers.events.Ok ∧ Located s loc ∧ ZeroOk s ∧
    JoinOk s b opn ret

theorem OneCallerOk.init {pool : List δ} (hpool : pool.Nodup) :
    OneCallerOk (State.init pool : State Unit δ ω ι) true false :=
  ⟨false, _, _, GroupOk.init pool, Fiber.Inv.init pool, EventPool.Ok.init hpool, Located.init pool,
    ZeroOk.init pool, JoinOk.init pool⟩

theorem OneCallerOk.close (h : OneCallerOk s true ret) : OneCallerOk s false ret := by
  obtain ⟨b, ph, loc, hg, hph, he, hl, hz, h⟩ := h
  exact ⟨b, ph, loc, hg, hph, he, hl, hz, h.close⟩

/-- While the caller counts tasks, its fiber has no event. -/
theorem OneCallerOk.stage_out (h : OneCallerOk s true ret) : s.fibers.events.stage () = .out := by
  obtain ⟨b, -, -, -, -, -, -, -, h⟩ := h
  exact (h.opened rfl).1

/-- A word that does not keep a loop spinning has count zero. -/
theorem OneCallerOk.counted_eq_zero (h : OneCallerOk s opn ret) (hlt : s.counted < 2 ^ 30)
    (hspins : spins s.n = false) : s.counted = 0 := by
  obtain ⟨b, -, -, hg, -⟩ := h
  have hno : ¬ (0 < s.counted ∨ b = true) := by
    rw [← spins_pack hlt, ← hg.word, hspins]
    simp
  omega

/-- A caller that has not begun to wait may leave when the count is zero. -/
theorem OneCallerOk.leave (h : OneCallerOk s false false) (hzero : s.counted = 0)
    (hout : s.fibers.events.stage () = .out) : OneCallerOk s false true := by
  obtain ⟨b, ph, loc, hg, hph, he, hl, hz, h⟩ := h
  have hidle : s.arm () = .idle := by
    by_contra hne
    obtain ⟨d, hstage, -⟩ := hl.armed () hne
    rw [hout] at hstage
    cases hstage
  have hbefore := h.before ⟨rfl, by rw [hout]; rfl, by rw [hidle]; rfl⟩
  refine ⟨b, ph, loc, hg, hph, he, hl, hz, ?_⟩
  refine ⟨fun hb => absurd hb.1 (by simp), by simp, h.busy, h.alone, h.registered, h.erase,
    h.pending, h.taken, h.zero, h.inserted, fun _ => ⟨hzero, hout, hidle, fun k => ?_⟩⟩
  rw [hbefore.2 k]
  rfl

/-- With one caller nobody registers late. -/
theorem JoinOk.not_registersLate (h : JoinOk s b opn ret) (hl : Located s loc)
    (a : Act Unit δ ω ι) : ¬ RegistersLate s a := by
  cases a with
  | fiber w m =>
    rintro ⟨t, -, hflag, -, i, hi⟩
    have harm : (s.arm ()).setsFlag = true := hflag
    cases hpc : s.arm () with
    | fetchOr ev =>
      obtain ⟨d, hstage, -⟩ := hl.armed () (by rw [hpc]; simp)
      have hret : ret = false := by
        by_contra hret
        rw [Bool.not_eq_false] at hret
        have hidle := (h.returned hret).2.2.1
        rw [hpc] at hidle
        cases hidle
      have hidle := (h.before ⟨hret, by rw [hstage]; rfl, by rw [hpc]; rfl⟩).2 i
      rw [hi] at hidle
      cases hidle
    | _ => simp [hpc, ArmPc.setsFlag] at harm
  | _ => exact id

section
variable [DecidableEq δ] [DecidableEq ω] [DecidableEq ι] {b' : Bool}
  {ph : Unit → Fiber.Phase Empty δ ω (Unit ⊕ ι)}

/-- A step of the callback. -/
theorem JoinOk.armStep (h : JoinOk s b opn ret) (hl : Located s loc) (hg : GroupOk s b)
    (hg' : GroupOk s' b') (hlt : s.counted < 2 ^ 30) (he : s.fibers.events.Ok)
    (hph : Fiber.Inv s.fibers ph) {w : ω} {ev : δ} (hw : s.fibers.worker w = .on ())
    (hpc : (s.fibers.fiber ()).pc = .armed (some ev)) (hs : armStep s w () ev = some s') :
    JoinOk s' b' opn ret := by
  have hstage : s.fibers.events.stage () = .armed ev := by
    simp only [Fiber.State.events, hpc, Fiber.FiberPc.stage]
  revert hs
  fun_cases WaitGroup.armStep s w () ev with
  | case1 harm =>
    rintro ⟨⟩
    obtain rfl := hg.flag_eq hg' rfl rfl
    exact h.armBegin harm hstage
  | case2 ev harm hfree =>
    rintro ⟨⟩
    obtain rfl := hg.flag_eq hg' rfl rfl
    exact (h.setArm (by simp [harm]) (by simp [harm, ArmPc.early]) (by simp)).frame _ _
  | case3 ev harm hbusy => simp
  | case4 ev harm =>
    rintro ⟨⟩
    obtain rfl := hg.flag_eq hg' rfl rfl
    exact h.armInsert harm
  | case5 ev harm =>
    rintro ⟨⟩
    have hword := hg'.word
    simp only [State.setArm] at hword
    rw [hg.word, or_waiterBit hlt] at hword
    obtain rfl := PackedWord.flag_eq_of_pack_eq (by decide) hword
    exact h.armFetchOr hl hg hlt harm
  | case6 ev harm =>
    rintro ⟨⟩
    obtain rfl := hg.flag_eq hg' rfl rfl
    exact h.armErase harm
  | case7 ev harm =>
    intro hs
    obtain ⟨f, hf, rfl⟩ := fibersStep_eq hs
    obtain rfl := hg.flag_eq hg' rfl rfl
    have hset := h.setArm (p := .resume) (by simp [harm]) (by simp [ArmPc.early]) (by simp)
    exact hset.signal (Fiber.step_events hph he hf)
  | case8 harm hdone =>
    rintro ⟨⟩
    obtain rfl := hg.flag_eq hg' rfl rfl
    exact h.setArm (by simp [harm]) (by simp [ArmPc.early]) (by simp)
  | case9 harm hdone =>
    intro hs
    obtain ⟨f, hf, rfl⟩ := fibersStep_eq hs
    obtain rfl := hg.flag_eq hg' rfl rfl
    exact h.fibers hl rfl (by simp [Fiber.eventMove]) (Fiber.step_events hph he hf)
  | case10 harm =>
    rintro ⟨⟩
    obtain rfl := hg.flag_eq hg' rfl rfl
    exact (h.setArm (by simp [harm]) (by simp [ArmPc.early]) (by simp)).frame _ _
  | case11 harm =>
    intro hs
    obtain ⟨f, hf, rfl⟩ := fibersStep_eq hs
    obtain rfl := hg.flag_eq hg' rfl rfl
    have hmove : Fiber.eventMove s.fibers (.fiber w .next) = .switchOut () ev := by
      simp only [Fiber.eventMove, hw, hpc, Fiber.fiberMove]
    have hev := Fiber.step_events hph he hf
    simp only [hmove] at hev
    exact h.armDone harm hev

/-- A step of `WakeAll`. -/
theorem JoinOk.wakeAllStep (h : JoinOk s b opn ret) (hl : Located s loc) (hg : GroupOk s b)
    (hg' : GroupOk s' b') (hlt : s.counted < 2 ^ 30) (he : s.fibers.events.Ok)
    (hph : Fiber.Inv s.fibers ph) {i : ι} {order : List δ}
    (hs : wakeAllStep s i order = some s') : JoinOk s' b' opn ret := by
  revert hs
  fun_cases WaitGroup.wakeAllStep s i order with
  | case1 hpc => simp
  | case2 hpc hfree =>
    rintro ⟨⟩
    obtain rfl := hg.flag_eq hg' rfl rfl
    refine (h.setCompleter (by simp [hpc]) ?_ ?_ ?_).frame _ _ <;>
      simp [hpc, CompleterPc.pending, CompleterPc.taken, CompleterPc.onGroup]
  | case3 hpc hbusy => simp
  | case4 hpc hperm =>
    rintro ⟨⟩
    obtain rfl := hg.flag_eq hg' rfl rfl
    exact h.take hpc hperm hg
  | case5 hpc hperm => simp
  | case6 toWake hpc =>
    rintro ⟨⟩
    have hword := hg'.word
    simp only [State.setCompleter] at hword
    rw [hg.word, and_not_waiterBit hlt] at hword
    obtain rfl := PackedWord.flag_eq_of_pack_eq (by decide) hword
    refine ((h.setCompleter (by simp [hpc]) ?_ ?_ ?_).frame _ _).clear <;>
      simp [hpc, CompleterPc.pending, CompleterPc.taken, CompleterPc.onGroup, CompleterPc.toWake]
  | case7 toWake hpc =>
    rintro ⟨⟩
    obtain rfl := hg.flag_eq hg' rfl rfl
    refine (h.setCompleter (by simp [hpc]) ?_ ?_ ?_).frame _ _ <;>
      simp [CompleterPc.pending, CompleterPc.taken, CompleterPc.onGroup]
  | case8 hpc =>
    rintro ⟨⟩
    obtain rfl := hg.flag_eq hg' rfl rfl
    refine h.setCompleter (by simp [hpc]) ?_ ?_ ?_ <;>
      simp [CompleterPc.pending, CompleterPc.taken, CompleterPc.onGroup]
  | case9 d toWake hpc =>
    intro hs
    obtain ⟨f, hf, rfl⟩ := fibersStep_eq hs
    obtain rfl := hg.flag_eq hg' rfl rfl
    refine (h.setCompleter (p := .resume toWake) (by simp [hpc]) ?_ ?_ ?_).signal
      (Fiber.step_events hph he hf) <;>
      simp [CompleterPc.pending, CompleterPc.taken, CompleterPc.onGroup]
  | case10 toWake hpc hdone =>
    rintro ⟨⟩
    obtain rfl := hg.flag_eq hg' rfl rfl
    refine h.setCompleter (by simp [hpc]) ?_ ?_ ?_ <;>
      simp [CompleterPc.pending, CompleterPc.taken, CompleterPc.onGroup]
  | case11 toWake hpc hdone =>
    intro hs
    obtain ⟨f, hf, rfl⟩ := fibersStep_eq hs
    obtain rfl := hg.flag_eq hg' rfl rfl
    exact h.fibers hl rfl (by simp [Fiber.eventMove]) (Fiber.step_events hph he hf)

/-- A step of the caller's fiber. -/
theorem JoinOk.fiberStep (h : JoinOk s b opn ret) (hl : Located s loc) (hz : ZeroOk s)
    (hg : GroupOk s b) (hg' : GroupOk s' b') (hlt : s.counted < 2 ^ 30) (he : s.fibers.events.Ok)
    (hph : Fiber.Inv s.fibers ph) {w : ω} {m : Fiber.Move Empty δ}
    (hw : s.fibers.worker w = .on ()) (hone : OneCaller s opn ret (.fiber w m))
    (hs : fiberStep s w () m = some s') : JoinOk s' b' opn (ret || returns s (.fiber w m)) := by
  revert hs
  fun_cases WaitGroup.fiberStep s w () m with
  | case1 ev hpc =>
    intro hs
    simp only [returns, hpc, Bool.or_false]
    exact h.armStep hl hg hg' hlt he hph hw hpc hs
  | case2 ev hpc =>
    intro hs
    obtain ⟨rfl, rfl⟩ := hone
    obtain ⟨f, hf, rfl⟩ := fibersStep_eq hs
    obtain rfl := hg.flag_eq hg' rfl rfl
    have hmove : Fiber.eventMove s.fibers (.fiber w (.waitOnEventDirect ev)) = .acquire () ev := by
      simp only [Fiber.eventMove, hw, hpc, Fiber.fiberMove]
    have hev := Fiber.step_events hph he hf
    simp only [hmove] at hev
    simp only [returns, hpc, Bool.or_false]
    exact h.acquire hev
  | case3 hnext hbegin =>
    intro hs
    obtain ⟨f, hf, rfl⟩ := fibersStep_eq hs
    obtain rfl := hg.flag_eq hg' rfl rfl
    have hev := Fiber.step_events hph he hf
    simp only [Fiber.eventMove, hw] at hev
    by_cases hrel : ∃ d, (s.fibers.fiber ()).pc = .release d
    · obtain ⟨d, hpc⟩ := hrel
      have hm : m = .next := by
        cases m with
        | next => rfl
        | waitOnEvent e => exact e.elim
        | _ => simp [Fiber.step, hw, Fiber.fiberStep, hpc] at hf
      subst hm
      simp only [hpc, Fiber.fiberMove] at hev
      simp only [returns, hpc, Bool.or_true]
      exact h.release hl hz he hev
    · have hret : returns s (.fiber w m) = false := by
        simp only [returns]
        split
        case h_1 d hpc => exact absurd ⟨d, hpc⟩ hrel
        case h_2 => rfl
      rw [hret, Bool.or_false]
      refine h.fibers hl ?_ ?_ hev
      · unfold Fiber.fiberMove
        split <;> simp_all [isCalm]
      · intro t d
        unfold Fiber.fiberMove
        split <;> simp_all

/-- Every step of a group with one caller. -/
theorem JoinOk.step (h : JoinOk s b opn ret) (hl : Located s loc) (hz : ZeroOk s)
    (hg : GroupOk s b) (hg' : GroupOk s' b') (hlt : s.counted < 2 ^ 30) (he : s.fibers.events.Ok)
    (hph : Fiber.Inv s.fibers ph) {a : Act Unit δ ω ι} (hone : OneCaller s opn ret a)
    (hs : step s a = some s') : JoinOk s' b' opn (ret || returns s a) := by
  have hfibers {fa : Fiber.Act Unit Empty δ ω (Unit ⊕ ι)} (hs : s.fibersStep fa = some s')
      (hcalm : isCalm (Fiber.eventMove s.fibers fa) = true)
      (hnot : ∀ t d, Fiber.eventMove s.fibers fa ≠ .release t d) : JoinOk s' b' opn ret := by
    obtain ⟨f, hf, rfl⟩ := fibersStep_eq hs
    obtain rfl := hg.flag_eq hg' rfl rfl
    exact h.fibers hl hcalm hnot (Fiber.step_events hph he hf)
  cases a with
  | push t =>
    simp only [returns, Bool.or_false]
    exact hfibers hs rfl (by simp [Fiber.eventMove])
  | pick w t =>
    simp only [returns, Bool.or_false]
    exact hfibers hs rfl (by simp [Fiber.eventMove])
  | worker w =>
    simp only [returns, Bool.or_false]
    refine hfibers hs ?_ ?_
    · simp only [Fiber.eventMove]
      unfold Fiber.continueMove
      split
      · split <;> rfl
      · rfl
    · intro t d
      simp only [Fiber.eventMove]
      unfold Fiber.continueMove
      split
      · split <;> simp
      · simp
  | fiber w m =>
    simp only [WaitGroup.step] at hs
    split at hs
    case h_1 t ht => exact h.fiberStep hl hz hg hg' hlt he hph ht hone hs
    case h_2 => cases hs
  | add =>
    cases hs
    have hword := hg'.word
    rw [hg.word, pack_add_one] at hword
    obtain rfl := PackedWord.flag_eq_of_pack_eq (by decide) hword
    simp only [returns, Bool.or_false]
    exact h.add hone
  | complete i =>
    simp only [WaitGroup.step] at hs
    split at hs
    case isTrue hc =>
      cases hs
      obtain rfl := (hg.complete hlt hc.1 hc.2).flag_eq hg' rfl rfl
      simp only [returns, Bool.or_false]
      exact h.complete hg hlt hc.2
    case isFalse => cases hs
  | wakeAll i order =>
    simp only [returns, Bool.or_false]
    exact h.wakeAllStep hl hg hg' hlt he hph hs

theorem OneCallerOk.step (h : OneCallerOk s opn ret) (hlt : s.counted < 2 ^ 30)
    {a : Act Unit δ ω ι} (hone : OneCaller s opn ret a) (hs : WaitGroup.step s a = some s') :
    OneCallerOk s' opn (ret || returns s a) := by
  obtain ⟨b, ph, loc, hg, hph, he, hl, hz, h⟩ := h
  obtain ⟨b', hg'⟩ := hg.step hlt hs
  obtain ⟨loc', hl', hz'⟩ :=
    WakeOk.step ⟨loc, hl, hz⟩ hg hlt he hph (h.not_registersLate hl a) hs
  have hjoin := h.step hl hz hg hg' hlt he hph hone hs
  rcases step_fibers hs with heq | ⟨fa, hfa⟩
  · exact ⟨b', ph, loc', hg', heq ▸ hph, heq ▸ he, hl', hz', hjoin⟩
  · obtain ⟨ph', hph'⟩ := hph.step hfa
    exact ⟨b', ph', loc', hg', hph', he.step (Fiber.step_events hph he hfa), hl', hz', hjoin⟩

/-- `WakeAll` leaves the stage of the caller. -/
theorem OneCallerOk.stage_wakeAll (h : OneCallerOk s opn ret) {i : ι} {order : List δ}
    (hs : WaitGroup.step s (.wakeAll i order) = some s') :
    s'.fibers.events.stage = s.fibers.events.stage := by
  obtain ⟨-, ph, -, -, hph, he, -⟩ := h
  have hfibers {r : State Unit δ ω ι} {fa : Fiber.Act Unit Empty δ ω (Unit ⊕ ι)}
      (hs : r.fibersStep fa = some s') (hr : r.fibers = s.fibers)
      (hmove : Fiber.eventMove s.fibers fa = .stay ∨ ∃ d, Fiber.eventMove s.fibers fa = .signal d) :
      s'.fibers.events.stage = s.fibers.events.stage := by
    obtain ⟨f, hf, rfl⟩ := fibersStep_eq hs
    rw [hr] at hf
    have hev := Fiber.step_events hph he hf
    rcases hmove with hmove | ⟨d, hmove⟩ <;> rw [hmove] at hev <;>
      simp only [EventPool.step, Option.some.injEq] at hev <;> simp only [← hev]
  simp only [WaitGroup.step] at hs
  revert hs
  fun_cases WaitGroup.wakeAllStep s i order with
  | case1 | case3 | case5 => simp
  | case2 | case4 | case6 | case7 | case8 | case10 => rintro ⟨⟩; rfl
  | case9 d toWake hpc => intro hs; exact hfibers hs rfl (.inr ⟨d, rfl⟩)
  | case11 => intro hs; exact hfibers hs rfl (.inl rfl)

end

end

end JLibScheduler.WaitGroup
