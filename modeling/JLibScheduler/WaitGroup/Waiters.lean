import JLibScheduler.Lib.Update
import JLibScheduler.WaitGroup.Basic

/-!
# The waiters of a wait group

Registration and wake-up change the set `waiters` under the mutex, but the count and the flag change
by atomic operations of their own. `GroupOk` says how the word, the mutex and the set go together in
every state: a registered event has the flag set, and a positive count or a completer that will run
`WakeAll`, unless its fiber is still in the callback of `WaitFor`. So no waiter is lost
(`waitGroup_no_lost_waiter`).

The converse fails: the callback sets the flag also when the count is zero, and nothing clears it
then (`staleRun`). In every run without such a step the flag is clear when nobody waits
(`waiterBit_clear`).
-/

namespace JLibScheduler.WaitGroup

open PackedWord (pack pack_add_one pack_sub_one)

/-- The callback has the mutex. -/
def ArmPc.inside {δ : Type} : ArmPc δ → Bool
  | .insert _ | .fetchOr _ | .erase _ | .signal _ | .resume | .unlock => true
  | _ => false

/-- The event that the callback has put into the set and may take back. -/
def ArmPc.ev? {δ : Type} : ArmPc δ → Option δ
  | .fetchOr ev | .erase ev => some ev
  | _ => none

/-- The completer has the mutex. -/
def CompleterPc.inside {δ : Type} : CompleterPc δ → Bool
  | .take | .clearBit _ | .unlock _ => true
  | _ => false

/-- The completer has taken the events and has the mutex. -/
def CompleterPc.taken {δ : Type} : CompleterPc δ → Bool
  | .clearBit _ | .unlock _ => true
  | _ => false

/-- The completer is to take the events. -/
def CompleterPc.pending {δ : Type} : CompleterPc δ → Bool
  | .lock | .take => true
  | _ => false

theorem ArmPc.inside_of_ev? {δ : Type} {p : ArmPc δ} {ev : δ} (h : p.ev? = some ev) :
    p.inside = true := by
  cases p <;> first | rfl | cases h

theorem CompleterPc.inside_of_taken {δ : Type} {p : CompleterPc δ} (h : p.taken = true) :
    p.inside = true := by
  cases p <;> first | rfl | cases h

section
variable {τ δ ω ι : Type} {s s' : State τ δ ω ι} {b : Bool}

/-- How the word, the mutex and the set go together; `b` is the flag. -/
structure GroupOk (s : State τ δ ω ι) (b : Bool) : Prop where
  word : s.n = pack 32 30 s.counted b
  armMtx : ∀ t, (s.arm t).inside = true → s.mtx = some (.inl t)
  completerMtx : ∀ i, (s.completer i).inside = true → s.mtx = some (.inr i)
  nodup : s.waiters.Nodup
  taken : ∀ i, (s.completer i).taken = true → s.waiters = []
  flag : ∀ ev ∈ s.waiters, b = true ∨ ∃ t, s.arm t = .fetchOr ev
  due : ∀ ev ∈ s.waiters, 0 < s.counted ∨ (∃ i, (s.completer i).pending = true) ∨
    ∃ t, (s.arm t).ev? = some ev

theorem GroupOk.init (pool : List δ) : GroupOk (State.init pool : State τ δ ω ι) false where
  word := rfl
  armMtx t h := by cases h
  completerMtx i h := by cases h
  nodup := List.nodup_nil
  taken i h := by cases h
  flag ev h := by cases h
  due ev h := by cases h

/-- While the callback of `t` has the mutex, no other party has it. -/
theorem GroupOk.arm_alone (h : GroupOk s b) {t : τ} (ht : (s.arm t).inside = true) :
    (∀ u, u ≠ t → (s.arm u).inside = false) ∧ ∀ i, (s.completer i).inside = false := by
  have hm := h.armMtx t ht
  constructor
  · intro u hu
    by_contra hin
    rw [Bool.not_eq_false] at hin
    rw [h.armMtx u hin] at hm
    exact hu (by simpa using hm)
  · intro i
    by_contra hin
    rw [Bool.not_eq_false] at hin
    rw [h.completerMtx i hin] at hm
    simp at hm

/-- While completer `i` has the mutex, no other party has it. -/
theorem GroupOk.completer_alone (h : GroupOk s b) {i : ι} (hi : (s.completer i).inside = true) :
    (∀ t, (s.arm t).inside = false) ∧ ∀ j, j ≠ i → (s.completer j).inside = false := by
  have hm := h.completerMtx i hi
  constructor
  · intro t
    by_contra hin
    rw [Bool.not_eq_false] at hin
    rw [h.armMtx t hin] at hm
    simp at hm
  · intro j hj
    by_contra hin
    rw [Bool.not_eq_false] at hin
    rw [h.completerMtx j hin] at hm
    exact hj (by simpa using hm)

/-- While nobody has the mutex, no party is inside. -/
theorem GroupOk.free (h : GroupOk s b) (hm : s.mtx = none) :
    (∀ t, (s.arm t).inside = false) ∧ ∀ i, (s.completer i).inside = false := by
  constructor
  · intro t
    by_contra hin
    rw [Bool.not_eq_false] at hin
    rw [h.armMtx t hin] at hm
    simp at hm
  · intro i
    by_contra hin
    rw [Bool.not_eq_false] at hin
    rw [h.completerMtx i hin] at hm
    simp at hm

/-- The callback moves on without an access to the set or the word. -/
theorem GroupOk.setArm [DecidableEq τ] (h : GroupOk s b) {t : τ} {p : ArmPc δ}
    (hp : p.inside = (s.arm t).inside) (hev : (s.arm t).ev? = none) :
    GroupOk (s.setArm t p) b := by
  obtain ⟨hword, harm, hcompleter, hnodup, htaken, hflag, hdue⟩ := h
  constructor <;> simp only [State.setArm, Function.update_apply] <;> grind [ArmPc.ev?]

/-- The completer moves on without an access to the set or the word. -/
theorem GroupOk.setCompleter [DecidableEq ι] (h : GroupOk s b) {i : ι} {p : CompleterPc δ}
    (hp : p.inside = false) (hpend : (s.completer i).pending = false) :
    GroupOk (s.setCompleter i p) b := by
  obtain ⟨hword, harm, hcompleter, hnodup, htaken, hflag, hdue⟩ := h
  have htakenp : p.taken = false := by cases p <;> simp_all [CompleterPc.inside, CompleterPc.taken]
  constructor <;> simp only [State.setCompleter, Function.update_apply] <;> grind

/-- The completion of a counted task: whoever takes the count to zero sees the flag of every event
that its fiber has not taken back, and goes on to `WakeAll`. -/
theorem GroupOk.complete [DecidableEq ι] (h : GroupOk s b) (hlt : s.counted < 2 ^ 30) {i : ι}
    (hidle : s.completer i = .idle) (hpos : 0 < s.counted) :
    GroupOk { s.setCompleter i (if lastWithWaiter s.n then .lock else .idle) with
      n := s.n - 1
      counted := s.counted - 1
      zero := fun t => s.zero t || s.counted == 1 } b := by
  obtain ⟨hword, hmtx, hcompleter, hnodup, htaken, hflag, hdue⟩ := h
  have hlast : lastWithWaiter s.n = (s.counted == 1 && b) := by
    rw [hword, lastWithWaiter_pack hlt]
  obtain ⟨c, hc⟩ : ∃ c, s.counted = c + 1 := ⟨s.counted - 1, by omega⟩
  have hword' : s.n - 1 = pack 32 30 (s.counted - 1) b := by
    rw [hword, hc, pack_sub_one, Nat.add_sub_cancel]
  rw [hlast]
  constructor <;> simp only [State.setCompleter, Function.update_apply] <;>
    grind [CompleterPc.inside, CompleterPc.taken, CompleterPc.pending, ArmPc.ev?]

variable [DecidableEq τ] [DecidableEq δ] [DecidableEq ω] [DecidableEq ι]

theorem fibersStep_eq {a : Fiber.Act τ Empty δ ω (τ ⊕ ι)} (h : s.fibersStep a = some s') :
    ∃ f, Fiber.step s.fibers a = some f ∧ s' = { s with fibers := f } := by
  obtain ⟨f, hf, rfl⟩ := Option.map_eq_some_iff.1 h
  exact ⟨f, hf, rfl⟩

/-- A step of the fibers leaves the wait group as it is. -/
theorem GroupOk.fibersStep (h : GroupOk s b) {a : Fiber.Act τ Empty δ ω (τ ⊕ ι)}
    (hs : s.fibersStep a = some s') : GroupOk s' b := by
  obtain ⟨f, -, rfl⟩ := fibersStep_eq hs
  exact ⟨h.word, h.armMtx, h.completerMtx, h.nodup, h.taken, h.flag, h.due⟩

/-- A step of the callback keeps what holds of the group. -/
theorem GroupOk.armStep (h : GroupOk s b) (hlt : s.counted < 2 ^ 30) {w : ω} {t : τ} {ev : δ}
    (hs : armStep s w t ev = some s') : ∃ b', GroupOk s' b' := by
  have hlater {p : ArmPc δ} (hp : p.inside = (s.arm t).inside) (hev : (s.arm t).ev? = none) :
      GroupOk (s.setArm t p) b := h.setArm hp hev
  have halone := h.arm_alone (t := t)
  revert hs
  fun_cases WaitGroup.armStep s w t ev with
  | case1 harm =>
    rintro ⟨⟩
    exact ⟨b, hlater (by rw [harm]; rfl) (by rw [harm]; rfl)⟩
  | case2 ev harm hfree =>
    rintro ⟨⟩
    obtain ⟨harms, hcompleters⟩ := h.free hfree
    obtain ⟨hword, -, -, hnodup, htaken, hflag, hdue⟩ := h
    refine ⟨b, ?_⟩
    constructor <;> simp only [State.setArm, Function.update_apply] <;> grind [ArmPc.ev?]
  | case3 ev harm hbusy => simp
  | case4 ev harm =>
    rintro ⟨⟩
    rw [harm] at halone
    obtain ⟨harms, hcompleters⟩ := halone rfl
    obtain ⟨hword, hmtx, hcompleter, hnodup, htaken, hflag, hdue⟩ := h
    refine ⟨b, ?_⟩
    constructor <;> simp only [State.setArm, Function.update_apply] <;>
      grind [ArmPc.inside_of_ev?, CompleterPc.inside_of_taken, ArmPc.ev?, ArmPc.inside]
  | case5 ev harm =>
    rintro ⟨⟩
    rw [harm] at halone
    obtain ⟨harms, hcompleters⟩ := halone rfl
    obtain ⟨hword, hmtx, hcompleter, hnodup, htaken, hflag, hdue⟩ := h
    have hcount : count s.n = s.counted := by rw [hword, count_pack hlt]
    have hword' : s.n ||| waiterBit = pack 32 30 s.counted true := by rw [hword, or_waiterBit hlt]
    rw [hcount]
    refine ⟨true, ?_⟩
    constructor <;> simp only [State.setArm, Function.update_apply] <;>
      grind [ArmPc.inside_of_ev?, CompleterPc.inside_of_taken, ArmPc.ev?, ArmPc.inside]
  | case6 ev harm =>
    rintro ⟨⟩
    rw [harm] at halone
    obtain ⟨harms, hcompleters⟩ := halone rfl
    obtain ⟨hword, hmtx, hcompleter, hnodup, htaken, hflag, hdue⟩ := h
    refine ⟨b, ?_⟩
    constructor <;> simp only [State.setArm, Function.update_apply] <;>
      grind [ArmPc.inside_of_ev?, CompleterPc.inside_of_taken, ArmPc.ev?, ArmPc.inside]
  | case7 ev harm =>
    intro hs
    exact ⟨b, (hlater (by rw [harm]; rfl) (by rw [harm]; rfl)).fibersStep hs⟩
  | case8 harm hdone =>
    rintro ⟨⟩
    exact ⟨b, hlater (by rw [harm]; rfl) (by rw [harm]; rfl)⟩
  | case9 harm hdone =>
    intro hs
    exact ⟨b, h.fibersStep hs⟩
  | case10 harm =>
    rintro ⟨⟩
    rw [harm] at halone
    obtain ⟨harms, hcompleters⟩ := halone rfl
    obtain ⟨hword, hmtx, hcompleter, hnodup, htaken, hflag, hdue⟩ := h
    refine ⟨b, ?_⟩
    constructor <;> simp only [State.setArm, Function.update_apply] <;>
      grind [ArmPc.inside_of_ev?, CompleterPc.inside_of_taken, ArmPc.ev?, ArmPc.inside]
  | case11 harm =>
    intro hs
    exact ⟨b, (hlater (by rw [harm]; rfl) (by rw [harm]; rfl)).fibersStep hs⟩

/-- A step of `WakeAll` keeps what holds of the group. -/
theorem GroupOk.wakeAllStep (h : GroupOk s b) (hlt : s.counted < 2 ^ 30) {i : ι} {order : List δ}
    (hs : wakeAllStep s i order = some s') : ∃ b', GroupOk s' b' := by
  have hlater {p : CompleterPc δ} (hp : p.inside = false)
      (hpend : (s.completer i).pending = false) : GroupOk (s.setCompleter i p) b :=
    h.setCompleter hp hpend
  have halone := h.completer_alone (i := i)
  revert hs
  fun_cases WaitGroup.wakeAllStep s i order with
  | case1 hpc => simp
  | case2 hpc hfree =>
    rintro ⟨⟩
    obtain ⟨harms, hcompleters⟩ := h.free hfree
    obtain ⟨hword, -, -, hnodup, htaken, hflag, hdue⟩ := h
    refine ⟨b, ?_⟩
    constructor <;> simp only [State.setCompleter, Function.update_apply] <;>
      grind [CompleterPc.pending, CompleterPc.taken]
  | case3 hpc hbusy => simp
  | case4 hpc hperm =>
    rintro ⟨⟩
    obtain ⟨hword, hmtx, hcompleter, -, -, -, -⟩ := h
    refine ⟨b, ?_⟩
    constructor <;> simp only [State.setCompleter, Function.update_apply] <;>
      grind [CompleterPc.inside]
  | case5 hpc hperm => simp
  | case6 toWake hpc =>
    rintro ⟨⟩
    obtain ⟨hword, hmtx, hcompleter, hnodup, htaken, -, -⟩ := h
    have hword' : s.n &&& ~~~waiterBit = pack 32 30 s.counted false := by
      rw [hword, and_not_waiterBit hlt]
    refine ⟨false, ?_⟩
    constructor <;> simp only [State.setCompleter, Function.update_apply] <;>
      grind [CompleterPc.inside, CompleterPc.taken]
  | case7 toWake hpc =>
    rintro ⟨⟩
    rw [hpc] at halone
    obtain ⟨harms, hcompleters⟩ := halone rfl
    obtain ⟨hword, -, -, hnodup, htaken, -, -⟩ := h
    refine ⟨b, ?_⟩
    constructor <;> simp only [State.setCompleter, Function.update_apply] <;>
      grind [CompleterPc.inside, CompleterPc.taken]
  | case8 hpc =>
    rintro ⟨⟩
    exact ⟨b, hlater rfl (by rw [hpc]; rfl)⟩
  | case9 d toWake hpc =>
    intro hs
    exact ⟨b, (hlater (p := .resume toWake) rfl (by rw [hpc]; rfl)).fibersStep hs⟩
  | case10 toWake hpc hdone =>
    rintro ⟨⟩
    exact ⟨b, hlater rfl (by rw [hpc]; rfl)⟩
  | case11 toWake hpc hdone =>
    intro hs
    exact ⟨b, h.fibersStep hs⟩

/-- A step of a fiber keeps what holds of the group. -/
theorem GroupOk.fiberStep (h : GroupOk s b) (hlt : s.counted < 2 ^ 30) {w : ω} {t : τ}
    {m : Fiber.Move Empty δ} (hs : fiberStep s w t m = some s') : ∃ b', GroupOk s' b' := by
  revert hs
  fun_cases WaitGroup.fiberStep s w t m with
  | case1 ev hpc => exact h.armStep hlt
  | case2 ev hpc =>
    intro hs
    have hzero : GroupOk { s with zero := Function.update s.zero t (s.counted == 0) } b :=
      ⟨h.word, h.armMtx, h.completerMtx, h.nodup, h.taken, h.flag, h.due⟩
    exact ⟨b, hzero.fibersStep hs⟩
  | case3 =>
    intro hs
    exact ⟨b, h.fibersStep hs⟩

/-- Every step keeps what holds of the group. -/
theorem GroupOk.step (h : GroupOk s b) (hlt : s.counted < 2 ^ 30) {a : Act τ δ ω ι}
    (hs : step s a = some s') : ∃ b', GroupOk s' b' := by
  cases a with
  | push t => exact ⟨b, h.fibersStep hs⟩
  | pick w t => exact ⟨b, h.fibersStep hs⟩
  | worker w => exact ⟨b, h.fibersStep hs⟩
  | fiber w m =>
    simp only [WaitGroup.step] at hs
    split at hs
    · exact h.fiberStep hlt hs
    · cases hs
  | add =>
    cases hs
    obtain ⟨hword, hmtx, hcompleter, hnodup, htaken, hflag, hdue⟩ := h
    refine ⟨b, ?_, hmtx, hcompleter, hnodup, htaken, hflag, ?_⟩
    · rw [hword, pack_add_one]
    · exact fun ev hev => .inl (Nat.succ_pos _)
  | complete i =>
    simp only [WaitGroup.step] at hs
    split at hs
    case isTrue hc =>
      cases hs
      exact ⟨b, h.complete hlt hc.1 hc.2⟩
    case isFalse => cases hs
  | wakeAll i order => exact h.wakeAllStep hlt hs

/-- The group is as `GroupOk` says after every run in which the count stays below the flag. -/
theorem exists_groupOk {pool : List δ} {as : List (Act τ δ ω ι)}
    (hrun : Lts.run step (State.init pool) as = some s)
    (hlt : ∀ r ∈ Lts.states step (State.init pool) as, r.counted < 2 ^ 30) :
    ∃ b, GroupOk s b := by
  refine Lts.run_inv_of (I := fun s => ∃ b, GroupOk s b) (G := fun r _ => r.counted < 2 ^ 30) ?_
    ⟨false, GroupOk.init pool⟩ hrun fun p hp => hlt p.1 (Lts.fst_mem_states_of_mem_visits hp)
  rintro r a r' ⟨b, h⟩ hr hs
  exact h.step hr hs

/-- No waiter is lost: outside the sections under the mutex, the count of the word is the number of
counted tasks that are not completed, and an event is in the set only while the count is positive or
a completer that took the count to zero has not entered `WakeAll`'s section; so nobody is registered
when the count is zero and no completer is about to call `WakeAll`. -/
theorem waitGroup_no_lost_waiter {pool : List δ} {as : List (Act τ δ ω ι)}
    (hrun : Lts.run step (State.init pool) as = some s)
    (hlt : ∀ r ∈ Lts.states step (State.init pool) as, r.counted < 2 ^ 30) (hm : s.mtx = none) :
    count s.n = s.counted ∧
      (∀ ev ∈ s.waiters, 0 < count s.n ∨ ∃ i, s.completer i = .lock) ∧
      (count s.n = 0 → (∀ i, s.completer i ≠ .lock) → s.waiters = []) := by
  obtain ⟨b, h⟩ := exists_groupOk hrun hlt
  have hcount : count s.n = s.counted := by
    rw [h.word, count_pack (hlt s (Lts.mem_states_of_run hrun))]
  have hdue : ∀ ev ∈ s.waiters, 0 < count s.n ∨ ∃ i, s.completer i = .lock := by
    intro ev hev
    obtain ⟨harms, hcompleters⟩ := h.free hm
    rcases h.due ev hev with hpos | ⟨i, hi⟩ | ⟨t, ht⟩
    · exact .inl (hcount ▸ hpos)
    · have hin := hcompleters i
      refine .inr ⟨i, ?_⟩
      cases hpc : s.completer i <;> simp_all [CompleterPc.pending, CompleterPc.inside]
    · have hin := harms t
      rw [ArmPc.inside_of_ev? ht] at hin
      cases hin
  refine ⟨hcount, hdue, fun hzero hlock => List.eq_nil_iff_forall_not_mem.2 fun ev hev => ?_⟩
  rcases hdue ev hev with hpos | ⟨i, hi⟩
  · omega
  · exact hlock i hi

end

/-- One task is counted; a fiber waits for it and is registered. -/
def registerRun : List (Act Unit Unit Unit Unit) :=
  [.add, .push (), .pick () (), .worker (), .fiber () (.waitOnEventDirect ())] ++
    List.replicate 8 (.fiber () .next)

/-- The task is completed: the fiber is still registered, and the completer is about to wake it. -/
theorem waitGroup_no_lost_waiter_registerRun : ∃ s : State Unit Unit Unit Unit,
    Lts.run step (State.init [()]) (registerRun ++ [.complete ()]) = some s ∧ s.waiters = [()] ∧
      count s.n = 0 ∧ ∃ i, s.completer i = .lock := by
  have hrun : Lts.run step (State.init [()]) (registerRun ++ [.complete ()]) = some _ :=
    (Option.some_get (by decide)).symm
  have h := waitGroup_no_lost_waiter hrun (by decide) (by decide)
  exact ⟨_, hrun, by decide, by decide, (h.2.1 () (by decide)).resolve_left (by decide)⟩

/-! ## The flag -/

/-- The callback is about to set the flag. -/
def ArmPc.setsFlag {δ : Type} : ArmPc δ → Bool
  | .fetchOr _ => true
  | _ => false

/-- The completer will clear the flag. -/
def CompleterPc.clears {δ : Type} : CompleterPc δ → Bool
  | .lock | .take | .clearBit _ => true
  | _ => false

section
variable {τ δ ω ι : Type} {s s' : State τ δ ω ι} {b b' : Bool}

/-- The step is the access of a `WaitFor` callback to the word, when the count is zero and no
completer is about to call `WakeAll`. -/
def FindsDone (s : State τ δ ω ι) : Act τ δ ω ι → Prop
  | .fiber w _ => ∃ t, s.fibers.worker w = .on t ∧ (s.arm t).setsFlag = true ∧ count s.n = 0 ∧
      ∀ i, s.completer i ≠ .lock
  | _ => False

instance [Fintype τ] [Fintype ι] [DecidableEq τ] [DecidableEq δ] (s : State τ δ ω ι) :
    ∀ a, Decidable (FindsDone s a)
  | .fiber w _ => inferInstanceAs (Decidable (∃ t, s.fibers.worker w = .on t ∧
      (s.arm t).setsFlag = true ∧ count s.n = 0 ∧ ∀ i, s.completer i ≠ .lock))
  | .push _ | .pick _ _ | .worker _ | .add | .complete _ | .wakeAll _ _ =>
    inferInstanceAs (Decidable False)

/-- The flag is set only while somebody is registered or a completer will clear it. -/
structure FlagOk (s : State τ δ ω ι) (b : Bool) : Prop where
  inserted : ∀ t ev, s.arm t = .fetchOr ev → ev ∈ s.waiters
  pending : ∀ t ev, s.arm t = .erase ev → ∃ i, s.completer i = .lock
  clear : b = true → s.waiters ≠ [] ∨ ∃ i, (s.completer i).clears = true

theorem FlagOk.init (pool : List δ) : FlagOk (State.init pool : State τ δ ω ι) false where
  inserted t ev h := by cases h
  pending t ev h := by cases h
  clear h := by cases h

theorem GroupOk.flag_eq (h : GroupOk s b) (h' : GroupOk s' b') (hn : s'.n = s.n)
    (hc : s'.counted = s.counted) : b' = b := by
  rw [h'.word, h.word, hc] at hn
  exact PackedWord.flag_eq_of_pack_eq (by decide) hn

/-- The callback moves on without an access to the set or the word. -/
theorem FlagOk.setArm [DecidableEq τ] (hf : FlagOk s b) {t : τ} {p : ArmPc δ}
    (hp : (∀ ev, p ≠ .fetchOr ev) ∧ ∀ ev, p ≠ .erase ev) : FlagOk (s.setArm t p) b := by
  obtain ⟨hinserted, hpending, hclear⟩ := hf
  constructor <;> simp only [State.setArm, Function.update_apply] <;> grind

variable [DecidableEq τ] [DecidableEq δ] [DecidableEq ω] [DecidableEq ι]

/-- A step of the fibers leaves the flag as it is. -/
theorem FlagOk.fibersStep (hf : FlagOk s b) (h : GroupOk s b) (h' : GroupOk s' b')
    {a : Fiber.Act τ Empty δ ω (τ ⊕ ι)} (hs : s.fibersStep a = some s') : FlagOk s' b' := by
  obtain ⟨f, -, rfl⟩ := fibersStep_eq hs
  obtain rfl := h.flag_eq h' rfl rfl
  exact ⟨hf.inserted, hf.pending, hf.clear⟩

/-- A step of the callback keeps what holds of the flag, when it does not find the count zero
without a completer that will clear the flag. -/
theorem FlagOk.armStep (hf : FlagOk s b) (h : GroupOk s b) (h' : GroupOk s' b')
    {w : ω} {t : τ} {ev : δ}
    (hgood : ∀ ev, s.arm t = .fetchOr ev → count s.n = 0 → ∃ i, s.completer i = .lock)
    (hs : armStep s w t ev = some s') : FlagOk s' b' := by
  have halone := h.arm_alone (t := t)
  revert hs
  fun_cases WaitGroup.armStep s w t ev with
  | case1 harm =>
    rintro ⟨⟩
    obtain rfl := h.flag_eq h' rfl rfl
    exact hf.setArm (by simp)
  | case2 ev harm hfree =>
    rintro ⟨⟩
    obtain rfl := h.flag_eq h' rfl rfl
    have hset := hf.setArm (t := t) (p := .insert ev) (by simp)
    exact ⟨hset.inserted, hset.pending, hset.clear⟩
  | case3 ev harm hbusy => simp
  | case4 ev harm =>
    rintro ⟨⟩
    obtain rfl := h.flag_eq h' rfl rfl
    obtain ⟨hinserted, hpending, -⟩ := hf
    have hev : ev ∈ s.waiters.insert ev := List.mem_insert_self
    refine ⟨?_, ?_, fun _ => .inl (List.ne_nil_of_mem hev)⟩ <;>
      simp only [State.setArm, Function.update_apply] <;> grind
  | case5 ev harm =>
    rintro ⟨⟩
    have hev := hf.inserted t ev harm
    have hlock := hgood ev harm
    obtain ⟨hinserted, hpending, -⟩ := hf
    constructor <;> simp only [State.setArm, Function.update_apply] <;> grind
  | case6 ev harm =>
    rintro ⟨⟩
    obtain rfl := h.flag_eq h' rfl rfl
    rw [harm] at halone
    obtain ⟨i, hi⟩ := hf.pending t ev harm
    obtain ⟨harms, -⟩ := halone rfl
    obtain ⟨hinserted, hpending, -⟩ := hf
    refine ⟨?_, ?_, fun _ => .inr ⟨i, by simp [State.setArm, hi, CompleterPc.clears]⟩⟩ <;>
      simp only [State.setArm, Function.update_apply] <;> grind [ArmPc.inside]
  | case7 ev harm =>
    intro hs
    have hset := h.setArm (t := t) (p := .resume) (by rw [harm]; rfl) (by rw [harm]; rfl)
    exact (hf.setArm (by simp)).fibersStep hset h' hs
  | case8 harm hdone =>
    rintro ⟨⟩
    obtain rfl := h.flag_eq h' rfl rfl
    exact hf.setArm (by simp)
  | case9 harm hdone =>
    intro hs
    exact hf.fibersStep h h' hs
  | case10 harm =>
    rintro ⟨⟩
    obtain rfl := h.flag_eq h' rfl rfl
    have hset := hf.setArm (t := t) (p := .done) (by simp)
    exact ⟨hset.inserted, hset.pending, hset.clear⟩
  | case11 harm =>
    intro hs
    have hset := h.setArm (t := t) (p := .idle) (by rw [harm]; rfl) (by rw [harm]; rfl)
    exact (hf.setArm (by simp)).fibersStep hset h' hs

/-- A step of `WakeAll` keeps what holds of the flag. -/
theorem FlagOk.wakeAllStep (hf : FlagOk s b) (h : GroupOk s b) (h' : GroupOk s' b')
    (hlt : s.counted < 2 ^ 30) {i : ι} {order : List δ} (hs : wakeAllStep s i order = some s') :
    FlagOk s' b' := by
  have halone := h.completer_alone (i := i)
  have hlater {p : CompleterPc δ} (hl : s.completer i ≠ .lock)
      (hc : (s.completer i).clears = false) : FlagOk (s.setCompleter i p) b := by
    obtain ⟨hinserted, hpending, hclear⟩ := hf
    constructor <;> simp only [State.setCompleter, Function.update_apply] <;> grind
  revert hs
  fun_cases WaitGroup.wakeAllStep s i order with
  | case1 hpc => simp
  | case2 hpc hfree =>
    rintro ⟨⟩
    obtain rfl := h.flag_eq h' rfl rfl
    obtain ⟨harms, -⟩ := h.free hfree
    obtain ⟨-, -, hclear⟩ := hf
    constructor <;> simp only [State.setCompleter, Function.update_apply] <;>
      grind [ArmPc.inside, CompleterPc.clears]
  | case3 hpc hbusy => simp
  | case4 hpc hperm =>
    rintro ⟨⟩
    rw [hpc] at halone
    obtain ⟨harms, -⟩ := halone rfl
    refine ⟨?_, ?_, fun _ => .inr ⟨i, by simp [State.setCompleter, CompleterPc.clears]⟩⟩ <;>
      simp only [State.setCompleter] <;> grind [ArmPc.inside]
  | case5 hpc hperm => simp
  | case6 toWake hpc =>
    rintro ⟨⟩
    have hword := h'.word
    simp only [State.setCompleter] at hword
    rw [h.word, and_not_waiterBit hlt] at hword
    obtain rfl := PackedWord.flag_eq_of_pack_eq (by decide) hword
    rw [hpc] at halone
    obtain ⟨harms, -⟩ := halone rfl
    refine ⟨?_, ?_, by simp⟩ <;> simp only [State.setCompleter] <;> grind [ArmPc.inside]
  | case7 toWake hpc =>
    rintro ⟨⟩
    obtain rfl := h.flag_eq h' rfl rfl
    have hset := hlater (p := .signal toWake) (by simp [hpc]) (by rw [hpc]; rfl)
    exact ⟨hset.inserted, hset.pending, hset.clear⟩
  | case8 hpc =>
    rintro ⟨⟩
    obtain rfl := h.flag_eq h' rfl rfl
    exact hlater (by simp [hpc]) (by rw [hpc]; rfl)
  | case9 d toWake hpc =>
    intro hs
    have hset := h.setCompleter (i := i) (p := .resume toWake) rfl (by rw [hpc]; rfl)
    exact (hlater (by simp [hpc]) (by rw [hpc]; rfl)).fibersStep hset h' hs
  | case10 toWake hpc hdone =>
    rintro ⟨⟩
    obtain rfl := h.flag_eq h' rfl rfl
    exact hlater (by simp [hpc]) (by rw [hpc]; rfl)
  | case11 toWake hpc hdone =>
    intro hs
    exact hf.fibersStep h h' hs

/-- Every step that does not find the group done keeps what holds of the flag. -/
theorem FlagOk.step (hf : FlagOk s b) (h : GroupOk s b) (h' : GroupOk s' b')
    (hlt : s.counted < 2 ^ 30) {a : Act τ δ ω ι} (hgood : ¬ FindsDone s a)
    (hs : step s a = some s') : FlagOk s' b' := by
  cases a with
  | push t => exact hf.fibersStep h h' hs
  | pick w t => exact hf.fibersStep h h' hs
  | worker w => exact hf.fibersStep h h' hs
  | fiber w m =>
    simp only [WaitGroup.step] at hs
    split at hs
    case h_1 t ht =>
      have hlock : ∀ ev, s.arm t = .fetchOr ev → count s.n = 0 → ∃ i, s.completer i = .lock := by
        intro ev hev hzero
        by_contra hno
        exact hgood ⟨t, ht, by rw [hev]; rfl, hzero, by simpa using hno⟩
      revert hs
      fun_cases WaitGroup.fiberStep s w t m with
      | case1 ev hpc => exact hf.armStep h h' hlock
      | case2 ev hpc =>
        intro hs
        obtain ⟨f, -, rfl⟩ := fibersStep_eq hs
        obtain rfl := h.flag_eq h' rfl rfl
        exact ⟨hf.inserted, hf.pending, hf.clear⟩
      | case3 =>
        intro hs
        exact hf.fibersStep h h' hs
    case h_2 => cases hs
  | add =>
    cases hs
    have hword := h'.word
    rw [h.word, pack_add_one] at hword
    obtain rfl := PackedWord.flag_eq_of_pack_eq (by decide) hword
    exact ⟨hf.inserted, hf.pending, hf.clear⟩
  | complete i =>
    simp only [WaitGroup.step] at hs
    split at hs
    case isTrue hc =>
      cases hs
      obtain rfl := (h.complete hlt hc.1 hc.2).flag_eq h' rfl rfl
      obtain ⟨hinserted, hpending, hclear⟩ := hf
      constructor <;> simp only [State.setCompleter, Function.update_apply] <;>
        grind [CompleterPc.clears]
    case isFalse => cases hs
  | wakeAll i order => exact hf.wakeAllStep h h' hlt hs

/-- The flag does not outlive the waiters, in every run in which the count stays below the flag and
no `WaitFor` finds the count zero when no completer is about to call `WakeAll`: outside the sections
under the mutex, with nobody registered and no such completer, the flag is clear, and the loops that
wait outside a fiber end when the count is zero. -/
theorem waiterBit_clear {pool : List δ} {as : List (Act τ δ ω ι)}
    (hrun : Lts.run WaitGroup.step (State.init pool) as = some s)
    (hlt : ∀ r ∈ Lts.states WaitGroup.step (State.init pool) as, r.counted < 2 ^ 30)
    (hgood : ∀ p ∈ Lts.visits WaitGroup.step (State.init pool) as, ¬ FindsDone p.1 p.2)
    (hm : s.mtx = none) (hlock : ∀ i, s.completer i ≠ .lock) (hw : s.waiters = []) :
    s.n &&& waiterBit = 0 ∧ (count s.n = 0 → spins s.n = false) := by
  have hinv : ∃ b, GroupOk s b ∧ FlagOk s b := by
    refine Lts.run_inv_of (I := fun s => ∃ b, GroupOk s b ∧ FlagOk s b)
      (G := fun r a => r.counted < 2 ^ 30 ∧ ¬ FindsDone r a) ?_
      ⟨false, GroupOk.init pool, FlagOk.init pool⟩ hrun fun p hp =>
        ⟨hlt p.1 (Lts.fst_mem_states_of_mem_visits hp), hgood p hp⟩
    rintro r a r' ⟨b, h, hf⟩ ⟨hr, hgood⟩ hs
    obtain ⟨b', h'⟩ := h.step hr hs
    exact ⟨b', h', hf.step h h' hr hgood hs⟩
  obtain ⟨b, h, hf⟩ := hinv
  have hcounted := hlt s (Lts.mem_states_of_run hrun)
  obtain ⟨-, hcompleters⟩ := h.free hm
  have hb : b = false := by
    by_contra hb
    rw [Bool.not_eq_false] at hb
    rcases hf.clear hb with hne | ⟨i, hi⟩
    · exact hne hw
    · have hin := hcompleters i
      have hi' := hlock i
      cases hpc : s.completer i <;> simp_all [CompleterPc.clears, CompleterPc.inside]
  subst hb
  have hspins : ¬ (spins s.n = true ∧ count s.n = 0) := by
    rw [h.word, spins_pack hcounted, count_pack hcounted]
    rintro ⟨hpos | hb, hzero⟩
    · omega
    · cases hb
  constructor
  · rw [h.word]
    by_contra hne
    have := (PackedWord.pack_and_flag_ne_zero (w := 32) (k := 30) (by decide) hcounted).1 hne
    cases this
  · intro hzero
    exact Bool.eq_false_iff.2 fun ht => hspins ⟨ht, hzero⟩

end

/-- The counted task is completed, and its completer wakes the registered fiber. -/
def wakeAllRun : List (Act Unit Unit Unit Unit) :=
  registerRun ++ [.complete (), .wakeAll () [], .wakeAll () [()], .wakeAll () [], .wakeAll () []]

theorem waiterBit_clear_wakeAllRun : ∃ s : State Unit Unit Unit Unit,
    Lts.run step (State.init [()]) wakeAllRun = some s ∧ s.n &&& waiterBit = 0 ∧
      spins s.n = false := by
  have hrun : Lts.run step (State.init [()]) wakeAllRun = some _ :=
    (Option.some_get (by decide)).symm
  have h := waiterBit_clear hrun (by decide) (by decide) (by decide) (by decide) (by decide)
  exact ⟨_, hrun, h.1, h.2 (by decide)⟩

/-- A fiber calls `WaitFor` when the count is zero, and returns from its callback. -/
def staleRun : List (Act Unit Unit Unit Unit) :=
  [.push (), .pick () (), .worker (), .fiber () (.waitOnEventDirect ())] ++
    List.replicate 13 (.fiber () .next)

/-- The flag stays set: nobody is registered and nothing is counted, but a loop that waits outside a
fiber goes on. -/
theorem waiterBit_stale : ¬ ∀ (as : List (Act Unit Unit Unit Unit)) (s : State Unit Unit Unit Unit),
    Lts.run step (State.init [()]) as = some s → s.mtx = none → (∀ i, s.completer i ≠ .lock) →
      s.waiters = [] → s.n &&& waiterBit = 0 ∧ (count s.n = 0 → spins s.n = false) := by
  intro h
  have hstale := h staleRun _ (Option.some_get (by decide)).symm (by decide) (by decide) (by decide)
  exact absurd hstale.1 (by decide)

end JLibScheduler.WaitGroup
