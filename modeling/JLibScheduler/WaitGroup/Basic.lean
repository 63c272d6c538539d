import JLibScheduler.Lib.PackedWord
import JLibScheduler.Fiber.Basic

/-!
# Wait groups

A `WaitGroup` packs a count and a flag into one word `n`: counted tasks add to it before they are
pushed, and the thread that completes a task subtracts from it. A fiber that calls `WaitFor`
suspends itself with a direct event; its callback puts the event into `waiters` under the mutex and
then sets the flag `WAITER_BIT`. The thread that takes the count from one to zero and sees the flag
calls `WakeAll`, which takes all events from `waiters` under the mutex and signals them after it
left it.

The machine of this module is the one of `Fiber.Basic` with one wait group: the fibers wait on
direct events in `WaitFor` only, and only the callback of `WaitFor` and `WakeAll` signal them. One
step is one access to the word, to the mutex, to the set `waiters`, or one step of the fibers.

Not in the code: `counted`, the number of counted tasks that are not completed, and `zero`, which
records that the count was zero at some moment of the current `WaitFor` call of a fiber.
-/

namespace JLibScheduler.WaitGroup

/-- `WAITER_BIT` -/
def waiterBit : BitVec 32 := 0x40000000

/-- `COUNT_MASK` -/
def countMask : BitVec 32 := waiterBit - 1

/-- The count in a value of `n`. -/
def count (n : BitVec 32) : ℕ := (n &&& countMask).toNat

/-- The value that a completer found says that it was the last and that somebody waits. -/
def lastWithWaiter (old : BitVec 32) : Bool := count old == 1 && old &&& waiterBit != 0

/-- The condition of the loops `while (n > 0)` of `WaitFor` outside a fiber and of `WaitForMain`. -/
def spins (n : BitVec 32) : Bool := decide (0 < n.toInt)

/-- Where the callback of `WaitFor` stands with its event (`TaskScheduler.cpp:445-453`). -/
inductive ArmPc (δ : Type) where
  | idle
  /-- before the lock of the mutex -/
  | lock (ev : δ)
  | insert (ev : δ)
  | fetchOr (ev : δ)
  /-- the count was zero: the event is taken back and signaled -/
  | erase (ev : δ)
  | signal (ev : δ)
  | resume
  | unlock
  | done
  deriving DecidableEq, Repr

/-- Where a completer stands: outside, or in `WakeAll` (`Task.cpp:8-19`) with the events it took. -/
inductive CompleterPc (δ : Type) where
  | idle
  /-- before the lock of the mutex -/
  | lock
  | take
  | clearBit (toWake : List δ)
  | unlock (toWake : List δ)
  | signal (toWake : List δ)
  | resume (toWake : List δ)
  deriving DecidableEq, Repr

/-- The state of the fibers of tasks `τ` with direct events `δ`, workers `ω` and completers `ι`, and
of one wait group. The fibers and the completers are the threads that signal. -/
structure State (τ δ ω ι : Type) where
  fibers : Fiber.State τ Empty δ ω (τ ⊕ ι)
  n : BitVec 32
  mtx : Option (τ ⊕ ι)
  waiters : List δ
  arm : τ → ArmPc δ
  completer : ι → CompleterPc δ
  counted : ℕ
  zero : τ → Bool

/-- A step of one party. -/
inductive Act (τ δ ω ι : Type) where
  | push (t : τ)
  | pick (w : ω) (t : τ)
  | worker (w : ω)
  /-- the fiber that runs on the worker -/
  | fiber (w : ω) (m : Fiber.Move Empty δ)
  /-- a task is counted -/
  | add
  /-- a counted task is completed -/
  | complete (i : ι)
  /-- a step of `WakeAll`, with the order in which the set is iterated -/
  | wakeAll (i : ι) (order : List δ)
  deriving DecidableEq, Repr

section
variable {τ δ ω ι : Type} [DecidableEq τ] [DecidableEq δ] [DecidableEq ω] [DecidableEq ι]

/-- The wait group is new, and the direct events of the pool are free. -/
def State.init (pool : List δ) : State τ δ ω ι where
  fibers := Fiber.init pool
  n := 0
  mtx := none
  waiters := []
  arm _ := .idle
  completer _ := .idle
  counted := 0
  zero _ := false

def State.setArm (s : State τ δ ω ι) (t : τ) (pc : ArmPc δ) : State τ δ ω ι :=
  { s with arm := Function.update s.arm t pc }

def State.setCompleter (s : State τ δ ω ι) (i : ι) (pc : CompleterPc δ) : State τ δ ω ι :=
  { s with completer := Function.update s.completer i pc }

/-- A step of the fibers, after which the wait group is as in `s`. -/
def State.fibersStep (s : State τ δ ω ι) (a : Fiber.Act τ Empty δ ω (τ ⊕ ι)) :
    Option (State τ δ ω ι) :=
  (Fiber.step s.fibers a).map fun fibers => { s with fibers }

/-- A step of the callback of `WaitFor` on the fiber of `t`; after it the fiber switches to its
worker `w`. -/
def armStep (s : State τ δ ω ι) (w : ω) (t : τ) (ev : δ) : Option (State τ δ ω ι) :=
  match s.arm t with
  | .idle => some (s.setArm t (.lock ev))
  | .lock ev =>
    if s.mtx = none then some { s.setArm t (.insert ev) with mtx := some (.inl t) } else none
  | .insert ev => some { s.setArm t (.fetchOr ev) with waiters := s.waiters.insert ev }
  | .fetchOr ev =>
    some { s.setArm t (if count s.n = 0 then .erase ev else .unlock) with n := s.n ||| waiterBit }
  | .erase ev => some { s.setArm t (.signal ev) with waiters := s.waiters.erase ev }
  | .signal ev => (s.setArm t .resume).fibersStep (.signalDirect (.inl t) ev)
  | .resume =>
    if (s.fibers.signaler (.inl t)).toWake = [] then some (s.setArm t .unlock)
    else s.fibersStep (.resume (.inl t))
  | .unlock => some { s.setArm t .done with mtx := none }
  | .done => (s.setArm t .idle).fibersStep (.fiber w .next)

/-- A step of the fiber of `t`, which runs on worker `w`. The call of `WaitFor` begins with the
event that the pool hands out. -/
def fiberStep (s : State τ δ ω ι) (w : ω) (t : τ) (m : Fiber.Move Empty δ) :
    Option (State τ δ ω ι) :=
  match (s.fibers.fiber t).pc, m with
  | .armed (some ev), .next => armStep s w t ev
  | .body, .waitOnEventDirect ev =>
    { s with zero := Function.update s.zero t (s.counted == 0) }.fibersStep
      (.fiber w (.waitOnEventDirect ev))
  | _, m => s.fibersStep (.fiber w m)

/-- A step of completer `i` in `WakeAll`. -/
def wakeAllStep (s : State τ δ ω ι) (i : ι) (order : List δ) : Option (State τ δ ω ι) :=
  match s.completer i with
  | .idle => none
  | .lock =>
    if s.mtx = none then some { s.setCompleter i .take with mtx := some (.inr i) } else none
  | .take =>
    if order.Perm s.waiters then some { s.setCompleter i (.clearBit order) with waiters := [] }
    else none
  | .clearBit toWake => some { s.setCompleter i (.unlock toWake) with n := s.n &&& ~~~waiterBit }
  | .unlock toWake => some { s.setCompleter i (.signal toWake) with mtx := none }
  | .signal [] => some (s.setCompleter i .idle)
  | .signal (d :: toWake) =>
    (s.setCompleter i (.resume toWake)).fibersStep (.signalDirect (.inr i) d)
  | .resume toWake =>
    if (s.fibers.signaler (.inr i)).toWake = [] then some (s.setCompleter i (.signal toWake))
    else s.fibersStep (.resume (.inr i))

/-- One step of the machine. -/
def step (s : State τ δ ω ι) : Act τ δ ω ι → Option (State τ δ ω ι)
  | .push t => s.fibersStep (.push t)
  | .pick w t => s.fibersStep (.pick w t)
  | .worker w => s.fibersStep (.worker w)
  | .fiber w m =>
    match s.fibers.worker w with
    | .on t => fiberStep s w t m
    | _ => none
  | .add => some { s with n := s.n + 1, counted := s.counted + 1 }
  | .complete i =>
    if s.completer i = .idle ∧ 0 < s.counted then
      some { s.setCompleter i (if lastWithWaiter s.n then .lock else .idle) with
        n := s.n - 1
        counted := s.counted - 1
        zero := fun t => s.zero t || s.counted == 1 }
    else none
  | .wakeAll i order => wakeAllStep s i order

/-! ## The word -/

section
variable {c : ℕ} {b : Bool}

theorem count_pack (hc : c < 2 ^ 30) : count (PackedWord.pack 32 30 c b) = c :=
  PackedWord.toNat_pack_and_mask (by decide) hc

theorem lastWithWaiter_pack (hc : c < 2 ^ 30) :
    lastWithWaiter (PackedWord.pack 32 30 c b) = (c == 1 && b) := by
  have hflag := PackedWord.pack_and_flag_ne_zero (w := 32) (k := 30) (b := b) (by decide) hc
  rw [lastWithWaiter, count_pack hc]
  congr 1
  rw [Bool.eq_iff_iff, bne_iff_ne]
  exact hflag

theorem or_waiterBit (hc : c < 2 ^ 30) :
    PackedWord.pack 32 30 c b ||| waiterBit = PackedWord.pack 32 30 c true :=
  PackedWord.pack_or_flag (by decide) hc

theorem and_not_waiterBit (hc : c < 2 ^ 30) :
    PackedWord.pack 32 30 c b &&& ~~~waiterBit = PackedWord.pack 32 30 c false :=
  PackedWord.pack_and_not_flag (by decide) hc

theorem spins_pack (hc : c < 2 ^ 30) :
    spins (PackedWord.pack 32 30 c b) = true ↔ 0 < c ∨ b = true := by
  rw [spins, decide_eq_true_iff]
  exact PackedWord.toInt_pack_pos (by decide) hc

end

end

end JLibScheduler.WaitGroup
