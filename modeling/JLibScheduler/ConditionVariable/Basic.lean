import JLibScheduler.Sync.Basic

/-!
# Condition variables

`SchedulerConditionVariable` (`TaskScheduler.cpp:1005-1082`) over `SchedulerSemaphore` and
`SchedulerMutex`. `Wait` makes a semaphore on the stack of its fiber, puts it in `waitingQueue`,
unlocks the mutex, waits for the semaphore and locks the mutex again; the notifies take semaphores
from `waitingQueue` and signal them outside of its spin lock. A fast job that waits only unlocks and
locks.

A section under the spin lock of a condition variable or of a mutex is one step. The spin lock of a
semaphore lies on the stack of the fiber that waits, so here `test_and_set`, the section and `clear`
are steps of their own. The semaphores are numbered in the order of the `Wait` calls. A suspended
fiber goes on when `Resume` was called on it.

Not in the code: `call`, which fiber and condition variable a semaphore belongs to; `queued` and
`taken`, the semaphores that were put in a queue and that notifies took from it; `signals`, how many
sections of `Signal` a semaphore has seen; and `returned`, that its fiber is past
`localWaitSemaphore.Wait()`.
-/

namespace JLibScheduler.ConditionVariable

open JLibScheduler.Sync (SchedulerMutex SchedulerSemaphore)

/-- What comes after an `Unlock`, or a `Resume` at the end of `Unlock` and `Signal`. -/
inductive After (ν : Type) where
  | done
  /-- `Wait` of a fiber goes on with its semaphore -/
  | wait (k : ℕ) (x : ν)
  /-- `Wait` of a fast job goes on with the mutex -/
  | lock (x : ν)
  /-- a notify goes on with the semaphores that are left -/
  | signals (ks : List ℕ)
  deriving DecidableEq, Repr

/-- Where a context stands. -/
inductive Pc (κ χ ν : Type) where
  | idle
  /-- `Wait`, before the section that queues the semaphore -/
  | push (v : χ) (x : ν)
  | unlock (x : ν) (after : After ν)
  | lock (x : ν)
  | lockSuspended (x : ν)
  /-- `localWaitSemaphore.Wait()`: before `test_and_set`, before the section, before `clear` with or
  without a permit, and suspended -/
  | waitSpin (k : ℕ) (x : ν)
  | waitBody (k : ℕ) (x : ν)
  | waitClear (k : ℕ) (x : ν) (got : Bool)
  | waitSuspended (k : ℕ) (x : ν)
  /-- before the section of a notify -/
  | notifyOne (v : χ)
  | notifyAll (v : χ)
  /-- `Signal` on the semaphore `k`: before `test_and_set`, before the section, before `clear` with
  the fiber to resume; and the semaphores that are left after it -/
  | signalSpin (k : ℕ) (ks : List ℕ)
  | signalBody (k : ℕ) (ks : List ℕ)
  | signalClear (k : ℕ) (fiber : Option κ) (ks : List ℕ)
  | resume (f : κ) (after : After ν)
  deriving DecidableEq, Repr

/-- A semaphore with its spin lock. -/
structure Semaphore (κ : Type) where
  spinLock : Bool
  val : SchedulerSemaphore κ
  deriving DecidableEq, Repr

/-- The state of contexts `κ`, condition variables `χ` and mutexes `ν`. -/
structure State (κ χ ν : Type) where
  waitingQueue : χ → List ℕ
  sem : ℕ → Semaphore κ
  /-- how many semaphores were made -/
  made : ℕ
  mutex : ν → SchedulerMutex κ
  pc : κ → Pc κ χ ν
  resumed : κ → Bool
  call : ℕ → Option (κ × χ)
  queued : χ → List ℕ
  taken : χ → List ℕ
  signals : ℕ → ℕ
  returned : ℕ → Bool

/-- A step of one context. -/
inductive Act (κ χ ν : Type) where
  | wait (c : κ) (v : χ) (x : ν)
  | notifyOne (c : κ) (v : χ)
  | notifyAll (c : κ) (v : χ)
  | lock (c : κ) (x : ν)
  | unlock (c : κ) (x : ν)
  /-- the next step of a call -/
  | next (c : κ)
  deriving DecidableEq, Repr

section
variable {κ χ ν : Type}

/-- Where a context stands that goes on. -/
def After.pc : After ν → Pc κ χ ν
  | .done => .idle
  | .wait k x => .waitSpin k x
  | .lock x => .lock x
  | .signals [] => .idle
  | .signals (k :: ks) => .signalSpin k ks

/-- A semaphore as its constructor leaves it: `localWaitSemaphore(0, 1)`. -/
def Semaphore.new : Semaphore κ := ⟨false, ⟨0, 1, []⟩⟩

/-- Nobody waits, and the mutexes are free. -/
def State.init : State κ χ ν where
  waitingQueue _ := []
  sem _ := .new
  made := 0
  mutex _ := ⟨false, []⟩
  pc _ := .idle
  resumed _ := false
  call _ := none
  queued _ := []
  taken _ := []
  signals _ := 0
  returned _ := false

def State.setSem (s : State κ χ ν) (k : ℕ) (m : Semaphore κ) : State κ χ ν :=
  { s with sem := Function.update s.sem k m }

variable [DecidableEq κ]

def State.setPc (s : State κ χ ν) (c : κ) (pc : Pc κ χ ν) : State κ χ ν :=
  { s with pc := Function.update s.pc c pc }

/-- The section of `SchedulerSemaphore::Wait` (`TaskScheduler.cpp:945-951`). -/
def State.waitBody (s : State κ χ ν) (c : κ) (k : ℕ) (x : ν) : State κ χ ν :=
  let (m, got) := (s.sem k).val.wait c
  { (s.setSem k ⟨true, m⟩).setPc c (.waitClear k x got) with
    resumed := if got then s.resumed else Function.update s.resumed c false }

/-- The section of `SchedulerSemaphore::Signal` (`TaskScheduler.cpp:986-1002`). -/
def State.signalBody (s : State κ χ ν) (c : κ) (k : ℕ) (ks : List ℕ) : State κ χ ν :=
  let (m, fiber) := (s.sem k).val.signal
  { (s.setSem k ⟨true, m⟩).setPc c (.signalClear k fiber ks) with
    signals := Function.update s.signals k (s.signals k + 1) }

@[simp] theorem State.pc_signalBody (s : State κ χ ν) (c : κ) (k : ℕ) (ks : List ℕ) :
    (s.signalBody c k ks).pc =
      Function.update s.pc c (.signalClear k (s.sem k).val.signal.2 ks) := rfl

/-- The fiber `c` is past the wait for its semaphore `k`. -/
def State.return (s : State κ χ ν) (c : κ) (k : ℕ) (x : ν) : State κ χ ν :=
  { s.setPc c (.lock x) with returned := Function.update s.returned k true }

variable [DecidableEq χ]

/-- The section of `Wait` (`TaskScheduler.cpp:1023-1025`): a new semaphore is queued. -/
def State.push (s : State κ χ ν) (c : κ) (v : χ) (x : ν) : State κ χ ν :=
  { s.setPc c (.unlock x (.wait s.made x)) with
    waitingQueue := Function.update s.waitingQueue v (s.waitingQueue v ++ [s.made])
    made := s.made + 1
    call := Function.update s.call s.made (some (c, v))
    queued := Function.update s.queued v (s.queued v ++ [s.made]) }

/-- The section of a notify: the first `n` semaphores are taken. -/
def State.take (s : State κ χ ν) (c : κ) (v : χ) (n : ℕ) : State κ χ ν :=
  { s.setPc c (After.signals ((s.waitingQueue v).take n)).pc with
    waitingQueue := Function.update s.waitingQueue v ((s.waitingQueue v).drop n)
    taken := Function.update s.taken v (s.taken v ++ (s.waitingQueue v).take n) }

@[simp] theorem State.pc_push (s : State κ χ ν) (c : κ) (v : χ) (x : ν) :
    (s.push c v x).pc = Function.update s.pc c (.unlock x (.wait s.made x)) := rfl

@[simp] theorem State.pc_take (s : State κ χ ν) (c : κ) (v : χ) (n : ℕ) :
    (s.take c v n).pc =
      Function.update s.pc c (After.signals ((s.waitingQueue v).take n)).pc := rfl

variable [DecidableEq ν]

/-- The section of `Lock` of a fiber (`TaskScheduler.cpp:847-861`). -/
def State.lock (s : State κ χ ν) (c : κ) (x : ν) : State κ χ ν :=
  match (s.mutex x).lock c with
  | (m, true) => { s.setPc c .idle with mutex := Function.update s.mutex x m }
  | (m, false) =>
    { s.setPc c (.lockSuspended x) with
      mutex := Function.update s.mutex x m
      resumed := Function.update s.resumed c false }

/-- The section of `Unlock`. -/
def State.unlock (s : State κ χ ν) (c : κ) (x : ν) (after : After ν) : State κ χ ν :=
  let (m, nextFiber) := (s.mutex x).unlock
  { s.setPc c (nextFiber.elim after.pc fun f => .resume f after) with
    mutex := Function.update s.mutex x m }

/-- The next step of the call that context `c` makes. -/
def nextStep (fiber : κ → Bool) (s : State κ χ ν) (c : κ) : Option (State κ χ ν) :=
  match s.pc c with
  | .idle => none
  | .push v x => some (if fiber c then s.push c v x else s.setPc c (.unlock x (.lock x)))
  | .unlock x after => some (s.unlock c x after)
  | .lock x =>
    if fiber c then some (s.lock c x)
    else
      match (s.mutex x).tryLock with
      | some m => some { s.setPc c .idle with mutex := Function.update s.mutex x m }
      | none => some s
  | .lockSuspended _ =>
    if s.resumed c then
      some { s.setPc c .idle with resumed := Function.update s.resumed c false }
    else none
  | .waitSpin k x =>
    if (s.sem k).spinLock then none
    else some ((s.setSem k ⟨true, (s.sem k).val⟩).setPc c (.waitBody k x))
  | .waitBody k x => some (s.waitBody c k x)
  | .waitClear k x got =>
    let s := s.setSem k ⟨false, (s.sem k).val⟩
    some (if got then s.return c k x else s.setPc c (.waitSuspended k x))
  | .waitSuspended k x =>
    if s.resumed c then
      some { s.return c k x with resumed := Function.update s.resumed c false }
    else none
  | .notifyOne v => some (s.take c v 1)
  | .notifyAll v => some (s.take c v (s.waitingQueue v).length)
  | .signalSpin k ks =>
    if (s.sem k).spinLock then none
    else some ((s.setSem k ⟨true, (s.sem k).val⟩).setPc c (.signalBody k ks))
  | .signalBody k ks => some (s.signalBody c k ks)
  | .signalClear k nextFiber ks =>
    some ((s.setSem k ⟨false, (s.sem k).val⟩).setPc c
      (nextFiber.elim (After.signals ks).pc fun f => .resume f (.signals ks)))
  | .resume f after =>
    some { s.setPc c after.pc with resumed := Function.update s.resumed f true }

/-- One step of the machine. -/
def step (fiber : κ → Bool) (s : State κ χ ν) : Act κ χ ν → Option (State κ χ ν)
  | .wait c v x => if s.pc c = .idle then some (s.setPc c (.push v x)) else none
  | .notifyOne c v => if s.pc c = .idle then some (s.setPc c (.notifyOne v)) else none
  | .notifyAll c v => if s.pc c = .idle then some (s.setPc c (.notifyAll v)) else none
  | .lock c x => if s.pc c = .idle then some (s.setPc c (.lock x)) else none
  | .unlock c x => if s.pc c = .idle then some (s.setPc c (.unlock x .done)) else none
  | .next c => nextStep fiber s c

end

end JLibScheduler.ConditionVariable
