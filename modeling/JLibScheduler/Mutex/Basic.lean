import JLibScheduler.Sync.Basic

/-!
# The owner of a mutex

`SchedulerMutex` (`TaskScheduler.cpp:840-934`) with all it does: the sections under its spin lock,
those of `Sync`, and the record of the holder under a second lock. `Unlock` first clears the holder,
then takes a fiber from the queue or clears `locked`, then ends the boost of the holder's task, then
resumes the fiber; a fiber that was resumed enters itself as the holder. A context is a task, fast
job or fiber, or a thread without a task. The caller that `GetCurrentTask` returns for a fiber is
its own task; for a fast job it is a choice of the step, since a job that helps in a spin loop gets
the task beneath it, and a thread without a task gets none.

Not in the code: `owns`, the contexts that own a mutex, from the moment they set `locked` or are
taken from the queue, until their own `Unlock`; and for each mutex the fibers that were queued,
taken from the queue, and that have returned from `Lock` after they waited, in this order.
-/

namespace JLibScheduler.Mutex

open JLibScheduler.Sync (SchedulerMutex)

/-- Where a context stands. -/
inductive Pc (κ ν : Type) where
  | idle
  /-- before the section of `Lock` of a fiber -/
  | lock (x : ν)
  /-- before the section of `Try_Lock`, in the loop of `Lock` or not -/
  | tryLock (x : ν) (spins : Bool)
  /-- in the queue or taken from it, until it is resumed -/
  | suspended (x : ν)
  /-- before it enters itself as the holder, after a wait or not -/
  | setHolder (x : ν) (waited : Bool)
  /-- `Unlock`: before the holder is cleared, before the section, before the end of the boost,
  before `Resume` -/
  | clearHolder (x : ν)
  | unlock (x : ν) (wasHolder : Option κ)
  | unboost (wasHolder nextFiber : Option κ)
  | resume (nextFiber : κ)
  deriving DecidableEq, Repr

/-- The state of contexts `κ` and mutexes `ν`. -/
structure State (κ ν : Type) where
  mutex : ν → SchedulerMutex κ
  lockHolder : ν → Option κ
  pc : κ → Pc κ ν
  resumed : κ → Bool
  hiPri : κ → UInt8
  priorityBoost : κ → UInt8
  owns : ν → List κ
  queued : ν → List κ
  taken : ν → List κ
  acquired : ν → List κ

/-- A step of one context. -/
inductive Act (κ ν : Type) where
  | lock (c : κ) (x : ν)
  | tryLock (c : κ) (x : ν)
  | unlock (c : κ) (x : ν)
  /-- the next step of a call, with what `GetCurrentTask` returns -/
  | next (c : κ) (callerTask : Option κ)
  deriving DecidableEq, Repr

section
variable {κ ν : Type}

/-- All mutexes are free; the tasks have their priorities and no boost. -/
def State.init (hiPri : κ → UInt8) : State κ ν where
  mutex _ := ⟨false, []⟩
  lockHolder _ := none
  pc _ := .idle
  resumed _ := false
  hiPri := hiPri
  priorityBoost _ := 0
  owns _ := []
  queued _ := []
  taken _ := []
  acquired _ := []

variable [DecidableEq κ] [DecidableEq ν]

/-- `BoostTaskPriority` (`TaskScheduler.cpp:814-822`). No function calls it. -/
def boostTaskPriority (s : State κ ν) (t : κ) : State κ ν :=
  if s.priorityBoost t = 0 then
    { s with
      priorityBoost := Function.update s.priorityBoost t (s.hiPri t)
      hiPri := Function.update s.hiPri t 1 }
  else s

/-- `UnboostTaskPriority` (`TaskScheduler.cpp:824-831`). -/
def unboostTaskPriority (s : State κ ν) (t : κ) : State κ ν :=
  if s.priorityBoost t ≠ 0 then
    { s with
      hiPri := Function.update s.hiPri t (s.priorityBoost t)
      priorityBoost := Function.update s.priorityBoost t 0 }
  else s

def State.setPc (s : State κ ν) (c : κ) (pc : Pc κ ν) : State κ ν :=
  { s with pc := Function.update s.pc c pc }

/-- The context `c` sets `locked` of the mutex `x`, which becomes `m`. -/
def State.got (s : State κ ν) (c : κ) (x : ν) (m : SchedulerMutex κ) : State κ ν :=
  { s.setPc c (.setHolder x false) with
    mutex := Function.update s.mutex x m
    owns := Function.update s.owns x (s.owns x ++ [c]) }

/-- The fiber `c` is put in the queue of the mutex `x`, which becomes `m`. -/
def State.queue (s : State κ ν) (c : κ) (x : ν) (m : SchedulerMutex κ) : State κ ν :=
  { s.setPc c (.suspended x) with
    mutex := Function.update s.mutex x m
    queued := Function.update s.queued x (s.queued x ++ [c])
    resumed := Function.update s.resumed c false }

/-- The section of `Unlock`. -/
def State.unlock (s : State κ ν) (c : κ) (x : ν) (wasHolder : Option κ) : State κ ν :=
  let (m, nextFiber) := (s.mutex x).unlock
  { s.setPc c (.unboost wasHolder nextFiber) with
    mutex := Function.update s.mutex x m
    owns := Function.update s.owns x ((s.owns x).erase c ++ nextFiber.toList)
    taken := Function.update s.taken x (s.taken x ++ nextFiber.toList) }

/-- The next step of the call that context `c` makes. -/
def nextStep (fiber : κ → Bool) (s : State κ ν) (c : κ) (callerTask : Option κ) :
    Option (State κ ν) :=
  match s.pc c with
  | .idle => none
  | .lock x =>
    match (s.mutex x).lock c with
    | (m, true) => some (s.got c x m)
    | (m, false) => some (s.queue c x m)
  | .tryLock x spins =>
    match (s.mutex x).tryLock with
    | some m => some (s.got c x m)
    | none => some (s.setPc c (if spins then .tryLock x true else .idle))
  | .suspended x =>
    if s.resumed c then
      some { s.setPc c (.setHolder x true) with resumed := Function.update s.resumed c false }
    else none
  | .setHolder x waited =>
    some { s.setPc c .idle with
      lockHolder := Function.update s.lockHolder x (if fiber c then some c else callerTask)
      acquired := if waited then Function.update s.acquired x (s.acquired x ++ [c])
        else s.acquired }
  | .clearHolder x =>
    some { s.setPc c (.unlock x (s.lockHolder x)) with
      lockHolder := Function.update s.lockHolder x none }
  | .unlock x wasHolder => some (s.unlock c x wasHolder)
  | .unboost wasHolder nextFiber =>
    some ((wasHolder.elim s (unboostTaskPriority s)).setPc c (nextFiber.elim .idle .resume))
  | .resume nextFiber =>
    some { s.setPc c .idle with resumed := Function.update s.resumed nextFiber true }

/-- One step of the machine. Only an owner calls `Unlock`. -/
def step (fiber : κ → Bool) (s : State κ ν) : Act κ ν → Option (State κ ν)
  | .lock c x =>
    if s.pc c = .idle then some (s.setPc c (if fiber c then .lock x else .tryLock x true)) else none
  | .tryLock c x => if s.pc c = .idle then some (s.setPc c (.tryLock x false)) else none
  | .unlock c x =>
    if s.pc c = .idle ∧ c ∈ s.owns x then some (s.setPc c (.clearHolder x)) else none
  | .next c callerTask => nextStep fiber s c callerTask

end

end JLibScheduler.Mutex
