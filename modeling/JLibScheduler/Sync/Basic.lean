import JLibScheduler.Fiber.Basic

/-!
# Mutexes and semaphores of fibers

`SchedulerMutex` and `SchedulerSemaphore` keep a queue of the fibers that wait for them. A fiber
that finds the mutex locked, or no permit, is put into the queue under the spin lock, and announces
its suspension after it left the spin lock; `Unlock` and `Signal` take the first fiber from the
queue under the spin lock, and call `Resume` on it after they left it. This module gives what
happens under the spin lock as functions (`SchedulerMutex.lock`, `SchedulerMutex.unlock`,
`SchedulerSemaphore.wait`, `SchedulerSemaphore.signal`), and over them the machine of any number of
mutexes and semaphores, of fibers and other threads that use them, and of the workers that run the
fibers. One step is one section under a spin lock, or one access to a status word or to a queue of
tasks.

The record of the holder of a mutex only serves the priorities of tasks and is left out. Not in the
code: `handed`, which records that a `Resume` call for the current wait of a fiber has returned.
-/

namespace JLibScheduler.Sync

open JLibScheduler.Fiber (ResumePc SwitchPc resume afterSwitch)

/-- `SchedulerMutex` -/
structure SchedulerMutex (φ : Type) where
  locked : Bool
  waitingFibers : List φ
  deriving DecidableEq, Repr

/-- `SchedulerSemaphore`. The permits are an `int` that is raised below `maxPermits` and lowered
above zero only, so they do not wrap. -/
structure SchedulerSemaphore (φ : Type) where
  permits : ℤ
  maxPermits : ℤ
  waitingFibers : List φ
  deriving DecidableEq, Repr

section
variable {φ : Type}

/-- `SchedulerMutex::Try_Lock` (`TaskScheduler.cpp:918-934`), `none` for a locked mutex. -/
def SchedulerMutex.tryLock (m : SchedulerMutex φ) : Option (SchedulerMutex φ) :=
  if m.locked then none else some { m with locked := true }

/-- The section of `SchedulerMutex::Lock` for a fiber (`TaskScheduler.cpp:847-861`), and whether it
took the lock. -/
def SchedulerMutex.lock (m : SchedulerMutex φ) (current : φ) : SchedulerMutex φ × Bool :=
  if !m.locked then ({ m with locked := true }, true)
  else ({ m with waitingFibers := m.waitingFibers ++ [current] }, false)

/-- The section of `SchedulerMutex::Unlock` (`TaskScheduler.cpp:897-907`) with the fiber that gets
the lock, which stays locked for it. -/
def SchedulerMutex.unlock (m : SchedulerMutex φ) : SchedulerMutex φ × Option φ :=
  match m.waitingFibers with
  | nextFiber :: rest => ({ m with waitingFibers := rest }, some nextFiber)
  | [] => ({ m with locked := false }, none)

/-- `SchedulerSemaphore::Try_Wait` (`TaskScheduler.cpp:967-976`). -/
def SchedulerSemaphore.tryWait (m : SchedulerSemaphore φ) : Option (SchedulerSemaphore φ) :=
  if m.permits > 0 then some { m with permits := m.permits - 1 } else none

/-- The section of `SchedulerSemaphore::Wait` for a fiber (`TaskScheduler.cpp:940-951`), and whether
it took a permit. -/
def SchedulerSemaphore.wait (m : SchedulerSemaphore φ) (current : φ) :
    SchedulerSemaphore φ × Bool :=
  if m.permits > 0 then ({ m with permits := m.permits - 1 }, true)
  else ({ m with waitingFibers := m.waitingFibers ++ [current] }, false)

/-- The section of `SchedulerSemaphore::Signal` (`TaskScheduler.cpp:980-1002`) with the fiber that
gets the permit. -/
def SchedulerSemaphore.signal (m : SchedulerSemaphore φ) : SchedulerSemaphore φ × Option φ :=
  match m.waitingFibers with
  | fiber :: rest => ({ m with waitingFibers := rest }, some fiber)
  | [] =>
    if m.permits < m.maxPermits then ({ m with permits := m.permits + 1 }, none) else (m, none)

/-- The constructors of `SchedulerMutex` and `SchedulerSemaphore`. -/
inductive Kind where
  | mutex
  | semaphore (initialPermits maxPermits : ℤ)
  deriving DecidableEq, Repr

/-- What a fiber can wait for. -/
inductive Obj (φ : Type) where
  | mutex (m : SchedulerMutex φ)
  | semaphore (m : SchedulerSemaphore φ)
  deriving DecidableEq, Repr

def Obj.isMutex : Obj φ → Bool
  | .mutex _ => true
  | .semaphore _ => false

def Obj.waitingFibers : Obj φ → List φ
  | .mutex m => m.waitingFibers
  | .semaphore m => m.waitingFibers

/-- An object as its constructor leaves it. -/
def Obj.new : Kind → Obj φ
  | .mutex => .mutex ⟨false, []⟩
  | .semaphore initialPermits maxPermits => .semaphore ⟨initialPermits, maxPermits, []⟩

/-- `Try_Lock` or `Try_Wait`. -/
def Obj.tryAcquire : Obj φ → Option (Obj φ)
  | .mutex m => m.tryLock.map .mutex
  | .semaphore m => m.tryWait.map .semaphore

/-- `Lock` or `Wait` of a fiber. -/
def Obj.acquire : Obj φ → φ → Obj φ × Bool
  | .mutex m, f => (.mutex (m.lock f).1, (m.lock f).2)
  | .semaphore m, f => (.semaphore (m.wait f).1, (m.wait f).2)

/-- `Unlock` or `Signal`. -/
def Obj.release : Obj φ → Obj φ × Option φ
  | .mutex m => (.mutex m.unlock.1, m.unlock.2)
  | .semaphore m => (.semaphore m.signal.1, m.signal.2)

@[simp] theorem Obj.waitingFibers_new (k : Kind) : (Obj.new k : Obj φ).waitingFibers = [] := by
  cases k <;> rfl

@[simp] theorem Obj.isMutex_acquire (o : Obj φ) (f : φ) : (o.acquire f).1.isMutex = o.isMutex := by
  cases o <;> rfl

@[simp] theorem Obj.isMutex_release (o : Obj φ) : o.release.1.isMutex = o.isMutex := by
  cases o <;> rfl

theorem Obj.isMutex_tryAcquire {o o' : Obj φ} (h : o.tryAcquire = some o') :
    o'.isMutex = o.isMutex := by
  cases o with
  | mutex m =>
    obtain ⟨m', -, rfl⟩ := Option.map_eq_some_iff.1 h
    rfl
  | semaphore m =>
    obtain ⟨m', -, rfl⟩ := Option.map_eq_some_iff.1 h
    rfl

/-- A caller that is not a fiber leaves the queue as it is. -/
theorem Obj.waitingFibers_tryAcquire {o o' : Obj φ} (h : o.tryAcquire = some o') :
    o'.waitingFibers = o.waitingFibers := by
  cases o with
  | mutex m =>
    obtain ⟨m', hm, rfl⟩ := Option.map_eq_some_iff.1 h
    simp only [SchedulerMutex.tryLock, Option.ite_none_left_eq_some, Option.some.injEq] at hm
    obtain ⟨-, rfl⟩ := hm
    rfl
  | semaphore m =>
    obtain ⟨m', hm, rfl⟩ := Option.map_eq_some_iff.1 h
    simp only [SchedulerSemaphore.tryWait, Option.ite_none_right_eq_some, Option.some.injEq] at hm
    obtain ⟨-, rfl⟩ := hm
    rfl

/-- A fiber gets what it asked for and the queue stays, or it is the last of the queue. -/
theorem Obj.waitingFibers_acquire (o : Obj φ) (f : φ) :
    (o.acquire f).1.waitingFibers =
      if (o.acquire f).2 then o.waitingFibers else o.waitingFibers ++ [f] := by
  cases o with
  | mutex m =>
    simp only [acquire, SchedulerMutex.lock]
    split_ifs <;> simp_all [waitingFibers]
  | semaphore m =>
    simp only [acquire, SchedulerSemaphore.wait]
    split_ifs <;> simp_all [waitingFibers]

/-- The fiber that is taken was the first of the queue. -/
theorem Obj.waitingFibers_release (o : Obj φ) :
    o.release.2.toList ++ o.release.1.waitingFibers = o.waitingFibers := by
  cases o with
  | mutex m =>
    simp only [release, SchedulerMutex.unlock]
    split <;> simp_all [waitingFibers]
  | semaphore m =>
    simp only [release, SchedulerSemaphore.signal]
    split
    · simp_all [waitingFibers]
    · split_ifs <;> simp_all [waitingFibers]

end

/-- Where the code of a fiber or of another thread stands. -/
inductive Pc (φ ν : Type) where
  /-- a fiber whose task is not submitted yet -/
  | fresh
  /-- outside the calls -/
  | body
  /-- before the section of `Lock` or `Wait` -/
  | acquire (x : ν)
  /-- in the queue, before the store of `WANTS_SUSPEND` in `Fiber::Suspend` -/
  | suspend
  /-- before the section of `Unlock` or `Signal` -/
  | release (x : ν)
  /-- `Resume` on the fiber that was taken from the queue -/
  | resume (f : φ) (pc : ResumePc)
  /-- a status is stored; before the context switch -/
  | switch
  /-- switched out -/
  | away
  deriving DecidableEq, Repr

/-- Where a worker's loop stands with respect to fibers. -/
inductive WorkerPc (φ : Type) where
  | idle
  /-- before the store of `RUNNING` and the switch -/
  | picked (f : φ)
  | on (f : φ)
  | back (f : φ) (pc : SwitchPc)
  deriving DecidableEq, Repr

/-- The state of fibers `φ`, other threads `ι`, workers `ω` and mutexes and semaphores `ν`. The
inboxes and deques are one bag `queued` here. -/
structure State (φ ν ω ι : Type) where
  status : φ → FiberStatus
  pc : φ ⊕ ι → Pc φ ν
  obj : ν → Obj φ
  queued : List φ
  worker : ω → WorkerPc φ
  handed : φ → Bool

/-- What code does next; the choices matter outside the calls. -/
inductive Move (ν : Type) where
  | acquire (x : ν)
  | release (x : ν)
  | coYield
  | finish
  /-- the next step of a call that has begun -/
  | next
  deriving DecidableEq, Repr

/-- A step of one party. -/
inductive Act (φ ν ω ι : Type) where
  | push (f : φ)
  | pick (w : ω) (f : φ)
  | worker (w : ω)
  /-- the fiber that runs on the worker -/
  | fiber (w : ω) (m : Move ν)
  | thread (i : ι) (m : Move ν)
  deriving DecidableEq, Repr

section
variable {φ ν ω ι : Type} [DecidableEq φ] [DecidableEq ν] [DecidableEq ω] [DecidableEq ι]

/-- No task is submitted, and the mutexes and semaphores are as they were made. -/
def State.init (kind : ν → Kind) : State φ ν ω ι where
  status _ := .ready
  pc := Sum.elim (fun _ => .fresh) fun _ => .body
  obj x := .new (kind x)
  queued := []
  worker _ := .idle
  handed _ := false

def State.setPc (s : State φ ν ω ι) (c : φ ⊕ ι) (pc : Pc φ ν) : State φ ν ω ι :=
  { s with pc := Function.update s.pc c pc }

def State.setStatus (s : State φ ν ω ι) (f : φ) (v : FiberStatus) : State φ ν ω ι :=
  { s with status := Function.update s.status f v }

def State.setWorker (s : State φ ν ω ι) (w : ω) (pc : WorkerPc φ) : State φ ν ω ι :=
  { s with worker := Function.update s.worker w pc }

/-- The steps that fibers and other threads have in common: the calls begin, `Unlock` and `Signal`
take a fiber, `Resume` wakes it. -/
def callStep (s : State φ ν ω ι) (c : φ ⊕ ι) (m : Move ν) : Option (State φ ν ω ι) :=
  match s.pc c, m with
  | .body, .acquire x => some (s.setPc c (.acquire x))
  | .body, .release x => some (s.setPc c (.release x))
  | .release x, .next =>
    let (o, nextFiber) := (s.obj x).release
    some { s.setPc c (nextFiber.elim .body fun f => .resume f .load) with
      obj := Function.update s.obj x o }
  | .resume f pc, .next =>
    let (v, pc') := resume pc (s.status f)
    some { (s.setStatus f v).setPc c (pc'.elim .body fun pc' => .resume f pc') with
      queued := if pc = .requeue then f :: s.queued else s.queued
      handed := if pc' = none then Function.update s.handed f true else s.handed }
  | _, _ => none

/-- A step of the fiber `f`, which runs on worker `w`. -/
def fiberStep (s : State φ ν ω ι) (w : ω) (f : φ) (m : Move ν) : Option (State φ ν ω ι) :=
  match s.pc (.inl f), m with
  | .acquire x, .next =>
    let (o, got) := (s.obj x).acquire f
    some { s.setPc (.inl f) (if got then .body else .suspend) with
      obj := Function.update s.obj x o
      handed := if got then s.handed else Function.update s.handed f false }
  | .suspend, .next => some ((s.setStatus f .wantsSuspend).setPc (.inl f) .switch)
  | .body, .coYield => some ((s.setStatus f .wantsYield).setPc (.inl f) .switch)
  | .body, .finish => some ((s.setStatus f .dead).setPc (.inl f) .switch)
  | .switch, .next => some ((s.setPc (.inl f) .away).setWorker w (.back f .load))
  | _, _ => callStep s (.inl f) m

/-- A step of a thread that is not a fiber: it spins on `Try_Lock` or `Try_Wait`. -/
def threadStep (s : State φ ν ω ι) (i : ι) (m : Move ν) : Option (State φ ν ω ι) :=
  match s.pc (.inr i), m with
  | .acquire x, .next =>
    some ((s.obj x).tryAcquire.elim s fun o =>
      { s.setPc (.inr i) .body with obj := Function.update s.obj x o })
  | _, _ => callStep s (.inr i) m

/-- A step of worker `w` with its fiber: the switch to it, or a step after it came back. -/
def workerStep (s : State φ ν ω ι) (w : ω) : Option (State φ ν ω ι) :=
  match s.worker w with
  | .picked f => some (((s.setStatus f .running).setPc (.inl f) .body).setWorker w (.on f))
  | .back f pc =>
    let (v, pc') := afterSwitch pc (s.status f)
    some { (s.setStatus f v).setWorker w (pc'.elim .idle fun pc' => .back f pc') with
      queued := if pc = .requeue ∨ pc = .pushBottom then f :: s.queued else s.queued }
  | _ => none

/-- One step of the machine. -/
def step (s : State φ ν ω ι) : Act φ ν ω ι → Option (State φ ν ω ι)
  | .push f =>
    if s.pc (.inl f) = .fresh then some { s.setPc (.inl f) .away with queued := f :: s.queued }
    else none
  | .pick w f =>
    if s.worker w = .idle ∧ f ∈ s.queued then
      some { s.setWorker w (.picked f) with queued := s.queued.erase f }
    else none
  | .worker w => workerStep s w
  | .fiber w m =>
    match s.worker w with
    | .on f => fiberStep s w f m
    | _ => none
  | .thread i m => threadStep s i m

end

end JLibScheduler.Sync
