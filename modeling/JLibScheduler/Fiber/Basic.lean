import Mathlib
import JLibScheduler.Lib.Lts

/-!
# Fibers, event waits and wake-ups

A fiber announces a suspension in its status word and switches back to the worker that runs it; the
worker then decides in `Thread::Worker` whether to park it, and `Fiber::Resume` wakes it. Both
decisions are taken by compare-exchanges on the one status word (`resume`, `afterSwitch`). This
module gives them as functions of that word, and over them the machine of event waits: any number
of fibers that call `WaitOnEvent`, `WaitOnEventArmed` or `WaitOnEventDirectArmed`, the workers that
run them, and threads that call `Signal` and `SignalAll` on events and `Signal` on direct events.
One step is one access to the status word, to a waiter set (under its mutex), to a waiter slot or to
a queue.
-/

namespace JLibScheduler

/-- The values of the status word (`Fiber.h`). -/
inductive FiberStatus where
  | ready
  | running
  | wantsYield
  | wantsSuspend
  | suspendSignaled
  | suspended
  | dead
  deriving DecidableEq, Repr

namespace Fiber

/-- Where a call of `Fiber::Resume` stands: at the load of its loop, at one of the two
compare-exchanges, or at the call of `Requeue`. -/
inductive ResumePc where
  | load
  | casSuspended
  | casWantsSuspend
  | requeue
  deriving DecidableEq, Repr

/-- One step of `Fiber::Resume` (`Fiber.cpp:66-94`) on the status word: the new word and where the
call stands then, or `none` when it returns. -/
def resume : ResumePc → FiberStatus → FiberStatus × Option ResumePc
  | .load, .suspended => (.suspended, some .casSuspended)
  | .load, .wantsSuspend => (.wantsSuspend, some .casWantsSuspend)
  -- RUNNING, READY, WANTS_YIELD, SUSPEND_SIGNALED and DEAD are not resumable
  | .load, v => (v, none)
  | .casSuspended, v => if v = .suspended then (.ready, some .requeue) else (v, none)
  | .casWantsSuspend, v =>
    if v = .wantsSuspend then (.suspendSignaled, none) else (v, some .load)
  | .requeue, v => (v, none)

/-- Where `Thread::Worker` stands after a fiber switched back to it. -/
inductive SwitchPc where
  | load
  /-- the `DEAD` branch: the task is cleaned up and freed -/
  | dead
  /-- the `WANTS_YIELD` branch, at the store of `READY` -/
  | yield
  | pushBottom
  /-- the last branch, at the compare-exchange from `WANTS_SUSPEND` to `SUSPENDED` -/
  | park
  /-- the compare-exchange failed on `SUSPEND_SIGNALED`; at the store of `READY` -/
  | signaled
  | requeue
  deriving DecidableEq, Repr

/-- One step of `Thread::Worker` after the switch (`Thread.cpp:248-299`) on the status word of the
fiber that came back: the new word and where the worker stands then, or `none` when it is done with
the fiber. -/
def afterSwitch : SwitchPc → FiberStatus → FiberStatus × Option SwitchPc
  | .load, .dead => (.dead, some .dead)
  | .load, .wantsYield => (.wantsYield, some .yield)
  | .load, v => (v, some .park)
  | .dead, v => (v, none)
  | .yield, _ => (.ready, some .pushBottom)
  | .pushBottom, v => (v, none)
  | .park, v =>
    if v = .wantsSuspend then (.suspended, none)
    else if v = .suspendSignaled then (v, some .signaled)
    else (v, none)
  | .signaled, _ => (.ready, some .requeue)
  | .requeue, v => (v, none)

/-- Where the code of a fiber stands. A wait that took a direct event from the pool releases it
after the switch; the pcs of the wait carry that event. -/
inductive FiberPc (ε δ : Type) where
  /-- its task is not submitted yet -/
  | fresh
  /-- in the task's own code -/
  | body
  /-- `WaitOnEvent`, after the store of `WANTS_SUSPEND`, before `AddWaiter` -/
  | announced (e : ε)
  /-- `EventPool::Acquire`, before the store of `nullptr` to the waiter -/
  | dequeued (d : δ)
  /-- `WaitOnEventDirectArmed`, before the store of `WANTS_SUSPEND` -/
  | acquired (d : δ)
  /-- `WaitOnEventDirectArmed`, after that store, before the store of the waiter -/
  | announcedDirect (d : δ)
  /-- the waiter is published; the callback `arm` runs, then the fiber switches out -/
  | armed (r : Option δ)
  /-- the fiber stored `WANTS_YIELD` or `DEAD` and is about to switch out -/
  | leaving
  /-- switched out, with its context saved -/
  | away (r : Option δ)
  /-- resumed, before `EventPool::Release` -/
  | release (d : δ)
  deriving DecidableEq, Repr

/-- Where the fiber continues when a worker switches to it: at the saved context. -/
def FiberPc.continue {ε δ : Type} : FiberPc ε δ → FiberPc ε δ
  | .away none => .body
  | .away (some d) => .release d
  | pc => pc

/-- A fiber: its status word, where its code stands, and the number of waits it has begun (history
only: no step reads it). -/
structure FiberState (ε δ : Type) where
  status : FiberStatus
  pc : FiberPc ε δ
  waits : ℕ
  deriving DecidableEq, Repr

/-- Where a worker's loop stands with respect to fibers. After the switch it carries the number of
the wait its fiber was in (history only). -/
inductive WorkerPc (τ : Type) where
  | idle
  /-- `task_to_run` is set; at the store of `RUNNING` and the switch -/
  | picked (t : τ)
  /-- the fiber of `t` runs on this worker -/
  | on (t : τ)
  | back (t : τ) (k : ℕ) (pc : SwitchPc)
  deriving DecidableEq, Repr

/-- A thread that calls `Signal` or `SignalAll`: the waiters it removed and has not resumed yet,
each with the number of the wait it was removed from (history only), and where the `Resume` of the
first one stands. An empty list means that the thread is in no call. -/
structure Signaler (τ : Type) where
  toWake : List (τ × ℕ)
  pc : ResumePc
  deriving DecidableEq, Repr

/-- What can be observed of the `k`-th wait of a task. -/
inductive Obs (τ : Type) where
  /-- the worker came back from the context switch -/
  | back (t : τ) (k : ℕ)
  /-- `Requeue` put the task into a queue -/
  | requeue (t : τ) (k : ℕ)
  /-- a signaler that had removed the waiter finished its `Resume` call -/
  | resumed (t : τ) (k : ℕ)
  /-- the worker finished its park step -/
  | parked (t : τ) (k : ℕ)
  deriving DecidableEq, Repr

/-- The task an observation is about. -/
def Obs.task {τ : Type} : Obs τ → τ
  | .back t _ | .requeue t _ | .resumed t _ | .parked t _ => t

/-- The wait an observation is about. -/
def Obs.wait {τ : Type} : Obs τ → ℕ
  | .back _ k | .requeue _ k | .resumed _ k | .parked _ k => k

/-- The state of the event waits of tasks `τ` on events `ε` and direct events `δ`, with workers `ω`
and signaling threads `ι`. A task stands for itself and for the fiber assigned to it. The inboxes
and deques are one bag `queued` here, and `log` is the history of observations, newest first. -/
structure State (τ ε δ ω ι : Type) where
  fiber : τ → FiberState ε δ
  waiters : ε → List τ
  waiter : δ → Option τ
  freeq : List δ
  queued : List τ
  worker : ω → WorkerPc τ
  signaler : ι → Signaler τ
  log : List (Obs τ)

/-- What the code of a running fiber does next; the choices matter in the task's own code. -/
inductive Move (ε δ : Type) where
  /-- `WaitOnEvent` or `WaitOnEventArmed` -/
  | waitOnEvent (e : ε)
  /-- `WaitOnEventDirectArmed`, with the direct event that the pool hands out -/
  | waitOnEventDirect (d : δ)
  | coYield
  | finish
  /-- the next step of a call that has begun -/
  | next
  deriving DecidableEq, Repr

/-- A step of one party. -/
inductive Act (τ ε δ ω ι : Type) where
  | push (t : τ)
  | pick (w : ω) (t : τ)
  | fiber (w : ω) (m : Move ε δ)
  | worker (w : ω)
  | signal (i : ι) (e : ε) (t : τ)
  /-- `SignalAll`, with the order in which the waiter set is iterated -/
  | signalAll (i : ι) (e : ε) (order : List τ)
  | signalDirect (i : ι) (d : δ)
  | resume (i : ι)
  deriving DecidableEq, Repr

section
variable {τ ε δ ω ι : Type} [DecidableEq τ] [DecidableEq ε] [DecidableEq δ] [DecidableEq ω]
  [DecidableEq ι]

/-- No task is submitted, no event has a waiter, and the direct events of the pool are free. -/
def init (pool : List δ) : State τ ε δ ω ι where
  fiber _ := ⟨.ready, .fresh, 0⟩
  waiters _ := []
  waiter _ := none
  freeq := pool
  queued := []
  worker _ := .idle
  signaler _ := ⟨[], .load⟩
  log := []

/-- The state with the fiber of `t` replaced. -/
def State.setFiber (s : State τ ε δ ω ι) (t : τ) (f : FiberState ε δ) : State τ ε δ ω ι :=
  { s with fiber := Function.update s.fiber t f }

/-- The state with worker `w` moved. -/
def State.setWorker (s : State τ ε δ ω ι) (w : ω) (pc : WorkerPc τ) : State τ ε δ ω ι :=
  { s with worker := Function.update s.worker w pc }

/-- The fiber of `t` switches back to worker `w`. -/
def switchOut (s : State τ ε δ ω ι) (w : ω) (t : τ) (r : Option δ) : State τ ε δ ω ι :=
  let f := s.fiber t
  { (s.setFiber t { f with pc := .away r }).setWorker w (.back t f.waits .load) with
    log := .back t f.waits :: s.log }

/-- A step of the fiber of `t`, which runs on worker `w`: `WaitOnEvent`, `WaitOnEventArmed`
(`TaskScheduler.cpp:403-428`, `539-561`), `WaitOnEventDirectArmed` (`563-589`), `CoYield` and the
end of `FiberEntryWrapper`. -/
def fiberStep (s : State τ ε δ ω ι) (w : ω) (t : τ) (m : Move ε δ) : Option (State τ ε δ ω ι) :=
  let f := s.fiber t
  match f.pc, m with
  | .body, .waitOnEvent e =>
    some (s.setFiber t ⟨.wantsSuspend, .announced e, f.waits + 1⟩)
  | .announced e, .next =>
    some { s.setFiber t { f with pc := .armed none } with
      waiters := Function.update s.waiters e ((s.waiters e).insert t) }
  | .body, .waitOnEventDirect d =>
    -- an exhausted pool gives the null pointer, which the caller dereferences
    if d ∈ s.freeq then
      some { s.setFiber t { f with pc := .dequeued d } with freeq := s.freeq.erase d }
    else none
  | .dequeued d, .next =>
    some { s.setFiber t { f with pc := .acquired d } with
      waiter := Function.update s.waiter d none }
  | .acquired d, .next =>
    some (s.setFiber t ⟨.wantsSuspend, .announcedDirect d, f.waits + 1⟩)
  | .announcedDirect d, .next =>
    some { s.setFiber t { f with pc := .armed (some d) } with
      waiter := Function.update s.waiter d (some t) }
  | .armed r, .next => some (switchOut s w t r)
  | .body, .coYield => some (s.setFiber t { f with status := .wantsYield, pc := .leaving })
  | .body, .finish => some (s.setFiber t { f with status := .dead, pc := .leaving })
  | .leaving, .next => some (switchOut s w t none)
  | .release d, .next =>
    some { s.setFiber t { f with pc := .body } with freeq := s.freeq ++ [d] }
  | _, _ => none

/-- What the worker's step after the switch shows, when it stood at `pc` and stands at `pc'`. -/
def parkObs (t : τ) (k : ℕ) (pc : SwitchPc) (pc' : Option SwitchPc) : List (Obs τ) :=
  match pc, pc' with
  | .park, none => [.parked t k]
  | .requeue, _ => [.parked t k, .requeue t k]
  | _, _ => []

/-- A step of worker `w` with its task: the switch to the fiber, or a step after it came back. -/
def workerStep (s : State τ ε δ ω ι) (w : ω) : Option (State τ ε δ ω ι) :=
  match s.worker w with
  | .picked t =>
    let f := s.fiber t
    some ((s.setFiber t { f with status := .running, pc := f.pc.continue }).setWorker w (.on t))
  | .back t k pc =>
    let f := s.fiber t
    let (v, pc') := afterSwitch pc f.status
    some { (s.setFiber t { f with status := v }).setWorker w
        (pc'.elim .idle fun pc' => .back t k pc') with
      queued := if pc = .requeue ∨ pc = .pushBottom then t :: s.queued else s.queued
      log := parkObs t k pc pc' ++ s.log }
  | _ => none

/-- The state after thread `i` removed the waiters `ts` and is about to resume them. -/
def removed (s : State τ ε δ ω ι) (i : ι) (ts : List τ) : State τ ε δ ω ι :=
  { s with
    signaler := Function.update s.signaler i ⟨ts.map fun t => (t, (s.fiber t).waits), .load⟩ }

/-- What a step of a `Resume` call shows, when it stood at `pc` and stands at `pc'`. -/
def resumeObs (t : τ) (k : ℕ) (pc : ResumePc) (pc' : Option ResumePc) : List (Obs τ) :=
  pc'.elim [.resumed t k] (fun _ => []) ++ if pc = .requeue then [.requeue t k] else []

/-- A step of the `Resume` call of thread `i`. -/
def resumeStep (s : State τ ε δ ω ι) (i : ι) : Option (State τ ε δ ω ι) :=
  match s.signaler i with
  | ⟨[], _⟩ => none
  | ⟨(t, k) :: rest, pc⟩ =>
    let f := s.fiber t
    let (v, pc') := resume pc f.status
    some { s.setFiber t { f with status := v } with
      signaler := Function.update s.signaler i
        (pc'.elim ⟨rest, .load⟩ fun pc' => ⟨(t, k) :: rest, pc'⟩)
      queued := if pc = .requeue then t :: s.queued else s.queued
      log := resumeObs t k pc pc' ++ s.log }

/-- One step of the machine. -/
def step (s : State τ ε δ ω ι) : Act τ ε δ ω ι → Option (State τ ε δ ω ι)
  | .push t =>
    if (s.fiber t).pc = .fresh then
      some { s.setFiber t { s.fiber t with pc := .away none } with queued := t :: s.queued }
    else none
  | .pick w t =>
    if s.worker w = .idle ∧ t ∈ s.queued then
      some { s.setWorker w (.picked t) with queued := s.queued.erase t }
    else none
  | .fiber w m =>
    match s.worker w with
    | .on t => fiberStep s w t m
    | _ => none
  | .worker w => workerStep s w
  | .signal i e t =>
    if (s.signaler i).toWake = [] then
      if t ∈ s.waiters e then
        some { removed s i [t] with
          waiters := Function.update s.waiters e ((s.waiters e).erase t) }
      else some s
    else none
  | .signalAll i e order =>
    if (s.signaler i).toWake = [] ∧ order.Perm (s.waiters e) then
      some { removed s i order with waiters := Function.update s.waiters e [] }
    else none
  | .signalDirect i d =>
    if (s.signaler i).toWake = [] then
      match s.waiter d with
      | some t => some { removed s i [t] with waiter := Function.update s.waiter d none }
      | none => some s
    else none
  | .resume i => resumeStep s i

end

end Fiber

end JLibScheduler
