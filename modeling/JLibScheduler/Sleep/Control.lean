import JLibScheduler.Lib.Lts
import JLibScheduler.Lib.Update
import Mathlib.Data.List.FinRange

/-!
# The wait of the workers and the calls that end it

The workers' loops with the flags that their wait depends on, one access per step, and the calls
that change the flags: `Pause`, `Resume`, the two steps of `SetImmediateTask` in `PushToCore`,
`MarkQueuedWork` in a submission, and `Thread::Join`. Each but `Pause` goes on to `NotifyWorker`,
which takes the worker's mutex, gives it back, and notifies; `Resume` does so for all workers, one
after the other. The predicate of the wait is read one flag after the other under the mutex.

What the worker finds in its queues, and what its tasks do, are choices of the step. A worker that
makes a call in its own loop is one more thread here, which is more than the code does.
-/

namespace JLibScheduler.Sleep.Control

/-- Where a worker's loop stands (`Thread.cpp:155-515`). -/
inductive Pc where
  /-- before `running` is read -/
  | head
  /-- before `hasQueuedWork` is cleared -/
  | clear
  /-- before the section that runs `task_to_run`, and in it before `immediate` is set again -/
  | run
  | handBack
  /-- before `immediateTask` is read, is cleared, and before `immediate` is cleared -/
  | check
  | take
  | drop
  /-- before the queues are searched -/
  | search
  /-- before the mutex is taken, for the first time or in the wait -/
  | lock
  /-- in the predicate, before a flag is read -/
  | loadRunning
  | loadImmediate
  | loadPaused
  | loadQueued
  /-- the predicate was false: before the wait gives the mutex back, and in the wait -/
  | blocking
  | blocked
  /-- the predicate was true: before `running` is read again -/
  | leave
  /-- outside the loop -/
  | exit
  | done
  deriving DecidableEq, Repr

/-- The owner of a worker's mutex. -/
inductive Owner (ι : Type) where
  | worker
  | call (i : ι)
  deriving DecidableEq, Repr

/-- A worker. -/
structure Worker (ι τ : Type) where
  pc : Pc
  workerMutex : Option (Owner ι)
  running : Bool
  joining : Bool
  immediate : Bool
  hasQueuedWork : Bool
  immediateTask : Option τ
  deriving DecidableEq, Repr

/-- Where `NotifyWorker` stands: before the mutex is taken, is given back, before `notify_one`. -/
inductive Stage where
  | lock
  | unlock
  | notify
  deriving DecidableEq, Repr

/-- Where a call stands. -/
inductive CallPc (n : ℕ) where
  | idle
  /-- `SetImmediateTask`: before `immediate` is set, before it notifies without the mutex -/
  | setImmediate (w : Fin n)
  | notifyEarly (w : Fin n)
  /-- `Join`: before `running` is cleared -/
  | stop (w : Fin n)
  /-- in `NotifyWorker` of the first worker of `todo`; `join` is the worker that the call joins -/
  | notify (stage : Stage) (todo : List (Fin n)) (join : Option (Fin n))
  /-- `Join`: waits for the end of the worker -/
  | joined (w : Fin n)
  deriving DecidableEq, Repr

/-- The state of `n` workers, with the calls of threads `ι`. -/
structure State (n : ℕ) (ι τ : Type) where
  paused : Bool
  worker : Fin n → Worker ι τ
  call : ι → CallPc n

/-- What a worker does next. -/
inductive Choice (τ : Type) where
  | go
  /-- the loop starts again before its end, or the wait ends without a notification -/
  | again
  /-- there is no fiber for an immediate task -/
  | handBack (t : τ)
  deriving DecidableEq, Repr

/-- A step of one party. -/
inductive Act (n : ℕ) (ι τ : Type) where
  | worker (w : Fin n) (c : Choice τ)
  | pause
  | resume (i : ι)
  | notifyAll (i : ι)
  | markQueuedWork (i : ι) (w : Fin n)
  | setImmediateTask (i : ι) (w : Fin n) (t : τ)
  | join (i : ι) (w : Fin n)
  /-- the next step of a call -/
  | call (i : ι)
  deriving DecidableEq, Repr

section
variable {n : ℕ} {ι τ : Type} [DecidableEq ι]

/-- A step of a worker's loop. -/
def Worker.step (wk : Worker ι τ) (paused : Bool) (c : Choice τ) : Option (Worker ι τ) :=
  match wk.pc, c with
  | .head, .go => some { wk with pc := if wk.running then .clear else .exit }
  | .clear, .go => some { wk with hasQueuedWork := false, pc := .run }
  | .run, .go => some { wk with pc := .check }
  | .run, .again => some { wk with pc := .head }
  | .run, .handBack t => some { wk with immediateTask := some t, pc := .handBack }
  | .handBack, .go => some { wk with immediate := true, pc := .head }
  | .check, .go => some { wk with pc := if wk.immediateTask.isSome then .take else .search }
  | .take, .go => some { wk with immediateTask := none, pc := .drop }
  | .drop, .go => some { wk with immediate := false, pc := .head }
  | .search, .go => some { wk with pc := .lock }
  | .search, .again => some { wk with pc := .head }
  | .lock, .go =>
    if wk.workerMutex = none then some { wk with workerMutex := some .worker, pc := .loadRunning }
    else none
  | .loadRunning, .go => some { wk with pc := if wk.running then .loadImmediate else .leave }
  | .loadImmediate, .go => some { wk with pc := if wk.immediate then .leave else .loadPaused }
  | .loadPaused, .go => some { wk with pc := if paused then .blocking else .loadQueued }
  | .loadQueued, .go => some { wk with pc := if wk.hasQueuedWork then .leave else .blocking }
  | .blocking, .go => some { wk with workerMutex := none, pc := .blocked }
  | .blocked, .again => some { wk with pc := .lock }
  | .leave, .go => some { wk with workerMutex := none, pc := if wk.running then .head else .exit }
  | .exit, .go => some { wk with running := false, pc := .done }
  | _, _ => none

/-- A worker that is notified. -/
def Worker.notified (wk : Worker ι τ) : Worker ι τ :=
  { wk with pc := if wk.pc = .blocked then .lock else wk.pc }

/-- A call goes on to notify the workers `todo`, and then waits for the end of the worker that it
joins. -/
def CallPc.notifyAll (todo : List (Fin n)) (join : Option (Fin n)) : CallPc n :=
  match todo with
  | [] => join.elim .idle .joined
  | _ :: _ => .notify .lock todo join

def State.setWorker (s : State n ι τ) (w : Fin n) (wk : Worker ι τ) : State n ι τ :=
  { s with worker := Function.update s.worker w wk }

def State.setCall (s : State n ι τ) (i : ι) (pc : CallPc n) : State n ι τ :=
  { s with call := Function.update s.call i pc }

/-- The next step of the call of thread `i`. -/
def callStep (s : State n ι τ) (i : ι) : Option (State n ι τ) :=
  match s.call i with
  | .idle => none
  | .setImmediate w =>
    some ((s.setWorker w { s.worker w with immediate := true }).setCall i (.notifyEarly w))
  | .notifyEarly w =>
    some ((s.setWorker w (s.worker w).notified).setCall i (.notify .lock [w] none))
  | .stop w =>
    some ((s.setWorker w { s.worker w with running := false }).setCall i
      (.notify .lock [w] (some w)))
  | .notify _ [] _ => none
  | .notify .lock (w :: rest) join =>
    if (s.worker w).workerMutex = none then
      some ((s.setWorker w { s.worker w with workerMutex := some (.call i) }).setCall i
        (.notify .unlock (w :: rest) join))
    else none
  | .notify .unlock (w :: rest) join =>
    some ((s.setWorker w { s.worker w with workerMutex := none }).setCall i
      (.notify .notify (w :: rest) join))
  | .notify .notify (w :: rest) join =>
    some ((s.setWorker w (s.worker w).notified).setCall i (.notifyAll rest join))
  | .joined w =>
    if (s.worker w).pc = .done then
      some ((s.setWorker w { s.worker w with joining := false }).setCall i .idle)
    else none

/-- One step of the machine. A second `Join` of a worker returns at once. -/
def step (s : State n ι τ) : Act n ι τ → Option (State n ι τ)
  | .worker w c => ((s.worker w).step s.paused c).map (s.setWorker w)
  | .pause => some { s with paused := true }
  | .resume i =>
    if s.call i = .idle then
      some ({ s with paused := false }.setCall i (.notifyAll (List.finRange n) none))
    else none
  | .notifyAll i =>
    if s.call i = .idle then some (s.setCall i (.notifyAll (List.finRange n) none)) else none
  | .markQueuedWork i w =>
    if s.call i = .idle then
      some ((s.setWorker w { s.worker w with hasQueuedWork := true }).setCall i
        (.notify .lock [w] none))
    else none
  | .setImmediateTask i w t =>
    if s.call i = .idle then
      some ((s.setWorker w { s.worker w with immediateTask := some t }).setCall i
        (.setImmediate w))
    else none
  | .join i w =>
    if s.call i = .idle then
      if (s.worker w).joining then some s
      else some ((s.setWorker w { s.worker w with joining := true }).setCall i (.stop w))
    else none
  | .call i => callStep s i

omit [DecidableEq ι] in
/-- The pool has started: every worker is in its loop. -/
def State.init : State n ι τ where
  paused := false
  worker _ :=
    { pc := .head, workerMutex := none, running := true, joining := false, immediate := false
      hasQueuedWork := false, immediateTask := none }
  call _ := .idle

/-- The predicate of the wait. -/
def Worker.predicate (wk : Worker ι τ) (paused : Bool) : Bool :=
  !wk.running || wk.immediate || (!paused && wk.hasQueuedWork)

/-! ## What a step of a worker does -/

/-- The outcomes of a step of a worker, by the place it stood at. -/
inductive Worker.Steps (wk : Worker ι τ) (paused : Bool) : Worker ι τ → Prop where
  | head (hpc : wk.pc = .head) :
    Steps wk paused { wk with pc := if wk.running then .clear else .exit }
  | clear (hpc : wk.pc = .clear) : Steps wk paused { wk with hasQueuedWork := false, pc := .run }
  | run (hpc : wk.pc = .run) : Steps wk paused { wk with pc := .check }
  | runAgain (hpc : wk.pc = .run) : Steps wk paused { wk with pc := .head }
  | noFiber (t : τ) (hpc : wk.pc = .run) :
    Steps wk paused { wk with immediateTask := some t, pc := .handBack }
  | handBack (hpc : wk.pc = .handBack) : Steps wk paused { wk with immediate := true, pc := .head }
  | check (hpc : wk.pc = .check) :
    Steps wk paused { wk with pc := if wk.immediateTask.isSome then .take else .search }
  | take (hpc : wk.pc = .take) : Steps wk paused { wk with immediateTask := none, pc := .drop }
  | drop (hpc : wk.pc = .drop) : Steps wk paused { wk with immediate := false, pc := .head }
  | search (hpc : wk.pc = .search) : Steps wk paused { wk with pc := .lock }
  | found (hpc : wk.pc = .search) : Steps wk paused { wk with pc := .head }
  | lock (hpc : wk.pc = .lock) (hfree : wk.workerMutex = none) :
    Steps wk paused { wk with workerMutex := some .worker, pc := .loadRunning }
  | loadRunning (hpc : wk.pc = .loadRunning) :
    Steps wk paused { wk with pc := if wk.running then .loadImmediate else .leave }
  | loadImmediate (hpc : wk.pc = .loadImmediate) :
    Steps wk paused { wk with pc := if wk.immediate then .leave else .loadPaused }
  | loadPaused (hpc : wk.pc = .loadPaused) :
    Steps wk paused { wk with pc := if paused then .blocking else .loadQueued }
  | loadQueued (hpc : wk.pc = .loadQueued) :
    Steps wk paused { wk with pc := if wk.hasQueuedWork then .leave else .blocking }
  | blocking (hpc : wk.pc = .blocking) :
    Steps wk paused { wk with workerMutex := none, pc := .blocked }
  | wake (hpc : wk.pc = .blocked) : Steps wk paused { wk with pc := .lock }
  | leave (hpc : wk.pc = .leave) :
    Steps wk paused { wk with workerMutex := none, pc := if wk.running then .head else .exit }
  | exit (hpc : wk.pc = .exit) : Steps wk paused { wk with running := false, pc := .done }

omit [DecidableEq ι] in
theorem Worker.steps_of_step {wk wk' : Worker ι τ} {paused : Bool} {c : Choice τ}
    (hs : wk.step paused c = some wk') : wk.Steps paused wk' := by
  unfold Worker.step at hs
  split at hs
  next hpc => cases hs; exact .head hpc
  next hpc => cases hs; exact .clear hpc
  next hpc => cases hs; exact .run hpc
  next hpc => cases hs; exact .runAgain hpc
  next hpc => cases hs; exact .noFiber _ hpc
  next hpc => cases hs; exact .handBack hpc
  next hpc => cases hs; exact .check hpc
  next hpc => cases hs; exact .take hpc
  next hpc => cases hs; exact .drop hpc
  next hpc => cases hs; exact .search hpc
  next hpc => cases hs; exact .found hpc
  next hpc =>
    split at hs
    next hfree => cases hs; exact .lock hpc hfree
    next => cases hs
  next hpc => cases hs; exact .loadRunning hpc
  next hpc => cases hs; exact .loadImmediate hpc
  next hpc => cases hs; exact .loadPaused hpc
  next hpc => cases hs; exact .loadQueued hpc
  next hpc => cases hs; exact .blocking hpc
  next hpc => cases hs; exact .wake hpc
  next hpc => cases hs; exact .leave hpc
  next hpc => cases hs; exact .exit hpc
  next => cases hs

/-! ## The calls that are still to come to a worker -/

/-- The workers whose mutex a call has still to take. -/
def CallPc.locks : CallPc n → List (Fin n)
  | .setImmediate w | .notifyEarly w => [w]
  | .notify .lock todo _ => todo
  | .notify _ todo _ => todo.tail
  | _ => []

/-- The workers that a call has still to notify after it has held their mutex. -/
def CallPc.notifies : CallPc n → List (Fin n)
  | .setImmediate w | .notifyEarly w => [w]
  | .notify _ todo _ => todo
  | _ => []

/-- Some call has still to take the mutex of the worker. -/
def State.Locks (s : State n ι τ) (w : Fin n) : Prop := ∃ i, w ∈ (s.call i).locks

/-- Some call has still to notify the worker. -/
def State.Notifies (s : State n ι τ) (w : Fin n) : Prop := ∃ i, w ∈ (s.call i).notifies

theorem CallPc.mem_notifies_of_mem_locks {pc : CallPc n} {w : Fin n} (h : w ∈ pc.locks) :
    w ∈ pc.notifies := by
  cases pc with
  | notify stage todo join => cases stage <;> first | exact h | exact List.mem_of_mem_tail h
  | idle | stop | joined => cases h
  | setImmediate | notifyEarly => exact h

@[simp] theorem CallPc.locks_notifyAll (todo : List (Fin n)) (join : Option (Fin n)) :
    (CallPc.notifyAll todo join).locks = todo := by
  cases todo with
  | nil => cases join <;> rfl
  | cons => rfl

@[simp] theorem CallPc.notifies_notifyAll (todo : List (Fin n)) (join : Option (Fin n)) :
    (CallPc.notifyAll todo join).notifies = todo := by
  cases todo with
  | nil => cases join <;> rfl
  | cons => rfl

end

end JLibScheduler.Sleep.Control
