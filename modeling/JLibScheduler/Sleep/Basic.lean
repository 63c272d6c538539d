import JLibScheduler.Thread.Places

/-!
# A worker that sleeps

One worker, its inboxes and its condition variable (`Thread.cpp:149-514`), with the calls that push
to its inboxes and the thieves on its deques. The sections of the loop are those of the worker loops
(`Worker.localStep`); what the worker loops take as one step is split here. A submission pushes to
the inbox, then `MarkQueuedWork` stores the flag, then `NotifyWorker` takes `workerMutex` and gives
it back, then it notifies. The last section of the loop takes the mutex, reads the predicate, and
blocks in `cv.wait`.

An entry of an inbox is a task with the position of the call that pushed it. A call that the worker
itself makes is one of the calls: the machine lets the worker go on before it has returned, which is
more than the code does. The scheduler runs and is not paused. What the run of `task_to_run` comes
to, and what the probes of the steal phase find, are choices of the step.
-/

namespace JLibScheduler.Sleep

open JLibScheduler.Thread (Worker Attr Choice Pc batchSize)

/-- Where a call that pushes to an inbox stands: before `MarkQueuedWork`, in `NotifyWorker` before
the lock, before the unlock and before the notification, or past it. -/
inductive Stage where
  | mark
  | lock
  | unlock
  | notify
  | returned
  deriving DecidableEq, Repr

/-- Where the worker stands in the last section of its loop: before the lock, before the predicate
is read, before the wait, in the wait, and notified in it. -/
inductive Wait where
  | awake
  | locked
  | blocking
  | blocked
  | woken
  deriving DecidableEq, Repr

/-- What the first section of the loop comes to for `task_to_run`: a fast job is done, a fiber
switched back and its task is pushed to the deque or not, or there was no fiber. -/
inductive Ran where
  | fastJob
  | fiber (pushBottom : Bool)
  | handedBack
  deriving DecidableEq, Repr

/-- The state of the machine. The count is that of the tasks taken from the last inbox that was
drained. -/
structure State (n m : ℕ) (τ : Type) where
  worker : Worker n m (τ × ℕ)
  count : ℕ
  wait : Wait
  workerMutex : Bool
  calls : List Stage
  deriving DecidableEq, Repr

/-- A step of one party. -/
inductive Act (n m : ℕ) (τ : Type) where
  /-- a section of the loop, with the fiber of `task_to_run` -/
  | worker (c : Choice n m) (assignedFiber : Option (Fin m))
  | ran (r : Ran)
  /-- a task of the batch goes to another inbox by `Requeue` -/
  | requeue
  /-- the last probe that is made finds this task, or none -/
  | stolen (t : Option τ)
  /-- a step of the last section -/
  | sleep
  /-- a submission pushes to an inbox -/
  | submit (hi : Bool) (ts : List τ)
  /-- a step of the `j`-th call -/
  | call (j : ℕ)
  /-- `SetImmediateTask` -/
  | setImmediate (t : τ)
  /-- a notification without the mutex, or a spurious one -/
  | wake
  /-- a thief takes the first task of a lane -/
  | steal (hi : Bool)
  deriving DecidableEq, Repr

variable {n m : ℕ} {τ : Type}

/-- What the loop reads of the tasks in the inboxes. -/
def attr (fastJob : τ → Bool) : Attr (τ × ℕ) :=
  ⟨fun e => fastJob e.1, fun _ => false, fun _ => false⟩

/-- The end of the first section. -/
def ran (wk : Worker n m (τ × ℕ)) (e : τ × ℕ) (r : Ran) : Option (Worker n m (τ × ℕ)) :=
  match wk.pc, r with
  | .fast, .fastJob => some { wk with isHandlingFork := false, taskToRun := none, pc := .top }
  | .acquire, .handedBack => some (wk.handBack e)
  | .acquire, .fiber b | .switch _, .fiber b =>
    some (if b then (wk.pushBottom e).endSection else wk.endSection)
  | _, _ => none

/-- One section of the loop. A pop from an inbox finds a task when there is one. -/
def workerStep (fastJob : τ → Bool) (s : State n m τ) (c : Choice n m)
    (assignedFiber : Option (Fin m)) : Option (State n m τ) :=
  if c = .wins false ∨ s.worker.pc = .sleep then none
  else
    (s.worker.localStep (attr fastJob) (fun _ => assignedFiber) false c).map fun wk =>
      match s.worker.pc with
      | .inbox hi =>
        { s with
          worker := wk
          count := if wk.pc = .inbox hi then wk.batch.length else s.worker.batch.length }
      | _ => { s with worker := wk }

/-- One step of the last section of the loop. -/
def sleepStep (fastJob : τ → Bool) (s : State n m τ) : Option (State n m τ) :=
  match s.worker.pc, s.wait with
  | .sleep, .awake | .sleep, .woken =>
    if s.workerMutex then none else some { s with workerMutex := true, wait := .locked }
  | .sleep, .locked =>
    match s.worker.localStep (attr fastJob) (fun _ => none) false .go with
    | some wk => some { s with worker := wk, workerMutex := false, wait := .awake }
    | none => some { s with wait := .blocking }
  | .sleep, .blocking => some { s with workerMutex := false, wait := .blocked }
  | _, _ => none

/-- `MarkQueuedWork` and `NotifyWorker` (`Thread.cpp:99-109`). -/
def callStep (s : State n m τ) (j : ℕ) : Stage → Option (State n m τ)
  | .mark =>
    some { s with
      worker := { s.worker with hasQueuedWork := true }
      calls := s.calls.set j .lock }
  | .lock =>
    if s.workerMutex then none
    else some { s with workerMutex := true, calls := s.calls.set j .unlock }
  | .unlock => some { s with workerMutex := false, calls := s.calls.set j .notify }
  | .notify =>
    some { s with
      wait := if s.wait = .blocked then .woken else s.wait
      calls := s.calls.set j .returned }
  | .returned => none

/-- One step of the machine. -/
def step (fastJob : τ → Bool) (s : State n m τ) : Act n m τ → Option (State n m τ)
  | .worker c assignedFiber => workerStep fastJob s c assignedFiber
  | .ran r => s.worker.taskToRun.bind fun e =>
      (ran s.worker e r).map fun wk => { s with worker := wk }
  | .requeue =>
    match s.worker.pc, s.worker.batch with
    | .requeue _, _ :: rest => some { s with worker := { s.worker with batch := rest } }
    | _, _ => none
  | .stolen t =>
    match s.worker.pc with
    | .probe _ _ =>
      some { s with
        worker := match t with
          | some t => { s.worker with taskToRun := some (t, s.calls.length), pc := .top }
          | none => { s.worker with pc := .inbox true } }
    | _ => none
  | .sleep => sleepStep fastJob s
  | .submit hi ts =>
    some { s with
      worker := s.worker.setInbox hi (s.worker.inbox hi ++ ts.map fun t => (t, s.calls.length))
      calls := s.calls ++ [.mark] }
  | .call j => (s.calls[j]?).bind (callStep s j)
  | .setImmediate t =>
    some { s with
      worker := { s.worker with immediateTask := some (t, s.calls.length), immediate := true }
      calls := s.calls ++ [.lock] }
  | .wake => if s.wait = .blocked then some { s with wait := .woken } else none
  | .steal hi =>
    match s.worker.deque hi with
    | _ :: rest => some { s with worker := s.worker.setDeque hi rest }
    | [] => none

/-- The worker is at the head of its loop and has nothing to do. -/
def State.init : State n m τ where
  worker :=
    { pc := .top, taskToRun := none, isHandlingFork := false, batch := [], immediateTask := none,
      immediate := false, hasQueuedWork := false, running := true, immediateCoreInUse := false,
      hiPriInbox := [], loPriInbox := [], hiPri := [], loPri := [] }
  count := 0
  wait := .awake
  workerMutex := false
  calls := []

/-- No task in an inbox of the worker is of a call that has returned. -/
def NoneReturned (s : State n m τ) : Prop :=
  ∀ hi, ∀ e ∈ s.worker.inbox hi, s.calls[e.2]? ≠ some .returned

instance (s : State n m τ) : Decidable (NoneReturned s) :=
  inferInstanceAs (Decidable (∀ hi, ∀ e ∈ s.worker.inbox hi, s.calls[e.2]? ≠ some .returned))

/-- The inbox of a lane holds a task of a call that has stored the flag, which is clear by now. -/
def missed (s : State n m τ) (hi : Bool) : Bool :=
  !s.worker.hasQueuedWork &&
    (s.worker.inbox hi).any fun e => s.calls[e.2]? ≠ some .mark

/-- The drain of an inbox ends with the batch full, and either the deque refuses the batch, or it is
empty when the owner pops it; tasks that the drain left in the inbox have their flag cleared. -/
def leavesMissed (s : State n m τ) : Act n m τ → Bool
  | .worker _ _ =>
    match s.worker.pc with
    | .inbox hi =>
      s.worker.batch.length ≥ batchSize &&
        !((s.worker.deque hi).length + s.worker.batch.length ≤ Thread.capacity) && missed s hi
    | .popBatch hi => s.count ≥ batchSize && (s.worker.deque hi).isEmpty && missed s hi
    | _ => false
  | _ => false

end JLibScheduler.Sleep
