import JLibScheduler.Thread.Basic

/-!
# The submission calls

`Push`, `PushBatch`, `PushImmediate` and `PushFork` of `src/TaskScheduler.cpp`, as a machine over
the worker loops with the count `pendingTasks` that `WaitAll` watches. A call takes one step for
each operation on shared data: `PushLocal` pushes the task to an inbox in one step and counts it in
the next, `PushBatch` counts its tasks first, and `PushFork` tests and sets the flag of a worker,
counts the task, and then calls `PushLocal`, which counts it again or refuses it. The calls of
`PushToCore` are those of the worker loops; its `fetch_add` goes with its store of the flag. A
completion, on a worker or in a helper, is the one step that frees the task and takes it off the
count.

A task is submitted once, and the pool is active. The worker that the loop around `PickNextWorker`
ends with is a choice of the step.

Not in the code: `counted`, `forked`, `completed` and `accepted`, which record what the calls did.
-/

namespace JLibScheduler.Submission

open JLibScheduler.Thread (Attr)

/-- Where a call of `PushFork` stands: before the load of the flag, before its store, before the
`fetch_add`, before the call of `PushLocal`. -/
inductive ForkPc where
  | loadFlag
  | storeFlag
  | count
  | pushLocal
  deriving DecidableEq, Repr

/-- A submission call. -/
inductive Call (n : ℕ) (τ : Type) where
  | done
  /-- `PushLocal` after its push to an inbox, before its `fetch_add`, with the worker that the call
  reserved for the task -/
  | count (t : τ) (reserved : Option (Fin n))
  /-- `PushBatch` after its `fetch_add`, before `push_batch` -/
  | batch (ts : List τ) (cpuaffinity : UInt8)
  /-- `PushFork` with its `worker_id` -/
  | fork (t : τ) (w : Fin n) (isLocalPush : Bool) (pc : ForkPc)
  deriving DecidableEq, Repr

/-- The state of the machine. -/
structure State (n m : ℕ) (τ : Type) where
  thread : Thread.State n m τ
  isForked : τ → Bool
  /-- the `std::atomic<int>` of the source, while fewer than `2 ^ 31` counts are not taken off -/
  pendingTasks : ℤ
  calls : List (Call n τ)
  /-- the tasks that `PushLocal`, `PushBatch` and `PushToCore` counted -/
  counted : List τ
  /-- how many tasks `PushFork` counted -/
  forked : ℕ
  /-- the tasks that were taken off the count -/
  completed : List τ
  /-- the tasks whose call has returned and was not refused, with the worker reserved for them -/
  accepted : List (τ × Option (Fin n))

/-- A step of one party. -/
inductive Act (n m : ℕ) (τ : Type) where
  /-- a step of the worker loops, of `PushToCore`, of a `Resume` or of a helper -/
  | thread (a : Thread.Act n m τ)
  | push (t : τ) (cpuaffinity : UInt8) (target : Fin n)
  | pushBatch (ts : List τ) (cpuaffinity : UInt8)
  /-- `PushFork` with the `worker_id` it takes -/
  | pushFork (t : τ) (w : Fin n) (isLocalPush : Bool)
  /-- a step of the `j`-th call -/
  | call (j : ℕ) (target : Fin n)
  deriving DecidableEq, Repr

section
variable {n m : ℕ} {τ : Type}

/-- The worker that an affinity names. -/
def affine (cpuaffinity : UInt8) : Option (Fin n) :=
  if 1 ≤ cpuaffinity.toNat then
    if h : cpuaffinity.toNat - 1 < n then some ⟨cpuaffinity.toNat - 1, h⟩ else none
  else none

/-- The task that a step of the loops or of a helper completes. -/
def completes (th : Thread.State n m τ) : Thread.Act n m τ → Option τ
  | .worker w .go =>
    match (th.worker w).pc with
    | .fastRun | .back _ .dead => (th.worker w).taskToRun
    | _ => none
  | .call j _ =>
    match th.calls[j]? with
    | some (.helping t) => some t
    | _ => none
  | _ => none

/-- The task that a step of `PushToCore` counts. -/
def counts (th : Thread.State n m τ) : Thread.Act n m τ → Option τ
  | .call j _ =>
    match th.calls[j]? with
    | some (.pushImmediate t _ .storeFlag) => some t
    | _ => none
  | _ => none

/-- The task that a step of `PushToCore` stores to the slot of a worker, which ends the call. -/
def accepts (th : Thread.State n m τ) : Thread.Act n m τ → Option (τ × Option (Fin n))
  | .call j _ =>
    match th.calls[j]? with
    | some (.pushImmediate t w .storeSlot) => some (t, some w)
    | _ => none
  | _ => none

/-- What a step of the worker loops records. -/
def State.record (s : State n m τ) (a : Thread.Act n m τ) : State n m τ :=
  { s with
    pendingTasks := s.pendingTasks + (counts s.thread a).toList.length -
      (completes s.thread a).toList.length
    counted := s.counted ++ (counts s.thread a).toList
    completed := s.completed ++ (completes s.thread a).toList
    accepted := s.accepted ++ (accepts s.thread a).toList }

/-- `WaitAll` ends with this load of the count. -/
def waitAllReturns (s : State n m τ) : Bool := decide (s.pendingTasks ≤ 0)

variable [DecidableEq τ]

/-- The tasks are handed to the scheduler. -/
def submit (th : Thread.State n m τ) (ts : List τ) : Thread.State n m τ :=
  { th with submitted := fun t => decide (t ∈ ts) || th.submitted t }

/-- `push_batch` to the low priority inbox of a worker, with `MarkQueuedWork`. -/
def enqueueAll (th : Thread.State n m τ) (w : Fin n) (ts : List τ) : Thread.State n m τ :=
  th.modifyWorker w fun wk =>
    { wk.setInbox false (wk.inbox false ++ ts) with hasQueuedWork := true }

/-- `PushLocal` (`TaskScheduler.cpp:702-737`) without its `fetch_add`: whether the task was taken,
and the queues after it. -/
def pushLocal (attr : Attr τ) (th : Thread.State n m τ) (t : τ) (cpuaffinity : UInt8)
    (target : Fin n) : Option (Bool × Thread.State n m τ) :=
  match affine cpuaffinity with
  | some w =>
    if (th.worker w).immediateCoreInUse then some (false, th)
    else some (true, th.enqueue w false t)
  | none => (th.requeue attr target t).map fun th => (true, th)

/-- The fields of the tasks. -/
def State.attr (fastJob hiPri : τ → Bool) (s : State n m τ) : Attr τ :=
  ⟨fastJob, hiPri, s.isForked⟩

/-- The worker that `PushBatch` may end with (`TaskScheduler.cpp:472-497`): a free one, and the one
that the affinity names when that is free. -/
def batchTarget (th : Thread.State n m τ) (cpuaffinity : UInt8) (target : Fin n) : Bool :=
  !(th.worker target).immediateCoreInUse &&
    match affine cpuaffinity with
    | some w => (th.worker w).immediateCoreInUse || decide (target = w)
    | none => true

/-- One step of a submission call; the second component takes the place of the call. -/
def callStep (attr : Attr τ) (s : State n m τ) (target : Fin n) :
    Call n τ → Option (State n m τ × Call n τ)
  | .done => none
  | .count t reserved =>
    some ({ s with
      pendingTasks := s.pendingTasks + 1
      counted := s.counted ++ [t]
      accepted := s.accepted ++ [(t, reserved)] }, .done)
  | .batch ts cpuaffinity =>
    if batchTarget s.thread cpuaffinity target then
      some ({ s with
        thread := enqueueAll s.thread target ts
        accepted := s.accepted ++ ts.map fun t => (t, none) }, .done)
    else none
  | .fork t w isLocalPush .loadFlag =>
    some (s, if (s.thread.worker w).immediateCoreInUse then .done
      else .fork t w isLocalPush .storeFlag)
  | .fork t w isLocalPush .storeFlag =>
    some ({ s with
      thread := s.thread.modifyWorker w fun wk => { wk with immediateCoreInUse := true } },
      .fork t w isLocalPush .count)
  | .fork t w isLocalPush .count =>
    some ({ s with
      isForked := Function.update s.isForked t true
      pendingTasks := s.pendingTasks + 1
      forked := s.forked + 1 }, .fork t w isLocalPush .pushLocal)
  | .fork t w isLocalPush .pushLocal =>
    -- `worker_id` becomes the `cpuaffinity` of `PushLocal`, which counts the workers from 1
    (pushLocal attr s.thread t (UInt8.ofNat w) target).map fun (taken, th) =>
      ({ s with thread := th },
        if taken then .count t (if isLocalPush then none else some w) else .done)

/-- One step of the machine. -/
def step (fastJob hiPri : τ → Bool) (s : State n m τ) : Act n m τ → Option (State n m τ)
  | .thread (.push _ _ _) => none
  | .thread a =>
    (Thread.step (s.attr fastJob hiPri) s.thread a).map fun th => { s.record a with thread := th }
  | .push t cpuaffinity target =>
    if s.thread.submitted t then none
    else
      (pushLocal (s.attr fastJob hiPri) (submit s.thread [t]) t cpuaffinity target).map
        fun (taken, th) =>
          { s with thread := th, calls := s.calls ++ [if taken then .count t none else .done] }
  | .pushBatch ts cpuaffinity =>
    if ts = [] ∨ ¬ ts.Nodup ∨ ts.any s.thread.submitted then none
    else
      some { s with
        thread := submit s.thread ts
        pendingTasks := s.pendingTasks + ts.length
        counted := s.counted ++ ts
        calls := s.calls ++ [.batch ts cpuaffinity] }
  | .pushFork t w isLocalPush =>
    if s.thread.submitted t ∨ (isLocalPush = true ∧ ∀ f, (s.thread.worker w).pc ≠ .on f) then none
    else
      some { s with
        thread := submit s.thread [t]
        calls := s.calls ++ [.fork t w isLocalPush (if isLocalPush then .count else .loadFlag)] }
  | .call j target =>
    (s.calls[j]?).bind fun c =>
      (callStep (s.attr fastJob hiPri) s target c).map fun (s, c') =>
        { s with calls := s.calls.set j c' }

/-- Nothing was submitted. -/
def State.init : State n m τ where
  thread := .init
  isForked _ := false
  pendingTasks := 0
  calls := []
  counted := []
  forked := 0
  completed := []
  accepted := []

/-- A `PushToCore` in progress. -/
def immediateInProgress : Thread.Call n m τ → Bool
  | .pushImmediate _ _ _ => true
  | _ => false

/-- No submission call is in progress. -/
def State.idle (s : State n m τ) : Bool :=
  s.calls.all (· = .done) && !s.thread.calls.any immediateInProgress

end

end JLibScheduler.Submission
