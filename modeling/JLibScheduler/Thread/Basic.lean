import JLibScheduler.Fiber.Basic

/-!
# The worker loops

The loop of `Thread::Worker` (`Thread.cpp:149-514`) on `n` workers that share `m` fibers, as one
machine with the calls that other threads make into the scheduler: `Push`, `PushImmediate`,
`Fiber::Resume` on any fiber at any time, and the stealing of `TryRunStolenFastJob`. A step of a
worker is one section of its loop or one operation on a queue, together with what the section does
to the worker's own variables. An inbox is the list of its tasks, oldest first; a deque is a list
whose first element thieves take and whose last element the owner takes.

What the code decides by a table, a random number or the outcome of a race is a choice of the step:
the fiber that `AcquireFiber` finds, if any; the worker that the loop around `PickNextWorker` ends
with, which must not be reserved; the workers that the steal phase probes; whether a pop or a steal
that finds something gets it; and what the code of a task does next.

Not in the code: `submitted`, `freed` and `started`, which record what happened to a task.
-/

namespace JLibScheduler.Thread

open JLibScheduler.Fiber (SwitchPc ResumePc afterSwitch resume)

/-- The fields of a task that the loop reads and does not change. -/
structure Attr (τ : Type) where
  fastJob : τ → Bool
  hiPri : τ → Bool
  isForked : τ → Bool

/-- The capacity of a deque. -/
def capacity : ℕ := 32768

/-- `BATCH_SIZE` -/
def batchSize : ℕ := 64

/-- Where a worker stands in its loop. A flag `hi` says which of the two lanes is meant. -/
inductive Pc (n m : ℕ) where
  /-- the head of the loop -/
  | top
  /-- before the `Execute` of a fast job, and in it -/
  | fast
  | fastRun
  /-- before `AcquireFiber` -/
  | acquire
  /-- before the store of `RUNNING` and the switch to the fiber -/
  | switch (f : Fin m)
  /-- the fiber runs -/
  | on (f : Fin m)
  /-- the code on the fiber stored `WANTS_YIELD`, `WANTS_SUSPEND` or `DEAD` and is about to
  switch -/
  | leaving (f : Fin m)
  | back (f : Fin m) (pc : SwitchPc)
  /-- the immediate section: the test of the slot, the two drains, the taking of the slot -/
  | immediate
  | drain (hi : Bool)
  | requeue (hi : Bool)
  | take
  /-- the local queues -/
  | popBottom (hi : Bool)
  /-- work stealing: the workers still to be probed -/
  | steal
  | probe (hi : Bool) (targets : List (Fin n))
  /-- the inboxes -/
  | inbox (hi : Bool)
  | popBatch (hi : Bool)
  | sleep
  | stopped
  deriving DecidableEq, Repr

/-- A worker: its own variables, and its queues and flags, which other threads access too. -/
structure Worker (n m : ℕ) (τ : Type) where
  pc : Pc n m
  taskToRun : Option τ
  isHandlingFork : Bool
  batch : List τ
  immediateTask : Option τ
  immediate : Bool
  hasQueuedWork : Bool
  running : Bool
  immediateCoreInUse : Bool
  hiPriInbox : List τ
  loPriInbox : List τ
  hiPri : List τ
  loPri : List τ
  deriving DecidableEq, Repr

/-- The part of a fiber that the loop uses; `entered` says that its entry point was run since
`Init`. -/
structure FiberData (τ : Type) where
  status : FiberStatus
  owningTask : Option τ
  entered : Bool
  deriving DecidableEq, Repr

/-- Where a call of `PushToCore` stands: before the load of the flag, before its store, before the
store to the slot. -/
inductive PushPc where
  | loadFlag
  | storeFlag
  | storeSlot
  deriving DecidableEq, Repr

/-- A call that another thread makes into the scheduler. -/
inductive Call (n m : ℕ) (τ : Type) where
  | done
  | pushImmediate (t : τ) (w : Fin n) (pc : PushPc)
  | resume (f : Fin m) (pc : ResumePc)
  /-- before a call of `Requeue` -/
  | requeue (t : τ)
  /-- `TryRunStolenFastJob` with the task it stole, and in the `Execute` of it -/
  | stolen (t : τ)
  | helping (t : τ)
  deriving DecidableEq, Repr

/-- The state of the machine. -/
structure State (n m : ℕ) (τ : Type) where
  worker : Fin n → Worker n m τ
  fiber : Fin m → FiberData τ
  freeFibers : List (Fin m)
  assignedFiber : τ → Option (Fin m)
  calls : List (Call n m τ)
  paused : Bool
  submitted : τ → Bool
  freed : τ → Bool
  started : τ → ℕ

/-- What a step of a worker depends on besides the state. -/
inductive Choice (n m : ℕ) where
  | go
  | acquire (f : Option (Fin m))
  /-- the code on the fiber stores this status -/
  | code (v : FiberStatus)
  | target (w : Fin n)
  | probes (ws : List (Fin n))
  /-- whether a pop from an inbox or a steal gets what it finds -/
  | wins (b : Bool)
  deriving DecidableEq, Repr

/-- A step of one party. -/
inductive Act (n m : ℕ) (τ : Type) where
  | worker (w : Fin n) (c : Choice n m)
  /-- `Join` clears `running` -/
  | join (w : Fin n)
  | pause (b : Bool)
  | push (t : τ) (cpuaffinity : UInt8) (target : Fin n)
  | pushImmediate (t : τ) (coreId : ℕ)
  | resume (f : Fin m)
  /-- a helper steals from a lane of a worker -/
  | help (w : Fin n) (hi : Bool)
  /-- a step of the `j`-th call, with the worker a `Requeue` ends with -/
  | call (j : ℕ) (target : Fin n)
  deriving DecidableEq, Repr

section
variable {n m : ℕ} {τ : Type}

/-- The inbox of a lane. -/
def Worker.inbox (wk : Worker n m τ) (hi : Bool) : List τ :=
  if hi then wk.hiPriInbox else wk.loPriInbox

def Worker.setInbox (wk : Worker n m τ) (hi : Bool) (l : List τ) : Worker n m τ :=
  if hi then { wk with hiPriInbox := l } else { wk with loPriInbox := l }

/-- The deque of a lane. -/
def Worker.deque (wk : Worker n m τ) (hi : Bool) : List τ :=
  if hi then wk.hiPri else wk.loPri

def Worker.setDeque (wk : Worker n m τ) (hi : Bool) (l : List τ) : Worker n m τ :=
  if hi then { wk with hiPri := l } else { wk with loPri := l }

/-- `push_bottom` on the low priority deque; a full deque refuses the task. -/
def Worker.pushBottom (wk : Worker n m τ) (t : τ) : Worker n m τ :=
  if wk.loPri.length < capacity then { wk with loPri := wk.loPri ++ [t] } else wk

/-- No fiber is available (`Thread.cpp:215-232`): the task is handed back to the immediate slot or
the deque, and `task_to_run` keeps it. -/
def Worker.handBack (wk : Worker n m τ) (t : τ) : Worker n m τ :=
  if wk.isHandlingFork then { wk with immediateTask := some t, immediate := true, pc := .top }
  else { wk.pushBottom t with pc := .top }

/-- The pop of a lane's deque by its owner: the task becomes `task_to_run` and the loop starts
again, or the loop goes on at `next`. -/
def Worker.popBottom (wk : Worker n m τ) (hi : Bool) (next : Pc n m) : Worker n m τ :=
  match (wk.deque hi).getLast? with
  | some t => { wk.setDeque hi (wk.deque hi).dropLast with taskToRun := some t, pc := .top }
  | none => { wk with pc := next }

/-- The end of the first section for a task that ran on a fiber (`Thread.cpp:301-313`). -/
def Worker.endSection (wk : Worker n m τ) : Worker n m τ :=
  { wk with
    immediateCoreInUse := if wk.isHandlingFork then false else wk.immediateCoreInUse
    isHandlingFork := false
    taskToRun := none
    pc := .immediate }

/-- Where the loop goes on after the inbox of a lane. -/
def afterInbox (hi : Bool) : Pc n m := if hi then .inbox false else .sleep

/-- The sections that concern the worker alone. -/
def Worker.localStep (attr : Attr τ) (assignedFiber : τ → Option (Fin m)) (paused : Bool)
    (wk : Worker n m τ) (c : Choice n m) : Option (Worker n m τ) :=
  match wk.pc, c with
  | .top, .go =>
    if wk.running then
      some { wk with
        hasQueuedWork := false
        pc := match wk.taskToRun with
          | some t =>
            if attr.fastJob t then .fast
            else match assignedFiber t with
              | some f => .switch f
              | none => .acquire
          | none => .immediate }
    else some { wk with pc := .stopped }
  | .leaving f, .go => some { wk with pc := .back f .load }
  | .immediate, .go =>
    some { wk with pc := if wk.immediateTask.isSome then .drain true else .popBottom true }
  | .drain hi, .wins b =>
    match wk.inbox hi with
    | t :: rest =>
      if b ∧ wk.batch.length < batchSize then
        some { wk.setInbox hi rest with batch := wk.batch ++ [t] }
      else some { wk with pc := .requeue hi }
    | [] => some { wk with pc := .requeue hi }
  | .requeue hi, .go =>
    if wk.batch.isEmpty then some { wk with pc := if hi then .drain false else .take } else none
  | .take, .go =>
    some { wk with
      taskToRun := wk.immediateTask
      immediateTask := none
      immediate := false
      isHandlingFork := true
      pc := .top }
  | .popBottom hi, .go => some (wk.popBottom hi (if hi then .popBottom false else .steal))
  | .steal, .probes ws => some { wk with pc := .probe true ws }
  | .inbox hi, .wins b =>
    match wk.inbox hi with
    | t :: rest =>
      if b ∧ wk.batch.length < batchSize then
        some { wk.setInbox hi rest with batch := wk.batch ++ [t] }
      else some (pushBatch wk hi)
    | [] => some (pushBatch wk hi)
  | .popBatch hi, .go => some (wk.popBottom hi (afterInbox hi))
  | .sleep, .go =>
    if !wk.running || wk.immediate || (!paused && wk.hasQueuedWork) then
      some { wk with pc := if wk.running then .top else .stopped }
    else none
  | _, _ => none
where
  /-- `push_bottom_batch` with what was popped; a batch that does not fit is dropped. -/
  pushBatch (wk : Worker n m τ) (hi : Bool) : Worker n m τ :=
    if wk.batch.isEmpty then { wk with pc := afterInbox hi }
    else if (wk.deque hi).length + wk.batch.length ≤ capacity then
      { wk.setDeque hi (wk.deque hi ++ wk.batch) with batch := [], pc := .popBatch hi }
    else { wk with batch := [], pc := afterInbox hi }

variable [DecidableEq τ]

/-- The state with worker `w` changed. -/
def State.modifyWorker (s : State n m τ) (w : Fin n) (g : Worker n m τ → Worker n m τ) :
    State n m τ :=
  { s with worker := Function.update s.worker w (g (s.worker w)) }

/-- The state with fiber `f` changed. -/
def State.modifyFiber (s : State n m τ) (f : Fin m) (g : FiberData τ → FiberData τ) :
    State n m τ :=
  { s with fiber := Function.update s.fiber f (g (s.fiber f)) }

/-- The push to an inbox, with `MarkQueuedWork`. -/
def State.enqueue (s : State n m τ) (w : Fin n) (hi : Bool) (t : τ) : State n m τ :=
  s.modifyWorker w fun wk => { wk.setInbox hi (wk.inbox hi ++ [t]) with hasQueuedWork := true }

/-- `Requeue` (`TaskScheduler.cpp:738-755`), for the worker its loop ends with. -/
def State.requeue (attr : Attr τ) (s : State n m τ) (target : Fin n) (t : τ) :
    Option (State n m τ) :=
  if (s.worker target).immediateCoreInUse then none
  else some (s.enqueue target (attr.hiPri t) t)

/-- A task is destroyed and its slot given back. -/
def State.free (s : State n m τ) (t : τ) : State n m τ :=
  { s with freed := Function.update s.freed t true }

/-- `Execute` of the task begins. -/
def State.start (s : State n m τ) (t : τ) : State n m τ :=
  { s with started := Function.update s.started t (s.started t + 1) }

/-- A fiber that `AcquireFiber` found is bound to the task and initialised
(`Thread.cpp:233-235`). -/
def State.bindFiber (s : State n m τ) (t : τ) (f : Fin m) : State n m τ :=
  { s.modifyFiber f fun fd => { fd with owningTask := some t, entered := false } with
    freeFibers := s.freeFibers.erase f
    assignedFiber := Function.update s.assignedFiber t (some f) }

/-- `ReleaseFiber` for the fiber of a task that has finished. -/
def State.releaseFiber (s : State n m τ) (t : τ) (f : Fin m) : State n m τ :=
  { s with
    freeFibers := f :: s.freeFibers
    assignedFiber := Function.update s.assignedFiber t none }

/-- The sections of worker `w` that run `task_to_run`. -/
def runStep (attr : Attr τ) (s : State n m τ) (w : Fin n) (t : τ) (c : Choice n m) :
    Option (State n m τ) :=
  match (s.worker w).pc, c with
  | .fast, .go => some ((s.start t).modifyWorker w fun wk => { wk with pc := .fastRun })
  | .fastRun, .go =>
    some ((s.free t).modifyWorker w fun wk =>
      { wk with
        immediateCoreInUse :=
          if wk.isHandlingFork || attr.isForked t then false else wk.immediateCoreInUse
        isHandlingFork := if wk.isHandlingFork || attr.isForked t then false else wk.isHandlingFork
        taskToRun := none
        pc := .top })
  | .acquire, .acquire none => some (s.modifyWorker w fun wk => wk.handBack t)
  | .acquire, .acquire (some f) =>
    if f ∈ s.freeFibers then
      some ((s.bindFiber t f).modifyWorker w fun wk => { wk with pc := .switch f })
    else none
  | .switch f, .go =>
    -- a fiber that was not entered yet runs `FiberEntryWrapper`
    let s := if (s.fiber f).entered then s else s.start t
    some ((s.modifyFiber f fun fd => { fd with status := .running, entered := true }).modifyWorker w
      fun wk => { wk with pc := .on f })
  | .on f, .code v =>
    if v = .wantsYield ∨ v = .wantsSuspend ∨ v = .dead then
      some ((s.modifyFiber f fun fd => { fd with status := v }).modifyWorker w
        fun wk => { wk with pc := .leaving f })
    else none
  | .back f .dead, .go =>
    some (((s.free t).releaseFiber t f).modifyWorker w fun wk =>
      { wk with
        immediateCoreInUse := if attr.isForked t then false else wk.immediateCoreInUse }.endSection)
  | .back _ .pushBottom, .go => some (s.modifyWorker w fun wk => (wk.pushBottom t).endSection)
  | .back _ .requeue, .target v =>
    (s.requeue attr v t).map fun s => s.modifyWorker w Worker.endSection
  | .back _ .requeue, .go => none
  | .back f pc, .go =>
    let (v, pc') := afterSwitch pc (s.fiber f).status
    some ((s.modifyFiber f fun fd => { fd with status := v }).modifyWorker w fun wk =>
      pc'.elim wk.endSection fun pc' => { wk with pc := .back f pc' })
  | _, _ => none

/-- One probe of the steal phase: the first task of a lane of `v`, for worker `w`. -/
def State.stealFrom (s : State n m τ) (w v : Fin n) (hi : Bool) : Option (State n m τ) :=
  match (s.worker v).deque hi with
  | t :: rest =>
    some ((s.modifyWorker v fun wk => wk.setDeque hi rest).modifyWorker w fun wk =>
      { wk with taskToRun := some t, pc := .top })
  | [] => none

/-- One step of worker `w`. -/
def workerStep (attr : Attr τ) (s : State n m τ) (w : Fin n) (c : Choice n m) :
    Option (State n m τ) :=
  let wk := s.worker w
  match wk.pc, c, wk.batch with
  | .requeue _, .target v, t :: rest =>
    (s.requeue attr v t).map fun s => s.modifyWorker w fun wk => { wk with batch := rest }
  | .probe _ [], .go, _ => some (s.modifyWorker w fun wk => { wk with pc := .inbox true })
  | .probe hi (v :: rest), .wins b, _ =>
    let failed := s.modifyWorker w fun wk =>
      { wk with pc := if hi then .probe false (v :: rest) else .probe true rest }
    if b then some ((s.stealFrom w v hi).getD failed) else some failed
  | _, _, _ =>
    match wk.localStep attr s.assignedFiber s.paused c with
    | some wk' => some (s.modifyWorker w fun _ => wk')
    | none => wk.taskToRun.bind fun t => runStep attr s w t c

/-- One step of a call; the second component takes the place of the call. -/
def callStep (attr : Attr τ) (s : State n m τ) (target : Fin n) :
    Call n m τ → Option (State n m τ × Call n m τ)
  | .done => none
  | .pushImmediate t w .loadFlag =>
    if (s.worker w).immediateCoreInUse then some (s, .done)
    else some (s, .pushImmediate t w .storeFlag)
  | .pushImmediate t w .storeFlag =>
    some (s.modifyWorker w fun wk => { wk with immediateCoreInUse := true },
      .pushImmediate t w .storeSlot)
  | .pushImmediate t w .storeSlot =>
    some (s.modifyWorker w fun wk => { wk with immediateTask := some t, immediate := true }, .done)
  | .resume f pc =>
    let (v, pc') := resume pc (s.fiber f).status
    some (s.modifyFiber f fun fd => { fd with status := v },
      match pc' with
      | some .requeue => (s.fiber f).owningTask.elim .done .requeue
      | some pc' => .resume f pc'
      | none => .done)
  | .requeue t => (s.requeue attr target t).map fun s => (s, .done)
  | .stolen t => if attr.fastJob t then some (s.start t, .helping t) else some (s, .requeue t)
  | .helping t => some (s.free t, .done)

/-- One step of the machine. -/
def step (attr : Attr τ) (s : State n m τ) : Act n m τ → Option (State n m τ)
  | .worker w c => workerStep attr s w c
  | .join w => some (s.modifyWorker w fun wk => { wk with running := false })
  | .pause b => some { s with paused := b }
  | .push t cpuaffinity target =>
    if s.submitted t then none
    else
      let s := { s with submitted := Function.update s.submitted t true }
      if h : 1 ≤ cpuaffinity.toNat ∧ cpuaffinity.toNat - 1 < n then
        let w : Fin n := ⟨cpuaffinity.toNat - 1, h.2⟩
        if (s.worker w).immediateCoreInUse then some s else some (s.enqueue w false t)
      else s.requeue attr target t
  | .pushImmediate t coreId =>
    if s.submitted t then none
    else
      let s := { s with submitted := Function.update s.submitted t true }
      if h : 0 < coreId ∧ 0 < n then
        let w : Fin n := ⟨(coreId - 1) % n, Nat.mod_lt _ h.2⟩
        some { s with calls := s.calls ++ [.pushImmediate t w .loadFlag] }
      else some s
  | .resume f => some { s with calls := s.calls ++ [.resume f .load] }
  | .help w hi =>
    match (s.worker w).deque hi with
    | t :: rest =>
      some { s.modifyWorker w (fun wk => wk.setDeque hi rest) with calls := s.calls ++ [.stolen t] }
    | [] => none
  | .call j target =>
    (s.calls[j]?).bind fun c =>
      (callStep attr s target c).map fun (s, c') => { s with calls := s.calls.set j c' }

/-- The workers are started, all queues are empty and all fibers are free. -/
def State.init : State n m τ where
  worker _ :=
    { pc := .top, taskToRun := none, isHandlingFork := false, batch := [], immediateTask := none,
      immediate := false, hasQueuedWork := false, running := true, immediateCoreInUse := false,
      hiPriInbox := [], loPriInbox := [], hiPri := [], loPri := [] }
  fiber _ := ⟨.ready, none, false⟩
  freeFibers := List.finRange m
  assignedFiber _ := none
  calls := []
  paused := false
  submitted _ := false
  freed _ := false
  started _ := 0

end

end JLibScheduler.Thread
