import JLibScheduler.TaskDeque.Basic
import JLibScheduler.TaskDeque.Owner
import JLibScheduler.Thread.Basic

/-!
# One worker's loop and the accesses to its deques

The loop of `Thread::Worker` (`Thread.cpp:149-514`) for one worker, whose calls on its own two
deques are made access by access, while any number of thieves steal from them.
`TaskDeque/Basic.lean` is the deque; a lane `hi` selects one of the two deques and one of the two
inboxes. An inbox is the list of its tasks, oldest first.

What the rest of the scheduler decides is a choice of the step: how the task that runs leaves the
first section, whether a pop of an inbox gets what is there, how many tasks a drain moves
elsewhere, and what the steal phase finds. The first section leaves `task_to_run` null or starts
the loop again, and so does every later section that sets it, so the tests of `task_to_run` in
the later sections always pass (`Inv.taskToRun`).

Not in the code: `dropped`, the tasks of the batches that `push_bottom_batch` has refused.
-/

namespace JLibScheduler.WorkerLoop

open JLibScheduler.Thread (capacity batchSize)

/-- How the task leaves the first section: run as a fast job; put back, as `AcquireFiber` found no
fiber; back from its fiber with `WANTS_YIELD`; or back with any other status. -/
inductive Ran
  | fast
  | noFiber
  | yielded
  | left
  deriving DecidableEq

/-- Where the worker stands in its loop. -/
inductive Pc
  | top
  | run
  /-- in the `push_bottom` of the first section; whether `continue` follows it -/
  | push (again : Bool)
  | immediate
  /-- before the `pop_bottom` of a lane in the third section, and in it -/
  | callPop (hi : Bool)
  | popBottom (hi : Bool)
  | steal
  /-- in the pops from an inbox -/
  | inbox (hi : Bool)
  /-- before the `push_bottom_batch` of a lane, and in it -/
  | callBatch (hi : Bool)
  | pushBatch (hi : Bool)
  /-- before the `pop_bottom` after it, and in it -/
  | callPopBatch (hi : Bool)
  | popBatch (hi : Bool)
  | sleep
  | stopped
  deriving DecidableEq

/-- The worker, its deques and its inboxes. -/
structure State (ι τ : Type) where
  pc : Pc
  taskToRun : Option τ
  isHandlingFork : Bool
  immediateTask : Option τ
  batch : List τ
  deque : Bool → TaskDeque.State ι τ
  inbox : Bool → List τ
  dropped : List τ

/-- What a step of the worker depends on besides the state. -/
inductive Choice (τ : Type)
  | go
  | stop
  | ran (r : Ran)
  /-- the tasks that the two drains of the immediate section move elsewhere -/
  | drained (hiPri loPri : ℕ)
  | stole (t : Option τ)
  /-- whether a pop from an inbox gets what it finds -/
  | wins (b : Bool)
  deriving DecidableEq

/-- A step: of the worker, of a thief at one of its deques, of a producer at one of its inboxes, or
of a submitter at its immediate slot. -/
inductive Act (ι τ : Type)
  | worker (c : Choice τ)
  | callSteal (hi : Bool) (i : ι)
  | thief (hi : Bool) (i : ι)
  | enqueue (hi : Bool) (t : τ)
  | setImmediate (t : τ)
  deriving DecidableEq

/-- Where the loop goes on after the inbox of a lane. -/
def afterInbox (hi : Bool) : Pc := if hi then .inbox false else .sleep

section
variable {ι τ : Type} [DecidableEq ι]

/-- A worker at the start, with constructed deques and empty inboxes. -/
def State.init : State ι τ where
  pc := .top
  taskToRun := none
  isHandlingFork := false
  immediateTask := none
  batch := []
  deque _ := .init
  inbox _ := []
  dropped := []

/-- The state with another deque in a lane. -/
def State.setDeque (s : State ι τ) (hi : Bool) (d : TaskDeque.State ι τ) : State ι τ :=
  { s with deque := Function.update s.deque hi d }

/-- The worker enters a call on the deque of a lane. -/
def State.call (s : State ι τ) (hi : Bool) (op : TaskDeque.Op τ) (pc : Pc) : Option (State ι τ) :=
  (TaskDeque.ownerCall (s.deque hi) op).map fun d => { s.setDeque hi d with pc }

/-- The worker's next access to the deque of a lane; when the call returns, what it does then. -/
def State.access (s : State ι τ) (hi : Bool) (k : State ι τ → TaskDeque.Res τ → State ι τ) :
    Option (State ι τ) :=
  (TaskDeque.ownerStep capacity (s.deque hi)).map fun d =>
    match d.returned with
    | none => s.setDeque hi d
    | some r => k (s.setDeque hi d) r

/-- The end of the first section for a task that ran on a fiber. -/
def State.endSection (s : State ι τ) : State ι τ :=
  { s with taskToRun := none, isHandlingFork := false, pc := .immediate }

/-- The first section (`Thread.cpp:165-313`). -/
def State.run (s : State ι τ) (t : τ) : Ran → Option (State ι τ)
  | .fast => some { s with taskToRun := none, isHandlingFork := false, pc := .top }
  | .noFiber =>
    if s.isHandlingFork then some { s with immediateTask := some t, pc := .top }
    else s.call false (.pushBottom (some t)) (.push true)
  | .yielded => s.call false (.pushBottom (some t)) (.push false)
  | .left => some s.endSection

/-- The pops from the inbox of a lane have ended. -/
def State.popped (s : State ι τ) (hi : Bool) : State ι τ :=
  { s with pc := if s.batch.isEmpty then afterInbox hi else .callBatch hi }

/-- One step of the worker. -/
def State.workerStep (s : State ι τ) (c : Choice τ) : Option (State ι τ) :=
  match s.pc, c with
  | .top, .go => some { s with pc := if s.taskToRun.isSome then .run else .immediate }
  | .top, .stop | .sleep, .stop => some { s with pc := .stopped }
  | .run, .ran r => s.taskToRun.bind fun t => s.run t r
  | .push again, .go =>
    s.access false fun s _ => if again then { s with pc := .top } else s.endSection
  | .immediate, .go => if s.immediateTask.isSome then none else some { s with pc := .callPop true }
  | .immediate, .drained hiPri loPri =>
    if s.immediateTask.isSome ∧ hiPri ≤ batchSize ∧ loPri ≤ batchSize then
      some { s with
        inbox := fun hi => (s.inbox hi).drop (if hi then hiPri else loPri)
        taskToRun := s.immediateTask
        immediateTask := none
        isHandlingFork := true
        pc := .top }
    else none
  | .callPop hi, .go => s.call hi .popBottom (.popBottom hi)
  | .popBottom hi, .go =>
    s.access hi fun s r => match r with
      | .taken (some (some t)) => { s with taskToRun := some t, pc := .top }
      -- a null task is reported and skipped
      | _ => { s with pc := if hi then .callPop false else .steal }
  | .steal, .stole (some t) => some { s with taskToRun := some t, pc := .top }
  | .steal, .stole none => some { s with pc := .inbox true }
  | .inbox hi, .wins b =>
    match s.inbox hi with
    | t :: rest =>
      if b ∧ s.batch.length < batchSize then
        some { s with inbox := Function.update s.inbox hi rest, batch := s.batch ++ [t] }
      else some (s.popped hi)
    | [] => some (s.popped hi)
  | .callBatch hi, .go => s.call hi (.pushBottomBatch (s.batch.map some)) (.pushBatch hi)
  | .pushBatch hi, .go =>
    s.access hi fun s r => match r with
      | .pushed true => { s with batch := [], pc := .callPopBatch hi }
      | _ => { s with batch := [], dropped := s.dropped ++ s.batch, pc := afterInbox hi }
  | .callPopBatch hi, .go => s.call hi .popBottom (.popBatch hi)
  | .popBatch hi, .go =>
    s.access hi fun s r => match r with
      | .taken (some x) => { s with taskToRun := x, pc := .top }
      | _ => { s with pc := afterInbox hi }
  | .sleep, .go => some { s with pc := .top }
  | _, _ => none
/-- One step. -/
def State.step (s : State ι τ) : Act ι τ → Option (State ι τ)
  | .worker c => s.workerStep c
  | .callSteal hi i => (TaskDeque.thiefCall (s.deque hi) i).map (s.setDeque hi)
  | .thief hi i => (TaskDeque.thiefStep capacity (s.deque hi) i).map (s.setDeque hi)
  | .enqueue hi t => some { s with inbox := Function.update s.inbox hi (s.inbox hi ++ [t]) }
  | .setImmediate t => some { s with immediateTask := some t }

end

end JLibScheduler.WorkerLoop
