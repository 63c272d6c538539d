import JLibScheduler.Sync.Basic

/-!
# Helping while spinning

A fast job has no fiber to suspend. When it cannot get a mutex or a permit, or waits for a group, it
spins, and in each round of the loop it steals a task from some deque with `TryRunStolenFastJob`: a
fast job is run on top of it, on the same thread, and another task is handed to the inbox of some
worker. So a thread has a stack of contexts: the task that its loop runs, the job that runs in the
spin loop of that task, and so on. A fiber that cannot get what it asked for is taken off its
thread.

The inboxes and deques of a worker are bags here: `place` says where a task is. Which worker
`PickNextWorker` ends with is a choice of the step, and so is what the code of a task does next. The
mutexes and semaphores are those of `Sync`, with a fiber named by its task. A fiber that was taken
from their queues, or that waits for something else, can be resumed at any time. Not in the code:
`holder`, the context that owns a mutex, from the moment it locks it or is taken from its queue.
-/

namespace JLibScheduler.Helping

open JLibScheduler.Sync (Obj Kind)

/-- Where a task is. -/
inductive Place (ω : Type) where
  | fresh
  | inbox (w : ω) (hi : Bool)
  | deque (w : ω) (hi : Bool)
  /-- on the stack of a thread -/
  | running (w : ω)
  | suspended
  | done
  deriving DecidableEq, Repr

/-- What a context waits for: a mutex or a semaphore, or the tasks of a group. -/
inductive Wait (ν γ : Type) where
  | obj (x : ν)
  | group (g : γ)
  deriving DecidableEq, Repr

/-- The state of tasks `τ`, workers `ω`, mutexes and semaphores `ν` and groups `γ`. A stack has the
context that runs at its head. -/
structure State (τ ω ν γ : Type) where
  place : τ → Place ω
  stack : ω → List τ
  waits : τ → Option (Wait ν γ)
  obj : ν → Obj τ
  holder : ν → Option τ
  waitGroup : τ → Option γ
  /-- the tasks that the `n` of a group counts, fewer than `2 ^ 30` -/
  count : γ → ℕ

/-- A step of one party. -/
inductive Act (τ ω ν γ : Type) where
  /-- `Push` of a new task, which is counted in its group first -/
  | push (u : τ) (waitGroup : Option γ) (target : ω)
  /-- `Resume` of a suspended fiber, which goes to an inbox by `Requeue` -/
  | resume (u : τ) (target : ω)
  /-- the loop of a worker moves a task from an inbox to its deque -/
  | drain (w : ω) (u : τ)
  /-- the loop hands a task of its inbox to another worker -/
  | requeue (w : ω) (u : τ) (target : ω)
  /-- the loop takes a task from its own deque, or steals it -/
  | take (w : ω) (u : τ)
  /-- a fiber yields or suspends -/
  | coYield (w : ω)
  | suspend (w : ω)
  /-- a round of `Lock` or `Wait` -/
  | acquire (w : ω) (x : ν)
  | tryAcquire (w : ω) (x : ν)
  /-- `Unlock` or `Signal` -/
  | release (w : ω) (x : ν)
  /-- a fast job enters the loop of `WaitFor`, or leaves it -/
  | waitFor (w : ω) (g : γ)
  | waited (w : ω)
  /-- `TryRunStolenFastJob` in a spin loop -/
  | help (w : ω) (u : τ) (target : ω)
  | finish (w : ω)
  deriving DecidableEq, Repr

section
variable {τ ω ν γ : Type} [DecidableEq τ] [DecidableEq ω] [DecidableEq ν] [DecidableEq γ]

/-- No task is submitted, and the mutexes and semaphores are as they were made. -/
def State.init (kind : ν → Kind) : State τ ω ν γ where
  place _ := .fresh
  stack _ := []
  waits _ := none
  obj x := .new (kind x)
  holder _ := none
  waitGroup _ := none
  count _ := 0

def State.put (s : State τ ω ν γ) (u : τ) (p : Place ω) : State τ ω ν γ :=
  { s with place := Function.update s.place u p }

def State.setStack (s : State τ ω ν γ) (w : ω) (l : List τ) : State τ ω ν γ :=
  { s with stack := Function.update s.stack w l }

def State.setWaits (s : State τ ω ν γ) (t : τ) (x : Option (Wait ν γ)) : State τ ω ν γ :=
  { s with waits := Function.update s.waits t x }

/-- The object `x` becomes `o`; when it is a mutex, `h` holds it. -/
def State.setObj (s : State τ ω ν γ) (x : ν) (o : Obj τ) (h : Option τ) : State τ ω ν γ :=
  { s with
    obj := Function.update s.obj x o
    holder := match s.obj x with
      | .mutex _ => Function.update s.holder x h
      | .semaphore _ => s.holder }

/-- Only the owner of a mutex calls `Unlock`. -/
def mayRelease (s : State τ ω ν γ) (t : τ) (x : ν) : Bool :=
  match s.obj x with
  | .mutex _ => s.holder x = some t
  | .semaphore _ => true

/-- A round of `Lock` or `Wait` of the context `t`, which runs on worker `w` over `rest`. -/
def acquireStep (fastJob : τ → Bool) (s : State τ ω ν γ) (w : ω) (t : τ) (rest : List τ) (x : ν) :
    Option (State τ ω ν γ) :=
  if fastJob t then
    if s.waits t = none ∨ s.waits t = some (.obj x) then
      match (s.obj x).tryAcquire with
      | some o => some ((s.setObj x o (some t)).setWaits t none)
      | none => some (s.setWaits t (some (.obj x)))
    else none
  else if s.waits t = none then
    match (s.obj x).acquire t with
    | (o, true) => some (s.setObj x o (some t))
    | (o, false) =>
      some ((({ s with obj := Function.update s.obj x o }.setWaits t (some (.obj x))).put t
        .suspended).setStack w rest)
  else none

/-- A step of the context `t` that runs on worker `w` over `rest`. -/
def runStep (fastJob hiPri : τ → Bool) (s : State τ ω ν γ) (w : ω) (t : τ) (rest : List τ) :
    Act τ ω ν γ → Option (State τ ω ν γ)
  | .coYield _ =>
    if fastJob t ∨ s.waits t ≠ none then none
    else some ((s.put t (.deque w false)).setStack w rest)
  | .suspend _ =>
    if fastJob t ∨ s.waits t ≠ none then none else some ((s.put t .suspended).setStack w rest)
  | .acquire _ x => acquireStep fastJob s w t rest x
  | .tryAcquire _ x =>
    if s.waits t = none then
      some ((s.obj x).tryAcquire.elim s fun o => s.setObj x o (some t))
    else none
  | .release _ x =>
    if s.waits t = none ∧ mayRelease s t x then
      let (o, next) := (s.obj x).release
      let s := s.setObj x o next
      some (next.elim s fun f => s.setWaits f none)
    else none
  | .waitFor _ g =>
    if fastJob t ∧ s.waits t = none then some (s.setWaits t (some (.group g))) else none
  | .waited _ =>
    match s.waits t with
    | some (.group g) => if s.count g = 0 then some (s.setWaits t none) else none
    | _ => none
  | .help _ u target =>
    match s.waits t, s.place u with
    | some _, .deque _ _ =>
      if fastJob u then some ((s.put u (.running w)).setStack w (u :: t :: rest))
      else some (s.put u (.inbox target (hiPri u)))
    | _, _ => none
  | .finish _ =>
    if s.waits t = none then
      some { (s.put t .done).setStack w rest with
        count := (s.waitGroup t).elim s.count fun g =>
          Function.update s.count g (s.count g - 1) }
    else none
  | _ => none

/-- The worker whose loop or whose stack a step is about. -/
def Act.worker? : Act τ ω ν γ → Option ω
  | .coYield w | .suspend w | .acquire w _ | .tryAcquire w _ | .release w _ | .waitFor w _
  | .waited w | .help w _ _ | .finish w => some w
  | _ => none

/-- A step of the context at the head of a stack. -/
def stackStep (fastJob hiPri : τ → Bool) (s : State τ ω ν γ) (a : Act τ ω ν γ) :
    Option (State τ ω ν γ) :=
  a.worker?.bind fun w =>
    match s.stack w with
    | t :: rest => runStep fastJob hiPri s w t rest a
    | [] => none

/-- One step of the machine. -/
def step (fastJob hiPri : τ → Bool) (s : State τ ω ν γ) (a : Act τ ω ν γ) :
    Option (State τ ω ν γ) :=
  match a with
  | .push u g target =>
    if s.place u = .fresh then
      some { s.put u (.inbox target (hiPri u)) with
        waitGroup := Function.update s.waitGroup u g
        count := g.elim s.count fun g => Function.update s.count g (s.count g + 1) }
    else none
  | .resume u target =>
    if s.place u = .suspended ∧ s.waits u = none then some (s.put u (.inbox target (hiPri u)))
    else none
  | .drain w u =>
    match s.stack w, s.place u with
    | [], .inbox v hi => if v = w then some (s.put u (.deque w hi)) else none
    | _, _ => none
  | .requeue w u target =>
    match s.stack w, s.place u with
    | [], .inbox v _ => if v = w then some (s.put u (.inbox target (hiPri u))) else none
    | _, _ => none
  | .take w u =>
    match s.stack w, s.place u with
    | [], .deque _ _ => some ((s.put u (.running w)).setStack w [u])
    | _, _ => none
  | a => stackStep fastJob hiPri s a

end

end JLibScheduler.Helping
