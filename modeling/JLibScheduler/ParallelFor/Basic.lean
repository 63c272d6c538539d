import JLibScheduler.WaitGroup.Join

/-!
# `ParallelForFJ`

The recursive splitter of `ParallelForFJ` runs inline on the caller and in every task that it
spawns: it spawns the right half of its range as a task, counted in the group before the push, and
goes on with the left half, until the range is a leaf. A spawned task is a fast job: whoever takes
it from a queue, a worker or a helper, runs it, then subtracts from the count and calls `WakeAll` if
the value says so. The caller waits for the group at the end, suspended if it is a fiber and in a
loop if it is not.

One step is one access to shared data. A task is a party of its own here, whoever runs it, and the
completer of task `k` in the group is the thread that ran it; so every order in which the tasks can
run on any threads, nested runs of helpers included, is a run of this machine. A call of `func` is
one place of the splitter: it is entered and it returns.
-/

namespace JLibScheduler.ParallelFor

/-- The arguments of `ParallelForFJ`, and whether the caller is a fiber. -/
structure Call where
  start : BitVec 32
  stop : BitVec 32
  grain : BitVec 32
  fiber : Bool
  deriving DecidableEq, Repr

/-- `grain = std::max(1, grain)` -/
def Call.maxGrain (c : Call) : BitVec 32 := if c.grain.slt 1 then 1 else c.grain

/-- Where a run of `rec` stands (`TaskScheduler.cpp:191-205`). -/
inductive RecPc where
  /-- at the test of the loop -/
  | loop (a b : BitVec 32)
  | createTask (a b : BitVec 32)
  /-- no slot is free: `func` runs on the right half -/
  | right (a mid b : BitVec 32)
  /-- task `k` is created and not counted -/
  | count (a mid b : BitVec 32) (k : ℕ)
  /-- task `k` is counted and not pushed -/
  | push (a mid b : BitVec 32) (k : ℕ)
  /-- `func` runs on the leaf -/
  | leaf (a b : BitVec 32)
  | done
  deriving DecidableEq, Repr

/-- Where a spawned task stands; its range is `a` to `b`. -/
inductive TaskPc where
  | created (a b : BitVec 32)
  | counted (a b : BitVec 32)
  | queued (a b : BitVec 32)
  /-- `Execute` runs; at `done` it has returned -/
  | running (p : RecPc)
  /-- its thread has subtracted from the count -/
  | completed
  | freed
  deriving DecidableEq, Repr

/-- The task is in the count. -/
def TaskPc.isCounted : TaskPc → Bool
  | .counted _ _ | .queued _ _ | .running _ => true
  | _ => false

/-- The task has a slot of the allocator. -/
def TaskPc.live : TaskPc → Bool
  | .freed => false
  | _ => true

/-- Where the caller stands. -/
inductive CallerPc where
  /-- before the tests of the range -/
  | entry
  /-- `func` runs on the whole range -/
  | small
  | splitting (p : RecPc)
  /-- in `WaitFor` -/
  | wait
  | returned
  deriving DecidableEq, Repr

/-- The state of one call: the group on the caller's stack, with the caller as its only fiber, and
the spawned tasks, of which the `k`-th has number `k`. -/
structure State (δ ω : Type) where
  group : WaitGroup.State Unit δ ω ℕ
  caller : CallerPc
  tasks : List TaskPc

/-- A step of one party. -/
inductive Act (δ ω : Type) where
  /-- the caller, outside its wait; `alloc` says whether the allocator finds a slot -/
  | caller (alloc : Bool)
  /-- the loop of a caller that is no fiber -/
  | poll
  /-- the caller's fiber is pushed, picked by a worker, continued or parked -/
  | push
  | pick (w : ω)
  | worker (w : ω)
  /-- the caller's fiber, in its wait or in a call of `func` that yields -/
  | fiber (w : ω) (m : Fiber.Move Empty δ)
  /-- a thread takes task `k` from a queue -/
  | run (k : ℕ)
  /-- the thread that runs task `k` -/
  | task (k : ℕ) (alloc : Bool)
  | complete (k : ℕ)
  | wakeAll (k : ℕ) (order : List δ)
  | free (k : ℕ)
  deriving DecidableEq, Repr

/-- The slots of the allocator: `TaskAllocator taskAllocator{ 1024 * 1024 }`. -/
def capacity : ℕ := 1024 * 1024

section
variable {δ ω : Type}

/-- The group is new, and nothing has run. -/
def State.init (pool : List δ) : State δ ω where
  group := WaitGroup.State.init pool
  caller := .entry
  tasks := []

def State.setTask (s : State δ ω) (k : ℕ) (p : TaskPc) : State δ ω :=
  { s with tasks := s.tasks.set k p }

variable [DecidableEq δ] [DecidableEq ω]

/-- One step of `rec`: the state and where it stands then. -/
def recStep (c : Call) (s : State δ ω) (alloc : Bool) : RecPc → Option (State δ ω × RecPc)
  | .loop a b => some (s, if c.maxGrain.slt (b - a) then .createTask a b else .leaf a b)
  | .createTask a b =>
    let mid := a + (b - a).sdiv 2
    if alloc then
      if s.tasks.countP TaskPc.live < capacity then
        some ({ s with tasks := s.tasks ++ [.created mid b] }, .count a mid b s.tasks.length)
      else none
    else some (s, .right a mid b)
  | .right a mid _ => some (s, .loop a mid)
  | .count a mid b k =>
    (WaitGroup.step s.group .add).map fun group =>
      ({ s.setTask k (.counted mid b) with group }, .push a mid b k)
  | .push a mid b k => some (s.setTask k (.queued mid b), .loop a mid)
  | .leaf _ _ => some (s, .done)
  | .done => none

/-- A step of the caller in its own code (`TaskScheduler.cpp:178-209`). -/
def callerStep (c : Call) (s : State δ ω) (alloc : Bool) : Option (State δ ω) :=
  match s.caller with
  | .entry =>
    let n := c.stop - c.start
    some { s with
      caller := if n.sle 0 then .returned else if n.sle c.maxGrain then .small
        else .splitting (.loop c.start c.stop) }
  | .small => some { s with caller := .returned }
  | .splitting .done => some { s with caller := .wait }
  | .splitting p => (recStep c s alloc p).map fun (s, p) => { s with caller := .splitting p }
  | .wait | .returned => none

/-- What the caller's fiber may do next: it waits once, after its own part of the tree. -/
def mayMove (caller : CallerPc) : Fiber.Move Empty δ → Bool
  | .waitOnEventDirect _ => caller == .wait
  | .finish => caller == .returned
  | _ => true

/-- One step of the machine. -/
def step (c : Call) (s : State δ ω) : Act δ ω → Option (State δ ω)
  | .caller alloc =>
    -- a fiber is in its own code only while it runs on a worker
    if c.fiber = true → (s.group.fibers.fiber ()).pc = .body then callerStep c s alloc else none
  | .poll =>
    if c.fiber = false ∧ s.caller = .wait then
      some (if WaitGroup.spins s.group.n then s else { s with caller := .returned })
    else none
  | .push =>
    if c.fiber then (WaitGroup.step s.group (.push ())).map fun group => { s with group } else none
  | .pick w =>
    if c.fiber then
      (WaitGroup.step s.group (.pick w ())).map fun group => { s with group }
    else none
  | .worker w =>
    if c.fiber then (WaitGroup.step s.group (.worker w)).map fun group => { s with group } else none
  | .fiber w m =>
    if c.fiber = true ∧ mayMove s.caller m = true then
      (WaitGroup.step s.group (.fiber w m)).map fun group =>
        { s with
          group
          caller := if WaitGroup.returns s.group (.fiber w m) then .returned else s.caller }
    else none
  | .run k =>
    match s.tasks[k]? with
    | some (.queued a b) => some (s.setTask k (.running (.loop a b)))
    | _ => none
  | .task k alloc =>
    match s.tasks[k]? with
    | some (.running p) => (recStep c s alloc p).map fun (s, p) => s.setTask k (.running p)
    | _ => none
  | .complete k =>
    if s.tasks[k]? = some (.running .done) then
      (WaitGroup.step s.group (.complete k)).map fun group =>
        { s.setTask k .completed with group }
    else none
  | .wakeAll k order =>
    (WaitGroup.step s.group (.wakeAll k order)).map fun group => { s with group }
  | .free k =>
    if s.tasks[k]? = some .completed ∧ s.group.completer k = .idle then some (s.setTask k .freed)
    else none

/-- The step accesses the group. -/
def touches (s : State δ ω) : Act δ ω → Bool
  | .caller _ => match s.caller with
    | .splitting (.count _ _ _ _) => true
    | _ => false
  | .poll => true
  | .push | .pick _ | .worker _ | .run _ | .free _ => false
  | .fiber _ _ => !(s.group.arm () == .idle || s.group.arm () == .done)
  | .task k _ => match s.tasks[k]? with
    | some (.running (.count _ _ _ _)) => true
    | _ => false
  | .complete _ => true
  | .wakeAll k _ => (s.group.completer k).onGroup

end

end JLibScheduler.ParallelFor
