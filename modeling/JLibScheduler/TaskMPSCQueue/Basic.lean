import JLibScheduler.Lib.Lts
import Mathlib.Data.Finset.Basic

/-!
# The intrusive queue of many producers and one consumer, one atomic access per step

`TaskMPSCQueue` (`include/TaskMPSCQueue.h`): the tasks are linked through their own `next` fields,
from `tail_`, where the consumer takes them, to `head_`, where the producers append. An append
publishes in two steps: it exchanges `head_`, and then links the predecessor it got to its first
task (`appendStep`); `push`, `push_batch` and the consumer's own `append(stub_)` all do this, so
one state `AppendPc` says where each of them stands. A client may write the `next` field of a task
that is in no queue, as `PushBatch` does to link a batch.

Not in the code: `pushed` (the tasks in the order of the exchanges), `returned` (what `pop` gave),
`live` (the tasks passed to a push and not yet returned), `busy` (the producers inside a push),
`quiet` (no push was in progress since the current `pop` began) and `out` (what the last `pop`
gave, `none` for `false`).
-/

namespace JLibScheduler.TaskMPSCQueue

/-- The tasks of one append, in chain order: `head_batch` is the first, `tail_batch` the last. -/
structure Batch (τ : Type) where
  tasks : List τ
  ne : tasks ≠ []

/-- `head_batch`. -/
def Batch.first {τ : Type} (b : Batch τ) : τ := b.tasks.head b.ne

/-- `tail_batch`. -/
def Batch.last {τ : Type} (b : Batch τ) : τ := b.tasks.getLast b.ne

/-- The batch of a single task. -/
def Batch.single {τ : Type} (x : τ) : Batch τ := ⟨[x], List.cons_ne_nil x []⟩

/-- Where an append stands: before `next.store(nullptr)` on its last task, before
`head_.exchange`, before `prev->next.store`. -/
inductive AppendPc (τ : Type)
  | idle
  | clear (b : Batch τ)
  | exchange (b : Batch τ)
  | link (prev first : τ)

/-- Where the consumer stands in `pop`. `skipStub` is before the second load of a `next`, when
`tail_` was the stub. -/
inductive ConsumerPc (τ : Type)
  | idle
  | loadNext
  | skipStub (tail : τ)
  | loadHead (tail : τ)
  | appendStub (tail : τ)
  | reloadNext (tail : τ)
  deriving DecidableEq

/-- The state of the queue and of the calls in progress. The appender `none` is the consumer. -/
structure State (ι τ : Type) where
  next : τ → Option τ
  head : τ
  tail : τ
  appending : Option ι → AppendPc τ
  consumer : ConsumerPc τ
  pushed : List τ
  returned : List τ
  live : τ → Bool
  busy : Finset ι
  quiet : Bool
  out : Option τ

/-- A step: a client writes the `next` of a task in no queue, a producer enters `push` or
`push_batch` or makes its next access, the consumer enters `pop` or makes its next access. -/
inductive Act (ι τ : Type)
  | write (x : τ) (v : Option τ)
  | push (i : ι) (x : τ)
  | pushBatch (i : ι) (b : Batch τ)
  | producer (i : ι)
  | pop
  | consumer

section
variable {ι τ : Type} [DecidableEq ι] [DecidableEq τ] (stub : τ)

/-- An initialised queue: the stub alone. -/
def State.init : State ι τ :=
  { next := fun _ => none, head := stub, tail := stub, appending := fun _ => .idle
    consumer := .idle, pushed := [], returned := [], live := fun _ => false, busy := ∅
    quiet := false, out := none }

/-- The next access of an append. -/
def appendStep (s : State ι τ) (w : Option ι) : Option (State ι τ) :=
  match s.appending w with
  | .idle => none
  | .clear b =>
    some { s with
      next := Function.update s.next b.last none
      appending := Function.update s.appending w (.exchange b) }
  | .exchange b =>
    some { s with
      head := b.last
      appending := Function.update s.appending w (.link s.head b.first)
      pushed := s.pushed ++ b.tasks.filter (· ≠ stub) }
  | .link prev first =>
    some { s with
      next := Function.update s.next prev (some first)
      appending := Function.update s.appending w .idle }

/-- A producer enters `push` or `push_batch` with tasks that are in no queue, distinct and linked
in order. -/
def enter (s : State ι τ) (i : ι) (b : Batch τ) : Option (State ι τ) :=
  match s.appending (some i) with
  | .idle =>
    if b.tasks.Nodup ∧ (∀ x ∈ b.tasks, x ≠ stub ∧ s.live x = false) ∧
        b.tasks.IsChain (fun a c => s.next a = some c) then
      some { s with
        appending := Function.update s.appending (some i) (.clear b)
        live := fun x => decide (x ∈ b.tasks) || s.live x
        busy := insert i s.busy
        quiet := false }
    else none
  | _ => none

/-- The next access of producer `i`; with its last access the push returns. -/
def producerStep (s : State ι τ) (i : ι) : Option (State ι τ) :=
  match s.appending (some i) with
  | .link _ _ => (appendStep stub s (some i)).map fun s' => { s' with busy := s'.busy.erase i }
  | _ => appendStep stub s (some i)

/-- `pop` returns `false`. -/
def State.popFalse (s : State ι τ) : State ι τ := { s with consumer := .idle, out := none }

/-- `tail_ = next; out = tail; return true`. -/
def State.popTrue (s : State ι τ) (tail next : τ) : State ι τ :=
  { s with
    tail := next
    consumer := .idle
    returned := s.returned ++ [tail]
    live := Function.update s.live tail false
    out := some tail }

/-- The next access of the consumer in `pop`. -/
def consumerStep (s : State ι τ) : Option (State ι τ) :=
  match s.consumer with
  | .idle => none
  | .loadNext =>
    if s.tail = stub then
      match s.next s.tail with
      | none => some s.popFalse
      | some next => some { s with tail := next, consumer := .skipStub next }
    else
      match s.next s.tail with
      | some next => some (s.popTrue s.tail next)
      | none => some { s with consumer := .loadHead s.tail }
  | .skipStub tail =>
    match s.next tail with
    | some next => some (s.popTrue tail next)
    | none => some { s with consumer := .loadHead tail }
  | .loadHead tail =>
    if tail ≠ s.head then some s.popFalse
    else some { s with
      consumer := .appendStub tail
      appending := Function.update s.appending none (.clear (.single stub)) }
  | .appendStub tail =>
    match s.appending none with
    | .link _ _ => (appendStep stub s none).map fun s' => { s' with consumer := .reloadNext tail }
    | _ => appendStep stub s none
  | .reloadNext tail =>
    match s.next tail with
    | some next => some (s.popTrue tail next)
    | none => some s.popFalse

/-- One step of the queue's users. -/
def step (s : State ι τ) : Act ι τ → Option (State ι τ)
  | .write x v =>
    if x ≠ stub ∧ s.live x = false then some { s with next := Function.update s.next x v }
    else none
  | .push i x => enter stub s i (.single x)
  | .pushBatch i b => enter stub s i b
  | .producer i => producerStep stub s i
  | .pop =>
    match s.consumer with
    | .idle => some { s with consumer := .loadNext, quiet := decide (s.busy = ∅) }
    | _ => none
  | .consumer => consumerStep stub s

end

end JLibScheduler.TaskMPSCQueue
