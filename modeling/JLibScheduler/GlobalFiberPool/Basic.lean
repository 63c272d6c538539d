import Mathlib.Algebra.BigOperators.Fin
import JLibScheduler.Lib.Lts

/-!
# The fibers and their caches

`ThreadLocalCache` (`include/ThreadLocalCache.h`) over `GlobalFiberPool`
(`src/GlobalFiberPool.cpp`). Each worker has a stack of free fibers in an array; an empty one is
refilled from the queue of the pool, fiber by fiber, and a full one gives the upper half of its
entries back. The queue is a bag: a dequeue may give any fiber of it and fails only on the empty
bag, and its approximate size is zero only when it is empty and no enqueue is in progress. One step
is one access to the queue, or what a worker does with its own array up to the next such access.

`sawEmpty` is not in the code: whether the worker's present call of `Pop` found the queue empty.
-/

namespace JLibScheduler.GlobalFiberPool

/-- `MaxCapacity`. -/
def maxCapacity : Nat := 256

/-- The `activeCapacity` that `Initialize` computes. -/
def activeCapacity (runtimeCapacity : Nat) : Nat :=
  let capacity := if runtimeCapacity ≤ maxCapacity then runtimeCapacity else maxCapacity
  if capacity < 2 then 2 else capacity

/-- Where a worker stands in `Pop` or `Push`. -/
inductive Pc (φ : Type)
  | idle
  /-- `StealBatch`, at the test of its loop -/
  | steal (batch : List φ)
  /-- `StealBatch`, at `try_dequeue` -/
  | dequeue (batch : List φ)
  /-- `Pop`, at the second test of `count` -/
  | take
  /-- `Push` of `f` with a full array, at the test of the loop of `ReturnBatch` -/
  | spill (f : φ) (i : Nat)
  /-- in the `enqueue` of that loop -/
  | enqueue (f : φ) (i : Nat)
  deriving DecidableEq

/-- A worker: its array, where it stands, and the fibers that it holds. -/
structure Worker (φ : Type) where
  localFibers : Nat → Option φ
  count : Nat
  pc : Pc φ
  hands : List φ
  sawEmpty : Bool

/-- The queue of the pool, and the workers. -/
structure State (φ ι : Type) where
  availableFibers : List φ
  worker : ι → Worker φ

/-- A step: a worker enters `Pop` or `Push`, or goes on in its call; or a worker passes a fiber that
it holds to another one, as when a suspended fiber is resumed elsewhere. -/
inductive Act (φ ι : Type)
  | pop (w : ι)
  | push (w : ι) (f : φ)
  | sizeApprox (w : ι) (size : Nat)
  | tryDequeue (w : ι) (f : Option φ)
  | next (w : ι)
  | pass (w w' : ι) (f : φ)

/-- The number of entries that a full array gives back. -/
def half (capacity : Nat) : Nat := capacity / 2

section
variable {φ : Type} [DecidableEq φ]

/-- A worker enters `Pop`. -/
def Worker.pop (x : Worker φ) : Option (Worker φ) :=
  match x.pc with
  | .idle => some { x with pc := if x.count = 0 then .steal [] else .take, sawEmpty := false }
  | _ => none

/-- `localFibers[count++] = f`. -/
def Worker.store (x : Worker φ) (f : φ) : Worker φ :=
  { x with localFibers := Function.update x.localFibers x.count (some f), count := x.count + 1 }

/-- A worker enters `Push` of a fiber that it holds. -/
def Worker.push (capacity : Nat) (x : Worker φ) (f : φ) : Option (Worker φ) :=
  match x.pc with
  | .idle =>
    if f ∈ x.hands then
      let x := { x with hands := x.hands.erase f }
      if capacity ≤ x.count then some { x with pc := .spill f 0 } else some (x.store f)
    else none
  | _ => none

/-- The test of the loop of `StealBatch`, for the approximate size of the queue; when the loop ends
the batch is copied into the array. -/
def Worker.sizeApprox (capacity : Nat) (queue : List φ) (x : Worker φ) (size : Nat) :
    Option (Worker φ) :=
  match x.pc with
  | .steal batch =>
    if batch.length < capacity ∧ 0 < size then some { x with pc := .dequeue batch }
    else
      some { x with
        localFibers := fun i => if i < batch.length then batch[i]? else x.localFibers i
        count := batch.length
        pc := .take
        sawEmpty := queue.isEmpty }
  | _ => none

/-- `try_dequeue`. -/
def Worker.tryDequeue (queue : List φ) (x : Worker φ) (f : Option φ) :
    Option (List φ × Worker φ) :=
  match x.pc, f with
  | .dequeue batch, some f =>
    if f ∈ queue then some (queue.erase f, { x with pc := .steal (batch ++ [f]) }) else none
  | .dequeue batch, none => if queue = [] then some (queue, { x with pc := .steal batch }) else none
  | _, _ => none

/-- The steps that have no choice: the end of `Pop`, and the loop of `ReturnBatch` with the end of
`Push`. -/
def Worker.next (capacity : Nat) (queue : List φ) (x : Worker φ) : Option (List φ × Worker φ) :=
  match x.pc with
  | .take =>
    if x.count = 0 then some (queue, { x with pc := .idle })
    else
      (x.localFibers (x.count - 1)).map fun f =>
        (queue, { x with count := x.count - 1, pc := .idle, hands := f :: x.hands })
  | .spill f i =>
    if i < half capacity then some (queue, { x with pc := .enqueue f i })
    else
      some (queue, { ({ x with count := x.count - half capacity } : Worker φ).store f with
        pc := .idle })
  | .enqueue f i =>
    (x.localFibers (x.count - half capacity + i)).map fun g =>
      (queue ++ [g], { x with pc := .spill f (i + 1) })
  | _ => none

/-- Whether an `enqueue` is in progress. -/
def Worker.enqueuing (x : Worker φ) : Bool :=
  match x.pc with
  | .enqueue _ _ => true
  | _ => false

variable {ι : Type} [DecidableEq ι] [Fintype ι]

/-- The state after a worker moved. -/
def State.set (s : State φ ι) (w : ι) (r : List φ × Worker φ) : State φ ι :=
  { availableFibers := r.1, worker := Function.update s.worker w r.2 }

/-- One step, for the capacities of the caches. -/
def step (capacity : ι → Nat) (s : State φ ι) : Act φ ι → Option (State φ ι)
  | .pop w => (s.worker w).pop.map fun x => s.set w (s.availableFibers, x)
  | .push w f => ((s.worker w).push (capacity w) f).map fun x => s.set w (s.availableFibers, x)
  | .sizeApprox w size =>
    if size = 0 → s.availableFibers = [] ∧ ∀ v, (s.worker v).enqueuing = false then
      ((s.worker w).sizeApprox (capacity w) s.availableFibers size).map fun x =>
        s.set w (s.availableFibers, x)
    else none
  | .tryDequeue w f => ((s.worker w).tryDequeue s.availableFibers f).map (s.set w)
  | .next w => ((s.worker w).next (capacity w) s.availableFibers).map (s.set w)
  | .pass w w' f =>
    if f ∈ (s.worker w).hands then
      let s := s.set w
        (s.availableFibers, { s.worker w with hands := (s.worker w).hands.erase f })
      some (s.set w' (s.availableFibers, { s.worker w' with hands := f :: (s.worker w').hands }))
    else none

/-- The pool with all fibers in the queue, and the caches empty. -/
def init (fibers : List φ) : State φ ι where
  availableFibers := fibers
  worker _ := ⟨fun _ => none, 0, .idle, [], false⟩

end

/-! ## Where the fibers are -/

section
variable {φ : Type}

/-- The fibers in some entries of an array. -/
def entries (localFibers : Nat → Option φ) (first number : Nat) : List φ :=
  (List.range' first number).filterMap localFibers

/-- The fibers in the array that are the worker's, `localFibers[0..count)` less those that a `Push`
is giving back. -/
def Worker.kept (capacity : Nat) (x : Worker φ) : List φ :=
  match x.pc with
  | .spill _ _ | .enqueue _ _ => entries x.localFibers 0 (x.count - half capacity)
  | _ => entries x.localFibers 0 x.count

/-- The fibers in transfer to the worker or from it. -/
def Worker.transfer (capacity : Nat) (x : Worker φ) : List φ :=
  match x.pc with
  | .steal batch | .dequeue batch => batch
  | .spill _ i | .enqueue _ i =>
    entries x.localFibers (x.count - half capacity + i) (half capacity - i)
  | _ => []

/-- The fibers that the worker holds, with that of its `Push`. -/
def Worker.held (x : Worker φ) : List φ :=
  match x.pc with
  | .spill f _ | .enqueue f _ => f :: x.hands
  | _ => x.hands

/-- All fibers of a worker. -/
def Worker.fibers (capacity : Nat) (x : Worker φ) : List φ :=
  x.kept capacity ++ x.transfer capacity ++ x.held

/-- The entries of the array that the worker's next step reads or writes. -/
def Worker.accesses (capacity : Nat) (x : Worker φ) : List Nat :=
  match x.pc with
  | .idle => if capacity ≤ x.count then [] else [x.count]
  | .steal batch => List.range batch.length
  | .dequeue _ => []
  | .take => if x.count = 0 then [] else [x.count - 1]
  | .spill _ i => if i < half capacity then [] else [x.count - half capacity]
  | .enqueue _ i => [x.count - half capacity + i]

variable {ι : Type} [Fintype ι] [DecidableEq φ]

/-- In how many places a fiber is. -/
def State.copies (capacity : ι → Nat) (s : State φ ι) (f : φ) : Nat :=
  s.availableFibers.count f + ∑ w, ((s.worker w).fibers (capacity w)).count f

end

end JLibScheduler.GlobalFiberPool
