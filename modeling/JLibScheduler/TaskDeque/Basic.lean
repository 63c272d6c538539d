import JLibScheduler.Lib.Lts
import JLibScheduler.Lib.AtomicObject
import JLibScheduler.Lib.SizeT

/-!
# The work-stealing deque, one atomic access per step

`TaskDeque` (`include/TaskDeque.h`): a ring buffer with two indices. The owner pushes and pops at
`bottom_`, any number of thieves steal at `top_`. Each atomic load, store and compare-exchange, and
each read or write of the buffer, is one step (`step`); what is local to a call is done together
with the access it follows, and a call returns with its last access. The places where a call can
stand between two accesses are the constructors of `OwnerPc` and `ThiefPc`.

`hist` and `offered` are not in the code: the calls and returns so far, and the number of items
the owner has offered to push calls.
-/

namespace JLibScheduler.TaskDeque

open AtomicObject

/-- A `Task*`; `none` is the null pointer. -/
abbrev Ptr (α : Type) := Option α

/-- The calls of a deque. -/
inductive Op (α : Type)
  | pushBottom (item : Ptr α)
  | pushBottomBatch (items : List (Ptr α))
  | popBottom
  | steal
  deriving DecidableEq

/-- What the calls return: `bool`, or `std::optional<Task*>`. -/
inductive Res (α : Type)
  | pushed (ok : Bool)
  | taken (item : Option (Ptr α))
  deriving DecidableEq

/-- Where the owner stands: before which access of which call, with the call's local values. In
`popStore` and after it `b` is already decremented. -/
inductive OwnerPc (α : Type)
  | idle
  | pushLoadBottom (item : Ptr α)
  | pushLoadTop (item : Ptr α) (b : Nat)
  | pushWrite (item : Ptr α) (b : Nat)
  | pushStore (item : Ptr α) (b : Nat)
  | batchLoadBottom (items : List (Ptr α))
  | batchLoadTop (items : List (Ptr α)) (b : Nat)
  | batchWrite (items : List (Ptr α)) (b i : Nat)
  | popLoadBottom
  | popLoadTop (b : Nat)
  | popStore (b : Nat)
  | popReloadTop (b : Nat)
  | popRead (b t : Nat)
  | popCas (b t : Nat) (item : Ptr α)
  | popWon (b : Nat) (item : Ptr α)
  | popLost (b : Nat)
  | popEmpty (t : Nat)

/-- Where a thief stands in `steal`. -/
inductive ThiefPc (α : Type)
  | idle
  | loadTop
  | loadBottom (t : Nat)
  | read (t : Nat)
  | cas (t : Nat) (item : Ptr α)

/-- The callers: the owner (`none`) and the thieves. -/
abbrev Tid (ι : Type) := Option ι

/-- The state of a deque and of the calls in progress. -/
structure State (ι α : Type) where
  buffer : Nat → Ptr α
  top : Nat
  bottom : Nat
  owner : OwnerPc α
  thief : ι → ThiefPc α
  hist : List (Event (Tid ι) (Op α) (Res α))
  offered : Nat

/-- A step: the owner enters a call or makes its next access, a thief enters `steal` or makes its
next access. -/
inductive Act (ι α : Type)
  | call (op : Op α)
  | owner
  | callSteal (i : ι)
  | thief (i : ι)

section
variable {ι α : Type} [DecidableEq ι]

/-- A constructed deque: null slots, both indices zero, no call in progress. -/
def State.init : State ι α :=
  { buffer := fun _ => none, top := 0, bottom := 0, owner := .idle, thief := fun _ => .idle
    hist := [], offered := 0 }

/-- The owner's call returns `r`. -/
def State.ownerReturn (s : State ι α) (r : Res α) : State ι α :=
  { s with owner := .idle, hist := .res none r :: s.hist }

/-- The call of thief `i` returns `r`. -/
def State.thiefReturn (s : State ι α) (i : ι) (r : Option (Ptr α)) : State ι α :=
  { s with thief := Function.update s.thief i .idle, hist := .res (some i) (.taken r) :: s.hist }

/-- The number of items a call offers. -/
def Op.size : Op α → Nat
  | .pushBottom _ => 1
  | .pushBottomBatch items => items.length
  | .popBottom | .steal => 0

/-- The owner enters a call. A null item is refused before any access. -/
def ownerCall (s : State ι α) (op : Op α) : Option (State ι α) :=
  let s' : State ι α := { s with hist := .inv none op :: s.hist, offered := s.offered + op.size }
  match s.owner, op with
  | .idle, .pushBottom none => some (s'.ownerReturn (.pushed false))
  | .idle, .pushBottom (some x) => some { s' with owner := .pushLoadBottom (some x) }
  | .idle, .pushBottomBatch items => some { s' with owner := .batchLoadBottom items }
  | .idle, .popBottom => some { s' with owner := .popLoadBottom }
  | _, _ => none

/-- The owner's next access: `push_bottom`, `push_bottom_batch` and `pop_bottom`. -/
def ownerStep (capacity : Nat) (s : State ι α) : Option (State ι α) :=
  match s.owner with
  | .idle => none
  | .pushLoadBottom item => some { s with owner := .pushLoadTop item s.bottom }
  | .pushLoadTop item b =>
    if capacity ≤ SizeT.sub b s.top then some (s.ownerReturn (.pushed false))
    else some { s with owner := .pushWrite item b }
  | .pushWrite item b =>
    some { s with
      buffer := Function.update s.buffer (SizeT.slot capacity b) item
      owner := .pushStore item b }
  | .pushStore _ b =>
    some (State.ownerReturn { s with bottom := SizeT.add b 1 } (.pushed true))
  | .batchLoadBottom items => some { s with owner := .batchLoadTop items s.bottom }
  | .batchLoadTop items b =>
    if capacity < SizeT.sub (SizeT.add b items.length) s.top then
      some (s.ownerReturn (.pushed false))
    else some { s with owner := .batchWrite items b 0 }
  | .batchWrite items b i =>
    match items[i]? with
    | some item =>
      some { s with
        buffer := Function.update s.buffer (SizeT.slot capacity (SizeT.add b i)) item
        owner := .batchWrite items b (i + 1) }
    | none =>
      some (State.ownerReturn { s with bottom := SizeT.add b items.length } (.pushed true))
  | .popLoadBottom => some { s with owner := .popLoadTop s.bottom }
  | .popLoadTop b =>
    if b ≤ s.top then some (s.ownerReturn (.taken none))
    else some { s with owner := .popStore (SizeT.sub b 1) }
  | .popStore b => some { s with bottom := b, owner := .popReloadTop b }
  | .popReloadTop b =>
    if s.top ≤ b then some { s with owner := .popRead b s.top }
    else some { s with owner := .popEmpty s.top }
  | .popRead b t =>
    let item := s.buffer (SizeT.slot capacity b)
    -- the last item is raced for, any other one is taken without touching `top_`
    if t = b then some { s with owner := .popCas b t item }
    else some (s.ownerReturn (.taken (some item)))
  | .popCas b t item =>
    if s.top = t then some { s with top := SizeT.add t 1, owner := .popWon b item }
    else some { s with owner := .popLost b }
  | .popWon b item =>
    some (State.ownerReturn { s with bottom := SizeT.add b 1 } (.taken (some item)))
  | .popLost b => some (State.ownerReturn { s with bottom := SizeT.add b 1 } (.taken none))
  | .popEmpty t => some (State.ownerReturn { s with bottom := t } (.taken none))

/-- Thief `i` enters `steal`. -/
def thiefCall (s : State ι α) (i : ι) : Option (State ι α) :=
  match s.thief i with
  | .idle =>
    some { s with
      thief := Function.update s.thief i .loadTop
      hist := .inv (some i) .steal :: s.hist }
  | _ => none

/-- The next access of thief `i` in `steal`. -/
def thiefStep (capacity : Nat) (s : State ι α) (i : ι) : Option (State ι α) :=
  match s.thief i with
  | .idle => none
  | .loadTop => some { s with thief := Function.update s.thief i (.loadBottom s.top) }
  | .loadBottom t =>
    if t < s.bottom then some { s with thief := Function.update s.thief i (.read t) }
    else some (s.thiefReturn i none)
  | .read t =>
    some { s with
      thief := Function.update s.thief i (.cas t (s.buffer (SizeT.slot capacity t))) }
  | .cas t item =>
    if s.top = t then some (State.thiefReturn { s with top := SizeT.add t 1 } i (some item))
    else some (s.thiefReturn i none)

/-- One step of the deque's users. -/
def step (capacity : Nat) (s : State ι α) : Act ι α → Option (State ι α)
  | .call op => ownerCall s op
  | .owner => ownerStep capacity s
  | .callSteal i => thiefCall s i
  | .thief i => thiefStep capacity s i

end

/-- The capacities the constructor accepts: `capacity & (capacity - 1)` is zero. -/
def ValidCapacity (capacity : Nat) : Prop :=
  capacity < 2 ^ 64 ∧ capacity &&& SizeT.sub capacity 1 = 0

/-- The items of a call are not null. -/
def Op.NonNull {α : Type} : Op α → Prop
  | .pushBottom item => item ≠ none
  | .pushBottomBatch items => ∀ item ∈ items, item ≠ none
  | .popBottom | .steal => True

/-- The items of the calls of a step are not null. -/
def Act.NonNull {ι α : Type} : Act ι α → Prop
  | .call op => op.NonNull
  | _ => True

end JLibScheduler.TaskDeque
