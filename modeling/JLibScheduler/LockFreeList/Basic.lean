import JLibScheduler.Lib.Lts
import JLibScheduler.LockFreeList.Heap

/-!
# The calls of a `LockFreeList`

`add`, `remove` and `contains` (`LockFreeList.h`), called by any number of threads. One step of a
call is one access to the word of a node, an allocation, or the hand-over of a node to `RetirePtr`;
the keys do not change, so reading one is no step of its own. The traversal `Window::find` is shared
by `add` and `remove` (`findStep`). The history fields say what a call has seen: `seen` are the
nodes at every moment since the call began.
-/

namespace JLibScheduler.LockFreeList

/-- The calls of the list. -/
inductive Op where
  | add
  | remove
  | contains
  deriving DecidableEq, Repr

/-- Where `Window::find` stands. -/
inductive FindPc where
  /-- at `RETRY`, before the load of the head's pointer -/
  | start
  /-- before the load of `curr->next` -/
  | read (pred curr : ℕ)
  /-- `curr` is marked; before the compare-exchange that points `pred` past it -/
  | snip (pred curr : ℕ) (succ : Option ℕ)
  deriving DecidableEq, Repr

/-- Where a call stands. -/
inductive Pc where
  | idle
  /-- in `Window::find`, called by `add` or by `remove` -/
  | find (adding : Bool) (k : ℕ) (pc : FindPc)
  /-- `add`, before `Alloc` and the construction of the node -/
  | alloc (k pred curr : ℕ)
  /-- `add`, before the compare-exchange that links the node -/
  | link (k pred curr node : ℕ)
  /-- `remove`, before the load of `succ` -/
  | readSucc (k pred curr : ℕ)
  /-- `attemptMark`, before its load -/
  | attemptMark (k pred curr : ℕ) (succ : Option ℕ)
  /-- `attemptMark`, before its compare-exchange -/
  | markCas (k pred curr : ℕ) (succ : Option ℕ)
  /-- `remove`, before the compare-exchange that points `pred` past the node -/
  | unlink (k pred curr : ℕ) (succ : Option ℕ)
  /-- `remove`, before `RetirePtr` -/
  | retire (k curr : ℕ)
  /-- `contains`, before `getReference` -/
  | walk (k curr : ℕ)
  /-- `contains`, before `getMark` -/
  | walkMark (k curr : ℕ) (succ : Option ℕ)
  /-- the call is about to return `r` -/
  | done (op : Op) (k : ℕ) (r : Bool)
  deriving DecidableEq, Repr

/-- The state of the list and of the calls of the threads `ι`. History only: the nodes at every
moment since the call of a thread began, the nodes before and after the compare-exchange by which
the running `add` of a thread has linked its node, and the nodes passed to `RetirePtr`, each with
its call and with the nodes at that moment. -/
structure State (ι : Type) where
  heap : Heap
  pc : ι → Pc
  seen : ι → List Heap
  inserted : ι → Option (Heap × Heap)
  retired : List (ι × ℕ × Heap)

/-- A step: a call, a step of a call, `Alloc` with the slot it hands out, a weak compare-exchange
that fails though the value is the expected one, or a return. -/
inductive Act (ι : Type) where
  | call (i : ι) (op : Op) (k : ℕ)
  | step (i : ι)
  | alloc (i : ι) (slot : ℕ)
  | spurious (i : ι)
  | ret (i : ι)
  deriving DecidableEq, Repr

/-- `LMarkablePointer::compareAndSet` on the word of `a`: the nodes after it, or `none` when it
fails. -/
def Heap.compareAndSet (h : Heap) (a : ℕ) (expectedPtr newPtr : Option ℕ)
    (expectedMark newMark : Bool) : Option Heap :=
  if h.ref a = ⟨expectedPtr, expectedMark⟩ then some (h.setRef a ⟨newPtr, newMark⟩) else none

/-- What a step of `Window::find` gives: the nodes and where it stands then, or the window. -/
inductive FindRes where
  | go (h : Heap) (pc : FindPc)
  | window (pred curr : ℕ)

/-- A step of `Window::find` (`LockFreeList.h:120-144`). A null pointer would be dereferenced where
the result is `none`. -/
def findStep (h : Heap) (k : ℕ) : FindPc → Option FindRes
  | .start => (h.ref head).val.map fun curr => .go h (.read head curr)
  | .read pred curr =>
    let succ := h.ref curr
    if succ.marked then some (.go h (.snip pred curr succ.val))
    else if k ≤ h.key curr then some (.window pred curr)
    else succ.val.map fun succ => .go h (.read curr succ)
  | .snip pred curr succ =>
    match h.compareAndSet pred (some curr) succ false false with
    | some h' => succ.map fun succ =>
        .go { h' with unlinked := curr :: h'.unlinked } (.read pred succ)
    | none => some (.go h .start)

/-- Where `add` and `remove` go with the window. -/
def found (h : Heap) (adding : Bool) (k pred curr : ℕ) : Pc :=
  if adding then
    if h.key curr = k then .done .add k false else .alloc k pred curr
  else
    if h.key curr = k then .readSucc k pred curr else .done .remove k false

/-- Where `remove` goes when `attemptMark` (`LockFreeList.h:66-79`) has loaded the word `r`: it
fails on another pointer, it succeeds when the mark is already set, else it tries to set it. -/
def attemptMarkTest (k pred curr : ℕ) (succ : Option ℕ) (r : Ref) : Pc :=
  if r.val ≠ succ then .find false k .start
  else if r.marked then .unlink k pred curr succ
  else .markCas k pred curr succ

/-- A step of a call: where it stands then, and the nodes. -/
def localStep (h : Heap) : Pc → Option (Pc × Heap)
  | .find adding k pc =>
    (findStep h k pc).map fun
      | .go h' pc' => (.find adding k pc', h')
      | .window pred curr => (found h adding k pred curr, h)
  | .link k pred curr node =>
    match h.compareAndSet pred (some curr) (some node) false false with
    | some h' => some (.done .add k true, { h' with linked := node :: h'.linked })
    -- the node that was just built is forgotten
    | none => some (.find true k .start, h)
  | .readSucc k pred curr => some (.attemptMark k pred curr (h.ref curr).val, h)
  | .attemptMark k pred curr succ => some (attemptMarkTest k pred curr succ (h.ref curr), h)
  | .markCas k pred curr succ =>
    match h.compareAndSet curr succ succ false true with
    | some h' => some (.unlink k pred curr succ, h')
    | none => some (attemptMarkTest k pred curr succ (h.ref curr), h)
  | .unlink k pred curr succ =>
    match h.compareAndSet pred (some curr) succ false false with
    | some h' => some (.retire k curr, { h' with unlinked := curr :: h'.unlinked })
    -- the result is not looked at
    | none => some (.retire k curr, h)
  | .retire k _ => some (.done .remove k true, h)
  | .walk k curr => some (.walkMark k curr (h.ref curr).val, h)
  | .walkMark k curr succ =>
    if k ≤ h.key curr then
      some (.done .contains k (decide (h.key curr = k) && !(h.ref curr).marked), h)
    else
      match succ with
      | some curr => some (.walk k curr, h)
      | none => some (.done .contains k false, h)
  | _ => none

/-- Where a call begins. -/
def Op.enter (k : ℕ) : Op → Pc
  | .add => .find true k .start
  | .remove => .find false k .start
  | .contains => .walk k head

section
variable {ι : Type}

/-- The list after its construction, with no call. -/
def State.init : State ι where
  heap := .init
  pc _ := .idle
  seen _ := [.init]
  inserted _ := none
  retired := []

/-- Thread `i` goes on to `pc` and leaves the nodes `h`. -/
def State.go [DecidableEq ι] (s : State ι) (i : ι) (pc : Pc) (h : Heap) : State ι :=
  { s with
    heap := h
    pc := Function.update s.pc i pc
    seen := fun j => h :: s.seen j }

/-- The nodes before and after the compare-exchange of `add`, when a step of a call was one that
succeeded. -/
def linkStep (h h' : Heap) : Pc → Pc → Option (Heap × Heap)
  | .link _ _ _ _, .done _ _ _ => some (h, h')
  | _, _ => none

/-- What a step of a call of thread `i` passes to `RetirePtr`. -/
def retireStep (h : Heap) (i : ι) : Pc → List (ι × ℕ × Heap)
  | .retire _ curr => [(i, curr, h)]
  | _ => []

/-- One step of the list. The keys of the calls are strictly between those of the sentinels. -/
def State.step [DecidableEq ι] (s : State ι) : Act ι → Option (State ι)
  | .call i op k =>
    if s.pc i = .idle ∧ 0 < k ∧ k < maxKey then
      some { s with
        pc := Function.update s.pc i (op.enter k)
        seen := Function.update s.seen i [s.heap]
        inserted := Function.update s.inserted i none }
    else none
  | .step i =>
    (localStep s.heap (s.pc i)).map fun (pc', h') =>
      { s.go i pc' h' with
        inserted := Function.update s.inserted i
          ((linkStep s.heap h' (s.pc i) pc').or (s.inserted i))
        retired := retireStep s.heap i (s.pc i) ++ s.retired }
  | .alloc i slot =>
    match s.pc i with
    | .alloc k pred curr =>
      if slot ∉ s.heap.slots then
        some (s.go i (.link k pred curr slot) (s.heap.build slot k curr))
      else none
    | _ => none
  | .spurious i =>
    match s.pc i with
    | .markCas _ _ _ _ => some s
    | _ => none
  | .ret i =>
    match s.pc i with
    | .done _ _ _ => some { s with pc := Function.update s.pc i .idle }
    | _ => none

end

end JLibScheduler.LockFreeList
