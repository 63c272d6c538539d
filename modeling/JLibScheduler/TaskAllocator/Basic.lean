import JLibScheduler.Lib.Lts
import JLibScheduler.Lib.SizeT
import Mathlib.Logic.Function.Basic

/-!
# The task allocator

`TaskAllocator` (`include/TaskAllocator.h`) hands out slots of one size. A free slot holds in its
first word the pointer to the next free slot; a slot that is handed out holds there what its owner
writes. The free slots are in a shared list under `mtx`, and in a cache of each thread: `Alloc`
takes the first slot of the cache, which `refill` fills with up to `BATCH` slots of the shared list
when it is empty, and `Free` puts the slot in front of the cache, of which `flush` gives back all
but `BATCH` when it holds more than `2 * BATCH`.

The slots are the numbers below the capacity and a pointer is `Option ℕ`. An operation goes on in
moves (`Pc`): a section under `mtx` and an access of `liveCount` is one move each, and so is each
part of the operation between them, which accesses only the cache of the thread and the slots that
no other thread has. A null pointer that is followed makes the move impossible.
-/

namespace JLibScheduler.TaskAllocator

/-- `BATCH`: how many slots `refill` moves at most and `flush` leaves. -/
def BATCH : ℕ := 32

/-- What the threads share: the first word of each slot, and `sharedHead`. -/
structure Shared where
  next : ℕ → Option ℕ
  sharedHead : Option ℕ

/-- The `Cache` of a thread. -/
structure Cache where
  head : Option ℕ
  count : ℕ

/-- The constructor: each slot is put in front of the shared list. -/
def construct (slots : ℕ) : Shared :=
  (List.range slots).foldl
    (fun m blk => { next := Function.update m.next blk m.sharedHead, sharedHead := some blk })
    { next := fun _ => none, sharedHead := none }

/-! ## The parts of the operations -/

/-- The loop of `refill` over `curr`, `batchTail` and `moved`; the first argument is
`BATCH - moved`. -/
def walk (next : ℕ → Option ℕ) : ℕ → Option ℕ → Option ℕ → ℕ → Option ℕ × Option ℕ × ℕ
  | n + 1, some curr, _, moved => walk next n (next curr) (some curr) (moved + 1)
  | _, curr, batchTail, moved => (curr, batchTail, moved)

/-- The section of `refill` under `mtx`, with `batchHead`, `batchTail` and `moved` when the shared
list is not empty. -/
def Shared.detach (m : Shared) : Option (ℕ × Option ℕ × ℕ) × Shared :=
  match m.sharedHead with
  | none => (none, m)
  | some batchHead =>
    (some (batchHead, (walk m.next BATCH (some batchHead) none 0).2),
      { m with sharedHead := (walk m.next BATCH (some batchHead) none 0).1 })

/-- The rest of `refill`, after the section. -/
def Shared.attach (m : Shared) (c : Cache) (batchHead batchTail moved : ℕ) : Shared × Cache :=
  ({ m with next := Function.update m.next batchTail c.head },
    { head := some batchHead, count := SizeT.add c.count moved })

/-- `Alloc` takes the first slot of the cache. -/
def Shared.take (m : Shared) (c : Cache) (slot : ℕ) : Cache :=
  { head := m.next slot, count := SizeT.sub c.count 1 }

/-- `Free` puts the slot in front of the cache. -/
def Shared.put (m : Shared) (c : Cache) (slot : ℕ) : Shared × Cache :=
  ({ m with next := Function.update m.next slot c.head },
    { head := some slot, count := SizeT.add c.count 1 })

/-- The loop of `flush`, with the number of its rounds: `batchTail` at its end, if no null pointer
is followed. -/
def peelTail (next : ℕ → Option ℕ) : ℕ → Option ℕ → Option ℕ
  | 0, batchTail => batchTail
  | n + 1, batchTail => peelTail next n (batchTail.bind next)

/-- `flush` from its check up to its section: `batchHead`, `batchTail` and what remains of the
cache. -/
def Shared.peel (m : Shared) (c : Cache) : Option ((ℕ × ℕ) × Cache) :=
  match c.head, peelTail m.next (SizeT.sub c.count BATCH - 1) c.head with
  | some batchHead, some batchTail =>
    some ((batchHead, batchTail), { head := m.next batchTail, count := BATCH })
  | _, _ => none

/-- The section of `flush` under `mtx`. -/
def Shared.splice (m : Shared) (batchHead batchTail : ℕ) : Shared :=
  { next := Function.update m.next batchTail m.sharedHead, sharedHead := some batchHead }

/-! ## The moves of the threads -/

/-- Where a thread is in `Alloc` or `Free`. -/
inductive Pc
  /-- In neither. -/
  | idle
  /-- At the first check of `Alloc`. -/
  | alloc
  /-- Before the section of `refill`. -/
  | lock
  /-- After the section of `refill`. -/
  | attach (batchHead : ℕ) (batchTail : Option ℕ) (moved : ℕ)
  /-- At the second check of `Alloc`. -/
  | take
  /-- Before `liveCount.fetch_add`. -/
  | live (slot : ℕ)
  /-- At the start of `Free`. -/
  | free (slot : ℕ)
  /-- Before `liveCount.fetch_sub`. -/
  | dead
  /-- At the check of `Free`, and of `flush`. -/
  | check
  /-- Before the section of `flush`. -/
  | splice (batchHead batchTail : ℕ)
deriving DecidableEq

/-- The slot that an operation has, which is in no list. -/
def Pc.slot : Pc → Option ℕ
  | .live slot => some slot
  | .free slot => some slot
  | _ => none

/-- A thread: its cache, where it is, and what its last `Alloc` returned. -/
structure Local where
  cache : Cache
  pc : Pc
  ret : Option ℕ

/-- A move of an operation that leaves `liveCount` alone. -/
def Local.move (m : Shared) (x : Local) : Option (Shared × Local) :=
  match x.pc with
  | .idle => none
  | .alloc => some (m, { x with pc := if x.cache.head = none then .lock else .take })
  | .lock =>
    match m.detach with
    | (none, m') => some (m', { x with pc := .take })
    | (some (batchHead, batchTail, moved), m') =>
      some (m', { x with pc := .attach batchHead batchTail moved })
  | .attach batchHead (some batchTail) moved =>
    some ((m.attach x.cache batchHead batchTail moved).1,
      { x with cache := (m.attach x.cache batchHead batchTail moved).2, pc := .take })
  | .attach _ none _ => none
  | .take =>
    match x.cache.head with
    | none => some (m, { x with pc := .idle, ret := none })
    | some slot => some (m, { x with cache := m.take x.cache slot, pc := .live slot })
  | .live _ => none
  | .free slot =>
    some ((m.put x.cache slot).1, { x with cache := (m.put x.cache slot).2, pc := .dead })
  | .dead => none
  | .check =>
    if 2 * BATCH < x.cache.count then
      if x.cache.count ≤ BATCH then some (m, { x with pc := .idle })
      else (m.peel x.cache).map fun r => (m, { x with cache := r.2, pc := .splice r.1.1 r.1.2 })
    else some (m, { x with pc := .idle })
  | .splice batchHead batchTail => some (m.splice batchHead batchTail, { x with pc := .idle })

/-- The allocator and its threads. `owned` are the slots that `Alloc` has returned and that no call
of `Free` has taken. -/
structure State (ι : Type) where
  mem : Shared
  threads : ι → Local
  liveCount : ℤ
  owned : List ℕ

/-- What a thread does. -/
inductive Act (ι : Type)
  /-- It calls `Alloc`. -/
  | alloc (t : ι)
  /-- It calls `Free` with a slot that is handed out. -/
  | free (t : ι) (slot : ℕ)
  /-- Its operation goes on. -/
  | move (t : ι)
  /-- A slot that is handed out is written. -/
  | write (slot : ℕ) (word : Option ℕ)
deriving DecidableEq

section
variable {ι : Type} [DecidableEq ι]

/-- The thread is at another place. -/
def State.setPc (s : State ι) (t : ι) (pc : Pc) : State ι :=
  { s with threads := Function.update s.threads t { s.threads t with pc } }

/-- One step. -/
def State.step (s : State ι) : Act ι → Option (State ι)
  | .alloc t => if (s.threads t).pc = .idle then some (s.setPc t .alloc) else none
  | .free t slot =>
    if (s.threads t).pc = .idle ∧ slot ∈ s.owned then
      some { s.setPc t (.free slot) with owned := s.owned.erase slot }
    else none
  | .move t =>
    match (s.threads t).pc with
    | .live slot =>
      some { s with
        threads := Function.update s.threads t
          { s.threads t with pc := .idle, ret := some slot },
        liveCount := s.liveCount + 1, owned := slot :: s.owned }
    | .dead => some { s.setPc t .check with liveCount := s.liveCount - 1 }
    | _ =>
      ((s.threads t).move s.mem).map fun r =>
        { s with mem := r.1, threads := Function.update s.threads t r.2 }
  | .write slot word =>
    if slot ∈ s.owned then
      some { s with mem := { s.mem with next := Function.update s.mem.next slot word } }
    else none

end

/-- A new allocator, with empty caches. -/
def init (ι : Type) (slots : ℕ) : State ι where
  mem := construct slots
  threads _ := { cache := { head := none, count := 0 }, pc := .idle, ret := none }
  liveCount := 0
  owned := []

end JLibScheduler.TaskAllocator
