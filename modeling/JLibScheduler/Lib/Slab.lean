import Mathlib.Data.List.Basic
import Mathlib.Logic.Function.Basic

/-!
# A pool of slots

`Slab.Heap` is an allocator of slots with what the slots that are handed out hold. A slot that is
not handed out holds nothing, so a read of one finds nothing, and its release fails (`release`).
`releaseAll` is the effect of a list of releases; a program that releases slots one after the other
is described by the one list of all of them (`releaseAll_append`).
-/

namespace Slab

/-- The slots that are free, in the order in which they are given, and what the others hold. -/
structure Heap (α κ : Type*) where
  free : List α
  cell : α → Option κ

section
variable {α κ : Type*} [DecidableEq α]

/-- The next free slot, with some content, if there is one. -/
def Heap.alloc (s : Heap α κ) (raw : κ) : Option α × Heap α κ :=
  match s.free with
  | [] => (none, s)
  | a :: free => (some a, { free, cell := Function.update s.cell a (some raw) })

/-- A write to a slot. -/
def Heap.put (s : Heap α κ) (a : α) (c : κ) : Heap α κ :=
  { s with cell := Function.update s.cell a (some c) }

/-- Gives back a slot that is handed out. -/
def Heap.release (s : Heap α κ) (a : α) : Option (Heap α κ) :=
  if (s.cell a).isSome then
    some { free := a :: s.free, cell := Function.update s.cell a none }
  else none

/-- The slots of the list are given back, the first one first. -/
def Heap.releaseAll (s : Heap α κ) (l : List α) : Heap α κ where
  free := l.reverse ++ s.free
  cell a := if a ∈ l then none else s.cell a

variable {s : Heap α κ} {a b : α} {c : κ} {l l' : List α}

@[simp] theorem releaseAll_nil : s.releaseAll [] = s := by
  simp [Heap.releaseAll]

@[simp] theorem releaseAll_append :
    (s.releaseAll l).releaseAll l' = s.releaseAll (l ++ l') := by
  simp only [Heap.releaseAll, List.reverse_append, List.append_assoc, List.mem_append,
    Heap.mk.injEq, true_and]
  funext a
  by_cases h : a ∈ l <;> simp [h]

theorem releaseAll_cell_of_notMem (h : a ∉ l) : (s.releaseAll l).cell a = s.cell a := if_neg h

/-- The release of a slot that is handed out, after the release of others. -/
theorem release_releaseAll (h : s.cell a = some c) (ha : a ∉ l) :
    (s.releaseAll l).release a = some (s.releaseAll (l ++ [a])) := by
  rw [Heap.release, releaseAll_cell_of_notMem ha, h, Option.isSome_some, if_pos rfl,
    ← releaseAll_append]
  simp only [Heap.releaseAll, List.reverse_singleton, List.singleton_append, Option.some.injEq,
    Heap.mk.injEq, true_and, List.mem_singleton]
  funext x
  by_cases hx : x = a
  · rw [hx, Function.update_self, if_pos rfl]
  · rw [Function.update_of_ne hx, if_neg hx]

end

end Slab
