import Mathlib.Order.Interval.Set.Disjoint
import Mathlib.Order.CompletePartialOrder
import Mathlib.Data.List.Pairwise
import Mathlib.Data.List.Perm.Basic

/-!
# Ranges that divide a range

`Intervals.Divides l a b` says that the half-open ranges of the list `l` are pairwise disjoint and
that their union is `[a, b)`. Such lists can be joined (`Divides.append`) and reordered
(`Divides.perm`); the ranges between the successive values of a monotone sequence are one
(`divides_steps`). A list whose ranges are non-empty loses the property with any range it loses
(`Divides.forall_of_filter`).
-/

namespace Intervals

section
variable {α : Type*} [LinearOrder α]

/-- The union of the ranges. -/
def covered (l : List (α × α)) : Set α := {x | ∃ r ∈ l, x ∈ Set.Ico r.1 r.2}

/-- The ranges have no common element. -/
def Separate (r s : α × α) : Prop := Disjoint (Set.Ico r.1 r.2) (Set.Ico s.1 s.2)

instance : Std.Symm (@Separate α _) := ⟨fun _ _ h => Disjoint.symm h⟩

/-- The ranges of `l` are pairwise disjoint and their union is `[a, b)`. -/
structure Divides (l : List (α × α)) (a b : α) : Prop where
  separate : l.Pairwise Separate
  covered_eq : covered l = Set.Ico a b

variable {l l' : List (α × α)} {a m b : α}

theorem mem_covered {x : α} : x ∈ covered l ↔ ∃ r ∈ l, r.1 ≤ x ∧ x < r.2 := Iff.rfl

theorem covered_append : covered (l ++ l') = covered l ∪ covered l' := by
  ext x
  simp [covered, or_and_right, exists_or]

/-- A range of the list is inside the range that the list divides. -/
theorem Divides.subset (h : Divides l a b) {r : α × α} (hr : r ∈ l) :
    Set.Ico r.1 r.2 ⊆ Set.Ico a b := by
  intro x hx
  rw [← h.covered_eq]
  exact ⟨r, hr, hx⟩

theorem divides_nil (h : b ≤ a) : Divides ([] : List (α × α)) a b where
  separate := List.Pairwise.nil
  covered_eq := by simp [covered, Set.Ico_eq_empty_of_le h]

theorem divides_singleton : Divides [(a, b)] a b where
  separate := List.pairwise_singleton _ _
  covered_eq := by
    ext x
    simp [mem_covered]

theorem Divides.append (h : Divides l a m) (h' : Divides l' m b) (ham : a ≤ m) (hmb : m ≤ b) :
    Divides (l ++ l') a b where
  separate := by
    refine List.pairwise_append.2 ⟨h.separate, h'.separate, fun r hr s hs => ?_⟩
    exact (Set.Ico_disjoint_Ico_same (a := a) (b := m) (c := b)).mono (h.subset hr) (h'.subset hs)
  covered_eq := by
    rw [covered_append, h.covered_eq, h'.covered_eq, Set.Ico_union_Ico_eq_Ico ham hmb]

theorem Divides.perm (h : Divides l a b) (hperm : l.Perm l') : Divides l' a b where
  separate := (hperm.pairwise_iff fun h => symm h).1 h.separate
  covered_eq := by
    rw [← h.covered_eq]
    ext x
    simp only [mem_covered, hperm.mem_iff]

/-- The ranges between the successive values of a monotone sequence divide what is between the
first value and the last. -/
theorem divides_steps {f : ℕ → α} (hf : Monotone f) (i n : ℕ) :
    Divides ((List.range' i n).map fun k => (f k, f (k + 1))) (f i) (f (i + n)) := by
  induction n generalizing i with
  | zero => exact divides_nil le_rfl
  | succ n ih =>
    rw [List.range'_succ, List.map_cons, ← List.singleton_append,
      show i + (n + 1) = i + 1 + n from by omega]
    exact divides_singleton.append (ih (i + 1)) (hf (by omega)) (hf (by omega))

/-- Non-empty ranges that divide a range are all needed: those that pass a test divide it only if
all pass. -/
theorem Divides.forall_of_filter (h : Divides l a b) (hne : ∀ r ∈ l, r.1 < r.2)
    {p : α × α → Bool} (hp : Divides (l.filter p) a b) : ∀ r ∈ l, p r = true := by
  intro r hr
  by_contra hpr
  have hfirst : r.1 ∈ Set.Ico r.1 r.2 := ⟨le_rfl, hne r hr⟩
  have hmem : r.1 ∈ covered (l.filter p) := by
    rw [hp.covered_eq]
    exact h.subset hr hfirst
  obtain ⟨s, hs, hsmem⟩ := hmem
  obtain ⟨hsl, hps⟩ := List.mem_filter.1 hs
  have hne : r ≠ s := by
    rintro rfl
    exact hpr hps
  have hsep : Separate r s := h.separate.forall hr hsl hne
  exact Set.disjoint_left.1 hsep hfirst hsmem

end

end Intervals
