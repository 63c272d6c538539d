import Mathlib.Algebra.BigOperators.Fin
import Mathlib.Algebra.Order.BigOperators.Group.Finset
import Mathlib.Algebra.Order.BigOperators.Group.List
import Mathlib.Algebra.Order.Ring.Nat
import Mathlib.Data.List.Nodup

/-!
# Sums over parties

A measure of a system of many parties is a sum over the parties. The lemmas say what such a sum
becomes when one party changes, and how sums over some of the parties compare. They are stated
without subtraction, for `omega`.
-/

namespace Sums

section
variable {α : Type*} {φ : α → ℕ} {l : List α} {a b : α}

/-- What the change of one element of a list changes in a sum over the list. -/
theorem map_set {j : ℕ} (h : l[j]? = some a) :
    ((l.set j b).map φ).sum + φ a = (l.map φ).sum + φ b := by
  induction l generalizing j with
  | nil => simp at h
  | cons x l ih =>
    cases j with
    | zero =>
      obtain rfl : x = a := by simpa using h
      simp only [List.set_cons_zero, List.map_cons, List.sum_cons]
      omega
    | succ j =>
      have := ih (j := j) (by simpa using h)
      simp only [List.set_cons_succ, List.map_cons, List.sum_cons] at this ⊢
      omega

/-- What the change of one element of a list changes in the number of elements with a property. -/
theorem countP_set {p : α → Bool} {j : ℕ} (h : l[j]? = some a) :
    (l.set j b).countP p + (if p a then 1 else 0) = l.countP p + if p b then 1 else 0 := by
  induction l generalizing j with
  | nil => simp at h
  | cons x l ih =>
    cases j with
    | zero =>
      obtain rfl : x = a := by simpa using h
      simp only [List.set_cons_zero, List.countP_cons]
      omega
    | succ j =>
      have := ih (j := j) (by simpa using h)
      simp only [List.set_cons_succ, List.countP_cons] at this ⊢
      omega

/-- What the change of one element of a list changes in the number of values with a property, where
some elements have a value. -/
theorem countP_filterMap_set {β : Type*} {f : α → Option β} {q : β → Bool} {j : ℕ}
    (h : l[j]? = some a) :
    ((l.set j b).filterMap f).countP q + (f a).toList.countP q =
      (l.filterMap f).countP q + (f b).toList.countP q := by
  have key : ∀ m : List α,
      (m.filterMap f).countP q = (m.map fun x => (f x).toList.countP q).sum := by
    intro m
    induction m with
    | nil => rfl
    | cons x m ih =>
      rw [List.filterMap_cons, List.map_cons, List.sum_cons, ← ih]
      cases f x with
      | none => simp
      | some y => simp [List.countP_cons, Nat.add_comm]
  rw [key, key]
  exact map_set (φ := fun x => (f x).toList.countP q) h

/-- Values with a property are counted by the elements that have them. -/
theorem countP_filterMap_le {β : Type*} {f : α → Option β} {q : β → Bool}
    (h : ∀ x y, f x = some y → q y = true → 1 ≤ φ x) :
    (l.filterMap f).countP q ≤ (l.map φ).sum := by
  induction l with
  | nil => exact Nat.le_refl _
  | cons x l ih =>
    rw [List.map_cons, List.sum_cons, List.filterMap_cons]
    cases hx : f x with
    | none => exact ih.trans (Nat.le_add_left _ _)
    | some y =>
      rw [List.countP_cons]
      split
      next hq =>
        have := h x y hx hq
        omega
      next => omega

/-- An element counts in a sum over the list. -/
theorem le_map (h : a ∈ l) : φ a ≤ (l.map φ).sum :=
  List.single_le_sum (fun _ _ => Nat.zero_le _) _ (List.mem_map_of_mem h)

/-- A sum over distinct elements, of which one counts more. -/
theorem map_add_ite [DecidableEq α] (hl : l.Nodup) (ha : a ∈ l) (c : ℕ) :
    (l.map fun x => φ x + if x = a then c else 0).sum = (l.map φ).sum + c := by
  induction l with
  | nil => cases ha
  | cons x l ih =>
    rw [List.nodup_cons] at hl
    rw [List.map_cons, List.map_cons, List.sum_cons, List.sum_cons]
    rcases List.mem_cons.1 ha with rfl | ha
    · have hrest : (l.map fun x => φ x + if x = a then c else 0) = l.map φ := by
        refine List.map_congr_left fun x hx => ?_
        have : x ≠ a := fun h => hl.1 (h ▸ hx)
        simp [this]
      rw [hrest, if_pos rfl]
      omega
    · have hx : x ≠ a := fun h => hl.1 (h ▸ ha)
      rw [ih hl.2 ha, if_neg hx]
      omega

/-- A sum over some of the elements of a list. -/
theorem map_le {l' : List α} (hl : l.Nodup) (hsub : l ⊆ l') :
    (l.map φ).sum ≤ (l'.map φ).sum := by
  obtain ⟨m, hperm, hm⟩ := List.subperm_of_subset hl hsub
  rw [← (hperm.map φ).sum_eq]
  exact (hm.map φ).sum_le_sum fun _ _ => Nat.zero_le _

end

section
variable {ι α : Type*} [Fintype ι] {φ : α → ℕ} {f : ι → α} {i j : ι}

/-- What the move of one party changes in a sum over all of them, each with its own measure. -/
theorem updateAt [DecidableEq ι] (ψ : ι → α → ℕ) (f : ι → α) (i : ι) (a : α) :
    ∑ j, ψ j (Function.update f i a j) + ψ i (f i) = ∑ j, ψ j (f j) + ψ i a := by
  rw [← Finset.add_sum_erase _ _ (Finset.mem_univ i),
    ← Finset.add_sum_erase _ (fun j => ψ j (f j)) (Finset.mem_univ i), Function.update_self]
  have hrest : ∑ j ∈ Finset.univ.erase i, ψ j (Function.update f i a j) =
      ∑ j ∈ Finset.univ.erase i, ψ j (f j) :=
    Finset.sum_congr rfl fun j hj => by rw [Function.update_of_ne (Finset.ne_of_mem_erase hj)]
  omega

/-- What the move of one party changes in a sum over all of them. -/
theorem update [DecidableEq ι] (f : ι → α) (i : ι) (a : α) :
    ∑ j, φ (Function.update f i a j) + φ (f i) = ∑ j, φ (f j) + φ a :=
  updateAt (fun _ => φ) f i a

/-- One party counts in the sum. -/
theorem single_le (i : ι) : φ (f i) ≤ ∑ j, φ (f j) :=
  Finset.single_le_sum (f := fun j => φ (f j)) (fun _ _ => Nat.zero_le _) (Finset.mem_univ i)

/-- Two parties count in the sum. -/
theorem pair_le [DecidableEq ι] (h : i ≠ j) : φ (f i) + φ (f j) ≤ ∑ k, φ (f k) := by
  rw [← Finset.sum_pair h (f := fun k => φ (f k))]
  exact Finset.sum_le_sum_of_subset (Finset.subset_univ _)

end

end Sums
