import Mathlib.Logic.Function.Basic

/-!
# One party of many moves

A system of many parties keeps the local state of each in a function; a step of one party updates
the function at that party. The rules say where a value of the updated function comes from.
-/

namespace Update

section
variable {ι α : Type*} [DecidableEq ι] {f : ι → α} {i j : ι} {a b : α}

/-- A value after the move of `i` is the new one of `i` or the old one of another party. -/
theorem eq_cases (h : Function.update f i a j = b) : (j = i ∧ a = b) ∨ (j ≠ i ∧ f j = b) := by
  by_cases hj : j = i
  · subst hj
    rw [Function.update_self] at h
    exact .inl ⟨rfl, h⟩
  · rw [Function.update_of_ne hj] at h
    exact .inr ⟨hj, h⟩

/-- What holds of the new value of `i` and the old ones of the others holds after the move. -/
theorem forall_of {P : ι → α → Prop} (hi : P i a) (h : ∀ j, j ≠ i → P j (f j)) (j : ι) :
    P j (Function.update f i a j) :=
  (Function.forall_update_iff f P).2 ⟨hi, h⟩ j

/-- A loop over parties, each once, that changes its own entry: every entry is changed once or is
not in the loop. -/
theorem foldl_update_apply (g : ι → α → α) {l : List ι} (hl : l.Nodup) (f : ι → α) (j : ι) :
    (l.foldl (fun f i => Function.update f i (g i (f i))) f) j =
      if j ∈ l then g j (f j) else f j := by
  induction l generalizing f with
  | nil => rfl
  | cons i l ih =>
    rw [List.nodup_cons] at hl
    rw [List.foldl_cons, ih hl.2]
    by_cases hj : j = i
    · subst hj
      rw [if_neg hl.1, if_pos (.head _), Function.update_self]
    · rw [Function.update_of_ne hj]
      simp only [List.mem_cons, hj, false_or]

end

section
variable {α : Type*} {l : List α} {j : Nat} {a b x : α}

/-- Another element stays in a list of parties of which one moves. -/
theorem mem_set_of_mem (hj : l[j]? = some a) (hx : x ≠ a) (h : x ∈ l) : x ∈ l.set j b := by
  obtain ⟨i, hi⟩ := List.mem_iff_getElem?.1 h
  have hij : j ≠ i := by
    rintro rfl
    rw [hj] at hi
    exact hx (Option.some.inj hi).symm
  exact List.mem_iff_getElem?.2 ⟨i, by rw [List.getElem?_set_ne hij, hi]⟩

/-- What is neither the old nor the new party is in the list before and after the move. -/
theorem mem_set_iff (hj : l[j]? = some a) (ha : x ≠ a) (hb : x ≠ b) : x ∈ l.set j b ↔ x ∈ l :=
  ⟨fun h => (List.mem_or_eq_of_mem_set h).resolve_right hb, mem_set_of_mem hj ha⟩

end

end Update
