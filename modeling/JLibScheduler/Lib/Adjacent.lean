import Mathlib.Data.List.Nodup

/-!
# Neighbours in a list

`Adj l a b` says that `b` comes directly after `a` somewhere in `l`. A linked structure in memory
is described by the list of its nodes: a pointer from each node to its neighbour, whichever of
these pointers are already written. In a list without duplicates a node has at most one neighbour
on each side.
-/

namespace Adjacent

section
variable {α : Type*} {l m : List α} {a b c x : α}

/-- `b` comes directly after `a` in the list. -/
def Adj : List α → α → α → Prop
  | [], _, _ => False
  | x :: l, a, b => (x = a ∧ l.head? = some b) ∨ Adj l a b

@[simp] theorem adj_nil : ¬ Adj [] a b := id

@[simp] theorem adj_singleton : ¬ Adj [x] a b := by simp [Adj]

theorem adj_cons : Adj (x :: l) a b ↔ (x = a ∧ l.head? = some b) ∨ Adj l a b := Iff.rfl

theorem Adj.mem_left (h : Adj l a b) : a ∈ l := by
  induction l with
  | nil => exact h.elim
  | cons x l ih =>
    rcases h with ⟨rfl, -⟩ | h
    · exact .head _
    · exact .tail _ (ih h)

/-- Neighbours split the list. -/
theorem Adj.split (h : Adj l a b) : ∃ m n, l = m ++ a :: b :: n := by
  induction l with
  | nil => exact h.elim
  | cons x l ih =>
    rcases h with ⟨rfl, h⟩ | h
    · obtain ⟨n, rfl⟩ := List.head?_eq_some_iff.1 h
      exact ⟨[], n, rfl⟩
    · obtain ⟨m, n, rfl⟩ := ih h
      exact ⟨x :: m, n, rfl⟩

/-- The neighbours in a concatenation are those in its parts, and the two where they meet. -/
theorem adj_append : Adj (l ++ m) a b ↔
    Adj l a b ∨ (l.getLast? = some a ∧ m.head? = some b) ∨ Adj m a b := by
  induction l with
  | nil => simp
  | cons x l ih =>
    rw [List.cons_append, adj_cons, adj_cons, ih]
    cases l with
    | nil => simp
    | cons y l => simp [or_assoc]

/-- A node without duplicates has one neighbour after it. -/
theorem Adj.right_unique (hl : l.Nodup) (h : Adj l a b) (h' : Adj l a c) : b = c := by
  induction l with
  | nil => exact h.elim
  | cons x l ih =>
    rw [List.nodup_cons] at hl
    rcases h with ⟨rfl, hb⟩ | h <;> rcases h' with ⟨hx, hc⟩ | h'
    · exact Option.some.inj (hb.symm.trans hc)
    · exact absurd h'.mem_left hl.1
    · exact absurd (hx ▸ h.mem_left) hl.1
    · exact ih hl.2 h h'

/-- The last node has no neighbour after it. -/
theorem not_adj_getLast (hl : l.Nodup) (h : l.getLast? = some a) : ¬ Adj l a b := by
  intro hadj
  induction l with
  | nil => exact hadj.elim
  | cons x l ih =>
    rw [List.nodup_cons] at hl
    cases l with
    | nil => exact adj_singleton hadj
    | cons y l =>
      rw [List.getLast?_cons_cons] at h
      rcases hadj with ⟨rfl, -⟩ | hadj
      · exact hl.1 (List.mem_of_getLast? h)
      · exact ih hl.2 h hadj

/-- In a chain, the neighbours are related. -/
theorem adj_of_isChain {R : α → α → Prop} (h : l.IsChain R) (a b : α) (hab : Adj l a b) :
    R a b := by
  induction l with
  | nil => exact hab.elim
  | cons x l ih =>
    cases l with
    | nil => exact absurd hab adj_singleton
    | cons y l =>
      rw [List.isChain_cons_cons] at h
      rcases hab with ⟨rfl, hb⟩ | hab
      · exact Option.some.inj hb ▸ h.1
      · exact ih h.2 hab

/-- The first node of a longer list has a neighbour after it. -/
theorem exists_adj_head (h : l.head? = some a) (hb : b ∈ l) (hne : b ≠ a) :
    ∃ c m, l = a :: c :: m := by
  cases l with
  | nil => cases hb
  | cons x l =>
    obtain rfl : x = a := by simpa using h
    cases l with
    | nil => exact absurd (List.mem_singleton.1 hb) hne
    | cons c m => exact ⟨c, m, rfl⟩

end

end Adjacent
