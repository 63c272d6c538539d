import Mathlib.Data.List.Nodup
import Mathlib.Logic.Function.Basic

/-!
# Lists linked through their cells

A cell of a linked list holds the pointer to the next one: `next a` is the pointer in the cell `a`,
and a cell that is in no list may hold any. `Path next p l q` says that following the pointers from
`p` passes the cells `l`, in this order, and then comes to the pointer `q`. A list that ends is a
path to `none`: its head determines it (`Path.unique`), and it has no cycle (`Path.nodup`). A write
to a cell off the path does not matter (`Path.update`), a write to its last cell joins it to another
list (`Path.splice`).
-/

namespace Links

section
variable {α : Type*}

/-- From the pointer `p` through the cells of the list to the pointer `q`. -/
def Path (next : α → Option α) : Option α → List α → Option α → Prop
  | p, [], q => p = q
  | p, a :: l, q => p = some a ∧ Path next (next a) l q

variable {next next' : α → Option α} {p p' q r : Option α} {a : α} {l l' : List α}

@[simp] theorem path_nil : Path next p [] q ↔ p = q := Iff.rfl

@[simp] theorem path_cons : Path next p (a :: l) q ↔ p = some a ∧ Path next (next a) l q := Iff.rfl

theorem path_append : Path next p (l ++ l') q ↔ ∃ r, Path next p l r ∧ Path next r l' q := by
  induction l generalizing p with
  | nil => simp
  | cons a l ih => simp only [List.cons_append, path_cons, ih, and_assoc, exists_and_left]

/-- The head of a list that is not empty is its first cell. -/
theorem Path.head_eq_none (h : Path next p l none) : p = none ↔ l = [] := by
  cases l with
  | nil => simpa using h
  | cons a l => simp [h.1]

/-- A path depends only on the cells it passes. -/
theorem Path.congr (h : Path next p l q) (heq : ∀ a ∈ l, next' a = next a) :
    Path next' p l q := by
  induction l generalizing p with
  | nil => exact h
  | cons a l ih =>
    rw [List.forall_mem_cons] at heq
    refine ⟨h.1, ?_⟩
    rw [heq.1]
    exact ih h.2 heq.2

/-- The head determines a list that ends. -/
theorem Path.unique (h : Path next p l none) (h' : Path next p l' none) : l = l' := by
  induction l generalizing p l' with
  | nil => exact (h'.head_eq_none.1 h).symm
  | cons a l ih =>
    cases l' with
    | nil => cases h.1.symm.trans h'
    | cons b l' =>
      obtain rfl : a = b := Option.some.inj (h.1.symm.trans h'.1)
      rw [ih h.2 h'.2]

/-- A list that ends has no cycle. -/
theorem Path.nodup (h : Path next p l none) : l.Nodup := by
  induction l generalizing p with
  | nil => exact .nil
  | cons a l ih =>
    refine List.nodup_cons.2 ⟨fun hmem => ?_, ih h.2⟩
    -- the list from the second occurrence of the cell would be the whole list
    obtain ⟨l₁, l₂, rfl⟩ := List.append_of_mem hmem
    obtain ⟨r, _, hr⟩ := path_append.1 h.2
    have heq : a :: l₂ = a :: (l₁ ++ a :: l₂) := Path.unique hr ⟨hr.1, h.2⟩
    have := congrArg List.length heq
    simp only [List.length_cons, List.length_append] at this
    omega

variable [DecidableEq α]

theorem Path.update (h : Path next p l q) (ha : a ∉ l) :
    Path (Function.update next a r) p l q :=
  h.congr fun _ hb => Function.update_of_ne (ne_of_mem_of_not_mem hb ha) _ _

/-- A cell that is made to point to the head of a list is its new head. -/
theorem Path.push (h : Path next p l q) (ha : a ∉ l) :
    Path (Function.update next a p) (some a) (a :: l) q := by
  refine ⟨rfl, ?_⟩
  rw [Function.update_self]
  exact h.update ha

/-- The last cell of a path is made to point to the head of another one. -/
theorem Path.splice (h : Path next p (l ++ [a]) r) (h' : Path next p' l' q) (ha : a ∉ l)
    (ha' : a ∉ l') : Path (Function.update next a p') p (l ++ [a] ++ l') q := by
  obtain ⟨s, hl, hs, _⟩ := path_append.1 h
  rw [List.append_assoc]
  exact path_append.2 ⟨s, hl.update ha, hs ▸ h'.push ha'⟩

end

end Links
