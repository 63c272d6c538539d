import JLibScheduler.Lib.Lts
import JLibScheduler.TaskDeque.Basic

/-!
# The deque between whole calls

`steal` as a whole call, when no other call is in progress: the accesses that `TaskDeque/Basic.lean`
makes one per step are then one function of the buffer and the two indices (`run_steal`). It takes
the top-most item of a deque that holds one (`Indices.steal_cons`), and nothing from an empty deque
(`Indices.steal_nil`).
-/

namespace JLibScheduler.TaskDeque

/-- The buffer, `top_` and `bottom_`. -/
structure Indices (α : Type) where
  buffer : Nat → Ptr α
  top : Nat
  bottom : Nat

section
variable {α : Type}

/-- `steal`. -/
def Indices.steal (capacity : Nat) (d : Indices α) : Option (Ptr α) × Indices α :=
  if d.top < d.bottom then
    (some (d.buffer (SizeT.slot capacity d.top)), { d with top := SizeT.add d.top 1 })
  else (none, d)

/-- The items in the deque, the top-most first. -/
def Indices.contents (capacity : Nat) (d : Indices α) : List (Ptr α) :=
  SizeT.window (fun i => d.buffer (SizeT.slot capacity i)) d.top d.bottom

/-- The deque holds the tasks `l`, the top-most first. -/
structure Indices.Holds (capacity : Nat) (d : Indices α) (l : List α) : Prop where
  contents : d.contents capacity = l.map some
  bottom : d.bottom < 2 ^ 64

variable {capacity : Nat} {d : Indices α} {x : α} {l : List α}

theorem Indices.Holds.length_eq (h : d.Holds capacity l) : d.bottom - d.top = l.length := by
  have hlen := congrArg List.length h.contents
  rwa [Indices.contents, SizeT.length_window, List.length_map] at hlen

/-- Nothing is taken from an empty deque. -/
theorem Indices.steal_nil (h : d.Holds capacity []) : d.steal capacity = (none, d) := by
  have hlen := h.length_eq
  rw [List.length_nil] at hlen
  rw [Indices.steal, if_neg (by omega)]

/-- The top-most task is taken, and the others are left. -/
theorem Indices.steal_cons (h : d.Holds capacity (x :: l)) :
    ∃ d', d.steal capacity = (some (some x), d') ∧ d'.Holds capacity l := by
  have hlen := h.length_eq
  rw [List.length_cons] at hlen
  have hlt : d.top < d.bottom := by omega
  have hbottom := h.bottom
  have hcontents := h.contents
  rw [Indices.contents, SizeT.window_cons hlt, List.map_cons, List.cons.injEq] at hcontents
  rw [Indices.steal, if_pos hlt, hcontents.1, SizeT.add_of_lt (by omega)]
  exact ⟨_, rfl, hcontents.2, hbottom⟩

/-! ## The accesses of a call -/

variable {ι : Type} [DecidableEq ι]

/-- The deque of a state. -/
def State.indices (s : State ι α) : Indices α := ⟨s.buffer, s.top, s.bottom⟩

/-- A `steal` with no other call in progress does what the whole call does. -/
theorem run_steal (s : State ι α) {i : ι} (hidle : s.thief i = .idle) :
    ∃ k t, Lts.run (step capacity) s (.callSteal i :: List.replicate k (.thief i)) = some t ∧
      t.thief i = .idle ∧
      t.hist =
        .res (some i) (.taken (s.indices.steal capacity).1) :: .inv (some i) .steal :: s.hist ∧
      t.indices = (s.indices.steal capacity).2 := by
  let s₀ : State ι α := { s with
    thief := Function.update s.thief i .loadTop, hist := .inv (some i) .steal :: s.hist }
  let s₁ : State ι α := { s₀ with thief := Function.update s₀.thief i (.loadBottom s.top) }
  have h₀ : step capacity s (.callSteal i) = some s₀ := by
    simp only [step, thiefCall, hidle, s₀]
  have h₁ : step capacity s₀ (.thief i) = some s₁ := by
    simp only [step, thiefStep, s₀, Function.update_self]
    rfl
  by_cases hlt : s.top < s.bottom
  · let item := s.buffer (SizeT.slot capacity s.top)
    let s₂ : State ι α := { s₁ with thief := Function.update s₁.thief i (.read s.top) }
    let s₃ : State ι α := { s₂ with thief := Function.update s₂.thief i (.cas s.top item) }
    let s₄ : State ι α := State.thiefReturn { s₃ with top := SizeT.add s.top 1 } i (some item)
    have h₂ : step capacity s₁ (.thief i) = some s₂ := by
      simp only [step, thiefStep, s₁, Function.update_self]
      exact if_pos hlt
    have h₃ : step capacity s₂ (.thief i) = some s₃ := by
      simp only [step, thiefStep, s₂, Function.update_self]
      rfl
    have h₄ : step capacity s₃ (.thief i) = some s₄ := by
      simp only [step, thiefStep, s₃, Function.update_self]
      exact if_pos rfl
    have hsteal : s.indices.steal capacity =
        (some item, ⟨s.buffer, SizeT.add s.top 1, s.bottom⟩) := if_pos hlt
    refine ⟨4, s₄, ?_, Function.update_self .., ?_, ?_⟩
    · simp only [List.replicate, Lts.run_cons, h₀, h₁, h₂, h₃, h₄, Option.bind_some, Lts.run_nil]
    · rw [hsteal]
      rfl
    · rw [hsteal]
      rfl
  · let s₂ : State ι α := s₁.thiefReturn i none
    have h₂ : step capacity s₁ (.thief i) = some s₂ := by
      simp only [step, thiefStep, s₁, Function.update_self]
      exact if_neg hlt
    have hsteal : s.indices.steal capacity = (none, s.indices) := if_neg hlt
    refine ⟨2, s₂, ?_, Function.update_self .., ?_, ?_⟩
    · simp only [List.replicate, Lts.run_cons, h₀, h₁, h₂, Option.bind_some, Lts.run_nil]
    · rw [hsteal]
      rfl
    · rw [hsteal]
      rfl

end

end JLibScheduler.TaskDeque
