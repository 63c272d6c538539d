import Mathlib.Data.List.Basic

/-!
# Runs of a labelled transition system

A concurrent program is modelled by a partial step function `step : σ → α → Option σ`: the label
names the party that moves and what its environment chose, and `none` says that the party cannot
make that move. A run is the list of its labels (`run`), so one interleaving is one list, and a
concrete run can be evaluated. `visits` lists the moves of a run, each with the state it starts
from; a condition on the steps of a run is a condition on its visits. The rules below derive what
holds after a run from what one step keeps.
-/

namespace Lts

section
variable {σ α : Type*} (step : σ → α → Option σ)

/-- The state after the labels of a run, or `none` when one of its moves is not possible. -/
def run : σ → List α → Option σ
  | s, [] => some s
  | s, a :: as => (step s a).bind fun s' => run s' as

/-- The moves of a run, each with the state it starts from. -/
def visits : σ → List α → List (σ × α)
  | _, [] => []
  | s, a :: as => (s, a) :: (step s a).elim [] fun s' => visits s' as

/-- The states of a run, its first and its last state included. -/
def states : σ → List α → List σ
  | s, [] => [s]
  | s, a :: as => s :: (step s a).elim [] fun s' => states s' as

/-- A state that some run from `s₀` ends in. -/
def Reachable (s₀ s : σ) : Prop := ∃ as, run step s₀ as = some s

variable {step}

@[simp] theorem run_nil (s : σ) : run step s [] = some s := rfl

theorem run_cons {s : σ} {a : α} {as : List α} :
    run step s (a :: as) = (step s a).bind fun s' => run step s' as := rfl

/-- A run that starts with `a` makes the move `a` and then the rest. -/
theorem run_cons_eq_some {s t : σ} {a : α} {as : List α} :
    run step s (a :: as) = some t ↔ ∃ s', step s a = some s' ∧ run step s' as = some t := by
  rw [run_cons, Option.bind_eq_some_iff]

/-- A run over a concatenation is a run over its first part, then over its second. -/
theorem run_append {s : σ} {as bs : List α} :
    run step s (as ++ bs) = (run step s as).bind fun s' => run step s' bs := by
  induction as generalizing s with
  | nil => rfl
  | cons a as ih =>
    rw [List.cons_append, run_cons, run_cons]
    cases step s a with
    | none => rfl
    | some s' => exact ih

/-- The rule for invariants of runs whose moves all satisfy `G`: what every good move keeps
holds after the run. -/
theorem run_inv_of {I : σ → Prop} {G : σ → α → Prop}
    (hstep : ∀ {s a s'}, I s → G s a → step s a = some s' → I s') {s t : σ} {as : List α}
    (hs : I s) (hrun : run step s as = some t) (hgood : ∀ p ∈ visits step s as, G p.1 p.2) :
    I t := by
  induction as generalizing s with
  | nil => cases hrun; exact hs
  | cons a as ih =>
    obtain ⟨s', hstep', hrun'⟩ := run_cons_eq_some.1 hrun
    simp only [visits, hstep', Option.elim_some, List.forall_mem_cons] at hgood
    exact ih (hstep hs hgood.1 hstep') hrun' hgood.2

/-- The rule for invariants: what every move keeps holds after every run. -/
theorem run_inv {I : σ → Prop} (hstep : ∀ {s a s'}, I s → step s a = some s' → I s')
    {s t : σ} {as : List α} (hs : I s) (hrun : run step s as = some t) : I t :=
  run_inv_of (G := fun _ _ => True) (fun h _ => hstep h) hs hrun fun _ _ => trivial

/-- The rule for properties that a move keeps exactly when it is good: the property holds after a
run exactly when it holds before and every move of the run is good. -/
theorem run_iff {I P : σ → Prop} {G : σ → α → Prop}
    (hinv : ∀ {s a s'}, I s → step s a = some s' → I s')
    (hiff : ∀ {s a s'}, I s → step s a = some s' → (P s' ↔ P s ∧ G s a)) {s t : σ} {as : List α}
    (hs : I s) (hrun : run step s as = some t) :
    P t ↔ P s ∧ ∀ p ∈ visits step s as, G p.1 p.2 := by
  induction as generalizing s with
  | nil => cases hrun; simp [visits]
  | cons a as ih =>
    obtain ⟨s', hstep, hrun'⟩ := run_cons_eq_some.1 hrun
    simp only [visits, hstep, Option.elim_some, List.forall_mem_cons]
    rw [ih (hinv hs hstep) hrun', hiff hs hstep, and_assoc]

/-- The rule for invariants that also speak of the labels so far. -/
theorem run_history {I : List α → σ → Prop}
    (hstep : ∀ {as s a s'}, I as s → step s a = some s' → I (as ++ [a]) s') {s₀ s : σ}
    {as : List α} (h₀ : I [] s₀) (hrun : run step s₀ as = some s) : I as s := by
  have key : ∀ (bs as : List α) (t : σ), I as t → run step t bs = some s → I (as ++ bs) s := by
    intro bs
    induction bs with
    | nil => intro as t ht hrun; cases hrun; rwa [List.append_nil]
    | cons b bs ih =>
      intro as t ht hrun
      obtain ⟨t', hstep', hrun'⟩ := run_cons_eq_some.1 hrun
      rw [List.append_cons]
      exact ih _ t' (hstep ht hstep') hrun'
  exact key as [] s₀ h₀ hrun

theorem Reachable.refl (s : σ) : Reachable step s s := ⟨[], rfl⟩

/-- A move, and then the rest. -/
theorem Reachable.head {s s' t : σ} {a : α} (hs : step s a = some s')
    (h : Reachable step s' t) : Reachable step s t := by
  obtain ⟨as, hrun⟩ := h
  exact ⟨a :: as, run_cons_eq_some.2 ⟨s', hs, hrun⟩⟩

theorem Reachable.trans {s s' t : σ} (h : Reachable step s s') (h' : Reachable step s' t) :
    Reachable step s t := by
  obtain ⟨as, hrun⟩ := h
  obtain ⟨bs, hrun'⟩ := h'
  refine ⟨as ++ bs, ?_⟩
  rw [run_append, hrun]
  exact hrun'

/-- The rule for invariants, at the states that can be reached. -/
theorem Reachable.inv {I : σ → Prop} (hstep : ∀ {s a s'}, I s → step s a = some s' → I s')
    {s₀ s : σ} (h₀ : I s₀) (h : Reachable step s₀ s) : I s :=
  h.elim fun _ hrun => run_inv hstep h₀ hrun

/-- An invariant of good moves holds in every state of a run of good moves. -/
theorem states_inv_of {I : σ → Prop} {G : σ → α → Prop}
    (hstep : ∀ {s a s'}, I s → G s a → step s a = some s' → I s') {s : σ} {as : List α}
    (hs : I s) (hgood : ∀ p ∈ visits step s as, G p.1 p.2) : ∀ t ∈ states step s as, I t := by
  induction as generalizing s with
  | nil => simpa [states] using hs
  | cons a as ih =>
    simp only [visits, List.forall_mem_cons] at hgood
    simp only [states, List.forall_mem_cons]
    refine ⟨hs, ?_⟩
    cases h : step s a with
    | none => simp
    | some s' =>
      rw [h] at hgood
      exact ih (hstep hs hgood.1 h) hgood.2

/-- The moves of a run are among its labels. -/
theorem mem_of_mem_visits {s : σ} {as : List α} {p : σ × α} (h : p ∈ visits step s as) :
    p.2 ∈ as := by
  induction as generalizing s with
  | nil => cases h
  | cons a as ih =>
    simp only [visits, List.mem_cons] at h
    rcases h with rfl | h
    · exact .head _
    · cases hs : step s a with
      | none => rw [hs] at h; cases h
      | some s' => rw [hs] at h; exact .tail _ (ih h)

/-- In a run to its end every move is possible. -/
theorem exists_step_of_mem_visits {s t : σ} {as : List α} {p : σ × α}
    (hrun : run step s as = some t) (h : p ∈ visits step s as) : ∃ s', step p.1 p.2 = some s' := by
  induction as generalizing s with
  | nil => cases h
  | cons a as ih =>
    obtain ⟨s', hs, hrun⟩ := run_cons_eq_some.1 hrun
    simp only [visits, hs, Option.elim_some, List.mem_cons] at h
    rcases h with rfl | h
    · exact ⟨s', hs⟩
    · exact ih hrun h

/-- The state that a run ends in is a state of the run. -/
theorem mem_states_of_run {s t : σ} {as : List α} (hrun : run step s as = some t) :
    t ∈ states step s as := by
  induction as generalizing s with
  | nil => cases hrun; exact .head _
  | cons a as ih =>
    obtain ⟨s', hs, hrun⟩ := run_cons_eq_some.1 hrun
    simp only [states, hs, Option.elim_some]
    exact .tail _ (ih hrun)

/-- The state that a move of a run starts from is a state of the run. -/
theorem fst_mem_states_of_mem_visits {s : σ} {as : List α} {p : σ × α}
    (h : p ∈ visits step s as) : p.1 ∈ states step s as := by
  induction as generalizing s with
  | nil => cases h
  | cons a as ih =>
    simp only [visits, List.mem_cons] at h
    simp only [states, List.mem_cons]
    rcases h with rfl | h
    · exact .inl rfl
    · cases hs : step s a with
      | none => rw [hs] at h; cases h
      | some s' =>
        rw [hs] at h
        exact .inr (ih h)

/-- The states of the second part of a run are states of the run. -/
theorem mem_states_append {s s' t : σ} {as bs : List α} (hrun : run step s as = some s')
    (h : t ∈ states step s' bs) : t ∈ states step s (as ++ bs) := by
  induction as generalizing s with
  | nil => cases hrun; exact h
  | cons a as ih =>
    obtain ⟨s₁, hs, hrun⟩ := run_cons_eq_some.1 hrun
    simp only [List.cons_append, states, hs, Option.elim_some]
    exact .tail _ (ih hrun)

/-- The state after a possible move of a run is a state of the run. -/
theorem mem_states_of_mem_visits {s s' : σ} {as : List α} {p : σ × α}
    (h : p ∈ visits step s as) (hs : step p.1 p.2 = some s') : s' ∈ states step s as := by
  induction as generalizing s with
  | nil => cases h
  | cons a as ih =>
    simp only [visits, List.mem_cons] at h
    simp only [states, List.mem_cons]
    rcases h with rfl | h
    · have hhead : s' ∈ states step s' as := by cases as <;> simp [states]
      simpa [hs] using Or.inr hhead
    · cases h' : step s a with
      | none => rw [h'] at h; cases h
      | some s₁ =>
        rw [h'] at h
        exact .inr (ih h)

end

end Lts
