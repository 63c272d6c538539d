import Mathlib.Data.Fintype.Basic
import JLibScheduler.Lib.Lts
import JLibScheduler.Helping.Effects

/-!
# What a spinning worker has in its own inboxes

A worker whose thread is in a spin loop does not drain its inboxes, and helpers steal from deques
only. So the task that must run for the loop to end must not be in the inboxes of that worker.
`PushLocal` and `Requeue` test the reservation of a worker and not whether its thread spins, and a
job that begins to spin leaves the inboxes of its worker as they are (`worker_strands`). Were both
tested, a spinning worker would have nothing in its inboxes (`drained_step`), and no task that it
needs would be stranded (`worker_not_stranded`).
-/

namespace JLibScheduler.Helping

open JLibScheduler.Sync (Obj Kind)

section
variable {τ ω ν γ : Type} {s s' : State τ ω ν γ}

/-- The task `u` of the group `g` must run for a wait to end: it holds the mutex, or is counted in
the group. -/
def NeededFor (s : State τ ω ν γ) (u : τ) (g : Option γ) : Wait ν γ → Prop
  | .obj x => s.holder x = some u
  | .group g' => g = some g'

/-- The thread of worker `w` is in a spin loop for which a task in its own inboxes is needed. -/
def Stranded (s : State τ ω ν γ) (w : ω) : Prop :=
  ∃ t ∈ s.stack w, ∃ y ∈ s.waits t,
    ∃ u hi, s.place u = .inbox w hi ∧ NeededFor s u (s.waitGroup u) y

instance [DecidableEq τ] [DecidableEq γ] {u : τ} {g : Option γ} :
    (y : Wait ν γ) → Decidable (NeededFor s u g y)
  | .obj x => inferInstanceAs (Decidable (s.holder x = some u))
  | .group g' => inferInstanceAs (Decidable (g = some g'))

/-- The thread of worker `w` is in a spin loop: that of the job it runs, or of one beneath. -/
def Spins (s : State τ ω ν γ) (w : ω) : Prop := ∃ t ∈ s.stack w, s.waits t ≠ none

/-- Some task is in an inbox of worker `w`. -/
def HasInboxWork (s : State τ ω ν γ) (w : ω) : Prop := ∃ u hi, s.place u = .inbox w hi

/-- Workers that spin have nothing in their inboxes. -/
def Drained (s : State τ ω ν γ) : Prop := ∀ w, Spins s w → ¬ HasInboxWork s w

/-- The rule for steps that begin no spin loop and place no task in an inbox. -/
theorem Drained.mono (h : Drained s)
    (hspins : ∀ w, ∀ t ∈ s'.stack w, s'.waits t ≠ none → t ∈ s.stack w ∧ s.waits t ≠ none)
    (hplace : ∀ u w hi, s'.place u = .inbox w hi → s.place u = .inbox w hi) : Drained s' := by
  rintro w ⟨t, ht, hne⟩ ⟨u, hi, hu⟩
  exact h w ⟨t, hspins w t ht hne⟩ ⟨u, hi, hplace u w hi hu⟩

/-- Nothing is stranded in the inboxes of a worker when they are empty. -/
theorem Drained.not_stranded (h : Drained s) (w : ω) : ¬ Stranded s w := by
  rintro ⟨t, ht, y, hy, u, hi, hu, -⟩
  exact h w ⟨t, ht, by simp [Option.mem_def.1 hy]⟩ ⟨u, hi, hu⟩

end

section
variable {τ ω ν γ : Type} [DecidableEq τ] [DecidableEq ω] [DecidableEq ν] [DecidableEq γ]
  {fastJob hiPri : τ → Bool} {s s' : State τ ω ν γ} {a : Act τ ω ν γ}

instance (w : ω) : Decidable (Spins s w) :=
  inferInstanceAs (Decidable (∃ t ∈ s.stack w, s.waits t ≠ none))

instance [Fintype τ] (w : ω) : Decidable (HasInboxWork s w) :=
  inferInstanceAs (Decidable (∃ u hi, s.place u = .inbox w hi))

/-- A task is placed in an inbox of a worker whose thread is in a spin loop. -/
def PlacesOnSpinning (fastJob : τ → Bool) (s : State τ ω ν γ) (a : Act τ ω ν γ) : Prop :=
  ∃ p ∈ placement fastJob a, Spins s p.2

/-- A spin loop is entered on a worker whose inboxes are not empty. -/
def EntersUndrained (fastJob : τ → Bool) (s : State τ ω ν γ) (a : Act τ ω ν γ) : Prop :=
  ∃ p ∈ enters fastJob s a, HasInboxWork s p.1

/-- Either of the two. -/
def IgnoresSpinning (fastJob : τ → Bool) (s : State τ ω ν γ) (a : Act τ ω ν γ) : Prop :=
  PlacesOnSpinning fastJob s a ∨ EntersUndrained fastJob s a

instance [Fintype τ] : Decidable (IgnoresSpinning fastJob s a) :=
  inferInstanceAs (Decidable ((∃ p ∈ placement fastJob a, Spins s p.2) ∨
    ∃ p ∈ enters fastJob s a, HasInboxWork s p.1))

omit [DecidableEq ω] in
/-- A task that is placed anywhere else adds nothing to the inboxes. -/
theorem inbox_of_update {place : τ → Place ω} {p : Place ω} {t z : τ} {w : ω} {hi : Bool}
    (hp : ∀ w hi, p ≠ .inbox w hi) (h : Function.update place t p z = .inbox w hi) :
    place z = .inbox w hi := by
  rw [Function.update_apply] at h
  split at h
  · exact absurd h (hp w hi)
  · exact h

omit [DecidableEq τ] in
/-- What is on a stack was on it before its head was taken off. -/
theorem mem_of_pop {stack : ω → List τ} {v w : ω} {t z : τ} {rest : List τ}
    (hstack : stack v = t :: rest) (h : z ∈ Function.update stack v rest w) : z ∈ stack w := by
  rw [Function.update_apply] at h
  split at h
  next heq =>
    rw [heq, hstack]
    exact .tail _ h
  next => exact h

omit [DecidableEq ω] [DecidableEq ν] [DecidableEq γ] in
/-- When a context waits for nothing any more, the others wait as they did. -/
theorem waits_of_setWaits_none {t z : τ} (h : (s.setWaits t none).waits z ≠ none) :
    s.waits z ≠ none := by
  simp only [State.setWaits, Function.update_apply] at h
  split at h
  · exact absurd rfl h
  · exact h

/-- No step gives a spinning worker a task in its inboxes, unless it ignores that the worker spins
or that it has one. -/
theorem drained_step (hloc : Located fastJob s) (h : Drained s)
    (hgood : ¬ IgnoresSpinning fastJob s a) (hs : step fastJob hiPri s a = some s') :
    Drained s' := by
  rw [IgnoresSpinning, not_or] at hgood
  cases step_effect hloc hs with
  | place u target hi ha hrun hwaits hplace hkeeps hgroup =>
    obtain ⟨hstack, hwaits', -, -⟩ := hkeeps
    rintro w ⟨t, ht, hne⟩ ⟨v, hi', hv⟩
    rw [hstack] at ht
    rw [hwaits'] at hne
    rw [hplace, Function.update_apply] at hv
    split at hv
    · cases hv
      exact hgood.1 ⟨(u, target), ha, t, ht, hne⟩
    · exact h w ⟨t, ht, hne⟩ ⟨v, hi', hv⟩
  | move u v hi hrun hwaits hplace hkeeps hgroup =>
    obtain ⟨hstack, hwaits', -, -⟩ := hkeeps
    refine h.mono (fun w t ht hne => ⟨hstack ▸ ht, hwaits' ▸ hne⟩) fun z w hi' hz => ?_
    rw [hplace] at hz
    exact inbox_of_update (by simp) hz
  | start u v hrun hwaits heq =>
    subst heq
    refine h.mono (fun w t ht hne => ⟨?_, hne⟩) fun z w hi' hz => inbox_of_update (by simp) hz
    simp only [State.setStack, State.put, Function.update_apply] at ht
    split at ht
    next heq =>
      rcases List.mem_cons.1 ht with rfl | ht
      · exact absurd hwaits hne
      · exact heq ▸ ht
    next => exact ht
  | leave t v rest p hstack hwaits hp hplace hstack' hwaits' hobj hholder hgroup =>
    refine h.mono (fun w z hz hne => ⟨?_, hwaits' ▸ hne⟩) fun z w hi' hz => ?_
    · rw [hstack'] at hz
      exact mem_of_pop hstack hz
    · rw [hplace] at hz
      exact inbox_of_update hp hz
  | queue t v rest x o hstack hslow ha hwaits ho hkind heq =>
    -- the fiber that queues up is a slow job, so none on a stack waits
    have hloc' := hloc.step hs
    subst heq
    refine h.mono (fun w z hz hne => ⟨mem_of_pop hstack hz, ?_⟩)
      fun z w hi' hz => inbox_of_update (by simp) hz
    have hzt : z ≠ t := by
      intro heq
      subst heq
      exact hne (hloc'.slow w z hz hslow)
    simpa only [State.setStack, State.put, State.setWaits, Function.update_of_ne hzt] using hne
  | got t v rest x o hstack ho hkind heq =>
    subst heq
    exact h.mono (fun w z hz hne => ⟨hz, waits_of_setWaits_none (s := s) hne⟩) fun _ _ _ => id
  | spin t v rest y hstack hfast ha hwaits heq =>
    subst heq
    rcases hwaits with hwaits | henters
    · have hsame : s.setWaits t (some y) = s := by simp [State.setWaits, ← hwaits]
      rwa [hsame]
    · rintro w ⟨z, hz, hne⟩ hwork
      by_cases hzt : z = t
      · subst hzt
        obtain rfl : w = v := hloc.stack_unique hz (hstack ▸ .head _)
        exact hgood.2 ⟨(w, y), henters, hwork⟩
      · simp only [State.setWaits, Function.update_of_ne hzt] at hne
        exact h w ⟨z, hz, hne⟩ hwork
  | stop t v rest hstack heq =>
    subst heq
    exact h.mono (fun w z hz hne => ⟨hz, waits_of_setWaits_none hne⟩) fun _ _ _ => id
  | release t v rest x hstack heq =>
    subst heq
    cases hnext : (s.obj x).release.2 with
    | none => exact h.mono (fun w z hz hne => ⟨hz, hne⟩) fun _ _ _ => id
    | some f =>
      exact h.mono (fun w z hz hne => ⟨hz, waits_of_setWaits_none (s := s) hne⟩) fun _ _ _ => id

/-- In a run in which nothing is placed in an inbox of a worker whose thread is in a spin loop, and
no spin loop is entered on a worker whose inboxes are not empty, no task that a spinning worker
needs is ever in its own inboxes. -/
theorem worker_not_stranded {kind : ν → Kind} {as : List (Act τ ω ν γ)}
    (hrun : Lts.run (step fastJob hiPri) (State.init kind) as = some s)
    (hgood : ∀ p ∈ Lts.visits (step fastJob hiPri) (State.init kind) as,
      ¬ IgnoresSpinning fastJob p.1 p.2)
    (w : ω) : ¬ Stranded s w := by
  have hinit : Drained (State.init kind : State τ ω ν γ) := by
    rintro w ⟨t, ht, -⟩
    cases ht
  have h := Lts.run_inv_of (I := fun s => Located fastJob s ∧ Drained s)
    (G := fun s a => ¬ IgnoresSpinning fastJob s a)
    (fun h hg hs => ⟨h.1.step hs, drained_step h.1 h.2 hg hs⟩)
    ⟨Located.init, hinit⟩ hrun hgood
  exact h.2.not_stranded w

end

/-- A fast job on worker `w` pushes a task that is counted in a group to worker `v`, and waits for
the group. -/
def waitsForChunk (w v : Bool) : List (Act Bool Bool Unit Unit) :=
  [.push false none w, .drain w false, .take w false, .push true (some ()) v, .waitFor w ()]

theorem worker_not_stranded_helps : ∃ s : State Bool Bool Unit Unit,
    Lts.run (step (fun _ => true) fun _ => false) (State.init fun _ => .mutex)
      (waitsForChunk false true ++ [.drain true true, .help false true false]) = some s ∧
      s.stack false = [true, false] ∧ ¬ Stranded s false := by
  refine ⟨(Lts.run _ _ (waitsForChunk false true ++ [.drain true true, .help false true false])).get
    (by decide), (Option.some_get _).symm, by decide, ?_⟩
  exact worker_not_stranded (Option.some_get (by decide)).symm (by decide) false

/-- The task is pushed to the inbox of the worker that waits for it. -/
theorem worker_strands : ¬ ∀ (as : List (Act Bool Bool Unit Unit)) (s : State Bool Bool Unit Unit),
    Lts.run (step (fun _ => true) fun _ => false) (State.init fun _ => .mutex) as = some s →
      ∀ w, ¬ Stranded s w := by
  intro hall
  refine hall (waitsForChunk false false) _ (Option.some_get (by decide)).symm false ?_
  exact ⟨false, by decide, .group (), by decide, true, false, by decide, by decide⟩

end JLibScheduler.Helping
