import JLibScheduler.Mutex.Basic

/-!
# Boosts and their end

`BoostTaskPriority` saves the priority of a task in the byte `priorityBoost`, which is also the sign
that the task is boosted: zero means no boost. A task that was created with priority 0 is boosted to
1 with a saved 0, so the end of the boost does not find it (`not_boostUndone_low`). For every other
creation priority a boost is undone, over calls in any order (`boostUndone_iff`).
-/

namespace JLibScheduler.Mutex

/-- A call of `BoostTaskPriority` or `UnboostTaskPriority`. -/
inductive BoostCall (κ : Type) where
  | boost (t : κ)
  | unboost (t : κ)
  deriving DecidableEq, Repr

/-- The task a call is about. -/
def BoostCall.task {κ : Type} : BoostCall κ → κ
  | .boost t | .unboost t => t

section
variable {κ ν : Type} [DecidableEq κ]

/-- One call. -/
def boostStep (s : State κ ν) : BoostCall κ → State κ ν
  | .boost t => boostTaskPriority s t
  | .unboost t => unboostTaskPriority s t

/-- A sequence of calls on tasks with these creation priorities. -/
def boostRun (hiPri : κ → UInt8) (calls : List (BoostCall κ)) : State κ ν :=
  calls.foldl boostStep (.init hiPri)

/-- The last call on the task. -/
def lastCall (t : κ) (calls : List (BoostCall κ)) : Option (BoostCall κ) :=
  (calls.filter fun c => c.task = t).getLast?

/-- The task is at high priority when the last call on it was a boost, and else at its creation
priority. -/
def BoostUndone (ν : Type) (hiPri : κ → UInt8) (calls : List (BoostCall κ)) : Prop :=
  ∀ t, (boostRun (ν := ν) hiPri calls).hiPri t =
    if lastCall t calls = some (.boost t) then 1 else hiPri t

variable {hiPri : κ → UInt8} {calls : List (BoostCall κ)} {t : κ}

theorem boostRun_concat (c : BoostCall κ) :
    (boostRun hiPri (calls ++ [c]) : State κ ν) = boostStep (boostRun hiPri calls) c := by
  rw [boostRun, List.foldl_append]
  rfl

theorem lastCall_concat_self (c : BoostCall κ) :
    lastCall c.task (calls ++ [c]) = some c := by
  rw [lastCall, List.filter_append, List.filter_singleton, decide_eq_true rfl]
  exact List.getLast?_concat

theorem lastCall_concat_ne {c : BoostCall κ} (hne : c.task ≠ t) :
    lastCall t (calls ++ [c]) = lastCall t calls := by
  rw [lastCall, List.filter_append, List.filter_singleton, decide_eq_false hne]
  exact congrArg _ (List.append_nil _)

theorem lastCall_eq_some {c : BoostCall κ} (h : lastCall t calls = some c) :
    c ∈ calls ∧ c.task = t := by
  have hmem := List.mem_filter.1 (List.mem_of_getLast? h)
  exact ⟨hmem.1, of_decide_eq_true hmem.2⟩

/-- A task that was boosted has a last call. -/
theorem lastCall_cases (h : .boost t ∈ calls) :
    lastCall t calls = some (.boost t) ∨ lastCall t calls = some (.unboost t) := by
  cases hlast : lastCall t calls with
  | none =>
    have hnil := List.getLast?_eq_none_iff.1 hlast
    have hmem : BoostCall.boost t ∈ calls.filter fun c => c.task = t :=
      List.mem_filter.2 ⟨h, decide_eq_true rfl⟩
    rw [hnil] at hmem
    cases hmem
  | some c =>
    obtain ⟨-, rfl⟩ := lastCall_eq_some hlast
    cases c with
    | boost t => exact .inl rfl
    | unboost t => exact .inr rfl

/-- A call changes no other task. -/
theorem boostStep_ne (s : State κ ν) {c : BoostCall κ} (hne : c.task ≠ t) :
    (boostStep s c).hiPri t = s.hiPri t ∧ (boostStep s c).priorityBoost t = s.priorityBoost t := by
  have hne : t ≠ c.task := hne.symm
  cases c with
  | boost u =>
    simp only [boostStep, boostTaskPriority]
    split
    · exact ⟨Function.update_of_ne hne .., Function.update_of_ne hne ..⟩
    · exact ⟨rfl, rfl⟩
  | unboost u =>
    simp only [boostStep, unboostTaskPriority]
    split
    · exact ⟨Function.update_of_ne hne .., Function.update_of_ne hne ..⟩
    · exact ⟨rfl, rfl⟩

/-- What a boost leaves of its task. -/
theorem boostTaskPriority_self (s : State κ ν) :
    (boostTaskPriority s t).hiPri t = (if s.priorityBoost t = 0 then 1 else s.hiPri t) ∧
    (boostTaskPriority s t).priorityBoost t =
      if s.priorityBoost t = 0 then s.hiPri t else s.priorityBoost t := by
  unfold boostTaskPriority
  split
  · exact ⟨Function.update_self .., Function.update_self ..⟩
  · exact ⟨rfl, rfl⟩

/-- What the end of a boost leaves of its task. -/
theorem unboostTaskPriority_self (s : State κ ν) :
    (unboostTaskPriority s t).hiPri t =
      (if s.priorityBoost t = 0 then s.hiPri t else s.priorityBoost t) ∧
    (unboostTaskPriority s t).priorityBoost t = 0 := by
  unfold unboostTaskPriority
  by_cases h : s.priorityBoost t = 0
  · rw [if_neg (not_not.2 h), if_pos h]
    exact ⟨rfl, h⟩
  · rw [if_pos h, if_neg h]
    exact ⟨Function.update_self .., Function.update_self ..⟩

/-- A task that was not created at priority 0: the saved byte tells whether it is boosted. -/
theorem boostRun_of_ne_zero (calls : List (BoostCall κ)) (hc : hiPri t ≠ 0) :
    (boostRun (ν := ν) hiPri calls).hiPri t =
      (if lastCall t calls = some (.boost t) then 1 else hiPri t) ∧
    (boostRun (ν := ν) hiPri calls).priorityBoost t =
      if lastCall t calls = some (.boost t) then hiPri t else 0 := by
  induction calls using List.reverseRecOn with
  | nil => exact ⟨rfl, rfl⟩
  | append_singleton calls c ih =>
    rw [boostRun_concat]
    by_cases ht : c.task = t
    · subst ht
      rw [lastCall_concat_self]
      cases c with
      | boost t =>
        obtain ⟨hpri, hsaved⟩ := boostTaskPriority_self (t := t) (boostRun (ν := ν) hiPri calls)
        simp only [BoostCall.task] at ih hc ⊢
        simp only [boostStep, hpri, hsaved, ih, if_true]
        by_cases hl : lastCall t calls = some (.boost t) <;> simp [hl, hc]
      | unboost t =>
        obtain ⟨hpri, hsaved⟩ := unboostTaskPriority_self (t := t) (boostRun (ν := ν) hiPri calls)
        simp only [BoostCall.task] at ih hc ⊢
        simp only [boostStep, hpri, hsaved, ih, Option.some.injEq, reduceCtorEq, if_false]
        by_cases hl : lastCall t calls = some (.boost t) <;> simp [hl, hc]
    · rw [lastCall_concat_ne ht, (boostStep_ne _ ht).1, (boostStep_ne _ ht).2]
      exact ih

/-- A task that was created at priority 0: it is at priority 1 from its first boost on. -/
theorem boostRun_of_zero (calls : List (BoostCall κ)) (hc : hiPri t = 0) :
    (.boost t ∈ calls → (boostRun (ν := ν) hiPri calls).hiPri t = 1) ∧
    (.boost t ∉ calls → (boostRun (ν := ν) hiPri calls).hiPri t = 0 ∧
      (boostRun (ν := ν) hiPri calls).priorityBoost t = 0) ∧
    ((boostRun (ν := ν) hiPri calls).priorityBoost t = 0 ∨
      (boostRun (ν := ν) hiPri calls).priorityBoost t = 1) := by
  induction calls using List.reverseRecOn with
  | nil => exact ⟨fun h => (by cases h), fun _ => ⟨hc, rfl⟩, .inl rfl⟩
  | append_singleton calls c ih =>
    obtain ⟨ihone, ihnone, ihsaved⟩ := ih
    rw [boostRun_concat, List.mem_append, List.mem_singleton]
    by_cases ht : c.task = t
    · subst ht
      cases c with
      | boost t =>
        simp only [BoostCall.task] at ihone ihnone ihsaved hc ⊢
        obtain ⟨hpri, hsaved⟩ := boostTaskPriority_self (t := t) (boostRun (ν := ν) hiPri calls)
        refine ⟨fun _ => ?_, fun h => absurd (by simp) h, ?_⟩
        · rw [boostStep, hpri]
          split
          case isTrue => rfl
          case isFalse hboost => exact ihone (not_not.1 fun h => hboost (ihnone h).2)
        · rw [boostStep, hsaved]
          split
          · by_cases hmem : BoostCall.boost t ∈ calls
            · exact .inr (ihone hmem)
            · exact .inl (ihnone hmem).1
          · exact ihsaved
      | unboost t =>
        simp only [BoostCall.task] at ihone ihnone ihsaved hc ⊢
        obtain ⟨hpri, hsaved⟩ := unboostTaskPriority_self (t := t) (boostRun (ν := ν) hiPri calls)
        rw [boostStep, hpri, hsaved]
        refine ⟨fun h => ?_, fun h => ⟨?_, rfl⟩, .inl rfl⟩
        · have hmem := h.resolve_right (by simp)
          split
          case isTrue => exact ihone hmem
          case isFalse hboost => exact ihsaved.resolve_left hboost
        · obtain ⟨hzero, hboost⟩ := ihnone fun hmem => h (.inl hmem)
          rw [if_pos hboost, hzero]
    · have hne : BoostCall.boost t ≠ c := by
        rintro rfl
        exact ht rfl
      rw [(boostStep_ne _ ht).1, (boostStep_ne _ ht).2, or_iff_left hne]
      exact ⟨ihone, ihnone, ihsaved⟩

/-- For any creation priorities and any sequence of calls: every task is at high priority after a
boost and at its creation priority after the end of the boost, and no call changes another task,
exactly when the last call on a task of creation priority 0 is not the end of a boost that took
place. -/
theorem boostUndone_iff (ν : Type) (hiPri : κ → UInt8) (calls : List (BoostCall κ)) :
    BoostUndone ν hiPri calls ↔
      ∀ t, hiPri t = 0 → .boost t ∈ calls → lastCall t calls ≠ some (.unboost t) := by
  refine forall_congr' fun t => ?_
  by_cases hc : hiPri t = 0
  · obtain ⟨hone, hnone, -⟩ := boostRun_of_zero (ν := ν) calls hc
    by_cases hmem : .boost t ∈ calls
    · rw [hone hmem]
      rcases lastCall_cases hmem with hlast | hlast <;> simp [hlast, hc, hmem]
    · have hlast : lastCall t calls ≠ some (.boost t) := fun h => hmem (lastCall_eq_some h).1
      simp [(hnone hmem).1, hlast, hc, hmem]
  · simp [(boostRun_of_ne_zero (ν := ν) calls hc).1, hc]

/-- A task of priority 0 that was boosted stays at high priority after the end of the boost. -/
theorem not_boostUndone_low : ¬ ∀ (hiPri : Unit → UInt8) (calls : List (BoostCall Unit)),
    BoostUndone Unit hiPri calls := by
  intro h
  have hlow := h (fun _ => 0) [.boost (), .unboost ()] ()
  revert hlow
  decide

end

end JLibScheduler.Mutex
