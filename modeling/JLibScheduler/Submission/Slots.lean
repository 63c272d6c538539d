import JLibScheduler.Submission.Accounts

/-!
# The immediate slots

What a step of a worker does to the flag `immediateCoresInUse`, the slot, `is_handling_fork` and
`task_to_run` of the workers. Other workers keep all four. The worker itself keeps the first three,
takes the task of its slot, or completes its task and clears the flag when the task was forked or
came from the slot (`SlotMove`). A worker that searches has no task (`Searches`), so that taking one
loses none.
-/

namespace JLibScheduler.Submission

open JLibScheduler.Fiber (afterSwitch)
open JLibScheduler.Thread (Attr Choice Pc Worker afterInbox)

section
variable {n m : ℕ} {τ : Type}

/-- The places where the worker looks for a task. -/
def searching : Pc n m → Bool
  | .immediate | .drain _ | .requeue _ | .take | .popBottom _ | .steal | .probe _ _ | .inbox _
  | .popBatch _ | .sleep => true
  | _ => false

/-- The places of the immediate section where the slot was found occupied. -/
def taking : Pc n m → Bool
  | .drain _ | .requeue _ | .take => true
  | _ => false

/-- A worker that looks for a task has none, and one that is about to take the task of its slot
finds one there. -/
structure Searches (wk : Worker n m τ) : Prop where
  task : searching wk.pc = true → wk.taskToRun = none
  occupied : taking wk.pc = true → wk.immediateTask.isSome = true

theorem Searches.of_none {wk : Worker n m τ} (hnone : wk.taskToRun = none)
    (hpc : taking wk.pc = false) : Searches wk := by
  refine ⟨fun _ => hnone, fun h => ?_⟩
  rw [hpc] at h
  cases h

theorem Searches.of_pc {wk : Worker n m τ} (hpc : searching wk.pc = false)
    (hpc' : taking wk.pc = false) : Searches wk := by
  refine ⟨fun h => ?_, fun h => ?_⟩
  · rw [hpc] at h
    cases h
  · rw [hpc'] at h
    cases h

/-- The flag of a worker, its slot, and whether it runs the task that was in the slot. -/
def slot (wk : Worker n m τ) : Bool × Option τ × Bool :=
  (wk.immediateCoreInUse, wk.immediateTask, wk.isHandlingFork)

/-- What a step of a worker that completes the task `o`, if any, does to its slot. -/
inductive SlotMove (attr : Attr τ) (wk wk' : Worker n m τ) : Option τ → Prop where
  | keep (hslot : slot wk' = slot wk)
      (htask : wk'.taskToRun = wk.taskToRun ∨ wk.isHandlingFork = false) : SlotMove attr wk wk' none
  | take (hnone : wk.taskToRun = none) (hslot : slot wk' = (wk.immediateCoreInUse, none, true))
      (htask : wk'.taskToRun = wk.immediateTask) (hsome : wk.immediateTask.isSome = true) :
      SlotMove attr wk wk' none
  | complete (t : τ) (hrun : wk.taskToRun = some t)
      (hslot : slot wk' = (wk.immediateCoreInUse && !(wk.isHandlingFork || attr.isForked t),
        wk.immediateTask, false)) (htask : wk'.taskToRun = none) : SlotMove attr wk wk' (some t)

variable {attr : Attr τ} {assignedFiber : τ → Option (Fin m)} {paused : Bool}
  {wk wk' : Worker n m τ} {c : Choice n m}

@[simp] theorem slot_setDeque (wk : Worker n m τ) (hi : Bool) (l : List τ) :
    slot (wk.setDeque hi l) = slot wk := by
  cases hi <;> rfl

theorem slot_pushBottom (wk : Worker n m τ) (u : τ) : slot (wk.pushBottom u) = slot wk := by
  unfold Worker.pushBottom
  split <;> rfl

theorem slot_endSection (h : wk.isHandlingFork = false) : slot wk.endSection = slot wk := by
  simp [slot, Worker.endSection, h]

/-- A worker that has no task does not run one that was in its slot. -/
theorem not_handling (hfork : wk.isHandlingFork = true → wk.taskToRun ≠ none)
    (hnone : wk.taskToRun = none) : wk.isHandlingFork = false :=
  Bool.eq_false_iff.2 fun h => hfork h hnone

/-- The pop of the own deque by a worker without a task. -/
theorem slotMove_popBottom (hfork : wk.isHandlingFork = true → wk.taskToRun ≠ none)
    (hnone : wk.taskToRun = none) (hi : Bool) (next : Pc n m) :
    SlotMove attr wk (wk.popBottom hi next) none := by
  unfold Worker.popBottom
  split
  · exact .keep (slot_setDeque wk hi _) (.inr (not_handling hfork hnone))
  · exact .keep rfl (.inl rfl)

/-- What a section that concerns the worker alone does to its slot. -/
theorem slotMove_localStep (hsearch : Searches wk)
    (hfork : wk.isHandlingFork = true → wk.taskToRun ≠ none)
    (h : wk.localStep attr assignedFiber paused c = some wk') : SlotMove attr wk wk' none := by
  revert h
  fun_cases Worker.localStep attr assignedFiber paused wk c with
  | case10 hpc =>
    rintro ⟨⟩
    exact .take (hsearch.task (by simp [hpc, searching])) rfl rfl
      (hsearch.occupied (by simp [hpc, taking]))
  | case11 hi hpc =>
    rintro ⟨⟩
    exact slotMove_popBottom hfork (hsearch.task (by simp [hpc, searching])) hi _
  | case16 hi hpc =>
    rintro ⟨⟩
    exact slotMove_popBottom hfork (hsearch.task (by simp [hpc, searching])) hi _
  | _ =>
    clear hsearch hfork
    rintro ⟨⟩ <;> refine .keep ?_ (.inl ?_) <;>
      grind [slot, Worker.setInbox, Worker.setDeque, Worker.localStep.pushBatch]

/-- The worker still searches in order after a section that concerns it alone. -/
theorem Searches.localStep (hsearch : Searches wk)
    (h : wk.localStep attr assignedFiber paused c = some wk') : Searches wk' := by
  have hpop : ∀ hi (next : Pc n m), (searching next = true → wk.taskToRun = none) →
      taking next = false → Searches (wk.popBottom hi next) := by
    intro hi next hnone hnext
    unfold Worker.popBottom
    split
    · exact .of_pc rfl rfl
    · refine ⟨hnone, fun h => ?_⟩
      rw [hnext] at h
      cases h
  revert h
  obtain ⟨htask, hslot⟩ := hsearch
  fun_cases Worker.localStep attr assignedFiber paused wk c with
  | case11 hi hpc =>
    rintro ⟨⟩
    exact hpop hi _ (fun _ => htask (by simp [hpc, searching])) (by cases hi <;> rfl)
  | case16 hi hpc =>
    rintro ⟨⟩
    exact hpop hi _ (fun _ => htask (by simp [hpc, searching])) (by cases hi <;> rfl)
  | _ =>
    clear hpop
    rintro ⟨⟩ <;> constructor <;>
      grind [Worker.setInbox, Worker.setDeque, Worker.localStep.pushBatch, searching, taking,
        afterInbox]

end

section
variable {n m : ℕ} {τ : Type} {attr : Attr τ} {th th' : Thread.State n m τ} {v w : Fin n}
  {c : Choice n m} {u : τ}

/-- What other workers do not change. -/
def still (wk : Worker n m τ) : Pc n m × Option τ × Bool × Option τ × Bool :=
  (wk.pc, wk.taskToRun, slot wk)

theorem still_modifyWorker {g : Worker n m τ → Worker n m τ}
    (hg : still (g (th.worker v)) = still (th.worker v)) (w : Fin n) :
    still ((th.modifyWorker v g).worker w) = still (th.worker w) := by
  by_cases hw : w = v
  · subst hw
    simp only [Thread.State.modifyWorker, Function.update_self, hg]
  · simp only [Thread.State.modifyWorker, Function.update_of_ne hw]

theorem still_of_ne {g : Worker n m τ → Worker n m τ} (hv : v ≠ w) :
    still ((th.modifyWorker w g).worker v) = still (th.worker v) := by
  simp only [Thread.State.modifyWorker, Function.update_of_ne hv]

theorem still_enqueue (th : Thread.State n m τ) (v : Fin n) (hi : Bool) (u : τ) (w : Fin n) :
    still ((th.enqueue v hi u).worker w) = still (th.worker w) :=
  still_modifyWorker (g := fun wk =>
    { wk.setInbox hi (wk.inbox hi ++ [u]) with hasQueuedWork := true }) (by cases hi <;> rfl) w

theorem still_enqueueAll (th : Thread.State n m τ) (v : Fin n) (ts : List τ) (w : Fin n) :
    still ((enqueueAll th v ts).worker w) = still (th.worker w) :=
  still_modifyWorker (g := fun wk =>
    { wk.setInbox false (wk.inbox false ++ ts) with hasQueuedWork := true }) rfl w

/-- A worker that stands still searches as before, with the same slot. -/
theorem Searches.congr {wk wk' : Worker n m τ} (h : Searches wk) (hs : still wk' = still wk) :
    Searches wk' := by
  simp only [still, slot, Prod.mk.injEq] at hs
  obtain ⟨hpc, htask, -, hslot, -⟩ := hs
  refine ⟨fun hp => ?_, fun hp => ?_⟩
  · rw [hpc] at hp
    rw [htask, h.task hp]
  · rw [hpc] at hp
    rw [hslot, h.occupied hp]

variable [DecidableEq τ]

/-- The sections that run `task_to_run` leave other workers still. -/
theorem still_runStep (h : Thread.runStep attr th w u c = some th') (hv : v ≠ w) :
    still (th'.worker v) = still (th.worker v) := by
  revert h
  fun_cases Thread.runStep attr th w u c with
  | case5 | case8 | case12 | case14 => simp
  | case6 f hpc s₁ =>
    rintro ⟨⟩
    rw [still_of_ne hv]
    unfold s₁
    split <;> rfl
  | case11 f x hpc =>
    intro h
    obtain ⟨s₁, hs₁, rfl⟩ := Option.map_eq_some_iff.1 h
    obtain ⟨-, rfl⟩ := Thread.State.requeue_eq_some.1 hs₁
    rw [still_of_ne hv, still_enqueue]
  | _ =>
    rintro ⟨⟩
    exact still_of_ne hv

/-- A worker that is in a section about a fiber has no fast job. -/
theorem not_fast_of_acquire (hinv : Thread.Inv attr th) (hu : (th.worker w).taskToRun = some u)
    (hpc : (th.worker w).pc = .acquire) : attr.fastJob u = false := by
  have hok := hinv.worker w
  simp only [Worker.Ok, hpc, hu, Option.some.injEq] at hok
  obtain ⟨t, rfl, hfast, -⟩ := hok
  exact hfast

theorem not_fast_of_fiber (hinv : Thread.Inv attr th) (hu : (th.worker w).taskToRun = some u)
    {f : Fin m} (hf : (th.worker w).pc.fiber = some f) : attr.fastJob u = false :=
  (hinv.assigned u f (hinv.owner hu hf).1).2.2

/-- What a section that runs `task_to_run` does to the slot, when only fast jobs are forked or come
from the slot. -/
theorem slotMove_runStep (h : Thread.runStep attr th w u c = some th')
    (hu : (th.worker w).taskToRun = some u) (hinv : Thread.Inv attr th)
    (hfork : (th.worker w).isHandlingFork = true → attr.fastJob u = true)
    (hforked : attr.isForked u = true → attr.fastJob u = true) :
    Searches (th'.worker w) ∧
      SlotMove attr (th.worker w) (th'.worker w) (completes th (.worker w c)) := by
  have hnothandling : attr.fastJob u = false → (th.worker w).isHandlingFork = false := by
    intro hslow
    refine Bool.eq_false_iff.2 fun h => ?_
    rw [hfork h] at hslow
    cases hslow
  have hnotfast : ∀ f, (th.worker w).pc.fiber = some f → attr.fastJob u = false :=
    fun f hf => not_fast_of_fiber hinv hu hf
  revert h
  fun_cases Thread.runStep attr th w u c with
  | case1 hpc =>
    rintro ⟨⟩
    simp only [completes, hpc, Thread.State.worker_modifyWorker]
    exact ⟨.of_pc rfl rfl, .keep rfl (.inl rfl)⟩
  | case2 hpc =>
    rintro ⟨⟩
    simp only [completes, hpc, hu, Thread.State.worker_modifyWorker]
    refine ⟨.of_pc rfl rfl, .complete u hu ?_ rfl⟩
    simp only [slot, Thread.State.free]
    grind
  | case3 hpc =>
    rintro ⟨⟩
    have hnot := hnothandling (not_fast_of_acquire hinv hu hpc)
    simp only [completes, Thread.State.worker_modifyWorker, Worker.handBack, hnot,
      Bool.false_eq_true, if_false]
    refine ⟨.of_pc rfl rfl, .keep ?_ (.inr hnot)⟩
    exact slot_pushBottom (th.worker w) u
  | case4 f hpc hf =>
    rintro ⟨⟩
    simp only [completes, Thread.State.worker_modifyWorker]
    exact ⟨.of_pc rfl rfl, .keep rfl (.inl rfl)⟩
  | case6 f hpc s₁ =>
    rintro ⟨⟩
    simp only [completes, hpc, Thread.State.worker_modifyWorker]
    unfold s₁
    split <;> exact ⟨.of_pc rfl rfl, .keep rfl (.inl rfl)⟩
  | case7 f v hpc hv =>
    rintro ⟨⟩
    simp only [completes, Thread.State.worker_modifyWorker]
    exact ⟨.of_pc rfl rfl, .keep rfl (.inl rfl)⟩
  | case9 f hpc =>
    rintro ⟨⟩
    have hslow := hnotfast f (by simp [hpc, Pc.fiber])
    have hnot := hnothandling hslow
    have hplain : attr.isForked u = false := by
      refine Bool.eq_false_iff.2 fun h => ?_
      rw [hforked h] at hslow
      cases hslow
    simp only [completes, hpc, hu, Thread.State.worker_modifyWorker]
    refine ⟨.of_none rfl rfl, .complete u hu ?_ rfl⟩
    simp [slot, Worker.endSection, Thread.State.releaseFiber, Thread.State.free, hnot, hplain]
  | case10 f hpc =>
    rintro ⟨⟩
    have hnot := hnothandling (hnotfast f (by simp [hpc, Pc.fiber]))
    simp only [completes, hpc, Thread.State.worker_modifyWorker]
    refine ⟨.of_none rfl rfl, .keep ?_ (.inr hnot)⟩
    have hpush := slot_pushBottom (th.worker w) u
    rw [slot_endSection ((congrArg (·.2.2) hpush).trans hnot)]
    exact hpush
  | case11 f x hpc =>
    intro h
    obtain ⟨s₁, hs₁, rfl⟩ := Option.map_eq_some_iff.1 h
    obtain ⟨-, rfl⟩ := Thread.State.requeue_eq_some.1 hs₁
    have hnot := hnothandling (hnotfast f (by simp [hpc, Pc.fiber]))
    simp only [completes, Thread.State.worker_modifyWorker]
    refine ⟨.of_none rfl rfl, .keep ?_ (.inr hnot)⟩
    have hstill := congrArg (·.2.2) (still_enqueue th x (attr.hiPri u) u w)
    rw [slot_endSection ((congrArg (·.2.2) hstill).trans hnot)]
    exact hstill
  | case13 f pc hdead hpush hreq hpc v pc' hafter =>
    rintro ⟨⟩
    have hnone : completes th (.worker w .go) = none := by
      cases pc with
      | dead => exact absurd rfl hdead
      | _ => simp only [completes, hpc]
    have hnot := hnothandling (hnotfast f (by simp [hpc, Pc.fiber]))
    rw [hnone]
    simp only [Thread.State.worker_modifyWorker]
    cases pc' with
    | none =>
      refine ⟨.of_none rfl rfl, .keep ?_ (.inr hnot)⟩
      exact slot_endSection hnot
    | some pc' => exact ⟨.of_pc rfl rfl, .keep rfl (.inl rfl)⟩
  | case5 | case8 | case12 | case14 => simp

/-- What a step of a worker does to the slots, when only fast jobs are forked or come from a slot.
-/
theorem slotMove_workerStep (h : Thread.workerStep attr th w c = some th')
    (hinv : Thread.Inv attr th) (hsearch : Searches (th.worker w))
    (hfork : (th.worker w).isHandlingFork = true →
      ∃ t, (th.worker w).taskToRun = some t ∧ attr.fastJob t = true)
    (hforked : ∀ t, attr.isForked t = true → attr.fastJob t = true) :
    (∀ v, v ≠ w → still (th'.worker v) = still (th.worker v)) ∧ Searches (th'.worker w) ∧
      SlotMove attr (th.worker w) (th'.worker w) (completes th (.worker w c)) := by
  have hhas : (th.worker w).isHandlingFork = true → (th.worker w).taskToRun ≠ none := by
    intro hf hnone
    obtain ⟨t, ht, -⟩ := hfork hf
    rw [hnone] at ht
    cases ht
  rcases Thread.workerStep_cases h with ⟨hi, v, u, rest, hpc, -, rfl⟩ |
    ⟨hi, ws, pc, hpc, hpc', rfl⟩ | ⟨hi, ws, v, hpc, hsteal⟩ | ⟨wk, hwk, rfl⟩ | ⟨u, hu, hrun⟩
  · have hnone : completes th (.worker w c) = none := by
      cases c <;> simp only [completes, hpc]
    have hw : still (((th.enqueue v (attr.hiPri u) u).modifyWorker w fun wk =>
        { wk with batch := rest }).worker w) = still (th.worker w) := by
      rw [Thread.State.worker_modifyWorker]
      exact still_enqueue th v (attr.hiPri u) u w
    rw [hnone]
    refine ⟨fun x hx => ?_, hsearch.congr hw, .keep (congrArg (·.2.2) hw)
      (.inl (congrArg (·.2.1) hw))⟩
    rw [still_of_ne hx, still_enqueue]
  · have hnone : completes th (.worker w c) = none := by
      cases c <;> simp only [completes, hpc]
    rw [hnone, Thread.State.worker_modifyWorker]
    refine ⟨fun x hx => still_of_ne hx, ⟨fun _ => hsearch.task (by simp [hpc, searching]), ?_⟩,
      .keep rfl (.inl rfl)⟩
    rcases hpc' with rfl | ⟨hi', ws', rfl⟩ <;> exact fun h => by cases h
  · have hnone : completes th (.worker w c) = none := by
      cases c <;> simp only [completes, hpc]
    have hnot := not_handling hhas (hsearch.task (by simp [hpc, searching]))
    rw [hnone]
    unfold Thread.State.stealFrom at hsteal
    split at hsteal <;> cases hsteal
    next u rest hdeque =>
      have hv : ∀ x, still ((th.modifyWorker v fun wk => wk.setDeque hi rest).worker x) =
          still (th.worker x) :=
        still_modifyWorker (g := fun wk => wk.setDeque hi rest) (by cases hi <;> rfl)
      refine ⟨fun x hx => ?_, ?_, ?_⟩
      · rw [still_of_ne hx, hv]
      · rw [Thread.State.worker_modifyWorker]
        exact .of_pc rfl rfl
      · rw [Thread.State.worker_modifyWorker]
        exact .keep (congrArg (·.2.2) (hv w)) (.inr hnot)
  · rw [completes_of_localStep hwk, Thread.State.worker_modifyWorker]
    exact ⟨fun x hx => still_of_ne hx, hsearch.localStep hwk, slotMove_localStep hsearch hhas hwk⟩
  · have hfast : (th.worker w).isHandlingFork = true → attr.fastJob u = true := by
      intro hf
      obtain ⟨t, ht, hfast⟩ := hfork hf
      rw [hu] at ht
      cases ht
      exact hfast
    exact ⟨fun x hx => still_runStep hrun hx, slotMove_runStep hrun hu hinv hfast (hforked u)⟩

end

end JLibScheduler.Submission
