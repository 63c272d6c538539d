import JLibScheduler.Lib.Update
import JLibScheduler.Thread.Places

/-!
# Every task is in one place

A run of the worker loops keeps every task in at most one place, starts no task twice and frees no
task that is still queued, exactly as long as no step hands a task back after `AcquireFiber` failed
(`onePlace_iff`): that exit of the loop leaves `task_to_run` as it is, so the worker keeps the task
and runs it again, while the deque or the immediate slot has it too (`not_onePlace_runsTaskTwice`).

The invariant `Inv` bounds the references of a task by what was submitted and not freed, and says
which task each place of a loop is about. Most steps are `Quiet`; the others start or free the task
of one worker, or bind or release its fiber (`Inv.runMove`), or are steps of a helper.
-/

namespace JLibScheduler.Thread

open JLibScheduler.Fiber (SwitchPc ResumePc afterSwitch resume)

section
variable {n m : ℕ} {τ : Type}

/-- What the place of a worker in its loop says about `task_to_run`. -/
def Worker.Ok (attr : Attr τ) (assignedFiber : τ → Option (Fin m)) (wk : Worker n m τ) : Prop :=
  match wk.pc with
  | .fast | .fastRun => ∃ t, wk.taskToRun = some t ∧ attr.fastJob t = true
  | .acquire => ∃ t, wk.taskToRun = some t ∧ attr.fastJob t = false ∧ assignedFiber t = none
  | .switch f | .on f | .leaving f | .back f _ =>
    ∃ t, wk.taskToRun = some t ∧ assignedFiber t = some f
  | _ => True

/-- The task was started: it is freed, its fiber was entered, or it is in the `Execute` of a fast
job. -/
def Begun (s : State n m τ) (t : τ) : Prop :=
  s.freed t = true ∨ (∃ f, s.assignedFiber t = some f ∧ (s.fiber f).entered = true) ∨
    (∃ w, (s.worker w).control = (.fastRun, some t)) ∨ .helping t ∈ s.calls

variable [DecidableEq τ]

/-- The invariant of runs that hand no task back. -/
structure Inv (attr : Attr τ) (s : State n m τ) : Prop where
  refs : ∀ t, s.refs t + (s.freed t).toNat ≤ (s.submitted t).toNat
  free : s.freeFibers.Nodup ∧ ∀ f ∈ s.freeFibers, (s.fiber f).status ≠ .suspended
  assigned : ∀ t f, s.assignedFiber t = some f →
    (s.fiber f).owningTask = some t ∧ f ∉ s.freeFibers ∧ attr.fastJob t = false
  worker : ∀ w, (s.worker w).Ok attr s.assignedFiber
  helping : ∀ t, .helping t ∈ s.calls → attr.fastJob t = true
  started : ∀ t, s.started t = 0 ∨ s.started t = 1 ∧ Begun s t

/-- The step starts and frees no task, and binds and releases no fiber: only workers that are not in
an `Execute` move on, and only fibers in use change their status. -/
structure Quiet (attr : Attr τ) (s s' : State n m τ) : Prop where
  fiber : ∀ f, (s'.fiber f).owningTask = (s.fiber f).owningTask ∧
    (s'.fiber f).entered = (s.fiber f).entered
  status : ∀ f ∈ s.freeFibers, (s'.fiber f).status = .suspended → (s.fiber f).status = .suspended
  free : s'.freeFibers = s.freeFibers
  assigned : s'.assignedFiber = s.assignedFiber
  freed : s'.freed = s.freed
  started : s'.started = s.started
  helping : ∀ t, .helping t ∈ s'.calls ↔ .helping t ∈ s.calls
  worker : ∀ w, (s'.worker w).control = (s.worker w).control ∨
    (s.worker w).pc ≠ .fastRun ∧ (s'.worker w).Ok attr s.assignedFiber

end

section
variable {n m : ℕ} {τ : Type} {attr : Attr τ} {assignedFiber assignedFiber' : τ → Option (Fin m)}
  {wk wk' : Worker n m τ}

/-- What the place of a worker says depends on its `control` only. -/
theorem Worker.Ok.congr (h : wk.Ok attr assignedFiber) (hc : wk'.control = wk.control)
    (ha : ∀ t, wk.taskToRun = some t → assignedFiber' t = assignedFiber t) :
    wk'.Ok attr assignedFiber' := by
  obtain ⟨hpc, ht⟩ := Prod.ext_iff.1 hc
  simp only [Worker.control] at hpc ht
  unfold Worker.Ok at h ⊢
  rw [hpc, ht]
  split at h <;> grind

/-- A section that concerns the worker alone leaves it in order. -/
theorem Worker.Ok.localStep {paused : Bool} {c : Choice n m} (h : wk.Ok attr assignedFiber)
    (hs : wk.localStep attr assignedFiber paused c = some wk') :
    wk.pc ≠ .fastRun ∧ wk'.Ok attr assignedFiber := by
  have hpop : ∀ hi (next : Pc n m),
      (∀ wk₁ : Worker n m τ, wk₁.pc = next → wk₁.Ok attr assignedFiber) →
      (wk.popBottom hi next).Ok attr assignedFiber := by
    intro hi next hnext
    unfold Worker.popBottom
    split
    · trivial
    · exact hnext _ rfl
  revert hs
  fun_cases Worker.localStep attr assignedFiber paused wk c <;>
    grind [Worker.Ok, Worker.localStep.pushBatch, afterInbox, Worker.setInbox, Worker.setDeque]

/-- The workers after one of them moved, in a quiet step; before it the queues may have changed. -/
theorem control_or_ok {s s₁ : State n m τ} {w : Fin n} {g : Worker n m τ → Worker n m τ}
    (hs₁ : ∀ x, (s₁.worker x).control = (s.worker x).control) (hpc : (s.worker w).pc ≠ .fastRun)
    (hok : (g (s₁.worker w)).Ok attr s.assignedFiber) (x : Fin n) :
    ((s₁.modifyWorker w g).worker x).control = (s.worker x).control ∨
      (s.worker x).pc ≠ .fastRun ∧ ((s₁.modifyWorker w g).worker x).Ok attr s.assignedFiber := by
  by_cases hx : x = w
  · subst hx
    refine .inr ⟨hpc, ?_⟩
    simpa only [State.modifyWorker, Function.update_self] using hok
  · refine .inl ?_
    simp only [State.modifyWorker, Function.update_of_ne hx, hs₁]

end

section
variable {n m : ℕ} {τ : Type} {attr attr' : Attr τ} {s s' : State n m τ}

/-- A step that leaves every worker where it stands and changes neither fibers nor calls. -/
theorem Quiet.of_control (hfiber : s'.fiber = s.fiber) (hfree : s'.freeFibers = s.freeFibers)
    (hassigned : s'.assignedFiber = s.assignedFiber) (hfreed : s'.freed = s.freed)
    (hstarted : s'.started = s.started) (hcalls : s'.calls = s.calls)
    (hcontrol : ∀ w, (s'.worker w).control = (s.worker w).control) : Quiet attr s s' :=
  ⟨fun f => by rw [hfiber]; exact ⟨rfl, rfl⟩, fun f _ hf => by rwa [hfiber] at hf, hfree, hassigned,
    hfreed, hstarted, fun t => by rw [hcalls], fun w => .inl (hcontrol w)⟩

variable [DecidableEq τ]

/-- Of the fields of the tasks the invariant depends on `fastJob` only. -/
theorem Inv.of_fastJob (h : Inv attr s) (hfast : attr'.fastJob = attr.fastJob) : Inv attr' s where
  refs := h.refs
  free := h.free
  assigned := by rw [hfast]; exact h.assigned
  worker w := by
    have := h.worker w
    unfold Worker.Ok at this ⊢
    rw [hfast]
    exact this
  helping := by rw [hfast]; exact h.helping
  started := h.started

end

section
variable {n m : ℕ} {τ : Type} [DecidableEq τ] {attr : Attr τ} {s s' : State n m τ} {v w : Fin n}
  {t u : τ} {c : Choice n m}

/-- A quiet step keeps the invariant when the references stay bounded. -/
theorem Inv.of_quiet (h : Inv attr s) (hq : Quiet attr s s')
    (hrefs : ∀ t, s'.refs t + (s'.freed t).toNat ≤ (s'.submitted t).toNat) : Inv attr s' where
  refs := hrefs
  free := by
    rw [hq.free]
    exact ⟨h.free.1, fun f hf hs => h.free.2 f hf (hq.status f hf hs)⟩
  assigned t f hf := by
    rw [hq.assigned] at hf
    rw [(hq.fiber f).1, hq.free]
    exact h.assigned t f hf
  worker w := by
    rw [hq.assigned]
    rcases hq.worker w with heq | ⟨-, hok⟩
    · exact (h.worker w).congr heq fun _ _ => rfl
    · exact hok
  helping t ht := h.helping t ((hq.helping t).1 ht)
  started t := by
    rw [hq.started]
    refine (h.started t).imp_right fun ⟨h₁, hb⟩ => ⟨h₁, ?_⟩
    unfold Begun at hb ⊢
    rw [hq.freed, hq.assigned]
    refine hb.imp_right (Or.imp (fun ⟨f, hf, he⟩ => ⟨f, hf, ?_⟩)
      (Or.imp (fun ⟨w, hw⟩ => ⟨w, ?_⟩) (hq.helping t).2))
    · rw [(hq.fiber f).2, he]
    · rcases hq.worker w with heq | ⟨hpc, -⟩
      · rw [heq, hw]
      · exact absurd (congrArg Prod.fst hw) hpc

/-- A quiet step that conserves the references keeps the invariant. -/
theorem Inv.quiet (h : Inv attr s) (hq : Quiet attr s s') (hc : Conserves s s') : Inv attr s' := by
  refine h.of_quiet hq fun t => ?_
  have := h.refs t
  have := hc t
  omega

/-- A task has at most one reference, and none when it is freed. -/
theorem Inv.refs_le (h : Inv attr s) (t : τ) : s.refs t + (s.freed t).toNat ≤ 1 :=
  (h.refs t).trans (Bool.toNat_le _)

theorem Worker.one_le_refs {wk : Worker n m τ} (hu : wk.taskToRun = some u) : 1 ≤ wk.refs u := by
  simp only [Worker.refs, Worker.places, refersTo, hu, if_true]
  omega

/-- A task that a worker has is with no other worker, not freed and with no helper. -/
theorem Inv.only_worker (h : Inv attr s) (hu : (s.worker w).taskToRun = some u) :
    (∀ v, (s.worker v).taskToRun = some u → v = w) ∧ s.freed u = false ∧
      .helping u ∉ s.calls := by
  have hone := h.refs_le u
  have hw := Worker.one_le_refs hu
  unfold State.refs at hone
  refine ⟨fun v hv => ?_, ?_, fun hmem => ?_⟩
  · by_contra hne
    have := Worker.one_le_refs hv
    have := Sums.pair_le (φ := Worker.refs u) (f := s.worker) hne
    omega
  · have := Sums.single_le (φ := Worker.refs u) (f := s.worker) w
    cases hf : s.freed u with
    | false => rfl
    | true =>
      rw [hf, Bool.toNat_true] at hone
      omega
  · have h₁ := Sums.single_le (φ := Worker.refs u) (f := s.worker) w
    have h₂ := Sums.le_map (φ := Call.refs u) hmem
    simp only [Call.refs, if_true] at h₂
    omega

/-- A worker whose place is about a fiber has the task that owns it. -/
theorem Inv.owner (h : Inv attr s) (hu : (s.worker w).taskToRun = some u) {f : Fin m}
    (hf : (s.worker w).pc.fiber = some f) :
    s.assignedFiber u = some f ∧ (s.fiber f).owningTask = some u ∧ f ∉ s.freeFibers := by
  have hok := h.worker w
  have ha : s.assignedFiber u = some f := by
    unfold Worker.Ok at hok
    grind [Pc.fiber]
  exact ⟨ha, (h.assigned u f ha).1, (h.assigned u f ha).2.1⟩

/-- A section that only moves the worker and assigns the status of its fiber is quiet. -/
theorem Quiet.status_modifyWorker (h : Inv attr s) (hu : (s.worker w).taskToRun = some u)
    {f : Fin m} (hf : (s.worker w).pc.fiber = some f) (v : FiberStatus)
    {g : Worker n m τ → Worker n m τ} (hok : (g (s.worker w)).Ok attr s.assignedFiber) :
    Quiet attr s ((s.modifyFiber f fun fd => { fd with status := v }).modifyWorker w g) := by
  have hne : (s.worker w).pc ≠ .fastRun := by
    intro hpc
    rw [hpc] at hf
    cases hf
  refine ⟨fun f' => ?_, fun f' hf' => ?_, rfl, rfl, rfl, rfl, fun _ => Iff.rfl,
    control_or_ok (fun _ => rfl) hne hok⟩
  · by_cases hff : f' = f
    · subst hff
      simp [State.modifyWorker, State.modifyFiber]
    · simp [State.modifyWorker, State.modifyFiber, hff]
  · have hff : f' ≠ f := fun heq => (h.owner hu hf).2.2 (heq ▸ hf')
    simp only [State.modifyWorker, State.modifyFiber, Function.update_of_ne hff]
    exact id

/-- The sections that start or free no task, and neither bind nor release a fiber, are quiet. -/
theorem Inv.runStep_quiet (h : Inv attr s) (hu : (s.worker w).taskToRun = some u)
    (hs : runStep attr s w u c = some s') :
    Quiet attr s s' ∨ (s.worker w).pc = .fast ∨ (s.worker w).pc = .fastRun ∨
      (∃ f, (s.worker w).pc = .acquire ∧ c = .acquire (some f)) ∨
      (∃ f, (s.worker w).pc = .switch f) ∨ ∃ f, (s.worker w).pc = .back f .dead := by
  revert hs
  fun_cases runStep attr s w u c with
  | case1 hpc => exact fun _ => .inr (.inl hpc)
  | case2 hpc => exact fun _ => .inr (.inr (.inl hpc))
  | case3 hpc =>
    rintro ⟨⟩
    refine .inl ⟨fun _ => ⟨rfl, rfl⟩, fun _ _ => id, rfl, rfl, rfl, rfl, fun _ => Iff.rfl,
      control_or_ok (fun _ => rfl) (by simp [hpc]) ?_⟩
    unfold Worker.handBack
    split <;> trivial
  | case4 f hpc hf => exact fun _ => .inr (.inr (.inr (.inl ⟨f, hpc, rfl⟩)))
  | case5 => simp
  | case6 f hpc s₁ => exact fun _ => .inr (.inr (.inr (.inr (.inl ⟨f, hpc⟩))))
  | case7 f v hpc hv =>
    rintro ⟨⟩
    have hf : (s.worker w).pc.fiber = some f := by simp [hpc, Pc.fiber]
    exact .inl (Quiet.status_modifyWorker h hu hf v ⟨u, hu, (h.owner hu hf).1⟩)
  | case8 => simp
  | case9 f hpc => exact fun _ => .inr (.inr (.inr (.inr (.inr ⟨f, hpc⟩))))
  | case10 f hpc =>
    rintro ⟨⟩
    exact .inl ⟨fun _ => ⟨rfl, rfl⟩, fun _ _ => id, rfl, rfl, rfl, rfl, fun _ => Iff.rfl,
      control_or_ok (fun _ => rfl) (by simp [hpc]) trivial⟩
  | case11 f v hpc =>
    intro hs
    obtain ⟨s₁, hs₁, rfl⟩ := Option.map_eq_some_iff.1 hs
    obtain ⟨-, rfl⟩ := State.requeue_eq_some.1 hs₁
    exact .inl ⟨fun _ => ⟨rfl, rfl⟩, fun _ _ => id, rfl, rfl, rfl, rfl, fun _ => Iff.rfl,
      control_or_ok (s.control_enqueue v _ u) (by simp [hpc]) trivial⟩
  | case12 => simp
  | case13 f pc _ _ _ hpc v pc' hafter =>
    rintro ⟨⟩
    have hf : (s.worker w).pc.fiber = some f := by simp [hpc, Pc.fiber]
    refine .inl (Quiet.status_modifyWorker h hu hf v ?_)
    cases pc' with
    | none => trivial
    | some pc' => exact ⟨u, hu, (h.owner hu hf).1⟩
  | case14 => simp

/-- A task that has not begun was not started. -/
theorem Inv.started_of_not_begun (h : Inv attr s) (hb : ¬ Begun s u) : s.started u = 0 :=
  (h.started u).resolve_right fun h => hb h.2

/-- The rule for the sections that start or free a task, or bind or release a fiber: worker `w`
moves on with its task `u`, and what concerns other tasks stays. -/
theorem Inv.runMove (h : Inv attr s) (hu : (s.worker w).taskToRun = some u) (hc : Conserves s s')
    (hfree : s'.freeFibers.Nodup ∧ ∀ f ∈ s'.freeFibers, (s'.fiber f).status ≠ .suspended)
    (hassigned : ∀ t, t ≠ u → s'.assignedFiber t = s.assignedFiber t)
    (hother : ∀ f, s.assignedFiber u ≠ some f → f ∉ s.freeFibers →
      f ∉ s'.freeFibers ∧ (s'.fiber f).owningTask = (s.fiber f).owningTask ∧
        (s'.fiber f).entered = (s.fiber f).entered)
    (hu' : ∀ f, s'.assignedFiber u = some f → (s'.fiber f).owningTask = some u ∧
      f ∉ s'.freeFibers ∧ attr.fastJob u = false)
    (hworker : ∀ x, x ≠ w → (s'.worker x).control = (s.worker x).control)
    (hok : (s'.worker w).Ok attr s'.assignedFiber) (hcalls : s'.calls = s.calls)
    (hfreed : ∀ t, t ≠ u → s'.freed t = s.freed t)
    (hstarted : ∀ t, t ≠ u → s'.started t = s.started t)
    (hbegun : s'.started u = 0 ∨ s'.started u = 1 ∧ Begun s' u) : Inv attr s' where
  refs t := by
    have := h.refs t
    have := hc t
    omega
  free := hfree
  assigned t f hf := by
    by_cases htu : t = u
    · subst htu; exact hu' f hf
    · rw [hassigned t htu] at hf
      obtain ⟨ho, hnf, hfast⟩ := h.assigned t f hf
      have hne : s.assignedFiber u ≠ some f := fun hu => by
        have := (h.assigned u f hu).1
        rw [ho] at this
        exact htu (Option.some.inj this)
      obtain ⟨h₁, h₂, -⟩ := hother f hne hnf
      exact ⟨h₂.trans ho, h₁, hfast⟩
  worker x := by
    by_cases hx : x = w
    · subst hx; exact hok
    · refine (h.worker x).congr (hworker x hx) fun t ht => hassigned t fun htu => hx ?_
      exact (h.only_worker hu).1 x (htu ▸ ht)
  helping t ht := h.helping t (hcalls ▸ ht)
  started t := by
    by_cases htu : t = u
    · subst htu; exact hbegun
    · rw [hstarted t htu]
      refine (h.started t).imp_right fun ⟨h₁, hb⟩ => ⟨h₁, ?_⟩
      unfold Begun at hb ⊢
      rw [hfreed t htu, hassigned t htu, hcalls]
      refine hb.imp_right (Or.imp (fun ⟨f, hf, he⟩ => ⟨f, hf, ?_⟩)
        (Or.imp_left fun ⟨x, hx⟩ => ⟨x, ?_⟩))
      · obtain ⟨ho, hnf, -⟩ := h.assigned t f hf
        have hne : s.assignedFiber u ≠ some f := fun hu => by
          have := (h.assigned u f hu).1
          rw [ho] at this
          exact htu (Option.some.inj this)
        rw [(hother f hne hnf).2.2, he]
      · have hxw : x ≠ w := by
          rintro rfl
          have := congrArg Prod.snd hx
          rw [Worker.control, hu] at this
          exact htu (Option.some.inj this).symm
        rw [hworker x hxw, hx]

/-- The fiber of a task that a worker has is not suspended. -/
theorem Inv.not_suspended (h : Inv attr s) (hu : (s.worker w).taskToRun = some u) {f : Fin m}
    (hf : (s.fiber f).owningTask = some u) : (s.fiber f).status ≠ .suspended := by
  intro hs
  have hone := h.refs_le u
  have hw := Worker.one_le_refs hu
  have h₁ := Sums.single_le (φ := Worker.refs u) (f := s.worker) w
  have h₂ := Sums.single_le (φ := FiberData.parked u) (f := s.fiber) f
  have h₃ : (s.fiber f).parked u = 1 := by
    simp only [FiberData.parked, hs, hf, refersTo, if_true]
  unfold State.refs at hone
  omega

/-- A task that a worker is about to run, and whose fiber was not entered, has not begun. -/
theorem Inv.not_begun (h : Inv attr s) (hu : (s.worker w).taskToRun = some u)
    (hpc : (s.worker w).pc ≠ .fastRun)
    (hf : ∀ f, s.assignedFiber u = some f → (s.fiber f).entered = false) : ¬ Begun s u := by
  obtain ⟨hunique, hfreed, hhelp⟩ := h.only_worker hu
  rintro (hb | ⟨f, hb, he⟩ | ⟨x, hx⟩ | hb)
  · rw [hfreed] at hb; cases hb
  · rw [hf f hb] at he; cases he
  · obtain rfl := hunique x (congrArg Prod.snd hx)
    exact hpc (congrArg Prod.fst hx)
  · exact hhelp hb

/-- The sections that run `task_to_run` keep the invariant. -/
theorem Inv.runStep (h : Inv attr s) (hu : (s.worker w).taskToRun = some u)
    (hs : Thread.runStep attr s w u c = some s') (hc : Conserves s s') : Inv attr s' := by
  have hok := h.worker w
  rcases h.runStep_quiet hu hs with hq | hpc | hpc | ⟨f, hpc, rfl⟩ | ⟨f, hpc⟩ | ⟨f, hpc⟩
  · exact h.quiet hq hc
  · -- a fast job begins
    unfold Thread.runStep at hs
    rw [hpc] at hs
    cases c <;> cases hs
    unfold Worker.Ok at hok
    rw [hpc] at hok
    have hfast : attr.fastJob u = true := by grind
    have hnone : ∀ f, s.assignedFiber u ≠ some f := fun f hf => by
      have := (h.assigned u f hf).2.2
      rw [hfast] at this
      cases this
    refine h.runMove hu hc h.free (fun _ _ => rfl) (fun _ _ hf => ⟨hf, rfl, rfl⟩)
      (fun f hf => absurd hf (hnone f)) (fun x hx => State.control_modifyWorker_of_ne hx) ?_ rfl
      (fun _ _ => rfl) (fun t ht => Function.update_of_ne ht _ _)
      (.inr ⟨?_, .inr (.inr (.inl ⟨w, ?_⟩))⟩)
    · rw [State.worker_modifyWorker]
      exact ⟨u, hu, hfast⟩
    · have := h.started_of_not_begun
        (h.not_begun hu (by simp [hpc]) fun f hf => absurd hf (hnone f))
      simp [State.modifyWorker, State.start, this]
    · rw [State.worker_modifyWorker]
      exact Prod.ext rfl hu
  · -- a fast job ends
    unfold Thread.runStep at hs
    rw [hpc] at hs
    cases c <;> cases hs
    unfold Worker.Ok at hok
    rw [hpc] at hok
    have hfast : attr.fastJob u = true := by grind
    refine h.runMove hu hc h.free (fun _ _ => rfl) (fun _ _ hf => ⟨hf, rfl, rfl⟩)
      (fun f hf => h.assigned u f hf) (fun x hx => State.control_modifyWorker_of_ne hx) ?_ rfl
      (fun t ht => Function.update_of_ne ht _ _) (fun _ _ => rfl)
      ((h.started u).imp_right fun hb => ⟨hb.1, .inl ?_⟩)
    · rw [State.worker_modifyWorker]
      trivial
    · exact Function.update_self _ _ _
  · -- a fiber is bound
    unfold Thread.runStep at hs
    rw [hpc] at hs
    simp only [Option.ite_none_right_eq_some, Option.some.injEq] at hs
    obtain ⟨hf, rfl⟩ := hs
    unfold Worker.Ok at hok
    rw [hpc] at hok
    obtain ⟨hfast, hnone⟩ : attr.fastJob u = false ∧ s.assignedFiber u = none := by grind
    have hstart := h.started_of_not_begun (h.not_begun hu (by simp [hpc]) (by simp [hnone]))
    refine h.runMove hu hc ⟨h.free.1.erase f, fun f' hf' => ?_⟩
      (fun t ht => Function.update_of_ne ht _ _) (fun f' _ hf' => ?_) (fun f' hf' => ?_)
      (fun x hx => State.control_modifyWorker_of_ne hx) ?_ rfl (fun _ _ => rfl) (fun _ _ => rfl)
      (.inl hstart)
    · have hne : f' ≠ f := fun heq => by
        subst heq
        exact (List.Nodup.mem_erase_iff h.free.1).1 hf' |>.1 rfl
      have := h.free.2 f' (List.mem_of_mem_erase hf')
      simpa [State.modifyWorker, State.bindFiber, State.modifyFiber, hne] using this
    · have hne : f' ≠ f := fun heq => hf' (heq ▸ hf)
      refine ⟨fun hmem => hf' (List.mem_of_mem_erase hmem), ?_⟩
      simp [State.modifyWorker, State.bindFiber, State.modifyFiber, hne]
    · obtain rfl : f = f' := by
        simpa [State.modifyWorker, State.bindFiber] using hf'
      refine ⟨?_, fun hmem => ?_, hfast⟩
      · simp [State.modifyWorker, State.bindFiber, State.modifyFiber]
      · exact (List.Nodup.mem_erase_iff h.free.1).1 hmem |>.1 rfl
    · rw [State.worker_modifyWorker]
      exact ⟨u, hu, Function.update_self _ _ _⟩
  · -- the worker switches to the fiber
    obtain ⟨ha, ho, hnf⟩ := h.owner hu (f := f) (by simp [hpc, Pc.fiber])
    have hstarted : ∀ t, t ≠ u → (if (s.fiber f).entered then s else s.start u).started t =
        s.started t := by
      intro t ht
      split
      · rfl
      · exact Function.update_of_ne ht _ _
    have hstart : (if (s.fiber f).entered then s else s.start u).started u = 0 ∨
        (if (s.fiber f).entered then s else s.start u).started u = 1 := by
      split
      next => exact (h.started u).imp_right And.left
      next he =>
        have := h.started_of_not_begun (h.not_begun hu (by simp [hpc]) (by grind))
        exact .inr (by simp [State.start, this])
    unfold Thread.runStep at hs
    rw [hpc] at hs
    cases c <;> cases hs
    have hs₁ : (if (s.fiber f).entered then s else s.start u) =
        { s with started := (if (s.fiber f).entered then s else s.start u).started } := by
      split <;> rfl
    rw [hs₁] at hc ⊢
    refine h.runMove hu hc ⟨h.free.1, fun f' hf' => ?_⟩ (fun _ _ => rfl)
      (fun f' hne hf' => ⟨hf', ?_⟩)
      (fun f' hf' => ?_) (fun x hx => State.control_modifyWorker_of_ne hx) ?_ rfl (fun _ _ => rfl)
      hstarted (hstart.imp_right fun hb => ⟨hb, .inr (.inl ⟨f, ha, ?_⟩)⟩)
    · have hne : f' ≠ f := fun heq => hnf (heq ▸ hf')
      have := h.free.2 f' hf'
      simpa [State.modifyWorker, State.modifyFiber, hne] using this
    · have hne' : f' ≠ f := fun heq => hne (heq ▸ ha)
      simp [State.modifyWorker, State.modifyFiber, hne']
    · obtain rfl : f = f' := Option.some.inj (ha.symm.trans hf')
      refine ⟨?_, hnf, (h.assigned u f ha).2.2⟩
      simpa [State.modifyWorker, State.modifyFiber] using ho
    · rw [State.worker_modifyWorker]
      exact ⟨u, hu, ha⟩
    · simp [State.modifyWorker, State.modifyFiber]
  · -- a task on a fiber ends
    obtain ⟨ha, ho, hnf⟩ := h.owner hu (f := f) (by simp [hpc, Pc.fiber])
    have hns := h.not_suspended hu ho
    unfold Thread.runStep at hs
    rw [hpc] at hs
    cases c <;> cases hs
    refine h.runMove hu hc ⟨List.nodup_cons.2 ⟨hnf, h.free.1⟩, fun f' hf' => ?_⟩
      (fun t ht => Function.update_of_ne ht _ _) (fun f' hne hf' => ⟨fun hmem => ?_, rfl, rfl⟩)
      (fun f' hf' => ?_) (fun x hx => State.control_modifyWorker_of_ne hx) ?_ rfl
      (fun t ht => Function.update_of_ne ht _ _) (fun _ _ => rfl)
      ((h.started u).imp_right fun hb => ⟨hb.1, .inl ?_⟩)
    · rcases List.mem_cons.1 hf' with rfl | hf'
      · exact hns
      · exact h.free.2 f' hf'
    · rcases List.mem_cons.1 hmem with rfl | hmem
      · exact hne ha
      · exact hf' hmem
    · simp [State.modifyWorker, State.releaseFiber] at hf'
    · rw [State.worker_modifyWorker]
      trivial
    · exact Function.update_self _ _ _

/-- A step of a worker keeps the invariant, unless it hands the task back. -/
theorem Inv.workerStep (h : Inv attr s) (hs : Thread.workerStep attr s w c = some s')
    (hc : Conserves s s') : Inv attr s' := by
  rcases workerStep_cases hs with ⟨hi, v, u, rest, hpc, -, rfl⟩ | ⟨hi, ws, pc, hpc, hpc', rfl⟩ |
    ⟨hi, ws, v, hpc, hsteal⟩ | ⟨wk, hwk, rfl⟩ | ⟨u, hu, hrun⟩
  · refine h.quiet ⟨fun _ => ⟨rfl, rfl⟩, fun _ _ => id, rfl, rfl, rfl, rfl, fun _ => Iff.rfl,
      fun x => .inl ?_⟩ hc
    rw [State.control_modifyWorker (g := fun wk => { wk with batch := rest }) rfl,
      State.control_enqueue]
  · refine h.quiet ⟨fun _ => ⟨rfl, rfl⟩, fun _ _ => id, rfl, rfl, rfl, rfl, fun _ => Iff.rfl,
      control_or_ok (fun _ => rfl) (by simp [hpc]) ?_⟩ hc
    rcases hpc' with rfl | ⟨hi', ws', rfl⟩ <;> trivial
  · unfold State.stealFrom at hsteal
    split at hsteal
    next u rest hdeque =>
      cases hsteal
      exact h.quiet ⟨fun _ => ⟨rfl, rfl⟩, fun _ _ => id, rfl, rfl, rfl, rfl, fun _ => Iff.rfl,
        control_or_ok (State.control_modifyWorker (g := fun wk => wk.setDeque hi rest) (by simp))
          (by simp [hpc]) trivial⟩ hc
    next => cases hsteal
  · obtain ⟨hpc, hok⟩ := (h.worker w).localStep hwk
    exact h.quiet ⟨fun _ => ⟨rfl, rfl⟩, fun _ _ => id, rfl, rfl, rfl, rfl, fun _ => Iff.rfl,
      control_or_ok (fun _ => rfl) hpc hok⟩ hc
  · exact h.runStep hu hrun hc

/-- A step of a call that neither begins nor ends the `Execute` of a helper is quiet. -/
theorem callStep_quiet {j : ℕ} {target : Fin n} {k k' : Call n m τ} {s₁ : State n m τ}
    (hk : s.calls[j]? = some k) (hs : callStep attr s target k = some (s₁, k')) :
    Quiet attr s { s₁ with calls := s₁.calls.set j k' } ∨
      ∃ u, k = .stolen u ∧ k' = .helping u ∧ attr.fastJob u = true ∧ s₁ = s.start u ∨
        k = .helping u ∧ k' = .done ∧ s₁ = s.free u := by
  have hcalls : (∀ u, k ≠ .helping u) → (∀ u, k' ≠ .helping u) → ∀ t,
      .helping t ∈ s.calls.set j k' ↔ .helping t ∈ s.calls := by
    intro h₁ h₂ t
    exact Update.mem_set_iff hk (h₁ t).symm (h₂ t).symm
  cases k with
  | done => cases hs
  | pushImmediate u w pc =>
    left
    cases pc with
    | loadFlag =>
      simp only [callStep] at hs
      split at hs <;> cases hs <;>
        exact ⟨fun _ => ⟨rfl, rfl⟩, fun _ _ => id, rfl, rfl, rfl, rfl, hcalls (by simp) (by simp),
          fun _ => .inl rfl⟩
    | storeFlag =>
      cases hs
      exact ⟨fun _ => ⟨rfl, rfl⟩, fun _ _ => id, rfl, rfl, rfl, rfl, hcalls (by simp) (by simp),
        fun x => .inl (State.control_modifyWorker (g := fun wk =>
          { wk with immediateCoreInUse := true }) rfl x)⟩
    | storeSlot =>
      cases hs
      exact ⟨fun _ => ⟨rfl, rfl⟩, fun _ _ => id, rfl, rfl, rfl, rfl, hcalls (by simp) (by simp),
        fun x => .inl (State.control_modifyWorker (g := fun wk =>
          { wk with immediateTask := some u, immediate := true }) rfl x)⟩
  | resume f pc =>
    left
    rcases hres : resume pc (s.fiber f).status with ⟨v, pc'⟩
    simp only [callStep, hres, Option.some.injEq, Prod.mk.injEq] at hs
    obtain ⟨rfl, rfl⟩ := hs
    refine ⟨fun f' => ?_, fun f' _ => ?_, rfl, rfl, rfl, rfl, hcalls (by simp) ?_,
      fun _ => .inl rfl⟩
    · by_cases hf : f' = f
      · subst hf
        simp [State.modifyFiber]
      · simp [State.modifyFiber, hf]
    · by_cases hf : f' = f
      · subst hf
        simpa [State.modifyFiber] using (resume_status hres).1
      · simp [State.modifyFiber, hf]
    · intro u
      split
      · cases (s.fiber f).owningTask <;> simp
      · simp
      · simp
  | requeue u =>
    left
    obtain ⟨s₂, hs₂, heq⟩ := Option.map_eq_some_iff.1 hs
    cases heq
    obtain ⟨-, rfl⟩ := State.requeue_eq_some.1 hs₂
    exact ⟨fun _ => ⟨rfl, rfl⟩, fun _ _ => id, rfl, rfl, rfl, rfl, hcalls (by simp) (by simp),
      fun x => .inl (s.control_enqueue target _ u x)⟩
  | stolen u =>
    simp only [callStep] at hs
    split at hs
    next hfast =>
      cases hs
      exact .inr ⟨u, .inl ⟨rfl, rfl, hfast, rfl⟩⟩
    next =>
      cases hs
      exact .inl ⟨fun _ => ⟨rfl, rfl⟩, fun _ _ => id, rfl, rfl, rfl, rfl, hcalls (by simp)
        (by simp), fun _ => .inl rfl⟩
  | helping u =>
    cases hs
    exact .inr ⟨u, .inr ⟨rfl, rfl, rfl⟩⟩

/-- A task that a call refers to is with no worker, not freed, and with no other call. -/
theorem Inv.only_call {j : ℕ} {k : Call n m τ} (h : Inv attr s) (hk : s.calls[j]? = some k)
    (hu : k.refs u = 1) : (∀ w, (s.worker w).taskToRun ≠ some u) ∧ s.freed u = false ∧
      ∀ k₁ ∈ s.calls, k₁ ≠ k → k₁.refs u = 0 := by
  have hone := h.refs_le u
  have hset := Sums.map_set (φ := Call.refs u) (b := .done) hk
  have hdone : (Call.done : Call n m τ).refs u = 0 := rfl
  unfold State.refs at hone
  refine ⟨fun w hw => ?_, ?_, fun k₁ hk₁ hne => ?_⟩
  · have := Worker.one_le_refs hw
    have := Sums.single_le (φ := Worker.refs u) (f := s.worker) w
    omega
  · cases hf : s.freed u with
    | false => rfl
    | true =>
      rw [hf, Bool.toNat_true] at hone
      omega
  · have := Sums.le_map (φ := Call.refs u) (Update.mem_set_of_mem (b := .done) hk hne hk₁)
    omega

/-- A step of a call keeps the invariant. -/
theorem Inv.callStep {j : ℕ} {target : Fin n} {k k' : Call n m τ} {s₁ : State n m τ}
    (h : Inv attr s) (hk : s.calls[j]? = some k)
    (hs : Thread.callStep attr s target k = some (s₁, k'))
    (hc : Conserves s { s₁ with calls := s₁.calls.set j k' }) :
    Inv attr { s₁ with calls := s₁.calls.set j k' } := by
  have hrefs : ∀ t, State.refs { s₁ with calls := s₁.calls.set j k' } t + (s₁.freed t).toNat ≤
      (s₁.submitted t).toNat := by
    intro t
    have h₁ := h.refs t
    have h₂ := hc t
    dsimp only at h₂
    omega
  rcases callStep_quiet hk hs with hq | ⟨u, ⟨rfl, rfl, hfast, rfl⟩ | ⟨rfl, rfl, rfl⟩⟩
  · exact h.quiet hq hc
  · -- a helper begins a fast job
    obtain ⟨hnw, hnf, hnc⟩ := h.only_call hk (u := u) (by simp [Call.refs])
    have hstart : s.started u = 0 := by
      refine h.started_of_not_begun ?_
      rintro (hb | ⟨f, hb, -⟩ | ⟨x, hx⟩ | hb)
      · rw [hnf] at hb; cases hb
      · rw [(h.assigned u f hb).2.2] at hfast; cases hfast
      · exact hnw x (congrArg Prod.snd hx)
      · have := hnc _ hb (by simp)
        simp [Call.refs] at this
    refine ⟨hrefs, h.free, h.assigned, h.worker, fun t ht => ?_, fun t => ?_⟩
    · rcases List.mem_or_eq_of_mem_set ht with ht | ht
      · exact h.helping t ht
      · cases ht; exact hfast
    · by_cases htu : t = u
      · subst htu
        refine .inr ⟨by simp [State.start, hstart], .inr (.inr (.inr ?_))⟩
        exact List.mem_iff_getElem?.2 ⟨j, List.getElem?_set_self (List.getElem?_eq_some_iff.1 hk).1⟩
      · rcases h.started t with h₀ | ⟨h₁, hb⟩
        · exact .inl (by simpa [State.start, htu] using h₀)
        · refine .inr ⟨by simpa [State.start, htu] using h₁, ?_⟩
          refine hb.imp_right (Or.imp_right (Or.imp_right fun hmem => ?_))
          exact Update.mem_set_of_mem hk (by simp) hmem
  · -- a helper ends a fast job
    refine ⟨hrefs, h.free, h.assigned, h.worker, fun t ht => ?_, fun t => ?_⟩
    · rcases List.mem_or_eq_of_mem_set ht with ht | ht
      · exact h.helping t ht
      · cases ht
    · rcases h.started t with h₀ | ⟨h₁, hb⟩
      · exact .inl h₀
      refine .inr ⟨h₁, ?_⟩
      by_cases htu : t = u
      · subst htu
        exact .inl (Function.update_self _ _ _)
      · refine hb.imp ?_ (Or.imp_right (Or.imp_right fun hmem => ?_))
        · simp [State.free, htu]
        · exact Update.mem_set_of_mem hk (by simpa using htu) hmem

/-- From a state with the invariant a step conserves the references, unless it hands a task back. -/
theorem Inv.conserves {a : Act n m τ} (h : Inv attr s) (hgood : handsBack s a = false)
    (hs : Thread.step attr s a = some s') : Conserves s s' :=
  step_conserves hs h.free.2 (fun _ _ hu _ hf => (h.owner hu (by simpa using hf)).2.1) hgood

/-- Every step keeps the invariant, unless it hands a task back. -/
theorem Inv.step {a : Act n m τ} (h : Inv attr s) (hgood : handsBack s a = false)
    (hs : Thread.step attr s a = some s') : Inv attr s' := by
  have hc := h.conserves hgood hs
  cases a with
  | worker w c => exact h.workerStep hs hc
  | join w =>
    cases hs
    exact h.quiet ⟨fun _ => ⟨rfl, rfl⟩, fun _ _ => id, rfl, rfl, rfl, rfl, fun _ => Iff.rfl,
      fun x => .inl
        (State.control_modifyWorker (g := fun wk => { wk with running := false }) rfl x)⟩
      hc
  | pause b =>
    cases hs
    exact h.quiet ⟨fun _ => ⟨rfl, rfl⟩, fun _ _ => id, rfl, rfl, rfl, rfl, fun _ => Iff.rfl,
      fun x => .inl rfl⟩ hc
  | push u cpuaffinity target =>
    simp only [Thread.step] at hs
    split at hs
    · cases hs
    · split at hs
      · split at hs <;> cases hs
        · exact h.quiet ⟨fun _ => ⟨rfl, rfl⟩, fun _ _ => id, rfl, rfl, rfl, rfl, fun _ => Iff.rfl,
            fun x => .inl rfl⟩ hc
        · exact h.quiet ⟨fun _ => ⟨rfl, rfl⟩, fun _ _ => id, rfl, rfl, rfl, rfl, fun _ => Iff.rfl,
            fun x => .inl (State.control_enqueue _ _ _ _ x)⟩ hc
      · obtain ⟨-, rfl⟩ := State.requeue_eq_some.1 hs
        exact h.quiet ⟨fun _ => ⟨rfl, rfl⟩, fun _ _ => id, rfl, rfl, rfl, rfl, fun _ => Iff.rfl,
          fun x => .inl (State.control_enqueue _ _ _ _ x)⟩ hc
  | pushImmediate u coreId =>
    simp only [Thread.step] at hs
    split at hs
    · cases hs
    · split at hs <;> cases hs <;>
        exact h.quiet ⟨fun _ => ⟨rfl, rfl⟩, fun _ _ => id, rfl, rfl, rfl, rfl, by simp,
          fun x => .inl rfl⟩ hc
  | resume f =>
    cases hs
    exact h.quiet ⟨fun _ => ⟨rfl, rfl⟩, fun _ _ => id, rfl, rfl, rfl, rfl, by simp,
      fun x => .inl rfl⟩ hc
  | help w hi =>
    simp only [Thread.step] at hs
    split at hs
    next u rest hdeque =>
      cases hs
      exact h.quiet ⟨fun _ => ⟨rfl, rfl⟩, fun _ _ => id, rfl, rfl, rfl, rfl, by simp,
        fun x => .inl
          (State.control_modifyWorker (g := fun wk => wk.setDeque hi rest) (by simp) x)⟩ hc
    next => cases hs
  | call j target =>
    obtain ⟨k, hk, hs⟩ := Option.bind_eq_some_iff.1 hs
    obtain ⟨⟨s₁, k'⟩, hcall, rfl⟩ := Option.map_eq_some_iff.1 hs
    exact h.callStep hk hcall hc

/-- The invariant holds at the start. -/
theorem Inv.init : Inv attr (State.init : State n m τ) where
  refs t := by
    simp [State.init, State.refs, Worker.refs, Worker.places, refersTo, FiberData.parked]
  free := ⟨List.nodup_finRange m, fun f _ => nofun⟩
  assigned := nofun
  worker _ := trivial
  helping := nofun
  started _ := .inl rfl

/-- Every task is in at most one place, its `Execute` was started at most once, and a freed task is
in no place. -/
def OnePlace (s : State n m τ) : Prop :=
  ∀ t, s.places t ≤ 1 ∧ s.started t ≤ 1 ∧ (s.freed t = true → s.places t = 0)

theorem Inv.onePlace (h : Inv attr s) : OnePlace s := by
  intro t
  have h₁ := h.refs_le t
  have h₂ := s.places_le_refs t
  refine ⟨by omega, ?_, fun hf => ?_⟩
  · rcases h.started t with h | h <;> omega
  · rw [hf, Bool.toNat_true] at h₁
    omega

/-- A task that is handed back is in two places. -/
theorem not_onePlace_of_handsBack {a : Act n m τ} (hs : step attr s a = some s')
    (hbad : handsBack s a = true) : ¬ OnePlace s' := by
  obtain ⟨w, rfl, hpc, hback⟩ : ∃ w, a = .worker w (.acquire none) ∧ (s.worker w).pc = .acquire ∧
      ((s.worker w).isHandlingFork = true ∨ (s.worker w).loPri.length < capacity) := by
    unfold handsBack at hbad
    split at hbad
    next w => exact ⟨w, rfl, of_decide_eq_true hbad⟩
    next => cases hbad
  have hlocal : (s.worker w).localStep attr s.assignedFiber s.paused (.acquire none) = none := by
    simp only [Worker.localStep, hpc]
  simp only [step, workerStep, hpc, hlocal, Option.bind_eq_some_iff] at hs
  obtain ⟨u, hu, hs⟩ := hs
  simp only [runStep, hpc, Option.some.injEq] at hs
  subst hs
  intro hone
  have hle := (hone u).1
  have hsum := Sums.single_le (φ := Worker.places u)
    (f := State.worker (s.modifyWorker w fun wk => wk.handBack u)) w
  rw [State.worker_modifyWorker] at hsum
  have htwo := Worker.two_le_places_handBack hu hback
  unfold State.places at hle
  omega

/-- In a run of the worker loops every task is in one place in every state exactly when no step
hands a task back after a failed `AcquireFiber`. -/
theorem onePlace_iff {as : List (Act n m τ)} (hrun : Lts.run (step attr) State.init as = some s) :
    (∀ s' ∈ Lts.states (step attr) State.init as, OnePlace s') ↔
      ∀ p ∈ Lts.visits (step attr) State.init as, handsBack p.1 p.2 = false := by
  constructor
  · intro hall p hp
    refine Bool.eq_false_iff.2 fun hbad => ?_
    obtain ⟨s', hs'⟩ := Lts.exists_step_of_mem_visits hrun hp
    exact not_onePlace_of_handsBack hs' hbad (hall s' (Lts.mem_states_of_mem_visits hp hs'))
  · intro hgood s' hs'
    exact (Lts.states_inv_of (I := Inv attr) (fun h hg hstep => h.step hg hstep) Inv.init hgood s'
      hs').onePlace

end

/-- A worker takes the task that was pushed to its inbox. -/
def takesTask (w v : Fin 2) : List (Act 2 1 Unit) :=
  .push () 1 w :: [.go, .go, .go, .go, .probes [v], .wins true, .wins true, .go, .wins true,
    .wins true, .wins true, .go, .go].map (.worker w)

/-- It gets a fiber for the task and runs it to its end. -/
def runsTask (w v : Fin 2) (f : Fin 1) : List (Act 2 1 Unit) :=
  takesTask w v ++ [.acquire (some f), .go, .code .dead, .go, .go, .go].map (.worker w)

theorem onePlace_iff_runsTask : ∃ s : State 2 1 Unit,
    Lts.run (step ⟨fun _ => false, fun _ => false, fun _ => false⟩) State.init (runsTask 0 1 0) =
        some s ∧
      s.started () = 1 ∧ s.freed () = true ∧
      ∀ s' ∈ Lts.states (step ⟨fun _ => false, fun _ => false, fun _ => false⟩) State.init
        (runsTask 0 1 0), OnePlace s' := by
  refine ⟨(Lts.run _ _ (runsTask 0 1 0)).get (by decide), (Option.some_get _).symm, by decide,
    by decide, ?_⟩
  exact (onePlace_iff (Option.some_get (by decide)).symm).2 (by decide)

/-- It gets no fiber at first: the task goes to its deque and stays its `task_to_run`. It then gets
the fiber, runs the task to its end, and starts the freed task again from the deque. -/
def runsTaskTwice (w v : Fin 2) (f : Fin 1) : List (Act 2 1 Unit) :=
  takesTask w v ++ [.acquire none, .go, .acquire (some f), .go, .code .dead, .go, .go, .go, .go,
    .go, .go, .go, .acquire (some f), .go].map (.worker w)

theorem not_onePlace_runsTaskTwice : ¬ ∀ (n m : ℕ) (attr : Attr Unit) (as : List (Act n m Unit))
    (s : State n m Unit), Lts.run (step attr) State.init as = some s → OnePlace s := by
  intro hall
  have hrun := hall 2 1 ⟨fun _ => false, fun _ => false, fun _ => false⟩ (runsTaskTwice 0 1 0) _
    (Option.some_get (by decide)).symm ()
  exact absurd hrun.2.1 (by decide)

end JLibScheduler.Thread
