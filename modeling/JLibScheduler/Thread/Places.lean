import JLibScheduler.Lib.Sums
import JLibScheduler.Thread.Basic

/-!
# Where a task is

`State.places` counts the places of a task that a worker can take it from: entries of inboxes and
deques, immediate slots, `task_to_run` and suspended fibers. `State.refs` counts besides them the
references on the way between two places: in a batch that is being moved, and in a call of another
thread. A step moves references and makes none, except that a submission makes the first one; so
what a sum over all parties becomes is read off the one or two parties that a step changes.
-/

namespace JLibScheduler.Thread

open JLibScheduler.Fiber (SwitchPc ResumePc afterSwitch resume)

section
variable {n m : ℕ} {τ : Type} [DecidableEq τ]

/-- Whether an optional reference is to the task. -/
def refersTo (t : τ) (o : Option τ) : ℕ := if o = some t then 1 else 0

/-- How often the task is in a queue, the immediate slot or `task_to_run` of the worker. -/
def Worker.places (t : τ) (wk : Worker n m τ) : ℕ :=
  wk.hiPriInbox.count t + wk.loPriInbox.count t + wk.hiPri.count t + wk.loPri.count t +
    refersTo t wk.immediateTask + refersTo t wk.taskToRun

/-- The references of a worker to the task. -/
def Worker.refs (t : τ) (wk : Worker n m τ) : ℕ := wk.places t + wk.batch.count t

/-- Whether the task is parked on the fiber. -/
def FiberData.parked (t : τ) (fd : FiberData τ) : ℕ :=
  if fd.status = .suspended then refersTo t fd.owningTask else 0

/-- The references of a call to the task. -/
def Call.refs (t : τ) : Call n m τ → ℕ
  | .pushImmediate u _ _ | .requeue u | .stolen u | .helping u => if u = t then 1 else 0
  | .done | .resume _ _ => 0

/-- How many places the task is in. -/
def State.places (s : State n m τ) (t : τ) : ℕ :=
  ∑ w, (s.worker w).places t + ∑ f, (s.fiber f).parked t

/-- How many references to the task there are. -/
def State.refs (s : State n m τ) (t : τ) : ℕ :=
  ∑ w, (s.worker w).refs t + ∑ f, (s.fiber f).parked t + (s.calls.map (Call.refs t)).sum

variable {s : State n m τ} {t u : τ} {w : Fin n}

theorem State.places_le_refs (s : State n m τ) (t : τ) : s.places t ≤ s.refs t := by
  have : ∑ w, (s.worker w).places t ≤ ∑ w, (s.worker w).refs t :=
    Finset.sum_le_sum fun w _ => Nat.le_add_right _ _
  unfold State.places State.refs
  omega

/-! ## One party -/

/-- A pop by the owner takes the task out of the deque. -/
theorem Worker.refs_popBottom (wk : Worker n m τ) (hi : Bool) (next : Pc n m) :
    (wk.popBottom hi next).refs t ≤ wk.refs t := by
  unfold Worker.popBottom
  split
  next u h =>
    obtain ⟨l, hl⟩ := List.getLast?_eq_some_iff.1 h
    cases hi <;> grind [Worker.refs, Worker.places, Worker.setDeque, Worker.deque, refersTo]
  next => exact Nat.le_refl _

/-- A section that concerns the worker alone makes no reference. -/
theorem Worker.refs_localStep {attr : Attr τ} {assignedFiber : τ → Option (Fin m)} {paused : Bool}
    {wk wk' : Worker n m τ} {c : Choice n m}
    (h : wk.localStep attr assignedFiber paused c = some wk') : wk'.refs t ≤ wk.refs t := by
  revert h
  fun_cases Worker.localStep attr assignedFiber paused wk c <;>
    grind [Worker.refs, Worker.places, Worker.setInbox, Worker.inbox, Worker.setDeque, Worker.deque,
      refersTo, Worker.refs_popBottom, Worker.localStep.pushBatch]

/-- The end of the first section drops `task_to_run`. -/
theorem Worker.refs_endSection (wk : Worker n m τ) :
    wk.endSection.refs t + refersTo t wk.taskToRun = wk.refs t := by
  grind [Worker.refs, Worker.places, Worker.endSection, refersTo]

/-- `push_bottom` makes at most one reference. -/
theorem Worker.refs_pushBottom (wk : Worker n m τ) :
    (wk.pushBottom u).refs t ≤ wk.refs t + if u = t then 1 else 0 := by
  grind [Worker.refs, Worker.places, Worker.pushBottom]

/-- A task that is handed back is in two places. -/
theorem Worker.two_le_places_handBack {wk : Worker n m τ} (hu : wk.taskToRun = some u)
    (h : wk.isHandlingFork = true ∨ wk.loPri.length < capacity) : 2 ≤ (wk.handBack u).places u := by
  unfold Worker.handBack
  split
  next =>
    simp only [Worker.places, refersTo, hu, if_true]
    omega
  next hfork =>
    have hlen := h.resolve_left hfork
    simp only [Worker.pushBottom, if_pos hlen, Worker.places, refersTo, hu, if_true,
      List.count_append, List.count_singleton_self]
    omega

/-! ## All parties -/

theorem State.refs_modifyWorker (s : State n m τ) (w : Fin n) (g : Worker n m τ → Worker n m τ) :
    (s.modifyWorker w g).refs t + (s.worker w).refs t = s.refs t + (g (s.worker w)).refs t := by
  have := Sums.update (φ := Worker.refs t) s.worker w (g (s.worker w))
  simp only [State.refs, State.modifyWorker]
  omega

theorem State.refs_modifyFiber (s : State n m τ) (f : Fin m) (g : FiberData τ → FiberData τ) :
    (s.modifyFiber f g).refs t + (s.fiber f).parked t =
      s.refs t + (g (s.fiber f)).parked t := by
  have := Sums.update (φ := FiberData.parked t) s.fiber f (g (s.fiber f))
  simp only [State.refs, State.modifyFiber]
  omega

/-- A push to an inbox makes one reference. -/
theorem State.refs_enqueue (s : State n m τ) (w : Fin n) (hi : Bool) (u : τ) :
    (s.enqueue w hi u).refs t = s.refs t + if u = t then 1 else 0 := by
  have := s.refs_modifyWorker (t := t) w
    fun wk => { wk.setInbox hi (wk.inbox hi ++ [u]) with hasQueuedWork := true }
  rw [State.enqueue]
  cases hi <;> grind [Worker.refs, Worker.places, Worker.setInbox, Worker.inbox]

/-- A worker that keeps its references. -/
theorem State.refs_modifyWorker_eq {g : Worker n m τ → Worker n m τ}
    (h : (g (s.worker w)).refs t = (s.worker w).refs t) :
    (s.modifyWorker w g).refs t = s.refs t := by
  have := s.refs_modifyWorker (t := t) w g
  omega

/-- The references do not depend on where the worker stands. -/
theorem State.refs_setPc (s : State n m τ) (w : Fin n) (pc : Pc n m) :
    (s.modifyWorker w fun wk => { wk with pc := pc }).refs t = s.refs t :=
  State.refs_modifyWorker_eq rfl

/-- A worker that drops `a` references, or more. -/
theorem State.refs_modifyWorker_le {g : Worker n m τ → Worker n m τ} {a : ℕ}
    (h : (g (s.worker w)).refs t + a ≤ (s.worker w).refs t) :
    (s.modifyWorker w g).refs t + a ≤ s.refs t := by
  have := s.refs_modifyWorker (t := t) w g
  omega

theorem State.refs_modifyFiber_le {f : Fin m} {g : FiberData τ → FiberData τ}
    (h : (g (s.fiber f)).parked t ≤ (s.fiber f).parked t) :
    (s.modifyFiber f g).refs t ≤ s.refs t := by
  have := s.refs_modifyFiber (t := t) f g
  omega

/-- A fiber that is not suspended can be bound to a task. -/
theorem State.refs_bindFiber {f : Fin m} (hf : (s.fiber f).status ≠ .suspended) :
    (s.bindFiber u f).refs t = s.refs t := by
  have h := s.refs_modifyFiber (t := t) f fun fd =>
    { fd with owningTask := some u, entered := false }
  simp only [FiberData.parked, if_neg hf, Nat.add_zero] at h
  exact h

end

/-! ## Requeue -/

section
variable {n m : ℕ} {τ : Type} {attr : Attr τ} {s s' : State n m τ} {v : Fin n} {u : τ}

/-- Where a worker stands, and the task it has. -/
def Worker.control (wk : Worker n m τ) : Pc n m × Option τ := (wk.pc, wk.taskToRun)

theorem State.requeue_eq_some : s.requeue attr v u = some s' ↔
    (s.worker v).immediateCoreInUse = false ∧ s' = s.enqueue v (attr.hiPri u) u := by
  cases h : (s.worker v).immediateCoreInUse with
  | true => simp [State.requeue, h]
  | false => simpa [State.requeue, h] using eq_comm

/-- A change of a worker that leaves it where it stands is one for all workers. -/
theorem State.control_modifyWorker {g : Worker n m τ → Worker n m τ}
    (hg : (g (s.worker v)).control = (s.worker v).control) (w : Fin n) :
    ((s.modifyWorker v g).worker w).control = (s.worker w).control := by
  by_cases hw : w = v
  · subst hw
    simp only [State.modifyWorker, Function.update_self, hg]
  · simp only [State.modifyWorker, Function.update_of_ne hw]

theorem State.worker_modifyWorker {g : Worker n m τ → Worker n m τ} :
    (s.modifyWorker v g).worker v = g (s.worker v) := by
  simp only [State.modifyWorker, Function.update_self]

theorem State.control_modifyWorker_of_ne {g : Worker n m τ → Worker n m τ} {w : Fin n}
    (hw : w ≠ v) : ((s.modifyWorker v g).worker w).control = (s.worker w).control := by
  simp only [State.modifyWorker, Function.update_of_ne hw]

@[simp] theorem Worker.control_setInbox (wk : Worker n m τ) (hi : Bool) (l : List τ) :
    (wk.setInbox hi l).control = wk.control := by
  cases hi <;> rfl

@[simp] theorem Worker.control_setDeque (wk : Worker n m τ) (hi : Bool) (l : List τ) :
    (wk.setDeque hi l).control = wk.control := by
  cases hi <;> rfl

theorem State.control_enqueue (s : State n m τ) (v : Fin n) (hi : Bool) (u : τ) (w : Fin n) :
    ((s.enqueue v hi u).worker w).control = (s.worker w).control :=
  State.control_modifyWorker (g := fun wk =>
    { wk.setInbox hi (wk.inbox hi ++ [u]) with hasQueuedWork := true })
    ((s.worker v).control_setInbox hi _) w

theorem State.batch_enqueue (s : State n m τ) (v : Fin n) (hi : Bool) (u : τ) (w : Fin n) :
    ((s.enqueue v hi u).worker w).batch = (s.worker w).batch := by
  by_cases hw : w = v
  · subst hw
    cases hi <;> simp [State.enqueue, State.modifyWorker, Worker.setInbox]
  · simp only [State.enqueue, State.modifyWorker, Function.update_of_ne hw]

end

/-! ## What a step conserves -/

section
variable {n m : ℕ} {τ : Type} [DecidableEq τ] {attr : Attr τ} {s s' : State n m τ} {v w : Fin n}
  {t u : τ} {c : Choice n m}

/-- The step makes no reference to a task but for its submission, and takes one away with its
freeing. -/
def Conserves (s s' : State n m τ) : Prop :=
  ∀ t, s'.refs t + (s'.freed t).toNat + (s.submitted t).toNat ≤
    s.refs t + (s.freed t).toNat + (s'.submitted t).toNat

theorem Conserves.of_le (hsub : s'.submitted = s.submitted) (hfreed : s'.freed = s.freed)
    (h : ∀ t, s'.refs t ≤ s.refs t) : Conserves s s' := by
  intro t
  have := h t
  rw [hsub, hfreed]
  omega

/-- What the freeing of `u` adds to the freed tasks. -/
theorem State.toNat_freed_free (s : State n m τ) (u t : τ) :
    ((s.free u).freed t).toNat ≤ (s.freed t).toNat + if u = t then 1 else 0 := by
  by_cases htu : t = u
  · subst htu
    simp [State.free]
  · simp [State.free, htu]

theorem Conserves.of_free (hsub : s'.submitted = s.submitted) (hfreed : s'.freed = (s.free u).freed)
    (h : ∀ t, s'.refs t + refersTo t (some u) ≤ s.refs t) : Conserves s s' := by
  intro t
  have hle := h t
  have hfree := s.toNat_freed_free u t
  rw [hsub, hfreed]
  simp only [refersTo, Option.some.injEq] at hle
  omega

/-- The fiber that a place in the loop is about. -/
def Pc.fiber : Pc n m → Option (Fin m)
  | .switch f | .on f | .leaving f | .back f _ => some f
  | _ => none

/-- Only the park step suspends a fiber, and it ends the section. -/
theorem afterSwitch_suspended {pc : SwitchPc} {v : FiberStatus} {pc' : Option SwitchPc}
    (h : afterSwitch pc v = (.suspended, pc')) : v = .suspended ∨ pc' = none := by
  cases pc <;> cases v <;> simp_all [afterSwitch]

/-- `AcquireFiber` fails and the task is handed back: to the immediate slot, or to a deque that is
not full (`Thread.cpp:222-228`). -/
def handsBack (s : State n m τ) : Act n m τ → Bool
  | .worker w (.acquire none) => (s.worker w).pc = .acquire ∧
      ((s.worker w).isHandlingFork = true ∨ (s.worker w).loPri.length < capacity)
  | _ => false

/-- The sections that run `task_to_run` conserve the references, unless the task is handed back. -/
theorem runStep_conserves (h : runStep attr s w u c = some s')
    (hu : (s.worker w).taskToRun = some u)
    (hfree : ∀ f ∈ s.freeFibers, (s.fiber f).status ≠ .suspended)
    (hown : ∀ f ∈ (s.worker w).pc.fiber, (s.fiber f).owningTask = some u)
    (hgood : handsBack s (.worker w c) = false) : Conserves s s' := by
  revert h
  fun_cases runStep attr s w u c with
  | case1 hpc =>
    rintro ⟨⟩
    exact .of_le rfl rfl fun t => Nat.le_of_eq ((s.start u).refs_setPc w _)
  | case2 hpc =>
    rintro ⟨⟩
    refine .of_free rfl rfl fun t => State.refs_modifyWorker_le (s := s.free u) ?_
    simp only [State.free, Worker.refs, Worker.places, hu]
    simp only [refersTo, reduceCtorEq, if_false]
    omega
  | case3 hpc =>
    rintro ⟨⟩
    simp only [handsBack, hpc, true_and, decide_eq_false_iff_not, not_or, Bool.not_eq_true]
      at hgood
    refine .of_le rfl rfl fun t => State.refs_modifyWorker_le (a := 0) ?_
    simp only [Worker.handBack, hgood.1, Worker.pushBottom, if_neg hgood.2]
    exact Nat.le_refl _
  | case4 f hpc hf =>
    rintro ⟨⟩
    refine .of_le rfl rfl fun t => Nat.le_of_eq ?_
    rw [State.refs_setPc, State.refs_bindFiber (hfree f hf)]
  | case5 => simp
  | case6 f hpc s₁ =>
    rintro ⟨⟩
    have hs₁ : s₁.submitted = s.submitted ∧ s₁.freed = s.freed ∧ ∀ t, s₁.refs t = s.refs t := by
      unfold s₁; split <;> exact ⟨rfl, rfl, fun _ => rfl⟩
    refine .of_le hs₁.1 hs₁.2.1 fun t => ?_
    rw [← hs₁.2.2, State.refs_setPc]
    refine State.refs_modifyFiber_le ?_
    simp [FiberData.parked]
  | case7 f v hpc hv =>
    rintro ⟨⟩
    refine .of_le rfl rfl fun t => ?_
    rw [State.refs_setPc]
    refine State.refs_modifyFiber_le ?_
    rcases hv with rfl | rfl | rfl <;> simp [FiberData.parked]
  | case8 => simp
  | case9 f hpc =>
    rintro ⟨⟩
    refine .of_free rfl rfl fun t =>
      State.refs_modifyWorker_le (s := (s.free u).releaseFiber u f) ?_
    rw [← hu]
    exact Nat.le_of_eq (Worker.refs_endSection _)
  | case10 f hpc =>
    rintro ⟨⟩
    refine .of_le rfl rfl fun t => State.refs_modifyWorker_le (a := 0) ?_
    have h₁ := ((s.worker w).pushBottom u).refs_endSection (t := t)
    have h₂ := (s.worker w).refs_pushBottom (t := t) (u := u)
    have h₃ : ((s.worker w).pushBottom u).taskToRun = some u := by
      unfold Worker.pushBottom; split <;> exact hu
    grind [refersTo]
  | case11 f v hpc =>
    intro h
    obtain ⟨s₁, hs₁, rfl⟩ := Option.map_eq_some_iff.1 h
    obtain ⟨-, rfl⟩ := State.requeue_eq_some.1 hs₁
    refine .of_le rfl rfl fun t => ?_
    have h₁ := (s.enqueue v (attr.hiPri u) u).refs_modifyWorker (t := t) w Worker.endSection
    have h₂ := ((s.enqueue v (attr.hiPri u) u).worker w).refs_endSection (t := t)
    have h₃ := s.refs_enqueue (t := t) v (attr.hiPri u) u
    have h₄ := congrArg Prod.snd (s.control_enqueue v (attr.hiPri u) u w)
    simp only [Worker.control, hu] at h₄
    grind [refersTo]
  | case12 => simp
  | case13 f pc _ _ _ hpc v pc' hafter =>
    rintro ⟨⟩
    refine .of_le rfl rfl fun t => ?_
    have hsus : v = .suspended → (s.fiber f).status = .suspended ∨ pc' = none := by
      rintro rfl
      exact afterSwitch_suspended hafter
    have hown' := hown f (by simp [hpc, Pc.fiber])
    have h₁ := s.refs_modifyFiber (t := t) f fun fd => { fd with status := v }
    cases pc' with
    | none =>
      -- a parked task moves from `task_to_run` to its fiber
      have h₂ := (s.modifyFiber f fun fd => { fd with status := v }).refs_modifyWorker (t := t) w
        Worker.endSection
      have h₃ := (s.worker w).refs_endSection (t := t)
      change State.refs (State.modifyWorker _ w Worker.endSection) t ≤ _
      have h₄ : (s.modifyFiber f fun fd => { fd with status := v }).worker w = s.worker w := rfl
      grind [FiberData.parked, refersTo]
    | some pc' =>
      change State.refs (State.modifyWorker _ w fun wk => { wk with pc := .back f pc' }) t ≤ _
      rw [State.refs_setPc]
      grind [FiberData.parked]
  | case14 => simp

/-- A probe moves the task it takes to `task_to_run`. -/
theorem State.refs_stealFrom {hi : Bool} (h : s.stealFrom w v hi = some s') :
    s'.refs t ≤ s.refs t := by
  unfold State.stealFrom at h
  split at h
  next u rest hdeque =>
    cases h
    have h₁ := s.refs_modifyWorker (t := t) v fun wk => wk.setDeque hi rest
    have h₂ := (s.modifyWorker v fun wk => wk.setDeque hi rest).refs_modifyWorker (t := t) w
      fun wk => { wk with taskToRun := some u, pc := .top }
    have h₃ : ((s.worker v).setDeque hi rest).refs t + (if u = t then 1 else 0) =
        (s.worker v).refs t := by
      cases hi <;> grind [Worker.refs, Worker.places, Worker.setDeque, Worker.deque]
    grind [Worker.refs, Worker.places, refersTo]
  next => cases h

/-- What a step of a worker is: a task of its batch is requeued; a probe fails, or takes a task; a
section that concerns the worker alone; or one that runs `task_to_run`. -/
theorem workerStep_cases (h : workerStep attr s w c = some s') :
    (∃ hi v u rest, (s.worker w).pc = .requeue hi ∧ (s.worker w).batch = u :: rest ∧
      s' = (s.enqueue v (attr.hiPri u) u).modifyWorker w fun wk => { wk with batch := rest }) ∨
    (∃ hi ws pc, (s.worker w).pc = .probe hi ws ∧ (pc = .inbox true ∨ ∃ hi ws, pc = .probe hi ws) ∧
      s' = s.modifyWorker w fun wk => { wk with pc := pc }) ∨
    (∃ hi ws v, (s.worker w).pc = .probe hi ws ∧ s.stealFrom w v hi = some s') ∨
    (∃ wk, (s.worker w).localStep attr s.assignedFiber s.paused c = some wk ∧
      s' = s.modifyWorker w fun _ => wk) ∨
    ∃ u, (s.worker w).taskToRun = some u ∧ runStep attr s w u c = some s' := by
  simp only [workerStep] at h
  split at h
  case h_1 hi v u rest hpc hbatch =>
    obtain ⟨s₁, hs₁, rfl⟩ := Option.map_eq_some_iff.1 h
    obtain ⟨-, rfl⟩ := State.requeue_eq_some.1 hs₁
    exact .inl ⟨hi, v, u, rest, hpc, hbatch, rfl⟩
  case h_2 hi hpc =>
    cases h
    exact .inr (.inl ⟨hi, [], _, hpc, .inl rfl, rfl⟩)
  case h_3 hi v rest b hpc =>
    have hnext : ∃ hi' ws,
        (if hi then Pc.probe false (v :: rest) else Pc.probe true rest : Pc n m) =
        .probe hi' ws := by
      cases hi
      · exact ⟨_, _, rfl⟩
      · exact ⟨_, _, rfl⟩
    split at h
    · cases hsteal : s.stealFrom w v hi with
      | none =>
        rw [hsteal] at h
        cases h
        exact .inr (.inl ⟨hi, _, _, hpc, .inr hnext, rfl⟩)
      | some s₁ =>
        rw [hsteal] at h
        cases h
        exact .inr (.inr (.inl ⟨hi, _, v, hpc, hsteal⟩))
    · cases h
      exact .inr (.inl ⟨hi, _, _, hpc, .inr hnext, rfl⟩)
  case h_4 =>
    split at h
    next wk hwk =>
      cases h
      exact .inr (.inr (.inr (.inl ⟨wk, hwk, rfl⟩)))
    next =>
      obtain ⟨u, hu, h⟩ := Option.bind_eq_some_iff.1 h
      exact .inr (.inr (.inr (.inr ⟨u, hu, h⟩)))

/-- A step of a worker conserves the references, unless the task is handed back. -/
theorem workerStep_conserves (h : workerStep attr s w c = some s')
    (hfree : ∀ f ∈ s.freeFibers, (s.fiber f).status ≠ .suspended)
    (hown : ∀ u ∈ (s.worker w).taskToRun, ∀ f ∈ (s.worker w).pc.fiber,
      (s.fiber f).owningTask = some u)
    (hgood : handsBack s (.worker w c) = false) : Conserves s s' := by
  rcases workerStep_cases h with ⟨hi, v, u, rest, -, hbatch, rfl⟩ | ⟨hi, ws, pc, -, -, rfl⟩ |
    ⟨hi, ws, v, -, hsteal⟩ | ⟨wk, hwk, rfl⟩ | ⟨u, hu, hrun⟩
  · refine .of_le rfl rfl fun t => ?_
    have h₁ := (s.enqueue v (attr.hiPri u) u).refs_modifyWorker (t := t) w
      fun wk => { wk with batch := rest }
    have h₂ := s.refs_enqueue (t := t) v (attr.hiPri u) u
    have h₃ := s.batch_enqueue v (attr.hiPri u) u w
    grind [Worker.refs, Worker.places]
  · exact .of_le rfl rfl fun t => Nat.le_of_eq (s.refs_setPc w pc)
  · have hs' : s'.submitted = s.submitted ∧ s'.freed = s.freed := by
      unfold State.stealFrom at hsteal
      split at hsteal <;> cases hsteal
      exact ⟨rfl, rfl⟩
    exact .of_le hs'.1 hs'.2 fun t => State.refs_stealFrom hsteal
  · exact .of_le rfl rfl fun t => State.refs_modifyWorker_le (a := 0) (Worker.refs_localStep hwk)
  · exact runStep_conserves hrun hu hfree (hown u hu) hgood

/-- `Resume` does not suspend a fiber, and when it is to requeue its task it took it from the
suspended fiber. -/
theorem resume_status {pc : ResumePc} {v v' : FiberStatus} {pc' : Option ResumePc}
    (h : resume pc v = (v', pc')) :
    (v' = .suspended → v = .suspended) ∧
      (pc' = some .requeue → v = .suspended ∧ v' ≠ .suspended) := by
  cases pc <;> cases v <;> simp_all [resume] <;> grind

/-- A step of a call conserves the references. -/
theorem callStep_conserves {target : Fin n} {k k' : Call n m τ}
    (h : callStep attr s target k = some (s', k')) :
    s'.calls = s.calls ∧ s'.submitted = s.submitted ∧
      ∀ t, s'.refs t + k'.refs t + (s'.freed t).toNat ≤
        s.refs t + k.refs t + (s.freed t).toNat := by
  cases k with
  | done => cases h
  | pushImmediate u w pc =>
    cases pc with
    | loadFlag =>
      simp only [callStep] at h
      split at h <;> cases h <;> exact ⟨rfl, rfl, fun t => by simp [Call.refs]⟩
    | storeFlag =>
      cases h
      refine ⟨rfl, rfl, fun t => ?_⟩
      have h₁ : (s.modifyWorker w fun wk => { wk with immediateCoreInUse := true }).refs t =
          s.refs t := State.refs_modifyWorker_eq rfl
      exact Nat.add_le_add_right (Nat.add_le_add_right (Nat.le_of_eq h₁) _) _
    | storeSlot =>
      -- what the slot held is lost
      cases h
      refine ⟨rfl, rfl, fun t => Nat.add_le_add_right ?_ _⟩
      have h₁ := s.refs_modifyWorker (t := t) w
        fun wk => { wk with immediateTask := some u, immediate := true }
      grind [Worker.refs, Worker.places, refersTo, Call.refs]
  | resume f pc =>
    rcases hres : resume pc (s.fiber f).status with ⟨v, pc'⟩
    simp only [callStep, hres, Option.some.injEq, Prod.mk.injEq] at h
    obtain ⟨rfl, rfl⟩ := h
    obtain ⟨hsus, hreq⟩ := resume_status hres
    refine ⟨rfl, rfl, fun t => Nat.add_le_add_right ?_ _⟩
    have h₁ := s.refs_modifyFiber (t := t) f fun fd => { fd with status := v }
    simp only [FiberData.parked] at h₁
    split
    next =>
      have := hreq rfl
      cases ho : (s.fiber f).owningTask <;> grind [Call.refs, refersTo, Option.elim]
    next => grind [Call.refs]
    next => grind [Call.refs]
  | requeue u =>
    obtain ⟨s₁, hs₁, heq⟩ := Option.map_eq_some_iff.1 h
    cases heq
    obtain ⟨-, rfl⟩ := State.requeue_eq_some.1 hs₁
    refine ⟨rfl, rfl, fun t => Nat.add_le_add_right ?_ _⟩
    have h₁ := s.refs_enqueue (t := t) target (attr.hiPri u) u
    exact Nat.le_of_eq h₁
  | stolen u =>
    simp only [callStep] at h
    split at h <;> cases h <;> exact ⟨rfl, rfl, fun t => Nat.le_refl _⟩
  | helping u =>
    cases h
    refine ⟨rfl, rfl, fun t => ?_⟩
    have h₁ := s.toNat_freed_free u t
    have h₂ : (s.free u).refs t = s.refs t := rfl
    simp only [Call.refs]
    omega

/-- The references when one call takes the place of another. -/
theorem State.refs_setCall {j : ℕ} {k : Call n m τ} (k' : Call n m τ) (h : s.calls[j]? = some k) :
    { s with calls := s.calls.set j k' }.refs t + k.refs t = s.refs t + k'.refs t := by
  have := Sums.map_set (φ := Call.refs t) (b := k') h
  simp only [State.refs]
  omega

/-- The references when a call begins. -/
theorem State.refs_addCall (s : State n m τ) (k : Call n m τ) :
    { s with calls := s.calls ++ [k] }.refs t = s.refs t + k.refs t := by
  simp only [State.refs, List.map_append, List.map_cons, List.map_nil, List.sum_append,
    List.sum_cons, List.sum_nil]
  omega

/-- A task that is submitted may get its first reference. -/
theorem Conserves.of_submit (hu : s.submitted u = false) (hfreed : s'.freed = s.freed)
    (hsub : s'.submitted = Function.update s.submitted u true)
    (h : ∀ t, s'.refs t ≤ s.refs t + if u = t then 1 else 0) : Conserves s s' := by
  intro t
  have hle := h t
  rw [hfreed, hsub]
  by_cases htu : t = u
  · subst htu
    rw [Function.update_self, hu]
    simp only [Bool.toNat_false, Bool.toNat_true, if_true] at hle ⊢
    omega
  · rw [Function.update_of_ne htu]
    rw [if_neg (Ne.symm htu)] at hle
    omega

/-- Every step conserves the references, unless it hands a task back. -/
theorem step_conserves {a : Act n m τ} (h : step attr s a = some s')
    (hfree : ∀ f ∈ s.freeFibers, (s.fiber f).status ≠ .suspended)
    (hown : ∀ w, ∀ u ∈ (s.worker w).taskToRun, ∀ f ∈ (s.worker w).pc.fiber,
      (s.fiber f).owningTask = some u)
    (hgood : handsBack s a = false) : Conserves s s' := by
  cases a with
  | worker w c => exact workerStep_conserves h hfree (hown w) hgood
  | join w =>
    cases h
    exact .of_le rfl rfl fun t => Nat.le_of_eq (State.refs_modifyWorker_eq rfl)
  | pause b =>
    cases h
    exact .of_le rfl rfl fun t => Nat.le_refl _
  | push u cpuaffinity target =>
    simp only [step] at h
    split at h
    · cases h
    next hsub =>
      have hsub' : s.submitted u = false := by simpa using hsub
      split at h
      · split at h <;> cases h
        · exact .of_submit hsub' rfl rfl fun t => Nat.le_add_right _ _
        · exact .of_submit hsub' rfl rfl fun t => Nat.le_of_eq (State.refs_enqueue _ _ _ _)
      · obtain ⟨-, rfl⟩ := State.requeue_eq_some.1 h
        exact .of_submit hsub' rfl rfl fun t => Nat.le_of_eq (State.refs_enqueue _ _ _ _)
  | pushImmediate u coreId =>
    simp only [step] at h
    split at h
    · cases h
    next hsub =>
      have hsub' : s.submitted u = false := by simpa using hsub
      split at h <;> cases h
      · exact .of_submit hsub' rfl rfl fun t => Nat.le_of_eq (State.refs_addCall _ _)
      · exact .of_submit hsub' rfl rfl fun t => Nat.le_add_right _ _
  | resume f =>
    cases h
    exact .of_le rfl rfl fun t => Nat.le_of_eq (State.refs_addCall _ _)
  | help w hi =>
    simp only [step] at h
    split at h
    next u rest hdeque =>
      cases h
      refine .of_le rfl rfl fun t => ?_
      have h₁ := s.refs_modifyWorker (t := t) w fun wk => wk.setDeque hi rest
      have h₂ := (s.modifyWorker w fun wk => wk.setDeque hi rest).refs_addCall (t := t) (.stolen u)
      have h₃ : ((s.worker w).setDeque hi rest).refs t + (if u = t then 1 else 0) =
          (s.worker w).refs t := by
        cases hi <;> grind [Worker.refs, Worker.places, Worker.setDeque, Worker.deque]
      simp only [Call.refs] at h₂
      exact Nat.le_trans (Nat.le_of_eq h₂) (by omega)
    next => cases h
  | call j target =>
    obtain ⟨k, hk, h⟩ := Option.bind_eq_some_iff.1 h
    obtain ⟨⟨s₁, k'⟩, hcall, rfl⟩ := Option.map_eq_some_iff.1 h
    obtain ⟨hcalls, hsub, hle⟩ := callStep_conserves hcall
    intro t
    have h₁ := s₁.refs_setCall (t := t) k' (hcalls ▸ hk)
    have h₂ := hle t
    have h₃ := congrFun hsub t
    change State.refs { s₁ with calls := s₁.calls.set j k' } t + (s₁.freed t).toNat + _ ≤
      _ + _ + (s₁.submitted t).toNat
    rw [h₃]
    omega

end

end JLibScheduler.Thread
