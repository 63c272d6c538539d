import Mathlib.Data.Fintype.Basic
import JLibScheduler.Lib.Lts
import JLibScheduler.Lib.Update

/-!
# The immediate slot of a worker

`PushToCore` loads the flag of the worker, stores it, and stores its task in the slot
(`TaskScheduler.cpp:756-781`); the worker tests the slot, loads the task, and stores null
(`Thread.cpp:314-352`). The flag is cleared at the end of an immediate task, and of any task that
was forked (`Thread.cpp:193-199`, `267-271`, `301-306`), and a worker that gets no fiber for its
immediate task stores it back in the slot (`Thread.cpp:215-232`). The machine has one worker, any
number of calls of `PushToCore` for it, and the calls of `PushFork` that reserve it, with one access
of the flag or the slot in a step. Each task is pushed by one call. The drain between the test and
the load is in `TaskScheduler/ImmediateDrain.lean`.

The flag does not keep the slot: two calls may both load it before one of them stores it
(`not_keeps`), and the flag may be cleared while a task waits in the slot. In a run where neither
happens every task that was accepted is in the slot until the worker takes it (`immediate_keeps`).
-/

namespace JLibScheduler.TaskScheduler

/-- Where a call of `PushToCore`, or of `PushFork` for this worker, stands: before the load of the
flag, before its store, before the store to the slot. -/
inductive SlotCall
  | idle
  | load (fork : Bool)
  | storeFlag (fork : Bool)
  | storeSlot
  | refused
  | accepted
  /-- `PushFork` goes on with `PushLocal`. -/
  | forked
deriving DecidableEq

/-- The task that the worker runs: one of its slot, or another one, forked or not. -/
inductive Running (τ : Type)
  | immediate (t : τ)
  | other (isForked : Bool)
deriving DecidableEq

/-- Where the worker stands in its loop. -/
inductive SlotPc
  | top
  /-- before the test of the slot -/
  | test
  /-- before `task_to_run = immediateTask`, before `immediateTask = nullptr` and before
  `is_handling_fork = true` -/
  | take
  | clear
  | handle
deriving DecidableEq

/-- The flag, the slot, the calls, and the worker's own variables. Not in the code: which tasks the
worker has taken. -/
structure SlotState (τ : Type) where
  immediateCoreInUse : Bool
  immediateTask : Option τ
  call : τ → SlotCall
  pc : SlotPc
  taskToRun : Option (Running τ)
  isHandlingFork : Bool
  taken : τ → Bool

/-- A step. -/
inductive SlotAct (τ : Type)
  | push (t : τ) (fork : Bool)
  | call (t : τ)
  /-- The task of the worker ends, as a fast job or on its fiber. -/
  | complete (fast : Bool)
  /-- It yields or suspends. -/
  | leave
  /-- There is no fiber for it. -/
  | noFiber
  /-- The worker finds a task elsewhere, or none. -/
  | search (isForked : Option Bool)
  | go

section
variable {τ : Type}

/-- The task was pushed by `PushFork`. -/
def Running.isForked : Running τ → Bool
  | .immediate _ => false
  | .other isForked => isForked

/-- The step clears the flag. -/
def SlotState.clearsFlag (s : SlotState τ) : SlotAct τ → Bool
  | .complete _ => s.isHandlingFork || (s.taskToRun.map Running.isForked).getD false
  | .leave => s.isHandlingFork
  | _ => false

/-- The first section of the loop leaves its task. -/
def SlotState.endTask (s : SlotState τ) (clears : Bool) (pc : SlotPc) : SlotState τ :=
  { s with
    immediateCoreInUse := s.immediateCoreInUse && !clears
    isHandlingFork := false
    taskToRun := none
    pc := pc }

variable [DecidableEq τ]

/-- The state with a call moved on. -/
def SlotState.setCall (s : SlotState τ) (t : τ) (c : SlotCall) : SlotState τ :=
  { s with call := Function.update s.call t c }

/-- A step of a call. -/
def SlotState.callStep (s : SlotState τ) (t : τ) : Option (SlotState τ) :=
  match s.call t with
  | .load fork => some (s.setCall t (if s.immediateCoreInUse then .refused else .storeFlag fork))
  | .storeFlag fork =>
    some { s.setCall t (if fork then .forked else .storeSlot) with immediateCoreInUse := true }
  | .storeSlot => some { s.setCall t .accepted with immediateTask := some t }
  | _ => none

/-- A step of the worker that depends on nothing else. -/
def SlotState.go (s : SlotState τ) : Option (SlotState τ) :=
  match s.pc with
  | .top => if s.taskToRun.isNone then some { s with pc := .test } else none
  | .test => if s.immediateTask.isSome then some { s with pc := .take } else none
  | .take =>
    match s.immediateTask with
    | some t =>
      some { s with
        taskToRun := some (.immediate t)
        taken := Function.update s.taken t true
        pc := .clear }
    | none => some { s with taskToRun := none, pc := .clear }
  | .clear => some { s with immediateTask := none, pc := .handle }
  | .handle => some { s with isHandlingFork := true, pc := .top }

/-- One step. -/
def SlotState.step (s : SlotState τ) : SlotAct τ → Option (SlotState τ)
  | .push t fork => if s.call t = .idle then some (s.setCall t (.load fork)) else none
  | .call t => s.callStep t
  | .complete fast =>
    if s.pc = .top ∧ s.taskToRun.isSome then
      some (s.endTask (s.clearsFlag (.complete fast)) (if fast then .top else .test))
    else none
  | .leave =>
    if s.pc = .top ∧ s.taskToRun.isSome then some (s.endTask (s.clearsFlag .leave) .test) else none
  | .noFiber =>
    if s.pc = .top then
      match s.isHandlingFork, s.taskToRun with
      | true, some (.immediate t) => some { s with immediateTask := some t }
      | false, some (.other _) => some s
      | _, _ => none
    else none
  | .search isForked =>
    if s.pc = .test ∧ s.immediateTask = none then
      some { s with taskToRun := isForked.map .other, pc := .top }
    else none
  | .go => s.go

/-- No call, and an idle worker. -/
def SlotState.init : SlotState τ where
  immediateCoreInUse := false
  immediateTask := none
  call := fun _ => .idle
  pc := .top
  taskToRun := none
  isHandlingFork := false
  taken := fun _ => false

/-- Every task that was accepted is in the slot, or was taken. -/
def SlotState.Keeps (s : SlotState τ) : Prop :=
  ∀ t, s.call t = .accepted → s.immediateTask = some t ∨ s.taken t = true

/-- A `PushToCore` stores the flag when no other call has set it, and the flag is cleared when no
task is in the slot or about to be stored there. -/
def SlotState.Reserves (s : SlotState τ) : SlotAct τ → Prop
  | .call t => s.call t = .storeFlag false → s.immediateCoreInUse = false
  | a => s.clearsFlag a = true → s.immediateTask = none ∧ ∀ t, s.call t ≠ .storeSlot

instance [Fintype τ] (s : SlotState τ) (a : SlotAct τ) : Decidable (s.Reserves a) := by
  cases a <;> unfold SlotState.Reserves <;> infer_instance

/-! ## The invariant -/

/-- The worker has taken a task from its slot, and has not ended it. -/
def SlotState.Engaged (s : SlotState τ) : Prop :=
  s.isHandlingFork = true ∨ s.pc = .clear ∨ s.pc = .handle

/-- What holds in every state of a run of good steps. -/
structure SlotInv (s : SlotState τ) : Prop where
  flag : s.immediateTask.isSome = true ∨ (∃ t, s.call t = .storeSlot) ∨ s.Engaged →
    s.immediateCoreInUse = true
  one : ∀ t u, s.call t = .storeSlot → s.call u = .storeSlot → t = u
  alone : ∀ t, s.call t = .storeSlot → s.immediateTask = none ∧ ¬ s.Engaged
  kept : s.Keeps
  take : s.pc = .take → s.immediateTask.isSome = true
  clear : s.pc = .clear → ∃ t, s.taskToRun = some (.immediate t) ∧ s.immediateTask = some t ∧
    s.taken t = true
  handling : s.isHandlingFork = true ∨ s.pc = .handle → ∃ t, s.taskToRun = some (.immediate t) ∧
    s.taken t = true ∧ (s.immediateTask = none ∨ s.immediateTask = some t)
  top : s.isHandlingFork = true → s.pc = .top

variable {s s' : SlotState τ} {t : τ}

omit [DecidableEq τ] in
theorem SlotInv.init : SlotInv (SlotState.init : SlotState τ) where
  flag h := by
    rcases h with h | ⟨t, h⟩ | h | h | h <;> cases h
  one t u h := by cases h
  alone t h := by cases h
  kept t h := by cases h
  take h := by cases h
  clear h := by cases h
  handling h := by rcases h with h | h <;> cases h
  top h := by cases h

/-- A call that is not about to store its task, and is not accepted, moves on. -/
theorem SlotInv.setCall (h : SlotInv s) {c : SlotCall} (hc : c ≠ .storeSlot) (hc' : c ≠ .accepted) :
    SlotInv (s.setCall t c) := by
  have hold : ∀ u, (s.setCall t c).call u = .storeSlot → s.call u = .storeSlot := fun u hu =>
    (Update.eq_cases hu).elim (fun h => absurd h.2 hc) fun h => h.2
  exact
    { flag := fun hbusy => h.flag (hbusy.imp_right (Or.imp_left fun ⟨u, hu⟩ => ⟨u, hold u hu⟩))
      one := fun u v hu hv => h.one u v (hold u hu) (hold v hv)
      alone := fun u hu => h.alone u (hold u hu)
      kept := fun u hu =>
        (Update.eq_cases hu).elim (fun h => absurd h.2 hc') fun hu => h.kept u hu.2
      take := h.take
      clear := h.clear
      handling := h.handling
      top := h.top }

omit [DecidableEq τ] in
/-- With the flag clear, nothing is in the slot or about to be. -/
theorem SlotInv.not_busy (h : SlotInv s) (hflag : s.immediateCoreInUse = false) :
    s.immediateTask = none ∧ (∀ t, s.call t ≠ .storeSlot) ∧ ¬ s.Engaged := by
  have hno : ∀ {p : Prop}, (p → s.immediateCoreInUse = true) → ¬ p := by
    intro p hp h
    rw [hflag] at hp
    cases hp h
  refine ⟨?_, fun t ht => ?_, hno fun h' => h.flag (.inr (.inr h'))⟩
  · cases hslot : s.immediateTask with
    | none => rfl
    | some t => exact absurd (by rw [hslot]; rfl) (hno fun h' => h.flag (.inl h'))
  · exact hno (fun h' => h.flag (.inr (.inl ⟨t, h'⟩))) ht

theorem SlotInv.storeFlag (h : SlotInv s) (hflag : s.immediateCoreInUse = false) :
    SlotInv { s.setCall t .storeSlot with immediateCoreInUse := true } := by
  obtain ⟨hslot, hcalls, hengaged⟩ := h.not_busy hflag
  have hself : ∀ u, (s.setCall t .storeSlot).call u = .storeSlot → u = t := fun u hu =>
    (Update.eq_cases hu).elim (fun h => h.1) fun h => absurd h.2 (hcalls u)
  exact
    { flag := fun _ => rfl
      one := fun u v hu hv => (hself u hu).trans (hself v hv).symm
      alone := fun _ _ => ⟨hslot, hengaged⟩
      kept := fun u hu => (Update.eq_cases hu).elim (fun h => by cases h.2) fun hu => h.kept u hu.2
      take := h.take
      clear := h.clear
      handling := h.handling
      top := h.top }

theorem SlotInv.storeSlot (h : SlotInv s) (hcall : s.call t = .storeSlot) :
    SlotInv { s.setCall t .accepted with immediateTask := some t } := by
  obtain ⟨hslot, hengaged⟩ := h.alone t hcall
  have hnone : ∀ u, (s.setCall t .accepted).call u ≠ .storeSlot := by
    intro u hu
    rcases Update.eq_cases hu with h' | h'
    · cases h'.2
    · exact h'.1 (h.one u t h'.2 hcall)
  exact
    { flag := fun _ => h.flag (.inr (.inl ⟨t, hcall⟩))
      one := fun u _ hu => absurd hu (hnone u)
      alone := fun u hu => absurd hu (hnone u)
      kept := fun u hu => by
        rcases Update.eq_cases hu with h' | h'
        · exact .inl (by rw [h'.1])
        · refine (h.kept u h'.2).elim (fun heq => ?_) .inr
          rw [hslot] at heq
          cases heq
      take := fun _ => rfl
      clear := fun hpc => absurd (.inr (.inl hpc)) hengaged
      handling := fun hpc => absurd (hpc.imp_right .inr) hengaged
      top := h.top }

theorem SlotInv.callStep (h : SlotInv s) (hgood : s.Reserves (.call t))
    (hs : s.callStep t = some s') : SlotInv s' := by
  unfold SlotState.callStep at hs
  cases hcall : s.call t with
  | load fork =>
    rw [hcall] at hs
    cases hs
    split
    · exact h.setCall (by decide) (by decide)
    · exact h.setCall (fun heq => by cases heq) fun heq => by cases heq
  | storeFlag fork =>
    rw [hcall] at hs
    cases hs
    cases fork with
    | false => exact h.storeFlag (hgood hcall)
    | true =>
      have hset : SlotInv (s.setCall t .forked) := h.setCall (by decide) (by decide)
      exact
        { flag := fun _ => rfl
          one := hset.one
          alone := hset.alone
          kept := hset.kept
          take := hset.take
          clear := hset.clear
          handling := hset.handling
          top := hset.top }
  | storeSlot =>
    rw [hcall] at hs
    cases hs
    exact h.storeSlot hcall
  | _ =>
    rw [hcall] at hs
    cases hs

omit [DecidableEq τ] in
/-- A task of the worker ends or leaves, and the slot is free when the flag is cleared. -/
theorem SlotInv.endTask (h : SlotInv s) {clears : Bool} {pc : SlotPc} (hpc : pc = .top ∨ pc = .test)
    (hgood : clears = true → s.immediateTask = none ∧ ∀ t, s.call t ≠ .storeSlot) :
    SlotInv (s.endTask clears pc) := by
  have hengaged : ¬ (s.endTask clears pc).Engaged := by
    rintro (h' | h' | h')
    · cases h'
    · change pc = _ at h'
      subst h'
      rcases hpc with h | h <;> cases h
    · change pc = _ at h'
      subst h'
      rcases hpc with h | h <;> cases h
  exact
    { flag := fun hbusy => by
        change (s.immediateCoreInUse && !clears) = true
        have hflag : s.immediateCoreInUse = true :=
          h.flag (hbusy.imp_right (Or.imp_right fun h' => absurd h' hengaged))
        cases clears with
        | false => rw [hflag]; rfl
        | true =>
          obtain ⟨hslot, hcalls⟩ := hgood rfl
          rcases hbusy with h' | ⟨t, h'⟩ | h'
          · change s.immediateTask.isSome = true at h'
            rw [hslot] at h'
            cases h'
          · exact absurd h' (hcalls t)
          · exact absurd h' hengaged
      one := h.one
      alone := fun t ht => ⟨(h.alone t ht).1, hengaged⟩
      kept := h.kept
      take := fun h' => by
        change pc = _ at h'
        subst h'
        rcases hpc with h | h <;> cases h
      clear := fun h' => absurd (.inr (.inl h')) hengaged
      handling := fun h' => absurd (h'.imp_right .inr) hengaged
      top := fun h' => by cases h' }

omit [DecidableEq τ] in
/-- A move of the worker between two sections, with no task of its slot in hand. -/
theorem SlotInv.move (h : SlotInv s) {pc : SlotPc} {o : Option (Running τ)} (hengaged : ¬ s.Engaged)
    (hpc : pc = .top ∨ pc = .test ∨ pc = .take ∧ s.immediateTask.isSome = true) :
    SlotInv { s with pc := pc, taskToRun := o } := by
  have hnot : ¬ ({ s with pc := pc, taskToRun := o } : SlotState τ).Engaged := by
    rintro (h' | h' | h')
    · exact hengaged (.inl h')
    · change pc = _ at h'
      subst h'
      rcases hpc with h | h | ⟨h, -⟩ <;> cases h
    · change pc = _ at h'
      subst h'
      rcases hpc with h | h | ⟨h, -⟩ <;> cases h
  exact
    { flag := fun hbusy => h.flag (hbusy.imp_right (Or.imp_right fun h' => absurd h' hnot))
      one := h.one
      alone := fun t ht => ⟨(h.alone t ht).1, hnot⟩
      kept := h.kept
      take := fun h' => by
        change pc = _ at h'
        subst h'
        rcases hpc with h | h | ⟨-, h⟩
        · cases h
        · cases h
        · exact h
      clear := fun h' => absurd (.inr (.inl h')) hnot
      handling := fun h' => absurd (h'.imp_right .inr) hnot
      top := fun h' => absurd (.inl h') hnot }

omit [DecidableEq τ] in
theorem SlotInv.not_engaged (h : SlotInv s) (hpc : s.pc = .test) : ¬ s.Engaged := by
  rintro (h' | h' | h')
  · rw [h.top h'] at hpc
    cases hpc
  · rw [hpc] at h'
    cases h'
  · rw [hpc] at h'
    cases h'

theorem SlotInv.go (h : SlotInv s) (hs : s.go = some s') : SlotInv s' := by
  unfold SlotState.go at hs
  cases hpc : s.pc with
  | top =>
    simp only [hpc] at hs
    split at hs
    next hnone =>
      cases hs
      refine h.move (fun h' => ?_) (.inr (.inl rfl))
      rcases h' with h' | h' | h'
      · obtain ⟨t, ht, -⟩ := h.handling (.inl h')
        rw [ht] at hnone
        cases hnone
      · rw [hpc] at h'
        cases h'
      · rw [hpc] at h'
        cases h'
    next => cases hs
  | test =>
    simp only [hpc] at hs
    split at hs
    next hsome =>
      cases hs
      exact h.move (h.not_engaged hpc) (.inr (.inr ⟨rfl, hsome⟩))
    next => cases hs
  | take =>
    have hhandling : s.isHandlingFork = false := Bool.eq_false_iff.2 fun h' => by
      rw [h.top h'] at hpc
      cases hpc
    simp only [hpc] at hs
    split at hs
    next t hslot =>
      cases hs
      exact
        { flag := fun _ => h.flag (.inl (h.take hpc))
          one := h.one
          alone := fun u hu => by
            have := (h.alone u hu).1
            rw [hslot] at this
            cases this
          kept := fun u hu => (h.kept u hu).imp_right fun hu => by
            change Function.update s.taken t true u = true
            by_cases heq : u = t
            · rw [heq, Function.update_self]
            · rwa [Function.update_of_ne heq]
          take := fun h' => by cases h'
          clear := fun _ => ⟨t, rfl, hslot, Function.update_self ..⟩
          handling := fun h' => by
            rcases h' with h' | h'
            · change s.isHandlingFork = true at h'
              rw [hhandling] at h'
              cases h'
            · cases h'
          top := fun h' => by
            change s.isHandlingFork = true at h'
            rw [hhandling] at h'
            cases h' }
    next hslot =>
      have := h.take hpc
      rw [hslot] at this
      cases this
  | clear =>
    obtain ⟨t, htask, hslot, htaken⟩ := h.clear hpc
    simp only [hpc] at hs
    cases hs
    exact
      { flag := fun _ => h.flag (.inr (.inr (.inr (.inl hpc))))
        one := h.one
        alone := fun u hu => absurd (.inr (.inl hpc)) (h.alone u hu).2
        kept := fun u hu => .inr ((h.kept u hu).elim (fun heq => by
          rw [hslot] at heq
          cases heq
          exact htaken) id)
        take := fun h' => by cases h'
        clear := fun h' => by cases h'
        handling := fun _ => ⟨t, htask, htaken, .inl rfl⟩
        top := fun h' => by
          rw [h.top h'] at hpc
          cases hpc }
  | handle =>
    simp only [hpc] at hs
    cases hs
    exact
      { flag := fun _ => h.flag (.inr (.inr (.inr (.inr hpc))))
        one := h.one
        alone := fun u hu => absurd (.inr (.inr hpc)) (h.alone u hu).2
        kept := h.kept
        take := fun h' => by cases h'
        clear := fun h' => by cases h'
        handling := fun _ => h.handling (.inr hpc)
        top := fun _ => rfl }

omit [DecidableEq τ] in
/-- The worker stores the task that it has taken back in the slot. -/
theorem SlotInv.handBack (h : SlotInv s) (hpc : s.pc = .top) (hfork : s.isHandlingFork = true)
    (htask : s.taskToRun = some (.immediate t)) : SlotInv { s with immediateTask := some t } := by
  obtain ⟨u, hu, htaken, hslot⟩ := h.handling (.inl hfork)
  rw [htask] at hu
  cases hu
  exact
    { flag := fun _ => h.flag (.inr (.inr (.inl hfork)))
      one := h.one
      alone := fun v hv => absurd (.inl hfork) (h.alone v hv).2
      kept := fun v hv => by
        refine (h.kept v hv).imp_left fun hv => ?_
        rcases hslot with hslot | hslot
        · rw [hslot] at hv
          cases hv
        · exact hslot ▸ hv
      take := fun _ => rfl
      clear := fun h' => by
        change s.pc = _ at h'
        rw [hpc] at h'
        cases h'
      handling := fun _ => ⟨t, htask, htaken, .inr rfl⟩
      top := h.top }

theorem SlotInv.step {a : SlotAct τ} (h : SlotInv s) (hgood : s.Reserves a)
    (hs : s.step a = some s') : SlotInv s' := by
  cases a with
  | push t fork =>
    rw [SlotState.step] at hs
    split at hs
    · cases hs
      exact h.setCall (fun heq => by cases heq) fun heq => by cases heq
    · cases hs
  | call t => exact h.callStep hgood hs
  | complete fast =>
    rw [SlotState.step] at hs
    split at hs
    · cases hs
      exact h.endTask (by cases fast <;> simp) hgood
    · cases hs
  | leave =>
    rw [SlotState.step] at hs
    split at hs
    · cases hs
      exact h.endTask (.inr rfl) hgood
    · cases hs
  | noFiber =>
    rw [SlotState.step] at hs
    split at hs
    next hpc =>
      split at hs
      next t hfork htask =>
        cases hs
        exact h.handBack hpc hfork htask
      next =>
        cases hs
        exact h
      next => cases hs
    next => cases hs
  | search isForked =>
    rw [SlotState.step] at hs
    split at hs
    next htest =>
      cases hs
      exact h.move (h.not_engaged htest.1) (.inl rfl)
    next => cases hs
  | go => exact h.go hs

/-- In a run whose flag stores and clears keep the reservation, a task that was accepted is in the
slot until the worker takes it. -/
theorem immediate_keeps (as : List (SlotAct τ))
    (hgood : ∀ p ∈ Lts.visits SlotState.step .init as, p.1.Reserves p.2) :
    ∀ s ∈ Lts.states SlotState.step .init as, s.Keeps :=
  fun s hs => (Lts.states_inv_of (fun h hgood hs => SlotInv.step h hgood hs) SlotInv.init hgood
    s hs).kept

end

section

/-- Two calls one after the other, the first task is taken and ends before the second call. -/
def twoImmediates : List (SlotAct Bool) :=
  [.push false false, .call false, .call false, .call false, .go, .go, .go, .go, .go,
    .complete true, .push true false, .call true, .call true, .call true]

theorem immediate_keeps_two : ∃ s, Lts.run SlotState.step .init twoImmediates = some s ∧
    s.call true = .accepted ∧ s.taken false = true ∧ s.Keeps :=
  ⟨_, (Option.some_get (x := Lts.run _ _ _) (by decide)).symm, by decide, by decide,
    immediate_keeps twoImmediates (by decide) _
      (Lts.mem_states_of_run (Option.some_get (x := Lts.run _ _ _) (by decide)).symm)⟩

/-- Two calls load the flag before either of them stores it: both are accepted, and the task of the
first one is gone. -/
theorem not_keeps : ¬ ∀ (as : List (SlotAct Bool)),
    ∀ s ∈ Lts.states SlotState.step .init as, s.Keeps := by
  intro h
  have hrun : (Lts.run SlotState.step .init ([.push false false, .push true false, .call false,
      .call true, .call false, .call true, .call false, .call true] : List (SlotAct Bool))).map
      (fun s => decide (s.call false = .accepted ∧ s.immediateTask = some true ∧
        s.taken false = false)) = some true := by decide
  obtain ⟨s, hrun, hs⟩ := Option.map_eq_some_iff.1 hrun
  obtain ⟨hcall, hslot, htaken⟩ := of_decide_eq_true hs
  rcases h _ s (Lts.mem_states_of_run hrun) false hcall with heq | heq
  · rw [hslot] at heq
    cases heq
  · rw [htaken] at heq
    cases heq

/-- A forked task that the worker has from elsewhere ends while a task is in the slot: the flag is
cleared, a second call is accepted, and the task of the first one is gone. -/
theorem not_keeps_forked : ∃ s, Lts.run SlotState.step .init ([.go, .search (some true),
    .push false false, .call false, .call false, .call false, .complete true, .push true false,
    .call true, .call true, .call true] : List (SlotAct Bool)) = some s ∧ ¬ s.Keeps := by
  have hrun : (Lts.run SlotState.step .init ([.go, .search (some true),
      .push false false, .call false, .call false, .call false, .complete true, .push true false,
      .call true, .call true, .call true] : List (SlotAct Bool))).map
      (fun s => decide (s.call false = .accepted ∧ s.immediateTask = some true ∧
        s.taken false = false)) = some true := by decide
  obtain ⟨s, hrun, hs⟩ := Option.map_eq_some_iff.1 hrun
  obtain ⟨hcall, hslot, htaken⟩ := of_decide_eq_true hs
  refine ⟨s, hrun, fun hkeeps => ?_⟩
  rcases hkeeps false hcall with heq | heq
  · rw [hslot] at heq
    cases heq
  · rw [htaken] at heq
    cases heq

end

end JLibScheduler.TaskScheduler
