import JLibScheduler.Lib.Lts
import JLibScheduler.Mutex.Basic

/-!
# Priority inheritance

A fiber of a task with high priority that waits for a mutex should find the task that holds it
boosted (`Inherits`). `BoostTaskPriority` is never called, so the priorities of tasks stay as they
were created (`hiPri_step`), and a holder has a high priority only if it was created with one. So
the property holds in all runs of a program exactly when on no mutex a fiber of high priority calls
`Lock` while a task of low priority can be its holder (`holder_hiPri_iff`).
-/

namespace JLibScheduler.Mutex

open JLibScheduler.Sync (SchedulerMutex)

section
variable {κ ν : Type}

/-- The task that holds a mutex has a high priority when the fiber of a task of high priority waits
for it. -/
def Inherits (s : State κ ν) : Prop :=
  ∀ x, ∀ f ∈ (s.mutex x).waitingFibers, s.hiPri f ≠ 0 →
    ∀ t, s.lockHolder x = some t → s.hiPri t ≠ 0

/-- The calls of a program: who calls `Lock` and who calls `Try_Lock` on which mutex, and which
tasks `GetCurrentTask` returns to a context without a fiber, its own or one beneath it. -/
structure Calls (κ ν : Type) where
  locks : κ → ν → Prop
  tries : κ → ν → Prop
  current : κ → κ → Prop

/-- The step belongs to the program. -/
def Calls.Makes (calls : Calls κ ν) : Act κ ν → Prop
  | .lock c x => calls.locks c x
  | .tryLock c x => calls.tries c x
  | .unlock _ _ => True
  | .next c callerTask => ∀ t ∈ callerTask, calls.current c t

/-- The task `t` can be the holder of the mutex: some context that acquires it enters `t`. -/
def Calls.Holds (calls : Calls κ ν) (fiber : κ → Bool) (x : ν) (t : κ) : Prop :=
  ∃ c, (calls.locks c x ∨ calls.tries c x) ∧ if fiber c then c = t else calls.current c t

/-- A mutex on which a fiber of high priority calls `Lock` has no holder of low priority, as the
tasks were created. -/
def Calls.Agree (calls : Calls κ ν) (fiber : κ → Bool) (hiPri : κ → UInt8) : Prop :=
  ∀ x f, fiber f → calls.locks f x → hiPri f ≠ 0 → ∀ t, calls.Holds fiber x t → hiPri t ≠ 0

/-- What the program says of a context at this place. -/
def Pc.Called (calls : Calls κ ν) (fiber : κ → Bool) (c : κ) : Pc κ ν → Prop
  | .lock x => fiber c ∧ calls.locks c x
  | .tryLock x _ | .suspended x | .setHolder x _ => calls.locks c x ∨ calls.tries c x
  | _ => True

/-- The priorities are those of the creation, and the queues and the holders of the mutexes are as
the program has them. -/
structure Used (calls : Calls κ ν) (fiber : κ → Bool) (hiPri : κ → UInt8) (s : State κ ν) :
    Prop where
  hiPri : s.hiPri = hiPri
  boost : ∀ t, s.priorityBoost t = 0
  waiting : ∀ x, ∀ f ∈ (s.mutex x).waitingFibers, fiber f ∧ calls.locks f x
  holder : ∀ x t, s.lockHolder x = some t → calls.Holds fiber x t
  called : ∀ c, (s.pc c).Called calls fiber c

variable {calls : Calls κ ν} {fiber : κ → Bool} {hiPri : κ → UInt8} {s : State κ ν}

theorem Used.init : Used calls fiber hiPri (State.init hiPri : State κ ν) where
  hiPri := rfl
  boost _ := rfl
  waiting _ _ hf := by cases hf
  holder _ _ ht := by cases ht
  called _ := trivial

/-- Where the program is right, the holders are of high priority when they should be. -/
theorem Used.inherits (h : Used calls fiber hiPri s) (hagree : calls.Agree fiber hiPri) :
    Inherits s := by
  intro x f hf hhigh t ht
  obtain ⟨hfiber, hlocks⟩ := h.waiting x f hf
  rw [h.hiPri] at hhigh ⊢
  exact hagree x f hfiber hlocks hhigh t (h.holder x t ht)

end

section
variable {κ ν : Type} [DecidableEq κ] {s : State κ ν}

/-- Without a boost, the end of it does nothing. -/
theorem unboost_eq_self (h : ∀ t, s.priorityBoost t = 0) (wasHolder : Option κ) :
    wasHolder.elim s (unboostTaskPriority s) = s := by
  cases wasHolder with
  | none => rfl
  | some t => simp [unboostTaskPriority, h t]

end

section
variable {κ ν : Type} [DecidableEq κ] [DecidableEq ν] {calls : Calls κ ν} {fiber : κ → Bool}
  {hiPri : κ → UInt8} {s s' : State κ ν}

/-- No step changes the priority of a task. -/
theorem hiPri_step {a : Act κ ν} (h : ∀ t, s.priorityBoost t = 0)
    (hs : step fiber s a = some s') : s'.hiPri = s.hiPri ∧ s'.priorityBoost = s.priorityBoost := by
  cases a with
  | lock c x =>
    simp only [step, Option.ite_none_right_eq_some, Option.some.injEq] at hs
    obtain ⟨-, rfl⟩ := hs
    exact ⟨rfl, rfl⟩
  | tryLock c x =>
    simp only [step, Option.ite_none_right_eq_some, Option.some.injEq] at hs
    obtain ⟨-, rfl⟩ := hs
    exact ⟨rfl, rfl⟩
  | unlock c x =>
    simp only [step, Option.ite_none_right_eq_some, Option.some.injEq] at hs
    obtain ⟨-, rfl⟩ := hs
    exact ⟨rfl, rfl⟩
  | next c callerTask =>
    simp only [step, nextStep] at hs
    split at hs
    · cases hs
    · split at hs <;> cases hs <;> exact ⟨rfl, rfl⟩
    · split at hs <;> cases hs <;> exact ⟨rfl, rfl⟩
    · split at hs <;> cases hs
      exact ⟨rfl, rfl⟩
    · cases hs
      exact ⟨rfl, rfl⟩
    · cases hs
      exact ⟨rfl, rfl⟩
    · cases hs
      exact ⟨rfl, rfl⟩
    · cases hs
      rw [unboost_eq_self h]
      exact ⟨rfl, rfl⟩
    · cases hs
      exact ⟨rfl, rfl⟩

omit [DecidableEq ν] in
/-- The rule for a step of the context `c`: what it adds to the queues and the holders is what the
program has there. -/
theorem Used.move {c : κ} {p : Pc κ ν} (h : Used calls fiber hiPri s)
    (hkeeps : s'.hiPri = s.hiPri ∧ s'.priorityBoost = s.priorityBoost)
    (hpc : s'.pc = Function.update s.pc c p) (hcalled : p.Called calls fiber c)
    (hwaiting : ∀ x, ∀ f ∈ (s'.mutex x).waitingFibers,
      f ∈ (s.mutex x).waitingFibers ∨ fiber f ∧ calls.locks f x)
    (hholder : ∀ x t, s'.lockHolder x = some t →
      s.lockHolder x = some t ∨ calls.Holds fiber x t) : Used calls fiber hiPri s' where
  hiPri := hkeeps.1.trans h.hiPri
  boost t := by rw [hkeeps.2, h.boost]
  waiting x f hf := (hwaiting x f hf).elim (h.waiting x f) id
  holder x t ht := (hholder x t ht).elim (h.holder x t) id
  called d := by
    rw [hpc, Function.update_apply]
    split
    next hd => exact hd ▸ hcalled
    next => exact h.called d

omit [DecidableEq κ] in
/-- A changed mutex adds to the queues what it adds to its own. -/
theorem waiting_update {x : ν} {m : SchedulerMutex κ} {P : κ → ν → Prop}
    (hm : ∀ f ∈ m.waitingFibers, f ∈ (s.mutex x).waitingFibers ∨ P f x) :
    ∀ y, ∀ f ∈ (Function.update s.mutex x m y).waitingFibers,
      f ∈ (s.mutex y).waitingFibers ∨ P f y := by
  intro y f hf
  rw [Function.update_apply] at hf
  split at hf
  next heq => exact heq ▸ hm f hf
  next => exact .inl hf

/-- Every step of the program keeps it. -/
theorem Used.step {a : Act κ ν} (h : Used calls fiber hiPri s) (hmakes : calls.Makes a)
    (hs : Mutex.step fiber s a = some s') : Used calls fiber hiPri s' := by
  have hkeeps := hiPri_step h.boost hs
  cases a with
  | lock c x =>
    simp only [Mutex.step, Option.ite_none_right_eq_some, Option.some.injEq] at hs
    obtain ⟨-, rfl⟩ := hs
    refine h.move hkeeps rfl ?_ (fun _ _ => .inl) fun _ _ => .inl
    split
    next hfiber => exact ⟨hfiber, hmakes⟩
    next => exact .inl hmakes
  | tryLock c x =>
    simp only [Mutex.step, Option.ite_none_right_eq_some, Option.some.injEq] at hs
    obtain ⟨-, rfl⟩ := hs
    exact h.move hkeeps rfl (.inr hmakes) (fun _ _ => .inl) fun _ _ => .inl
  | unlock c x =>
    simp only [Mutex.step, Option.ite_none_right_eq_some, Option.some.injEq] at hs
    obtain ⟨-, rfl⟩ := hs
    exact h.move hkeeps rfl trivial (fun _ _ => .inl) fun _ _ => .inl
  | next c callerTask =>
    simp only [Mutex.step, nextStep] at hs
    have hcalled := h.called c
    cases hpc : s.pc c with
    | idle =>
      rw [hpc] at hs
      cases hs
    | lock x =>
      rw [hpc] at hcalled
      simp only [hpc, SchedulerMutex.lock] at hs
      cases hl : (s.mutex x).locked with
      | false =>
        simp only [hl, Bool.not_false, if_true, Option.some.injEq] at hs
        subst hs
        exact h.move hkeeps rfl (.inl hcalled.2) (waiting_update fun _ => .inl) fun _ _ => .inl
      | true =>
        simp only [hl, Bool.not_true, Bool.false_eq_true, if_false, Option.some.injEq] at hs
        subst hs
        refine h.move hkeeps rfl (.inl hcalled.2) (waiting_update fun f hf => ?_) fun _ _ => .inl
        rcases List.mem_append.1 hf with hf | hf
        · exact .inl hf
        · obtain rfl := List.mem_singleton.1 hf
          exact .inr hcalled
    | tryLock x spins =>
      rw [hpc] at hcalled
      simp only [hpc, SchedulerMutex.tryLock] at hs
      cases hl : (s.mutex x).locked with
      | false =>
        simp only [hl, Bool.false_eq_true, if_false, Option.some.injEq] at hs
        subst hs
        exact h.move hkeeps rfl hcalled (waiting_update fun _ => .inl) fun _ _ => .inl
      | true =>
        simp only [hl, if_true, Option.some.injEq] at hs
        subst hs
        refine h.move hkeeps rfl ?_ (fun _ _ => .inl) fun _ _ => .inl
        split
        · exact hcalled
        · trivial
    | suspended x =>
      rw [hpc] at hcalled
      simp only [hpc, Option.ite_none_right_eq_some, Option.some.injEq] at hs
      obtain ⟨-, rfl⟩ := hs
      exact h.move hkeeps rfl hcalled (fun _ _ => .inl) fun _ _ => .inl
    | setHolder x waited =>
      rw [hpc] at hcalled
      simp only [hpc, Option.some.injEq] at hs
      subst hs
      refine h.move hkeeps rfl trivial (fun _ _ => .inl) fun y t ht => ?_
      simp only [Function.update_apply] at ht
      split at ht
      next heq =>
        refine .inr ⟨c, heq ▸ hcalled, ?_⟩
        split at ht
        next hfiber =>
          rw [if_pos hfiber]
          exact Option.some.inj ht
        next hfiber =>
          rw [if_neg hfiber]
          exact hmakes t ht
      next => exact .inl ht
    | clearHolder x =>
      simp only [hpc, Option.some.injEq] at hs
      subst hs
      refine h.move hkeeps rfl trivial (fun _ _ => .inl) fun y t ht => ?_
      simp only [Function.update_apply] at ht
      split at ht
      · cases ht
      · exact .inl ht
    | unlock x wasHolder =>
      simp only [hpc, Option.some.injEq] at hs
      subst hs
      refine h.move hkeeps rfl trivial (waiting_update fun f hf => ?_) fun _ _ => .inl
      cases hw : (s.mutex x).waitingFibers with
      | nil => simp [hw] at hf
      | cons g rest =>
        simp only [hw] at hf
        exact .inl (.tail _ hf)
    | unboost wasHolder nextFiber =>
      simp only [hpc, Option.some.injEq] at hs
      rw [unboost_eq_self h.boost] at hs
      subst hs
      refine h.move hkeeps rfl ?_ (fun _ _ => .inl) fun _ _ => .inl
      cases nextFiber <;> trivial
    | resume f =>
      simp only [hpc, Option.some.injEq] at hs
      subst hs
      exact h.move hkeeps rfl trivial (fun _ _ => .inl) fun _ _ => .inl

/-! ## A program with an inversion -/

/-- The first call on a free mutex gets it. -/
theorem nextStep_free {c : κ} {x : ν} {callerTask : Option κ} {p : Pc κ ν}
    (hp : p = .lock x ∨ ∃ spins, p = .tryLock x spins) :
    nextStep fiber ((State.init hiPri).setPc c p) c callerTask =
      some (((State.init hiPri).setPc c p).got c x ⟨true, []⟩) := by
  rcases hp with rfl | ⟨spins, rfl⟩
  · simp only [nextStep, State.setPc, Function.update_self]
    rfl
  · simp only [nextStep, State.setPc, Function.update_self]
    rfl

/-- A task that can be the holder of a mutex is it after some steps of the program. -/
theorem Calls.Holds.exists_run {x : ν} {t : κ} (h : calls.Holds fiber x t) (hiPri : κ → UInt8) :
    ∃ as s, (∀ a ∈ as, calls.Makes a) ∧
      Lts.run (Mutex.step fiber) (State.init hiPri) as = some s ∧ s.hiPri = hiPri ∧
      (∀ d, s.pc d = .idle) ∧ (s.mutex x).locked = true ∧ s.lockHolder x = some t := by
  obtain ⟨c, hcalls, hholds⟩ := h
  let caller : Option κ := if fiber c then none else some t
  have hcaller : calls.Makes (.next c caller : Act κ ν) := by
    intro u hu
    cases hfiber : fiber c with
    | true => simp [caller, hfiber] at hu
    | false =>
      obtain rfl : t = u := by simpa [caller, hfiber] using hu
      simpa [hfiber] using hholds
  have hholder : (if fiber c then some c else caller) = some t := by
    cases hfiber : fiber c with
    | true => simpa [hfiber] using hholds
    | false => simp [caller, hfiber]
  obtain ⟨a, p, hmakes, hstep, hp⟩ : ∃ (a : Act κ ν) (p : Pc κ ν), calls.Makes a ∧
      Mutex.step fiber (State.init hiPri) a = some ((State.init hiPri).setPc c p) ∧
      (p = .lock x ∨ ∃ spins, p = .tryLock x spins) := by
    rcases hcalls with hlocks | htries
    · refine ⟨.lock c x, _, hlocks, rfl, ?_⟩
      split
      · exact .inl rfl
      · exact .inr ⟨true, rfl⟩
    · exact ⟨.tryLock c x, _, htries, rfl, .inr ⟨false, rfl⟩⟩
  let s₂ : State κ ν := ((State.init hiPri).setPc c p).got c x ⟨true, []⟩
  let s₃ : State κ ν := { s₂.setPc c .idle with
    lockHolder := Function.update s₂.lockHolder x (some t) }
  have hnext : nextStep fiber s₂ c caller = some s₃ := by
    have hpc : s₂.pc c = .setHolder x false := Function.update_self _ _ _
    rw [nextStep, hpc]
    simp only [hholder]
    rfl
  refine ⟨[a, .next c caller, .next c caller], s₃, ?_, ?_, rfl, fun d => ?_, ?_, ?_⟩
  · simp only [List.forall_mem_cons, hmakes, hcaller, List.not_mem_nil, false_implies,
      implies_true, and_self]
  · refine Lts.run_cons_eq_some.2 ⟨_, hstep, Lts.run_cons_eq_some.2 ⟨s₂, nextStep_free hp, ?_⟩⟩
    exact Lts.run_cons_eq_some.2 ⟨s₃, hnext, rfl⟩
  · simp only [s₃, s₂, State.setPc, State.got, Function.update_apply]
    split <;> rfl
  · simp only [s₃, s₂, State.setPc, State.got, Function.update_self]
  · exact Function.update_self _ _ _

/-- A fiber that calls `Lock` on a locked mutex waits, and the holder stays as it is. -/
theorem exists_waiting {f : κ} {x : ν} (hidle : s.pc f = .idle) (hfiber : fiber f = true)
    (hlocked : (s.mutex x).locked = true) :
    ∃ s', Lts.run (Mutex.step fiber) s [.lock f x, .next f none] = some s' ∧
      f ∈ (s'.mutex x).waitingFibers ∧ s'.hiPri = s.hiPri ∧ s'.lockHolder = s.lockHolder := by
  have hlock : Mutex.step fiber s (.lock f x) = some (s.setPc f (.lock x)) := by
    simp only [Mutex.step, hidle, hfiber, if_true]
  have hqueue : nextStep fiber (s.setPc f (.lock x)) f none =
      some ((s.setPc f (.lock x)).queue f x
        { s.mutex x with waitingFibers := (s.mutex x).waitingFibers ++ [f] }) := by
    simp [nextStep, State.setPc, SchedulerMutex.lock, hlocked]
  refine ⟨_, Lts.run_cons_eq_some.2 ⟨_, hlock, Lts.run_cons_eq_some.2 ⟨_, hqueue, rfl⟩⟩, ?_,
    rfl, rfl⟩
  simp [State.queue]

/-- For every program of tasks with these creation priorities: in every state of every run, the task
that holds a mutex has a high priority whenever the fiber of a task of high priority waits for it,
exactly when no mutex has both a fiber of high priority that calls `Lock` and a possible holder of
low priority. -/
theorem holder_hiPri_iff (calls : Calls κ ν) (fiber : κ → Bool) (hiPri : κ → UInt8) :
    (∀ as s, (∀ a ∈ as, calls.Makes a) →
        Lts.run (Mutex.step fiber) (State.init hiPri) as = some s → Inherits s) ↔
      calls.Agree fiber hiPri := by
  constructor
  · intro hall x f hfiber hlocks hhigh t hholds
    obtain ⟨as, s, hmakes, hrun, hpri, hidle, hlocked, hholder⟩ := hholds.exists_run hiPri
    obtain ⟨s', hrun', hwaits, hpri', hholder'⟩ := exists_waiting (hidle f) hfiber hlocked
    have hinherits := hall (as ++ [.lock f x, .next f none]) s' ?_ ?_ x f hwaits
    · rw [hpri', hpri, hholder'] at hinherits
      exact hinherits hhigh t hholder
    · intro a ha
      rcases List.mem_append.1 ha with ha | ha
      · exact hmakes a ha
      · simp only [List.mem_cons, List.not_mem_nil, or_false] at ha
        rcases ha with rfl | rfl
        · exact hlocks
        · exact fun t ht => by cases ht
    · rw [Lts.run_append, hrun]
      exact hrun'
  · intro hagree as s hmakes hrun
    have hused := Lts.run_inv_of (I := Used calls fiber hiPri) (G := fun _ a => calls.Makes a)
      (fun h ha hs => h.step ha hs) Used.init hrun fun q hq => hmakes q.2 (Lts.mem_of_mem_visits hq)
    exact hused.inherits hagree

end

/-- The fiber of the task `true` waits for the mutex that the task `false` holds. -/
def waitsBehind : List (Act Bool Unit) :=
  [.lock false (), .next false none, .next false none, .lock true (), .next true none]

/-- The task `false` has a low priority and is not boosted. -/
theorem holder_not_boosted :
    ¬ ∀ (hiPri : Bool → UInt8) (as : List (Act Bool Unit)) (s : State Bool Unit),
      Lts.run (step fun _ => true) (State.init hiPri) as = some s → Inherits s := by
  intro hall
  have := hall (fun t => if t then 1 else 0) waitsBehind _ (Option.some_get (by decide)).symm ()
    true (by decide) (by decide) false (by decide)
  exact this (by decide)

end JLibScheduler.Mutex
