import JLibScheduler.ConditionVariable.Order

/-!
# Each notification is delivered once

`Sems` ties the value of a semaphore to where its fiber stands (`Stage`) and to how often it was
signalled, `Spins` says who holds the spin lock of a semaphore, and `Wakes` that a fiber is resumed
once for each time it is suspended. With the order of the queues they give that a `Wait` gets past
its semaphore after exactly one `Signal`, and that no `Signal` touches the semaphore any more then
(`notify_once`).
-/

namespace JLibScheduler.ConditionVariable

open JLibScheduler.Sync (SchedulerMutex SchedulerSemaphore)

section
variable {κ χ ν : Type}

/-- How far a fiber is with its semaphore: not queued in it, queued in it or taken from its queue,
or with a permit. -/
inductive Stage where
  | before
  | queued
  | got
  deriving DecidableEq, Repr

/-- The value of the semaphore of `c`, which was signalled `n` times. -/
def Stage.Ok (c : κ) (n : ℕ) (m : SchedulerSemaphore κ) : Stage → Prop
  | .before => m = ⟨n, 1, []⟩
  | .queued => (n = 0 ∧ m = ⟨0, 1, [c]⟩) ∨ (n = 1 ∧ m = ⟨0, 1, []⟩)
  | .got => n = 1 ∧ m = ⟨0, 1, []⟩

def After.stage : After ν → Option (ℕ × Stage)
  | .wait k _ => some (k, .before)
  | _ => none

/-- The semaphore of the `Wait` call that a context is in, and how far it is. -/
def Pc.stage : Pc κ χ ν → Option (ℕ × Stage)
  | .unlock _ after | .resume _ after => after.stage
  | .waitSpin k _ | .waitBody k _ => some (k, .before)
  | .waitClear k _ true => some (k, .got)
  | .waitClear k _ false | .waitSuspended k _ => some (k, .queued)
  | _ => none

/-- The semaphore whose spin lock a context holds. -/
def Pc.holds : Pc κ χ ν → Option ℕ
  | .waitBody k _ | .waitClear k _ _ | .signalBody k _ | .signalClear k _ _ => some k
  | _ => none

/-- The fiber that a context is about to resume. -/
def Pc.wakes : Pc κ χ ν → Option κ
  | .signalClear _ nextFiber _ => nextFiber
  | .resume f _ => some f
  | _ => none

/-- The semaphore that the next step of a `Signal` reads or writes. -/
def Pc.touches : Pc κ χ ν → Option ℕ
  | .signalSpin k _ | .signalBody k _ | .signalClear k _ _ => some k
  | _ => none

/-- A fiber that waits for `Resume`. -/
def Pc.suspended : Pc κ χ ν → Bool
  | .lockSuspended _ | .waitSuspended _ _ => true
  | _ => false

@[simp] theorem After.stage_pc (after : After ν) : (after.pc : Pc κ χ ν).stage = after.stage := by
  match after with
  | .done | .wait _ _ | .lock _ | .signals [] | .signals (_ :: _) => rfl

@[simp] theorem After.holds_pc (after : After ν) : (after.pc : Pc κ χ ν).holds = none := by
  match after with
  | .done | .wait _ _ | .lock _ | .signals [] | .signals (_ :: _) => rfl

@[simp] theorem After.wakes_pc (after : After ν) : (after.pc : Pc κ χ ν).wakes = none := by
  match after with
  | .done | .wait _ _ | .lock _ | .signals [] | .signals (_ :: _) => rfl

theorem After.pc_ne_signalClear (after : After ν) (k : ℕ) (f : Option κ) (ks : List ℕ) :
    (after.pc : Pc κ χ ν) ≠ .signalClear k f ks := by
  match after with
  | .done | .wait _ _ | .lock _ | .signals [] | .signals (_ :: _) => exact fun h => by cases h

@[simp] theorem Pc.stage_elim (nextFiber : Option κ) (after : After ν) :
    (nextFiber.elim after.pc fun f => .resume f after : Pc κ χ ν).stage = after.stage := by
  cases nextFiber with
  | none => exact after.stage_pc
  | some f => rfl

@[simp] theorem Pc.holds_elim (nextFiber : Option κ) (after : After ν) :
    (nextFiber.elim after.pc fun f => .resume f after : Pc κ χ ν).holds = none := by
  cases nextFiber with
  | none => exact after.holds_pc
  | some f => rfl

@[simp] theorem Pc.wakes_elim (nextFiber : Option κ) (after : After ν) :
    (nextFiber.elim after.pc fun f => .resume f after : Pc κ χ ν).wakes = nextFiber := by
  cases nextFiber with
  | none => exact after.wakes_pc
  | some f => rfl

theorem Pc.elim_ne_signalClear (nextFiber : Option κ) (after : After ν) (k : ℕ) (f : Option κ)
    (ks : List ℕ) :
    (nextFiber.elim after.pc fun f => .resume f after : Pc κ χ ν) ≠ .signalClear k f ks := by
  cases nextFiber with
  | none => exact after.pc_ne_signalClear k f ks
  | some g => exact fun h => by cases h

theorem Pc.ne_waitSuspended {p : Pc κ χ ν} (h : p.suspended = false) (k : ℕ) (x : ν) :
    p ≠ .waitSuspended k x := by
  rintro rfl
  cases h

theorem Pc.waits_eq (p : Pc κ χ ν) : p.waits = p.stage.map Prod.fst := by
  match p with
  | .unlock _ (.wait _ _) | .unlock _ .done | .unlock _ (.lock _) | .unlock _ (.signals _)
  | .resume _ (.wait _ _) | .resume _ .done | .resume _ (.lock _) | .resume _ (.signals _)
  | .waitSpin _ _ | .waitBody _ _ | .waitClear _ _ true | .waitClear _ _ false
  | .waitSuspended _ _ | .idle | .push _ _ | .lock _ | .lockSuspended _ | .notifyOne _
  | .notifyAll _ | .signalSpin _ _ | .signalBody _ _ | .signalClear _ _ _ => rfl

/-- The spin lock of a semaphore has one holder. -/
structure Spins (s : State κ χ ν) : Prop where
  spin : ∀ c k, (s.pc c).holds = some k → (s.sem k).spinLock = true
  once : ∀ c d k, (s.pc c).holds = some k → (s.pc d).holds = some k → c = d

/-- What a semaphore is worth. -/
structure Sems (s : State κ χ ν) : Prop where
  stage : ∀ c k g, (s.pc c).stage = some (k, g) →
    s.returned k = false ∧ g.Ok c (s.signals k) (s.sem k).val
  returned : ∀ k, s.returned k = true → s.signals k = 1 ∧ (s.sem k).val = ⟨0, 1, []⟩
  fresh : ∀ k, s.call k = none → s.returned k = false ∧ (s.sem k).val = ⟨0, 1, []⟩
  alive : ∀ k c v, s.call k = some (c, v) → s.returned k = false → (s.pc c).waits = some k
  clears : ∀ c k f ks, s.pc c = .signalClear k f ks →
    f.elim ((s.sem k).val.permits = 1) fun f => ∃ x, s.pc f = .waitSuspended k x

/-- The fiber `f` was taken from the queue it was in. -/
def Taken (s : State κ χ ν) (f : κ) : Prop :=
  (∃ x, s.pc f = .lockSuspended x ∧ f ∉ (s.mutex x).waitingFibers) ∨
    ∃ k x, s.pc f = .waitSuspended k x ∧ s.signals k = 1

/-- A suspended fiber is resumed once. -/
structure Wakes (s : State κ χ ν) : Prop where
  waiting : ∀ x, ∀ f ∈ (s.mutex x).waitingFibers, s.pc f = .lockSuspended x
  nodup : ∀ x, (s.mutex x).waitingFibers.Nodup
  resumed : ∀ f, s.resumed f = true → Taken s f
  wakes : ∀ c f, (s.pc c).wakes = some f → Taken s f ∧ s.resumed f = false
  once : ∀ c d f, (s.pc c).wakes = some f → (s.pc d).wakes = some f → c = d

/-- The invariant. -/
structure Inv (s : State κ χ ν) : Prop where
  order : Order s
  tokens : Tokens s
  spins : Spins s
  sems : Sems s
  wakes : Wakes s

theorem Inv.init : Inv (State.init : State κ χ ν) where
  order := .init
  tokens := .init
  spins := ⟨fun c k h => (by cases h), fun c d k h => (by cases h)⟩
  sems :=
    { stage := fun c k g h => (by cases h)
      returned := fun k h => (by cases h)
      fresh := fun k h => ⟨rfl, rfl⟩
      alive := fun k c v h => (by cases h)
      clears := fun c k f ks h => (by cases h) }
  wakes :=
    { waiting := fun x f h => (by cases h)
      nodup := fun x => List.nodup_nil
      resumed := fun f h => (by cases h)
      wakes := fun c f h => (by cases h)
      once := fun c d f h => (by cases h) }

/-! ## Who holds a spin lock -/

variable {s s' : State κ χ ν} {c : κ} {k : ℕ}

/-- The spin lock of a semaphore changes, and not its value. -/
theorem State.val_setSem {b : Bool} (s : State κ χ ν) (k j : ℕ) :
    ((s.setSem k ⟨b, (s.sem k).val⟩).sem j).val = (s.sem j).val := by
  simp only [State.setSem, Function.update_apply]
  split
  next heq => rw [heq]
  next => rfl

theorem Spins.move (h : Spins s) (hpc : ∀ d, d ≠ c → s'.pc d = s.pc d)
    (hholds : (s'.pc c).holds = (s.pc c).holds)
    (hspin : ∀ k, (s.sem k).spinLock = true → (s'.sem k).spinLock = true) : Spins s' := by
  have hall : ∀ d, (s'.pc d).holds = (s.pc d).holds := by
    intro d
    by_cases hd : d = c
    · rw [hd, hholds]
    · rw [hpc d hd]
  exact ⟨fun d k hd => hspin k (h.spin d k (hall d ▸ hd)),
    fun d e k hd he => h.once d e k (hall d ▸ hd) (hall e ▸ he)⟩

end

section
variable {κ χ ν : Type} [DecidableEq κ] {s s' : State κ χ ν} {c : κ} {k : ℕ} {p : Pc κ χ ν}
  {m : Semaphore κ}

/-- A context takes the spin lock of `k`. -/
theorem Spins.acquire (h : Spins s) (hpc : s'.pc = Function.update s.pc c p)
    (hholds : p.holds = some k) (hfree : (s.sem k).spinLock = false)
    (hsem : s'.sem = Function.update s.sem k m) (hm : m.spinLock = true) : Spins s' := by
  have hself : (s'.pc c).holds = some k := by rw [hpc, Function.update_self, hholds]
  have hne : ∀ d, d ≠ c → s'.pc d = s.pc d := fun d hd => by rw [hpc, Function.update_of_ne hd]
  have hnot : ∀ d, d ≠ c → (s'.pc d).holds ≠ some k := by
    intro d hd hk
    rw [hne d hd] at hk
    exact absurd (h.spin d k hk) (hfree ▸ Bool.false_ne_true)
  refine ⟨fun d j hd => ?_, fun d e j hd he => ?_⟩
  · by_cases hj : j = k
    · rw [hj, hsem, Function.update_self, hm]
    · rw [hsem, Function.update_of_ne hj]
      by_cases hdc : d = c
      · rw [hdc, hself] at hd
        exact absurd (Option.some.inj hd).symm hj
      · exact h.spin d j (hne d hdc ▸ hd)
  · by_cases hdc : d = c
    · by_cases hec : e = c
      · rw [hdc, hec]
      · rw [hdc, hself] at hd
        exact absurd (he.trans hd.symm) (hnot e hec)
    · by_cases hec : e = c
      · rw [hec, hself] at he
        exact absurd (hd.trans he.symm) (hnot d hdc)
      · exact h.once d e j (hne d hdc ▸ hd) (hne e hec ▸ he)

/-- A context gives the spin lock of `k` back. -/
theorem Spins.release (h : Spins s) (hpc : s'.pc = Function.update s.pc c p)
    (hhold : (s.pc c).holds = some k) (hholds : p.holds = none)
    (hsem : s'.sem = Function.update s.sem k m) : Spins s' := by
  have hne : ∀ d j, (s'.pc d).holds = some j → d ≠ c ∧ (s.pc d).holds = some j := by
    intro d j hd
    by_cases hdc : d = c
    · rw [hpc, hdc, Function.update_self, hholds] at hd
      cases hd
    · rw [hpc, Function.update_of_ne hdc] at hd
      exact ⟨hdc, hd⟩
  refine ⟨fun d j hd => ?_, fun d e j hd he => ?_⟩
  · obtain ⟨hdc, hd⟩ := hne d j hd
    rw [hsem, Function.update_of_ne, h.spin d j hd]
    rintro rfl
    exact hdc (h.once d c j hd hhold)
  · exact h.once d e j (hne d j hd).2 (hne e j he).2

end

section
variable {κ χ ν : Type} {s s' : State κ χ ν} {c : κ} {k : ℕ}

/-! ## What a semaphore is worth -/

/-- A step that changes the value of no semaphore. -/
theorem Sems.move (h : Sems s) (hpc : ∀ d, d ≠ c → s'.pc d = s.pc d)
    (hstage : (s'.pc c).stage = (s.pc c).stage) (hsusp : ∀ k x, s.pc c ≠ .waitSuspended k x)
    (hclears : ∀ k f ks, s'.pc c ≠ .signalClear k f ks) (hval : ∀ k, (s'.sem k).val = (s.sem k).val)
    (hcall : s'.call = s.call) (hsignals : s'.signals = s.signals)
    (hreturned : s'.returned = s.returned) : Sems s' := by
  have hall : ∀ d, (s'.pc d).stage = (s.pc d).stage := by
    intro d
    by_cases hd : d = c
    · rw [hd, hstage]
    · rw [hpc d hd]
  constructor
  · intro d k g hd
    rw [hreturned, hsignals, hval]
    exact h.stage d k g (hall d ▸ hd)
  · intro k hk
    rw [hsignals, hval]
    exact h.returned k (hreturned ▸ hk)
  · intro k hk
    rw [hreturned, hval]
    exact h.fresh k (hcall ▸ hk)
  · intro k d v hd hk
    rw [Pc.waits_eq, hall d, ← Pc.waits_eq]
    exact h.alive k d v (hcall ▸ hd) (hreturned ▸ hk)
  · intro d k f ks hd
    have hdc : d ≠ c := by
      rintro rfl
      exact hclears k f ks hd
    have hold := h.clears d k f ks (hpc d hdc ▸ hd)
    cases f with
    | none =>
      rw [Option.elim_none, hval]
      exact hold
    | some f =>
      obtain ⟨x, hx⟩ := hold
      refine ⟨x, ?_⟩
      rw [hpc f, hx]
      rintro rfl
      exact hsusp k x hx

/-- The semaphore `k` changes, which belongs to `d`, and no other one. -/
theorem Sems.change {d : κ} (h : Sems s) (hord : Order s)
    (hval : ∀ j, j ≠ k → (s'.sem j).val = (s.sem j).val)
    (hsignals : ∀ j, j ≠ k → s'.signals j = s.signals j)
    (hreturned : ∀ j, j ≠ k → s'.returned j = s.returned j) (hcall : s'.call = s.call)
    (hd : ∃ v, s.call k = some (d, v))
    (hstage : ∀ e, e ≠ d → (s'.pc e).stage = (s.pc e).stage)
    (hself : (s'.pc d).stage = none ∧ s'.returned k = true ∧ s'.signals k = 1 ∧
        (s'.sem k).val = ⟨0, 1, []⟩ ∨
      ∃ g, (s'.pc d).stage = some (k, g) ∧ s'.returned k = false ∧
        g.Ok d (s'.signals k) (s'.sem k).val)
    (hold : (s.pc d).waits = some k)
    (hclears : ∀ e j f ks, s'.pc e = .signalClear j f ks →
      f.elim ((s'.sem j).val.permits = 1) fun f => ∃ x, s'.pc f = .waitSuspended j x) :
    Sems s' := by
  have howner : ∀ e, (s.pc e).waits = some k → e = d := by
    intro e he
    obtain ⟨v, hv⟩ := hord.waits e k he
    obtain ⟨w, hw⟩ := hd
    have := hv.symm.trans hw
    cases this
    rfl
  have hother : ∀ j, j ≠ k → ∀ e g, (s'.pc e).stage = some (j, g) →
      (s.pc e).stage = some (j, g) := by
    intro j hj e g he
    by_cases hed : e = d
    · subst hed
      rcases hself with ⟨hnone, -⟩ | ⟨g', hg', -⟩
      · rw [hnone] at he
        cases he
      · rw [hg'] at he
        cases he
        exact absurd rfl hj
    · rw [← hstage e hed, he]
  constructor
  · intro e j g he
    by_cases hj : j = k
    · subst hj
      by_cases hed : e = d
      · subst hed
        rcases hself with ⟨hnone, -⟩ | ⟨g', hg', hok⟩
        · rw [hnone] at he
          cases he
        · rw [hg'] at he
          cases he
          exact hok
      · rw [hstage e hed] at he
        refine absurd (howner e ?_) hed
        rw [Pc.waits_eq, he]
        rfl
    · rw [hval j hj, hsignals j hj, hreturned j hj]
      exact h.stage e j g (hother j hj e g he)
  · intro j hj
    by_cases hjk : j = k
    · subst hjk
      rcases hself with ⟨-, -, hone⟩ | ⟨g, -, hfalse, -⟩
      · exact hone
      · rw [hfalse] at hj
        cases hj
    · rw [hval j hjk, hsignals j hjk]
      exact h.returned j (hreturned j hjk ▸ hj)
  · intro j hj
    rw [hcall] at hj
    have hjk : j ≠ k := by
      rintro rfl
      obtain ⟨v, hv⟩ := hd
      rw [hv] at hj
      cases hj
    rw [hval j hjk, hreturned j hjk]
    exact h.fresh j hj
  · intro j e v he hj
    rw [hcall] at he
    by_cases hjk : j = k
    · subst hjk
      obtain ⟨w, hw⟩ := hd
      have := hw.symm.trans he
      cases this
      rcases hself with ⟨-, htrue, -⟩ | ⟨g, hg, -⟩
      · rw [htrue] at hj
        cases hj
      · rw [Pc.waits_eq, hg]
        rfl
    · rw [hreturned j hjk] at hj
      have hwaits := h.alive j e v he hj
      by_cases hed : e = d
      · rw [hed, hold] at hwaits
        exact absurd (Option.some.inj hwaits).symm hjk
      · rw [Pc.waits_eq, hstage e hed, ← Pc.waits_eq]
        exact hwaits
  · exact hclears

/-- The semaphore that a notify is about to signal: its fiber is not queued in it yet, or is
suspended. -/
theorem Inv.signal_cases {ks : List ℕ} (h : Inv s) (hpc : s.pc c = .signalBody k ks) :
    s.signals k = 0 ∧ ∃ d, (∃ v, s.call k = some (d, v)) ∧ d ≠ c ∧ s.returned k = false ∧
      ((s.pc d).stage = some (k, .before) ∧ (s.sem k).val = ⟨0, 1, []⟩ ∨
        ∃ x, s.pc d = .waitSuspended k x ∧ (s.sem k).val = ⟨0, 1, [d]⟩) := by
  obtain ⟨hzero, v, hv⟩ := h.tokens.unsent c k (by rw [hpc]; exact .head _)
  obtain ⟨d, hd⟩ := (h.order.call v k).1 (h.order.mem_queued_of_taken hv)
  have hret : s.returned k = false := by
    cases hr : s.returned k with
    | false => rfl
    | true =>
      have hone := (h.sems.returned k hr).1
      omega
  have hwaits := h.sems.alive k d v hd hret
  have hdc : d ≠ c := by
    rintro rfl
    rw [hpc] at hwaits
    cases hwaits
  refine ⟨hzero, d, ⟨v, hd⟩, hdc, hret, ?_⟩
  rw [Pc.waits_eq, Option.map_eq_some_iff] at hwaits
  obtain ⟨⟨j, g⟩, hstage, hj⟩ := hwaits
  obtain rfl : j = k := hj
  have hok := (h.sems.stage d j g hstage).2
  rw [hzero] at hok
  cases g with
  | before => exact .inl ⟨hstage, hok⟩
  | got => exact absurd hok.1 (by decide)
  | queued =>
    have hval := (hok.resolve_right fun hone => absurd hone.1 (by decide)).2
    refine .inr ?_
    have hhold : (s.pc d).holds ≠ some j := fun hhold =>
      hdc (h.spins.once d c j hhold (by rw [hpc]; rfl))
    revert hstage hhold
    match s.pc d with
    | .waitSuspended _ x =>
      intro hstage _
      cases hstage
      exact ⟨x, rfl, hval⟩
    | .waitClear _ _ false =>
      intro hstage hhold
      cases hstage
      exact absurd rfl hhold
    | .waitClear _ _ true | .unlock _ (.wait _ _) | .unlock _ .done | .unlock _ (.lock _)
    | .unlock _ (.signals _) | .resume _ (.wait _ _) | .resume _ .done | .resume _ (.lock _)
    | .resume _ (.signals _) | .waitSpin _ _ | .waitBody _ _ | .idle | .push _ _ | .lock _
    | .lockSuspended _ | .notifyOne _ | .notifyAll _ | .signalSpin _ _ | .signalBody _ _
    | .signalClear _ _ _ =>
      intro hstage
      cases hstage

end

section
variable {κ χ ν : Type} [DecidableEq κ] {s s' : State κ χ ν} {c : κ} {k : ℕ} {x : ν}

/-- A fiber takes the permit of its semaphore, or is queued in it. -/
theorem Inv.waitBody (h : Inv s) (hpc : s.pc c = .waitBody k x) : Sems (s.waitBody c k x) := by
  obtain ⟨hret, hval⟩ := h.sems.stage c k .before (by rw [hpc]; rfl)
  have hwaits : (s.pc c).waits = some k := by rw [hpc]; rfl
  have hpc' : (s.waitBody c k x).pc c = .waitClear k x ((s.sem k).val.wait c).2 :=
    Function.update_self _ _ _
  have hne : ∀ e, e ≠ c → (s.waitBody c k x).pc e = s.pc e :=
    fun e he => Function.update_of_ne he _ _
  have hsem : ∀ j, j ≠ k → (s.waitBody c k x).sem j = s.sem j :=
    fun j hj => Function.update_of_ne hj _ _
  have hsemk : ((s.waitBody c k x).sem k).val = ((s.sem k).val.wait c).1 := by
    rw [show (s.waitBody c k x).sem k = ⟨true, ((s.sem k).val.wait c).1⟩ from
      Function.update_self _ _ _]
  refine h.sems.change h.order (fun j hj => congrArg Semaphore.val (hsem j hj)) (fun _ _ => rfl)
    (fun _ _ => rfl) rfl (h.order.waits c k hwaits) (fun e he => congrArg Pc.stage (hne e he))
    (.inr ?_) hwaits fun e j f ks he => ?_
  · rw [hsemk, hpc', hval]
    have hle := h.tokens.signals_le_one k
    obtain hz | hone : s.signals k = 0 ∨ s.signals k = 1 := by omega
    · refine ⟨.queued, ?_, hret, .inl ⟨hz, ?_⟩⟩
      · rw [hz]
        rfl
      · rw [hz]
        rfl
    · refine ⟨.got, ?_, hret, hone, ?_⟩
      · rw [hone]
        rfl
      · rw [hone]
        rfl
  · have hec : e ≠ c := by
      rintro rfl
      rw [hpc'] at he
      cases he
    rw [hne e hec] at he
    have hjk : j ≠ k := by
      rintro rfl
      exact hec (h.spins.once e c j (by rw [he]; rfl) (by rw [hpc]; rfl))
    have hold := h.sems.clears e j f ks he
    cases f with
    | none =>
      rw [Option.elim_none, hsem j hjk]
      exact hold
    | some f =>
      obtain ⟨y, hy⟩ := hold
      refine ⟨y, ?_⟩
      rw [hne f, hy]
      rintro rfl
      rw [hpc] at hy
      cases hy

/-- A fiber gets past its semaphore. -/
theorem Inv.return (h : Inv s) (hpc : s'.pc = Function.update s.pc c (.lock x))
    (hval : ∀ j, (s'.sem j).val = (s.sem j).val) (hsignals : s'.signals = s.signals)
    (hreturned : s'.returned = Function.update s.returned k true) (hcall : s'.call = s.call)
    (hwaits : (s.pc c).waits = some k) (hgot : s.signals k = 1 ∧ (s.sem k).val = ⟨0, 1, []⟩)
    (hwakes : ∀ e, (s.pc e).wakes ≠ some c) : Sems s' := by
  have hne : ∀ e, e ≠ c → s'.pc e = s.pc e := by
    intro e he
    rw [hpc, Function.update_of_ne he]
  refine h.sems.change h.order (fun j _ => hval j) (fun j _ => congrFun hsignals j) (fun j hj => ?_)
    hcall (h.order.waits c k hwaits) (fun e he => congrArg Pc.stage (hne e he)) (.inl ?_) hwaits
    fun e j f ks he => ?_
  · rw [hreturned, Function.update_of_ne hj]
  · rw [hpc, Function.update_self, hreturned, Function.update_self, hsignals, hval]
    exact ⟨rfl, rfl, hgot⟩
  · have hec : e ≠ c := by
      rintro rfl
      rw [hpc, Function.update_self] at he
      cases he
    rw [hne e hec] at he
    have hold := h.sems.clears e j f ks he
    cases f with
    | none =>
      rw [Option.elim_none, hval]
      exact hold
    | some f =>
      obtain ⟨y, hy⟩ := hold
      refine ⟨y, ?_⟩
      rw [hne f, hy]
      rintro rfl
      exact hwakes e (by rw [he]; rfl)

/-- A notify gives a permit or takes the fiber from the queue. -/
theorem Inv.signalBody {ks : List ℕ} (h : Inv s) (hpc : s.pc c = .signalBody k ks) :
    Sems (s.signalBody c k ks) := by
  obtain ⟨hzero, d, hd, hdc, hret, hcases⟩ := h.signal_cases hpc
  have hpc' : (s.signalBody c k ks).pc c = .signalClear k (s.sem k).val.signal.2 ks :=
    Function.update_self _ _ _
  have hne : ∀ e, e ≠ c → (s.signalBody c k ks).pc e = s.pc e :=
    fun e he => Function.update_of_ne he _ _
  have hsem : ∀ j, j ≠ k → (s.signalBody c k ks).sem j = s.sem j :=
    fun j hj => Function.update_of_ne hj _ _
  have hsemk : ((s.signalBody c k ks).sem k).val = (s.sem k).val.signal.1 := by
    rw [show (s.signalBody c k ks).sem k = ⟨true, (s.sem k).val.signal.1⟩ from
      Function.update_self _ _ _]
  have hone : (s.signalBody c k ks).signals k = 1 := by
    refine (Function.update_self _ _ _).trans ?_
    rw [hzero]
  have hwaits : (s.pc d).waits = some k := by
    obtain ⟨v, hv⟩ := hd
    exact h.sems.alive k d v hv hret
  refine h.sems.change h.order (fun j hj => congrArg Semaphore.val (hsem j hj))
    (fun j hj => Function.update_of_ne hj _ _) (fun _ _ => rfl) rfl hd (fun e he => ?_) (.inr ?_)
    hwaits fun e j f ks' he => ?_
  · by_cases hec : e = c
    · rw [hec, hpc', hpc]
      rfl
    · rw [hne e hec]
  · rw [hne d hdc, hone, hsemk]
    rcases hcases with ⟨hstage, hval⟩ | ⟨y, hy, hval⟩
    · exact ⟨.before, hstage, hret, by rw [hval]; rfl⟩
    · refine ⟨.queued, by rw [hy]; rfl, hret, .inr ⟨rfl, ?_⟩⟩
      rw [hval]
      rfl
  · by_cases hec : e = c
    · rw [hec, hpc'] at he
      cases he
      rcases hcases with ⟨-, hval⟩ | ⟨y, hy, hval⟩
      · rw [hsemk, hval]
        rfl
      · rw [hval]
        exact ⟨y, by rw [hne d hdc, hy]⟩
    · rw [hne e hec] at he
      have hjk : j ≠ k := by
        rintro rfl
        exact hec (h.spins.once e c j (by rw [he]; rfl) (by rw [hpc]; rfl))
      have hold := h.sems.clears e j f ks' he
      cases f with
      | none =>
        rw [Option.elim_none, hsem j hjk]
        exact hold
      | some f =>
        obtain ⟨y, hy⟩ := hold
        refine ⟨y, ?_⟩
        rw [hne f, hy]
        rintro rfl
        rw [hpc] at hy
        cases hy

/-- A `Wait` call makes a semaphore. -/
theorem Inv.push [DecidableEq χ] {v : χ} (h : Inv s) (hpc : s.pc c = .push v x) :
    Sems (s.push c v x) := by
  have hfresh : s.call s.made = none := by
    have hnot := mt (h.order.made s.made).1 (Nat.lt_irrefl _)
    rwa [Option.not_isSome_iff_eq_none] at hnot
  have hcall : ∀ j, j ≠ s.made → (s.push c v x).call j = s.call j :=
    fun j hj => Function.update_of_ne hj _ _
  have hpc' : (s.push c v x).pc c = .unlock x (.wait s.made x) := Function.update_self _ _ _
  have hne : ∀ e, e ≠ c → (s.push c v x).pc e = s.pc e := fun e he => Function.update_of_ne he _ _
  constructor
  · intro e k g he
    by_cases hec : e = c
    · rw [hec, hpc'] at he
      cases he
      obtain ⟨hret, hval⟩ := h.sems.fresh s.made hfresh
      refine ⟨hret, hval.trans ?_⟩
      rw [show (s.push c v x).signals s.made = 0 from h.tokens.untaken _ fun w hw => ?_]
      · rfl
      · obtain ⟨d, hd⟩ := (h.order.call w s.made).1 (h.order.mem_queued_of_taken hw)
        rw [hfresh] at hd
        cases hd
    · rw [hne e hec] at he
      exact h.sems.stage e k g he
  · exact h.sems.returned
  · intro k hk
    have hkm : k ≠ s.made := by
      rintro rfl
      rw [show (s.push c v x).call s.made = some (c, v) from Function.update_self _ _ _] at hk
      cases hk
    exact h.sems.fresh k (hcall k hkm ▸ hk)
  · intro k d w hd hret
    by_cases hkm : k = s.made
    · subst hkm
      rw [show (s.push c v x).call s.made = some (c, v) from Function.update_self _ _ _] at hd
      cases hd
      rw [hpc']
      rfl
    · rw [hcall k hkm] at hd
      have hwaits := h.sems.alive k d w hd hret
      rw [hne d]
      · exact hwaits
      · rintro rfl
        rw [hpc] at hwaits
        cases hwaits
  · intro e k f ks he
    have hec : e ≠ c := by
      rintro rfl
      rw [hpc'] at he
      cases he
    have hold := h.sems.clears e k f ks (hne e hec ▸ he)
    cases f with
    | none => exact hold
    | some f =>
      obtain ⟨y, hy⟩ := hold
      refine ⟨y, ?_⟩
      rw [hne f, hy]
      rintro rfl
      rw [hpc] at hy
      cases hy

end

/-! ## Who is resumed -/

section
variable {κ χ ν : Type} {s s' : State κ χ ν} {c f : κ} {k : ℕ} {x : ν}

theorem Taken.suspended (h : Taken s f) : (s.pc f).suspended = true := by
  rcases h with ⟨x, hx, -⟩ | ⟨k, x, hx, -⟩ <;> rw [hx] <;> rfl

theorem Taken.ne (h : Taken s f) (hc : (s.pc c).suspended = false) : f ≠ c := by
  rintro rfl
  rw [h.suspended] at hc
  cases hc

/-- A step that leaves the fiber `f` alone. -/
theorem Taken.mono (h : Taken s f) (hpc : s'.pc f = s.pc f)
    (hmutex : ∀ x, f ∈ (s'.mutex x).waitingFibers → f ∈ (s.mutex x).waitingFibers)
    (hsignals : ∀ k, s.signals k = 1 → s'.signals k = 1) : Taken s' f := by
  rcases h with ⟨x, hx, hf⟩ | ⟨k, x, hx, hk⟩
  · exact .inl ⟨x, hpc.trans hx, fun hmem => hf (hmutex x hmem)⟩
  · exact .inr ⟨k, x, hpc.trans hx, hsignals k hk⟩

/-- A fiber that was taken is in the queue of no mutex. -/
theorem Wakes.not_mem (h : Wakes s) (hf : Taken s f) (x : ν) : f ∉ (s.mutex x).waitingFibers := by
  intro hmem
  have hx := h.waiting x f hmem
  rcases hf with ⟨y, hy, hnot⟩ | ⟨k, y, hy, -⟩
  · have := hx.symm.trans hy
    cases this
    exact hnot hmem
  · rw [hx] at hy
    cases hy

/-- A step that takes no fiber and resumes none. -/
theorem Wakes.move (h : Wakes s) (hpc : ∀ d, d ≠ c → s'.pc d = s.pc d)
    (hsusp : (s.pc c).suspended = false)
    (hwakes : ∀ f, (s'.pc c).wakes = some f → (s.pc c).wakes = some f)
    (hmutex : ∀ x, (s'.mutex x).waitingFibers = (s.mutex x).waitingFibers)
    (hsignals : ∀ k, s.signals k = 1 → s'.signals k = 1)
    (hresumed : ∀ f, s'.resumed f = true → s.resumed f = true) : Wakes s' := by
  have htaken : ∀ f, Taken s f → Taken s' f := fun f hf =>
    hf.mono (hpc f (hf.ne hsusp)) (fun x => hmutex x ▸ id) hsignals
  have hall : ∀ d f, (s'.pc d).wakes = some f → (s.pc d).wakes = some f := by
    intro d f hd
    by_cases hdc : d = c
    · rw [hdc] at hd ⊢
      exact hwakes f hd
    · exact hpc d hdc ▸ hd
  constructor
  · intro x f hf
    rw [hmutex] at hf
    have hx := h.waiting x f hf
    rw [hpc f, hx]
    rintro rfl
    rw [hx] at hsusp
    cases hsusp
  · exact fun x => hmutex x ▸ h.nodup x
  · exact fun f hf => htaken f (h.resumed f (hresumed f hf))
  · intro d f hd
    obtain ⟨hf, hres⟩ := h.wakes d f (hall d f hd)
    refine ⟨htaken f hf, ?_⟩
    cases hr : s'.resumed f with
    | false => rfl
    | true =>
      rw [hresumed f hr] at hres
      cases hres
  · exact fun d e f hd he => h.once d e f (hall d f hd) (hall e f he)

end

section
variable {κ χ ν : Type} [DecidableEq κ] {s s' : State κ χ ν} {c f : κ} {k : ℕ} {x : ν}

/-- A fiber that was resumed goes on. -/
theorem Wakes.continue {p : Pc κ χ ν} (h : Wakes s) (hres : s.resumed c = true)
    (hp : s'.pc = Function.update s.pc c p) (hpwakes : p.wakes = none)
    (hmutex : s'.mutex = s.mutex) (hsignals : s'.signals = s.signals)
    (hresumed : s'.resumed = Function.update s.resumed c false) : Wakes s' := by
  have hc := h.resumed c hres
  have hpc : ∀ d, d ≠ c → s'.pc d = s.pc d := fun d hd => by rw [hp, Function.update_of_ne hd]
  have hwakes : (s'.pc c).wakes = none := by rw [hp, Function.update_self, hpwakes]
  have htaken : ∀ f, f ≠ c → Taken s f → Taken s' f := fun f hfc hf =>
    hf.mono (hpc f hfc) (fun x => hmutex ▸ id) (fun k => hsignals ▸ id)
  have hne : ∀ d f, (s'.pc d).wakes = some f → d ≠ c := by
    rintro d f hd rfl
    rw [hwakes] at hd
    cases hd
  constructor
  · intro x f hf
    rw [hmutex] at hf
    rw [hpc f, h.waiting x f hf]
    rintro rfl
    exact h.not_mem hc x hf
  · exact fun x => hmutex ▸ h.nodup x
  · intro f hf
    rw [hresumed] at hf
    have hfc : f ≠ c := by
      rintro rfl
      rw [Function.update_self] at hf
      cases hf
    rw [Function.update_of_ne hfc] at hf
    exact htaken f hfc (h.resumed f hf)
  · intro d f hd
    rw [hpc d (hne d f hd)] at hd
    obtain ⟨hf, hr⟩ := h.wakes d f hd
    have hfc : f ≠ c := by
      rintro rfl
      rw [hres] at hr
      cases hr
    exact ⟨htaken f hfc hf, by rw [hresumed, Function.update_of_ne hfc, hr]⟩
  · intro d e f hd he
    have hdc := hne d f hd
    have hec := hne e f he
    exact h.once d e f (hpc d hdc ▸ hd) (hpc e hec ▸ he)

/-- A context takes the fiber `f`, which it resumes next. -/
theorem Wakes.taken (h : Wakes s) (hpc : ∀ d, d ≠ c → s'.pc d = s.pc d)
    (hsusp : (s.pc c).suspended = false) (hwakes : (s'.pc c).wakes = some f)
    (hmutex : ∀ x, (s'.mutex x).waitingFibers.Sublist (s.mutex x).waitingFibers)
    (hsignals : ∀ k, s.signals k = 1 → s'.signals k = 1) (hresumed : s'.resumed = s.resumed)
    (hf : Taken s' f) (hnot : ¬ Taken s f) : Wakes s' := by
  have htaken : ∀ g, Taken s g → Taken s' g := fun g hg =>
    hg.mono (hpc g (hg.ne hsusp)) (fun x hx => (hmutex x).subset hx) hsignals
  have hother : ∀ d, d ≠ c → (s'.pc d).wakes ≠ some f := by
    intro d hd hdf
    exact hnot (h.wakes d f (hpc d hd ▸ hdf)).1
  constructor
  · intro x g hg
    have hx := h.waiting x g ((hmutex x).subset hg)
    rw [hpc g, hx]
    rintro rfl
    rw [hx] at hsusp
    cases hsusp
  · exact fun x => (h.nodup x).sublist (hmutex x)
  · exact fun g hg => htaken g (h.resumed g (hresumed ▸ hg))
  · intro d g hd
    by_cases hdc : d = c
    · rw [hdc, hwakes] at hd
      cases hd
      refine ⟨hf, ?_⟩
      cases hr : s'.resumed f with
      | false => rfl
      | true => exact absurd (h.resumed f (hresumed ▸ hr)) hnot
    · obtain ⟨hg, hr⟩ := h.wakes d g (hpc d hdc ▸ hd)
      exact ⟨htaken g hg, by rw [hresumed, hr]⟩
  · intro d e g hd he
    by_cases hdc : d = c
    · by_cases hec : e = c
      · rw [hdc, hec]
      · rw [hdc, hwakes] at hd
        cases hd
        exact absurd he (hother e hec)
    · by_cases hec : e = c
      · rw [hec, hwakes] at he
        cases he
        exact absurd hd (hother d hdc)
      · exact h.once d e g (hpc d hdc ▸ hd) (hpc e hec ▸ he)

/-- A context resumes the fiber it took. -/
theorem Wakes.resume {after : After ν} (h : Wakes s) (hpc : s.pc c = .resume f after) :
    Wakes { s.setPc c after.pc with resumed := Function.update s.resumed f true } := by
  have hwakes : (s.pc c).wakes = some f := by rw [hpc]; rfl
  have hsusp : (s.pc c).suspended = false := by rw [hpc]; rfl
  obtain ⟨hf, -⟩ := h.wakes c f hwakes
  have hne : ∀ d, d ≠ c → Function.update s.pc c after.pc d = s.pc d :=
    fun d hd => Function.update_of_ne hd _ _
  have htaken : ∀ g, Taken s g →
      Taken { s.setPc c after.pc with resumed := Function.update s.resumed f true } g :=
    fun g hg => hg.mono (hne g (hg.ne hsusp)) (fun _ => id) fun _ => id
  have hdc : ∀ d g, (Function.update s.pc c after.pc d).wakes = some g → d ≠ c := by
    rintro d g hd rfl
    rw [Function.update_self, After.wakes_pc] at hd
    cases hd
  constructor
  · intro x g hg
    have hx := h.waiting x g hg
    refine (hne g ?_).trans hx
    rintro rfl
    rw [hx] at hsusp
    cases hsusp
  · exact h.nodup
  · intro g hg
    replace hg : Function.update s.resumed f true g = true := hg
    by_cases hgf : g = f
    · exact hgf ▸ htaken f hf
    · rw [Function.update_of_ne hgf] at hg
      exact htaken g (h.resumed g hg)
  · intro d g hd
    have hd' := hdc d g hd
    replace hd : (s.pc d).wakes = some g := hne d hd' ▸ hd
    obtain ⟨hg, hr⟩ := h.wakes d g hd
    have hgf : g ≠ f := by
      rintro rfl
      exact hd' (h.once d c g hd hwakes)
    exact ⟨htaken g hg, (Function.update_of_ne hgf _ _).trans hr⟩
  · intro d e g hd he
    have hd' := hdc d g hd
    have he' := hdc e g he
    exact h.once d e g (hne d hd' ▸ hd) (hne e he' ▸ he)

variable [DecidableEq ν]

/-- `Unlock` takes the first fiber of the queue, if there is one. -/
theorem Wakes.unlock {after : After ν} (h : Wakes s) (hpc : s.pc c = .unlock x after) :
    Wakes (s.unlock c x after) := by
  have hsusp : (s.pc c).suspended = false := by rw [hpc]; rfl
  have hne : ∀ d, d ≠ c → (s.unlock c x after).pc d = s.pc d :=
    fun d hd => Function.update_of_ne hd _ _
  have hpc' : (s.unlock c x after).pc c =
      (s.mutex x).unlock.2.elim after.pc fun f => .resume f after := Function.update_self _ _ _
  have hmutex : ∀ y, (s.unlock c x after).mutex y =
      if y = x then (s.mutex x).unlock.1 else s.mutex y := fun y => Function.update_apply _ _ _ _
  cases hw : (s.mutex x).waitingFibers with
  | nil =>
    refine h.move hne hsusp (fun f hf => ?_) (fun y => ?_) (fun _ => id) fun _ => id
    · rw [hpc', Pc.wakes_elim] at hf
      simp [SchedulerMutex.unlock, hw] at hf
    · rw [hmutex]
      split
      next heq =>
        subst heq
        simp [SchedulerMutex.unlock, hw]
      next => rfl
  | cons f rest =>
    have hf := h.waiting x f (hw ▸ .head _)
    have hnodup := h.nodup x
    rw [hw, List.nodup_cons] at hnodup
    have hqueue : ((s.unlock c x after).mutex x).waitingFibers = rest := by
      rw [hmutex, if_pos rfl]
      simp [SchedulerMutex.unlock, hw]
    have hfc : f ≠ c := by
      rintro rfl
      rw [hf] at hsusp
      cases hsusp
    refine h.taken hne hsusp ?_ (fun y => ?_) (fun _ => id) rfl
      (.inl ⟨x, (hne f hfc).trans hf, ?_⟩) fun ht => h.not_mem ht x (hw ▸ .head _)
    · rw [hpc', Pc.wakes_elim]
      simp [SchedulerMutex.unlock, hw]
    · by_cases hy : y = x
      · rw [hy, hqueue, hw]
        exact List.sublist_cons_self _ _
      · rw [hmutex, if_neg hy]
    · rw [hqueue]
      exact hnodup.1

/-- A fiber is put in the queue of a mutex. -/
theorem Wakes.queue {m : SchedulerMutex κ} (h : Wakes s) (hpc : s.pc c = .lock x)
    (hm : m.waitingFibers = (s.mutex x).waitingFibers ++ [c]) :
    Wakes { s.setPc c (.lockSuspended x) with
      mutex := Function.update s.mutex x m
      resumed := Function.update s.resumed c false } := by
  have hsusp : (s.pc c).suspended = false := by rw [hpc]; rfl
  have hne : ∀ d, d ≠ c → Function.update s.pc c (.lockSuspended x) d = s.pc d :=
    fun d hd => Function.update_of_ne hd _ _
  have hmem : ∀ y f, f ≠ c → f ∈ (Function.update s.mutex x m y).waitingFibers →
      f ∈ (s.mutex y).waitingFibers := by
    intro y f hfc hf
    rw [Function.update_apply] at hf
    split at hf
    next heq =>
      rw [hm, List.mem_append, List.mem_singleton] at hf
      exact heq ▸ hf.resolve_right hfc
    next => exact hf
  have htaken : ∀ f, Taken s f → Taken { s.setPc c (.lockSuspended x) with
      mutex := Function.update s.mutex x m
      resumed := Function.update s.resumed c false } f := fun f hf =>
    hf.mono (hne f (hf.ne hsusp)) (fun y => hmem y f (hf.ne hsusp)) fun _ => id
  have hdc : ∀ d g, (Function.update s.pc c (.lockSuspended x) d).wakes = some g → d ≠ c := by
    rintro d g hd rfl
    rw [Function.update_self] at hd
    cases hd
  have hc : c ∉ (s.mutex x).waitingFibers := by
    intro hmem
    rw [h.waiting x c hmem] at hsusp
    cases hsusp
  constructor
  · intro y f hf
    by_cases hfc : f = c
    · subst hfc
      replace hf : f ∈ (Function.update s.mutex x m y).waitingFibers := hf
      rw [Function.update_apply] at hf
      split at hf
      next heq => exact heq ▸ Function.update_self _ _ _
      next =>
        rw [h.waiting y f hf] at hsusp
        cases hsusp
    · exact (hne f hfc).trans (h.waiting y f (hmem y f hfc hf))
  · intro y
    simp only [Function.update_apply]
    split
    · rw [hm, List.nodup_append]
      refine ⟨h.nodup x, List.nodup_singleton c, fun a ha b hb => ?_⟩
      rw [List.mem_singleton.1 hb]
      rintro rfl
      exact hc ha
    · exact h.nodup y
  · intro f hf
    replace hf : Function.update s.resumed c false f = true := hf
    have hfc : f ≠ c := by
      rintro rfl
      rw [Function.update_self] at hf
      cases hf
    rw [Function.update_of_ne hfc] at hf
    exact htaken f (h.resumed f hf)
  · intro d g hd
    have hd' := hdc d g hd
    replace hd : (s.pc d).wakes = some g := hne d hd' ▸ hd
    obtain ⟨hg, hr⟩ := h.wakes d g hd
    exact ⟨htaken g hg, (Function.update_of_ne (hg.ne hsusp) _ _).trans hr⟩
  · intro d e g hd he
    have hd' := hdc d g hd
    have he' := hdc e g he
    exact h.once d e g (hne d hd' ▸ hd) (hne e he' ▸ he)

end

section
variable {κ χ ν : Type} [DecidableEq κ] {s : State κ χ ν} {c : κ} {k : ℕ} {ks : List ℕ}

/-- A notify takes the fiber of the semaphore, if it is queued in it. -/
theorem Inv.signalBody_wakes (h : Inv s) (hpc : s.pc c = .signalBody k ks) :
    Wakes (s.signalBody c k ks) := by
  obtain ⟨hzero, d, hd, hdc, hret, hcases⟩ := h.signal_cases hpc
  have hsusp : (s.pc c).suspended = false := by rw [hpc]; rfl
  have hne : ∀ e, e ≠ c → (s.signalBody c k ks).pc e = s.pc e :=
    fun e he => Function.update_of_ne he _ _
  have hpc' : (s.signalBody c k ks).pc c = .signalClear k (s.sem k).val.signal.2 ks :=
    Function.update_self _ _ _
  have hsignals : ∀ j, s.signals j = 1 → (s.signalBody c k ks).signals j = 1 := by
    intro j hj
    refine (Function.update_of_ne ?_ _ _).trans hj
    rintro rfl
    omega
  rcases hcases with ⟨hstage, hval⟩ | ⟨y, hy, hval⟩
  · refine h.wakes.move hne hsusp (fun f hf => ?_) (fun _ => rfl) hsignals fun _ => id
    rw [hpc', hval] at hf
    cases hf
  · refine h.wakes.taken hne hsusp ?_ (fun _ => .refl _) hsignals rfl
      (.inr ⟨k, y, (hne d hdc).trans hy, ?_⟩) fun ht => ?_
    · rw [hpc', hval]
      rfl
    · refine (Function.update_self _ _ _).trans ?_
      rw [hzero]
    · rcases ht with ⟨x, hx, -⟩ | ⟨j, x, hx, hj⟩
      · rw [hy] at hx
        cases hx
      · rw [hy] at hx
        cases hx
        omega

end

/-! ## The steps -/

section
variable {κ χ ν : Type} [DecidableEq κ] {s s' : State κ χ ν} {c : κ}

theorem Spins.update {p : Pc κ χ ν} (h : Spins s) (hpc : s'.pc = Function.update s.pc c p)
    (hholds : p.holds = (s.pc c).holds)
    (hspin : ∀ k, (s.sem k).spinLock = true → (s'.sem k).spinLock = true) : Spins s' :=
  h.move (fun d hd => by rw [hpc, Function.update_of_ne hd])
    (by rw [hpc, Function.update_self, hholds]) hspin

theorem Sems.update {p : Pc κ χ ν} (h : Sems s) (hpc : s'.pc = Function.update s.pc c p)
    (hstage : p.stage = (s.pc c).stage) (hsusp : ∀ k x, s.pc c ≠ .waitSuspended k x)
    (hclears : ∀ k f ks, p ≠ .signalClear k f ks) (hval : ∀ k, (s'.sem k).val = (s.sem k).val)
    (hcall : s'.call = s.call) (hsignals : s'.signals = s.signals)
    (hreturned : s'.returned = s.returned) : Sems s' :=
  h.move (fun d hd => by rw [hpc, Function.update_of_ne hd])
    (by rw [hpc, Function.update_self, hstage]) hsusp
    (fun k f ks => by rw [hpc, Function.update_self]; exact hclears k f ks) hval hcall hsignals
    hreturned

theorem Wakes.update {p : Pc κ χ ν} (h : Wakes s) (hpc : s'.pc = Function.update s.pc c p)
    (hsusp : (s.pc c).suspended = false) (hwakes : ∀ f, p.wakes = some f → (s.pc c).wakes = some f)
    (hmutex : ∀ x, (s'.mutex x).waitingFibers = (s.mutex x).waitingFibers)
    (hsignals : s'.signals = s.signals)
    (hresumed : ∀ f, s'.resumed f = true → s.resumed f = true) : Wakes s' :=
  h.move (fun d hd => by rw [hpc, Function.update_of_ne hd]) hsusp
    (fun f => by rw [hpc, Function.update_self]; exact hwakes f) hmutex (fun k => hsignals ▸ id)
    hresumed

/-- A step that changes only where a context stands keeps the invariants of the semaphores and of
the fibers. -/
theorem Inv.setPc {p : Pc κ χ ν} (h : Inv s) (hsusp : (s.pc c).suspended = false)
    (hholds : p.holds = (s.pc c).holds) (hstage : p.stage = (s.pc c).stage)
    (hclears : ∀ k f ks, p ≠ .signalClear k f ks) (hwakes : p.wakes = none) :
    Spins (s.setPc c p) ∧ Sems (s.setPc c p) ∧ Wakes (s.setPc c p) :=
  ⟨h.spins.update rfl hholds fun _ => id,
    h.sems.update rfl hstage (Pc.ne_waitSuspended hsusp) hclears (fun _ => rfl) rfl rfl rfl,
    h.wakes.update rfl hsusp (fun f hf => by rw [hwakes] at hf; cases hf) (fun _ => rfl) rfl
      fun _ => id⟩

/-- A call begins. -/
theorem Inv.begin {p : Pc κ χ ν} (h : Inv s) (hpc : s.pc c = .idle) (hholds : p.holds = none)
    (hstage : p.stage = none) (hwakes : p.wakes = none)
    (hclears : ∀ k f ks, p ≠ .signalClear k f ks) :
    Spins (s.setPc c p) ∧ Sems (s.setPc c p) ∧ Wakes (s.setPc c p) :=
  h.setPc (by rw [hpc]; rfl) (by rw [hholds, hpc]; rfl) (by rw [hstage, hpc]; rfl) hclears hwakes

variable [DecidableEq χ]

/-- A notify takes semaphores from a queue. -/
theorem Inv.take (h : Inv s) (hsusp : (s.pc c).suspended = false) (hholds : (s.pc c).holds = none)
    (hstage : (s.pc c).stage = none) (v : χ) (n : ℕ) :
    Spins (s.take c v n) ∧ Sems (s.take c v n) ∧ Wakes (s.take c v n) := by
  refine ⟨h.spins.update rfl ?_ fun _ => id,
    h.sems.update rfl ?_ (Pc.ne_waitSuspended hsusp) (After.pc_ne_signalClear _) (fun _ => rfl) rfl
      rfl rfl,
    h.wakes.update rfl hsusp (fun f hf => ?_) (fun _ => rfl) rfl fun _ => id⟩
  · rw [After.holds_pc, hholds]
  · rw [After.stage_pc, hstage]
    rfl
  · rw [After.wakes_pc] at hf
    cases hf

variable [DecidableEq ν] {fiber : κ → Bool}

/-- The next step of a call keeps the invariants of the semaphores and of the fibers. -/
theorem Inv.nextStep (h : Inv s) (hs : nextStep fiber s c = some s') :
    Spins s' ∧ Sems s' ∧ Wakes s' := by
  unfold ConditionVariable.nextStep at hs
  cases hpc : s.pc c with
  | idle =>
    rw [hpc] at hs
    cases hs
  | push v x =>
    have hsusp : (s.pc c).suspended = false := by rw [hpc]; rfl
    simp only [hpc, Option.some.injEq] at hs
    subst hs
    split
    · exact ⟨h.spins.update rfl (by rw [hpc]; rfl) fun _ => id, h.push hpc,
        h.wakes.update rfl hsusp (fun f hf => by cases hf) (fun _ => rfl) rfl fun _ => id⟩
    · exact h.setPc hsusp (by rw [hpc]; rfl) (by rw [hpc]; rfl) (fun _ _ _ hp => by cases hp) rfl
  | unlock x after =>
    have hsusp : (s.pc c).suspended = false := by rw [hpc]; rfl
    simp only [hpc, Option.some.injEq] at hs
    subst hs
    refine ⟨h.spins.update rfl ?_ fun _ => id,
      h.sems.update rfl ?_ (Pc.ne_waitSuspended hsusp) (Pc.elim_ne_signalClear _ _)
        (fun _ => rfl) rfl rfl rfl,
      h.wakes.unlock hpc⟩
    · rw [Pc.holds_elim, hpc]
      rfl
    · rw [Pc.stage_elim, hpc]
      rfl
  | lock x =>
    have hsusp : (s.pc c).suspended = false := by rw [hpc]; rfl
    have hgot : ∀ m : SchedulerMutex κ, m.waitingFibers = (s.mutex x).waitingFibers →
        Spins { s.setPc c .idle with mutex := Function.update s.mutex x m } ∧
        Sems { s.setPc c .idle with mutex := Function.update s.mutex x m } ∧
        Wakes { s.setPc c .idle with mutex := Function.update s.mutex x m } := by
      intro m hm
      refine ⟨h.spins.update rfl (by rw [hpc]; rfl) fun _ => id,
        h.sems.update rfl (by rw [hpc]; rfl) (Pc.ne_waitSuspended hsusp)
          (fun _ _ _ hp => by cases hp) (fun _ => rfl) rfl rfl rfl,
        h.wakes.update rfl hsusp (fun f hf => by cases hf) (fun y => ?_) rfl fun _ => id⟩
      simp only [Function.update_apply]
      split
      next heq => rw [heq, hm]
      next => rfl
    simp only [hpc] at hs
    split at hs
    · cases hs
      unfold State.lock
      simp only [SchedulerMutex.lock]
      cases hl : (s.mutex x).locked with
      | false =>
        simp only [Bool.not_false, if_true]
        exact hgot _ rfl
      | true =>
        simp only [Bool.not_true, Bool.false_eq_true, if_false]
        exact ⟨h.spins.update rfl (by rw [hpc]; rfl) fun _ => id,
          h.sems.update rfl (by rw [hpc]; rfl) (Pc.ne_waitSuspended hsusp)
            (fun _ _ _ hp => by cases hp) (fun _ => rfl) rfl rfl rfl,
          h.wakes.queue hpc rfl⟩
    · split at hs
      next m hm =>
        cases hs
        refine hgot m ?_
        simp only [SchedulerMutex.tryLock, Option.ite_none_left_eq_some, Option.some.injEq] at hm
        obtain ⟨-, rfl⟩ := hm
        rfl
      next =>
        cases hs
        exact ⟨h.spins, h.sems, h.wakes⟩
  | lockSuspended x =>
    simp only [hpc, Option.ite_none_right_eq_some, Option.some.injEq] at hs
    obtain ⟨hres, rfl⟩ := hs
    exact ⟨h.spins.update rfl (by rw [hpc]; rfl) fun _ => id,
      h.sems.update rfl (by rw [hpc]; rfl) (fun _ _ hp => by rw [hpc] at hp; cases hp)
        (fun _ _ _ hp => by cases hp) (fun _ => rfl) rfl rfl rfl,
      h.wakes.continue hres rfl rfl rfl rfl rfl⟩
  | waitSpin k x =>
    have hsusp : (s.pc c).suspended = false := by rw [hpc]; rfl
    simp only [hpc, Option.ite_none_left_eq_some, Bool.not_eq_true, Option.some.injEq] at hs
    obtain ⟨hfree, rfl⟩ := hs
    exact ⟨h.spins.acquire rfl rfl hfree rfl rfl,
      h.sems.update rfl (by rw [hpc]; rfl) (Pc.ne_waitSuspended hsusp)
        (fun _ _ _ hp => by cases hp) (s.val_setSem k) rfl rfl rfl,
      h.wakes.update rfl hsusp (fun f hf => by cases hf) (fun _ => rfl) rfl fun _ => id⟩
  | waitBody k x =>
    have hsusp : (s.pc c).suspended = false := by rw [hpc]; rfl
    simp only [hpc, Option.some.injEq] at hs
    subst hs
    refine ⟨h.spins.update rfl (by rw [hpc]; rfl) (fun j hj => ?_), h.waitBody hpc,
      h.wakes.update rfl hsusp (fun f hf => by cases hf) (fun _ => rfl) rfl fun f hf => ?_⟩
    · replace hj : (s.sem j).spinLock = true := hj
      simp only [State.waitBody, State.setPc, State.setSem, Function.update_apply]
      split
      · rfl
      · exact hj
    · simp only [State.waitBody] at hf
      split at hf
      · exact hf
      · rw [Function.update_apply] at hf
        split at hf
        · cases hf
        · exact hf
  | waitClear k x got =>
    have hsusp : (s.pc c).suspended = false := by rw [hpc]; rfl
    have hhold : (s.pc c).holds = some k := by rw [hpc]; rfl
    simp only [hpc, Option.some.injEq] at hs
    subst hs
    cases got with
    | true =>
      obtain ⟨-, hgot⟩ := h.sems.stage c k .got (by rw [hpc]; rfl)
      refine ⟨h.spins.release rfl hhold rfl rfl,
        h.return rfl (s.val_setSem k) rfl rfl rfl (by rw [hpc]; rfl) hgot fun e he => ?_,
        h.wakes.update rfl hsusp (fun f hf => by cases hf) (fun _ => rfl) rfl fun _ => id⟩
      rw [(h.wakes.wakes e c he).1.suspended] at hsusp
      cases hsusp
    | false =>
      exact ⟨h.spins.release rfl hhold rfl rfl,
        h.sems.update rfl (by rw [hpc]; rfl) (Pc.ne_waitSuspended hsusp)
          (fun _ _ _ hp => by cases hp) (s.val_setSem k) rfl rfl rfl,
        h.wakes.update rfl hsusp (fun f hf => by cases hf) (fun _ => rfl) rfl fun _ => id⟩
  | waitSuspended k x =>
    simp only [hpc, Option.ite_none_right_eq_some, Option.some.injEq] at hs
    obtain ⟨hres, rfl⟩ := hs
    have hgot : s.signals k = 1 := by
      rcases h.wakes.resumed c hres with ⟨y, hy, -⟩ | ⟨j, y, hy, hj⟩
      · rw [hpc] at hy
        cases hy
      · rw [hpc] at hy
        cases hy
        exact hj
    obtain ⟨-, hok⟩ := h.sems.stage c k .queued (by rw [hpc]; rfl)
    refine ⟨h.spins.update rfl (by rw [hpc]; rfl) fun _ => id,
      h.return rfl (fun _ => rfl) rfl rfl rfl (by rw [hpc]; rfl)
        (hok.resolve_left fun hz => by omega) fun e he => ?_,
      h.wakes.continue hres rfl rfl rfl rfl rfl⟩
    rw [(h.wakes.wakes e c he).2] at hres
    cases hres
  | notifyOne v =>
    simp only [hpc, Option.some.injEq] at hs
    subst hs
    exact h.take (by rw [hpc]; rfl) (by rw [hpc]; rfl) (by rw [hpc]; rfl) v 1
  | notifyAll v =>
    simp only [hpc, Option.some.injEq] at hs
    subst hs
    exact h.take (by rw [hpc]; rfl) (by rw [hpc]; rfl) (by rw [hpc]; rfl) v _
  | signalSpin k ks =>
    have hsusp : (s.pc c).suspended = false := by rw [hpc]; rfl
    simp only [hpc, Option.ite_none_left_eq_some, Bool.not_eq_true, Option.some.injEq] at hs
    obtain ⟨hfree, rfl⟩ := hs
    exact ⟨h.spins.acquire rfl rfl hfree rfl rfl,
      h.sems.update rfl (by rw [hpc]; rfl) (Pc.ne_waitSuspended hsusp)
        (fun _ _ _ hp => by cases hp) (s.val_setSem k) rfl rfl rfl,
      h.wakes.update rfl hsusp (fun f hf => by cases hf) (fun _ => rfl) rfl fun _ => id⟩
  | signalBody k ks =>
    simp only [hpc, Option.some.injEq] at hs
    subst hs
    refine ⟨h.spins.update rfl (by rw [hpc]; rfl) (fun j hj => ?_), h.signalBody hpc,
      h.signalBody_wakes hpc⟩
    replace hj : (s.sem j).spinLock = true := hj
    simp only [State.signalBody, State.setPc, State.setSem, Function.update_apply]
    split
    · rfl
    · exact hj
  | signalClear k nextFiber ks =>
    have hsusp : (s.pc c).suspended = false := by rw [hpc]; rfl
    have hhold : (s.pc c).holds = some k := by rw [hpc]; rfl
    simp only [hpc, Option.some.injEq] at hs
    subst hs
    refine ⟨h.spins.release rfl hhold (Pc.holds_elim _ _) rfl,
      h.sems.update rfl ?_ (Pc.ne_waitSuspended hsusp) (Pc.elim_ne_signalClear _ _)
        (s.val_setSem k) rfl rfl rfl,
      h.wakes.update rfl hsusp (fun f hf => ?_) (fun _ => rfl) rfl fun _ => id⟩
    · rw [Pc.stage_elim, hpc]
      rfl
    · rw [Pc.wakes_elim] at hf
      rw [hpc]
      exact hf
  | resume f after =>
    have hsusp : (s.pc c).suspended = false := by rw [hpc]; rfl
    simp only [hpc, Option.some.injEq] at hs
    subst hs
    refine ⟨h.spins.update rfl ?_ fun _ => id,
      h.sems.update rfl ?_ (Pc.ne_waitSuspended hsusp) after.pc_ne_signalClear (fun _ => rfl) rfl
        rfl rfl,
      h.wakes.resume hpc⟩
    · rw [After.holds_pc, hpc]
      rfl
    · rw [After.stage_pc, hpc]
      rfl

/-- Every step keeps the invariant. -/
theorem Inv.step {a : Act κ χ ν} (h : Inv s) (hs : ConditionVariable.step fiber s a = some s') :
    Inv s' := by
  have heffect := step_effect hs
  suffices hrest : Spins s' ∧ Sems s' ∧ Wakes s' from
    ⟨h.order.effect heffect, h.tokens.effect h.order heffect, hrest.1, hrest.2.1, hrest.2.2⟩
  cases a with
  | wait c v x =>
    obtain ⟨hpc, rfl⟩ : s.pc c = .idle ∧ s.setPc c (.push v x) = s' := by
      simpa [ConditionVariable.step] using hs
    exact h.begin hpc rfl rfl rfl fun _ _ _ hp => by cases hp
  | notifyOne c v =>
    obtain ⟨hpc, rfl⟩ : s.pc c = .idle ∧ s.setPc c (.notifyOne v) = s' := by
      simpa [ConditionVariable.step] using hs
    exact h.begin hpc rfl rfl rfl fun _ _ _ hp => by cases hp
  | notifyAll c v =>
    obtain ⟨hpc, rfl⟩ : s.pc c = .idle ∧ s.setPc c (.notifyAll v) = s' := by
      simpa [ConditionVariable.step] using hs
    exact h.begin hpc rfl rfl rfl fun _ _ _ hp => by cases hp
  | lock c x =>
    obtain ⟨hpc, rfl⟩ : s.pc c = .idle ∧ s.setPc c (.lock x) = s' := by
      simpa [ConditionVariable.step] using hs
    exact h.begin hpc rfl rfl rfl fun _ _ _ hp => by cases hp
  | unlock c x =>
    obtain ⟨hpc, rfl⟩ : s.pc c = .idle ∧ s.setPc c (.unlock x .done) = s' := by
      simpa [ConditionVariable.step] using hs
    exact h.begin hpc rfl rfl rfl fun _ _ _ hp => by cases hp
  | next c => exact h.nextStep hs

end

/-! ## The notifications -/

section
variable {κ χ ν : Type}

/-- What has become of the notifications. -/
structure Delivered (s : State κ χ ν) : Prop where
  /-- a fiber that is past its semaphore has got one `Signal` -/
  signals_of_returned : ∀ k, s.returned k = true → s.signals k = 1
  signals_le_one : ∀ k, s.signals k ≤ 1
  /-- no `Signal` is in progress on the semaphore of such a fiber, or still to come -/
  touches : ∀ c k, (s.pc c).touches = some k → s.returned k = false
  toSignal : ∀ c, ∀ k ∈ (s.pc c).toSignal, s.returned k = false
  /-- a semaphore that a notify took is signalled, or the notify is at it -/
  taken : ∀ v, ∀ k ∈ s.taken v, s.signals k = 1 ∨ ∃ c, k ∈ (s.pc c).toSignal
  /-- a fiber that waits is in the queue until a notify takes it -/
  waits : ∀ c k, (s.pc c).waits = some k →
    ∃ v, s.call k = some (c, v) ∧ (k ∈ s.waitingQueue v ∨ k ∈ s.taken v)
  queued : ∀ v, s.queued v = s.taken v ++ s.waitingQueue v
  sorted : ∀ v, (s.queued v).Pairwise (· < ·)

/-- What a step takes from the queues. -/
structure Notifies (s : State κ χ ν) (a : Act κ χ ν) (s' : State κ χ ν) : Prop where
  /-- only notifies take semaphores -/
  keeps : ∀ v, (∀ c, a = .next c → s.pc c ≠ .notifyOne v ∧ s.pc c ≠ .notifyAll v) →
    s'.taken v = s.taken v ∧ s.waitingQueue v <+: s'.waitingQueue v
  /-- `Notify_One` takes the semaphore that has been in the queue for the longest time -/
  one : ∀ c v, a = .next c → s.pc c = .notifyOne v → ∀ k ∈ s.waitingQueue v,
    (∀ j ∈ s.waitingQueue v, k ≤ j) →
      s'.taken v = s.taken v ++ [k] ∧ s.waitingQueue v = k :: s'.waitingQueue v ∧
        (s'.pc c).toSignal = [k]
  /-- `Notify_All` takes all that are in the queue -/
  all : ∀ c v, a = .next c → s.pc c = .notifyAll v →
    s'.taken v = s.taken v ++ s.waitingQueue v ∧ s'.waitingQueue v = [] ∧
      (s'.pc c).toSignal = s.waitingQueue v

theorem Inv.delivered {s : State κ χ ν} (h : Inv s) : Delivered s where
  signals_of_returned k hk := (h.sems.returned k hk).1
  signals_le_one := h.tokens.signals_le_one
  touches c k hk := by
    have hsignal : k ∈ (s.pc c).toSignal → s.returned k = false := by
      intro hmem
      cases hr : s.returned k with
      | false => rfl
      | true =>
        have hone := (h.sems.returned k hr).1
        rw [(h.tokens.unsent c k hmem).1] at hone
        cases hone
    cases hpc : s.pc c with
    | signalClear j nextFiber ks =>
      rw [hpc] at hk
      cases hk
      have hclear := h.sems.clears c k nextFiber ks hpc
      cases nextFiber with
      | none =>
        cases hr : s.returned k with
        | false => rfl
        | true =>
          rw [Option.elim_none, (h.sems.returned k hr).2] at hclear
          cases hclear
      | some f =>
        obtain ⟨x, hx⟩ := hclear
        exact (h.sems.stage f k .queued (by rw [hx]; rfl)).1
    | signalSpin j ks | signalBody j ks =>
      rw [hpc] at hk hsignal
      cases hk
      exact hsignal (.head _)
    | idle | push | unlock | lock | lockSuspended | waitSpin | waitBody | waitClear
    | waitSuspended | notifyOne | notifyAll | resume =>
      rw [hpc] at hk
      cases hk
  toSignal c k hk := by
    cases hr : s.returned k with
    | false => rfl
    | true =>
      have hone := (h.sems.returned k hr).1
      rw [(h.tokens.unsent c k hk).1] at hone
      cases hone
  taken := h.tokens.sent
  waits c k hk := by
    obtain ⟨v, hv⟩ := h.order.waits c k hk
    have hmem := (h.order.call v k).2 ⟨c, hv⟩
    rw [h.order.queued v, List.mem_append] at hmem
    exact ⟨v, hv, hmem.symm⟩
  queued := h.order.queued
  sorted := h.order.sorted

end

section
variable {κ χ ν : Type} [DecidableEq κ] [DecidableEq χ] [DecidableEq ν] {fiber : κ → Bool}
  {s s' : State κ χ ν}

/-- Within a call, a context makes the next step of the call. -/
theorem Act.eq_next {a : Act κ χ ν} (hs : step fiber s a = some s')
    (hpc : s.pc a.context ≠ .idle) : a = .next a.context := by
  cases a with
  | wait c v x | notifyOne c v | notifyAll c v | lock c x | unlock c x =>
    simp only [step, Option.ite_none_right_eq_some] at hs
    exact absurd hs.1 hpc
  | next c => rfl

theorem Order.notifies {a : Act κ χ ν} (h : Order s) (hs : step fiber s a = some s') :
    Notifies s a s' where
  keeps v hnot := by
    cases step_effect hs with
    | quiet hq =>
      rw [hq.taken, hq.waitingQueue]
      exact ⟨rfl, List.prefix_rfl⟩
    | @push w x hpc =>
      refine ⟨rfl, ?_⟩
      simp only [State.push, Function.update_apply]
      split
      next heq => exact heq ▸ List.prefix_append _ _
      next => exact List.prefix_rfl
    | @take w n hpc =>
      have hnext : a = .next a.context := Act.eq_next hs fun hidle => by
        rcases hpc with ⟨hpc, -⟩ | ⟨hpc, -⟩ <;> rw [hidle] at hpc <;> cases hpc
      obtain ⟨hone, hall⟩ := hnot a.context hnext
      have hvw : v ≠ w := by
        rintro rfl
        exact hpc.elim (fun hpc => hone hpc.1) fun hpc => hall hpc.1
      refine ⟨Function.update_of_ne hvw _ _, ?_⟩
      simp only [State.take, Function.update_of_ne hvw]
      exact List.prefix_rfl
    | signal hpc => exact ⟨rfl, List.prefix_rfl⟩
  one c v ha hpc k hk hle := by
    subst ha
    simp only [step, nextStep, hpc, Option.some.injEq] at hs
    subst hs
    have hnodup := h.sorted v
    rw [h.queued v, List.pairwise_append] at hnodup
    cases hw : s.waitingQueue v with
    | nil =>
      rw [hw] at hk
      cases hk
    | cons j rest =>
      have hjk : k = j := by
        rw [hw] at hk hle
        have hsorted := hnodup.2.1
        rw [hw, List.pairwise_cons] at hsorted
        rcases List.mem_cons.1 hk with rfl | hk
        · rfl
        · exact absurd (hle j (.head _)) (Nat.not_le.2 (hsorted.1 k hk))
      subst hjk
      refine ⟨?_, ?_, ?_⟩
      · simp [State.take, hw]
      · simp [State.take, hw]
      · simp [hw, After.toSignal]
  all c v ha hpc := by
    subst ha
    simp only [step, nextStep, hpc, Option.some.injEq] at hs
    subst hs
    refine ⟨?_, ?_, ?_⟩
    · simp [State.take]
    · simp [State.take]
    · simp [After.toSignal]

/-- Every `Wait` gets past its semaphore after one `Signal`, no `Signal` touches the semaphore any
more then, and the notifies take the semaphores in the order of the queue. -/
theorem notify_once {as : List (Act κ χ ν)} (hrun : Lts.run (step fiber) State.init as = some s) :
    Delivered s ∧ ∀ a s', step fiber s a = some s' → Notifies s a s' :=
  have h := Lts.run_inv Inv.step Inv.init hrun
  ⟨h.delivered, fun _ _ => h.order.notifies⟩

end

/-- The fiber `false` waits; `true` notifies it before it is queued in its semaphore. -/
def notifiedFirst : List (Act Bool Unit Unit) :=
  [.lock false (), .next false, .wait false () (), .next false, .notifyOne true (), .next true,
    .next true, .next true, .next false, .next true, .next false, .next false, .next false]

theorem notify_once_notifiedFirst : ∃ s : State Bool Unit Unit,
    Lts.run (step fun _ => true) State.init notifiedFirst = some s ∧ s.returned 0 = true ∧
      Delivered s ∧ ∀ a s', step (fun _ => true) s a = some s' → Notifies s a s' := by
  refine ⟨(Lts.run _ _ notifiedFirst).get (by decide), (Option.some_get _).symm, by decide, ?_⟩
  exact notify_once (Option.some_get (by decide)).symm

end JLibScheduler.ConditionVariable
