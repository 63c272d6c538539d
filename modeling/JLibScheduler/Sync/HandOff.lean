import JLibScheduler.Lib.Update
import JLibScheduler.Sync.Basic

/-!
# Hand-offs of mutexes and semaphores

A fiber is in the queue of a mutex or semaphore before it has announced its suspension, and `Resume`
leaves a fiber that runs as it is. So a hand-off is lost when the load of `Resume` comes between the
two (`tooEarly`), as in `lostRun`. In every run without such a load no hand-off is lost
(`handOff_not_lost`).

The invariant `Inv` follows each fiber with two functions: `reg` says in which queue the fiber is,
or who has taken it from there and is in `Resume` on it; `held` says who will run it next. A fiber
that waits has a `reg` (`FiberOk`), and a `Resume` call that has not decided yet keeps it.
-/

namespace JLibScheduler.Sync

open JLibScheduler.Fiber (ResumePc SwitchPc resume afterSwitch)

/-- Where a waiting fiber is registered. -/
inductive Reg (φ ν ι : Type) where
  | obj (x : ν)
  /-- taken from the queue; in the `Resume` call of this caller -/
  | caller (c : φ ⊕ ι)
  deriving DecidableEq

/-- Who has a fiber that is not suspended. -/
inductive Holder (φ ω ι : Type) where
  | queue
  | worker (w : ω)
  /-- woken by this caller, who is about to put it into a queue -/
  | caller (c : φ ⊕ ι)
  deriving DecidableEq

/-- The fiber a worker has. -/
def WorkerPc.fiber? {φ : Type} : WorkerPc φ → Option φ
  | .idle => none
  | .picked f | .on f | .back f _ => some f

/-- The fiber a caller has taken from a queue and has not woken yet. -/
def Pc.resuming? {φ ν : Type} : Pc φ ν → Option φ
  | .resume _ .requeue => none
  | .resume f _ => some f
  | _ => none

section
variable {φ ν ω ι : Type}

/-- A fiber that is suspended, or about to be, is in no queue and in no `Resume` call, although the
`Resume` call of its last hand-off has returned. -/
def Lost (s : State φ ν ω ι) (f : φ) : Prop :=
  s.handed f = true ∧ (s.status f = .wantsSuspend ∨ s.status f = .suspended) ∧
    (∀ x, f ∉ (s.obj x).waitingFibers) ∧ ∀ c pc, s.pc c ≠ .resume f pc

/-- The step is the load of a `Resume` call on a fiber that has not announced its suspension. -/
def tooEarly [DecidableEq φ] [DecidableEq ν] (s : State φ ν ω ι) : Act φ ν ω ι → Bool
  | .fiber w _ =>
    match s.worker w with
    | .on f => loadsEarly (s.pc (.inl f))
    | _ => false
  | .thread i _ => loadsEarly (s.pc (.inr i))
  | _ => false
where
  /-- The caller at `pc` loads the status of a fiber before its store of `WANTS_SUSPEND`. -/
  loadsEarly (pc : Pc φ ν) : Bool :=
    match pc with
    | .resume f .load => decide (s.pc (.inl f) = .suspend)
    | _ => false

/-- What the status word and the place of a fiber say about its registration and its holder. -/
structure FiberOk (status : FiberStatus) (pc : Pc φ ν) (reg : Option (Reg φ ν ι))
    (held : Option (Holder φ ω ι)) : Prop where
  reg : reg.isSome ↔ status = .wantsSuspend ∨ status = .suspended ∨ pc = .suspend
  running : pc = .suspend → status = .running
  announced : status = .wantsSuspend → pc = .switch ∨ pc = .away
  suspended : status = .suspended → held = none ∧ pc = .away
  ready : (∃ h, held = some h ∧ ∀ w, h ≠ .worker w) → status = .ready ∧ pc = .away
  fresh : pc = .fresh → held = none ∧ status = .ready

/-- A status with which a fiber leaves its worker. -/
def Leaves (status : FiberStatus) : Prop :=
  status = .wantsSuspend ∨ status = .suspendSignaled ∨ status = .wantsYield ∨ status = .dead

/-- What a worker knows of the status of the fiber that came back, from where it stands. -/
def BackOk (status : FiberStatus) : SwitchPc → Prop
  | .load => Leaves status
  | .dead => status = .dead
  | .yield => status = .wantsYield
  | .park => status = .wantsSuspend ∨ status = .suspendSignaled
  | .signaled => status = .suspendSignaled
  | .pushBottom | .requeue => status = .ready

/-- What a worker knows of the fiber it has. -/
def WorkerOk (status : φ → FiberStatus) (pc : φ → Pc φ ν) : WorkerPc φ → Prop
  | .idle => True
  | .picked f => status f = .ready ∧ pc f = .away
  | .on f => pc f ≠ .away ∧ pc f ≠ .fresh ∧ (pc f ≠ .switch → status f = .running) ∧
      (pc f = .switch → Leaves (status f))
  | .back f sw => pc f = .away ∧ BackOk (status f) sw

/-- What a `Resume` call knows of the fiber it is called on, from where it stands. -/
def ResumeOk (status : FiberStatus) : ResumePc → Prop
  | .load | .requeue => True
  | .casSuspended => status = .suspended
  | .casWantsSuspend => status = .wantsSuspend ∨ status = .suspended

/-- The invariant of runs in which no `Resume` call loads a status too early. -/
structure Inv (s : State φ ν ω ι) (reg : φ → Option (Reg φ ν ι))
    (held : φ → Option (Holder φ ω ι)) : Prop where
  waiting : ∀ x, (s.obj x).waitingFibers.Nodup ∧
    ∀ f, f ∈ (s.obj x).waitingFibers ↔ reg f = some (.obj x)
  resuming : ∀ c f, reg f = some (.caller c) ↔ (s.pc c).resuming? = some f
  resumeOk : ∀ c f pc, s.pc c = .resume f pc → ResumeOk (s.status f) pc
  requeuing : ∀ c f, s.pc c = .resume f .requeue → held f = some (.caller c)
  queued : s.queued.Nodup ∧ ∀ f ∈ s.queued, held f = some .queue
  holds : ∀ w f, (s.worker w).fiber? = some f → held f = some (.worker w)
  worker : ∀ w, WorkerOk s.status (fun f => s.pc (.inl f)) (s.worker w)
  fiber : ∀ f, FiberOk (s.status f) (s.pc (.inl f)) (reg f) (held f)

variable {s s' : State φ ν ω ι} {reg : φ → Option (Reg φ ν ι)} {held : φ → Option (Holder φ ω ι)}
  {f g : φ} {c : φ ⊕ ι} {w : ω}

theorem Inv.init (kind : ν → Kind) :
    Inv (State.init kind : State φ ν ω ι) (fun _ => none) (fun _ => none) where
  waiting x := by simp [State.init]
  resuming c f := by cases c <;> simp [State.init, Pc.resuming?]
  resumeOk c f pc h := by cases c <;> simp [State.init] at h
  requeuing c f h := by cases c <;> simp [State.init] at h
  queued := by simp [State.init]
  holds w f h := by simp [State.init, WorkerPc.fiber?] at h
  worker w := trivial
  fiber f := by constructor <;> simp [State.init]

/-- No fiber is lost in a state with the invariant. -/
theorem Inv.not_lost (h : Inv s reg held) (f : φ) : ¬ Lost s f := by
  rintro ⟨-, hstatus, hwaiting, hresume⟩
  have hreg := (h.fiber f).reg.2 (by tauto)
  obtain ⟨r, hr⟩ := Option.isSome_iff_exists.1 hreg
  cases r with
  | obj x => exact hwaiting x (((h.waiting x).2 f).2 hr)
  | caller c =>
    have hpc := (h.resuming c f).1 hr
    cases hc : s.pc c <;> simp only [hc, Pc.resuming?, reduceCtorEq] at hpc
    case resume g pc =>
      cases pc <;> simp only [Option.some.injEq, reduceCtorEq] at hpc <;>
        exact hresume c _ (hpc ▸ hc)

@[simp] theorem State.setStatus_self [DecidableEq φ] (s : State φ ν ω ι) (g : φ) :
    s.setStatus g (s.status g) = s := by
  simp [State.setStatus]

/-- The code runs: it is neither in a queue nor on its way out of the worker. -/
def Pc.runs : Pc φ ν → Bool
  | .body | .acquire _ | .release _ | .resume _ _ => true
  | _ => false

theorem Pc.ne_of_runs {pc : Pc φ ν} (h : pc.runs = true) :
    pc ≠ .suspend ∧ pc ≠ .switch ∧ pc ≠ .away ∧ pc ≠ .fresh := by
  refine ⟨?_, ?_, ?_, ?_⟩ <;> rintro rfl <;> cases h

theorem Pc.resuming?_eq_none {pc : Pc φ ν} (h : ∀ g rpc, pc ≠ .resume g rpc) :
    pc.resuming? = none := by
  cases pc with
  | resume g rpc => exact absurd rfl (h g rpc)
  | _ => rfl

theorem WorkerOk.congr {status status' : φ → FiberStatus} {pc pc' : φ → Pc φ ν} {wp : WorkerPc φ}
    (h : WorkerOk status pc wp)
    (hf : ∀ f, wp.fiber? = some f → status' f = status f ∧
      (pc' f = pc f ∨ (pc f).runs = true ∧ (pc' f).runs = true)) : WorkerOk status' pc' wp := by
  cases wp with
  | idle => trivial
  | picked f | on f | back f sw =>
    obtain ⟨hs, hp⟩ := hf f rfl
    rcases hp with hp | ⟨hp, hp'⟩
    · simpa only [WorkerOk, hs, hp] using h
    · have := Pc.ne_of_runs hp
      have := Pc.ne_of_runs hp'
      simp_all [WorkerOk]

theorem FiberOk.runs {v : FiberStatus} {pc pc' : Pc φ ν} {r : Option (Reg φ ν ι)}
    {k : Option (Holder φ ω ι)} (h : FiberOk v pc r k) (hpc : pc.runs = true)
    (hpc' : pc'.runs = true) : FiberOk v pc' r k := by
  have hne := Pc.ne_of_runs hpc
  have hne' := Pc.ne_of_runs hpc'
  constructor <;> grind [FiberOk]

/-- A fiber that is registered does not run. -/
theorem FiberOk.not_runs {v : FiberStatus} {pc : Pc φ ν} {r : Option (Reg φ ν ι)}
    {k : Option (Holder φ ω ι)} (h : FiberOk v pc r k) (hr : r.isSome) : pc.runs = false := by
  rcases h.reg.1 hr with hv | hv | hv
  · rcases h.announced hv with hpc | hpc <;> rw [hpc] <;> rfl
  · rw [(h.suspended hv).2]; rfl
  · rw [hv]; rfl

/-- A word that no compare-exchange expects keeps no `Resume` call from anything. -/
theorem ResumeOk.of_ne {v v' : FiberStatus} {pc : ResumePc} (h : ResumeOk v pc)
    (h₁ : v ≠ .suspended) (h₂ : v ≠ .wantsSuspend) : ResumeOk v' pc := by
  cases pc <;> simp_all [ResumeOk]

/-- A caller that runs is no registered fiber. -/
theorem Inv.ne_caller (h : Inv s reg held) (hc : (s.pc c).runs = true) (hg : (reg g).isSome) :
    c ≠ .inl g := by
  rintro rfl
  rw [(h.fiber g).not_runs hg] at hc
  cases hc

variable [DecidableEq φ]

section
variable [DecidableEq ι]

/-- A caller that runs on leaves every fiber where it was, or running. -/
theorem runs_update {pc : φ ⊕ ι → Pc φ ν} {p : Pc φ ν} (hc : (pc c).runs = true)
    (hp : p.runs = true) (f : φ) : Function.update pc c p (.inl f) = pc (.inl f) ∨
      (pc (.inl f)).runs = true ∧ (Function.update pc c p (.inl f)).runs = true := by
  by_cases hf : c = .inl f
  · subst hf
    exact .inr ⟨hc, by rwa [Function.update_self]⟩
  · exact .inl (Function.update_of_ne (Ne.symm hf) _ _)

/-- What holds of a fiber holds after a caller ran on. -/
theorem FiberOk.update {v : FiberStatus} {pc : φ ⊕ ι → Pc φ ν} {r : Option (Reg φ ν ι)}
    {k : Option (Holder φ ω ι)} {p : Pc φ ν} (h : FiberOk v (pc (.inl f)) r k)
    (hc : (pc c).runs = true) (hp : p.runs = true) :
    FiberOk v (Function.update pc c p (.inl f)) r k := by
  rcases runs_update hc hp f with heq | ⟨h₁, h₂⟩
  · rwa [heq]
  · exact h.runs h₁ h₂

/-- The rule for code that runs on without a change to a fiber or a queue. -/
theorem Inv.callerMove (h : Inv s reg held) {p : Pc φ ν} {obj : ν → Obj φ} {handed : φ → Bool}
    (hc : (s.pc c).runs = true) (hp : p.runs = true) (hres : p.resuming? = (s.pc c).resuming?)
    (hq : ∀ g, p ≠ .resume g .requeue)
    (hok : ∀ g pc, p = .resume g pc → ResumeOk (s.status g) pc)
    (hobj : ∀ x, (obj x).waitingFibers = (s.obj x).waitingFibers) :
    Inv { s.setPc c p with obj, handed } reg held where
  waiting x := by simpa only [hobj] using h.waiting x
  resuming d g := by
    have := h.resuming d g
    simp only [State.setPc]
    grind
  resumeOk d g pc := by
    have := h.resumeOk d g pc
    simp only [State.setPc]
    grind
  requeuing d g := by
    have := h.requeuing d g
    simp only [State.setPc]
    grind
  queued := h.queued
  holds := h.holds
  worker w := (h.worker w).congr fun f _ => ⟨rfl, runs_update hc hp f⟩
  fiber f := (h.fiber f).update hc hp

/-- A fiber that was woken is put into a queue. -/
theorem Inv.requeued (h : Inv s reg held) {handed : φ → Bool} (hc : s.pc c = .resume g .requeue) :
    Inv { s.setPc c .body with queued := g :: s.queued, handed } reg
      (Function.update held g (some .queue)) := by
  have hg := h.requeuing c g hc
  have hok := (h.fiber g).ready ⟨_, hg, by simp⟩
  have hne : c ≠ .inl g := by
    rintro rfl
    rw [hok.2] at hc
    cases hc
  have hruns : (s.pc c).runs = true := by rw [hc]; rfl
  constructor <;> simp only [State.setPc]
  · exact h.waiting
  · have := h.resuming
    grind [Function.update_apply, Pc.resuming?]
  · have := h.resumeOk
    grind [Function.update_apply]
  · have := h.requeuing
    grind [Function.update_apply]
  · have := h.queued
    grind [Function.update_apply]
  · have := h.holds
    grind [Function.update_apply]
  · exact fun w => (h.worker w).congr fun f _ => ⟨rfl, runs_update hruns rfl f⟩
  · intro f
    have := h.fiber f
    by_cases hf : f = g
    · subst hf
      rw [Function.update_self, Function.update_of_ne (Ne.symm hne)]
      constructor <;> grind [FiberOk]
    · rw [Function.update_of_ne hf]
      exact this.update hruns rfl

/-- A task is submitted, and its fiber is in a queue for the first time. -/
theorem Inv.push (h : Inv s reg held) (hf : s.pc (.inl f) = .fresh) :
    Inv { s.setPc (.inl f) .away with queued := f :: s.queued } reg
      (Function.update held f (some .queue)) := by
  have hfresh := (h.fiber f).fresh hf
  have hnone : (Pc.away : Pc φ ν).resuming? = none := rfl
  have hnone₀ : (s.pc (.inl f)).resuming? = none := by rw [hf]; rfl
  constructor <;> simp only [State.setPc]
  · exact h.waiting
  · have := h.resuming
    grind [Function.update_apply]
  · have := h.resumeOk
    grind [Function.update_apply]
  · have := h.requeuing
    grind [Function.update_apply]
  · have := h.queued
    grind [Function.update_apply]
  · have := h.holds
    grind [Function.update_apply]
  · refine fun w => (h.worker w).congr fun g hg => ⟨rfl, .inl ?_⟩
    have := h.holds w g hg
    grind [Function.update_apply]
  · intro g
    have := h.fiber g
    by_cases hg : g = f
    · subst hg
      rw [Function.update_self, Function.update_self]
      constructor <;> grind [FiberOk]
    · rwa [Function.update_of_ne hg, Function.update_of_ne (by simpa using hg)]

/-- The rule for a `Resume` call that decides: the fiber is registered no more. -/
theorem Inv.woken (h : Inv s reg held) {v : FiberStatus} {p : Pc φ ν} {k : Option (Holder φ ω ι)}
    {handed : φ → Bool} (hc : (s.pc c).runs = true) (hg : reg g = some (.caller c))
    (hp : p = .body ∧ k = held g ∨
      p = .resume g .requeue ∧ k = some (.caller c) ∧ held g = none)
    (hok : FiberOk (ι := ι) (ω := ω) v (s.pc (.inl g)) none k)
    (hworker : ∀ w, (s.worker w).fiber? = some g →
      WorkerOk (Function.update s.status g v) (fun f => s.pc (.inl f)) (s.worker w)) :
    Inv { (s.setStatus g v).setPc c p with handed } (Function.update reg g none)
      (Function.update held g k) := by
  have hne := h.ne_caller hc (by rw [hg]; rfl)
  have hruns : p.runs = true := by rcases hp with ⟨rfl, -⟩ | ⟨rfl, -⟩ <;> rfl
  have hnone : p.resuming? = none := by rcases hp with ⟨rfl, -⟩ | ⟨rfl, -⟩ <;> rfl
  constructor <;> simp only [State.setPc, State.setStatus]
  · have := h.waiting
    grind [Function.update_apply]
  · have := h.resuming
    grind [Function.update_apply]
  · intro d f pc hd
    have := h.resuming d f
    have := h.resumeOk d f pc
    cases pc <;> grind [Function.update_apply, ResumeOk, Pc.resuming?]
  · have := h.requeuing
    grind [Function.update_apply]
  · have := h.queued
    grind [Function.update_apply]
  · have := h.holds
    grind [Function.update_apply]
  · intro w
    by_cases hw : (s.worker w).fiber? = some g
    · exact (hworker w hw).congr fun f _ => ⟨rfl, runs_update hc hruns f⟩
    · refine (h.worker w).congr fun f hf => ⟨?_, runs_update hc hruns f⟩
      rw [Function.update_of_ne]
      rintro rfl
      exact hw hf
  · intro f
    by_cases hf : f = g
    · subst hf
      simpa [hne, Ne.symm hne] using hok
    · have := h.fiber f
      rw [Function.update_of_ne hf, Function.update_of_ne hf, Function.update_of_ne hf]
      exact this.update hc hruns

/-- A step of a `Resume` call keeps the invariant, unless it loads the status too early. -/
theorem Inv.resumeStep (h : Inv s reg held) {pc : ResumePc} {v : FiberStatus}
    {pc' : Option ResumePc} (hc : s.pc c = .resume g pc) (hres : resume pc (s.status g) = (v, pc'))
    (hearly : pc = .load → s.pc (.inl g) ≠ .suspend) :
    ∃ reg' held', Inv { (s.setStatus g v).setPc c (pc'.elim .body fun pc' => .resume g pc') with
      queued := if pc = .requeue then g :: s.queued else s.queued
      handed := if pc' = none then Function.update s.handed g true else s.handed } reg' held' := by
  have hruns : (s.pc c).runs = true := by rw [hc]; rfl
  have hok := h.resumeOk c g pc hc
  have hreg : pc ≠ .requeue → reg g = some (.caller c) := fun hpc =>
    (h.resuming c g).2 (by rw [hc]; cases pc <;> first | rfl | exact absurd rfl hpc)
  -- the word stays, and the call goes on
  have hstay : ∀ q, resume pc (s.status g) = (s.status g, some q) → pc ≠ .requeue →
      q ≠ .requeue → ResumeOk (s.status g) q → Inv (s.setPc c (.resume g q)) reg held := by
    intro q _ hpc hq hok'
    refine h.callerMove hruns rfl ?_ (by simpa using hq) ?_ fun _ => rfl
    · rw [hc]
      cases pc <;> cases q <;> simp_all [Pc.resuming?]
    · rintro g' rpc ⟨⟩
      exact hok'
  cases pc with
  | load =>
    rcases (h.fiber g).reg.1 (by rw [hreg (by simp)]; rfl) with hst | hst | hst
    · have hres' : resume .load (s.status g) = (s.status g, some .casWantsSuspend) := by
        rw [hst]; rfl
      cases hres.symm.trans hres'
      exact ⟨_, _, by rw [State.setStatus_self]; exact hstay _ hres' (by simp) (by simp) (.inl hst)⟩
    · have hres' : resume .load (s.status g) = (s.status g, some .casSuspended) := by rw [hst]; rfl
      cases hres.symm.trans hres'
      exact ⟨_, _, by rw [State.setStatus_self]; exact hstay _ hres' (by simp) (by simp) hst⟩
    · exact absurd hst (hearly rfl)
  | casSuspended =>
    have hst : s.status g = .suspended := hok
    rw [hst] at hres
    cases hres
    obtain ⟨hheld, haway⟩ := (h.fiber g).suspended hst
    refine ⟨_, _, h.woken (k := some (.caller c)) hruns (hreg (by simp)) (.inr ⟨rfl, rfl, hheld⟩) ?_
      fun w hw => ?_⟩
    · constructor <;> simp [haway]
    · rw [h.holds w g hw] at hheld
      cases hheld
  | casWantsSuspend =>
    rcases hok with hst | hst
    · rw [hst] at hres
      cases hres
      refine ⟨_, _, h.woken (k := held g) hruns (hreg (by simp)) (.inl ⟨rfl, rfl⟩) ?_
        fun w hw => ?_⟩
      · have := h.fiber g
        constructor <;> grind [FiberOk]
      · have := h.worker w
        cases hwp : s.worker w with
        | idle => rw [hwp] at hw; cases hw
        | picked f | on f =>
          rw [hwp] at hw this
          cases hw
          grind [WorkerOk, Leaves]
        | back f sw =>
          rw [hwp] at hw this
          cases hw
          cases sw <;> grind [WorkerOk, BackOk, Leaves]
    · have hres' : resume .casWantsSuspend (s.status g) = (s.status g, some .load) := by
        rw [hst]; rfl
      cases hres.symm.trans hres'
      exact ⟨_, _, by rw [State.setStatus_self]; exact hstay _ hres' (by simp) (by simp) trivial⟩
  | requeue =>
    cases hres
    exact ⟨_, _, by rw [State.setStatus_self]; exact h.requeued hc⟩

variable [DecidableEq ν]

/-- The rule for the caller that takes a fiber from a queue. -/
theorem Inv.taken (h : Inv s reg held) {x : ν} {o : Obj φ} (hc : s.pc c = .release x)
    (ho : (s.obj x).waitingFibers = g :: o.waitingFibers) :
    Inv { s.setPc c (.resume g .load) with obj := Function.update s.obj x o }
      (Function.update reg g (some (.caller c))) held := by
  have hx := h.waiting x
  rw [ho] at hx
  have hg : reg g = some (.obj x) := (hx.2 g).1 (by simp)
  have hne : c ≠ .inl g := by
    rintro rfl
    have := (h.fiber g).not_runs (by rw [hg]; rfl)
    rw [hc] at this
    cases this
  constructor <;> simp only [State.setPc]
  · have := h.waiting
    grind [Function.update_apply]
  · have := h.resuming
    grind [Function.update_apply, Pc.resuming?]
  · have := h.resumeOk
    grind [Function.update_apply, ResumeOk]
  · have := h.requeuing
    grind [Function.update_apply]
  · exact h.queued
  · exact h.holds
  · exact fun w => (h.worker w).congr fun f _ => ⟨rfl, by grind [Pc.runs]⟩
  · intro f
    have := h.fiber f
    constructor <;> grind [Function.update_apply, FiberOk]

/-- A step that callers have in common keeps the invariant. -/
theorem Inv.callStep (h : Inv s reg held) {m : Move ν}
    (hearly : tooEarly.loadsEarly s (s.pc c) = false) (hs : callStep s c m = some s') :
    ∃ reg' held', Inv s' reg' held' := by
  revert hs
  fun_cases Sync.callStep s c m with
  | case1 x hpc =>
    rintro ⟨⟩
    exact ⟨_, _, h.callerMove (by rw [hpc]; rfl) rfl (by rw [hpc]; rfl) (by simp) (by simp)
      fun _ => rfl⟩
  | case2 x hpc =>
    rintro ⟨⟩
    exact ⟨_, _, h.callerMove (by rw [hpc]; rfl) rfl (by rw [hpc]; rfl) (by simp) (by simp)
      fun _ => rfl⟩
  | case3 x hpc o next ho =>
    rintro ⟨⟩
    have hrelease := (s.obj x).waitingFibers_release
    rw [ho] at hrelease
    cases next with
    | none =>
      refine ⟨_, _, h.callerMove (by rw [hpc]; rfl) rfl (by rw [hpc]; rfl) (by simp) (by simp)
        fun y => ?_⟩
      by_cases hy : y = x
      · subst hy
        simpa using hrelease
      · rw [Function.update_of_ne hy]
    | some g => exact ⟨_, _, h.taken hpc hrelease.symm⟩
  | case4 g pc hpc v pc' hres =>
    rintro ⟨⟩
    refine h.resumeStep hpc hres ?_
    rintro rfl
    simpa [tooEarly.loadsEarly, hpc] using hearly
  | case5 => simp

/-- A step of a thread keeps the invariant. -/
theorem Inv.threadStep (h : Inv s reg held) {i : ι} {m : Move ν}
    (hearly : tooEarly.loadsEarly s (s.pc (.inr i)) = false)
    (hs : threadStep s i m = some s') : ∃ reg' held', Inv s' reg' held' := by
  revert hs
  fun_cases Sync.threadStep s i m with
  | case1 x hpc =>
    rintro ⟨⟩
    cases ho : (s.obj x).tryAcquire with
    | none => exact ⟨reg, held, h⟩
    | some o =>
      refine ⟨_, _, h.callerMove (by rw [hpc]; rfl) rfl (by rw [hpc]; rfl) (by simp) (by simp)
        fun y => ?_⟩
      by_cases hy : y = x
      · subst hy
        simpa using Obj.waitingFibers_tryAcquire ho
      · rw [Function.update_of_ne hy]
  | case2 => exact h.callStep hearly

end

variable [DecidableEq ω]

/-- A worker takes a fiber from a queue. -/
theorem Inv.pick (h : Inv s reg held) (hw : s.worker w = .idle) (hf : f ∈ s.queued) :
    Inv { s.setWorker w (.picked f) with queued := s.queued.erase f } reg
      (Function.update held f (some (.worker w))) := by
  have hq := h.queued.2 f hf
  have hready := (h.fiber f).ready ⟨_, hq, by simp⟩
  constructor <;> simp only [State.setWorker]
  · exact h.waiting
  · exact h.resuming
  · exact h.resumeOk
  · have := h.requeuing
    grind [Function.update_apply]
  · have := h.queued
    grind [Function.update_apply, List.Nodup.mem_erase_iff, List.Nodup.erase]
  · have := h.holds
    grind [Function.update_apply, WorkerPc.fiber?]
  · intro w'
    by_cases hw' : w' = w
    · subst hw'
      rw [Function.update_self]
      exact hready
    · rw [Function.update_of_ne hw']
      exact h.worker w'
  · intro g
    have := h.fiber g
    by_cases hg : g = f
    · subst hg
      rw [Function.update_self]
      constructor <;> grind [FiberOk]
    · rwa [Function.update_of_ne hg]

variable [DecidableEq ι]

/-- The rule for a fiber that a worker has, and that the worker or its own code moves. -/
theorem Inv.heldMove (h : Inv s reg held) (hw : (s.worker w).fiber? = some f) {v : FiberStatus}
    {p : Pc φ ν} {m : WorkerPc φ} {r : Option (Reg φ ν ι)} {k : Option (Holder φ ω ι)}
    (hstatus : s'.status = Function.update s.status f v)
    (hpc : s'.pc = Function.update s.pc (.inl f) p)
    (hworker : s'.worker = Function.update s.worker w m)
    (hp₀ : ∀ g pc, s.pc (.inl f) ≠ .resume g pc) (hp : ∀ g pc, p ≠ .resume g pc)
    (hreg : r = reg f ∨ reg f = none ∧ ∃ x, r = some (.obj x))
    (hwaiting : ∀ x, (s'.obj x).waitingFibers.Nodup ∧
      ∀ g, g ∈ (s'.obj x).waitingFibers ↔ Function.update reg f r g = some (.obj x))
    (hqueued : s'.queued = s.queued ∧ (m.fiber? = some f ∧ k = held f ∨ m = .idle ∧ k = none) ∨
      s'.queued = f :: s.queued ∧ m = .idle ∧ k = some .queue)
    (hres : ∀ pc, ResumeOk (s.status f) pc → ResumeOk v pc) (hok : FiberOk v p r k)
    (hwok : WorkerOk s'.status (fun f => s'.pc (.inl f)) m) :
    Inv s' (Function.update reg f r) (Function.update held f k) := by
  have hheld := h.holds w f hw
  have hnone₀ := Pc.resuming?_eq_none hp₀
  have hnone := Pc.resuming?_eq_none hp
  constructor
  · exact hwaiting
  · have := h.resuming
    rw [hpc]
    grind [Function.update_apply]
  · intro c g pc hc
    have := h.resumeOk c g pc
    rw [hpc] at hc
    rw [hstatus]
    grind [Function.update_apply]
  · have := h.requeuing
    rw [hpc]
    grind [Function.update_apply]
  · have := h.queued
    grind [Function.update_apply]
  · intro w' g hg
    have := h.holds w' g
    rw [hworker] at hg
    grind [Function.update_apply, WorkerPc.fiber?]
  · intro w'
    rw [hworker]
    by_cases hw' : w' = w
    · subst hw'
      rw [Function.update_self]
      exact hwok
    · rw [Function.update_of_ne hw']
      refine (h.worker w').congr fun g hg => ?_
      have := h.holds w' g hg
      rw [hstatus, hpc]
      grind [Function.update_apply]
  · intro g
    rw [hstatus, hpc]
    by_cases hg : g = f
    · subst hg
      simpa using hok
    · have := h.fiber g
      simpa [hg] using this

/-- A fiber stores the status it leaves the worker with. -/
theorem Inv.announce (h : Inv s reg held) (hw : s.worker w = .on f) {v : FiberStatus}
    (hv : s.pc (.inl f) = .suspend ∧ v = .wantsSuspend ∨
      s.pc (.inl f) = .body ∧ (v = .wantsYield ∨ v = .dead)) :
    ∃ reg' held', Inv ((s.setStatus f v).setPc (.inl f) .switch) reg' held' := by
  have hwf : (s.worker w).fiber? = some f := by rw [hw]; rfl
  have hwok := h.worker w
  rw [hw] at hwok
  have hrunning : s.status f = .running := hwok.2.2.1 (by grind)
  have hok := h.fiber f
  have hheld := h.holds w f hwf
  refine ⟨_, _, h.heldMove (r := reg f) (k := held f) (m := s.worker w) hwf rfl rfl ?_ (by grind)
    (by simp) (.inl rfl) ?_ (.inl ⟨rfl, .inl ⟨hwf, rfl⟩⟩) (fun pc hpc => ?_) ?_ ?_⟩
  · simp [State.setPc, State.setStatus]
  · rw [Function.update_eq_self]
    exact h.waiting
  · rw [hrunning] at hpc
    exact hpc.of_ne (by simp) (by simp)
  · constructor <;> grind [FiberOk]
  · rw [hw]
    simp only [WorkerOk, State.setPc, State.setStatus, Function.update_self]
    grind [Leaves]

/-- A fiber switches back to its worker. -/
theorem Inv.switchOut (h : Inv s reg held) (hw : s.worker w = .on f)
    (hpc : s.pc (.inl f) = .switch) :
    ∃ reg' held', Inv ((s.setPc (.inl f) .away).setWorker w (.back f .load)) reg' held' := by
  have hwf : (s.worker w).fiber? = some f := by rw [hw]; rfl
  have hwok := h.worker w
  rw [hw] at hwok
  have hok := h.fiber f
  have hheld := h.holds w f hwf
  refine ⟨_, _, h.heldMove (r := reg f) (k := held f) (v := s.status f) hwf ?_ rfl rfl
    (by simp [hpc]) (by simp) (.inl rfl) ?_ (.inl ⟨rfl, .inl ⟨rfl, rfl⟩⟩) (fun _ => id) ?_ ?_⟩
  · simp [State.setPc, State.setWorker]
  · rw [Function.update_eq_self]
    exact h.waiting
  · constructor <;> grind [FiberOk, WorkerOk]
  · simp only [WorkerOk, State.setPc, State.setWorker, Function.update_self]
    exact ⟨trivial, hwok.2.2.2 hpc⟩

/-- The rule for a step of a worker after its fiber came back. -/
theorem Inv.backMove (h : Inv s reg held) {pc : SwitchPc} (hw : s.worker w = .back f pc)
    {v : FiberStatus} {pc' : Option SwitchPc} {k : Option (Holder φ ω ι)} {queued : List φ}
    (hqueued : queued = s.queued ∧ (pc'.isSome ∧ k = held f ∨ pc' = none ∧ k = none) ∨
      queued = f :: s.queued ∧ pc' = none ∧ k = some .queue)
    (hres : ∀ rpc, ResumeOk (s.status f) rpc → ResumeOk v rpc) (hok : FiberOk v .away (reg f) k)
    (hback : ∀ q, pc' = some q → BackOk v q) :
    ∃ reg' held', Inv { (s.setStatus f v).setWorker w (pc'.elim .idle fun pc' => .back f pc') with
      queued } reg' held' := by
  have hwf : (s.worker w).fiber? = some f := by rw [hw]; rfl
  have haway : s.pc (.inl f) = .away := by
    have := h.worker w
    rw [hw] at this
    exact this.1
  refine ⟨_, _, h.heldMove (r := reg f) (k := k) (p := .away) hwf rfl ?_ rfl (by simp [haway])
    (by simp) (.inl rfl) ?_ ?_ hres hok ?_⟩
  · simp [State.setWorker, State.setStatus, ← haway]
  · rw [Function.update_eq_self]
    exact h.waiting
  · cases pc' <;> simp_all [WorkerPc.fiber?]
  · cases pc' with
    | none => trivial
    | some q =>
      simp only [Option.elim_some, WorkerOk, State.setWorker, State.setStatus, Function.update_self]
      exact ⟨haway, hback q rfl⟩

/-- A step of a worker with its fiber keeps the invariant. -/
theorem Inv.workerStep (h : Inv s reg held) (hs : workerStep s w = some s') :
    ∃ reg' held', Inv s' reg' held' := by
  have hwok := h.worker w
  revert hs
  fun_cases Sync.workerStep s w with
  | case1 f hw =>
    rintro ⟨⟩
    rw [hw] at hwok
    obtain ⟨hready, haway⟩ := hwok
    have hok := h.fiber f
    have hheld := h.holds w f (by rw [hw]; rfl)
    refine ⟨_, _, h.heldMove (r := reg f) (k := held f) (by rw [hw]; rfl) rfl rfl rfl
      (by simp [haway]) (by simp) (.inl rfl) ?_ (.inl ⟨rfl, .inl ⟨rfl, rfl⟩⟩)
      (fun pc hpc => ?_) ?_ ?_⟩
    · rw [Function.update_eq_self]
      exact h.waiting
    · rw [hready] at hpc
      exact hpc.of_ne (by simp) (by simp)
    · constructor <;> grind [FiberOk]
    · simp [WorkerOk, State.setPc, State.setStatus, State.setWorker]
  | case2 f pc hw v pc' hafter =>
    rintro ⟨⟩
    rw [hw] at hwok
    have haway : s.pc (.inl f) = .away := hwok.1
    have hback := hwok.2
    have hok := h.fiber f
    have hheld := h.holds w f (by rw [hw]; rfl)
    cases pc with
    | load =>
      have hv : v = s.status f ∧ ∃ q, pc' = some q ∧ BackOk v q := by
        rcases hback with hst | hst | hst | hst <;> rw [hst] at hafter ⊢ <;> cases hafter <;>
          simp [BackOk]
      obtain ⟨rfl, q, rfl, hq⟩ := hv
      refine h.backMove hw (k := held f) (.inl ⟨rfl, .inl ⟨rfl, rfl⟩⟩) (fun _ => id)
        (haway ▸ hok) ?_
      rintro _ ⟨⟩
      exact hq
    | dead =>
      cases hafter
      have hdead : s.status f = .dead := hback
      refine h.backMove hw (k := none) (.inl ⟨rfl, .inr ⟨rfl, rfl⟩⟩) (fun _ => id) ?_ (by simp)
      constructor <;> grind [FiberOk]
    | «yield» =>
      cases hafter
      have hyield : s.status f = .wantsYield := hback
      refine h.backMove hw (k := held f) (.inl ⟨rfl, .inl ⟨rfl, rfl⟩⟩) (fun rpc hr => ?_) ?_ ?_
      · exact hr.of_ne (by simp [hyield]) (by simp [hyield])
      · constructor <;> grind [FiberOk]
      · rintro q ⟨⟩
        rfl
    | signaled =>
      cases hafter
      have hsignaled : s.status f = .suspendSignaled := hback
      refine h.backMove hw (k := held f) (.inl ⟨rfl, .inl ⟨rfl, rfl⟩⟩) (fun rpc hr => ?_) ?_ ?_
      · exact hr.of_ne (by simp [hsignaled]) (by simp [hsignaled])
      · constructor <;> grind [FiberOk]
      · rintro q ⟨⟩
        rfl
    | pushBottom | requeue =>
      cases hafter
      have hready : s.status f = .ready := hback
      refine h.backMove hw (k := some .queue) (.inr ⟨rfl, rfl, rfl⟩) (fun _ => id) ?_ (by simp)
      constructor <;> grind [FiberOk]
    | park =>
      rcases hback with hst | hst
      · rw [hst] at hafter
        cases hafter
        refine h.backMove hw (k := none) (.inl ⟨rfl, .inr ⟨rfl, rfl⟩⟩) (fun rpc hr => ?_) ?_
          (by simp)
        · rw [hst] at hr
          cases rpc <;> simp_all [ResumeOk]
        · constructor <;> grind [FiberOk]
      · rw [hst] at hafter
        cases hafter
        refine h.backMove hw (k := held f) (.inl ⟨rfl, .inl ⟨rfl, rfl⟩⟩) (fun rpc hr => ?_) ?_ ?_
        · rwa [hst] at hr
        · rw [← hst]
          exact haway ▸ hok
        · rintro q ⟨⟩
          rfl
  | case3 => simp

variable [DecidableEq ν]

/-- A fiber enters a queue. -/
theorem Inv.enqueue (h : Inv s reg held) (hw : s.worker w = .on f) {x : ν} {o : Obj φ}
    {handed : φ → Bool} (hpc : s.pc (.inl f) = .acquire x)
    (ho : o.waitingFibers = (s.obj x).waitingFibers ++ [f]) :
    ∃ reg' held', Inv { s.setPc (.inl f) .suspend with
      obj := Function.update s.obj x o
      handed } reg' held' := by
  have hwf : (s.worker w).fiber? = some f := by rw [hw]; rfl
  have hwok := h.worker w
  rw [hw] at hwok
  have hrunning : s.status f = .running := hwok.2.2.1 (by simp [hpc])
  have hok := h.fiber f
  have hheld := h.holds w f hwf
  have hnone : reg f = none := by
    rw [← Option.not_isSome_iff_eq_none, hok.reg, hrunning, hpc]
    simp
  refine ⟨_, _, h.heldMove (r := some (.obj x)) (k := held f) (v := s.status f) (m := s.worker w)
    hwf ?_ rfl ?_ (by simp [hpc]) (by simp) (.inr ⟨hnone, x, rfl⟩) (fun y => ?_)
    (.inl ⟨rfl, .inl ⟨hwf, rfl⟩⟩) (fun _ => id) ?_ ?_⟩
  · simp [State.setPc]
  · simp [State.setPc]
  · have := h.waiting
    grind [Function.update_apply]
  · constructor <;> grind [FiberOk]
  · rw [hw]
    simp only [WorkerOk, State.setPc, Function.update_self]
    grind

/-- A step of the fiber that runs on a worker keeps the invariant. -/
theorem Inv.fiberStep (h : Inv s reg held) {m : Move ν} (hw : s.worker w = .on f)
    (hearly : tooEarly.loadsEarly s (s.pc (.inl f)) = false)
    (hs : fiberStep s w f m = some s') : ∃ reg' held', Inv s' reg' held' := by
  revert hs
  fun_cases Sync.fiberStep s w f m with
  | case1 x hpc o got ho =>
    rintro ⟨⟩
    have hacquire := (s.obj x).waitingFibers_acquire f
    rw [ho] at hacquire
    cases got with
    | true =>
      refine ⟨_, _, h.callerMove (by rw [hpc]; rfl) rfl (by rw [hpc]; rfl) (by simp) (by simp)
        fun y => ?_⟩
      by_cases hy : y = x
      · subst hy
        simpa using hacquire
      · rw [Function.update_of_ne hy]
    | false => exact h.enqueue hw hpc hacquire
  | case2 hpc =>
    rintro ⟨⟩
    exact h.announce hw (.inl ⟨hpc, rfl⟩)
  | case3 hpc =>
    rintro ⟨⟩
    exact h.announce hw (.inr ⟨hpc, .inl rfl⟩)
  | case4 hpc =>
    rintro ⟨⟩
    exact h.announce hw (.inr ⟨hpc, .inr rfl⟩)
  | case5 hpc =>
    rintro ⟨⟩
    exact h.switchOut hw hpc
  | case6 => exact h.callStep hearly

/-- Every step keeps the invariant, unless it loads a status too early. -/
theorem Inv.step (h : Inv s reg held) {a : Act φ ν ω ι} (hearly : tooEarly s a = false)
    (hs : step s a = some s') : ∃ reg' held', Inv s' reg' held' := by
  cases a with
  | push f =>
    simp only [Sync.step, Option.ite_none_right_eq_some, Option.some.injEq] at hs
    obtain ⟨hf, rfl⟩ := hs
    exact ⟨_, _, h.push hf⟩
  | pick w f =>
    simp only [Sync.step, Option.ite_none_right_eq_some, Option.some.injEq] at hs
    obtain ⟨⟨hw, hf⟩, rfl⟩ := hs
    exact ⟨_, _, h.pick hw hf⟩
  | worker w => exact h.workerStep hs
  | fiber w m =>
    simp only [Sync.step] at hs
    cases hw : s.worker w with
    | on f =>
      rw [hw] at hs
      simp only [tooEarly, hw] at hearly
      exact h.fiberStep hw hearly hs
    | _ => simp [hw] at hs
  | thread i m => exact h.threadStep hearly hs

/-- In every run in which no `Resume` call of `Unlock` or `Signal` loads the status of its fiber
before the fiber stored `WANTS_SUSPEND`, no hand-off is lost. -/
theorem handOff_not_lost (kind : ν → Kind) {as : List (Act φ ν ω ι)}
    (hrun : Lts.run Sync.step (State.init kind) as = some s)
    (hearly : ∀ p ∈ Lts.visits Sync.step (State.init kind) as, tooEarly p.1 p.2 = false) :
    ∀ f, ¬ Lost s f := by
  have hinv : ∃ reg held, Inv s reg held :=
    Lts.run_inv_of (I := fun s => ∃ reg held, Inv s reg held) (G := fun s a => tooEarly s a = false)
      (by rintro s a s' ⟨reg, held, h⟩ ha hs; exact h.step ha hs) ⟨_, _, Inv.init kind⟩ hrun hearly
  obtain ⟨reg, held, h⟩ := hinv
  exact h.not_lost

end

/-- Two fibers of one mutex: the first has the lock, and the second is in the queue. -/
def contend : List (Act Bool Unit Bool Empty) :=
  [.push true, .push false, .pick true true, .worker true, .fiber true (.acquire ()),
    .fiber true .next,
    .pick false false, .worker false, .fiber false (.acquire ()), .fiber false .next]

/-- The second fiber announces its suspension, and is woken before its worker parks it. -/
def handedRun : List (Act Bool Unit Bool Empty) :=
  contend ++ [.fiber false .next, .fiber true (.release ()), .fiber true .next, .fiber true .next,
    .fiber true .next, .fiber false .next, .worker false, .worker false, .worker false,
    .worker false]

theorem handOff_not_lost_handedRun : ∃ s : State Bool Unit Bool Empty,
    Lts.run step (State.init fun _ => .mutex) handedRun = some s ∧ s.handed false = true ∧
      s.queued = [false] ∧ ∀ f, ¬ Lost s f := by
  refine ⟨(Lts.run step (State.init fun _ => .mutex) handedRun).get (by decide),
    (Option.some_get _).symm, by decide, by decide, ?_⟩
  exact handOff_not_lost (fun _ => .mutex) (Option.some_get (by decide)).symm (by decide)

/-- The first fiber unlocks and calls `Resume` before the second has announced its suspension. -/
def lostRun : List (Act Bool Unit Bool Empty) :=
  contend ++ [.fiber true (.release ()), .fiber true .next, .fiber true .next, .fiber false .next,
    .fiber false .next, .worker false, .worker false]

/-- The second fiber is parked with the lock, and nobody will resume it. -/
theorem handOff_lost : ¬ ∀ (as : List (Act Bool Unit Bool Empty)) (s : State Bool Unit Bool Empty),
    Lts.run step (State.init fun _ => .mutex) as = some s → ∀ f, ¬ Lost s f := by
  intro h
  refine h lostRun _ (Option.some_get (by decide)).symm false ⟨by decide, by decide, by decide, ?_⟩
  intro c pc
  rcases c with (_ | _) | e
  · cases pc <;> decide
  · cases pc <;> decide
  · exact e.elim

end JLibScheduler.Sync
