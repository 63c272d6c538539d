import JLibScheduler.Lib.Update
import JLibScheduler.Fiber.Basic

/-!
# Phases of event waits

Every task of the machine of `Fiber.Basic` is given a phase, which says who is to move it on: a
queue, a worker, the event its waiter is registered with, or the thread that removed the waiter. The
phases describe a state (`Inv`) when every party agrees with them about the tasks it has. A party's
own step then moves a task from a phase of that party, so no other party is concerned: this is the
rule `Inv.move`, with `Inv.workerMove` and `Inv.freeMove` for the steps of workers and for tasks
that no party has.
-/

namespace JLibScheduler

namespace Fiber

/-- Who can still find the waiter of a wait: the event or the direct event it is registered with,
or the thread that removed it and has not woken it yet. -/
inductive Reg (ε δ ι : Type) where
  | event (e : ε)
  | direct (d : δ)
  | signaler (i : ι)

/-- The life cycle of a task with respect to waits: which party is to move it on. -/
inductive Phase (ε δ ω ι : Type) where
  /-- not submitted, or finished -/
  | idle
  | queued
  | picked (w : ω)
  | running (w : ω)
  /-- it yielded or finished, and its worker has not acted on this yet -/
  | leaving (w : ω)
  /-- it announced a wait and has not published its waiter -/
  | announced (w : ω)
  /-- its waiter is published or removed, and its worker has not parked it -/
  | waiting (w : ω) (r : Reg ε δ ι)
  /-- a signal came before the worker parked it -/
  | signaled (w : ω)
  /-- the worker parked it -/
  | suspended (r : Reg ε δ ι)
  /-- a signaler woke it and has not requeued it yet -/
  | waking (i : ι)

section
variable {τ ε δ ω ι : Type}

/-- The party that can find the waiter, in the phases that have one. -/
def Phase.reg : Phase ε δ ω ι → Option (Reg ε δ ι)
  | .waiting _ r | .suspended r => some r
  | _ => none

/-- The worker that has the task, in the phases that have one. -/
def Phase.worker : Phase ε δ ω ι → Option ω
  | .picked w | .running w | .leaving w | .announced w | .waiting w _ | .signaled w => some w
  | _ => none

/-- The phase after the waiter was removed by thread `i`. -/
def Phase.handTo (i : ι) : Phase ε δ ω ι → Phase ε δ ω ι
  | .waiting w _ => .waiting w (.signaler i)
  | .suspended _ => .suspended (.signaler i)
  | p => p

/-- The task a worker has. -/
def WorkerPc.task : WorkerPc τ → Option τ
  | .idle => none
  | .picked t | .on t | .back t _ _ => some t

/-- What the phase of a task says about its fiber and about the observations of its last wait. -/
def TaskOk (log : List (Obs τ)) (t : τ) (f : FiberState ε δ) : Phase ε δ ω ι → Prop
  | .idle => f.pc = .fresh ∧ f.status = .ready ∨ f.pc ≠ .fresh ∧ f.status = .dead
  | .queued | .picked _ => f.status = .ready ∧ ∃ r, f.pc = .away r
  | .running _ => f.status = .running
  | .leaving _ => f.status ≠ .suspended
  | .announced _ => f.status = .wantsSuspend ∧ ∀ o ∈ log, o.task = t → o.wait < f.waits
  | .waiting _ _ => f.status = .wantsSuspend ∧ .requeue t f.waits ∉ log ∧
      .resumed t f.waits ∉ log ∧ .parked t f.waits ∉ log
  | .signaled _ => f.status ≠ .suspended ∧ .requeue t f.waits ∉ log ∧ .parked t f.waits ∉ log
  | .suspended _ => f.status = .suspended ∧ (∃ r, f.pc = .away r) ∧ .back t f.waits ∈ log ∧
      .requeue t f.waits ∉ log ∧ .resumed t f.waits ∉ log
  | .waking _ => f.status = .ready ∧ (∃ r, f.pc = .away r) ∧ .back t f.waits ∈ log ∧
      .requeue t f.waits ∉ log ∧ .resumed t f.waits ∉ log

/-- The phase of a task that runs on worker `w`, by where its code stands. -/
def OnOk (w : ω) (f : FiberState ε δ) (p : Phase ε δ ω ι) : Prop :=
  match f.pc with
  | .body | .dequeued _ | .acquired _ | .release _ => p = .running w
  | .announced _ | .announcedDirect _ => p = .announced w
  | .armed _ => (∃ r, p = .waiting w r) ∨ p = .signaled w ∧ f.status = .suspendSignaled
  | .leaving => p = .leaving w ∧ (f.status = .wantsYield ∨ f.status = .dead)
  | .fresh | .away _ => False

/-- The phase of a task that came back to worker `w`, by where the worker stands. -/
def BackOk (w : ω) (f : FiberState ε δ) (p : Phase ε δ ω ι) : SwitchPc → Prop
  | .load => p = .leaving w ∧ (f.status = .wantsYield ∨ f.status = .dead) ∨
      (∃ r, p = .waiting w r) ∨ p = .signaled w ∧ f.status = .suspendSignaled
  | .dead => p = .leaving w ∧ f.status = .dead
  | .yield => p = .leaving w
  | .pushBottom => p = .leaving w ∧ f.status = .ready
  | .park => (∃ r, p = .waiting w r) ∨ p = .signaled w ∧ f.status = .suspendSignaled
  | .signaled => p = .signaled w
  | .requeue => p = .signaled w ∧ f.status = .ready

/-- What a worker's place says about its task. -/
def WorkerOk (log : List (Obs τ)) (fiber : τ → FiberState ε δ) (ph : τ → Phase ε δ ω ι) (w : ω) :
    WorkerPc τ → Prop
  | .idle => True
  | .picked t => ph t = .picked w
  | .on t => OnOk w (fiber t) (ph t)
  | .back t k pc => k = (fiber t).waits ∧ (∃ r, (fiber t).pc = .away r) ∧ .back t k ∈ log ∧
      BackOk w (fiber t) (ph t) pc

/-- What the place of a `Resume` call says about the task it wakes. -/
def ResumeOk (i : ι) (p : Phase ε δ ω ι) : ResumePc → Prop
  | .load | .casWantsSuspend => p.reg = some (.signaler i)
  | .casSuspended => p = .suspended (.signaler i)
  | .requeue => p = .waking i

/-- What a signaler's place says about the waiters it removed. -/
def SignalerOk (fiber : τ → FiberState ε δ) (ph : τ → Phase ε δ ω ι) (i : ι) :
    Signaler τ → Prop
  | ⟨[], _⟩ => True
  | ⟨(t, k) :: rest, pc⟩ => k = (fiber t).waits ∧ ResumeOk i (ph t) pc ∧
      (t :: rest.map Prod.fst).Nodup ∧
      ∀ p ∈ rest, p.2 = (fiber p.1).waits ∧ (ph p.1).reg = some (.signaler i)

end

section
variable {τ ε δ ω ι : Type} [DecidableEq τ]

/-- The history is that of exact waits: an observation is about a wait that has begun, a wait is
requeued at most once, only after the worker came back from its switch, and has been requeued when
its `Resume` call and the worker's park step are both finished. -/
structure LogOk (log : List (Obs τ)) (waits : τ → ℕ) : Prop where
  begun : ∀ o ∈ log, o.wait ≤ waits o.task
  once : ∀ t k, log.count (.requeue t k) ≤ 1
  order : ∀ t k l, (.requeue t k :: l) <:+ log → .back t k ∈ l
  woken : ∀ t k, .resumed t k ∈ log → .parked t k ∈ log → .requeue t k ∈ log

/-- The phases `ph` describe the state. -/
structure Inv (s : State τ ε δ ω ι) (ph : τ → Phase ε δ ω ι) : Prop where
  task : ∀ t, TaskOk s.log t (s.fiber t) (ph t)
  fresh : ∀ t, (s.fiber t).pc = .fresh → ph t = .idle
  worker : ∀ w, WorkerOk s.log s.fiber ph w (s.worker w)
  signaler : ∀ i, SignalerOk s.fiber ph i (s.signaler i)
  waiters : ∀ e, (s.waiters e).Nodup ∧ ∀ t ∈ s.waiters e, (ph t).reg = some (.event e)
  waiter : ∀ d t, s.waiter d = some t → (ph t).reg = some (.direct d)
  queued : s.queued.Nodup ∧ ∀ t ∈ s.queued, ph t = .queued
  log : LogOk s.log fun t => (s.fiber t).waits

end

section
variable {τ : Type} [DecidableEq τ] {log : List (Obs τ)} {waits waits' : τ → ℕ} {t : τ} {k : ℕ}

/-- The history of waits stays exact when further waits begin. -/
theorem LogOk.mono (h : LogOk log waits) (hw : ∀ t, waits t ≤ waits' t) : LogOk log waits' :=
  ⟨fun o ho => Nat.le_trans (h.begun o ho) (hw _), h.once, h.order, h.woken⟩

/-- The order of a history with a new observation in front: only a `Requeue` asks for something. -/
theorem LogOk.order_cons (h : LogOk log waits) {o : Obs τ}
    (ho : ∀ u j, o = .requeue u j → .back u j ∈ log) (u : τ) (j : ℕ) (l : List (Obs τ))
    (hl : (.requeue u j :: l) <:+ o :: log) : .back u j ∈ l := by
  rcases List.suffix_cons_iff.1 hl with heq | hl
  · cases heq
    exact ho u j rfl
  · exact h.order u j l hl

/-- The worker's return from a switch may be observed at any time. -/
theorem LogOk.back (h : LogOk log waits) (hk : k ≤ waits t) : LogOk (.back t k :: log) waits where
  begun := by simpa [Obs.wait, Obs.task, hk] using h.begun
  once u j := by simpa using h.once u j
  order := h.order_cons (by simp)
  woken u j := by simpa using h.woken u j

/-- A first `Requeue` of a wait keeps the history exact, if the worker is back from the switch. -/
theorem LogOk.requeue (h : LogOk log waits) (hk : k ≤ waits t) (hnew : .requeue t k ∉ log)
    (hback : .back t k ∈ log) : LogOk (.requeue t k :: log) waits where
  begun := by simpa [Obs.wait, Obs.task, hk] using h.begun
  once u j := by
    have hcount := h.once u j
    have hzero := List.count_eq_zero_of_not_mem hnew
    grind
  order := h.order_cons (by grind)
  woken u j hr hp := by
    have := h.woken u j (by simpa using hr) (by simpa using hp)
    exact List.mem_cons_of_mem _ this

/-- The end of a park step keeps the history exact, if a finished `Resume` call of the wait left the
task requeued. -/
theorem LogOk.parked (h : LogOk log waits) (hk : k ≤ waits t)
    (hwoken : .resumed t k ∈ log → .requeue t k ∈ log) : LogOk (.parked t k :: log) waits where
  begun := by simpa [Obs.wait, Obs.task, hk] using h.begun
  once u j := by simpa using h.once u j
  order := h.order_cons (by simp)
  woken u j := by
    have := h.woken u j
    grind

/-- The end of a `Resume` call keeps the history exact, if a finished park step of the wait left the
task requeued. -/
theorem LogOk.resumed (h : LogOk log waits) (hk : k ≤ waits t)
    (hwoken : .parked t k ∈ log → .requeue t k ∈ log) : LogOk (.resumed t k :: log) waits where
  begun := by simpa [Obs.wait, Obs.task, hk] using h.begun
  once u j := by simpa using h.once u j
  order := h.order_cons (by simp)
  woken u j := by
    have := h.woken u j
    grind

end

section
variable {τ ε δ ω ι : Type} {log log' : List (Obs τ)} {fiber fiber' : τ → FiberState ε δ}
  {ph ph' : τ → Phase ε δ ω ι} {t : τ} {w : ω} {i : ι}

/-- What the phase of a task says is kept by observations of other tasks. -/
theorem TaskOk.congr {f : FiberState ε δ} {p : Phase ε δ ω ι} (h : TaskOk log t f p)
    (hlog : ∀ o ∈ log, o ∈ log') (hnew : ∀ o ∈ log', o.task = t → o ∈ log) :
    TaskOk log' t f p := by
  have hnew' : ∀ o, o ∉ log → o.task = t → o ∉ log' := fun o ho hot hmem => ho (hnew o hmem hot)
  cases p <;> simp only [TaskOk] at h ⊢ <;> grind [Obs.task]

/-- A worker's task is in a phase of that worker. -/
theorem WorkerOk.phase_worker {pc : WorkerPc τ} (h : WorkerOk log fiber ph w pc)
    (ht : pc.task = some t) : (ph t).worker = some w := by
  cases pc with
  | idle => cases ht
  | picked u => cases ht; simp only [WorkerOk] at h; rw [h]; rfl
  | on u =>
    cases ht
    simp only [WorkerOk, OnOk] at h
    grind [Phase.worker]
  | back u k pc =>
    cases ht
    obtain ⟨-, -, -, h⟩ := h
    cases pc <;> grind [BackOk, Phase.worker]

/-- What a worker's place says is about its own task only. -/
theorem WorkerOk.congr {pc : WorkerPc τ} (h : WorkerOk log fiber ph w pc)
    (hlog : ∀ o ∈ log, o ∈ log')
    (ht : ∀ t, pc.task = some t → fiber' t = fiber t ∧ ph' t = ph t) :
    WorkerOk log' fiber' ph' w pc := by
  cases pc with
  | idle => trivial
  | picked u | on u | back u k pc =>
    obtain ⟨hf, hp⟩ := ht u rfl
    simp only [WorkerOk, hf, hp] at h ⊢
    grind

/-- The removal of waiters changes nothing for the workers. -/
theorem WorkerOk.handTo {pc : WorkerPc τ} (h : WorkerOk log fiber ph w pc)
    (ht : ∀ t, ph' t = ph t ∨ ph' t = (ph t).handTo i) : WorkerOk log fiber ph' w pc := by
  cases pc with
  | idle => trivial
  | picked u =>
    have hp : ph u = .picked w := h
    rcases ht u with hu | hu <;> rw [WorkerOk, hu, hp]
    rfl
  | on u =>
    rcases ht u with hu | hu <;> rw [WorkerOk, hu]
    · exact h
    · simp only [WorkerOk] at h
      unfold OnOk at h ⊢
      split at h <;> grind [Phase.handTo]
  | back u k pc =>
    obtain ⟨hk, hr, hb, hback⟩ := h
    refine ⟨hk, hr, hb, ?_⟩
    rcases ht u with hu | hu <;> rw [hu]
    · exact hback
    · cases pc <;> grind [BackOk, Phase.handTo]

/-- A worker whose task is signaled before it is parked will find the signal. -/
theorem WorkerOk.signal [DecidableEq τ] {pc : WorkerPc τ} {w₀ : ω} {r : Reg ε δ ι}
    (h : WorkerOk log fiber ph w pc) (ht : pc.task = some t) (hp : ph t = .waiting w₀ r)
    (hlog : ∀ o ∈ log, o ∈ log') :
    WorkerOk log' (Function.update fiber t { fiber t with status := .suspendSignaled })
      (Function.update ph t (.signaled w₀)) w pc := by
  obtain rfl : w₀ = w := by
    have := h.phase_worker ht
    rw [hp] at this
    exact Option.some.inj this
  cases pc with
  | idle => cases ht
  | picked u =>
    cases ht
    rw [WorkerOk, hp] at h
    cases h
  | on u =>
    cases ht
    simp only [WorkerOk, Function.update_self]
    simp only [WorkerOk, hp] at h
    unfold OnOk at h ⊢
    split at h <;> simp_all
  | back u k pc =>
    cases ht
    obtain ⟨hk, hr, hb, hback⟩ := h
    simp only [WorkerOk, Function.update_self]
    refine ⟨hk, hr, hlog _ hb, ?_⟩
    rw [hp] at hback
    cases pc <;> simp_all [BackOk]

/-- A removed waiter is with the thread that removed it: its wait is not over, or that thread is
about to requeue it. -/
theorem SignalerOk.phase {g : Signaler τ} (h : SignalerOk fiber ph i g)
    (ht : t ∈ g.toWake.map Prod.fst) :
    (ph t).reg = some (.signaler i) ∨ ph t = .waking i := by
  obtain ⟨_ | ⟨⟨u, k⟩, rest⟩, pc⟩ := g
  · simp at ht
  · obtain ⟨-, hr, -, hrest⟩ := h
    cases pc <;> grind [ResumeOk, Phase.reg]

/-- What a signaler's place says is about the waiters it removed only, and about those that are not
parked it says only that they are still with it. -/
theorem SignalerOk.congr {g : Signaler τ} (h : SignalerOk fiber ph i g)
    (ht : ∀ t ∈ g.toWake.map Prod.fst, (fiber' t).waits = (fiber t).waits ∧
      (ph' t = ph t ∨ (ph t).worker ≠ none ∧ (ph' t).reg = (ph t).reg)) :
    SignalerOk fiber' ph' i g := by
  obtain ⟨_ | ⟨⟨u, k⟩, rest⟩, pc⟩ := g
  · trivial
  · obtain ⟨hk, hr, hnd, hrest⟩ := h
    obtain ⟨hwu, hpu⟩ := ht u (by simp)
    refine ⟨hk.trans hwu.symm, ?_, hnd, fun q hq => ?_⟩
    · rcases hpu with hpu | ⟨hw, hpu⟩
      · rwa [hpu]
      · cases pc <;> grind [ResumeOk, Phase.worker]
    · have hq' := hrest q hq
      have := ht q.1 (List.mem_cons_of_mem _ (List.mem_map_of_mem hq))
      grind

end

section
variable {τ ε δ ω ι : Type} [DecidableEq τ] {s s' : State τ ε δ ω ι} {ph : τ → Phase ε δ ω ι}
  {t : τ} {p : Phase ε δ ω ι}

/-- Nothing has begun: every task is idle. -/
theorem Inv.init (pool : List δ) :
    Inv (Fiber.init pool : State τ ε δ ω ι) fun _ => .idle where
  task _ := .inl ⟨rfl, rfl⟩
  fresh _ _ := rfl
  worker _ := trivial
  signaler _ := trivial
  waiters _ := ⟨List.nodup_nil, by simp [Fiber.init]⟩
  waiter _ _ h := by simp [Fiber.init] at h
  queued := ⟨List.nodup_nil, by simp [Fiber.init]⟩
  log := ⟨by simp [Fiber.init], by simp [Fiber.init], by simp [Fiber.init], by simp [Fiber.init]⟩

/-- The rule for a step that moves one task on: what it says about this task is to be shown, and
about the others that nothing changed. -/
theorem Inv.move (h : Inv s ph)
    (hfiber : ∀ u, u ≠ t → s'.fiber u = s.fiber u)
    (hlog : ∀ o ∈ s.log, o ∈ s'.log)
    (hnew : ∀ o ∈ s'.log, o.task ≠ t → o ∈ s.log)
    (htask : TaskOk s'.log t (s'.fiber t) p)
    (hfresh : (s'.fiber t).pc ≠ .fresh)
    (hworker : ∀ w, s'.worker w = s.worker w ∧ (s.worker w).task ≠ some t ∨
      WorkerOk s'.log s'.fiber (Function.update ph t p) w (s'.worker w))
    (hsignaler : ∀ i, s'.signaler i = s.signaler i ∧ t ∉ (s.signaler i).toWake.map Prod.fst ∨
      SignalerOk s'.fiber (Function.update ph t p) i (s'.signaler i))
    (hwaiters : ∀ e, (s'.waiters e).Nodup ∧ (∀ u ∈ s'.waiters e, u ≠ t → u ∈ s.waiters e) ∧
      (t ∈ s'.waiters e → p.reg = some (.event e)))
    (hwaiter : ∀ d u, s'.waiter d = some u → u ≠ t ∧ s.waiter d = some u ∨
      u = t ∧ p.reg = some (.direct d))
    (hqueued : s'.queued.Nodup ∧ (∀ u ∈ s'.queued, u ≠ t → u ∈ s.queued) ∧
      (t ∈ s'.queued → p = .queued))
    (hlogOk : LogOk s'.log fun u => (s'.fiber u).waits) :
    Inv s' (Function.update ph t p) := by
  have hph : ∀ u, u ≠ t → Function.update ph t p u = ph u :=
    fun u hu => Function.update_of_ne hu _ _
  refine ⟨fun u => ?_, fun u hu => ?_, fun w => ?_, fun i => ?_, fun e => ?_, fun d u hd => ?_, ?_,
    hlogOk⟩
  · by_cases hu : u = t
    · subst hu; rwa [Function.update_self]
    · rw [hph u hu, hfiber u hu]
      exact (h.task u).congr hlog fun o ho hot => hnew o ho (hot ▸ hu)
  · by_cases hut : u = t
    · subst hut; exact absurd hu hfresh
    · rw [hph u hut]; exact h.fresh u (hfiber u hut ▸ hu)
  · rcases hworker w with ⟨heq, hne⟩ | hw
    · rw [heq]
      refine (h.worker w).congr hlog fun u hu => ?_
      have hut : u ≠ t := fun hut => hne (hut ▸ hu)
      exact ⟨hfiber u hut, hph u hut⟩
    · exact hw
  · rcases hsignaler i with ⟨heq, hne⟩ | hi
    · rw [heq]
      refine (h.signaler i).congr fun u hu => ?_
      have hut : u ≠ t := fun hut => hne (hut ▸ hu)
      exact ⟨by rw [hfiber u hut], .inl (hph u hut)⟩
    · exact hi
  · obtain ⟨hnd, hold, ht⟩ := hwaiters e
    refine ⟨hnd, fun u hu => ?_⟩
    by_cases hut : u = t
    · subst hut; rw [Function.update_self]; exact ht hu
    · rw [hph u hut]; exact (h.waiters e).2 u (hold u hu hut)
  · rcases hwaiter d u hd with ⟨hut, hold⟩ | ⟨rfl, hreg⟩
    · rw [hph u hut]; exact h.waiter d u hold
    · rwa [Function.update_self]
  · obtain ⟨hnd, hold, ht⟩ := hqueued
    refine ⟨hnd, fun u hu => ?_⟩
    by_cases hut : u = t
    · subst hut; rw [Function.update_self]; exact ht hu
    · rw [hph u hut]; exact h.queued.2 u (hold u hu hut)

/-- The rule for a step that moves on a task which no party has. -/
theorem Inv.freeMove (h : Inv s ph)
    (hfree : (ph t).reg = none ∧ (ph t).worker = none ∧ ∀ i, ph t ≠ .waking i)
    (hs' : s'.signaler = s.signaler ∧ s'.waiters = s.waiters ∧ s'.waiter = s.waiter ∧
      s'.log = s.log)
    (hfiber : ∀ u, u ≠ t → s'.fiber u = s.fiber u)
    (hwaits : (s'.fiber t).waits = (s.fiber t).waits)
    (htask : TaskOk s.log t (s'.fiber t) p) (hfresh : (s'.fiber t).pc ≠ .fresh)
    (hworker : ∀ w, s'.worker w = s.worker w ∨
      WorkerOk s.log s'.fiber (Function.update ph t p) w (s'.worker w))
    (hqueued : s'.queued.Nodup ∧ (∀ u ∈ s'.queued, u ≠ t → u ∈ s.queued) ∧
      (t ∈ s'.queued → p = .queued)) :
    Inv s' (Function.update ph t p) := by
  obtain ⟨hreg, hnw, hwaking⟩ := hfree
  obtain ⟨hsg, hws, hwd, hl⟩ := hs'
  refine h.move hfiber (fun o ho => hl ▸ ho) (fun o ho _ => hl ▸ ho) (by rwa [hl]) hfresh
    (fun w => ?_) (fun i => .inl ⟨by rw [hsg], fun hi => ?_⟩) (fun e => ?_) (fun d u hd => ?_)
    hqueued ?_
  · rcases hworker w with heq | hw
    · refine .inl ⟨heq, fun ht => ?_⟩
      have := (h.worker w).phase_worker ht
      rw [hnw] at this
      cases this
    · exact .inr (by rwa [hl])
  · rcases (h.signaler i).phase hi with hi | hi
    · rw [hreg] at hi; cases hi
    · exact hwaking i hi
  · have := h.waiters e
    grind
  · have := h.waiter d u
    grind
  · rw [hl]
    refine h.log.mono fun u => Nat.le_of_eq ?_
    by_cases hu : u = t
    · subst hu; rw [hwaits]
    · rw [hfiber u hu]

/-- The rule for a step of worker `w`, or of the fiber on it, that moves its task on: no other
worker has the task, and a signaler can have it only while its waiter stays with that signaler. -/
theorem Inv.workerMove [DecidableEq ω] (h : Inv s ph) {w : ω} (hw : (ph t).worker = some w)
    (hreg : (ph t).reg = none ∨
      p.reg = (ph t).reg ∧ (s'.fiber t).waits = (s.fiber t).waits)
    (hfiber : ∀ u, u ≠ t → s'.fiber u = s.fiber u)
    (hlog : ∀ o ∈ s.log, o ∈ s'.log)
    (hnew : ∀ o ∈ s'.log, o.task ≠ t → o ∈ s.log)
    (htask : TaskOk s'.log t (s'.fiber t) p)
    (hfresh : (s'.fiber t).pc ≠ .fresh)
    (hothers : ∀ w', w' ≠ w → s'.worker w' = s.worker w')
    (hworker : WorkerOk s'.log s'.fiber (Function.update ph t p) w (s'.worker w))
    (hsignaler : s'.signaler = s.signaler)
    (hwaiters : ∀ e, s'.waiters e = s.waiters e ∨
      s'.waiters e = (s.waiters e).insert t ∧ p.reg = some (.event e))
    (hwaiter : ∀ d u, s'.waiter d = some u → s.waiter d = some u ∨
      u = t ∧ p.reg = some (.direct d))
    (hqueued : s'.queued = s.queued ∨ s'.queued = t :: s.queued ∧ p = .queued)
    (hlogOk : LogOk s'.log fun u => (s'.fiber u).waits) :
    Inv s' (Function.update ph t p) := by
  have hnq : t ∉ s.queued := fun hq => by
    rw [h.queued.2 t hq] at hw
    cases hw
  refine h.move hfiber hlog hnew htask hfresh (fun w' => ?_) (fun i => ?_) (fun e => ?_)
    (fun d u hd => ?_) ?_ hlogOk
  · by_cases hw' : w' = w
    · subst hw'; exact .inr hworker
    · refine .inl ⟨hothers w' hw', fun ht => hw' ?_⟩
      have := (h.worker w').phase_worker ht
      rw [hw] at this
      exact (Option.some.inj this).symm
  · rw [hsignaler]
    by_cases ht : t ∈ (s.signaler i).toWake.map Prod.fst
    · -- the worker's task can be with a signaler only as a waiter not woken yet
      have hphase := (h.signaler i).phase ht
      refine .inr ((h.signaler i).congr fun u _ => ?_)
      by_cases hu : u = t
      · subst hu
        rw [Function.update_self]
        grind [Phase.worker]
      · rw [Function.update_of_ne hu, hfiber u hu]
        exact ⟨rfl, .inl rfl⟩
    · exact .inl ⟨rfl, ht⟩
  · have := h.waiters e
    grind
  · have := h.waiter d u
    grind
  · have := h.queued
    grind

end

end Fiber

end JLibScheduler
