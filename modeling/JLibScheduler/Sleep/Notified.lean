import JLibScheduler.Sleep.Control

/-!
# No wake-up of a worker is lost

A worker that waits has read every flag of its predicate under its mutex. A flag that is set after
it was read is set by a call that has still to take the mutex, and so comes to `notify_one` when the
worker is blocked. This is the invariant `Worker.Ok`; from it, a worker is blocked on a true
predicate, or on an immediate task, only while some call is still to notify it (`wait_notified`).
-/

namespace JLibScheduler.Sleep.Control

/-! ## What a worker has read -/

/-- The worker has its mutex. -/
def Pc.holds : Pc → Bool
  | .loadRunning | .loadImmediate | .loadPaused | .loadQueued | .blocking | .leave => true
  | _ => false

/-- The worker has read `running` in the predicate. -/
def Pc.pastRunning : Pc → Bool
  | .loadImmediate | .loadPaused | .loadQueued | .blocking => true
  | _ => false

/-- The worker has read `immediate` in the predicate. -/
def Pc.pastImmediate : Pc → Bool
  | .loadPaused | .loadQueued | .blocking => true
  | _ => false

/-- The worker has found no immediate task, and has not started its loop again. -/
def Pc.pastTask : Pc → Bool
  | .search | .lock | .loadRunning | .loadImmediate | .loadPaused | .loadQueued | .blocking
  | .blocked => true
  | _ => false

section
variable {n : ℕ} {ι τ : Type} {wk wk' : Worker ι τ} {paused : Bool} {L N S L' N' S' : Prop}

/-- The invariant of a worker: `L` and `N` say that some call has still to take its mutex, or to
notify it, and `S` that some call is about to set `immediate`. -/
structure Worker.Ok (wk : Worker ι τ) (paused : Bool) (L N S : Prop) : Prop where
  mutex : wk.pc.holds = true ↔ wk.workerMutex = some .worker
  running : wk.pc.pastRunning = true → wk.running = false → L
  immediate : wk.pc.pastImmediate = true → wk.immediate = true → L
  queued : wk.pc = .blocking → paused = false → wk.hasQueuedWork = true → L
  blocked : wk.pc = .blocked → wk.predicate paused = true → N
  task : wk.pc.pastTask = true → wk.immediateTask.isSome = true → wk.immediate = true ∨ S

theorem Pc.holds_of_pastRunning {pc : Pc} (h : pc.pastRunning = true) : pc.holds = true := by
  cases pc <;> first | rfl | cases h

theorem Pc.holds_of_pastImmediate {pc : Pc} (h : pc.pastImmediate = true) : pc.holds = true := by
  cases pc <;> first | rfl | cases h

/-- More calls that are still to come. -/
theorem Worker.Ok.mono (h : wk.Ok paused L N S) (hL : L → L') (hN : N → N') (hS : S → S') :
    wk.Ok paused L' N' S' :=
  ⟨h.mutex, fun hpc hf => hL (h.running hpc hf), fun hpc hf => hL (h.immediate hpc hf),
    fun hpc hp hf => hL (h.queued hpc hp hf), fun hpc hp => hN (h.blocked hpc hp),
    fun hpc ht => (h.task hpc ht).imp_right hS⟩

/-- A worker that some call is still to come to may have any flags. -/
theorem Worker.Ok.of_locks (hmutex : wk.pc.holds = true ↔ wk.workerMutex = some .worker) (hL : L)
    (hN : N) (htask : wk.pc.pastTask = true → wk.immediateTask.isSome = true →
      wk.immediate = true ∨ S) : wk.Ok paused L N S :=
  ⟨hmutex, fun _ _ => hL, fun _ _ => hL, fun _ _ _ => hL, fun _ _ => hN, htask⟩

/-- A worker that does not have its mutex has read no flag. -/
theorem Worker.Ok.of_not_holds (hpc : wk.pc.holds = false) (hmutex : wk.workerMutex ≠ some .worker)
    (hblocked : wk.pc = .blocked → wk.predicate paused = true → N)
    (htask : wk.pc.pastTask = true → wk.immediateTask.isSome = true → wk.immediate = true ∨ S) :
    wk.Ok paused L N S := by
  refine ⟨?_, fun h _ => ?_, fun h _ => ?_, fun h _ _ => ?_, hblocked, htask⟩
  · exact iff_of_false (fun h => by rw [hpc] at h; cases h) hmutex
  · rw [Pc.holds_of_pastRunning h] at hpc
    cases hpc
  · rw [Pc.holds_of_pastImmediate h] at hpc
    cases hpc
  · rw [h] at hpc
    cases hpc

theorem Worker.holds_notified : wk.notified.pc.holds = wk.pc.holds := by
  unfold Worker.notified
  split
  next h => rw [h]; rfl
  next => rfl

theorem Worker.pastTask_notified : wk.notified.pc.pastTask = wk.pc.pastTask := by
  unfold Worker.notified
  split
  next h => rw [h]; rfl
  next => rfl

/-- A worker that is notified no longer needs it. -/
theorem Worker.Ok.notified (h : wk.Ok paused L N S) (hS : S → S') :
    wk.notified.Ok paused L N' S' := by
  by_cases hpc : wk.pc = .blocked
  · have heq : wk.notified = { wk with pc := .lock } := by
      unfold Worker.notified
      rw [if_pos hpc]
    have hmutex : wk.workerMutex ≠ some .worker := fun hm => by
      have hholds := h.mutex.2 hm
      rw [hpc] at hholds
      cases hholds
    have htask := h.task (by rw [hpc]; rfl)
    rw [heq]
    exact .of_not_holds rfl hmutex (fun heq => by cases heq) fun _ ht => (htask ht).imp_right hS
  · have heq : wk.notified = wk := by
      unfold Worker.notified
      rw [if_neg hpc]
    rw [heq]
    exact ⟨h.mutex, h.running, h.immediate, h.queued, fun hb => absurd hb hpc,
      fun hp ht => (h.task hp ht).imp_right hS⟩

/-- A worker outside of the last section of its loop. -/
theorem Worker.Ok.outside (hpc : wk.pc.holds = false ∧ wk.pc ≠ .blocked ∧ wk.pc.pastTask = false)
    (hmutex : wk.workerMutex ≠ some .worker) : wk.Ok paused L N S :=
  .of_not_holds hpc.1 hmutex (fun hb => absurd hb hpc.2.1) fun ht => by
    rw [hpc.2.2] at ht
    cases ht

theorem Worker.Ok.mutex_ne (h : wk.Ok paused L N S) (hpc : wk.pc.holds = false) :
    wk.workerMutex ≠ some .worker := fun hm => by
  rw [h.mutex.2 hm] at hpc
  cases hpc

/-- The predicate when its flags have been read. -/
theorem Worker.predicate_eq_true : wk.predicate paused = true ↔
    wk.running = false ∨ wk.immediate = true ∨ paused = false ∧ wk.hasQueuedWork = true := by
  unfold Worker.predicate
  cases wk.running <;> cases wk.immediate <;> cases paused <;> cases wk.hasQueuedWork <;> simp

/-- A step of the worker's loop: a flag that it goes on from was not set when it was read. -/
theorem Worker.Ok.step {c : Choice τ} (h : wk.Ok paused L N S) (hLN : L → N)
    (hs : wk.step paused c = some wk') : wk'.Ok paused L N S := by
  have hfree := h.mutex_ne
  have hheld := h.mutex
  have htask := h.task
  have hrunning := h.running
  have himmediate := h.immediate
  cases Worker.steps_of_step hs with
  | head hpc =>
    rw [hpc] at hfree
    refine .outside ?_ (hfree rfl)
    split <;> exact ⟨rfl, fun heq => (by cases heq), rfl⟩
  | clear hpc | run hpc | runAgain hpc | noFiber t hpc | handBack hpc | take hpc | drop hpc
  | found hpc | exit hpc =>
    rw [hpc] at hfree
    exact .outside ⟨rfl, fun heq => (by cases heq), rfl⟩ (hfree rfl)
  | check hpc =>
    rw [hpc] at hfree
    cases ht : wk.immediateTask with
    | none =>
      exact .of_not_holds rfl (hfree rfl) (fun heq => (by cases heq)) fun _ hsome => by cases hsome
    | some t => exact .outside ⟨rfl, fun heq => (by cases heq), rfl⟩ (hfree rfl)
  | search hpc | wake hpc =>
    rw [hpc] at hfree htask
    exact .of_not_holds rfl (hfree rfl) (fun heq => by cases heq) htask
  | lock hpc _ =>
    rw [hpc] at htask
    exact ⟨iff_of_true rfl rfl, fun h => (by cases h), fun h => (by cases h),
      fun h => (by cases h), fun h => (by cases h), htask⟩
  | loadRunning hpc =>
    rw [hpc] at hheld htask
    have hm := hheld.1 rfl
    cases hr : wk.running with
    | true =>
      exact ⟨iff_of_true rfl hm, fun _ hf => (by cases hf), fun h => (by cases h),
        fun h => (by cases h), fun h => (by cases h), htask⟩
    | false =>
      exact ⟨iff_of_true rfl hm, fun h => (by cases h), fun h => (by cases h),
        fun h => (by cases h), fun h => (by cases h), fun h => (by cases h)⟩
  | loadImmediate hpc =>
    rw [hpc] at hheld htask hrunning
    have hm := hheld.1 rfl
    cases hi : wk.immediate with
    | true =>
      exact ⟨iff_of_true rfl hm, fun h => (by cases h), fun h => (by cases h),
        fun h => (by cases h), fun h => (by cases h), fun h => (by cases h)⟩
    | false =>
      rw [hi] at htask
      exact ⟨iff_of_true rfl hm, hrunning, fun _ hf => (by cases hf),
        fun h => (by cases h), fun h => (by cases h), htask⟩
  | loadPaused hpc =>
    rw [hpc] at hheld htask hrunning himmediate
    have hm := hheld.1 rfl
    cases hp : paused with
    | true =>
      exact ⟨iff_of_true rfl hm, hrunning, himmediate, fun _ hf => (by cases hf),
        fun h => (by cases h), htask⟩
    | false =>
      exact ⟨iff_of_true rfl hm, hrunning, himmediate, fun h => (by cases h),
        fun h => (by cases h), htask⟩
  | loadQueued hpc =>
    rw [hpc] at hheld htask hrunning himmediate
    have hm := hheld.1 rfl
    cases hq : wk.hasQueuedWork with
    | true =>
      exact ⟨iff_of_true rfl hm, fun h => (by cases h), fun h => (by cases h),
        fun h => (by cases h), fun h => (by cases h), fun h => (by cases h)⟩
    | false =>
      exact ⟨iff_of_true rfl hm, hrunning, himmediate, fun _ _ hf => (by cases hf),
        fun h => (by cases h), htask⟩
  | blocking hpc =>
    have hqueued := h.queued hpc
    rw [hpc] at htask hrunning himmediate
    refine .of_not_holds rfl (fun heq => (by cases heq)) (fun _ hp => hLN ?_) htask
    rcases Worker.predicate_eq_true.1 hp with hf | hf | ⟨hp, hf⟩
    · exact hrunning rfl hf
    · exact himmediate rfl hf
    · exact hqueued hp hf
  | leave hpc =>
    refine .outside ?_ (fun heq => by cases heq)
    split <;> exact ⟨rfl, fun heq => (by cases heq), rfl⟩

/-- A worker does not take the mutex from a call. -/
theorem Worker.Ok.step_mutex {c : Choice τ} {i : ι} (h : wk.Ok paused L N S)
    (hs : wk.step paused c = some wk') (hm : wk.workerMutex = some (.call i)) :
    wk'.workerMutex = some (.call i) := by
  have hholds : wk.pc.holds ≠ true := fun hh => by
    rw [h.mutex.1 hh] at hm
    cases hm
  cases Worker.steps_of_step hs with
  | lock _ hfree =>
    rw [hfree] at hm
    cases hm
  | blocking hpc | leave hpc => exact absurd (by rw [hpc]; rfl) hholds
  | _ => exact hm

end

/-! ## The pool -/

section
variable {n : ℕ} {ι τ : Type} {s s' : State n ι τ}

/-- Some call is about to set `immediate` of the worker. -/
def State.Sets (s : State n ι τ) (w : Fin n) : Prop := ∃ i, s.call i = .setImmediate w

theorem State.Locks.notifies {w : Fin n} (h : s.Locks w) : s.Notifies w :=
  h.imp fun _ => CallPc.mem_notifies_of_mem_locks

/-- The invariant of a worker in the pool. -/
def State.Ok (s : State n ι τ) (w : Fin n) : Prop :=
  (s.worker w).Ok s.paused (s.Locks w) (s.Notifies w) (s.Sets w)

/-- The invariant: that of every worker, and a call that is about to give a mutex back has it. -/
structure Inv (s : State n ι τ) : Prop where
  worker : ∀ w, s.Ok w
  owner : ∀ i w rest join, s.call i = .notify .unlock (w :: rest) join →
    (s.worker w).workerMutex = some (.call i)

theorem Inv.init : Inv (State.init : State n ι τ) where
  worker _ := .outside ⟨rfl, fun heq => (by cases heq), rfl⟩ fun heq => by cases heq
  owner _ _ _ _ h := by cases h

end

section
variable {n : ℕ} {ι τ : Type} [DecidableEq ι] {s s' : State n ι τ} {i : ι} {pc : CallPc n}

/-- What is so of some call stays so when a call goes on. -/
theorem State.exists_setCall {P : CallPc n → Prop} (hP : P (s.call i) → P pc) :
    (∃ j, P (s.call j)) → ∃ j, P ((s.setCall i pc).call j) := by
  rintro ⟨j, hj⟩
  refine ⟨j, ?_⟩
  change P (Function.update s.call i pc j)
  rw [Function.update_apply]
  split
  next heq => exact hP (heq ▸ hj)
  next => exact hj

theorem State.call_setCall (s : State n ι τ) (i : ι) (pc : CallPc n) :
    (s.setCall i pc).call i = pc := Function.update_self _ _ _

theorem State.locks_setCall {w : Fin n} (h : w ∈ pc.locks) : (s.setCall i pc).Locks w :=
  ⟨i, (s.call_setCall i pc).symm ▸ h⟩

theorem State.notifies_setCall {w : Fin n} (h : w ∈ pc.notifies) : (s.setCall i pc).Notifies w :=
  ⟨i, (s.call_setCall i pc).symm ▸ h⟩

/-- A call goes on, and is still to come to the workers that it was to come to. -/
theorem State.Ok.setCall {w : Fin n} (h : s.Ok w)
    (hlocks : w ∈ (s.call i).locks → w ∈ pc.locks)
    (hnotifies : w ∈ (s.call i).notifies → w ∈ pc.notifies)
    (hsets : s.call i = .setImmediate w → pc = .setImmediate w) : (s.setCall i pc).Ok w :=
  Worker.Ok.mono h (State.exists_setCall (P := (w ∈ ·.locks)) hlocks)
    (State.exists_setCall (P := (w ∈ ·.notifies)) hnotifies)
    (State.exists_setCall (P := (· = .setImmediate w)) hsets)

/-- The rule for a step of a call at worker `w`, which becomes `wk`. -/
theorem Inv.call {w : Fin n} {wk : Worker ι τ} (h : Inv s)
    (hwk : ((s.setWorker w wk).setCall i pc).Ok w)
    (hlocks : ∀ v, v ≠ w → v ∈ (s.call i).locks → v ∈ pc.locks)
    (hnotifies : ∀ v, v ≠ w → v ∈ (s.call i).notifies → v ∈ pc.notifies)
    (hsets : ∀ v, v ≠ w → s.call i = .setImmediate v → pc = .setImmediate v)
    (howner : ∀ v rest join, pc = .notify .unlock (v :: rest) join →
      v = w ∧ wk.workerMutex = some (.call i))
    (hmutex : ∀ j, j ≠ i → (s.worker w).workerMutex = some (.call j) →
      wk.workerMutex = some (.call j)) :
    Inv ((s.setWorker w wk).setCall i pc) := by
  refine ⟨fun v => ?_, fun j v rest join hj => ?_⟩
  · by_cases hv : v = w
    · exact hv ▸ hwk
    · refine State.Ok.setCall ?_ (hlocks v hv) (hnotifies v hv) (hsets v hv)
      have hworker : (s.setWorker w wk).worker v = s.worker v := Function.update_of_ne hv _ _
      unfold State.Ok
      rw [hworker]
      exact h.worker v
  · change (Function.update s.worker w wk v).workerMutex = _
    rcases Update.eq_cases hj with ⟨rfl, heq⟩ | ⟨hne, heq⟩
    · obtain ⟨rfl, hm⟩ := howner v rest join heq
      rw [Function.update_self]
      exact hm
    · have hm := h.owner j v rest join heq
      by_cases hv : v = w
      · subst hv
        rw [Function.update_self]
        exact hmutex j hne hm
      · rw [Function.update_of_ne hv]
        exact hm

/-- The worker that a step of a call changes, in the new state. -/
theorem State.ok_setWorker {w : Fin n} {wk : Worker ι τ}
    (h : wk.Ok s.paused ((s.setCall i pc).Locks w) ((s.setCall i pc).Notifies w)
      ((s.setCall i pc).Sets w)) : ((s.setWorker w wk).setCall i pc).Ok w := by
  unfold State.Ok
  have hworker : ((s.setWorker w wk).setCall i pc).worker w = wk := Function.update_self _ _ _
  rw [hworker]
  exact h

/-- The rule for the steps of a call that is still to take the mutex of the worker that it changes,
and leaves the mutex alone. -/
theorem Inv.store {w : Fin n} {wk : Worker ι τ} (h : Inv s) (hmem : w ∈ pc.locks)
    (hpc : wk.pc.holds = (s.worker w).pc.holds)
    (hm : wk.workerMutex = (s.worker w).workerMutex)
    (htask : wk.pc.pastTask = true → wk.immediateTask.isSome = true →
      wk.immediate = true ∨ (s.setCall i pc).Sets w)
    (hother : ∀ v, v ≠ w → v ∉ (s.call i).notifies ∧ s.call i ≠ .setImmediate v)
    (howner : ∀ todo join, pc ≠ .notify .unlock todo join) :
    Inv ((s.setWorker w wk).setCall i pc) := by
  refine h.call (State.ok_setWorker ?_) (fun v hv hl => ?_) (fun v hv hn => ?_) (fun v hv hs => ?_)
    (fun v rest join heq => absurd heq (howner _ _)) fun j _ hj => hm.trans hj
  · have hlocks : (s.setCall i pc).Locks w := State.locks_setCall hmem
    refine .of_locks ?_ hlocks hlocks.notifies htask
    rw [hpc, hm]
    exact (h.worker w).mutex
  · exact absurd (CallPc.mem_notifies_of_mem_locks hl) (hother v hv).1
  · exact absurd hn (hother v hv).1
  · exact absurd hs (hother v hv).2

/-- A task that a worker is known to have is one that it had before. -/
theorem Inv.task {w : Fin n} (h : Inv s) (hidle : ∀ v, s.call i ≠ .setImmediate v)
    (hpc : (s.worker w).pc.pastTask = true) (ht : (s.worker w).immediateTask.isSome = true) :
    (s.worker w).immediate = true ∨ (s.setCall i pc).Sets w := by
  refine ((h.worker w).task hpc ht).imp_right fun ⟨j, hj⟩ => ⟨j, ?_⟩
  have hne : j ≠ i := fun heq => hidle w (heq ▸ hj)
  exact (Function.update_of_ne hne _ _).trans hj

/-- A call begins, or ends, without a change of a worker. -/
theorem Inv.enter (h : Inv s) (hlocks : ∀ v, v ∈ (s.call i).locks → v ∈ pc.locks)
    (hnotifies : ∀ v, v ∈ (s.call i).notifies → v ∈ pc.notifies)
    (hsets : ∀ v, s.call i = .setImmediate v → pc = .setImmediate v)
    (howner : ∀ todo join, pc ≠ .notify .unlock todo join) : Inv (s.setCall i pc) := by
  refine ⟨fun w => (h.worker w).setCall (hlocks w) (hnotifies w) (hsets w),
    fun j v rest join hj => ?_⟩
  rcases Update.eq_cases hj with ⟨-, heq⟩ | ⟨-, heq⟩
  · exact absurd heq (howner _ _)
  · exact h.owner j v rest join heq

theorem CallPc.notifyAll_ne (todo todo' : List (Fin n)) (join join' : Option (Fin n)) :
    CallPc.notifyAll todo join ≠ .notify .unlock todo' join' := by
  cases todo with
  | nil => cases join <;> exact fun heq => by cases heq
  | cons => exact fun heq => by cases heq

/-- A call that is to come to no worker sets `joining` of a worker. -/
theorem Inv.joining {w : Fin n} {joining : Bool} (h : Inv s)
    (hcall : ∀ v, (s.call i).notifies = [] ∧ s.call i ≠ .setImmediate v)
    (howner : ∀ todo join, pc ≠ .notify .unlock todo join) :
    Inv ((s.setWorker w { s.worker w with joining := joining }).setCall i pc) := by
  have hnotifies : ∀ v, v ∉ (s.call i).notifies := fun v hv => by
    rw [(hcall v).1] at hv
    cases hv
  have hlocks : ∀ v, v ∉ (s.call i).locks := fun v hv =>
    hnotifies v (CallPc.mem_notifies_of_mem_locks hv)
  refine h.call (State.ok_setWorker ?_) (fun v _ hv => absurd hv (hlocks v))
    (fun v _ hv => absurd hv (hnotifies v)) (fun v _ hv => absurd hv (hcall v).2)
    (fun _ _ _ heq => absurd heq (howner _ _)) fun _ _ hj => hj
  have hold : (s.setCall i pc).Ok w := (h.worker w).setCall (fun hv => absurd hv (hlocks w))
    (fun hv => absurd hv (hnotifies w)) fun hv => absurd hv (hcall w).2
  exact ⟨hold.mutex, hold.running, hold.immediate, hold.queued, hold.blocked, hold.task⟩

/-- The next step of a call keeps the invariant. -/
theorem Inv.callStep (h : Inv s) (hs : Control.callStep s i = some s') : Inv s' := by
  unfold Control.callStep at hs
  cases hpc : s.call i with
  | idle =>
    rw [hpc] at hs
    cases hs
  | setImmediate w =>
    simp only [hpc] at hs
    cases hs
    refine h.store (.head _) rfl rfl (fun _ _ => .inl rfl) (fun v hv => ?_) fun _ _ heq => by
      cases heq
    rw [hpc]
    exact ⟨fun hmem => hv (List.mem_singleton.1 hmem), fun heq => hv (by cases heq; rfl)⟩
  | notifyEarly w =>
    simp only [hpc] at hs
    cases hs
    refine h.store (.head _) Worker.holds_notified rfl (fun hp ht => ?_) (fun v hv => ?_)
      fun _ _ heq => by cases heq
    · refine h.task (fun v heq => ?_) (Worker.pastTask_notified ▸ hp) ht
      rw [hpc] at heq
      cases heq
    · rw [hpc]
      exact ⟨fun hmem => hv (List.mem_singleton.1 hmem), fun heq => by cases heq⟩
  | stop w =>
    simp only [hpc] at hs
    cases hs
    refine h.store (.head _) rfl rfl (fun hp ht => ?_) (fun v _ => ?_) fun _ _ heq => by cases heq
    · refine h.task (fun v heq => ?_) hp ht
      rw [hpc] at heq
      cases heq
    · rw [hpc]
      exact ⟨fun hmem => (by cases hmem), fun heq => by cases heq⟩
  | joined w =>
    simp only [hpc] at hs
    split_ifs at hs
    cases hs
    exact h.joining (fun _ => by rw [hpc]; exact ⟨rfl, fun heq => by cases heq⟩) fun _ _ heq => by
      cases heq
  | notify stage todo join =>
    cases todo with
    | nil =>
      simp only [hpc] at hs
      cases hs
    | cons w rest =>
      have htask : ∀ pc' : CallPc n, (s.worker w).pc.pastTask = true →
          (s.worker w).immediateTask.isSome = true →
          (s.worker w).immediate = true ∨ (s.setCall i pc').Sets w := fun pc' =>
        h.task fun v heq => by
          rw [hpc] at heq
          cases heq
      have hsets : ∀ v, s.call i ≠ .setImmediate v := fun v heq => by
        rw [hpc] at heq
        cases heq
      cases stage with
      | lock =>
        simp only [hpc] at hs
        split_ifs at hs with hfree
        cases hs
        have hholds : (s.worker w).pc.holds = false := by
          by_contra hh
          rw [(h.worker w).mutex.1 (Bool.not_eq_false _ ▸ hh)] at hfree
          cases hfree
        refine h.call (State.ok_setWorker (.of_not_holds hholds (fun heq => by cases heq)
          (fun _ _ => State.notifies_setCall (.head _)) (htask _))) (fun v hv hmem => ?_)
          (fun v _ hmem => ?_) (fun v _ heq => absurd heq (hsets v)) (fun v rest' join' heq => ?_)
          fun j _ hj => ?_
        · rw [hpc] at hmem
          exact (List.mem_cons.1 hmem).resolve_left hv
        · rw [hpc] at hmem
          exact hmem
        · cases heq
          exact ⟨rfl, rfl⟩
        · rw [hfree] at hj
          cases hj
      | unlock =>
        simp only [hpc] at hs
        cases hs
        have howner := h.owner i w rest join hpc
        have hholds : (s.worker w).pc.holds = false := by
          by_contra hh
          rw [(h.worker w).mutex.1 (Bool.not_eq_false _ ▸ hh)] at howner
          cases howner
        refine h.call (State.ok_setWorker (.of_not_holds hholds (fun heq => by cases heq)
          (fun _ _ => State.notifies_setCall (.head _)) (htask _))) (fun v _ hmem => ?_)
          (fun v _ hmem => ?_) (fun v _ heq => absurd heq (hsets v)) (fun _ _ _ heq => by cases heq)
          fun j hne hj => ?_
        · rw [hpc] at hmem
          exact hmem
        · rw [hpc] at hmem
          exact hmem
        · rw [howner] at hj
          cases hj
          exact absurd rfl hne
      | notify =>
        simp only [hpc] at hs
        cases hs
        have hlocks : ∀ v, v ∈ (s.call i).locks → v ∈ (CallPc.notifyAll rest join).locks := by
          intro v hv
          rw [hpc] at hv
          rw [CallPc.locks_notifyAll]
          exact hv
        refine h.call (State.ok_setWorker ?_) (fun v _ => hlocks v) (fun v hv hmem => ?_)
          (fun v _ heq => absurd heq (hsets v))
          (fun v rest' join' heq => absurd heq (CallPc.notifyAll_ne _ _ _ _)) fun _ _ hj => hj
        · refine Worker.Ok.notified (N := True) ?_ id
          exact (h.worker w).mono (State.exists_setCall (P := (w ∈ ·.locks)) (hlocks w))
            (fun _ => trivial)
            (State.exists_setCall (P := (· = .setImmediate w)) fun heq => absurd heq (hsets w))
        · rw [hpc] at hmem
          rw [CallPc.notifies_notifyAll]
          exact (List.mem_cons.1 hmem).resolve_left hv

omit [DecidableEq ι] in
/-- A step of a worker's loop keeps the invariant. -/
theorem Inv.workerStep {w : Fin n} {wk : Worker ι τ} {c : Choice τ} (h : Inv s)
    (hs : (s.worker w).step s.paused c = some wk) : Inv (s.setWorker w wk) := by
  refine ⟨Update.forall_of (P := fun v (wk : Worker ι τ) =>
      wk.Ok s.paused (s.Locks v) (s.Notifies v) (s.Sets v))
    ((h.worker w).step State.Locks.notifies hs) fun v _ => h.worker v,
    fun i v rest join hcall => ?_⟩
  have hm := h.owner i v rest join hcall
  exact Update.forall_of (P := fun v (wk : Worker ι τ) =>
    (s.worker v).workerMutex = some (.call i) → wk.workerMutex = some (.call i))
    ((h.worker w).step_mutex hs) (fun _ _ hm => hm) v hm

omit [DecidableEq ι] in
/-- While the scheduler is paused, fewer predicates are true. -/
theorem Inv.pause (h : Inv s) : Inv { s with paused := true } := by
  refine ⟨fun w => ?_, h.owner⟩
  have hw := h.worker w
  refine ⟨hw.mutex, hw.running, hw.immediate, fun _ hp => (by cases hp), fun hpc hp => ?_, hw.task⟩
  refine hw.blocked hpc (Worker.predicate_eq_true.2 ?_)
  rcases Worker.predicate_eq_true.1 hp with hf | hf | ⟨hf, -⟩
  · exact .inl hf
  · exact .inr (.inl hf)
  · cases hf

/-- `Resume` comes to every worker. -/
theorem Inv.resume (h : Inv s) (hpc : s.call i = .idle) :
    Inv ({ s with paused := false }.setCall i (.notifyAll (List.finRange n) none)) := by
  refine ⟨fun w => ?_, fun j w rest join hj => ?_⟩
  · have hlocks : ({ s with paused := false }.setCall i
        (.notifyAll (List.finRange n) none)).Locks w :=
      State.locks_setCall (by rw [CallPc.locks_notifyAll]; exact List.mem_finRange w)
    refine .of_locks (h.worker w).mutex hlocks hlocks.notifies (h.task fun v heq => ?_)
    rw [hpc] at heq
    cases heq
  · rcases Update.eq_cases hj with ⟨-, heq⟩ | ⟨-, heq⟩
    · exact absurd heq (CallPc.notifyAll_ne _ _ _ _)
    · exact h.owner j w rest join heq

/-- Every step keeps the invariant. -/
theorem Inv.step {a : Act n ι τ} (h : Inv s) (hs : Control.step s a = some s') : Inv s' := by
  cases a with
  | worker w c =>
    obtain ⟨wk, hwk, rfl⟩ := Option.map_eq_some_iff.1 hs
    exact h.workerStep hwk
  | pause =>
    cases hs
    exact h.pause
  | resume i =>
    simp only [Control.step, Option.ite_none_right_eq_some, Option.some.injEq] at hs
    obtain ⟨hpc, rfl⟩ := hs
    exact h.resume hpc
  | notifyAll i =>
    simp only [Control.step, Option.ite_none_right_eq_some, Option.some.injEq] at hs
    obtain ⟨hpc, rfl⟩ := hs
    refine h.enter (fun v hv => ?_) (fun v hv => ?_) (fun v hv => ?_) fun _ _ =>
      CallPc.notifyAll_ne _ _ _ _
    all_goals
      rw [hpc] at hv
      cases hv
  | markQueuedWork i w =>
    simp only [Control.step, Option.ite_none_right_eq_some, Option.some.injEq] at hs
    obtain ⟨hpc, rfl⟩ := hs
    have hidle : ∀ v, s.call i ≠ .setImmediate v := fun v heq => by
      rw [hpc] at heq
      cases heq
    refine h.store (.head _) rfl rfl (h.task hidle) (fun v _ => ⟨?_, hidle v⟩) fun _ _ heq => by
      cases heq
    rw [hpc]
    exact fun hmem => by cases hmem
  | setImmediateTask i w t =>
    simp only [Control.step, Option.ite_none_right_eq_some, Option.some.injEq] at hs
    obtain ⟨hpc, rfl⟩ := hs
    refine h.store (.head _) rfl rfl (fun _ _ => .inr ⟨i, s.call_setCall i _⟩) (fun v _ => ?_)
      fun _ _ heq => by cases heq
    rw [hpc]
    exact ⟨fun hmem => (by cases hmem), fun heq => by cases heq⟩
  | join i w =>
    simp only [Control.step, Option.ite_none_right_eq_some] at hs
    obtain ⟨hpc, hs⟩ := hs
    split at hs
    · cases hs
      exact h
    · cases hs
      exact h.joining (fun _ => by rw [hpc]; exact ⟨rfl, fun heq => by cases heq⟩)
        fun _ _ heq => by cases heq
  | call i => exact h.callStep hs

/-- A worker is blocked in its wait, while its predicate is true or it has an immediate task, only
as long as some call is still to notify it. -/
theorem wait_notified {w : Fin n} (h : Lts.Reachable (Control.step (τ := τ)) State.init s)
    (hblocked : (s.worker w).pc = .blocked)
    (hwork : (s.worker w).predicate s.paused = true ∨ (s.worker w).immediateTask.isSome = true) :
    ∃ i, w ∈ (s.call i).notifies := by
  have hinv := Lts.Reachable.inv (I := Inv) Inv.step Inv.init h
  have hw := hinv.worker w
  rcases hwork with hp | ht
  · exact hw.blocked hblocked hp
  · rcases hw.task (by rw [hblocked]; rfl) ht with hf | ⟨i, hi⟩
    · exact hw.blocked hblocked (Worker.predicate_eq_true.2 (.inr (.inl hf)))
    · exact ⟨i, by rw [hi]; exact .head _⟩

end

/-- `SetImmediateTask` comes after the worker has read `immediate`, and its own notification is
lost. -/
def lateRun (w : Fin 1) : List (Act 1 Unit ℕ) :=
  List.replicate 8 (.worker w .go) ++ [.setImmediateTask () w 7, .call (), .call ()] ++
    List.replicate 3 (.worker w .go)

theorem wait_notified_lateRun : ∃ s : State 1 Unit ℕ,
    Lts.run Control.step State.init (lateRun 0) = some s ∧ (s.worker 0).pc = .blocked ∧
      ∃ i, (0 : Fin 1) ∈ (s.call i).notifies :=
  ⟨_, (Option.some_get (x := Lts.run _ _ _) (by decide)).symm, rfl,
    wait_notified ⟨lateRun 0, (Option.some_get (x := Lts.run _ _ _) (by decide)).symm⟩ rfl
      (.inl rfl)⟩

end JLibScheduler.Sleep.Control
