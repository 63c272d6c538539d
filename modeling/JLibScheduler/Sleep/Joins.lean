import JLibScheduler.Sleep.Notified

/-!
# `Join` ends

`Thread::Join` clears `running`, notifies the worker, and waits for its end. From the moment that
`running` is clear, each step of the worker takes it nearer to the end of its loop (`Pc.toExit`),
whatever the other threads do. It stops on the way only in its wait, where a call is still to notify
it, or at its mutex, while a call has it. So the worker makes a bounded number of steps, and is
through its loop or can go on when no call is still to come to it (`join_exits`).
-/

namespace JLibScheduler.Sleep.Control

/-- The steps to the end of the loop when `running` is clear. -/
def Pc.toExit : Pc → ℕ
  | .done => 0
  | .exit => 1
  | .head | .leave => 2
  | .loadRunning | .drop | .handBack => 3
  | .lock | .take => 4
  | .search | .blocked => 5
  | .check | .blocking => 6
  | .run | .loadQueued => 7
  | .clear | .loadPaused => 8
  | .loadImmediate => 9

/-- A step of the worker `w`. -/
def Act.isWorker {n : ℕ} {ι τ : Type} (w : Fin n) : Act n ι τ → Bool
  | .worker v _ => v = w
  | _ => false

section
variable {n : ℕ} {ι τ : Type} {wk wk' : Worker ι τ} {paused : Bool}

theorem Pc.toExit_le (pc : Pc) : pc.toExit ≤ 9 := by
  cases pc <;> decide

/-- A step of a worker whose `running` is clear. -/
theorem Worker.step_toExit {c : Choice τ} (hstop : wk.running = false)
    (hs : wk.step paused c = some wk') :
    wk'.running = false ∧ wk'.pc.toExit < wk.pc.toExit := by
  cases Worker.steps_of_step hs with
  | head hpc | loadRunning hpc | leave hpc => exact ⟨hstop, by simp [hpc, hstop, Pc.toExit]⟩
  | check hpc | loadImmediate hpc | loadPaused hpc | loadQueued hpc =>
    refine ⟨hstop, ?_⟩
    simp only [hpc]
    split <;> decide
  | exit hpc => exact ⟨rfl, by simp [hpc, Pc.toExit]⟩
  | clear hpc | run hpc | runAgain hpc | noFiber t hpc | handBack hpc | take hpc | drop hpc
  | search hpc | found hpc | lock hpc _ | blocking hpc | wake hpc =>
    exact ⟨hstop, by simp [hpc, Pc.toExit]⟩

/-- A notification takes a worker out of its wait. -/
theorem Worker.toExit_notified : wk.notified.pc.toExit ≤ wk.pc.toExit := by
  unfold Worker.notified
  split
  next h => simp [h, Pc.toExit]
  next => exact le_rfl

/-- A worker that cannot go on has ended, is in its wait, or finds its mutex taken. -/
theorem Worker.isSome_step (wk : Worker ι τ) (paused : Bool) (hdone : wk.pc ≠ .done)
    (hblocked : wk.pc ≠ .blocked) (hlock : wk.pc = .lock → wk.workerMutex = none) :
    (wk.step paused .go).isSome = true := by
  cases hpc : wk.pc with
  | done => exact absurd hpc hdone
  | blocked => exact absurd hpc hblocked
  | lock => simp only [Worker.step, hpc, hlock hpc, if_true, Option.isSome_some]
  | _ => simp only [Worker.step, hpc, Option.isSome_some]

end

section
variable {n : ℕ} {ι τ : Type} [DecidableEq ι] {s s' : State n ι τ} {i : ι} {pc : CallPc n}

/-- Only a call that is about to give a mutex back has it. -/
def State.Held (s : State n ι τ) : Prop :=
  ∀ w i, (s.worker w).workerMutex = some (.call i) →
    ∃ rest join, s.call i = .notify .unlock (w :: rest) join

/-- The rule for a step of a call at worker `w`, which becomes `wk`. -/
theorem State.Held.call {w : Fin n} {wk : Worker ι τ} (h : s.Held)
    (hpc : ∀ v rest join, v ≠ w → s.call i ≠ .notify .unlock (v :: rest) join)
    (hm : ∀ j, wk.workerMutex = some (.call j) →
      (j = i ∧ ∃ rest join, pc = .notify .unlock (w :: rest) join) ∨
        (j ≠ i ∧ (s.worker w).workerMutex = some (.call j))) :
    ((s.setWorker w wk).setCall i pc).Held := by
  intro v j hj
  have key : j ≠ i → (s.worker v).workerMutex = some (.call j) →
      ∃ rest join, Function.update s.call i pc j = .notify .unlock (v :: rest) join := by
    intro hne hold
    rw [Function.update_of_ne hne]
    exact h v j hold
  by_cases hv : v = w
  · subst hv
    have hself : Function.update s.worker v wk v = wk := Function.update_self _ _ _
    have hj' : wk.workerMutex = some (.call j) := (congrArg Worker.workerMutex hself).symm.trans hj
    rcases hm j hj' with ⟨rfl, rest, join, heq⟩ | ⟨hne, hold⟩
    · exact ⟨rest, join, (Function.update_self _ _ _).trans heq⟩
    · exact key hne hold
  · have hother : Function.update s.worker w wk v = s.worker v := Function.update_of_ne hv _ _
    have hold : (s.worker v).workerMutex = some (.call j) :=
      (congrArg Worker.workerMutex hother).symm.trans hj
    refine key ?_ hold
    rintro rfl
    obtain ⟨rest, join, heq⟩ := h v j hold
    exact hpc v rest join hv heq

/-- The rule for a step of a call that has no mutex and takes none. -/
theorem State.Held.plain {w : Fin n} {wk : Worker ι τ} (h : s.Held)
    (hpc : ∀ todo join, s.call i ≠ .notify .unlock todo join)
    (hm : wk.workerMutex = (s.worker w).workerMutex) :
    ((s.setWorker w wk).setCall i pc).Held := by
  refine h.call (fun v rest join _ => hpc _ _) fun j hj => .inr ⟨?_, hm ▸ hj⟩
  rintro rfl
  obtain ⟨rest, join, heq⟩ := h w j (hm ▸ hj)
  exact hpc _ _ heq

/-- The next step of a call keeps it so. -/
theorem State.Held.callStep (h : s.Held) (hs : Control.callStep s i = some s') : s'.Held := by
  have hother : ∀ {pc : CallPc n}, s.call i = pc → (∀ todo join, pc ≠ .notify .unlock todo join) →
      ∀ todo join, s.call i ≠ .notify .unlock todo join := by
    rintro pc rfl hpc
    exact hpc
  unfold Control.callStep at hs
  cases hpc : s.call i with
  | idle =>
    rw [hpc] at hs
    cases hs
  | setImmediate w | notifyEarly w | stop w =>
    simp only [hpc] at hs
    cases hs
    exact h.plain (hother hpc fun _ _ heq => by cases heq) rfl
  | joined w =>
    simp only [hpc] at hs
    split_ifs at hs
    cases hs
    exact h.plain (hother hpc fun _ _ heq => by cases heq) rfl
  | notify stage todo join =>
    cases todo with
    | nil =>
      simp only [hpc] at hs
      cases hs
    | cons w rest =>
      cases stage with
      | notify =>
        simp only [hpc] at hs
        cases hs
        exact h.plain (hother hpc fun _ _ heq => by cases heq) rfl
      | lock =>
        simp only [hpc] at hs
        split_ifs at hs
        cases hs
        refine h.call (fun v _ _ _ => hother hpc (fun _ _ heq => by cases heq) _ _) fun j hj => ?_
        cases hj
        exact .inl ⟨rfl, rest, join, rfl⟩
      | unlock =>
        simp only [hpc] at hs
        cases hs
        refine h.call (fun v rest' join' hv heq => ?_) fun j hj => by cases hj
        rw [hpc] at heq
        cases heq
        exact hv rfl

/-- A call that begins, or stays, has no mutex. -/
theorem State.Held.enter (h : s.Held) (hpc : s.call i = .idle) : (s.setCall i pc).Held := by
  intro w j hj
  obtain ⟨rest, join, heq⟩ := h w j hj
  refine ⟨rest, join, (Function.update_of_ne ?_ _ _).trans heq⟩
  rintro rfl
  rw [hpc] at heq
  cases heq

omit [DecidableEq ι] in
/-- A worker takes its mutex from no call, and gives it to none. -/
theorem State.Held.workerStep {w : Fin n} {wk : Worker ι τ} {c : Choice τ} (h : s.Held)
    (hs : (s.worker w).step s.paused c = some wk) : (s.setWorker w wk).Held := by
  intro v j hj
  refine h v j ?_
  rcases Update.eq_cases (rfl : Function.update s.worker w wk v = _) with ⟨rfl, heq⟩ | ⟨_, heq⟩
  · replace hj : wk.workerMutex = some (.call j) := (congrArg Worker.workerMutex heq).trans hj
    cases Worker.steps_of_step hs with
    | lock | blocking | leave => cases hj
    | _ => exact hj
  · exact (congrArg Worker.workerMutex heq).trans hj

theorem State.Held.step {a : Act n ι τ} (h : s.Held) (hs : Control.step s a = some s') :
    s'.Held := by
  cases a with
  | worker w c =>
    obtain ⟨wk, hwk, rfl⟩ := Option.map_eq_some_iff.1 hs
    exact h.workerStep hwk
  | pause =>
    cases hs
    exact h
  | resume i | notifyAll i =>
    simp only [Control.step, Option.ite_none_right_eq_some, Option.some.injEq] at hs
    obtain ⟨hpc, rfl⟩ := hs
    exact State.Held.enter (s := { s with paused := _ }) h hpc
  | markQueuedWork i w | setImmediateTask i w t =>
    simp only [Control.step, Option.ite_none_right_eq_some, Option.some.injEq] at hs
    obtain ⟨hpc, rfl⟩ := hs
    refine h.plain (fun todo join heq => ?_) rfl
    rw [hpc] at heq
    cases heq
  | join i w =>
    simp only [Control.step, Option.ite_none_right_eq_some] at hs
    obtain ⟨hpc, hs⟩ := hs
    split at hs
    · cases hs
      exact h
    · cases hs
      refine h.plain (fun todo join heq => ?_) rfl
      rw [hpc] at heq
      cases heq
  | call i => exact h.callStep hs

/-! ## The steps of a worker that is to stop -/

/-- A worker whose `running` stays clear when it is, and which is no further from the end. -/
def Worker.Nearer (wk wk' : Worker ι τ) : Prop :=
  (wk.running = false → wk'.running = false) ∧ wk'.pc.toExit ≤ wk.pc.toExit

omit [DecidableEq ι] in
theorem Worker.Nearer.refl (wk : Worker ι τ) : wk.Nearer wk := ⟨id, le_rfl⟩

omit [DecidableEq ι] in
theorem Worker.Nearer.same {wk wk' : Worker ι τ} (hrunning : wk'.running = wk.running)
    (hpc : wk'.pc = wk.pc) : wk.Nearer wk' :=
  ⟨hrunning.trans, (congrArg Pc.toExit hpc).le⟩

omit [DecidableEq ι] in
theorem Worker.Nearer.notified (wk : Worker ι τ) : wk.Nearer wk.notified :=
  ⟨id, Worker.toExit_notified⟩

theorem State.nearer_setCall {v : Fin n} {wk : Worker ι τ} (h : (s.worker v).Nearer wk)
    (w : Fin n) : (s.worker w).Nearer (((s.setWorker v wk).setCall i pc).worker w) :=
  Update.forall_of (P := fun w wk => (s.worker w).Nearer wk) h (fun w _ => .refl (s.worker w)) w

/-- A step of a call takes no worker away from its end. -/
theorem callStep_nearer (hs : Control.callStep s i = some s') (w : Fin n) :
    (s.worker w).Nearer (s'.worker w) := by
  unfold Control.callStep at hs
  cases hpc : s.call i with
  | idle =>
    rw [hpc] at hs
    cases hs
  | setImmediate v =>
    simp only [hpc] at hs
    cases hs
    refine State.nearer_setCall ?_ w
    exact .same rfl rfl
  | notifyEarly v =>
    simp only [hpc] at hs
    cases hs
    refine State.nearer_setCall ?_ w
    exact .notified _
  | stop v =>
    simp only [hpc] at hs
    cases hs
    refine State.nearer_setCall ?_ w
    exact ⟨fun _ => rfl, le_rfl⟩
  | joined v =>
    simp only [hpc] at hs
    split_ifs at hs
    cases hs
    refine State.nearer_setCall ?_ w
    exact .same rfl rfl
  | notify stage todo join =>
    cases todo with
    | nil =>
      simp only [hpc] at hs
      cases hs
    | cons v rest =>
      cases stage with
      | lock =>
        simp only [hpc] at hs
        split_ifs at hs
        cases hs
        refine State.nearer_setCall ?_ w
        exact .same rfl rfl
      | unlock =>
        simp only [hpc] at hs
        cases hs
        refine State.nearer_setCall ?_ w
        exact .same rfl rfl
      | notify =>
        simp only [hpc] at hs
        cases hs
        refine State.nearer_setCall ?_ w
        exact .notified _

/-- A step of another party takes no worker away from its end, and a step of a worker that is to
stop takes it nearer. -/
theorem step_toExit {w : Fin n} {a : Act n ι τ} (hstop : (s.worker w).running = false)
    (hs : Control.step s a = some s') :
    (s'.worker w).running = false ∧
      (s'.worker w).pc.toExit + (if a.isWorker w then 1 else 0) ≤ (s.worker w).pc.toExit := by
  have key : a.isWorker w = false → (s.worker w).Nearer (s'.worker w) →
      (s'.worker w).running = false ∧
        (s'.worker w).pc.toExit + (if a.isWorker w then 1 else 0) ≤ (s.worker w).pc.toExit := by
    intro ha h
    rw [ha]
    exact ⟨h.1 hstop, h.2⟩
  cases a with
  | worker v c =>
    obtain ⟨wk, hwk, rfl⟩ := Option.map_eq_some_iff.1 hs
    by_cases hv : w = v
    · subst hv
      have hself : (s.setWorker w wk).worker w = wk := Function.update_self _ _ _
      obtain ⟨hrunning, hlt⟩ := Worker.step_toExit hstop hwk
      rw [hself]
      simp only [Act.isWorker, decide_true, if_true]
      exact ⟨hrunning, hlt⟩
    · have hother : (s.setWorker v wk).worker w = s.worker w := Function.update_of_ne hv _ _
      refine key (decide_eq_false (Ne.symm hv)) ?_
      rw [hother]
      exact .refl _
  | pause =>
    cases hs
    exact key rfl (.refl _)
  | resume i | notifyAll i =>
    simp only [Control.step, Option.ite_none_right_eq_some, Option.some.injEq] at hs
    obtain ⟨-, rfl⟩ := hs
    exact key rfl (.refl _)
  | markQueuedWork i v | setImmediateTask i v t =>
    simp only [Control.step, Option.ite_none_right_eq_some, Option.some.injEq] at hs
    obtain ⟨-, rfl⟩ := hs
    refine key rfl (State.nearer_setCall ?_ w)
    exact .same rfl rfl
  | join i v =>
    simp only [Control.step, Option.ite_none_right_eq_some] at hs
    obtain ⟨-, hs⟩ := hs
    split at hs
    · cases hs
      exact key rfl (.refl _)
    · cases hs
      refine key rfl (State.nearer_setCall ?_ w)
      exact .same rfl rfl
  | call i => exact key rfl (callStep_nearer hs w)

/-- In a run the steps of a worker that is to stop are steps to its end. -/
theorem run_toExit {w : Fin n} {as : List (Act n ι τ)} (hstop : (s.worker w).running = false)
    (hrun : Lts.run Control.step s as = some s') :
    (s'.worker w).running = false ∧
      (s'.worker w).pc.toExit + as.countP (·.isWorker w) ≤ (s.worker w).pc.toExit := by
  induction as generalizing s with
  | nil =>
    cases hrun
    exact ⟨hstop, le_rfl⟩
  | cons a as ih =>
    obtain ⟨t, hs, hrun⟩ := Lts.run_cons_eq_some.1 hrun
    obtain ⟨hstop', hstep⟩ := step_toExit hstop hs
    obtain ⟨hend, hle⟩ := ih hstop' hrun
    refine ⟨hend, ?_⟩
    rw [List.countP_cons]
    omega

/-- When `running` of a worker is clear, the worker makes nine steps at most, in any run. When no
call is still to notify it, it is through its loop or can go on. -/
theorem join_exits {w : Fin n} {as : List (Act n ι τ)}
    (h : Lts.Reachable Control.step State.init s) (hstop : (s.worker w).running = false)
    (hrun : Lts.run Control.step s as = some s') :
    as.countP (·.isWorker w) ≤ 9 ∧
      ((∀ i, w ∉ (s'.call i).notifies) → (s'.worker w).pc ≠ .done →
        ∃ s'', Control.step s' (.worker w .go) = some s'') := by
  obtain ⟨hstop', hle⟩ := run_toExit hstop hrun
  have hreach : Lts.Reachable Control.step State.init s' := h.trans ⟨as, hrun⟩
  refine ⟨?_, fun hnone hdone => ?_⟩
  · have := (s.worker w).pc.toExit_le
    omega
  have hinv := Lts.Reachable.inv (I := Inv) Inv.step Inv.init hreach
  have hheld : s'.Held := Lts.Reachable.inv (I := State.Held) State.Held.step
    (fun _ _ hm => by cases hm) hreach
  have hblocked : (s'.worker w).pc ≠ .blocked := fun hb => by
    obtain ⟨i, hi⟩ := (hinv.worker w).blocked hb (Worker.predicate_eq_true.2 (.inl hstop'))
    exact hnone i hi
  have hlock : (s'.worker w).pc = .lock → (s'.worker w).workerMutex = none := by
    intro hpc
    cases hm : (s'.worker w).workerMutex with
    | none => rfl
    | some o =>
      cases o with
      | worker =>
        have := (hinv.worker w).mutex.2 hm
        rw [hpc] at this
        cases this
      | call i =>
        obtain ⟨rest, join, hcall⟩ := hheld w i hm
        refine absurd ?_ (hnone i)
        rw [hcall]
        exact .head _
  obtain ⟨wk, hwk⟩ := Option.isSome_iff_exists.1
    ((s'.worker w).isSome_step s'.paused hdone hblocked hlock)
  exact ⟨s'.setWorker w wk, Option.map_eq_some_iff.2 ⟨wk, hwk, rfl⟩⟩

end

/-- A worker is blocked when `Join` clears `running`. -/
def joinRun (w : Fin 1) : List (Act 1 Unit ℕ) :=
  List.replicate 11 (.worker w .go) ++ [.join () w, .call ()]

/-- The call notifies the worker. -/
def notifyRun (w : Fin 1) : List (Act 1 Unit ℕ) :=
  [.call (), .call (), .call (), .worker w .go]

theorem join_exits_notifyRun : ∃ s s' : State 1 Unit ℕ,
    Lts.run step State.init (joinRun 0) = some s ∧ Lts.run step s (notifyRun 0) = some s' ∧
      (notifyRun 0).countP (·.isWorker 0) ≤ 9 ∧
        ((∀ i, (0 : Fin 1) ∉ (s'.call i).notifies) → (s'.worker 0).pc ≠ .done →
          ∃ s'', step s' (.worker 0 .go) = some s'') :=
  ⟨_, _, (Option.some_get (x := Lts.run step State.init (joinRun 0)) (by decide)).symm,
    (Option.some_get (x := Lts.run step _ (notifyRun 0)) (by decide)).symm,
    join_exits ⟨joinRun 0, (Option.some_get (x := Lts.run _ _ _) (by decide)).symm⟩ rfl
      (Option.some_get (x := Lts.run _ _ _) (by decide)).symm⟩

end JLibScheduler.Sleep.Control
