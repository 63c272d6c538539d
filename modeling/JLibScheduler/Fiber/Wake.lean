import JLibScheduler.Fiber.Phase

/-!
# No lost and no doubled wake-up

Every step of the machine of `Fiber.Basic` moves tasks between the phases of `Fiber.Phase`
(`Inv.step`), so the phases describe every state that is reached. Since a phase names one worker and
one place of the waiter, no two workers have a task and its waiter is removed once: the waits are
exact (`wait_woken_once`).
-/

namespace JLibScheduler

namespace Fiber

section
variable {τ ε δ ω ι : Type} [DecidableEq τ] [DecidableEq ω] {s s' : State τ ε δ ω ι}
  {ph : τ → Phase ε δ ω ι} {t : τ} {w : ω}

/-- The rule for a step of the fiber of `t` that stays on its worker. -/
theorem Inv.fiberMove (h : Inv s ph) (hw : s.worker w = .on t) {f : FiberState ε δ}
    {p : Phase ε δ ω ι}
    (hs' : s'.fiber = Function.update s.fiber t f ∧ s'.worker = s.worker ∧
      s'.signaler = s.signaler ∧ s'.queued = s.queued ∧ s'.log = s.log)
    (hphase : (ph t).reg = none) (hwaits : (s.fiber t).waits ≤ f.waits)
    (htask : TaskOk s.log t f p) (hon : OnOk w f p)
    (hwaiters : ∀ e, s'.waiters e = s.waiters e ∨
      s'.waiters e = (s.waiters e).insert t ∧ p.reg = some (.event e))
    (hwaiter : ∀ d u, s'.waiter d = some u → s.waiter d = some u ∨
      u = t ∧ p.reg = some (.direct d)) :
    Inv s' (Function.update ph t p) := by
  obtain ⟨hf, hwk, hsg, hq, hl⟩ := hs'
  have hself : s'.fiber t = f := by rw [hf, Function.update_self]
  have hother : ∀ u, u ≠ t → s'.fiber u = s.fiber u := fun u hu => by
    rw [hf, Function.update_of_ne hu]
  refine h.workerMove ((h.worker w).phase_worker (t := t) (by rw [hw]; rfl)) (.inl hphase) hother
    (fun o ho => hl ▸ ho) (fun o ho _ => hl ▸ ho) (by rwa [hl, hself])
    (fun hf' => ?_) (by simp [hwk]) ?_ hsg hwaiters hwaiter (.inl hq) ?_
  · rw [hself] at hf'
    simp only [OnOk, hf'] at hon
  · rw [hwk, hw]
    simpa only [WorkerOk, hself, Function.update_self] using hon
  · rw [hl]
    refine h.log.mono fun u => ?_
    by_cases hu : u = t
    · subst hu; rwa [hself]
    · exact Nat.le_of_eq (by rw [hother u hu])

/-- The rule for the switch back to the worker: the phase stays. -/
theorem Inv.switchOut (h : Inv s ph) (hw : s.worker w = .on t) (r : Option δ)
    (hback : BackOk w (s.fiber t) (ph t) .load) (hnot : ∀ w, ph t ≠ .announced w) :
    ∃ ph', Inv (Fiber.switchOut s w t r) ph' := by
  have hworker := (h.worker w).phase_worker (t := t) (by rw [hw]; rfl)
  refine ⟨_, h.workerMove (p := ph t) hworker
    (.inr ⟨rfl, by simp [Fiber.switchOut, State.setFiber, State.setWorker]⟩)
    ?_ ?_ ?_ ?_ ?_ ?_ ?_ rfl (fun _ => .inl rfl) (fun _ _ h => .inl h) (.inl rfl) ?_⟩
  all_goals simp only [Fiber.switchOut, State.setFiber, State.setWorker]
  · grind
  · grind
  · grind [Obs.task]
  · have := h.task t
    revert this
    cases hp : ph t <;> simp_all [TaskOk, Phase.worker]
  · simp
  · grind
  · simp only [Function.update_self, WorkerOk]
    exact ⟨trivial, ⟨r, rfl⟩, List.mem_cons_self, hback⟩
  · refine (h.log.mono ?_).back ?_ <;> grind

/-- A step of a fiber keeps the invariant. -/
theorem Inv.fiberStep [DecidableEq ε] [DecidableEq δ] (h : Inv s ph) (hw : s.worker w = .on t)
    {m : Move ε δ} (hs : Fiber.fiberStep s w t m = some s') : ∃ ph', Inv s' ph' := by
  have hon := h.worker w
  have htask := h.task t
  have hlog := h.log.begun
  rw [hw] at hon
  simp only [WorkerOk] at hon
  revert hs
  fun_cases Fiber.fiberStep s w t m with
  | case1 f e hpc =>
    rintro ⟨⟩
    have hp : ph t = .running w := by simpa only [OnOk, show (s.fiber t).pc = _ from hpc] using hon
    refine ⟨_, h.fiberMove (p := .announced w) hw ⟨rfl, rfl, rfl, rfl, rfl⟩ (by rw [hp]; rfl)
      (Nat.le_succ _) ⟨rfl, ?_⟩ rfl (fun _ => .inl rfl) fun _ _ h => .inl h⟩
    rintro o ho rfl
    exact Nat.lt_succ_of_le (hlog o ho)
  | case2 f e hpc =>
    rintro ⟨⟩
    have hp : ph t = .announced w := by
      simpa only [OnOk, show (s.fiber t).pc = _ from hpc] using hon
    rw [hp] at htask
    have hfresh := htask.2
    refine ⟨_, h.fiberMove (p := .waiting w (.event e)) hw ⟨rfl, rfl, rfl, rfl, rfl⟩
      (by rw [hp]; rfl)
      (Nat.le_refl _) ⟨htask.1, ?_⟩ (.inl ⟨_, rfl⟩) (fun e' => ?_) fun _ _ h => .inl h⟩
    · grind [Obs.task, Obs.wait]
    · grind [Phase.reg]
  | case3 f d hpc hd =>
    rintro ⟨⟩
    have hp : ph t = .running w := by simpa only [OnOk, show (s.fiber t).pc = _ from hpc] using hon
    rw [hp] at htask
    exact ⟨_, h.fiberMove (p := .running w) hw ⟨rfl, rfl, rfl, rfl, rfl⟩ (by rw [hp]; rfl)
      (Nat.le_refl _) htask rfl (fun _ => .inl rfl) fun _ _ h => .inl h⟩
  | case4 f d hpc hd => rintro ⟨⟩
  | case5 f d hpc =>
    rintro ⟨⟩
    have hp : ph t = .running w := by simpa only [OnOk, show (s.fiber t).pc = _ from hpc] using hon
    rw [hp] at htask
    refine ⟨_, h.fiberMove (p := .running w) hw ⟨rfl, rfl, rfl, rfl, rfl⟩ (by rw [hp]; rfl)
      (Nat.le_refl _) htask rfl (fun _ => .inl rfl) fun d' u hu => ?_⟩
    grind
  | case6 f d hpc =>
    rintro ⟨⟩
    have hp : ph t = .running w := by simpa only [OnOk, show (s.fiber t).pc = _ from hpc] using hon
    refine ⟨_, h.fiberMove (p := .announced w) hw ⟨rfl, rfl, rfl, rfl, rfl⟩ (by rw [hp]; rfl)
      (Nat.le_succ _) ⟨rfl, ?_⟩ rfl (fun _ => .inl rfl) fun _ _ h => .inl h⟩
    rintro o ho rfl
    exact Nat.lt_succ_of_le (hlog o ho)
  | case7 f d hpc =>
    rintro ⟨⟩
    have hp : ph t = .announced w := by
      simpa only [OnOk, show (s.fiber t).pc = _ from hpc] using hon
    rw [hp] at htask
    have hfresh := htask.2
    refine ⟨_, h.fiberMove (p := .waiting w (.direct d)) hw ⟨rfl, rfl, rfl, rfl, rfl⟩
      (by rw [hp]; rfl)
      (Nat.le_refl _) ⟨htask.1, ?_⟩ (.inl ⟨_, rfl⟩) (fun _ => .inl rfl) fun d' u hu => ?_⟩
    · grind [Obs.task, Obs.wait]
    · grind [Phase.reg]
  | case8 f r hpc =>
    rintro ⟨⟩
    simp only [OnOk, show (s.fiber t).pc = _ from hpc] at hon
    exact h.switchOut hw r (.inr hon) (by grind)
  | case9 f hpc =>
    rintro ⟨⟩
    have hp : ph t = .running w := by simpa only [OnOk, show (s.fiber t).pc = _ from hpc] using hon
    exact ⟨_, h.fiberMove (p := .leaving w) hw ⟨rfl, rfl, rfl, rfl, rfl⟩ (by rw [hp]; rfl)
      (Nat.le_refl _) (by simp [TaskOk]) ⟨rfl, .inl rfl⟩ (fun _ => .inl rfl) fun _ _ h => .inl h⟩
  | case10 f hpc =>
    rintro ⟨⟩
    have hp : ph t = .running w := by simpa only [OnOk, show (s.fiber t).pc = _ from hpc] using hon
    exact ⟨_, h.fiberMove (p := .leaving w) hw ⟨rfl, rfl, rfl, rfl, rfl⟩ (by rw [hp]; rfl)
      (Nat.le_refl _) (by simp [TaskOk]) ⟨rfl, .inr rfl⟩ (fun _ => .inl rfl) fun _ _ h => .inl h⟩
  | case11 f hpc =>
    rintro ⟨⟩
    simp only [OnOk, show (s.fiber t).pc = _ from hpc] at hon
    exact h.switchOut hw none (.inl hon) (by grind)
  | case12 f d hpc =>
    rintro ⟨⟩
    have hp : ph t = .running w := by simpa only [OnOk, show (s.fiber t).pc = _ from hpc] using hon
    rw [hp] at htask
    exact ⟨_, h.fiberMove (p := .running w) hw ⟨rfl, rfl, rfl, rfl, rfl⟩ (by rw [hp]; rfl)
      (Nat.le_refl _) htask rfl (fun _ => .inl rfl) fun _ _ h => .inl h⟩
  | case13 => rintro ⟨⟩

/-- The rule for a step of the worker after the switch: the phases before and after it have the
same registration, and the rest is read off `afterSwitch`. -/
theorem Inv.backMove (h : Inv s ph) {k : ℕ} {pc : SwitchPc} (hw : s.worker w = .back t k pc)
    (hs : Fiber.workerStep s w = some s') {v : FiberStatus} {pc' : Option SwitchPc}
    (hafter : afterSwitch pc (s.fiber t).status = (v, pc')) {p : Phase ε δ ω ι}
    (hreg : p.reg = (ph t).reg)
    (htask : TaskOk (parkObs t k pc pc' ++ s.log) t { s.fiber t with status := v } p)
    (hback : ∀ pc₁ ∈ pc', BackOk w { s.fiber t with status := v } p pc₁)
    (hqueued : pc = .requeue ∨ pc = .pushBottom → p = .queued)
    (hlog : LogOk (parkObs t k pc pc' ++ s.log) fun u => (s.fiber u).waits) :
    Inv s' (Function.update ph t p) := by
  have hwk := h.worker w
  rw [hw] at hwk
  obtain ⟨hk, hr, hb, -⟩ := hwk
  simp only [Fiber.workerStep, hw, hafter, State.setFiber, State.setWorker, Option.some.injEq] at hs
  subst hs
  have hobs : ∀ o ∈ parkObs t k pc pc', o.task = t := by
    intro o ho
    unfold parkObs at ho
    split at ho <;> simp_all [Obs.task]
    rcases ho with rfl | rfl <;> rfl
  refine h.workerMove ((h.worker w).phase_worker (t := t) (by rw [hw]; rfl))
    (.inr ⟨hreg, by simp⟩) (fun u hu => ?_) (by grind) (by grind) (by simpa using htask)
    (by grind) (fun w' hw' => ?_) ?_ rfl (fun _ => .inl rfl) (fun _ _ h => .inl h) (by grind) ?_
  · exact Function.update_of_ne hu _ _
  · exact Function.update_of_ne hw' _ _
  · simp only [Function.update_self]
    cases pc' with
    | none => trivial
    | some pc₁ =>
      simp only [Option.elim_some, WorkerOk, Function.update_self]
      exact ⟨hk, hr, List.mem_append_right _ hb, hback pc₁ rfl⟩
  · refine hlog.mono fun u => Nat.le_of_eq ?_
    grind

/-- A step of a worker after the switch keeps the invariant. -/
theorem Inv.workerStep_back (h : Inv s ph) {k : ℕ} {pc : SwitchPc}
    (hw : s.worker w = .back t k pc) (hs : Fiber.workerStep s w = some s') :
    ∃ ph', Inv s' ph' := by
  have hwk := h.worker w
  rw [hw] at hwk
  obtain ⟨rfl, hr, hb, hback⟩ := hwk
  have htask := h.task t
  cases pc with
  | load =>
    -- the load only chooses the branch
    rcases hback with ⟨hp, hst | hst⟩ | ⟨r, hp⟩ | ⟨hp, hst⟩
    · have hafter : afterSwitch .load (s.fiber t).status = ((s.fiber t).status, some .yield) := by
        rw [hst]; rfl
      exact ⟨_, h.backMove hw hs hafter rfl htask (by rintro _ ⟨⟩; exact hp) (by simp) h.log⟩
    · have hafter : afterSwitch .load (s.fiber t).status = ((s.fiber t).status, some .dead) := by
        rw [hst]; rfl
      exact ⟨_, h.backMove hw hs hafter rfl htask (by rintro _ ⟨⟩; exact ⟨hp, hst⟩) (by simp) h.log⟩
    · have hafter : afterSwitch .load (s.fiber t).status = ((s.fiber t).status, some .park) := by
        rw [hp] at htask
        rw [htask.1]; rfl
      exact ⟨_, h.backMove hw hs hafter rfl htask (by rintro _ ⟨⟩; exact .inl ⟨r, hp⟩) (by simp)
        h.log⟩
    · have hafter : afterSwitch .load (s.fiber t).status = ((s.fiber t).status, some .park) := by
        rw [hst]; rfl
      exact ⟨_, h.backMove hw hs hafter rfl htask (by rintro _ ⟨⟩; exact .inr ⟨hp, hst⟩) (by simp)
        h.log⟩
  | dead =>
    exact ⟨_, h.backMove (p := .idle) hw hs rfl (by rw [hback.1]; rfl)
      (.inr ⟨by grind, hback.2⟩) (by simp)
      (by simp) h.log⟩
  | «yield» =>
    exact ⟨_, h.backMove (p := .leaving w) hw hs rfl (by rw [show ph t = _ from hback])
      (by simp [TaskOk]) (by rintro _ ⟨⟩; exact ⟨rfl, rfl⟩) (by simp) h.log⟩
  | pushBottom =>
    exact ⟨_, h.backMove (p := .queued) hw hs rfl (by rw [hback.1]; rfl) ⟨hback.2, hr⟩ (by simp)
      (by simp) h.log⟩
  | park =>
    rcases hback with ⟨r, hp⟩ | ⟨hp, hst⟩
    · rw [hp] at htask
      obtain ⟨hst, hq, hres, -⟩ := htask
      have hafter : afterSwitch .park (s.fiber t).status = (.suspended, none) := by rw [hst]; rfl
      exact ⟨_, h.backMove (p := .suspended r) hw hs hafter (by rw [hp]; rfl)
        ⟨rfl, hr, by simp [parkObs, hb], by simp [parkObs, hq], by simp [parkObs, hres]⟩ (by simp)
        (by simp) (h.log.parked (Nat.le_refl _) fun hmem => absurd hmem hres)⟩
    · rw [hp] at htask
      have hafter : afterSwitch .park (s.fiber t).status = (.suspendSignaled, some .signaled) := by
        rw [hst]; rfl
      exact ⟨_, h.backMove (p := .signaled w) hw hs hafter (by rw [hp])
        ⟨by simp, htask.2⟩ (by rintro _ ⟨⟩; exact rfl) (by simp) h.log⟩
  | signaled =>
    rw [show ph t = _ from hback] at htask
    exact ⟨_, h.backMove (p := .signaled w) hw hs rfl (by rw [show ph t = _ from hback])
      ⟨by simp, htask.2⟩ (by rintro _ ⟨⟩; exact ⟨rfl, rfl⟩) (by simp) h.log⟩
  | requeue =>
    rw [hback.1] at htask
    obtain ⟨-, hq, -⟩ := htask
    exact ⟨_, h.backMove (p := .queued) hw hs rfl (by rw [hback.1]; rfl) ⟨hback.2, hr⟩ (by simp)
      (by simp) ((h.log.requeue (Nat.le_refl _) hq hb).parked (Nat.le_refl _) fun _ => by simp)⟩

/-- A step of a worker keeps the invariant. -/
theorem Inv.workerStep (h : Inv s ph) (hs : Fiber.workerStep s w = some s') :
    ∃ ph', Inv s' ph' := by
  cases hw : s.worker w with
  | idle | on t => simp [Fiber.workerStep, hw] at hs
  | back t k pc => exact h.workerStep_back hw hs
  | picked t =>
    simp only [Fiber.workerStep, hw, State.setFiber, State.setWorker, Option.some.injEq] at hs
    subst hs
    have hp := h.worker w
    rw [hw] at hp
    have hp : ph t = .picked w := hp
    have htask := h.task t
    rw [hp] at htask
    obtain ⟨-, r, hr⟩ := htask
    refine ⟨_, h.workerMove (t := t) (p := .running w) (w := w) (by rw [hp]; rfl)
      (.inl (by rw [hp]; rfl)) (fun u hu => ?_) (fun _ h => h) (fun _ h _ => h) (by simp [TaskOk])
      (by cases r <;> simp [hr, FiberPc.continue]) (fun w' hw' => ?_) ?_ rfl (fun _ => .inl rfl)
      (fun _ _ h => .inl h) (.inl rfl) ?_⟩
    · exact Function.update_of_ne hu _ _
    · exact Function.update_of_ne hw' _ _
    · simp only [Function.update_self, WorkerOk, OnOk, hr]
      cases r <;> trivial
    · refine h.log.mono fun u => Nat.le_of_eq ?_
      grind

end

section
variable {τ ε δ ω ι : Type} [DecidableEq τ] [DecidableEq ι] {s s' : State τ ε δ ω ι}
  {ph : τ → Phase ε δ ω ι} {t : τ} {i : ι}

/-- The rule for a step of a `Resume` call. -/
theorem Inv.resumeMove (h : Inv s ph) {k : ℕ} {rest : List (τ × ℕ)} {pc : ResumePc}
    (hi : s.signaler i = ⟨(t, k) :: rest, pc⟩) (hs : resumeStep s i = some s') {v : FiberStatus}
    {pc' : Option ResumePc} (hres : resume pc (s.fiber t).status = (v, pc')) {p : Phase ε δ ω ι}
    (htask : TaskOk (resumeObs t k pc pc' ++ s.log) t { s.fiber t with status := v } p)
    (hworker : ∀ w, (s.worker w).task = some t →
      WorkerOk (resumeObs t k pc pc' ++ s.log)
        (Function.update s.fiber t { s.fiber t with status := v }) (Function.update ph t p) w
        (s.worker w))
    (hself : ∀ pc₁ ∈ pc', ResumeOk i p pc₁)
    (hqueued : pc = .requeue → p = .queued)
    (hlog : LogOk (resumeObs t k pc pc' ++ s.log) fun u => (s.fiber u).waits) :
    Inv s' (Function.update ph t p) := by
  have hsg := h.signaler i
  rw [hi] at hsg
  obtain ⟨hk, hok, hnd, hrest⟩ := hsg
  have hphase := (h.signaler i).phase (t := t) (by simp [hi])
  simp only [resumeStep, hi, hres, State.setFiber, Option.some.injEq] at hs
  subst hs
  have hobs : ∀ o ∈ resumeObs t k pc pc', o.task = t := by
    intro o ho
    rcases List.mem_append.1 ho with ho | ho
    · cases pc' <;> simp_all [Obs.task]
    · split at ho <;> simp_all [Obs.task]
  have hnotq : t ∉ s.queued := fun hq => by
    rw [h.queued.2 t hq] at hphase
    simp [Phase.reg] at hphase
  refine h.move (fun u hu => Function.update_of_ne hu _ _) (by grind) (by grind)
    (by simpa using htask) (fun hf => ?_) (fun w => ?_) (fun j => ?_) (fun e => ?_)
    (fun d u hd => ?_)
    ?_ ?_
  · have := h.fresh t (by simpa using hf)
    grind [Phase.reg]
  · by_cases hw : (s.worker w).task = some t
    · exact .inr (hworker w hw)
    · exact .inl ⟨rfl, hw⟩
  · by_cases hj : j = i
    · subst hj
      right
      simp only [Function.update_self]
      have hother : ∀ q ∈ rest, q.1 ≠ t := fun q hq hqt =>
        (List.nodup_cons.1 hnd).1 (hqt ▸ List.mem_map_of_mem hq)
      have hrest' : ∀ q ∈ rest, q.2 = (Function.update s.fiber t { s.fiber t with status := v }
          q.1).waits ∧ (Function.update ph t p q.1).reg = some (.signaler j) := by
        intro q hq
        rw [Function.update_of_ne (hother q hq), Function.update_of_ne (hother q hq)]
        exact hrest q hq
      cases pc' with
      | none =>
        cases rest with
        | nil => trivial
        | cons q rest =>
          exact ⟨(hrest' q List.mem_cons_self).1, (hrest' q List.mem_cons_self).2,
            (List.nodup_cons.1 hnd).2, fun q' hq' => hrest' q' (List.mem_cons_of_mem _ hq')⟩
      | some pc₁ =>
        simp only [Option.elim_some]
        exact ⟨by simpa using hk, by simpa using hself pc₁ rfl, hnd, hrest'⟩
    · refine .inl ⟨Function.update_of_ne hj _ _, fun hmem => ?_⟩
      have := (h.signaler j).phase hmem
      grind [Phase.reg]
  · have := h.waiters e
    grind [Phase.reg]
  · have := h.waiter d u hd
    grind [Phase.reg]
  · have := h.queued
    grind
  · refine hlog.mono fun u => Nat.le_of_eq ?_
    grind

/-- A step of a `Resume` call that leaves the fiber as it is keeps the invariant. -/
theorem Inv.resumeStay (h : Inv s ph) {k : ℕ} {rest : List (τ × ℕ)} {pc q : ResumePc}
    (hi : s.signaler i = ⟨(t, k) :: rest, pc⟩) (hs : resumeStep s i = some s')
    (hres : resume pc (s.fiber t).status = ((s.fiber t).status, some q)) (hpc : pc ≠ .requeue)
    (hself : ResumeOk i (ph t) q) : ∃ ph', Inv s' ph' := by
  have hobs : resumeObs t k pc (some q) = [] := by simp [resumeObs, hpc]
  refine ⟨_, h.resumeMove hi hs hres (p := ph t) (by rw [hobs]; exact h.task t) (fun w _ => ?_)
    (by rintro _ ⟨⟩; exact hself) (fun hpc' => absurd hpc' hpc) (by rw [hobs]; exact h.log)⟩
  rw [hobs, Function.update_eq_self, Function.update_eq_self]
  exact h.worker w

/-- A step of a `Resume` call keeps the invariant. -/
theorem Inv.resumeStep (h : Inv s ph) (hs : Fiber.resumeStep s i = some s') :
    ∃ ph', Inv s' ph' := by
  rcases hi : s.signaler i with ⟨_ | ⟨⟨t, k⟩, rest⟩, pc⟩
  · simp [Fiber.resumeStep, hi] at hs
  have hsg := h.signaler i
  rw [hi] at hsg
  obtain ⟨rfl, hok, -, -⟩ := hsg
  have htask := h.task t
  cases pc with
  | load =>
    -- the waiter is not woken yet, so the word is `WANTS_SUSPEND` or `SUSPENDED`
    cases hp : ph t <;> simp only [ResumeOk, hp, Phase.reg, Option.some.injEq, reduceCtorEq] at hok
    case waiting w r =>
      rw [hp] at htask
      exact h.resumeStay (q := .casWantsSuspend) hi hs (by rw [htask.1]; rfl) (by simp)
        (by rw [hp, hok]; rfl)
    case suspended r =>
      rw [hp] at htask
      exact h.resumeStay (q := .casSuspended) hi hs (by rw [htask.1]; rfl) (by simp)
        (by rw [hp, hok]; rfl)
  | casSuspended =>
    have hp : ph t = .suspended (.signaler i) := hok
    rw [hp] at htask
    obtain ⟨hst, hr, hb, hq, hres⟩ := htask
    have hresume : resume .casSuspended (s.fiber t).status = (.ready, some .requeue) := by
      rw [hst]; rfl
    refine ⟨_, h.resumeMove hi hs hresume (p := .waking i) ⟨rfl, hr, hb, hq, hres⟩
      (fun w hw => ?_) (by rintro _ ⟨⟩; rfl) (by simp) h.log⟩
    have := (h.worker w).phase_worker hw
    rw [hp] at this
    cases this
  | casWantsSuspend =>
    cases hp : ph t <;> simp only [ResumeOk, hp, Phase.reg, Option.some.injEq, reduceCtorEq] at hok
    case waiting w r =>
      rw [hp] at htask
      obtain ⟨hst, hq, hres, hpk⟩ := htask
      have hresume : resume .casWantsSuspend (s.fiber t).status = (.suspendSignaled, none) := by
        rw [hst]; rfl
      refine ⟨_, h.resumeMove hi hs hresume (p := .signaled w)
        ⟨by simp, by simp [resumeObs, hq], by simp [resumeObs, hpk]⟩ (fun w' hw => ?_) (by simp)
        (by simp)
        (h.log.resumed (Nat.le_refl _) fun hmem => absurd hmem hpk)⟩
      exact (h.worker w').signal hw hp fun o ho => List.mem_append_right _ ho
    case suspended r =>
      rw [hp] at htask
      exact h.resumeStay (q := .load) hi hs (by rw [htask.1]; rfl) (by simp) (by rw [hp, hok]; rfl)
  | requeue =>
    have hp : ph t = .waking i := hok
    rw [hp] at htask
    obtain ⟨hst, hr, hb, hq, hres⟩ := htask
    refine ⟨_, h.resumeMove hi hs rfl (p := .queued) ⟨hst, hr⟩ (fun w hw => ?_) (by simp) (by simp)
      ((h.log.requeue (Nat.le_refl _) hq hb).resumed (Nat.le_refl _) fun _ => by simp)⟩
    have := (h.worker w).phase_worker hw
    rw [hp] at this
    cases this

/-- The rule for the removal of waiters: they are registered with one event or direct event before
it, and with the thread that removed them after it. -/
theorem Inv.removed (h : Inv s ph) {ts : List τ} (hnd : ts.Nodup) {r : Reg ε δ ι}
    (hr : ∀ j, r ≠ .signaler j) (hts : ∀ t ∈ ts, (ph t).reg = some r) {ws : ε → List τ}
    {wd : δ → Option τ} (hws : ∀ e, (ws e).Nodup ∧ ∀ t ∈ ws e, t ∈ s.waiters e ∧ t ∉ ts)
    (hwd : ∀ d t, wd d = some t → s.waiter d = some t ∧ t ∉ ts) :
    Inv { Fiber.removed s i ts with waiters := ws, waiter := wd }
      fun t => if t ∈ ts then (ph t).handTo i else ph t where
  task t := by
    have htask := h.task t
    show TaskOk s.log t (s.fiber t) _
    split
    · revert htask
      cases ph t <;> exact id
    · exact htask
  fresh t ht := by
    have hp := h.fresh t ht
    split <;> rw [hp]
    rfl
  worker w := (h.worker w).handTo (i := i) fun t => by
    by_cases ht : t ∈ ts <;> simp [ht]
  signaler j := by
    simp only [Fiber.removed]
    by_cases hj : j = i
    · subst hj
      rw [Function.update_self]
      have hreg : ∀ t ∈ ts, (if t ∈ ts then (ph t).handTo j else ph t).reg =
          some (.signaler j) := by
        intro t ht
        have := hts t ht
        rw [if_pos ht]
        cases hp : ph t <;> simp_all [Phase.reg, Phase.handTo]
      cases ts with
      | nil => trivial
      | cons t ts =>
        refine ⟨rfl, hreg t List.mem_cons_self, ?_, fun q hq => ?_⟩
        · simpa [Function.comp_def] using hnd
        · obtain ⟨u, hu, rfl⟩ := List.mem_map.1 hq
          exact ⟨rfl, hreg u (List.mem_cons_of_mem _ hu)⟩
    · rw [Function.update_of_ne hj]
      refine (h.signaler j).congr fun t ht => ⟨rfl, .inl (if_neg fun hmem => ?_)⟩
      have := (h.signaler j).phase ht
      grind [Phase.reg]
  waiters e := ⟨(hws e).1, fun t ht => by
    rw [if_neg ((hws e).2 t ht).2]
    exact (h.waiters e).2 t ((hws e).2 t ht).1⟩
  waiter d t ht := by
    rw [if_neg (hwd d t ht).2]
    exact h.waiter d t (hwd d t ht).1
  queued := ⟨h.queued.1, fun t ht => by
    have hp := h.queued.2 t ht
    by_cases hmem : t ∈ ts
    · have := hts t hmem
      rw [hp] at this
      cases this
    · rw [if_neg hmem]; exact hp⟩
  log := h.log

end

section
variable {τ ε δ ω ι : Type} [DecidableEq τ] [DecidableEq ε] [DecidableEq δ] [DecidableEq ω]
  [DecidableEq ι] {s s' : State τ ε δ ω ι} {ph : τ → Phase ε δ ω ι}

/-- Every step keeps the invariant. -/
theorem Inv.step (h : Inv s ph) {a : Act τ ε δ ω ι} (hs : Fiber.step s a = some s') :
    ∃ ph', Inv s' ph' := by
  cases a with
  | push t =>
    simp only [Fiber.step, Option.ite_none_right_eq_some, Option.some.injEq] at hs
    obtain ⟨hpc, rfl⟩ := hs
    have hp := h.fresh t hpc
    have htask := h.task t
    rw [hp] at htask
    have hst : (s.fiber t).status = .ready := by
      rcases htask with ⟨-, hst⟩ | ⟨hne, -⟩
      · exact hst
      · exact absurd hpc hne
    have hnotq : t ∉ s.queued := fun hq => by simp [h.queued.2 t hq] at hp
    refine ⟨_, h.freeMove (t := t) (p := .queued) (by simp [hp, Phase.reg, Phase.worker])
      ⟨rfl, rfl, rfl, rfl⟩ (fun u hu => Function.update_of_ne hu _ _) (by simp [State.setFiber])
      (by simp [State.setFiber, TaskOk, hst]) (by simp [State.setFiber]) (fun _ => .inl rfl) ?_⟩
    have := h.queued
    grind
  | pick w t =>
    simp only [Fiber.step, Option.ite_none_right_eq_some, Option.some.injEq] at hs
    obtain ⟨⟨hw, ht⟩, rfl⟩ := hs
    have hp := h.queued.2 t ht
    have htask := h.task t
    rw [hp] at htask
    refine ⟨_, h.freeMove (t := t) (p := .picked w) (by simp [hp, Phase.reg, Phase.worker])
      ⟨rfl, rfl, rfl, rfl⟩ (fun _ _ => rfl) rfl htask
      (by obtain ⟨-, r, hr⟩ := htask; simp [hr, State.setWorker]) (fun w' => ?_) ?_⟩
    · by_cases hw' : w' = w
      · subst hw'
        simp [State.setWorker, WorkerOk]
      · exact .inl (Function.update_of_ne hw' _ _)
    · have := h.queued
      grind
  | fiber w m =>
    simp only [Fiber.step] at hs
    split at hs
    · exact h.fiberStep ‹_› hs
    · cases hs
  | worker w => exact h.workerStep hs
  | signal i e t =>
    simp only [Fiber.step, Option.ite_none_right_eq_some] at hs
    obtain ⟨-, hs⟩ := hs
    split at hs
    · cases hs
      have hws := h.waiters e
      refine ⟨_, h.removed (r := .event e) (by simp : [t].Nodup) (by simp)
        (by simpa using hws.2 t ‹_›) (fun e' => ?_) fun d u hd => ?_⟩
      · have := h.waiters e'
        grind
      · have := h.waiter d u hd
        have := hws.2 u
        exact ⟨hd, by grind⟩
    · cases hs; exact ⟨ph, h⟩
  | signalAll i e order =>
    simp only [Fiber.step, Option.ite_none_right_eq_some, Option.some.injEq] at hs
    obtain ⟨⟨-, hperm⟩, rfl⟩ := hs
    have hws := h.waiters e
    refine ⟨_, h.removed (r := .event e) (hperm.nodup_iff.2 hws.1) (by simp)
      (fun t ht => hws.2 t (hperm.mem_iff.1 ht)) (fun e' => ?_) fun d u hd => ⟨hd, fun ht => ?_⟩⟩
    · have := h.waiters e'
      grind
    · have := hws.2 u (hperm.mem_iff.1 ht)
      rw [h.waiter d u hd] at this
      cases this
  | signalDirect i d =>
    simp only [Fiber.step, Option.ite_none_right_eq_some] at hs
    obtain ⟨-, hs⟩ := hs
    split at hs
    case h_1 t ht =>
      cases hs
      have hreg := h.waiter d t ht
      refine ⟨_, h.removed (r := .direct d) (by simp : [t].Nodup) (by simp) (by simpa using hreg)
        (fun e => ⟨(h.waiters e).1, fun u hu => ⟨hu, ?_⟩⟩) fun d' u hd => ?_⟩
      · have := (h.waiters e).2 u hu
        grind
      · have := h.waiter d' u
        grind
    case h_2 => cases hs; exact ⟨ph, h⟩
  | resume i => exact h.resumeStep hs

/-- In every state that some interleaving reaches, the phases of the tasks describe it. -/
theorem exists_phases {pool : List δ} (hs : Lts.Reachable Fiber.step (Fiber.init pool) s) :
    ∃ ph : τ → Phase ε δ ω ι, Inv s ph :=
  Lts.Reachable.inv (I := fun s => ∃ ph, Inv s ph) (fun ⟨_, h⟩ hstep => h.step hstep)
    ⟨_, Inv.init pool⟩ hs

/-- No lost and no doubled wake-up: a wait of a task is requeued at most once, never before the
worker came back from its context switch; and once a signaler has removed its waiter and finished
its `Resume` call, the fiber of the wait is not suspended any more, and the task has been requeued
when the worker has finished its park step. -/
theorem wait_woken_once {pool : List δ} (hs : Lts.Reachable Fiber.step (Fiber.init pool) s)
    (t : τ) (k : ℕ) :
    s.log.count (.requeue t k) ≤ 1 ∧
    (∀ l, (.requeue t k :: l) <:+ s.log → .back t k ∈ l) ∧
    (.resumed t k ∈ s.log →
      (k = (s.fiber t).waits → (s.fiber t).status ≠ .suspended) ∧
      (.parked t k ∈ s.log → .requeue t k ∈ s.log)) := by
  obtain ⟨ph, h⟩ := exists_phases hs
  refine ⟨h.log.once t k, h.log.order t k, fun hres => ⟨?_, h.log.woken t k hres⟩⟩
  rintro rfl hst
  have htask := h.task t
  -- only a parked task is suspended, and no `Resume` call of its wait has finished
  cases hp : ph t <;> simp_all [TaskOk]

end

/-- A task waits on an event; the signal comes after the worker is back from the switch and before
it parks the fiber. -/
def signaledBeforePark : List (Act Unit Unit Unit Unit Unit) :=
  [.push (), .pick () (), .worker (), .fiber () (.waitOnEvent ()), .fiber () .next,
    .fiber () .next, .worker (), .signal () () (), .resume (), .resume (), .worker (), .worker (),
    .worker ()]

theorem wait_woken_once_signaledBeforePark : ∃ s : State Unit Unit Unit Unit Unit,
    Lts.Reachable Fiber.step (Fiber.init []) s ∧ .resumed () 1 ∈ s.log ∧ .parked () 1 ∈ s.log ∧
      s.log.count (.requeue () 1) ≤ 1 ∧ .requeue () 1 ∈ s.log := by
  have hs : Lts.Reachable Fiber.step (Fiber.init []) _ :=
    ⟨signaledBeforePark, (Option.some_get (by decide)).symm⟩
  have h := wait_woken_once hs () 1
  exact ⟨_, hs, by decide, by decide, h.1, (h.2.2 (by decide)).2 (by decide)⟩

end Fiber

end JLibScheduler
