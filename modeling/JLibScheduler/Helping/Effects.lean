import JLibScheduler.Helping.Basic

/-!
# What a step of a helping scheduler does

Every step has one of eight effects (`Effect`, `step_effect`): a task is placed in an inbox, moves
to a deque, starts on a thread, or leaves it; a context queues up, gets what it asked for, begins to
spin or stops; an object is released. `Located` says where the tasks are while this goes on: a task
is on at most one stack and at most once, one that waits is suspended or on a stack, and the queues
of the objects hold suspended tasks that wait for them.
-/

namespace JLibScheduler.Helping

open JLibScheduler.Sync (Obj Kind)

section
variable {τ ω ν γ : Type} {fastJob : τ → Bool} {s s' : State τ ω ν γ}

/-- A step that changes only where a task is, and groups and their counts. -/
def Keeps (s s' : State τ ω ν γ) : Prop :=
  s'.stack = s.stack ∧ s'.waits = s.waits ∧ s'.obj = s.obj ∧ s'.holder = s.holder

/-- Where the tasks are. -/
structure Located (fastJob : τ → Bool) (s : State τ ω ν γ) : Prop where
  running : ∀ w, ∀ t ∈ s.stack w, s.place t = .running w
  nodup : ∀ w, (s.stack w).Nodup
  waiting : ∀ t, s.waits t ≠ none → s.place t = .suspended ∨ ∃ w, s.place t = .running w
  slow : ∀ w, ∀ t ∈ s.stack w, fastJob t = false → s.waits t = none
  queued : ∀ x, ∀ f ∈ (s.obj x).waitingFibers, s.place f = .suspended ∧ s.waits f = some (.obj x)
  nodupQueue : ∀ x, (s.obj x).waitingFibers.Nodup

theorem Located.waits_eq_none {u : τ} (h : Located fastJob s) (hsusp : s.place u ≠ .suspended)
    (hrun : ∀ w, s.place u ≠ .running w) : s.waits u = none := by
  by_contra hne
  rcases h.waiting u hne with hp | ⟨w, hp⟩
  · exact hsusp hp
  · exact hrun w hp

/-- A task on a stack is in no queue. -/
theorem Located.not_queued {t f : τ} {w : ω} {x : ν} (h : Located fastJob s) (ht : t ∈ s.stack w)
    (hf : f ∈ (s.obj x).waitingFibers) : f ≠ t := by
  rintro rfl
  have := (h.queued x f hf).1
  rw [h.running w f ht] at this
  cases this

/-- A task is on one stack at most. -/
theorem Located.stack_unique {t : τ} {v w : ω} (h : Located fastJob s) (hv : t ∈ s.stack v)
    (hw : t ∈ s.stack w) : v = w := by
  have := (h.running v t hv).symm.trans (h.running w t hw)
  cases this
  rfl

/-- The tasks are located at the start. -/
theorem Located.init {kind : ν → Kind} : Located fastJob (State.init kind : State τ ω ν γ) where
  running w t ht := by cases ht
  nodup w := List.nodup_nil
  waiting t ht := absurd rfl ht
  slow w t ht := by cases ht
  queued x f hf := by
    simp only [State.init, Obj.waitingFibers_new] at hf
    cases hf
  nodupQueue x := by
    simp only [State.init, Obj.waitingFibers_new]
    exact List.nodup_nil

end

section
variable {τ ω ν γ : Type} [DecidableEq τ] [DecidableEq ω] [DecidableEq ν] [DecidableEq γ]
  {fastJob hiPri : τ → Bool} {s s' : State τ ω ν γ} {a : Act τ ω ν γ}

/-- The task that a step puts in an inbox, and whose inbox it is. -/
def placement (fastJob : τ → Bool) : Act τ ω ν γ → Option (τ × ω)
  | .push u _ target | .resume u target | .requeue _ u target => some (u, target)
  | .help _ u target => if fastJob u then none else some (u, target)
  | _ => none

/-- The group of a task after a step. -/
def groupAfter (s : State τ ω ν γ) (u : τ) : Act τ ω ν γ → Option γ
  | .push v g _ => if u = v then g else s.waitGroup u
  | _ => s.waitGroup u

/-- What a fast job begins to wait for, and on which worker. -/
def enters (fastJob : τ → Bool) (s : State τ ω ν γ) : Act τ ω ν γ → Option (ω × Wait ν γ)
  | .acquire w x =>
    match s.stack w with
    | t :: _ =>
      if fastJob t ∧ s.waits t = none ∧ (s.obj x).tryAcquire = none then some (w, .obj x) else none
    | [] => none
  | .waitFor w g => some (w, .group g)
  | _ => none

/-- The effects of a step. -/
inductive Effect (fastJob : τ → Bool) (s s' : State τ ω ν γ) (a : Act τ ω ν γ) : Prop where
  | place (u : τ) (target : ω) (hi : Bool) (ha : placement fastJob a = some (u, target))
      (hrun : ∀ w, s.place u ≠ .running w) (hwaits : s.waits u = none)
      (hplace : s'.place = Function.update s.place u (.inbox target hi)) (hkeeps : Keeps s s')
      (hgroup : ∀ v, s'.waitGroup v = groupAfter s v a)
  | move (u : τ) (w : ω) (hi : Bool) (hrun : ∀ w, s.place u ≠ .running w)
      (hwaits : s.waits u = none) (hplace : s'.place = Function.update s.place u (.deque w hi))
      (hkeeps : Keeps s s')
      (hgroup : s'.waitGroup = s.waitGroup)
  | start (u : τ) (w : ω) (hrun : ∀ w, s.place u ≠ .running w) (hwaits : s.waits u = none)
      (heq : s' = (s.put u (.running w)).setStack w (u :: s.stack w))
  | leave (t : τ) (w : ω) (rest : List τ) (p : Place ω) (hstack : s.stack w = t :: rest)
      (hwaits : s.waits t = none) (hp : ∀ v hi, p ≠ .inbox v hi)
      (hplace : s'.place = Function.update s.place t p)
      (hstack' : s'.stack = Function.update s.stack w rest) (hwaits' : s'.waits = s.waits)
      (hobj : s'.obj = s.obj) (hholder : s'.holder = s.holder)
      (hgroup : s'.waitGroup = s.waitGroup)
  | queue (t : τ) (w : ω) (rest : List τ) (x : ν) (o : Obj τ) (hstack : s.stack w = t :: rest)
      (hslow : fastJob t = false) (ha : a = .acquire w x) (hwaits : s.waits t = none)
      (ho : o.waitingFibers = (s.obj x).waitingFibers ++ [t])
      (hkind : o.isMutex = (s.obj x).isMutex)
      (heq : s' = (({ s with obj := Function.update s.obj x o }.setWaits t (some (.obj x))).put t
        .suspended).setStack w rest)
  | got (t : τ) (w : ω) (rest : List τ) (x : ν) (o : Obj τ) (hstack : s.stack w = t :: rest)
      (ho : o.waitingFibers = (s.obj x).waitingFibers) (hkind : o.isMutex = (s.obj x).isMutex)
      (heq : s' = (s.setObj x o (some t)).setWaits t none)
  | spin (t : τ) (w : ω) (rest : List τ) (y : Wait ν γ) (hstack : s.stack w = t :: rest)
      (hfast : fastJob t = true) (ha : ∀ x, y = .obj x → a = .acquire w x)
      (hwaits : s.waits t = some y ∨ enters fastJob s a = some (w, y))
      (heq : s' = s.setWaits t (some y))
  | stop (t : τ) (w : ω) (rest : List τ) (hstack : s.stack w = t :: rest)
      (heq : s' = s.setWaits t none)
  | release (t : τ) (w : ω) (rest : List τ) (x : ν) (hstack : s.stack w = t :: rest)
      (heq : s' = (s.obj x).release.2.elim (s.setObj x (s.obj x).release.1 none) fun f =>
        (s.setObj x (s.obj x).release.1 (some f)).setWaits f none)

/-! ## The effect of each step -/

/-- The effect of a step of the context that runs. -/
theorem runStep_effect {w : ω} {t : τ} {rest : List τ} (h : Located fastJob s)
    (hstack : s.stack w = t :: rest) (hw : a.worker? = some w)
    (hs : runStep fastJob hiPri s w t rest a = some s') : Effect fastJob s s' a := by
  cases a with
  | push | resume | drain | requeue | take => cases hw
  | coYield v =>
    simp only [runStep, Option.ite_none_left_eq_some, not_or, not_not, Option.some.injEq] at hs
    obtain ⟨⟨-, hwaits⟩, rfl⟩ := hs
    exact .leave t w rest _ hstack hwaits (by simp) rfl rfl rfl rfl rfl rfl
  | suspend v =>
    simp only [runStep, Option.ite_none_left_eq_some, not_or, not_not, Option.some.injEq] at hs
    obtain ⟨⟨-, hwaits⟩, rfl⟩ := hs
    exact .leave t w rest _ hstack hwaits (by simp) rfl rfl rfl rfl rfl rfl
  | acquire v x =>
    obtain rfl : v = w := Option.some.inj hw
    simp only [runStep, acquireStep] at hs
    split at hs
    next hfast =>
      split at hs
      next hwaits =>
        split at hs <;> cases hs
        next o ho =>
          exact .got t v rest x o hstack (Obj.waitingFibers_tryAcquire ho)
            (Obj.isMutex_tryAcquire ho) rfl
        next ho =>
          refine .spin t v rest (.obj x) hstack hfast (fun x' hx' => by cases hx'; rfl) ?_ rfl
          rcases hwaits with hwaits | hwaits
          · exact .inr (by simp [enters, hstack, hfast, hwaits, ho])
          · exact .inl hwaits
      next => cases hs
    next hslow =>
      split at hs
      next hwaits =>
        have hqueue := Obj.waitingFibers_acquire (s.obj x) t
        have hkind := Obj.isMutex_acquire (s.obj x) t
        split at hs <;> cases hs
        next o ho =>
          rw [ho] at hqueue hkind
          have hsame : (s.setObj x o (some t)).setWaits t none = s.setObj x o (some t) := by
            simp [State.setWaits, State.setObj, ← hwaits]
          exact .got t v rest x o hstack hqueue hkind hsame.symm
        next o ho =>
          rw [ho] at hqueue hkind
          exact .queue t v rest x o hstack (by simpa using hslow) rfl hwaits hqueue hkind rfl
      next => cases hs
  | tryAcquire v x =>
    simp only [runStep, Option.ite_none_right_eq_some, Option.some.injEq] at hs
    obtain ⟨hwaits, rfl⟩ := hs
    cases ho : (s.obj x).tryAcquire with
    | none =>
      have hsame : s = s.setWaits t none := by simp [State.setWaits, ← hwaits]
      exact .stop t w rest hstack hsame
    | some o =>
      have hsame : (s.setObj x o (some t)).setWaits t none = s.setObj x o (some t) := by
        simp [State.setWaits, State.setObj, ← hwaits]
      exact .got t w rest x o hstack (Obj.waitingFibers_tryAcquire ho)
        (Obj.isMutex_tryAcquire ho) hsame.symm
  | release v x =>
    simp only [runStep, Option.ite_none_right_eq_some, Option.some.injEq] at hs
    obtain ⟨-, rfl⟩ := hs
    refine .release t w rest x hstack ?_
    cases (s.obj x).release.2 <;> rfl
  | waitFor v g =>
    obtain rfl : v = w := Option.some.inj hw
    simp only [runStep, Option.ite_none_right_eq_some, Option.some.injEq] at hs
    obtain ⟨⟨hfast, -⟩, rfl⟩ := hs
    exact .spin t v rest (.group g) hstack hfast (fun x hx => by cases hx) (.inr rfl) rfl
  | waited v =>
    simp only [runStep] at hs
    split at hs
    · simp only [Option.ite_none_right_eq_some, Option.some.injEq] at hs
      obtain ⟨-, rfl⟩ := hs
      exact .stop t w rest hstack rfl
    · cases hs
  | help v u target =>
    simp only [runStep] at hs
    split at hs
    next y v' hi hwaits hplace =>
      have hrun : ∀ w, s.place u ≠ .running w := fun w => by simp [hplace]
      have hnone := h.waits_eq_none (u := u) (by simp [hplace]) hrun
      split at hs <;> cases hs
      next hfast => exact .start u w hrun hnone (by rw [hstack])
      next hslow =>
        exact .place u target (hiPri u) (by simp [placement, hslow]) hrun hnone rfl
          ⟨rfl, rfl, rfl, rfl⟩ fun _ => rfl
    next => cases hs
  | finish v =>
    simp only [runStep, Option.ite_none_right_eq_some, Option.some.injEq] at hs
    obtain ⟨hwaits, rfl⟩ := hs
    exact .leave t w rest .done hstack hwaits (by simp) rfl rfl rfl rfl rfl rfl

/-- Every step has one of the effects. -/
theorem step_effect (h : Located fastJob s) (hs : step fastJob hiPri s a = some s') :
    Effect fastJob s s' a := by
  cases a with
  | push u g target =>
    simp only [step, Option.ite_none_right_eq_some, Option.some.injEq] at hs
    obtain ⟨hplace, rfl⟩ := hs
    have hrun : ∀ w, s.place u ≠ .running w := fun w => by simp [hplace]
    refine .place u target (hiPri u) rfl hrun (h.waits_eq_none (by simp [hplace]) hrun) rfl
      ⟨rfl, rfl, rfl, rfl⟩ fun v => ?_
    simp [groupAfter, Function.update_apply]
  | resume u target =>
    simp only [step, Option.ite_none_right_eq_some, Option.some.injEq] at hs
    obtain ⟨⟨hplace, hwaits⟩, rfl⟩ := hs
    exact .place u target (hiPri u) rfl (fun w => by simp [hplace]) hwaits rfl
      ⟨rfl, rfl, rfl, rfl⟩ fun _ => rfl
  | drain w u =>
    simp only [step] at hs
    split at hs
    next v hi hstack hplace =>
      have hrun : ∀ w, s.place u ≠ .running w := fun w => by simp [hplace]
      simp only [Option.ite_none_right_eq_some, Option.some.injEq] at hs
      obtain ⟨-, rfl⟩ := hs
      exact .move u w hi hrun (h.waits_eq_none (by simp [hplace]) hrun) rfl ⟨rfl, rfl, rfl, rfl⟩ rfl
    next => cases hs
  | requeue w u target =>
    simp only [step] at hs
    split at hs
    next v hi hstack hplace =>
      have hrun : ∀ w, s.place u ≠ .running w := fun w => by simp [hplace]
      simp only [Option.ite_none_right_eq_some, Option.some.injEq] at hs
      obtain ⟨-, rfl⟩ := hs
      exact .place u target (hiPri u) rfl hrun (h.waits_eq_none (by simp [hplace]) hrun) rfl
        ⟨rfl, rfl, rfl, rfl⟩ fun _ => rfl
    next => cases hs
  | take w u =>
    simp only [step] at hs
    split at hs <;> cases hs
    next v hi hstack hplace =>
      have hrun : ∀ w, s.place u ≠ .running w := fun w => by simp [hplace]
      exact .start u w hrun (h.waits_eq_none (by simp [hplace]) hrun) (by rw [hstack])
  | _ =>
    simp only [step] at hs
    obtain ⟨w, hw, hs⟩ := Option.bind_eq_some_iff.1 hs
    split at hs
    next t rest hstack => exact runStep_effect h hstack hw hs
    next => cases hs

end

/-! ## The places of the tasks -/

section
variable {τ ω ν γ : Type} [DecidableEq τ] {fastJob : τ → Bool} {s s' : State τ ω ν γ}

/-- A task that is on no stack and waits for nothing goes elsewhere. -/
theorem Located.put {u : τ} {p : Place ω} (h : Located fastJob s)
    (hrun : ∀ w, s.place u ≠ .running w) (hwaits : s.waits u = none)
    (hplace : s'.place = Function.update s.place u p)
    (hkeeps : Keeps s s') : Located fastJob s' := by
  obtain ⟨hstack, hwaits', hobj, -⟩ := hkeeps
  refine ⟨fun w t ht => ?_, hstack ▸ h.nodup, fun t ht => ?_, hstack ▸ hwaits' ▸ h.slow,
    fun x f hf => ?_, hobj ▸ h.nodupQueue⟩
  · rw [hstack] at ht
    have hne : t ≠ u := by
      rintro rfl
      exact hrun w (h.running w t ht)
    rw [hplace, Function.update_of_ne hne]
    exact h.running w t ht
  · rw [hwaits'] at ht
    have hne : t ≠ u := by
      rintro rfl
      exact ht hwaits
    rw [hplace, Function.update_of_ne hne]
    exact h.waiting t ht
  · rw [hobj] at hf
    obtain ⟨hp, hw⟩ := h.queued x f hf
    have hne : f ≠ u := by
      rintro rfl
      rw [hwaits] at hw
      cases hw
    rw [hplace, hwaits', Function.update_of_ne hne]
    exact ⟨hp, hw⟩

/-- A task starts on a thread. -/
theorem Located.start [DecidableEq ω] {u : τ} {w : ω} (h : Located fastJob s)
    (hrun : ∀ w, s.place u ≠ .running w) (hwaits : s.waits u = none) :
    Located fastJob ((s.put u (.running w)).setStack w (u :: s.stack w)) := by
  have hnot : ∀ v, u ∉ s.stack v := fun v hu => hrun v (h.running v u hu)
  have hstack : ∀ v t, t ∈ Function.update s.stack w (u :: s.stack w) v →
      t ∈ s.stack v ∨ v = w ∧ t = u := by
    intro v t ht
    rw [Function.update_apply] at ht
    split at ht
    next heq =>
      subst heq
      rcases List.mem_cons.1 ht with rfl | ht
      · exact .inr ⟨rfl, rfl⟩
      · exact .inl ht
    next => exact .inl ht
  refine ⟨fun v t ht => ?_, fun v => ?_, fun t ht => ?_, fun v t ht hslow => ?_, fun x f hf => ?_,
    h.nodupQueue⟩
  · rcases hstack v t ht with hmem | ⟨rfl, rfl⟩
    · have hne : t ≠ u := by
        rintro rfl
        exact hnot v hmem
      exact (Function.update_of_ne hne _ _).trans (h.running v t hmem)
    · exact Function.update_self _ _ _
  · simp only [State.setStack, State.put, Function.update_apply]
    split
    · exact List.nodup_cons.2 ⟨hnot w, h.nodup w⟩
    · exact h.nodup v
  · have hne : t ≠ u := by
      rintro rfl
      exact ht hwaits
    have := h.waiting t ht
    simpa only [State.setStack, State.put, Function.update_of_ne hne] using this
  · rcases hstack v t ht with ht | ⟨rfl, rfl⟩
    · exact h.slow v t ht hslow
    · exact hwaits
  · obtain ⟨hp, hw⟩ := h.queued x f hf
    have hne : f ≠ u := by
      rintro rfl
      exact ne_of_eq_of_ne hw (by simp) hwaits
    exact ⟨(Function.update_of_ne hne _ _).trans hp, hw⟩

/-- The context at the head of a stack leaves it. -/
theorem Located.pop [DecidableEq ω] {t : τ} {w : ω} {rest : List τ} {p : Place ω}
    {y : Option (Wait ν γ)} (h : Located fastJob s) (hstack : s.stack w = t :: rest)
    (hp : y ≠ none → p = .suspended)
    (hplace : s'.place = Function.update s.place t p)
    (hstack' : s'.stack = Function.update s.stack w rest)
    (hwaits' : s'.waits = Function.update s.waits t y)
    (hqueue : ∀ x, (s'.obj x).waitingFibers = (s.obj x).waitingFibers ∨
      (s'.obj x).waitingFibers = (s.obj x).waitingFibers ++ [t] ∧ y = some (.obj x)) :
    Located fastJob s' := by
  have ht : t ∈ s.stack w := hstack ▸ .head _
  have hsub : ∀ v, ∀ u ∈ s'.stack v, u ∈ s.stack v ∧ u ≠ t := by
    intro v u hu
    rw [hstack', Function.update_apply] at hu
    split at hu
    next heq =>
      subst heq
      have hnodup := h.nodup v
      rw [hstack, List.nodup_cons] at hnodup
      refine ⟨hstack ▸ .tail _ hu, ?_⟩
      rintro rfl
      exact hnodup.1 hu
    next hne =>
      refine ⟨hu, ?_⟩
      rintro rfl
      exact hne (h.stack_unique hu ht)
  refine ⟨fun v u hu => ?_, fun v => ?_, fun u hu => ?_, fun v u hu hslow => ?_, fun x f hf => ?_,
    fun x => ?_⟩
  · rw [hplace, Function.update_of_ne (hsub v u hu).2]
    exact h.running v u (hsub v u hu).1
  · rw [hstack', Function.update_apply]
    split
    · exact (List.nodup_cons.1 (hstack ▸ h.nodup w)).2
    · exact h.nodup v
  · rw [hplace]
    by_cases hut : u = t
    · subst hut
      rw [hwaits', Function.update_self] at hu
      rw [Function.update_self, hp hu]
      exact .inl rfl
    · rw [hwaits', Function.update_of_ne hut] at hu
      rw [Function.update_of_ne hut]
      exact h.waiting u hu
  · rw [hwaits', Function.update_of_ne (hsub v u hu).2]
    exact h.slow v u (hsub v u hu).1 hslow
  · have hold : ∀ f ∈ (s.obj x).waitingFibers, s'.place f = .suspended ∧
        s'.waits f = some (.obj x) := by
      intro f hf
      have hne := h.not_queued ht hf
      rw [hplace, hwaits', Function.update_of_ne hne, Function.update_of_ne hne]
      exact h.queued x f hf
    rcases hqueue x with heq | ⟨heq, hy⟩
    · exact hold f (heq ▸ hf)
    · rw [heq, List.mem_append, List.mem_singleton] at hf
      rcases hf with hf | rfl
      · exact hold f hf
      · rw [hplace, hwaits', Function.update_self, Function.update_self]
        exact ⟨hp (by simp [hy]), hy⟩
  · rcases hqueue x with heq | ⟨heq, -⟩
    · rw [heq]
      exact h.nodupQueue x
    · rw [heq]
      exact (h.nodupQueue x).append (List.nodup_singleton t) fun f hf hf' =>
        h.not_queued ht hf (List.mem_singleton.1 hf')

/-- A fast job at the head of a stack, or one that stops waiting, and the queues as they were. -/
theorem Located.setWaits {t : τ} {w : ω} {rest : List τ} {y : Option (Wait ν γ)}
    (h : Located fastJob s) (hstack : s.stack w = t :: rest) (hy : y ≠ none → fastJob t = true)
    (hplace : s'.place = s.place) (hstack' : s'.stack = s.stack)
    (hwaits' : s'.waits = Function.update s.waits t y)
    (hqueue : ∀ x, (s'.obj x).waitingFibers = (s.obj x).waitingFibers) : Located fastJob s' := by
  have ht : t ∈ s.stack w := hstack ▸ .head _
  refine ⟨fun v u hu => ?_, hstack' ▸ h.nodup, fun u hu => ?_, fun v u hu hslow => ?_,
    fun x f hf => ?_, fun x => ?_⟩
  · rw [hplace]
    exact h.running v u (hstack' ▸ hu)
  · rw [hplace]
    by_cases hut : u = t
    · subst hut
      exact .inr ⟨w, h.running w u ht⟩
    · rw [hwaits', Function.update_of_ne hut] at hu
      exact h.waiting u hu
  · rw [hstack'] at hu
    rw [hwaits', Function.update_apply]
    split
    next heq =>
      subst heq
      by_contra hne
      rw [hy hne] at hslow
      cases hslow
    next => exact h.slow v u hu hslow
  · rw [hqueue] at hf
    rw [hplace, hwaits', Function.update_of_ne (h.not_queued ht hf)]
    exact h.queued x f hf
  · rw [hqueue]
    exact h.nodupQueue x

/-- `Unlock` or `Signal`. -/
theorem Located.release [DecidableEq ν] {x : ν} (h : Located fastJob s) :
    Located fastJob ((s.obj x).release.2.elim (s.setObj x (s.obj x).release.1 none) fun f =>
      (s.setObj x (s.obj x).release.1 (some f)).setWaits f none) := by
  have hq := Obj.waitingFibers_release (s.obj x)
  cases hnext : (s.obj x).release.2 with
  | none =>
    rw [hnext, Option.toList_none, List.nil_append] at hq
    have hqueue : ∀ y, ((s.setObj x (s.obj x).release.1 none).obj y).waitingFibers =
        (s.obj y).waitingFibers := by
      intro y
      simp only [State.setObj, Function.update_apply]
      split
      next heq => rw [hq, heq]
      next => rfl
    exact ⟨h.running, h.nodup, h.waiting, h.slow, fun y f hf => h.queued y f (hqueue y ▸ hf),
      fun y => hqueue y ▸ h.nodupQueue y⟩
  | some f =>
    rw [hnext, Option.toList_some, List.singleton_append] at hq
    have hf := h.queued x f (hq ▸ .head _)
    have hnodup := h.nodupQueue x
    rw [← hq, List.nodup_cons] at hnodup
    have hqueue : ∀ y, ∀ g ∈ ((s.setObj x (s.obj x).release.1 (some f)).obj y).waitingFibers,
        g ∈ (s.obj y).waitingFibers ∧ g ≠ f := by
      intro y g hg
      simp only [State.setObj, Function.update_apply] at hg
      split at hg
      next heq =>
        subst heq
        refine ⟨hq ▸ .tail _ hg, ?_⟩
        rintro rfl
        exact hnodup.1 hg
      next hne =>
        refine ⟨hg, ?_⟩
        rintro rfl
        have := hf.2.symm.trans (h.queued y g hg).2
        cases this
        exact hne rfl
    refine ⟨h.running, h.nodup, fun t ht => ?_, fun v t ht hslow => ?_, fun y g hg => ?_,
      fun y => ?_⟩
    · refine h.waiting t fun hnone => ht ?_
      simp only [Option.elim_some, State.setWaits, Function.update_apply]
      split
      · rfl
      · exact hnone
    · simp only [Option.elim_some, State.setWaits, Function.update_apply]
      split
      · rfl
      · exact h.slow v t ht hslow
    · obtain ⟨hg, hne⟩ := hqueue y g hg
      obtain ⟨hp, hw⟩ := h.queued y g hg
      exact ⟨hp, (Function.update_of_ne hne _ _).trans hw⟩
    · simp only [Option.elim_some, State.setWaits, State.setObj, Function.update_apply]
      split
      · exact hnodup.2
      · exact h.nodupQueue y

end

section
variable {τ ω ν γ : Type} [DecidableEq τ] [DecidableEq ω] [DecidableEq ν] [DecidableEq γ]
  {fastJob hiPri : τ → Bool} {s s' : State τ ω ν γ} {a : Act τ ω ν γ}

/-- Every step keeps the tasks located. -/
theorem Located.step (h : Located fastJob s) (hs : step fastJob hiPri s a = some s') :
    Located fastJob s' := by
  cases step_effect h hs with
  | place u target hi ha hrun hwaits hplace hkeeps hgroup => exact h.put hrun hwaits hplace hkeeps
  | move u w hi hrun hwaits hplace hkeeps hgroup => exact h.put hrun hwaits hplace hkeeps
  | start u w hrun hwaits heq => exact heq ▸ h.start hrun hwaits
  | leave t w rest p hstack hwaits hp hplace hstack' hwaits' hobj hholder hgroup =>
    refine h.pop (y := none) hstack (fun hne => absurd rfl hne) hplace hstack' ?_ fun x => .inl ?_
    · rw [hwaits', ← hwaits, Function.update_eq_self]
    · rw [hobj]
  | queue t w rest x o hstack hslow ha hwaits ho hkind heq =>
    subst heq
    refine h.pop hstack (fun _ => rfl) rfl rfl rfl fun y => ?_
    simp only [State.setStack, State.put, State.setWaits, Function.update_apply]
    split
    next hyx => exact .inr ⟨hyx ▸ ho, by rw [hyx]⟩
    next => exact .inl rfl
  | got t w rest x o hstack ho hkind heq =>
    subst heq
    refine h.setWaits (y := none) hstack (fun hne => absurd rfl hne) rfl rfl rfl fun y => ?_
    simp only [State.setWaits, State.setObj, Function.update_apply]
    split
    next hyx => rw [ho, hyx]
    next => rfl
  | spin t w rest y hstack hfast ha hwaits heq =>
    subst heq
    exact h.setWaits hstack (fun _ => hfast) rfl rfl rfl fun _ => rfl
  | stop t w rest hstack heq =>
    subst heq
    exact h.setWaits (y := none) hstack (fun hne => absurd rfl hne) rfl rfl rfl fun _ => rfl
  | release t w rest x hstack heq => exact heq ▸ h.release

end

end JLibScheduler.Helping
