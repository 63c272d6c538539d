import JLibScheduler.Submission.Pending
import JLibScheduler.Submission.Slots

/-!
# The reserved workers

A call of `PushToCore` or `PushFork` that sets the flag `immediateCoresInUse` of a worker reserves
it for its task, until the task completes (`State.reservations`).
-/

namespace JLibScheduler.Submission

open JLibScheduler.Thread (Attr Worker)

section
variable {n m : ℕ} {τ : Type}

/-- The reservation of a call that has set the flag. -/
def Call.reservation : Call n τ → Option (τ × Fin n)
  | .fork t w _ .count | .fork t w _ .pushLocal => some (t, w)
  | .count t (some w) => some (t, w)
  | _ => none

/-- The reservation of a `PushToCore` that has set the flag. -/
def slotReservation : Thread.Call n m τ → Option (τ × Fin n)
  | .pushImmediate t w .storeSlot => some (t, w)
  | _ => none

/-- The tasks that a worker was reserved for, with the worker. -/
def State.reservations (s : State n m τ) : List (τ × Fin n) :=
  s.calls.filterMap Call.reservation ++ s.thread.calls.filterMap slotReservation ++
    s.accepted.filterMap fun p => p.2.map fun w => (p.1, w)

variable {s : State n m τ} {t : τ} {w : Fin n}

/-- What a reservation comes from. -/
theorem mem_reservations : (t, w) ∈ s.reservations ↔
    (∃ k ∈ s.calls, k.reservation = some (t, w)) ∨
      .pushImmediate t w .storeSlot ∈ s.thread.calls ∨ (t, some w) ∈ s.accepted := by
  have hslot : (t, w) ∈ s.thread.calls.filterMap slotReservation ↔
      .pushImmediate t w .storeSlot ∈ s.thread.calls := by
    rw [List.mem_filterMap]
    refine ⟨fun ⟨k, hk, heq⟩ => ?_, fun h => ⟨_, h, rfl⟩⟩
    revert heq
    fun_cases slotReservation k
    · rintro ⟨⟩
      exact hk
    · simp
  have hacc : (t, w) ∈ s.accepted.filterMap (fun p => p.2.map fun w => (p.1, w)) ↔
      (t, some w) ∈ s.accepted := by
    rw [List.mem_filterMap]
    refine ⟨fun ⟨p, hp, heq⟩ => ?_, fun h => ⟨_, h, rfl⟩⟩
    obtain ⟨u, o⟩ := p
    cases o with
    | none => cases heq
    | some v => cases heq; exact hp
  rw [State.reservations, List.mem_append, List.mem_append, List.mem_filterMap, hslot, hacc,
    or_assoc]

/-- A completion is one of a worker that has the task, or of a helper in its `Execute`. -/
theorem completes_cases {th : Thread.State n m τ} {a : Thread.Act n m τ}
    (h : completes th a = some t) :
    (∃ w, a = .worker w .go ∧ (th.worker w).taskToRun = some t) ∨ .helping t ∈ th.calls := by
  cases a with
  | worker w c =>
    refine .inl ⟨w, ?_, completes_worker h⟩
    cases c <;> first | rfl | cases h
  | call j v =>
    refine .inr ?_
    simp only [completes] at h
    split at h
    next u hu =>
      cases h
      exact List.mem_of_getElem? hu
    next => cases h
  | _ => cases h

variable [DecidableEq τ]

/-- The task is reserved for the worker by a `PushFork` that has pushed it. -/
def assignedTo (s : State n m τ) (t : τ) (w : Fin n) : Bool :=
  decide ((t, some w) ∈ s.accepted) || decide (.count t (some w) ∈ s.calls)

/-- A submission stores a flag that is set. -/
def storesSetFlag (s : State n m τ) : Act n m τ → Bool
  | .thread (.call j _) =>
    match s.thread.calls[j]? with
    | some (.pushImmediate _ w .storeFlag) => (s.thread.worker w).immediateCoreInUse
    | _ => false
  | .call j _ =>
    match s.calls[j]? with
    | some (.fork _ w _ .storeFlag) => (s.thread.worker w).immediateCoreInUse
    | _ => false
  | _ => false

/-- The `PushLocal` of a `PushFork` refuses its task. -/
def refusesFork (s : State n m τ) : Act n m τ → Bool
  | .call j _ =>
    match s.calls[j]? with
    | some (.fork _ w _ .pushLocal) =>
      match (affine (UInt8.ofNat w) : Option (Fin n)) with
      | some v => (s.thread.worker v).immediateCoreInUse
      | none => false
    | _ => false
  | _ => false

/-- A forked task is completed elsewhere than by the worker that was reserved for it. -/
def completesAstray (s : State n m τ) : Act n m τ → Bool
  | .thread a =>
    match completes s.thread a with
    | some t => s.isForked t && !(match a with
      | .worker w _ => assignedTo s t w
      | _ => false)
    | none => false
  | _ => false

/-- Only fast jobs are submitted with `PushImmediate` and `PushFork`, and the latter is not called
on a fiber. -/
def reservesFast (fastJob : τ → Bool) : Act n m τ → Bool
  | .thread (.pushImmediate t _) => fastJob t
  | .pushFork t _ isLocalPush => fastJob t && !isLocalPush
  | _ => true

/-- The steps that the flags do not survive. -/
def breaksReservation (s : State n m τ) (a : Act n m τ) : Bool :=
  handsBack s a || storesSetFlag s a || refusesFork s a || completesAstray s a

/-- What a submission call in progress says about its task. -/
def Call.Ok (fastJob isForked : τ → Bool) : Call n τ → Prop
  | .fork t _ isLocalPush pc =>
    fastJob t = true ∧ isLocalPush = false ∧ (pc = .pushLocal → isForked t = true)
  | .count t (some _) => isForked t = true
  | _ => True

/-- A `PushToCore` in progress has a fast job. -/
def ImmediateOk (fastJob : τ → Bool) : Thread.Call n m τ → Prop
  | .pushImmediate t _ _ => fastJob t = true
  | _ => True

/-- What the flags say, and what the places of reserved tasks say about them. -/
structure Reserved (fastJob : τ → Bool) (s : State n m τ) : Prop where
  flag : ∀ w, (s.reservations.countP fun p => decide (p.2 = w) && !s.thread.freed p.1) =
    (s.thread.worker w).immediateCoreInUse.toNat
  searches : ∀ w, Searches (s.thread.worker w)
  calls : ∀ k ∈ s.calls, k.Ok fastJob s.isForked
  immediate : ∀ k ∈ s.thread.calls, ImmediateOk fastJob k
  forked : ∀ t, s.isForked t = true → fastJob t = true
  accepted : ∀ t w, (t, some w) ∈ s.accepted → fastJob t = true ∧
    (s.isForked t = true ∨ s.thread.freed t = true ∨
      (s.thread.worker w).immediateTask = some t ∨
        (s.thread.worker w).taskToRun = some t ∧ (s.thread.worker w).isHandlingFork = true)
  slot : ∀ w t, (s.thread.worker w).immediateTask = some t → (t, some w) ∈ s.accepted
  handling : ∀ w, (s.thread.worker w).isHandlingFork = true →
    ∃ t, (s.thread.worker w).taskToRun = some t ∧ (t, some w) ∈ s.accepted

end

/-! ## Reservations -/

section
variable {α ι : Type} [DecidableEq α] [DecidableEq ι] {l : List (α × ι)} {t : α} {w : ι}
  {freed : α → Bool}

/-- The freeing of a task that is not among the reservations. -/
theorem countP_free_of_not_mem (h : ∀ w, (t, w) ∉ l) (v : ι) :
    (l.countP fun p => decide (p.2 = v) && !(decide (t = p.1) || freed p.1)) =
      l.countP fun p => decide (p.2 = v) && !freed p.1 := by
  refine List.countP_congr fun p hp => ?_
  have hne : t ≠ p.1 := fun heq => h p.2 (heq ▸ hp)
  simp [hne]

/-- The freeing of a task that is among the reservations once, for worker `w`. -/
theorem countP_free_of_mem (hmem : (t, w) ∈ l) (honce : l.countP (fun p => decide (p.1 = t)) ≤ 1)
    (hfreed : freed t = false) (v : ι) :
    (l.countP fun p => decide (p.2 = v) && !(decide (t = p.1) || freed p.1)) +
        (if w = v then 1 else 0) =
      l.countP fun p => decide (p.2 = v) && !freed p.1 := by
  obtain ⟨l₁, l₂, rfl⟩ := List.append_of_mem hmem
  rw [List.countP_append, List.countP_cons] at honce
  simp only [decide_true, if_true] at honce
  have hnot : ∀ l : List (α × ι), l.countP (fun p => decide (p.1 = t)) = 0 → ∀ w, (t, w) ∉ l :=
    fun l hl w hw => List.countP_eq_zero.1 hl _ hw (by simp)
  have h₁ := hnot l₁ (by omega)
  have h₂ := hnot l₂ (by omega)
  rw [List.countP_append, List.countP_append, List.countP_cons, List.countP_cons,
    countP_free_of_not_mem h₁, countP_free_of_not_mem h₂]
  simp only [decide_true, Bool.true_or, Bool.not_true, Bool.and_false, Bool.false_eq_true, if_false,
    hfreed, Bool.not_false, Bool.and_true, decide_eq_true_eq]
  omega

end

section
variable {n m : ℕ} {τ : Type} {fastJob : τ → Bool} {s s' : State n m τ} {w : Fin n}

/-- The workers but one stand still, with the same slots. -/
theorem still_eq {wk wk' : Worker n m τ} (h : still wk' = still wk) :
    wk'.taskToRun = wk.taskToRun ∧ wk'.immediateCoreInUse = wk.immediateCoreInUse ∧
      wk'.immediateTask = wk.immediateTask ∧ wk'.isHandlingFork = wk.isHandlingFork := by
  simp only [still, slot, Prod.mk.injEq] at h
  exact h.2

/-- A call of another thread in the worker loops takes a step. -/
theorem reservations_setThreadCall {j : ℕ} {k : Thread.Call n m τ} (k' : Thread.Call n m τ)
    (acc : List (τ × Option (Fin n))) (s' : State n m τ) (hk : s.thread.calls[j]? = some k)
    (hthread : s'.thread.calls = s.thread.calls.set j k') (hcalls : s'.calls = s.calls)
    (hacc : s'.accepted = s.accepted ++ acc) (q : τ × Fin n → Bool) :
    s'.reservations.countP q + (slotReservation k).toList.countP q =
      s.reservations.countP q + (slotReservation k').toList.countP q +
        (acc.filterMap fun p => p.2.map fun w => (p.1, w)).countP q := by
  have := Sums.countP_filterMap_set (f := slotReservation) (q := q) (b := k') hk
  simp only [State.reservations, hthread, hcalls, hacc, List.filterMap_append,
    List.countP_append]
  omega

/-- A submission call takes a step. -/
theorem reservations_setCall {j : ℕ} {k : Call n τ} (k' : Call n τ)
    (acc : List (τ × Option (Fin n))) (s' : State n m τ) (hk : s.calls[j]? = some k)
    (hcalls : s'.calls = s.calls.set j k')
    (hthread : s'.thread.calls = s.thread.calls) (hacc : s'.accepted = s.accepted ++ acc)
    (q : τ × Fin n → Bool) :
    s'.reservations.countP q + k.reservation.toList.countP q =
      s.reservations.countP q + k'.reservation.toList.countP q +
        (acc.filterMap fun p => p.2.map fun w => (p.1, w)).countP q := by
  have := Sums.countP_filterMap_set (f := Call.reservation) (q := q) (b := k') hk
  simp only [State.reservations, hthread, hcalls, hacc, List.filterMap_append, List.countP_append]
  omega

theorem slotReservation_of_not_immediate {k : Thread.Call n m τ}
    (hk : immediateInProgress k = false) : slotReservation k = none := by
  cases k with
  | pushImmediate u w pc => cases hk
  | _ => rfl

theorem immediateOk_of_not_immediate {k : Thread.Call n m τ} (hk : immediateInProgress k = false) :
    ImmediateOk fastJob k := by
  cases k with
  | pushImmediate u w pc => cases hk
  | _ => trivial

/-- The rule for steps that change no slot and neither make nor end a reservation. -/
theorem Reserved.frame (hr : Reserved fastJob s)
    (hres : ∀ q, s'.reservations.countP q = s.reservations.countP q)
    (hfreed : s'.thread.freed = s.thread.freed)
    (hforked : ∀ t, s.isForked t = true → s'.isForked t = true)
    (hfast : ∀ t, s'.isForked t = true → fastJob t = true)
    (hsearch : ∀ v, Searches (s'.thread.worker v))
    (hslot : ∀ v, Submission.slot (s'.thread.worker v) = Submission.slot (s.thread.worker v))
    (htask : ∀ v, (s.thread.worker v).isHandlingFork = true →
      (s'.thread.worker v).taskToRun = (s.thread.worker v).taskToRun)
    (hcalls : ∀ k ∈ s'.calls, k.Ok fastJob s'.isForked)
    (himmediate : ∀ k ∈ s'.thread.calls, ImmediateOk fastJob k)
    (hnew : ∀ t w, (t, some w) ∈ s'.accepted → (t, some w) ∈ s.accepted ∨ s'.isForked t = true)
    (hold : ∀ t w, (t, some w) ∈ s.accepted → (t, some w) ∈ s'.accepted) : Reserved fastJob s' := by
  have hcore : ∀ v, (s'.thread.worker v).immediateCoreInUse =
      (s.thread.worker v).immediateCoreInUse := fun v => congrArg (·.1) (hslot v)
  have himm : ∀ v, (s'.thread.worker v).immediateTask = (s.thread.worker v).immediateTask :=
    fun v => congrArg (·.2.1) (hslot v)
  have hhand : ∀ v, (s'.thread.worker v).isHandlingFork = (s.thread.worker v).isHandlingFork :=
    fun v => congrArg (·.2.2) (hslot v)
  refine ⟨fun w => ?_, hsearch, hcalls, himmediate, hfast, fun t w ht => ?_, fun w t ht => ?_,
    fun w hw => ?_⟩
  · rw [hres, hfreed, hcore]
    exact hr.flag w
  · rw [hfreed, himm, hhand]
    rcases hnew t w ht with ht | hf
    · obtain ⟨hfast, hf | hf | hf | ⟨hrun, hf⟩⟩ := hr.accepted t w ht
      · exact ⟨hfast, .inl (hforked t hf)⟩
      · exact ⟨hfast, .inr (.inl hf)⟩
      · exact ⟨hfast, .inr (.inr (.inl hf))⟩
      · exact ⟨hfast, .inr (.inr (.inr ⟨(htask w hf).trans hrun, hf⟩))⟩
    · exact ⟨hfast t hf, .inl hf⟩
  · rw [himm] at ht
    exact hold t w (hr.slot w t ht)
  · rw [hhand] at hw
    obtain ⟨t, ht, hacc⟩ := hr.handling w hw
    exact ⟨t, (htask w hw).trans ht, hold t w hacc⟩

/-- Worker `w` takes the task of its slot. -/
theorem Reserved.take (hr : Reserved fastJob s) (hres : s'.reservations = s.reservations)
    (hfreed : s'.thread.freed = s.thread.freed) (hforked : s'.isForked = s.isForked)
    (hcalls : s'.calls = s.calls) (hthread : s'.thread.calls = s.thread.calls)
    (haccepted : s'.accepted = s.accepted)
    (hothers : ∀ v, v ≠ w → still (s'.thread.worker v) = still (s.thread.worker v))
    (hsearch : Searches (s'.thread.worker w)) (hnone : (s.thread.worker w).taskToRun = none)
    (hslot : Submission.slot (s'.thread.worker w) =
      ((s.thread.worker w).immediateCoreInUse, none, true))
    (htask : (s'.thread.worker w).taskToRun = (s.thread.worker w).immediateTask)
    (hsome : (s.thread.worker w).immediateTask.isSome = true) : Reserved fastJob s' := by
  obtain ⟨u, hu⟩ := Option.isSome_iff_exists.1 hsome
  simp only [Submission.slot, Prod.mk.injEq] at hslot
  obtain ⟨hcore, himm, hhand⟩ := hslot
  have hother := fun v hv => still_eq (hothers v hv)
  refine ⟨fun v => ?_, fun v => ?_, ?_, ?_, ?_, fun t v ht => ?_, fun v t ht => ?_, fun v hv => ?_⟩
  · rw [hres, hfreed, hr.flag v]
    by_cases hv : v = w
    · rw [hv, hcore]
    · rw [(hother v hv).2.1]
  · by_cases hv : v = w
    · exact hv ▸ hsearch
    · exact (hr.searches v).congr (hothers v hv)
  · rw [hcalls, hforked]
    exact hr.calls
  · rw [hthread]
    exact hr.immediate
  · rw [hforked]
    exact hr.forked
  · rw [haccepted] at ht
    obtain ⟨hfast, hor⟩ := hr.accepted t v ht
    refine ⟨hfast, ?_⟩
    rw [hforked, hfreed]
    by_cases hv : v = w
    · subst hv
      refine hor.imp_right (Or.imp_right fun hor => ?_)
      rcases hor with hslot | ⟨hrun, -⟩
      · exact .inr ⟨htask.trans hslot, hhand⟩
      · rw [hnone] at hrun
        cases hrun
    · obtain ⟨h₁, -, h₃, h₄⟩ := hother v hv
      rw [h₁, h₃, h₄]
      exact hor
  · rw [haccepted]
    by_cases hv : v = w
    · rw [hv, himm] at ht
      cases ht
    · rw [(hother v hv).2.2.1] at ht
      exact hr.slot v t ht
  · rw [haccepted]
    by_cases hvw : v = w
    · subst hvw
      exact ⟨u, htask.trans hu, hr.slot v u hu⟩
    · obtain ⟨h₁, -, -, h₄⟩ := hother v hvw
      rw [h₄] at hv
      rw [h₁]
      exact hr.handling v hv

/-- The rule for steps that leave all workers still and make and end no reservation. -/
theorem Reserved.of_still (hr : Reserved fastJob s)
    (hres : ∀ q, s'.reservations.countP q = s.reservations.countP q)
    (hfreed : s'.thread.freed = s.thread.freed)
    (hforked : ∀ t, s.isForked t = true → s'.isForked t = true)
    (hfast : ∀ t, s'.isForked t = true → fastJob t = true)
    (hstill : ∀ v, still (s'.thread.worker v) = still (s.thread.worker v))
    (hcalls : ∀ k ∈ s'.calls, k.Ok fastJob s'.isForked)
    (himmediate : ∀ k ∈ s'.thread.calls, ImmediateOk fastJob k)
    (hnew : ∀ t w, (t, some w) ∈ s'.accepted → (t, some w) ∈ s.accepted ∨ s'.isForked t = true)
    (hold : ∀ t w, (t, some w) ∈ s.accepted → (t, some w) ∈ s'.accepted) : Reserved fastJob s' :=
  hr.frame hres hfreed hforked hfast (fun v => (hr.searches v).congr (hstill v))
    (fun v => congrArg (·.2.2) (hstill v)) (fun v _ => congrArg (·.2.1) (hstill v)) hcalls
    himmediate
    hnew hold

/-- A step of the worker loops that changes neither slots nor calls of `PushToCore`, but for one
that begins. -/
theorem Reserved.threadStill {a : Thread.Act n m τ} {th : Thread.State n m τ}
    (hr : Reserved fastJob s) (haccepts : accepts s.thread a = none)
    (hfreed : th.freed = s.thread.freed)
    (hstill : ∀ v, still (th.worker v) = still (s.thread.worker v))
    (hcalls : th.calls = s.thread.calls ∨
      ∃ k, th.calls = s.thread.calls ++ [k] ∧ slotReservation k = none ∧ ImmediateOk fastJob k) :
    Reserved fastJob { s.record a with thread := th } := by
  have hacc : (s.record a).accepted = s.accepted := by simp [State.record, haccepts]
  refine hr.of_still (fun q => ?_) hfreed (fun _ => id) hr.forked hstill hr.calls ?_
    (fun t v ht => .inl (hacc ▸ ht)) fun t v ht => hacc.symm ▸ ht
  · have hcs : (s.record a).calls = s.calls := rfl
    rcases hcalls with h | ⟨k, h, hk, -⟩
    · simp only [State.reservations, hacc, hcs, h]
    · simp [State.reservations, hacc, hcs, h, hk]
  · rcases hcalls with h | ⟨k, h, -, hk⟩
    · dsimp only
      rw [h]
      exact hr.immediate
    · dsimp only
      rw [h]
      intro x hx
      rcases List.mem_append.1 hx with hx | hx
      · exact hr.immediate x hx
      · obtain rfl := List.mem_singleton.1 hx
        exact hk

/-- The rule for the first step of a submission call. -/
theorem Reserved.begin {k : Call n τ} {th : Thread.State n m τ} {z : ℤ} {cs : List τ}
    (hr : Reserved fastJob s) (hfreed : th.freed = s.thread.freed)
    (hcalls : th.calls = s.thread.calls)
    (hstill : ∀ v, still (th.worker v) = still (s.thread.worker v)) (hk : k.reservation = none)
    (hok : k.Ok fastJob s.isForked) :
    Reserved fastJob { s with
      thread := th
      pendingTasks := z
      counted := cs
      calls := s.calls ++ [k] } := by
  refine hr.of_still (fun q => ?_) hfreed (fun _ => id) hr.forked hstill (fun x hx => ?_) ?_
    (fun _ _ => .inl) fun _ _ => id
  · simp [State.reservations, hcalls, hk]
  · rcases List.mem_append.1 hx with hx | hx
    · exact hr.calls x hx
    · obtain rfl := List.mem_singleton.1 hx
      exact hok
  · dsimp only
    rw [hcalls]
    exact hr.immediate

/-- A submission sets the flag of worker `w`, which was clear, for its task. -/
theorem Reserved.reserve {t : τ} (hr : Reserved fastJob s)
    (hres : ∀ q : τ × Fin n → Bool, s'.reservations.countP q =
      s.reservations.countP q + if q (t, w) then 1 else 0)
    (hfreed : s'.thread.freed = s.thread.freed) (hforked : s'.isForked = s.isForked)
    (hworker : s'.thread.worker = (s.thread.modifyWorker w fun wk =>
      { wk with immediateCoreInUse := true }).worker)
    (hclear : (s.thread.worker w).immediateCoreInUse = false) (hnot : s.thread.freed t = false)
    (hcalls : ∀ k ∈ s'.calls, k.Ok fastJob s.isForked)
    (himmediate : ∀ k ∈ s'.thread.calls, ImmediateOk fastJob k)
    (haccepted : s'.accepted = s.accepted) : Reserved fastJob s' := by
  have hself : s'.thread.worker w = { s.thread.worker w with immediateCoreInUse := true } := by
    rw [hworker, Thread.State.worker_modifyWorker]
  have hother : ∀ v, v ≠ w → s'.thread.worker v = s.thread.worker v := by
    intro v hv
    rw [hworker]
    simp only [Thread.State.modifyWorker, Function.update_of_ne hv]
  have hsame : ∀ v, (s'.thread.worker v).pc = (s.thread.worker v).pc ∧
      (s'.thread.worker v).taskToRun = (s.thread.worker v).taskToRun ∧
      (s'.thread.worker v).immediateTask = (s.thread.worker v).immediateTask ∧
      (s'.thread.worker v).isHandlingFork = (s.thread.worker v).isHandlingFork := by
    intro v
    by_cases hv : v = w
    · subst hv
      rw [hself]
      exact ⟨rfl, rfl, rfl, rfl⟩
    · rw [hother v hv]
      exact ⟨rfl, rfl, rfl, rfl⟩
  refine ⟨fun v => ?_, fun v => ?_, ?_, himmediate, ?_, fun u v hu => ?_, fun v u hu => ?_,
    fun v hv => ?_⟩
  · rw [hres, hfreed, hr.flag v]
    by_cases hv : v = w
    · subst hv
      rw [hself, hclear]
      simp [hnot]
    · rw [hother v hv]
      simp [Ne.symm hv]
  · obtain ⟨h₁, h₂, h₃, -⟩ := hsame v
    refine ⟨fun h => ?_, fun h => ?_⟩
    · rw [h₁] at h
      rw [h₂, (hr.searches v).task h]
    · rw [h₁] at h
      rw [h₃, (hr.searches v).occupied h]
  · rw [hforked]
    exact hcalls
  · rw [hforked]
    exact hr.forked
  · obtain ⟨-, h₂, h₃, h₄⟩ := hsame v
    rw [hforked, hfreed, h₂, h₃, h₄]
    exact hr.accepted u v (haccepted ▸ hu)
  · rw [haccepted]
    exact hr.slot v u ((hsame v).2.2.1 ▸ hu)
  · obtain ⟨-, h₂, -, h₄⟩ := hsame v
    rw [haccepted, h₂]
    exact hr.handling v (h₄ ▸ hv)

/-- A `PushToCore` stores its task to the slot of worker `w` and returns. -/
theorem Reserved.store {t : τ} (hr : Reserved fastJob s)
    (hres : ∀ q, s'.reservations.countP q = s.reservations.countP q)
    (hfreed : s'.thread.freed = s.thread.freed) (hforked : s'.isForked = s.isForked)
    (hworker : s'.thread.worker = (s.thread.modifyWorker w fun wk =>
      { wk with immediateTask := some t, immediate := true }).worker)
    (hempty : ∀ u, (u, some w) ∈ s.accepted → s.thread.freed u = true) (hfast : fastJob t = true)
    (hcalls : s'.calls = s.calls) (himmediate : ∀ k ∈ s'.thread.calls, ImmediateOk fastJob k)
    (haccepted : s'.accepted = s.accepted ++ [(t, some w)]) : Reserved fastJob s' := by
  have hself : s'.thread.worker w =
      { s.thread.worker w with immediateTask := some t, immediate := true } := by
    rw [hworker, Thread.State.worker_modifyWorker]
  have hother : ∀ v, v ≠ w → s'.thread.worker v = s.thread.worker v := by
    intro v hv
    rw [hworker]
    simp only [Thread.State.modifyWorker, Function.update_of_ne hv]
  have hmem : ∀ u v, (u, some v) ∈ s'.accepted ↔ (u, some v) ∈ s.accepted ∨ u = t ∧ v = w := by
    intro u v
    simp [haccepted]
  refine ⟨fun v => ?_, fun v => ?_, ?_, himmediate, ?_, fun u v hu => ?_, fun v u hu => ?_,
    fun v hv => ?_⟩
  · rw [hres, hfreed, hr.flag v]
    by_cases hv : v = w
    · rw [hv, hself]
    · rw [hother v hv]
  · by_cases hv : v = w
    · subst hv
      rw [hself]
      exact ⟨(hr.searches v).task, fun _ => rfl⟩
    · rw [hother v hv]
      exact hr.searches v
  · rw [hcalls, hforked]
    exact hr.calls
  · rw [hforked]
    exact hr.forked
  · rw [hforked, hfreed]
    rcases (hmem u v).1 hu with hu | ⟨rfl, rfl⟩
    · by_cases hv : v = w
      · subst hv
        exact ⟨(hr.accepted u v hu).1, .inr (.inl (hempty u hu))⟩
      · rw [hother v hv]
        exact hr.accepted u v hu
    · rw [hself]
      exact ⟨hfast, .inr (.inr (.inl rfl))⟩
  · by_cases hv : v = w
    · subst hv
      rw [hself] at hu
      cases hu
      exact (hmem t v).2 (.inr ⟨rfl, rfl⟩)
    · rw [hother v hv] at hu
      exact (hmem u v).2 (.inl (hr.slot v u hu))
  · obtain ⟨u, hu, hacc⟩ :
        ∃ u, (s.thread.worker v).taskToRun = some u ∧ (u, some v) ∈ s.accepted := by
      by_cases hvw : v = w
      · subst hvw
        rw [hself] at hv
        exact hr.handling v hv
      · rw [hother v hvw] at hv
        exact hr.handling v hv
    refine ⟨u, ?_, (hmem u v).2 (.inl hacc)⟩
    by_cases hvw : v = w
    · subst hvw
      rw [hself]
      exact hu
    · rw [hother v hvw, hu]

/-- A helper completes the task `t`, which has no reservation. -/
theorem Reserved.free [DecidableEq τ] {t : τ} (hr : Reserved fastJob s)
    (hres : ∀ q, s'.reservations.countP q = s.reservations.countP q)
    (hfreed : ∀ u, s'.thread.freed u = (decide (t = u) || s.thread.freed u))
    (hnot : ∀ v, (t, v) ∉ s.reservations) (hforked : s'.isForked = s.isForked)
    (hworker : s'.thread.worker = s.thread.worker) (hcalls : s'.calls = s.calls)
    (himmediate : ∀ k ∈ s'.thread.calls, ImmediateOk fastJob k)
    (haccepted : s'.accepted = s.accepted) : Reserved fastJob s' := by
  refine ⟨fun v => ?_, ?_, ?_, himmediate, ?_, fun u v hu => ?_, ?_, ?_⟩
  · rw [hres]
    simp only [hfreed, hworker]
    rw [countP_free_of_not_mem hnot, hr.flag v]
  · rw [hworker]
    exact hr.searches
  · rw [hcalls, hforked]
    exact hr.calls
  · rw [hforked]
    exact hr.forked
  · rw [hforked, hfreed, hworker]
    rw [haccepted] at hu
    obtain ⟨hfast, hor⟩ := hr.accepted u v hu
    exact ⟨hfast, hor.imp_right (Or.imp_left fun hf => by rw [hf, Bool.or_true])⟩
  · rw [hworker, haccepted]
    exact hr.slot
  · rw [hworker, haccepted]
    exact hr.handling

end

section
variable {n m : ℕ} {τ : Type} [DecidableEq τ] {fastJob hiPri : τ → Bool} {s s' : State n m τ}
  {t : τ} {v w : Fin n}

/-- A task has at most one reservation. -/
theorem Inv.reservations_once (h : Inv fastJob hiPri s) (t : τ) :
    s.reservations.countP (fun p => decide (p.1 = t)) ≤ 1 := by
  have h₁ : (s.calls.filterMap Call.reservation).countP (fun p => decide (p.1 = t)) ≤
      (s.calls.map fun k => k.awaiting t + k.forking t).sum := by
    refine Sums.countP_filterMap_le fun k p hk hp => ?_
    obtain rfl : p.1 = t := by simpa using hp
    revert hk
    fun_cases Call.reservation k <;> rintro ⟨⟩ <;> simp [Call.awaiting, Call.forking]
  have h₂ : (s.thread.calls.filterMap slotReservation).countP (fun p => decide (p.1 = t)) ≤
      (s.thread.calls.map (beforeSlot t)).sum := by
    refine Sums.countP_filterMap_le fun k p hk hp => ?_
    obtain rfl : p.1 = t := by simpa using hp
    revert hk
    fun_cases slotReservation k with
    | case1 =>
      rintro ⟨⟩
      simp [beforeSlot]
    | case2 => simp
  have h₃ : (s.accepted.filterMap fun p => p.2.map fun w => (p.1, w)).countP
      (fun p => decide (p.1 = t)) ≤ (s.accepted.map Prod.fst).count t := by
    rw [List.countP_filterMap, List.count_eq_countP, List.countP_map]
    refine List.countP_mono_left fun p hp => ?_
    cases p.2 <;> simp
  have h₄ := h.counted t
  have h₅ := h.accepted t
  have h₆ := (s.thread.submitted t).toNat_le
  rw [List.sum_map_add] at h₁
  rw [State.reservations, List.countP_append, List.countP_append]
  omega

/-- A call that is no `PushToCore` leaves the workers still. -/
theorem still_callStep {attr : Attr τ} {th th' : Thread.State n m τ} {target : Fin n}
    {k k' : Thread.Call n m τ} (h : Thread.callStep attr th target k = some (th', k'))
    (hpush : immediateInProgress k = false) (v : Fin n) :
    still (th'.worker v) = still (th.worker v) := by
  cases k with
  | done => cases h
  | pushImmediate u w pc => cases hpush
  | requeue u =>
    obtain ⟨th₁, hth₁, heq⟩ := Option.map_eq_some_iff.1 h
    cases heq
    obtain ⟨-, rfl⟩ := Thread.State.requeue_eq_some.1 hth₁
    exact still_enqueue th target _ u v
  | stolen u =>
    simp only [Thread.callStep] at h
    split at h <;> cases h <;> rfl
  | resume f pc => cases h; rfl
  | helping u => cases h; rfl

/-- A task in a slot is nowhere else. -/
theorem slot_excludes {attr : Attr τ} {th : Thread.State n m τ} (h : Thread.Inv attr th)
    (hs : (th.worker w).immediateTask = some t) : (∀ v, (th.worker v).taskToRun ≠ some t) ∧
      th.freed t = false ∧ ∀ k ∈ th.calls, k.refs t = 0 := by
  have hone := h.refs_le t
  have hw : 1 ≤ (th.worker w).refs t := by
    simp only [Worker.refs, Worker.places, Thread.refersTo, hs, if_true]
    omega
  have hsum := Sums.single_le (φ := Worker.refs t) (f := th.worker) w
  unfold Thread.State.refs at hone
  refine ⟨fun v hv => ?_, ?_, fun k hk => ?_⟩
  · by_cases hvw : v = w
    · subst hvw
      have : 2 ≤ (th.worker v).refs t := by
        simp only [Worker.refs, Worker.places, Thread.refersTo, hs, hv, if_true]
        omega
      omega
    · have := Worker.one_le_refs hv
      have := Sums.pair_le (φ := Worker.refs t) (f := th.worker) hvw
      omega
  · cases hf : th.freed t with
    | false => rfl
    | true =>
      rw [hf, Bool.toNat_true] at hone
      omega
  · have := Sums.le_map (φ := Thread.Call.refs t) hk
    omega

/-- A task that a worker has is in no call. -/
theorem task_excludes {attr : Attr τ} {th : Thread.State n m τ} (h : Thread.Inv attr th)
    (hu : (th.worker w).taskToRun = some t) : ∀ k ∈ th.calls, k.refs t = 0 := by
  intro k hk
  have hone := h.refs_le t
  have hw := Worker.one_le_refs hu
  have hsum := Sums.single_le (φ := Worker.refs t) (f := th.worker) w
  have := Sums.le_map (φ := Thread.Call.refs t) hk
  unfold Thread.State.refs at hone
  omega

/-- A task that completes and is not forked, nor from the slot of the worker that completes it, has
no reservation. -/
theorem Reserved.not_mem_reservations (hr : Reserved fastJob s) (h : Inv fastJob hiPri s)
    {a : Thread.Act n m τ} (ht : completes s.thread a = some t) (hforked : s.isForked t = false)
    (hslot : ∀ w, a = .worker w .go → (s.thread.worker w).isHandlingFork = false) (w : Fin n) :
    (t, w) ∉ s.reservations := by
  have hrefs : 1 ≤ s.thread.refs t := by
    rcases completes_cases ht with ⟨x, rfl, hx⟩ | hhelp
    · have := one_le_refs_of_worker hx
      omega
    · have := one_le_refs_of_helping hhelp
      omega
  have hbound := h.refs t
  have hsub := (s.thread.submitted t).toNat_le
  rw [mem_reservations]
  rintro (⟨k, hk, heq⟩ | hpush | hacc)
  · have hok := hr.calls k hk
    revert heq
    fun_cases Call.reservation k <;> rintro ⟨⟩
    · have := Sums.le_map (φ := Call.forking t) hk
      simp only [Call.forking, if_true] at this
      omega
    · have := Sums.le_map (φ := Call.forking t) hk
      simp only [Call.forking, if_true] at this
      omega
    · simp only [Call.Ok, hforked] at hok
      cases hok
  · rcases completes_cases ht with ⟨x, rfl, hx⟩ | hhelp
    · have := task_excludes h.thread hx _ hpush
      simp [Thread.Call.refs] at this
    · obtain ⟨j, hj⟩ := List.mem_iff_getElem?.1 hhelp
      have := (h.thread.only_call hj (u := t) (by simp [Thread.Call.refs])).2.2 _ hpush (by simp)
      simp [Thread.Call.refs] at this
  · obtain ⟨-, hf | hf | hf | ⟨hrun, hf⟩⟩ := hr.accepted t w hacc
    · rw [hforked] at hf
      cases hf
    · rw [hf, Bool.toNat_true] at hbound
      omega
    · obtain ⟨hno, -, hcalls⟩ := slot_excludes h.thread hf
      rcases completes_cases ht with ⟨x, rfl, hx⟩ | hhelp
      · exact hno x hx
      · have := hcalls _ hhelp
        simp [Thread.Call.refs] at this
    · rcases completes_cases ht with ⟨x, rfl, hx⟩ | hhelp
      · obtain rfl := (h.thread.only_worker hrun).1 x hx
        rw [hslot x rfl] at hf
        cases hf
      · exact (h.thread.only_worker hrun).2.2 hhelp

/-- Worker `w` completes the task `t`. -/
theorem Reserved.complete (hr : Reserved fastJob s) (hres : s'.reservations = s.reservations)
    (hfreed : ∀ u, s'.thread.freed u = (decide (t = u) || s.thread.freed u))
    (hforked : s'.isForked = s.isForked) (hcalls : s'.calls = s.calls)
    (hthread : s'.thread.calls = s.thread.calls) (haccepted : s'.accepted = s.accepted)
    (hothers : ∀ v, v ≠ w → still (s'.thread.worker v) = still (s.thread.worker v))
    (hsearch : Searches (s'.thread.worker w)) (hrun : (s.thread.worker w).taskToRun = some t)
    (hslot : Submission.slot (s'.thread.worker w) = ((s.thread.worker w).immediateCoreInUse &&
      !((s.thread.worker w).isHandlingFork || s.isForked t),
      (s.thread.worker w).immediateTask, false))
    (honce : s.reservations.countP (fun p => decide (p.1 = t)) ≤ 1)
    (hnotfreed : s.thread.freed t = false)
    (hmem : ((s.thread.worker w).isHandlingFork || s.isForked t) = true → (t, w) ∈ s.reservations)
    (hnot : ((s.thread.worker w).isHandlingFork || s.isForked t) = false →
      ∀ v, (t, v) ∉ s.reservations) : Reserved fastJob s' := by
  simp only [Submission.slot, Prod.mk.injEq] at hslot
  obtain ⟨hcore, himm, hhand⟩ := hslot
  have hother := fun v hv => still_eq (hothers v hv)
  refine ⟨fun v => ?_, fun v => ?_, ?_, ?_, ?_, fun u v hu => ?_, fun v u hu => ?_, fun v hv => ?_⟩
  · simp only [hres, hfreed]
    have hflag := hr.flag v
    cases hb : (s.thread.worker w).isHandlingFork || s.isForked t with
    | true =>
      have hfree := countP_free_of_mem (hmem hb) honce hnotfreed v
      by_cases hv : v = w
      · subst hv
        rw [hcore, hb, Bool.not_true, Bool.and_false, Bool.toNat_false]
        have := (s.thread.worker v).immediateCoreInUse.toNat_le
        rw [if_pos rfl] at hfree
        omega
      · rw [(hother v hv).2.1]
        rw [if_neg (Ne.symm hv)] at hfree
        omega
    | false =>
      rw [countP_free_of_not_mem (hnot hb), hflag]
      by_cases hv : v = w
      · rw [hv, hcore, hb, Bool.not_false, Bool.and_true]
      · rw [(hother v hv).2.1]
  · by_cases hv : v = w
    · exact hv ▸ hsearch
    · exact (hr.searches v).congr (hothers v hv)
  · rw [hcalls, hforked]
    exact hr.calls
  · rw [hthread]
    exact hr.immediate
  · rw [hforked]
    exact hr.forked
  · rw [haccepted] at hu
    obtain ⟨hfast, hor⟩ := hr.accepted u v hu
    refine ⟨hfast, ?_⟩
    rw [hforked, hfreed]
    by_cases hv : v = w
    · subst hv
      rcases hor with hf | hf | hf | ⟨hf, -⟩
      · exact .inl hf
      · exact .inr (.inl (by rw [hf, Bool.or_true]))
      · exact .inr (.inr (.inl (himm.trans hf)))
      · rw [hrun] at hf
        cases hf
        exact .inr (.inl (by simp))
    · obtain ⟨h₁, -, h₃, h₄⟩ := hother v hv
      rw [h₁, h₃, h₄]
      exact hor.imp_right (Or.imp_left fun hf => by rw [hf, Bool.or_true])
  · rw [haccepted]
    by_cases hv : v = w
    · rw [hv, himm] at hu
      exact hv ▸ hr.slot w u hu
    · rw [(hother v hv).2.2.1] at hu
      exact hr.slot v u hu
  · rw [haccepted]
    by_cases hvw : v = w
    · rw [hvw, hhand] at hv
      cases hv
    · obtain ⟨h₁, -, -, h₄⟩ := hother v hvw
      rw [h₄] at hv
      rw [h₁]
      exact hr.handling v hv

/-- A step of a worker keeps the reservations, unless it completes a forked task astray. -/
theorem Reserved.workerStep {c : Thread.Choice n m} {th : Thread.State n m τ}
    (hr : Reserved fastJob s) (h : Inv fastJob hiPri s)
    (hs : Thread.workerStep (s.attr fastJob hiPri) s.thread w c = some th)
    (hgood : completesAstray s (.thread (.worker w c)) = false) :
    Reserved fastJob { s.record (.worker w c) with thread := th } := by
  have hfrees := workerStep_frees hs
  have hfork : (s.thread.worker w).isHandlingFork = true →
      ∃ t, (s.thread.worker w).taskToRun = some t ∧ fastJob t = true := by
    intro hh
    obtain ⟨t, ht, hacc⟩ := hr.handling w hh
    exact ⟨t, ht, (hr.accepted t w hacc).1⟩
  obtain ⟨hothers, hsearch, hmove⟩ :=
    slotMove_workerStep hs h.thread (hr.searches w) hfork hr.forked
  have hres : State.reservations { s.record (.worker w c) with thread := th } = s.reservations := by
    simp [State.reservations, State.record, accepts, hfrees.calls]
  have hacc : (State.record s (.worker w c)).accepted = s.accepted := by
    simp [State.record, accepts]
  generalize ho : completes s.thread (.worker w c) = o at hmove
  have hfreed := hfrees.freed
  rw [ho] at hfreed
  cases hmove with
  | keep hslot htask =>
    refine hr.frame (fun q => by rw [hres]) (funext fun u => by simp [hfreed u])
      (fun _ => id) hr.forked (fun v => ?_) (fun v => ?_) (fun v hv => ?_) hr.calls
      (by rw [hfrees.calls]; exact hr.immediate)
      (fun t v ht => .inl (hacc ▸ ht)) fun t v ht => hacc.symm ▸ ht
    · by_cases hv : v = w
      · exact hv ▸ hsearch
      · exact (hr.searches v).congr (hothers v hv)
    · by_cases hv : v = w
      · exact hv ▸ hslot
      · exact congrArg (·.2.2) (hothers v hv)
    · by_cases hvw : v = w
      · subst hvw
        rcases htask with htask | hnot
        · exact htask
        · rw [hnot] at hv
          cases hv
      · exact (still_eq (hothers v hvw)).1
  | take hnone hslot htask hsome =>
    exact hr.take hres (funext fun u => by simp [hfreed u]) rfl rfl hfrees.calls hacc hothers
      hsearch
      hnone hslot htask hsome
  | complete t hrun hslot htask =>
    have hnotfreed := (h.thread.only_worker hrun).2.1
    refine hr.complete hres (fun u => by simpa using hfreed u) rfl rfl hfrees.calls hacc hothers
      hsearch hrun hslot (h.reservations_once t) hnotfreed (fun hb => ?_) fun hb v => ?_
    · rcases Bool.or_eq_true_iff.1 hb with hh | hf
      · obtain ⟨u, hu, hmem⟩ := hr.handling w hh
        rw [hrun] at hu
        cases hu
        exact mem_reservations.2 (.inr (.inr hmem))
      · simp only [completesAstray, ho, hf, Bool.true_and, Bool.not_eq_false', assignedTo,
          Bool.or_eq_true, decide_eq_true_eq] at hgood
        rcases hgood with hmem | hmem
        · exact mem_reservations.2 (.inr (.inr hmem))
        · exact mem_reservations.2 (.inl ⟨_, hmem, rfl⟩)
    · obtain ⟨hh, hf⟩ := Bool.or_eq_false_iff.1 hb
      refine hr.not_mem_reservations h ho hf (fun x hx => ?_) v
      cases hx
      exact hh

end

end JLibScheduler.Submission
