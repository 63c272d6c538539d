import JLibScheduler.Lib.Lts
import JLibScheduler.Lib.Sums
import JLibScheduler.Sleep.Basic

/-!
# What a sleeping worker leaves behind

The drain of an inbox that ends before its batch is full has seen the inbox empty, so whatever is in
the inbox later was pushed after the flag was cleared, and its call sets the flag again before it
returns. This is the invariant `Inv`: once the loop is past the inbox of a lane, no task in it has
its flag cleared. A drain that ends with a full batch has not seen the inbox empty. It is harmless
when the owner gets one of the tasks it moved, since the loop then starts again, but thieves may
take them all first, and then the loop goes on to the wait (`inbox_left`).
-/

namespace JLibScheduler.Sleep

open JLibScheduler.Thread (Worker Attr Choice Pc batchSize)

section
variable {n m : ℕ} {τ : Type} {fastJob : τ → Bool} {s s' : State n m τ}

/-! ## The queues of a worker -/

@[simp] theorem inbox_setInbox (wk : Worker n m (τ × ℕ)) (hi hi' : Bool) (l : List (τ × ℕ)) :
    (wk.setInbox hi l).inbox hi' = if hi' = hi then l else wk.inbox hi' := by
  cases hi <;> cases hi' <;> rfl

@[simp] theorem inbox_setDeque (wk : Worker n m (τ × ℕ)) (hi hi' : Bool) (l : List (τ × ℕ)) :
    (wk.setDeque hi l).inbox hi' = wk.inbox hi' := by
  cases hi <;> cases hi' <;> rfl

@[simp] theorem hasQueuedWork_setInbox (wk : Worker n m (τ × ℕ)) (hi : Bool) (l : List (τ × ℕ)) :
    (wk.setInbox hi l).hasQueuedWork = wk.hasQueuedWork := by
  cases hi <;> rfl

@[simp] theorem hasQueuedWork_setDeque (wk : Worker n m (τ × ℕ)) (hi : Bool) (l : List (τ × ℕ)) :
    (wk.setDeque hi l).hasQueuedWork = wk.hasQueuedWork := by
  cases hi <;> rfl

@[simp] theorem pc_setInbox (wk : Worker n m (τ × ℕ)) (hi : Bool) (l : List (τ × ℕ)) :
    (wk.setInbox hi l).pc = wk.pc := by
  cases hi <;> rfl

@[simp] theorem pc_setDeque (wk : Worker n m (τ × ℕ)) (hi : Bool) (l : List (τ × ℕ)) :
    (wk.setDeque hi l).pc = wk.pc := by
  cases hi <;> rfl

/-! ## The invariant -/

/-- The worker holds its mutex in the last section. -/
def Wait.holds : Wait → Bool
  | .locked | .blocking => true
  | _ => false

/-- The sections of the loop that drain the inboxes, and the last one. -/
def drains : Pc n m → Bool
  | .inbox _ | .popBatch _ | .sleep => true
  | _ => false

/-- The loop is past the inbox of a lane, and the drain of it has seen it empty. -/
def past (s : State n m τ) (hi : Bool) : Bool :=
  match s.worker.pc with
  | .inbox hi' => hi && !hi'
  | .popBatch hi' => if hi = hi' then decide (s.count < batchSize) else hi
  | .sleep => true
  | _ => false

/-- The invariant. -/
structure Inv (s : State n m τ) : Prop where
  valid : ∀ hi, ∀ e ∈ s.worker.inbox hi, e.2 < s.calls.length
  mutex : s.calls.countP (· = .unlock) + (if s.wait.holds then 1 else 0) =
    if s.workerMutex then 1 else 0
  asleep : s.wait ≠ .awake → s.worker.pc = .sleep
  drained : ∀ hi, past s hi = true → missed s hi = false
  blocking : s.wait = .blocking → ∀ hi, ∀ e ∈ s.worker.inbox hi,
    s.calls[e.2]? = some .mark ∨ s.calls[e.2]? = some .lock
  blocked : s.wait = .blocked → NoneReturned s

/-- When the flag is clear, the tasks that a lane has missed are those whose calls have not come to
`MarkQueuedWork`. -/
theorem missed_eq_false {hi : Bool} : missed s hi = false ↔
    (s.worker.hasQueuedWork = false → ∀ e ∈ s.worker.inbox hi, s.calls[e.2]? = some .mark) := by
  simp [missed]

/-- Fewer tasks in the inbox of a lane, and the flag as it was. -/
theorem missed_mono {hi : Bool} (hcalls : s'.calls = s.calls)
    (hflag : s'.worker.hasQueuedWork = s.worker.hasQueuedWork)
    (hinbox : ∀ e ∈ s'.worker.inbox hi, e ∈ s.worker.inbox hi) (h : missed s hi = false) :
    missed s' hi = false := by
  rw [missed_eq_false] at h ⊢
  intro hf e he
  rw [hcalls]
  exact h (hflag ▸ hf) e (hinbox e he)

/-- The rule for a section of the loop outside of the wait: tasks only leave the inboxes, and a lane
that the loop is past is not missed. -/
theorem Inv.section (h : Inv s) (hcalls : s'.calls = s.calls) (hwait : s'.wait = s.wait)
    (hmutex : s'.workerMutex = s.workerMutex) (hpc : s.worker.pc ≠ .sleep)
    (hinbox : ∀ hi, ∀ e ∈ s'.worker.inbox hi, e ∈ s.worker.inbox hi)
    (hpast : ∀ hi, past s' hi = true → missed s' hi = false) : Inv s' := by
  have hawake : s.wait = .awake := by
    by_contra hne
    exact hpc (h.asleep hne)
  refine ⟨fun hi e he => ?_, ?_, fun hne => ?_, hpast, fun hb => ?_, fun hb => ?_⟩
  · rw [hcalls]
    exact h.valid hi e (hinbox hi e he)
  · rw [hcalls, hwait, hmutex]
    exact h.mutex
  · exact absurd (hwait.trans hawake) hne
  · rw [hwait, hawake] at hb
    cases hb
  · rw [hwait, hawake] at hb
    cases hb

theorem past_of_drains {hi : Bool} (h : drains s.worker.pc = false) : past s hi = false := by
  revert h
  unfold past drains
  cases s.worker.pc <;> simp

/-! ## The sections of the loop -/

/-- A section before the inboxes. -/
theorem localStep_before {wk wk' : Worker n m (τ × ℕ)} {c : Choice n m} {b : Bool}
    {assignedFiber : τ × ℕ → Option (Fin m)} (hpc : drains wk.pc = false)
    (hs : wk.localStep (attr fastJob) assignedFiber b c = some wk') :
    drains wk'.pc = false ∧ ∀ hi, ∀ e ∈ wk'.inbox hi, e ∈ wk.inbox hi := by
  revert hs
  fun_cases Worker.localStep (attr fastJob) assignedFiber b wk c with
  | case1 htop hrun =>
    rintro ⟨⟩
    refine ⟨?_, fun hi e he => he⟩
    cases wk.taskToRun with
    | none => rfl
    | some t =>
      simp only
      split
      · rfl
      · cases assignedFiber t <;> rfl
  | case4 =>
    rintro ⟨⟩
    refine ⟨?_, fun hi e he => he⟩
    cases wk.immediateTask <;> rfl
  | case5 hi b' hdrain t rest hinbox hb =>
    rintro ⟨⟩
    refine ⟨?_, fun hi' e he => ?_⟩
    · simpa using hpc
    · replace he : e ∈ (wk.setInbox hi rest).inbox hi' := he
      rw [inbox_setInbox] at he
      split at he
      next heq =>
        rw [heq, hinbox]
        exact .tail _ he
      next => exact he
  | case8 hi hreq hempty =>
    rintro ⟨⟩
    refine ⟨?_, fun hi e he => he⟩
    cases hi <;> rfl
  | case11 hi hpop =>
    rintro ⟨⟩
    unfold Worker.popBottom
    split
    · exact ⟨rfl, fun hi' e he => inbox_setDeque wk hi hi' _ ▸ he⟩
    · exact ⟨by cases hi <;> rfl, fun hi e he => he⟩
  | case13 hi b' hdrain | case14 hi b' hdrain | case15 hi b' hdrain | case16 hi hdrain
  | case17 hdrain | case18 hdrain =>
    rw [hdrain] at hpc
    cases hpc
  | case9 | case19 => simp
  | _ =>
    rintro ⟨⟩
    exact ⟨rfl, fun hi e he => he⟩

/-- A step of the drain of an inbox: a task is taken, or the drain ends, since the inbox is empty or
the batch is full. -/
theorem localStep_inbox {wk wk' : Worker n m (τ × ℕ)} {c : Choice n m} {hi : Bool}
    {assignedFiber : τ × ℕ → Option (Fin m)} (hpc : wk.pc = .inbox hi) (hc : c ≠ .wins false)
    (hs : wk.localStep (attr fastJob) assignedFiber false c = some wk') :
    (∃ e rest, wk.inbox hi = e :: rest ∧
      wk' = { wk.setInbox hi rest with batch := wk.batch ++ [e] }) ∨
    ((wk.inbox hi = [] ∨ batchSize ≤ wk.batch.length) ∧
      wk' = Worker.localStep.pushBatch wk hi) := by
  revert hs
  simp only [Worker.localStep, hpc]
  cases c with
  | wins b =>
    have hb : b = true := by
      cases b
      · exact absurd rfl hc
      · rfl
    subst hb
    simp only
    split
    next e rest hinbox =>
      split
      · rintro ⟨⟩
        exact .inl ⟨e, rest, hinbox, rfl⟩
      next hfull =>
        rintro ⟨⟩
        exact .inr ⟨.inr (by simpa using hfull), rfl⟩
    next hinbox =>
      rintro ⟨⟩
      exact .inr ⟨.inl hinbox, rfl⟩
  | _ => simp

/-- How the drain of an inbox ends: the batch was empty or does not fit, and the loop goes on, or it
is pushed to the deque. -/
theorem pushBatch_cases (wk : Worker n m (τ × ℕ)) (hi : Bool) :
    (∀ hi', (Worker.localStep.pushBatch wk hi).inbox hi' = wk.inbox hi') ∧
    (((Worker.localStep.pushBatch wk hi).pc = Thread.afterInbox hi ∧
        (wk.batch = [] ∨
          ¬ (wk.deque hi).length + wk.batch.length ≤ Thread.capacity)) ∨
      (Worker.localStep.pushBatch wk hi).pc = .popBatch hi) ∧
    (Worker.localStep.pushBatch wk hi).hasQueuedWork = wk.hasQueuedWork := by
  unfold Worker.localStep.pushBatch
  split
  next hempty => exact ⟨fun _ => rfl, .inl ⟨rfl, .inl (List.isEmpty_iff.1 hempty)⟩, rfl⟩
  next =>
    split
    · exact ⟨fun hi' => inbox_setDeque wk hi hi' _, .inr rfl, hasQueuedWork_setDeque wk hi _⟩
    next hfit => exact ⟨fun _ => rfl, .inl ⟨rfl, .inr hfit⟩, rfl⟩

/-- What the loop is past after the inbox of a lane: that lane, and those it was past before. -/
theorem past_of_afterInbox {hi hi' : Bool} (hpc : s.worker.pc = Thread.afterInbox hi)
    (h : past s hi' = true) : hi' = hi ∨ hi' = true ∧ hi = false := by
  revert h
  simp only [past, hpc, Thread.afterInbox]
  cases hi <;> cases hi' <;> simp

/-- The drain of an inbox keeps the invariant. -/
theorem Inv.inbox {hi : Bool} {c : Choice n m} {assignedFiber : Option (Fin m)} (h : Inv s)
    (hpc : s.worker.pc = .inbox hi)
    (hgood : leavesMissed s (.worker c assignedFiber : Act n m τ) = false)
    (hs : workerStep fastJob s c assignedFiber = some s') : Inv s' := by
  unfold workerStep at hs
  split at hs
  · cases hs
  next hc =>
    rw [not_or] at hc
    obtain ⟨wk, hwk, rfl⟩ := Option.map_eq_some_iff.1 hs
    simp only [hpc]
    have hother : ∀ hi', hi' = true ∧ hi = false → missed s hi' = false := by
      rintro hi' ⟨rfl, rfl⟩
      exact h.drained true (by simp [past, hpc])
    have hempty : s.worker.inbox hi = [] → missed s hi = false := by
      intro hnil
      simp [missed, hnil]
    rcases localStep_inbox hpc hc.1 hwk with ⟨e, rest, hinbox, rfl⟩ | ⟨hend, rfl⟩
    · have hsub : ∀ hi', ∀ x ∈ (s.worker.setInbox hi rest).inbox hi', x ∈ s.worker.inbox hi' := by
        intro hi' x hx
        rw [inbox_setInbox] at hx
        split at hx
        next heq =>
          rw [heq, hinbox]
          exact .tail _ hx
        next => exact hx
      refine h.section rfl rfl rfl hc.2 hsub fun hi' hpast => ?_
      refine missed_mono (s := s) rfl (hasQueuedWork_setInbox _ _ _) (hsub hi') (hother hi' ?_)
      simpa [past, hpc] using hpast
    · obtain ⟨hinbox, hcases, hflag⟩ := pushBatch_cases s.worker hi
      refine h.section rfl rfl rfl hc.2 (fun hi' e he => hinbox hi' ▸ he) fun hi' hpast => ?_
      refine missed_mono (s := s) rfl hflag (fun e he => hinbox hi' ▸ he) ?_
      rcases hcases with ⟨hpc', hwhy⟩ | hpc'
      · rcases past_of_afterInbox hpc' hpast with rfl | hhi'
        · rcases hend with hend | hend
          · exact hempty hend
          · rcases hwhy with hwhy | hwhy
            · rw [hwhy] at hend
              cases hend
            · simpa [leavesMissed, hpc, hend, hwhy] using hgood
        · exact hother hi' hhi'
      · by_cases hhi' : hi' = hi
        · subst hhi'
          simp only [past, hpc', if_true, decide_eq_true_eq] at hpast
          rcases hend with hend | hend
          · exact hempty hend
          · simp at hpast
            omega
        · refine hother hi' ?_
          simp only [past, hpc', if_neg hhi'] at hpast
          cases hi <;> cases hi' <;> simp_all

/-- The pop that follows the drain of an inbox keeps the invariant. -/
theorem Inv.popBatch {hi : Bool} {c : Choice n m} {assignedFiber : Option (Fin m)} (h : Inv s)
    (hpc : s.worker.pc = .popBatch hi)
    (hgood : leavesMissed s (.worker c assignedFiber : Act n m τ) = false)
    (hs : workerStep fastJob s c assignedFiber = some s') : Inv s' := by
  unfold workerStep at hs
  split at hs
  · cases hs
  next hc =>
    rw [not_or] at hc
    obtain ⟨wk, hwk, rfl⟩ := Option.map_eq_some_iff.1 hs
    simp only [hpc]
    cases c with
    | go =>
      simp only [Worker.localStep, hpc, Option.some.injEq] at hwk
      subst hwk
      unfold Worker.popBottom
      split
      · refine h.section rfl rfl rfl hc.2 (fun hi' e he => inbox_setDeque s.worker hi hi' _ ▸ he)
          fun hi' hpast => ?_
        simp [past] at hpast
      next hdeque =>
        refine h.section rfl rfl rfl hc.2 (fun hi' e he => he) fun hi' hpast => ?_
        refine missed_mono (s := s) rfl rfl (fun e he => he) ?_
        have hnil : s.worker.deque hi = [] := List.getLast?_eq_none_iff.1 hdeque
        rcases past_of_afterInbox (show _ = Thread.afterInbox hi from rfl) hpast with rfl | hhi'
        · by_cases hcount : s.count < batchSize
          · exact h.drained hi' (by simp [past, hpc, hcount])
          · rw [Nat.not_lt] at hcount
            simpa [leavesMissed, hpc, hnil, hcount] using hgood
        · obtain ⟨rfl, rfl⟩ := hhi'
          exact h.drained true (by simp [past, hpc])
    | _ => simp [Worker.localStep, hpc] at hwk

/-- A section of the loop keeps the invariant. -/
theorem Inv.worker {c : Choice n m} {assignedFiber : Option (Fin m)} (h : Inv s)
    (hgood : leavesMissed s (.worker c assignedFiber : Act n m τ) = false)
    (hs : workerStep fastJob s c assignedFiber = some s') : Inv s' := by
  cases hpc : s.worker.pc with
  | inbox hi => exact h.inbox hpc hgood hs
  | popBatch hi => exact h.popBatch hpc hgood hs
  | sleep => simp [workerStep, hpc] at hs
  | _ =>
    unfold workerStep at hs
    split at hs
    · cases hs
    next hc =>
      rw [not_or] at hc
      obtain ⟨wk, hwk, rfl⟩ := Option.map_eq_some_iff.1 hs
      obtain ⟨hpc', hinbox⟩ := localStep_before (by simp [hpc, drains]) hwk
      simp only [hpc]
      refine h.section rfl rfl rfl hc.2 hinbox fun hi' hpast => ?_
      rw [past_of_drains hpc'] at hpast
      cases hpast

/-- The end of the first section leaves the inboxes alone. -/
theorem ran_cases {wk wk' : Worker n m (τ × ℕ)} {e : τ × ℕ} {r : Ran}
    (hs : ran wk e r = some wk') :
    wk.pc ≠ .sleep ∧ drains wk'.pc = false ∧ ∀ hi, wk'.inbox hi = wk.inbox hi := by
  have hpush : ∀ hi, (wk.pushBottom e).inbox hi = wk.inbox hi := by
    intro hi
    unfold Worker.pushBottom
    split <;> rfl
  revert hs
  fun_cases ran wk e r with
  | case1 hpc =>
    rintro ⟨⟩
    exact ⟨by simp [hpc], rfl, fun _ => rfl⟩
  | case2 hpc =>
    rintro ⟨⟩
    unfold Worker.handBack
    split
    · exact ⟨by simp [hpc], rfl, fun _ => rfl⟩
    · exact ⟨by simp [hpc], rfl, hpush⟩
  | case3 b hpc =>
    rintro ⟨⟩
    cases b
    · exact ⟨by simp [hpc], rfl, fun _ => rfl⟩
    · exact ⟨by simp [hpc], rfl, hpush⟩
  | case4 f b hpc =>
    rintro ⟨⟩
    cases b
    · exact ⟨by simp [hpc], rfl, fun _ => rfl⟩
    · exact ⟨by simp [hpc], rfl, hpush⟩
  | case5 => simp

/-- A step that changes nothing but the worker, before the sections that drain the inboxes, keeps
the invariant. -/
theorem Inv.before {wk : Worker n m (τ × ℕ)} (h : Inv s) (hpc : s.worker.pc ≠ .sleep)
    (hinbox : ∀ hi, wk.inbox hi = s.worker.inbox hi)
    (hpast : ∀ hi, past { s with worker := wk } hi = false) :
    Inv { s with worker := wk } := by
  refine h.section rfl rfl rfl hpc (fun hi e he => hinbox hi ▸ he) fun hi hp => ?_
  rw [hpast hi] at hp
  cases hp

/-! ## The wait -/

/-- A step of the last section keeps the invariant. When the predicate is false, the flag is clear
and both inboxes have been seen empty. -/
theorem Inv.sleep (h : Inv s) (hs : sleepStep fastJob s = some s') : Inv s' := by
  have hmutex := h.mutex
  revert hs
  fun_cases sleepStep fastJob s with
  | case1 | case3 => simp
  | case2 hwait hpc hfree | case4 hwait hpc hfree =>
    rintro ⟨⟩
    refine ⟨h.valid, ?_, fun _ => hpc, h.drained, fun hb => (by cases hb), fun hb => by cases hb⟩
    simpa [hwait, hfree, Wait.holds] using hmutex
  | case5 hwait hpc wk hwk =>
    rintro ⟨⟩
    have hheld : s.workerMutex = true := by
      by_contra hfree
      simp [hwait, hfree, Wait.holds] at hmutex
    simp only [Worker.localStep, hpc, Option.ite_none_right_eq_some, Option.some.injEq] at hwk
    obtain ⟨-, rfl⟩ := hwk
    refine ⟨h.valid, ?_, fun hne => absurd rfl hne, fun hi hp => ?_, fun hb => (by cases hb),
      fun hb => by cases hb⟩
    · simpa [hwait, hheld, Wait.holds] using hmutex
    · rw [past_of_drains (by cases s.worker.running <;> rfl)] at hp
      cases hp
  | case6 hwait hpc hwk =>
    rintro ⟨⟩
    have hpast : ∀ hi, past s hi = true := fun hi => by simp [past, hpc]
    refine ⟨h.valid, ?_, fun _ => hpc, h.drained, fun _ hi e he => .inl ?_, fun hb => by cases hb⟩
    · simpa [hwait, Wait.holds] using hmutex
    · have hflag : s.worker.hasQueuedWork = false := by
        simp only [Worker.localStep, hpc, ite_eq_right_iff, reduceCtorEq, imp_false] at hwk
        simp at hwk
        exact hwk.2
      exact missed_eq_false.1 (h.drained hi (hpast hi)) hflag e he
  | case7 hwait hpc =>
    rintro ⟨⟩
    have hheld : s.workerMutex = true := by
      by_contra hfree
      simp [hwait, hfree, Wait.holds] at hmutex
    refine ⟨h.valid, ?_, fun _ => hpc, h.drained, fun hb => (by cases hb), fun _ hi e he hret => ?_⟩
    · simpa [hwait, hheld, Wait.holds] using hmutex
    · rcases h.blocking hwait hi e he with hmark | hlock
      · rw [hmark] at hret
        cases hret
      · rw [hlock] at hret
        cases hret
  | case8 => simp

/-! ## The calls -/

/-- A call takes a step: what becomes of the tasks a lane has missed. -/
theorem missed_set {j : ℕ} {hi : Bool} {st st' : Stage} (hst : s.calls[j]? = some st)
    (hmark : st ≠ .mark) (hcalls : s'.calls = s.calls.set j st') (hworker : s'.worker = s.worker)
    (h : missed s hi = false) : missed s' hi = false := by
  rw [missed_eq_false] at h ⊢
  rw [hworker, hcalls]
  intro hf e he
  have hne : e.2 ≠ j := by
    intro heq
    have := h hf e he
    rw [heq, hst] at this
    exact hmark (Option.some.inj this)
  rw [List.getElem?_set_ne (Ne.symm hne)]
  exact h hf e he

/-- A call that keeps its place among those a sleeping worker may have tasks of. -/
theorem forall_set {j : ℕ} {st st' : Stage} {P : Option Stage → Prop} (hst : s.calls[j]? = some st)
    (hkeep : P (some st) → P (some st'))
    (h : ∀ hi, ∀ e ∈ s.worker.inbox hi, P s.calls[e.2]?) :
    ∀ hi, ∀ e ∈ s.worker.inbox hi, P (s.calls.set j st')[e.2]? := by
  intro hi e he
  have := h hi e he
  by_cases heq : j = e.2
  · subst heq
    rw [hst] at this
    rw [List.getElem?_set_self (List.getElem?_eq_some_iff.1 hst).1]
    exact hkeep this
  · rwa [List.getElem?_set_ne heq]

/-- A step of a call keeps the invariant. -/
theorem Inv.call {j : ℕ} (h : Inv s) (hs : (s.calls[j]?).bind (callStep s j) = some s') :
    Inv s' := by
  obtain ⟨st, hst, hs⟩ := Option.bind_eq_some_iff.1 hs
  have hmutex := h.mutex
  have hcount : ∀ st', (s.calls.set j st').countP (· = .unlock) + (if st = .unlock then 1 else 0) =
      s.calls.countP (· = .unlock) + if st' = .unlock then 1 else 0 := by
    intro st'
    simpa using Sums.countP_set (p := fun x : Stage => decide (x = .unlock)) (b := st') hst
  have hvalid : ∀ st' hi, ∀ e ∈ s.worker.inbox hi, e.2 < (s.calls.set j st').length := by
    intro st' hi e he
    rw [List.length_set]
    exact h.valid hi e he
  cases st with
  | mark =>
    cases hs
    have := hcount .lock
    refine ⟨hvalid .lock, ?_, h.asleep, fun hi _ => by simp [missed], fun hb => ?_, fun hb => ?_⟩
    · simp_all
    · exact forall_set (P := fun o => o = some .mark ∨ o = some .lock) hst (fun _ => .inr rfl)
        (h.blocking hb)
    · exact forall_set (P := fun o => o ≠ some .returned) hst (fun _ hret => by cases hret)
        (h.blocked hb)
  | lock =>
    simp only [callStep] at hs
    split at hs <;> cases hs
    next hfree =>
      have := hcount .unlock
      refine ⟨hvalid .unlock, ?_, h.asleep, fun hi hp => ?_, fun hb => ?_, fun hb => ?_⟩
      · simp_all
      · exact missed_set hst (by simp) rfl rfl (h.drained hi hp)
      · have hb : s.wait = .blocking := hb
        simp [hb, hfree, Wait.holds] at hmutex
      · exact forall_set (P := fun o => o ≠ some .returned) hst (fun _ hret => by cases hret)
          (h.blocked hb)
  | unlock =>
    cases hs
    have := hcount .notify
    have hpos : 1 ≤ s.calls.countP (· = .unlock) :=
      List.countP_pos_iff.2 ⟨.unlock, List.mem_of_getElem? hst, by simp⟩
    have hheld : s.workerMutex = true := by
      by_contra hfree
      simp only [hfree, if_false] at hmutex
      omega
    have hholds : s.wait.holds = false := by
      by_contra hholds
      simp only [Bool.not_eq_false] at hholds
      simp only [hheld, hholds, if_true] at hmutex
      omega
    refine ⟨hvalid .notify, ?_, h.asleep, fun hi hp => ?_, fun hb => ?_, fun hb => ?_⟩
    · simp only [reduceCtorEq, if_true, if_false] at this
      simp only [hholds, hheld, Bool.false_eq_true, if_true, if_false] at hmutex ⊢
      omega
    · exact missed_set hst (by simp) rfl rfl (h.drained hi hp)
    · have hb : s.wait = .blocking := hb
      rw [hb] at hholds
      cases hholds
    · exact forall_set (P := fun o => o ≠ some .returned) hst (fun _ hret => by cases hret)
        (h.blocked hb)
  | notify =>
    cases hs
    have := hcount .returned
    refine ⟨hvalid .returned, ?_, fun hne => h.asleep fun heq => ?_, fun hi hp => ?_, fun hb => ?_,
      fun hb => ?_⟩
    · cases hw : s.wait <;> simp_all [Wait.holds]
    · simp [heq] at hne
    · exact missed_set hst (by simp) rfl rfl (h.drained hi hp)
    · have hb : s.wait = .blocking := by
        cases hw : s.wait <;> simp_all
      exact forall_set (P := fun o => o = some .mark ∨ o = some .lock) hst
        (fun hor => by rcases hor with hor | hor <;> cases hor) (h.blocking hb)
    · cases hw : s.wait <;> simp_all
  | returned => cases hs

/-- A new call keeps the invariant, when the tasks it adds to an inbox are its own. -/
theorem Inv.newCall {wk : Worker n m (τ × ℕ)} {st : Stage} (h : Inv s) (hst : st ≠ .unlock)
    (hpc : wk.pc = s.worker.pc) (hflag : wk.hasQueuedWork = s.worker.hasQueuedWork)
    (hinbox : ∀ hi, ∀ e ∈ wk.inbox hi, e ∈ s.worker.inbox hi ∨ e.2 = s.calls.length ∧ st = .mark) :
    Inv { s with worker := wk, calls := s.calls ++ [st] } := by
  have hold : ∀ hi, ∀ e ∈ s.worker.inbox hi, (s.calls ++ [st])[e.2]? = s.calls[e.2]? :=
    fun hi e he => List.getElem?_append_left (h.valid hi e he)
  have hnew : (s.calls ++ [st])[s.calls.length]? = some st := by simp
  refine ⟨fun hi e he => ?_, ?_, fun hne => hpc.trans (h.asleep hne), fun hi hp => ?_,
    fun hb hi e he => ?_, fun hb hi e he => ?_⟩
  · rw [List.length_append, List.length_singleton]
    rcases hinbox hi e he with he | ⟨he, -⟩
    · have := h.valid hi e he
      omega
    · omega
  · simpa [List.countP_append, hst] using h.mutex
  · have hp : past s hi = true := by
      simpa only [past, hpc] using hp
    have hmissed := missed_eq_false.1 (h.drained hi hp)
    rw [missed_eq_false]
    intro hf e he
    rcases hinbox hi e he with he | ⟨hidx, rfl⟩
    · exact (hold hi e he).trans (hmissed (hflag ▸ hf) e he)
    · exact hidx ▸ hnew
  · rcases hinbox hi e he with he | ⟨hidx, rfl⟩
    · rw [hold hi e he]
      exact h.blocking hb hi e he
    · exact .inl (hidx ▸ hnew)
  · rcases hinbox hi e he with he | ⟨hidx, rfl⟩
    · rw [hold hi e he]
      exact h.blocked hb hi e he
    · rw [hidx, hnew]
      exact fun hret => by cases hret

/-! ## Runs -/

/-- Every step keeps the invariant, unless a full batch leaves tasks behind. -/
theorem Inv.step {a : Act n m τ} (h : Inv s) (hgood : leavesMissed s a = false)
    (hs : Sleep.step fastJob s a = some s') : Inv s' := by
  cases a with
  | worker c assignedFiber => exact h.worker hgood hs
  | ran r =>
    obtain ⟨e, -, hs⟩ := Option.bind_eq_some_iff.1 hs
    obtain ⟨wk, hwk, rfl⟩ := Option.map_eq_some_iff.1 hs
    obtain ⟨hpc, hpc', hinbox⟩ := ran_cases hwk
    exact h.before hpc hinbox fun hi => past_of_drains hpc'
  | requeue =>
    simp only [Sleep.step] at hs
    split at hs <;> cases hs
    next hpc hbatch => exact h.before (by simp [hpc]) (fun _ => rfl) fun hi => by simp [past, hpc]
  | stolen t =>
    simp only [Sleep.step] at hs
    split at hs <;> cases hs
    next hpc =>
      refine h.before (by simp [hpc]) ?_ ?_
      · cases t <;> exact fun _ => rfl
      · cases t <;> simp [past]
  | sleep => exact h.sleep hs
  | submit hi ts =>
    cases hs
    refine h.newCall (by simp) (pc_setInbox _ _ _) (hasQueuedWork_setInbox _ _ _) fun hi' e he => ?_
    rw [inbox_setInbox] at he
    split at he
    next heq =>
      subst heq
      rcases List.mem_append.1 he with he | he
      · exact .inl he
      · obtain ⟨t, -, rfl⟩ := List.mem_map.1 he
        exact .inr ⟨rfl, rfl⟩
    next => exact .inl he
  | call j => exact h.call hs
  | setImmediate t =>
    cases hs
    exact h.newCall (by simp) rfl rfl fun _ _ => .inl
  | wake =>
    simp only [Sleep.step] at hs
    split at hs <;> cases hs
    next hwait =>
      refine ⟨h.valid, ?_, fun _ => h.asleep (by simp [hwait]), h.drained, fun hb => (by cases hb),
        fun hb => by cases hb⟩
      simpa [hwait, Wait.holds] using h.mutex
  | steal hi =>
    simp only [Sleep.step] at hs
    split at hs <;> cases hs
    next e rest hdeque =>
      have hinbox : ∀ hi', (s.worker.setDeque hi rest).inbox hi' = s.worker.inbox hi' :=
        fun hi' => inbox_setDeque _ _ _ _
      refine ⟨fun hi' => hinbox hi' ▸ h.valid hi', h.mutex,
        fun hne => (pc_setDeque _ _ _).trans (h.asleep hne), fun hi' hp => ?_,
        fun hb hi' => hinbox hi' ▸ h.blocking hb hi', fun hb hi' => ?_⟩
      · refine missed_mono (s := s) rfl (hasQueuedWork_setDeque _ _ _)
          (fun e he => hinbox hi' ▸ he) (h.drained hi' ?_)
        simpa only [past, pc_setDeque] using hp
      · exact hinbox hi' ▸ h.blocked hb hi'

/-- The invariant holds at the start. -/
theorem Inv.init : Inv (State.init : State n m τ) where
  valid hi e he := by cases hi <;> cases he
  mutex := rfl
  asleep hne := absurd rfl hne
  drained hi hp := by cases hp
  blocking hb := by cases hb
  blocked hb := by cases hb

/-- A worker that is blocked in `cv.wait` has no task in its inboxes whose submission has returned,
as long as no drain of an inbox whose batch got full comes to nothing. -/
theorem inbox_returned {as : List (Act n m τ)}
    (hrun : Lts.run (Sleep.step fastJob) State.init as = some s)
    (hgood : ∀ p ∈ Lts.visits (Sleep.step fastJob) State.init as, leavesMissed p.1 p.2 = false)
    (hblocked : s.wait = .blocked) : NoneReturned s :=
  (Lts.run_inv_of (I := Inv) (G := fun s a => leavesMissed s a = false) Inv.step Inv.init hrun
    hgood).blocked hblocked

end

/-- The worker finds nothing to do and comes to the inboxes. -/
def findsNothing : List (Act 1 0 Unit) :=
  [.worker .go none, .worker .go none, .worker .go none, .worker .go none,
    .worker (.probes []) none, .stolen none]

/-- A task is pushed and its flag stored while the worker is about to block. -/
def blocksRun : List (Act 1 0 Unit) :=
  findsNothing ++ [.worker (.wins true) none, .worker (.wins true) none, .sleep, .sleep,
    .submit false [()], .call 0, .sleep]

theorem inbox_returned_blocksRun : ∃ s : State 1 0 Unit,
    Lts.run (step fun _ => true) State.init blocksRun = some s ∧ s.worker.inbox false = [((), 0)] ∧
      s.wait = .blocked ∧ NoneReturned s := by
  refine ⟨(Lts.run _ _ blocksRun).get (by decide), (Option.some_get _).symm, by decide,
    by decide, ?_⟩
  exact inbox_returned (Option.some_get (by decide)).symm (by decide) (by decide)

/-- `PushBatch` of 65 tasks has returned; the worker moves 64 of them to its deque, and thieves take
these before it pops one. -/
def leavesRun : List (Act 1 0 Unit) :=
  [.submit false (.replicate 65 ()), .call 0, .call 0, .call 0, .call 0] ++ findsNothing ++
    .worker (.wins true) none :: .replicate 65 (.worker (.wins true) none) ++
    .replicate 64 (.steal false) ++ [.worker .go none, .sleep, .sleep, .sleep]

theorem inbox_left : ¬ ∀ (as : List (Act 1 0 Unit)) (s : State 1 0 Unit),
    Lts.run (step fun _ => true) State.init as = some s → s.wait = .blocked → NoneReturned s := by
  intro hall
  have := hall leavesRun _ (Option.some_get (by decide +kernel)).symm (by decide +kernel)
  exact absurd this (by decide +kernel)

end JLibScheduler.Sleep
