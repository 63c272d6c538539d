import JLibScheduler.Lib.Lts
import JLibScheduler.Submission.Accounts

/-!
# The count of pending tasks

`WaitAll` returns when `pendingTasks` is not positive. In runs that hand no task back the count is
the number of tasks that were counted and not completed, with one more for each `PushFork` that got
to its own `fetch_add` (`Inv`). So it covers the accepted tasks that have not completed as long as
no task completes before its `PushLocal`, which pushes it first, has counted it
(`pendingTasks_covers`): a task that does hides another one (`pendingTasks_uncovered`). And it
drains to zero as long as no `PushFork` gets past its tests (`pendingTasks_drains`): each of them
leaves one behind (`pendingTasks_left`).

The two rules `Inv.begin` and `Inv.move` reduce a step of a submission call to what it does to one
task.
-/

namespace JLibScheduler.Submission

open JLibScheduler.Thread (Attr)

/-! ## The invariant -/

section
variable {n m : ℕ} {τ : Type} {attr : Attr τ} {th th' : Thread.State n m τ} {u : τ}

/-- `PushLocal` refuses the task and changes nothing, or pushes it to an inbox. -/
theorem pushLocal_eq_some {cpuaffinity : UInt8} {target : Fin n} {taken : Bool}
    (h : pushLocal attr th u cpuaffinity target = some (taken, th')) :
    taken = false ∧ th' = th ∨ taken = true ∧ ∃ w hi, th' = th.enqueue w hi u := by
  unfold pushLocal at h
  split at h
  next w hw =>
    split at h <;> cases h
    · exact .inl ⟨rfl, rfl⟩
    · exact .inr ⟨rfl, w, false, rfl⟩
  next =>
    obtain ⟨th₁, hth₁, heq⟩ := Option.map_eq_some_iff.1 h
    cases heq
    obtain ⟨-, rfl⟩ := Thread.State.requeue_eq_some.1 hth₁
    exact .inr ⟨rfl, target, attr.hiPri u, rfl⟩

theorem freed_pushLocal {cpuaffinity : UInt8} {target : Fin n} {taken : Bool}
    (h : pushLocal attr th u cpuaffinity target = some (taken, th')) :
    th'.freed = th.freed := by
  rcases pushLocal_eq_some h with ⟨-, rfl⟩ | ⟨-, w, hi, rfl⟩ <;> rfl

/-- A submission call changes the queues and flags of the workers and what is submitted, and nothing
else of the worker loops. -/
structure Queues (th th' : Thread.State n m τ) : Prop where
  fiber : th'.fiber = th.fiber
  freeFibers : th'.freeFibers = th.freeFibers
  assignedFiber : th'.assignedFiber = th.assignedFiber
  freed : th'.freed = th.freed
  started : th'.started = th.started
  calls : th'.calls = th.calls
  control : ∀ w, (th'.worker w).control = (th.worker w).control

theorem queues_enqueue (th : Thread.State n m τ) (w : Fin n) (hi : Bool) (u : τ) :
    Queues th (th.enqueue w hi u) :=
  ⟨rfl, rfl, rfl, rfl, rfl, rfl, th.control_enqueue w hi u⟩

variable [DecidableEq τ]

theorem queues_submit (th : Thread.State n m τ) (ts : List τ) : Queues th (submit th ts) :=
  ⟨rfl, rfl, rfl, rfl, rfl, rfl, fun _ => rfl⟩

/-- A batch in the inbox makes one reference for each of its tasks. -/
theorem refs_enqueueAll (th : Thread.State n m τ) (w : Fin n) (ts : List τ) (t : τ) :
    (enqueueAll th w ts).refs t = th.refs t + ts.count t := by
  have := th.refs_modifyWorker (t := t) w fun wk =>
    { wk.setInbox false (wk.inbox false ++ ts) with hasQueuedWork := true }
  rw [enqueueAll]
  grind [Thread.Worker.refs, Thread.Worker.places, Thread.Worker.setInbox, Thread.Worker.inbox]

/-- What the submission of new tasks adds to the submitted tasks. -/
theorem toNat_submitted_submit {ts : List τ} (hnodup : ts.Nodup)
    (hnew : ∀ u ∈ ts, th.submitted u = false) (t : τ) :
    ((submit th ts).submitted t).toNat = (th.submitted t).toNat + ts.count t := by
  by_cases ht : t ∈ ts
  · simp [submit, ht, hnew t ht, List.count_eq_one_of_mem hnodup ht]
  · simp [submit, ht, List.count_eq_zero_of_not_mem ht]

end

section
variable {n m : ℕ} {τ : Type} [DecidableEq τ]

/-- The invariant of runs that hand no task back. -/
structure Inv (fastJob hiPri : τ → Bool) (s : State n m τ) : Prop where
  thread : Thread.Inv (s.attr fastJob hiPri) s.thread
  refs : ∀ t, s.thread.refs t + (s.calls.map (Call.inBatch t)).sum +
    (s.calls.map (Call.forking t)).sum + (s.thread.freed t).toNat ≤ (s.thread.submitted t).toNat
  counted : ∀ t, s.counted.count t + (s.calls.map (Call.awaiting t)).sum +
    (s.calls.map (Call.forking t)).sum + (s.thread.calls.map (beforeCount t)).sum ≤
      (s.thread.submitted t).toNat
  landed : ∀ t, s.thread.refs t + (s.thread.freed t).toNat ≤
    s.counted.count t + (s.calls.map (Call.awaiting t)).sum +
      (s.thread.calls.map (beforeCount t)).sum
  accepted : ∀ t, (s.accepted.map Prod.fst).count t + (s.calls.map (Call.inBatch t)).sum +
    (s.thread.calls.map (beforeSlot t)).sum = s.counted.count t
  completed : ∀ t, s.completed.count t = (s.thread.freed t).toNat
  pending : s.pendingTasks + s.completed.length = s.counted.length + s.forked

variable {fastJob hiPri : τ → Bool} {s s' : State n m τ}

/-- A step of the worker loops keeps the invariant, unless it hands a task back. -/
theorem Inv.threadStep {a : Thread.Act n m τ} {th : Thread.State n m τ} (h : Inv fastJob hiPri s)
    (ha : ∀ t c v, a ≠ .push t c v) (hgood : Thread.handsBack s.thread a = false)
    (hs : Thread.step (s.attr fastJob hiPri) s.thread a = some th) :
    Inv fastJob hiPri { s.record a with thread := th } := by
  have hc := h.thread.conserves hgood hs
  have hm := Moves.step hs ha hc
  refine ⟨h.thread.step hgood hs, fun t => ?_, fun t => ?_, fun t => ?_, fun t => ?_,
    fun t => ?_, ?_⟩
  · have := h.refs t
    have := hc t
    simp only [State.record]
    omega
  · have := h.counted t
    have := hm.count t
    simp only [State.record, List.count_append]
    omega
  · have := h.landed t
    have := hm.landed t
    simp only [State.record, List.count_append]
    omega
  · have := h.accepted t
    have := hm.slot t
    simp only [State.record, List.map_append, List.count_append]
    omega
  · -- a task that completes was not freed
    have hfreed := h.completed t
    simp only [State.record, List.count_append, hm.freed t, hfreed]
    by_cases ht : completes s.thread a = some t
    · have := hm.completed t ht
      have := h.thread.refs_le t
      have hnot : s.thread.freed t = false := by
        cases hf : s.thread.freed t with
        | false => rfl
        | true => rw [hf, Bool.toNat_true] at this; omega
      simp [ht, hnot]
    · cases ho : completes s.thread a with
      | none => simp
      | some u =>
        rw [ho] at ht
        have hut : u ≠ t := fun heq => ht (congrArg some heq)
        simp [hut]
  · have := h.pending
    simp only [State.record, List.length_append]
    push_cast
    omega

/-- The invariant of the worker loops after a step of a submission call. -/
theorem Inv.thread_of_queues {th : Thread.State n m τ} {isForked : τ → Bool}
    (h : Inv fastJob hiPri s) (hq : Queues s.thread th)
    (hrefs : ∀ t, th.refs t + (th.freed t).toNat ≤ (th.submitted t).toNat) :
    Thread.Inv ⟨fastJob, hiPri, isForked⟩ th :=
  (h.thread.of_quiet (.of_control hq.fiber hq.freeFibers hq.assignedFiber hq.freed hq.started
    hq.calls hq.control) hrefs).of_fastJob rfl

/-- The rule for the first step of a call: it submits `ts`, counts `cs` and goes on as `k`. -/
theorem Inv.begin {ts : List τ} (h : Inv fastJob hiPri s) (cs : List τ) (k : Call n τ)
    (th : Thread.State n m τ) (hq : Queues s.thread th) (hnodup : ts.Nodup)
    (hnew : ∀ u ∈ ts, s.thread.submitted u = false)
    (hsub : th.submitted = (submit s.thread ts).submitted)
    (hrefs : ∀ t, th.refs t + k.inBatch t + k.forking t ≤ s.thread.refs t + ts.count t)
    (hcount : ∀ t, cs.count t + k.awaiting t + k.forking t ≤ ts.count t)
    (hlanded : ∀ t, th.refs t ≤ s.thread.refs t + cs.count t + k.awaiting t)
    (haccepted : ∀ t, k.inBatch t = cs.count t) :
    Inv fastJob hiPri { s with
      thread := th
      pendingTasks := s.pendingTasks + cs.length
      counted := s.counted ++ cs
      calls := s.calls ++ [k] } := by
  have hsub' : ∀ t, (th.submitted t).toNat = (s.thread.submitted t).toNat + ts.count t :=
    fun t => (congrArg Bool.toNat (congrFun hsub t)).trans (toNat_submitted_submit hnodup hnew t)
  have hsum : ∀ φ : Call n τ → ℕ, ((s.calls ++ [k]).map φ).sum = (s.calls.map φ).sum + φ k := by
    simp
  have hbound : ∀ t, th.refs t + ((s.calls ++ [k]).map (Call.inBatch t)).sum +
      ((s.calls ++ [k]).map (Call.forking t)).sum + (th.freed t).toNat ≤
        (th.submitted t).toNat := by
    intro t
    have := h.refs t
    have := hrefs t
    rw [hq.freed, hsub' t, hsum, hsum]
    omega
  refine ⟨h.thread_of_queues hq fun t => ?_, hbound, fun t => ?_, fun t => ?_, fun t => ?_,
    fun t => ?_, ?_⟩
  · have := hbound t
    dsimp only at this ⊢
    omega
  · have := h.counted t
    have := hcount t
    simp only [hq.calls, hsub' t, hsum, List.count_append]
    omega
  · have := h.landed t
    have := hlanded t
    simp only [hq.calls, hq.freed, hsum, List.count_append]
    omega
  · have := h.accepted t
    have := haccepted t
    simp only [hq.calls, hsum, List.count_append]
    omega
  · rw [h.completed t, hq.freed]
  · have := h.pending
    simp only [List.length_append]
    push_cast
    omega

/-- The rule for another step of a call: it counts `cs`, accepts `acc`, and goes on from `k` as
`k'`. -/
theorem Inv.move {j : ℕ} {k : Call n τ} (h : Inv fastJob hiPri s) (k' : Call n τ)
    (th : Thread.State n m τ) (cs : List τ) (acc : List (τ × Option (Fin n))) (forks : ℕ)
    (isForked : τ → Bool) (hk : s.calls[j]? = some k) (hq : Queues s.thread th)
    (hsub : th.submitted = s.thread.submitted)
    (hrefs : ∀ t, th.refs t + k'.inBatch t + k'.forking t ≤
      s.thread.refs t + k.inBatch t + k.forking t)
    (hcount : ∀ t, cs.count t + k'.awaiting t + k'.forking t ≤ k.awaiting t + k.forking t)
    (hlanded : ∀ t, th.refs t + k.awaiting t ≤
      s.thread.refs t + cs.count t + k'.awaiting t + k.inBatch t)
    (haccepted : ∀ t, (acc.map Prod.fst).count t + k'.inBatch t = cs.count t + k.inBatch t) :
    Inv fastJob hiPri { s with
      thread := th
      isForked := isForked
      pendingTasks := s.pendingTasks + cs.length + forks
      counted := s.counted ++ cs
      forked := s.forked + forks
      accepted := s.accepted ++ acc
      calls := s.calls.set j k' } := by
  have hset : ∀ φ : Call n τ → ℕ, ((s.calls.set j k').map φ).sum + φ k =
      (s.calls.map φ).sum + φ k' := fun φ => Sums.map_set hk
  have hle : ∀ φ : Call n τ → ℕ, φ k ≤ (s.calls.map φ).sum :=
    fun φ => Sums.le_map (List.mem_of_getElem? hk)
  have hbound : ∀ t, th.refs t + ((s.calls.set j k').map (Call.inBatch t)).sum +
      ((s.calls.set j k').map (Call.forking t)).sum + (th.freed t).toNat ≤
        (th.submitted t).toNat := by
    intro t
    have := h.refs t
    have := hrefs t
    have := hset (Call.inBatch t)
    have := hset (Call.forking t)
    rw [hq.freed, hsub]
    omega
  refine ⟨h.thread_of_queues hq fun t => ?_, hbound, fun t => ?_, fun t => ?_, fun t => ?_,
    fun t => ?_, ?_⟩
  · have := hbound t
    dsimp only at this ⊢
    omega
  · have := h.counted t
    have := hcount t
    have := hset (Call.awaiting t)
    have := hset (Call.forking t)
    simp only [hq.calls, hsub, List.count_append]
    omega
  · -- the tasks of a batch were counted, and none of them has a reference
    have := h.landed t
    have := hlanded t
    have := h.refs t
    have := h.accepted t
    have := (s.thread.submitted t).toNat_le
    have := hset (Call.awaiting t)
    have := hle (Call.inBatch t)
    simp only [hq.calls, hq.freed, List.count_append]
    omega
  · have := h.accepted t
    have := haccepted t
    have := hset (Call.inBatch t)
    simp only [hq.calls, List.count_append, List.map_append]
    omega
  · rw [h.completed t, hq.freed]
  · have := h.pending
    simp only [List.length_append]
    push_cast
    omega

/-- `Push` keeps the invariant. -/
theorem Inv.push {u : τ} {cpuaffinity : UInt8} {target : Fin n} (h : Inv fastJob hiPri s)
    (hs : step fastJob hiPri s (.push u cpuaffinity target) = some s') : Inv fastJob hiPri s' := by
  simp only [step] at hs
  split at hs
  · cases hs
  next hnew =>
    obtain ⟨⟨taken, th⟩, hpush, rfl⟩ := Option.map_eq_some_iff.1 hs
    have hnew' : ∀ t ∈ [u], s.thread.submitted t = false := by simpa using hnew
    rcases pushLocal_eq_some hpush with ⟨rfl, rfl⟩ | ⟨rfl, w, hi, rfl⟩
    · have := h.begin [] .done _ (queues_submit s.thread [u]) (List.nodup_singleton u)
        hnew' rfl (fun t => Nat.le_add_right _ _) (fun t => Nat.zero_le _) (fun t => Nat.le_refl _)
        fun t => rfl
      simpa using this
    · have hrefs := fun t => (submit s.thread [u]).refs_enqueue (t := t) w hi u
      have := h.begin [] (.count u none) ((submit s.thread [u]).enqueue w hi u)
        ⟨rfl, rfl, rfl, rfl, rfl, rfl, (submit s.thread [u]).control_enqueue w hi u⟩
        (List.nodup_singleton u) hnew' rfl (fun t => ?_) (fun t => ?_) (fun t => ?_) fun t => rfl
      · simpa using this
      · have := hrefs t
        simp only [Call.inBatch, Call.forking, List.count_singleton, beq_iff_eq]
        exact Nat.le_of_eq this
      · simp [Call.awaiting, Call.forking, List.count_singleton]
      · exact Nat.le_of_eq (hrefs t)

/-- The first step of `PushBatch` keeps the invariant. -/
theorem Inv.pushBatch {ts : List τ} {cpuaffinity : UInt8} (h : Inv fastJob hiPri s)
    (hs : step fastJob hiPri s (.pushBatch ts cpuaffinity) = some s') : Inv fastJob hiPri s' := by
  simp only [step] at hs
  split at hs
  · cases hs
  next hts =>
    cases hs
    simp only [not_or, not_not, List.any_eq_true, not_exists, not_and, Bool.not_eq_true] at hts
    exact h.begin _ _ _ (queues_submit s.thread ts) hts.2.1 hts.2.2 rfl (fun t => Nat.le_refl _)
      (fun t => Nat.le_refl _) (fun t => Nat.le_add_right _ _) fun t => rfl

/-- The first step of `PushFork` keeps the invariant. -/
theorem Inv.pushFork {u : τ} {w : Fin n} {isLocalPush : Bool} (h : Inv fastJob hiPri s)
    (hs : step fastJob hiPri s (.pushFork u w isLocalPush) = some s') : Inv fastJob hiPri s' := by
  simp only [step] at hs
  split at hs
  · cases hs
  next hnew =>
    cases hs
    rw [not_or] at hnew
    have := h.begin [] (.fork u w isLocalPush (if isLocalPush then .count else .loadFlag)) _
      (queues_submit s.thread [u]) (List.nodup_singleton u) (by simpa using hnew.1) rfl
      (fun t => ?_) (fun t => ?_) (fun t => ?_) fun t => rfl
    · simpa using this
    · simp only [Call.inBatch, Call.forking, List.count_singleton, beq_iff_eq]
      exact Nat.le_refl _
    · simp [Call.awaiting, Call.forking, List.count_singleton]
    · exact Nat.le_refl _

/-- A step of a submission call keeps the invariant. -/
theorem Inv.callStep {j : ℕ} {target : Fin n} {k k' : Call n τ} {s₁ : State n m τ}
    (h : Inv fastJob hiPri s) (hk : s.calls[j]? = some k)
    (hs : Submission.callStep (s.attr fastJob hiPri) s target k = some (s₁, k')) :
    Inv fastJob hiPri { s₁ with calls := s₁.calls.set j k' } := by
  have hsame : Queues s.thread s.thread := ⟨rfl, rfl, rfl, rfl, rfl, rfl, fun _ => rfl⟩
  cases k with
  | done => cases hs
  | count u reserved =>
    cases hs
    have := h.move .done s.thread [u] [(u, reserved)] 0 s.isForked hk hsame rfl
      (fun t => Nat.le_refl _) (fun t => ?_) (fun t => ?_) fun t => rfl
    · simpa using this
    · simp [Call.awaiting, Call.forking, List.count_singleton]
    · simp [Call.awaiting, Call.inBatch, List.count_singleton]
  | batch ts cpuaffinity =>
    simp only [Submission.callStep] at hs
    split at hs
    · cases hs
      have := h.move .done (enqueueAll s.thread target ts) []
        (ts.map fun t => (t, none)) 0 s.isForked hk
        ⟨rfl, rfl, rfl, rfl, rfl, rfl, control_enqueueAll s.thread target ts⟩ rfl (fun t => ?_)
        (fun t => Nat.le_refl _) (fun t => ?_) (fun t => ?_)
      · simpa using this
      · rw [refs_enqueueAll]
        exact Nat.le_refl _
      · rw [refs_enqueueAll]
        exact Nat.le_refl _
      · simp [Call.inBatch, Function.comp_def]
    · cases hs
  | fork u w isLocalPush pc =>
    cases pc with
    | loadFlag =>
      cases hs
      have := h.move (if (s.thread.worker w).immediateCoreInUse then .done
        else .fork u w isLocalPush .storeFlag) s.thread [] [] 0 s.isForked hk hsame rfl
        (fun t => ?_) (fun t => ?_) (fun t => ?_) fun t => ?_
      · simpa using this
      all_goals split <;> simp [Call.inBatch, Call.forking, Call.awaiting]
    | storeFlag =>
      cases hs
      have hrefs : ∀ t, (s.thread.modifyWorker w fun wk =>
          { wk with immediateCoreInUse := true }).refs t = s.thread.refs t :=
        fun t => Thread.State.refs_modifyWorker_eq rfl
      have := h.move (.fork u w isLocalPush .count) (s.thread.modifyWorker w fun wk =>
        { wk with immediateCoreInUse := true }) [] [] 0 s.isForked hk
        ⟨rfl, rfl, rfl, rfl, rfl, rfl, Thread.State.control_modifyWorker rfl⟩ rfl
        (fun t => ?_) (fun t => ?_) (fun t => ?_) fun t => rfl
      · simpa using this
      · rw [hrefs]
        exact Nat.le_refl _
      · exact Nat.le_refl _
      · rw [hrefs]
        exact Nat.le_refl _
    | count =>
      cases hs
      have := h.move (.fork u w isLocalPush .pushLocal) s.thread [] [] 1
        (Function.update s.isForked u true) hk hsame rfl
        (fun t => Nat.le_refl _) (fun t => Nat.le_refl _) (fun t => Nat.le_refl _) fun t => rfl
      simpa using this
    | pushLocal =>
      obtain ⟨⟨taken, th⟩, hpush, heq⟩ := Option.map_eq_some_iff.1 hs
      cases heq
      rcases pushLocal_eq_some hpush with ⟨rfl, rfl⟩ | ⟨rfl, v, hi, rfl⟩
      · have := h.move .done s.thread [] [] 0 s.isForked hk hsame rfl
          (fun t => Nat.le_add_right _ _) (fun t => Nat.zero_le _) (fun t => Nat.le_refl _)
          fun t => rfl
        simpa using this
      · have hrefs := fun t => s.thread.refs_enqueue (t := t) v hi u
        have := h.move (.count u (if isLocalPush then none else some w))
          (s.thread.enqueue v hi u) [] [] 0 s.isForked hk (queues_enqueue s.thread v hi u) rfl
          (fun t => ?_) (fun t => ?_) (fun t => ?_) fun t => rfl
        · simpa using this
        · exact Nat.le_of_eq (hrefs t)
        · simp [Call.awaiting, Call.forking]
        · exact Nat.le_of_eq (hrefs t)

/-- A step of the worker loops, which `Push` is not part of here. -/
theorem step_thread {a : Thread.Act n m τ}
    (hs : Submission.step fastJob hiPri s (.thread a) = some s') :
    (∀ t c v, a ≠ .push t c v) ∧ ∃ th, Thread.step (s.attr fastJob hiPri) s.thread a = some th ∧
      s' = { s.record a with thread := th } := by
  cases a with
  | push t cpuaffinity target => cases hs
  | _ =>
    simp only [Submission.step, Option.map_eq_some_iff] at hs
    obtain ⟨th, hth, rfl⟩ := hs
    exact ⟨by simp, th, hth, rfl⟩

/-- A worker hands its task back after a failed `AcquireFiber`. -/
def handsBack (s : State n m τ) : Act n m τ → Bool
  | .thread a => Thread.handsBack s.thread a
  | _ => false

/-- Every step keeps the invariant, unless it hands a task back. -/
theorem Inv.step {a : Act n m τ} (h : Inv fastJob hiPri s) (hgood : handsBack s a = false)
    (hs : Submission.step fastJob hiPri s a = some s') : Inv fastJob hiPri s' := by
  cases a with
  | thread a =>
    obtain ⟨ha, th, hth, rfl⟩ := step_thread hs
    exact h.threadStep ha hgood hth
  | push u cpuaffinity target => exact h.push hs
  | pushBatch ts cpuaffinity => exact h.pushBatch hs
  | pushFork u w isLocalPush => exact h.pushFork hs
  | call j target =>
    obtain ⟨k, hk, hs⟩ := Option.bind_eq_some_iff.1 hs
    obtain ⟨⟨s₁, k'⟩, hcall, rfl⟩ := Option.map_eq_some_iff.1 hs
    exact h.callStep hk hcall

/-- The invariant holds at the start. -/
theorem Inv.init : Inv fastJob hiPri (State.init : State n m τ) where
  thread := Thread.Inv.init
  refs := (Thread.Inv.init : Thread.Inv ⟨fastJob, hiPri, fun _ => false⟩ _).refs
  counted _ := Nat.le_refl _
  landed := (Thread.Inv.init : Thread.Inv ⟨fastJob, hiPri, fun _ => false⟩ _).refs
  accepted _ := rfl
  completed _ := rfl
  pending := rfl

/-! ## Completions -/

/-- The step completes a task whose `PushLocal` has not counted it. -/
def completesUncounted (s : State n m τ) : Act n m τ → Bool
  | .thread a =>
    match completes s.thread a with
    | some t => s.calls.any fun c => decide (0 < c.awaiting t)
    | none => false
  | _ => false

/-- The tasks that are freed were counted. -/
def FreedCounted (s : State n m τ) : Prop :=
  ∀ t, (s.thread.freed t).toNat ≤ s.counted.count t

/-- A step of a submission call frees no task, and counts tasks only. -/
theorem callStep_counted {attr : Attr τ} {target : Fin n} {k k' : Call n τ}
    (hs : callStep attr s target k = some (s', k')) :
    s'.thread.freed = s.thread.freed ∧ ∀ t, s.counted.count t ≤ s'.counted.count t := by
  cases k with
  | done => cases hs
  | count u reserved =>
    cases hs
    exact ⟨rfl, fun t => by simp [List.count_append]⟩
  | batch ts cpuaffinity =>
    simp only [callStep] at hs
    split at hs <;> cases hs
    exact ⟨rfl, fun t => Nat.le_refl _⟩
  | fork u w isLocalPush pc =>
    cases pc with
    | pushLocal =>
      obtain ⟨⟨taken, th⟩, hpush, heq⟩ := Option.map_eq_some_iff.1 hs
      cases heq
      exact ⟨freed_pushLocal hpush, fun t => Nat.le_refl _⟩
    | _ =>
      cases hs
      exact ⟨rfl, fun t => Nat.le_refl _⟩

/-- A step of the machine keeps the freed tasks counted, unless it completes one that is not. -/
theorem FreedCounted.step {a : Act n m τ} (h : Inv fastJob hiPri s) (hf : FreedCounted s)
    (hgood : handsBack s a = false) (hcounted : completesUncounted s a = false)
    (hs : Submission.step fastJob hiPri s a = some s') : FreedCounted s' := by
  intro t
  have hft := hf t
  cases a with
  | thread a =>
    obtain ⟨ha, th, hth, rfl⟩ := step_thread hs
    have hm := Moves.step hth ha (h.thread.conserves hgood hth)
    simp only [State.record, List.count_append, hm.freed t]
    by_cases ht : completes s.thread a = some t
    · -- the task has landed, and no `PushLocal` is still to count it
      have hawait : (s.calls.map (Call.awaiting t)).sum = 0 := by
        simp only [completesUncounted, ht, List.any_eq_false, decide_eq_true_eq] at hcounted
        refine List.sum_eq_zero fun x hx => ?_
        obtain ⟨k, hk, rfl⟩ := List.mem_map.1 hx
        exact Nat.eq_zero_of_not_pos (hcounted k hk)
      have := hm.completed t ht
      have := h.landed t
      have := (decide (completes s.thread a = some t) || s.thread.freed t).toNat_le
      omega
    · simp only [ht, decide_false, Bool.false_or]
      omega
  | push u cpuaffinity target =>
    simp only [Submission.step] at hs
    split at hs
    · cases hs
    · obtain ⟨⟨taken, th⟩, hpush, rfl⟩ := Option.map_eq_some_iff.1 hs
      simp only [freed_pushLocal hpush]
      exact hft
  | pushBatch ts cpuaffinity =>
    simp only [Submission.step] at hs
    split at hs <;> cases hs
    simp only [List.count_append]
    exact hft.trans (Nat.le_add_right _ _)
  | pushFork u w isLocalPush =>
    simp only [Submission.step] at hs
    split at hs <;> cases hs
    exact hft
  | call j target =>
    obtain ⟨k, hk, hs⟩ := Option.bind_eq_some_iff.1 hs
    obtain ⟨⟨s₁, k'⟩, hcall, rfl⟩ := Option.map_eq_some_iff.1 hs
    obtain ⟨hfreed, hle⟩ := callStep_counted hcall
    dsimp only
    rw [hfreed]
    exact hft.trans (hle t)

/-- What the count is when every freed task was counted: the counted tasks that are not freed, and
one for each `PushFork`. -/
theorem Inv.pendingTasks_eq (h : Inv fastJob hiPri s) (hf : FreedCounted s) :
    s.pendingTasks = (s.counted.countP fun t => !s.thread.freed t : ℕ) + (s.forked : ℤ) := by
  have hperm : (s.counted.filter fun t => s.thread.freed t).Perm s.completed := by
    rw [List.perm_iff_count]
    intro t
    have h₁ := h.completed t
    have h₂ := hf t
    have h₃ := h.counted t
    have h₄ := (s.thread.submitted t).toNat_le
    cases ht : s.thread.freed t with
    | false =>
      rw [ht] at h₁
      rw [h₁, Bool.toNat_false, List.count_eq_zero]
      simp [ht]
    | true =>
      rw [List.count_filter ht, h₁]
      rw [ht] at h₂ ⊢
      simp only [Bool.toNat_true] at h₂ ⊢
      omega
  have h₁ := h.pending
  have h₂ := hperm.length_eq
  have h₃ := List.length_eq_countP_add_countP (fun t => s.thread.freed t) (l := s.counted)
  rw [← List.countP_eq_length_filter] at h₂
  simp only [Bool.not_eq_true, Bool.decide_eq_false] at h₃
  omega

/-- The accepted tasks are among the counted ones. -/
theorem Inv.accepted_le (h : Inv fastJob hiPri s) :
    (s.accepted.countP fun p => !s.thread.freed p.1) ≤
      s.counted.countP fun t => !s.thread.freed t := by
  have hsub : (s.accepted.map Prod.fst).Subperm s.counted := by
    rw [List.subperm_iff_count]
    intro t
    have := h.accepted t
    omega
  have := hsub.countP_le fun t => !s.thread.freed t
  rwa [List.countP_map] at this

/-- In a run that hands no task back and completes no task before it is counted, the count covers
the accepted tasks that have not completed, so `WaitAll` returns after all of them. -/
theorem pendingTasks_covers {as : List (Act n m τ)}
    (hrun : Lts.run (Submission.step fastJob hiPri) State.init as = some s)
    (hgood : ∀ p ∈ Lts.visits (Submission.step fastJob hiPri) State.init as,
      handsBack p.1 p.2 = false ∧ completesUncounted p.1 p.2 = false) :
    ((s.accepted.countP fun p => !s.thread.freed p.1 : ℕ) : ℤ) ≤ s.pendingTasks ∧
      (waitAllReturns s = true → ∀ p ∈ s.accepted, s.thread.freed p.1 = true) := by
  obtain ⟨h, hf⟩ := Lts.run_inv_of (I := fun s => Inv fastJob hiPri s ∧ FreedCounted s)
    (G := fun s a => handsBack s a = false ∧ completesUncounted s a = false)
    (fun h hg hs => ⟨h.1.step hg.1 hs, h.2.step h.1 hg.1 hg.2 hs⟩)
    ⟨Inv.init, fun _ => Nat.zero_le _⟩ hrun hgood
  have hle : ((s.accepted.countP fun p => !s.thread.freed p.1 : ℕ) : ℤ) ≤ s.pendingTasks := by
    have := h.accepted_le
    rw [h.pendingTasks_eq hf]
    omega
  refine ⟨hle, fun hwait p hp => ?_⟩
  have hzero : (s.accepted.countP fun p => !s.thread.freed p.1) = 0 := by
    have : s.pendingTasks ≤ 0 := of_decide_eq_true hwait
    omega
  simpa using List.countP_eq_zero.1 hzero p hp

end

/-- Worker `w` takes the task in its low priority inbox, with nothing to steal from worker `v`, and
completes it. -/
def completesInbox (w v : Fin 2) : List (Act 2 0 Bool) :=
  [.go, .go, .go, .go, .probes [v], .wins true, .wins true, .go, .wins true, .wins true, .wins true,
    .go, .go, .go, .go].map fun c => .thread (.worker w c)

/-- Two tasks are pushed; the second one is completed after it was counted. -/
def countedRun (w v : Fin 2) : List (Act 2 0 Bool) :=
  [.push false 2 w, .call 0 w, .push true 1 w, .call 1 w] ++ completesInbox w v

theorem pendingTasks_covers_countedRun : ∃ s : State 2 0 Bool,
    Lts.run (step (fun _ => true) fun _ => false) State.init (countedRun 0 1) = some s ∧
      s.pendingTasks = 1 ∧ s.thread.freed true = true ∧
      ((s.accepted.countP fun p => !s.thread.freed p.1 : ℕ) : ℤ) ≤ s.pendingTasks ∧
      (waitAllReturns s = true → ∀ p ∈ s.accepted, s.thread.freed p.1 = true) := by
  refine ⟨(Lts.run _ _ (countedRun 0 1)).get (by decide), (Option.some_get _).symm, by decide,
    by decide, ?_⟩
  exact pendingTasks_covers (Option.some_get (by decide)).symm (by decide)

/-- The second task is completed between its push to the inbox and its count. -/
def uncountedRun (w v : Fin 2) : List (Act 2 0 Bool) :=
  [.push false 2 w, .call 0 w, .push true 1 w] ++ completesInbox w v

theorem pendingTasks_uncovered : ¬ ∀ (as : List (Act 2 0 Bool)) (s : State 2 0 Bool),
    Lts.run (step (fun _ => true) fun _ => false) State.init as = some s →
      (∀ p ∈ Lts.visits (step (fun _ => true) fun _ => false) State.init as,
        handsBack p.1 p.2 = false) →
      ((s.accepted.countP fun p => !s.thread.freed p.1 : ℕ) : ℤ) ≤ s.pendingTasks := by
  intro hall
  have := hall (uncountedRun 0 1) _ (Option.some_get (by decide)).symm (by decide)
  exact absurd this (by decide)

section
variable {n m : ℕ} {τ : Type} [DecidableEq τ] {fastJob hiPri : τ → Bool} {s s' : State n m τ}

/-! ## No submission in progress -/

/-- A `PushFork` gets to its own `fetch_add`. -/
def countsFork (s : State n m τ) : Act n m τ → Bool
  | .call j _ =>
    match s.calls[j]? with
    | some (.fork _ _ _ .count) => true
    | _ => false
  | _ => false

/-- Only the `fetch_add` of `PushFork` changes `forked`. -/
theorem forked_step {a : Act n m τ} (hgood : countsFork s a = false)
    (hs : step fastJob hiPri s a = some s') : s'.forked = s.forked := by
  cases a with
  | thread a =>
    obtain ⟨-, th, -, rfl⟩ := step_thread hs
    rfl
  | push u cpuaffinity target =>
    simp only [step] at hs
    split at hs
    · cases hs
    · obtain ⟨⟨taken, th⟩, -, rfl⟩ := Option.map_eq_some_iff.1 hs
      rfl
  | pushBatch ts cpuaffinity =>
    simp only [step] at hs
    split at hs <;> cases hs
    rfl
  | pushFork u w isLocalPush =>
    simp only [step] at hs
    split at hs <;> cases hs
    rfl
  | call j target =>
    obtain ⟨k, hk, hs⟩ := Option.bind_eq_some_iff.1 hs
    obtain ⟨⟨s₁, k'⟩, hcall, rfl⟩ := Option.map_eq_some_iff.1 hs
    simp only [countsFork, hk] at hgood
    cases k with
    | done => cases hcall
    | count u reserved =>
      cases hcall
      rfl
    | batch ts cpuaffinity =>
      simp only [callStep] at hcall
      split at hcall <;> cases hcall
      rfl
    | fork u w isLocalPush pc =>
      cases pc with
      | count => cases hgood
      | pushLocal =>
        obtain ⟨⟨taken, th⟩, -, heq⟩ := Option.map_eq_some_iff.1 hcall
        cases heq
        rfl
      | _ =>
        cases hcall
        rfl

theorem sum_eq_zero_of_all {α : Type} {l : List α} {φ : α → ℕ} (h : ∀ x ∈ l, φ x = 0) :
    (l.map φ).sum = 0 := by
  refine List.sum_eq_zero fun x hx => ?_
  obtain ⟨y, hy, rfl⟩ := List.mem_map.1 hx
  exact h y hy

/-- With no submission in progress and every accepted task completed, what is left of the count is
one for each `PushFork` that got to its own `fetch_add`. -/
theorem Inv.pendingTasks_idle (h : Inv fastJob hiPri s) (hidle : s.idle = true)
    (hdone : ∀ p ∈ s.accepted, s.thread.freed p.1 = true) : s.pendingTasks = s.forked := by
  simp only [State.idle, Bool.and_eq_true, List.all_eq_true, decide_eq_true_eq,
    Bool.not_eq_true', List.any_eq_false] at hidle
  have hcalls : ∀ φ : Call n τ → ℕ, φ .done = 0 → (s.calls.map φ).sum = 0 :=
    fun φ hφ => sum_eq_zero_of_all fun k hk => by rw [hidle.1 k hk, hφ]
  have hthread : ∀ φ : Thread.Call n m τ → ℕ, (∀ k, immediateInProgress k = false → φ k = 0) →
      (s.thread.calls.map φ).sum = 0 :=
    fun φ hφ => sum_eq_zero_of_all fun k hk => hφ k (by simpa using hidle.2 k hk)
  have hf : FreedCounted s := by
    intro t
    have h₁ := h.landed t
    have h₂ := hcalls (Call.awaiting t) rfl
    have h₃ := hthread (beforeCount t) fun k hk => beforeCount_of_not_immediate hk t
    omega
  have hzero : (s.counted.countP fun t => !s.thread.freed t) = 0 := by
    refine List.countP_eq_zero.2 fun t ht => ?_
    have h₁ := h.accepted t
    have h₂ := hcalls (Call.inBatch t) rfl
    have h₃ := hthread (beforeSlot t) fun k hk => beforeSlot_of_not_immediate hk t
    have h₄ := List.count_pos_iff.2 ht
    have hmem : t ∈ s.accepted.map Prod.fst := List.count_pos_iff.1 (by omega)
    obtain ⟨p, hp, rfl⟩ := List.mem_map.1 hmem
    simp [hdone p hp]
  rw [h.pendingTasks_eq hf, hzero]
  simp

/-- In a run that hands no task back and in which no `PushFork` gets to its own `fetch_add`, the
count is zero, and `WaitAll` returns, whenever no submission is in progress and every accepted task
has completed. -/
theorem pendingTasks_drains {as : List (Act n m τ)}
    (hrun : Lts.run (step fastJob hiPri) State.init as = some s)
    (hgood : ∀ p ∈ Lts.visits (step fastJob hiPri) State.init as,
      handsBack p.1 p.2 = false ∧ countsFork p.1 p.2 = false)
    (hidle : s.idle = true) (hdone : ∀ p ∈ s.accepted, s.thread.freed p.1 = true) :
    s.pendingTasks = 0 ∧ waitAllReturns s = true := by
  obtain ⟨h, hforked⟩ := Lts.run_inv_of (I := fun s => Inv fastJob hiPri s ∧ s.forked = 0)
    (G := fun s a => handsBack s a = false ∧ countsFork s a = false)
    (fun h hg hs => ⟨h.1.step hg.1 hs, (forked_step hg.2 hs).trans h.2⟩)
    ⟨Inv.init, rfl⟩ hrun hgood
  have hzero : s.pendingTasks = 0 := by
    rw [h.pendingTasks_idle hidle hdone, hforked]
    rfl
  exact ⟨hzero, decide_eq_true (Int.le_of_eq hzero)⟩

end

theorem pendingTasks_drains_completed : ∃ s : State 2 0 Bool,
    Lts.run (step (fun _ => true) fun _ => false) State.init
      ([.push true 1 0, .call 0 0] ++ completesInbox 0 1) = some s ∧ s.accepted = [(true, none)] ∧
      s.pendingTasks = 0 ∧ waitAllReturns s = true := by
  refine ⟨(Lts.run _ _ ([.push true 1 0, .call 0 0] ++ completesInbox 0 1)).get (by decide),
    (Option.some_get _).symm, by decide, ?_⟩
  exact pendingTasks_drains (Option.some_get (by decide)).symm (by decide) (by decide) (by decide)

/-- A task is forked on worker `w`, which passes it to the round robin, and is completed. -/
def forkedRun (w v : Fin 2) : List (Act 2 0 Bool) :=
  [.pushFork true w false, .call 0 w, .call 0 w, .call 0 w, .call 0 v, .call 0 w] ++
    completesInbox v w

theorem pendingTasks_left : ¬ ∀ (as : List (Act 2 0 Bool)) (s : State 2 0 Bool),
    Lts.run (step (fun _ => true) fun _ => false) State.init as = some s →
      (∀ p ∈ Lts.visits (step (fun _ => true) fun _ => false) State.init as,
        handsBack p.1 p.2 = false) →
      s.idle = true → (∀ p ∈ s.accepted, s.thread.freed p.1 = true) → s.pendingTasks = 0 := by
  intro hall
  have := hall (forkedRun 0 1) _ (Option.some_get (by decide)).symm (by decide) (by decide)
    (by decide)
  exact absurd this (by decide)

end JLibScheduler.Submission
