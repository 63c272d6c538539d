import JLibScheduler.Submission.Basic
import JLibScheduler.Thread.OnePlace

/-!
# What the worker loops do to the accounts of a task

A task is counted, gets references, and is freed. `Moves` says what a step of the worker loops, of a
helper or of `PushToCore` does to these accounts of every task: which task it frees, and how the
calls of `PushToCore` that have not counted their task, or not stored it, change with it.
-/

namespace JLibScheduler.Submission

open JLibScheduler.Thread (Attr Choice Conserves Pc)

/-! ## Steps of the worker loops -/

section
variable {n m : ℕ} {τ : Type} {th : Thread.State n m τ} {w : Fin n} {u : τ}

/-- A worker completes its `task_to_run`. -/
theorem completes_worker {c : Choice n m} (h : completes th (.worker w c) = some u) :
    (th.worker w).taskToRun = some u := by
  cases c with
  | go =>
    simp only [completes] at h
    split at h
    · exact h
    · exact h
    · cases h
  | _ => cases h

/-- A section that concerns the worker alone completes no task. -/
theorem completes_of_localStep {attr : Attr τ} {wk : Thread.Worker n m τ} {c : Choice n m}
    (h : (th.worker w).localStep attr th.assignedFiber th.paused c = some wk) :
    completes th (.worker w c) = none := by
  cases c with
  | go =>
    simp only [completes]
    split
    next hpc => simp [Thread.Worker.localStep, hpc] at h
    next hpc => simp [Thread.Worker.localStep, hpc] at h
    next => rfl
  | _ => rfl

/-- A batch in an inbox leaves every worker where it stands. -/
theorem control_enqueueAll (th : Thread.State n m τ) (w : Fin n) (ts : List τ) (v : Fin n) :
    ((enqueueAll th w ts).worker v).control = (th.worker v).control :=
  Thread.State.control_modifyWorker (g := fun wk =>
    { wk.setInbox false (wk.inbox false ++ ts) with hasQueuedWork := true })
    ((th.worker w).control_setInbox false ((th.worker w).inbox false ++ ts)) v

end

section
variable {n m : ℕ} {τ : Type} [DecidableEq τ] {attr : Attr τ} {th th' : Thread.State n m τ}
  {w : Fin n} {c : Choice n m} {u : τ}

/-- The step frees the task `o`, if any, and no other; calls and submissions stay. -/
structure Frees (th th' : Thread.State n m τ) (o : Option τ) : Prop where
  calls : th'.calls = th.calls
  submitted : th'.submitted = th.submitted
  freed : ∀ t, th'.freed t = (decide (o = some t) || th.freed t)

theorem Frees.of_eq (hcalls : th'.calls = th.calls) (hsub : th'.submitted = th.submitted)
    (hfreed : th'.freed = th.freed) : Frees th th' none :=
  ⟨hcalls, hsub, fun t => by simp [hfreed]⟩

theorem Frees.of_free (hcalls : th'.calls = th.calls) (hsub : th'.submitted = th.submitted)
    (hfreed : th'.freed = (th.free u).freed) : Frees th th' (some u) := by
  refine ⟨hcalls, hsub, fun t => ?_⟩
  rw [hfreed, Thread.State.free]
  by_cases htu : t = u
  · subst htu
    simp
  · simp [htu, Ne.symm htu]

/-- What the sections that run `task_to_run` free. -/
theorem runStep_frees (h : Thread.runStep attr th w u c = some th')
    (hu : (th.worker w).taskToRun = some u) : Frees th th' (completes th (.worker w c)) := by
  revert h
  fun_cases Thread.runStep attr th w u c with
  | case1 hpc =>
    rintro ⟨⟩
    simp only [completes, hpc]
    exact .of_eq rfl rfl rfl
  | case2 hpc =>
    rintro ⟨⟩
    simp only [completes, hpc, hu]
    exact .of_free rfl rfl rfl
  | case3 | case4 | case7 =>
    rintro ⟨⟩
    exact .of_eq rfl rfl rfl
  | case5 | case8 | case12 | case14 => simp
  | case6 f hpc s₁ =>
    rintro ⟨⟩
    simp only [completes, hpc]
    unfold s₁
    split <;> exact .of_eq rfl rfl rfl
  | case9 f hpc =>
    rintro ⟨⟩
    simp only [completes, hpc, hu]
    exact .of_free rfl rfl rfl
  | case10 f hpc =>
    rintro ⟨⟩
    simp only [completes, hpc]
    exact .of_eq rfl rfl rfl
  | case11 f v hpc =>
    intro h
    obtain ⟨s₁, hs₁, rfl⟩ := Option.map_eq_some_iff.1 h
    obtain ⟨-, rfl⟩ := Thread.State.requeue_eq_some.1 hs₁
    exact .of_eq rfl rfl rfl
  | case13 f pc hdead hpush hreq hpc v pc' hafter =>
    rintro ⟨⟩
    have hnone : completes th (.worker w .go) = none := by
      cases pc with
      | dead => exact absurd rfl hdead
      | _ => simp only [completes, hpc]
    rw [hnone]
    exact .of_eq rfl rfl rfl

/-- What a step of a worker frees. -/
theorem workerStep_frees (h : Thread.workerStep attr th w c = some th') :
    Frees th th' (completes th (.worker w c)) := by
  rcases Thread.workerStep_cases h with ⟨hi, v, u, rest, hpc, -, rfl⟩ | ⟨hi, ws, pc, hpc, -, rfl⟩ |
    ⟨hi, ws, v, hpc, hsteal⟩ | ⟨wk, hwk, rfl⟩ | ⟨u, hu, hrun⟩
  · have hnone : completes th (.worker w c) = none := by
      cases c <;> simp only [completes, hpc]
    rw [hnone]
    exact .of_eq rfl rfl rfl
  · have hnone : completes th (.worker w c) = none := by
      cases c <;> simp only [completes, hpc]
    rw [hnone]
    exact .of_eq rfl rfl rfl
  · have hnone : completes th (.worker w c) = none := by
      cases c <;> simp only [completes, hpc]
    rw [hnone]
    unfold Thread.State.stealFrom at hsteal
    split at hsteal <;> cases hsteal
    exact .of_eq rfl rfl rfl
  · rw [completes_of_localStep hwk]
    exact .of_eq rfl rfl rfl
  · exact runStep_frees hrun hu

end

/-! ## Accounts -/

section
variable {n m : ℕ} {τ : Type} [DecidableEq τ]

/-- Whether the call is a `PushToCore` that has not counted the task. -/
def beforeCount (t : τ) : Thread.Call n m τ → ℕ
  | .pushImmediate u _ .loadFlag | .pushImmediate u _ .storeFlag => if u = t then 1 else 0
  | _ => 0

/-- Whether the call is a `PushToCore` that has counted the task. -/
def beforeSlot (t : τ) : Thread.Call n m τ → ℕ
  | .pushImmediate u _ .storeSlot => if u = t then 1 else 0
  | _ => 0

/-- How often the task is in a batch that is not pushed. -/
def Call.inBatch (t : τ) : Call n τ → ℕ
  | .batch ts _ => ts.count t
  | _ => 0

/-- Whether the call is a `PushFork` that has not pushed the task. -/
def Call.forking (t : τ) : Call n τ → ℕ
  | .fork u _ _ _ => if u = t then 1 else 0
  | _ => 0

/-- Whether the call has pushed the task and not counted it. -/
def Call.awaiting (t : τ) : Call n τ → ℕ
  | .count u _ => if u = t then 1 else 0
  | _ => 0

/-- What a step of the worker loops, of a helper or of `PushToCore` does to the accounts of a
task. -/
structure Moves (th th' : Thread.State n m τ) (a : Thread.Act n m τ) : Prop where
  freed : ∀ t, th'.freed t = (decide (completes th a = some t) || th.freed t)
  count : ∀ t, (th'.calls.map (beforeCount t)).sum + (counts th a).toList.count t +
    (th.submitted t).toNat ≤ (th.calls.map (beforeCount t)).sum + (th'.submitted t).toNat
  slot : ∀ t, (th'.calls.map (beforeSlot t)).sum + ((accepts th a).toList.map Prod.fst).count t =
    (th.calls.map (beforeSlot t)).sum + (counts th a).toList.count t
  landed : ∀ t, th'.refs t + (th'.freed t).toNat + (th.calls.map (beforeCount t)).sum ≤
    th.refs t + (th.freed t).toNat + (th'.calls.map (beforeCount t)).sum +
      (counts th a).toList.count t
  completed : ∀ t, completes th a = some t → 1 + (th.calls.map (beforeCount t)).sum ≤ th.refs t

variable {attr : Attr τ} {th th' : Thread.State n m τ} {a : Thread.Act n m τ} {w : Fin n} {u : τ}

/-- A step that adds at most a call that is no `PushToCore`, and submits nothing. -/
theorem Moves.of_calls
    (hfreed : ∀ t, th'.freed t = (decide (completes th a = some t) || th.freed t))
    (hcompleted : ∀ t, completes th a = some t → 1 + (th.calls.map (beforeCount t)).sum ≤ th.refs t)
    (hcounts : counts th a = none) (haccepts : accepts th a = none)
    (hcalls : th'.calls = th.calls ∨ ∃ k, th'.calls = th.calls ++ [k] ∧ ∀ t, beforeCount t k = 0 ∧
      beforeSlot t k = 0)
    (hsub : th'.submitted = th.submitted) (hc : Conserves th th') : Moves th th' a := by
  have hsums : ∀ t, (th'.calls.map (beforeCount t)).sum = (th.calls.map (beforeCount t)).sum ∧
      (th'.calls.map (beforeSlot t)).sum = (th.calls.map (beforeSlot t)).sum := by
    intro t
    rcases hcalls with h | ⟨k, h, hk⟩
    · simp [h]
    · simp [h, hk t]
  refine ⟨hfreed, fun t => ?_, fun t => ?_, fun t => ?_, hcompleted⟩
  · rw [hcounts, hsub, (hsums t).1]
    simp
  · rw [hcounts, haccepts, (hsums t).2]
    simp
  · have := hc t
    rw [hsub] at this
    rw [hcounts, (hsums t).1]
    simp only [Option.toList_none, List.count_nil]
    omega

theorem beforeCount_le_refs (t : τ) (k : Thread.Call n m τ) : beforeCount t k ≤ k.refs t := by
  cases k with
  | pushImmediate u w pc => cases pc <;> simp [beforeCount, Thread.Call.refs]
  | _ => exact Nat.zero_le _

/-- A task that a worker runs has a reference besides the calls. -/
theorem one_le_refs_of_worker (hu : (th.worker w).taskToRun = some u) :
    1 + (th.calls.map (beforeCount u)).sum ≤ th.refs u := by
  have h₁ := Thread.Worker.one_le_refs hu
  have h₂ := Sums.single_le (φ := Thread.Worker.refs u) (f := th.worker) w
  have h₃ : (th.calls.map (beforeCount u)).sum ≤ (th.calls.map (Thread.Call.refs u)).sum :=
    List.sum_le_sum fun k _ => beforeCount_le_refs u k
  unfold Thread.State.refs
  omega

/-- The rule for a step of a call: what it does to the accounts is read off the call. -/
theorem Moves.of_call {j : ℕ} {target : Fin n} {k k' : Thread.Call n m τ}
    {th₁ : Thread.State n m τ} (hk : th.calls[j]? = some k) (hcalls : th₁.calls = th.calls)
    (hsub : th₁.submitted = th.submitted)
    (hfreed : ∀ t, th₁.freed t = (decide (completes th (.call j target) = some t) || th.freed t))
    (hcompleted : ∀ t, completes th (.call j target) = some t →
      1 + (th.calls.map (beforeCount t)).sum ≤ th.refs t)
    (hcount : ∀ t, beforeCount t k' + (counts th (.call j target)).toList.count t ≤ beforeCount t k)
    (hslot : ∀ t, beforeSlot t k' + ((accepts th (.call j target)).toList.map Prod.fst).count t =
      beforeSlot t k + (counts th (.call j target)).toList.count t)
    (hlanded : ∀ t, th₁.refs t + k'.refs t + (th₁.freed t).toNat + beforeCount t k ≤
      th.refs t + k.refs t + (th.freed t).toNat + beforeCount t k' +
        (counts th (.call j target)).toList.count t) :
    Moves th { th₁ with calls := th₁.calls.set j k' } (.call j target) := by
  have h₁ : ∀ t, ((th₁.calls.set j k').map (beforeCount t)).sum + beforeCount t k =
      (th.calls.map (beforeCount t)).sum + beforeCount t k' := by
    intro t
    rw [hcalls]
    exact Sums.map_set hk
  have h₂ : ∀ t, ((th₁.calls.set j k').map (beforeSlot t)).sum + beforeSlot t k =
      (th.calls.map (beforeSlot t)).sum + beforeSlot t k' := by
    intro t
    rw [hcalls]
    exact Sums.map_set hk
  refine ⟨hfreed, fun t => ?_, fun t => ?_, fun t => ?_, hcompleted⟩
  · have := h₁ t
    have := hcount t
    simp only [hsub]
    omega
  · have := h₂ t
    have := hslot t
    dsimp only
    omega
  · have := h₁ t
    have := hlanded t
    have := th₁.refs_setCall (t := t) k' (hcalls ▸ hk)
    dsimp only
    omega

/-- A task that a helper runs has a reference besides a `PushToCore`. -/
theorem one_le_refs_of_helping (h : .helping u ∈ th.calls) :
    1 + (th.calls.map (beforeCount u)).sum ≤ th.refs u := by
  have h₁ : ((th.calls.map fun k => (if k = .helping u then 1 else 0) + beforeCount u k)).sum ≤
      (th.calls.map (Thread.Call.refs u)).sum := by
    refine List.sum_le_sum fun k _ => ?_
    by_cases hk : k = .helping u
    · subst hk
      simp [beforeCount, Thread.Call.refs]
    · rw [if_neg hk, Nat.zero_add]
      exact beforeCount_le_refs u k
  have h₂ := Sums.le_map (φ := fun k : Thread.Call n m τ => if k = .helping u then 1 else 0) h
  rw [List.sum_map_add] at h₁
  simp only [if_true] at h₂
  unfold Thread.State.refs
  omega

theorem beforeCount_of_not_immediate {k : Thread.Call n m τ} (hk : immediateInProgress k = false)
    (t : τ) : beforeCount t k = 0 := by
  cases k <;> first | rfl | cases hk

theorem beforeSlot_of_not_immediate {k : Thread.Call n m τ} (hk : immediateInProgress k = false)
    (t : τ) : beforeSlot t k = 0 := by
  cases k <;> first | rfl | cases hk

/-- A call that is no `PushToCore` and no helper in an `Execute` frees no task, and does not become
a `PushToCore`. -/
theorem callStep_other {target : Fin n} {k k' : Thread.Call n m τ}
    (h : Thread.callStep attr th target k = some (th', k')) (hpush : immediateInProgress k = false)
    (hhelp : ∀ t, k ≠ .helping t) : th'.freed = th.freed ∧ immediateInProgress k' = false := by
  cases k with
  | done => cases h
  | pushImmediate u w pc => cases hpush
  | resume f pc =>
    simp only [Thread.callStep, Option.some.injEq, Prod.mk.injEq] at h
    obtain ⟨rfl, rfl⟩ := h
    refine ⟨rfl, ?_⟩
    split
    · cases (th.fiber f).owningTask <;> rfl
    · rfl
    · rfl
  | requeue u =>
    obtain ⟨th₁, hth₁, heq⟩ := Option.map_eq_some_iff.1 h
    cases heq
    obtain ⟨-, rfl⟩ := Thread.State.requeue_eq_some.1 hth₁
    exact ⟨rfl, rfl⟩
  | stolen u =>
    simp only [Thread.callStep] at h
    split at h <;> cases h <;> exact ⟨rfl, rfl⟩
  | helping u => exact absurd rfl (hhelp u)

/-- A step of a call of another thread. -/
theorem Moves.callStep {j : ℕ} {target : Fin n} {k k' : Thread.Call n m τ}
    {th₁ : Thread.State n m τ} (hk : th.calls[j]? = some k)
    (h : Thread.callStep attr th target k = some (th₁, k')) :
    Moves th { th₁ with calls := th₁.calls.set j k' } (.call j target) := by
  obtain ⟨hcalls, hsub, hle⟩ := Thread.callStep_conserves h
  cases k with
  | done => cases h
  | pushImmediate u w pc =>
    have hnone : completes th (.call j target) = none := by simp only [completes, hk]
    refine .of_call hk hcalls hsub (fun t => ?_) (by simp [hnone]) (fun t => ?_) (fun t => ?_)
      fun t => ?_
    · rw [hnone]
      cases pc with
      | loadFlag => simp only [Thread.callStep] at h; split at h <;> cases h <;> simp
      | _ => cases h; simp [Thread.State.modifyWorker]
    all_goals
      have := hle t
      cases pc with
      | loadFlag =>
        simp only [Thread.callStep] at h
        split at h <;> cases h <;>
          simp [counts, accepts, hk, beforeCount, beforeSlot, Thread.Call.refs] at this ⊢ <;> omega
      | _ =>
        cases h
        simp [counts, accepts, hk, beforeCount, beforeSlot, Thread.Call.refs,
          List.count_singleton] at this ⊢ <;> omega
  | helping u =>
    cases h
    have hsome : completes th (.call j target) = some u := by simp only [completes, hk]
    refine .of_call hk hcalls hsub ?_ ?_ ?_ ?_ ?_
    · rw [hsome]
      exact (Frees.of_free rfl rfl rfl : Frees th (th.free u) (some u)).freed
    · rw [hsome]
      rintro t ⟨⟩
      exact one_le_refs_of_helping (List.mem_of_getElem? hk)
    · simp [counts, hk, beforeCount]
    · simp [counts, accepts, hk, beforeSlot]
    · simpa [counts, hk, beforeCount] using hle
  | _ =>
    obtain ⟨hfreed, hk'⟩ := callStep_other h rfl (by simp)
    have hcounts : counts th (.call j target) = none := by simp only [counts, hk]
    have haccepts : accepts th (.call j target) = none := by simp only [accepts, hk]
    refine .of_call hk hcalls hsub ?_ ?_ (fun t => ?_) (fun t => ?_) fun t => ?_
    · simpa [completes, hk] using fun t => congrFun hfreed t
    · simp [completes, hk]
    · rw [hcounts, beforeCount_of_not_immediate hk']
      exact Nat.zero_le _
    · rw [hcounts, haccepts, beforeSlot_of_not_immediate hk']
      rfl
    · rw [hcounts, beforeCount_of_not_immediate hk']
      exact hle t

/-- A step of the worker loops, of a helper or of `PushToCore`. -/
theorem Moves.step (h : Thread.step attr th a = some th') (ha : ∀ t c v, a ≠ .push t c v)
    (hc : Conserves th th') : Moves th th' a := by
  cases a with
  | worker w c =>
    have hfrees := workerStep_frees h
    refine .of_calls hfrees.freed (fun t ht => one_le_refs_of_worker (completes_worker ht)) rfl rfl
      (.inl hfrees.calls) hfrees.submitted hc
  | join w =>
    cases h
    exact .of_calls (fun t => by simp [completes, Thread.State.modifyWorker])
      (fun t ht => by cases ht) rfl rfl (.inl rfl) rfl hc
  | pause b =>
    cases h
    exact .of_calls (fun t => by simp [completes]) (fun t ht => by cases ht)
      rfl rfl (.inl rfl) rfl hc
  | push t c v => exact absurd rfl (ha t c v)
  | pushImmediate u coreId =>
    simp only [Thread.step] at h
    split at h
    · cases h
    next hsub =>
      have hsub' : th.submitted u = false := by simpa using hsub
      have htoNat : ∀ t, (Function.update th.submitted u true t).toNat =
          (th.submitted t).toNat + if u = t then 1 else 0 := by
        intro t
        by_cases htu : t = u
        · subst htu
          simp [hsub']
        · simp [htu, Ne.symm htu]
      split at h
      next hcore =>
        cases h
        refine ⟨fun t => by simp [completes], fun t => ?_, fun t => ?_, fun t => ?_,
          by simp [completes]⟩
        · simp [counts, beforeCount, htoNat]
          omega
        · simp [accepts, counts, beforeSlot]
        · have := Thread.State.refs_addCall (t := t)
            { th with submitted := Function.update th.submitted u true }
            (.pushImmediate u ⟨(coreId - 1) % n, Nat.mod_lt _ hcore.2⟩ .loadFlag)
          simp only [List.map_append, List.sum_append, List.map_cons, List.map_nil, List.sum_cons,
            List.sum_nil, beforeCount, counts, Option.toList_none, List.count_nil]
          simp only [Thread.Call.refs] at this
          have heq : Thread.State.refs
              { th with submitted := Function.update th.submitted u true } t =
            th.refs t := rfl
          omega
      next =>
        cases h
        refine ⟨fun t => by simp [completes], fun t => ?_, fun t => rfl, fun t => Nat.le_refl _,
          by simp [completes]⟩
        simp [counts, htoNat]
  | resume f =>
    cases h
    exact .of_calls (fun t => by simp [completes]) (fun t ht => by cases ht) rfl rfl
      (.inr ⟨_, rfl, fun t => ⟨rfl, rfl⟩⟩) rfl hc
  | help w hi =>
    simp only [Thread.step] at h
    split at h <;> cases h
    exact .of_calls (fun t => by simp [completes, Thread.State.modifyWorker])
      (fun t ht => by cases ht) rfl rfl
      (.inr ⟨_, rfl, fun t => ⟨rfl, rfl⟩⟩) rfl hc
  | call j target =>
    obtain ⟨k, hk, h⟩ := Option.bind_eq_some_iff.1 h
    obtain ⟨⟨th₁, k'⟩, hcall, rfl⟩ := Option.map_eq_some_iff.1 h
    exact .callStep hk hcall

end

end JLibScheduler.Submission
