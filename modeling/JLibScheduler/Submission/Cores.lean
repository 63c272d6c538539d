import JLibScheduler.Submission.Reserved

/-!
# The flags match the reservations

Every step keeps `Reserved`, unless it breaks a reservation: it hands a task back, stores a flag
that is set, is the refusal of a fork by `PushLocal`, or completes a forked task elsewhere than in
the loop of its reserved worker. So in runs without such steps the flag of a worker is set, with no
submission in progress, exactly when an accepted task that it is reserved for has not completed
(`immediateCoresInUse_iff`). `PushFork` passes the index of its worker for an affinity, which counts
from 1, so its task goes to another worker, which completes it and clears its own flag
(`immediateCoresInUse_left`).
-/

namespace JLibScheduler.Submission

section
variable {n m : ℕ} {τ : Type} {fastJob : τ → Bool}

/-- The invariant holds at the start. -/
theorem Reserved.init : Reserved fastJob (State.init : State n m τ) where
  flag _ := rfl
  searches _ := ⟨(by intro h; cases h), (by intro h; cases h)⟩
  calls := by simp [State.init]
  immediate := by simp [State.init, Thread.State.init]
  forked := by simp [State.init]
  accepted := by simp [State.init]
  slot := by simp [State.init, Thread.State.init]
  handling := by simp [State.init, Thread.State.init]

/-- A refusal of `PushLocal`. -/
theorem pushLocal_refused {attr : Thread.Attr τ} {th th' : Thread.State n m τ} {u : τ}
    {cpuaffinity : UInt8} {target : Fin n}
    (h : pushLocal attr th u cpuaffinity target = some (false, th')) :
    ∃ v, affine cpuaffinity = some v ∧ (th.worker v).immediateCoreInUse = true := by
  unfold pushLocal at h
  split at h
  next v hv =>
    split at h
    next hset => exact ⟨v, hv, hset⟩
    next => cases h
  next =>
    obtain ⟨th₁, -, heq⟩ := Option.map_eq_some_iff.1 h
    cases heq

/-- A call in order stays in order when more tasks are forked. -/
theorem Call.Ok.mono {isForked isForked' : τ → Bool} {k : Call n τ} (hk : k.Ok fastJob isForked)
    (h : ∀ t, isForked t = true → isForked' t = true) : k.Ok fastJob isForked' := by
  cases k with
  | fork t w b pc => exact ⟨hk.1, hk.2.1, fun hpc => h t (hk.2.2 hpc)⟩
  | count t r =>
    cases r with
    | none => trivial
    | some w => exact h t hk
  | _ => trivial

end

section
variable {n m : ℕ} {τ : Type} [DecidableEq τ] {fastJob hiPri : τ → Bool} {s s' : State n m τ}

/-! ## The steps -/

/-- A step of a call of another thread keeps the reservations, unless it stores a set flag or
completes a forked task. -/
theorem Reserved.threadCall {j : ℕ} {target : Fin n} {k k' : Thread.Call n m τ}
    {th : Thread.State n m τ} (hr : Reserved fastJob s) (h : Inv fastJob hiPri s)
    (hk : s.thread.calls[j]? = some k)
    (hs : Thread.callStep (s.attr fastJob hiPri) s.thread target k = some (th, k'))
    (hset : storesSetFlag s (.thread (.call j target)) = false)
    (hastray : completesAstray s (.thread (.call j target)) = false) :
    Reserved fastJob { s.record (.call j target) with
      thread := { th with calls := th.calls.set j k' } } := by
  obtain ⟨hcalls, -, -⟩ := Thread.callStep_conserves hs
  have hmemk := List.mem_of_getElem? hk
  have himm : ImmediateOk fastJob k' → ∀ x ∈ th.calls.set j k', ImmediateOk fastJob x := by
    intro hk' x hx
    rw [hcalls] at hx
    rcases List.mem_or_eq_of_mem_set hx with hx | rfl
    · exact hr.immediate x hx
    · exact hk'
  cases k with
  | done => cases hs
  | pushImmediate u w pc =>
    have hfast := hr.immediate _ hmemk
    have hrefs : 1 ≤ (s.thread.calls.map (Thread.Call.refs u)).sum := by
      have := Sums.le_map (φ := Thread.Call.refs u) hmemk
      simpa [Thread.Call.refs] using this
    have hnotfreed : s.thread.freed u = false := by
      have := (h.thread.only_call hk (u := u) (by simp [Thread.Call.refs])).2.1
      exact this
    have haccepts : pc ≠ .storeSlot → accepts s.thread (.call j target) = none := by
      cases pc <;> simp [accepts, hk]
    have hcompletes : completes s.thread (.call j target) = none := by simp only [completes, hk]
    cases pc with
    | loadFlag =>
      have hth : th = s.thread ∧ slotReservation k' = none ∧ ImmediateOk fastJob k' := by
        simp only [Thread.callStep] at hs
        split at hs <;> cases hs
        · exact ⟨rfl, rfl, trivial⟩
        · exact ⟨rfl, rfl, hfast⟩
      obtain ⟨rfl, hnone, hok⟩ := hth
      have hacc : (s.record (.call j target)).accepted = s.accepted ++ [] := by
        simp [State.record, haccepts]
      have hres := reservations_setThreadCall _ []
        ({ s.record (.call j target) with
          thread := { s.thread with calls := s.thread.calls.set j k' } }) hk rfl rfl hacc
      refine hr.of_still (fun q => ?_) rfl (fun _ => id) hr.forked (fun _ => rfl) hr.calls
        (himm hok) (fun t v ht => .inl ?_) fun t v ht => ?_
      · have := hres q
        rw [hnone] at this
        simpa [slotReservation] using this
      · simpa [hacc] using ht
      · simpa [hacc] using ht
    | storeFlag =>
      cases hs
      have hacc : (s.record (.call j target)).accepted = s.accepted ++ [] := by
        simp [State.record, haccepts]
      have hres := reservations_setThreadCall (.pushImmediate u w .storeSlot) []
        ({ s.record (.call j target) with
          thread := { s.thread.modifyWorker w fun wk => { wk with immediateCoreInUse := true } with
            calls := s.thread.calls.set j (.pushImmediate u w .storeSlot) } }) hk rfl rfl hacc
      refine hr.reserve (t := u) (w := w) (fun q => ?_) rfl rfl rfl ?_ hnotfreed hr.calls
        (himm hfast) (hacc.trans (List.append_nil _))
      · have := hres q
        simp only [slotReservation, Option.toList_some, Option.toList_none, List.countP_nil,
          List.filterMap_nil, List.countP_singleton, Nat.add_zero] at this
        exact this
      · simpa [storesSetFlag, hk] using hset
    | storeSlot =>
      cases hs
      have hacc : (s.record (.call j target)).accepted = s.accepted ++ [(u, some w)] := by
        simp [State.record, accepts, hk]
      have hres := reservations_setThreadCall .done [(u, some w)]
        ({ s.record (.call j target) with
          thread := { s.thread.modifyWorker w fun wk =>
              { wk with immediateTask := some u, immediate := true } with
            calls := s.thread.calls.set j .done } }) hk rfl rfl hacc
      refine hr.store (t := u) (w := w) (fun q => ?_) rfl rfl rfl (fun v hv => ?_) hfast rfl
        (himm trivial) hacc
      · have := hres q
        simp only [slotReservation, Option.toList_some, Option.toList_none, List.countP_nil,
          List.filterMap_cons, Option.map_some, List.filterMap_nil, Nat.add_zero] at this
        exact Nat.add_right_cancel this
      · -- the call itself has the only reservation for `w`
        by_contra hnot
        have hflag := hr.flag w
        have hle := (s.thread.worker w).immediateCoreInUse.toNat_le
        have h₁ : 0 < (s.thread.calls.filterMap slotReservation).countP fun p =>
            decide (p.2 = w) && !s.thread.freed p.1 :=
          List.countP_pos_iff.2 ⟨(u, w), List.mem_filterMap.2 ⟨_, hmemk, rfl⟩, by simp [hnotfreed]⟩
        have h₂ : 0 < (s.accepted.filterMap fun p => p.2.map fun w => (p.1, w)).countP fun p =>
            decide (p.2 = w) && !s.thread.freed p.1 :=
          List.countP_pos_iff.2 ⟨(v, w), List.mem_filterMap.2 ⟨_, hv, rfl⟩, by simp [hnot]⟩
        rw [State.reservations, List.countP_append, List.countP_append] at hflag
        omega
  | helping u =>
    cases hs
    have hcompletes : completes s.thread (.call j target) = some u := by simp only [completes, hk]
    have hacc : (s.record (.call j target)).accepted = s.accepted ++ [] := by
      simp [State.record, accepts, hk]
    have hplain : s.isForked u = false := by simpa [completesAstray, hcompletes] using hastray
    have hres := reservations_setThreadCall .done []
      ({ s.record (.call j target) with
        thread := { s.thread.free u with calls := s.thread.calls.set j .done } }) hk rfl rfl hacc
    refine hr.free (t := u) (fun q => ?_) (fun t => ?_)
      (hr.not_mem_reservations h hcompletes hplain (by simp)) rfl rfl rfl (himm trivial)
      (hacc.trans (List.append_nil _))
    · have := hres q
      simp only [slotReservation, Option.toList_none, List.countP_nil, List.filterMap_nil,
        Nat.add_zero] at this
      exact this
    · exact ((Frees.of_free rfl rfl rfl : Frees s.thread (s.thread.free u) (some u)).freed t).trans
        (by simp)
  | _ =>
    obtain ⟨hfreed, hk'⟩ := callStep_other hs rfl (by simp)
    have hacc : (s.record (.call j target)).accepted = s.accepted ++ [] := by
      simp [State.record, accepts, hk]
    have hres := reservations_setThreadCall k' []
      ({ s.record (.call j target) with
        thread := { th with calls := th.calls.set j k' } }) hk (by rw [hcalls]) rfl hacc
    refine hr.of_still (fun q => ?_) hfreed (fun _ => id) hr.forked
      (fun v => still_callStep hs rfl v) hr.calls (himm ?_) (fun t v ht => .inl ?_) fun t v ht => ?_
    · have := hres q
      rw [slotReservation_of_not_immediate hk'] at this
      simpa [slotReservation] using this
    · exact immediateOk_of_not_immediate hk'
    · simpa [hacc] using ht
    · simpa [hacc] using ht

/-- A step of the worker loops keeps the reservations, unless it breaks them. -/
theorem Reserved.threadStep {a : Thread.Act n m τ} {th : Thread.State n m τ}
    (hr : Reserved fastJob s) (h : Inv fastJob hiPri s) (ha : ∀ t c v, a ≠ .push t c v)
    (hfast : reservesFast fastJob (.thread a : Act n m τ) = true)
    (hset : storesSetFlag s (.thread a) = false) (hastray : completesAstray s (.thread a) = false)
    (hs : Thread.step (s.attr fastJob hiPri) s.thread a = some th) :
    Reserved fastJob { s.record a with thread := th } := by
  cases a with
  | worker w c => exact hr.workerStep h hs hastray
  | join w =>
    cases hs
    exact hr.threadStill rfl rfl
      (still_modifyWorker (g := fun wk => { wk with running := false }) rfl) (.inl rfl)
  | pause b =>
    cases hs
    exact hr.threadStill rfl rfl (fun _ => rfl) (.inl rfl)
  | push t c v => exact absurd rfl (ha t c v)
  | pushImmediate u coreId =>
    simp only [Thread.step] at hs
    split at hs
    · cases hs
    · split at hs <;> cases hs
      · exact hr.threadStill rfl rfl (fun _ => rfl) (.inr ⟨_, rfl, rfl, hfast⟩)
      · exact hr.threadStill rfl rfl (fun _ => rfl) (.inl rfl)
  | resume f =>
    cases hs
    exact hr.threadStill rfl rfl (fun _ => rfl) (.inr ⟨_, rfl, rfl, trivial⟩)
  | help w hi =>
    simp only [Thread.step] at hs
    split at hs <;> cases hs
    next u rest hdeque =>
      exact hr.threadStill rfl rfl
        (still_modifyWorker (g := fun wk => wk.setDeque hi rest) (by cases hi <;> rfl))
        (.inr ⟨_, rfl, rfl, trivial⟩)
  | call j target =>
    obtain ⟨k, hk, hs⟩ := Option.bind_eq_some_iff.1 hs
    obtain ⟨⟨th₁, k'⟩, hcall, rfl⟩ := Option.map_eq_some_iff.1 hs
    exact hr.threadCall h hk hcall hset hastray

/-- A step of a submission call keeps the reservations, unless it breaks them. -/
theorem Reserved.callStep {j : ℕ} {target : Fin n} {k k' : Call n τ} {s₁ : State n m τ}
    (hr : Reserved fastJob s) (h : Inv fastJob hiPri s) (hk : s.calls[j]? = some k)
    (hset : storesSetFlag s (.call j target) = false)
    (hrefuse : refusesFork s (.call j target) = false)
    (hs : Submission.callStep (s.attr fastJob hiPri) s target k = some (s₁, k')) :
    Reserved fastJob { s₁ with calls := s₁.calls.set j k' } := by
  have hok := hr.calls k (List.mem_of_getElem? hk)
  have hcalls : ∀ isForked', (∀ t, s.isForked t = true → isForked' t = true) →
      k'.Ok fastJob isForked' → ∀ x ∈ s.calls.set j k', x.Ok fastJob isForked' := by
    intro isForked' hmono hk' x hx
    rcases List.mem_or_eq_of_mem_set hx with hx | rfl
    · exact (hr.calls x hx).mono hmono
    · exact hk'
  cases k with
  | done => cases hs
  | count u reserved =>
    cases hs
    have hres := reservations_setCall .done [(u, reserved)]
      ({ s with
        pendingTasks := s.pendingTasks + 1
        counted := s.counted ++ [u]
        accepted := s.accepted ++ [(u, reserved)]
        calls := s.calls.set j .done }) hk rfl rfl rfl
    refine hr.of_still (fun q => ?_) rfl (fun _ => id) hr.forked (fun _ => rfl)
      (hcalls _ (fun _ => id) trivial) hr.immediate (fun t v ht => ?_) fun t v ht => ?_
    · have := hres q
      cases reserved with
      | none =>
        simp only [Call.reservation, Option.toList_none, List.countP_nil, List.filterMap_cons,
          Option.map_none, List.filterMap_nil, Nat.add_zero] at this
        exact this
      | some w =>
        simp only [Call.reservation, Option.toList_some, Option.toList_none, List.countP_nil,
          List.filterMap_cons, Option.map_some, List.filterMap_nil, Nat.add_zero] at this
        exact Nat.add_right_cancel this
    · rcases List.mem_append.1 ht with ht | ht
      · exact .inl ht
      · cases List.mem_singleton.1 ht
        exact .inr hok
    · exact List.mem_append_left _ ht
  | batch ts cpuaffinity =>
    simp only [Submission.callStep] at hs
    split at hs <;> cases hs
    have hres := reservations_setCall .done (ts.map fun t => (t, none))
      ({ s with
        thread := enqueueAll s.thread target ts
        accepted := s.accepted ++ ts.map fun t => (t, none)
        calls := s.calls.set j .done }) hk rfl rfl rfl
    refine hr.of_still (fun q => ?_) rfl (fun _ => id) hr.forked
      (still_enqueueAll s.thread target ts) (hcalls _ (fun _ => id) trivial) hr.immediate
      (fun t v ht => ?_) fun t v ht => ?_
    · have := hres q
      simp only [Call.reservation, Option.toList_none, List.countP_nil, List.filterMap_map,
        Function.comp_def, Option.map_none, Nat.add_zero] at this
      simpa using this
    · rcases List.mem_append.1 ht with ht | ht
      · exact .inl ht
      · obtain ⟨u, -, heq⟩ := List.mem_map.1 ht
        cases heq
    · exact List.mem_append_left _ ht
  | fork u w isLocalPush pc =>
    obtain ⟨hfast, rfl, hforked⟩ := hok
    have hnotfreed : s.thread.freed u = false := by
      have h₁ := h.refs u
      have h₂ := Sums.le_map (φ := Call.forking u) (List.mem_of_getElem? hk)
      have h₃ := (s.thread.submitted u).toNat_le
      simp only [Call.forking, if_true] at h₂
      cases hf : s.thread.freed u with
      | false => rfl
      | true =>
        rw [hf, Bool.toNat_true] at h₁
        omega
    cases pc with
    | loadFlag =>
      have hth : s₁ = s ∧ k'.reservation = none ∧ k'.Ok fastJob s.isForked := by
        cases hs
        split
        · exact ⟨rfl, rfl, trivial⟩
        · exact ⟨rfl, rfl, hfast, rfl, fun h => by cases h⟩
      obtain ⟨rfl, hnone, hok⟩ := hth
      have hres := reservations_setCall k' []
        ({ s₁ with calls := s₁.calls.set j k' }) hk rfl rfl (List.append_nil _).symm
      refine hr.of_still (fun q => ?_) rfl (fun _ => id) hr.forked (fun _ => rfl)
        (hcalls _ (fun _ => id) hok) hr.immediate (fun _ _ => .inl) fun _ _ => id
      have := hres q
      rw [hnone] at this
      simpa [Call.reservation] using this
    | storeFlag =>
      cases hs
      have hres := reservations_setCall (.fork u w false .count) []
        ({ s with
          thread := s.thread.modifyWorker w fun wk => { wk with immediateCoreInUse := true }
          calls := s.calls.set j (.fork u w false .count) }) hk rfl rfl (List.append_nil _).symm
      refine hr.reserve (t := u) (w := w) (fun q => ?_) rfl rfl rfl ?_ hnotfreed
        (hcalls _ (fun _ => id) ⟨hfast, rfl, fun h => by cases h⟩) hr.immediate rfl
      · have := hres q
        simp only [Call.reservation, Option.toList_some, Option.toList_none, List.countP_nil,
          List.filterMap_nil, List.countP_singleton, Nat.add_zero] at this
        exact this
      · simpa [storesSetFlag, hk] using hset
    | count =>
      cases hs
      have hmono : ∀ t, s.isForked t = true → Function.update s.isForked u true t = true := by
        intro t ht
        by_cases htu : t = u
        · rw [htu, Function.update_self]
        · rwa [Function.update_of_ne htu]
      have hres := reservations_setCall (.fork u w false .pushLocal) []
        ({ s with
          isForked := Function.update s.isForked u true
          pendingTasks := s.pendingTasks + 1
          forked := s.forked + 1
          calls := s.calls.set j (.fork u w false .pushLocal) }) hk rfl rfl (List.append_nil _).symm
      refine hr.of_still (fun q => ?_) rfl hmono (fun t ht => ?_) (fun _ => rfl)
        (hcalls _ hmono ⟨hfast, rfl, fun _ => Function.update_self _ _ _⟩) hr.immediate
        (fun _ _ => .inl) fun _ _ => id
      · have := hres q
        simp only [Call.reservation, List.filterMap_nil, List.countP_nil, Nat.add_zero] at this
        exact Nat.add_right_cancel this
      · by_cases htu : t = u
        · exact htu ▸ hfast
        · dsimp only at ht
          rw [Function.update_of_ne htu] at ht
          exact hr.forked t ht
    | pushLocal =>
      obtain ⟨⟨taken, th⟩, hpush, heq⟩ := Option.map_eq_some_iff.1 hs
      cases heq
      rcases pushLocal_eq_some hpush with ⟨rfl, rfl⟩ | ⟨rfl, v, hi, rfl⟩
      · -- the call would leave the flag of `w` behind
        obtain ⟨v, hv, hflag⟩ := pushLocal_refused hpush
        simp only [refusesFork, hk, hv, hflag] at hrefuse
        cases hrefuse
      · have hres := reservations_setCall (.count u (some w)) []
          ({ s with
            thread := s.thread.enqueue v hi u
            calls := s.calls.set j (.count u (some w)) }) hk rfl rfl (List.append_nil _).symm
        refine hr.of_still (fun q => ?_) rfl (fun _ => id) hr.forked (still_enqueue s.thread v hi u)
          (hcalls _ (fun _ => id) (hforked rfl)) hr.immediate (fun _ _ => .inl) fun _ _ => id
        have := hres q
        simp only [Call.reservation, List.filterMap_nil, List.countP_nil, Nat.add_zero] at this
        exact Nat.add_right_cancel this

/-- Every step keeps the reservations, unless it breaks them. -/
theorem Reserved.step {a : Act n m τ} (hr : Reserved fastJob s) (h : Inv fastJob hiPri s)
    (hfast : reservesFast fastJob a = true) (hgood : breaksReservation s a = false)
    (hs : Submission.step fastJob hiPri s a = some s') : Reserved fastJob s' := by
  simp only [breaksReservation, Bool.or_eq_false_iff] at hgood
  obtain ⟨⟨⟨-, hset⟩, hrefuse⟩, hastray⟩ := hgood
  cases a with
  | thread a =>
    obtain ⟨ha, th, hth, rfl⟩ := step_thread hs
    exact hr.threadStep h ha hfast hset hastray hth
  | push u cpuaffinity target =>
    simp only [Submission.step] at hs
    split at hs
    · cases hs
    · obtain ⟨⟨taken, th⟩, hpush, rfl⟩ := Option.map_eq_some_iff.1 hs
      rcases pushLocal_eq_some hpush with ⟨rfl, rfl⟩ | ⟨rfl, w, hi, rfl⟩
      · exact hr.begin rfl rfl (fun _ => rfl) rfl trivial
      · exact hr.begin rfl rfl (still_enqueue (submit s.thread [u]) w hi u) rfl trivial
  | pushBatch ts cpuaffinity =>
    simp only [Submission.step] at hs
    split at hs <;> cases hs
    exact hr.begin rfl rfl (fun _ => rfl) rfl trivial
  | pushFork u w isLocalPush =>
    simp only [Submission.step] at hs
    split at hs <;> cases hs
    simp only [reservesFast, Bool.and_eq_true, Bool.not_eq_true'] at hfast
    obtain ⟨hfast, rfl⟩ := hfast
    exact hr.begin rfl rfl (fun _ => rfl) rfl ⟨hfast, rfl, fun h => by cases h⟩
  | call j target =>
    obtain ⟨k, hk, hs⟩ := Option.bind_eq_some_iff.1 hs
    obtain ⟨⟨s₁, k'⟩, hcall, rfl⟩ := Option.map_eq_some_iff.1 hs
    exact hr.callStep h hk hset hrefuse hcall

/-- With no submission in progress a flag is set exactly when an accepted task that it is reserved
for has not completed. -/
theorem Reserved.flag_iff (hr : Reserved fastJob s) (hidle : s.idle = true) (w : Fin n) :
    (s.thread.worker w).immediateCoreInUse = true ↔
      ∃ t, (t, some w) ∈ s.accepted ∧ s.thread.freed t = false := by
  simp only [State.idle, Bool.and_eq_true, List.all_eq_true, decide_eq_true_eq,
    Bool.not_eq_true', List.any_eq_false] at hidle
  have hmem : ∀ t v, (t, v) ∈ s.reservations ↔ (t, some v) ∈ s.accepted := by
    intro t v
    rw [mem_reservations]
    refine ⟨?_, fun h => .inr (.inr h)⟩
    rintro (⟨k, hk, heq⟩ | hpush | hacc)
    · rw [hidle.1 k hk] at heq
      cases heq
    · exact absurd rfl (hidle.2 _ hpush)
    · exact hacc
  rw [← Bool.toNat_eq_one, ← hr.flag w]
  have hle := (s.thread.worker w).immediateCoreInUse.toNat_le
  rw [← hr.flag w] at hle
  constructor
  · intro hone
    obtain ⟨⟨t, v⟩, hp, hq⟩ := List.countP_pos_iff.1 (Nat.lt_of_lt_of_eq Nat.one_pos hone.symm)
    simp only [Bool.and_eq_true, decide_eq_true_eq, Bool.not_eq_true'] at hq
    obtain ⟨rfl, hnot⟩ := hq
    exact ⟨t, (hmem t v).1 hp, hnot⟩
  · rintro ⟨t, hacc, hnot⟩
    exact Nat.le_antisymm hle
      (List.countP_pos_iff.2 ⟨(t, w), (hmem t w).2 hacc, by simp [hnot]⟩)

/-- In a run in which only fast jobs are submitted with `PushImmediate` and `PushFork`, and no step
breaks a reservation, the flag of a worker is set, with no submission in progress, exactly when an
accepted task that it is reserved for has not completed. -/
theorem immediateCoresInUse_iff {as : List (Act n m τ)}
    (hrun : Lts.run (Submission.step fastJob hiPri) State.init as = some s)
    (hfast : ∀ a ∈ as, reservesFast fastJob a = true)
    (hgood : ∀ p ∈ Lts.visits (Submission.step fastJob hiPri) State.init as,
      breaksReservation p.1 p.2 = false) (hidle : s.idle = true) (w : Fin n) :
    (s.thread.worker w).immediateCoreInUse = true ↔
      ∃ t, (t, some w) ∈ s.accepted ∧ s.thread.freed t = false := by
  have hall := Lts.run_inv_of (I := fun s => Inv fastJob hiPri s ∧ Reserved fastJob s)
    (G := fun s a => reservesFast fastJob a = true ∧ breaksReservation s a = false)
    (fun h hg hs => ⟨h.1.step (by
      simp only [breaksReservation, Bool.or_eq_false_iff] at hg
      exact hg.2.1.1.1) hs, h.2.step h.1 hg.1 hg.2 hs⟩) ⟨Inv.init, Reserved.init⟩ hrun
    fun p hp => ⟨hfast _ (Lts.mem_of_mem_visits hp), hgood p hp⟩
  exact hall.2.flag_iff hidle w

end

/-- Successive steps of a worker. -/
def workerRun (w : Fin 2) (cs : List (Thread.Choice 2 0)) : List (Act 2 0 Bool) :=
  cs.map fun c => .thread (.worker w c)

/-- A task is forked on worker `v` and gets to the inbox of worker `w`; worker `v` steals it from
the deque of worker `w` and completes it, and another task is put in the slot of worker `w`. -/
def reservedRun (w v : Fin 2) : List (Act 2 0 Bool) :=
  [.pushFork true v false, .call 0 w, .call 0 w, .call 0 w, .call 0 w, .call 0 w] ++
    workerRun w [.go, .go, .go, .go, .probes [v], .wins true, .wins true, .go, .wins true,
      .wins true, .wins true] ++
    workerRun v [.go, .go, .go, .go, .probes [w], .wins true, .wins true, .go, .go, .go] ++
    [.thread (.pushImmediate false 1), .thread (.call 0 w), .thread (.call 0 w),
      .thread (.call 0 w)]

theorem immediateCoresInUse_iff_reservedRun : ∃ s : State 2 0 Bool,
    Lts.run (step (fun _ => true) fun _ => false) State.init (reservedRun 0 1) = some s ∧
      s.accepted = [(true, some 1), (false, some 0)] ∧ s.thread.freed true = true ∧
      ∀ w, ((s.thread.worker w).immediateCoreInUse = true ↔
        ∃ t, (t, some w) ∈ s.accepted ∧ s.thread.freed t = false) := by
  refine ⟨(Lts.run _ _ (reservedRun 0 1)).get (by decide), (Option.some_get _).symm, by decide,
    by decide, ?_⟩
  exact immediateCoresInUse_iff (Option.some_get (by decide)).symm (by decide) (by decide)
    (by decide)

/-- The task that reserved worker 0 is completed by worker 1. -/
theorem immediateCoresInUse_left : ¬ ∀ (as : List (Act 2 0 Bool)) (s : State 2 0 Bool),
    Lts.run (step (fun _ => true) fun _ => false) State.init as = some s →
      (∀ a ∈ as, reservesFast (fun _ => true) a = true) →
      (∀ p ∈ Lts.visits (step (fun _ => true) fun _ => false) State.init as,
        handsBack p.1 p.2 = false) → s.idle = true → ∀ w : Fin 2,
      ((s.thread.worker w).immediateCoreInUse = true ↔
        ∃ t, (t, some w) ∈ s.accepted ∧ s.thread.freed t = false) := by
  intro hall
  have := (hall (forkedRun 0 1) _ (Option.some_get (by decide)).symm (by decide) (by decide)
    (by decide) 0).1 (by decide)
  exact absurd this (by decide)

end JLibScheduler.Submission
