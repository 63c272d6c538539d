import JLibScheduler.TaskScheduler.Push

/-!
# `PushFork`

`PushFork` of `src/TaskScheduler.cpp:510-538` as a whole call. It selects a worker, the one that
the calling fiber runs on or else the one that `PickNextWorker` picks, whose flag it sets. Then it
hands the index of the worker to `PushLocal`, which takes it for an affinity: one more than an
index, in a `uint8_t`, where zero is no affinity. So the task goes to the worker before the selected
one, or is refused there after the flag and the counter were changed, or goes to any free worker
(`pushFork_delivers_iff`).
-/

namespace JLibScheduler.TaskScheduler

section
variable {n : Nat} [NeZero n] {τ : Type}

/-- `PushFork`, from a fiber on a worker or from outside, for a number of turns of the loop of
`PushLocal`. `PickNextWorker` never returns a negative index. -/
def Pool.pushFork (pool : Pool n τ) (fuel : Nat) (fiber : Option (Fin n)) (task : Option τ)
    (hiPri : Bool) : Option (Bool × Pool n τ) :=
  match task with
  | none => some (false, pool)
  | some task =>
    if !pool.poolActive then some (false, pool)
    else
      match fiber with
      | some worker =>
        { pool with pendingTasks := pool.pendingTasks + 1 }.pushLocal fuel task hiPri
          (UInt8.ofNat worker)
      | none =>
        let (worker, nextWorker) := pickNextWorker pool.immediateCoresInUse pool.nextWorker
        let pool := { pool with nextWorker }
        if pool.immediateCoresInUse worker then some (false, pool)
        else
          { pool with
            immediateCoresInUse := Function.update pool.immediateCoresInUse worker true
            pendingTasks := pool.pendingTasks + 1 }.pushLocal fuel task hiPri (UInt8.ofNat worker)

/-- The worker that `PushFork` selects. -/
def Pool.selected (pool : Pool n τ) (fiber : Option (Fin n)) : Fin n :=
  fiber.getD (pickNextWorker pool.immediateCoresInUse pool.nextWorker).1

/-- A call that succeeds puts the task in an inbox of the selected worker, and one that fails
changes no flag, no counter and no queue. -/
def Pool.Delivers (pool : Pool n τ) (fiber : Option (Fin n)) (task : Option τ)
    (r : Bool × Pool n τ) : Prop :=
  (r.1 = true → ∃ t ∈ task,
    r.2.loPriInboxes (pool.selected fiber) = pool.loPriInboxes (pool.selected fiber) ++ [t] ∨
    r.2.hiPriInboxes (pool.selected fiber) = pool.hiPriInboxes (pool.selected fiber) ++ [t]) ∧
  (r.1 = false → r.2.immediateCoresInUse = pool.immediateCoresInUse ∧
    r.2.pendingTasks = pool.pendingTasks ∧ r.2.hiPriInboxes = pool.hiPriInboxes ∧
    r.2.loPriInboxes = pool.loPriInboxes ∧ r.2.immediateTask = pool.immediateTask ∧
    r.2.mainQ = pool.mainQ)

/-- The worker `d` places from `nextWorker` is the first that is free while the worker with its
index modulo 256 is free too. -/
def FirstOpen (inUse : Fin n → Bool) (next : Fin n) (d : Nat) : Prop :=
  (inUse (Fin.ofNat n (next + d)) = false ∧ inUse (toUInt8 (Fin.ofNat n (next + d))) = false) ∧
    ∀ e < d, ¬ (inUse (Fin.ofNat n (next + e)) = false ∧
      inUse (toUInt8 (Fin.ofNat n (next + e))) = false)

/-! ## What the round robin chooses -/

variable {inUse : Fin n → Bool} {next : Fin n}

/-- The choice of the loop is the first open worker, truncated. -/
theorem firstOpen_of_chooseWorker {fuel : Nat} {w next' : Fin n}
    (h : chooseWorker inUse fuel next = some (w, next')) :
    ∃ d, FirstOpen inUse next d ∧ w = toUInt8 (Fin.ofNat n (next + d)) := by
  induction fuel generalizing next with
  | zero => cases h
  | succ fuel ih =>
    simp only [chooseWorker] at h
    rcases pickNextWorker_cases inUse next with ⟨i, hfree, hused, hpick⟩ | ⟨hall, hpick⟩
    · rw [hpick] at h
      split_ifs at h with htrunc
      · obtain ⟨d, ⟨hopen, hfirst⟩, rfl⟩ := ih h
        have hshift : ∀ e, Fin.ofNat n (Fin.ofNat n (next + i + 1) + e) =
            Fin.ofNat n (next + (i + 1 + e)) := by
          intro e
          simp only [Fin.ofNat, Fin.mk.injEq, Nat.mod_add_mod]
          congr 1
          omega
        simp only [hshift] at hopen hfirst ⊢
        refine ⟨i + 1 + d, ⟨hopen, fun e he hopen' => ?_⟩, rfl⟩
        rcases Nat.lt_trichotomy e i with hlt | rfl | hgt
        · rw [hused e hlt] at hopen'
          cases hopen'.1
        · rw [htrunc] at hopen'
          cases hopen'.2
        · refine hfirst (e - (i + 1)) (by omega) ?_
          rwa [show i + 1 + (e - (i + 1)) = e by omega]
      · cases h
        refine ⟨i, ⟨⟨hfree, by simpa using htrunc⟩, fun e he hopen' => ?_⟩, rfl⟩
        rw [hused e he] at hopen'
        cases hopen'.1
    · have hchoose : chooseWorker inUse (fuel + 1) next = some (w, next') := by
        simpa only [chooseWorker] using h
      have hfree := (free_of_chooseWorker hchoose).1
      rw [hall] at hfree
      cases hfree

/-- The loop chooses the first open worker, truncated, and nothing else. -/
theorem chooseWorker_iff (w : Fin n) :
    (∃ fuel next', chooseWorker inUse fuel next = some (w, next')) ↔
      ∃ d, FirstOpen inUse next d ∧ w = toUInt8 (Fin.ofNat n (next + d)) := by
  constructor
  · rintro ⟨fuel, next', h⟩
    exact firstOpen_of_chooseWorker h
  · rintro ⟨d, ⟨hopen, hfirst⟩, rfl⟩
    obtain ⟨fuel, hsome⟩ := (chooseWorker_isSome next).2
      ⟨_, Nat.mod_lt _ (by omega), hopen.2⟩
    obtain ⟨⟨w, next'⟩, h⟩ := Option.isSome_iff_exists.1 hsome
    obtain ⟨d', ⟨hopen', hfirst'⟩, rfl⟩ := firstOpen_of_chooseWorker h
    obtain rfl : d' = d := by
      rcases Nat.lt_trichotomy d' d with hlt | heq | hgt
      · exact absurd hopen' (hfirst d' hlt)
      · exact heq
      · exact absurd hopen (hfirst' d hgt)
    exact ⟨fuel, next', h⟩

/-! ## The inner push -/

variable {pool pool₁ : Pool n τ} {fiber : Option (Fin n)} {w : Fin n} {task : τ} {hiPri : Bool}

omit [NeZero n] in
theorem toNat_ofNat_worker (w : Fin n) : (UInt8.ofNat w).toNat = w % 256 := by
  simp

omit [NeZero n] in
/-- The push to an inbox leaves the others as they are. -/
theorem enqueue_inboxes (pool : Pool n τ) (w x : Fin n) (hiPri : Bool) (task : τ) :
    (pool.enqueue w hiPri task).loPriInboxes x =
        (if x = w ∧ hiPri = false then pool.loPriInboxes x ++ [task] else pool.loPriInboxes x) ∧
      (pool.enqueue w hiPri task).hiPriInboxes x =
        (if x = w ∧ hiPri = true then pool.hiPriInboxes x ++ [task] else pool.hiPriInboxes x) := by
  by_cases hx : x = w
  · subst hx
    cases hiPri <;> simp [Pool.enqueue]
  · cases hiPri <;> simp [Pool.enqueue, hx]

/-- The push to an inbox delivers the task exactly when it is that of the selected worker. -/
theorem delivers_enqueue_iff (hlo : pool₁.loPriInboxes = pool.loPriInboxes)
    (hhi : pool₁.hiPriInboxes = pool.hiPriInboxes) :
    pool.Delivers fiber (some task) (true, pool₁.enqueue w hiPri task) ↔
      w = pool.selected fiber := by
  obtain ⟨hlo', hhi'⟩ := enqueue_inboxes pool₁ w (pool.selected fiber) hiPri task
  constructor
  · intro h
    obtain ⟨t, ht, hin⟩ := h.1 rfl
    by_contra hne
    have hne' : ¬ (pool.selected fiber = w) := Ne.symm hne
    rw [hlo', hhi', if_neg fun h => hne' h.1, if_neg fun h => hne' h.1, hlo, hhi] at hin
    simp at hin
  · intro heq
    refine ⟨fun _ => ⟨task, rfl, ?_⟩, fun h => (by cases h)⟩
    rw [hlo', hhi', hlo, hhi]
    cases hiPri
    · exact .inl (if_pos ⟨heq.symm, rfl⟩)
    · exact .inr (if_pos ⟨heq.symm, rfl⟩)

/-- With the index of a worker that is no multiple of 256 the task goes to another worker, or is
refused after the counter was raised. -/
theorem exists_not_delivers (pool pool₁ : Pool n τ) (fiber : Option (Fin n)) (task : τ)
    (hiPri : Bool) (hlo : pool₁.loPriInboxes = pool.loPriInboxes)
    (hhi : pool₁.hiPriInboxes = pool.hiPriInboxes)
    (hpending : pool₁.pendingTasks = pool.pendingTasks + 1)
    (hpos : 0 < (pool.selected fiber).val % 256) :
    ∃ r, pool₁.pushLocal 0 task hiPri (UInt8.ofNat (pool.selected fiber)) = some r ∧
      ¬ pool.Delivers fiber (some task) r := by
  have hle := Nat.mod_le (pool.selected fiber).val 256
  have hlt := (pool.selected fiber).2
  rw [Pool.pushLocal, dif_pos (by rw [toNat_ofNat_worker]; omega)]
  split_ifs with hused
  · refine ⟨_, rfl, fun h => ?_⟩
    have := (h.2 rfl).2.1
    simp only [hpending] at this
    omega
  · refine ⟨_, rfl, ?_⟩
    rw [delivers_enqueue_iff hlo hhi]
    intro heq
    have hval : (UInt8.ofNat (pool.selected fiber)).toNat - 1 = (pool.selected fiber).val :=
      congrArg Fin.val heq
    rw [toNat_ofNat_worker] at hval
    omega

/-- With a multiple of 256 the task goes to the choice of the round robin. -/
theorem delivers_iff_of_zero (pool pool₁ : Pool n τ) (fiber : Option (Fin n)) (task : τ)
    (hiPri : Bool) (hlo : pool₁.loPriInboxes = pool.loPriInboxes)
    (hhi : pool₁.hiPriInboxes = pool.hiPriInboxes)
    (hzero : (pool.selected fiber).val % 256 = 0) :
    (∀ fuel r, pool₁.pushLocal fuel task hiPri (UInt8.ofNat (pool.selected fiber)) = some r →
      pool.Delivers fiber (some task) r) ↔
    ∀ fuel w next', chooseWorker pool₁.immediateCoresInUse fuel pool₁.nextWorker =
      some (w, next') → w = pool.selected fiber := by
  have hpush : ∀ fuel, pool₁.pushLocal fuel task hiPri (UInt8.ofNat (pool.selected fiber)) =
      (chooseWorker pool₁.immediateCoresInUse fuel pool₁.nextWorker).map fun (chosen, next) =>
        (true, { pool₁ with nextWorker := next }.enqueue chosen hiPri task) := by
    intro fuel
    rw [Pool.pushLocal, dif_neg (by rw [toNat_ofNat_worker]; omega)]
  constructor
  · intro h fuel w next' hchoose
    have hr : pool₁.pushLocal fuel task hiPri (UInt8.ofNat (pool.selected fiber)) =
        some (true, { pool₁ with nextWorker := next' }.enqueue w hiPri task) := by
      rw [hpush, hchoose]
      rfl
    have hdelivers := h fuel _ hr
    rwa [delivers_enqueue_iff (by exact hlo) (by exact hhi)] at hdelivers
  · intro h fuel r hr
    rw [hpush, Option.map_eq_some_iff] at hr
    obtain ⟨⟨w, next'⟩, hchoose, rfl⟩ := hr
    change pool.Delivers fiber (some task)
      (true, { pool₁ with nextWorker := next' }.enqueue w hiPri task)
    rw [delivers_enqueue_iff (by exact hlo) (by exact hhi)]
    exact h fuel w next' hchoose

/-- What the round robin chooses is one worker only when the first open worker is it, truncated. -/
theorem forall_chooseWorker_iff :
    (∀ fuel x next', chooseWorker inUse fuel next = some (x, next') → x = w) ↔
      ∀ d, FirstOpen inUse next d → toUInt8 (Fin.ofNat n (next + d)) = w := by
  constructor
  · intro h d hd
    obtain ⟨fuel, next', hchoose⟩ := (chooseWorker_iff _).2 ⟨d, hd, rfl⟩
    exact h fuel _ next' hchoose
  · intro h fuel x next' hchoose
    obtain ⟨d, hd, rfl⟩ := (chooseWorker_iff x).1 ⟨fuel, next', hchoose⟩
    exact h d hd

/-- The round robin never ends, or chooses a worker that is in use, when no other is free. -/
theorem forall_chooseWorker_update_iff :
    (∀ fuel x next', chooseWorker (Function.update inUse w true) fuel next = some (x, next') →
      x = w) ↔ ∀ x : Fin n, x.val < 256 → x ≠ w → inUse x = true := by
  constructor
  · intro h x hx hne
    by_contra hfree
    have hfree' : Function.update inUse w true x = false := by
      rw [Function.update_of_ne hne]
      simpa using hfree
    obtain ⟨fuel, hsome⟩ := (chooseWorker_isSome next).2 ⟨x, hx, hfree'⟩
    obtain ⟨⟨y, next'⟩, hchoose⟩ := Option.isSome_iff_exists.1 hsome
    have hy := (free_of_chooseWorker hchoose).1
    rw [h fuel y next' hchoose, Function.update_self] at hy
    cases hy
  · intro h fuel x next' hchoose
    obtain ⟨hfree, hx⟩ := free_of_chooseWorker hchoose
    by_contra hne
    rw [Function.update_of_ne hne, h x hx hne] at hfree
    cases hfree

/-- When `PushFork` delivers the task to the selected worker, or fails and changes nothing. Outside
of fibers: every worker is in use, so that it refuses; or the index of the picked worker is a
multiple of 256 and no other of the first 256 workers is free, so that the call never returns. On a
fiber: the index of its worker is a multiple of 256, and so is that of the first open worker. -/
theorem pushFork_delivers_iff (pool : Pool n τ) (fiber : Option (Fin n)) (task : Option τ)
    (hiPri : Bool) :
    (∀ fuel r, pool.pushFork fuel fiber task hiPri = some r → pool.Delivers fiber task r) ↔
      task = none ∨ pool.poolActive = false ∨
        match fiber with
        | none => (∀ w, pool.immediateCoresInUse w = true) ∨
            (pool.selected none).val % 256 = 0 ∧ ∀ w : Fin n, w.val < 256 →
              w ≠ pool.selected none → pool.immediateCoresInUse w = true
        | some worker => worker.val % 256 = 0 ∧ ∀ d,
            FirstOpen pool.immediateCoresInUse pool.nextWorker d →
              toUInt8 (Fin.ofNat n (pool.nextWorker + d)) = worker := by
  have hsame : pool.Delivers fiber task (false, pool) :=
    ⟨fun h => (by cases h), fun _ => ⟨rfl, rfl, rfl, rfl, rfl, rfl⟩⟩
  cases task with
  | none =>
    refine iff_of_true (fun fuel r hr => ?_) (.inl rfl)
    cases hr
    exact hsame
  | some task =>
    by_cases hactive : pool.poolActive = false
    · refine iff_of_true (fun fuel r hr => ?_) (.inr (.inl hactive))
      simp only [Pool.pushFork, hactive, Bool.not_false, if_true] at hr
      cases hr
      exact hsame
    · rw [Bool.not_eq_false] at hactive
      simp only [reduceCtorEq, false_or, hactive, Bool.true_eq_false]
      cases fiber with
      | some worker =>
        have hfork : ∀ fuel, pool.pushFork fuel (some worker) (some task) hiPri =
            { pool with pendingTasks := pool.pendingTasks + 1 }.pushLocal fuel task hiPri
              (UInt8.ofNat worker) := by
          intro fuel
          simp only [Pool.pushFork, hactive, Bool.not_true, Bool.false_eq_true, if_false]
        simp only [hfork]
        by_cases hzero : worker.val % 256 = 0
        · have hiff := delivers_iff_of_zero pool { pool with pendingTasks := pool.pendingTasks + 1 }
            (some worker) task hiPri rfl rfl hzero
          rw [forall_chooseWorker_iff] at hiff
          exact hiff.trans (and_iff_right hzero).symm
        · obtain ⟨r, hr, hnot⟩ := exists_not_delivers pool
            { pool with pendingTasks := pool.pendingTasks + 1 } (some worker) task hiPri rfl rfl rfl
            (Nat.pos_of_ne_zero hzero)
          exact iff_of_false (fun h => hnot (h 0 r hr)) fun h => hzero h.1
      | none =>
        by_cases hused : pool.immediateCoresInUse (pool.selected none) = true
        · -- a worker in use is picked only when all are
          have hall : ∀ w, pool.immediateCoresInUse w = true := by
            rcases pickNextWorker_cases pool.immediateCoresInUse pool.nextWorker with
              ⟨i, hfree, -, hpick⟩ | ⟨hall, -⟩
            · rw [Pool.selected, Option.getD_none, hpick, hfree] at hused
              cases hused
            · exact hall
          refine iff_of_true (fun fuel r hr => ?_) (.inl hall)
          simp only [Pool.pushFork, hactive, Bool.not_true, Bool.false_eq_true, if_false] at hr
          rw [if_pos (hall _)] at hr
          cases hr
          exact ⟨fun h => (by cases h), fun _ => ⟨rfl, rfl, rfl, rfl, rfl, rfl⟩⟩
        · let pool₁ : Pool n τ :=
            { pool with
              nextWorker := (pickNextWorker pool.immediateCoresInUse pool.nextWorker).2
              immediateCoresInUse :=
                Function.update pool.immediateCoresInUse (pool.selected none) true
              pendingTasks := pool.pendingTasks + 1 }
          have hfork : ∀ fuel, pool.pushFork fuel none (some task) hiPri =
              pool₁.pushLocal fuel task hiPri (UInt8.ofNat (pool.selected none)) := by
            intro fuel
            have hfree : ¬ pool.immediateCoresInUse
                (pickNextWorker pool.immediateCoresInUse pool.nextWorker).1 = true := hused
            simp only [Pool.pushFork, hactive, Bool.not_true, Bool.false_eq_true, if_false, hfree,
              pool₁, Pool.selected, Option.getD_none]
          have hnot : ¬ ∀ w, pool.immediateCoresInUse w = true := fun h => hused (h _)
          simp only [hfork, hnot, false_or]
          by_cases hzero : (pool.selected none).val % 256 = 0
          · rw [delivers_iff_of_zero pool pool₁ none task hiPri rfl rfl hzero,
              forall_chooseWorker_update_iff]
            exact (and_iff_right hzero).symm
          · obtain ⟨r, hr, hbad⟩ := exists_not_delivers pool pool₁ none task hiPri rfl rfl rfl
              (Nat.pos_of_ne_zero hzero)
            exact iff_of_false (fun h => hbad (h 0 r hr)) fun h => hzero h.1

/-- Two workers, both free. -/
def twoFree (nextWorker : Fin 2) : Pool 2 Nat where
  immediateCoresInUse := fun _ => false
  nextWorker
  hiPriInboxes := fun _ => []
  loPriInboxes := fun _ => []
  immediateTask := fun _ => none
  mainQ := []
  pendingTasks := 0
  poolActive := true

/-- With every worker in use the call refuses the task; from a fiber on worker 0, with both free and
worker 0 the next one, it puts the task in the inbox of worker 0. -/
theorem pushFork_delivers_iff_twoFree :
    { twoFree 0 with immediateCoresInUse := fun _ => true }.Delivers none (some 7)
      (({ twoFree 0 with immediateCoresInUse := fun _ => true }.pushFork 1 none (some 7) false).get
        (by decide)) ∧
    ∃ r, (twoFree 0).pushFork 1 (some 0) (some 7) false = some r ∧ r.1 = true ∧
      r.2.loPriInboxes 0 = [7] ∧ (twoFree 0).Delivers (some 0) (some 7) r := by
  refine ⟨?_, _, (Option.some_get (by decide)).symm, by decide, by decide, ?_⟩
  · exact (pushFork_delivers_iff { twoFree 0 with immediateCoresInUse := fun _ => true } none
      (some 7) false).2 (.inr (.inr (.inl fun _ => rfl))) 1 _ (Option.some_get (by decide)).symm
  · refine (pushFork_delivers_iff (twoFree 0) (some 0) (some 7) false).2
      (.inr (.inr ⟨rfl, fun d hopen => ?_⟩)) 1 _ (Option.some_get (by decide)).symm
    cases d with
    | zero => rfl
    | succ d => exact absurd ⟨rfl, rfl⟩ (hopen.2 0 (Nat.succ_pos d))

/-- From outside, with worker 0 picked and reserved, the task goes to worker 1. -/
theorem not_delivers_pushFork : ¬ ∀ (n : Nat) (_ : NeZero n) (pool : Pool n Nat)
    (fiber : Option (Fin n)) (task : Option Nat) (hiPri : Bool) (fuel : Nat)
    (r : Bool × Pool n Nat), pool.pushFork fuel fiber task hiPri = some r →
      pool.Delivers fiber task r := by
  intro h
  have hdelivers := h 2 inferInstance (twoFree 0) none (some 7) false 1 _
    (Option.some_get (by decide)).symm
  obtain ⟨t, ht, hin⟩ := hdelivers.1 (by decide)
  cases ht
  rcases hin with hin | hin
  · exact absurd (congrArg List.length hin) (by decide)
  · exact absurd (congrArg List.length hin) (by decide)

end

end JLibScheduler.TaskScheduler
