import JLibScheduler.TaskScheduler.Batch

/-!
# When a placement ends

`PushLocal` without the affinity of a worker, `Requeue` and `PushBatch` of `src/TaskScheduler.cpp`
ask `PickNextWorker` again until it gives a worker whose flag is not set, and `PickNextWorker` gives
a worker with a set flag when there is no other. With the flags held fixed the loops of `PushLocal`
and `Requeue`, which keep the choice in a `uint8_t`, end exactly when one of the first 256 workers
is free, and that of `PushBatch` when any is (`placement_ends_iff`). `PushImmediate` on every core
sets all of the flags.
-/

namespace JLibScheduler.TaskScheduler

section
variable {n : Nat} [NeZero n] {τ : Type}

/-- `Requeue`: `PushLocal` without affinity, less the change of the counter. -/
def Pool.requeue (pool : Pool n τ) (fuel : Nat) (task : Option τ) (hiPri : Bool) :
    Option (Bool × Pool n τ) :=
  match task with
  | none => some (false, pool)
  | some task =>
    (chooseWorker pool.immediateCoresInUse fuel pool.nextWorker).map fun (chosen, next) =>
      (true, { { pool with nextWorker := next }.enqueue chosen hiPri task with
        pendingTasks := pool.pendingTasks })

/-- The task is at the end of an inbox of a free worker; the other inboxes and the flags are as they
were. -/
def Pool.Enqueued (pool : Pool n τ) (task : τ) (hiPri : Bool) (pool' : Pool n τ) : Prop :=
  pool'.immediateCoresInUse = pool.immediateCoresInUse ∧
  ∃ w, pool.immediateCoresInUse w = false ∧
    if hiPri then
      pool'.hiPriInboxes =
        Function.update pool.hiPriInboxes w (pool.hiPriInboxes w ++ [task]) ∧
      pool'.loPriInboxes = pool.loPriInboxes
    else
      pool'.loPriInboxes =
        Function.update pool.loPriInboxes w (pool.loPriInboxes w ++ [task]) ∧
      pool'.hiPriInboxes = pool.hiPriInboxes

/-- The call ends after some number of turns, with the task enqueued or refused. -/
def Pool.Ends (pool : Pool n τ) (call : Nat → Option (Bool × Pool n τ)) (task : τ)
    (hiPri : Bool) : Prop :=
  ∃ fuel ok pool', call fuel = some (ok, pool') ∧
    if ok then pool.Enqueued task hiPri pool' else pool' = pool

omit [NeZero n] in
theorem Pool.Enqueued.enqueue (pool : Pool n τ) {w : Fin n}
    (hfree : pool.immediateCoresInUse w = false) (next : Fin n) (task : τ) (hiPri : Bool) :
    pool.Enqueued task hiPri ({ pool with nextWorker := next }.enqueue w hiPri task) := by
  cases hiPri with
  | false => exact ⟨rfl, w, hfree, rfl, rfl⟩
  | true => exact ⟨rfl, w, hfree, rfl, rfl⟩

/-- A call that enqueues the task at the choice of the loop ends exactly when the loop does. -/
theorem Pool.ends_iff (pool : Pool n τ) {call : Nat → Option (Bool × Pool n τ)} {task : τ}
    {hiPri : Bool} (place : Fin n × Fin n → Pool n τ)
    (hcall : ∀ fuel, call fuel =
      (chooseWorker pool.immediateCoresInUse fuel pool.nextWorker).map fun r => (true, place r))
    (hplace : ∀ r : Fin n × Fin n, pool.immediateCoresInUse r.1 = false →
      pool.Enqueued task hiPri (place r)) :
    pool.Ends call task hiPri ↔ ∃ w : Fin n, w.val < 256 ∧ pool.immediateCoresInUse w = false := by
  rw [← chooseWorker_isSome pool.nextWorker]
  constructor
  · rintro ⟨fuel, ok, pool', hsome, -⟩
    refine ⟨fuel, ?_⟩
    rw [hcall, Option.map_eq_some_iff] at hsome
    obtain ⟨r, hchoose, -⟩ := hsome
    rw [hchoose]
    rfl
  · rintro ⟨fuel, hsome⟩
    obtain ⟨r, hchoose⟩ := Option.isSome_iff_exists.1 hsome
    refine ⟨fuel, true, place r, ?_, ?_⟩
    · rw [hcall, hchoose]
      rfl
    · exact hplace r (free_of_chooseWorker hchoose).1

theorem Pool.pushLocal_ends_iff (pool : Pool n τ) (task : τ) (hiPri : Bool) {cpuaffinity : UInt8}
    (hnone : ¬ (0 < cpuaffinity.toNat ∧ cpuaffinity.toNat - 1 < n)) :
    pool.Ends (fun fuel => pool.pushLocal fuel task hiPri cpuaffinity) task hiPri ↔
      ∃ w : Fin n, w.val < 256 ∧ pool.immediateCoresInUse w = false := by
  refine pool.ends_iff (fun r => { pool with nextWorker := r.2 }.enqueue r.1 hiPri task)
    (fun fuel => ?_) fun r hfree => Pool.Enqueued.enqueue pool hfree r.2 task hiPri
  rw [Pool.pushLocal, dif_neg hnone]

theorem Pool.requeue_ends_iff (pool : Pool n τ) (task : τ) (hiPri : Bool) :
    pool.Ends (fun fuel => pool.requeue fuel (some task) hiPri) task hiPri ↔
      ∃ w : Fin n, w.val < 256 ∧ pool.immediateCoresInUse w = false :=
  pool.ends_iff (fun r => { { pool with nextWorker := r.2 }.enqueue r.1 hiPri task with
    pendingTasks := pool.pendingTasks }) (fun _ => rfl)
    fun r hfree => Pool.Enqueued.enqueue pool hfree r.2 task hiPri

variable [DecidableEq τ]

/-- A batch is submitted exactly when there is one, the affinity is not greater than the number of
workers and some worker is free. -/
theorem BatchPool.pushBatch_ends_iff (pool : BatchPool n τ) {ls : Fin n → List τ}
    (hpool : pool.Holds ls) {tasks : List τ} (hnodup : tasks.Nodup)
    (hnew : ∀ x ∈ tasks, ∀ w, x ≠ pool.stub w ∧ x ∉ ls w) (hcount : tasks.length < 2 ^ 64)
    (cpuaffinity : UInt8) :
    (∃ fuel pool', pool.pushBatch fuel tasks cpuaffinity = some pool' ∧
      pool.Submits ls tasks cpuaffinity pool') ↔
      tasks ≠ [] ∧ cpuaffinity.toNat ≤ n ∧ ∃ w, pool.immediateCoresInUse w = false := by
  constructor
  · rintro ⟨fuel, pool', hpush, hsubmits⟩
    refine ⟨?_, ?_, _, hsubmits.free⟩
    · rintro rfl
      rw [pushBatch_nil] at hpush
      cases hpush
    · by_contra hlt
      rw [pushBatch_eq_none fun h => hlt h.2] at hpush
      cases hpush
  · rintro ⟨hb, hle, hfree⟩
    obtain ⟨pool', hpush, hsubmits⟩ := pushBatch_spec pool hpool hfree hb hnodup hnew hcount hle
    exact ⟨2, pool', hpush, hsubmits⟩

/-- With the flags held fixed, `PushLocal` without the affinity of a worker and `Requeue` end with
the task enqueued exactly when one of the first 256 workers is free, and `PushBatch` of a batch
whose affinity is not greater than the number of workers exactly when some worker is. -/
theorem placement_ends_iff (pool : Pool n τ) (task : τ) (hiPri : Bool) (batches : BatchPool n τ)
    (ls : Fin n → List τ) (hbatches : batches.Holds ls) :
    (∀ cpuaffinity : UInt8, ¬ (0 < cpuaffinity.toNat ∧ cpuaffinity.toNat - 1 < n) →
      (pool.Ends (fun fuel => pool.pushLocal fuel task hiPri cpuaffinity) task hiPri ↔
        ∃ w : Fin n, w.val < 256 ∧ pool.immediateCoresInUse w = false)) ∧
    (pool.Ends (fun fuel => pool.requeue fuel (some task) hiPri) task hiPri ↔
      ∃ w : Fin n, w.val < 256 ∧ pool.immediateCoresInUse w = false) ∧
    ∀ (tasks : List τ) (cpuaffinity : UInt8), tasks.Nodup →
      (∀ x ∈ tasks, ∀ w, x ≠ batches.stub w ∧ x ∉ ls w) → tasks.length < 2 ^ 64 →
      ((∃ fuel batches', batches.pushBatch fuel tasks cpuaffinity = some batches' ∧
          batches.Submits ls tasks cpuaffinity batches') ↔
        tasks ≠ [] ∧ cpuaffinity.toNat ≤ n ∧ ∃ w, batches.immediateCoresInUse w = false) :=
  ⟨fun _ hnone => pool.pushLocal_ends_iff task hiPri hnone, pool.requeue_ends_iff task hiPri,
    fun _ cpuaffinity hnodup hnew hcount =>
      batches.pushBatch_ends_iff hbatches hnodup hnew hcount cpuaffinity⟩

end

section

/-- One worker and nothing queued. -/
def oneWorker (nextWorker : Fin 1) : Pool 1 Nat where
  immediateCoresInUse := fun _ => false
  nextWorker
  hiPriInboxes := fun _ => []
  loPriInboxes := fun _ => []
  immediateTask := fun _ => none
  mainQ := []
  pendingTasks := 0
  poolActive := true

theorem placement_ends_iff_one :
    (oneWorker 0).Ends (fun fuel => (oneWorker 0).requeue fuel (some 4) false) 4 false ∧
    ∃ fuel batches', (emptyInboxes 0).pushBatch fuel [5, 6] 2 = some batches' ∧
      (emptyInboxes 0).Submits (fun _ => []) [5, 6] 2 batches' :=
  ⟨(placement_ends_iff (oneWorker 0) 4 false ⟨fun _ => false, 0, 0, fun _ => none, fun _ => 0,
      fun _ => ⟨0, 0⟩⟩ (fun _ => []) ⟨fun _ => ⟨List.not_mem_nil, List.nodup_nil, [0], .inl rfl,
        rfl, rfl, rfl⟩, fun w w' hne => absurd (Subsingleton.elim w w') hne⟩).2.1.2
      ⟨0, by decide, rfl⟩,
    ((placement_ends_iff ⟨fun _ => false, 0, fun _ => [], fun _ => [], fun _ => none, [], 0, true⟩
      5 false (emptyInboxes 0) (fun _ => []) holds_emptyInboxes).2.2 [5, 6] 2 (by decide)
      (by decide)
      (by decide)).2 ⟨by decide, by decide, 0, rfl⟩⟩

/-- After `PushImmediate` on the only core, `PushLocal` never ends. -/
theorem not_ends_pushLocal : ¬ ∀ (n : Nat) (_ : NeZero n) (pool : Pool n Nat) (task : Nat)
    (hiPri : Bool), pool.Ends (fun fuel => pool.pushLocal fuel task hiPri 0) task hiPri := by
  intro h
  have hends := h 1 inferInstance ((oneWorker 0).pushToCore 1 3).2 4 false
  rw [Pool.pushLocal_ends_iff _ _ _ (by decide)] at hends
  obtain ⟨w, -, hfree⟩ := hends
  obtain rfl := Subsingleton.elim w 0
  cases hfree

end

end JLibScheduler.TaskScheduler
