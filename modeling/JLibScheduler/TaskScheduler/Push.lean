import Mathlib

/-!
# Where the scheduler puts a task

`PushMain`, `PushToCore` and `PushLocal` of `src/TaskScheduler.cpp`, each as a whole call on a pool
of `n` workers. A worker whose `immediateCoresInUse` flag is set takes no task from these calls:
`PushLocal` refuses a task with the affinity of such a worker, and otherwise asks `PickNextWorker`
again until it gets a free one. The choice is held in a `uint8_t`, so it is taken modulo 256.

The loop of `PushLocal` need not end; `chooseWorker` bounds its turns. It ends, whatever the start
of the round robin, exactly when one of the first 256 workers is free (`chooseWorker_isSome`).
-/

namespace JLibScheduler.TaskScheduler

/-- The part of the scheduler that the pushes use, for `n` workers. `pendingTasks` is the `int` of
the source while it stays below `2 ^ 31`. -/
structure Pool (n : Nat) (τ : Type) where
  immediateCoresInUse : Fin n → Bool
  nextWorker : Fin n
  hiPriInboxes : Fin n → List τ
  loPriInboxes : Fin n → List τ
  immediateTask : Fin n → Option τ
  mainQ : List τ
  pendingTasks : Nat
  poolActive : Bool

section
variable {n : Nat} [NeZero n] {τ : Type}

/-- `PickNextWorker`: the first free worker from `nextWorker` on, else `nextWorker` itself; and the
`nextWorker` after it. -/
def pickNextWorker (inUse : Fin n → Bool) (nextWorker : Fin n) : Fin n × Fin n :=
  match (List.range n).find? fun i => !inUse (Fin.ofNat n (nextWorker + i)) with
  | some i => (Fin.ofNat n (nextWorker + i), Fin.ofNat n (nextWorker + i + 1))
  | none => (nextWorker, nextWorker + 1)

/-- The conversion of a worker index to `uint8_t`. -/
def toUInt8 (w : Fin n) : Fin n := ⟨w % 256, (Nat.mod_le _ _).trans_lt w.2⟩

/-- `uint8_t chosen = PickNextWorker(); while (immediateCoresInUse[chosen]) chosen = …`, for a
number of turns. -/
def chooseWorker (inUse : Fin n → Bool) : Nat → Fin n → Option (Fin n × Fin n)
  | 0, _ => none
  | fuel + 1, nextWorker =>
    let (idx, next) := pickNextWorker inUse nextWorker
    if inUse (toUInt8 idx) then chooseWorker inUse fuel next else some (toUInt8 idx, next)

/-- `PushMain`. -/
def Pool.pushMain (pool : Pool n τ) (task : τ) : Bool × Pool n τ :=
  if pool.poolActive then (true, { pool with mainQ := pool.mainQ ++ [task] }) else (false, pool)

/-- `PushToCore`, for `PushImmediate`. -/
def Pool.pushToCore (pool : Pool n τ) (coreId : Nat) (task : τ) : Bool × Pool n τ :=
  if coreId < 1 then (false, pool)
  else if !pool.poolActive then (false, pool)
  else
    let idx := Fin.ofNat n (coreId - 1)
    if pool.immediateCoresInUse idx then (false, pool)
    else (true, { pool with
      immediateCoresInUse := Function.update pool.immediateCoresInUse idx true
      pendingTasks := pool.pendingTasks + 1
      immediateTask := Function.update pool.immediateTask idx (some task) })

/-- The push to an inbox of the worker `w`. -/
def Pool.enqueue (pool : Pool n τ) (w : Fin n) (hiPri : Bool) (task : τ) : Pool n τ :=
  if hiPri then
    { pool with
      hiPriInboxes := Function.update pool.hiPriInboxes w (pool.hiPriInboxes w ++ [task])
      pendingTasks := pool.pendingTasks + 1 }
  else
    { pool with
      loPriInboxes := Function.update pool.loPriInboxes w (pool.loPriInboxes w ++ [task])
      pendingTasks := pool.pendingTasks + 1 }

/-- `PushLocal`: with the affinity of a worker the task goes to its low priority inbox, and is
refused when the worker is in use; else it goes to a worker of the round robin. `none` when the
loop takes more than the turns allowed. -/
def Pool.pushLocal (pool : Pool n τ) (fuel : Nat) (task : τ) (hiPri : Bool) (cpuaffinity : UInt8) :
    Option (Bool × Pool n τ) :=
  if h : 0 < cpuaffinity.toNat ∧ cpuaffinity.toNat - 1 < n then
    if pool.immediateCoresInUse ⟨cpuaffinity.toNat - 1, h.2⟩ then some (false, pool)
    else some (true, pool.enqueue ⟨cpuaffinity.toNat - 1, h.2⟩ false task)
  else
    (chooseWorker pool.immediateCoresInUse fuel pool.nextWorker).map fun (chosen, next) =>
      (true, { pool with nextWorker := next }.enqueue chosen hiPri task)

/-! ## The round robin -/

variable {inUse : Fin n → Bool} {next : Fin n}

/-- Every worker is some number of places from `nextWorker`. -/
theorem exists_place (next w : Fin n) : ∃ d < n, Fin.ofNat n (next + d) = w := by
  refine ⟨(w + n - next) % n, Nat.mod_lt _ (Nat.pos_of_neZero n), Fin.ext ?_⟩
  simp only [Fin.ofNat, Nat.add_mod_mod]
  have := next.2
  rw [show next.val + (w.val + n - next.val) = w.val + n by omega, Nat.add_mod_right]
  exact Nat.mod_eq_of_lt w.2

/-- The picked worker is the first free one from `nextWorker` on; when none is free it is
`nextWorker` itself. -/
theorem pickNextWorker_cases (inUse : Fin n → Bool) (next : Fin n) :
    (∃ i, inUse (Fin.ofNat n (next + i)) = false ∧
      (∀ j < i, inUse (Fin.ofNat n (next + j)) = true) ∧
      pickNextWorker inUse next = (Fin.ofNat n (next + i), Fin.ofNat n (next + i + 1))) ∨
    (∀ w, inUse w = true) ∧ pickNextWorker inUse next = (next, next + 1) := by
  unfold pickNextWorker
  cases hfind : (List.range n).find? fun i => !inUse (Fin.ofNat n (next + i)) with
  | none =>
    rw [List.find?_range_eq_none] at hfind
    refine .inr ⟨fun w => ?_, rfl⟩
    obtain ⟨d, hd, rfl⟩ := exists_place next w
    simpa using hfind d hd
  | some i =>
    rw [List.find?_range_eq_some] at hfind
    exact .inl ⟨i, by simpa using hfind.1, fun j hj => by simpa using hfind.2.2 j hj, rfl⟩

/-- A free worker that is `d` places from `nextWorker` is picked, or another one before it, and
then it is fewer places away. -/
theorem pickNextWorker_of_free {d : Nat}
    (hfree : inUse (Fin.ofNat n (next + d)) = false) :
    (pickNextWorker inUse next).1 = Fin.ofNat n (next + d) ∨
      ∃ d' < d, Fin.ofNat n ((pickNextWorker inUse next).2 + d') = Fin.ofNat n (next + d) := by
  rcases pickNextWorker_cases inUse next with ⟨i, -, hfirst, hpick⟩ | ⟨hall, -⟩
  · rw [hpick]
    have hle : i ≤ d := by
      by_contra hlt
      have := hfirst d (by omega)
      rw [hfree] at this
      cases this
    rcases hle.eq_or_lt with rfl | hlt
    · exact .inl rfl
    · refine .inr ⟨d - i - 1, by omega, ?_⟩
      simp only [Fin.ofNat, Fin.mk.injEq, Nat.mod_add_mod]
      congr 1
      omega
  · rw [hall] at hfree
    cases hfree

omit [NeZero n] in
theorem toUInt8_of_lt {w : Fin n} (hw : w.val < 256) : toUInt8 w = w :=
  Fin.ext (Nat.mod_eq_of_lt hw)

/-- The loop gets to a free worker among the first 256. -/
theorem chooseWorker_of_free {d fuel : Nat} (hd : d < n) (hfuel : d < fuel)
    (hlt : (Fin.ofNat n (next + d)).val < 256) (hfree : inUse (Fin.ofNat n (next + d)) = false) :
    (chooseWorker inUse fuel next).isSome := by
  induction fuel generalizing next d with
  | zero => omega
  | succ fuel ih =>
    simp only [chooseWorker]
    split_ifs with hused
    · rcases pickNextWorker_of_free hfree with heq | ⟨d', hd', heq⟩
      · rw [heq, toUInt8_of_lt hlt, hfree] at hused
        cases hused
      · rw [← heq] at hlt hfree
        exact ih (by omega) (by omega) hlt hfree
    · rfl

/-- What the loop chooses is a free worker, one of the first 256. -/
theorem free_of_chooseWorker {fuel : Nat} {w next' : Fin n}
    (h : chooseWorker inUse fuel next = some (w, next')) : inUse w = false ∧ w.val < 256 := by
  induction fuel generalizing next with
  | zero => cases h
  | succ fuel ih =>
    simp only [chooseWorker] at h
    split_ifs at h with hused
    · exact ih h
    · cases h
      exact ⟨by simpa using hused, Nat.mod_lt _ (by omega)⟩

/-- The loop ends, within `n` turns, exactly when one of the first 256 workers is free. -/
theorem chooseWorker_isSome (next : Fin n) : (∃ fuel, (chooseWorker inUse fuel next).isSome) ↔
    ∃ w : Fin n, w.val < 256 ∧ inUse w = false := by
  constructor
  · rintro ⟨fuel, h⟩
    obtain ⟨⟨w, next'⟩, h⟩ := Option.isSome_iff_exists.1 h
    exact ⟨w, (free_of_chooseWorker h).2, (free_of_chooseWorker h).1⟩
  · rintro ⟨w, hw, hfree⟩
    obtain ⟨d, hd, hw'⟩ := exists_place next w
    rw [← hw'] at hw hfree
    exact ⟨n, chooseWorker_of_free hd hd hw hfree⟩

end

section
variable {n : Nat} {τ : Type} [DecidableEq τ]

/-! ## How often a task is queued -/

/-- How often the task is in an inbox or the immediate slot of the worker. -/
def Pool.placesAt (pool : Pool n τ) (task : τ) (w : Fin n) : Nat :=
  (pool.hiPriInboxes w).count task + (pool.loPriInboxes w).count task +
    if pool.immediateTask w = some task then 1 else 0

/-- How often the task is in a queue of the scheduler. -/
def Pool.places (pool : Pool n τ) (task : τ) : Nat :=
  ∑ w, pool.placesAt task w + pool.mainQ.count task

theorem Pool.places_pushMain {pool : Pool n τ} (hactive : pool.poolActive = true) (task : τ) :
    (pool.pushMain task).2.places task = pool.places task + 1 := by
  rw [Pool.pushMain, if_pos hactive]
  change ∑ w, pool.placesAt task w + (pool.mainQ ++ [task]).count task = _
  rw [List.count_append, List.count_singleton_self, ← Nat.add_assoc, Pool.places]

theorem Pool.places_enqueue (pool : Pool n τ) (w : Fin n) (hiPri : Bool) (task : τ) :
    (pool.enqueue w hiPri task).places task = pool.places task + 1 := by
  have hat : ∀ x, (pool.enqueue w hiPri task).placesAt task x =
      pool.placesAt task x + if x = w then 1 else 0 := by
    intro x
    by_cases hx : x = w
    · subst hx
      cases hiPri <;> simp [Pool.enqueue, Pool.placesAt] <;> omega
    · cases hiPri <;> simp [Pool.enqueue, Pool.placesAt, hx]
  have hmain : (pool.enqueue w hiPri task).mainQ = pool.mainQ := by
    cases hiPri <;> rfl
  unfold Pool.places
  rw [hmain, Finset.sum_congr rfl fun x _ => hat x, Finset.sum_add_distrib]
  simp only [Finset.sum_ite_eq', Finset.mem_univ, if_true]
  omega

end

end JLibScheduler.TaskScheduler
