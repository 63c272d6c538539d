import JLibScheduler.TaskDeque.Whole
import JLibScheduler.TaskScheduler.Push

/-!
# `GetTask`

`GetTask` of `src/TaskScheduler.cpp:623-654` as a whole call on the deques of `n` workers, with no
concurrent call on a deque. It scans the high priority deques from a random one on and then the low
priority ones; after 8 steals of high priority in a row it scans the low priority deques only. So it
returns nothing, while a task is there, exactly when the scan of high priority is skipped and only
high priority deques hold a task (`getTask_conserves_iff`). The counter is then zero again: the next
call finds the task (`getTask_conserves_next`). It never passes 8 (`StealPool.counter_le`).
-/

namespace JLibScheduler.TaskScheduler

open TaskDeque

/-- The part of the scheduler that `GetTask` uses, for `n` workers. -/
structure StealPool (n : Nat) (τ : Type) where
  hiPri : Fin n → Indices τ
  loPri : Fin n → Indices τ
  consecutiveHiPriSteals : Nat

/-- After this number of steals of high priority in a row the low priority deques are scanned. -/
def kStealFairnessWindow : Nat := 8

section
variable {n : Nat} [NeZero n] {τ : Type}

/-- `for (i = …; i < numThreads; ++i) if (auto s = deques[(start + i) % numThreads]->steal()) …`,
for a number of turns from `i` on. -/
def scan (capacity : Nat) (deques : Fin n → Indices τ) (start : Nat) :
    Nat → Nat → Option (Ptr τ) × (Fin n → Indices τ)
  | 0, _ => (none, deques)
  | turns + 1, i =>
    let target := Fin.ofNat n (start + i)
    match (deques target).steal capacity with
    | (some s, d) => (some s, Function.update deques target d)
    | (none, _) => scan capacity deques start turns (i + 1)

/-- `GetTask`, for the two values of `rand()` that it takes. -/
def StealPool.getTask (capacity : Nat) (pool : StealPool n τ) (rand rand' : Nat) :
    Ptr τ × StealPool n τ :=
  let forceLoPri := decide (kStealFairnessWindow ≤ pool.consecutiveHiPriSteals)
  match if forceLoPri then (none, pool.hiPri) else scan capacity pool.hiPri (rand % n) n 0 with
  | (some s, hiPri) =>
    (s, { pool with hiPri, consecutiveHiPriSteals := pool.consecutiveHiPriSteals + 1 })
  | (none, _) =>
    match scan capacity pool.loPri (rand' % n) n 0 with
    | (some s, loPri) => (s, { pool with loPri, consecutiveHiPriSteals := 0 })
    | (none, _) => (none, { pool with consecutiveHiPriSteals := 0 })

/-- The high priority deques hold the tasks `hs` and the low priority ones `ls`. -/
structure StealPool.Holds (capacity : Nat) (pool : StealPool n τ) (hs ls : Fin n → List τ) :
    Prop where
  hiPri : ∀ w, (pool.hiPri w).Holds capacity (hs w)
  loPri : ∀ w, (pool.loPri w).Holds capacity (ls w)

/-- The task is taken from the top of the deque of one worker. -/
def Takes (ls : Fin n → List τ) (x : τ) (ls' : Fin n → List τ) : Prop :=
  ∃ w, ls w = x :: ls' w ∧ ∀ w' ≠ w, ls' w' = ls w'

/-- What a call that wastes no work does: with all deques empty it returns nothing and takes
nothing, and else it returns a task and takes exactly that one from exactly one deque. -/
def StealPool.Conserves (capacity : Nat) (hs ls : Fin n → List τ)
    (r : Ptr τ × StealPool n τ) : Prop :=
  match r.1 with
  | none => (∀ w, hs w = []) ∧ (∀ w, ls w = []) ∧ r.2.Holds capacity hs ls
  | some x => (∃ hs', Takes hs x hs' ∧ r.2.Holds capacity hs' ls) ∨
      ∃ ls', Takes ls x ls' ∧ r.2.Holds capacity hs ls'

variable {capacity : Nat}

/-! ## A scan -/

/-- A scan of some turns either finds the deques of its turns empty, or takes the top-most task of
one. -/
theorem scan_cases {deques : Fin n → Indices τ} {ls : Fin n → List τ}
    (h : ∀ w, (deques w).Holds capacity (ls w)) (start turns i : Nat) :
    (∀ j < turns, ls (Fin.ofNat n (start + (i + j))) = []) ∧
      scan capacity deques start turns i = (none, deques) ∨
    ∃ x deques' ls', scan capacity deques start turns i = (some (some x), deques') ∧
      Takes ls x ls' ∧ ∀ w, (deques' w).Holds capacity (ls' w) := by
  induction turns generalizing i with
  | zero => exact .inl ⟨fun j hj => absurd hj (Nat.not_lt_zero j), rfl⟩
  | succ turns ih =>
    let target := Fin.ofNat n (start + i)
    cases hl : ls target with
    | nil =>
      have hsteal : (deques target).steal capacity = (none, deques target) :=
        Indices.steal_nil (hl ▸ h target)
      have hscan : scan capacity deques start (turns + 1) i =
          scan capacity deques start turns (i + 1) := by
        rw [scan, hsteal]
      rw [hscan]
      rcases ih (i + 1) with ⟨hempty, hnone⟩ | hsome
      · refine .inl ⟨fun j hj => ?_, hnone⟩
        cases j with
        | zero => exact hl
        | succ j =>
          have := hempty j (by omega)
          rwa [show i + 1 + j = i + (j + 1) by omega] at this
      · exact .inr hsome
    | cons x l =>
      obtain ⟨d, hsteal, hd⟩ := Indices.steal_cons (hl ▸ h target)
      refine .inr ⟨x, Function.update deques target d, Function.update ls target l, ?_,
        ⟨target, ?_, fun w hw => Function.update_of_ne hw _ _⟩, fun w => ?_⟩
      · rw [scan, hsteal]
      · rw [hl, Function.update_self]
      · by_cases hw : w = target
        · subst hw
          rw [Function.update_self, Function.update_self]
          exact hd
        · rw [Function.update_of_ne hw, Function.update_of_ne hw]
          exact h w

/-- A scan of all deques finds nothing only when all are empty. -/
theorem scan_all_cases {deques : Fin n → Indices τ} {ls : Fin n → List τ}
    (h : ∀ w, (deques w).Holds capacity (ls w)) (rand : Nat) :
    (∀ w, ls w = []) ∧ scan capacity deques (rand % n) n 0 = (none, deques) ∨
    ∃ x deques' ls', scan capacity deques (rand % n) n 0 = (some (some x), deques') ∧
      Takes ls x ls' ∧ ∀ w, (deques' w).Holds capacity (ls' w) := by
  rcases scan_cases h (rand % n) n 0 with ⟨hempty, hnone⟩ | hsome
  · refine .inl ⟨fun w => ?_, hnone⟩
    obtain ⟨d, hd, rfl⟩ := exists_place (Fin.ofNat n rand) w
    have := hempty d hd
    rwa [Nat.zero_add] at this
  · exact .inr hsome

/-! ## The call -/

/-- What a call does: it takes a task of high priority, if it scans for one, or one of low priority,
or it finds the scanned deques empty and sets the counter to zero. -/
theorem StealPool.getTask_cases {pool : StealPool n τ} {hs ls : Fin n → List τ}
    (h : pool.Holds capacity hs ls) (rand rand' : Nat) :
    (∃ x hs', pool.consecutiveHiPriSteals < kStealFairnessWindow ∧
      (pool.getTask capacity rand rand').1 = some x ∧ Takes hs x hs' ∧
      (pool.getTask capacity rand rand').2.Holds capacity hs' ls) ∨
    (∃ x ls', (pool.getTask capacity rand rand').1 = some x ∧ Takes ls x ls' ∧
      (pool.getTask capacity rand rand').2.Holds capacity hs ls') ∨
    (kStealFairnessWindow ≤ pool.consecutiveHiPriSteals ∨ ∀ w, hs w = []) ∧ (∀ w, ls w = []) ∧
      pool.getTask capacity rand rand' = (none, { pool with consecutiveHiPriSteals := 0 }) := by
  -- the scan of high priority, done or skipped
  have hscan : (∃ x deques hs', pool.consecutiveHiPriSteals < kStealFairnessWindow ∧
        (if decide (kStealFairnessWindow ≤ pool.consecutiveHiPriSteals) then (none, pool.hiPri)
          else scan capacity pool.hiPri (rand % n) n 0) = (some (some x), deques) ∧
        Takes hs x hs' ∧ ∀ w, (deques w).Holds capacity (hs' w)) ∨
      (kStealFairnessWindow ≤ pool.consecutiveHiPriSteals ∨ ∀ w, hs w = []) ∧
        (if decide (kStealFairnessWindow ≤ pool.consecutiveHiPriSteals) then (none, pool.hiPri)
          else scan capacity pool.hiPri (rand % n) n 0) = (none, pool.hiPri) := by
    split_ifs with hforce
    · exact .inr ⟨.inl (of_decide_eq_true hforce), rfl⟩
    · rcases scan_all_cases h.hiPri rand with ⟨hempty, hnone⟩ | ⟨x, deques, hs', hsome⟩
      · exact .inr ⟨.inr hempty, hnone⟩
      · exact .inl ⟨x, deques, hs', Nat.lt_of_not_le (by simpa using hforce), hsome⟩
  rcases hscan with ⟨x, deques, hs', hlt, hsome, htakes, hd⟩ | ⟨hhs, hmiss⟩
  · have hcall : pool.getTask capacity rand rand' = (some x, { pool with
        hiPri := deques, consecutiveHiPriSteals := pool.consecutiveHiPriSteals + 1 }) := by
      rw [StealPool.getTask, hsome]
    rw [hcall]
    exact .inl ⟨x, hs', hlt, rfl, htakes, hd, h.loPri⟩
  · rcases scan_all_cases h.loPri rand' with ⟨hempty, hnone⟩ | ⟨x, deques, ls', hsome, htakes, hd⟩
    · refine .inr (.inr ⟨hhs, hempty, ?_⟩)
      rw [StealPool.getTask, hmiss]
      simp only [hnone]
    · have hcall : pool.getTask capacity rand rand' =
          (some x, { pool with loPri := deques, consecutiveHiPriSteals := 0 }) := by
        rw [StealPool.getTask, hmiss]
        simp only [hsome]
      rw [hcall]
      exact .inr (.inl ⟨x, ls', rfl, htakes, h.hiPri, hd⟩)

/-- A call that skips no scan wastes no work. -/
theorem getTask_conserves_of_lt {pool : StealPool n τ} {hs ls : Fin n → List τ}
    (h : pool.Holds capacity hs ls) (hlt : pool.consecutiveHiPriSteals < kStealFairnessWindow)
    (rand rand' : Nat) :
    StealPool.Conserves capacity hs ls (pool.getTask capacity rand rand') := by
  rcases pool.getTask_cases h rand rand' with
    ⟨x, hs', -, hsome, htakes, hd⟩ | ⟨x, ls', hsome, htakes, hd⟩ | ⟨hhs, hls, hcall⟩
  · rw [StealPool.Conserves, hsome]
    exact .inl ⟨hs', htakes, hd⟩
  · rw [StealPool.Conserves, hsome]
    exact .inr ⟨ls', htakes, hd⟩
  · rw [hcall]
    exact ⟨hhs.resolve_left (Nat.not_le_of_lt hlt), hls, h.hiPri, h.loPri⟩

/-- A call wastes no work exactly when it is not one that skips the scan of high priority while only
high priority deques hold a task. -/
theorem getTask_conserves_iff (pool : StealPool n τ) (hs ls : Fin n → List τ)
    (h : pool.Holds capacity hs ls) (rand rand' : Nat) :
    StealPool.Conserves capacity hs ls (pool.getTask capacity rand rand') ↔
      ¬ (kStealFairnessWindow ≤ pool.consecutiveHiPriSteals ∧ (∀ w, ls w = []) ∧
        ∃ w, hs w ≠ []) := by
  rcases Nat.lt_or_ge pool.consecutiveHiPriSteals kStealFairnessWindow with hlt | hforce
  · exact iff_of_true (getTask_conserves_of_lt h hlt rand rand') fun hskip => by omega
  · rcases pool.getTask_cases h rand rand' with
      ⟨x, hs', hlt, -⟩ | ⟨x, ls', hsome, ⟨w, hw, hother⟩, hd⟩ | ⟨-, hls, hcall⟩
    · omega
    · refine iff_of_true ?_ fun hskip => ?_
      · rw [StealPool.Conserves, hsome]
        exact .inr ⟨ls', ⟨w, hw, hother⟩, hd⟩
      · rw [hskip.2.1 w] at hw
        cases hw
    · rw [hcall]
      constructor
      · rintro ⟨hhs, -⟩ ⟨-, -, w, hw⟩
        exact hw (hhs w)
      · intro hnot
        refine ⟨fun w => ?_, hls, h.hiPri, h.loPri⟩
        by_contra hw
        exact hnot ⟨hforce, hls, w, hw⟩

/-! ## Calls in a row -/

/-- The deques and the counter after some calls, one for each two values of `rand()`. -/
def StealPool.calls (capacity : Nat) (pool : StealPool n τ) (rands : List (Nat × Nat)) :
    StealPool n τ :=
  rands.foldl (fun pool r => (pool.getTask capacity r.1 r.2).2) pool

theorem StealPool.getTask_counter_le (pool : StealPool n τ) (rand rand' : Nat) :
    (pool.getTask capacity rand rand').2.consecutiveHiPriSteals ≤ kStealFairnessWindow := by
  rw [StealPool.getTask]
  split
  next s hiPri heq =>
    have hforce : ¬ kStealFairnessWindow ≤ pool.consecutiveHiPriSteals := by
      intro hforce
      rw [if_pos (decide_eq_true hforce)] at heq
      cases heq
    exact Nat.lt_of_not_le hforce
  next => split <;> exact Nat.zero_le _

/-- The counter never passes the window. -/
theorem StealPool.counter_le {pool : StealPool n τ}
    (hle : pool.consecutiveHiPriSteals ≤ kStealFairnessWindow) (rands : List (Nat × Nat)) :
    (pool.calls capacity rands).consecutiveHiPriSteals ≤ kStealFairnessWindow := by
  induction rands generalizing pool with
  | nil => exact hle
  | cons r rands ih => exact ih (pool.getTask_counter_le r.1 r.2)

/-- When a call returns nothing, the next one wastes no work. -/
theorem getTask_conserves_next {pool : StealPool n τ} {hs ls : Fin n → List τ}
    (h : pool.Holds capacity hs ls) {rand rand' : Nat}
    (hnone : (pool.getTask capacity rand rand').1 = none) (next next' : Nat) :
    StealPool.Conserves capacity hs ls
      ((pool.getTask capacity rand rand').2.getTask capacity next next') := by
  rcases pool.getTask_cases h rand rand' with
    ⟨x, hs', -, hsome, -⟩ | ⟨x, ls', hsome, -⟩ | ⟨-, -, hcall⟩
  · rw [hnone] at hsome
    cases hsome
  · rw [hnone] at hsome
    cases hsome
  · let reset : StealPool n τ := { pool with consecutiveHiPriSteals := 0 }
    have hlt : reset.consecutiveHiPriSteals < kStealFairnessWindow := Nat.zero_lt_succ _
    rw [hcall]
    have hreset : reset.Holds capacity hs ls := ⟨h.hiPri, h.loPri⟩
    exact getTask_conserves_of_lt hreset hlt next next'

end

section

/-- One worker with nine tasks of high priority. -/
def nineTasks : StealPool 1 Nat where
  hiPri := fun _ => ⟨some, 0, 9⟩
  loPri := fun _ => ⟨fun _ => none, 0, 0⟩
  consecutiveHiPriSteals := 0

theorem holds_nineTasks : nineTasks.Holds 16 (fun _ => List.range 9) fun _ => [] where
  hiPri _ := by
    have hcontents : Indices.contents 16 ⟨some, 0, 9⟩ = (List.range 9).map some := by decide
    exact ⟨hcontents, show 9 < 2 ^ 64 by decide⟩
  loPri _ := ⟨rfl, show 0 < 2 ^ 64 by decide⟩

theorem getTask_conserves_iff_nine :
    StealPool.Conserves 16 (fun _ => List.range 9) (fun _ => []) (nineTasks.getTask 16 5 6) :=
  (getTask_conserves_iff nineTasks _ _ holds_nineTasks 5 6).2 (by decide)

/-- After eight steals the ninth task is not found. -/
theorem not_conserves_ninth : ¬ ∀ (n : Nat) (_ : NeZero n) (capacity : Nat) (pool : StealPool n Nat)
    (rands : List (Nat × Nat)) (hs ls : Fin n → List Nat), pool.consecutiveHiPriSteals = 0 →
    (pool.calls capacity rands).Holds capacity hs ls → ∀ rand rand',
      StealPool.Conserves capacity hs ls
        ((pool.calls capacity rands).getTask capacity rand rand') := by
  intro h
  have hholds : (nineTasks.calls 16 (List.replicate 8 (0, 0))).Holds 16 (fun _ => [8])
      fun _ => [] := by
    refine ⟨fun w => ?_, fun w => ?_⟩
    · obtain rfl := Subsingleton.elim w 0
      exact ⟨by decide, by decide⟩
    · obtain rfl := Subsingleton.elim w 0
      exact ⟨by decide, by decide⟩
  have hconserves := h 1 inferInstance 16 nineTasks (List.replicate 8 (0, 0)) _ _ rfl hholds 0 0
  have hnone : ((nineTasks.calls 16 (List.replicate 8 (0, 0))).getTask 16 0 0).1 = none := by
    decide
  rw [StealPool.Conserves, hnone] at hconserves
  exact absurd (hconserves.1 0) (by decide)

end

end JLibScheduler.TaskScheduler
