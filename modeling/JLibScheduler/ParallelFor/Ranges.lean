import Mathlib
import JLibScheduler.Lib.Intervals

/-!
# The ranges of the parallel loops

`ParallelFor`, `ParallelForFJ` and `ParallelForNB` of `src/TaskScheduler.cpp:106-222` as functions
from their arguments to the ranges on which `func` is called, by the thread that runs the loop and
by the tasks that it spawns, once these have run. The arithmetic is that of a 32-bit `int`: a loop
that evaluates an expression whose value is not an `int` has no result (`int`).

A run of a loop calls `CreateTask` at most once for a range, so which of its calls fail is a test
on ranges. `ParallelFor` and `ParallelForFJ` call `func` themselves on the range of a failed call;
`ParallelForNB` pushes what `CreateTask` returns, and `PushLocal` refuses a null task.
-/

open Intervals

namespace JLibScheduler.ParallelFor

/-! ## The loops -/

/-- The value is a 32-bit `int`. -/
def Fits (x : ℤ) : Prop := -2 ^ 31 ≤ x ∧ x < 2 ^ 31

instance (x : ℤ) : Decidable (Fits x) := inferInstanceAs (Decidable (_ ∧ _))

/-- The value of an expression of type `int`, if it does not overflow. -/
def int (x : ℤ) : Option ℤ := if Fits x then some x else none

/-- The ranges on which `func` is called, by the thread that runs the code and by the tasks that it
spawns. -/
structure Calls where
  inline : List (ℤ × ℤ)
  spawned : List (ℤ × ℤ)
  deriving DecidableEq, Repr

def Calls.all (calls : Calls) : List (ℤ × ℤ) := calls.inline ++ calls.spawned

def Calls.append (calls calls' : Calls) : Calls where
  inline := calls.inline ++ calls'.inline
  spawned := calls.spawned ++ calls'.spawned

/-- `(totalItems + chunkSize - 1) / chunkSize` -/
def numTasks (totalItems chunkSize : ℤ) : Option ℤ := do
  let sum ← int (totalItems + chunkSize)
  let sum ← int (sum - 1)
  int (sum.tdiv chunkSize)

/-- `chunkStart` and `chunkEnd` in a number of turns of the loops of `ParallelFor` and
`ParallelForNB`, from turn `i` on. -/
def chunks (start stop chunkSize : ℤ) : ℕ → ℕ → Option (List (ℤ × ℤ))
  | 0, _ => some []
  | turns + 1, i => do
    let offset ← int (i * chunkSize)
    let chunkStart ← int (start + offset)
    let chunkEnd ← int (chunkStart + chunkSize)
    let rest ← chunks start stop chunkSize turns (i + 1)
    some ((chunkStart, min chunkEnd stop) :: rest)

/-- The middle of a range of two elements or more is inside it. -/
theorem mid_between {a b : ℤ} (h : 1 < b - a) :
    a < a + (b - a).tdiv 2 ∧ a + (b - a).tdiv 2 < b := by
  rw [Int.tdiv_eq_ediv_of_nonneg (by omega)]
  omega

/-- `rec` of `ParallelForFJ` on `a` and `b`: the loop goes on with the left half. -/
def recCalls (fails : ℤ × ℤ → Bool) (grain : ℤ) (hgrain : 1 ≤ grain) (a b : ℤ) : Option Calls := do
  let _ ← int (b - a)
  if _h : grain < b - a then
    let mid := a + (b - a).tdiv 2
    let _ ← int mid
    -- a task runs `rec` on the right half, if there is a slot for it
    let right : Calls ← (if fails (mid, b) then some ⟨[(mid, b)], []⟩
      else (recCalls fails grain hgrain mid b).map fun task => ⟨[], task.all⟩)
    let left ← recCalls fails grain hgrain a mid
    some (right.append left)
  else some ⟨[(a, b)], []⟩
termination_by (b - a).toNat
decreasing_by all_goals
  have := mid_between (show 1 < b - a by omega)
  omega

/-- `ParallelForFJ`. -/
def parallelForFJ (fails : ℤ × ℤ → Bool) (start stop grain : BitVec 32) : Option Calls := do
  let totalItems ← int (stop.toInt - start.toInt)
  if totalItems ≤ 0 then some ⟨[], []⟩
  else if totalItems ≤ max 1 grain.toInt then some ⟨[(start.toInt, stop.toInt)], []⟩
  else recCalls fails (max 1 grain.toInt) (le_max_left _ _) start.toInt stop.toInt

/-- `ParallelFor`, on a pool with a number of workers. -/
def parallelFor (workers : ℕ) (fails : ℤ × ℤ → Bool) (start stop chunkSize : BitVec 32) :
    Option Calls := do
  let totalItems ← int (stop.toInt - start.toInt)
  if totalItems ≤ 0 then some ⟨[], []⟩
  else if 10000 < totalItems then
    let numTasks ← numTasks totalItems (max 1 chunkSize.toInt)
    if 2 * workers < numTasks.toNat then parallelForFJ fails start stop chunkSize
    else
      let mainChunkEnd ← int (start.toInt + max 1 chunkSize.toInt)
      let rest ← chunks start.toInt stop.toInt (max 1 chunkSize.toInt) (numTasks.toNat - 1) 1
      some {
        inline := rest.filter fails ++ [(start.toInt, min mainChunkEnd stop.toInt)]
        spawned := rest.filter fun chunk => !fails chunk }
  else some ⟨[(start.toInt, stop.toInt)], []⟩

/-- `ParallelForNB`. -/
def parallelForNB (fails : ℤ × ℤ → Bool) (start stop chunkSize : BitVec 32) : Option Calls := do
  let totalItems ← int (stop.toInt - start.toInt)
  if totalItems ≤ 0 then some ⟨[], []⟩
  else
    let numTasks ← numTasks totalItems (max 1 chunkSize.toInt)
    let all ← chunks start.toInt stop.toInt (max 1 chunkSize.toInt) numTasks.toNat 0
    some ⟨[], all.filter fun chunk => !fails chunk⟩

/-! ## Values of type `int` -/

@[simp] theorem int_eq_some {x y : ℤ} : int x = some y ↔ Fits x ∧ x = y := by
  simp [int]

theorem int_of_fits {x : ℤ} (h : Fits x) : int x = some x := if_pos h

theorem int_of_not_fits {x : ℤ} (h : ¬ Fits x) : int x = none := if_neg h

theorem fits_toInt (x : BitVec 32) : Fits x.toInt :=
  ⟨by simpa using x.le_toInt, by simpa using x.toInt_lt⟩

theorem Fits.of_mem_Icc {a b x : ℤ} (ha : Fits a) (hb : Fits b) (hx : a ≤ x ∧ x ≤ b) : Fits x :=
  ⟨ha.1.trans hx.1, hx.2.trans_lt hb.2⟩

/-- What two lists of calls call together. -/
theorem Calls.perm_append (calls calls' : Calls) :
    (calls.append calls').all.Perm (calls.all ++ calls'.all) := by
  rw [List.perm_iff_count]
  intro r
  simp only [Calls.all, Calls.append, List.count_append]
  omega

/-! ## The halves -/

section
variable {fails : ℤ × ℤ → Bool}

/-- The calls of `rec` on a range that is not empty divide it, however the range is split. -/
theorem recCalls_spec {grain : ℤ} (hgrain : 1 ≤ grain) {a b : ℤ} (ha : Fits a) (hb : Fits b)
    (hlt : a < b) (hfit : Fits (b - a)) :
    ∃ calls, recCalls fails grain hgrain a b = some calls ∧ (∀ r ∈ calls.all, r.1 < r.2) ∧
      Divides calls.all a b := by
  induction a, b using recCalls.induct grain hgrain with
  | case1 a b ihright ihleft =>
    rw [recCalls, int_of_fits hfit, Option.bind_eq_bind, Option.bind_some]
    split_ifs with hsplit
    · obtain ⟨hamid, hmidb⟩ := mid_between (show 1 < b - a by omega)
      have hmid : Fits (a + (b - a).tdiv 2) := ha.of_mem_Icc hb ⟨hamid.le, hmidb.le⟩
      obtain ⟨left, hleft, hleftne, hleftdiv⟩ :=
        ihleft hsplit ha hmid hamid (by unfold Fits at hfit ⊢; omega)
      obtain ⟨task, htask, htaskne, htaskdiv⟩ :=
        ihright hsplit hmid hb hmidb (by unfold Fits at hfit ⊢; omega)
      -- the right half is called by this thread or by the task
      obtain ⟨right, hright, hrightne, hrightdiv⟩ : ∃ right : Calls,
          (if fails (a + (b - a).tdiv 2, b) then some ⟨[(a + (b - a).tdiv 2, b)], []⟩
            else (recCalls fails grain hgrain (a + (b - a).tdiv 2) b).map fun task =>
              (⟨[], task.all⟩ : Calls)) = some right ∧
          (∀ r ∈ right.all, r.1 < r.2) ∧ Divides right.all (a + (b - a).tdiv 2) b := by
        split_ifs
        · exact ⟨_, rfl, by simpa [Calls.all] using hmidb, divides_singleton⟩
        · rw [htask]
          exact ⟨_, rfl, htaskne, htaskdiv⟩
      refine ⟨right.append left, ?_, fun r hr => ?_, ?_⟩
      · simp only [int_of_fits hmid, Option.bind_eq_bind, Option.bind_some, hright, hleft]
      · rcases List.mem_append.1 ((right.perm_append left).mem_iff.1 hr) with hr | hr
        · exact hrightne r hr
        · exact hleftne r hr
      · have hdiv := hleftdiv.append hrightdiv hamid.le hmidb.le
        exact hdiv.perm (List.perm_append_comm.trans (right.perm_append left).symm)
    · exact ⟨_, rfl, by simpa [Calls.all] using hlt, divides_singleton⟩

/-- `ParallelForFJ` evaluates no expression that overflows but the length of its range. -/
theorem parallelForFJ_spec (fails : ℤ × ℤ → Bool) {start stop : BitVec 32} (grain : BitVec 32)
    (hfit : Fits (stop.toInt - start.toInt)) :
    ∃ calls, parallelForFJ fails start stop grain = some calls ∧ (∀ r ∈ calls.all, r.1 < r.2) ∧
      Divides calls.all start.toInt stop.toInt := by
  rw [parallelForFJ, int_of_fits hfit, Option.bind_eq_bind, Option.bind_some]
  split_ifs with hempty hsmall
  · exact ⟨_, rfl, by simp [Calls.all], divides_nil (by omega)⟩
  · exact ⟨_, rfl, by simp [Calls.all]; omega, divides_singleton⟩
  · exact recCalls_spec _ (fits_toInt start) (fits_toInt stop) (by omega) hfit

end

/-! ## The chunks -/

section
variable {start stop chunkSize : ℤ}

/-- The start of chunk `k`, at most `stop`. -/
def bound (start stop chunkSize : ℤ) (k : ℕ) : ℤ := min (start + k * chunkSize) stop

theorem bound_monotone (hchunk : 1 ≤ chunkSize) : Monotone (bound start stop chunkSize) := by
  intro j k hjk
  refine min_le_min_right _ ?_
  have : (j : ℤ) ≤ k := by exact_mod_cast hjk
  nlinarith

/-- The loops have a result exactly when the end of the last chunk, before it is cut off at `stop`,
is an `int`; then it is the chunks one after the other. -/
theorem chunks_eq (hstart : Fits start) (hstop : Fits stop) (hfit : Fits (stop - start))
    (hchunk : 1 ≤ chunkSize) (turns i : ℕ)
    (hlast : start + (i + turns - 1 : ℕ) * chunkSize < stop) :
    chunks start stop chunkSize turns i =
      if turns = 0 ∨ Fits (start + (i + turns : ℕ) * chunkSize) then
        some ((List.range' i turns).map fun k =>
          (bound start stop chunkSize k, bound start stop chunkSize (k + 1)))
      else none := by
  induction turns generalizing i with
  | zero => rfl
  | succ turns ih =>
    have hle : (i : ℤ) * chunkSize ≤ (i + turns : ℕ) * chunkSize := by push_cast; nlinarith
    have hlast' : start + (i + turns : ℕ) * chunkSize < stop := hlast
    have hoffset : Fits (i * chunkSize) := by
      have : 0 ≤ (i : ℤ) * chunkSize := by positivity
      unfold Fits at *
      omega
    have hchunkStart : Fits (start + i * chunkSize) :=
      hstart.of_mem_Icc hstop ⟨by nlinarith, by omega⟩
    have hnext : start + i * chunkSize + chunkSize = start + (i + 1 : ℕ) * chunkSize := by
      push_cast
      ring
    simp only [chunks, int_of_fits hoffset, int_of_fits hchunkStart, Option.bind_eq_bind,
      Option.bind_some, hnext]
    rw [show i + (turns + 1) = i + 1 + turns by omega]
    have hbound : (start + i * chunkSize, min (start + (i + 1 : ℕ) * chunkSize) stop) =
        (bound start stop chunkSize i, bound start stop chunkSize (i + 1)) :=
      Prod.ext (min_eq_left (by omega)).symm rfl
    cases turns with
    | zero =>
      by_cases hend : Fits (start + (i + 1 : ℕ) * chunkSize)
      · rw [int_of_fits hend, if_pos (.inr hend), Option.bind_some, hbound]
        rfl
      · rw [int_of_not_fits hend, if_neg (by simpa using hend), Option.bind_none]
    | succ turns =>
      have hend : Fits (start + (i + 1 : ℕ) * chunkSize) := by
        refine hstart.of_mem_Icc hstop ⟨by nlinarith, ?_⟩
        have : ((i + 1 : ℕ) : ℤ) * chunkSize ≤ (i + (turns + 1) : ℕ) * chunkSize := by
          push_cast
          nlinarith
        omega
      rw [int_of_fits hend, Option.bind_some, ih (i + 1) (by convert hlast' using 4; omega)]
      by_cases hfits : Fits (start + (i + 1 + (turns + 1) : ℕ) * chunkSize)
      · rw [if_pos (.inr hfits), if_pos (.inr hfits), Option.bind_some, hbound,
          List.range'_succ (s := i), List.map_cons]
      · simp only [hfits, or_false, Nat.add_eq_zero_iff, one_ne_zero, and_false, if_false,
          Option.bind_none]

/-- The number of chunks: the length of the range in chunks, rounded up. -/
def count (start stop chunkSize : ℤ) : ℕ := ((stop - start + chunkSize - 1) / chunkSize).toNat

/-- The chunks that end last: one fewer would end before `stop`, and these reach it. -/
theorem count_spec (hlt : start < stop) (hchunk : 1 ≤ chunkSize) :
    1 ≤ count start stop chunkSize ∧
      start + (count start stop chunkSize - 1 : ℕ) * chunkSize < stop ∧
      stop ≤ start + count start stop chunkSize * chunkSize ∧
      start + count start stop chunkSize * chunkSize ≤ stop + chunkSize - 1 := by
  have hpos : 1 ≤ (stop - start + chunkSize - 1) / chunkSize :=
    (Int.le_ediv_iff_mul_le (by omega)).2 (by omega)
  have hcast : (count start stop chunkSize : ℤ) = (stop - start + chunkSize - 1) / chunkSize :=
    Int.toNat_of_nonneg (by omega)
  have hle := Int.ediv_mul_le (stop - start + chunkSize - 1) (show chunkSize ≠ 0 by omega)
  have hlt := Int.lt_ediv_add_one_mul_self (stop - start + chunkSize - 1)
    (show 0 < chunkSize by omega)
  have hone : 1 ≤ count start stop chunkSize := by omega
  rw [← hcast] at hle hlt
  rw [Nat.cast_sub hone, Nat.cast_one, sub_mul, one_mul]
  rw [add_mul, one_mul] at hlt
  exact ⟨hone, by omega, by omega, by omega⟩

theorem numTasks_eq (hlt : start < stop) (hfit : Fits (stop - start)) (hchunk : 1 ≤ chunkSize) :
    numTasks (stop - start) chunkSize =
      if Fits (stop - start + chunkSize) then some (count start stop chunkSize : ℤ) else none := by
  by_cases hsum : Fits (stop - start + chunkSize)
  · have hpred : Fits (stop - start + chunkSize - 1) := by
      unfold Fits at *
      omega
    have hpos : 0 ≤ stop - start + chunkSize - 1 := by omega
    have hcount : (count start stop chunkSize : ℤ) = (stop - start + chunkSize - 1) / chunkSize :=
      Int.toNat_of_nonneg (Int.ediv_nonneg hpos (by omega))
    have hdiv : Fits (count start stop chunkSize : ℤ) := by
      have := Int.ediv_le_self chunkSize hpos
      unfold Fits at *
      omega
    rw [numTasks, int_of_fits hsum, if_pos hsum, Option.bind_eq_bind, Option.bind_some,
      int_of_fits hpred, Option.bind_some,
      Int.tdiv_eq_ediv_of_nonneg hpos, ← hcount, int_of_fits hdiv]
  · rw [numTasks, int_of_not_fits hsum, if_neg hsum]
    rfl

/-- The chunks from number `i` on. -/
def chunksFrom (start stop chunkSize : ℤ) (i : ℕ) : List (ℤ × ℤ) :=
  (List.range' i (count start stop chunkSize - i)).map fun k =>
    (bound start stop chunkSize k, bound start stop chunkSize (k + 1))

theorem chunks_count (hstart : Fits start) (hstop : Fits stop) (hlt : start < stop)
    (hfit : Fits (stop - start)) (hchunk : 1 ≤ chunkSize) {i : ℕ}
    (hi : i ≤ count start stop chunkSize) :
    chunks start stop chunkSize (count start stop chunkSize - i) i =
      if i = count start stop chunkSize ∨
          Fits (start + count start stop chunkSize * chunkSize) then
        some (chunksFrom start stop chunkSize i)
      else none := by
  obtain ⟨-, hlast, -⟩ := count_spec hlt hchunk
  rw [chunks_eq hstart hstop hfit hchunk _ _ (by rwa [Nat.add_sub_cancel' hi]),
    Nat.add_sub_cancel' hi]
  have hiff : count start stop chunkSize - i = 0 ↔ i = count start stop chunkSize := by omega
  simp only [hiff, chunksFrom]

/-- All the chunks divide the range, and none is empty. -/
theorem chunksFrom_zero (hlt : start < stop) (hchunk : 1 ≤ chunkSize) :
    (∀ r ∈ chunksFrom start stop chunkSize 0, r.1 < r.2) ∧
      Divides (chunksFrom start stop chunkSize 0) start stop := by
  obtain ⟨hone, hlast, hreach, -⟩ := count_spec hlt hchunk
  refine ⟨fun r hr => ?_, ?_⟩
  · obtain ⟨k, hk, rfl⟩ := List.mem_map.1 hr
    have hk : k ≤ count start stop chunkSize - 1 := by
      rw [List.mem_range'_1] at hk
      omega
    have hle : (k : ℤ) * chunkSize ≤ (count start stop chunkSize - 1 : ℕ) * chunkSize := by
      have : (k : ℤ) ≤ (count start stop chunkSize - 1 : ℕ) := by exact_mod_cast hk
      nlinarith
    simp only [bound, Nat.cast_add, Nat.cast_one, add_mul, one_mul]
    omega
  · have hmono : Monotone (bound start stop chunkSize) := bound_monotone hchunk
    have hdiv := divides_steps hmono 0 (count start stop chunkSize)
    have hfirst : bound start stop chunkSize 0 = start := by simp [bound, hlt.le]
    rw [Nat.zero_add, hfirst, show bound start stop chunkSize _ = stop from min_eq_right hreach]
      at hdiv
    exact hdiv

/-- The first chunk and the rest. -/
theorem chunksFrom_zero_eq (hlt : start < stop) (hchunk : 1 ≤ chunkSize) :
    chunksFrom start stop chunkSize 0 =
      (start, min (start + chunkSize) stop) :: chunksFrom start stop chunkSize 1 := by
  obtain ⟨hone, -⟩ := count_spec hlt hchunk
  rw [chunksFrom, Nat.sub_zero, ← Nat.sub_add_cancel hone, List.range'_succ, List.map_cons]
  simp [bound, hlt.le, chunksFrom]

end

/-! ## What the loops call -/

section
variable {start stop : BitVec 32} {fails : ℤ × ℤ → Bool}

theorem parallelForNB_eq (fails : ℤ × ℤ → Bool) (chunkSize : BitVec 32)
    (hlt : start.toInt < stop.toInt) (hfit : Fits (stop.toInt - start.toInt)) :
    parallelForNB fails start stop chunkSize =
      if Fits (stop.toInt - start.toInt + max 1 chunkSize.toInt) ∧
          Fits (start.toInt + count start.toInt stop.toInt (max 1 chunkSize.toInt) *
            max 1 chunkSize.toInt) then
        some ⟨[], (chunksFrom start.toInt stop.toInt (max 1 chunkSize.toInt) 0).filter
          fun chunk => !fails chunk⟩
      else none := by
  have hchunk : 1 ≤ max 1 chunkSize.toInt := le_max_left _ _
  obtain ⟨hone, -⟩ := count_spec hlt hchunk
  rw [parallelForNB, int_of_fits hfit, Option.bind_eq_bind, Option.bind_some,
    if_neg (by omega), numTasks_eq hlt hfit hchunk]
  by_cases hsum : Fits (stop.toInt - start.toInt + max 1 chunkSize.toInt)
  · have hchunks :=
      chunks_count (fits_toInt start) (fits_toInt stop) hlt hfit hchunk (Nat.zero_le _)
    rw [Nat.sub_zero] at hchunks
    rw [if_pos hsum, Option.bind_some, Int.toNat_natCast, hchunks]
    by_cases hend : Fits (start.toInt + count start.toInt stop.toInt (max 1 chunkSize.toInt) *
        max 1 chunkSize.toInt)
    · rw [if_pos (.inr hend), if_pos ⟨hsum, hend⟩]
      rfl
    · rw [if_neg (by simp only [hend, or_false]; omega), if_neg fun h => hend h.2]
      rfl
  · rw [if_neg hsum, if_neg fun h => hsum h.1]
    rfl

theorem parallelFor_eq (workers : ℕ) (fails : ℤ × ℤ → Bool) (chunkSize : BitVec 32)
    (hlarge : 10000 < stop.toInt - start.toInt) (hfit : Fits (stop.toInt - start.toInt)) :
    parallelFor workers fails start stop chunkSize =
      if Fits (stop.toInt - start.toInt + max 1 chunkSize.toInt) then
        if 2 * workers < count start.toInt stop.toInt (max 1 chunkSize.toInt) then
          parallelForFJ fails start stop chunkSize
        else if Fits (start.toInt + count start.toInt stop.toInt (max 1 chunkSize.toInt) *
            max 1 chunkSize.toInt) then
          some {
            inline := (chunksFrom start.toInt stop.toInt (max 1 chunkSize.toInt) 1).filter fails ++
              [(start.toInt, min (start.toInt + max 1 chunkSize.toInt) stop.toInt)]
            spawned := (chunksFrom start.toInt stop.toInt (max 1 chunkSize.toInt) 1).filter
              fun chunk => !fails chunk }
        else none
      else none := by
  have hlt : start.toInt < stop.toInt := by omega
  have hchunk : 1 ≤ max 1 chunkSize.toInt := le_max_left _ _
  obtain ⟨hone, hlast, -⟩ := count_spec hlt hchunk
  rw [parallelFor, int_of_fits hfit, Option.bind_eq_bind, Option.bind_some, if_neg (by omega),
    if_pos hlarge, numTasks_eq hlt hfit hchunk]
  by_cases hsum : Fits (stop.toInt - start.toInt + max 1 chunkSize.toInt)
  · rw [if_pos hsum, if_pos hsum, Option.bind_some, Int.toNat_natCast]
    split_ifs with hfj hend
    · rfl
    · have hmain : Fits (start.toInt + max 1 chunkSize.toInt) := by
        refine (fits_toInt start).of_mem_Icc hend ⟨by omega, ?_⟩
        nlinarith
      rw [int_of_fits hmain, Option.bind_eq_bind, Option.bind_some,
        chunks_count (fits_toInt start) (fits_toInt stop) hlt hfit hchunk hone,
        if_pos (.inr hend)]
      rfl
    · by_cases hcount : 1 = count start.toInt stop.toInt (max 1 chunkSize.toInt)
      · rw [← hcount, Nat.cast_one, one_mul] at hend
        rw [int_of_not_fits hend]
        rfl
      · rw [chunks_count (fits_toInt start) (fits_toInt stop) hlt hfit hchunk hone,
          if_neg (by simp only [hend, hcount, or_self, not_false_eq_true])]
        cases int (start.toInt + max 1 chunkSize.toInt) <;> rfl
  · rw [if_neg hsum, if_neg hsum]
    rfl

/-- The flat path of `ParallelFor` calls `func` on the chunks. -/
theorem perm_chunksFrom_zero {a b c : ℤ} (hlt : a < b) (hc : 1 ≤ c) (fails : ℤ × ℤ → Bool) :
    ((chunksFrom a b c 1).filter fails ++ [(a, min (a + c) b)] ++
      (chunksFrom a b c 1).filter fun chunk => !fails chunk).Perm (chunksFrom a b c 0) := by
  rw [chunksFrom_zero_eq hlt hc, List.append_assoc, List.singleton_append]
  refine List.perm_middle.trans (List.Perm.cons _ ?_)
  exact List.filter_append_perm fails _

/-- `ParallelFor` and `ParallelForFJ` call `func` on non-empty ranges that divide the range of the
loop, whichever of their calls of `CreateTask` fail. -/
theorem parallelFor_divides (workers : ℕ) (fails : ℤ × ℤ → Bool) (start stop chunkSize : BitVec 32)
    (htotal : Fits (stop.toInt - start.toInt))
    (hsum : Fits (stop.toInt - start.toInt + max 1 chunkSize.toInt))
    (hend : Fits (stop.toInt + max 1 chunkSize.toInt)) :
    (∃ calls, parallelFor workers fails start stop chunkSize = some calls ∧
      (∀ r ∈ calls.all, r.1 < r.2) ∧ Divides calls.all start.toInt stop.toInt) ∧
    ∃ calls, parallelForFJ fails start stop chunkSize = some calls ∧
      (∀ r ∈ calls.all, r.1 < r.2) ∧ Divides calls.all start.toInt stop.toInt := by
  have hfj := parallelForFJ_spec fails chunkSize htotal
  refine ⟨?_, hfj⟩
  by_cases hlarge : 10000 < stop.toInt - start.toInt
  · have hlt : start.toInt < stop.toInt := by omega
    have hchunk : 1 ≤ max 1 chunkSize.toInt := le_max_left _ _
    obtain ⟨-, -, hreach, hle⟩ := count_spec hlt hchunk
    have hlast : Fits (start.toInt + count start.toInt stop.toInt (max 1 chunkSize.toInt) *
        max 1 chunkSize.toInt) :=
      (fits_toInt stop).of_mem_Icc hend ⟨hreach, by omega⟩
    rw [parallelFor_eq workers fails chunkSize hlarge htotal, if_pos hsum, if_pos hlast]
    split_ifs
    · exact hfj
    · have hperm := perm_chunksFrom_zero hlt hchunk fails
      obtain ⟨hne, hdiv⟩ := chunksFrom_zero hlt hchunk
      exact ⟨_, rfl, fun r hr => hne r (hperm.mem_iff.1 hr), hdiv.perm hperm.symm⟩
  · rw [parallelFor, int_of_fits htotal, Option.bind_eq_bind, Option.bind_some]
    split_ifs
    · exact ⟨_, rfl, by simp [Calls.all], divides_nil (by omega)⟩
    · exact ⟨_, rfl, by simp [Calls.all]; omega, divides_singleton⟩

/-- A range of 20000 elements in chunks of 100, on 8 workers, when no task can be created from
10000 on. -/
theorem parallelFor_divides_half :
    ∃ calls, parallelFor 8 (fun chunk => decide (10000 ≤ chunk.1)) 0#32 20000#32 100#32 =
        some calls ∧
      (∀ r ∈ calls.all, r.1 < r.2) ∧ Divides calls.all 0 20000 :=
  (parallelFor_divides 8 (fun chunk => decide (10000 ≤ chunk.1)) 0#32 20000#32 100#32 (by decide)
    (by decide) (by decide)).1

/-- `ParallelForNB` needs the length, the sum of the rounding division and the end of the last
chunk. -/
theorem parallelForNB_isSome (chunkSize : BitVec 32) (hlt : start.toInt < stop.toInt) :
    (parallelForNB fails start stop chunkSize).isSome ↔
      Fits (stop.toInt - start.toInt) ∧
        Fits (stop.toInt - start.toInt + max 1 chunkSize.toInt) ∧
        Fits (start.toInt + count start.toInt stop.toInt (max 1 chunkSize.toInt) *
          max 1 chunkSize.toInt) := by
  by_cases hfit : Fits (stop.toInt - start.toInt)
  · rw [parallelForNB_eq fails chunkSize hlt hfit]
    split_ifs with h <;> simp only [hfit, h, true_and, Option.isSome_some, Option.isSome_none,
      Bool.false_eq_true]
  · rw [parallelForNB, int_of_not_fits hfit, Option.bind_eq_bind, Option.bind_none]
    exact iff_of_false (by decide) fun h => hfit h.1

theorem parallelForFJ_isSome (fails : ℤ × ℤ → Bool) (grain : BitVec 32) :
    (parallelForFJ fails start stop grain).isSome ↔ Fits (stop.toInt - start.toInt) := by
  by_cases hfit : Fits (stop.toInt - start.toInt)
  · obtain ⟨calls, hcalls, -⟩ := parallelForFJ_spec fails grain hfit
    rw [hcalls]
    exact iff_of_true rfl hfit
  · rw [parallelForFJ, int_of_not_fits hfit, Option.bind_eq_bind, Option.bind_none]
    exact iff_of_false (by decide) hfit

/-- `ParallelFor` needs the sum only for a large range, and the end of the last chunk only on the
flat path. -/
theorem parallelFor_isSome (workers : ℕ) (chunkSize : BitVec 32)
    (hlt : start.toInt < stop.toInt) :
    (parallelFor workers fails start stop chunkSize).isSome ↔
      Fits (stop.toInt - start.toInt) ∧ (stop.toInt - start.toInt ≤ 10000 ∨
        Fits (stop.toInt - start.toInt + max 1 chunkSize.toInt) ∧
          (2 * workers < count start.toInt stop.toInt (max 1 chunkSize.toInt) ∨
            Fits (start.toInt + count start.toInt stop.toInt (max 1 chunkSize.toInt) *
              max 1 chunkSize.toInt))) := by
  by_cases hfit : Fits (stop.toInt - start.toInt)
  · by_cases hlarge : 10000 < stop.toInt - start.toInt
    · rw [parallelFor_eq workers fails chunkSize hlarge hfit]
      have hfj := (parallelForFJ_isSome fails chunkSize).2 hfit
      split_ifs with hsum htasks hend
      · exact iff_of_true hfj ⟨hfit, .inr ⟨hsum, .inl htasks⟩⟩
      · exact iff_of_true rfl ⟨hfit, .inr ⟨hsum, .inr hend⟩⟩
      · refine iff_of_false (by decide) fun h => ?_
        rcases h.2 with h | ⟨-, h | h⟩
        · omega
        · exact htasks h
        · exact hend h
      · refine iff_of_false (by decide) fun h => ?_
        rcases h.2 with h | ⟨h, -⟩
        · omega
        · exact hsum h
    · rw [parallelFor, int_of_fits hfit, Option.bind_eq_bind, Option.bind_some,
        if_neg (by omega), if_neg hlarge]
      exact iff_of_true rfl ⟨hfit, .inl (by omega)⟩
  · rw [parallelFor, int_of_not_fits hfit, Option.bind_eq_bind, Option.bind_none]
    exact iff_of_false (by decide) fun h => hfit h.1

/-- When the loops evaluate no expression that overflows: the length of the range is an `int`, the
sum of the rounding division is one, and so is the end of the last chunk before it is cut off.
`ParallelForFJ` divides without the sum and has no such chunk. -/
theorem parallel_loops_isSome_iff (workers : ℕ) (fails : ℤ × ℤ → Bool)
    (start stop chunkSize : BitVec 32)
    (hlt : start.toInt < stop.toInt) :
    let items := stop.toInt - start.toInt
    let chunk := max 1 chunkSize.toInt
    let tasks := (items + chunk - 1) / chunk
    ((parallelFor workers fails start stop chunkSize).isSome ↔
      items < 2 ^ 31 ∧ (items ≤ 10000 ∨ items + chunk < 2 ^ 31 ∧
        (2 * workers < tasks ∨ start.toInt + tasks * chunk < 2 ^ 31))) ∧
    ((parallelForFJ fails start stop chunkSize).isSome ↔ items < 2 ^ 31) ∧
    ((parallelForNB fails start stop chunkSize).isSome ↔
      items < 2 ^ 31 ∧ items + chunk < 2 ^ 31 ∧ start.toInt + tasks * chunk < 2 ^ 31) := by
  intro items chunk tasks
  have hchunk : 1 ≤ chunk := le_max_left _ _
  have hpos : 0 ≤ tasks := Int.ediv_nonneg (by omega) (by omega)
  have htasks : (count start.toInt stop.toInt chunk : ℤ) = tasks := Int.toNat_of_nonneg hpos
  have hstart := (fits_toInt start).1
  have hfits : Fits items ↔ items < 2 ^ 31 := by unfold Fits; omega
  have hsum : Fits (items + chunk) ↔ items + chunk < 2 ^ 31 := by unfold Fits; omega
  have hend : Fits (start.toInt + tasks * chunk) ↔ start.toInt + tasks * chunk < 2 ^ 31 := by
    have : 0 ≤ tasks * chunk := Int.mul_nonneg hpos (by omega)
    unfold Fits
    omega
  rw [parallelFor_isSome workers chunkSize hlt, parallelForFJ_isSome,
    parallelForNB_isSome chunkSize hlt, htasks, hfits, hsum, hend]
  have hworkers : 2 * workers < count start.toInt stop.toInt chunk ↔
      (2 * workers : ℤ) < tasks := by omega
  rw [hworkers]
  exact ⟨Iff.rfl, Iff.rfl, Iff.rfl⟩

/-- Ten elements in one chunk of the largest size: the sum of the rounding division overflows. -/
theorem not_isSome_parallelForNB :
    ¬ ∀ (fails : ℤ × ℤ → Bool) (start stop chunkSize : BitVec 32), start.toInt < stop.toInt →
      (parallelForNB fails start stop chunkSize).isSome := by
  intro h
  exact absurd (h (fun _ => false) 0#32 10#32 2147483647#32 (by decide)) (by decide)

/-- A range of 20000 elements: with chunks of 100 no loop overflows, and with chunks of the largest
size only `ParallelForFJ` does not. -/
theorem parallel_loops_isSome_iff_twentyThousand :
    ((parallelFor 8 (fun _ => false) 0#32 20000#32 100#32).isSome ∧
      (parallelForFJ (fun _ => false) 0#32 20000#32 100#32).isSome ∧
      (parallelForNB (fun _ => false) 0#32 20000#32 100#32).isSome) ∧
    ¬ (parallelFor 8 (fun _ => false) 0#32 20000#32 2147483647#32).isSome ∧
      (parallelForFJ (fun _ => false) 0#32 20000#32 2147483647#32).isSome ∧
      ¬ (parallelForNB (fun _ => false) 0#32 20000#32 2147483647#32).isSome := by
  obtain ⟨hfor, hfj, hnb⟩ :=
    parallel_loops_isSome_iff 8 (fun _ => false) 0#32 20000#32 100#32 (by decide)
  obtain ⟨hfor', hfj', hnb'⟩ :=
    parallel_loops_isSome_iff 8 (fun _ => false) 0#32 20000#32 2147483647#32 (by decide)
  exact ⟨⟨hfor.2 (by decide), hfj.2 (by decide), hnb.2 (by decide)⟩,
    mt hfor'.1 (by decide), hfj'.2 (by decide), mt hnb'.1 (by decide)⟩

/-- The ranges of `ParallelForNB` divide the range of the loop exactly when a task is created for
each chunk. -/
theorem parallelForNB_divides_iff (fails : ℤ × ℤ → Bool) (start stop chunkSize : BitVec 32)
    (calls : Calls) (hcalls : parallelForNB fails start stop chunkSize = some calls) :
    Divides calls.all start.toInt stop.toInt ↔
      ∀ chunk ∈ chunksFrom start.toInt stop.toInt (max 1 chunkSize.toInt) 0,
        fails chunk = false := by
  have hchunk : 1 ≤ max 1 chunkSize.toInt := le_max_left _ _
  by_cases hlt : start.toInt < stop.toInt
  · obtain ⟨hfit, hrest⟩ := (parallelForNB_isSome chunkSize hlt).1 (by rw [hcalls]; rfl)
    rw [parallelForNB_eq fails chunkSize hlt hfit, if_pos hrest] at hcalls
    cases hcalls
    obtain ⟨hne, hdiv⟩ := chunksFrom_zero hlt hchunk
    constructor
    · intro h chunk hmem
      simpa using hdiv.forall_of_filter hne h chunk hmem
    · intro h
      rw [Calls.all, List.nil_append,
        List.filter_eq_self.2 fun chunk hmem => by simp [h chunk hmem]]
      exact hdiv
  · have hempty : chunksFrom start.toInt stop.toInt (max 1 chunkSize.toInt) 0 = [] := by
      have : (stop.toInt - start.toInt + max 1 chunkSize.toInt - 1) / max 1 chunkSize.toInt ≤ 0 :=
        Int.lt_add_one_iff.1 (Int.ediv_lt_of_lt_mul (by omega) (by omega))
      rw [chunksFrom, count, Int.toNat_of_nonpos this]
      rfl
    rw [parallelForNB] at hcalls
    cases hfit : int (stop.toInt - start.toInt) with
    | none =>
      rw [hfit] at hcalls
      cases hcalls
    | some items =>
      obtain ⟨-, rfl⟩ := int_eq_some.1 hfit
      rw [hfit, Option.bind_eq_bind, Option.bind_some, if_pos (by omega)] at hcalls
      cases hcalls
      rw [hempty]
      exact iff_of_true (divides_nil (by omega)) (by simp)

theorem parallelForNB_divides_iff_two :
    ∃ calls, parallelForNB (fun _ => false) 0#32 2#32 1#32 = some calls ∧
      Divides calls.all 0 2 := by
  refine ⟨⟨[], [(0, 1), (1, 2)]⟩, by decide, ?_⟩
  exact (parallelForNB_divides_iff (fun _ => false) 0#32 2#32 1#32 _ (by decide)).2 (by decide)

/-- No slot is free for the second of two chunks. -/
theorem not_divides_parallelForNB :
    ¬ ∀ (fails : ℤ × ℤ → Bool) (start stop chunkSize : BitVec 32) (calls : Calls),
      parallelForNB fails start stop chunkSize = some calls →
        Divides calls.all start.toInt stop.toInt := by
  intro h
  have hdiv : Divides [(0, 1)] (0 : ℤ) 2 :=
    h (fun chunk => decide (chunk = (1, 2))) 0#32 2#32 1#32 ⟨[], [(0, 1)]⟩ (by decide)
  have hmem : (1 : ℤ) ∈ covered [(0, 1)] := by
    rw [hdiv.covered_eq]
    exact ⟨by decide, by decide⟩
  simp [mem_covered] at hmem

end

end JLibScheduler.ParallelFor
