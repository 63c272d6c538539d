import JLibScheduler.Lib.CInt
import JLibScheduler.TaskScheduler.StartPool

/-!
# The random steal

The last part of the steal phase of `Worker` (`src/Thread.cpp:436-440`): a worker that found nothing
to steal nearby takes a random number, reduces it to one less than the number of workers and adds
one when the result is its own index. A pool of one worker divides by zero. In a larger one the last
worker is reached only by its neighbour, because the indices after the own one are not shifted:
the fallback is as it should be just for the last two workers (`stealFallback_ok_iff`).
-/

namespace JLibScheduler.Thread

/-- `int res = FastRand() % (workers.size() - 1); if (res == qIndex) res++;` and the index of the
deque that is then used; `none` when this is undefined. -/
def stealFallback (workers : Nat) (qIndex : Int) (rand : Nat) : Option Nat :=
  let divisor := SizeT.sub workers 1
  if divisor = 0 then none
  else
    let res := CInt.ofNat (rand % divisor)
    (if res = qIndex then CInt.incr res else some res).map CInt.toSizeT

/-- The fallback of worker `q` is defined for every random number and gives another worker, and it
gives every other worker for some number. -/
structure FallbackOk (n q : Nat) : Prop where
  safe : ∀ rand < 2 ^ 32, ∃ target, stealFallback n (CInt.ofNat q) rand = some target ∧
    (2 ≤ n → target < n ∧ target ≠ q)
  complete : 2 ≤ n → ∀ target < n, target ≠ q →
    ∃ rand < 2 ^ 32, stealFallback n (CInt.ofNat q) rand = some target

section
variable {n q rand : Nat}

/-- A pool of one worker divides by zero. -/
theorem stealFallback_one (qIndex : Int) (rand : Nat) : stealFallback 1 qIndex rand = none := rfl

/-- A remainder that is an `int` is the target, or its successor when it is the own index. -/
theorem stealFallback_of_lt (hn : 2 ≤ n) (hlt : n < 2 ^ 32) (hq : q < 2 ^ 32)
    (hr : rand % (n - 1) < 2 ^ 31) : stealFallback n (CInt.ofNat q) rand =
      if rand % (n - 1) = q then if q + 1 = 2 ^ 31 then none else some (q + 1)
      else some (rand % (n - 1)) := by
  simp only [stealFallback]
  rw [SizeT.sub_of_le (by omega) (by omega), if_neg (by omega)]
  by_cases hown : rand % (n - 1) = q
  · rw [if_pos (hown ▸ rfl), if_pos hown, CInt.ofNat_of_lt hr, CInt.incr, hown]
    split_ifs with hmax hmax' hmax'
    · rfl
    · omega
    · omega
    · have hcast : ((q : Int) + 1) = (q + 1 : Nat) := by omega
      rw [Option.map_some, hcast, CInt.toSizeT_natCast (by omega)]
  · rw [if_neg (fun h => hown ((CInt.ofNat_inj (by omega) hq).1 h)), if_neg hown,
      CInt.ofNat_of_lt hr, Option.map_some, CInt.toSizeT_natCast (by omega)]

/-- A remainder that is not an `int` becomes an index that no worker has. -/
theorem stealFallback_of_ge (hlt : n < 2 ^ 32) (hr : 2 ^ 31 ≤ rand % (n - 1)) (hn : 2 ≤ n)
    (q : Nat) :
    ∃ target, stealFallback n (CInt.ofNat q) rand = some target ∧ 2 ^ 63 ≤ target := by
  have hmod := Nat.mod_lt rand (show 0 < n - 1 by omega)
  have hres := CInt.ofNat_of_ge hr (by omega)
  simp only [stealFallback]
  rw [SizeT.sub_of_le (by omega) (by omega), if_neg (by omega), hres]
  split_ifs
  · rw [CInt.incr, if_neg (by omega)]
    exact ⟨_, rfl, CInt.le_toSizeT (by omega) (by omega)⟩
  · exact ⟨_, rfl, CInt.le_toSizeT (by omega) (by omega)⟩

/-- Of the workers of a pool only the last two have a fallback that is safe and reaches every other
one. -/
theorem fallbackOk_iff (hlt : n < 2 ^ 32) (hq : q < n) : FallbackOk n q ↔
    2 ≤ n ∧ n ≤ q + 2 ∧ (n ≤ 2 ^ 31 ∨ n = 2 ^ 31 + 1 ∧ q + 1 = n) := by
  constructor
  · intro h
    have hn : 2 ≤ n := by
      by_contra hone
      obtain rfl : n = 1 := by omega
      obtain ⟨target, hsome, -⟩ := h.safe 0 (by omega)
      rw [stealFallback_one] at hsome
      cases hsome
    have hnear : n ≤ q + 2 := by
      -- the last worker is not reached from the third last on
      by_contra hfar
      obtain ⟨rand, -, hsome⟩ := h.complete hn (n - 1) (by omega) (by omega)
      have hmod := Nat.mod_lt rand (show 0 < n - 1 by omega)
      rcases Nat.lt_or_ge (rand % (n - 1)) (2 ^ 31) with hr | hr
      · rw [stealFallback_of_lt hn hlt (by omega) hr] at hsome
        split_ifs at hsome with hown hmax
        · have := Option.some.inj hsome
          omega
        · have := Option.some.inj hsome
          omega
      · obtain ⟨target, hsome', hge⟩ := stealFallback_of_ge hlt hr hn q
        have := Option.some.inj (hsome.symm.trans hsome')
        omega
    refine ⟨hn, hnear, ?_⟩
    by_contra hbig
    rcases Nat.lt_or_ge (2 ^ 31 + 1) n with hwide | hwide
    · have hmod : 2 ^ 31 % (n - 1) = 2 ^ 31 := Nat.mod_eq_of_lt (by omega)
      obtain ⟨target, hsome, hbounds⟩ := h.safe (2 ^ 31) (by omega)
      obtain ⟨target', hsome', hge⟩ := stealFallback_of_ge hlt hmod.ge hn q
      have := Option.some.inj (hsome.symm.trans hsome')
      have := hbounds hn
      omega
    · have hmod : (2 ^ 31 - 1) % (n - 1) = 2 ^ 31 - 1 := Nat.mod_eq_of_lt (by omega)
      obtain ⟨target, hsome, -⟩ := h.safe (2 ^ 31 - 1) (by omega)
      rw [stealFallback_of_lt hn hlt (by omega) (by omega), hmod, if_pos (by omega),
        if_pos (by omega)] at hsome
      cases hsome
  · rintro ⟨hn, hnear, hsize⟩
    have hsmall : ∀ rand, rand % (n - 1) < 2 ^ 31 := fun rand => by
      have := Nat.mod_lt rand (show 0 < n - 1 by omega)
      omega
    refine ⟨fun rand _ => ?_, fun _ target htarget hne => ?_⟩
    · have hmod := Nat.mod_lt rand (show 0 < n - 1 by omega)
      rw [stealFallback_of_lt hn hlt (by omega) (hsmall rand)]
      split_ifs with hown hmax
      · omega
      · exact ⟨_, rfl, fun _ => by omega⟩
      · exact ⟨_, rfl, fun _ => ⟨by omega, hown⟩⟩
    · rcases Nat.lt_or_ge target (n - 1) with hin | hlast
      · have hmod : target % (n - 1) = target := Nat.mod_eq_of_lt hin
        refine ⟨target, by omega, ?_⟩
        rw [stealFallback_of_lt hn hlt (by omega) (hsmall target), hmod, if_neg hne]
      · have hmod : q % (n - 1) = q := Nat.mod_eq_of_lt (by omega)
        refine ⟨q, by omega, ?_⟩
        rw [stealFallback_of_lt hn hlt (by omega) (hsmall q), hmod, if_pos rfl,
          if_neg (by omega)]
        exact congrArg some (by omega)

/-- In a pool that `StartPool` creates, the fallback of worker `q` is safe and reaches every other
worker exactly when there are two workers or more and `q` is one of the last two (in a pool of at
most `2 ^ 31` workers, or the last one in a pool of `2 ^ 31 + 1`). -/
theorem stealFallback_ok_iff (cores poolSize : Nat) (hcores : cores < 2 ^ 32) (q : Nat)
    (hq : q < TaskScheduler.numWorkers cores poolSize) :
    FallbackOk (TaskScheduler.numWorkers cores poolSize) q ↔
      2 ≤ TaskScheduler.numWorkers cores poolSize ∧
      TaskScheduler.numWorkers cores poolSize ≤ q + 2 ∧
      (TaskScheduler.numWorkers cores poolSize ≤ 2 ^ 31 ∨
        TaskScheduler.numWorkers cores poolSize = 2 ^ 31 + 1 ∧
        q + 1 = TaskScheduler.numWorkers cores poolSize) := by
  have hbounds := TaskScheduler.numWorkers_bounds hcores poolSize
  have hsafe := TaskScheduler.getSafeTC_lt hcores
  exact fallbackOk_iff (by omega) hq

theorem stealFallback_ok_iff_four : FallbackOk (TaskScheduler.numWorkers 4 0) 1 :=
  (stealFallback_ok_iff 4 0 (by decide) 1 (by decide)).2 (by decide)

/-- On a machine with two cores the pool has one worker, whose fallback divides by zero. -/
theorem not_fallbackOk_one : ¬ ∀ (cores poolSize : Nat), cores < 2 ^ 32 →
    ∀ q < TaskScheduler.numWorkers cores poolSize,
      FallbackOk (TaskScheduler.numWorkers cores poolSize) q := by
  intro h
  obtain ⟨target, hsome, -⟩ := (h 2 0 (by decide) 0 (by decide)).safe 0 (by decide)
  cases hsome

end

end JLibScheduler.Thread
