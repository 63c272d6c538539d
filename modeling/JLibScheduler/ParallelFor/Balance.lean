import JLibScheduler.ParallelFor.Ranges

/-!
# How even the splits of the fork-join loop are

`rec` of `ParallelForFJ` halves its range until it is at most the grain. So a call of `func` is on
half a grain at least, and on one grain at most unless `CreateTask` failed for its range; there are
at most two calls for each grain; and the loop of one run of `rec` creates a number of tasks that is
logarithmic in its range, the rest being left to those tasks (`parallelForFJ_balanced`).
-/

namespace JLibScheduler.ParallelFor

/-- The ranges for which the loop of one run of `rec` calls `CreateTask`. -/
def rights (grain : ℤ) (hgrain : 1 ≤ grain) (a b : ℤ) : List (ℤ × ℤ) :=
  if _h : grain < b - a then
    (a + (b - a).tdiv 2, b) :: rights grain hgrain a (a + (b - a).tdiv 2)
  else []
termination_by (b - a).toNat
decreasing_by
  have := mid_between (show 1 < b - a by omega)
  omega

section
variable {fails : ℤ × ℤ → Bool} {grain : ℤ} {hgrain : 1 ≤ grain} {a b : ℤ} {calls : Calls}

/-- The halves of a range that is longer than the grain. -/
theorem halves_length (hgrain : 1 ≤ grain) (hlong : grain < b - a) :
    grain ≤ 2 * (a + (b - a).tdiv 2 - a) ∧ grain ≤ 2 * (b - (a + (b - a).tdiv 2)) ∧
      2 * (a + (b - a).tdiv 2 - a) ≤ b - a := by
  rw [Int.tdiv_eq_ediv_of_nonneg (by omega)]
  omega

/-- One run of `rec` that has a result: it calls `func` on its range, or it hands the right half to
a task, or to `func` without a task, and goes on with the left half. -/
theorem recCalls_cases (h : recCalls fails grain hgrain a b = some calls) :
    (¬ grain < b - a ∧ calls = ⟨[(a, b)], []⟩) ∨
      (grain < b - a ∧ ∃ right left, calls = Calls.append right left ∧
        recCalls fails grain hgrain a (a + (b - a).tdiv 2) = some left ∧
        ((fails (a + (b - a).tdiv 2, b) = true ∧ right = ⟨[(a + (b - a).tdiv 2, b)], []⟩) ∨
          (fails (a + (b - a).tdiv 2, b) = false ∧ ∃ task,
            recCalls fails grain hgrain (a + (b - a).tdiv 2) b = some task ∧
              right = ⟨[], task.all⟩))) := by
  rw [recCalls] at h
  obtain ⟨_, -, h⟩ := Option.bind_eq_some_iff.1 h
  split_ifs at h with hsplit
  · obtain ⟨_, -, h⟩ := Option.bind_eq_some_iff.1 h
    obtain ⟨right, hright, h⟩ := Option.bind_eq_some_iff.1 h
    obtain ⟨left, hleft, h⟩ := Option.bind_eq_some_iff.1 h
    cases h
    refine .inr ⟨hsplit, right, left, rfl, hleft, ?_⟩
    split_ifs at hright with hfails
    · cases hright
      exact .inl ⟨hfails, rfl⟩
    · obtain ⟨task, htask, rfl⟩ := Option.map_eq_some_iff.1 hright
      exact .inr ⟨Bool.eq_false_iff.2 hfails, task, htask, rfl⟩
  · cases h
    exact .inl ⟨hsplit, rfl⟩

/-- What one run of `rec` and its tasks call. -/
theorem recCalls_all {right left : Calls} (h : calls = Calls.append right left) :
    calls.all.length = right.all.length + left.all.length ∧
      ∀ r, r ∈ calls.all ↔ r ∈ right.all ∨ r ∈ left.all := by
  subst h
  have hperm := right.perm_append left
  exact ⟨by rw [hperm.length_eq, List.length_append],
    fun r => by rw [hperm.mem_iff, List.mem_append]⟩

/-- The calls on a range of half a grain or more. -/
theorem recCalls_even (hlong : grain ≤ 2 * (b - a))
    (h : recCalls fails grain hgrain a b = some calls) :
    (∀ r ∈ calls.all, grain ≤ 2 * (r.2 - r.1) ∧ (r.2 - r.1 ≤ grain ∨ fails r = true)) ∧
      calls.all.length * grain ≤ 2 * (b - a) := by
  induction a, b using recCalls.induct grain hgrain generalizing calls with
  | case1 a b ihright ihleft =>
    rcases recCalls_cases h with ⟨hshort, rfl⟩ | ⟨hsplit, right, left, heq, hleft, hright⟩
    · refine ⟨fun r hr => ?_, by simpa [Calls.all] using hlong⟩
      obtain rfl : r = (a, b) := by simpa [Calls.all] using hr
      exact ⟨hlong, .inl (not_lt.1 hshort)⟩
    · obtain ⟨hlhalf, hrhalf, -⟩ := halves_length hgrain hsplit
      obtain ⟨hleftall, hleftlen⟩ := ihleft hsplit hlhalf hleft
      obtain ⟨hlen, hmem⟩ := recCalls_all heq
      -- the right half, without a task or with one
      obtain ⟨hrightall, hrightlen⟩ : (∀ r ∈ right.all,
          grain ≤ 2 * (r.2 - r.1) ∧ (r.2 - r.1 ≤ grain ∨ fails r = true)) ∧
            right.all.length * grain ≤ 2 * (b - (a + (b - a).tdiv 2)) := by
        rcases hright with ⟨hfails, rfl⟩ | ⟨-, task, htask, rfl⟩
        · refine ⟨fun r hr => ?_, by simpa [Calls.all] using hrhalf⟩
          obtain rfl : r = (a + (b - a).tdiv 2, b) := by simpa [Calls.all] using hr
          exact ⟨hrhalf, .inr hfails⟩
        · exact (ihright hsplit hrhalf htask :)
      refine ⟨fun r hr => ((hmem r).1 hr).elim (hrightall r) (hleftall r), ?_⟩
      rw [hlen]
      push_cast
      linarith

/-- What a run of `rec` calls itself: the right halves for which there is no task, and the leaf. -/
theorem recCalls_inline (h : recCalls fails grain hgrain a b = some calls) :
    ∃ leaf, calls.inline = (rights grain hgrain a b).filter fails ++ [leaf] := by
  induction a, b using recCalls.induct grain hgrain generalizing calls with
  | case1 a b ihright ihleft =>
    rw [rights]
    rcases recCalls_cases h with ⟨hshort, rfl⟩ | ⟨hsplit, right, left, rfl, hleft, hright⟩
    · rw [dif_neg hshort]
      exact ⟨(a, b), rfl⟩
    · obtain ⟨leaf, hleaf⟩ := ihleft hsplit hleft
      refine ⟨leaf, ?_⟩
      rw [dif_pos hsplit, Calls.append, hleaf]
      rcases hright with ⟨hfails, rfl⟩ | ⟨hfails, task, -, rfl⟩
      · rw [List.filter_cons_of_pos hfails]
        rfl
      · rw [List.filter_cons_of_neg (by rw [hfails]; exact Bool.false_ne_true)]
        rfl

/-- One run of `rec` creates a logarithmic number of tasks. -/
theorem rights_length (hlong : grain < 2 * (b - a)) :
    2 ^ (rights grain hgrain a b).length * grain < 2 * (b - a) := by
  induction b using rights.induct grain hgrain a with
  | case1 b hsplit ih =>
    rw [rights, dif_pos hsplit, List.length_cons, pow_succ]
    obtain ⟨hlhalf, -, hhalf⟩ := halves_length hgrain hsplit
    rcases hlhalf.lt_or_eq with hlt | heq
    · have := ih hlt
      linarith
    · -- the left half is exactly half a grain, so it is a leaf
      have hshort : ¬ grain < a + (b - a).tdiv 2 - a := by omega
      rw [rights, dif_neg hshort, List.length_nil]
      linarith
  | case2 b hshort =>
    rw [rights, dif_neg hshort, List.length_nil, pow_zero, one_mul]
    exact hlong

end

/-- `ParallelForFJ` on a range longer than the grain splits it evenly: each call of `func` is on
half a grain or more, and on one grain or less unless `CreateTask` failed for it; the number of
calls is at most twice the range in grains; and the number of tasks that the calling thread creates
is logarithmic in it. -/
theorem parallelForFJ_balanced (fails : ℤ × ℤ → Bool) {start stop grain : BitVec 32}
    (hfit : Fits (stop.toInt - start.toInt))
    (hlong : max 1 grain.toInt < stop.toInt - start.toInt) :
    ∃ calls, parallelForFJ fails start stop grain = some calls ∧
      (∀ r ∈ calls.all, max 1 grain.toInt ≤ 2 * (r.2 - r.1) ∧
        (r.2 - r.1 ≤ max 1 grain.toInt ∨ fails r = true)) ∧
      calls.all.length * max 1 grain.toInt ≤ 2 * (stop.toInt - start.toInt) ∧
      (∃ leaf, calls.inline = (rights (max 1 grain.toInt) (le_max_left _ _) start.toInt
        stop.toInt).filter fails ++ [leaf]) ∧
      2 ^ (rights (max 1 grain.toInt) (le_max_left _ _) start.toInt stop.toInt).length *
        max 1 grain.toInt < 2 * (stop.toInt - start.toInt) := by
  obtain ⟨calls, h, -, -⟩ := parallelForFJ_spec fails grain hfit
  refine ⟨calls, h, ?_⟩
  have hpos : 1 ≤ max 1 grain.toInt := le_max_left _ _
  rw [parallelForFJ, int_of_fits hfit, Option.bind_eq_bind, Option.bind_some,
    if_neg (by omega), if_neg (by omega)] at h
  obtain ⟨hall, hlen⟩ := recCalls_even (by omega) h
  exact ⟨hall, hlen, recCalls_inline h, rights_length (by omega)⟩

/-- Five elements, and no grain below one. -/
theorem parallelForFJ_balanced_five :
    ∃ calls, parallelForFJ (fun _ => false) 0 5 0 = some calls ∧
      (∀ r ∈ calls.all, max 1 (0 : BitVec 32).toInt ≤ 2 * (r.2 - r.1) ∧
        (r.2 - r.1 ≤ max 1 (0 : BitVec 32).toInt ∨ false = true)) ∧
      calls.all.length * max 1 (0 : BitVec 32).toInt ≤
        2 * ((5 : BitVec 32).toInt - (0 : BitVec 32).toInt) ∧
      (∃ leaf, calls.inline = (rights (max 1 (0 : BitVec 32).toInt) (le_max_left _ _)
        (0 : BitVec 32).toInt (5 : BitVec 32).toInt).filter (fun _ => false) ++ [leaf]) ∧
      2 ^ (rights (max 1 (0 : BitVec 32).toInt) (le_max_left _ _) (0 : BitVec 32).toInt
        (5 : BitVec 32).toInt).length * max 1 (0 : BitVec 32).toInt <
          2 * ((5 : BitVec 32).toInt - (0 : BitVec 32).toInt) :=
  parallelForFJ_balanced (fun _ => false) (by decide) (by decide)

end JLibScheduler.ParallelFor
