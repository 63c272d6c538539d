import JLibScheduler.TaskScheduler.Push

/-!
# The round robin with fixed flags

`PickNextWorker` jumps over the workers whose flag is set and leaves its cursor behind the worker it
returned. With the flags held fixed and some worker free, successive calls return the free workers
in their cyclic order, and each of them once in as many calls as there are free workers
(`roundRobin_exact`). The reason is what one round is: the free workers from the cursor on, in the
order of their distance from it (`picks_round`).
-/

namespace JLibScheduler.TaskScheduler

section
variable {n : Nat} [NeZero n]

/-- The results of successive calls of `PickNextWorker`. -/
def picks (inUse : Fin n → Bool) : Nat → Fin n → List (Fin n)
  | 0, _ => []
  | k + 1, nextWorker =>
    let (idx, next) := pickNextWorker inUse nextWorker
    idx :: picks inUse k next

/-- The cursor after `k` calls. -/
def cursor (inUse : Fin n → Bool) : Nat → Fin n → Fin n
  | 0, nextWorker => nextWorker
  | k + 1, nextWorker => cursor inUse k (pickNextWorker inUse nextWorker).2

/-- The worker `b` is the first free one after `a`, in cyclic order. -/
def NextFree (inUse : Fin n → Bool) (a b : Fin n) : Prop :=
  ∃ d, 0 < d ∧ b = Fin.ofNat n (a + d) ∧ inUse b = false ∧
    ∀ j, 0 < j → j < d → inUse (Fin.ofNat n (a + j)) = true

/-- The distances from `start`, from `a` on, at which there is a free worker. -/
def freeFrom (inUse : Fin n → Bool) (start : Fin n) (a : Nat) : List Nat :=
  (List.range' a (n - a)).filter fun o => !inUse (Fin.ofNat n (start + o))

variable {inUse : Fin n → Bool} {next : Fin n}

theorem picks_add (k m : Nat) (next : Fin n) :
    picks inUse (k + m) next = picks inUse k next ++ picks inUse m (cursor inUse k next) := by
  induction k generalizing next with
  | zero => rw [Nat.zero_add]; rfl
  | succ k ih =>
    rw [Nat.succ_add]
    simp only [picks, cursor, ih, List.cons_append]

theorem length_picks (k : Nat) (next : Fin n) : (picks inUse k next).length = k := by
  induction k generalizing next with
  | zero => rfl
  | succ k ih => simp only [picks, List.length_cons, ih]

/-- Distances count modulo the number of workers. -/
theorem ofNat_ofNat_add (a b c : Nat) :
    Fin.ofNat n ((Fin.ofNat n (a + b)).val + c) = Fin.ofNat n (a + (b + c)) := by
  refine Fin.ext ?_
  simp only [Fin.ofNat, Nat.mod_add_mod, Nat.add_assoc]

/-- One place further is one place from the next worker. -/
theorem ofNat_ofNat_succ (a j : Nat) :
    Fin.ofNat n ((Fin.ofNat n (a + 1)).val + j) = Fin.ofNat n ((Fin.ofNat n a).val + (j + 1)) := by
  refine Fin.ext ?_
  simp only [Fin.ofNat, Nat.mod_add_mod]
  congr 1
  omega

/-- With a free worker, the next call returns the first free one from the cursor on. -/
theorem pickNextWorker_first (hfree : ∃ w, inUse w = false) (next : Fin n) :
    ∃ i, inUse (Fin.ofNat n (next + i)) = false ∧
      (∀ j < i, inUse (Fin.ofNat n (next + j)) = true) ∧
      pickNextWorker inUse next = (Fin.ofNat n (next + i), Fin.ofNat n (next + i + 1)) := by
  refine (pickNextWorker_cases inUse next).resolve_right fun h => ?_
  obtain ⟨w, hw⟩ := hfree
  rw [h.1 w] at hw
  cases hw

/-- The first free worker from the distance `a` on, and the others after it. -/
theorem freeFrom_cons {start : Fin n} {a i : Nat} (hlt : a + i < n)
    (hfree : inUse (Fin.ofNat n (start + (a + i))) = false)
    (hused : ∀ j < i, inUse (Fin.ofNat n (start + (a + j))) = true) :
    freeFrom inUse start a = (a + i) :: freeFrom inUse start (a + i + 1) := by
  have hsplit : List.range' a (n - a) =
      List.range' a i ++ (a + i) :: List.range' (a + i + 1) (n - (a + i + 1)) := by
    rw [← List.range'_succ, List.range'_append_1]
    congr 1
    omega
  have hnone : (List.range' a i).filter (fun o => !inUse (Fin.ofNat n (start + o))) = [] := by
    refine List.filter_eq_nil_iff.2 fun o ho => ?_
    obtain ⟨hle, hlt⟩ := List.mem_range'_1.1 ho
    have huse := hused (o - a) (by omega)
    rw [Nat.add_sub_cancel' hle] at huse
    rw [huse]
    exact Bool.false_ne_true
  rw [freeFrom, hsplit, List.filter_append, hnone, List.nil_append, List.filter_cons, hfree]
  rfl

/-- One round: the free workers in the order of their distance from the cursor. -/
theorem picks_round (hfree : ∃ w, inUse w = false) (start : Fin n) (a : Nat) :
    picks inUse (freeFrom inUse start a).length (Fin.ofNat n (start + a)) =
      (freeFrom inUse start a).map fun o => Fin.ofNat n (start + o) := by
  rcases (freeFrom inUse start a).eq_nil_or_concat with hnil | ⟨l, o, hl⟩
  · rw [hnil]
    rfl
  · obtain ⟨i, hi, hused, hpick⟩ := pickNextWorker_first hfree (Fin.ofNat n (start + a))
    rw [Nat.add_assoc, ofNat_ofNat_add, ofNat_ofNat_add] at hpick
    rw [ofNat_ofNat_add] at hi
    have hused : ∀ j < i, inUse (Fin.ofNat n (start + (a + j))) = true := by
      intro j hj
      rw [← ofNat_ofNat_add]
      exact hused j hj
    have ho : o ∈ freeFrom inUse start a := by
      rw [hl, List.concat_eq_append]
      exact List.mem_concat_self
    obtain ⟨hrange, hofree⟩ := List.mem_filter.1 ho
    obtain ⟨hle, hlt⟩ := List.mem_range'_1.1 hrange
    have hio : a + i < n := by
      by_contra hge
      have huse := hused (o - a) (by omega)
      rw [Nat.add_sub_cancel' hle] at huse
      rw [huse] at hofree
      cases hofree
    have ih := picks_round hfree start (a + i + 1)
    rw [freeFrom_cons hio hi hused]
    simp only [List.length_cons, picks, List.map_cons, hpick]
    rw [← Nat.add_assoc a i 1, ih]
termination_by n - a

/-- A round returns every free worker once. -/
theorem nodup_round (inUse : Fin n → Bool) (start : Fin n) :
    ((freeFrom inUse start 0).map fun o => Fin.ofNat n (start + o)).Nodup ∧
      ∀ w, w ∈ (freeFrom inUse start 0).map (fun o => Fin.ofNat n (start + o)) ↔
        inUse w = false := by
  constructor
  · refine List.Nodup.map_on (fun o ho o' ho' heq => ?_) ((List.nodup_range' ..).filter _)
    obtain ⟨-, hlt⟩ := List.mem_range'_1.1 (List.mem_filter.1 ho).1
    obtain ⟨-, hlt'⟩ := List.mem_range'_1.1 (List.mem_filter.1 ho').1
    have hmod : (start.val + o) % n = (start.val + o') % n := congrArg Fin.val heq
    have hcancel : o % n = o' % n := Nat.ModEq.add_left_cancel' start.val hmod
    rwa [Nat.mod_eq_of_lt (by omega), Nat.mod_eq_of_lt (by omega)] at hcancel
  · intro w
    simp only [List.mem_map]
    constructor
    · rintro ⟨o, ho, rfl⟩
      simpa only [Bool.not_eq_true'] using (List.mem_filter.1 ho).2
    · intro hw
      obtain ⟨d, hd, rfl⟩ := exists_place start w
      refine ⟨d, List.mem_filter.2 ⟨List.mem_range'_1.2 ⟨Nat.zero_le _, by omega⟩, ?_⟩, rfl⟩
      rw [hw]
      rfl

/-- A round has as many calls as there are free workers. -/
theorem length_round (start : Fin n) :
    (freeFrom inUse start 0).length = (Finset.univ.filter fun w => inUse w = false).card := by
  obtain ⟨hnodup, hmem⟩ := nodup_round inUse start
  rw [← List.length_map, ← List.toFinset_card_of_nodup hnodup]
  congr 1
  ext w
  rw [List.mem_toFinset, hmem, Finset.mem_filter]
  exact (and_iff_right (Finset.mem_univ w)).symm

/-- Successive calls return free workers. -/
theorem picks_free (hfree : ∃ w, inUse w = false) (k : Nat) (next : Fin n) :
    ∀ w ∈ picks inUse k next, inUse w = false := by
  induction k generalizing next with
  | zero =>
    intro w hw
    cases hw
  | succ k ih =>
    obtain ⟨i, hi, -, hpick⟩ := pickNextWorker_first hfree next
    simp only [picks, hpick, List.forall_mem_cons]
    exact ⟨hi, ih _⟩

/-- Each call returns the first free worker after the one before. -/
theorem picks_chain (hfree : ∃ w, inUse w = false) (k : Nat) (next : Fin n) :
    (picks inUse k next).IsChain (NextFree inUse) := by
  induction k generalizing next with
  | zero => exact .nil
  | succ k ih =>
    obtain ⟨i, hi, -, hpick⟩ := pickNextWorker_first hfree next
    cases k with
    | zero =>
      simp only [picks, hpick]
      exact .singleton _
    | succ k =>
      have hrest := ih (Fin.ofNat n (next + i + 1))
      obtain ⟨j, hj, hused, hpick'⟩ :=
        pickNextWorker_first hfree (Fin.ofNat n (next + i + 1))
      simp only [picks, hpick'] at hrest
      simp only [picks, hpick, hpick']
      refine .cons_cons ⟨j + 1, Nat.succ_pos j, ?_, hj, fun d hd hdj => ?_⟩ hrest
      · exact ofNat_ofNat_succ (next + i) j
      · have huse := hused (d - 1) (by omega)
        rwa [ofNat_ofNat_succ, Nat.sub_add_cancel hd] at huse

/-- With the flags held fixed and some worker free, for every number of workers, every cursor and
every number of successive calls of `PickNextWorker`: each result is a free worker, each is the
first free one after the result before in cyclic order, and any calls in a row, as many as there are
free workers, return every free worker exactly once. -/
theorem roundRobin_exact (hfree : ∃ w, inUse w = false) (k : Nat) (next : Fin n) :
    (∀ w ∈ picks inUse k next, inUse w = false) ∧
    (picks inUse k next).IsChain (NextFree inUse) ∧
    ∀ i, i + (Finset.univ.filter fun w => inUse w = false).card ≤ k →
      (((picks inUse k next).drop i).take
        (Finset.univ.filter fun w => inUse w = false).card).Nodup ∧
      ∀ w, w ∈ ((picks inUse k next).drop i).take
        (Finset.univ.filter fun w => inUse w = false).card ↔ inUse w = false := by
  refine ⟨picks_free hfree k next, picks_chain hfree k next, fun i hi => ?_⟩
  let start := cursor inUse i next
  have hround : picks inUse (Finset.univ.filter fun w => inUse w = false).card start =
      (freeFrom inUse start 0).map fun o => Fin.ofNat n (start + o) := by
    have h := picks_round hfree start 0
    rwa [length_round, Nat.add_zero, Fin.ofNat_val_eq_self] at h
  have hslice : ((picks inUse k next).drop i).take
      (Finset.univ.filter fun w => inUse w = false).card =
      picks inUse (Finset.univ.filter fun w => inUse w = false).card start := by
    obtain ⟨m, rfl⟩ := Nat.exists_eq_add_of_le hi
    rw [Nat.add_assoc, picks_add, List.drop_left' (length_picks i next), picks_add,
      List.take_left' (length_picks _ _)]
  rw [hslice, hround]
  exact nodup_round _ start

/-- Of four workers the second is in use; the calls start at the fourth. -/
theorem roundRobin_exact_four :
    picks (fun w : Fin 4 => decide (w = 1)) 6 3 = [3, 0, 2, 3, 0, 2] ∧
    (picks (fun w : Fin 4 => decide (w = 1)) 6 3).IsChain
      (NextFree fun w : Fin 4 => decide (w = 1)) :=
  ⟨by decide, (roundRobin_exact ⟨0, by decide⟩ 6 3).2.1⟩

end

end JLibScheduler.TaskScheduler
