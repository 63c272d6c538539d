import JLibScheduler.TaskAllocator.Slab

/-!
# Whole operations

`Alloc` and `Free` without interruption, from the same parts. An operation of a `Pool` is a run of
the moves of one thread (`reachable_call`), so the slots of a pool are where the slots of the moves
are, and between operations they are in the shared list, the caches or handed out. `Free` leaves at
most `2 * BATCH` slots in a cache; when `Alloc` finds none, those in the caches of the other threads
are all that are missing (`alloc_nullptr`).
-/

namespace JLibScheduler.TaskAllocator

open Links

/-- `refill`. -/
def Shared.refill (m : Shared) (c : Cache) : Option (Shared × Cache) :=
  match m.detach with
  | (none, m') => some (m', c)
  | (some (batchHead, some batchTail, moved), m') => some (m'.attach c batchHead batchTail moved)
  | (some (_, none, _), _) => none

/-- `Alloc`, with what it returns. -/
def Shared.alloc (m : Shared) (c : Cache) : Option (Option ℕ × Shared × Cache) :=
  (if c.head = none then m.refill c else some (m, c)).map fun r =>
    match r.2.head with
    | none => (none, r)
    | some slot => (some slot, r.1, r.1.take r.2 slot)

/-- `flush`. -/
def Shared.flush (m : Shared) (c : Cache) : Option (Shared × Cache) :=
  if c.count ≤ BATCH then some (m, c)
  else (m.peel c).map fun r => (m.splice r.1.1 r.1.2, r.2)

/-- `Free`. -/
def Shared.free (m : Shared) (c : Cache) (slot : ℕ) : Option (Shared × Cache) :=
  if 2 * BATCH < (m.put c slot).2.count then (m.put c slot).1.flush (m.put c slot).2
  else some (m.put c slot)

/-- The allocator between operations. -/
structure Pool (ι : Type) where
  mem : Shared
  caches : ι → Cache
  liveCount : ℤ
  owned : List ℕ

/-- A whole operation, or a write to a slot that is handed out. -/
inductive Call (ι : Type)
  | alloc (t : ι)
  | free (t : ι) (slot : ℕ)
  | write (slot : ℕ) (word : Option ℕ)

section
variable {ι : Type} [DecidableEq ι]

/-- One operation. -/
def Pool.step (p : Pool ι) : Call ι → Option (Pool ι)
  | .alloc t =>
    (p.mem.alloc (p.caches t)).map fun r =>
      { mem := r.2.1, caches := Function.update p.caches t r.2.2,
        liveCount := if r.1 = none then p.liveCount else p.liveCount + 1,
        owned := r.1.toList ++ p.owned }
  | .free t slot =>
    if slot ∈ p.owned then
      (p.mem.free (p.caches t) slot).map fun r =>
        { mem := r.1, caches := Function.update p.caches t r.2, liveCount := p.liveCount - 1,
          owned := p.owned.erase slot }
    else none
  | .write slot word =>
    if slot ∈ p.owned then
      some { p with mem := { p.mem with next := Function.update p.mem.next slot word } }
    else none

end

/-- A new allocator. -/
def Pool.init (ι : Type) (slots : ℕ) : Pool ι where
  mem := construct slots
  caches _ := { head := none, count := 0 }
  liveCount := 0
  owned := []

/-- The state of the threads between operations. -/
def Pool.state {ι : Type} (p : Pool ι) (ret : ι → Option ℕ) : State ι where
  mem := p.mem
  threads t := { cache := p.caches t, pc := .idle, ret := ret t }
  liveCount := p.liveCount
  owned := p.owned

section
variable {ι : Type} [DecidableEq ι] {p p' : Pool ι} {t : ι} {ret : ι → Option ℕ} {slot : ℕ}

/-- The state while the thread `t` is in an operation. -/
def Pool.during (p : Pool ι) (ret : ι → Option ℕ) (t : ι) (m : Shared) (x : Local) : State ι :=
  { p.state ret with mem := m, threads := Function.update (p.state ret).threads t x }

theorem step_during {m m' : Shared} {x x' : Local} (hmove : x.move m = some (m', x')) :
    (p.during ret t m x).step (.move t) = some (p.during ret t m' x') := by
  have hself : ((p.during ret t m x).threads t) = x := Function.update_self ..
  have hupdate : Function.update (p.during ret t m x).threads t x' =
      (p.during ret t m' x').threads := Function.update_idem ..
  cases hx : x.pc with
  | idle | live | dead => simp only [Local.move, hx, reduceCtorEq] at hmove
  | _ =>
    simp only [State.step, hself, hx]
    change (x.move m).map _ = _
    rw [hmove, Option.map_some, hupdate]
    rfl

/-- The end of an operation. -/
theorem state_idle (m : Shared) (c : Cache) (r : Option ℕ) (liveCount : ℤ) (owned : List ℕ) :
    (State.mk m (Function.update (p.state ret).threads t { cache := c, pc := .idle, ret := r })
      liveCount owned) =
      (Pool.mk m (Function.update p.caches t c) liveCount owned).state
        (Function.update ret t r) := by
  rw [Pool.state, State.mk.injEq]
  refine ⟨rfl, ?_, rfl, rfl⟩
  funext u
  change _ = Local.mk (Function.update p.caches t c u) .idle (Function.update ret t r u)
  by_cases hu : u = t
  · subst hu
    simp only [Function.update_self]
  · simp only [Function.update_of_ne hu]

/-- The last move of an operation that leaves `liveCount` alone. -/
theorem reachable_last {m m' : Shared} {x : Local} {c : Cache} {r : Option ℕ}
    (hmove : x.move m = some (m', { cache := c, pc := .idle, ret := r })) :
    Lts.Reachable State.step (p.during ret t m x)
      ((Pool.mk m' (Function.update p.caches t c) p.liveCount p.owned).state
        (Function.update ret t r)) := by
  rw [← state_idle]
  exact .head (step_during hmove) (.refl _)

/-- The end of `Alloc`, from its second check. -/
theorem reachable_take (p : Pool ι) (ret : ι → Option ℕ) (t : ι) (m : Shared) (c : Cache)
    (r : Option ℕ) :
    ∃ ret', Lts.Reachable State.step (p.during ret t m { cache := c, pc := .take, ret := r })
      ((Pool.mk m (Function.update p.caches t (c.head.elim c (m.take c)))
        (if c.head = none then p.liveCount else p.liveCount + 1)
        (c.head.toList ++ p.owned)).state ret') := by
  cases hhead : c.head with
  | none => exact ⟨_, reachable_last (by simp only [Local.move, hhead]; rfl)⟩
  | some slot =>
    have htake : (p.during ret t m { cache := c, pc := .take, ret := r }).step (.move t) =
        some (p.during ret t m { cache := m.take c slot, pc := .live slot, ret := r }) :=
      step_during (by simp only [Local.move, hhead])
    refine ⟨Function.update ret t (some slot), .head htake (.head (a := .move t) ?_ (.refl _))⟩
    have hself : (p.during ret t m { cache := m.take c slot, pc := .live slot, ret := r }).threads t
        = { cache := m.take c slot, pc := .live slot, ret := r } := Function.update_self ..
    have hupdate : ∀ x, Function.update
        (p.during ret t m { cache := m.take c slot, pc := .live slot, ret := r }).threads t x =
          Function.update (p.state ret).threads t x := fun _ => Function.update_idem ..
    simp only [State.step, hself, hupdate, Option.some.injEq]
    exact state_idle m (m.take c slot) (some slot) (p.liveCount + 1) (slot :: p.owned)

/-- A call of `Alloc` is a run. -/
theorem reachable_alloc {r : Option ℕ × Shared × Cache} (ret : ι → Option ℕ)
    (h : p.mem.alloc (p.caches t) = some r) : ∃ ret', Lts.Reachable State.step (p.state ret)
      ((Pool.mk r.2.1 (Function.update p.caches t r.2.2)
        (if r.1 = none then p.liveCount else p.liveCount + 1) (r.1.toList ++ p.owned)).state
          ret') := by
  have hcall : (p.state ret).step (.alloc t) = some (p.during ret t p.mem
      { cache := p.caches t, pc := .alloc, ret := ret t }) := by
    simp only [State.step]
    exact if_pos rfl
  obtain ⟨⟨m, c⟩, hrefill, rfl⟩ := Option.map_eq_some_iff.1 h
  -- the state at the second check, with the cache that it finds
  have htake : Lts.Reachable State.step (p.during ret t p.mem
      { cache := p.caches t, pc := .alloc, ret := ret t })
        (p.during ret t m { cache := c, pc := .take, ret := ret t }) := by
    split_ifs at hrefill with hhead
    · have hlock : Local.move p.mem { cache := p.caches t, pc := .alloc, ret := ret t } =
          some (p.mem, { cache := p.caches t, pc := .lock, ret := ret t }) := by
        simp only [Local.move, hhead, if_true]
      refine .head (step_during hlock) ?_
      unfold Shared.refill at hrefill
      split at hrefill
      case h_1 m' hdetach =>
        cases hrefill
        exact .head (step_during (by simp only [Local.move, hdetach])) (.refl _)
      case h_2 batchHead batchTail moved m' hdetach =>
        cases hrefill
        exact .head (step_during (by simp only [Local.move, hdetach]; rfl))
          (.head (step_during (by simp only [Local.move]; rfl)) (.refl _))
      case h_3 => cases hrefill
    · cases hrefill
      refine .head (step_during ?_) (.refl _)
      simp only [Local.move, hhead, if_false]
  obtain ⟨ret', hend⟩ := reachable_take p ret t m c (ret t)
  refine ⟨ret', .head hcall (htake.trans ?_)⟩
  cases hhead : c.head with
  | none =>
    simp only [hhead] at hend
    exact hend
  | some slot =>
    simp only [hhead] at hend
    exact hend

/-- A call of `Free` is a run. -/
theorem reachable_free {r : Shared × Cache} (ret : ι → Option ℕ) (hmem : slot ∈ p.owned)
    (h : p.mem.free (p.caches t) slot = some r) : ∃ ret', Lts.Reachable State.step (p.state ret)
      ((Pool.mk r.1 (Function.update p.caches t r.2) (p.liveCount - 1)
        (p.owned.erase slot)).state ret') := by
  let q : Pool ι := { p with owned := p.owned.erase slot }
  let q' : Pool ι := { q with liveCount := p.liveCount - 1 }
  have hcall : (p.state ret).step (.free t slot) = some (q.during ret t p.mem
      { cache := p.caches t, pc := .free slot, ret := ret t }) := by
    simp only [State.step]
    exact if_pos ⟨rfl, hmem⟩
  have hput : (q.during ret t p.mem
      { cache := p.caches t, pc := .free slot, ret := ret t }).step (.move t) =
        some (q.during ret t (p.mem.put (p.caches t) slot).1
          { cache := (p.mem.put (p.caches t) slot).2, pc := .dead, ret := ret t }) :=
    step_during (by simp only [Local.move])
  have hdead : (q.during ret t (p.mem.put (p.caches t) slot).1
      { cache := (p.mem.put (p.caches t) slot).2, pc := .dead, ret := ret t }).step (.move t) =
        some (q'.during ret t (p.mem.put (p.caches t) slot).1
          { cache := (p.mem.put (p.caches t) slot).2, pc := .check, ret := ret t }) := by
    have hself : ((q.during ret t (p.mem.put (p.caches t) slot).1
        { cache := (p.mem.put (p.caches t) slot).2, pc := .dead, ret := ret t }).threads t) =
          { cache := (p.mem.put (p.caches t) slot).2, pc := .dead, ret := ret t } :=
      Function.update_self ..
    simp only [State.step, State.setPc, hself, Option.some.injEq]
    exact congrArg (fun f => State.mk _ f _ _) (Function.update_idem ..)
  refine ⟨Function.update ret t (ret t), .head hcall (.head hput (.head hdead ?_))⟩
  unfold Shared.free at h
  split_ifs at h with hfull
  · unfold Shared.flush at h
    split_ifs at h with hfew
    · cases h
      exact reachable_last (p := q') (by simp only [Local.move, hfull, hfew, if_true])
    · obtain ⟨⟨⟨batchHead, batchTail⟩, c⟩, hpeel, rfl⟩ := Option.map_eq_some_iff.1 h
      have hcheck : Local.move (p.mem.put (p.caches t) slot).1
          { cache := (p.mem.put (p.caches t) slot).2, pc := .check, ret := ret t } =
            some ((p.mem.put (p.caches t) slot).1,
              { cache := c, pc := .splice batchHead batchTail, ret := ret t }) := by
        simp only [Local.move, hfull, hfew, if_true, if_false, hpeel]
        rfl
      exact .head (step_during hcheck) (reachable_last (p := q') rfl)
  · cases h
    exact reachable_last (p := q') (by simp only [Local.move, hfull, if_false])

/-- Every operation of a pool is a run of the threads. -/
theorem reachable_call {c : Call ι} (ret : ι → Option ℕ) (h : p.step c = some p') :
    ∃ ret', Lts.Reachable State.step (p.state ret) (p'.state ret') := by
  cases c with
  | alloc t =>
    obtain ⟨r, halloc, rfl⟩ := Option.map_eq_some_iff.1 h
    exact reachable_alloc ret halloc
  | free t slot =>
    simp only [Pool.step] at h
    split_ifs at h with hmem
    obtain ⟨r, hfree, rfl⟩ := Option.map_eq_some_iff.1 h
    exact reachable_free ret hmem hfree
  | write slot word =>
    simp only [Pool.step] at h
    split_ifs at h with hmem
    cases h
    refine ⟨ret, .head (a := .write slot word) ?_ (.refl _)⟩
    simp only [State.step]
    exact if_pos hmem

/-- Between operations the slots are where the threads have them. -/
theorem Pool.inv [Fintype ι] {slots : ℕ} {cs : List (Call ι)}
    (hrun : Lts.run Pool.step (Pool.init ι slots) cs = some p) :
    ∃ ret L, Inv slots (p.state ret) L := by
  have hreach : ∃ ret, Lts.Reachable State.step (TaskAllocator.init ι slots) (p.state ret) := by
    refine Lts.run_inv
      (I := fun p => ∃ ret, Lts.Reachable State.step (TaskAllocator.init ι slots) (p.state ret))
      (fun h hs => ?_) ⟨fun _ => none, .refl _⟩ hrun
    obtain ⟨ret, h⟩ := h
    obtain ⟨ret', h'⟩ := reachable_call ret hs
    exact ⟨ret', h.trans h'⟩
  obtain ⟨ret, as, hrun'⟩ := hreach
  obtain ⟨L, h⟩ := Inv.run hrun'
  exact ⟨ret, L, h⟩

/-! ## Exhaustion -/

omit [DecidableEq ι] in
/-- The walk of `refill` over a list that is not empty finds a last slot. -/
theorem walk_tail_ne_none {next : ℕ → Option ℕ} (n : ℕ) (curr : Option ℕ) {batchTail : Option ℕ}
    (moved : ℕ) (h : batchTail ≠ none) : (walk next n curr batchTail moved).2.1 ≠ none := by
  induction n generalizing curr batchTail moved with
  | zero => simpa [walk] using h
  | succ n ih =>
    cases curr with
    | none => simpa [walk] using h
    | some a => exact ih _ _ (Option.some_ne_none a)

omit [DecidableEq ι] in
/-- `Alloc` returns, and `nullptr` only when the cache and the shared list are empty. -/
theorem exists_alloc (m : Shared) (c : Cache) : ∃ r, m.alloc c = some r ∧
    (r.1 = none → c.head = none ∧ m.sharedHead = none) := by
  cases hhead : c.head with
  | some slot => exact ⟨(some slot, m, m.take c slot), by simp [Shared.alloc, hhead], by simp⟩
  | none =>
    cases hshared : m.sharedHead with
    | none =>
      refine ⟨(none, m, c), ?_, fun _ => ⟨rfl, rfl⟩⟩
      simp [Shared.alloc, Shared.refill, Shared.detach, hhead, hshared]
    | some batchHead =>
      have htail : (walk m.next BATCH (some batchHead) none 0).2.1 ≠ none :=
        walk_tail_ne_none 31 _ 1 (Option.some_ne_none batchHead)
      obtain ⟨batchTail, htail⟩ := Option.ne_none_iff_exists'.1 htail
      generalize hwalk : walk m.next BATCH (some batchHead) none 0 = w at htail
      obtain ⟨curr, tail, moved⟩ := w
      obtain rfl : tail = some batchTail := htail
      have hrefill : m.refill c =
          some (Shared.attach { m with sharedHead := curr } c batchHead batchTail moved) := by
        simp only [Shared.refill, Shared.detach, hshared, hwalk]
      refine ⟨_, by rw [Shared.alloc, if_pos hhead, hrefill, Option.map_some], fun h => ?_⟩
      cases h

omit [DecidableEq ι] in
/-- `Free` returns when the cache is a chain of the length of its count and the slot is not in
it. -/
theorem exists_free {m : Shared} {c : Cache} {l : List ℕ} (h : Path m.next c.head l none)
    (hcount : c.count = l.length) (hle : l.length ≤ 2 * BATCH) (hslot : slot ∉ l) :
    ∃ r, m.free c slot = some r := by
  have hlt : l.length + 1 < 2 ^ 64 := lt_of_le_of_lt (Nat.succ_le_succ hle) (by decide)
  have hput : Path (m.put c slot).1.next (m.put c slot).2.head (slot :: l) none := h.push hslot
  have hputCount : (m.put c slot).2.count = (slot :: l).length := by
    rw [List.length_cons, ← hcount, Shared.put]
    exact SizeT.add_of_lt (by rwa [hcount])
  rw [Shared.free, Shared.flush]
  split_ifs with hfull hfew
  · exact ⟨_, rfl⟩
  · rw [hputCount] at hfew
    obtain ⟨batchHead, l₁, batchTail, l₂, -, -, -, -, hpeel⟩ :=
      peel_spec hput hputCount (Nat.lt_of_not_le hfew) hlt
    rw [hpeel]
    exact ⟨_, rfl⟩
  · exact ⟨_, rfl⟩

/-- Between operations a cache holds at most `2 * BATCH` slots. Every operation returns, and when
`Alloc` returns `nullptr`, all slots are handed out but those in the caches of the other threads. -/
theorem alloc_nullptr [Fintype ι] {slots : ℕ} {cs : List (Call ι)}
    (hrun : Lts.run Pool.step (Pool.init ι slots) cs = some p) :
    (∀ t, ∃ l, Path p.mem.next (p.caches t).head l none ∧ (p.caches t).count = l.length ∧
      l.length ≤ 2 * BATCH) ∧
    (∀ t, ∀ slot ∈ p.owned, ∃ r, p.mem.free (p.caches t) slot = some r) ∧
    ∀ t, ∃ r, p.mem.alloc (p.caches t) = some r ∧
      (r.1 = none → slots - 2 * BATCH * (Fintype.card ι - 1) ≤ p.owned.length) := by
  obtain ⟨ret, L, h⟩ := Pool.inv hrun
  have hlen : ∀ t, (L.own t).transit = [] ∧ (L.own t).cache.length ≤ 2 * BATCH :=
    fun t => (h.own t).pc
  refine ⟨fun t => ⟨_, (h.own t).chain, (h.own t).count, (hlen t).2⟩, fun t slot hmem => ?_,
    fun t => ?_⟩
  · exact exists_free (h.own t).chain (h.own t).count (hlen t).2
      fun hcache => (h.notMem_of_owned hmem).2 t (List.mem_append_left _ hcache)
  obtain ⟨r, halloc, hnull⟩ := exists_alloc p.mem (p.caches t)
  refine ⟨r, halloc, fun hnone => ?_⟩
  obtain ⟨hhead, hshared⟩ := hnull hnone
  have hcache : (L.own t).slots.length = 0 := by
    rw [Own.slots, (hlen t).1, (h.own t).chain.head_eq_none.1 hhead]
    rfl
  have hempty : L.shared.length = 0 := by
    rw [h.shared.head_eq_none.1 hshared]
    rfl
  have hothers : ∑ u, (L.own u).slots.length ≤ 2 * BATCH * (Fintype.card ι - 1) := by
    rw [← Finset.add_sum_erase _ _ (Finset.mem_univ t), hcache, Nat.zero_add, Nat.mul_comm,
      ← Finset.card_univ, ← Finset.card_erase_of_mem (Finset.mem_univ t), ← smul_eq_mul]
    refine Finset.sum_le_card_nsmul _ _ _ fun u _ => ?_
    rw [Own.slots, (hlen u).1, List.append_nil]
    exact (hlen u).2
  have hsize := h.size
  change L.shared.length + ∑ u, (L.own u).slots.length + p.owned.length = slots at hsize
  omega

end

/-- The only thread has the only slot. -/
theorem alloc_nullptr_one : ∃ p : Pool (Fin 1),
    Lts.run Pool.step (.init (Fin 1) 1) [.alloc 0] = some p ∧
    (p.mem.alloc (p.caches 0)).map Prod.fst = some none ∧
    ((∀ t, ∃ l, Path p.mem.next (p.caches t).head l none ∧ (p.caches t).count = l.length ∧
      l.length ≤ 2 * BATCH) ∧
    (∀ t, ∀ slot ∈ p.owned, ∃ r, p.mem.free (p.caches t) slot = some r) ∧
    ∀ t, ∃ r, p.mem.alloc (p.caches t) = some r ∧
      (r.1 = none → 1 - 2 * BATCH * (Fintype.card (Fin 1) - 1) ≤ p.owned.length)) :=
  ⟨_, (Option.some_get (x := Lts.run _ _ _) (by decide)).symm, by decide,
    alloc_nullptr (Option.some_get (x := Lts.run _ _ _) (by decide)).symm⟩

end JLibScheduler.TaskAllocator
