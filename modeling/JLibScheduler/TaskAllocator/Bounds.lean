import JLibScheduler.TaskAllocator.Slab
import JLibScheduler.Lib.Update

/-!
# What the threads hold back

The slots of a thread are determined by its cache and its place (`Local.Ok.size_unique`), and are at
most `2 * BATCH + 1` at every place: a cache that holds more is flushed, and `flush` passes on what
it has peeled off. So in every interleaving, when the section of `refill` finds the shared list
empty, all but that many slots for each other thread are handed out; and `liveCount` is never
negative and never above the capacity (`refill_bound`).
-/

namespace JLibScheduler.TaskAllocator

open Links

section
variable {m m' : Shared} {x x' : Local} {o o' : Own} {sh : List ℕ} {next next' : ℕ → Option ℕ}

/-! ## One thread -/

/-- The start of a path determines its cells up to a last one that it passes once. -/
theorem path_unique_last {p q q' : Option ℕ} {l l' : List ℕ} {a : ℕ}
    (h : Path next p (l ++ [a]) q) (h' : Path next p (l' ++ [a]) q') (ha : a ∉ l) (ha' : a ∉ l') :
    l = l' := by
  -- with the last cell made to end the list
  have hnil : Path next none [] none := rfl
  have hl := h.splice hnil ha List.not_mem_nil
  have hl' := h'.splice hnil ha' List.not_mem_nil
  rw [List.append_nil] at hl hl'
  exact List.append_cancel_right (hl.unique hl')

/-- The number of slots of a thread is determined by its cache and its place. -/
theorem Local.Ok.size_unique (h : x.Ok next o) (h' : x.Ok next o') (ho : o.slots.Nodup)
    (ho' : o'.slots.Nodup) : o.slots.length = o'.slots.length := by
  have hcache : o.cache.length = o'.cache.length := h.count.symm.trans h'.count
  have htransit : o.transit.length = o'.transit.length := by
    have hok := h.pc
    have hok' := h'.pc
    cases hpc : x.pc with
    | attach batchHead batchTail moved =>
      rw [hpc] at hok hok'
      exact hok.2.1.symm.trans hok'.2.1
    | splice batchHead batchTail =>
      rw [hpc] at hok hok'
      obtain ⟨-, l, q, hl, hpath⟩ := hok
      obtain ⟨-, l', q', hl', hpath'⟩ := hok'
      have hlast : ∀ {o : Own} {l : List ℕ}, o.slots.Nodup → o.transit = l ++ [batchTail] →
          batchTail ∉ l := by
        intro o l hnodup hl hmem
        have htransit := (List.nodup_append.1 hnodup).2.1
        rw [hl] at htransit
        exact (List.nodup_append.1 htransit).2.2 batchTail hmem batchTail (.head _) rfl
      rw [hl] at hpath
      rw [hl'] at hpath'
      rw [hl, hl', path_unique_last hpath hpath' (hlast ho hl) (hlast ho' hl')]
    | _ =>
      rw [hpc] at hok hok'
      rw [hok.1, hok'.1]
  rw [Own.slots, Own.slots, List.length_append, List.length_append, hcache, htransit]

/-- The number of slots of a thread that is not in `flush`. -/
theorem Local.Ok.size_le (h : x.Ok next o)
    (hpc : ∀ batchHead batchTail, x.pc ≠ .splice batchHead batchTail) :
    o.slots.length ≤ 2 * BATCH + 1 := by
  have hok := h.pc
  rw [Own.slots, List.length_append]
  cases hx : x.pc with
  | splice batchHead batchTail => exact absurd hx (hpc _ _)
  | lock =>
    rw [hx] at hok
    rw [hok.1, hok.2]
    exact Nat.zero_le _
  | attach batchHead batchTail moved =>
    rw [hx] at hok
    obtain ⟨hcache, hmoved, hle, -⟩ := hok
    rw [hcache, ← hmoved, List.length_nil, Nat.zero_add]
    exact hle.trans (by decide)
  | dead | check =>
    rw [hx] at hok
    rw [hok.1]
    exact hok.2
  | idle | alloc | take =>
    rw [hx] at hok
    rw [hok.1]
    exact Nat.le_succ_of_le hok.2
  | live slot | free slot =>
    rw [hx] at hok
    rw [hok.1]
    exact Nat.succ_le_succ hok.2

/-- What holds after a move: a call of `Free` that is still counted has put its slot into the cache,
and a thread that has come to the section of `flush` came from its check, which leaves the slots
where they are. -/
theorem move_after (hstep : x.move m = some (m', x')) :
    (x'.pc = .dead → x'.cache.head ≠ none) ∧
      ∀ batchHead batchTail, x'.pc = .splice batchHead batchTail → m' = m := by
  cases hx : x.pc with
  | idle | live | dead => simp only [Local.move, hx, reduceCtorEq] at hstep
  | alloc =>
    simp only [Local.move, hx] at hstep
    cases hstep
    refine ⟨fun hpc => ?_, fun _ _ _ => rfl⟩
    simp only at hpc
    split_ifs at hpc
  | lock | take =>
    simp only [Local.move, hx] at hstep
    split at hstep <;> cases hstep
    all_goals
      refine ⟨fun hpc => ?_, fun _ _ hpc => ?_⟩ <;> cases hpc
  | attach batchHead batchTail moved =>
    cases batchTail with
    | none => simp only [Local.move, hx, reduceCtorEq] at hstep
    | some batchTail =>
      simp only [Local.move, hx] at hstep
      cases hstep
      refine ⟨fun hpc => ?_, fun _ _ hpc => ?_⟩ <;> cases hpc
  | free slot =>
    simp only [Local.move, hx] at hstep
    cases hstep
    exact ⟨fun _ => Option.some_ne_none slot, fun _ _ hpc => by cases hpc⟩
  | check =>
    simp only [Local.move, hx] at hstep
    split_ifs at hstep
    · cases hstep
      exact ⟨fun hpc => (by cases hpc), fun _ _ _ => rfl⟩
    · obtain ⟨r, -, heq⟩ := Option.map_eq_some_iff.1 hstep
      cases heq
      exact ⟨fun hpc => (by cases hpc), fun _ _ _ => rfl⟩
    · cases hstep
      exact ⟨fun hpc => (by cases hpc), fun _ _ _ => rfl⟩
  | splice batchHead batchTail =>
    simp only [Local.move, hx] at hstep
    cases hstep
    refine ⟨fun hpc => ?_, fun _ _ hpc => ?_⟩ <;> cases hpc

/-- A thread that has come to the section of `flush` has as many slots as before. -/
theorem Local.Ok.move_size (h : x.Ok m.next o) (hsh : Path m.next m.sharedHead sh none)
    (hnodup : (sh ++ o.slots).Nodup) (hstep : x.move m = some (m', x')) {batchHead batchTail : ℕ}
    (hpc : x'.pc = .splice batchHead batchTail) :
    ∃ o', x'.Ok m'.next o' ∧ o'.slots.Nodup ∧ o'.slots.length = o.slots.length := by
  obtain ⟨sh', o', hsh', hok, hperm, -⟩ := h.move hsh hnodup hstep
  obtain rfl := (move_after hstep).2 _ _ hpc
  obtain rfl := hsh.unique hsh'
  refine ⟨o', hok, (List.nodup_append.1 (hperm.nodup_iff.2 hnodup)).2.1, ?_⟩
  have := hperm.length_eq
  rw [List.length_append, List.length_append] at this
  omega

end

/-! ## All threads -/

section
variable {ι : Type} [DecidableEq ι] [Fintype ι] {slots : ℕ} {s s' : State ι} {L L' : Layout ι}
  {t u : ι}

omit [Fintype ι] in
/-- A step that puts one thread at another place, without a write to the slots. -/
theorem other_of_update {x : Local} {batchHead batchTail : ℕ}
    (hx : x.pc ≠ .splice batchHead batchTail)
    (hpc : (Function.update s.threads t x u).pc = .splice batchHead batchTail) :
    Function.update s.threads t x u = s.threads u := by
  rcases Update.eq_cases (rfl : Function.update s.threads t x u = _) with ⟨rfl, heq⟩ | ⟨_, heq⟩
  · rw [← heq] at hpc
    exact absurd hpc hx
  · exact heq.symm

/-- How a thread comes to be in the section of `flush`: it was there, and its slots were not
written, or it has come there by a move of its own. -/
theorem step_splice {a : Act ι} {batchHead batchTail : ℕ} (h : Inv slots s L)
    (hs : s.step a = some s') (hpc : (s'.threads u).pc = .splice batchHead batchTail) :
    (s'.threads u = s.threads u ∧ ∀ b ∈ (L.own u).slots, s'.mem.next b = s.mem.next b) ∨
      (s.threads u).move s.mem = some (s'.mem, s'.threads u) := by
  cases a with
  | alloc t =>
    simp only [State.step] at hs
    split_ifs at hs
    cases hs
    exact .inl ⟨other_of_update (fun heq => by cases heq) hpc, fun _ _ => rfl⟩
  | free t slot =>
    simp only [State.step] at hs
    split_ifs at hs
    cases hs
    exact .inl ⟨other_of_update (fun heq => by cases heq) hpc, fun _ _ => rfl⟩
  | write slot word =>
    simp only [State.step] at hs
    split_ifs at hs with hmem
    cases hs
    refine .inl ⟨rfl, fun b hb => Function.update_of_ne ?_ _ _⟩
    exact ne_of_mem_of_not_mem hb ((h.notMem_of_owned hmem).2 u)
  | move t =>
    cases ht : (s.threads t).pc with
    | live slot =>
      simp only [State.step, ht] at hs
      cases hs
      exact .inl ⟨other_of_update (fun heq => by cases heq) hpc, fun _ _ => rfl⟩
    | dead =>
      simp only [State.step, ht] at hs
      cases hs
      exact .inl ⟨other_of_update (fun heq => by cases heq) hpc, fun _ _ => rfl⟩
    | _ =>
      simp only [State.step, ht] at hs
      obtain ⟨⟨m, x⟩, hmove, rfl⟩ := Option.map_eq_some_iff.1 hs
      by_cases hut : u = t
      · subst hut
        have hself : Function.update s.threads u x u = x := Function.update_self ..
        exact .inr (hmove.trans (congrArg (fun y => some (m, y)) hself.symm))
      · obtain ⟨_, _, _, _, _, hframe⟩ := (h.own t).move h.shared (h.nodup t) hmove
        refine .inl ⟨Function.update_of_ne hut _ _, fun b hb => hframe b fun hmem => ?_⟩
        exact h.disjoint hut hb (List.mem_append_right _ hmem)

/-- Every thread has a bounded number of slots, after a step as before. -/
theorem Inv.size_le_step {a : Act ι} (h : Inv slots s L) (hs : s.step a = some s')
    (h' : Inv slots s' L') (hsize : ∀ t, (L.own t).slots.length ≤ 2 * BATCH + 1) (u : ι) :
    (L'.own u).slots.length ≤ 2 * BATCH + 1 := by
  have hnodup := (List.nodup_append.1 (h.nodup u)).2.1
  have hnodup' := (List.nodup_append.1 (h'.nodup u)).2.1
  cases hpc : (s'.threads u).pc with
  | splice batchHead batchTail =>
    rcases step_splice h hs hpc with ⟨hthread, hframe⟩ | hmove
    · have hok : (s'.threads u).Ok s'.mem.next (L.own u) := hthread ▸ (h.own u).congr hframe
      exact ((h'.own u).size_unique hok hnodup' hnodup).trans_le (hsize u)
    · obtain ⟨o, hok, hnodupo, hlen⟩ := (h.own u).move_size h.shared (h.nodup u) hmove hpc
      rw [(h'.own u).size_unique hok hnodup' hnodupo, hlen]
      exact hsize u
  | _ => exact (h'.own u).size_le fun _ _ heq => by rw [hpc] at heq; cases heq

/-- A call of `Free` that is still counted after it has put its slot into the cache. -/
def State.DeadCached (s : State ι) : Prop :=
  ∀ t, (s.threads t).pc = .dead → (s.threads t).cache.head ≠ none

omit [Fintype ι] in
theorem State.DeadCached.update {x : Local} {m : Shared} {liveCount : ℤ} {owned : List ℕ}
    (h : s.DeadCached) (hx : x.pc = .dead → x.cache.head ≠ none) :
    State.DeadCached { mem := m, threads := Function.update s.threads t x, liveCount, owned } :=
  Update.forall_of (P := fun _ (x : Local) => x.pc = .dead → x.cache.head ≠ none) hx fun u _ => h u

omit [Fintype ι] in
theorem State.DeadCached.step {a : Act ι} (h : s.DeadCached) (hs : s.step a = some s') :
    s'.DeadCached := by
  cases a with
  | alloc t | free t slot =>
    simp only [State.step] at hs
    split_ifs at hs
    cases hs
    exact h.update fun heq => by cases heq
  | write slot word =>
    simp only [State.step] at hs
    split_ifs at hs
    cases hs
    exact h
  | move t =>
    cases ht : (s.threads t).pc with
    | live slot =>
      simp only [State.step, ht] at hs
      cases hs
      exact h.update fun heq => by cases heq
    | dead =>
      simp only [State.step, ht] at hs
      cases hs
      exact h.update fun heq => by cases heq
    | _ =>
      simp only [State.step, ht] at hs
      obtain ⟨⟨m, x⟩, hmove, rfl⟩ := Option.map_eq_some_iff.1 hs
      exact h.update (move_after hmove).1

/-- What holds in every state that is reached. -/
theorem exists_inv {as : List (Act ι)}
    (hrun : Lts.run State.step (TaskAllocator.init ι slots) as = some s) :
    ∃ L, Inv slots s L ∧ (∀ t, (L.own t).slots.length ≤ 2 * BATCH + 1) ∧ s.DeadCached := by
  refine Lts.run_inv (I := fun s => ∃ L, Inv slots s L ∧
    (∀ t, (L.own t).slots.length ≤ 2 * BATCH + 1) ∧ s.DeadCached) (fun h hs => ?_)
    ⟨_, .init slots, fun _ => Nat.zero_le _, fun _ heq => by cases heq⟩ hrun
  obtain ⟨L, h, hsize, hdead⟩ := h
  obtain ⟨L', h'⟩ := h.step hs
  exact ⟨L', h', h.size_le_step hs h' hsize, hdead.step hs⟩

omit [DecidableEq ι] in
/-- A call of `Free` that is still counted has its slot, or has put it into the cache. -/
theorem Inv.freeing_le (h : Inv slots s L) (hdead : s.DeadCached) (t : ι) :
    (s.threads t).pc.freeing ≤ (L.own t).slots.length := by
  have hok := (h.own t).pc
  cases hpc : (s.threads t).pc with
  | free slot =>
    rw [hpc] at hok
    rw [Own.slots, hok.1, List.length_append]
    exact Nat.le_add_left 1 _
  | dead =>
    have hcache : (L.own t).cache ≠ [] := fun hnil =>
      hdead t hpc ((h.own t).chain.head_eq_none.2 hnil)
    rw [Own.slots, List.length_append]
    exact (List.length_pos_of_ne_nil hcache).trans_le (Nat.le_add_right _ _)
  | _ => exact Nat.zero_le _

/-- In every interleaving, `liveCount` is between zero and the capacity, and when the section of
`refill` finds no slot, at most `2 * BATCH + 1` slots for each other thread are not handed out. -/
theorem refill_bound {as : List (Act ι)}
    (hrun : Lts.run State.step (TaskAllocator.init ι slots) as = some s) :
    0 ≤ s.liveCount ∧ s.liveCount ≤ slots ∧
      ∀ t, (s.threads t).pc = .lock → s.mem.sharedHead = none →
        slots ≤ s.owned.length + (2 * BATCH + 1) * (Fintype.card ι - 1) := by
  obtain ⟨L, h, hsize, hdead⟩ := exists_inv hrun
  have htotal := h.size
  have hlive := h.live
  have hfreeing : ∑ t, (s.threads t).pc.freeing ≤ ∑ t, (L.own t).slots.length :=
    Finset.sum_le_sum fun t _ => h.freeing_le hdead t
  refine ⟨by omega, by omega, fun t hpc hnone => ?_⟩
  have hok := (h.own t).pc
  rw [hpc] at hok
  have hown : (L.own t).slots.length = 0 := by
    rw [Own.slots, hok.1, hok.2]
    rfl
  have hshared : L.shared.length = 0 := by
    rw [h.shared.head_eq_none.1 hnone]
    rfl
  have hothers : ∑ u, (L.own u).slots.length ≤ (2 * BATCH + 1) * (Fintype.card ι - 1) := by
    rw [← Finset.add_sum_erase _ _ (Finset.mem_univ t), hown, Nat.zero_add, Nat.mul_comm,
      ← Finset.card_univ, ← Finset.card_erase_of_mem (Finset.mem_univ t), ← smul_eq_mul]
    exact Finset.sum_le_card_nsmul _ _ _ fun u _ => hsize u
  omega

end

/-- The only thread takes the only slot, and finds none when it calls `Alloc` again. -/
def takesOnly (t : Fin 1) : List (Act (Fin 1)) :=
  [.alloc t, .move t, .move t, .move t, .move t, .move t, .alloc t, .move t]

theorem refill_bound_takesOnly : ∃ s : State (Fin 1),
    Lts.run State.step (TaskAllocator.init (Fin 1) 1) (takesOnly 0) = some s ∧
      (s.threads 0).pc = .lock ∧ s.mem.sharedHead = none ∧
      0 ≤ s.liveCount ∧ s.liveCount ≤ (1 : ℕ) ∧
        ∀ t, (s.threads t).pc = .lock → s.mem.sharedHead = none →
          1 ≤ s.owned.length + (2 * BATCH + 1) * (Fintype.card (Fin 1) - 1) :=
  ⟨_, (Option.some_get (x := Lts.run _ _ _) (by decide)).symm, by decide, by decide,
    refill_bound (Option.some_get (x := Lts.run _ _ _) (by decide)).symm⟩

end JLibScheduler.TaskAllocator
