import JLibScheduler.TaskAllocator.Chains
import JLibScheduler.Lib.Sums

/-!
# Every slot is in one place

`Layout` says which slots are in the shared list and which ones each thread has. The invariant `Inv`
is that the lists are chains, as `Local.Ok` says for each thread, and that each slot is counted once
in all the lists and the slots that are handed out. A step changes the lists of one thread and the
shared list, and writes only to slots that this thread has in transit, so the chains of the other
threads stay (`Inv.update`). `slab_conserves` is the theorem on runs.
-/

namespace JLibScheduler.TaskAllocator

open Links

/-- The shared list, and the slots of each thread. -/
structure Layout (ι : Type) where
  shared : List ℕ
  own : ι → Own

/-- Where a slot can be. -/
inductive Place (ι : Type)
  | shared
  | cache (t : ι)
  /-- In a chain that an operation moves between the lists. -/
  | transit (t : ι)
  | handedOut
deriving DecidableEq

/-- `Alloc` has taken the slot and `Free` has not put it back. -/
def State.HandedOut {ι : Type} (s : State ι) (slot : ℕ) : Prop :=
  slot ∈ s.owned ∨ ∃ t, (s.threads t).pc.slot = some slot

/-- The slot is at the place. -/
def Layout.At {ι : Type} (L : Layout ι) (s : State ι) : Place ι → ℕ → Prop
  | .shared, slot => slot ∈ L.shared
  | .cache t, slot => slot ∈ (L.own t).cache
  | .transit t, slot => slot ∈ (L.own t).transit ∧ (s.threads t).pc.slot = none
  | .handedOut, slot => s.HandedOut slot

/-- What an operation holds outside the lists: one chain, of which it knows the first and the last
slot, or the slot of the call. -/
def Pc.Carries (next : ℕ → Option ℕ) (l : List ℕ) : Pc → Prop
  | .attach batchHead batchTail _ => (∃ q, Path next (some batchHead) l q) ∧ l.getLast? = batchTail
  | .splice batchHead batchTail =>
    (∃ q, Path next (some batchHead) l q) ∧ l.getLast? = some batchTail
  | .live slot | .free slot => l = [slot]
  | _ => l = []

/-- Each slot is in one place, and the lists are what the code takes them for. -/
structure Conserved {ι : Type} [DecidableEq ι] (slots : ℕ) (s : State ι) (L : Layout ι) : Prop where
  place : ∀ slot < slots, ∃! p, L.At s p slot
  slot : ∀ p slot, L.At s p slot → slot < slots
  shared : Path s.mem.next s.mem.sharedHead L.shared none
  cache : ∀ t, Path s.mem.next (s.threads t).cache.head (L.own t).cache none
  transit : ∀ t, (s.threads t).pc.Carries s.mem.next (L.own t).transit
  acyclic : L.shared.Nodup ∧ ∀ t, (L.own t).cache.Nodup ∧ (L.own t).transit.Nodup
  count : ∀ t, (s.threads t).pc = .idle → (s.threads t).cache.count = (L.own t).cache.length
  /-- what `Alloc` takes is not handed out, -/
  takes : ∀ t slot, (s.threads t).pc = .take → (s.threads t).cache.head = some slot →
    ¬ s.HandedOut slot
  /-- and what it returns nobody else has. -/
  returns : ∀ t slot, (s.threads t).pc = .live slot →
    slot ∉ s.owned ∧ ∀ u, u ≠ t → (s.threads u).pc.slot ≠ some slot
  live : (∀ t, (s.threads t).pc = .idle) → s.liveCount = s.owned.length ∧ s.owned.Nodup
  /-- No operation is stuck. -/
  progress : ∀ t, (s.threads t).pc ≠ .idle → ∃ s', s.step (.move t) = some s'

/-- The last move of the thread was the section of `refill`, with an empty cache and an empty shared
list. -/
def RefillFoundNone {ι : Type} [DecidableEq ι] (slots : ℕ) (as : List (Act ι)) (t : ι) : Prop :=
  ∃ bs cs s₀, as = bs ++ .move t :: cs ∧ .move t ∉ cs ∧
    Lts.run State.step (init ι slots) bs = some s₀ ∧ (s₀.threads t).pc = .lock ∧
    (s₀.threads t).cache.head = none ∧ s₀.mem.sharedHead = none

/-- A call of `Free` that `liveCount` still counts. -/
def Pc.freeing : Pc → ℕ
  | .free _ | .dead => 1
  | _ => 0

section
variable {ι : Type} [DecidableEq ι] [Fintype ι] {slots : ℕ} {s s' : State ι} {L : Layout ι}
  {t u : ι}
  {slot : ℕ}

/-- The invariant. -/
structure Inv (slots : ℕ) (s : State ι) (L : Layout ι) : Prop where
  shared : Path s.mem.next s.mem.sharedHead L.shared none
  own : ∀ t, (s.threads t).Ok s.mem.next (L.own t)
  mass : ∀ a, L.shared.count a + ∑ t, (L.own t).slots.count a + s.owned.count a =
    (List.range slots).count a
  size : L.shared.length + ∑ t, (L.own t).slots.length + s.owned.length = slots
  live : s.liveCount = s.owned.length + ((∑ t, (s.threads t).pc.freeing : ℕ) : ℤ)

omit [DecidableEq ι] in
theorem Inv.mass_le (h : Inv slots s L) (a : ℕ) :
    L.shared.count a + ∑ t, (L.own t).slots.count a + s.owned.count a ≤ 1 :=
  (h.mass a).le.trans (List.nodup_iff_count_le_one.1 List.nodup_range a)

omit [DecidableEq ι] in
theorem Inv.count_le (h : Inv slots s L) (t : ι) (a : ℕ) :
    L.shared.count a + (L.own t).slots.count a + s.owned.count a ≤ 1 := by
  have hmass := h.mass_le a
  have := Sums.single_le (φ := fun o : Own => o.slots.count a) (f := L.own) t
  omega

omit [DecidableEq ι] in
theorem Inv.nodup (h : Inv slots s L) (t : ι) : (L.shared ++ (L.own t).slots).Nodup := by
  refine List.nodup_iff_count_le_one.2 fun a => ?_
  have := h.count_le t a
  rw [List.count_append]
  omega

omit [DecidableEq ι] in
theorem Inv.owned_nodup (h : Inv slots s L) : s.owned.Nodup :=
  List.nodup_iff_count_le_one.2 fun a => le_trans (Nat.le_add_left _ _) (h.mass_le a)

omit [DecidableEq ι] in
theorem Inv.notMem_of_owned (h : Inv slots s L) (ha : slot ∈ s.owned) :
    slot ∉ L.shared ∧ ∀ t, slot ∉ (L.own t).slots := by
  have hpos := List.count_pos_iff.2 ha
  have hmass := h.mass_le slot
  refine ⟨fun hmem => ?_, fun t hmem => ?_⟩
  · have := List.count_pos_iff.2 hmem
    omega
  · have := List.count_pos_iff.2 hmem
    have := h.count_le t slot
    omega

theorem Inv.disjoint (h : Inv slots s L) (hne : t ≠ u) (ha : slot ∈ (L.own t).slots) :
    slot ∉ (L.own u).slots := by
  intro hmem
  have hpair := Sums.pair_le (φ := fun o : Own => o.slots.count slot) (f := L.own) hne
  have := List.count_pos_iff.2 ha
  have := List.count_pos_iff.2 hmem
  have := h.mass_le slot
  omega

/-- What one thread does: it may write to the slots that it has in transit. -/
theorem Inv.update (h : Inv slots s L) (t : ι) {m : Shared} {x : Local} {sh : List ℕ} {o : Own}
    {liveCount : ℤ} {owned : List ℕ} (hshared : Path m.next m.sharedHead sh none)
    (hown : x.Ok m.next o) (hframe : ∀ a, a ∉ (L.own t).transit → m.next a = s.mem.next a)
    (hmass : ∀ a, sh.count a + o.slots.count a + owned.count a =
      L.shared.count a + (L.own t).slots.count a + s.owned.count a)
    (hsize : sh.length + o.slots.length + owned.length =
      L.shared.length + (L.own t).slots.length + s.owned.length)
    (hlive : liveCount + s.owned.length + ((s.threads t).pc.freeing : ℤ) =
      s.liveCount + owned.length + (x.pc.freeing : ℤ)) :
    Inv slots { mem := m, threads := Function.update s.threads t x, liveCount, owned }
      { shared := sh, own := Function.update L.own t o } where
  shared := hshared
  own u := by
    by_cases hu : u = t
    · subst hu
      simp only [Function.update_self]
      exact hown
    · simp only [Function.update_of_ne hu]
      refine (h.own u).congr fun a ha => hframe a fun hmem => ?_
      exact h.disjoint hu ha (List.mem_append_right _ hmem)
  mass a := by
    have hold := h.mass a
    have hnew := hmass a
    have := Sums.update (φ := fun o : Own => o.slots.count a) L.own t o
    simp only at this ⊢
    omega
  size := by
    have hold := h.size
    have := Sums.update (φ := fun o : Own => o.slots.length) L.own t o
    simp only at this ⊢
    omega
  live := by
    have hold := h.live
    have := Sums.update (φ := fun x : Local => x.pc.freeing) s.threads t x
    simp only at this ⊢
    omega

/-! ## The steps -/

omit [DecidableEq ι] [Fintype ι] in
theorem freeing_move {m m' : Shared} {x x' : Local} (hstep : x.move m = some (m', x')) :
    x'.pc.freeing = x.pc.freeing := by
  cases hpc : x.pc with
  | idle | live | dead => simp only [Local.move, hpc, reduceCtorEq] at hstep
  | alloc =>
    simp only [Local.move, hpc] at hstep
    cases hstep
    simp only
    split_ifs <;> rfl
  | lock =>
    simp only [Local.move, hpc] at hstep
    split at hstep <;> cases hstep <;> rfl
  | attach batchHead batchTail moved =>
    cases batchTail with
    | none => simp only [Local.move, hpc, reduceCtorEq] at hstep
    | some batchTail =>
      simp only [Local.move, hpc] at hstep
      cases hstep
      rfl
  | take =>
    simp only [Local.move, hpc] at hstep
    split at hstep <;> cases hstep <;> rfl
  | free slot =>
    simp only [Local.move, hpc] at hstep
    cases hstep
    rfl
  | check =>
    simp only [Local.move, hpc] at hstep
    split_ifs at hstep
    · cases hstep
      rfl
    · obtain ⟨r, -, heq⟩ := Option.map_eq_some_iff.1 hstep
      cases heq
      rfl
    · cases hstep
      rfl
  | splice batchHead batchTail =>
    simp only [Local.move, hpc] at hstep
    cases hstep
    rfl

/-- An operation goes on, with `liveCount` left alone. -/
theorem Inv.move (h : Inv slots s L) {r : Shared × Local}
    (hstep : (s.threads t).move s.mem = some r) :
    ∃ L', Inv slots { s with mem := r.1, threads := Function.update s.threads t r.2 } L' := by
  obtain ⟨sh, o, hshared, hown, hperm, hframe⟩ := (h.own t).move h.shared (h.nodup t) hstep
  refine ⟨_, h.update t hshared hown hframe (fun a => ?_) ?_ ?_⟩
  · have := hperm.count_eq a
    rw [List.count_append, List.count_append] at this
    omega
  · have := hperm.length_eq
    rw [List.length_append, List.length_append] at this
    omega
  · rw [freeing_move hstep]

/-- Every step keeps the invariant. -/
theorem Inv.step {a : Act ι} (h : Inv slots s L) (hs : s.step a = some s') :
    ∃ L', Inv slots s' L' := by
  cases a with
  | alloc t =>
    simp only [State.step] at hs
    split_ifs at hs with hpc
    cases hs
    have hok := (h.own t).pc
    rw [hpc] at hok
    exact ⟨_, h.update t h.shared ⟨(h.own t).chain, (h.own t).count, hok⟩ (fun _ _ => rfl)
      (fun _ => rfl) rfl (by rw [hpc]; rfl)⟩
  | free t slot =>
    simp only [State.step] at hs
    split_ifs at hs with hguard
    obtain ⟨hpc, hmem⟩ := hguard
    cases hs
    have hok := (h.own t).pc
    rw [hpc] at hok
    have hperm := List.perm_cons_erase hmem
    refine ⟨_, h.update t (o := { cache := (L.own t).cache, transit := [slot] }) h.shared
      ⟨(h.own t).chain, (h.own t).count, rfl, hok.2⟩ (fun _ _ => rfl) (fun a => ?_) ?_ ?_⟩
    · have := hperm.count_eq a
      rw [List.count_cons] at this
      simp only [Own.slots, hok.1, List.count_append, List.count_nil, List.count_cons]
      omega
    · have := hperm.length_eq
      rw [List.length_cons] at this
      simp only [Own.slots, hok.1, List.length_append, List.length_nil, List.length_singleton]
      omega
    · have := hperm.length_eq
      rw [List.length_cons] at this
      rw [hpc, this]
      simp only [Pc.freeing, State.setPc]
      push_cast
      omega
  | move t =>
    cases hpc : (s.threads t).pc with
    | live slot =>
      simp only [State.step, hpc] at hs
      cases hs
      have hok := (h.own t).pc
      rw [hpc] at hok
      refine ⟨_, h.update t (o := { cache := (L.own t).cache, transit := [] }) h.shared
        ⟨(h.own t).chain, (h.own t).count, rfl, hok.2⟩ (fun _ _ => rfl) (fun a => ?_) ?_ ?_⟩
      · simp only [Own.slots, hok.1, List.count_append, List.count_nil, List.count_cons]
        omega
      · simp only [Own.slots, hok.1, List.length_append, List.length_nil, List.length_cons]
        omega
      · rw [hpc]
        simp only [Pc.freeing, List.length_cons]
        push_cast
        omega
    | dead =>
      simp only [State.step, hpc] at hs
      cases hs
      have hok := (h.own t).pc
      rw [hpc] at hok
      refine ⟨_, h.update t h.shared ⟨(h.own t).chain, (h.own t).count, hok⟩ (fun _ _ => rfl)
        (fun _ => rfl) rfl ?_⟩
      rw [hpc]
      simp only [Pc.freeing, State.setPc]
      push_cast
      omega
    | _ =>
      simp only [State.step, hpc] at hs
      obtain ⟨r, hmove, rfl⟩ := Option.map_eq_some_iff.1 hs
      exact h.move hmove
  | write slot word =>
    simp only [State.step] at hs
    split_ifs at hs with hmem
    cases hs
    obtain ⟨hshared, hown⟩ := h.notMem_of_owned hmem
    refine ⟨L, h.shared.update hshared, fun t => ?_, h.mass, h.size, h.live⟩
    exact (h.own t).congr fun a ha => Function.update_of_ne (ne_of_mem_of_not_mem ha (hown t)) _ _

/-- The constructor links all the slots. -/
theorem path_construct (slots : ℕ) :
    Path (construct slots).next (construct slots).sharedHead (List.range slots).reverse none := by
  induction slots with
  | zero => rfl
  | succ n ih =>
    rw [List.range_succ, List.reverse_append, List.reverse_singleton, List.singleton_append]
    unfold construct at ih ⊢
    rw [List.range_succ, List.foldl_append, List.foldl_cons, List.foldl_nil]
    exact ih.push (by simp)

omit [DecidableEq ι] in
theorem Inv.init (slots : ℕ) : Inv slots (init ι slots)
    { shared := (List.range slots).reverse, own := fun _ => { cache := [], transit := [] } } where
  shared := path_construct slots
  own t := ⟨rfl, rfl, rfl, Nat.zero_le _⟩
  mass a := by simp [TaskAllocator.init, Own.slots, List.count_reverse]
  size := by simp [TaskAllocator.init, Own.slots]
  live := by simp [TaskAllocator.init, Pc.freeing]

theorem Inv.run {as : List (Act ι)}
    (hrun : Lts.run State.step (TaskAllocator.init ι slots) as = some s) : ∃ L, Inv slots s L := by
  refine Lts.run_inv (I := fun s => ∃ L, Inv slots s L) (fun h hs => ?_) ⟨_, .init slots⟩ hrun
  obtain ⟨L, h⟩ := h
  exact h.step hs

/-! ## The places -/

omit [DecidableEq ι] [Fintype ι] in
/-- What an operation holds is as the place says. -/
theorem Local.Ok.carries {next : ℕ → Option ℕ} {x : Local} {o : Own} (h : x.Ok next o) :
    x.pc.Carries next o.transit := by
  have hok := h.pc
  cases hpc : x.pc with
  | attach batchHead batchTail moved =>
    rw [hpc] at hok
    obtain ⟨-, -, -, l, a, q, hl, rfl, hpath⟩ := hok
    refine ⟨⟨q, hpath⟩, ?_⟩
    rw [hl, List.getLast?_concat]
  | splice batchHead batchTail =>
    rw [hpc] at hok
    obtain ⟨-, l, q, hl, hpath⟩ := hok
    refine ⟨⟨q, hpath⟩, ?_⟩
    rw [hl, List.getLast?_concat]
  | _ =>
    rw [hpc] at hok
    exact hok.1

omit [DecidableEq ι] [Fintype ι] in
/-- A slot of a call is all that the thread has in transit. -/
theorem Local.Ok.transit_of_slot {next : ℕ → Option ℕ} {x : Local} {o : Own} (h : x.Ok next o)
    (hslot : x.pc.slot = some slot) : o.transit = [slot] := by
  have hok := h.pc
  cases hpc : x.pc with
  | live a | free a =>
    rw [hpc] at hok hslot
    cases hslot
    exact hok.1
  | _ =>
    rw [hpc] at hslot
    cases hslot

/-- The lists that a slot can be in. -/
def Layout.list (L : Layout ι) (s : State ι) : Place ι → List ℕ
  | .shared => L.shared
  | .cache t => (L.own t).cache
  | .transit t => (L.own t).transit
  | .handedOut => s.owned

/-- The place that a list stands for: the slot of a call is handed out. -/
def State.placeOf (s : State ι) : Place ι → Place ι
  | .transit t => if (s.threads t).pc.slot = none then .transit t else .handedOut
  | p => p

omit [DecidableEq ι] in
theorem Inv.at_iff (h : Inv slots s L) {p : Place ι} :
    L.At s p slot ↔ ∃ q, slot ∈ L.list s q ∧ s.placeOf q = p := by
  constructor
  · intro hat
    cases p with
    | shared => exact ⟨.shared, hat, rfl⟩
    | cache t => exact ⟨.cache t, hat, rfl⟩
    | transit t => exact ⟨.transit t, hat.1, if_pos hat.2⟩
    | handedOut =>
      rcases hat with hmem | ⟨t, ht⟩
      · exact ⟨.handedOut, hmem, rfl⟩
      · refine ⟨.transit t, ?_, if_neg (by rw [ht]; exact Option.some_ne_none _)⟩
        simp only [Layout.list, (h.own t).transit_of_slot ht, List.mem_singleton]
  · rintro ⟨q, hmem, rfl⟩
    cases q with
    | shared | cache | handedOut => first | exact hmem | exact .inl hmem
    | transit t =>
      cases hslot : (s.threads t).pc.slot with
      | none =>
        simp only [State.placeOf, hslot, if_true]
        exact ⟨hmem, hslot⟩
      | some a =>
        simp only [Layout.list, (h.own t).transit_of_slot hslot, List.mem_singleton] at hmem
        subst hmem
        simp only [State.placeOf, hslot, reduceCtorEq, if_false]
        exact .inr ⟨t, hslot⟩

omit [DecidableEq ι] in
/-- A slot of the allocator is in some list. -/
theorem Inv.lt_iff (h : Inv slots s L) : slot < slots ↔ ∃ q, slot ∈ L.list s q := by
  have hmass := h.mass slot
  rw [← List.mem_range, ← List.count_pos_iff, ← hmass]
  constructor
  · intro hpos
    by_cases hshared : slot ∈ L.shared
    · exact ⟨.shared, hshared⟩
    by_cases howned : slot ∈ s.owned
    · exact ⟨.handedOut, howned⟩
    rw [List.count_eq_zero.2 hshared, List.count_eq_zero.2 howned, Nat.zero_add, Nat.add_zero,
      Finset.sum_pos_iff] at hpos
    obtain ⟨t, -, ht⟩ := hpos
    rcases List.mem_append.1 (List.count_pos_iff.1 ht) with hmem | hmem
    · exact ⟨.cache t, hmem⟩
    · exact ⟨.transit t, hmem⟩
  · rintro ⟨q, hmem⟩
    have hsum : ∀ t, slot ∈ (L.own t).slots → 0 < ∑ t, (L.own t).slots.count slot := fun t ht =>
      lt_of_lt_of_le (List.count_pos_iff.2 ht)
        (Sums.single_le (φ := fun o : Own => o.slots.count slot) (f := L.own) t)
    cases q with
    | shared =>
      have := List.count_pos_iff.2 hmem
      simp only [Layout.list] at this
      omega
    | handedOut =>
      have := List.count_pos_iff.2 hmem
      simp only [Layout.list] at this
      omega
    | cache t =>
      have := hsum t (List.mem_append_left _ hmem)
      omega
    | transit t =>
      have := hsum t (List.mem_append_right _ hmem)
      omega

/-- No slot is in two lists. -/
theorem Inv.list_inj (h : Inv slots s L) {p q : Place ι} (hp : slot ∈ L.list s p)
    (hq : slot ∈ L.list s q) : p = q := by
  have hshared : ∀ t, slot ∈ L.shared → slot ∉ (L.own t).slots := fun t hmem hown =>
    (List.nodup_append.1 (h.nodup t)).2.2 slot hmem slot hown rfl
  have hown : ∀ t u, slot ∈ (L.own t).slots → slot ∈ (L.own u).slots → t = u := fun t u ht hu =>
    by_contra fun hne => h.disjoint hne ht hu
  have hboth : ∀ t, slot ∈ (L.own t).cache → slot ∉ (L.own t).transit := fun t hc ht =>
    (List.nodup_append.1 (List.nodup_append.1 (h.nodup t)).2.1).2.2 slot hc slot ht rfl
  have hslots : ∀ {t}, slot ∈ (L.own t).cache ∨ slot ∈ (L.own t).transit →
      slot ∈ (L.own t).slots := List.mem_append.2
  have howned := fun hmem : slot ∈ s.owned => h.notMem_of_owned hmem
  cases p with
  | shared =>
    cases q with
    | shared => rfl
    | cache t => exact absurd (hslots (.inl hq)) (hshared t hp)
    | transit t => exact absurd (hslots (.inr hq)) (hshared t hp)
    | handedOut => exact absurd hp (howned hq).1
  | cache t =>
    cases q with
    | shared => exact absurd (hslots (.inl hp)) (hshared t hq)
    | cache u => rw [hown t u (hslots (.inl hp)) (hslots (.inl hq))]
    | transit u =>
      obtain rfl := hown t u (hslots (.inl hp)) (hslots (.inr hq))
      exact absurd hq (hboth t hp)
    | handedOut => exact absurd (hslots (.inl hp)) ((howned hq).2 t)
  | transit t =>
    cases q with
    | shared => exact absurd (hslots (.inr hp)) (hshared t hq)
    | cache u =>
      obtain rfl := hown t u (hslots (.inr hp)) (hslots (.inl hq))
      exact absurd hp (hboth t hq)
    | transit u => rw [hown t u (hslots (.inr hp)) (hslots (.inr hq))]
    | handedOut => exact absurd (hslots (.inr hp)) ((howned hq).2 t)
  | handedOut =>
    cases q with
    | shared => exact absurd hq (howned hp).1
    | cache t => exact absurd (hslots (.inl hq)) ((howned hp).2 t)
    | transit t => exact absurd (hslots (.inr hq)) ((howned hp).2 t)
    | handedOut => rfl

theorem Inv.existsUnique_place (h : Inv slots s L) (hlt : slot < slots) :
    ∃! p, L.At s p slot := by
  obtain ⟨q, hq⟩ := h.lt_iff.1 hlt
  refine ⟨s.placeOf q, h.at_iff.2 ⟨q, hq, rfl⟩, fun p hp => ?_⟩
  obtain ⟨q', hq', rfl⟩ := h.at_iff.1 hp
  rw [h.list_inj hq hq']

/-- What an operation holds as the slot of a call is in no other hand. -/
theorem Inv.slot_alone (h : Inv slots s L) (hslot : (s.threads t).pc.slot = some slot) :
    slot ∉ s.owned ∧ ∀ u, u ≠ t → (s.threads u).pc.slot ≠ some slot := by
  have hmem : ∀ u, (s.threads u).pc.slot = some slot → slot ∈ (L.own u).transit := fun u hu => by
    rw [(h.own u).transit_of_slot hu]
    exact .head _
  refine ⟨fun howned => ?_, fun u hne hu => ?_⟩
  · exact (h.notMem_of_owned howned).2 t (List.mem_append_right _ (hmem t hslot))
  · exact h.disjoint hne (List.mem_append_right _ (hmem u hu))
      (List.mem_append_right _ (hmem t hslot))

/-- The first slot of a cache is not handed out. -/
theorem Inv.head_not_handedOut (h : Inv slots s L)
    (hhead : (s.threads t).cache.head = some slot) : ¬ s.HandedOut slot := by
  intro hout
  have hchain := (h.own t).chain
  have hmem : slot ∈ (L.own t).cache := by
    cases hcache : (L.own t).cache with
    | nil =>
      rw [hcache, hhead] at hchain
      cases hchain
    | cons a l =>
      rw [hcache, hhead] at hchain
      obtain rfl := Option.some.inj hchain.1
      exact .head _
  obtain ⟨q, hq, hplace⟩ := (h.at_iff (p := .handedOut)).1 hout
  obtain rfl := h.list_inj (p := .cache t) hmem hq
  cases hplace

theorem Inv.progress (h : Inv slots s L) (hpc : (s.threads t).pc ≠ .idle) :
    ∃ s', s.step (.move t) = some s' := by
  cases hx : (s.threads t).pc with
  | idle => exact absurd hx hpc
  | live | dead =>
    simp only [State.step, hx]
    exact ⟨_, rfl⟩
  | _ =>
    obtain ⟨r, hr⟩ := (h.own t).exists_move hpc (by simp [hx]) (by simp [hx])
    simp only [State.step, hx, hr]
    exact ⟨_, rfl⟩

theorem Inv.conserved (h : Inv slots s L) : Conserved slots s L where
  place slot hlt := h.existsUnique_place hlt
  slot p slot hat := by
    obtain ⟨q, hq, -⟩ := h.at_iff.1 hat
    exact h.lt_iff.2 ⟨q, hq⟩
  shared := h.shared
  cache t := (h.own t).chain
  transit t := (h.own t).carries
  acyclic := by
    refine ⟨h.shared.nodup, fun t => ?_⟩
    obtain ⟨-, hown, -⟩ := List.nodup_append.1 (h.nodup t)
    exact ⟨(List.nodup_append.1 hown).1, (List.nodup_append.1 hown).2.1⟩
  count t _ := (h.own t).count
  takes t slot _ hhead := h.head_not_handedOut hhead
  returns t slot hpc := h.slot_alone (by rw [hpc]; rfl)
  live hidle := by
    refine ⟨?_, h.owned_nodup⟩
    rw [h.live, Finset.sum_eq_zero fun t _ => by rw [hidle t]; rfl]
    simp
  progress t hpc := h.progress hpc

/-! ## What `nullptr` means -/

omit [Fintype ι] in
/-- A step of another thread leaves the thread alone. -/
theorem threads_of_ne {a : Act ι} (hs : s.step a = some s') (hmove : a ≠ .move t)
    (hpc : (s'.threads t).pc = .take) : s'.threads t = s.threads t := by
  cases a with
  | alloc u =>
    simp only [State.step] at hs
    split_ifs at hs
    cases hs
    by_cases hu : t = u
    · subst hu
      simp only [State.setPc, Function.update_self] at hpc
      cases hpc
    · exact Function.update_of_ne hu _ _
  | free u slot =>
    simp only [State.step] at hs
    split_ifs at hs
    cases hs
    by_cases hu : t = u
    · subst hu
      simp only [State.setPc, Function.update_self] at hpc
      cases hpc
    · exact Function.update_of_ne hu _ _
  | move u =>
    have hu : t ≠ u := fun heq => hmove (heq ▸ rfl)
    cases hx : (s.threads u).pc with
    | live | dead =>
      simp only [State.step, hx] at hs
      cases hs
      exact Function.update_of_ne hu _ _
    | _ =>
      simp only [State.step, hx] at hs
      obtain ⟨r, -, rfl⟩ := Option.map_eq_some_iff.1 hs
      exact Function.update_of_ne hu _ _
  | write slot word =>
    simp only [State.step] at hs
    split_ifs at hs
    cases hs
    rfl

omit [DecidableEq ι] [Fintype ι] in
/-- The only move to the second check of `Alloc` with an empty cache. -/
theorem lock_of_move {m m' : Shared} {x x' : Local} (hstep : x.move m = some (m', x'))
    (hpc : x'.pc = .take) (hhead : x'.cache.head = none) :
    x.pc = .lock ∧ x.cache.head = none ∧ m.sharedHead = none := by
  cases hx : x.pc with
  | idle | live | dead => simp only [Local.move, hx, reduceCtorEq] at hstep
  | alloc =>
    simp only [Local.move, hx] at hstep
    split_ifs at hstep with hnone
    · cases hstep
      cases hpc
    · cases hstep
      exact absurd hhead hnone
  | lock =>
    simp only [Local.move, hx, Shared.detach] at hstep
    cases hm : m.sharedHead with
    | none =>
      simp only [hm] at hstep
      cases hstep
      exact ⟨rfl, hhead, rfl⟩
    | some batchHead =>
      simp only [hm] at hstep
      cases hstep
      cases hpc
  | attach batchHead batchTail moved =>
    cases batchTail with
    | none => simp only [Local.move, hx, reduceCtorEq] at hstep
    | some batchTail =>
      simp only [Local.move, hx] at hstep
      cases hstep
      cases hhead
  | take =>
    simp only [Local.move, hx] at hstep
    split at hstep <;> cases hstep <;> cases hpc
  | free slot =>
    simp only [Local.move, hx] at hstep
    cases hstep
    cases hpc
  | check =>
    simp only [Local.move, hx] at hstep
    split_ifs at hstep
    · cases hstep
      cases hpc
    · obtain ⟨r, -, heq⟩ := Option.map_eq_some_iff.1 hstep
      cases heq
      cases hpc
    · cases hstep
      cases hpc
  | splice batchHead batchTail =>
    simp only [Local.move, hx] at hstep
    cases hstep
    cases hpc

omit [Fintype ι] in
/-- A thread that is about to return `nullptr` found the shared list empty. -/
theorem refillFoundNone {as : List (Act ι)}
    (hrun : Lts.run State.step (TaskAllocator.init ι slots) as = some s)
    (hpc : (s.threads t).pc = .take) (hhead : (s.threads t).cache.head = none) :
    RefillFoundNone slots as t := by
  have key := Lts.run_history
    (I := fun as s => Lts.run State.step (TaskAllocator.init ι slots) as = some s ∧
      ((s.threads t).pc = .take → (s.threads t).cache.head = none → RefillFoundNone slots as t))
    (fun {as s a s'} h hs => ?_) ⟨rfl, fun hpc => by cases hpc⟩ hrun
  · exact key.2 hpc hhead
  · obtain ⟨hrun, hfound⟩ := h
    refine ⟨by rw [Lts.run_append, hrun]; simp [Lts.run_cons, hs], fun hpc hhead => ?_⟩
    by_cases hmove : a = .move t
    · subst hmove
      have hlock : (s.threads t).pc = .lock ∧ (s.threads t).cache.head = none ∧
          s.mem.sharedHead = none := by
        cases hx : (s.threads t).pc with
        | live | dead =>
          simp only [State.step, hx] at hs
          cases hs
          simp only [State.setPc, Function.update_self] at hpc
          cases hpc
        | _ =>
          simp only [State.step, hx] at hs
          obtain ⟨r, hr, rfl⟩ := Option.map_eq_some_iff.1 hs
          simp only [Function.update_self] at hpc hhead
          have := lock_of_move hr hpc hhead
          rwa [hx] at this
      exact ⟨as, [], s, rfl, List.not_mem_nil, hrun, hlock⟩
    · have hsame := threads_of_ne hs hmove hpc
      rw [hsame] at hpc hhead
      obtain ⟨bs, cs, s₀, rfl, hcs, hlock⟩ := hfound hpc hhead
      refine ⟨bs, cs ++ [a], s₀, by simp, ?_, hlock⟩
      simp only [List.mem_append, List.mem_singleton, not_or]
      exact ⟨hcs, fun heq => hmove heq.symm⟩

/-- In every run each slot is in one place, and `Alloc` returns `nullptr` only after it found its
cache and the shared list empty. -/
theorem slab_conserves {as : List (Act ι)}
    (hrun : Lts.run State.step (TaskAllocator.init ι slots) as = some s) :
    (∃ L, Conserved slots s L) ∧
      ∀ t, (s.threads t).pc = .take → (s.threads t).cache.head = none →
        RefillFoundNone slots as t := by
  obtain ⟨L, h⟩ := Inv.run hrun
  exact ⟨⟨L, h.conserved⟩, fun t => refillFoundNone hrun⟩

end

/-- The second of two threads frees the slot that the first one was given. -/
theorem slab_conserves_freed : ∃ s : State (Fin 2),
    Lts.run State.step (init (Fin 2) 2) [.alloc 0, .move 0, .move 0, .move 0, .move 0, .move 0,
      .write 1 (some 7), .free 1 1, .move 1] = some s ∧ s.owned = [] ∧
    ((∃ L, Conserved 2 s L) ∧ ∀ t, (s.threads t).pc = .take → (s.threads t).cache.head = none →
      RefillFoundNone 2 [.alloc 0, .move 0, .move 0, .move 0, .move 0, .move 0,
        .write 1 (some 7), .free 1 1, .move 1] t) :=
  ⟨_, (Option.some_get (x := Lts.run _ _ _) (by decide)).symm, by decide,
    slab_conserves (Option.some_get (x := Lts.run _ _ _) (by decide)).symm⟩

end JLibScheduler.TaskAllocator
