import JLibScheduler.LockFreeList.Set

/-!
# A traversal beside insertions and removals

`for_each` walks from node to node while other threads insert and remove, and it may step onto nodes
that are no longer in the list. The machine of `LockFreeList.Basic` goes on beside one `for_each`
here. The argument is the one of `contains`: whatever node the walk stands at was in the list at
some moment of the walk as it is now, so the walk goes past no node that is in the list all the
time.
-/

namespace JLibScheduler.LockFreeList

open Heap

/-- Where `for_each` stands. -/
inductive EachPc where
  /-- before the load of the head's pointer -/
  | start
  /-- at the test of the loop and before `getMark` -/
  | mark (curr : ℕ)
  /-- before `getReference` and the call of `func` -/
  | ref (curr : ℕ) (marked : Bool)
  | done
  deriving DecidableEq, Repr

/-- The list with one `for_each`: the nodes for which `func` was called, the last one first, and the
nodes at every moment since the traversal began (history only). -/
structure EachState (ι : Type) where
  list : State ι
  pc : EachPc
  called : List ℕ
  seen : List Heap

/-- A step of the list or of the traversal. -/
inductive EachAct (ι : Type) where
  | list (a : Act ι)
  | each
  deriving DecidableEq, Repr

/-- Where the traversal goes with a pointer: the loop ends at the tail. -/
def EachPc.next (curr : ℕ) : EachPc := if curr = tail then .done else .mark curr

/-- A step of `for_each` (`LockFreeList.h:239-258`): where it stands then, and the node for which
`func` is called. -/
def eachStep (h : Heap) : EachPc → Option (EachPc × Option ℕ)
  | .start => (h.ref head).val.map fun curr => (.next curr, none)
  | .mark curr => some (.ref curr (h.ref curr).marked, none)
  | .ref curr marked =>
    (h.ref curr).val.map fun succ => (.next succ, if marked then none else some curr)
  | .done => none

section
variable {ι : Type}

/-- The traversal begins in a state of the list. -/
def EachState.init (s : State ι) : EachState ι := ⟨s, .start, [], [s.heap]⟩

/-- One step. -/
def EachState.step [DecidableEq ι] (s : EachState ι) : EachAct ι → Option (EachState ι)
  | .list a => (s.list.step a).map fun l => { s with list := l, seen := l.heap :: s.seen }
  | .each =>
    (eachStep s.list.heap s.pc).map fun (pc, n) =>
      { s with pc := pc, called := n.toList ++ s.called, seen := s.list.heap :: s.seen }

/-- The node `n` is an element of the list, not marked, at every moment of the traversal so far. -/
def EachState.Stays (s : EachState ι) (n : ℕ) : Prop :=
  ∀ g ∈ s.seen, n ∈ g.linked ∧ (g.ref n).marked = false

/-- What the traversal has done before it comes to the node `curr`: the node was in the list at some
moment, the elements called so far have smaller keys, and those that stay have greater keys or
were called. -/
structure EachInv.Before (s : EachState ι) (curr : ℕ) : Prop where
  reach : ∃ g ∈ s.seen, g.Reach curr
  key_pos : 0 < s.list.heap.key curr
  called : ∀ n ∈ s.called, s.list.heap.key n < s.list.heap.key curr
  stays : ∀ n, s.Stays n → s.list.heap.key curr ≤ s.list.heap.key n ∨ n ∈ s.called

/-- What the traversal knows where it stands. -/
def EachInv.At (s : EachState ι) : Prop :=
  match s.pc with
  | .start => s.called = []
  | .mark curr => curr ≠ tail ∧ Before s curr
  | .ref curr marked => curr ≠ tail ∧ Before s curr ∧ (marked = true → ¬ s.Stays curr) ∧
      (marked = false → ∃ g ∈ s.seen, curr ∈ g.linked ∧ (g.ref curr).marked = false)
  | .done => ∀ n, s.Stays n → n ∈ s.called

/-- What holds at every moment of a traversal, wherever it stands. -/
structure EachInv (s : EachState ι) : Prop where
  inv : Inv s.list
  tracks : Tracks s.seen s.list.heap
  ordered : (s.called.map s.list.heap.key).Pairwise (· > ·)
  unmarked : ∀ n ∈ s.called, ∃ g ∈ s.seen, n ∈ g.linked ∧ (g.ref n).marked = false

variable [DecidableEq ι]

/-- A step of the list changes the nodes at most once. -/
theorem Inv.step_heap {s s' : State ι} (h : Inv s) {a : Act ι} (hs : s.step a = some s') :
    s'.heap = s.heap ∨ Step s.heap s'.heap := by
  cases a with
  | call i op k =>
    simp only [State.step, Option.ite_none_right_eq_some, Option.some.injEq] at hs
    obtain ⟨-, rfl⟩ := hs
    exact .inl rfl
  | alloc i slot =>
    simp only [State.step] at hs
    split at hs
    case h_2 => cases hs
    case h_1 k pred curr hpc =>
      simp only [Option.ite_none_right_eq_some, Option.some.injEq] at hs
      obtain ⟨hfresh, rfl⟩ := hs
      have hcall := h.calls i
      rw [hpc] at hcall
      obtain ⟨hk, -, -, -, hc, -, hkc⟩ := hcall
      exact .inr (.build hfresh hc hk hkc)
  | spurious i =>
    simp only [State.step] at hs
    split at hs <;> cases hs
    exact .inl rfl
  | ret i =>
    simp only [State.step] at hs
    split at hs <;> cases hs
    exact .inl rfl
  | step i =>
    simp only [State.step, Option.map_eq_some_iff] at hs
    obtain ⟨⟨pc', h'⟩, hlocal, rfl⟩ := hs
    exact (localStep_ok (h.tracks i) (h.calls i) hlocal).1.step

end

section
variable {ι : Type} {s s' : EachState ι} {curr n : ℕ}

/-- A longer traversal has fewer elements that stay. -/
theorem EachState.Stays.of_cons {g : Heap} (hseen : s'.seen = g :: s.seen) (hn : s'.Stays n) :
    s.Stays n :=
  fun g' hg' => hn g' (hseen ▸ .tail _ hg')

/-- An element that stays has a key below the one of the tail. -/
theorem EachInv.key_lt (h : EachInv s) (hn : s.Stays n) :
    n ∈ s.list.heap.linked ∧ s.list.heap.key n < maxKey := by
  have hok := h.inv.ok
  obtain ⟨hl, -⟩ := hn _ h.tracks.mem
  obtain ⟨hmem, -, hne⟩ := hok.linked_sub n hl
  obtain ⟨b, -, hsucc, hlt⟩ := hok.edge n hmem hne
  exact ⟨hl, hlt.trans_le (hok.key_le b (hok.isSucc_mem hsucc))⟩

theorem EachInv.mem_slots (h : EachInv s) (hb : Before s curr) : curr ∈ s.list.heap.slots := by
  obtain ⟨g, hg, hr⟩ := hb.reach
  exact (h.tracks.later g hg).slots curr (h.tracks.mem_slots hg hr)

/-- A node before the tail is an inserted one. -/
theorem EachInv.mem_linked (h : EachInv s) (hb : Before s curr) (hne : curr ≠ tail) :
    curr ∈ s.list.heap.linked := by
  obtain ⟨g, hg, hr⟩ := hb.reach
  rcases (h.tracks.ok g hg).reach_cases hr with (rfl | hl) | heq
  · have hpos := hb.key_pos
    rw [h.inv.ok.key_head] at hpos
    exact absurd hpos (lt_irrefl 0)
  · exact (h.tracks.later g hg).linked curr hl
  · exact absurd heq hne

/-- What the traversal knows of the node it comes to, or at the end. -/
theorem EachInv.at_next (h : EachInv s') (hb : Before s' curr) (hpc : s'.pc = .next curr) :
    EachInv.At s' := by
  by_cases heq : curr = tail
  · rw [EachInv.At, hpc, EachPc.next, if_pos heq]
    intro n hn
    refine (hb.stays n hn).resolve_left fun hle => ?_
    rw [heq, h.inv.ok.key_tail] at hle
    exact not_lt_of_ge hle (h.key_lt hn).2
  · rw [EachInv.At, hpc, EachPc.next, if_neg heq]
    exact ⟨heq, hb⟩

/-- What the traversal has done before a node survives a moment in which `func` is not called. -/
theorem EachInv.Before.frame (h : EachInv s) (hb : Before s curr) {g : Heap}
    (hl : s.list.heap.Later s'.list.heap) (hseen : s'.seen = g :: s.seen)
    (hcalled : s'.called = s.called) : Before s' curr where
  reach := by
    obtain ⟨g', hg', hr⟩ := hb.reach
    exact ⟨g', hseen ▸ .tail _ hg', hr⟩
  key_pos := by
    rw [hl.key curr (h.mem_slots hb)]
    exact hb.key_pos
  called n hn := by
    rw [hcalled] at hn
    obtain ⟨g', hg', hlinked, -⟩ := h.unmarked n hn
    have hmem := (h.tracks.later g' hg').slots n ((h.tracks.ok g' hg').linked_sub n hlinked).1
    rw [hl.key n hmem, hl.key curr (h.mem_slots hb)]
    exact hb.called n hn
  stays n hn := by
    have hn := hn.of_cons hseen
    rw [hcalled, hl.key n (h.inv.ok.linked_sub n (h.key_lt hn).1).1,
      hl.key curr (h.mem_slots hb)]
    exact hb.stays n hn

/-- Where the traversal goes next: it goes past no element that stays. -/
theorem EachInv.Before.next (h : EachInv s) (hb : Before s curr) {succ : ℕ}
    (hsucc : s.list.heap.next curr = some succ) (hlist : s'.list = s.list)
    (hseen : s'.seen = s.list.heap :: s.seen)
    (hcalled : ∀ n, n ∈ s'.called → n = curr ∨ n ∈ s.called)
    (hkept : ∀ n, n ∈ s.called → n ∈ s'.called) (hself : s.Stays curr → curr ∈ s'.called) :
    Before s' succ := by
  have hok := h.inv.ok
  have hlt : s.list.heap.key curr < s.list.heap.key succ :=
    (hok.edge_of (h.mem_slots hb) hsucc).2
  obtain ⟨g, hg, hr⟩ := hb.reach
  obtain ⟨g', hg', hr', hbetween⟩ := h.tracks.next_reach hg hr hsucc
  refine ⟨⟨g', hseen ▸ .tail _ hg', hr'⟩, ?_, fun n hn => ?_, fun n hn => ?_⟩
  · rw [hlist]
    exact hb.key_pos.trans hlt
  · rw [hlist]
    rcases hcalled n hn with rfl | hn
    · exact hlt
    · exact (hb.called n hn).trans hlt
  · have hn := hn.of_cons hseen
    rw [hlist]
    rcases hb.stays n hn with hle | hmem
    · rcases hle.eq_or_lt with heq | hcn
      · -- the walk stands at the element itself
        obtain ⟨hl, hm⟩ := hn g hg
        have hreach : g.Reach n := (h.tracks.ok g hg).reach n (.inr hl) hm
        have hkey : g.key curr = g.key n := by
          rw [← (h.tracks.later g hg).key curr (h.tracks.mem_slots hg hr),
            ← (h.tracks.later g hg).key n (h.tracks.mem_slots hg hreach)]
          exact heq
        obtain rfl := (h.tracks.ok g hg).key_inj hr hreach hkey
        exact .inr (hself hn)
      · refine .inl (le_of_not_gt fun hns => ?_)
        obtain ⟨hl, hm⟩ := hn g' hg'
        have hreach : g'.Reach n := (h.tracks.ok g' hg').reach n (.inr hl) hm
        exact hbetween _ hcn hns ⟨n, hl, hreach, hm,
          ((h.tracks.later g' hg').key n (h.tracks.mem_slots hg' hreach)).symm⟩
    · exact .inr (hkept n hmem)

end

section
variable {ι : Type} [DecidableEq ι] {s s' : EachState ι}

omit [DecidableEq ι] in
theorem EachInv.init {l : State ι} (hl : Inv l) : EachInv (.init l) ∧ EachInv.At (.init l) :=
  ⟨⟨hl, .start hl.ok, .nil, fun n hn => by cases hn⟩, rfl⟩

/-- A step of the list keeps what the traversal knows. -/
theorem EachInv.list (h : EachInv s) (hat : EachInv.At s) {a : Act ι} {l : State ι}
    (hs : s.list.step a = some l) : EachInv { s with list := l, seen := l.heap :: s.seen } ∧
      EachInv.At { s with list := l, seen := l.heap :: s.seen } := by
  have hmoves := h.inv.step_heap hs
  have hl : s.list.heap.Later l.heap := by
    rcases hmoves with heq | hstep
    · exact heq ▸ .refl _
    · exact hstep.later
  have htracks : Tracks (l.heap :: s.seen) l.heap := by
    rcases hmoves with heq | hstep
    · exact heq ▸ h.tracks.stay
    · exact h.tracks.step hstep
  have hkeys : s.called.map l.heap.key = s.called.map s.list.heap.key := by
    refine List.map_congr_left fun n hn => ?_
    obtain ⟨g, hg, hlinked, -⟩ := h.unmarked n hn
    exact hl.key n ((h.tracks.later g hg).slots n ((h.tracks.ok g hg).linked_sub n hlinked).1)
  have hunmarked : ∀ n ∈ s.called, ∃ g ∈ l.heap :: s.seen, n ∈ g.linked ∧
      (g.ref n).marked = false := by
    intro n hn
    obtain ⟨g, hg, hrest⟩ := h.unmarked n hn
    exact ⟨g, .tail _ hg, hrest⟩
  refine ⟨⟨h.inv.step hs, htracks, hkeys ▸ h.ordered, hunmarked⟩, ?_⟩
  revert hat
  simp only [EachInv.At]
  cases hpc : s.pc with
  | start => exact id
  | mark curr =>
    rintro ⟨hne, hb⟩
    exact ⟨hne, hb.frame h hl rfl rfl⟩
  | ref curr marked =>
    rintro ⟨hne, hb, hm, hum⟩
    refine ⟨hne, hb.frame h hl rfl rfl, fun hmark hn => hm hmark (hn.of_cons rfl), fun hmark => ?_⟩
    obtain ⟨g, hg, hrest⟩ := hum hmark
    exact ⟨g, .tail _ hg, hrest⟩
  | done => exact fun hall n hn => hall n (hn.of_cons rfl)

omit [DecidableEq ι] in
/-- A step of the traversal that calls nothing keeps what holds of its calls. -/
theorem EachInv.stay (h : EachInv s) (pc : EachPc) :
    EachInv { s with pc := pc, seen := s.list.heap :: s.seen } where
  inv := h.inv
  tracks := h.tracks.stay
  ordered := h.ordered
  unmarked n hn := by
    obtain ⟨g, hg, hrest⟩ := h.unmarked n hn
    exact ⟨g, .tail _ hg, hrest⟩

omit [DecidableEq ι] in
/-- A step of the traversal keeps what it knows. -/
theorem EachInv.each (h : EachInv s) (hat : EachInv.At s) {pc : EachPc} {n : Option ℕ}
    (hs : eachStep s.list.heap s.pc = some (pc, n)) :
    EachInv { s with pc := pc, called := n.toList ++ s.called, seen := s.list.heap :: s.seen } ∧
    EachInv.At
      { s with pc := pc, called := n.toList ++ s.called, seen := s.list.heap :: s.seen } := by
  have hok := h.inv.ok
  rw [EachInv.At] at hat
  cases hpc : s.pc with
  | done => rw [hpc] at hs; cases hs
  | start =>
    rw [hpc] at hs hat
    obtain ⟨curr, hcurr, heq⟩ := Option.map_eq_some_iff.1 hs
    cases heq
    have hstay := h.stay (.next curr)
    have hlt : s.list.heap.key head < s.list.heap.key curr := (hok.edge_of hok.head_mem hcurr).2
    refine ⟨hstay, hstay.at_next ⟨⟨_, .head _, .single hcurr⟩, ?_, fun m hm => ?_,
      fun m hm => ?_⟩ rfl⟩
    · exact (Nat.zero_le _).trans_lt hlt
    · rw [hat] at hm
      cases hm
    · obtain ⟨hl, hmark⟩ := hm _ (.head _)
      have hreach := hok.reach m (.inr hl) hmark
      refine .inl ((hok.ascends hok.head_mem).succ_le .refl hcurr hreach ?_)
      rw [hok.key_head]
      exact hok.key_pos m (hok.linked_sub m hl).1 (hok.linked_sub m hl).2.1
  | mark curr =>
    rw [hpc] at hs hat
    obtain ⟨hne, hb⟩ := hat
    cases hs
    refine ⟨h.stay _, hne, hb.frame h (.refl _) rfl rfl, fun hm hstays => ?_, fun hm => ?_⟩
    · obtain ⟨-, hum⟩ := hstays _ (.head _)
      rw [hm] at hum
      cases hum
    · exact ⟨s.list.heap, .head _, h.mem_linked hb hne, hm⟩
  | ref curr marked =>
    rw [hpc] at hs hat
    obtain ⟨hne, hb, hm, hum⟩ := hat
    obtain ⟨succ, hsucc, heq⟩ := Option.map_eq_some_iff.1 hs
    cases heq
    cases marked with
    | true =>
      have hstay := h.stay (.next succ)
      refine ⟨hstay, hstay.at_next (hb.next h hsucc rfl rfl (fun m hm => .inr hm) (fun m hm => hm)
        fun hn => absurd hn (hm rfl)) rfl⟩
    | false =>
      have hcalled : EachInv { s with
          pc := .next succ, called := curr :: s.called, seen := s.list.heap :: s.seen } := by
        refine ⟨h.inv, h.tracks.stay, ?_, fun m hm => ?_⟩
        · refine List.pairwise_cons.2 ⟨fun k hk => ?_, h.ordered⟩
          obtain ⟨m, hm, rfl⟩ := List.mem_map.1 hk
          exact hb.called m hm
        · rcases List.mem_cons.1 hm with rfl | hm
          · obtain ⟨g, hg, hrest⟩ := hum rfl
            exact ⟨g, .tail _ hg, hrest⟩
          · obtain ⟨g, hg, hrest⟩ := h.unmarked m hm
            exact ⟨g, .tail _ hg, hrest⟩
      refine ⟨hcalled, hcalled.at_next (hb.next h hsucc rfl rfl (fun m hm => List.mem_cons.1 hm)
        (fun m hm => .tail _ hm) fun _ => .head _) rfl⟩

theorem EachInv.step (h : EachInv s ∧ EachInv.At s) {a : EachAct ι} (hs : s.step a = some s') :
    EachInv s' ∧ EachInv.At s' := by
  cases a with
  | list a =>
    obtain ⟨l, hl, rfl⟩ := Option.map_eq_some_iff.1 hs
    exact h.1.list h.2 hl
  | each =>
    obtain ⟨⟨pc, n⟩, hn, rfl⟩ := Option.map_eq_some_iff.1 hs
    exact h.1.each h.2 hn

/-- For every traversal that begins in a state which some interleaving of calls has left and goes on
beside any calls of `add`, `remove` and `contains`: `func` is called with increasing keys, so at
most once for each, and only on elements that were not marked at some moment of the traversal; and
when the traversal is done, it was called on every element that was in the list, not marked, all the
time. -/
theorem forEach_complete {as : List (Act ι)} {l : State ι}
    (hlist : Lts.run State.step .init as = some l) {bs : List (EachAct ι)}
    (hrun : Lts.run EachState.step (.init l) bs = some s) :
    (s.called.map s.list.heap.key).Pairwise (· > ·) ∧
    (∀ n ∈ s.called, ∃ g ∈ s.seen, n ∈ g.linked ∧ (g.ref n).marked = false) ∧
    (s.pc = .done → ∀ n, s.Stays n → n ∈ s.called) := by
  have hl : Inv l := Lts.run_inv (fun h hs => h.step hs) .init hlist
  have h : EachInv s ∧ EachInv.At s :=
    Lts.run_inv (I := fun s => EachInv s ∧ EachInv.At s) (fun h hs => EachInv.step h hs)
      (EachInv.init hl) hrun
  refine ⟨h.1.ordered, h.1.unmarked, fun hpc => ?_⟩
  have hat := h.2
  rw [EachInv.At, hpc] at hat
  exact hat

end

/-- Thread 0 adds 5 and then 7. -/
def twoAdds {ι : Type} (i : ι) : List (Act ι) :=
  [.call i .add 5, .step i, .step i, .alloc i 2, .step i, .ret i,
    .call i .add 7, .step i, .step i, .step i, .alloc i 3, .step i, .ret i]

/-- The traversal stands at the node of 5 while thread 0 removes it, and goes on from there. -/
def removedUnderTraversal {ι : Type} (i : ι) : List (EachAct ι) :=
  [.each, .each, .list (.call i .remove 5), .list (.step i), .list (.step i), .list (.step i),
    .list (.step i), .list (.step i), .list (.step i), .each, .each, .each]

/-- Both elements are called: 5 was not marked when its mark was read. -/
theorem forEach_complete_removed : ∃ (l : State (Fin 1)) (s : EachState (Fin 1)),
    Lts.run State.step .init (twoAdds 0) = some l ∧
    Lts.run EachState.step (.init l) (removedUnderTraversal 0) = some s ∧ s.called = [3, 2] ∧
    ∀ n, s.Stays n → n ∈ s.called := by
  obtain ⟨l, hlist, s, hrun, hcalled, hpc⟩ : ∃ l : State (Fin 1),
      Lts.run State.step .init (twoAdds 0) = some l ∧ ∃ s : EachState (Fin 1),
      Lts.run EachState.step (.init l) (removedUnderTraversal 0) = some s ∧ s.called = [3, 2] ∧
      s.pc = .done :=
    ⟨_, (Option.some_get (x := Lts.run State.step .init (twoAdds 0)) (by decide)).symm, _,
      (Option.some_get (by decide)).symm, by decide, by decide⟩
  exact ⟨l, s, hlist, hrun, hcalled, (forEach_complete hlist hrun).2.2 hpc⟩

end JLibScheduler.LockFreeList
