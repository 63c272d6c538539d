import JLibScheduler.LockFreeList.Set

/-!
# The slots of insertions

`add` takes a slot in every round of its loop and links it with one compare-exchange. When that
fails it goes round again and takes another slot; nobody has the address of the first one then, and
`Free` is not called. So the slots handed out are the sentinels, the inserted nodes and the nodes
that running calls are about to link, exactly as long as no call loses its compare-exchange.
-/

namespace JLibScheduler.LockFreeList

open Heap

/-- The compare-exchange by which `add` is about to link its node succeeds. -/
def Pc.Wins (h : Heap) : Pc → Prop
  | .link _ pred curr _ => h.ref pred = ⟨some curr, false⟩
  | _ => True

section
variable {ι : Type}

/-- The step is no compare-exchange of `add` that fails. -/
def State.Wins (s : State ι) : Act ι → Prop
  | .step i => (s.pc i).Wins s.heap
  | _ => True

/-- Every slot handed out is a sentinel, an inserted node, or the node that a running call is about
to link. -/
def State.SlotsKept (s : State ι) : Prop :=
  ∀ a, a ∈ s.heap.slots ↔
    a = head ∨ a = tail ∨ a ∈ s.heap.linked ∨ ∃ i, (s.pc i).node = some a

end

section
variable {h h' : Heap} {pc pc' : Pc}

/-- A step of `Window::find` takes no slot and links no node. -/
theorem findStep_linked {k : ℕ} {pc pc' : FindPc} (hs : findStep h k pc = some (.go h' pc')) :
    h'.slots = h.slots ∧ h'.linked = h.linked := by
  cases pc with
  | start =>
    obtain ⟨c, -, heq⟩ := Option.map_eq_some_iff.1 hs
    cases heq
    exact ⟨rfl, rfl⟩
  | read pred curr =>
    simp only [findStep] at hs
    split at hs
    · cases hs
      exact ⟨rfl, rfl⟩
    · split at hs
      · cases hs
      · obtain ⟨c, -, heq⟩ := Option.map_eq_some_iff.1 hs
        cases heq
        exact ⟨rfl, rfl⟩
  | snip pred curr succ =>
    simp only [findStep] at hs
    split at hs
    case h_1 h₁ hcas =>
      obtain ⟨-, rfl⟩ := compareAndSet_eq_some.1 hcas
      obtain ⟨c, -, heq⟩ := Option.map_eq_some_iff.1 hs
      cases heq
      exact ⟨rfl, rfl⟩
    case h_2 =>
      cases hs
      exact ⟨rfl, rfl⟩

theorem found_node (h : Heap) (adding : Bool) (k pred curr : ℕ) :
    (found h adding k pred curr).node = none := by
  unfold found
  split <;> split <;> rfl

theorem attemptMarkTest_node (k pred curr : ℕ) (succ : Option ℕ) (r : Ref) :
    (attemptMarkTest k pred curr succ r).node = none := by
  unfold attemptMarkTest
  split
  · rfl
  · split <;> rfl

/-- A step of a call takes no slot and forgets the node it had; if the compare-exchange of `add`
succeeds, the node is inserted. -/
theorem localStep_linked (hstep : localStep h pc = some (pc', h')) :
    h'.slots = h.slots ∧ pc'.node = none ∧
      (pc.Wins h ∧ h'.linked = pc.node.toList ++ h.linked ∨
        ¬ pc.Wins h ∧ h'.linked = h.linked) := by
  cases pc with
  | idle | alloc | done => cases hstep
  | find adding k pc =>
    obtain ⟨res, hres, heq⟩ := Option.map_eq_some_iff.1 hstep
    cases res with
    | go h₁ pc₁ =>
      cases heq
      obtain ⟨hslots, hlinked⟩ := findStep_linked hres
      exact ⟨hslots, rfl, .inl ⟨trivial, hlinked⟩⟩
    | window pred curr =>
      cases heq
      exact ⟨rfl, found_node .., .inl ⟨trivial, rfl⟩⟩
  | link k pred curr node =>
    simp only [localStep] at hstep
    split at hstep
    case h_1 h₁ hcas =>
      obtain ⟨href, rfl⟩ := compareAndSet_eq_some.1 hcas
      cases hstep
      exact ⟨rfl, rfl, .inl ⟨href, rfl⟩⟩
    case h_2 hcas =>
      cases hstep
      refine ⟨rfl, rfl, .inr ⟨fun href => ?_, rfl⟩⟩
      rw [compareAndSet_eq_some.2 ⟨href, rfl⟩] at hcas
      cases hcas
  | attemptMark k pred curr succ =>
    cases hstep
    exact ⟨rfl, attemptMarkTest_node .., .inl ⟨trivial, rfl⟩⟩
  | markCas k pred curr succ =>
    simp only [localStep] at hstep
    split at hstep
    case h_1 h₁ hcas =>
      obtain ⟨-, rfl⟩ := compareAndSet_eq_some.1 hcas
      cases hstep
      exact ⟨rfl, rfl, .inl ⟨trivial, rfl⟩⟩
    case h_2 =>
      cases hstep
      exact ⟨rfl, attemptMarkTest_node .., .inl ⟨trivial, rfl⟩⟩
  | unlink k pred curr succ =>
    simp only [localStep] at hstep
    split at hstep
    case h_1 h₁ hcas =>
      obtain ⟨-, rfl⟩ := compareAndSet_eq_some.1 hcas
      cases hstep
      exact ⟨rfl, rfl, .inl ⟨trivial, rfl⟩⟩
    case h_2 =>
      cases hstep
      exact ⟨rfl, rfl, .inl ⟨trivial, rfl⟩⟩
  | readSucc k pred curr | retire k curr | walk k curr =>
    cases hstep
    exact ⟨rfl, rfl, .inl ⟨trivial, rfl⟩⟩
  | walkMark k curr succ =>
    simp only [localStep] at hstep
    split at hstep
    · cases hstep
      exact ⟨rfl, rfl, .inl ⟨trivial, rfl⟩⟩
    · split at hstep <;> cases hstep <;> exact ⟨rfl, rfl, .inl ⟨trivial, rfl⟩⟩

end

section
variable {ι : Type} [DecidableEq ι] {s s' : State ι}

/-- The nodes of the calls after thread `i` went on. -/
theorem exists_node_update {pc : ι → Pc} {i : ι} {pc' : Pc} {a : ℕ} :
    (∃ j, (Function.update pc i pc' j).node = some a) ↔
      pc'.node = some a ∨ ∃ j, j ≠ i ∧ (pc j).node = some a := by
  constructor
  · rintro ⟨j, hj⟩
    by_cases hji : j = i
    · subst hji
      rw [Function.update_self] at hj
      exact .inl hj
    · rw [Function.update_of_ne hji] at hj
      exact .inr ⟨j, hji, hj⟩
  · rintro (h | ⟨j, hji, hj⟩)
    · exact ⟨i, by rwa [Function.update_self]⟩
    · exact ⟨j, by rwa [Function.update_of_ne hji]⟩

theorem exists_node_split {pc : ι → Pc} (i : ι) {a : ℕ} :
    (∃ j, (pc j).node = some a) ↔ (pc i).node = some a ∨ ∃ j, j ≠ i ∧ (pc j).node = some a := by
  rw [← exists_node_update, Function.update_eq_self]

/-- A step of a call that has built no node and takes no slot does not matter. -/
theorem slotsKept_update {i : ι} {pc' : Pc} (hpc : s'.pc = Function.update s.pc i pc')
    (hheap : s'.heap = s.heap) (hold : (s.pc i).node = none) (hnew : pc'.node = none) :
    s'.SlotsKept ↔ s.SlotsKept := by
  refine forall_congr' fun b => ?_
  rw [hheap, hpc, exists_node_update, exists_node_split i, hold, hnew]

/-- A step keeps the slots in sight exactly when it is no lost compare-exchange of `add`. -/
theorem Inv.slotsKept_step (h : Inv s) {a : Act ι} (hs : s.step a = some s') :
    s'.SlotsKept ↔ s.SlotsKept ∧ s.Wins a := by
  cases a with
  | call i op k =>
    simp only [State.step, Option.ite_none_right_eq_some, Option.some.injEq] at hs
    obtain ⟨⟨hidle, -⟩, rfl⟩ := hs
    have hwin : s.Wins (.call i op k) := trivial
    refine Iff.trans (slotsKept_update (s := s) (i := i) rfl rfl ?_ ?_)
      (and_iff_left hwin).symm
    · rw [hidle]; rfl
    · cases op <;> rfl
  | spurious i =>
    simp only [State.step] at hs
    split at hs <;> cases hs
    exact (and_iff_left trivial).symm
  | ret i =>
    simp only [State.step] at hs
    split at hs
    case h_2 => cases hs
    case h_1 hpc =>
      cases hs
      have hwin : s.Wins (.ret i) := trivial
      refine Iff.trans (slotsKept_update (s := s) (i := i) rfl rfl ?_ rfl)
        (and_iff_left hwin).symm
      rw [hpc]; rfl
  | alloc i slot =>
    simp only [State.step] at hs
    split at hs
    case h_2 => cases hs
    case h_1 k pred curr hpc =>
      simp only [Option.ite_none_right_eq_some, Option.some.injEq] at hs
      obtain ⟨hfresh, rfl⟩ := hs
      refine (forall_congr' fun b => ?_).trans (and_iff_left trivial).symm
      have hold : (s.pc i).node = none := by rw [hpc]; rfl
      -- the new slot is none of the old ones
      have hslot : b = slot → ¬ (b = head ∨ b = tail ∨ b ∈ s.heap.linked ∨
          ∃ j, (s.pc j).node = some b) := by
        rintro rfl (rfl | rfl | hl | ⟨j, hj⟩)
        · exact hfresh h.ok.head_mem
        · exact hfresh h.ok.tail_mem
        · exact hfresh (h.ok.linked_sub _ hl).1
        · exact hfresh (h.node hj).1
      have hnew : (∃ j, (Function.update s.pc i (.link k pred curr slot) j).node = some b) ↔
          b = slot ∨ ∃ j, (s.pc j).node = some b := by
        rw [exists_node_update, exists_node_split i, hold]
        simp [Pc.node, eq_comm]
      change (b ∈ slot :: s.heap.slots ↔ b = head ∨ b = tail ∨ b ∈ s.heap.linked ∨
        ∃ j, (Function.update s.pc i (.link k pred curr slot) j).node = some b) ↔ _
      rw [hnew, List.mem_cons]
      by_cases hb : b = slot
      · have hfresh' : b ∉ s.heap.slots := hb ▸ hfresh
        have hnone := hslot hb
        refine iff_of_true (by simp [hb]) ⟨fun hmem => absurd hmem hfresh', fun hmem => ?_⟩
        exact absurd hmem hnone
      · simp only [hb, false_or]
  | step i =>
    simp only [State.step, Option.map_eq_some_iff] at hs
    obtain ⟨⟨pc', h'⟩, hlocal, rfl⟩ := hs
    obtain ⟨hslots, hnone, hcases⟩ := localStep_linked hlocal
    rcases hcases with ⟨hwin, hlinked⟩ | ⟨hlost, hlinked⟩
    · refine (forall_congr' fun b => ?_).trans (and_iff_left hwin).symm
      change (b ∈ h'.slots ↔ b = head ∨ b = tail ∨ b ∈ h'.linked ∨
        ∃ j, (Function.update s.pc i pc' j).node = some b) ↔ _
      rw [hslots, hlinked, exists_node_update, exists_node_split i, hnone]
      simp only [List.mem_append, Option.mem_toList, reduceCtorEq, false_or]
      rw [or_assoc, or_left_comm (a := (s.pc i).node = some b)]
    · refine iff_of_false (fun hkept => ?_) fun hkept => hlost hkept.2
      obtain ⟨n, hn⟩ : ∃ n, (s.pc i).node = some n := by
        cases hpc : s.pc i with
        | link k pred curr node => exact ⟨node, rfl⟩
        | _ => rw [hpc] at hlost; exact absurd trivial hlost
      obtain ⟨hmem, hnot, htail⟩ := h.node hn
      have hsight := (hkept n).1 (hslots ▸ hmem)
      rcases hsight with heq | heq | hl | hother
      · exact hnot (.inl heq)
      · exact htail heq
      · exact hnot (.inr (hlinked ▸ hl))
      · rcases exists_node_update.1 hother with hself | ⟨j, hji, hj⟩
        · rw [hnone] at hself
          cases hself
        · exact hji (h.own j i n hj hn)

/-- For every interleaving of calls by any number of threads, the slots handed out are the two
sentinels, the inserted nodes and the nodes that running calls are about to link, exactly when no
compare-exchange of an `add` has failed. -/
theorem slotsKept_iff {as : List (Act ι)} (hrun : Lts.run State.step .init as = some s) :
    s.SlotsKept ↔ ∀ p ∈ Lts.visits State.step (.init : State ι) as, State.Wins p.1 p.2 := by
  have hinit : (.init : State ι).SlotsKept := by
    intro a
    have hnone : ¬ ∃ i : ι, ((State.init : State ι).pc i).node = some a := by
      rintro ⟨i, hi⟩
      cases hi
    simp only [hnone, or_false]
    simp [State.init, Heap.init, or_comm]
  rw [Lts.run_iff (P := State.SlotsKept) (G := State.Wins) (fun h hs => Inv.step h hs)
    (fun h hs => h.slotsKept_step hs) .init hrun]
  exact and_iff_right hinit

end

/-- Two threads insert 5 and 7 between the sentinels at once: both have a node built, and the second
compare-exchange fails. -/
def lostSlotRun {ι : Type} (i j : ι) : List (Act ι) :=
  [.call i .add 5, .step i, .step i, .alloc i 2, .call j .add 7, .step j, .step j, .alloc j 3,
    .step i, .ret i, .step j, .step j, .step j, .step j, .alloc j 4, .step j, .ret j]

/-- Both calls have returned true, and slot 3 is neither in the list nor given back. -/
theorem not_slotsKept_lostSlot : ¬ ∀ (as : List (Act (Fin 2))) (s : State (Fin 2)),
    Lts.run State.step .init as = some s → (∀ i, s.pc i = .idle) → s.SlotsKept := by
  intro h
  have hkept := h (lostSlotRun 0 1) _ (Option.some_get (by decide)).symm (by decide)
  have hmem := (hkept 3).1 (by decide)
  revert hmem
  decide

/-- One insertion after the other: every slot is in sight. -/
theorem slotsKept_iff_oneByOne : ∃ s : State (Fin 2),
    Lts.run State.step .init ((lostSlotRun 0 1).take 4 ++ [.step 0, .ret 0]) = some s ∧
    s.heap.slots = [2, tail, head] ∧
    ∀ p ∈ Lts.visits State.step (.init : State (Fin 2))
        ((lostSlotRun 0 1).take 4 ++ [.step 0, .ret 0]),
      State.Wins p.1 p.2 := by
  obtain ⟨s, hrun, hslots, hlinked, hnode⟩ : ∃ s : State (Fin 2),
      Lts.run State.step .init ((lostSlotRun 0 1).take 4 ++ [.step 0, .ret 0]) = some s ∧
      s.heap.slots = [2, tail, head] ∧ s.heap.linked = [2] ∧ ∀ i, (s.pc i).node = none :=
    ⟨_, (Option.some_get (by decide)).symm, by decide, by decide, by decide⟩
  refine ⟨s, hrun, hslots, (slotsKept_iff hrun).1 fun a => ?_⟩
  simp only [hslots, hlinked, hnode, List.mem_cons, List.not_mem_nil, or_false, reduceCtorEq,
    exists_false]
  rw [or_comm, or_comm (a := a = tail), or_assoc]

end JLibScheduler.LockFreeList
