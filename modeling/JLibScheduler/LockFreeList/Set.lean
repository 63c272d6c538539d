import JLibScheduler.LockFreeList.Calls

/-!
# The list is a sorted set

`Inv` puts together the nodes and what every call knows; all steps keep it. So `add` and `contains`
answer as a set of keys that changes in one moment would (`lockFreeList_set`): `add` returns true
exactly when its compare-exchange put an absent key into the set, and every other answer is the one
that the set gave at some moment of the call.
-/

namespace JLibScheduler.LockFreeList

open Heap

section
variable {ι : Type}

/-- What holds in every state that some interleaving reaches. -/
structure Inv (s : State ι) : Prop where
  ok : s.heap.Ok
  tracks : ∀ i, Tracks (s.seen i) s.heap
  calls : ∀ i, PcOk s.heap (s.seen i) (s.inserted i) (s.pc i)
  /-- no two calls have built the same node -/
  own : ∀ i j n, (s.pc i).node = some n → (s.pc j).node = some n → i = j

theorem Inv.init : Inv (.init : State ι) where
  ok := .init
  tracks _ := .start .init
  calls _ := trivial
  own _ _ _ h := by cases h

variable {s s' : State ι}

/-- A node that a call has built is in a slot and not in the list. -/
theorem Inv.node (h : Inv s) {i : ι} {n : ℕ} (hn : (s.pc i).node = some n) :
    n ∈ s.heap.slots ∧ ¬ s.heap.IsPred n ∧ n ≠ tail := by
  have hcall := h.calls i
  cases hpc : s.pc i with
  | link k pred curr node =>
    rw [hpc] at hn hcall
    obtain rfl := Option.some.inj hn
    obtain ⟨-, -, -, -, -, -, -, hmem, hnot, hne, -⟩ := hcall
    exact ⟨hmem, hnot, hne⟩
  | _ => rw [hpc] at hn; cases hn

variable [DecidableEq ι]

/-- What different calls have is different after a call has gone on. -/
theorem own_update {f : Pc → Option ℕ} {pc : ι → Pc} {i : ι} {pc' : Pc}
    (hown : ∀ j j' n, f (pc j) = some n → f (pc j') = some n → j = j')
    (hnew : ∀ n, f pc' = some n → ∀ j, j ≠ i → f (pc j) ≠ some n) (j j' : ι) (n : ℕ)
    (hjn : f (Function.update pc i pc' j) = some n)
    (hjn' : f (Function.update pc i pc' j') = some n) : j = j' := by
  by_cases hj : j = i <;> by_cases hj' : j' = i
  · rw [hj, hj']
  · subst hj
    rw [Function.update_self] at hjn
    rw [Function.update_of_ne hj'] at hjn'
    exact absurd hjn' (hnew n hjn j' hj')
  · subst hj'
    rw [Function.update_of_ne hj] at hjn
    rw [Function.update_self] at hjn'
    exact absurd hjn (hnew n hjn' j hj)
  · rw [Function.update_of_ne hj] at hjn
    rw [Function.update_of_ne hj'] at hjn'
    exact hown j j' n hjn hjn'

/-- The rule for a step of thread `i` that leaves alone what the other calls have built. -/
theorem Inv.go (h : Inv s) {i : ι} {pc' : Pc} {h' : Heap} {ins : ι → Option (Heap × Heap)}
    {ret : List (ι × ℕ × Heap)} (ht : ∀ j, Tracks (h' :: s.seen j) h') (hl : s.heap.Later h')
    (hself : PcOk h' (h' :: s.seen i) (ins i) pc') (hins : ∀ j, j ≠ i → ins j = s.inserted j)
    (hnode : ∀ n, pc'.node = some n → (s.pc i).node = some n ∨ n ∉ s.heap.slots)
    (hleft : ∀ j n, j ≠ i → (s.pc j).node = some n → Untouched s.heap h' n) :
    Inv { s.go i pc' h' with inserted := ins, retired := ret } where
  ok := (ht i).ok h' (ht i).mem
  tracks := ht
  calls := by
    intro j
    by_cases hj : j = i
    · subst hj
      simpa [State.go] using hself
    · simp only [State.go, Function.update_of_ne hj, hins j hj]
      exact (h.calls j).frame (h.tracks j) hl (hleft j · hj)
  own := by
    refine own_update h.own fun n hn j hj hjn => ?_
    rcases hnode n hn with hi | hfresh
    · exact hj (h.own j i n hjn hi)
    · exact hfresh (h.node hjn).1

/-- Every step keeps the invariant. -/
theorem Inv.step (h : Inv s) {a : Act ι} (hs : s.step a = some s') : Inv s' := by
  cases a with
  | call i op k =>
    simp only [State.step, Option.ite_none_right_eq_some, Option.some.injEq] at hs
    obtain ⟨⟨hidle, hk, hkm⟩, rfl⟩ := hs
    have hok := h.ok
    have hwalk : WalkOk s.heap [s.heap] k head := by
      refine ⟨⟨s.heap, .head _, .refl⟩, fun hlt => ?_⟩
      rw [hok.key_head] at hlt
      exact absurd hlt (Nat.not_lt_zero k)
    have henter : PcOk s.heap [s.heap] none (op.enter k) := by
      cases op with
      | add | remove => exact ⟨hk, hkm, fun _ => rfl, trivial⟩
      | contains => exact ⟨hk, hkm, hwalk⟩
    refine ⟨hok, fun j => ?_, fun j => ?_, own_update h.own fun n hn => ?_⟩
    · by_cases hj : j = i
      · subst hj
        simpa using Tracks.start hok
      · simpa [hj] using h.tracks j
    · by_cases hj : j = i
      · subst hj
        simpa using henter
      · simpa [hj] using h.calls j
    · cases op <;> cases hn
  | step i =>
    simp only [State.step, Option.map_eq_some_iff] at hs
    obtain ⟨⟨pc', h'⟩, hlocal, rfl⟩ := hs
    obtain ⟨hmoves, hpc', hnode, hleft⟩ := localStep_ok (h.tracks i) (h.calls i) hlocal
    refine h.go (fun j => hmoves.tracks (h.tracks j)) hmoves.later ?_ ?_ ?_ ?_
    · rwa [Function.update_self]
    · intro j hj
      exact Function.update_of_ne hj ..
    · intro n hn
      rw [hnode] at hn
      cases hn
    · intro j n hj hn
      exact hleft n (h.node hn).2.1 fun heq => hj (h.own j i n hn heq)
  | alloc i slot =>
    simp only [State.step] at hs
    split at hs
    case h_2 => cases hs
    case h_1 k pred curr hpc =>
      simp only [Option.ite_none_right_eq_some, Option.some.injEq] at hs
      obtain ⟨hfresh, rfl⟩ := hs
      have hcall := h.calls i
      rw [hpc] at hcall
      obtain ⟨hk, hkm, hins, hp, hc, hpk, hkc⟩ := hcall
      have hstep : Step s.heap (s.heap.build slot k curr) := .build hfresh hc hk hkc
      have hl := hstep.later
      have hok := h.ok
      have hnot : ¬ s.heap.IsPred slot := fun hpred => hfresh (hok.isPred_mem hpred)
      refine h.go (fun j => (h.tracks j).step hstep) hl ?_ (fun j _ => rfl) ?_ ?_
      · refine ⟨hk, hkm, hins, isPred_mono hl hp, isSucc_mono hl hc, ?_, ?_, .head _, hnot, ?_,
          Function.update_self .., Function.update_self ..⟩
        · exact (hl.key pred (hok.isPred_mem hp)).trans_lt hpk
        · exact hkc.trans_eq (hl.key curr (hok.isSucc_mem hc)).symm
        · rintro rfl
          exact hfresh hok.tail_mem
      · intro n hn
        cases hn
        exact .inr hfresh
      · intro j n hj hn
        refine ⟨Function.update_of_ne ?_ .., id⟩
        rintro rfl
        exact hfresh (h.node hn).1
  | spurious i =>
    simp only [State.step] at hs
    split at hs <;> cases hs
    exact h
  | ret i =>
    simp only [State.step] at hs
    split at hs
    case h_2 => cases hs
    case h_1 =>
      cases hs
      refine ⟨h.ok, h.tracks, Update.forall_of trivial fun j _ => h.calls j,
        own_update h.own fun n hn => ?_⟩
      cases hn

/-- For every interleaving of calls of `add`, `remove` and `contains` by any number of threads:
following the pointers from any node the keys increase up to the tail; every inserted node that is
not marked is reachable from the head; `contains` answers as the set of keys did at some moment of
the call; an `add` that returns false found its key in the set at some moment, and one that returns
true put its key, which was absent, into the set with its compare-exchange. -/
theorem lockFreeList_set {as : List (Act ι)} (hrun : Lts.run State.step .init as = some s) :
    (∀ a ∈ s.heap.slots, Chain.Ascends s.heap.next s.heap.key a ∧
      Chain.Reach s.heap.next a tail) ∧
    (∀ a ∈ s.heap.linked, (s.heap.ref a).marked = false → s.heap.Reach a) ∧
    (∀ i k r, s.pc i = .done .contains k r → ∃ g ∈ s.seen i, r = true ↔ k ∈ g.keys) ∧
    (∀ i k, s.pc i = .done .add k false → s.inserted i = none ∧ ∃ g ∈ s.seen i, k ∈ g.keys) ∧
    (∀ i k, s.pc i = .done .add k true → ∃ g g', s.inserted i = some (g, g') ∧ g ∈ s.seen i ∧
      g' ∈ s.seen i ∧ k ∉ g.keys ∧ g'.keys = insert k g.keys) := by
  have h : Inv s := Lts.run_inv (fun h hs => h.step hs) .init hrun
  refine ⟨fun a ha => ⟨h.ok.ascends ha, h.ok.reach_tail ha⟩, fun a ha => h.ok.reach a (.inr ha),
    fun i k r hpc => ?_, fun i k hpc => ?_, fun i k hpc => ?_⟩ <;>
  · have hcall := h.calls i
    rw [hpc] at hcall
    exact hcall

/-- Thread 0 adds 5, thread 1 looks for it and stops at its node; then thread 0 removes it, and only
then thread 1 reads the mark. -/
def removedUnderWalk {ι : Type} (i j : ι) : List (Act ι) :=
  [.call i .add 5, .step i, .step i, .alloc i 2, .step i, .ret i, .call j .contains 5, .step j,
    .step j, .step j, .call i .remove 5, .step i, .step i, .step i, .step i, .step i, .step i,
    .step i, .step j]

theorem lockFreeList_set_removedUnderWalk : ∃ s : State (Fin 2),
    Lts.run State.step .init (removedUnderWalk 0 1) = some s ∧ s.pc 1 = .done .contains 5 false ∧
    ∃ g ∈ s.seen 1, false = true ↔ 5 ∈ g.keys := by
  have hrun :=
    (Option.some_get (x := Lts.run State.step (.init : State (Fin 2)) (removedUnderWalk 0 1))
    (by decide)).symm
  have hpc : ((Lts.run State.step (.init : State (Fin 2)) (removedUnderWalk 0 1)).get
    (by decide)).pc 1 = .done .contains 5 false := by decide
  exact ⟨_, hrun, hpc, (lockFreeList_set hrun).2.2.1 1 5 false hpc⟩

end

end JLibScheduler.LockFreeList
