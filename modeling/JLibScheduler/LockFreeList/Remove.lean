import JLibScheduler.LockFreeList.Set

/-!
# The nodes that removals retire

`remove` passes its node to `RetirePtr` when `attemptMark` has succeeded, whatever its own attempt
to unlink the node gave. `attemptMark` also succeeds on a node that another call has marked, so two
calls may retire one node (`not_retiresOnce_twoRemovers`). A call has claimed a node from its
`attemptMark` on; when every `attemptMark` that succeeds sets the mark itself, a node is claimed by
one call at most, and when the node has been taken out by the time of `RetirePtr`, it is out of
reach then (`retires_once`).
-/

namespace JLibScheduler.LockFreeList

open Heap

/-- The node that a running `remove` has claimed and not retired yet. -/
def Pc.claim : Pc → Option ℕ
  | .unlink _ _ curr _ | .retire _ curr => some curr
  | _ => none

/-- `attemptMark` does not find its node marked by another call, and a node is passed to `RetirePtr`
after some compare-exchange has taken it out. -/
def Pc.Exclusive (h : Heap) : Pc → Prop
  | .attemptMark _ _ curr succ | .markCas _ _ curr succ => h.ref curr ≠ ⟨succ, true⟩
  | .retire _ curr => curr ∈ h.unlinked
  | _ => True

instance (h : Heap) : (pc : Pc) → Decidable (pc.Exclusive h)
  | .attemptMark _ _ curr succ | .markCas _ _ curr succ =>
    inferInstanceAs (Decidable (h.ref curr ≠ ⟨succ, true⟩))
  | .retire _ curr => inferInstanceAs (Decidable (curr ∈ h.unlinked))
  | .idle | .find _ _ _ | .alloc _ _ _ | .link _ _ _ _ | .readSucc _ _ _ | .unlink _ _ _ _
  | .walk _ _ | .walkMark _ _ _ | .done _ _ _ => inferInstanceAs (Decidable True)

section
variable {ι : Type}

/-- The step of a call is one with an exclusive claim. -/
def State.Exclusive (s : State ι) : Act ι → Prop
  | .step i => (s.pc i).Exclusive s.heap
  | _ => True

instance (s : State ι) : (a : Act ι) → Decidable (s.Exclusive a)
  | .step i => inferInstanceAs (Decidable ((s.pc i).Exclusive s.heap))
  | .call _ _ _ | .alloc _ _ | .spurious _ | .ret _ => inferInstanceAs (Decidable True)

/-- No node is passed to `RetirePtr` twice, so no two calls of `remove` return true for one node,
and none is reachable from the head when it is passed. -/
def State.RetiresOnce (s : State ι) : Prop :=
  (s.retired.map fun e => e.2.1).Nodup ∧ ∀ e ∈ s.retired, ¬ e.2.2.Reach e.2.1

/-- What holds in every state of a run with exclusive claims. -/
structure ClaimInv (s : State ι) : Prop where
  inv : Inv s
  /-- no two calls have claimed one node -/
  claim : ∀ i j n, (s.pc i).claim = some n → (s.pc j).claim = some n → i = j
  /-- no call has claimed a retired node -/
  retired : ∀ e ∈ s.retired, e.2.1 ∈ s.heap.linked ∧ (s.heap.ref e.2.1).marked = true ∧
    ∀ i, (s.pc i).claim ≠ some e.2.1
  once : s.RetiresOnce

end

section
variable {h h' : Heap} {hs : List Heap} {ins : Option (Heap × Heap)} {pc pc' : Pc}

/-- A claimed node is in the list or was taken out of it, and it is marked. -/
theorem PcOk.claim {n : ℕ} (hpc : PcOk h hs ins pc) (hn : pc.claim = some n) :
    n ∈ h.linked ∧ (h.ref n).marked = true := by
  cases pc with
  | unlink k pred curr succ =>
    cases hn
    obtain ⟨-, hc, href⟩ := hpc
    exact ⟨hc, by rw [href]⟩
  | retire k curr =>
    cases hn
    exact hpc
  | _ => cases hn

/-- After a test that does not find the mark of another call, nothing is claimed. -/
theorem attemptMarkTest_claim {k pred curr : ℕ} {succ : Option ℕ}
    (hne : h.ref curr ≠ ⟨succ, true⟩) :
    (attemptMarkTest k pred curr succ (h.ref curr)).claim = none := by
  unfold attemptMarkTest
  split
  · rfl
  · split
    case isTrue hval hm => exact absurd (by rw [← not_not.1 hval, ← hm]) hne
    case isFalse => rfl

/-- A step with an exclusive claim claims nothing, keeps its claim, or claims a node that was not
marked. -/
theorem localStep_claim (hex : pc.Exclusive h) (hstep : localStep h pc = some (pc', h')) {n : ℕ}
    (hn : pc'.claim = some n) : pc.claim = some n ∨ (h.ref n).marked = false := by
  cases pc with
  | idle | alloc | done => cases hstep
  | find adding k pc =>
    obtain ⟨res, hres, heq⟩ := Option.map_eq_some_iff.1 hstep
    cases res with
    | go h₁ pc₁ =>
      cases heq
      cases hn
    | window pred curr =>
      cases heq
      revert hn
      unfold found
      split <;> split <;> rintro ⟨⟩
  | link k pred curr node =>
    simp only [localStep] at hstep
    split at hstep <;> cases hstep <;> cases hn
  | attemptMark k pred curr succ =>
    cases hstep
    rw [attemptMarkTest_claim hex] at hn
    cases hn
  | markCas k pred curr succ =>
    simp only [localStep] at hstep
    split at hstep
    case h_1 h₁ hcas =>
      obtain ⟨hcref, rfl⟩ := compareAndSet_eq_some.1 hcas
      cases hstep
      cases hn
      exact .inr (by rw [hcref])
    case h_2 =>
      cases hstep
      rw [attemptMarkTest_claim hex] at hn
      cases hn
  | unlink k pred curr succ =>
    simp only [localStep] at hstep
    split at hstep <;> cases hstep <;> exact .inl hn
  | readSucc k pred curr | retire k curr | walk k curr =>
    cases hstep
    cases hn
  | walkMark k curr succ =>
    simp only [localStep] at hstep
    split at hstep
    · cases hstep
      cases hn
    · split at hstep <;> cases hstep <;> cases hn

end

section
variable {ι : Type} {s s' : State ι}

theorem ClaimInv.init : ClaimInv (.init : State ι) where
  inv := .init
  claim i j n hn := by cases hn
  retired e he := by cases he
  once := ⟨List.nodup_nil, fun e he => by cases he⟩

/-- A marked node stays one. -/
theorem marked_mono (hinv : Inv s) (hl : s.heap.Later s'.heap) {n : ℕ} (hn : n ∈ s.heap.linked)
    (hm : (s.heap.ref n).marked = true) :
    n ∈ s'.heap.linked ∧ (s'.heap.ref n).marked = true :=
  ⟨hl.linked n hn, by rw [hl.frozen n (hinv.ok.linked_sub n hn).1 hm, hm]⟩

variable [DecidableEq ι]

/-- The rule for a step of thread `i` that retires nothing: what it claims it had claimed before, or
nobody has. -/
theorem ClaimInv.move (h : ClaimInv s) (hinv : Inv s') {i : ι} {pc' : Pc}
    (hpc : s'.pc = Function.update s.pc i pc') (hl : s.heap.Later s'.heap)
    (hret : s'.retired = s.retired)
    (hclaim : ∀ n, pc'.claim = some n →
      (s.pc i).claim = some n ∨ (s.heap.ref n).marked = false) : ClaimInv s' where
  inv := hinv
  claim := by
    rw [hpc]
    refine own_update h.claim fun n hn j hj hjn => ?_
    rcases hclaim n hn with hi | hm
    · exact hj (h.claim j i n hjn hi)
    · rw [((h.inv.calls j).claim hjn).2] at hm
      cases hm
  retired := by
    rw [hret]
    intro e he
    obtain ⟨hlinked, hm, hnone⟩ := h.retired e he
    obtain ⟨hlinked', hm'⟩ := marked_mono h.inv hl hlinked hm
    refine ⟨hlinked', hm', fun j => ?_⟩
    rw [hpc]
    by_cases hj : j = i
    · subst hj
      rw [Function.update_self]
      intro hn
      rcases hclaim _ hn with hi | hm₀
      · exact hnone j hi
      · rw [hm] at hm₀
        cases hm₀
    · rw [Function.update_of_ne hj]
      exact hnone j
  once := by
    have honce := h.once
    rw [State.RetiresOnce] at honce ⊢
    rwa [hret]

/-- `RetirePtr` with the claimed node, which has been taken out. -/
theorem ClaimInv.retire (h : ClaimInv s) {i : ι} {k n : ℕ} (hpc : s.pc i = .retire k n)
    (hout : n ∈ s.heap.unlinked) (hs : s.step (.step i) = some s') : ClaimInv s' := by
  have hinv' := h.inv.step hs
  simp only [State.step, hpc, localStep, Option.map_some, Option.some.injEq] at hs
  subst hs
  have hi : (s.pc i).claim = some n := by rw [hpc]; rfl
  obtain ⟨hlinked, hm⟩ := (h.inv.calls i).claim hi
  have hrest : ∀ j, j ≠ i → (s.pc j).claim ≠ some n := fun j hj hjn => hj (h.claim j i n hjn hi)
  have hgone : ∀ m, (∀ j, j ≠ i → (s.pc j).claim ≠ some m) →
      ∀ j, (Function.update s.pc i (.done .remove k true) j).claim ≠ some m := fun m hm =>
    Update.forall_of (P := fun _ (pc : Pc) => pc.claim ≠ some m) (by rintro ⟨⟩) hm
  refine ⟨hinv', own_update h.claim fun m hm => (by cases hm), fun e he => ?_, ?_, fun e he => ?_⟩
  · rcases List.mem_cons.1 he with rfl | he
    · exact ⟨hlinked, hm, hgone n hrest⟩
    · obtain ⟨hlinked', hm', hnone⟩ := h.retired e he
      exact ⟨hlinked', hm', hgone _ fun j _ => hnone j⟩
  · refine List.nodup_cons.2 ⟨fun hmem => ?_, h.once.1⟩
    obtain ⟨e, he, heq⟩ := List.mem_map.1 hmem
    exact (h.retired e he).2.2 i (by rw [hi, heq])
  · rcases List.mem_cons.1 he with rfl | he
    · exact (h.inv.ok.unlinked_sub n hout).2
    · exact h.once.2 e he

/-- Every step with an exclusive claim keeps the invariant. -/
theorem ClaimInv.step (h : ClaimInv s) {a : Act ι} (hex : s.Exclusive a)
    (hs : s.step a = some s') : ClaimInv s' := by
  have hinv' := h.inv.step hs
  cases a with
  | call i op k =>
    simp only [State.step, Option.ite_none_right_eq_some, Option.some.injEq] at hs
    obtain ⟨-, rfl⟩ := hs
    refine h.move hinv' (i := i) rfl (.refl _) rfl fun n hn => ?_
    cases op <;> cases hn
  | alloc i slot =>
    simp only [State.step] at hs
    split at hs
    case h_2 => cases hs
    case h_1 k pred curr hpc =>
      simp only [Option.ite_none_right_eq_some, Option.some.injEq] at hs
      obtain ⟨hfresh, rfl⟩ := hs
      have hcall := h.inv.calls i
      rw [hpc] at hcall
      obtain ⟨hk, -, -, -, hc, -, hkc⟩ := hcall
      have hstep : Step s.heap (s.heap.build slot k curr) := .build hfresh hc hk hkc
      refine h.move hinv' (i := i) rfl hstep.later rfl fun n hn => ?_
      cases hn
  | spurious i =>
    simp only [State.step] at hs
    split at hs <;> cases hs
    exact h
  | ret i =>
    simp only [State.step] at hs
    split at hs
    case h_2 => cases hs
    case h_1 =>
      cases hs
      refine h.move hinv' (i := i) rfl (.refl _) rfl fun n hn => ?_
      cases hn
  | step i =>
    by_cases hret : ∃ k n, s.pc i = .retire k n
    · obtain ⟨k, n, hpc⟩ := hret
      rw [State.Exclusive, hpc] at hex
      exact h.retire hpc hex hs
    · simp only [State.step, Option.map_eq_some_iff] at hs
      obtain ⟨⟨pc', h'⟩, hlocal, rfl⟩ := hs
      have hnone : retireStep s.heap i (s.pc i) = [] := by
        cases hpc : s.pc i with
        | retire k n => exact absurd ⟨k, n, hpc⟩ hret
        | _ => rfl
      obtain ⟨hmoves, -⟩ := localStep_ok (h.inv.tracks i) (h.inv.calls i) hlocal
      refine h.move hinv' (i := i) rfl hmoves.later ?_ fun n => localStep_claim hex hlocal
      simp only [hnone, List.nil_append]

/-- In every interleaving in which each `attemptMark` that succeeds sets the mark itself and each
node has been taken out by the time it is passed to `RetirePtr`, no node is retired twice or for
two calls that return true, and none while it is reachable. -/
theorem retires_once {as : List (Act ι)} (hrun : Lts.run State.step .init as = some s)
    (hex : ∀ p ∈ Lts.visits State.step (.init : State ι) as, State.Exclusive p.1 p.2) :
    s.RetiresOnce :=
  (Lts.run_inv_of (I := ClaimInv) (G := State.Exclusive) (fun h hex hs => h.step hex hs) .init hrun
    hex).once

end

/-- Thread 0 adds 5. Then both threads remove it: both find its node and read its successor, thread
0 marks it, and the `attemptMark` of thread 1 finds the mark. -/
def twoRemoversRun {ι : Type} (i j : ι) : List (Act ι) :=
  [.call i .add 5, .step i, .step i, .alloc i 2, .step i, .ret i,
    .call i .remove 5, .step i, .step i, .step i, .call j .remove 5, .step j, .step j, .step j,
    .step i, .step i, .step i, .step i, .step j, .step j, .step j]

/-- Both calls return true and pass the node to `RetirePtr`. -/
theorem not_retiresOnce_twoRemovers : ¬ ∀ (as : List (Act (Fin 2))) (s : State (Fin 2)),
    Lts.run State.step .init as = some s → s.RetiresOnce := by
  intro h
  have honce := (h (twoRemoversRun 0 1) _ (Option.some_get (by decide)).symm).1
  revert honce
  decide

/-- One removal alone retires its node. -/
theorem retires_once_oneRemover : ∃ s : State (Fin 2),
    Lts.run State.step .init
      ((twoRemoversRun 0 1).take 10 ++ [.step 0, .step 0, .step 0, .step 0]) =
      some s ∧ s.retired.map (fun e => e.2.1) = [2] ∧ s.RetiresOnce := by
  have hrun := (Option.some_get (x := Lts.run State.step (.init : State (Fin 2))
    ((twoRemoversRun 0 1).take 10 ++ [.step 0, .step 0, .step 0, .step 0])) (by decide)).symm
  refine ⟨_, hrun, by decide, retires_once hrun (by decide)⟩

end JLibScheduler.LockFreeList
