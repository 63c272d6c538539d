import JLibScheduler.Lib.Update
import JLibScheduler.LockFreeList.Basic

/-!
# What the calls of a list know

`PcOk` says what a call knows at each of its places: where its pointers lead, what it has built, and
for `contains` at which moments since the call began its nodes were in the list. A step of a call
changes the nodes by one `Heap.Step` or not at all (`localStep_ok`), and what another call knows
survives that (`PcOk.frame`), because keys, inserted nodes and marked words stay.
-/

namespace JLibScheduler.LockFreeList

open Heap

/-- The node that a call has built and not linked. -/
def Pc.node : Pc → Option ℕ
  | .link _ _ _ node => some node
  | _ => none

/-- What `Window::find` knows. -/
def FindOk (h : Heap) (k : ℕ) : FindPc → Prop
  | .start => True
  | .read pred curr => h.IsPred pred ∧ h.IsSucc curr ∧ h.key pred < k
  | .snip pred curr succ =>
    h.IsPred pred ∧ h.IsSucc curr ∧ h.key pred < k ∧ h.ref curr = ⟨succ, true⟩

/-- What `contains` knows of the node it stands at: the node was in the list at some moment of the
call, and if its key is too great, the key was absent at some moment. -/
def WalkOk (h : Heap) (hs : List Heap) (k curr : ℕ) : Prop :=
  (∃ g ∈ hs, g.Reach curr) ∧ (k < h.key curr → ∃ g ∈ hs, k ∉ g.keys)

/-- What a call of a thread knows. -/
def PcOk (h : Heap) (hs : List Heap) (ins : Option (Heap × Heap)) : Pc → Prop
  | .idle => True
  | .find adding k pc => 0 < k ∧ k < maxKey ∧ (adding = true → ins = none) ∧ FindOk h k pc
  | .alloc k pred curr =>
    0 < k ∧ k < maxKey ∧ ins = none ∧ h.IsPred pred ∧ h.IsSucc curr ∧ h.key pred < k ∧
      k < h.key curr
  | .link k pred curr node =>
    0 < k ∧ k < maxKey ∧ ins = none ∧ h.IsPred pred ∧ h.IsSucc curr ∧ h.key pred < k ∧
      k < h.key curr ∧ node ∈ h.slots ∧ ¬ h.IsPred node ∧ node ≠ tail ∧ h.key node = k ∧
      h.ref node = ⟨some curr, false⟩
  | .readSucc k pred curr | .attemptMark k pred curr _ | .markCas k pred curr _ =>
    0 < k ∧ k < maxKey ∧ h.IsPred pred ∧ curr ∈ h.linked
  | .unlink _ pred curr succ =>
    h.IsPred pred ∧ curr ∈ h.linked ∧ h.ref curr = ⟨succ, true⟩
  | .retire _ curr => curr ∈ h.linked ∧ (h.ref curr).marked = true
  | .walk k curr => 0 < k ∧ k < maxKey ∧ WalkOk h hs k curr
  | .walkMark k curr succ =>
    0 < k ∧ k < maxKey ∧ WalkOk h hs k curr ∧
      (h.key curr < k → ∃ c, succ = some c ∧ WalkOk h hs k c)
  | .done .add k true =>
    ∃ g g', ins = some (g, g') ∧ g ∈ hs ∧ g' ∈ hs ∧ k ∉ g.keys ∧ g'.keys = insert k g.keys
  | .done .add k false => ins = none ∧ ∃ g ∈ hs, k ∈ g.keys
  | .done .remove _ _ => True
  | .done .contains k r => ∃ g ∈ hs, r = true ↔ k ∈ g.keys

section
variable {h h' : Heap} {hs : List Heap} {ins : Option (Heap × Heap)}

/-! ## What other calls do -/

theorem isPred_mono (hl : h.Later h') {a : ℕ} (ha : h.IsPred a) : h'.IsPred a :=
  ha.imp id (hl.linked a)

theorem isSucc_mono (hl : h.Later h') {a : ℕ} (ha : h.IsSucc a) : h'.IsSucc a :=
  ha.imp id (hl.linked a)

/-- What `Window::find` knows survives. -/
theorem FindOk.frame (hok : h.Ok) (hl : h.Later h') {k : ℕ} {pc : FindPc} (hpc : FindOk h k pc) :
    FindOk h' k pc := by
  cases pc with
  | start => trivial
  | read pred curr =>
    obtain ⟨hp, hc, hk⟩ := hpc
    exact ⟨isPred_mono hl hp, isSucc_mono hl hc, by rwa [hl.key pred (hok.isPred_mem hp)]⟩
  | snip pred curr succ =>
    obtain ⟨hp, hc, hk, href⟩ := hpc
    refine ⟨isPred_mono hl hp, isSucc_mono hl hc, by rwa [hl.key pred (hok.isPred_mem hp)], ?_⟩
    rw [hl.frozen curr (hok.isSucc_mem hc) (by rw [href]), href]

/-- What `contains` knows survives. -/
theorem WalkOk.frame (ht : Tracks hs h) (hl : h.Later h') {k curr : ℕ} (hw : WalkOk h hs k curr) :
    WalkOk h' (h' :: hs) k curr := by
  obtain ⟨⟨g, hg, hr⟩, habs⟩ := hw
  refine ⟨⟨g, .tail _ hg, hr⟩, fun hk => ?_⟩
  rw [hl.key curr ((ht.later g hg).slots curr (ht.mem_slots hg hr))] at hk
  obtain ⟨g', hg', hk'⟩ := habs hk
  exact ⟨g', .tail _ hg', hk'⟩

/-- What a call knows survives the steps of the other calls, as long as they leave the node alone
that it has built. -/
theorem PcOk.frame (ht : Tracks hs h) (hl : h.Later h') {pc : Pc}
    (hnode : ∀ n, pc.node = some n → h'.ref n = h.ref n ∧ (n ∈ h'.linked → n ∈ h.linked))
    (hpc : PcOk h hs ins pc) : PcOk h' (h' :: hs) ins pc := by
  have hok := ht.ok h ht.mem
  have hkey : ∀ a, h.IsPred a → h'.key a = h.key a := fun a ha => hl.key a (hok.isPred_mem ha)
  have hkey' : ∀ a, h.IsSucc a → h'.key a = h.key a := fun a ha => hl.key a (hok.isSucc_mem ha)
  cases pc with
  | idle => trivial
  | find adding k pc =>
    obtain ⟨hk, hkm, hins, hf⟩ := hpc
    exact ⟨hk, hkm, hins, hf.frame hok hl⟩
  | alloc k pred curr =>
    obtain ⟨hk, hkm, hins, hp, hc, hpk, hkc⟩ := hpc
    exact ⟨hk, hkm, hins, isPred_mono hl hp, isSucc_mono hl hc, by rwa [hkey pred hp],
      by rwa [hkey' curr hc]⟩
  | link k pred curr node =>
    obtain ⟨hk, hkm, hins, hp, hc, hpk, hkc, hn, hnp, hnt, hnk, hnr⟩ := hpc
    obtain ⟨href, hlinked⟩ := hnode node rfl
    exact ⟨hk, hkm, hins, isPred_mono hl hp, isSucc_mono hl hc, by rwa [hkey pred hp],
      by rwa [hkey' curr hc], hl.slots node hn, fun hpred => hnp (hpred.imp id hlinked), hnt,
      by rwa [hl.key node hn], by rwa [href]⟩
  | readSucc k pred curr | attemptMark k pred curr succ | markCas k pred curr succ =>
    obtain ⟨hk, hkm, hp, hc⟩ := hpc
    exact ⟨hk, hkm, isPred_mono hl hp, hl.linked curr hc⟩
  | unlink k pred curr succ =>
    obtain ⟨hp, hc, href⟩ := hpc
    refine ⟨isPred_mono hl hp, hl.linked curr hc, ?_⟩
    rw [hl.frozen curr (hok.linked_sub curr hc).1 (by rw [href]), href]
  | retire k curr =>
    obtain ⟨hc, hm⟩ := hpc
    exact ⟨hl.linked curr hc, by rwa [hl.frozen curr (hok.linked_sub curr hc).1 hm]⟩
  | walk k curr =>
    obtain ⟨hk, hkm, hw⟩ := hpc
    exact ⟨hk, hkm, hw.frame ht hl⟩
  | walkMark k curr succ =>
    obtain ⟨hk, hkm, hw, hsucc⟩ := hpc
    refine ⟨hk, hkm, hw.frame ht hl, fun hlt => ?_⟩
    obtain ⟨g, hg, hr⟩ := hw.1
    rw [hl.key curr ((ht.later g hg).slots curr (ht.mem_slots hg hr))] at hlt
    obtain ⟨c, hc, hw'⟩ := hsucc hlt
    exact ⟨c, hc, hw'.frame ht hl⟩
  | done op k r =>
    cases op with
    | remove => trivial
    | contains =>
      obtain ⟨g, hg, hr⟩ := hpc
      exact ⟨g, .tail _ hg, hr⟩
    | add =>
      cases r with
      | false =>
        obtain ⟨hins, g, hg, hr⟩ := hpc
        exact ⟨hins, g, .tail _ hg, hr⟩
      | true =>
        obtain ⟨g, g', hins, hg, hg', hr⟩ := hpc
        exact ⟨g, g', hins, .tail _ hg, .tail _ hg', hr⟩

/-! ## What a call does -/

/-- What a step does to the nodes: nothing, or one change that is no new slot. -/
structure Moves (h h' : Heap) : Prop where
  step : h' = h ∨ Step h h'
  slots : h'.slots = h.slots

/-- The node `n` is left alone. -/
def Untouched (h h' : Heap) (n : ℕ) : Prop :=
  h'.ref n = h.ref n ∧ (n ∈ h'.linked → n ∈ h.linked)

theorem Moves.refl (h : Heap) : Moves h h := ⟨.inl rfl, rfl⟩

theorem Moves.later (hm : Moves h h') : h.Later h' := by
  rcases hm.step with rfl | hs
  · exact .refl h'
  · exact hs.later

theorem Moves.tracks (ht : Tracks hs h) (hm : Moves h h') : Tracks (h' :: hs) h' := by
  rcases hm.step with rfl | hs
  · exact ht.stay
  · exact ht.step hs

theorem Untouched.refl (h : Heap) (n : ℕ) : Untouched h h n := ⟨rfl, id⟩

theorem untouched_setRef {a n : ℕ} {r : Ref} (hne : n ≠ a) : Untouched h (h.setRef a r) n :=
  ⟨setRef_ref_ne hne, id⟩

theorem compareAndSet_eq_some {a : ℕ} {e v : Option ℕ} {em vm : Bool} :
    h.compareAndSet a e v em vm = some h' ↔ h.ref a = ⟨e, em⟩ ∧ h.setRef a ⟨v, vm⟩ = h' := by
  rw [Heap.compareAndSet, Option.ite_none_right_eq_some, Option.some.injEq]

/-- A marked node has a successor. -/
theorem succ_of_marked (hok : h.Ok) {c : ℕ} (hc : h.IsSucc c) {succ : Option ℕ}
    (href : h.ref c = ⟨succ, true⟩) : c ∈ h.linked ∧ ∃ s, succ = some s ∧ h.IsSucc s := by
  have hct : c ≠ tail := by
    rintro rfl
    rw [hok.ref_tail] at href
    cases href
  obtain ⟨s, hs, hsucc, -⟩ := hok.edge c (hok.isSucc_mem hc) hct
  rw [href] at hs
  exact ⟨hc.resolve_left hct, s, hs, hsucc⟩

/-- The compare-exchange by which a traversal or `remove` takes a marked node out. -/
theorem moves_unlink (hok : h.Ok) {p c : ℕ} {succ : Option ℕ} (hp : h.IsPred p) (hc : h.IsSucc c)
    (hpref : h.ref p = ⟨some c, false⟩) (href : h.ref c = ⟨succ, true⟩) :
    Moves h { h.setRef p ⟨succ, false⟩ with unlinked := c :: h.unlinked } := by
  obtain ⟨-, s, rfl, -⟩ := succ_of_marked hok hc href
  exact ⟨.inr (.unlink hp hpref href), rfl⟩

/-- What a step of `Window::find` does and knows. -/
theorem findStep_go (hok : h.Ok) {k : ℕ} (hkm : k < maxKey) (hk : 0 < k) {pc pc' : FindPc}
    (hpc : FindOk h k pc) (hs : findStep h k pc = some (.go h' pc')) :
    Moves h h' ∧ FindOk h' k pc' ∧ ∀ n, ¬ h.IsPred n → Untouched h h' n := by
  cases pc with
  | start =>
    obtain ⟨c, hc, heq⟩ := Option.map_eq_some_iff.1 hs
    cases heq
    refine ⟨.refl h, ⟨.inl rfl, (hok.edge_of hok.head_mem hc).1, ?_⟩, fun n _ => .refl h n⟩
    rwa [hok.key_head]
  | read pred curr =>
    obtain ⟨hp, hc, hpk⟩ := hpc
    simp only [findStep] at hs
    split at hs
    case isTrue hm =>
      cases hs
      refine ⟨.refl h, ⟨hp, hc, hpk, ?_⟩, fun n _ => .refl h n⟩
      rw [← hm]
    case isFalse hm =>
      split at hs
      case isTrue => cases hs
      case isFalse hlt =>
        obtain ⟨c, hcc, heq⟩ := Option.map_eq_some_iff.1 hs
        cases heq
        have hlt' : h.key curr < k := by omega
        have hpred : h.IsPred curr := by
          refine .inr (hc.resolve_left ?_)
          rintro rfl
          rw [hok.key_tail] at hlt'
          omega
        exact ⟨.refl h, ⟨hpred, (hok.edge_of (hok.isSucc_mem hc) hcc).1, hlt'⟩,
          fun n _ => .refl h n⟩
  | snip pred curr succ =>
    obtain ⟨hp, hc, hpk, href⟩ := hpc
    simp only [findStep] at hs
    split at hs
    case h_1 h₁ hcas =>
      obtain ⟨hpref, rfl⟩ := compareAndSet_eq_some.1 hcas
      obtain ⟨c, rfl, heq⟩ := Option.map_eq_some_iff.1 hs
      cases heq
      obtain ⟨-, s, hss, hsucc⟩ := succ_of_marked hok hc href
      cases hss
      exact ⟨moves_unlink hok hp hc hpref href, ⟨hp, hsucc, hpk⟩,
        fun n hn => untouched_setRef (by rintro rfl; exact hn hp)⟩
    case h_2 =>
      cases hs
      exact ⟨.refl h, trivial, fun n _ => .refl h n⟩

/-- The window: two neighbours around the key, of which the second was not marked. -/
theorem findStep_window {k : ℕ} {pc : FindPc} {pred curr : ℕ} (hpc : FindOk h k pc)
    (hs : findStep h k pc = some (.window pred curr)) :
    h.IsPred pred ∧ h.IsSucc curr ∧ h.key pred < k ∧ k ≤ h.key curr ∧
      (h.ref curr).marked = false := by
  cases pc with
  | start =>
    obtain ⟨c, hc, heq⟩ := Option.map_eq_some_iff.1 hs
    cases heq
  | read pred' curr' =>
    obtain ⟨hp, hc, hpk⟩ := hpc
    simp only [findStep] at hs
    split at hs
    case isTrue => cases hs
    case isFalse hm =>
      split at hs
      case isTrue hle =>
        cases hs
        exact ⟨hp, hc, hpk, hle, Bool.eq_false_iff.2 hm⟩
      case isFalse =>
        obtain ⟨c, hcc, heq⟩ := Option.map_eq_some_iff.1 hs
        cases heq
  | snip pred' curr' succ =>
    simp only [findStep] at hs
    split at hs
    case h_1 =>
      obtain ⟨c, hcc, heq⟩ := Option.map_eq_some_iff.1 hs
      cases heq
    case h_2 => cases hs

/-- What `attemptMark` knows when it has loaded the word of its node. -/
theorem attemptMarkTest_ok (hs : List Heap) (ins : Option (Heap × Heap)) {k pred curr : ℕ}
    {succ : Option ℕ} (hk : 0 < k) (hkm : k < maxKey) (hp : h.IsPred pred) (hc : curr ∈ h.linked) :
    PcOk h hs ins (attemptMarkTest k pred curr succ (h.ref curr)) ∧
      (attemptMarkTest k pred curr succ (h.ref curr)).node = none := by
  unfold attemptMarkTest
  split
  · exact ⟨⟨hk, hkm, by simp, trivial⟩, rfl⟩
  · split
    case isTrue hval hm =>
      refine ⟨⟨hp, hc, ?_⟩, rfl⟩
      rw [← not_not.1 hval, ← hm]
    case isFalse => exact ⟨⟨hk, hkm, hp, hc⟩, rfl⟩

/-- A step that changes nothing leaves all nodes alone. -/
theorem stay_ok {pc pc' : Pc} (hpc : PcOk h (h :: hs) ins pc') (hnode : pc'.node = none)
    (hlink : linkStep h h pc pc' = none) :
    Moves h h ∧ PcOk h (h :: hs) ((linkStep h h pc pc').or ins) pc' ∧ pc'.node = none ∧
      ∀ n, ¬ h.IsPred n → pc.node ≠ some n → Untouched h h n := by
  rw [hlink]
  exact ⟨.refl h, hpc, hnode, fun n _ _ => .refl h n⟩

/-- The answer of `contains` at the node where it stops is the one of some moment of the call. -/
theorem walk_result (ht : Tracks hs h) {k curr : ℕ} (hk : 0 < k) (hkm : k < maxKey)
    (hw : WalkOk h hs k curr) (hle : k ≤ h.key curr) :
    ∃ g ∈ hs, (decide (h.key curr = k) && !(h.ref curr).marked) = true ↔ k ∈ g.keys := by
  have hok := ht.ok h ht.mem
  obtain ⟨⟨g, hg, hr⟩, habs⟩ := hw
  rcases hle.eq_or_lt with rfl | hlt
  · cases hm : (h.ref curr).marked with
    | true =>
      obtain ⟨g', hg', hnot⟩ := ht.absent_of_marked hg hr hm
      exact ⟨g', hg', by simpa using hnot⟩
    | false =>
      have hne : curr ≠ head ∧ curr ≠ tail := by
        constructor <;> rintro rfl
        · rw [hok.key_head] at hk
          exact lt_irrefl 0 hk
        · rw [hok.key_tail] at hkm
          exact lt_irrefl _ hkm
      have hl : curr ∈ h.linked := by
        rcases (ht.ok g hg).reach_cases hr with (heq | hl) | heq
        · exact absurd heq hne.1
        · exact (ht.later g hg).linked curr hl
        · exact absurd heq hne.2
      refine ⟨h, ht.mem, fun _ => ⟨curr, hl, hok.reach curr (.inr hl) hm, hm, rfl⟩, fun _ => ?_⟩
      simp
  · obtain ⟨g', hg', hnot⟩ := habs hlt
    exact ⟨g', hg', by simp [hlt.ne', hnot]⟩

/-- What a step of a call does and knows: it leaves alone the nodes that are not in the list and
that it has not built itself. -/
theorem localStep_ok (ht : Tracks hs h) {pc pc' : Pc} (hpc : PcOk h hs ins pc)
    (hstep : localStep h pc = some (pc', h')) :
    Moves h h' ∧ PcOk h' (h' :: hs) ((linkStep h h' pc pc').or ins) pc' ∧ pc'.node = none ∧
      ∀ n, ¬ h.IsPred n → pc.node ≠ some n → Untouched h h' n := by
  have hok := ht.ok h ht.mem
  cases pc with
  | idle | alloc | done => cases hstep
  | find adding k pc =>
    obtain ⟨hk, hkm, hins, hf⟩ := hpc
    obtain ⟨res, hres, heq⟩ := Option.map_eq_some_iff.1 hstep
    cases res with
    | go h₁ pc₁ =>
      cases heq
      obtain ⟨hmoves, hf', hleft⟩ := findStep_go hok hkm hk hf hres
      exact ⟨hmoves, ⟨hk, hkm, hins, hf'⟩, rfl, fun n hn _ => hleft n hn⟩
    | window pred curr =>
      cases heq
      obtain ⟨hp, hc, hpk, hkc, hm⟩ := findStep_window hf hres
      have hlinked : h.key curr = k → curr ∈ h.linked := by
        intro hkey
        refine hc.resolve_left ?_
        rintro rfl
        rw [hok.key_tail] at hkey
        omega
      refine stay_ok ?_ ?_ rfl <;> unfold found <;> split <;> split
      · rename_i hadd hkey
        refine ⟨hins hadd, h, .head _, curr, hlinked hkey, ?_, hm, hkey⟩
        exact hok.reach curr (.inr (hlinked hkey)) hm
      · rename_i hadd hkey
        exact ⟨hk, hkm, hins hadd, hp, hc, hpk, lt_of_le_of_ne hkc (Ne.symm hkey)⟩
      · rename_i hadd hkey
        exact ⟨hk, hkm, hp, hlinked hkey⟩
      · trivial
      all_goals rfl
  | link k pred curr node =>
    obtain ⟨hk, hkm, hins, hp, hc, hpk, hkc, hn, hnp, hnt, hnk, hnr⟩ := hpc
    simp only [localStep] at hstep
    split at hstep
    case h_1 h₁ hcas =>
      obtain ⟨hpref, rfl⟩ := compareAndSet_eq_some.1 hcas
      cases hstep
      have hpr := hok.reach_pred hp hpref
      have hlt : h.key pred < h.key node := by omega
      have habs : k ∉ h.keys := hok.not_mem_keys hpr (next_eq hpref) hpk hkc
      have hkeys := hok.keys_link hp hpref hnp hnr
      rw [hnk] at hkeys
      refine ⟨⟨.inr (.link hp hpref hn (fun heq => hnp (.inl heq)) hnt (fun hl => hnp (.inr hl)) hnr
        hlt), rfl⟩, ⟨h, _, rfl, .tail _ ht.mem, .head _, habs, hkeys⟩, rfl, fun n hn' hne => ?_⟩
      refine ⟨setRef_ref_ne (by rintro rfl; exact hn' hp), fun hmem => ?_⟩
      exact (List.mem_cons.1 hmem).resolve_left fun heq => hne (congrArg some heq.symm)
    case h_2 =>
      cases hstep
      exact stay_ok ⟨hk, hkm, fun _ => hins, trivial⟩ rfl rfl
  | readSucc k pred curr =>
    cases hstep
    exact stay_ok hpc rfl rfl
  | attemptMark k pred curr succ =>
    obtain ⟨hk, hkm, hp, hc⟩ := hpc
    cases hstep
    obtain ⟨hpc', hnode⟩ := attemptMarkTest_ok (h :: hs) ins hk hkm hp hc
    exact stay_ok hpc' hnode rfl
  | markCas k pred curr succ =>
    obtain ⟨hk, hkm, hp, hc⟩ := hpc
    simp only [localStep] at hstep
    split at hstep
    case h_1 h₁ hcas =>
      obtain ⟨hcref, rfl⟩ := compareAndSet_eq_some.1 hcas
      cases hstep
      obtain ⟨hmem, -, hct⟩ := hok.linked_sub curr hc
      obtain ⟨s, hs, -⟩ := hok.edge curr hmem hct
      rw [hcref] at hs
      obtain rfl : succ = some s := hs
      refine ⟨⟨.inr (.mark hc hcref), rfl⟩, ⟨hp, hc, setRef_ref_self⟩, rfl, fun n hn _ => ?_⟩
      exact untouched_setRef (by rintro rfl; exact hn (.inr hc))
    case h_2 =>
      cases hstep
      obtain ⟨hpc', hnode⟩ := attemptMarkTest_ok (h :: hs) ins hk hkm hp hc
      exact stay_ok hpc' hnode rfl
  | unlink k pred curr succ =>
    obtain ⟨hp, hc, href⟩ := hpc
    simp only [localStep] at hstep
    split at hstep
    case h_1 h₁ hcas =>
      obtain ⟨hpref, rfl⟩ := compareAndSet_eq_some.1 hcas
      cases hstep
      have hcp : curr ≠ pred := by
        rintro rfl
        rw [href] at hpref
        cases hpref
      refine ⟨moves_unlink hok hp (.inr hc) hpref href, ⟨hc, ?_⟩, rfl, fun n hn _ => ?_⟩
      · exact (congrArg Ref.marked (setRef_ref_ne hcp)).trans (by rw [href])
      · exact untouched_setRef (by rintro rfl; exact hn hp)
    case h_2 =>
      cases hstep
      exact stay_ok ⟨hc, by rw [href]⟩ rfl rfl
  | retire k curr =>
    cases hstep
    exact stay_ok trivial rfl rfl
  | walk k curr =>
    obtain ⟨hk, hkm, hw⟩ := hpc
    cases hstep
    refine stay_ok ⟨hk, hkm, hw.frame ht (.refl h), fun hlt => ?_⟩ rfl rfl
    obtain ⟨⟨g, hg, hr⟩, -⟩ := hw
    have hne : curr ≠ tail := by
      rintro rfl
      rw [hok.key_tail] at hlt
      omega
    have hmem := (ht.later g hg).slots curr (ht.mem_slots hg hr)
    obtain ⟨c, hc, -, hkey⟩ := hok.edge curr hmem hne
    obtain ⟨g', hg', hr', hbetween⟩ := ht.next_reach hg hr hc
    exact ⟨c, hc, ⟨g', .tail _ hg', hr'⟩, fun hkc => ⟨g', .tail _ hg', hbetween k hlt hkc⟩⟩
  | walkMark k curr succ =>
    obtain ⟨hk, hkm, hw, hsucc⟩ := hpc
    simp only [localStep] at hstep
    split at hstep
    case isTrue hle =>
      cases hstep
      obtain ⟨g, hg, hres⟩ := walk_result ht hk hkm hw hle
      exact stay_ok ⟨g, .tail _ hg, hres⟩ rfl rfl
    case isFalse hlt =>
      obtain ⟨c, rfl, hw'⟩ := hsucc (by omega)
      cases hstep
      exact stay_ok ⟨hk, hkm, hw'.frame ht (.refl h)⟩ rfl rfl

end

end JLibScheduler.LockFreeList
