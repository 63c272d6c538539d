import Mathlib.Data.Int.ModEq
import Mathlib.Order.Nat
import Mathlib.Data.Set.Basic
import JLibScheduler.Lib.Chain

/-!
# The nodes of a `LockFreeList`

A node is a slot of the allocator with a key that does not change and a word `next`, which packs a
pointer and a mark (`LMarkablePointer`). The nodes of a list change in four ways only (`Heap.Step`):
`add` builds a node in a new slot and links it between two neighbours, `remove` marks a node, and a
traversal or `remove` points past a marked node. The slots of removed nodes are not handed out again
here: the epochs keep a retired node as long as a call that may have seen it runs. `Heap.Ok` is what
all these steps keep.
-/

namespace JLibScheduler.LockFreeList

/-- What the word of an `LMarkablePointer` packs: a pointer and the mark (`LMarkableReference`). -/
structure Ref where
  val : Option ℕ
  marked : Bool
  deriving DecidableEq, Repr

/-- `UINT64_MAX`, the key of the tail. -/
def maxKey : ℕ := 2 ^ 64 - 1

/-- The address of the first sentinel. -/
def head : ℕ := 0

/-- The address of the second sentinel. -/
def tail : ℕ := 1

/-- The nodes, by address, and the slots that the list's allocator has handed out. `linked` are the
nodes that `add` has inserted and `unlinked` those that a compare-exchange has taken out (history
only). -/
structure Heap where
  key : ℕ → ℕ
  ref : ℕ → Ref
  slots : List ℕ
  linked : List ℕ
  unlinked : List ℕ

namespace Heap

/-- The constructor of the list: two sentinels. -/
def init : Heap where
  key a := if a = tail then maxKey else 0
  ref a := if a = head then ⟨some tail, false⟩ else ⟨none, false⟩
  slots := [tail, head]
  linked := []
  unlinked := []

/-- The pointers, without the marks. -/
def next (h : Heap) : ℕ → Option ℕ := Ref.val ∘ h.ref

/-- Following the pointers from the head comes to `a`. -/
def Reach (h : Heap) (a : ℕ) : Prop := Chain.Reach h.next head a

/-- The set that the list stands for: the keys of the nodes that are reachable and not marked. -/
def keys (h : Heap) : Set ℕ :=
  {k | ∃ a ∈ h.linked, h.Reach a ∧ (h.ref a).marked = false ∧ h.key a = k}

/-- Where a traversal may stand before a node. -/
def IsPred (h : Heap) (a : ℕ) : Prop := a = head ∨ a ∈ h.linked

/-- Where a pointer of the list may lead. -/
def IsSucc (h : Heap) (a : ℕ) : Prop := a = tail ∨ a ∈ h.linked

/-- The node at `a` is built in a new slot: `Alloc`, the constructor and `next.set(c, false)`. -/
def build (h : Heap) (a k c : ℕ) : Heap :=
  { h with
    key := Function.update h.key a k
    ref := Function.update h.ref a ⟨some c, false⟩
    slots := a :: h.slots }

/-- The word of `a` is replaced. -/
def setRef (h : Heap) (a : ℕ) (r : Ref) : Heap :=
  { h with ref := Function.update h.ref a r }

/-- A change of the nodes. -/
inductive Step (h : Heap) : Heap → Prop where
  | build {a k c : ℕ} : a ∉ h.slots → h.IsSucc c → 0 < k → k < h.key c → Step h (h.build a k c)
  | link {p n c : ℕ} : h.IsPred p → h.ref p = ⟨some c, false⟩ → n ∈ h.slots → n ≠ head →
      n ≠ tail → n ∉ h.linked → h.ref n = ⟨some c, false⟩ → h.key p < h.key n →
      Step h { h.setRef p ⟨some n, false⟩ with linked := n :: h.linked }
  | mark {c s : ℕ} : c ∈ h.linked → h.ref c = ⟨some s, false⟩ → Step h (h.setRef c ⟨some s, true⟩)
  | unlink {p c s : ℕ} : h.IsPred p → h.ref p = ⟨some c, false⟩ → h.ref c = ⟨some s, true⟩ →
      Step h { h.setRef p ⟨some s, false⟩ with unlinked := c :: h.unlinked }

/-- The nodes are those of a list: the sentinels are at its ends, the keys increase along every
pointer, an inserted node that is not marked is reachable, and a node that was taken out is not. -/
structure Ok (h : Heap) : Prop where
  head_mem : head ∈ h.slots
  tail_mem : tail ∈ h.slots
  linked_sub : ∀ a ∈ h.linked, a ∈ h.slots ∧ a ≠ head ∧ a ≠ tail
  unlinked_sub : ∀ a ∈ h.unlinked, a ∈ h.linked ∧ ¬ h.Reach a
  key_head : h.key head = 0
  key_tail : h.key tail = maxKey
  head_unmarked : (h.ref head).marked = false
  ref_tail : h.ref tail = ⟨none, false⟩
  key_pos : ∀ a ∈ h.slots, a ≠ head → 0 < h.key a
  key_le : ∀ a ∈ h.slots, h.key a ≤ maxKey
  edge : ∀ a ∈ h.slots, a ≠ tail → ∃ b, (h.ref a).val = some b ∧ h.IsSucc b ∧ h.key a < h.key b
  reach : ∀ a, h.IsPred a → (h.ref a).marked = false → h.Reach a

variable {h h' : Heap} {a b c k p n s : ℕ}

theorem next_eq {r : Ref} (hr : h.ref a = r) : h.next a = r.val := congrArg Ref.val hr

theorem next_setRef (h : Heap) (a : ℕ) (r : Ref) :
    (h.setRef a r).next = Function.update h.next a r.val :=
  Function.comp_update ..

/-! ## What the list looks like -/

/-- Where the pointers of the list lead, there is a slot. -/
theorem Ok.isSucc_mem (hok : h.Ok) (ha : h.IsSucc a) : a ∈ h.slots :=
  ha.elim (fun heq => heq ▸ hok.tail_mem) fun hl => (hok.linked_sub a hl).1

theorem Ok.isPred_mem (hok : h.Ok) (ha : h.IsPred a) : a ∈ h.slots :=
  ha.elim (fun heq => heq ▸ hok.head_mem) fun hl => (hok.linked_sub a hl).1

theorem Ok.isPred_ne_tail (hok : h.Ok) (ha : h.IsPred a) : a ≠ tail :=
  ha.elim (fun heq => heq ▸ by decide) fun hl => (hok.linked_sub a hl).2.2

/-- A node that has a successor is not the tail, and the successor has a greater key. -/
theorem Ok.edge_of (hok : h.Ok) (ha : a ∈ h.slots) (hb : h.next a = some b) :
    h.IsSucc b ∧ h.key a < h.key b := by
  have hne : a ≠ tail := by
    rintro rfl
    rw [next_eq hok.ref_tail] at hb
    cases hb
  obtain ⟨b', hb', hedge⟩ := hok.edge a ha hne
  obtain rfl := Option.some.inj (hb.symm.trans hb')
  exact hedge

/-- Only slots are reached from a slot. -/
theorem Ok.reach_mem (hok : h.Ok) (ha : a ∈ h.slots) (hb : Chain.Reach h.next a b) :
    b ∈ h.slots :=
  hb.inv (fun _ _ hx hy => hok.isSucc_mem (hok.edge_of hx hy).1) ha

/-- Following the pointers from any node, the keys increase. -/
theorem Ok.ascends (hok : h.Ok) (ha : a ∈ h.slots) : Chain.Ascends h.next h.key a :=
  fun _ _ hx hy => (hok.edge_of (hok.reach_mem ha hx) hy).2

/-- Following the pointers from any node comes to the tail. -/
theorem Ok.reach_tail (hok : h.Ok) {a : ℕ} (ha : a ∈ h.slots) : Chain.Reach h.next a tail := by
  by_cases hne : a = tail
  · rw [hne]
  · obtain ⟨b, hb, hsucc, hlt⟩ := hok.edge a ha hne
    have hmem := hok.isSucc_mem hsucc
    have hle := hok.key_le b hmem
    exact .head hb (hok.reach_tail hmem)
termination_by maxKey - h.key a

/-- What is reached from the head is a sentinel or an inserted node. -/
theorem Ok.reach_cases (hok : h.Ok) (ha : h.Reach a) : h.IsPred a ∨ a = tail := by
  rcases ha.cases_tail with rfl | ⟨b, hb, hedge⟩
  · exact .inl (.inl rfl)
  · rcases (hok.edge_of (hok.reach_mem hok.head_mem hb) hedge).1 with rfl | hl
    · exact .inr rfl
    · exact .inl (.inr hl)

/-- Two reachable nodes with one key are the same. -/
theorem Ok.key_inj (hok : h.Ok) (ha : h.Reach a) (hb : h.Reach b) (hkey : h.key a = h.key b) :
    a = b :=
  (hok.ascends hok.head_mem).key_inj ha hb hkey

/-- A key strictly between those of two neighbours is not in the set. -/
theorem Ok.not_mem_keys (hok : h.Ok) (ha : h.Reach a) (hb : h.next a = some b) (hak : h.key a < k)
    (hkb : k < h.key b) : k ∉ h.keys := by
  rintro ⟨c, -, hc, -, rfl⟩
  exact not_le_of_gt hkb ((hok.ascends hok.head_mem).succ_le ha hb hc hak)

/-- The key of a marked node that is reachable is not in the set. -/
theorem Ok.not_mem_keys_of_marked (hok : h.Ok) (ha : h.Reach a) (hm : (h.ref a).marked = true) :
    h.key a ∉ h.keys := by
  rintro ⟨c, -, hc, hcm, hkey⟩
  obtain rfl := hok.key_inj hc ha hkey
  rw [hm] at hcm
  cases hcm

/-! ## The steps -/

theorem Ok.init : init.Ok where
  head_mem := by decide
  tail_mem := by decide
  linked_sub a ha := by cases ha
  unlinked_sub a ha := by cases ha
  key_head := rfl
  key_tail := rfl
  head_unmarked := rfl
  ref_tail := rfl
  key_pos := by decide
  key_le := by decide
  edge := by
    intro a ha hne
    obtain rfl : a = head := by simpa [Heap.init, hne] using ha
    exact ⟨tail, rfl, .inl rfl, by decide⟩
  reach := by
    rintro a (rfl | ha) -
    · exact .refl
    · cases ha

/-- What a change leaves: the slots and their keys, the inserted and the taken out nodes, and the
words of marked nodes. -/
structure Later (h h' : Heap) : Prop where
  slots : ∀ a ∈ h.slots, a ∈ h'.slots
  key : ∀ a ∈ h.slots, h'.key a = h.key a
  linked : ∀ a ∈ h.linked, a ∈ h'.linked
  unlinked : ∀ a ∈ h.unlinked, a ∈ h'.unlinked
  frozen : ∀ a ∈ h.slots, (h.ref a).marked = true → h'.ref a = h.ref a

theorem setRef_ref_self {r : Ref} : (h.setRef a r).ref a = r := Function.update_self ..

theorem setRef_ref_ne {r : Ref} (hne : b ≠ a) : (h.setRef a r).ref b = h.ref b :=
  Function.update_of_ne hne ..

theorem Later.refl (h : Heap) : h.Later h :=
  ⟨fun _ ha => ha, fun _ _ => rfl, fun _ ha => ha, fun _ ha => ha, fun _ _ _ => rfl⟩

theorem Later.trans {g : Heap} (hg : g.Later h) (hh : h.Later h') : g.Later h' where
  slots a ha := hh.slots a (hg.slots a ha)
  key a ha := (hh.key a (hg.slots a ha)).trans (hg.key a ha)
  linked a ha := hh.linked a (hg.linked a ha)
  unlinked a ha := hh.unlinked a (hg.unlinked a ha)
  frozen a ha hm := by
    have heq := hg.frozen a ha hm
    rw [← heq] at hm
    exact (hh.frozen a (hg.slots a ha) hm).trans heq

theorem Step.later (hs : Step h h') : h.Later h' := by
  cases hs with
  | @build a k c ha hc hk hkc =>
    have hne : ∀ b ∈ h.slots, b ≠ a := fun b hb heq => ha (heq ▸ hb)
    exact ⟨fun b hb => .tail _ hb, fun b hb => Function.update_of_ne (hne b hb) .., fun b hb => hb,
      fun b hb => hb, fun b hb _ => Function.update_of_ne (hne b hb) ..⟩
  | link hp href hn hnh hnt hnl hnref hlt =>
    refine ⟨fun b hb => hb, fun b hb => rfl, fun b hb => .tail _ hb, fun b hb => hb,
      fun b hb hm => setRef_ref_ne ?_⟩
    rintro rfl
    rw [href] at hm
    cases hm
  | mark hc href =>
    refine ⟨fun b hb => hb, fun b hb => rfl, fun b hb => hb, fun b hb => hb,
      fun b hb hm => setRef_ref_ne ?_⟩
    rintro rfl
    rw [href] at hm
    cases hm
  | unlink hp href hcref =>
    refine ⟨fun b hb => hb, fun b hb => rfl, fun b hb => hb, fun b hb => .tail _ hb,
      fun b hb hm => setRef_ref_ne ?_⟩
    rintro rfl
    rw [href] at hm
    cases hm

/-! ### Building a node -/

theorem Ok.not_reach_new (hok : h.Ok) (ha : a ∉ h.slots) : ¬ h.Reach a :=
  fun hr => ha (hok.reach_mem hok.head_mem hr)

/-- A new node cannot be reached. -/
theorem Ok.reach_build (hok : h.Ok) (ha : a ∉ h.slots) {x : ℕ} :
    (h.build a k c).Reach x ↔ h.Reach x := by
  have hnext : (h.build a k c).next = Function.update h.next a (some c) := Function.comp_update ..
  rw [Reach, hnext]
  exact Chain.reach_update_iff (hok.not_reach_new ha)

theorem Ok.build (hok : h.Ok) (ha : a ∉ h.slots) (hc : h.IsSucc c) (hk : 0 < k)
    (hkc : k < h.key c) : (h.build a k c).Ok := by
  have hne : ∀ b ∈ h.slots, b ≠ a := fun b hb heq => ha (heq ▸ hb)
  have hkey : ∀ b ∈ h.slots, (h.build a k c).key b = h.key b :=
    fun b hb => Function.update_of_ne (hne b hb) ..
  have href : ∀ b ∈ h.slots, (h.build a k c).ref b = h.ref b :=
    fun b hb => Function.update_of_ne (hne b hb) ..
  have hself : (h.build a k c).key a = k := Function.update_self ..
  have hmem := hok.isSucc_mem hc
  refine ⟨.tail _ hok.head_mem, .tail _ hok.tail_mem, fun b hb => ?_, fun b hb => ?_, ?_, ?_,
    ?_, ?_, fun b hb hbh => ?_, fun b hb => ?_, fun b hb hbt => ?_, fun b hb hm => ?_⟩
  · obtain ⟨hb, hbh, hbt⟩ := hok.linked_sub b hb
    exact ⟨.tail _ hb, hbh, hbt⟩
  · rw [hok.reach_build ha]
    exact hok.unlinked_sub b hb
  · rw [hkey _ hok.head_mem, hok.key_head]
  · rw [hkey _ hok.tail_mem, hok.key_tail]
  · rw [href _ hok.head_mem, hok.head_unmarked]
  · rw [href _ hok.tail_mem, hok.ref_tail]
  · rcases List.mem_cons.1 hb with rfl | hb
    · rwa [hself]
    · rw [hkey b hb]
      exact hok.key_pos b hb hbh
  · rcases List.mem_cons.1 hb with rfl | hb
    · rw [hself]
      exact hkc.le.trans (hok.key_le c hmem)
    · rw [hkey b hb]
      exact hok.key_le b hb
  · rcases List.mem_cons.1 hb with rfl | hb
    · have hb' : (h.build b k c).ref b = ⟨some c, false⟩ := Function.update_self ..
      refine ⟨c, by rw [hb'], hc, ?_⟩
      rwa [hself, hkey c hmem]
    · obtain ⟨d, hd, hsucc, hlt⟩ := hok.edge b hb hbt
      refine ⟨d, by rw [href b hb, hd], hsucc, ?_⟩
      rwa [hkey b hb, hkey d (hok.isSucc_mem hsucc)]
  · rw [href b (hok.isPred_mem hb)] at hm
    exact (hok.reach_build ha).2 (hok.reach b hb hm)

/-! ### Marking a node -/

/-- A mark does not change the pointers. -/
theorem reach_mark (href : h.ref c = ⟨some s, false⟩) {x : ℕ} :
    (h.setRef c ⟨some s, true⟩).Reach x ↔ h.Reach x := by
  have hnext : h.next c = some s := next_eq href
  rw [Reach, next_setRef]
  dsimp only
  rw [← hnext, Function.update_eq_self]
  rfl

theorem Ok.mark (hok : h.Ok) (hc : c ∈ h.linked) (href : h.ref c = ⟨some s, false⟩) :
    (h.setRef c ⟨some s, true⟩).Ok := by
  obtain ⟨hmem, hch, hct⟩ := hok.linked_sub c hc
  have hne : ∀ b, b ≠ c → (h.setRef c ⟨some s, true⟩).ref b = h.ref b :=
    fun b hb => setRef_ref_ne hb
  have hval : ∀ b, ((h.setRef c ⟨some s, true⟩).ref b).val = (h.ref b).val := by
    intro b
    by_cases hb : b = c
    · rw [hb, href, setRef_ref_self]
    · rw [hne b hb]
  refine ⟨hok.head_mem, hok.tail_mem, hok.linked_sub, fun b hb => ?_, hok.key_head,
    hok.key_tail, ?_, ?_, hok.key_pos, hok.key_le, fun b hb hbt => ?_, fun b hb hm => ?_⟩
  · rw [reach_mark href]
    exact hok.unlinked_sub b hb
  · rw [hne _ hch.symm, hok.head_unmarked]
  · rw [hne _ hct.symm, hok.ref_tail]
  · rw [hval]
    exact hok.edge b hb hbt
  · rw [reach_mark href]
    refine hok.reach b hb ?_
    rw [← hne b (fun heq => ?_)]
    · exact hm
    · subst heq
      rw [setRef_ref_self] at hm
      cases hm

/-! ### Linking a node -/

section
variable (hok : h.Ok) (hp : h.IsPred p) (href : h.ref p = ⟨some c, false⟩) (hnl : ¬ h.IsPred n)
  (hnref : h.ref n = ⟨some c, false⟩)

include hok hp href

/-- A traversal that stands before a node whose word is not marked stands in the list. -/
theorem Ok.reach_pred : h.Reach p := hok.reach p hp (by rw [href])

include hnl hnref

/-- The node that is linked can be reached then, and what could be reached before. -/
theorem Ok.reach_link {x : ℕ} : (h.setRef p ⟨some n, false⟩).Reach x ↔ h.Reach x ∨ x = n := by
  have hasc := hok.ascends hok.head_mem
  have hpr := hok.reach_pred hp href
  have hnp : n ≠ p := fun heq => hnl (heq ▸ hp)
  rw [Reach, next_setRef]
  refine ⟨fun hx => Chain.reach_of_insert hpr (next_eq href) (next_eq hnref) hx, fun hx => ?_⟩
  rcases hx with hx | rfl
  · exact hasc.reach_insert hpr (next_eq href) (next_eq hnref) hnp hx
  · exact hasc.reach_inserted hpr

theorem Ok.link (hn : n ∈ h.slots) (hnt : n ≠ tail) (hlt : h.key p < h.key n) :
    Ok { h.setRef p ⟨some n, false⟩ with linked := n :: h.linked } := by
  have hmem := hok.isPred_mem hp
  have hpt := hok.isPred_ne_tail hp
  have hsucc : ∀ b, h.IsSucc b →
      IsSucc { h.setRef p ⟨some n, false⟩ with linked := n :: h.linked } b :=
    fun b hb => hb.imp id fun hb => .tail _ hb
  have hreach {x : ℕ} := hok.reach_link hp href hnl hnref (x := x)
  refine ⟨hok.head_mem, hok.tail_mem, fun b hb => ?_, fun b hb => ?_, hok.key_head,
    hok.key_tail, ?_, ?_, hok.key_pos, hok.key_le, fun b hb hbt => ?_, fun b hb hm => ?_⟩
  · rcases List.mem_cons.1 hb with rfl | hb
    · exact ⟨hn, fun heq => hnl (.inl heq), hnt⟩
    · exact hok.linked_sub b hb
  · obtain ⟨hbl, hbr⟩ := hok.unlinked_sub b hb
    refine ⟨.tail _ hbl, fun hr => ?_⟩
    rcases hreach.1 hr with hr | rfl
    · exact hbr hr
    · exact hnl (.inr hbl)
  · by_cases hph : head = p
    · subst hph
      exact congrArg Ref.marked setRef_ref_self
    · exact (congrArg Ref.marked (setRef_ref_ne hph)).trans hok.head_unmarked
  · exact (setRef_ref_ne hpt.symm).trans hok.ref_tail
  · by_cases hbp : b = p
    · subst hbp
      exact ⟨n, congrArg Ref.val setRef_ref_self, .inr (.head _), hlt⟩
    · obtain ⟨d, hd, hds, hdk⟩ := hok.edge b hb hbt
      exact ⟨d, (congrArg Ref.val (setRef_ref_ne hbp)).trans hd, hsucc d hds, hdk⟩
  · refine hreach.2 ?_
    rcases hb with rfl | hb
    · exact .inl .refl
    · rcases List.mem_cons.1 hb with rfl | hb
      · exact .inr rfl
      · by_cases hbp : b = p
        · exact .inl (hbp ▸ hok.reach_pred hp href)
        · exact .inl
            (hok.reach b (.inr hb) ((congrArg Ref.marked (setRef_ref_ne hbp)).symm.trans hm))

end

/-! ### Taking a node out -/

section
variable (hok : h.Ok) (hp : h.IsPred p) (href : h.ref p = ⟨some c, false⟩)
  (hcref : h.ref c = ⟨some s, true⟩)

include hok hp href hcref

/-- The node that is taken out cannot be reached then, and every other one as before. -/
theorem Ok.reach_unlink {x : ℕ} : (h.setRef p ⟨some s, false⟩).Reach x ↔ h.Reach x ∧ x ≠ c := by
  have hasc := hok.ascends hok.head_mem
  have hpr := hok.reach_pred hp href
  rw [Reach, next_setRef]
  refine ⟨fun hx => ⟨Chain.reach_of_skip (next_eq href) (next_eq hcref) hx, ?_⟩, fun hx =>
    hasc.reach_skip hpr (next_eq href) (next_eq hcref) hx.1 hx.2⟩
  rintro rfl
  exact hasc.not_reach_skip hpr (next_eq href) (next_eq hcref) hx

theorem Ok.unlink :
    Ok { h.setRef p ⟨some s, false⟩ with unlinked := c :: h.unlinked } := by
  have hpt := hok.isPred_ne_tail hp
  have hreach {x : ℕ} := hok.reach_unlink hp href hcref (x := x)
  obtain ⟨hcs, hpc⟩ := hok.edge_of (hok.isPred_mem hp) (next_eq href)
  obtain ⟨hss, hcs'⟩ := hok.edge_of (hok.isSucc_mem hcs) (next_eq hcref)
  refine ⟨hok.head_mem, hok.tail_mem, hok.linked_sub, fun b hb => ?_, hok.key_head,
    hok.key_tail, ?_, ?_, hok.key_pos, hok.key_le, fun b hb hbt => ?_, fun b hb hm => ?_⟩
  · rcases List.mem_cons.1 hb with rfl | hb
    · refine ⟨hcs.resolve_left ?_, fun hr => (hreach.1 hr).2 rfl⟩
      rintro rfl
      rw [hok.ref_tail] at hcref
      cases hcref
    · exact ⟨(hok.unlinked_sub b hb).1, fun hr => (hok.unlinked_sub b hb).2 (hreach.1 hr).1⟩
  · by_cases hph : head = p
    · subst hph
      exact congrArg Ref.marked setRef_ref_self
    · exact (congrArg Ref.marked (setRef_ref_ne hph)).trans hok.head_unmarked
  · exact (setRef_ref_ne hpt.symm).trans hok.ref_tail
  · by_cases hbp : b = p
    · subst hbp
      exact ⟨s, congrArg Ref.val setRef_ref_self, hss, hpc.trans hcs'⟩
    · obtain ⟨d, hd, hds, hdk⟩ := hok.edge b hb hbt
      exact ⟨d, (congrArg Ref.val (setRef_ref_ne hbp)).trans hd, hds, hdk⟩
  · refine hreach.2 ?_
    by_cases hbp : b = p
    · subst hbp
      exact ⟨hok.reach_pred hp href, by rintro rfl; exact lt_irrefl _ hpc⟩
    · have hm' : (h.ref b).marked = false :=
        (congrArg Ref.marked (setRef_ref_ne hbp)).symm.trans hm
      refine ⟨hok.reach b hb hm', ?_⟩
      rintro rfl
      rw [hcref] at hm'
      cases hm'

end

/-- Every change keeps the nodes those of a list. -/
theorem Ok.step (hok : h.Ok) (hs : Step h h') : h'.Ok := by
  cases hs with
  | build ha hc hk hkc => exact hok.build ha hc hk hkc
  | link hp href hn hnh hnt hnl hnref hlt =>
    exact hok.link hp href (fun hpred => hpred.elim hnh hnl) hnref hn hnt hlt
  | mark hc href => exact hok.mark hc href
  | unlink hp href hcref => exact hok.unlink hp href hcref

/-! ## The set of keys -/

/-- A link puts the key of the node into the set. -/
theorem Ok.keys_link (hok : h.Ok) (hp : h.IsPred p) (href : h.ref p = ⟨some c, false⟩)
    (hnl : ¬ h.IsPred n) (hnref : h.ref n = ⟨some c, false⟩) :
    keys { h.setRef p ⟨some n, false⟩ with linked := n :: h.linked } = insert (h.key n) h.keys := by
  have hnp : n ≠ p := fun heq => hnl (heq ▸ hp)
  have hreach {x : ℕ} := hok.reach_link hp href hnl hnref (x := x)
  have hmark : ∀ b, ((h.setRef p ⟨some n, false⟩).ref b).marked = (h.ref b).marked := by
    intro b
    by_cases hbp : b = p
    · rw [hbp, setRef_ref_self, href]
    · rw [setRef_ref_ne hbp]
  ext x
  constructor
  · rintro ⟨b, hb, hr, hm, rfl⟩
    rcases List.mem_cons.1 hb with rfl | hb'
    · exact .inl rfl
    · refine .inr ⟨b, hb', ?_, (hmark b).symm.trans hm, rfl⟩
      rcases hreach.1 hr with hr | rfl
      · exact hr
      · exact absurd (.inr hb') hnl
  · rintro (rfl | ⟨b, hb, hr, hm, rfl⟩)
    · exact ⟨n, .head _, hreach.2 (.inr rfl), (hmark n).trans (by rw [hnref]), rfl⟩
    · exact ⟨b, .tail _ hb, hreach.2 (.inl hr), (hmark b).trans hm, rfl⟩

/-! ## Histories -/

/-- `hs` are moments that led to `h`: all of them are lists, with the nodes that are still there. A
node that was reachable at one of them was reachable at one where it was as it is now. -/
structure Tracks (hs : List Heap) (h : Heap) : Prop where
  mem : h ∈ hs
  ok : ∀ g ∈ hs, g.Ok
  later : ∀ g ∈ hs, g.Later h
  reach : ∀ g ∈ hs, ∀ a, g.Reach a → ∃ g' ∈ hs, g'.Reach a ∧ g'.ref a = h.ref a

/-- A node whose word changes is in the list before and after the change. -/
theorem Ok.reach_of_changed (hok : h.Ok) (hs : Step h h') (ha : a ∈ h.slots)
    (hne : h'.ref a ≠ h.ref a) : h'.Reach a := by
  cases hs with
  | @build b k c hb hc hk hkc =>
    exact absurd (Function.update_of_ne (by rintro rfl; exact hb ha) ..) hne
  | @link p n c hp href hn hnh hnt hnl hnref hlt =>
    have hap : a = p := by_contra fun hap => hne (setRef_ref_ne hap)
    rw [hap]
    exact (hok.reach_link hp href (fun hpred => hpred.elim hnh hnl) hnref).2
      (.inl (hok.reach_pred hp href))
  | @mark c s hc href =>
    have hac : a = c := by_contra fun hac => hne (setRef_ref_ne hac)
    rw [hac]
    exact (reach_mark href).2 (hok.reach c (.inr hc) (by rw [href]))
  | @unlink p c s hp href hcref =>
    have hap : a = p := by_contra fun hap => hne (setRef_ref_ne hap)
    rw [hap]
    refine (hok.reach_unlink hp href hcref).2 ⟨hok.reach_pred hp href, ?_⟩
    rintro rfl
    rw [href] at hcref
    cases hcref

/-- A call starts with the present moment. -/
theorem Tracks.start (hok : h.Ok) : Tracks [h] h where
  mem := .head _
  ok g hg := by rwa [List.mem_singleton.1 hg]
  later g hg := by
    rw [List.mem_singleton.1 hg]
    exact .refl h
  reach g hg a ha := by
    rw [List.mem_singleton.1 hg] at ha
    exact ⟨h, .head _, ha, rfl⟩

/-- A moment at which nothing has changed may be added. -/
theorem Tracks.stay {hs : List Heap} (ht : Tracks hs h) : Tracks (h :: hs) h where
  mem := .head _
  ok := List.forall_mem_cons.2 ⟨ht.ok h ht.mem, ht.ok⟩
  later := List.forall_mem_cons.2 ⟨.refl h, ht.later⟩
  reach g hg a ha := by
    have hg' : g ∈ hs := (List.mem_cons.1 hg).elim (fun heq => heq ▸ ht.mem) id
    obtain ⟨g', hg', hr⟩ := ht.reach g hg' a ha
    exact ⟨g', .tail _ hg', hr⟩

/-- Every change adds a moment. -/
theorem Tracks.step {hs : List Heap} (ht : Tracks hs h) (hstep : Step h h') :
    Tracks (h' :: hs) h' where
  mem := .head _
  ok := List.forall_mem_cons.2 ⟨(ht.ok h ht.mem).step hstep, ht.ok⟩
  later := List.forall_mem_cons.2 ⟨.refl h', fun g hg => (ht.later g hg).trans hstep.later⟩
  reach g hg a ha := by
    rcases List.mem_cons.1 hg with rfl | hg
    · exact ⟨g, .head _, ha, rfl⟩
    · obtain ⟨g', hg', hr, href⟩ := ht.reach g hg a ha
      by_cases hch : h'.ref a = h.ref a
      · exact ⟨g', .tail _ hg', hr, href.trans hch.symm⟩
      · have hmem := (ht.later g hg).slots a ((ht.ok g hg).reach_mem (ht.ok g hg).head_mem ha)
        exact ⟨h', .head _, (ht.ok h ht.mem).reach_of_changed hstep hmem hch, rfl⟩

section
variable {hs : List Heap} {g : Heap} (ht : Tracks hs h) (hg : g ∈ hs) (ha : g.Reach a)

include ht hg ha

theorem Tracks.mem_slots : a ∈ g.slots :=
  (ht.ok g hg).reach_mem (ht.ok g hg).head_mem ha

/-- A node that a walk came to and finds marked was in the list with its mark, so its key was not in
the set at some moment of the walk. -/
theorem Tracks.absent_of_marked (hm : (h.ref a).marked = true) : ∃ g ∈ hs, h.key a ∉ g.keys := by
  obtain ⟨g', hg', hr, href⟩ := ht.reach g hg a ha
  refine ⟨g', hg', ?_⟩
  rw [(ht.later g' hg').key a (ht.mem_slots hg' hr)]
  exact (ht.ok g' hg').not_mem_keys_of_marked hr (by rw [href, hm])

/-- Where a walk goes next was in the list at some moment of the walk, and no key between the two
nodes was in the set then. -/
theorem Tracks.next_reach (hb : h.next a = some b) :
    ∃ g ∈ hs, g.Reach b ∧ ∀ k, h.key a < k → k < h.key b → k ∉ g.keys := by
  obtain ⟨g', hg', hr, href⟩ := ht.reach g hg a ha
  have hb' : g'.next a = some b := (congrArg Ref.val href).trans hb
  have hrb : g'.Reach b := hr.tail hb'
  refine ⟨g', hg', hrb, fun k hak hkb => ?_⟩
  rw [(ht.later g' hg').key a (ht.mem_slots hg' hr)] at hak
  rw [(ht.later g' hg').key b (ht.mem_slots hg' hrb)] at hkb
  exact (ht.ok g' hg').not_mem_keys hr hb' hak hkb

end

end Heap

end JLibScheduler.LockFreeList
