import JLibScheduler.LockFreeList.Set

/-!
# `get` against `contains`

Both walk to the first node whose key is not smaller than the one sought. `contains` then looks at
the mark of that node, `get` at the mark it has read on the way, which is the one of the node
before. The two answers are compared here for calls that run alone on the nodes of a state that some
interleaving has left (`getAgrees_iff`): they differ when one of the two nodes is marked and the
other is not (`not_getAgrees_marked`).
-/

namespace JLibScheduler.LockFreeList

open Heap

/-- The loop of `get`: where it stops, with the mark it read last. Each round goes on to a greater
key, so `k` rounds and the last test are enough; without fuel, or at a null pointer, the result is
`none`. -/
def getLoop (h : Heap) (k : ℕ) : ℕ → ℕ → Bool → Option (ℕ × Bool)
  | 0, _, _ => none
  | fuel + 1, curr, marked =>
    if h.key curr < k then
      (h.ref curr).val.bind fun next => getLoop h k fuel next (h.ref curr).marked
    else some (curr, marked)

/-- `get` (`LockFreeList.h:275-290`), run alone: the node whose data it points at, if any. -/
def get (h : Heap) (k : ℕ) : Option (Option ℕ) :=
  (getLoop h k (k + 1) head false).map fun (curr, marked) =>
    if h.key curr = k ∧ marked = false then some curr else none

/-- A call run alone: its result after at most `fuel` steps. -/
def runAlone : ℕ → Heap → Pc → Option Bool
  | _, _, .done _ _ r => some r
  | 0, _, _ => none
  | fuel + 1, h, pc => (localStep h pc).bind fun (pc', h') => runAlone fuel h' pc'

/-- `contains`, run alone: two steps for each node on the way. -/
def containsAlone (h : Heap) (k : ℕ) : Option Bool :=
  runAlone (2 * (k + 1)) h (Op.contains.enter k)

/-- `get` and `contains` both return; `get` gives a node exactly when `contains` says yes, and that
is the unmarked node of the list with the key. -/
def GetAgrees (h : Heap) (k : ℕ) : Prop :=
  ∃ r c, get h k = some r ∧ containsAlone h k = some c ∧ (r.isSome = true ↔ c = true) ∧
    ∀ n, r = some n → n ∈ h.linked ∧ h.Reach n ∧ (h.ref n).marked = false ∧ h.key n = k

section
variable {h : Heap} {k a b : ℕ}

/-- Two steps of `contains`, at a node before the key. -/
theorem runAlone_walk_lt (hlt : h.key a < k) (hb : h.next a = some b) (fuel : ℕ) :
    runAlone (fuel + 2) h (.walk k a) = runAlone fuel h (.walk k b) := by
  have hb' : (h.ref a).val = some b := hb
  simp only [runAlone, localStep, hb', Option.bind_some, if_neg (not_le_of_gt hlt)]

/-- Two steps of `contains`, at a node that is not before the key. -/
theorem runAlone_walk_ge (hle : k ≤ h.key a) (fuel : ℕ) :
    runAlone (fuel + 2) h (.walk k a) =
      some (decide (h.key a = k) && !(h.ref a).marked) := by
  simp only [runAlone, localStep, Option.bind_some, if_pos hle]

/-- Both walks from a node before the key stop at the same two neighbours. -/
theorem walks_eq (hok : h.Ok) (hkm : k < maxKey) : ∀ (fuel a : ℕ) (m : Bool), h.IsPred a →
    h.key a < k → k ≤ h.key a + fuel → ∃ p c, Chain.Reach h.next a p ∧ h.next p = some c ∧
      h.key p < k ∧ k ≤ h.key c ∧ getLoop h k (fuel + 1) a m = some (c, (h.ref p).marked) ∧
      runAlone (2 * (fuel + 1)) h (.walk k a) =
        some (decide (h.key c = k) && !(h.ref c).marked) := by
  intro fuel
  induction fuel with
  | zero => intro a m _ hlt hle; omega
  | succ fuel ih =>
    intro a m ha hlt hle
    obtain ⟨b, hb, hsucc, hab⟩ := hok.edge a (hok.isPred_mem ha) (hok.isPred_ne_tail ha)
    have hget : getLoop h k (fuel + 2) a m = getLoop h k (fuel + 1) b (h.ref a).marked := by
      rw [getLoop, if_pos hlt, hb, Option.bind_some]
    have hwalk : runAlone (2 * (fuel + 2)) h (.walk k a) =
        runAlone (2 * (fuel + 1)) h (.walk k b) := runAlone_walk_lt hlt hb _
    rw [hget, hwalk]
    rcases Nat.lt_or_ge (h.key b) k with hbk | hkb
    · have hpred : h.IsPred b := by
        refine .inr (hsucc.resolve_left ?_)
        rintro rfl
        rw [hok.key_tail] at hbk
        omega
      obtain ⟨p, c, hr, hrest⟩ := ih b (h.ref a).marked hpred hbk (by omega)
      exact ⟨p, c, .head hb hr, hrest⟩
    · refine ⟨a, b, .refl, hb, hlt, hkb, ?_, runAlone_walk_ge hkb _⟩
      rw [getLoop, if_neg (not_lt_of_ge hkb)]

/-- What the two calls give. -/
theorem get_eq (hok : h.Ok) (hk : 0 < k) (hkm : k < maxKey) : ∃ p c, h.Reach p ∧
    h.next p = some c ∧ h.key p < k ∧ k ≤ h.key c ∧
    get h k = some (if h.key c = k ∧ (h.ref p).marked = false then some c else none) ∧
    containsAlone h k = some (decide (h.key c = k) && !(h.ref c).marked) := by
  have hhead : h.key head < k := by rwa [hok.key_head]
  obtain ⟨p, c, hr, hpc, hpk, hkc, hget, hcontains⟩ :=
    walks_eq hok hkm k head false (.inl rfl) hhead (Nat.le_add_left ..)
  refine ⟨p, c, hr, hpc, hpk, hkc, ?_, hcontains⟩
  rw [get, hget, Option.map_some]

end

section
variable {ι : Type} [DecidableEq ι] {s : State ι}

/-- In every state that some interleaving of calls leaves, and for every key between those of the
sentinels, `get` run alone agrees with `contains` run alone exactly when the node with the key, if
the list still has it, is marked like its predecessor. -/
theorem getAgrees_iff {as : List (Act ι)} (hrun : Lts.run State.step .init as = some s) {k : ℕ}
    (hk : 0 < k) (hkm : k < maxKey) :
    GetAgrees s.heap k ↔ ∀ p c, s.heap.Reach p → s.heap.next p = some c → s.heap.key c = k →
      (s.heap.ref p).marked = (s.heap.ref c).marked := by
  have hok : s.heap.Ok := (Lts.run_inv (I := Inv) (fun h hs => h.step hs) .init hrun).ok
  have hasc := hok.ascends hok.head_mem
  obtain ⟨p, c, hr, hpc, hpk, hkc, hget, hcontains⟩ := get_eq hok hk hkm
  have hcond : (∀ p c, s.heap.Reach p → s.heap.next p = some c → s.heap.key c = k →
      (s.heap.ref p).marked = (s.heap.ref c).marked) ↔
      (s.heap.key c = k → (s.heap.ref p).marked = (s.heap.ref c).marked) := by
    refine ⟨fun hall hkey => hall p c hr hpc hkey, fun himp p' c' hr' hpc' hkey' => ?_⟩
    have hkey : s.heap.key c = k := by
      refine le_antisymm (hkey' ▸ hasc.succ_le hr hpc (hr'.tail hpc') ?_) hkc
      rwa [hkey']
    obtain rfl : c = c' := hok.key_inj (hr.tail hpc) (hr'.tail hpc') (hkey.trans hkey'.symm)
    obtain rfl : p = p' := hasc.pred_inj hr hr' hpc hpc'
    exact himp hkey
  rw [hcond]
  constructor
  · rintro ⟨r, b, hr', hb, hiff, -⟩ hkey
    rw [hget] at hr'
    rw [hcontains] at hb
    cases hr'
    cases hb
    cases hp : (s.heap.ref p).marked <;> cases hc : (s.heap.ref c).marked <;>
      simp [hkey, hp, hc] at hiff ⊢
  · intro himp
    refine ⟨_, _, hget, hcontains, ?_, fun n hn => ?_⟩
    · by_cases hkey : s.heap.key c = k
      · rw [himp hkey]
        cases hc : (s.heap.ref c).marked <;> simp [hkey]
      · simp [hkey]
    · rw [Option.ite_none_right_eq_some] at hn
      obtain ⟨⟨hkey, hm⟩, heq⟩ := hn
      obtain rfl := Option.some.inj heq
      have hne : c ≠ tail := by
        rintro rfl
        rw [hok.key_tail] at hkey
        omega
      exact ⟨(hok.edge_of (hok.isPred_mem ((hok.reach_cases hr).resolve_right
        (by rintro rfl; rw [next_eq hok.ref_tail] at hpc; cases hpc))) hpc).1.resolve_left hne,
        hr.tail hpc, (himp hkey).symm.trans hm, hkey⟩

end

/-- Thread 0 adds 5 and has marked it for removal, but not unlinked it yet. -/
def markedRun {ι : Type} (i : ι) : List (Act ι) :=
  [.call i .add 5, .step i, .step i, .alloc i 2, .step i, .ret i,
    .call i .remove 5, .step i, .step i, .step i, .step i, .step i]

/-- `contains` says no, and `get` points at the data of the removed element. -/
theorem not_getAgrees_marked : ¬ ∀ (as : List (Act (Fin 2))) (s : State (Fin 2)),
    Lts.run State.step .init as = some s → ∀ k, 0 < k → k < maxKey → GetAgrees s.heap k := by
  intro h
  obtain ⟨r, c, hr, hc, hiff, -⟩ :=
    h (markedRun 0) _ (Option.some_get (by decide)).symm 5 (by decide) (by decide)
  have hget : r = some 2 := Option.some.inj (hr.symm.trans (by decide))
  have hcontains : c = false := Option.some.inj (hc.symm.trans (by decide))
  subst hget hcontains
  exact absurd (hiff.1 rfl) (by decide)

/-- Before the removal both calls find the element. -/
theorem getAgrees_iff_added : ∃ s : State (Fin 2),
    Lts.run State.step .init ((markedRun 0).take 6) = some s ∧ get s.heap 5 = some (some 2) ∧
    ((∀ p c, s.heap.Reach p → s.heap.next p = some c → s.heap.key c = 5 →
      (s.heap.ref p).marked = (s.heap.ref c).marked) ↔ GetAgrees s.heap 5) := by
  have hrun := (Option.some_get (x := Lts.run State.step (.init : State (Fin 2))
    ((markedRun 0).take 6)) (by decide)).symm
  exact ⟨_, hrun, by decide, (getAgrees_iff hrun (by decide) (by decide)).symm⟩

end JLibScheduler.LockFreeList
