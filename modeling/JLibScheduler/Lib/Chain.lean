import Mathlib.Logic.Relation
import Mathlib.Logic.Function.Basic
import Mathlib.Order.Lattice

/-!
# Ascending chains of next pointers

A linked structure is a function `next` that gives the successor of a node, if it has one, and a
key of every node. `Reach next a b` says that following `next` from `a` comes to `b`, and
`Ascends next key a` that the keys increase on the way from `a`. Such a chain holds each key at most
once, and it can be changed at one node: a node is taken out when its predecessor is made to point
past it (`reach_skip`), and a new node is put in between two neighbours (`reach_insert`). Which
nodes can be reached afterwards is said exactly.
-/

namespace Chain

section
variable {α κ : Type*}

/-- The pointer of `a` leads to `b`. -/
def Edge (next : α → Option α) (a b : α) : Prop := next a = some b

/-- Following the pointers from `a` comes to `b`. -/
abbrev Reach (next : α → Option α) : α → α → Prop := Relation.ReflTransGen (Edge next)

/-- The keys increase along the pointers from `a`. -/
def Ascends [LT κ] (next : α → Option α) (key : α → κ) (a : α) : Prop :=
  ∀ x y, Reach next a x → next x = some y → key x < key y

variable {next : α → Option α} {key : α → κ} {a b c d : α}

theorem rightUnique_edge : Relator.RightUnique (Edge next) := by
  intro x y z hy hz
  exact Option.some.inj (hy.symm.trans hz)

/-- Of two nodes on the way from `a`, one is on the way from the other. -/
theorem Reach.total (hb : Reach next a b) (hc : Reach next a c) : Reach next b c ∨ Reach next c b :=
  Relation.ReflTransGen.total_of_right_unique rightUnique_edge hb hc

/-- What holds of `a` and is kept by every pointer on the way holds of each node on the way. -/
theorem Reach.inv {P : α → Prop} (hstep : ∀ x y, P x → next x = some y → P y) (ha : P a)
    (hb : Reach next a b) : P b := by
  induction hb with
  | refl => exact ha
  | tail _ hedge ih => exact hstep _ _ ih hedge

end

section
variable {α κ : Type*} [LinearOrder κ] {next : α → Option α} {key : α → κ} {a b c d : α}

/-- The chain from a node on the way ascends as well. -/
theorem Ascends.of_reach (h : Ascends next key a) (hb : Reach next a b) : Ascends next key b :=
  fun x y hx hy => h x y (hb.trans hx) hy

/-- A node on the way is the first one or has a greater key. -/
theorem Ascends.eq_or_lt (h : Ascends next key a) (hb : Reach next a b) :
    a = b ∨ key a < key b := by
  induction hb with
  | refl => exact .inl rfl
  | tail hx hedge ih =>
    have hlt := h _ _ hx hedge
    rcases ih with rfl | ih
    · exact .inr hlt
    · exact .inr (ih.trans hlt)

theorem Ascends.le (h : Ascends next key a) (hb : Reach next a b) : key a ≤ key b :=
  (h.eq_or_lt hb).elim (fun heq => (congrArg key heq).le) le_of_lt

/-- A chain holds a key at most once. -/
theorem Ascends.key_inj (h : Ascends next key a) (hb : Reach next a b) (hc : Reach next a c)
    (hkey : key b = key c) : b = c := by
  rcases hb.total hc with hbc | hcb
  · rcases (h.of_reach hb).eq_or_lt hbc with heq | hlt
    · exact heq
    · exact absurd hkey hlt.ne
  · rcases (h.of_reach hc).eq_or_lt hcb with heq | hlt
    · exact heq.symm
    · exact absurd hkey.symm hlt.ne

/-- There is no node of the chain between two neighbours. -/
theorem Ascends.succ_le (h : Ascends next key a) (hb : Reach next a b) (hedge : next b = some c)
    (hd : Reach next a d) (hlt : key b < key d) : key c ≤ key d := by
  rcases hb.total hd with hbd | hdb
  · rcases hbd.cases_head with rfl | ⟨c', hc', hcd⟩
    · exact absurd hlt (lt_irrefl _)
    · obtain rfl : c = c' := Option.some.inj (hedge.symm.trans hc')
      exact (h.of_reach (hb.tail hedge)).le hcd
  · exact absurd ((h.of_reach hd).le hdb) (not_le_of_gt hlt)

/-- A node of the chain has one predecessor in it. -/
theorem Ascends.pred_inj (h : Ascends next key a) (hb : Reach next a b) (hc : Reach next a c)
    (hbd : next b = some d) (hcd : next c = some d) : b = c := by
  refine h.key_inj hb hc (le_antisymm (le_of_not_gt fun hlt => ?_) (le_of_not_gt fun hlt => ?_))
  · exact not_le_of_gt (h b d hb hbd) (h.succ_le hc hcd hb hlt)
  · exact not_le_of_gt (h c d hc hcd) (h.succ_le hb hbd hc hlt)

end

section
variable {α κ : Type*} [DecidableEq α] [LinearOrder κ] {next : α → Option α} {key : α → κ}
  {a p c s n x : α}

/-- The way to a node goes through no node with a greater key. -/
theorem Ascends.reach_update (h : Ascends next key a) {v : Option α} (hx : Reach next a x)
    (hle : key x ≤ key p) : Reach (Function.update next p v) a x := by
  induction hx with
  | refl => exact .refl
  | @tail y z hy hedge ih =>
    have hlt : key y < key p := lt_of_lt_of_le (h y z hy hedge) hle
    refine (ih hlt.le).tail ?_
    rw [Edge, Function.update_of_ne (by rintro rfl; exact lt_irrefl _ hlt)]
    exact hedge

omit [LinearOrder κ] in
/-- A pointer off the way does not matter. -/
theorem reach_update_iff {v : Option α} (hp : ¬ Reach next a p) :
    Reach (Function.update next p v) a x ↔ Reach next a x := by
  constructor <;> intro hx
  · induction hx with
    | refl => exact .refl
    | @tail y z _ hedge ih =>
      rw [Edge, Function.update_of_ne (by rintro rfl; exact hp ih)] at hedge
      exact ih.tail hedge
  · induction hx with
    | refl => exact .refl
    | @tail y z hy hedge ih =>
      refine ih.tail ?_
      rw [Edge, Function.update_of_ne (by rintro rfl; exact hp hy)]
      exact hedge

/-- After a node is skipped, every other node is reached as before, -/
theorem Ascends.reach_skip (h : Ascends next key a) (hp : Reach next a p) (hpc : next p = some c)
    (hcs : next c = some s) (hx : Reach next a x) (hne : x ≠ c) :
    Reach (Function.update next p (some s)) a x := by
  induction hx with
  | refl => exact .refl
  | @tail y z hy hedge ih =>
    by_cases hyp : y = p
    · subst hyp
      exact absurd (Option.some.inj (hedge.symm.trans hpc)) hne
    · by_cases hyc : y = c
      · subst hyc
        obtain rfl : z = s := Option.some.inj (hedge.symm.trans hcs)
        exact (h.reach_update hp le_rfl).tail (Function.update_self ..)
      · refine (ih hyc).tail ?_
        rw [Edge, Function.update_of_ne hyp]
        exact hedge

omit [LinearOrder κ] in
/-- no other node is reached, -/
theorem reach_of_skip (hpc : next p = some c) (hcs : next c = some s)
    (hx : Reach (Function.update next p (some s)) a x) : Reach next a x := by
  induction hx with
  | refl => exact .refl
  | @tail y z _ hedge ih =>
    by_cases hyp : y = p
    · subst hyp
      rw [Edge, Function.update_self] at hedge
      exact (ih.tail hpc).tail (hcs.trans hedge)
    · rw [Edge, Function.update_of_ne hyp] at hedge
      exact ih.tail hedge

/-- and the skipped node is not. -/
theorem Ascends.not_reach_skip (h : Ascends next key a) (hp : Reach next a p)
    (hpc : next p = some c) (hcs : next c = some s) :
    ¬ Reach (Function.update next p (some s)) a c := by
  intro hc
  have hlt : key p < key c := h p c hp hpc
  rcases hc.cases_tail with rfl | ⟨y, hy, hedge⟩
  · exact not_le_of_gt hlt (h.le hp)
  · by_cases hyp : y = p
    · subst hyp
      rw [Edge, Function.update_self] at hedge
      obtain rfl := Option.some.inj hedge
      exact lt_irrefl _ (h s s (hp.tail hpc) hcs)
    · rw [Edge, Function.update_of_ne hyp] at hedge
      exact hyp (h.pred_inj (reach_of_skip hpc hcs hy) hp hedge hpc)

/-- After a node is put in, every node is reached as before, -/
theorem Ascends.reach_insert (h : Ascends next key a) (hp : Reach next a p) (hpc : next p = some c)
    (hnc : next n = some c) (hnp : n ≠ p) (hx : Reach next a x) :
    Reach (Function.update next p (some n)) a x := by
  have hn : Reach (Function.update next p (some n)) a n :=
    (h.reach_update hp le_rfl).tail (Function.update_self ..)
  induction hx with
  | refl => exact .refl
  | @tail y z hy hedge ih =>
    by_cases hyp : y = p
    · subst hyp
      obtain rfl : z = c := Option.some.inj (hedge.symm.trans hpc)
      refine hn.tail ?_
      rw [Edge, Function.update_of_ne hnp]
      exact hnc
    · refine ih.tail ?_
      rw [Edge, Function.update_of_ne hyp]
      exact hedge

/-- and so is the new one, -/
theorem Ascends.reach_inserted (h : Ascends next key a) (hp : Reach next a p) :
    Reach (Function.update next p (some n)) a n :=
  (h.reach_update hp le_rfl).tail (Function.update_self ..)

omit [LinearOrder κ] in
/-- and no other one. -/
theorem reach_of_insert (hp : Reach next a p) (hpc : next p = some c) (hnc : next n = some c)
    (hx : Reach (Function.update next p (some n)) a x) : Reach next a x ∨ x = n := by
  induction hx with
  | refl => exact .inl .refl
  | @tail y z _ hedge ih =>
    by_cases hyp : y = p
    · subst hyp
      rw [Edge, Function.update_self] at hedge
      exact .inr (Option.some.inj hedge).symm
    · rw [Edge, Function.update_of_ne hyp] at hedge
      rcases ih with hy | rfl
      · exact .inl (hy.tail hedge)
      · obtain rfl : c = z := Option.some.inj (hnc.symm.trans hedge)
        exact .inl (hp.tail hpc)

end

end Chain
