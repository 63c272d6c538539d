import JLibScheduler.TaskDeque.Spec

/-!
# The deque refines the abstract deque

The abstract list of a state is what the buffer holds from `top_` up to `State.limit`: the index
`bottom_`, except during a `pop_bottom` that has lowered `bottom_` and has not yet learned from
`top_` whether the item it lowered `bottom_` past is its own. A push takes effect when it stores
`bottom_` (or is refused when it loads `top_`), a steal at its compare-exchange, and a `pop_bottom`
at its second load of `top_` when another item is left, else at its compare-exchange. `Inv` is what
holds at every moment of the calls in progress; with it every step is matched by steps of the
atomic object (`Refines`).
-/

namespace JLibScheduler.TaskDeque

open AtomicObject

section
variable {ι α : Type}

/-- The position after the bottom-most item. -/
def State.limit (s : State ι α) : Nat :=
  match s.owner with
  | .popReloadTop b | .popCas b _ _ | .popWon b _ | .popLost b => b + 1
  | .popRead b t => if t = b then b + 1 else b
  | .popEmpty t => t
  | _ => s.bottom

/-- What the buffer holds at a position. -/
def State.cell (capacity : Nat) (s : State ι α) (i : Nat) : Ptr α :=
  s.buffer (SizeT.slot capacity i)

/-- The items in the deque, the top-most first. -/
def State.contents (capacity : Nat) (s : State ι α) : List (Ptr α) :=
  SizeT.window (s.cell capacity) s.top s.limit

/-- The items of the owner's push call in progress. -/
def OwnerPc.offers : OwnerPc α → Nat
  | .pushLoadBottom _ | .pushLoadTop _ _ | .pushWrite _ _ | .pushStore _ _ => 1
  | .batchLoadBottom items | .batchLoadTop items _ | .batchWrite items _ _ => items.length
  | _ => 0

/-- What the owner's local values say at each place of its calls. -/
def OwnerOk (capacity : Nat) (s : State ι α) : Prop :=
  match s.owner with
  | .idle | .pushLoadBottom _ | .batchLoadBottom _ | .popLoadBottom => True
  | .pushLoadTop _ b | .batchLoadTop _ b | .popLoadTop b => b = s.bottom
  | .pushWrite _ b => b = s.bottom ∧ b + 1 ≤ s.top + capacity
  | .pushStore item b => b = s.bottom ∧ b + 1 ≤ s.top + capacity ∧ s.cell capacity b = item
  | .batchWrite items b i => b = s.bottom ∧ b + items.length ≤ s.top + capacity ∧
      i ≤ items.length ∧ ∀ j (hj : j < items.length), j < i → s.cell capacity (b + j) = items[j]
  | .popStore b => s.bottom = b + 1
  | .popReloadTop b => s.bottom = b
  | .popRead b t => s.bottom = b ∧ t ≤ b ∧ t ≤ s.top
  | .popCas b t item => s.bottom = b ∧ t = b ∧ t ≤ s.top ∧ s.cell capacity b = item
  | .popWon b _ | .popLost b => s.bottom = b ∧ s.top = b + 1
  | .popEmpty t => s.bottom ≤ t ∧ s.top = t

/-- What a thief's local values say: its index is not above `top_`, and if it is `top_` then that
position still holds the item the thief read. -/
def ThiefOk (capacity : Nat) (s : State ι α) : ThiefPc α → Prop
  | .idle | .loadTop => True
  | .loadBottom t => t ≤ s.top
  | .read t => t ≤ s.top ∧ (t = s.top → t < s.limit)
  | .cas t item => t ≤ s.top ∧ (t = s.top → t < s.limit ∧ s.cell capacity t = item)

/-- The invariant of the deque and the calls in progress. -/
structure Inv (capacity : Nat) (s : State ι α) : Prop where
  top_le : s.top ≤ s.limit
  limit_le : s.limit ≤ s.top + capacity
  offered : s.limit + s.owner.offers ≤ s.offered
  bottom_le : s.bottom ≤ s.limit
  owner : OwnerOk capacity s
  thief : ∀ i, ThiefOk capacity s (s.thief i)

/-- Where the owner is, as the atomic object sees it. -/
def ownerStatus (capacity : Nat) (s : State ι α) : Status (Op α) (Res α) :=
  match s.owner with
  | .idle => .idle
  | .pushLoadBottom item | .pushLoadTop item _ | .pushWrite item _ | .pushStore item _ =>
    .pending (.pushBottom item)
  | .batchLoadBottom items | .batchLoadTop items _ | .batchWrite items _ _ =>
    .pending (.pushBottomBatch items)
  | .popLoadBottom | .popLoadTop _ | .popStore _ | .popReloadTop _ | .popCas _ _ _ =>
    .pending .popBottom
  | .popRead b t => if t = b then .pending .popBottom else .done (.taken (some (s.cell capacity b)))
  | .popWon _ item => .done (.taken (some item))
  | .popLost _ | .popEmpty _ => .done (.taken none)

/-- Where a thief is, as the atomic object sees it. -/
def thiefStatus : ThiefPc α → Status (Op α) (Res α)
  | .idle => .idle
  | _ => .pending .steal

/-- Where the callers are, as the atomic object sees them. -/
def statusOf (capacity : Nat) (s : State ι α) : Tid ι → Status (Op α) (Res α)
  | none => ownerStatus capacity s
  | some i => thiefStatus (s.thief i)

/-- The atomic object of a state, with a linearization. -/
def absObj (capacity : Nat) (s : State ι α) (lins : List (Tid ι × Op α × Res α)) :
    Obj (List (Ptr α)) (Tid ι) (Op α) (Res α) :=
  { abs := s.contents capacity, status := statusOf capacity s, hist := s.hist, lins := lins }

/-- A step of the deque keeps the invariant and is matched by steps of the atomic object. -/
def Refines [DecidableEq ι] (capacity : Nat) (s s' : State ι α) : Prop :=
  Inv capacity s' ∧ ∀ lins, ∃ lins', Relation.ReflTransGen (Obj.Step (spec capacity))
    (absObj capacity s lins) (absObj capacity s' lins')

section
variable {capacity : Nat} {s s' : State ι α}

/-! ## Frames -/

theorem ValidCapacity.slot_ne (hcap : ValidCapacity capacity) {i j : Nat} (hij : i < j)
    (hlt : j < i + capacity) : SizeT.slot capacity i ≠ SizeT.slot capacity j := by
  rcases SizeT.eq_zero_or_two_pow hcap.1 hcap.2 with rfl | ⟨k, rfl⟩
  · omega
  · exact SizeT.slot_ne hcap.1 hij hlt

/-- A thief's claim survives a step that leaves `top_` and the item there, and keeps that item in
the deque. -/
theorem ThiefOk.frame {pc : ThiefPc α} (h : ThiefOk capacity s pc) (htop : s'.top = s.top)
    (hlim : s.top < s.limit → s.top < s'.limit)
    (hcell : s.top < s.limit → s'.cell capacity s.top = s.cell capacity s.top) :
    ThiefOk capacity s' pc := by
  cases pc with
  | idle | loadTop => trivial
  | loadBottom t => simpa [ThiefOk, htop] using h
  | read t =>
    refine ⟨htop ▸ h.1, fun ht => ?_⟩
    rw [htop] at ht
    subst ht
    exact hlim (h.2 rfl)
  | cas t item =>
    refine ⟨htop ▸ h.1, fun ht => ?_⟩
    rw [htop] at ht
    subst ht
    have ⟨hlt, hitem⟩ := h.2 rfl
    exact ⟨hlim hlt, (hcell hlt).trans hitem⟩

/-- A thief's claim survives a step that raises `top_`: its index is then too low. -/
theorem ThiefOk.advance {pc : ThiefPc α} (h : ThiefOk capacity s pc) (htop : s.top < s'.top) :
    ThiefOk capacity s' pc := by
  cases pc with
  | idle | loadTop => trivial
  | loadBottom t => exact Nat.le_of_lt (Nat.lt_of_le_of_lt h htop)
  | read t | cas t item =>
    have := h.1
    exact ⟨by omega, fun ht => by omega⟩

/-- A write of the owner above the deque's items leaves every item within the capacity. -/
theorem cell_update (hcap : ValidCapacity capacity) {b i : Nat} {item : Ptr α} {pc : OwnerPc α}
    (hi : i < b) (hb : b < i + capacity) :
    State.cell capacity { s with
      buffer := Function.update s.buffer (SizeT.slot capacity b) item, owner := pc } i =
      s.cell capacity i :=
  Function.update_of_ne (hcap.slot_ne hi hb) _ _

theorem cell_update_self {b : Nat} {item : Ptr α} {pc : OwnerPc α} :
    State.cell capacity { s with
      buffer := Function.update s.buffer (SizeT.slot capacity b) item, owner := pc } b = item :=
  Function.update_self ..

/-- A step of the owner that changes nothing but where it stands, and keeps its items. -/
theorem Inv.setOwner (h : Inv capacity s) {pc : OwnerPc α}
    (hlim : State.limit { s with owner := pc } = s.limit)
    (hoff : s.limit + pc.offers ≤ s.offered)
    (hok : OwnerOk capacity { s with owner := pc }) : Inv capacity { s with owner := pc } where
  top_le := by rw [hlim]; exact h.top_le
  limit_le := by rw [hlim]; exact h.limit_le
  offered := by rw [hlim]; exact hoff
  bottom_le := by rw [hlim]; exact h.bottom_le
  owner := hok
  thief i := (h.thief i).frame rfl (fun hlt => hlim ▸ hlt) fun _ => rfl

/-- The invariant when the owner leaves a call with `bottom_` at `b`. -/
theorem Inv.ownerReturn (h : Inv capacity s) {b : Nat} {r : Res α} (hb : s.limit ≤ b)
    (hcap : b ≤ s.top + capacity) (hoff : b ≤ s.offered) :
    Inv capacity (State.ownerReturn { s with bottom := b } r) where
  top_le := Nat.le_trans h.top_le hb
  limit_le := hcap
  offered := hoff
  bottom_le := Nat.le_refl _
  owner := trivial
  thief i := (h.thief i).frame rfl (fun hlt => Nat.lt_of_lt_of_le hlt hb) fun _ => rfl

variable [DecidableEq ι]

/-! ## Matching a step of one caller -/

theorem statusOf_owner (h : s'.thief = s.thief) :
    statusOf capacity s' =
      Function.update (statusOf capacity s) none (ownerStatus capacity s') := by
  funext t
  cases t with
  | none => simp [statusOf]
  | some i => simp [statusOf, h]

theorem statusOf_thief {i : ι} {p : ThiefPc α}
    (ho : ownerStatus capacity s' = ownerStatus capacity s)
    (h : s'.thief = Function.update s.thief i p) :
    statusOf capacity s' = Function.update (statusOf capacity s) (some i) (thiefStatus p) := by
  funext t
  cases t with
  | none => simp [statusOf, ho]
  | some j =>
    by_cases hj : j = i
    · subst hj; simp [statusOf, h]
    · simp [statusOf, h, hj]

/-- A step that the callers cannot see. -/
theorem Refines.silent (hinv : Inv capacity s') (hc : s'.contents capacity = s.contents capacity)
    (hst : statusOf capacity s' = statusOf capacity s) (hh : s'.hist = s.hist) :
    Refines capacity s s' := by
  refine ⟨hinv, fun lins => ⟨lins, ?_⟩⟩
  rw [absObj, absObj, hc, hst, hh]

/-- A silent step of the owner. -/
theorem Refines.silent_owner (hinv : Inv capacity s')
    (hc : s'.contents capacity = s.contents capacity) (ht : s'.thief = s.thief)
    (ho : ownerStatus capacity s' = ownerStatus capacity s) (hh : s'.hist = s.hist) :
    Refines capacity s s' := by
  refine .silent hinv hc ?_ hh
  rw [statusOf_owner ht, ho]
  exact Function.update_eq_self none (statusOf capacity s)

/-- A step in which caller `t` enters `op`. -/
theorem Refines.inv {t : Tid ι} {o : Op α} (hinv : Inv capacity s')
    (hc : s'.contents capacity = s.contents capacity) (h : statusOf capacity s t = .idle)
    (hst : statusOf capacity s' = Function.update (statusOf capacity s) t (.pending o))
    (hh : s'.hist = .inv t o :: s.hist) : Refines capacity s s' :=
  ⟨hinv, fun lins => ⟨lins, Obj.steps_inv h hc hst hh rfl⟩⟩

/-- A step at which a call takes effect. -/
theorem Refines.lin {t : Tid ι} {op : Op α} {r : Res α} (hinv : Inv capacity s')
    (h : statusOf capacity s t = .pending op)
    (hc : Apply capacity op (s.contents capacity) r (s'.contents capacity))
    (hst : statusOf capacity s' = Function.update (statusOf capacity s) t (.done r))
    (hh : s'.hist = s.hist) : Refines capacity s s' :=
  ⟨hinv, fun lins => ⟨(t, op, r) :: lins, Obj.steps_lin h hc hst hh rfl⟩⟩

/-- A step at which a call returns that has taken effect before. -/
theorem Refines.res {t : Tid ι} {r : Res α} (hinv : Inv capacity s')
    (h : statusOf capacity s t = .done r) (hc : s'.contents capacity = s.contents capacity)
    (hst : statusOf capacity s' = Function.update (statusOf capacity s) t .idle)
    (hh : s'.hist = .res t r :: s.hist) : Refines capacity s s' :=
  ⟨hinv, fun lins => ⟨lins, Obj.steps_res h hc hst hh rfl⟩⟩

/-- A step at which a call takes effect and returns. -/
theorem Refines.lin_res {t : Tid ι} {o : Op α} {r : Res α} (hinv : Inv capacity s')
    (h : statusOf capacity s t = .pending o)
    (hc : Apply capacity o (s.contents capacity) r (s'.contents capacity))
    (hst : statusOf capacity s' = Function.update (statusOf capacity s) t .idle)
    (hh : s'.hist = .res t r :: s.hist) : Refines capacity s s' :=
  ⟨hinv, fun lins => ⟨(t, o, r) :: lins, Obj.steps_lin_res h hc hst hh rfl⟩⟩

/-! ## The owner's steps -/

/-- Moving the owner to another place of the same call, before the call takes effect. -/
theorem Refines.setOwner (h : Inv capacity s) {pc : OwnerPc α}
    (hlim : State.limit { s with owner := pc } = s.limit)
    (hoff : s.limit + pc.offers ≤ s.offered)
    (hok : OwnerOk capacity { s with owner := pc })
    (hst : ownerStatus capacity { s with owner := pc } = ownerStatus capacity s) :
    Refines capacity s { s with owner := pc } := by
  refine .silent_owner (h.setOwner hlim hoff hok) ?_ rfl hst rfl
  rw [State.contents, State.contents, hlim]
  rfl

/-- Leaving a call that has taken effect. -/
theorem Refines.ownerReturn (h : Inv capacity s) {b : Nat} {r : Res α} (hb : s.limit = b)
    (hst : ownerStatus capacity s = .done r) :
    Refines capacity s (State.ownerReturn { s with bottom := b } r) := by
  have := h.offered
  refine .res (t := none) (h.ownerReturn hb.le (hb ▸ h.limit_le) (by omega)) hst ?_
    (statusOf_owner rfl) rfl
  rw [State.contents, State.contents, hb]
  rfl

/-- A push that finds too many items is refused. -/
theorem Refines.refuse (h : Inv capacity s) {o : Op α} {l : List (Ptr α)}
    (hst : ownerStatus capacity s = .pending o) (hop : o.items = some l)
    (hlim : s.limit = s.bottom) (hfull : s.top + capacity < s.limit + l.length) :
    Refines capacity s (s.ownerReturn (.pushed false)) := by
  have h₁ := h.offered
  have h₂ := h.limit_le
  have h₃ := h.top_le
  have hinv := h.ownerReturn (r := .pushed false) hlim.le (hlim ▸ h₂) (by omega)
  refine .lin_res (t := none) hinv hst ?_ (statusOf_owner rfl) rfl
  have hc : State.contents capacity (s.ownerReturn (.pushed false)) = s.contents capacity := by
    rw [State.contents, State.contents, hlim]
    rfl
  rw [hc]
  refine .refuse hop ?_
  rw [State.contents, SizeT.length_window]
  omega

/-- A push that has written its items takes effect when it stores `bottom_`. -/
theorem Refines.accept (h : Inv capacity s) {o : Op α} {l : List (Ptr α)}
    (hst : ownerStatus capacity s = .pending o) (hop : o.items = some l)
    (hlim : s.limit = s.bottom) (hroom : s.bottom + l.length ≤ s.top + capacity)
    (hoff : s.bottom + l.length ≤ s.offered)
    (hxs : ∀ j (hj : j < l.length), s.cell capacity (s.bottom + j) = l[j]) :
    Refines capacity s
      (State.ownerReturn { s with bottom := s.bottom + l.length } (.pushed true)) := by
  have htop := h.top_le
  rw [hlim] at htop
  have hinv := h.ownerReturn (r := .pushed true) (by omega) hroom hoff
  refine .lin_res (t := none) hinv hst ?_ (statusOf_owner rfl) rfl
  have hc : State.contents capacity
      (State.ownerReturn { s with bottom := s.bottom + l.length } (.pushed true)) =
        s.contents capacity ++ l := by
    rw [State.contents, State.contents, hlim]
    refine (SizeT.window_append htop (Nat.le_add_right _ l.length)).trans ?_
    exact congrArg (SizeT.window (s.cell capacity) s.top s.bottom ++ ·)
      (SizeT.window_eq_of_getElem hxs)
  rw [hc]
  refine .accept hop ?_
  rw [State.contents, SizeT.length_window]
  omega

/-- The owner's write of an item above the deque. -/
theorem Refines.write (hcap : ValidCapacity capacity) (h : Inv capacity s) {b : Nat}
    {item : Ptr α} {pc : OwnerPc α} (hlim : s.limit ≤ b) (hb : b < s.top + capacity)
    (hlim' : State.limit { s with
      buffer := Function.update s.buffer (SizeT.slot capacity b) item, owner := pc } = s.limit)
    (hoff : s.limit + pc.offers ≤ s.offered)
    (hok : OwnerOk capacity { s with
      buffer := Function.update s.buffer (SizeT.slot capacity b) item, owner := pc })
    (hst : ownerStatus capacity { s with
      buffer := Function.update s.buffer (SizeT.slot capacity b) item, owner := pc } =
        ownerStatus capacity s) :
    Refines capacity s { s with
      buffer := Function.update s.buffer (SizeT.slot capacity b) item, owner := pc } := by
  have hcell : ∀ i, s.top ≤ i → i < s.limit → State.cell capacity { s with
      buffer := Function.update s.buffer (SizeT.slot capacity b) item, owner := pc } i =
        s.cell capacity i := fun i h₁ h₂ => cell_update hcap (by omega) (by omega)
  refine .silent_owner ⟨?_, ?_, ?_, ?_, hok, fun i => ?_⟩ ?_ rfl hst rfl
  · rw [hlim']; exact h.top_le
  · rw [hlim']; exact h.limit_le
  · rw [hlim']; exact hoff
  · rw [hlim']; exact h.bottom_le
  · exact (h.thief i).frame rfl (fun hlt => hlim' ▸ hlt) fun hlt => hcell _ (Nat.le_refl _) hlt
  · rw [State.contents, State.contents, hlim']
    exact SizeT.window_congr hcell

/-- `pop_bottom` after it lowered `bottom_`: the second load of `top_` decides, unless only the
last item is left. -/
theorem Refines.popReloadTop (h : Inv capacity s) {b : Nat} (hpc : s.owner = .popReloadTop b) :
    Refines capacity s (if s.top ≤ b then { s with owner := .popRead b s.top }
      else { s with owner := .popEmpty s.top }) := by
  have hst : ownerStatus capacity s = .pending .popBottom := by rw [ownerStatus, hpc]
  have hlim : s.limit = b + 1 := by rw [State.limit, hpc]
  have hown : s.bottom = b := by have := h.owner; rwa [OwnerOk, hpc] at this
  have htop := h.top_le
  have hle := h.limit_le
  have hoff := h.offered
  rw [hlim] at htop hle hoff
  rcases Nat.lt_trichotomy s.top b with hlt | heq | hgt
  · -- another item is left, so the item at `b` is the owner's
    rw [if_pos hlt.le]
    have hlim' : State.limit { s with owner := .popRead b s.top } = b := by
      simp [State.limit, hlt.ne]
    have hst' : ownerStatus capacity { s with owner := .popRead b s.top } =
        .done (.taken (some (s.cell capacity b))) := by
      simp only [ownerStatus, if_neg hlt.ne]
      rfl
    refine .lin (t := none) (r := .taken (some (s.cell capacity b)))
      ⟨?_, ?_, ?_, ?_, ⟨hown, hlt.le, Nat.le_refl _⟩, fun i => ?_⟩ hst ?_
      (hst' ▸ statusOf_owner rfl) rfl
    · rw [hlim']; exact hlt.le
    · rw [hlim']; exact Nat.le_of_succ_le hle
    · rw [hlim']; simp only [OwnerPc.offers]; omega
    · rw [hlim']; exact hown.le
    · exact (h.thief i).frame rfl (fun _ => by rw [hlim']; exact hlt) fun _ => rfl
    · have hc : s.contents capacity =
          State.contents capacity { s with owner := .popRead b s.top } ++ [s.cell capacity b] := by
        rw [State.contents, State.contents, hlim, hlim']
        exact SizeT.window_snoc hlt.le
      rw [hc]
      exact .pop
  · -- the last item is still to be raced for
    rw [if_pos heq.le]
    have hlim' : State.limit { s with owner := .popRead b s.top } = s.limit := by
      simp [State.limit, hpc, heq]
    refine .setOwner h hlim' (by simp only [hlim, OwnerPc.offers]; omega)
      ⟨hown, heq.le, Nat.le_refl _⟩ ?_
    rw [hst]
    simp [ownerStatus, heq]
  · rw [if_neg (by omega)]
    have hlim' : State.limit { s with owner := .popEmpty s.top } = s.top := rfl
    have hempty : s.contents capacity = [] := SizeT.window_of_ge (by omega)
    have hempty' : State.contents capacity { s with owner := .popEmpty s.top } = [] :=
      SizeT.window_of_ge (Nat.le_refl _)
    refine .lin (t := none) (r := .taken none)
      ⟨Nat.le_refl _, Nat.le_add_right _ _, ?_, ?_, ⟨by simp only; omega, rfl⟩, fun i => ?_⟩ hst ?_
      (statusOf_owner rfl) rfl
    · rw [hlim']; simp only [OwnerPc.offers]; omega
    · rw [hlim']; simp only; omega
    · exact (h.thief i).frame rfl (fun hlt => by omega) fun _ => rfl
    · rw [hempty, hempty']
      exact .popEmpty

/-- `pop_bottom` races the thieves for the last item. -/
theorem Refines.popCas (h : Inv capacity s) (hoff : s.offered < 2 ^ 64) {b t : Nat} {item : Ptr α}
    (hpc : s.owner = .popCas b t item) :
    Refines capacity s (if s.top = t then
        { s with top := SizeT.add t 1, owner := .popWon b item }
      else { s with owner := .popLost b }) := by
  have hst : ownerStatus capacity s = .pending .popBottom := by rw [ownerStatus, hpc]
  have hlim : s.limit = b + 1 := by rw [State.limit, hpc]
  have hown := h.owner
  rw [OwnerOk, hpc] at hown
  obtain ⟨hbot, rfl, hge, hitem⟩ := hown
  have htop := h.top_le
  have hle := h.limit_le
  have hoff' := h.offered
  rw [hlim] at htop hle hoff'
  split
  · next heq =>
    rw [SizeT.add_of_lt (by omega)]
    refine .lin (t := none) (r := .taken (some item))
      ⟨Nat.le_refl _, Nat.le_add_right _ _, ?_, ?_, ⟨hbot, rfl⟩, fun i => ?_⟩ hst ?_
      (statusOf_owner rfl) rfl
    · simp only [State.limit, OwnerPc.offers]; omega
    · simp only [State.limit]; omega
    · exact (h.thief i).advance (by simp only; omega)
    · have hc : s.contents capacity = [item] := by
        rw [State.contents, hlim, heq, SizeT.window_cons (Nat.lt_succ_self _), hitem,
          SizeT.window_of_ge (Nat.le_refl _)]
      have hc' : State.contents capacity { s with top := t + 1, owner := .popWon t item } = [] :=
        SizeT.window_of_ge (Nat.le_refl _)
      rw [hc, hc']
      exact .pop (l := [])
  · next hne =>
    -- a thief has taken the last item
    have htop' : s.top = t + 1 := by omega
    have hempty : s.contents capacity = [] := SizeT.window_of_ge (by omega)
    have hempty' : State.contents capacity { s with owner := .popLost t } = [] :=
      SizeT.window_of_ge htop'.ge
    refine .lin (t := none) (r := .taken none)
      ⟨htop'.le, ?_, ?_, ?_, ⟨hbot, htop'⟩, fun i => ?_⟩ hst ?_ (statusOf_owner rfl) rfl
    · simp only [State.limit]; omega
    · simp only [State.limit, OwnerPc.offers]; omega
    · simp only [State.limit]; omega
    · exact (h.thief i).frame rfl (fun hlt => by omega) fun _ => rfl
    · rw [hempty, hempty']
      exact .popEmpty

/-- Every access of the owner is matched by the atomic object. -/
theorem Refines.ownerStep (hcap : ValidCapacity capacity) (h : Inv capacity s)
    (hoff : s.offered < 2 ^ 64) (hstep : ownerStep capacity s = some s') :
    Refines capacity s s' := by
  have htop := h.top_le
  have hle := h.limit_le
  have hoff' := h.offered
  have hown := h.owner
  cases hpc : s.owner with
  | idle => simp [TaskDeque.ownerStep, hpc] at hstep
  | pushLoadBottom item | batchLoadBottom items | popLoadBottom =>
    simp only [TaskDeque.ownerStep, hpc, Option.some.injEq] at hstep
    subst hstep
    refine .setOwner h (by simp [State.limit, hpc]) ?_ rfl (by simp [ownerStatus, hpc])
    simpa [hpc, OwnerPc.offers] using hoff'
  | pushLoadTop item b =>
    simp only [TaskDeque.ownerStep, hpc] at hstep
    have hlim : s.limit = s.bottom := by simp [State.limit, hpc]
    simp only [OwnerOk, hpc] at hown
    simp only [hpc, OwnerPc.offers] at hoff'
    subst hown
    rw [SizeT.sub_of_le (hlim ▸ htop) (by omega)] at hstep
    split at hstep
    · cases hstep
      exact .refuse (o := .pushBottom item) (l := [item]) h (by simp [ownerStatus, hpc]) rfl hlim
        (by simp only [List.length_singleton]; omega)
    · cases hstep
      refine .setOwner h (by simp [State.limit, hpc]) hoff' ⟨rfl, by simp only; omega⟩ ?_
      simp [ownerStatus, hpc]
  | pushWrite item b =>
    simp only [TaskDeque.ownerStep, hpc, Option.some.injEq] at hstep
    subst hstep
    have hlim : s.limit = s.bottom := by simp [State.limit, hpc]
    simp only [OwnerOk, hpc] at hown
    simp only [hpc, OwnerPc.offers] at hoff'
    obtain ⟨rfl, hroom⟩ := hown
    refine .write hcap h hlim.le (by omega) (by simp [State.limit, hpc]) hoff'
      ⟨rfl, hroom, cell_update_self⟩ ?_
    simp [ownerStatus, hpc]
  | pushStore item b =>
    simp only [TaskDeque.ownerStep, hpc, Option.some.injEq] at hstep
    subst hstep
    have hlim : s.limit = s.bottom := by simp [State.limit, hpc]
    simp only [OwnerOk, hpc] at hown
    simp only [hpc, OwnerPc.offers] at hoff'
    obtain ⟨rfl, hroom, hcell⟩ := hown
    rw [SizeT.add_of_lt (by omega)]
    refine .accept (o := .pushBottom item) (l := [item]) h (by simp [ownerStatus, hpc]) rfl hlim
      hroom
      (by simp only [List.length_singleton]; omega) fun j hj => ?_
    obtain rfl : j = 0 := by simpa using hj
    exact hcell
  | batchLoadTop items b =>
    simp only [TaskDeque.ownerStep, hpc] at hstep
    have hlim : s.limit = s.bottom := by simp [State.limit, hpc]
    simp only [OwnerOk, hpc] at hown
    simp only [hpc, OwnerPc.offers] at hoff'
    subst hown
    rw [SizeT.add_of_lt (by omega), SizeT.sub_of_le (by omega) (by omega)] at hstep
    split at hstep
    · cases hstep
      exact .refuse (o := .pushBottomBatch items) (l := items) h (by simp [ownerStatus, hpc]) rfl
        hlim (by omega)
    · cases hstep
      refine .setOwner h (by simp [State.limit, hpc]) hoff'
        ⟨rfl, by simp only; omega, Nat.zero_le _, fun j _ hj => absurd hj (Nat.not_lt_zero j)⟩ ?_
      simp [ownerStatus, hpc]
  | batchWrite items b i =>
    simp only [TaskDeque.ownerStep, hpc] at hstep
    have hlim : s.limit = s.bottom := by simp [State.limit, hpc]
    simp only [OwnerOk, hpc] at hown
    simp only [hpc, OwnerPc.offers] at hoff'
    obtain ⟨rfl, hroom, hi, hcells⟩ := hown
    cases hitem : items[i]? with
    | none =>
      simp only [hitem, Option.some.injEq] at hstep
      subst hstep
      rw [List.getElem?_eq_none_iff] at hitem
      rw [SizeT.add_of_lt (by omega)]
      exact .accept (o := .pushBottomBatch items) h (by simp [ownerStatus, hpc]) rfl hlim hroom
        (by omega) fun j hj => hcells j hj (by omega)
    | some item =>
      simp only [hitem, Option.some.injEq] at hstep
      subst hstep
      obtain ⟨hlt, hitem⟩ := List.getElem?_eq_some_iff.1 hitem
      rw [SizeT.add_of_lt (by omega)]
      refine .write hcap h (by omega) (by omega) (by simp [State.limit, hpc]) hoff'
        ⟨rfl, hroom, hlt, fun j hj hji => ?_⟩ (by simp [ownerStatus, hpc])
      rcases Nat.lt_succ_iff_lt_or_eq.1 hji with hji | rfl
      · exact (cell_update hcap (by omega) (by omega)).trans (hcells j hj hji)
      · exact cell_update_self.trans hitem.symm
  | popLoadTop b =>
    simp only [TaskDeque.ownerStep, hpc] at hstep
    have hlim : s.limit = s.bottom := by simp [State.limit, hpc]
    simp only [OwnerOk, hpc] at hown
    simp only [hpc, OwnerPc.offers] at hoff'
    subst hown
    split at hstep
    · next hge =>
      cases hstep
      have hempty : s.contents capacity = [] := SizeT.window_of_ge (by omega)
      have hempty' : State.contents capacity (s.ownerReturn (.taken none)) = [] :=
        SizeT.window_of_ge hge
      refine .lin_res (t := none) (o := .popBottom)
        (h.ownerReturn (r := .taken none) hlim.le (by omega) (by omega)) ?_ ?_
        (statusOf_owner rfl) rfl
      · simp [statusOf, ownerStatus, hpc]
      · rw [hempty, hempty']
        exact .popEmpty
    · next hlt =>
      cases hstep
      rw [SizeT.sub_of_le (by omega) (by omega)]
      refine .setOwner h (by simp [State.limit, hpc]) (by simpa [OwnerPc.offers] using hoff') ?_ ?_
      · simp only [OwnerOk]; omega
      · simp [ownerStatus, hpc]
  | popStore b =>
    simp only [TaskDeque.ownerStep, hpc, Option.some.injEq] at hstep
    subst hstep
    have hlim : s.limit = b + 1 := by simpa [State.limit, OwnerOk, hpc] using hown
    have hlim' : State.limit { s with bottom := b, owner := .popReloadTop b } = s.limit := hlim.symm
    simp only [hpc, OwnerPc.offers] at hoff'
    refine .silent_owner ⟨?_, ?_, ?_, ?_, rfl, fun i => ?_⟩ ?_ rfl (by simp [ownerStatus, hpc]) rfl
    · rw [hlim']; exact htop
    · rw [hlim']; exact hle
    · rw [hlim']; exact hoff'
    · rw [hlim', hlim]; exact Nat.le_succ b
    · exact (h.thief i).frame rfl (fun hlt => by rw [hlim']; exact hlt) fun _ => rfl
    · rw [State.contents, State.contents, hlim']
      rfl
  | popReloadTop b =>
    have := Refines.popReloadTop h hpc
    simp only [TaskDeque.ownerStep, hpc, ← apply_ite some, Option.some.injEq] at hstep
    rwa [← hstep]
  | popRead b t =>
    simp only [TaskDeque.ownerStep, hpc] at hstep
    simp only [OwnerOk, hpc] at hown
    split at hstep
    · next heq =>
      cases hstep
      subst heq
      refine .setOwner h (by simp [State.limit, hpc])
        (by simpa [hpc, OwnerPc.offers] using hoff') ⟨hown.1, rfl, hown.2.2, rfl⟩ ?_
      simp [ownerStatus, hpc]
    · next hne =>
      cases hstep
      have hlim : s.limit = s.bottom := by simp [State.limit, hpc, hne, hown.1]
      refine Refines.ownerReturn (b := s.bottom) h hlim ?_
      simp only [ownerStatus, hpc, if_neg hne]
      rfl
  | popCas b t item =>
    have := Refines.popCas h hoff hpc
    simp only [TaskDeque.ownerStep, hpc, ← apply_ite some, Option.some.injEq] at hstep
    rwa [← hstep]
  | popWon b item | popLost b =>
    simp only [TaskDeque.ownerStep, hpc, Option.some.injEq] at hstep
    subst hstep
    have hlim : s.limit = b + 1 := by simp [State.limit, hpc]
    rw [SizeT.add_of_lt (by omega)]
    exact .ownerReturn h hlim (by simp [ownerStatus, hpc])
  | popEmpty t =>
    simp only [TaskDeque.ownerStep, hpc, Option.some.injEq] at hstep
    subst hstep
    exact .ownerReturn h (by simp [State.limit, hpc]) (by simp [ownerStatus, hpc])

/-- The owner's entry into a call with items that are not null. -/
theorem Refines.ownerCall (h : Inv capacity s) {op : Op α} (hop : op.NonNull)
    (hstep : ownerCall s op = some s') : Refines capacity s s' := by
  have hoff := h.offered
  cases hpc : s.owner with
  | idle =>
    have hlim : s.limit = s.bottom := by simp [State.limit, hpc]
    simp only [hpc, OwnerPc.offers] at hoff
    have key : ∀ pc : OwnerPc α,
        State.limit { s with hist := .inv none op :: s.hist, offered := s.offered + op.size
                             owner := pc } = s.limit →
        pc.offers = op.size →
        OwnerOk capacity { s with hist := .inv none op :: s.hist, offered := s.offered + op.size
                                  owner := pc } →
        ownerStatus capacity { s with hist := .inv none op :: s.hist
                                      offered := s.offered + op.size, owner := pc } =
          .pending op →
        Refines capacity s { s with hist := .inv none op :: s.hist, offered := s.offered + op.size
                                    owner := pc } := by
      intro pc hl hsize hok hst
      refine .inv (t := none) (o := op) ⟨?_, ?_, ?_, ?_, hok, fun i => ?_⟩ ?_ ?_
        (hst ▸ statusOf_owner rfl) rfl
      · rw [hl]; exact h.top_le
      · rw [hl]; exact h.limit_le
      · rw [hl, hsize]; exact Nat.add_le_add_right hoff _
      · rw [hl]; exact h.bottom_le
      · exact (h.thief i).frame rfl (fun hlt => by rw [hl]; exact hlt) fun _ => rfl
      · rw [State.contents, State.contents, hl]
        rfl
      · simp [statusOf, ownerStatus, hpc]
    cases op with
    | pushBottom item =>
      cases item with
      | none => exact absurd rfl hop
      | some x =>
        simp only [TaskDeque.ownerCall, hpc, Option.some.injEq] at hstep
        subst hstep
        exact key _ hlim.symm rfl trivial rfl
    | pushBottomBatch items | popBottom =>
      simp only [TaskDeque.ownerCall, hpc, Option.some.injEq] at hstep
      subst hstep
      exact key _ hlim.symm rfl trivial rfl
    | steal => simp [TaskDeque.ownerCall, hpc] at hstep
  | _ => simp [TaskDeque.ownerCall, hpc] at hstep

/-! ## The thieves' steps -/

omit [DecidableEq ι] in
/-- The owner's local values stay right when a thief raises `top_` at a position of the deque. -/
theorem OwnerOk.advance (h : OwnerOk capacity s) {th : ι → ThiefPc α}
    {hs : List (Event (Tid ι) (Op α) (Res α))} (hlt : s.top < s.limit) :
    OwnerOk capacity { s with top := s.top + 1, thief := th, hist := hs } := by
  cases hpc : s.owner with
  | pushWrite item b =>
    simp only [OwnerOk, hpc] at h ⊢
    exact ⟨h.1, by omega⟩
  | pushStore item b =>
    simp only [OwnerOk, hpc] at h ⊢
    exact ⟨h.1, by omega, h.2.2⟩
  | batchWrite items b i =>
    simp only [OwnerOk, hpc] at h ⊢
    exact ⟨h.1, by omega, h.2.2⟩
  | popRead b t =>
    simp only [OwnerOk, hpc] at h ⊢
    exact ⟨h.1, h.2.1, by omega⟩
  | popCas b t item =>
    simp only [OwnerOk, hpc] at h ⊢
    exact ⟨h.1, h.2.1, by omega, h.2.2.2⟩
  | popWon b item | popLost b | popEmpty t =>
    simp only [OwnerOk, State.limit, hpc] at h hlt
    omega
  | idle | pushLoadBottom | batchLoadBottom | popLoadBottom => simp only [OwnerOk]
  | _ => simpa only [OwnerOk, hpc] using h

/-- A step of thief `i` that changes nothing but where the thief stands. -/
theorem Inv.setThief (h : Inv capacity s) {i : ι} {pc : ThiefPc α}
    {hs : List (Event (Tid ι) (Op α) (Res α))} (hok : ThiefOk capacity s pc) :
    Inv capacity { s with thief := Function.update s.thief i pc, hist := hs } where
  top_le := h.top_le
  limit_le := h.limit_le
  offered := h.offered
  bottom_le := h.bottom_le
  owner := h.owner
  thief j := by
    change ThiefOk capacity _ (Function.update s.thief i pc j)
    by_cases hj : j = i
    · subst hj
      rw [Function.update_self]
      exact hok.frame rfl id fun _ => rfl
    · rw [Function.update_of_ne hj]
      exact (h.thief j).frame rfl id fun _ => rfl

/-- A steal that gives up. -/
theorem Refines.thiefNone (h : Inv capacity s) {i : ι} (hpc : s.thief i ≠ .idle) :
    Refines capacity s (s.thiefReturn i none) := by
  refine .lin_res (t := some i) (o := .steal) (r := .taken none) (h.setThief trivial) ?_
    .stealNone (statusOf_thief (s := s) (p := .idle) rfl rfl) rfl
  cases hi : s.thief i with
  | idle => exact absurd hi hpc
  | _ => simp [statusOf, thiefStatus, hi]

/-- A compare-exchange of a thief that succeeds: it takes the top-most item. -/
theorem Refines.thiefTake (h : Inv capacity s) {i : ι} {item : Ptr α}
    (hpc : s.thief i = .cas s.top item) :
    Refines capacity s (State.thiefReturn { s with top := s.top + 1 } i (some item)) := by
  have hok := h.thief i
  rw [hpc] at hok
  obtain ⟨hlt, hitem⟩ := hok.2 rfl
  have hle := h.limit_le
  refine .lin_res (t := some i) (o := .steal) (r := .taken (some item))
    ⟨hlt, ?_, h.offered, h.bottom_le, h.owner.advance hlt, fun j => ?_⟩ ?_ ?_
    (statusOf_thief (s := s) (p := .idle) rfl rfl) rfl
  · exact Nat.le_trans hle (by simp only [State.thiefReturn]; omega)
  · by_cases hj : j = i
    · subst hj
      simp [State.thiefReturn, ThiefOk]
    · simp only [State.thiefReturn, Function.update_of_ne hj]
      exact (h.thief j).advance (Nat.lt_succ_self _)
  · simp [statusOf, thiefStatus, hpc]
  · have hc : s.contents capacity = item ::
        State.contents capacity (State.thiefReturn { s with top := s.top + 1 } i (some item)) := by
      rw [State.contents, SizeT.window_cons hlt, hitem]
      rfl
    rw [hc]
    exact .steal

/-- Every access of a thief is matched by the atomic object. -/
theorem Refines.thiefStep (h : Inv capacity s) (hoff : s.offered < 2 ^ 64) {i : ι}
    (hstep : thiefStep capacity s i = some s') : Refines capacity s s' := by
  have hok := h.thief i
  -- a move of the thief inside `steal` is silent
  have key : ∀ pc : ThiefPc α, ThiefOk capacity s pc → thiefStatus pc = thiefStatus (s.thief i) →
      Refines capacity s { s with thief := Function.update s.thief i pc } := by
    intro pc hpc hst
    refine .silent (h.setThief hpc) rfl ?_ rfl
    have hst' : statusOf capacity { s with thief := Function.update s.thief i pc } =
        Function.update (statusOf capacity s) (some i) (thiefStatus pc) := statusOf_thief rfl rfl
    rw [hst', hst]
    exact Function.update_eq_self (some i) (statusOf capacity s)
  cases hpc : s.thief i with
  | idle => simp [TaskDeque.thiefStep, hpc] at hstep
  | loadTop =>
    simp only [TaskDeque.thiefStep, hpc, Option.some.injEq] at hstep
    subst hstep
    exact key _ (Nat.le_refl _) (by rw [hpc]; rfl)
  | loadBottom t =>
    simp only [TaskDeque.thiefStep, hpc] at hstep
    rw [hpc] at hok
    split at hstep
    · next hlt =>
      cases hstep
      exact key _ ⟨hok, fun _ => Nat.lt_of_lt_of_le hlt h.bottom_le⟩ (by rw [hpc]; rfl)
    · cases hstep
      exact .thiefNone h (by rw [hpc]; exact nofun)
  | read t =>
    simp only [TaskDeque.thiefStep, hpc, Option.some.injEq] at hstep
    subst hstep
    rw [hpc] at hok
    exact key _ ⟨hok.1, fun ht => ⟨hok.2 ht, rfl⟩⟩ (by rw [hpc]; rfl)
  | cas t item =>
    simp only [TaskDeque.thiefStep, hpc] at hstep
    split at hstep
    · next heq =>
      cases hstep
      subst heq
      have hoff' := h.offered
      rw [hpc] at hok
      have hlt := (hok.2 rfl).1
      rw [SizeT.add_of_lt (by omega)]
      exact .thiefTake h hpc
    · cases hstep
      exact .thiefNone h (by rw [hpc]; exact nofun)

/-- A thief's entry into `steal`. -/
theorem Refines.thiefCall (h : Inv capacity s) {i : ι} (hstep : thiefCall s i = some s') :
    Refines capacity s s' := by
  cases hpc : s.thief i with
  | idle =>
    simp only [TaskDeque.thiefCall, hpc, Option.some.injEq] at hstep
    subst hstep
    refine .inv (t := some i) (o := .steal) (h.setThief trivial) rfl ?_
      (statusOf_thief (s := s) (p := .loadTop) rfl rfl) rfl
    simp [statusOf, thiefStatus, hpc]
  | _ => simp [TaskDeque.thiefCall, hpc] at hstep

/-! ## Runs -/

/-- Every step of the deque is matched by the atomic object. -/
theorem Refines.step (hcap : ValidCapacity capacity) (h : Inv capacity s)
    (hoff : s.offered < 2 ^ 64) {a : Act ι α} (ha : a.NonNull)
    (hstep : step capacity s a = some s') : Refines capacity s s' := by
  cases a with
  | call op => exact .ownerCall h ha hstep
  | owner => exact .ownerStep hcap h hoff hstep
  | callSteal i => exact .thiefCall h hstep
  | thief i => exact .thiefStep h hoff hstep

/-- The number of items offered never decreases. -/
theorem offered_le {a : Act ι α} (hstep : step capacity s a = some s') :
    s.offered ≤ s'.offered := by
  cases a with
  | call op =>
    simp only [TaskDeque.step, TaskDeque.ownerCall] at hstep
    split at hstep <;> cases hstep <;> exact Nat.le_add_right _ _
  | owner =>
    simp only [TaskDeque.step, TaskDeque.ownerStep] at hstep
    split at hstep <;> try split at hstep
    all_goals first | cases hstep; exact Nat.le_refl _ | cases hstep
  | callSteal i =>
    simp only [TaskDeque.step, TaskDeque.thiefCall] at hstep
    split at hstep
    · cases hstep; exact Nat.le_refl _
    · cases hstep
  | thief i =>
    simp only [TaskDeque.step, TaskDeque.thiefStep] at hstep
    split at hstep <;> try split at hstep
    all_goals first | cases hstep; exact Nat.le_refl _ | cases hstep

omit [DecidableEq ι] in
theorem Inv.init : Inv capacity (State.init : State ι α) where
  top_le := Nat.le_refl _
  limit_le := Nat.zero_le _
  offered := Nat.le_refl _
  bottom_le := Nat.le_refl _
  owner := trivial
  thief _ := trivial

/-- After every run of calls with non-null items, the invariant holds and the atomic object can
reach the deque's history, with the deque's items as its list. -/
theorem run_refines (hcap : ValidCapacity capacity) {as : List (Act ι α)}
    (hnull : ∀ a ∈ as, a.NonNull) (hrun : Lts.run (step capacity) State.init as = some s)
    (hoff : s.offered < 2 ^ 64) :
    Inv capacity s ∧ ∃ lins, (absObj capacity s lins).Reach (spec capacity) := by
  refine Lts.run_inv_of
    (I := fun s => s.offered < 2 ^ 64 →
      Inv capacity s ∧ ∃ lins, (absObj capacity s lins).Reach (spec capacity))
    (G := fun _ a => a.NonNull) ?_ (fun _ => ⟨.init, [], ?_⟩) hrun
    (fun p hp => hnull _ (Lts.mem_of_mem_visits hp)) hoff
  · intro s a s' ih ha hstep hoff'
    have hoff := Nat.lt_of_le_of_lt (offered_le hstep) hoff'
    obtain ⟨hinv, lins, hreach⟩ := ih hoff
    obtain ⟨hinv', hmatch⟩ := Refines.step hcap hinv hoff ha hstep
    obtain ⟨lins', hsteps⟩ := hmatch lins
    exact ⟨hinv', lins', hreach.trans hsteps⟩
  · have hinit : absObj capacity (State.init : State ι α) [] = Obj.init (spec capacity) := by
      simp only [absObj, Obj.init, Obj.mk.injEq, and_true]
      refine ⟨rfl, ?_, rfl⟩
      funext t
      cases t <;> rfl
    rw [hinit]
    exact .refl

/-- **The deque is a linearizable bounded double-ended queue.** In every interleaving of one owner
and any number of thieves, the calls and returns so far are a history of the atomic deque: each
call takes effect at one moment between its call and its return, an accepted push then appends its
items at the bottom, a refused push finds too many items, a pop removes the bottom-most item or
finds the list empty, a steal removes the top-most item or takes nothing. When the owner is in no
call, the list is what the buffer holds between the two indices. The accepted items are the taken
ones and those still in the list, and every returned item was accepted once for each return. -/
theorem taskDeque_linearizable (hcap : ValidCapacity capacity) {as : List (Act ι α)}
    (hnull : ∀ a ∈ as, a.NonNull) (hrun : Lts.run (step capacity) State.init as = some s)
    (hoff : s.offered < 2 ^ 64) :
    ∃ o : Obj (List (Ptr α)) (Tid ι) (Op α) (Res α), o.Reach (spec capacity) ∧ o.hist = s.hist ∧
      (s.owner = .idle → o.abs = SizeT.window (s.cell capacity) s.top s.bottom) ∧
      (accepted o.lins).Perm (taken o.lins ++ o.abs) ∧
      (returned s.hist).Subperm (accepted o.lins) := by
  obtain ⟨-, lins, hreach⟩ := run_refines hcap hnull hrun hoff
  refine ⟨absObj capacity s lins, hreach, rfl, fun hidle => ?_, accepted_perm hreach.seqRun,
    returned_subperm hreach⟩
  simp [absObj, State.contents, State.limit, hidle]

/-- The owner pushes two items and races a thief for the second one, and the thief wins. -/
def raceRun : List (Act Bool Nat) :=
  [.call (.pushBottomBatch [some 7, some 8])] ++ List.replicate 5 .owner ++
  [.callSteal true] ++ List.replicate 4 (.thief true) ++
  [.call .popBottom, .owner, .owner, .callSteal false, .thief false, .thief false, .owner, .owner,
    .owner, .thief false, .thief false, .owner, .owner]

theorem taskDeque_linearizable_raceRun :
    ∃ s, Lts.run (step 2) State.init raceRun = some s ∧ returned s.hist = [some 8, some 7] ∧
    ∃ o : Obj (List (Ptr Nat)) (Tid Bool) (Op Nat) (Res Nat), o.Reach (spec 2) ∧
      o.hist = s.hist ∧ (s.owner = .idle → o.abs = SizeT.window (s.cell 2) s.top s.bottom) ∧
      (accepted o.lins).Perm (taken o.lins ++ o.abs) ∧
      (returned s.hist).Subperm (accepted o.lins) := by
  refine ⟨(Lts.run (step 2) State.init raceRun).get (by decide), (Option.some_get _).symm,
    by decide, ?_⟩
  exact taskDeque_linearizable (by unfold ValidCapacity; decide)
    (by simp [raceRun, Act.NonNull, Op.NonNull]) (Option.some_get _).symm (by decide)

end

end

end JLibScheduler.TaskDeque
