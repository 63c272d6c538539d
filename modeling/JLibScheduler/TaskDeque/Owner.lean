import JLibScheduler.TaskDeque.Refine

/-!
# What the calls of the owner return

Between the calls of the owner the thieves only take items, so a deque that the owner found empty
stays empty until it pushes (`thief_keeps`). `pop_bottom` returns nothing only when the deque is
empty at the return, and no null item, when none was pushed (`ownerStep_pops`); `push_bottom_batch`
on an empty deque is not refused when the items fit (`ownerStep_batch`).
-/

namespace JLibScheduler.TaskDeque

open AtomicObject

section
variable {ι α : Type} {capacity : Nat} {s s' : State ι α}

/-- The deque holds no item. -/
def State.Empty (s : State ι α) : Prop := s.limit = s.top

/-- What the owner's call has returned, when the owner's last access was its return. -/
def State.returned (s : State ι α) : Option (Res α) :=
  match s.owner, s.hist with
  | .idle, .res none r :: _ => some r
  | _, _ => none

/-- No item in the deque or in the hands of the owner is null. -/
def OwnerItems (capacity : Nat) (s : State ι α) : Prop :=
  match s.owner with
  | .pushLoadBottom item | .pushLoadTop item _ | .pushWrite item _ | .pushStore item _
  | .popCas _ _ item | .popWon _ item => item ≠ none
  | .batchLoadBottom items | .batchLoadTop items _ | .batchWrite items _ _ => none ∉ items
  | .popRead b _ => s.cell capacity b ≠ none
  | _ => True

/-- No item of the deque is null. -/
structure ItemsOk (capacity : Nat) (s : State ι α) : Prop where
  cell : ∀ i, s.top ≤ i → i < s.limit → s.cell capacity i ≠ none
  owner : OwnerItems capacity s

theorem ItemsOk.init : ItemsOk capacity (State.init : State ι α) where
  cell i _ hi := absurd hi (Nat.not_lt_zero i)
  owner := trivial

/-- The items after a step of the owner that writes no slot and takes no item in. -/
theorem ItemsOk.of_le (h : ItemsOk capacity s) (hbuffer : s'.buffer = s.buffer)
    (htop : s.top ≤ s'.top) (hlimit : s'.limit ≤ s.limit) (howner : OwnerItems capacity s') :
    ItemsOk capacity s' where
  cell i hi hi' := by
    rw [State.cell, hbuffer]
    exact h.cell i (htop.trans hi) (hi'.trans_le hlimit)
  owner := howner

/-- The items after the write of an item above those of the deque. -/
theorem ItemsOk.write (hcap : ValidCapacity capacity) (h : ItemsOk capacity s) {b : Nat}
    {item : Ptr α} {pc : OwnerPc α} (hb : s.limit ≤ b) (hlt : b < s.top + capacity)
    (hlimit : State.limit { s with
      buffer := Function.update s.buffer (SizeT.slot capacity b) item, owner := pc } = s.limit)
    (howner : OwnerItems capacity { s with
      buffer := Function.update s.buffer (SizeT.slot capacity b) item, owner := pc }) :
    ItemsOk capacity { s with
      buffer := Function.update s.buffer (SizeT.slot capacity b) item, owner := pc } where
  cell i hi hi' := by
    rw [hlimit] at hi'
    change s.top ≤ i at hi
    rw [cell_update hcap (by omega) (by omega)]
    exact h.cell i hi hi'
  owner := howner

/-- The items after the accepted items have been taken into the deque. -/
theorem ItemsOk.accept (h : ItemsOk capacity s) {b : Nat} {r : Res α}
    (hnew : ∀ i, s.limit ≤ i → i < b → s.cell capacity i ≠ none) :
    ItemsOk capacity (State.ownerReturn { s with bottom := b } r) where
  cell i hi hi' := by
    by_cases hlt : i < s.limit
    · exact h.cell i hi hlt
    · exact hnew i (by omega) hi'
  owner := trivial

/-- A step of the owner keeps the items. -/
theorem ItemsOk.ownerStep (hcap : ValidCapacity capacity) (h : ItemsOk capacity s)
    (hinv : Inv capacity s) (hoff : s.offered < 2 ^ 64)
    (hstep : ownerStep capacity s = some s') : ItemsOk capacity s' := by
  have howner := h.owner
  have hok := hinv.owner
  have hofs := hinv.offered
  have htop := hinv.top_le
  unfold TaskDeque.ownerStep at hstep
  unfold OwnerItems at howner
  unfold OwnerOk at hok
  cases hpc : s.owner with
  | idle => simp [hpc] at hstep
  | pushLoadBottom item | batchLoadBottom items | popLoadBottom =>
    simp only [hpc, Option.some.injEq] at hstep howner
    subst hstep
    exact h.of_le rfl (Nat.le_refl _) (by simp [State.limit, hpc]) howner
  | pushLoadTop item b | batchLoadTop items b | popLoadTop b =>
    simp only [hpc] at hstep howner
    split_ifs at hstep <;> cases hstep
    · exact h.of_le rfl (Nat.le_refl _) (by simp [State.limit, State.ownerReturn, hpc]) trivial
    · exact h.of_le rfl (Nat.le_refl _) (by simp [State.limit, hpc]) howner
  | pushWrite item b =>
    simp only [hpc] at hok howner hstep
    cases hstep
    exact h.write hcap (by simp [State.limit, hpc, hok.1]) (by omega)
      (by simp [State.limit, hpc]) howner
  | pushStore item b =>
    simp only [hpc] at hok howner hstep
    have hlim : s.limit = b := by simp [State.limit, hpc, hok.1]
    rw [hpc, OwnerPc.offers] at hofs
    rw [SizeT.add_of_lt (by omega)] at hstep
    cases hstep
    refine h.accept fun i hi hi' => ?_
    rw [show i = b by omega, hok.2.2]
    exact howner
  | batchWrite items b i =>
    simp only [hpc] at hok howner hstep
    have hlim : s.limit = b := by simp [State.limit, hpc, hok.1]
    rw [hpc, OwnerPc.offers] at hofs
    cases hitem : items[i]? with
    | some item =>
      obtain ⟨hi, -⟩ := List.getElem?_eq_some_iff.1 hitem
      simp only [hitem] at hstep
      rw [SizeT.add_of_lt (by omega)] at hstep
      cases hstep
      exact h.write hcap (by omega) (by omega) (by simp [State.limit, hpc]) howner
    | none =>
      have hi : i = items.length :=
        Nat.le_antisymm hok.2.2.1 (List.getElem?_eq_none_iff.1 hitem)
      simp only [hitem] at hstep
      rw [SizeT.add_of_lt (by omega)] at hstep
      cases hstep
      refine h.accept fun j hj hj' => ?_
      have hcell := hok.2.2.2 (j - b) (by omega) (by omega)
      rw [show b + (j - b) = j by omega] at hcell
      rw [hcell]
      exact fun heq => howner (heq ▸ List.getElem_mem _)
  | popStore b =>
    simp only [hpc, Option.some.injEq] at hstep hok
    subst hstep
    exact h.of_le rfl (Nat.le_refl _) (by simp [State.limit, hpc, hok]) trivial
  | popReloadTop b =>
    simp only [hpc] at hstep
    have hlim : s.limit = b + 1 := by simp [State.limit, hpc]
    split_ifs at hstep with hle <;> cases hstep
    · refine h.of_le rfl (Nat.le_refl _) ?_ (h.cell b hle (by omega))
      rw [hlim]
      change (if s.top = b then b + 1 else b) ≤ b + 1
      split_ifs <;> omega
    · exact h.of_le rfl (Nat.le_refl _) htop trivial
  | popRead b t =>
    simp only [hpc] at hstep howner
    split_ifs at hstep with heq <;> cases hstep
    · exact h.of_le rfl (Nat.le_refl _) (by simp [State.limit, hpc, heq]) howner
    · exact h.of_le rfl (Nat.le_refl _)
        (by simp [State.limit, State.ownerReturn, hpc, heq, (show s.bottom = b by
          simp only [hpc] at hok; exact hok.1)]) trivial
  | popCas b t item =>
    simp only [hpc] at hstep howner hok
    split_ifs at hstep with heq <;> cases hstep
    · refine h.of_le rfl ?_ (by simp [State.limit, hpc]) howner
      rw [SizeT.add_of_lt (by
        have hlim : s.limit = b + 1 := by simp [State.limit, hpc]
        omega)]
      exact heq ▸ Nat.le_succ _
    · exact h.of_le rfl (Nat.le_refl _) (by simp [State.limit, hpc]) trivial
  | popWon b item | popLost b =>
    simp only [hpc, Option.some.injEq] at hstep
    have hlim : s.limit = b + 1 := by simp [State.limit, hpc]
    rw [SizeT.add_of_lt (by omega)] at hstep
    subst hstep
    exact h.of_le rfl (Nat.le_refl _) (by rw [hlim]; exact Nat.le_refl _) trivial
  | popEmpty t =>
    simp only [hpc, Option.some.injEq] at hstep
    subst hstep
    exact h.of_le rfl (Nat.le_refl _) (by simp [State.limit, State.ownerReturn, hpc]) trivial

/-! ## Returns -/

/-- A call that has returned has left the deque. -/
theorem owner_of_returned {r : Res α} (h : s.returned = some r) : s.owner = .idle := by
  unfold State.returned at h
  split at h
  · assumption
  · cases h

/-- The owner is in `pop_bottom`. -/
def OwnerPc.pops : OwnerPc α → Bool
  | .popLoadBottom | .popLoadTop _ | .popStore _ | .popReloadTop _ | .popRead _ _ | .popCas _ _ _
  | .popWon _ _ | .popLost _ | .popEmpty _ => true
  | _ => false

/-- A `pop_bottom` goes on, or it returns: nothing from a deque that is empty then, or an item that
is not null. -/
theorem ownerStep_pops (h : ItemsOk capacity s) (hinv : Inv capacity s) (hoff : s.offered < 2 ^ 64)
    (hpops : s.owner.pops = true) (hstep : ownerStep capacity s = some s') :
    (s'.owner.pops = true ∧ s'.returned = none) ∨ (s'.returned = some (.taken none) ∧ s'.Empty) ∨
      ∃ x, s'.returned = some (.taken (some (some x))) := by
  have howner := h.owner
  have hok := hinv.owner
  have hofs := hinv.offered
  have htop := hinv.top_le
  unfold TaskDeque.ownerStep at hstep
  unfold OwnerItems at howner
  unfold OwnerOk at hok
  cases hpc : s.owner with
  | idle | pushLoadBottom | pushLoadTop | pushWrite | pushStore | batchLoadBottom | batchLoadTop
  | batchWrite =>
    rw [hpc] at hpops
    cases hpops
  | popLoadBottom | popStore b =>
    simp only [hpc, Option.some.injEq] at hstep
    subst hstep
    exact .inl ⟨rfl, rfl⟩
  | popLoadTop b =>
    simp only [hpc] at hstep hok
    split_ifs at hstep with hle <;> cases hstep
    · refine .inr (.inl ⟨rfl, ?_⟩)
      have hlim : s.limit = s.bottom := by simp [State.limit, hpc]
      change s.bottom = s.top
      omega
    · exact .inl ⟨rfl, rfl⟩
  | popReloadTop b =>
    simp only [hpc] at hstep
    split_ifs at hstep <;> cases hstep <;> exact .inl ⟨rfl, rfl⟩
  | popRead b t =>
    simp only [hpc] at hstep howner
    split_ifs at hstep <;> cases hstep
    · exact .inl ⟨rfl, rfl⟩
    · obtain ⟨x, hx⟩ := Option.ne_none_iff_exists'.1 howner
      exact .inr (.inr ⟨x, congrArg (fun y => some (Res.taken (some y))) hx⟩)
  | popCas b t item =>
    simp only [hpc] at hstep
    split_ifs at hstep <;> cases hstep <;> exact .inl ⟨rfl, rfl⟩
  | popWon b item =>
    simp only [hpc, Option.some.injEq] at hstep howner
    obtain ⟨x, rfl⟩ := Option.ne_none_iff_exists'.1 howner
    subst hstep
    exact .inr (.inr ⟨x, rfl⟩)
  | popLost b =>
    simp only [hpc, Option.some.injEq] at hstep hok
    have hlim : s.limit = b + 1 := by simp [State.limit, hpc]
    rw [SizeT.add_of_lt (by omega)] at hstep
    subst hstep
    exact .inr (.inl ⟨rfl, hok.2.symm⟩)
  | popEmpty t =>
    simp only [hpc, Option.some.injEq] at hstep hok
    subst hstep
    exact .inr (.inl ⟨rfl, hok.2.symm⟩)

/-- The owner is in a `push_bottom_batch` whose items fit in the empty deque. -/
def BatchOk (capacity : Nat) (s : State ι α) : Prop :=
  match s.owner with
  | .batchLoadBottom items | .batchLoadTop items _ => items.length ≤ capacity ∧ s.Empty
  | .batchWrite _ _ _ => True
  | _ => False

/-- A `push_bottom_batch` whose items fit in the empty deque goes on, or it returns `true`. -/
theorem ownerStep_batch (hinv : Inv capacity s) (hoff : s.offered < 2 ^ 64)
    (hbatch : BatchOk capacity s) (hstep : ownerStep capacity s = some s') :
    (BatchOk capacity s' ∧ s'.returned = none) ∨ s'.returned = some (.pushed true) := by
  have hok := hinv.owner
  have hofs := hinv.offered
  unfold TaskDeque.ownerStep at hstep
  unfold BatchOk at hbatch
  unfold OwnerOk at hok
  cases hpc : s.owner with
  | idle | pushLoadBottom | pushLoadTop | pushWrite | pushStore | popLoadBottom | popLoadTop
  | popStore | popReloadTop | popRead | popCas | popWon | popLost | popEmpty => simp [hpc] at hbatch
  | batchLoadBottom items =>
    simp only [hpc, Option.some.injEq] at hstep hbatch
    subst hstep
    have hempty : s.bottom = s.top := by simpa [State.Empty, State.limit, hpc] using hbatch.2
    exact .inl ⟨⟨hbatch.1, hempty⟩, rfl⟩
  | batchLoadTop items b =>
    simp only [hpc] at hstep hbatch hok
    have hempty : s.bottom = s.top := by simpa [State.Empty, State.limit, hpc] using hbatch.2
    have hlim : s.limit = s.bottom := by simp [State.limit, hpc]
    rw [hpc, OwnerPc.offers] at hofs
    rw [SizeT.add_of_lt (by omega), SizeT.sub_of_le (by omega) (by omega),
      if_neg (by omega)] at hstep
    cases hstep
    exact .inl ⟨trivial, rfl⟩
  | batchWrite items b i =>
    simp only [hpc] at hstep
    split at hstep <;> cases hstep
    · exact .inl ⟨trivial, rfl⟩
    · exact .inr rfl

/-! ## Thieves -/

variable [DecidableEq ι]

/-- What a thief leaves as it is. -/
theorem thief_frame {i : ι} (hstep : thiefStep capacity s i = some s') :
    s'.owner = s.owner ∧ s'.buffer = s.buffer ∧ s'.bottom = s.bottom := by
  unfold TaskDeque.thiefStep at hstep
  split at hstep
  · cases hstep
  · cases hstep
    exact ⟨rfl, rfl, rfl⟩
  · split_ifs at hstep <;> cases hstep <;> exact ⟨rfl, rfl, rfl⟩
  · cases hstep
    exact ⟨rfl, rfl, rfl⟩
  · split_ifs at hstep <;> cases hstep <;> exact ⟨rfl, rfl, rfl⟩

/-- A thief raises `top_` or leaves it. -/
theorem thief_top {i : ι} (hinv : Inv capacity s) (hoff : s.offered < 2 ^ 64)
    (hstep : thiefStep capacity s i = some s') : s.top ≤ s'.top := by
  have hok := hinv.thief i
  have hofs := hinv.offered
  unfold TaskDeque.thiefStep at hstep
  cases hpc : s.thief i with
  | idle => simp [hpc] at hstep
  | loadTop | read t =>
    simp only [hpc, Option.some.injEq] at hstep
    subst hstep
    exact Nat.le_refl _
  | loadBottom t =>
    simp only [hpc] at hstep
    split_ifs at hstep <;> cases hstep <;> exact Nat.le_refl _
  | cas t item =>
    simp only [hpc] at hstep
    rw [hpc] at hok
    split_ifs at hstep with heq <;> cases hstep
    · have hlt := (hok.2 heq.symm).1
      change s.top ≤ SizeT.add t 1
      rw [SizeT.add_of_lt (by omega)]
      omega
    · exact Nat.le_refl _

omit [DecidableEq ι] in
/-- The position after the bottom-most item is known to the owner alone. -/
theorem limit_congr (howner : s'.owner = s.owner) (hbottom : s'.bottom = s.bottom) :
    s'.limit = s.limit := by
  rw [State.limit, State.limit, howner, hbottom]

omit [DecidableEq ι] in
/-- What holds of the items and of the owner's batch depends on what a thief leaves as it is. -/
theorem thief_keeps (howner : s'.owner = s.owner) (hbuffer : s'.buffer = s.buffer)
    (hbottom : s'.bottom = s.bottom) (htop : s.top ≤ s'.top) (hinv' : Inv capacity s') :
    (ItemsOk capacity s → ItemsOk capacity s') ∧ (s.Empty → s'.Empty) ∧
      (BatchOk capacity s → BatchOk capacity s') := by
  have hlim : s'.limit = s.limit := limit_congr howner hbottom
  have hempty : s.Empty → s'.Empty := by
    intro h
    have hle := hinv'.top_le
    rw [State.Empty] at h ⊢
    omega
  refine ⟨fun h => h.of_le hbuffer htop hlim.le ?_, hempty, fun h => ?_⟩
  · have hitems := h.owner
    unfold OwnerItems State.cell at hitems ⊢
    rwa [howner, hbuffer]
  · unfold BatchOk at h ⊢
    rw [howner]
    split at h
    · exact ⟨h.1, hempty h.2⟩
    · exact ⟨h.1, hempty h.2⟩
    · trivial
    · exact h

/-- A thief enters `steal`. -/
theorem thiefCall_frame {i : ι} (hstep : thiefCall s i = some s') :
    s'.owner = s.owner ∧ s'.buffer = s.buffer ∧ s'.bottom = s.bottom ∧ s'.top = s.top := by
  unfold TaskDeque.thiefCall at hstep
  split at hstep <;> cases hstep
  exact ⟨rfl, rfl, rfl, rfl⟩

end

end JLibScheduler.TaskDeque
