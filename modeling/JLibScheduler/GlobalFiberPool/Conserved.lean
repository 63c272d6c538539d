import JLibScheduler.GlobalFiberPool.Basic
import JLibScheduler.Lib.Sums
import JLibScheduler.Lib.Update

/-!
# No fiber is lost or handed to two workers

A worker's steps keep the fibers of the queue and the worker together as they were (`Keeps`): a
fiber that leaves the array is in transfer until it is in the queue, and a batch is in transfer
until it is in the array. So in every reachable state each fiber is in one place, the arrays are not
overrun, and `Pop` returns nothing only after it has seen the queue empty (`fibers_conserved`).
-/

namespace JLibScheduler.GlobalFiberPool

/-- What a worker's local values say at each place of its calls. -/
structure Worker.Ok {φ : Type} (capacity : Nat) (x : Worker φ) : Prop where
  count_le : x.count ≤ capacity
  filled : ∀ i < x.count, ∃ f, x.localFibers i = some f
  pc : match x.pc with
    | .idle => True
    | .steal batch => x.count = 0 ∧ batch.length ≤ capacity
    | .dequeue batch => x.count = 0 ∧ batch.length < capacity
    | .take => x.count = 0 → x.sawEmpty = true
    | .spill _ i => x.count = capacity ∧ i ≤ half capacity
    | .enqueue _ i => x.count = capacity ∧ i < half capacity

section
variable {φ : Type} {localFibers : Nat → Option φ} {f : φ}

/-! ## Entries of an array -/

theorem entries_zero (first : Nat) : entries localFibers first 0 = [] := rfl

theorem entries_add (localFibers : Nat → Option φ) (first a b : Nat) :
    entries localFibers first (a + b) =
    entries localFibers first a ++ entries localFibers (first + a) b := by
  rw [entries, ← List.range'_append_1, List.filterMap_append]
  rfl

theorem entries_succ {first number : Nat} (h : localFibers (first + number) = some f) :
    entries localFibers first (number + 1) = entries localFibers first number ++ [f] := by
  rw [entries_add, entries, entries, List.range'_one, List.filterMap_cons_some h]
  rfl

/-- The first of some entries and the others. -/
theorem entries_cons {first number : Nat} (h : localFibers first = some f) :
    entries localFibers first (number + 1) = f :: entries localFibers (first + 1) number := by
  rw [entries, List.range'_succ, List.filterMap_cons_some h]
  rfl

theorem entries_congr {localFibers' : Nat → Option φ} {first number : Nat}
    (h : ∀ i, i < first + number → localFibers' i = localFibers i) :
    entries localFibers' first number = entries localFibers first number := by
  refine List.filterMap_congr fun i hi => h i ?_
  rw [List.mem_range'_1] at hi
  exact hi.2

/-- A batch that was copied into the array. -/
theorem entries_batch (batch : List φ) :
    entries (fun i => if i < batch.length then batch[i]? else localFibers i) 0 batch.length =
      batch := by
  have hmap : (List.range' 0 batch.length).map
      (fun i => if i < batch.length then batch[i]? else localFibers i) = batch.map some := by
    refine List.ext_getElem (by simp) fun i h₁ h₂ => ?_
    have hi : i < batch.length := by simpa using h₂
    simp [hi]
  calc entries (fun i => if i < batch.length then batch[i]? else localFibers i) 0 batch.length
      _ = ((List.range' 0 batch.length).map
          (fun i => if i < batch.length then batch[i]? else localFibers i)).filterMap id := by
        rw [List.filterMap_map]
        rfl
      _ = batch := by rw [hmap, List.filterMap_map]; exact List.filterMap_some

end

section
variable {φ : Type} [DecidableEq φ] {capacity : Nat} {queue queue' : List φ} {x x' : Worker φ}
  {f : φ}

/-- The queue and the worker have the same fibers together as before. -/
def Keeps (capacity : Nat) (queue : List φ) (x : Worker φ) (queue' : List φ) (x' : Worker φ) :
    Prop :=
  x'.Ok capacity ∧ ∀ f, queue'.count f + (x'.fibers capacity).count f =
    queue.count f + (x.fibers capacity).count f

/-! ## The steps of a worker -/

theorem count_erase_add {l : List φ} (h : f ∈ l) (g : φ) :
    (l.erase f).count g + [f].count g = l.count g := by
  rw [← List.count_append]
  exact ((List.perm_append_singleton f _).trans (List.perm_cons_erase h).symm).count_eq g

theorem Worker.Ok.pop (h : x.Ok capacity) (hstep : x.pop = some x') :
    Keeps capacity queue x queue x' := by
  rw [Worker.pop] at hstep
  split at hstep
  next hpc =>
    cases hstep
    by_cases hzero : x.count = 0
    · rw [if_pos hzero]
      refine ⟨⟨h.count_le, h.filled, hzero, Nat.zero_le _⟩, fun f => ?_⟩
      simp only [Worker.fibers, Worker.kept, Worker.transfer, Worker.held, hpc]
    · rw [if_neg hzero]
      refine ⟨⟨h.count_le, h.filled, fun hzero' => absurd hzero' hzero⟩, fun f => ?_⟩
      simp only [Worker.fibers, Worker.kept, Worker.transfer, Worker.held, hpc]
  next => cases hstep

omit [DecidableEq φ] in
/-- The array with a fiber stored above its entries. -/
theorem entries_store (x : Worker φ) (f : φ) :
    entries (x.store f).localFibers 0 (x.store f).count =
      entries x.localFibers 0 x.count ++ [f] := by
  have hself : (x.store f).localFibers (0 + x.count) = some f := by
    rw [Nat.zero_add]
    exact Function.update_self ..
  have hother : entries (x.store f).localFibers 0 x.count = entries x.localFibers 0 x.count :=
    entries_congr fun i hi => Function.update_of_ne (by omega) _ _
  rw [← hother]
  exact entries_succ hself

omit [DecidableEq φ] in
theorem filled_store (h : ∀ i < x.count, ∃ g, x.localFibers i = some g) (f : φ) :
    ∀ i < (x.store f).count, ∃ g, (x.store f).localFibers i = some g := by
  intro i hi
  by_cases heq : i = x.count
  · subst heq
    exact ⟨f, Function.update_self ..⟩
  · obtain ⟨g, hg⟩ := h i (Nat.lt_of_le_of_ne (Nat.le_of_lt_succ hi) heq)
    exact ⟨g, (Function.update_of_ne heq _ _).trans hg⟩

theorem Worker.Ok.push (h : x.Ok capacity) (hstep : x.push capacity f = some x') :
    Keeps capacity queue x queue x' := by
  rw [Worker.push] at hstep
  split at hstep
  next hpc =>
    simp only [Option.ite_none_right_eq_some] at hstep
    obtain ⟨hmem, hstep⟩ := hstep
    have hhands := count_erase_add hmem
    split_ifs at hstep with hfull
    · cases hstep
      have hcount : x.count = capacity := Nat.le_antisymm h.count_le hfull
      have hhalf : half capacity ≤ capacity := Nat.div_le_self _ _
      refine ⟨⟨h.count_le, h.filled, hcount, Nat.zero_le _⟩, fun g => ?_⟩
      have hsplit := entries_add x.localFibers 0 (x.count - half capacity)
        (half capacity)
      rw [show x.count - half capacity + half capacity = x.count by omega, Nat.zero_add] at hsplit
      have := hhands g
      simp only [Worker.fibers, Worker.kept, Worker.transfer, Worker.held, hpc, Nat.add_zero,
        Nat.sub_zero, hsplit, List.count_append, List.count_cons, List.count_nil] at this ⊢
      omega
    · cases hstep
      refine ⟨⟨?_, filled_store h.filled f, ?_⟩,
        fun g => ?_⟩
      · exact Nat.lt_of_not_le hfull
      · simp only [Worker.store, hpc]
      · have hentries := entries_store { x with hands := x.hands.erase f } f
        have := hhands g
        simp only [Worker.store] at hentries
        simp only [Worker.fibers, Worker.kept, Worker.transfer, Worker.held, Worker.store, hpc,
          hentries, List.count_append, List.count_nil] at this ⊢
        omega
  next => cases hstep

theorem Worker.Ok.sizeApprox (h : x.Ok capacity) (hcap : 0 < capacity) {size : Nat}
    (hsize : size = 0 → queue = []) (hstep : x.sizeApprox capacity queue size = some x') :
    Keeps capacity queue x queue x' := by
  have hok := h.pc
  rw [Worker.sizeApprox] at hstep
  split at hstep
  next batch hpc =>
    rw [hpc] at hok
    split_ifs at hstep with hmore
    · cases hstep
      refine ⟨⟨h.count_le, h.filled, hok.1, hmore.1⟩, fun g => ?_⟩
      simp only [Worker.fibers, Worker.kept, Worker.transfer, Worker.held, hpc]
    · cases hstep
      refine ⟨⟨hok.2, fun i hi => ⟨batch[i], ?_⟩, fun hzero => ?_⟩, fun g => ?_⟩
      · simp only [hi, if_true, List.getElem?_eq_getElem]
      · have hlen : batch.length = 0 := hzero
        have hsize' : size = 0 := by
          by_contra hne
          exact hmore ⟨by omega, Nat.pos_of_ne_zero hne⟩
        simp only [hsize hsize', List.isEmpty_nil]
      · simp only [Worker.fibers, Worker.kept, Worker.transfer, Worker.held, hpc, hok.1,
          entries_batch, entries_zero, List.nil_append, List.append_nil]
  next => cases hstep

theorem Worker.Ok.tryDequeue (h : x.Ok capacity) {f : Option φ}
    (hstep : x.tryDequeue queue f = some (queue', x')) : Keeps capacity queue x queue' x' := by
  have hok := h.pc
  unfold Worker.tryDequeue at hstep
  split at hstep
  next batch f hpc =>
    rw [hpc] at hok
    simp only [Option.ite_none_right_eq_some, Option.some.injEq, Prod.mk.injEq] at hstep
    obtain ⟨hmem, rfl, rfl⟩ := hstep
    refine ⟨⟨h.count_le, h.filled, hok.1, ?_⟩, fun g => ?_⟩
    · rw [List.length_append, List.length_singleton]
      exact hok.2
    · have := count_erase_add hmem g
      simp only [Worker.fibers, Worker.kept, Worker.transfer, Worker.held, hpc,
        List.count_append] at this ⊢
      omega
  next batch hpc =>
    rw [hpc] at hok
    simp only [Option.ite_none_right_eq_some, Option.some.injEq, Prod.mk.injEq] at hstep
    obtain ⟨-, rfl, rfl⟩ := hstep
    refine ⟨⟨h.count_le, h.filled, hok.1, Nat.le_of_lt hok.2⟩, fun g => ?_⟩
    simp only [Worker.fibers, Worker.kept, Worker.transfer, Worker.held, hpc]
  next => cases hstep

theorem Worker.Ok.next (h : x.Ok capacity) (hcap : 2 ≤ capacity)
    (hstep : x.next capacity queue = some (queue', x')) : Keeps capacity queue x queue' x' := by
  have hok := h.pc
  have hhalf : half capacity < capacity := Nat.div_lt_self (by omega) (by omega)
  have hpos : 0 < half capacity := Nat.div_pos hcap (by omega)
  unfold Worker.next at hstep
  split at hstep
  next hpc =>
    split_ifs at hstep with hzero
    · cases hstep
      refine ⟨⟨h.count_le, h.filled, trivial⟩, fun g => ?_⟩
      simp only [Worker.fibers, Worker.kept, Worker.transfer, Worker.held, hpc]
    · simp only [Option.map_eq_some_iff, Prod.mk.injEq] at hstep
      obtain ⟨f, hf, rfl, rfl⟩ := hstep
      have hcount : x.count - 1 + 1 = x.count := by omega
      have hentries : entries x.localFibers 0 (x.count - 1 + 1) =
          entries x.localFibers 0 (x.count - 1) ++ [f] := entries_succ ((Nat.zero_add _).symm ▸ hf)
      rw [hcount] at hentries
      refine ⟨⟨Nat.le_trans (Nat.sub_le _ _) h.count_le, fun i hi =>
        h.filled i (Nat.lt_of_lt_of_le hi (Nat.sub_le _ _)), trivial⟩, fun g => ?_⟩
      simp only [Worker.fibers, Worker.kept, Worker.transfer, Worker.held, hpc, hentries,
        List.count_append, List.count_cons, List.count_nil]
      omega
  next f i hpc =>
    rw [hpc] at hok
    split_ifs at hstep with hmore
    · cases hstep
      refine ⟨⟨h.count_le, h.filled, hok.1, hmore⟩, fun g => ?_⟩
      simp only [Worker.fibers, Worker.kept, Worker.transfer, Worker.held, hpc]
    · cases hstep
      have hi : half capacity - i = 0 := by omega
      let y : Worker φ := { x with count := x.count - half capacity }
      have hfilled : ∀ i < y.count, ∃ g, y.localFibers i = some g := fun i hi =>
        h.filled i (Nat.lt_of_lt_of_le hi (Nat.sub_le _ _))
      have hentries := entries_store y f
      simp only [Worker.store, y] at hentries
      refine ⟨⟨?_, filled_store hfilled f, trivial⟩, fun g => ?_⟩
      · change x.count - half capacity + 1 ≤ capacity
        omega
      · simp only [Worker.fibers, Worker.kept, Worker.transfer, Worker.held, Worker.store, hpc,
          hentries, hi, entries_zero, List.count_append, List.count_cons, List.count_nil]
        omega
  next f i hpc =>
    rw [hpc] at hok
    simp only [Option.map_eq_some_iff, Prod.mk.injEq] at hstep
    obtain ⟨g, hg, rfl, rfl⟩ := hstep
    refine ⟨⟨h.count_le, h.filled, hok.1, hok.2⟩, fun g' => ?_⟩
    have hentries : entries x.localFibers (x.count - half capacity + i)
        (half capacity - (i + 1) + 1) = g :: entries x.localFibers
          (x.count - half capacity + i + 1) (half capacity - (i + 1)) := entries_cons hg
    rw [show half capacity - (i + 1) + 1 = half capacity - i by omega] at hentries
    simp only [Worker.fibers, Worker.kept, Worker.transfer, Worker.held, hpc, hentries,
      Nat.add_assoc, List.count_append, List.count_cons, List.count_nil]
    omega
  next => cases hstep

/-! ## The steps of the workers -/

variable {ι : Type} [DecidableEq ι] [Fintype ι] {capacities : ι → Nat} {s s' : State φ ι}

/-- The workers' local values are right. -/
def State.Ok (capacities : ι → Nat) (s : State φ ι) : Prop :=
  ∀ w, (s.worker w).Ok (capacities w)

omit [DecidableEq φ] [Fintype ι] in
theorem State.Ok.set (h : s.Ok capacities) {w : ι} {r : List φ × Worker φ}
    (hw : r.2.Ok (capacities w)) : (s.set w r).Ok capacities :=
  Update.forall_of (P := fun w (x : Worker φ) => x.Ok (capacities w)) hw fun v _ => h v

/-- What the move of a worker changes in the number of places of a fiber. -/
theorem copies_set (capacities : ι → Nat) (s : State φ ι) (w : ι) (r : List φ × Worker φ) (g : φ) :
    (s.set w r).copies capacities g + (s.availableFibers.count g +
        ((s.worker w).fibers (capacities w)).count g) =
      s.copies capacities g + (r.1.count g + (r.2.fibers (capacities w)).count g) := by
  have := Sums.updateAt (fun w x => (x.fibers (capacities w)).count g) s.worker w r.2
  simp only [State.copies, State.set]
  omega

/-- A worker's move that keeps the fibers of the queue and the worker. -/
theorem State.Ok.of_keeps (h : s.Ok capacities) {w : ι} {r : List φ × Worker φ}
    (hkeeps : Keeps (capacities w) s.availableFibers (s.worker w) r.1 r.2) :
    (s.set w r).Ok capacities ∧ ∀ g, (s.set w r).copies capacities g = s.copies capacities g := by
  refine ⟨h.set hkeeps.1, fun g => ?_⟩
  have := hkeeps.2 g
  have := copies_set capacities s w r g
  omega

omit [DecidableEq φ] in
/-- The hands of a worker are all that a pass changes. -/
theorem fibers_hands (capacity : Nat) (x : Worker φ) (l : List φ) [DecidableEq φ] (g : φ) :
    (({ x with hands := l } : Worker φ).fibers capacity).count g + x.hands.count g =
      (x.fibers capacity).count g + l.count g := by
  have hkept : ({ x with hands := l } : Worker φ).kept capacity = x.kept capacity := rfl
  have htransfer : ({ x with hands := l } : Worker φ).transfer capacity = x.transfer capacity := rfl
  have hheld : (({ x with hands := l } : Worker φ).held).count g + x.hands.count g =
      x.held.count g + l.count g := by
    cases hpc : x.pc with
    | spill f i | enqueue f i =>
      simp only [Worker.held, hpc, List.count_cons]
      omega
    | _ =>
      simp only [Worker.held, hpc]
      omega
  simp only [Worker.fibers, hkept, htransfer, List.count_append]
  omega

/-- Every step keeps the number of places of every fiber. -/
theorem State.Ok.step (hcap : ∀ w, 2 ≤ capacities w) (h : s.Ok capacities) {a : Act φ ι}
    (hstep : step capacities s a = some s') :
    s'.Ok capacities ∧ ∀ g, s'.copies capacities g = s.copies capacities g := by
  cases a with
  | pop w =>
    simp only [GlobalFiberPool.step, Option.map_eq_some_iff] at hstep
    obtain ⟨x, hx, rfl⟩ := hstep
    exact h.of_keeps ((h w).pop hx)
  | push w f =>
    simp only [GlobalFiberPool.step, Option.map_eq_some_iff] at hstep
    obtain ⟨x, hx, rfl⟩ := hstep
    exact h.of_keeps ((h w).push hx)
  | sizeApprox w size =>
    simp only [GlobalFiberPool.step, Option.ite_none_right_eq_some, Option.map_eq_some_iff] at hstep
    obtain ⟨hsize, x, hx, rfl⟩ := hstep
    have hpos : 0 < capacities w := Nat.lt_of_lt_of_le (by omega) (hcap w)
    exact h.of_keeps ((h w).sizeApprox hpos (fun hzero => (hsize hzero).1) hx)
  | tryDequeue w f =>
    simp only [GlobalFiberPool.step, Option.map_eq_some_iff] at hstep
    obtain ⟨r, hr, rfl⟩ := hstep
    exact h.of_keeps ((h w).tryDequeue hr)
  | next w =>
    simp only [GlobalFiberPool.step, Option.map_eq_some_iff] at hstep
    obtain ⟨r, hr, rfl⟩ := hstep
    exact h.of_keeps ((h w).next (hcap w) hr)
  | pass w w' f =>
    simp only [GlobalFiberPool.step, Option.ite_none_right_eq_some, Option.some.injEq] at hstep
    obtain ⟨hmem, rfl⟩ := hstep
    let x : Worker φ := { s.worker w with hands := (s.worker w).hands.erase f }
    let s₁ := s.set w (s.availableFibers, x)
    let y : Worker φ := { s₁.worker w' with hands := f :: (s₁.worker w').hands }
    have h₁ : s₁.Ok capacities := h.set ⟨(h w).count_le, (h w).filled, (h w).pc⟩
    refine ⟨h₁.set ⟨(h₁ w').count_le, (h₁ w').filled, (h₁ w').pc⟩, fun g => ?_⟩
    have hfirst : s₁.copies capacities g + (s.availableFibers.count g +
          ((s.worker w).fibers (capacities w)).count g) = s.copies capacities g +
        (s.availableFibers.count g + (x.fibers (capacities w)).count g) :=
      copies_set capacities s w (s.availableFibers, x) g
    have hsecond : (s₁.set w' (s.availableFibers, y)).copies capacities g +
          (s.availableFibers.count g + ((s₁.worker w').fibers (capacities w')).count g) =
        s₁.copies capacities g +
          (s.availableFibers.count g + (y.fibers (capacities w')).count g) :=
      copies_set capacities s₁ w' (s.availableFibers, y) g
    have hx : (x.fibers (capacities w)).count g + (s.worker w).hands.count g =
        ((s.worker w).fibers (capacities w)).count g + ((s.worker w).hands.erase f).count g :=
      fibers_hands (capacities w) (s.worker w) _ g
    have hy : (y.fibers (capacities w')).count g + (s₁.worker w').hands.count g =
        ((s₁.worker w').fibers (capacities w')).count g + (f :: (s₁.worker w').hands).count g :=
      fibers_hands (capacities w') (s₁.worker w') _ g
    have herase := count_erase_add hmem g
    simp only [List.count_cons, List.count_nil] at hy herase
    change (s₁.set w' (s.availableFibers, y)).copies capacities g = _
    omega

omit [DecidableEq φ] [DecidableEq ι] [Fintype ι] in
theorem State.Ok.init (fibers : List φ) : (init fibers : State φ ι).Ok capacities := fun _ =>
  ⟨Nat.zero_le _, fun i hi => absurd hi (Nat.not_lt_zero i), trivial⟩

omit [DecidableEq ι] in
/-- At first every fiber is in the queue. -/
theorem copies_init (fibers : List φ) (g : φ) :
    (init fibers : State φ ι).copies capacities g = fibers.count g := by
  simp only [State.copies, GlobalFiberPool.init, Worker.fibers, Worker.kept, Worker.transfer,
    Worker.held, entries_zero, List.append_nil, List.count_nil, Finset.sum_const_zero, Nat.add_zero]

/-- In every reachable state the local values are right and every fiber is in as many places as at
first. -/
theorem run_copies (hcap : ∀ w, 2 ≤ capacities w) {fibers : List φ} {as : List (Act φ ι)}
    (hrun : Lts.run (step capacities) (GlobalFiberPool.init fibers) as = some s) :
    s.Ok capacities ∧ ∀ g, s.copies capacities g = fibers.count g := by
  have hinv : ∀ {s : State φ ι} {a : Act φ ι} {s' : State φ ι},
      (s.Ok capacities ∧ ∀ g, s.copies capacities g = fibers.count g) →
      GlobalFiberPool.step capacities s a = some s' →
      s'.Ok capacities ∧ ∀ g, s'.copies capacities g = fibers.count g := by
    intro s a s' h hstep
    obtain ⟨hok, hcopies⟩ := h.1.step hcap hstep
    exact ⟨hok, fun g => (hcopies g).trans (h.2 g)⟩
  exact Lts.run_inv hinv ⟨.init fibers, copies_init fibers⟩ hrun

omit [DecidableEq φ] in
/-- A worker's next step stays within the capacity. -/
theorem Worker.Ok.accesses_lt {x : Worker φ} (h : x.Ok capacity) (hcap : 2 ≤ capacity) :
    ∀ i ∈ x.accesses capacity, i < capacity := by
  have hok := h.pc
  have hle := h.count_le
  have hhalf : half capacity < capacity := Nat.div_lt_self (by omega) (by omega)
  have hpos : 0 < half capacity := Nat.div_pos hcap (by omega)
  intro i hi
  unfold Worker.accesses at hi
  split at hi
  next =>
    split_ifs at hi with hfull
    · cases hi
    · rw [List.mem_singleton] at hi
      omega
  next batch hpc =>
    rw [hpc] at hok
    rw [List.mem_range] at hi
    omega
  next => cases hi
  next =>
    split_ifs at hi with hzero
    · cases hi
    · rw [List.mem_singleton] at hi
      omega
  next f j hpc =>
    rw [hpc] at hok
    split_ifs at hi with hmore
    · cases hi
    · rw [List.mem_singleton] at hi
      omega
  next f j hpc =>
    rw [hpc] at hok
    rw [List.mem_singleton] at hi
    omega

theorem activeCapacity_bounds (runtimeCapacity : Nat) :
    2 ≤ activeCapacity runtimeCapacity ∧ activeCapacity runtimeCapacity ≤ maxCapacity := by
  unfold activeCapacity maxCapacity
  by_cases hle : runtimeCapacity ≤ 256
  · simp only [hle, if_true]
    split_ifs <;> omega
  · simp only [hle, if_false]
    decide

/-- For any number of workers with caches of any capacity, in every state that an interleaving of
their calls reaches: every fiber is in exactly one place, no array is overrun, and a `Pop` that is
about to return nothing has seen the queue empty. -/
theorem fibers_conserved (runtimeCapacity : ι → Nat) (fibers : List φ) (hnodup : fibers.Nodup)
    (as : List (Act φ ι)) (s : State φ ι)
    (hrun : Lts.run (step fun w => activeCapacity (runtimeCapacity w)) (GlobalFiberPool.init fibers)
      as = some s) :
    (∀ f ∈ fibers, s.copies (fun w => activeCapacity (runtimeCapacity w)) f = 1) ∧
    (∀ f ∉ fibers, s.copies (fun w => activeCapacity (runtimeCapacity w)) f = 0) ∧
    ∀ w, (s.worker w).count ≤ activeCapacity (runtimeCapacity w) ∧
      activeCapacity (runtimeCapacity w) ≤ maxCapacity ∧
      (∀ i ∈ (s.worker w).accesses (activeCapacity (runtimeCapacity w)), i < maxCapacity) ∧
      ((s.worker w).pc = .take → (s.worker w).count = 0 → (s.worker w).sawEmpty = true) := by
  have hbounds := fun w => activeCapacity_bounds (runtimeCapacity w)
  obtain ⟨hok, hcopies⟩ := run_copies (fun w => (hbounds w).1) hrun
  refine ⟨fun f hf => ?_, fun f hf => ?_, fun w => ⟨(hok w).count_le, (hbounds w).2, ?_, ?_⟩⟩
  · rw [hcopies, List.count_eq_one_of_mem hnodup hf]
  · rw [hcopies, List.count_eq_zero.2 hf]
  · intro i hi
    exact Nat.lt_of_lt_of_le ((hok w).accesses_lt (hbounds w).1 i hi) (hbounds w).2
  · intro hpc
    have htake := (hok w).pc
    rwa [hpc] at htake

end

section

/-- One of two workers takes three fibers, the last one into an empty cache, and gives them back;
the third one overflows the cache. -/
def spillRun {ι : Type} (w : ι) : List (Act Nat ι) :=
  [.pop w, .sizeApprox w 1, .tryDequeue w (some 0), .sizeApprox w 1, .tryDequeue w (some 1),
    .sizeApprox w 1, .next w, .pop w, .next w, .pop w, .sizeApprox w 1, .tryDequeue w (some 2),
    .sizeApprox w 0, .next w, .push w 1, .push w 0, .push w 2, .next w, .next w, .next w]

theorem fibers_conserved_spillRun :
    ((Lts.run (step fun _ => activeCapacity 2) (init [0, 1, 2])
      (spillRun (0 : Fin 2))).get (by decide)).copies
      (fun _ => activeCapacity 2) 2 = 1 :=
  (fibers_conserved (fun _ => 2) [0, 1, 2] (by decide) (spillRun (0 : Fin 2)) _
    (Option.some_get (by decide)).symm).1 2 (by decide)

end

end JLibScheduler.GlobalFiberPool
