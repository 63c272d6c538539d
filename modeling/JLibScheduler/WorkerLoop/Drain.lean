import JLibScheduler.WorkerLoop.Basic

/-!
# The inbox drain drops no task

At each place of the loop a lane's deque is in one of five uses (`Pc.use`): the worker is in none of
its calls; it is in none and has found the deque empty since it last pushed to it; or it is in one
of the three calls. A step of a thief keeps the use of a lane (`LaneOk.thief`), so the two pops of
the third section leave both deques empty up to the drain of the inboxes, and a batch of at most
`batchSize` tasks fits.
-/

namespace JLibScheduler.WorkerLoop

open JLibScheduler.Thread (capacity batchSize)
open TaskDeque (ItemsOk BatchOk ValidCapacity)

/-- What the worker does with a deque. -/
inductive Use
  | idle
  | empty
  | push
  | pop
  | batch
  deriving DecidableEq

/-- What the worker does with the deque of a lane at a place of its loop. -/
def Pc.use : Pc → Bool → Use
  | .push _, false => .push
  | .popBottom true, true | .popBottom false, false | .popBatch true, true
  | .popBatch false, false => .pop
  | .callPop false, true | .popBottom false, true | .steal, _ | .inbox true, _ | .callBatch true, _
  | .inbox false, false | .callBatch false, false => .empty
  | .pushBatch true, false | .callPopBatch true, false | .popBatch true, false => .empty
  | .pushBatch true, true | .pushBatch false, false => .batch
  | _, _ => .idle

section
variable {ι τ : Type}

/-- What holds of a deque in each use. -/
def UseOk (d : TaskDeque.State ι τ) : Use → Prop
  | .idle => d.owner = .idle
  | .empty => d.owner = .idle ∧ d.Empty
  | .push => True
  | .pop => d.owner.pops = true
  | .batch => BatchOk capacity d

/-- The deque of a lane in its use. -/
structure LaneOk (u : Use) (d : TaskDeque.State ι τ) : Prop where
  inv : TaskDeque.Inv capacity d
  items : ItemsOk capacity d
  use : UseOk d u

variable {d d' : TaskDeque.State ι τ} {u : Use}

theorem validCapacity : ValidCapacity capacity := by
  unfold ValidCapacity
  decide

theorem LaneOk.init : LaneOk .idle (TaskDeque.State.init : TaskDeque.State ι τ) :=
  ⟨.init, .init, rfl⟩

/-- An empty deque is an idle one. -/
theorem LaneOk.idle (h : LaneOk .empty d) : LaneOk .idle d := ⟨h.inv, h.items, h.use.1⟩

section
variable [DecidableEq ι]

omit [DecidableEq ι] in
/-- A step that leaves the owner and the items as they are, and does not lower `top_`, keeps the use
of a lane. -/
theorem LaneOk.of_frame (h : LaneOk u d) (hinv' : TaskDeque.Inv capacity d')
    (howner : d'.owner = d.owner) (hbuffer : d'.buffer = d.buffer) (hbottom : d'.bottom = d.bottom)
    (htop : d.top ≤ d'.top) : LaneOk u d' := by
  obtain ⟨hitems, hempty, hbatch⟩ := TaskDeque.thief_keeps howner hbuffer hbottom htop hinv'
  refine ⟨hinv', hitems h.items, ?_⟩
  have huse := h.use
  cases u with
  | idle => exact howner.trans huse
  | empty => exact ⟨howner.trans huse.1, hempty huse.2⟩
  | push => trivial
  | pop => exact (congrArg _ howner).trans huse
  | batch => exact hbatch huse

/-- A step of a thief keeps the use of a lane. -/
theorem LaneOk.thief (h : LaneOk u d) (hoff : d.offered < 2 ^ 64) {i : ι}
    (hstep : TaskDeque.thiefStep capacity d i = some d') : LaneOk u d' := by
  obtain ⟨howner, hbuffer, hbottom⟩ := TaskDeque.thief_frame hstep
  exact h.of_frame
    (TaskDeque.Refines.step validCapacity h.inv hoff (a := .thief i) trivial hstep).1
    howner hbuffer hbottom (TaskDeque.thief_top h.inv hoff hstep)

/-- The call of a thief keeps the use of a lane. -/
theorem LaneOk.callSteal (h : LaneOk u d) (hoff : d.offered < 2 ^ 64) {i : ι}
    (hstep : TaskDeque.thiefCall d i = some d') : LaneOk u d' := by
  obtain ⟨howner, hbuffer, hbottom, htop⟩ := TaskDeque.thiefCall_frame hstep
  exact h.of_frame
    (TaskDeque.Refines.step validCapacity h.inv hoff (a := .callSteal i) trivial hstep).1
    howner hbuffer hbottom htop.ge

/-- The worker enters a call on a deque that it is not using. -/
theorem LaneOk.call (h : LaneOk .idle d) (hoff : d.offered < 2 ^ 64) {op : TaskDeque.Op τ}
    (hop : op.NonNull) (hstep : TaskDeque.ownerCall d op = some d')
    (hu : u = .push ∨ (u = .pop ∧ op = .popBottom) ∨
      (u = .batch ∧ d.Empty ∧ ∃ items, op = .pushBottomBatch items ∧ items.length ≤ capacity)) :
    LaneOk u d' := by
  have hinv' : TaskDeque.Inv capacity d' :=
    (TaskDeque.Refines.step validCapacity h.inv hoff (a := .call op) hop hstep).1
  have hidle : d.owner = .idle := h.use
  have hlim : d.limit = d.bottom := by simp [TaskDeque.State.limit, hidle]
  have hcell : ∀ i, d.top ≤ i → i < d.bottom → d.cell capacity i ≠ none := fun i hi hi' =>
    h.items.cell i hi (by rwa [hlim])
  unfold TaskDeque.ownerCall at hstep
  rw [hidle] at hstep
  cases op with
  | pushBottom item =>
    cases item with
    | none => exact absurd rfl hop
    | some x =>
      cases hstep
      refine ⟨hinv', ⟨hcell, Option.some_ne_none x⟩, ?_⟩
      rcases hu with rfl | ⟨-, hop⟩ | ⟨-, -, items, hop, -⟩
      · trivial
      · cases hop
      · cases hop
  | pushBottomBatch items =>
    cases hstep
    refine ⟨hinv', ⟨hcell, fun hnone => hop none hnone rfl⟩, ?_⟩
    rcases hu with rfl | ⟨-, hop⟩ | ⟨rfl, hempty, items', hop, hlen⟩
    · trivial
    · cases hop
    · cases hop
      exact ⟨hlen, hlim.symm.trans hempty⟩
  | popBottom =>
    cases hstep
    refine ⟨hinv', ⟨hcell, trivial⟩, ?_⟩
    rcases hu with rfl | ⟨rfl, -⟩ | ⟨-, -, items, hop, -⟩
    · trivial
    · rfl
    · cases hop
  | steal => cases hstep

/-- The worker's next access in a `push_bottom`. -/
theorem LaneOk.push (h : LaneOk .push d) (hoff : d.offered < 2 ^ 64)
    (hstep : TaskDeque.ownerStep capacity d = some d') :
    LaneOk .push d' ∧ ∀ r, d'.returned = some r → LaneOk .idle d' := by
  have hinv' : TaskDeque.Inv capacity d' :=
    (TaskDeque.Refines.step validCapacity h.inv hoff (a := .owner) trivial hstep).1
  have hitems := h.items.ownerStep validCapacity h.inv hoff hstep
  exact ⟨⟨hinv', hitems, trivial⟩,
    fun r hr => ⟨hinv', hitems, TaskDeque.owner_of_returned hr⟩⟩

/-- The worker's next access in a `pop_bottom`: it goes on, it finds the deque empty, or it gets a
task. -/
theorem LaneOk.pop (h : LaneOk .pop d) (hoff : d.offered < 2 ^ 64)
    (hstep : TaskDeque.ownerStep capacity d = some d') :
    (d'.returned = none ∧ LaneOk .pop d') ∨
      (d'.returned = some (.taken none) ∧ LaneOk .empty d') ∨
      ∃ t, d'.returned = some (.taken (some (some t))) ∧ LaneOk .idle d' := by
  have hinv' : TaskDeque.Inv capacity d' :=
    (TaskDeque.Refines.step validCapacity h.inv hoff (a := .owner) trivial hstep).1
  have hitems := h.items.ownerStep validCapacity h.inv hoff hstep
  rcases TaskDeque.ownerStep_pops h.items h.inv hoff h.use hstep with
    ⟨hpops, hr⟩ | ⟨hr, hempty⟩ | ⟨t, hr⟩
  · exact .inl ⟨hr, hinv', hitems, hpops⟩
  · exact .inr (.inl ⟨hr, hinv', hitems, TaskDeque.owner_of_returned hr, hempty⟩)
  · exact .inr (.inr ⟨t, hr, hinv', hitems, TaskDeque.owner_of_returned hr⟩)

/-- The worker's next access in the `push_bottom_batch` of a batch on an empty deque: it goes on, or
the batch is accepted. -/
theorem LaneOk.batch (h : LaneOk .batch d) (hoff : d.offered < 2 ^ 64)
    (hstep : TaskDeque.ownerStep capacity d = some d') :
    (d'.returned = none ∧ LaneOk .batch d') ∨
      (d'.returned = some (.pushed true) ∧ LaneOk .idle d') := by
  have hinv' : TaskDeque.Inv capacity d' :=
    (TaskDeque.Refines.step validCapacity h.inv hoff (a := .owner) trivial hstep).1
  have hitems := h.items.ownerStep validCapacity h.inv hoff hstep
  rcases TaskDeque.ownerStep_batch h.inv hoff h.use hstep with ⟨hbatch, hr⟩ | hr
  · exact .inl ⟨hr, hinv', hitems, hbatch⟩
  · exact .inr ⟨hr, hinv', hitems, TaskDeque.owner_of_returned hr⟩

end

/-! ## The loop -/

/-- The worker searches for a task. -/
def Pc.searching : Pc → Bool
  | .top | .run | .push _ | .stopped => false
  | _ => true

/-- The invariant of the loop. -/
structure Inv (s : State ι τ) : Prop where
  lane : ∀ hi, LaneOk (s.pc.use hi) (s.deque hi)
  size : s.batch.length ≤ batchSize
  dropped : s.dropped = []
  taskToRun : s.pc.searching = true → s.taskToRun = none

theorem Inv.init : Inv (State.init : State ι τ) where
  lane hi := by cases hi <;> exact .init
  size := Nat.zero_le _
  dropped := rfl
  taskToRun _ := rfl

variable {s s' : State ι τ}

/-- The use of a lane may turn from `empty` to `idle` where the worker moves on. -/
def Pc.Weakens (pc pc' : Pc) (hi : Bool) : Prop :=
  pc'.use hi = pc.use hi ∨ (pc.use hi = .empty ∧ pc'.use hi = .idle)

theorem Inv.weaken (h : Inv s) {pc' : Pc} {hi : Bool} (hw : s.pc.Weakens pc' hi) :
    LaneOk (pc'.use hi) (s.deque hi) := by
  have hlane := h.lane hi
  rcases hw with huse | ⟨hempty, hidle⟩
  · rwa [huse]
  · rw [hempty] at hlane
    rw [hidle]
    exact hlane.idle

/-- A step that touches no deque. -/
theorem Inv.move (h : Inv s) {pc : Pc} (hpc : s.pc = pc) (pc' : Pc) (hpc' : s'.pc = pc')
    (hw : ∀ hi, pc.Weakens pc' hi) (hdeque : s'.deque = s.deque)
    (hsize : s'.batch.length ≤ batchSize) (hdropped : s'.dropped = s.dropped)
    (htask : pc'.searching = true → s'.taskToRun = none) : Inv s' where
  lane hi := by
    rw [hdeque, hpc']
    exact h.weaken (hpc ▸ hw hi)
  size := hsize
  dropped := hdropped.trans h.dropped
  taskToRun := hpc' ▸ htask

/-- A step that touches the deque of one lane. -/
theorem Inv.setLane (h : Inv s) {pc : Pc} (hpc : s.pc = pc) (pc' : Pc) (hpc' : s'.pc = pc')
    (hi : Bool) {d : TaskDeque.State ι τ} (hdeque : s'.deque = Function.update s.deque hi d)
    (hlane : LaneOk (pc'.use hi) d) (hw : pc.Weakens pc' (!hi))
    (hsize : s'.batch.length ≤ batchSize) (hdropped : s'.dropped = s.dropped)
    (htask : pc'.searching = true → s'.taskToRun = none) : Inv s' where
  lane hi' := by
    rw [hdeque, hpc']
    by_cases heq : hi' = hi
    · subst heq
      rwa [Function.update_self]
    · rw [Function.update_of_ne heq]
      rw [← Bool.eq_not.2 heq, ← hpc] at hw
      exact h.weaken hw
  size := hsize
  dropped := hdropped.trans h.dropped
  taskToRun := hpc' ▸ htask

instance (pc pc' : Pc) (hi : Bool) : Decidable (pc.Weakens pc' hi) :=
  inferInstanceAs (Decidable (_ ∨ _))

section
variable [DecidableEq ι]

/-- The worker enters a call. -/
theorem Inv.call (h : Inv s) {hi : Bool} {op : TaskDeque.Op τ} {pc : Pc}
    (hlane : LaneOk .idle (s.deque hi)) (hoff : (s.deque hi).offered < 2 ^ 64) (hop : op.NonNull)
    (hu : pc.use hi = .push ∨ (pc.use hi = .pop ∧ op = .popBottom) ∨
      (pc.use hi = .batch ∧ (s.deque hi).Empty ∧
        ∃ items, op = .pushBottomBatch items ∧ items.length ≤ capacity))
    (hw : s.pc.Weakens pc (!hi)) (htask : pc.searching = true → s.taskToRun = none)
    (hs : s.call hi op pc = some s') : Inv s' := by
  obtain ⟨d, hd, rfl⟩ := Option.map_eq_some_iff.1 hs
  exact h.setLane rfl pc rfl hi rfl (hlane.call hoff hop hd hu) hw h.size rfl htask

/-- The first section. -/
theorem Inv.run (h : Inv s) (hoff : ∀ hi, (s.deque hi).offered < 2 ^ 64) (hpc : s.pc = .run)
    {t : τ} {r : Ran} (hs : s.run t r = some s') : Inv s' := by
  have hlane : ∀ hi, LaneOk .idle (s.deque hi) := fun hi => by
    have := h.lane hi
    rw [hpc] at this
    cases hi <;> exact this
  have hop : (TaskDeque.Op.pushBottom (some t)).NonNull := Option.some_ne_none t
  have hpush : ∀ again, s.call false (.pushBottom (some t)) (.push again) = some s' → Inv s' :=
    fun again hs => h.call (hlane false) (hoff false) hop (.inl rfl)
      (by rw [hpc]; exact .inl rfl) (fun hf => by cases hf) hs
  cases r with
  | fast =>
    cases hs
    exact h.move hpc .top rfl (by decide) rfl h.size rfl fun _ => rfl
  | noFiber =>
    simp only [State.run] at hs
    split_ifs at hs
    · cases hs
      exact h.move hpc .top rfl (by decide) rfl h.size rfl fun hf => by cases hf
    · exact hpush true hs
  | yielded => exact hpush false hs
  | left =>
    cases hs
    exact h.move hpc .immediate rfl (by decide) rfl h.size rfl fun _ => rfl

/-- The worker's next access in the `push_bottom` of the first section. -/
theorem Inv.push (h : Inv s) (hoff : ∀ hi, (s.deque hi).offered < 2 ^ 64) {again : Bool}
    (hpc : s.pc = .push again)
    (hs : (s.access false fun s _ => if again then { s with pc := .top } else s.endSection) =
      some s') : Inv s' := by
  have hlane := h.lane false
  obtain ⟨d, hd, rfl⟩ := Option.map_eq_some_iff.1 hs
  rw [hpc] at hlane
  obtain ⟨hpush, hidle⟩ := LaneOk.push hlane (hoff false) hd
  cases hr : d.returned with
  | none =>
    exact h.setLane hpc (.push again) hpc false rfl hpush (.inl rfl) h.size rfl
      fun hf => by cases hf
  | some r =>
    cases again with
    | true =>
      exact h.setLane hpc .top rfl false rfl (hidle r hr) (by decide) h.size rfl
        fun hf => by cases hf
    | false =>
      exact h.setLane hpc .immediate rfl false rfl (hidle r hr) (by decide) h.size rfl fun _ => rfl

/-- The worker's next access in a `pop_bottom`: it goes on, or finds the deque empty, or gets a
task. -/
theorem Inv.pop (h : Inv s) (hoff : ∀ hi, (s.deque hi).offered < 2 ^ 64) {hi : Bool}
    {k : State ι τ → TaskDeque.Res τ → State ι τ} (huse : s.pc.use hi = .pop)
    (hgot : ∀ d t, LaneOk .idle d → Inv (k (s.setDeque hi d) (.taken (some (some t)))))
    (hnone : ∀ d, LaneOk .empty d → Inv (k (s.setDeque hi d) (.taken none)))
    (hs : s.access hi k = some s') : Inv s' := by
  have hlane := h.lane hi
  obtain ⟨d, hd, rfl⟩ := Option.map_eq_some_iff.1 hs
  rw [huse] at hlane
  rcases hlane.pop (hoff hi) hd with ⟨hr, hpop⟩ | ⟨hr, hempty⟩ | ⟨t, hr, hidle⟩
  · rw [hr]
    exact h.setLane rfl s.pc rfl hi rfl (huse.symm ▸ hpop) (.inl rfl) h.size rfl h.taskToRun
  · rw [hr]
    exact hnone d hempty
  · rw [hr]
    exact hgot d t hidle

/-- The worker's next access in a `push_bottom_batch`: it goes on, or the batch was accepted. -/
theorem Inv.pushBatch (h : Inv s) (hoff : ∀ hi, (s.deque hi).offered < 2 ^ 64) {hi : Bool}
    {k : State ι τ → TaskDeque.Res τ → State ι τ} (huse : s.pc.use hi = .batch)
    (hs : s.access hi k = some s') :
    (Inv s' ∧ s'.pc = s.pc) ∨
      ∃ d, LaneOk .idle d ∧ s' = k (s.setDeque hi d) (.pushed true) := by
  have hlane := h.lane hi
  obtain ⟨d, hd, rfl⟩ := Option.map_eq_some_iff.1 hs
  rw [huse] at hlane
  rcases hlane.batch (hoff hi) hd with ⟨hr, hbatch⟩ | ⟨hr, hidle⟩
  · rw [hr]
    exact .inl ⟨h.setLane rfl s.pc rfl hi rfl (huse.symm ▸ hbatch) (.inl rfl) h.size rfl
      h.taskToRun, rfl⟩
  · rw [hr]
    exact .inr ⟨d, hidle, rfl⟩

omit [DecidableEq ι] in
/-- A deque that the worker is not using. -/
theorem Inv.idle_lane (h : Inv s) {pc : Pc} {hi : Bool} (hpc : s.pc = pc)
    (huse : pc.use hi = .idle) : LaneOk .idle (s.deque hi) := by
  have hlane := h.lane hi
  rwa [hpc, huse] at hlane

omit [DecidableEq ι] in
/-- The pops from an inbox end. -/
theorem Inv.popped (h : Inv s) {hi : Bool} (hpc : s.pc = .inbox hi) : Inv (s.popped hi) := by
  have hnone : s.taskToRun = none := h.taskToRun (by rw [hpc]; rfl)
  cases hb : s.batch.isEmpty with
  | true =>
    exact h.move hpc (afterInbox hi) (by simp [State.popped, hb])
      (by cases hi <;> decide) rfl h.size
      rfl fun _ => hnone
  | false =>
    exact h.move hpc (.callBatch hi) (by simp [State.popped, hb])
      (by cases hi <;> decide) rfl h.size
      rfl fun _ => hnone

/-- One step of the worker. -/
theorem Inv.workerStep (h : Inv s) (hoff : ∀ hi, (s.deque hi).offered < 2 ^ 64) {c : Choice τ}
    (hs : s.workerStep c = some s') : Inv s' := by
  have htask := h.taskToRun
  unfold State.workerStep at hs
  split at hs
  case h_1 hpc =>
    cases hs
    cases ht : s.taskToRun with
    | none => exact h.move hpc .immediate rfl (by decide) rfl h.size rfl fun _ => rfl
    | some t => exact h.move hpc .run rfl (by decide) rfl h.size rfl fun hf => by cases hf
  case h_2 hpc | h_3 hpc =>
    cases hs
    exact h.move hpc .stopped rfl (by decide) rfl h.size rfl fun hf => by cases hf
  case h_4 hpc =>
    obtain ⟨t, -, hs⟩ := Option.bind_eq_some_iff.1 hs
    exact h.run hoff hpc hs
  case h_5 hpc => exact h.push hoff hpc hs
  case h_6 hpc =>
    split_ifs at hs
    cases hs
    exact h.move hpc (.callPop true) rfl (by decide) rfl h.size rfl
      fun _ => htask (by rw [hpc]; rfl)
  case h_7 hpc =>
    split_ifs at hs
    cases hs
    exact h.move hpc .top rfl (by decide) rfl h.size rfl fun hf => by cases hf
  case h_8 hi hpc =>
    have hop : (TaskDeque.Op.popBottom : TaskDeque.Op τ).NonNull := trivial
    exact h.call (h.idle_lane hpc (by cases hi <;> rfl)) (hoff hi) hop
      (.inr (.inl ⟨by cases hi <;> rfl, rfl⟩)) (by rw [hpc]; cases hi <;> decide)
      (fun _ => htask (by rw [hpc]; rfl)) hs
  case h_9 hi hpc =>
    refine h.pop hoff (by rw [hpc]; cases hi <;> rfl) (fun d t hd => ?_) (fun d hd => ?_) hs
    · exact h.setLane hpc .top rfl hi rfl hd (by cases hi <;> decide) h.size rfl
        fun hf => by cases hf
    · have hnone : s.taskToRun = none := htask (by rw [hpc]; rfl)
      cases hi with
      | true =>
        exact h.setLane hpc (.callPop false) rfl true rfl hd (by decide) h.size rfl fun _ => hnone
      | false => exact h.setLane hpc .steal rfl false rfl hd (by decide) h.size rfl fun _ => hnone
  case h_10 hpc =>
    cases hs
    exact h.move hpc .top rfl (by decide) rfl h.size rfl fun hf => by cases hf
  case h_11 hpc =>
    cases hs
    exact h.move hpc (.inbox true) rfl (by decide) rfl h.size rfl fun _ => htask (by rw [hpc]; rfl)
  case h_12 hi b hpc =>
    have hnone : s.taskToRun = none := htask (by rw [hpc]; rfl)
    split at hs
    · split_ifs at hs with hb
      · cases hs
        refine h.move hpc (.inbox hi) hpc (fun _ => .inl rfl) rfl ?_ rfl fun _ => hnone
        simpa using hb.2
      · cases hs
        exact h.popped hpc
    · cases hs
      exact h.popped hpc
  case h_13 hi hpc =>
    have hempty : LaneOk .empty (s.deque hi) := by
      have := h.lane hi
      rw [hpc] at this
      cases hi <;> exact this
    have hsize := h.size
    refine h.call hempty.idle (hoff hi) (fun item hitem => ?_) (.inr (.inr ⟨by cases hi <;> rfl,
      hempty.use.2, _, rfl, ?_⟩)) (by rw [hpc]; cases hi <;> decide)
      (fun _ => htask (by rw [hpc]; rfl)) hs
    · obtain ⟨t, -, rfl⟩ := List.mem_map.1 hitem
      exact Option.some_ne_none t
    · rw [List.length_map]
      exact hsize.trans (by decide)
  case h_14 hi hpc =>
    rcases h.pushBatch hoff (by rw [hpc]; cases hi <;> rfl) hs with ⟨hinv, -⟩ | ⟨d, hd, rfl⟩
    · exact hinv
    · exact h.setLane hpc (.callPopBatch hi) rfl hi rfl (by cases hi <;> exact hd)
        (by cases hi <;> decide) (Nat.zero_le _) rfl fun _ => htask (by rw [hpc]; rfl)
  case h_15 hi hpc =>
    have hop : (TaskDeque.Op.popBottom : TaskDeque.Op τ).NonNull := trivial
    exact h.call (h.idle_lane hpc (by cases hi <;> rfl)) (hoff hi) hop
      (.inr (.inl ⟨by cases hi <;> rfl, rfl⟩)) (by rw [hpc]; cases hi <;> decide)
      (fun _ => htask (by rw [hpc]; rfl)) hs
  case h_16 hi hpc =>
    refine h.pop hoff (by rw [hpc]; cases hi <;> rfl) (fun d t hd => ?_) (fun d hd => ?_) hs
    · exact h.setLane hpc .top rfl hi rfl hd (by cases hi <;> decide) h.size rfl
        fun hf => by cases hf
    · have hnone : s.taskToRun = none := htask (by rw [hpc]; rfl)
      cases hi with
      | true =>
        exact h.setLane hpc (.inbox false) rfl true rfl hd.idle (by decide) h.size rfl
          fun _ => hnone
      | false =>
        exact h.setLane hpc .sleep rfl false rfl hd.idle (by decide) h.size rfl fun _ => hnone
  case h_17 hpc =>
    cases hs
    exact h.move hpc .top rfl (by decide) rfl h.size rfl fun hf => by cases hf
  case h_18 => cases hs

/-- One step. -/
theorem Inv.step (h : Inv s) (hoff : ∀ hi, (s.deque hi).offered < 2 ^ 64) {a : Act ι τ}
    (hs : s.step a = some s') : Inv s' := by
  cases a with
  | worker c => exact h.workerStep hoff hs
  | callSteal hi i =>
    obtain ⟨d, hd, rfl⟩ := Option.map_eq_some_iff.1 hs
    exact h.setLane rfl s.pc rfl hi rfl ((h.lane hi).callSteal (hoff hi) hd) (.inl rfl) h.size rfl
      h.taskToRun
  | thief hi i =>
    obtain ⟨d, hd, rfl⟩ := Option.map_eq_some_iff.1 hs
    exact h.setLane rfl s.pc rfl hi rfl ((h.lane hi).thief (hoff hi) hd) (.inl rfl) h.size rfl
      h.taskToRun
  | enqueue hi t | setImmediate t =>
    cases hs
    exact h.move rfl s.pc rfl (fun _ => .inl rfl) rfl h.size rfl h.taskToRun

/-! ## The items offered -/

/-- What a step of the worker does to the deques. -/
def Touches (s s' : State ι τ) : Prop :=
  s'.deque = s.deque ∨ ∃ hi d b, TaskDeque.step capacity (s.deque hi) b = some d ∧
    s'.deque = Function.update s.deque hi d

theorem touches_call {hi : Bool} {op : TaskDeque.Op τ} {pc : Pc}
    (hs : s.call hi op pc = some s') : Touches s s' := by
  obtain ⟨d, hd, rfl⟩ := Option.map_eq_some_iff.1 hs
  exact .inr ⟨hi, d, .call op, hd, rfl⟩

theorem touches_access {hi : Bool} {k : State ι τ → TaskDeque.Res τ → State ι τ}
    (hk : ∀ t r, (k t r).deque = t.deque) (hs : s.access hi k = some s') : Touches s s' := by
  obtain ⟨d, hd, rfl⟩ := Option.map_eq_some_iff.1 hs
  refine .inr ⟨hi, d, .owner, hd, ?_⟩
  cases d.returned with
  | none => rfl
  | some r => exact hk _ r

theorem touches_worker {c : Choice τ} (hs : s.workerStep c = some s') : Touches s s' := by
  unfold State.workerStep at hs
  split at hs
  case h_1 | h_2 | h_3 | h_10 | h_11 | h_17 =>
    cases hs
    exact .inl rfl
  case h_4 =>
    obtain ⟨t, -, hs⟩ := Option.bind_eq_some_iff.1 hs
    unfold State.run at hs
    split at hs
    · cases hs
      exact .inl rfl
    · split_ifs at hs
      · cases hs
        exact .inl rfl
      · exact touches_call hs
    · exact touches_call hs
    · cases hs
      exact .inl rfl
  case h_5 => exact touches_access (fun t r => by split_ifs <;> rfl) hs
  case h_6 | h_7 =>
    split_ifs at hs
    cases hs
    exact .inl rfl
  case h_8 | h_13 | h_15 => exact touches_call hs
  case h_9 | h_14 | h_16 => exact touches_access (fun t r => by split <;> rfl) hs
  case h_12 =>
    split at hs
    · split_ifs at hs <;> cases hs <;> exact .inl rfl
    · cases hs
      exact .inl rfl
  case h_18 => cases hs

/-- The number of items offered to a deque never decreases. -/
theorem offered_le {a : Act ι τ} (hs : s.step a = some s') (hi : Bool) :
    (s.deque hi).offered ≤ (s'.deque hi).offered := by
  have htouches : Touches s s' := by
    cases a with
    | worker c => exact touches_worker hs
    | callSteal hi i =>
      obtain ⟨d, hd, rfl⟩ := Option.map_eq_some_iff.1 hs
      exact .inr ⟨hi, d, .callSteal i, hd, rfl⟩
    | thief hi i =>
      obtain ⟨d, hd, rfl⟩ := Option.map_eq_some_iff.1 hs
      exact .inr ⟨hi, d, .thief i, hd, rfl⟩
    | enqueue | setImmediate =>
      cases hs
      exact .inl rfl
  rcases htouches with heq | ⟨hi', d, b, hd, heq⟩
  · rw [heq]
  · rw [heq]
    by_cases hhi : hi = hi'
    · subst hhi
      rw [Function.update_self]
      exact TaskDeque.offered_le hd
    · rw [Function.update_of_ne hhi]

/-! ## The drain -/

/-- What is claimed of a state: before the `push_bottom_batch` of a lane its deque is empty, the
call goes on or returns `true`, and no batch was refused. -/
structure DrainOk (s : State ι τ) : Prop where
  empty : ∀ hi, s.pc = .callBatch hi → (s.deque hi).top = (s.deque hi).bottom
  accepted : ∀ hi s', s.pc = .pushBatch hi → s.step (.worker .go) = some s' →
    s'.pc = .pushBatch hi ∨ s'.pc = .callPopBatch hi
  dropped : s.dropped = []

theorem Inv.drainOk (h : Inv s) (hoff : ∀ hi, (s.deque hi).offered < 2 ^ 64) : DrainOk s where
  empty hi hpc := by
    have hlane := h.lane hi
    have huse : s.pc.use hi = .empty := by rw [hpc]; cases hi <;> rfl
    rw [huse] at hlane
    obtain ⟨hidle, hempty⟩ := hlane.use
    rw [TaskDeque.State.Empty, TaskDeque.State.limit, hidle] at hempty
    exact hempty.symm
  accepted hi s' hpc hs := by
    simp only [State.step, State.workerStep, hpc] at hs
    rcases h.pushBatch hoff (by rw [hpc]; cases hi <;> rfl) hs with ⟨-, hpc'⟩ | ⟨d, -, rfl⟩
    · exact .inl (hpc'.trans hpc)
    · exact .inr rfl
  dropped := h.dropped

/-- In every run in which fewer than `2 ^ 64` tasks are pushed to a deque, the drain of the inboxes
finds the deque empty and drops no task. -/
theorem drain_dropsNone {as : List (Act ι τ)} (hrun : Lts.run State.step State.init as = some s)
    (hoff : ∀ hi, (s.deque hi).offered < 2 ^ 64) : DrainOk s := by
  have hinv : (∀ hi, (s.deque hi).offered < 2 ^ 64) → Inv s :=
    Lts.run_inv (I := fun s => (∀ hi, (s.deque hi).offered < 2 ^ 64) → Inv s)
      (fun ih hstep hoff => by
        have hoff' := fun hi => (offered_le hstep hi).trans_lt (hoff hi)
        exact (ih hoff').step hoff' hstep)
      (fun _ => .init) hrun
  exact (hinv hoff).drainOk hoff

end

end

/-- The loop drains two tasks from its inbox into the empty deque. -/
theorem drain_dropsNone_two : ∃ s : State Unit ℕ,
    Lts.run State.step State.init ([.enqueue true 1, .enqueue true 2] ++
      [.worker .go, .worker .go, .worker .go, .worker .go, .worker .go, .worker .go, .worker .go,
        .worker .go, .worker (.stole none), .worker (.wins true), .worker (.wins true),
        .worker (.wins false)]) = some s ∧ s.pc = .callBatch true ∧ s.batch = [1, 2] ∧
        DrainOk s := by
  refine ⟨_, (Option.some_get (x := Lts.run _ _ _) (by decide)).symm, by decide, by decide, ?_⟩
  exact drain_dropsNone (Option.some_get (x := Lts.run _ _ _) (by decide)).symm (by decide)

end JLibScheduler.WorkerLoop
