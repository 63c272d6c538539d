import JLibScheduler.WorkerLoop.Drain

/-!
# The indices of a deque after `2 ^ 64` pushes

The indices of a deque only grow. A task that yields is pushed to the deque and popped again, which
moves both indices on by one; when the bottom index has wrapped around and the top index has not,
`pop_bottom` takes the deque for empty while the task is in it, and the drain of the inbox pushes
its batch to a deque that is not empty (`not_drainOk_wrapped`).
-/

namespace JLibScheduler.TaskDeque

section
variable {ι α : Type} {capacity : Nat} {d d' : State ι α} {r : Res α}

/-- The accesses of the owner up to the return of its call with `r`. -/
inductive Finishes (capacity : Nat) : State ι α → Res α → State ι α → Prop
  | last {d d' : State ι α} {r : Res α} : ownerStep capacity d = some d' →
      d'.returned = some r → Finishes capacity d r d'
  | access {d d' : State ι α} {r : Res α} (d₁ : State ι α) : ownerStep capacity d = some d₁ →
      d₁.returned = none → Finishes capacity d₁ r d' → Finishes capacity d r d'

/-- A `push_bottom` to a deque with room. -/
theorem finishes_push {item : Ptr α} (hpc : d.owner = .pushLoadBottom item)
    (hroom : SizeT.sub d.bottom d.top < capacity) :
    Finishes capacity d (.pushed true) (State.ownerReturn { d with
      buffer := Function.update d.buffer (SizeT.slot capacity d.bottom) item
      bottom := SizeT.add d.bottom 1 } (.pushed true)) := by
  refine .access { d with owner := .pushLoadTop item d.bottom } ?_ rfl ?_
  · simp only [ownerStep, hpc]
  refine .access { d with owner := .pushWrite item d.bottom } ?_ rfl ?_
  · simp only [ownerStep, Nat.not_le.2 hroom, if_false]
  refine .access { d with
    buffer := Function.update d.buffer (SizeT.slot capacity d.bottom) item
    owner := .pushStore item d.bottom } ?_ rfl ?_
  · rfl
  exact .last rfl rfl

/-- A `pop_bottom` that finds the bottom index not above the top one. -/
theorem finishes_popNone (hpc : d.owner = .popLoadBottom) (hle : d.bottom ≤ d.top) :
    Finishes capacity d (.taken none) (d.ownerReturn (.taken none)) := by
  refine .access { d with owner := .popLoadTop d.bottom } ?_ rfl (.last ?_ rfl)
  · simp only [ownerStep, hpc]
  · simp only [ownerStep, hle, if_true]
    rfl

/-- A `pop_bottom` of the only item. -/
theorem finishes_popLast {k : Nat} {x : α} (hpc : d.owner = .popLoadBottom)
    (hbottom : d.bottom = k + 1) (htop : d.top = k) (hk : k + 1 < 2 ^ 64)
    (hitem : d.buffer (SizeT.slot capacity k) = some x) :
    Finishes capacity d (.taken (some (some x))) (State.ownerReturn { d with
      top := k + 1, bottom := k + 1 } (.taken (some (some x)))) := by
  have hadd : SizeT.add k 1 = k + 1 := SizeT.add_of_lt hk
  have hsub : SizeT.sub (k + 1) 1 = k := SizeT.sub_of_le (Nat.le_add_left 1 k) hk
  refine .access { d with owner := .popLoadTop (k + 1) } ?_ rfl ?_
  · simp only [ownerStep, hpc, hbottom]
  refine .access { d with owner := .popStore k } ?_ rfl ?_
  · simp only [ownerStep, htop, hsub]
    exact if_neg (by omega)
  refine .access { d with bottom := k, owner := .popReloadTop k } rfl rfl ?_
  refine .access { d with bottom := k, owner := .popRead k k } ?_ rfl ?_
  · simp only [ownerStep, htop]
    exact if_pos (Nat.le_refl k)
  refine .access { d with bottom := k, owner := .popCas k k (some x) } ?_ rfl ?_
  · simp only [ownerStep, hitem]
    exact if_pos trivial
  refine .access { d with bottom := k, top := k + 1, owner := .popWon k (some x) } ?_ rfl ?_
  · simp only [ownerStep, htop, hadd]
    exact if_pos trivial
  refine .last ?_ rfl
  simp only [ownerStep, hadd]
  rfl

end

end JLibScheduler.TaskDeque

namespace JLibScheduler.WorkerLoop

open JLibScheduler.Thread (capacity)
open TaskDeque (Finishes)

section
variable {ι τ : Type} [DecidableEq ι] {s : State ι τ} {t : τ} {k : ℕ}

/-- A call on the deque of a lane runs up to its return. -/
theorem reachable_access (pc : Pc) (hi : Bool) {f : State ι τ → TaskDeque.Res τ → State ι τ}
    (hpc : ∀ s : State ι τ, s.pc = pc → s.workerStep .go = s.access hi f)
    {d d' : TaskDeque.State ι τ} {r : TaskDeque.Res τ} (hd : Finishes capacity d r d') :
    ∀ {s : State ι τ}, s.pc = pc → s.deque hi = d →
      Lts.Reachable State.step s (f (s.setDeque hi d') r) := by
  induction hd with
  | @last d d' r hstep hr =>
    intro s hs hdeque
    refine .head (a := .worker .go) ?_ (.refl _)
    simp only [State.step, hpc s hs, State.access, hdeque, hstep, Option.map_some, hr]
  | @access d d' r d₁ hstep hr _ ih =>
    intro s hs hdeque
    have hset : s.setDeque hi d' = (s.setDeque hi d₁).setDeque hi d' := by
      simp [State.setDeque]
    rw [hset]
    refine .head (a := .worker .go) ?_ (ih (s := s.setDeque hi d₁) hs (by simp [State.setDeque]))
    simp only [State.step, hpc s hs, State.access, hdeque, hstep, Option.map_some, hr]

/-- A lap of the loop in which nothing but a task that yields comes to the worker: its place and its
task, and the two indices of its loPri deque. The hiPri deque was never used. -/
structure Lap (s : State ι τ) (pc : Pc) (task : Option τ) (top bottom : ℕ) : Prop where
  pc : s.pc = pc
  taskToRun : s.taskToRun = task
  immediateTask : s.immediateTask = none
  batch : s.batch = []
  inbox : s.inbox = fun _ => []
  hiOwner : (s.deque true).owner = .idle
  hiTop : (s.deque true).top = 0
  hiBottom : (s.deque true).bottom = 0
  owner : (s.deque false).owner = .idle
  top : (s.deque false).top = top
  bottom : (s.deque false).bottom = bottom

/-- The task that the worker runs yields. -/
theorem Lap.yield (h : Lap s .top (some t) k k) :
    ∃ s', Lts.Reachable State.step s s' ∧ Lap s' .immediate none k (SizeT.add k 1) ∧
      (s'.deque false).buffer (SizeT.slot capacity k) = some t := by
  have hidle := h.owner
  have htop := h.top
  have hbottom := h.bottom
  let d : TaskDeque.State ι τ := { s.deque false with
    owner := .pushLoadBottom (some t)
    hist := .inv none (.pushBottom (some t)) :: (s.deque false).hist
    offered := (s.deque false).offered + 1 }
  have hroom : SizeT.sub d.bottom d.top < capacity := by
    change SizeT.sub (s.deque false).bottom (s.deque false).top < capacity
    rw [htop, hbottom, SizeT.sub, Nat.add_sub_cancel_left]
    decide
  have h₁ : s.step (.worker .go) = some { s with pc := .run } := by
    simp [State.step, State.workerStep, h.pc, h.taskToRun]
  have h₂ : State.step { s with pc := .run } (.worker (.ran .yielded)) =
      some { s.setDeque false d with pc := .push false } := by
    simp [State.step, State.workerStep, h.taskToRun, State.run, State.call, TaskDeque.ownerCall,
      hidle, State.setDeque, d, TaskDeque.Op.size]
  have hrun := reachable_access (.push false) false
    (f := fun s _ => if false then { s with pc := .top } else s.endSection)
    (fun s hs => by simp [State.workerStep, hs]) (TaskDeque.finishes_push (d := d) rfl hroom)
    (s := { s.setDeque false d with pc := .push false }) rfl (by simp [State.setDeque])
  refine ⟨_, .head h₁ (.head h₂ hrun),
    ⟨rfl, rfl, h.immediateTask, h.batch, h.inbox, ?_, ?_, ?_, ?_, ?_, ?_⟩, ?_⟩
  · simpa [State.setDeque, State.endSection] using h.hiOwner
  · simpa [State.setDeque, State.endSection] using h.hiTop
  · simpa [State.setDeque, State.endSection] using h.hiBottom
  · simp [State.setDeque, State.endSection, TaskDeque.State.ownerReturn]
  · simpa [State.setDeque, State.endSection, TaskDeque.State.ownerReturn, d] using htop
  · simp [State.setDeque, State.endSection, TaskDeque.State.ownerReturn, d, hbottom]
  · simp [State.setDeque, State.endSection, TaskDeque.State.ownerReturn, d, hbottom]

/-- The deque of a lane after a `pop_bottom` that found nothing. -/
def popNone (d : TaskDeque.State ι τ) : TaskDeque.State ι τ :=
  TaskDeque.State.ownerReturn { d with
    owner := .popLoadBottom, hist := .inv none .popBottom :: d.hist } (.taken none)

/-- What the worker does with what a `pop_bottom` returned. -/
def afterPop (next : Pc) (s : State ι τ) : TaskDeque.Res τ → State ι τ
  | .taken (some (some t)) => { s with taskToRun := some t, pc := .top }
  | _ => { s with pc := next }

/-- A `pop_bottom` of the third section finds nothing. -/
theorem reachable_popNone (hi : Bool) (hpc : s.pc = .callPop hi)
    (hidle : (s.deque hi).owner = .idle) (hle : (s.deque hi).bottom ≤ (s.deque hi).top) :
    Lts.Reachable State.step s { s.setDeque hi (popNone (s.deque hi)) with
      pc := if hi then .callPop false else .steal } := by
  let d : TaskDeque.State ι τ := { s.deque hi with
    owner := .popLoadBottom, hist := .inv none .popBottom :: (s.deque hi).hist }
  have h₁ : s.step (.worker .go) = some { s.setDeque hi d with pc := .popBottom hi } := by
    simp [State.step, State.workerStep, hpc, State.call, TaskDeque.ownerCall, hidle, State.setDeque,
      d, TaskDeque.Op.size]
  have hrun := reachable_access (.popBottom hi) hi
    (f := afterPop (if hi then .callPop false else .steal))
    (fun s hs => by simp only [State.workerStep, hs]; rfl)
    (TaskDeque.finishes_popNone (d := d) rfl hle)
    (s := { s.setDeque hi d with pc := .popBottom hi }) rfl (by simp [State.setDeque])
  refine .head h₁ ?_
  have hset : State.setDeque { s.setDeque hi d with pc := .popBottom hi } hi
      (d.ownerReturn (.taken none)) =
        { s.setDeque hi (popNone (s.deque hi)) with pc := .popBottom hi } := by
    simp [State.setDeque, popNone, d]
  rw [hset] at hrun
  exact hrun

/-- The worker searches its hiPri deque and finds nothing. -/
theorem Lap.search {b : ℕ} (h : Lap s .immediate none k b) :
    ∃ s', Lts.Reachable State.step s s' ∧ Lap s' (.callPop false) none k b ∧
      s'.deque false = s.deque false := by
  have h₁ : s.step (.worker .go) = some { s with pc := .callPop true } := by
    simp [State.step, State.workerStep, h.pc, h.immediateTask]
  have hrun := reachable_popNone (s := { s with pc := .callPop true }) true rfl h.hiOwner
    (by rw [h.hiTop, h.hiBottom])
  refine ⟨_, .head h₁ hrun,
    ⟨rfl, h.taskToRun, h.immediateTask, h.batch, h.inbox, ?_, ?_, ?_, ?_, ?_, ?_⟩, ?_⟩
  · simp [State.setDeque, popNone, TaskDeque.State.ownerReturn]
  · simpa [State.setDeque, popNone, TaskDeque.State.ownerReturn] using h.hiTop
  · simpa [State.setDeque, popNone, TaskDeque.State.ownerReturn] using h.hiBottom
  · simpa [State.setDeque] using h.owner
  · simpa [State.setDeque] using h.top
  · simpa [State.setDeque] using h.bottom
  · simp [State.setDeque]

/-- The worker pops the task that has yielded. -/
theorem Lap.pop (h : Lap s (.callPop false) none k (k + 1)) (hk : k + 1 < 2 ^ 64)
    (hitem : (s.deque false).buffer (SizeT.slot capacity k) = some t) :
    ∃ s', Lts.Reachable State.step s s' ∧ Lap s' .top (some t) (k + 1) (k + 1) := by
  let d : TaskDeque.State ι τ := { s.deque false with
    owner := .popLoadBottom, hist := .inv none .popBottom :: (s.deque false).hist }
  have h₁ : s.step (.worker .go) = some { s.setDeque false d with pc := .popBottom false } := by
    simp [State.step, State.workerStep, h.pc, State.call, TaskDeque.ownerCall, h.owner,
      State.setDeque, d, TaskDeque.Op.size]
  have hrun := reachable_access (.popBottom false) false
    (f := afterPop Pc.steal)
    (fun s hs => by simp only [State.workerStep, hs]; rfl)
    (TaskDeque.finishes_popLast (d := d) rfl h.bottom h.top hk hitem)
    (s := { s.setDeque false d with pc := .popBottom false }) rfl (by simp [State.setDeque])
  simp only [afterPop] at hrun
  refine ⟨_, .head h₁ hrun,
    ⟨rfl, rfl, h.immediateTask, h.batch, h.inbox, ?_, ?_, ?_, ?_, ?_, ?_⟩⟩
  · simpa [State.setDeque] using h.hiOwner
  · simpa [State.setDeque] using h.hiTop
  · simpa [State.setDeque] using h.hiBottom
  · simp [State.setDeque, TaskDeque.State.ownerReturn]
  · simp [State.setDeque, TaskDeque.State.ownerReturn]
  · simp [State.setDeque, TaskDeque.State.ownerReturn]

/-- A lap moves both indices on by one. -/
theorem Lap.next (h : Lap s .top (some t) k k) (hk : k + 1 < 2 ^ 64) :
    ∃ s', Lts.Reachable State.step s s' ∧ Lap s' .top (some t) (k + 1) (k + 1) := by
  obtain ⟨s₁, hreach₁, hlap₁, hitem⟩ := h.yield
  obtain ⟨s₂, hreach₂, hlap₂, hdeque⟩ := hlap₁.search
  rw [SizeT.add_of_lt hk] at hlap₂
  obtain ⟨s₃, hreach₃, hlap₃⟩ := hlap₂.pop hk (hdeque ▸ hitem)
  exact ⟨s₃, hreach₁.trans (hreach₂.trans hreach₃), hlap₃⟩

/-- After any number of laps. -/
theorem Lap.laps (h : Lap s .top (some t) 0 0) (hk : k < 2 ^ 64) :
    ∃ s', Lts.Reachable State.step s s' ∧ Lap s' .top (some t) k k := by
  induction k with
  | zero => exact ⟨s, .refl s, h⟩
  | succ k ih =>
    obtain ⟨s₁, hreach₁, hlap₁⟩ := ih (by omega)
    obtain ⟨s₂, hreach₂, hlap₂⟩ := hlap₁.next hk
    exact ⟨s₂, hreach₁.trans hreach₂, hlap₂⟩

/-- The worker takes its loPri deque for empty. -/
theorem Lap.miss {b : ℕ} (h : Lap s (.callPop false) none k b) (hb : b ≤ k) :
    ∃ s', Lts.Reachable State.step s s' ∧ Lap s' .steal none k b := by
  have hrun := reachable_popNone false h.pc h.owner (by rwa [h.top, h.bottom])
  refine ⟨_, hrun, ⟨rfl, h.taskToRun, h.immediateTask, h.batch, h.inbox, ?_, ?_, ?_, ?_, ?_, ?_⟩⟩
  · simpa [State.setDeque] using h.hiOwner
  · simpa [State.setDeque] using h.hiTop
  · simpa [State.setDeque] using h.hiBottom
  · simp [State.setDeque, popNone, TaskDeque.State.ownerReturn]
  · simpa [State.setDeque, popNone, TaskDeque.State.ownerReturn] using h.top
  · simpa [State.setDeque, popNone, TaskDeque.State.ownerReturn] using h.bottom

/-- The worker steals its first task. -/
theorem exists_lap (t : τ) :
    ∃ s : State ι τ, Lts.Reachable State.step State.init s ∧ Lap s .top (some t) 0 0 := by
  have h₀ : Lap ({ State.init with pc := .immediate } : State ι τ) .immediate none 0 0 :=
    ⟨rfl, rfl, rfl, rfl, rfl, rfl, rfl, rfl, rfl, rfl, rfl⟩
  obtain ⟨s₁, hreach₁, hlap₁, -⟩ := h₀.search
  obtain ⟨s₂, hreach₂, hlap₂⟩ := hlap₁.miss (Nat.le_refl 0)
  have h₃ : s₂.step (.worker (.stole (some t))) =
      some { s₂ with taskToRun := some t, pc := .top } := by
    simp [State.step, State.workerStep, hlap₂.pc]
  refine ⟨_, .head (a := .worker .go) rfl (hreach₁.trans (hreach₂.trans (.head h₃ (.refl _)))), ?_⟩
  exact ⟨rfl, rfl, hlap₂.immediateTask, hlap₂.batch, hlap₂.inbox, hlap₂.hiOwner, hlap₂.hiTop,
    hlap₂.hiBottom, hlap₂.owner, hlap₂.top, hlap₂.bottom⟩

/-- The worker steals nothing and finds a task in its loPri inbox. -/
theorem Lap.drain {b : ℕ} (h : Lap s .steal none k b) (u : τ) :
    ∃ s', Lts.Reachable State.step s s' ∧ s'.pc = .callBatch false ∧ s'.batch = [u] ∧
      (s'.deque false).top = k ∧ (s'.deque false).bottom = b := by
  have h₁ : s.step (.worker (.stole none)) = some { s with pc := .inbox true } := by
    simp [State.step, State.workerStep, h.pc]
  have h₂ : State.step { s with pc := .inbox true } (.worker (.wins false)) =
      some { s with pc := .inbox false } := by
    simp [State.step, State.workerStep, h.inbox, State.popped, h.batch, afterInbox]
  let s₃ : State ι τ :=
    { s with pc := .inbox false, inbox := Function.update s.inbox false (s.inbox false ++ [u]) }
  have h₃ : State.step { s with pc := .inbox false } (.enqueue false u) = some s₃ := rfl
  let s₄ : State ι τ :=
    { s with pc := .inbox false, inbox := Function.update s₃.inbox false [], batch := [u] }
  have h₄ : s₃.step (.worker (.wins true)) = some s₄ := by
    simp [State.step, State.workerStep, s₃, s₄, h.inbox, h.batch, JLibScheduler.Thread.batchSize]
  have h₅ : s₄.step (.worker (.wins true)) = some { s₄ with pc := .callBatch false } := by
    simp [State.step, State.workerStep, s₄, State.popped]
  exact ⟨_, .head h₁ (.head h₂ (.head h₃ (.head h₄ (.head h₅ (.refl _))))), rfl, rfl, h.top,
    h.bottom⟩

end

/-- After `2 ^ 64` pushes of a task that yields, the deque holds the task and its bottom index has
wrapped around; the worker takes it for empty and pushes a task from its inbox to it. -/
theorem not_drainOk_wrapped : ∃ s : State Unit ℕ, Lts.Reachable State.step State.init s ∧
    s.pc = .callBatch false ∧ s.batch = [2] ∧ (s.deque false).top = SizeT.max ∧
    (s.deque false).bottom = 0 ∧ ¬ DrainOk s := by
  obtain ⟨s₀, hreach₀, hlap₀⟩ := exists_lap (ι := Unit) 1
  obtain ⟨s₁, hreach₁, hlap₁⟩ := hlap₀.laps (k := SizeT.max) (by decide)
  obtain ⟨s₂, hreach₂, hlap₂, -⟩ := hlap₁.yield
  obtain ⟨s₃, hreach₃, hlap₃, -⟩ := hlap₂.search
  obtain ⟨s₄, hreach₄, hlap₄⟩ := hlap₃.miss (by decide)
  obtain ⟨s₅, hreach₅, hpc, hbatch, htop, hbottom⟩ := hlap₄.drain 2
  have hwrap : SizeT.add SizeT.max 1 = 0 := by decide
  rw [hwrap] at hbottom
  refine ⟨s₅, hreach₀.trans (hreach₁.trans (hreach₂.trans (hreach₃.trans (hreach₄.trans hreach₅)))),
    hpc, hbatch, htop, hbottom, fun hok => ?_⟩
  have heq := hok.empty false hpc
  rw [htop, hbottom] at heq
  exact absurd heq (by decide)

end JLibScheduler.WorkerLoop
