import JLibScheduler.GlobalFiberPool.Tasks

/-!
# The stack size of a task's fiber

`GlobalFiberPool` makes fibers with stacks of two sizes and puts all of them into one queue;
`AcquireFiber` gets the task that the fiber is for, but does not look at its `requiredSize`. So a
task that requires a heavy fiber can get any fiber, and every task has a stack as large as it
requires exactly when none requires a heavy one, or the pool has no others
(`fiberSize_honoured_iff`).
-/

namespace JLibScheduler.GlobalFiberPool

/-- `FiberSize`. -/
inductive FiberSize
  | standard
  | heavy
  deriving DecidableEq

/-- The stack that a task of this size is promised. -/
def FiberSize.bytes : FiberSize → Nat
  | .standard => 64 * 1024
  | .heavy => 512 * 1024

/-- The fibers that the constructor puts into the queue, the standard ones first. -/
def fibers (standardCount heavyCount : Nat) : List Nat := List.range (standardCount + heavyCount)

/-- `stackSize` of a fiber. -/
def stackSize (standardCount f : Nat) : Nat := if f < standardCount then 64 * 1024 else 512 * 1024

/-- Every task with a fiber has the stack that it requires. -/
def Scheduler.Honours {ι τ ε : Type} (standardCount : Nat) (requiredSize : τ → FiberSize)
    (s : Scheduler Nat ι τ ε) : Prop :=
  ∀ p ∈ s.assigned, (requiredSize p.2).bytes ≤ stackSize standardCount p.1

section
variable {ι τ ε : Type} [DecidableEq ι] [Fintype ι] [DecidableEq τ] [DecidableEq ε]

/-- A worker's first task can get any fiber of the pool. -/
theorem exists_bind {fibers : List Nat} {f : Nat} (hf : f ∈ fibers) (capacities : ι → Nat) (w : ι)
    (hcap : 0 < capacities w) (events : List ε) (t : τ) :
    ∃ as s, Lts.run (Scheduler.step capacities) (Scheduler.init fibers events) as = some s ∧
      s.assigned = [(f, t)] := by
  let s₀ : Scheduler Nat ι τ ε := Scheduler.init fibers events
  -- the other fibers of the first batch, and those that stay in the queue
  let l := (fibers.erase f).take (capacities w - 1)
  let rest := (fibers.erase f).drop (capacities w - 1)
  have hlength : l.length = min (capacities w - 1) (fibers.erase f).length := List.length_take
  have hqueue : s₀.pool.availableFibers.Perm ((l ++ [f]) ++ rest) := by
    have hsplit : l ++ rest = fibers.erase f := List.take_append_drop _ _
    refine (List.perm_cons_erase hf).trans ?_
    rw [← hsplit, List.append_assoc, List.singleton_append]
    exact List.perm_middle.symm
  have hfull : l.length + 1 = capacities w ∨ rest = [] := by
    rcases Nat.lt_or_ge (fibers.erase f).length (capacities w - 1) with hlt | hge
    · exact .inr (List.drop_eq_nil_of_le hlt.le)
    · exact .inl (by omega)
  obtain ⟨as, p, x, hpops, -, hworker, -, hhands, -⟩ :=
    refill_run (p := s₀.pool) (w := w) rfl rfl (fun v => rfl) hqueue (by omega) hfull
  let s₁ : Scheduler Nat ι τ ε := { s₀ with pool := p }
  let s₂ : Scheduler Nat ι τ ε := { s₁ with assigned := [(f, t)] }
  have hbind : s₁.step capacities (.bind w f t) = some s₂ := by
    refine if_pos ⟨?_, List.not_mem_nil, List.not_mem_nil⟩
    simp only [s₁, hworker, Function.update_self, hhands]
    exact .head _
  refine ⟨as.map .pool ++ [.bind w f t], s₂, ?_, rfl⟩
  rw [Lts.run_append, hpops.lift]
  exact Lts.run_cons_eq_some.2 ⟨s₂, hbind, rfl⟩

/-- In a scheduler with some worker, every task gets a large enough stack in every run exactly when
no task requires a heavy fiber or the pool has no standard one. -/
theorem fiberSize_honoured_iff (standardCount heavyCount : Nat) (runtimeCapacity : ι → Nat) (w : ι)
    (events : List ε) (requiredSize : τ → FiberSize) :
    (∀ as s, Lts.run (Scheduler.step fun v => activeCapacity (runtimeCapacity v))
        (Scheduler.init (fibers standardCount heavyCount) events) as = some s →
      s.Honours standardCount requiredSize) ↔
      (∀ t, requiredSize t = .standard) ∨ standardCount = 0 := by
  constructor
  · intro h
    by_contra hmixed
    push Not at hmixed
    obtain ⟨⟨t, ht⟩, hstandard⟩ := hmixed
    have hheavy : requiredSize t = .heavy := by
      cases hsize : requiredSize t with
      | standard => exact absurd hsize ht
      | heavy => rfl
    have hmem : 0 ∈ fibers standardCount heavyCount := List.mem_range.2 (by omega)
    have hcap : 0 < activeCapacity (runtimeCapacity w) :=
      Nat.lt_of_lt_of_le (by omega) (activeCapacity_bounds (runtimeCapacity w)).1
    obtain ⟨as, s, hrun, hassigned⟩ := exists_bind hmem
      (fun v => activeCapacity (runtimeCapacity v)) w hcap events t
    have hfits := h as s hrun (0, t) (hassigned ▸ .head _)
    rw [hheavy, stackSize, if_pos (Nat.pos_of_ne_zero hstandard)] at hfits
    exact absurd hfits (by decide)
  · rintro (hall | rfl) as s - p hp
    · rw [hall, stackSize]
      split_ifs <;> decide
    · rw [stackSize, if_neg (Nat.not_lt_zero _)]
      cases requiredSize p.2 <;> decide

end

section

/-- One worker of a scheduler on two cores takes its first batch, 36 of the 64 standard fibers, in
the order of the queue, and binds the last one to a heavy task. -/
def firstHeavyTask {ι : Type} (w : ι) : List (SchedulerAct Nat ι Nat Nat) :=
  .pool (.pop w) ::
    ((List.range 36).flatMap fun f =>
      [.pool (.sizeApprox w 72), .pool (.tryDequeue w (some f))]) ++
    [.pool (.sizeApprox w 36), .pool (.next w), .bind w 35 7]

theorem not_honours_firstHeavyTask : ¬ ∀ (requiredSize : Nat → FiberSize)
    (as : List (SchedulerAct Nat (Fin 1) Nat Nat)) (s : Scheduler Nat (Fin 1) Nat Nat),
    Lts.run (Scheduler.step fun _ => activeCapacity 36) (Scheduler.init (fibers 64 8) []) as =
      some s → s.Honours 64 requiredSize := by
  intro h
  have hhonours := h (fun _ => .heavy) (firstHeavyTask 0) _
    (Option.some_get (by decide +kernel)).symm
  have hassigned : ((Lts.run (Scheduler.step fun _ => activeCapacity 36)
      (Scheduler.init (fibers 64 8) [])
      (firstHeavyTask (0 : Fin 1))).get (by decide +kernel)).assigned =
        [(35, 7)] := by
    decide +kernel
  exact absurd (hhonours (35, 7) (hassigned ▸ .head _)) (by decide)

end

end JLibScheduler.GlobalFiberPool
