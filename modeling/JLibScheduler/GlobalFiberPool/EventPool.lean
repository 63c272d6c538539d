import JLibScheduler.GlobalFiberPool.Tasks
import JLibScheduler.TaskScheduler.StartPool

/-!
# The size of the event pool

The scheduler's `EventPool` has 1024 events whatever the machine, and a fiber has one of them from
`Acquire` to `Release` in `WaitOnEventDirectArmed`, which does not look for the null pointer that an
exhausted pool gives. The fibers that wait are distinct fibers of the pool, so there is an event for
one more when the pool has at most 1024 fibers; and when it has more, one worker can bring 1024 of
them into a wait and start a task on another one (`exists_exhausted`). The numbers of fibers follow
from the core count (`eventPool_suffices_iff`).
-/

namespace JLibScheduler.GlobalFiberPool

/-- The size of `TaskScheduler::eventPool`. -/
def eventPoolSize : Nat := 1024

/-- The fibers that `StartPool` makes for a core count. -/
def fiberCount (cores : Nat) : Nat :=
  TaskScheduler.standardFiberCount cores + TaskScheduler.heavyFiberCount cores

section
variable {φ ι τ ε : Type}

/-- Whenever a running task's fiber can call `Acquire`, fewer fibers wait than there are events, and
some event is free. -/
def Scheduler.HasEvent (size : Nat) (s : Scheduler φ ι τ ε) : Prop :=
  ∀ w, ∀ f ∈ (s.pool.worker w).hands, f ∈ s.bound → f ∉ s.waiting →
    s.waits.length < size ∧ s.freeq ≠ []

variable [DecidableEq φ] [DecidableEq ι] [Fintype ι] [DecidableEq ε] {capacities : ι → Nat}
  {fibers : List φ} {events : List ε} {s : Scheduler φ ι ℕ ε} {w : ι} {k : Nat}

omit [DecidableEq ι] [DecidableEq ε] in
/-- With as many events as fibers there is always one. -/
theorem Scheduler.Ok.hasEvent (h : s.Ok capacities fibers events)
    (hle : fibers.length ≤ events.length) : s.HasEvent events.length := by
  intro w f _ hbound hfree
  have hlt := h.waiting_lt hbound hfree
  have hevents := h.events
  refine ⟨by omega, fun hnil => ?_⟩
  rw [hnil, List.length_nil] at hevents
  omega

/-- The worker `w` stands at its loop, all fibers that are bound are in its hands and wait, and the
others are in the queue or in its cache. -/
structure Scheduler.AllWait (w : ι) (total k : Nat) (s : Scheduler φ ι ℕ ε) : Prop where
  idle : (s.pool.worker w).pc = .idle
  quiet : ∀ v, (s.pool.worker v).enqueuing = false
  hands : ∀ f ∈ s.bound, f ∈ (s.pool.worker w).hands
  tasks : ∀ t ∈ s.assigned.map Prod.snd, t < k
  wait : ∀ f ∈ s.bound, f ∈ s.waiting
  waits : s.waits.length = k
  available : (s.pool.worker w).count + s.pool.availableFibers.length + k = total

/-- The worker takes one more fiber and binds it to a task. -/
theorem Scheduler.AllWait.bind (hcap : ∀ v, 2 ≤ capacities v) (hnodup : fibers.Nodup)
    (hok : s.Ok capacities fibers events) (h : s.AllWait w fibers.length k)
    (hk : k < fibers.length) :
    ∃ as p f, Lts.run (Scheduler.step capacities) s as =
        some { s with pool := p, assigned := (f, k) :: s.assigned } ∧
      f ∈ (p.worker w).hands ∧ (∀ g ∈ s.bound, g ∈ (p.worker w).hands) ∧ f ∉ s.bound ∧
      (p.worker w).pc = .idle ∧ (∀ v, (p.worker v).enqueuing = false) ∧
      (p.worker w).count + p.availableFibers.length + (k + 1) = fibers.length := by
  have havailable := h.available
  obtain ⟨as, p, x, f, hpops, hworker, hpc, hhands, hcount⟩ :=
    exists_acquire (Nat.lt_of_lt_of_le (by omega) (hcap w)) (hok.pool w) h.idle h.quiet (by omega)
  have hx : p.worker w = x := by rw [hworker, Function.update_self]
  have hold : ∀ g ∈ s.bound, g ∈ (p.worker w).hands := fun g hg => by
    rw [hx, hhands]
    exact .tail _ (h.hands g hg)
  have hrun := hpops.lift (s := s)
  -- a fiber that was bound before would be twice in the hands of the worker
  have hfree : f ∉ s.bound := by
    intro hf
    have hok' : Scheduler.Ok capacities fibers events { s with pool := p } :=
      Lts.run_inv (fun h hstep => h.step hcap hstep) hok hrun
    have htwice : 2 ≤ p.copies capacities f := by
      have hcopies : 2 ≤ ((p.worker w).fibers (capacities w)).count f := by
        have hheld : (p.worker w).held = (p.worker w).hands := by
          rw [hx]
          simp only [Worker.held, hpc]
        have hpos := List.count_pos_iff.2 (h.hands f hf)
        simp only [Worker.fibers, List.count_append, hheld]
        rw [hx, hhands, List.count_cons_self]
        omega
      have hle : ((p.worker w).fibers (capacities w)).count f ≤
          ∑ v, ((p.worker v).fibers (capacities v)).count f :=
        Finset.single_le_sum (f := fun v => ((p.worker v).fibers (capacities v)).count f)
          (fun _ _ => Nat.zero_le _) (Finset.mem_univ w)
      unfold State.copies
      omega
    have hone := hok'.copies f
    have := List.nodup_iff_count_le_one.1 hnodup f
    simp only at hone
    omega
  have hbind : Scheduler.step capacities { s with pool := p } (.bind w f k) =
      some { s with pool := p, assigned := (f, k) :: s.assigned } := by
    refine if_pos ⟨?_, hfree, fun hmem => ?_⟩
    · simp only [hx, hhands]
      exact .head _
    · exact absurd (h.tasks k hmem) (Nat.lt_irrefl k)
  refine ⟨as.map .pool ++ [.bind w f k], p, f, ?_, ?_, hold, hfree, ?_, ?_, ?_⟩
  · rw [Lts.run_append, hrun]
    exact Lts.run_cons_eq_some.2 ⟨_, hbind, rfl⟩
  · rw [hx, hhands]
    exact .head _
  · rw [hx, hpc]
  · rw [hworker]
    refine Update.forall_of (P := fun _ (x : Worker φ) => x.enqueuing = false) ?_ fun v _ =>
      h.quiet v
    simp only [Worker.enqueuing, hpc]
  · rw [hx]
    omega

/-- The worker brings one more fiber into a wait. -/
theorem Scheduler.AllWait.next (hcap : ∀ v, 2 ≤ capacities v) (hnodup : fibers.Nodup)
    (hok : s.Ok capacities fibers events) (h : s.AllWait w fibers.length k)
    (hk : k < fibers.length) (hevents : k < events.length) :
    ∃ as s', Lts.run (Scheduler.step capacities) s as = some s' ∧
      s'.AllWait w fibers.length (k + 1) := by
  obtain ⟨as, p, f, hrun, hf, hold, hfree, hidle, hquiet, havailable⟩ :=
    h.bind hcap hnodup hok hk
  have hlength := hok.events
  rw [h.waits] at hlength
  obtain ⟨e, freeq, hfreeq⟩ := List.exists_cons_of_ne_nil
    (fun hnil : s.freeq = [] => by rw [hnil, List.length_nil] at hlength; omega)
  let s₁ : Scheduler φ ι ℕ ε := { s with pool := p, assigned := (f, k) :: s.assigned }
  let s₂ : Scheduler φ ι ℕ ε := { s₁ with
    waits := (f, e) :: s.waits, freeq := s.freeq.erase e }
  have hacquire : s₁.step capacities (.acquire w f e) = some s₂ := by
    refine if_pos ⟨hf, .head _, fun hmem => hfree (hok.waiting f hmem), ?_⟩
    exact hfreeq ▸ .head _
  refine ⟨as ++ [.acquire w f e], s₂, ?_, hidle, hquiet, ?_, ?_, ?_, ?_, havailable⟩
  · rw [Lts.run_append, hrun]
    exact Lts.run_cons_eq_some.2 ⟨s₂, hacquire, rfl⟩
  · intro g hg
    rcases List.mem_cons.1 hg with rfl | hg
    · exact hf
    · exact hold g hg
  · intro t ht
    rcases List.mem_cons.1 ht with heq | ht
    · exact heq ▸ Nat.lt_succ_self k
    · exact Nat.lt_succ_of_lt (h.tasks t ht)
  · intro g hg
    rcases List.mem_cons.1 hg with rfl | hg
    · exact .head _
    · exact .tail _ (h.wait g hg)
  · exact congrArg (· + 1) h.waits

/-- With more fibers than events, a worker comes to a task that finds no event. -/
theorem exists_exhausted (hcap : ∀ v, 2 ≤ capacities v) (hnodup : fibers.Nodup) (w : ι)
    (hlt : events.length < fibers.length) :
    ∃ as s, Lts.run (Scheduler.step capacities)
      (Scheduler.init fibers events : Scheduler φ ι ℕ ε) as = some s ∧
      ¬ s.HasEvent events.length := by
  have hall : ∀ k ≤ events.length, ∃ as s, Lts.run (Scheduler.step capacities)
      (Scheduler.init fibers events : Scheduler φ ι ℕ ε) as = some s ∧
      s.AllWait w fibers.length k := by
    intro k
    induction k with
    | zero =>
      refine fun _ => ⟨[], _, rfl, rfl, fun v => rfl, fun f hf => ?_, fun t ht => ?_,
        fun f hf => ?_, rfl, ?_⟩
      · cases hf
      · cases ht
      · cases hf
      · simp only [Scheduler.init, init, Nat.zero_add, Nat.add_zero]
    | succ k ih =>
      intro hk
      obtain ⟨as, s, hrun, hs⟩ := ih (by omega)
      obtain ⟨bs, s', hrun', hs'⟩ :=
        hs.next hcap hnodup (Scheduler.run_ok hcap hrun) (by omega) (by omega)
      refine ⟨as ++ bs, s', ?_, hs'⟩
      rw [Lts.run_append, hrun]
      exact hrun'
  obtain ⟨as, s, hrun, hs⟩ := hall events.length le_rfl
  have hok := Scheduler.run_ok hcap hrun
  obtain ⟨bs, p, f, hrun', hf, -, hfree, -⟩ := hs.bind hcap hnodup hok hlt
  let s₁ : Scheduler φ ι ℕ ε := { s with
    pool := p, assigned := (f, events.length) :: s.assigned }
  refine ⟨as ++ bs, s₁, ?_, fun hevent => ?_⟩
  · rw [Lts.run_append, hrun]
    exact hrun'
  · have hless := (hevent w f hf (.head _) fun hmem => hfree (hok.waiting f hmem)).1
    have hwaits := hs.waits
    simp only [s₁] at hless
    omega

end

section

/-- For every core count, requested pool size and capacities of the caches, a fiber that calls
`Acquire` always finds an event exactly when the pool has at most 1024 fibers. -/
theorem eventPool_suffices_iff (cores : Nat) (hcores : cores < 2 ^ 32) (poolSize : Nat)
    (runtimeCapacity : Fin (TaskScheduler.numWorkers cores poolSize) → Nat) :
    (∀ as s, Lts.run (Scheduler.step fun w => activeCapacity (runtimeCapacity w))
        (Scheduler.init (List.range (fiberCount cores)) (List.range eventPoolSize) :
          Scheduler ℕ (Fin (TaskScheduler.numWorkers cores poolSize)) ℕ ℕ) as = some s →
      s.HasEvent eventPoolSize) ↔ fiberCount cores ≤ eventPoolSize := by
  have hcap : ∀ w, 2 ≤ activeCapacity (runtimeCapacity w) := fun w =>
    (activeCapacity_bounds (runtimeCapacity w)).1
  have hevents : (List.range eventPoolSize).length = eventPoolSize := List.length_range
  have hfibers : (List.range (fiberCount cores)).length = fiberCount cores := List.length_range
  constructor
  · intro h
    by_contra hmany
    have hpos := (TaskScheduler.numWorkers_bounds hcores poolSize).1
    have hlt : (List.range eventPoolSize).length < (List.range (fiberCount cores)).length := by
      omega
    obtain ⟨as, s, hrun, hnone⟩ := exists_exhausted hcap List.nodup_range ⟨0, hpos⟩ hlt
    rw [hevents] at hnone
    exact hnone (h as s hrun)
  · intro hfew as s hrun
    have hevent := (Scheduler.run_ok hcap hrun).hasEvent (by omega)
    rwa [hevents] at hevent

theorem eventPool_suffices_iff_eight :
    (Scheduler.init (List.range (fiberCount 8)) (List.range eventPoolSize) :
      Scheduler ℕ (Fin (TaskScheduler.numWorkers 8 0)) ℕ ℕ).HasEvent eventPoolSize :=
  (eventPool_suffices_iff 8 (by decide) 0 fun _ => 36).2 (by decide) [] _ rfl

/-- On 16 cores there are 1080 fibers. -/
theorem not_hasEvent_sixteen : ¬ ∀ (cores poolSize : Nat), cores < 2 ^ 32 →
    ∀ (runtimeCapacity : Fin (TaskScheduler.numWorkers cores poolSize) → Nat) (as)
      (s : Scheduler ℕ (Fin (TaskScheduler.numWorkers cores poolSize)) ℕ ℕ),
    Lts.run (Scheduler.step fun w => activeCapacity (runtimeCapacity w))
        (Scheduler.init (List.range (fiberCount cores)) (List.range eventPoolSize)) as = some s →
      s.HasEvent eventPoolSize := by
  intro h
  have hlt : (List.range eventPoolSize).length < (List.range (fiberCount 16)).length := by
    rw [List.length_range, List.length_range]
    decide
  obtain ⟨as, s, hrun, hnone⟩ := exists_exhausted
    (fun _ => (activeCapacity_bounds 36).1) List.nodup_range
    (⟨0, by decide⟩ : Fin (TaskScheduler.numWorkers 16 0)) hlt
  rw [List.length_range] at hnone
  exact hnone (h 16 0 (by decide) (fun _ => 36) as s hrun)

end

end JLibScheduler.GlobalFiberPool
