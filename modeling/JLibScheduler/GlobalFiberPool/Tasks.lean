import JLibScheduler.GlobalFiberPool.Conserved

/-!
# Fibers, tasks and event waits

The caches of `GlobalFiberPool/Basic.lean` with what the workers use the fibers for. A worker that
took a fiber from its cache binds it to a task (`Thread.cpp:208-236`), the task may wait in
`WaitOnEventDirectArmed`, between `Acquire` and `Release` of an event of the pool, any number of
times and on any worker that resumes it, and when it has ended its fiber goes back to the cache of
the worker it ended on. Every bound fiber is in the hands of a worker (`Scheduler.Ok`), so the bound
fibers are distinct fibers of the pool; and a worker can take a fiber as long as there is one in its
cache or in the queue (`exists_acquire`).
-/

namespace JLibScheduler.GlobalFiberPool

/-- The caches, the tasks with the fiber that they have, the fibers that are in an event wait with
their event, and the free events. -/
structure Scheduler (φ ι τ ε : Type) where
  pool : State φ ι
  assigned : List (φ × τ)
  waits : List (φ × ε)
  freeq : List ε

/-- A step: of a cache; a worker binds a fiber to a task; a task acquires or releases an event; a
task ends and its fiber is pushed. -/
inductive SchedulerAct (φ ι τ ε : Type)
  | pool (a : Act φ ι)
  | bind (w : ι) (f : φ) (t : τ)
  | acquire (w : ι) (f : φ) (e : ε)
  | release (f : φ) (e : ε)
  | finish (w : ι) (f : φ)

section
variable {φ ι τ ε : Type}

/-- The fibers that have a task. -/
def Scheduler.bound (s : Scheduler φ ι τ ε) : List φ := s.assigned.map Prod.fst

/-- The fibers that are in an event wait. -/
def Scheduler.waiting (s : Scheduler φ ι τ ε) : List φ := s.waits.map Prod.fst

variable [DecidableEq φ] [DecidableEq ι] [DecidableEq τ] [DecidableEq ε] [Fintype ι]

/-- A step of the caches alone: a fiber with a task is passed on, but not pushed. -/
def Scheduler.poolStep (capacities : ι → Nat) (s : Scheduler φ ι τ ε) (a : Act φ ι) :
    Option (State φ ι) :=
  match a with
  | .push _ _ => none
  | .pass _ _ f => if f ∈ s.bound then step capacities s.pool a else none
  | a => step capacities s.pool a

/-- One step. -/
def Scheduler.step (capacities : ι → Nat) (s : Scheduler φ ι τ ε) :
    SchedulerAct φ ι τ ε → Option (Scheduler φ ι τ ε)
  | .pool a => (s.poolStep capacities a).map fun pool => { s with pool }
  | .bind w f t =>
    if f ∈ (s.pool.worker w).hands ∧ f ∉ s.bound ∧ t ∉ s.assigned.map Prod.snd then
      some { s with assigned := (f, t) :: s.assigned }
    else none
  | .acquire w f e =>
    if f ∈ (s.pool.worker w).hands ∧ f ∈ s.bound ∧ f ∉ s.waiting ∧ e ∈ s.freeq then
      some { s with waits := (f, e) :: s.waits, freeq := s.freeq.erase e }
    else none
  | .release f e =>
    if (f, e) ∈ s.waits then
      some { s with waits := s.waits.erase (f, e), freeq := s.freeq ++ [e] }
    else none
  | .finish w f =>
    if f ∈ s.bound ∧ f ∉ s.waiting then
      (GlobalFiberPool.step capacities s.pool (.push w f)).map fun pool =>
        { s with pool, assigned := s.assigned.filter fun p => p.1 ≠ f }
    else none

/-- All fibers in the queue, no task bound, and all events free. -/
def Scheduler.init (fibers : List φ) (events : List ε) : Scheduler φ ι τ ε :=
  { pool := GlobalFiberPool.init fibers, assigned := [], waits := [], freeq := events }

/-- The fibers and the events are conserved, the bound fibers are distinct and in the hands of
workers, and the waiting fibers are distinct and bound. -/
structure Scheduler.Ok (capacities : ι → Nat) (fibers : List φ) (events : List ε)
    (s : Scheduler φ ι τ ε) : Prop where
  pool : s.pool.Ok capacities
  copies : ∀ g, s.pool.copies capacities g = fibers.count g
  held : ∀ f ∈ s.bound, ∃ w, f ∈ (s.pool.worker w).hands
  nodup : s.bound.Nodup
  waiting : ∀ f ∈ s.waiting, f ∈ s.bound
  waitingNodup : s.waiting.Nodup
  events : s.waits.length + s.freeq.length = events.length

variable {capacities : ι → Nat} {fibers : List φ} {events : List ε} {s s' : Scheduler φ ι τ ε}
  {p p' : State φ ι}

/-! ## The hands of the workers -/

omit [Fintype ι] [DecidableEq φ] in
/-- A fiber stays in the hands of a worker that moves without giving it away. -/
theorem hands_set {w v : ι} {f : φ} {r : List φ × Worker φ} (h : f ∈ (p.worker v).hands)
    (hkeep : f ∈ (p.worker w).hands → f ∈ r.2.hands) : f ∈ ((p.set w r).worker v).hands := by
  by_cases hv : v = w
  · subst hv
    simp only [State.set, Function.update_self]
    exact hkeep h
  · simp only [State.set, Function.update_of_ne hv]
    exact h

/-- A held fiber is held after a step, unless the step pushes it. -/
theorem hands_step {a : Act φ ι} (hstep : GlobalFiberPool.step capacities p a = some p') {v : ι}
    {f : φ} (h : f ∈ (p.worker v).hands) :
    (∃ v', f ∈ (p'.worker v').hands) ∨ ∃ w, a = .push w f := by
  cases a with
  | pop w =>
    simp only [GlobalFiberPool.step, Option.map_eq_some_iff] at hstep
    obtain ⟨x, hx, rfl⟩ := hstep
    refine .inl ⟨v, hands_set h fun hf => ?_⟩
    unfold Worker.pop at hx
    split at hx
    next => cases hx; exact hf
    next => cases hx
  | push w g =>
    by_cases hg : f = g
    · exact .inr ⟨w, hg ▸ rfl⟩
    simp only [GlobalFiberPool.step, Option.map_eq_some_iff] at hstep
    obtain ⟨x, hx, rfl⟩ := hstep
    refine .inl ⟨v, hands_set h fun hf => ?_⟩
    have hmem := (List.mem_erase_of_ne hg).2 hf
    unfold Worker.push at hx
    split at hx
    next =>
      simp only [Option.ite_none_right_eq_some] at hx
      obtain ⟨-, hx⟩ := hx
      split_ifs at hx with hfull
      · cases hx; exact hmem
      · cases hx; exact hmem
    next => cases hx
  | sizeApprox w size =>
    simp only [GlobalFiberPool.step, Option.ite_none_right_eq_some, Option.map_eq_some_iff] at hstep
    obtain ⟨-, x, hx, rfl⟩ := hstep
    refine .inl ⟨v, hands_set h fun hf => ?_⟩
    unfold Worker.sizeApprox at hx
    split at hx
    next =>
      split_ifs at hx with hmore
      · cases hx; exact hf
      · cases hx; exact hf
    next => cases hx
  | tryDequeue w g =>
    simp only [GlobalFiberPool.step, Option.map_eq_some_iff] at hstep
    obtain ⟨x, hx, rfl⟩ := hstep
    refine .inl ⟨v, hands_set h fun hf => ?_⟩
    unfold Worker.tryDequeue at hx
    split at hx
    next =>
      simp only [Option.ite_none_right_eq_some, Option.some.injEq] at hx
      obtain ⟨-, rfl⟩ := hx
      exact hf
    next =>
      simp only [Option.ite_none_right_eq_some, Option.some.injEq] at hx
      obtain ⟨-, rfl⟩ := hx
      exact hf
    next => cases hx
  | next w =>
    simp only [GlobalFiberPool.step, Option.map_eq_some_iff] at hstep
    obtain ⟨x, hx, rfl⟩ := hstep
    refine .inl ⟨v, hands_set h fun hf => ?_⟩
    unfold Worker.next at hx
    split at hx
    next =>
      split_ifs at hx with hzero
      · cases hx; exact hf
      · simp only [Option.map_eq_some_iff] at hx
        obtain ⟨g, -, rfl⟩ := hx
        exact .tail _ hf
    next =>
      split_ifs at hx with hmore
      · cases hx; exact hf
      · cases hx; exact hf
    next =>
      simp only [Option.map_eq_some_iff] at hx
      obtain ⟨g, -, rfl⟩ := hx
      exact hf
    next => cases hx
  | pass w w' g =>
    simp only [GlobalFiberPool.step, Option.ite_none_right_eq_some, Option.some.injEq] at hstep
    obtain ⟨-, rfl⟩ := hstep
    by_cases hg : f = g
    · subst hg
      refine .inl ⟨w', ?_⟩
      simp only [State.set, Function.update_self]
      exact .head _
    · refine .inl ⟨v, hands_set (hands_set h fun hf => ?_) fun hf => .tail _ hf⟩
      exact (List.mem_erase_of_ne hg).2 hf

/-! ## The invariant -/

omit [DecidableEq τ] [DecidableEq ε] in
/-- A step of the caches alone keeps the invariant. -/
theorem Scheduler.Ok.pool_step (hcap : ∀ w, 2 ≤ capacities w) (h : s.Ok capacities fibers events)
    {a : Act φ ι} (hstep : GlobalFiberPool.step capacities s.pool a = some p')
    (hpush : ∀ w f, a = .push w f → f ∉ s.bound) :
    Scheduler.Ok capacities fibers events { s with pool := p' } := by
  obtain ⟨hpool, hcopies⟩ := h.pool.step hcap hstep
  refine ⟨hpool, fun g => (hcopies g).trans (h.copies g), fun f hf => ?_, h.nodup, h.waiting,
    h.waitingNodup, h.events⟩
  obtain ⟨v, hv⟩ := h.held f hf
  rcases hands_step hstep hv with hheld | ⟨w, rfl⟩
  · exact hheld
  · exact absurd hf (hpush w f rfl)

theorem Scheduler.Ok.step (hcap : ∀ w, 2 ≤ capacities w) (h : s.Ok capacities fibers events)
    {a : SchedulerAct φ ι τ ε} (hstep : s.step capacities a = some s') :
    s'.Ok capacities fibers events := by
  cases a with
  | pool a =>
    simp only [Scheduler.step, Option.map_eq_some_iff] at hstep
    obtain ⟨p, hp, rfl⟩ := hstep
    unfold Scheduler.poolStep at hp
    split at hp
    next => cases hp
    next w w' f =>
      rw [Option.ite_none_right_eq_some] at hp
      exact h.pool_step hcap hp.2 fun w f heq => by cases heq
    next hnot _ => exact h.pool_step hcap hp fun w f heq => absurd heq (hnot w f)
  | bind w f t =>
    simp only [Scheduler.step, Option.ite_none_right_eq_some, Option.some.injEq] at hstep
    obtain ⟨⟨hhands, hfree, -⟩, rfl⟩ := hstep
    refine ⟨h.pool, h.copies, fun g hg => ?_, List.nodup_cons.2 ⟨hfree, h.nodup⟩,
      fun g hg => .tail _ (h.waiting g hg), h.waitingNodup, h.events⟩
    rcases List.mem_cons.1 hg with rfl | hg
    · exact ⟨w, hhands⟩
    · exact h.held g hg
  | acquire w f e =>
    simp only [Scheduler.step, Option.ite_none_right_eq_some, Option.some.injEq] at hstep
    obtain ⟨⟨-, hbound, hfree, he⟩, rfl⟩ := hstep
    refine ⟨h.pool, h.copies, h.held, h.nodup, fun g hg => ?_,
      List.nodup_cons.2 ⟨hfree, h.waitingNodup⟩, ?_⟩
    · rcases List.mem_cons.1 hg with rfl | hg
      · exact hbound
      · exact h.waiting g hg
    · have hevents := h.events
      have := List.length_erase_of_mem he
      have := List.length_pos_of_mem he
      simp only [List.length_cons]
      omega
  | release f e =>
    simp only [Scheduler.step, Option.ite_none_right_eq_some, Option.some.injEq] at hstep
    obtain ⟨hmem, rfl⟩ := hstep
    have hsub : (s.waits.erase (f, e)).Sublist s.waits := List.erase_sublist
    refine ⟨h.pool, h.copies, h.held, h.nodup,
      fun g hg => h.waiting g ((hsub.map Prod.fst).subset hg),
      h.waitingNodup.sublist (hsub.map Prod.fst), ?_⟩
    have hevents := h.events
    have := List.length_erase_of_mem hmem
    have := List.length_pos_of_mem hmem
    simp only [List.length_append, List.length_singleton]
    omega
  | finish w f =>
    simp only [Scheduler.step, Option.ite_none_right_eq_some, Option.map_eq_some_iff] at hstep
    obtain ⟨⟨-, hfree⟩, p, hp, rfl⟩ := hstep
    let s₁ : Scheduler φ ι τ ε := { s with assigned := s.assigned.filter fun p => p.1 ≠ f }
    have hsub : s₁.bound.Sublist s.bound := List.filter_sublist.map Prod.fst
    have hnot : f ∉ s₁.bound := by
      intro hf
      obtain ⟨q, hq, rfl⟩ := List.mem_map.1 hf
      simpa using (List.mem_filter.1 hq).2
    have h₁ : s₁.Ok capacities fibers events := by
      refine ⟨h.pool, h.copies, fun g hg => h.held g (hsub.subset hg), h.nodup.sublist hsub,
        fun g hg => ?_, h.waitingNodup, h.events⟩
      obtain ⟨q, hq, rfl⟩ := List.mem_map.1 (h.waiting g hg)
      refine List.mem_map.2 ⟨q, List.mem_filter.2 ⟨hq, ?_⟩, rfl⟩
      have hne : q.1 ≠ f := by
        intro heq
        exact hfree (heq ▸ hg)
      simpa using hne
    refine h₁.pool_step hcap hp fun w' f' heq => ?_
    cases heq
    exact hnot

omit [DecidableEq ι] [DecidableEq τ] [DecidableEq ε] in
theorem Scheduler.Ok.init (fibers : List φ) (events : List ε) :
    (Scheduler.init fibers events : Scheduler φ ι τ ε).Ok capacities fibers events where
  pool := .init fibers
  copies := copies_init fibers
  held f hf := by cases hf
  nodup := .nil
  waiting f hf := by cases hf
  waitingNodup := .nil
  events := Nat.zero_add _

theorem Scheduler.run_ok (hcap : ∀ w, 2 ≤ capacities w) {as : List (SchedulerAct φ ι τ ε)}
    (hrun : Lts.run (Scheduler.step capacities) (Scheduler.init fibers events) as = some s) :
    s.Ok capacities fibers events :=
  Lts.run_inv (fun h hstep => h.step hcap hstep) (.init fibers events) hrun

omit [DecidableEq ι] in
/-- A fiber in the hands of a worker is in some place. -/
theorem copies_pos (capacities : ι → Nat) {w : ι} {f : φ}
    (h : f ∈ (p.worker w).hands) : 0 < p.copies capacities f := by
  have hmem : f ∈ (p.worker w).fibers (capacities w) := by
    refine List.mem_append_right _ ?_
    unfold Worker.held
    split
    · exact .tail _ h
    · exact .tail _ h
    · exact h
  have hpos := List.count_pos_iff.2 hmem
  have hle : ((p.worker w).fibers (capacities w)).count f ≤
      ∑ v, ((p.worker v).fibers (capacities v)).count f :=
    Finset.single_le_sum (f := fun v => ((p.worker v).fibers (capacities v)).count f)
      (fun _ _ => Nat.zero_le _) (Finset.mem_univ w)
  unfold State.copies
  omega

omit [DecidableEq ι] [DecidableEq τ] [DecidableEq ε] in
/-- The bound fibers are fibers of the pool. -/
theorem Scheduler.Ok.bound_subset (h : s.Ok capacities fibers events) : s.bound ⊆ fibers := by
  intro f hf
  obtain ⟨w, hw⟩ := h.held f hf
  have hpos := copies_pos capacities hw
  rw [h.copies] at hpos
  exact List.count_pos_iff.1 hpos

omit [DecidableEq ι] [DecidableEq τ] [DecidableEq ε] in
/-- A fiber that may acquire an event is bound and not waiting, so that fewer fibers wait than there
are. -/
theorem Scheduler.Ok.waiting_lt (h : s.Ok capacities fibers events) {f : φ} (hf : f ∈ s.bound)
    (hfree : f ∉ s.waiting) : s.waits.length < fibers.length := by
  have hnodup : (f :: s.waiting).Nodup := List.nodup_cons.2 ⟨hfree, h.waitingNodup⟩
  have hsub : f :: s.waiting ⊆ fibers :=
    List.cons_subset.2 ⟨h.bound_subset hf, fun g hg => h.bound_subset (h.waiting g hg)⟩
  have hle := (List.subperm_of_subset hnodup hsub).length_le
  rw [List.length_cons, Scheduler.waiting, List.length_map] at hle
  exact hle

/-! ## A worker takes a fiber -/

/-- The steps of `Pop`. -/
def Act.popping : Act φ ι → Bool
  | .pop _ | .sizeApprox _ _ | .tryDequeue _ _ | .next _ => true
  | _ => false

/-- A run of the caches that makes only steps of `Pop`. -/
def Pops (capacities : ι → Nat) (p : State φ ι) (as : List (Act φ ι)) (p' : State φ ι) : Prop :=
  Lts.run (GlobalFiberPool.step capacities) p as = some p' ∧ ∀ a ∈ as, a.popping = true

theorem Pops.nil (capacities : ι → Nat) (p : State φ ι) : Pops capacities p [] p :=
  ⟨rfl, fun _ hmem => by cases hmem⟩

theorem Pops.cons {a : Act φ ι} {as : List (Act φ ι)} {q : State φ ι}
    (hstep : GlobalFiberPool.step capacities p a = some p') (ha : a.popping = true)
    (h : Pops capacities p' as q) : Pops capacities p (a :: as) q := by
  refine ⟨Lts.run_cons_eq_some.2 ⟨p', hstep, h.1⟩, fun b hb => ?_⟩
  rcases List.mem_cons.1 hb with rfl | hb
  · exact ha
  · exact h.2 b hb

theorem Pops.append {as bs : List (Act φ ι)} {q : State φ ι} (h : Pops capacities p as p')
    (h' : Pops capacities p' bs q) : Pops capacities p (as ++ bs) q := by
  refine ⟨?_, fun b hb => (List.mem_append.1 hb).elim (h.2 b) (h'.2 b)⟩
  rw [Lts.run_append, h.1]
  exact h'.1

/-- Steps of `Pop` are steps of the caches alone. -/
theorem Pops.lift {as : List (Act φ ι)} (h : Pops capacities s.pool as p') :
    Lts.run (Scheduler.step capacities) s (as.map .pool) = some { s with pool := p' } := by
  obtain ⟨hrun, hpop⟩ := h
  induction as generalizing s with
  | nil =>
    cases hrun
    rfl
  | cons a as ih =>
    obtain ⟨q, hq, hrun⟩ := Lts.run_cons_eq_some.1 hrun
    have ha := hpop a (.head _)
    have hstep : s.poolStep capacities a = some q := by
      cases a with
      | push w f => cases ha
      | pass w w' f => cases ha
      | _ => exact hq
    refine Lts.run_cons_eq_some.2 ⟨{ s with pool := q }, ?_, ?_⟩
    · simp only [Scheduler.step, hstep, Option.map_some]
    · exact ih (s := { s with pool := q }) hrun fun b hb => hpop b (.tail _ hb)

/-- The loop of `StealBatch` takes the fibers of `l` from the queue, when they fit. -/
theorem dequeue_run (capacities : ι → Nat) (p : State φ ι) {w : ι} (batch : List φ)
    {l rest : List φ} (hpc : (p.worker w).pc = .steal batch)
    (hqueue : p.availableFibers.Perm (l ++ rest)) (hlen : batch.length + l.length ≤ capacities w) :
    ∃ as p', Pops capacities p as p' ∧ p'.availableFibers.Perm rest ∧
      p'.worker = Function.update p.worker w { p.worker w with pc := .steal (batch ++ l) } := by
  induction l generalizing p batch with
  | nil =>
    refine ⟨[], p, .nil capacities p, hqueue, ?_⟩
    rw [List.append_nil, ← hpc]
    exact (Function.update_eq_self w p.worker).symm
  | cons f l ih =>
    rw [List.length_cons] at hlen
    let x : Worker φ := { p.worker w with pc := .dequeue batch }
    let p₁ := p.set w (p.availableFibers, x)
    let y : Worker φ := { x with pc := .steal (batch ++ [f]) }
    let p₂ := p₁.set w (p.availableFibers.erase f, y)
    have hx : p₁.worker w = x := Function.update_self ..
    have hy : p₂.worker w = y := Function.update_self ..
    have h₁ : GlobalFiberPool.step capacities p (.sizeApprox w 1) = some p₁ := by
      have hmore : batch.length < capacities w ∧ 0 < 1 := ⟨by omega, by omega⟩
      simp only [GlobalFiberPool.step, Worker.sizeApprox, hpc, if_pos hmore]
      exact if_pos fun h => absurd h (by omega)
    have hmem : f ∈ p.availableFibers := hqueue.mem_iff.2 (.head _)
    have h₂ : GlobalFiberPool.step capacities p₁ (.tryDequeue w (some f)) = some p₂ := by
      have hqueue₁ : p₁.availableFibers = p.availableFibers := rfl
      simp only [GlobalFiberPool.step, Worker.tryDequeue, hx, x, hqueue₁, if_pos hmem,
        Option.map_some]
      rfl
    have hrest : p₂.availableFibers.Perm (l ++ rest) := by
      have hcons := (List.perm_cons_erase hmem).symm.trans hqueue
      exact (List.perm_cons f).1 hcons
    obtain ⟨as, p', hpops, hp', hworker⟩ := ih p₂ (batch ++ [f]) (by rw [hy]) hrest
      (by rw [List.length_append, List.length_singleton]; omega)
    refine ⟨_, p', .cons h₁ rfl (.cons h₂ rfl hpops), hp', ?_⟩
    rw [hworker, hy]
    simp only [p₂, p₁, State.set, Function.update_idem, y, x, List.append_assoc,
      List.singleton_append]

/-- `Pop` with an empty array refills it with `l` and `f`, the capacity or the whole queue, and
gives `f`. -/
theorem refill_run {w : ι} {l rest : List φ} {f : φ} (hidle : (p.worker w).pc = .idle)
    (hzero : (p.worker w).count = 0) (hquiet : ∀ v, (p.worker v).enqueuing = false)
    (hqueue : p.availableFibers.Perm ((l ++ [f]) ++ rest))
    (hlen : l.length + 1 ≤ capacities w) (hfull : l.length + 1 = capacities w ∨ rest = []) :
    ∃ as p' x, Pops capacities p as p' ∧ p'.availableFibers.Perm rest ∧
      p'.worker = Function.update p.worker w x ∧ x.pc = .idle ∧
      x.hands = f :: (p.worker w).hands ∧ x.count = l.length := by
  let y : Worker φ := { p.worker w with pc := .steal [], sawEmpty := false }
  let p₁ := p.set w (p.availableFibers, y)
  have h₁ : GlobalFiberPool.step capacities p (.pop w) = some p₁ := by
    simp only [GlobalFiberPool.step, Worker.pop, hidle, if_pos hzero, Option.map_some]
    rfl
  have hy : p₁.worker w = y := Function.update_self ..
  have hsize : (l ++ [f]).length = l.length + 1 := by simp
  obtain ⟨as, p₂, hpops, hrest, hworker⟩ := dequeue_run capacities p₁ (w := w) [] (by rw [hy])
    hqueue (by rw [hsize]; simpa using hlen)
  have hp₂ : p₂.worker w = { y with pc := .steal (l ++ [f]) } := by
    rw [hworker, Function.update_self, hy, List.nil_append]
  let z : Worker φ := { y with
    localFibers := fun i => if i < (l ++ [f]).length then (l ++ [f])[i]? else y.localFibers i
    count := (l ++ [f]).length
    pc := .take
    sawEmpty := p₂.availableFibers.isEmpty }
  let p₃ := p₂.set w (p₂.availableFibers, z)
  -- the loop ends because the batch is full or because the queue is seen empty
  have h₃ : ∃ size, GlobalFiberPool.step capacities p₂ (.sizeApprox w size) = some p₃ := by
    rcases hfull with hfull | rfl
    · refine ⟨1, ?_⟩
      have hstop : ¬ ((l ++ [f]).length < capacities w ∧ 0 < 1) := by omega
      simp only [GlobalFiberPool.step, hp₂, Worker.sizeApprox, if_neg hstop]
      exact if_pos fun h => absurd h (by omega)
    · refine ⟨0, ?_⟩
      have hstop : ¬ ((l ++ [f]).length < capacities w ∧ 0 < 0) := by omega
      have hempty : p₂.availableFibers = [] := hrest.eq_nil
      have hquiet₂ : ∀ v, (p₂.worker v).enqueuing = false := by
        rw [hworker]
        refine Update.forall_of (P := fun _ (x : Worker φ) => x.enqueuing = false) rfl
          fun v hv => ?_
        have hv₁ : p₁.worker v = p.worker v := Function.update_of_ne hv _ _
        rw [hv₁]
        exact hquiet v
      simp only [GlobalFiberPool.step, hp₂, Worker.sizeApprox, if_neg hstop]
      exact if_pos fun _ => ⟨hempty, hquiet₂⟩
  obtain ⟨size, h₃⟩ := h₃
  have hz : p₃.worker w = z := Function.update_self ..
  let x : Worker φ := { z with count := l.length, pc := .idle, hands := f :: z.hands }
  have h₄ : GlobalFiberPool.step capacities p₃ (.next w) =
      some (p₃.set w (p₂.availableFibers, x)) := by
    have hcount : z.count = l.length + 1 := hsize
    have hlast : z.localFibers (z.count - 1) = some f := by
      simp only [z, hsize, Nat.add_sub_cancel, Nat.lt_succ_self, if_true]
      simp
    have hpc : z.pc = .take := rfl
    have hqueue₃ : p₃.availableFibers = p₂.availableFibers := rfl
    simp only [GlobalFiberPool.step, hz, Worker.next, hpc, hlast, Option.map_some, hqueue₃]
    rw [if_neg (by omega)]
    simp only [Option.map_some, hcount, Nat.add_sub_cancel]
    rfl
  refine ⟨_, p₃.set w (p₂.availableFibers, x), x, .cons h₁ rfl (hpops.append (.cons h₃ rfl
    (.cons h₄ rfl (.nil _ _)))), hrest, ?_, rfl, rfl, rfl⟩
  simp only [p₃, p₁, State.set, hworker, Function.update_idem]

/-- A worker takes a fiber whenever there is one in its array or in the queue. -/
theorem exists_acquire {w : ι} (hcap : 0 < capacities w) (hok : (p.worker w).Ok (capacities w))
    (hidle : (p.worker w).pc = .idle) (hquiet : ∀ v, (p.worker v).enqueuing = false)
    (hsome : 0 < (p.worker w).count + p.availableFibers.length) :
    ∃ as p' x f, Pops capacities p as p' ∧ p'.worker = Function.update p.worker w x ∧
      x.pc = .idle ∧ x.hands = f :: (p.worker w).hands ∧
      x.count + p'.availableFibers.length + 1 = (p.worker w).count + p.availableFibers.length := by
  by_cases hzero : (p.worker w).count = 0
  · -- the next batch of the queue, with its last fiber apart
    have hne : p.availableFibers.take (capacities w) ≠ [] := by
      intro hnil
      have := congrArg List.length hnil
      rw [List.length_take, List.length_nil] at this
      omega
    let l := (p.availableFibers.take (capacities w)).dropLast
    let f := (p.availableFibers.take (capacities w)).getLast hne
    have hlast : l ++ [f] = p.availableFibers.take (capacities w) :=
      List.dropLast_append_getLast hne
    have hlength : l.length + 1 = min (capacities w) p.availableFibers.length := by
      rw [← List.length_take, ← hlast, List.length_append, List.length_singleton]
    have hqueue : p.availableFibers.Perm
        ((l ++ [f]) ++ p.availableFibers.drop (capacities w)) := by
      rw [hlast, List.take_append_drop]
    have hfull : l.length + 1 = capacities w ∨ p.availableFibers.drop (capacities w) = [] := by
      rcases Nat.lt_or_ge p.availableFibers.length (capacities w) with hlt | hge
      · exact .inr (List.drop_eq_nil_of_le hlt.le)
      · exact .inl (by omega)
    obtain ⟨as, p', x, hpops, hrest, hworker, hpc, hhands, hcount⟩ :=
      refill_run hidle hzero hquiet hqueue (by omega) hfull
    refine ⟨as, p', x, f, hpops, hworker, hpc, hhands, ?_⟩
    have := hrest.length_eq
    rw [List.length_drop] at this
    omega
  · obtain ⟨f, hf⟩ := hok.filled ((p.worker w).count - 1) (by omega)
    let y : Worker φ := { p.worker w with pc := .take, sawEmpty := false }
    let p₁ := p.set w (p.availableFibers, y)
    let x : Worker φ := { y with
      count := (p.worker w).count - 1, pc := .idle, hands := f :: (p.worker w).hands }
    have hy : p₁.worker w = y := Function.update_self ..
    have h₁ : GlobalFiberPool.step capacities p (.pop w) = some p₁ := by
      simp only [GlobalFiberPool.step, Worker.pop, hidle, if_neg hzero, Option.map_some]
      rfl
    have h₂ : GlobalFiberPool.step capacities p₁ (.next w) =
        some (p₁.set w (p.availableFibers, x)) := by
      have hqueue₁ : p₁.availableFibers = p.availableFibers := rfl
      simp only [GlobalFiberPool.step, hy, Worker.next, y, if_neg hzero, hf, Option.map_some,
        hqueue₁]
      rfl
    refine ⟨_, p₁.set w (p.availableFibers, x), x, f, .cons h₁ rfl (.cons h₂ rfl (.nil _ _)), ?_,
      rfl, rfl, ?_⟩
    · simp only [p₁, State.set, Function.update_idem]
    · simp only [x, p₁, State.set]
      omega

end

end JLibScheduler.GlobalFiberPool
