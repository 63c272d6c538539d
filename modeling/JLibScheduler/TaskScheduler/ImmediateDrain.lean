import JLibScheduler.Lib.Lts
import JLibScheduler.TaskMPSCQueue.Gaps
import JLibScheduler.TaskScheduler.Push
import JLibScheduler.Thread.Basic

/-!
# The drain before an immediate task

A worker that finds a task in its immediate slot first empties its two inboxes
(`Thread.cpp:314-352`): of each it pops up to `BATCH_SIZE` tasks and gives them to `Requeue`. The
machine has the worker `w` with one pop, one call of `PickNextWorker`, one load of a flag or one
push in a step, and the accesses of the other threads: the exchange and the link of a push, its
return, the stores of the flags and of the cursor, and the pops of the other workers. A task here is
one submission of it.

At the end of the drain no task that was in one of the inboxes, from a submission that had
returned, is left, and each was moved once to another worker whose flag was not set
(`immediate_drains`), when the drain was given them all: each is among the first `BATCH_SIZE` tasks
of its inbox, no pop stops at the gap of an unfinished push before it, no flag is set of a worker
that `Requeue` has chosen, and it does not choose the worker itself. The 65th task of an inbox is
left behind (`not_drained`).
-/

namespace JLibScheduler.TaskScheduler

open JLibScheduler.Thread (batchSize)
open TaskMPSCQueue (Nodes Fronted popNodes avail tasks link)

/-- Where the worker stands in the immediate section. A flag `hi` says which inbox is meant. -/
inductive DrainPc (n : Nat)
  /-- in another section -/
  | idle
  /-- `while (count < BATCH_SIZE && inbox->pop(batch[count]))` -/
  | fill (hi : Bool)
  /-- before a call of `PickNextWorker` for the first task of the batch, or after the last one -/
  | requeue (hi : Bool)
  /-- before the load of the flag of the worker that was picked -/
  | check (hi : Bool) (v : Fin n)
  | push (hi : Bool) (v : Fin n)
  /-- `is_handling_fork` is set -/
  | handling
deriving DecidableEq

/-- The inboxes, the flags and the cursor, and the worker's place and batch. Not in the code: whose
push was called and has returned, what the drain owes, and what it has moved, where to, and with
which flag. -/
structure DrainState (n : Nat) (τ : Type) where
  inbox : Fin n → Bool → Nodes τ
  immediateCoresInUse : Fin n → Bool
  nextWorker : Fin n
  called : τ → Bool
  returned : τ → Bool
  pc : DrainPc n
  batch : List τ
  owed : List τ
  moved : List (τ × Fin n × Bool)

/-- A step. -/
inductive DrainAct (n : Nat) (τ : Type)
  /-- The push of another thread to an inbox exchanges `head_`, and links its task. -/
  | exchange (v : Fin n) (hi : Bool) (t : τ)
  | link (v : Fin n) (hi : Bool) (t : τ)
  | ret (t : τ)
  | flag (v : Fin n) (b : Bool)
  | cursor (v : Fin n)
  /-- A pop of an inbox outside of the drain. -/
  | pop (v : Fin n) (hi : Bool)
  /-- The worker finds a task in its slot. -/
  | take
  | go

section
variable {n : Nat} {τ : Type} [DecidableEq τ]

/-- The state with an inbox changed. -/
def DrainState.setInbox (s : DrainState n τ) (v : Fin n) (hi : Bool) (c : Nodes τ) :
    DrainState n τ :=
  { s with inbox := Function.update s.inbox v (Function.update (s.inbox v) hi c) }

/-- The tasks in the inboxes of the worker whose submission has returned. -/
def DrainState.returnedTo (stub : τ) (w : Fin n) (s : DrainState n τ) : List τ :=
  (tasks stub (s.inbox w true) ++ tasks stub (s.inbox w false)).filter fun t => s.returned t

/-- What the worker does next. -/
def DrainState.go [NeZero n] (hiPri : τ → Bool) (stub : τ) (w : Fin n) (s : DrainState n τ) :
    Option (DrainState n τ) :=
  match s.pc with
  | .idle => none
  | .fill hi =>
    if s.batch.length < batchSize then
      match popNodes stub (s.inbox w hi) with
      | (some t, c) => some { s.setInbox w hi c with batch := s.batch ++ [t] }
      | (none, c) => some { s.setInbox w hi c with pc := .requeue hi }
    else some { s with pc := .requeue hi }
  | .requeue hi =>
    if s.batch.isEmpty then some { s with pc := if hi then .fill false else .handling }
    else
      some { s with
        pc := .check hi (toUInt8 (pickNextWorker s.immediateCoresInUse s.nextWorker).1)
        nextWorker := (pickNextWorker s.immediateCoresInUse s.nextWorker).2 }
  | .check hi v => some { s with pc := if s.immediateCoresInUse v then .requeue hi else .push hi v }
  | .push hi v =>
    match s.batch with
    | [] => none
    | t :: rest =>
      some { s.setInbox v (hiPri t) (s.inbox v (hiPri t) ++ [(t, true)]) with
        batch := rest
        moved := s.moved ++ [(t, v, s.immediateCoresInUse v)]
        pc := .requeue hi }
  | .handling => some { s with pc := .idle, owed := [], moved := [] }

/-- One step. -/
def DrainState.step [NeZero n] (hiPri : τ → Bool) (stub : τ) (w : Fin n) (s : DrainState n τ) :
    DrainAct n τ → Option (DrainState n τ)
  | .exchange v hi t =>
    if s.called t = true ∨ t = stub then none
    else some { s.setInbox v hi (s.inbox v hi ++ [(t, false)]) with
      called := Function.update s.called t true }
  | .link v hi t =>
    if (t, false) ∈ s.inbox v hi then some (s.setInbox v hi (link t (s.inbox v hi))) else none
  | .ret t =>
    if s.called t = true ∧ ∀ v hi, (t, false) ∉ s.inbox v hi then
      some { s with returned := Function.update s.returned t true }
    else none
  | .flag v b => some { s with immediateCoresInUse := Function.update s.immediateCoresInUse v b }
  | .cursor v => some { s with nextWorker := v }
  | .pop v hi =>
    if v ≠ w ∨ s.pc = .idle then some (s.setInbox v hi (popNodes stub (s.inbox v hi)).2) else none
  | .take =>
    if s.pc = .idle then
      some { s with pc := .fill true, batch := [], owed := s.returnedTo stub w, moved := [] }
    else none
  | .go => s.go hiPri stub w

/-- Empty inboxes, and no flag set. -/
def DrainState.init (stub : τ) (nextWorker : Fin n) : DrainState n τ where
  inbox := fun _ _ => [(stub, true)]
  immediateCoresInUse := fun _ => false
  nextWorker := nextWorker
  called := fun _ => false
  returned := fun _ => false
  pc := .idle
  batch := []
  owed := []
  moved := []

/-- When the worker sets `is_handling_fork`, no task that the drain owes is in one of its inboxes,
and each was moved once, to another worker whose flag was not set. -/
def DrainState.Drained (stub : τ) (w : Fin n) (s : DrainState n τ) : Prop :=
  s.pc = .handling → ∀ t ∈ s.owed, (∀ hi, t ∉ tasks stub (s.inbox w hi)) ∧
    ∃ v, v ≠ w ∧ (s.moved.filter fun m => m.1 = t) = [(t, v, false)]

/-- The steps that leave the drain what it needs. -/
def DrainState.Clears (stub : τ) (w : Fin n) (s : DrainState n τ) : DrainAct n τ → Prop
  -- at the begin, the tasks are among the first of their inbox
  | .take => ∀ hi, ∀ t ∈ tasks stub (s.inbox w hi), s.returned t = true →
      t ∈ (tasks stub (s.inbox w hi)).take batchSize
  -- the worker that was chosen is reserved before the push to it
  | .flag v b => b = true → ∀ hi, s.pc ≠ .push hi v
  -- a pop stops at a gap with an owed task behind it; the worker's own flag was cleared
  | .go => ∀ hi, (s.pc = .fill hi → s.batch.length < batchSize →
        (∃ t ∈ s.owed, t ∈ tasks stub (s.inbox w hi)) → avail stub (s.inbox w hi) ≠ []) ∧
      (s.pc = .check hi w → s.immediateCoresInUse w = true)
  | _ => True

instance (stub : τ) (w : Fin n) (s : DrainState n τ) (a : DrainAct n τ) :
    Decidable (s.Clears stub w a) := by
  cases a <;> unfold DrainState.Clears <;> infer_instance

/-! ## The invariant -/

/-- How many more tasks of an inbox the drain pops at most. -/
def DrainPc.quota (count : Nat) : DrainPc n → Bool → Nat
  | .fill true, true | .fill false, false => batchSize - count
  | .fill true, false | .requeue true, false | .check true _, false | .push true _, false =>
    batchSize
  | _, _ => 0

/-- How often a task is in one of the worker's inboxes, in its batch, or moved. -/
def DrainState.places (stub : τ) (w : Fin n) (s : DrainState n τ) (t : τ) : Nat :=
  (tasks stub (s.inbox w true)).count t + (tasks stub (s.inbox w false)).count t +
    s.batch.count t + (s.moved.map Prod.fst).count t

/-- The two inboxes of a worker: no task is in both, and each was submitted. -/
structure InboxesOk (stub : τ) (inbox : Bool → Nodes τ) (called : τ → Bool) : Prop where
  fronted : ∀ hi, Fronted (inbox hi)
  called : ∀ hi, ∀ x ∈ inbox hi, x.1 = stub ∨ called x.1 = true
  disjoint : ∀ hi, ∀ t ∈ tasks stub (inbox hi), t ∉ tasks stub (inbox !hi)

/-- What holds in every state of a run whose steps all leave the drain what it needs. -/
structure DrainInv (stub : τ) (w : Fin n) (s : DrainState n τ) : Prop where
  inboxes : InboxesOk stub (s.inbox w) s.called
  owed : ∀ t ∈ s.owed, s.called t = true ∧ s.places stub w t = 1
  quota : ∀ hi, ∀ t ∈ s.owed, t ∈ tasks stub (s.inbox w hi) →
    t ∈ (tasks stub (s.inbox w hi)).take (s.pc.quota s.batch.length hi)
  moved : ∀ m ∈ s.moved, m.2.1 ≠ w ∧ m.2.2 = false
  chosen : ∀ hi v, s.pc = .push hi v → v ≠ w ∧ s.immediateCoresInUse v = false
  idle : s.pc = .idle → s.owed = []
  batch : s.pc = .handling → s.batch = []

variable {hiPri : τ → Bool} {stub : τ} {w v : Fin n} {s s' : DrainState n τ} {hi : Bool}
  {c : Nodes τ} {t : τ} {inbox : Bool → Nodes τ} {called called' : τ → Bool}

theorem mem_tasks : t ∈ tasks stub c ↔ t ∈ c.map Prod.fst ∧ t ≠ stub := by
  rw [tasks, List.mem_filter, decide_eq_true_iff]

theorem InboxesOk.mono (h : InboxesOk stub inbox called)
    (hcalled : ∀ t, called t = true → called' t = true) : InboxesOk stub inbox called' where
  fronted := h.fronted
  called hi x hx := (h.called hi x hx).imp_right (hcalled _)
  disjoint := h.disjoint

/-- One of the inboxes is changed. -/
theorem InboxesOk.update (h : InboxesOk stub inbox called) (hfronted : Fronted c)
    (hcalled : ∀ x ∈ c, x.1 = stub ∨ called x.1 = true)
    (hdisjoint : ∀ t ∈ tasks stub c, t ∉ tasks stub (inbox !hi)) :
    InboxesOk stub (Function.update inbox hi c) called where
  fronted := (Function.forall_update_iff _ fun _ (c : Nodes τ) => Fronted c).2
    ⟨hfronted, fun hi _ => h.fronted hi⟩
  called := (Function.forall_update_iff _
    fun _ (c : Nodes τ) => ∀ x ∈ c, x.1 = stub ∨ called x.1 = true).2
    ⟨hcalled, fun hi _ => h.called hi⟩
  disjoint hi' t ht := by
    by_cases heq : hi' = hi
    · subst heq
      rw [Function.update_self] at ht
      rw [Function.update_of_ne (Bool.not_ne_self hi')]
      exact hdisjoint t ht
    · obtain rfl : hi' = !hi := Bool.eq_not_of_ne heq
      rw [Function.update_of_ne heq] at ht
      rw [Bool.not_not, Function.update_self]
      exact fun ht' => hdisjoint t ht' ht

/-- A pop of one of the inboxes. -/
theorem InboxesOk.pop (h : InboxesOk stub inbox called) (hi : Bool) :
    InboxesOk stub (Function.update inbox hi (popNodes stub (inbox hi)).2) called := by
  obtain ⟨-, -, htasks, hfronted⟩ := TaskMPSCQueue.popNodes_spec stub (h.fronted hi)
  have hsub : ∀ t ∈ tasks stub (popNodes stub (inbox hi)).2, t ∈ tasks stub (inbox hi) := by
    intro t ht
    rw [htasks]
    exact List.mem_append_right _ ht
  refine h.update hfronted (fun x hx => ?_) fun t ht => h.disjoint hi t (hsub t ht)
  by_cases hstub : x.1 = stub
  · exact .inl hstub
  · obtain ⟨hmem, -⟩ := mem_tasks.1 (hsub x.1 (mem_tasks.2 ⟨List.mem_map.2 ⟨x, hx, rfl⟩, hstub⟩))
    obtain ⟨y, hy, heq⟩ := List.mem_map.1 hmem
    rw [← heq]
    exact h.called hi y hy

theorem InboxesOk.link (h : InboxesOk stub inbox called) (hi : Bool) (t : τ) :
    InboxesOk stub (Function.update inbox hi (link t (inbox hi))) called := by
  refine h.update ((h.fronted hi).link t) (fun x hx => ?_) ?_
  · obtain ⟨y, hy, rfl⟩ := List.mem_map.1 hx
    exact h.called hi y hy
  · rw [TaskMPSCQueue.tasks_link]
    exact h.disjoint hi

/-- The exchange of a task that was not pushed before. -/
theorem InboxesOk.exchange (h : InboxesOk stub inbox called) (hi : Bool) (hstub : t ≠ stub)
    (ht : called t = false) :
    InboxesOk stub (Function.update inbox hi (inbox hi ++ [(t, false)]))
      (Function.update called t true) := by
  have hnew : ∀ hi, t ∉ (inbox hi).map Prod.fst := by
    intro hi hmem
    obtain ⟨x, hx, rfl⟩ := List.mem_map.1 hmem
    rcases h.called hi x hx with heq | heq
    · exact hstub heq
    · rw [ht] at heq
      cases heq
  have hmono : ∀ u, called u = true → Function.update called t true u = true := by
    intro u hu
    by_cases heq : u = t
    · rw [heq, Function.update_self]
    · rwa [Function.update_of_ne heq]
  refine (h.mono hmono).update ((h.fronted hi).append false (hnew hi)) ?_ ?_
  · intro x hx
    rcases List.mem_append.1 hx with hx | hx
    · exact (h.called hi x hx).imp_right (hmono _)
    · rw [List.mem_singleton.1 hx]
      exact .inr (Function.update_self ..)
  · intro u hu
    rw [TaskMPSCQueue.tasks_append, List.mem_append] at hu
    rcases hu with hu | hu
    · exact h.disjoint hi u hu
    · obtain rfl : u = t := by simpa using (mem_tasks.1 hu).1
      exact fun hmem => hnew _ (mem_tasks.1 hmem).1

omit [DecidableEq τ] in
theorem setInbox_inbox_self (s : DrainState n τ) (v : Fin n) (hi : Bool) (c : Nodes τ) :
    (s.setInbox v hi c).inbox v = Function.update (s.inbox v) hi c := Function.update_self ..

omit [DecidableEq τ] in
theorem setInbox_inbox_of_ne (s : DrainState n τ) (hv : v ≠ w) (hi : Bool) (c : Nodes τ) :
    (s.setInbox v hi c).inbox w = s.inbox w := Function.update_of_ne hv.symm ..

/-- The places of a task after a change of one of the inboxes. -/
theorem DrainState.places_update (hinbox : s'.inbox w = Function.update (s.inbox w) hi c) :
    s'.places stub w t = (tasks stub c).count t + (tasks stub (s.inbox w !hi)).count t +
      s'.batch.count t + (s'.moved.map Prod.fst).count t := by
  rw [DrainState.places, hinbox]
  cases hi with
  | true => rfl
  | false =>
    rw [Function.update_self, Nat.add_comm (List.count t (tasks stub _))]
    rfl

/-- The places of a task, from one of the inboxes. -/
theorem DrainState.places_eq (stub : τ) (w : Fin n) (s : DrainState n τ) (t : τ) (hi : Bool) :
    s.places stub w t = (tasks stub (s.inbox w hi)).count t + (tasks stub (s.inbox w !hi)).count t +
      s.batch.count t + (s.moved.map Prod.fst).count t := by
  refine DrainState.places_update ?_
  exact (Function.update_eq_self hi (s.inbox w)).symm

/-- The tasks of the worker's inboxes that the drain still owes are among those that it pops, when
one of the inboxes is changed. -/
theorem DrainInv.quota_update (h : DrainInv stub w s)
    (hinbox : s'.inbox w = Function.update (s.inbox w) hi c) (howed : s'.owed = s.owed)
    (hself : ∀ t ∈ s.owed, t ∈ tasks stub c →
      t ∈ (tasks stub c).take (s'.pc.quota s'.batch.length hi))
    (hother : s'.pc.quota s'.batch.length (!hi) = s.pc.quota s.batch.length (!hi)) :
    ∀ hi, ∀ t ∈ s'.owed, t ∈ tasks stub (s'.inbox w hi) →
      t ∈ (tasks stub (s'.inbox w hi)).take (s'.pc.quota s'.batch.length hi) := by
  rw [hinbox, howed]
  refine (Function.forall_update_iff _ fun hi (c : Nodes τ) => ∀ t ∈ s.owed, t ∈ tasks stub c →
    t ∈ (tasks stub c).take (s'.pc.quota s'.batch.length hi)).2 ⟨hself, fun hi' hne => ?_⟩
  obtain rfl : hi' = !hi := Bool.eq_not_of_ne hne
  rw [hother]
  exact h.quota _

/-- A step that is not about the worker's inboxes and what the drain has of them. -/
theorem DrainInv.frame (h : DrainInv stub w s) (hinbox : s'.inbox w = s.inbox w)
    (hcalled : ∀ t, s.called t = true → s'.called t = true)
    (hquota : ∀ hi, s'.pc.quota s'.batch.length hi = s.pc.quota s.batch.length hi)
    (howed : s'.owed = s.owed)
    (hplaces : ∀ t, s'.batch.count t + (s'.moved.map Prod.fst).count t =
      s.batch.count t + (s.moved.map Prod.fst).count t)
    (hmoved : ∀ m ∈ s'.moved, m.2.1 ≠ w ∧ m.2.2 = false)
    (hchosen : ∀ hi v, s'.pc = .push hi v → v ≠ w ∧ s'.immediateCoresInUse v = false)
    (hidle : s'.pc = .idle → s.owed = []) (hbatch : s'.pc = .handling → s'.batch = []) :
    DrainInv stub w s' where
  inboxes := by
    rw [hinbox]
    exact h.inboxes.mono hcalled
  owed t ht := by
    rw [howed] at ht
    obtain ⟨hcall, hone⟩ := h.owed t ht
    refine ⟨hcalled t hcall, ?_⟩
    rw [DrainState.places, Nat.add_assoc] at hone ⊢
    rwa [hinbox, hplaces t]
  quota hi t ht := by
    rw [howed] at ht
    rw [hinbox, hquota hi]
    exact h.quota hi t ht
  moved := hmoved
  chosen := hchosen
  idle hpc := howed.trans (hidle hpc)
  batch := hbatch

/-! ## The steps -/

theorem DrainInv.init (stub : τ) (w next : Fin n) : DrainInv stub w (.init stub next) where
  inboxes :=
    { fronted := fun _ => Fronted.singleton stub
      called := fun _ x hx => .inl (by rw [List.mem_singleton.1 hx])
      disjoint := fun _ t ht => by simp [DrainState.init, tasks] at ht }
  owed t ht := by cases ht
  quota hi t ht := by cases ht
  moved m hm := by cases hm
  chosen hi v hv := by cases hv
  idle _ := rfl
  batch _ := rfl

/-- A step of another thread that changes neither an inbox of the worker nor a flag that it relies
on. -/
theorem DrainInv.other (h : DrainInv stub w s) (hinbox : s'.inbox w = s.inbox w)
    (hcalled : ∀ t, s.called t = true → s'.called t = true) (hpc : s'.pc = s.pc)
    (hbatch : s'.batch = s.batch) (howed : s'.owed = s.owed) (hmoved : s'.moved = s.moved)
    (hflags : ∀ hi v, s.pc = .push hi v →
      s'.immediateCoresInUse v = s.immediateCoresInUse v) : DrainInv stub w s' := by
  refine h.frame hinbox hcalled (fun hi => by rw [hpc, hbatch]) howed
    (fun t => by rw [hbatch, hmoved]) (by rw [hmoved]; exact h.moved) (fun hi v hv => ?_)
    (fun hidle => h.idle (hpc ▸ hidle)) fun hhandling => by rw [hbatch, h.batch (hpc ▸ hhandling)]
  rw [hpc] at hv
  rw [hflags hi v hv]
  exact h.chosen hi v hv

/-- A push begins. Its task comes after those that are there. -/
theorem DrainInv.exchange (h : DrainInv stub w s) (hstub : t ≠ stub) (ht : s.called t = false) :
    DrainInv stub w { s.setInbox v hi (s.inbox v hi ++ [(t, false)]) with
      called := Function.update s.called t true } := by
  have hmono : ∀ u, s.called u = true → Function.update s.called t true u = true := by
    intro u hu
    by_cases heq : u = t
    · rw [heq, Function.update_self]
    · rwa [Function.update_of_ne heq]
  by_cases hv : v = w
  · subst hv
    have hinbox := setInbox_inbox_self s v hi (s.inbox v hi ++ [(t, false)])
    have hold : ∀ u ∈ s.owed, u ∉ tasks stub [(t, false)] := by
      intro u hu hmem
      obtain rfl : u = t := by simpa using (mem_tasks.1 hmem).1
      have := (h.owed u hu).1
      rw [ht] at this
      cases this
    exact
      { inboxes := by
          change InboxesOk stub ((s.setInbox v hi (s.inbox v hi ++ [(t, false)])).inbox v) _
          rw [hinbox]
          exact h.inboxes.exchange hi hstub ht
        owed := fun u hu => by
          refine ⟨hmono u (h.owed u hu).1, ?_⟩
          have hone := (h.owed u hu).2
          rw [DrainState.places_eq stub v s u hi] at hone
          refine (DrainState.places_update hinbox).trans ?_
          rw [TaskMPSCQueue.tasks_append, List.count_append,
            List.count_eq_zero_of_not_mem (hold u hu), Nat.add_zero]
          exact hone
        quota := by
          refine h.quota_update hinbox rfl (fun u hu hmem => ?_) rfl
          rw [TaskMPSCQueue.tasks_append, List.mem_append] at hmem
          have hbefore := h.quota hi u hu (hmem.resolve_right (hold u hu))
          rw [TaskMPSCQueue.tasks_append]
          exact ((List.prefix_append _ _).take _).subset hbefore
        moved := h.moved
        chosen := h.chosen
        idle := h.idle
        batch := h.batch }
  · exact h.other (setInbox_inbox_of_ne s hv hi _) hmono rfl rfl rfl rfl fun _ _ _ => rfl

theorem DrainInv.link (h : DrainInv stub w s) (v : Fin n) (hi : Bool) (t : τ) :
    DrainInv stub w (s.setInbox v hi (link t (s.inbox v hi))) := by
  by_cases hv : v = w
  · subst hv
    have hinbox := setInbox_inbox_self s v hi (link t (s.inbox v hi))
    exact
      { inboxes := by
          rw [hinbox]
          exact h.inboxes.link hi t
        owed := fun u hu => by
          refine ⟨(h.owed u hu).1, ?_⟩
          rw [DrainState.places_update hinbox, TaskMPSCQueue.tasks_link]
          exact (DrainState.places_eq stub v s u hi).symm.trans (h.owed u hu).2
        quota := by
          refine h.quota_update hinbox rfl (fun u hu hmem => ?_) rfl
          rw [TaskMPSCQueue.tasks_link] at hmem ⊢
          exact h.quota hi u hu hmem
        moved := h.moved
        chosen := h.chosen
        idle := h.idle
        batch := h.batch }
  · exact h.other (setInbox_inbox_of_ne s hv hi _) (fun _ hu => hu) rfl rfl rfl rfl fun _ _ _ => rfl

theorem DrainInv.pop (h : DrainInv stub w s) (hv : v ≠ w ∨ s.pc = .idle) (hi : Bool) :
    DrainInv stub w (s.setInbox v hi (popNodes stub (s.inbox v hi)).2) := by
  by_cases heq : v = w
  · subst heq
    have hpc := hv.resolve_left fun hne => hne rfl
    have howed := h.idle hpc
    exact
      { inboxes := by
          rw [setInbox_inbox_self]
          exact h.inboxes.pop hi
        owed := fun u hu => absurd (howed ▸ hu) List.not_mem_nil
        quota := fun _ u hu => absurd (howed ▸ hu) List.not_mem_nil
        moved := h.moved
        chosen := h.chosen
        idle := h.idle
        batch := h.batch }
  · exact h.other (setInbox_inbox_of_ne s heq hi _) (fun _ hu => hu) rfl rfl rfl rfl
      fun _ _ _ => rfl

/-- A task of one of the inboxes is there once. -/
theorem InboxesOk.count (h : InboxesOk stub inbox called)
    (ht : t ∈ tasks stub (inbox true) ++ tasks stub (inbox false)) :
    (tasks stub (inbox true)).count t + (tasks stub (inbox false)).count t = 1 := by
  have hnodup : ∀ hi, (tasks stub (inbox hi)).Nodup := fun hi => (h.fronted hi).nodup.filter _
  rcases List.mem_append.1 ht with ht | ht
  · have hother : t ∉ tasks stub (inbox false) := h.disjoint true t ht
    rw [List.count_eq_one_of_mem (hnodup true) ht, List.count_eq_zero_of_not_mem hother]
  · have hother : t ∉ tasks stub (inbox true) := h.disjoint false t ht
    rw [List.count_eq_one_of_mem (hnodup false) ht, List.count_eq_zero_of_not_mem hother]

theorem DrainInv.take (h : DrainInv stub w s) (hclear : s.Clears stub w .take) :
    DrainInv stub w
      { s with pc := .fill true, batch := [], owed := s.returnedTo stub w, moved := [] } where
  inboxes := h.inboxes
  owed t ht := by
    obtain ⟨hmem, -⟩ := List.mem_filter.1 ht
    refine ⟨?_, h.inboxes.count hmem⟩
    have hcalled : ∀ hi, t ∈ tasks stub (s.inbox w hi) → s.called t = true := by
      intro hi hmem
      obtain ⟨hmem, hstub⟩ := mem_tasks.1 hmem
      obtain ⟨x, hx, rfl⟩ := List.mem_map.1 hmem
      exact (h.inboxes.called hi x hx).resolve_left hstub
    exact (List.mem_append.1 hmem).elim (hcalled true) (hcalled false)
  quota hi t ht hmem := by
    have hreturned : s.returned t = true := (List.mem_filter.1 ht).2
    cases hi with
    | true => exact hclear true t hmem hreturned
    | false => exact hclear false t hmem hreturned
  moved m hm := by cases hm
  chosen hi v hv := by cases hv
  idle hpc := by cases hpc
  batch hpc := by cases hpc

theorem DrainPc.quota_fill (k : Nat) (hi : Bool) :
    (DrainPc.fill hi : DrainPc n).quota k hi = batchSize - k := by
  cases hi <;> rfl

theorem DrainPc.quota_requeue (k : Nat) (hi : Bool) :
    (DrainPc.requeue hi : DrainPc n).quota k hi = 0 := by
  cases hi <;> rfl

/-- A pop of the drain that gives a task. -/
theorem DrainInv.fill_some (h : DrainInv stub w s) (hpc : s.pc = .fill hi)
    (hlt : s.batch.length < batchSize) (hpop : popNodes stub (s.inbox w hi) = (some t, c)) :
    DrainInv stub w { s.setInbox w hi c with batch := s.batch ++ [t] } := by
  obtain ⟨-, -, htasks, -⟩ := TaskMPSCQueue.popNodes_spec stub (h.inboxes.fronted hi)
  rw [hpop] at htasks
  simp only [Option.toList_some, List.singleton_append] at htasks
  have hinbox := setInbox_inbox_self s w hi c
  exact
    { inboxes := by
        change InboxesOk stub ((s.setInbox w hi c).inbox w) s.called
        rw [hinbox, show c = (popNodes stub (s.inbox w hi)).2 by rw [hpop]]
        exact h.inboxes.pop hi
      owed := fun u hu => by
        refine ⟨(h.owed u hu).1, ?_⟩
        have hone := (h.owed u hu).2
        rw [DrainState.places_eq stub w s u hi, htasks, List.count_cons] at hone
        have hplaces : ({ s.setInbox w hi c with batch := s.batch ++ [t] } :
            DrainState n τ).places stub w u = (tasks stub c).count u +
            (tasks stub (s.inbox w !hi)).count u + (s.batch ++ [t]).count u +
            (s.moved.map Prod.fst).count u := DrainState.places_update hinbox
        rw [hplaces, List.count_append, List.count_singleton]
        omega
      quota := by
        refine h.quota_update hinbox rfl (fun u hu hmem => ?_) ?_
        · have hold := h.quota hi u hu (by rw [htasks]; exact .tail _ hmem)
          have hone := (h.owed u hu).2
          rw [hpc, DrainPc.quota_fill, htasks, show batchSize - s.batch.length =
            batchSize - (s.batch.length + 1) + 1 by omega, List.take_succ_cons,
            List.mem_cons] at hold
          change u ∈ (tasks stub c).take (s.pc.quota (s.batch ++ [t]).length hi)
          rw [hpc, DrainPc.quota_fill, List.length_append, List.length_singleton]
          refine hold.resolve_left fun heq => ?_
          subst heq
          rw [DrainState.places_eq stub w s u hi, htasks, List.count_cons_self] at hone
          have := List.count_pos_iff.2 hmem
          omega
        · change s.pc.quota _ (!hi) = s.pc.quota _ (!hi)
          rw [hpc]
          cases hi <;> rfl
      moved := h.moved
      chosen := h.chosen
      idle := h.idle
      batch := fun hhandling => by
        change s.pc = .handling at hhandling
        rw [hpc] at hhandling
        cases hhandling }

/-- A pop of the drain that gives nothing, when no owed task is behind a gap. -/
theorem DrainInv.fill_none (h : DrainInv stub w s) (hpc : s.pc = .fill hi)
    (hclear : (∃ t ∈ s.owed, t ∈ tasks stub (s.inbox w hi)) → avail stub (s.inbox w hi) ≠ [])
    (hpop : popNodes stub (s.inbox w hi) = (none, c)) :
    DrainInv stub w { s.setInbox w hi c with pc := .requeue hi } := by
  obtain ⟨hhead, -, htasks, -⟩ :=
    TaskMPSCQueue.popNodes_spec stub (h.inboxes.fronted hi)
  rw [hpop] at hhead htasks
  have hnil : avail stub (s.inbox w hi) = [] := List.head?_eq_none_iff.1 hhead.symm
  have htasks : tasks stub (s.inbox w hi) = tasks stub c := htasks
  have hinbox := setInbox_inbox_self s w hi c
  exact
    { inboxes := by
        change InboxesOk stub ((s.setInbox w hi c).inbox w) s.called
        rw [hinbox, show c = (popNodes stub (s.inbox w hi)).2 by rw [hpop]]
        exact h.inboxes.pop hi
      owed := fun u hu => by
        refine ⟨(h.owed u hu).1, (DrainState.places_update hinbox).trans ?_⟩
        rw [← htasks]
        exact (DrainState.places_eq stub w s u hi).symm.trans (h.owed u hu).2
      quota := by
        refine h.quota_update hinbox rfl (fun u hu hmem => ?_) ?_
        · exact absurd hnil (hclear ⟨u, hu, htasks ▸ hmem⟩)
        · change (DrainPc.requeue hi).quota _ (!hi) = s.pc.quota _ (!hi)
          rw [hpc]
          cases hi <;> rfl
      moved := h.moved
      chosen := fun hi v hv => by cases hv
      idle := fun hidle => by cases hidle
      batch := fun hhandling => by cases hhandling }

/-- The batch is full. -/
theorem DrainInv.fill_full (h : DrainInv stub w s) (hpc : s.pc = .fill hi)
    (hfull : ¬ s.batch.length < batchSize) : DrainInv stub w { s with pc := .requeue hi } := by
  refine h.frame rfl (fun _ hu => hu) (fun hi' => ?_) rfl (fun _ => rfl) h.moved
    (fun hi v hv => by cases hv) (fun hidle => by cases hidle) fun hhandling => by cases hhandling
  change (DrainPc.requeue hi).quota _ hi' = s.pc.quota _ hi'
  rw [hpc]
  by_cases heq : hi' = hi
  · rw [heq, DrainPc.quota_requeue, DrainPc.quota_fill, Nat.sub_eq_zero_of_le (Nat.not_lt.1 hfull)]
  · obtain rfl : hi' = !hi := Bool.eq_not_of_ne heq
    cases hi <;> rfl

/-- The loop over the batch has ended. -/
theorem DrainInv.requeue_nil (h : DrainInv stub w s) (hpc : s.pc = .requeue hi)
    (hnil : s.batch = []) :
    DrainInv stub w { s with pc := if hi then .fill false else .handling } := by
  refine h.frame rfl (fun _ hu => hu) (fun hi' => ?_) rfl (fun _ => rfl) h.moved
    (fun hi' v hv => ?_) (fun hidle => ?_) fun _ => hnil
  · change (if hi then DrainPc.fill false else .handling : DrainPc n).quota s.batch.length hi' = _
    rw [hpc, hnil]
    cases hi <;> cases hi' <;> rfl
  · cases hi <;> cases hv
  · cases hi <;> cases hidle

/-- The first task of the batch is pushed to another worker. -/
theorem DrainInv.push {rest : List τ} (h : DrainInv stub w s) (hpc : s.pc = .push hi v)
    (hbatch : s.batch = t :: rest) :
    DrainInv stub w { s.setInbox v (hiPri t) (s.inbox v (hiPri t) ++ [(t, true)]) with
      batch := rest
      moved := s.moved ++ [(t, v, s.immediateCoresInUse v)]
      pc := .requeue hi } := by
  obtain ⟨hne, hflag⟩ := h.chosen hi v hpc
  refine h.frame (setInbox_inbox_of_ne s hne _ _) (fun _ hu => hu) (fun hi' => ?_) rfl (fun u => ?_)
    (fun m hm => ?_) (fun hi v hv => by cases hv) (fun hidle => by cases hidle) fun hhandling => by
    cases hhandling
  · change (DrainPc.requeue hi).quota _ hi' = s.pc.quota _ hi'
    rw [hpc]
    cases hi <;> cases hi' <;> rfl
  · change rest.count u + ((s.moved ++ [(t, v, s.immediateCoresInUse v)]).map Prod.fst).count u = _
    rw [hbatch, List.map_append, List.count_append, List.map_cons, List.map_nil,
      List.count_singleton, List.count_cons, Nat.add_left_comm, Nat.add_assoc, Nat.add_left_comm]
    exact congrArg _ (Nat.add_comm ..)
  · rcases List.mem_append.1 hm with hm | hm
    · exact h.moved m hm
    · rw [List.mem_singleton.1 hm]
      exact ⟨hne, hflag⟩

/-- A step of the worker in the immediate section. -/
theorem DrainInv.go [NeZero n] (h : DrainInv stub w s) (hclear : s.Clears stub w .go)
    (hgo : s.go hiPri stub w = some s') : DrainInv stub w s' := by
  unfold DrainState.go at hgo
  cases hpc : s.pc with
  | idle =>
    rw [hpc] at hgo
    cases hgo
  | fill hi =>
    simp only [hpc] at hgo
    split at hgo
    next hlt =>
      rcases hpop : popNodes stub (s.inbox w hi) with ⟨_ | t, c⟩
      · rw [hpop] at hgo
        cases hgo
        exact h.fill_none hpc ((hclear hi).1 hpc hlt) hpop
      · rw [hpop] at hgo
        cases hgo
        exact h.fill_some hpc hlt hpop
    next hfull =>
      cases hgo
      exact h.fill_full hpc hfull
  | requeue hi =>
    simp only [hpc] at hgo
    split at hgo
    next hnil =>
      cases hgo
      exact h.requeue_nil hpc (List.isEmpty_iff.1 hnil)
    next =>
      cases hgo
      refine h.frame rfl (fun _ hu => hu) (fun hi' => ?_) rfl (fun _ => rfl) h.moved
        (fun hi v hv => by cases hv) (fun hidle => by cases hidle) fun hhandling => by
        cases hhandling
      rw [hpc]
      cases hi <;> cases hi' <;> rfl
  | check hi v =>
    simp only [hpc] at hgo
    cases hgo
    refine h.frame rfl (fun _ hu => hu) (fun hi' => ?_) rfl (fun _ => rfl) h.moved
      (fun hi' v' hv => ?_) (fun hidle => ?_) fun hhandling => ?_
    · simp only [hpc]
      split <;> cases hi <;> cases hi' <;> rfl
    · simp only at hv
      split at hv
      next => cases hv
      next hflag =>
        cases hv
        refine ⟨fun heq => hflag ?_, Bool.eq_false_iff.2 hflag⟩
        subst heq
        exact (hclear hi).2 hpc
    · simp only at hidle
      split at hidle <;> cases hidle
    · simp only at hhandling
      split at hhandling <;> cases hhandling
  | push hi v =>
    simp only [hpc] at hgo
    cases hbatch : s.batch with
    | nil =>
      rw [hbatch] at hgo
      cases hgo
    | cons t rest =>
      rw [hbatch] at hgo
      cases hgo
      exact h.push hpc hbatch
  | handling =>
    rw [hpc] at hgo
    cases hgo
    exact
      { inboxes := h.inboxes
        owed := fun _ hu => by cases hu
        quota := fun _ _ hu => by cases hu
        moved := fun _ hm => by cases hm
        chosen := fun _ _ hv => by cases hv
        idle := fun _ => rfl
        batch := fun hhandling => by cases hhandling }

theorem DrainInv.step [NeZero n] {a : DrainAct n τ} (h : DrainInv stub w s)
    (hclear : s.Clears stub w a) (hs : s.step hiPri stub w a = some s') : DrainInv stub w s' := by
  cases a with
  | exchange v hi t =>
    rw [DrainState.step] at hs
    split at hs
    · cases hs
    · next hnew =>
      cases hs
      rw [not_or] at hnew
      exact h.exchange hnew.2 (Bool.eq_false_iff.2 hnew.1)
  | link v hi t =>
    rw [DrainState.step] at hs
    split at hs
    · cases hs
      exact h.link v hi t
    · cases hs
  | ret t =>
    rw [DrainState.step] at hs
    split at hs
    · cases hs
      exact h.other rfl (fun _ hu => hu) rfl rfl rfl rfl fun _ _ _ => rfl
    · cases hs
  | flag v b =>
    cases hs
    refine h.frame rfl (fun _ hu => hu) (fun _ => rfl) rfl (fun _ => rfl) h.moved
      (fun hi u hu => ?_)
      h.idle h.batch
    obtain ⟨hne, hflag⟩ := h.chosen hi u hu
    refine ⟨hne, ?_⟩
    by_cases heq : u = v
    · subst heq
      change Function.update s.immediateCoresInUse u b u = false
      rw [Function.update_self]
      exact Bool.eq_false_iff.2 fun hb => hclear hb hi hu
    · change Function.update s.immediateCoresInUse v b u = false
      rwa [Function.update_of_ne heq]
  | cursor v =>
    cases hs
    exact h.other rfl (fun _ hu => hu) rfl rfl rfl rfl fun _ _ _ => rfl
  | pop v hi =>
    rw [DrainState.step] at hs
    split at hs
    next hv =>
      cases hs
      exact h.pop hv hi
    next => cases hs
  | take =>
    rw [DrainState.step] at hs
    split at hs
    · cases hs
      exact h.take hclear
    · cases hs
  | go => exact h.go hclear hs

theorem length_filter_fst {α : Type} (l : List (τ × α)) (t : τ) :
    (l.filter fun m => m.1 = t).length = (l.map Prod.fst).count t := by
  rw [List.count, List.countP_map, List.countP_eq_length_filter]
  rfl

/-- At the end of the drain every task that it owes was moved. -/
theorem DrainInv.drained (h : DrainInv stub w s) : s.Drained stub w := by
  intro hpc t ht
  have hleft : ∀ hi, t ∉ tasks stub (s.inbox w hi) := by
    intro hi hmem
    have hquota := h.quota hi t ht hmem
    rw [hpc] at hquota
    cases hquota
  refine ⟨hleft, ?_⟩
  have hone := (h.owed t ht).2
  rw [DrainState.places, List.count_eq_zero_of_not_mem (hleft true),
    List.count_eq_zero_of_not_mem (hleft false), h.batch hpc, List.count_nil, Nat.zero_add] at hone
  obtain ⟨m, hm⟩ := List.length_eq_one_iff.1 ((length_filter_fst s.moved t).trans hone)
  have hmem : m ∈ s.moved.filter fun m => m.1 = t := by
    rw [hm]
    exact .head _
  obtain ⟨hmem, heq⟩ := List.mem_filter.1 hmem
  obtain ⟨hne, hflag⟩ := h.moved m hmem
  obtain ⟨u, v, b⟩ := m
  obtain rfl : u = t := of_decide_eq_true heq
  obtain rfl : b = false := hflag
  exact ⟨v, hne, hm⟩

/-- In a run whose steps all leave the drain what it needs, no task whose submission had returned is
left behind, and each was moved once. -/
theorem immediate_drains [NeZero n] (next : Fin n) (as : List (DrainAct n τ))
    (hgood : ∀ p ∈ Lts.visits (DrainState.step hiPri stub w) (.init stub next) as,
      p.1.Clears stub w p.2) :
    ∀ s ∈ Lts.states (DrainState.step hiPri stub w) (.init stub next) as, s.Drained stub w :=
  fun s hs => (Lts.states_inv_of (fun h hgood hs => DrainInv.step h hgood hs)
    (DrainInv.init stub w next) hgood s hs).drained

end

section

/-- The worker `w` gets `k` tasks of low priority. -/
def fillRun (w : Fin 2) (k : Nat) : List (DrainAct 2 Nat) :=
  (List.range k).flatMap fun i => [.exchange w false (i + 1), .link w false (i + 1), .ret (i + 1)]

/-- Then it is reserved, finds a task in its slot, pops up to `BATCH_SIZE` tasks and moves them. -/
def drainRun (w : Fin 2) (k : Nat) : List (DrainAct 2 Nat) :=
  fillRun w k ++ [.flag w true, .take] ++
    List.replicate (2 + min k batchSize + 1 + 3 * min k batchSize + 1) .go

/-- A third push begins after the drain and makes its link before the pops come to it. -/
def lateRun (w : Fin 2) : List (DrainAct 2 Nat) :=
  fillRun w 2 ++ [.flag w true, .take, .exchange w false 3] ++ List.replicate 2 .go ++
    [.link w false 3] ++ List.replicate 14 .go

/-- Two tasks are owed, and they are moved. -/
theorem immediate_drains_two : ∃ s,
    Lts.run (DrainState.step (fun _ => false) 0 (0 : Fin 2)) (.init 0 0) (lateRun 0) = some s ∧
      s.pc = .handling ∧ s.owed = [1, 2] ∧ s.Drained 0 0 :=
  ⟨_, (Option.some_get (x := Lts.run _ _ _) (by decide +kernel)).symm, by decide +kernel,
    by decide +kernel, immediate_drains 0 (lateRun 0) (by decide +kernel) _
      (Lts.mem_states_of_run (Option.some_get (x := Lts.run _ _ _) (by decide +kernel)).symm)⟩

/-- Of 65 tasks in an inbox the last one is left behind. -/
theorem not_drained : ¬ ∀ (n : Nat) (_ : NeZero n) (hiPri : Nat → Bool) (stub : Nat)
    (w next : Fin n) (as : List (DrainAct n Nat)),
    ∀ s ∈ Lts.states (DrainState.step hiPri stub w) (.init stub next) as, s.Drained stub w := by
  intro h
  have hrun : (Lts.run (DrainState.step (fun _ => false) 0 (0 : Fin 2)) (.init 0 0)
      (drainRun 0 65)).map (fun s => decide (s.pc = .handling ∧ 65 ∈ s.owed ∧
        65 ∈ tasks 0 (s.inbox 0 false))) = some true := by decide +kernel
  obtain ⟨s, hrun, hs⟩ := Option.map_eq_some_iff.1 hrun
  obtain ⟨hpc, howed, hmem⟩ := of_decide_eq_true hs
  have hdrained := h 2 inferInstance (fun _ => false) 0 0 0 (drainRun 0 65) s
    (Lts.mem_states_of_run hrun)
  exact (hdrained hpc 65 howed).1 false hmem

end

end JLibScheduler.TaskScheduler
