import JLibScheduler.TaskMPSCQueue.Order

/-!
# The queue of the main thread

`PushMain` puts a task into `mainQ`, and only `ProcessMainThread`, on the main thread, takes tasks
from it (`TaskScheduler.cpp:42-68`): it pops, executes the task, destroys it and gives its slot
back, until a pop gives nothing. The machine is that of the queue, one atomic access per step, with
the main thread as its consumer, while the pool is active. The counter of a `WaitGroup` is left out.
Not in the code: `executed` and `freed`.

In every interleaving the main thread executes the tasks in the order of their pushes, each once,
and frees each after it has executed it and before it takes the next one; and a call whose last pop
was not overlapped by a push leaves no task behind (`mainQ_executes`).
-/

namespace JLibScheduler.TaskScheduler

/-- Where the main thread stands: outside `ProcessMainThread`, before a pop, in it, before
`Execute`, before the task is destroyed and freed. -/
inductive MainPc (τ : Type)
  | outside
  | next
  | popping
  | execute (t : τ)
  | free (t : τ)
deriving DecidableEq

/-- The task that the main thread has popped and not yet freed. -/
def MainPc.task : MainPc τ → Option τ
  | .execute t | .free t => some t
  | _ => none

/-- The queue, the main thread, and what became of the tasks. -/
structure MainState (ι τ : Type) where
  mainQ : TaskMPSCQueue.State ι τ
  pc : MainPc τ
  executed : List τ
  freed : List τ

/-- A step. -/
inductive MainAct (ι τ : Type)
  /-- A client writes the `next` of a task in no queue. -/
  | write (x : τ) (v : Option τ)
  | pushMain (i : ι) (x : τ)
  /-- The next access of a `PushMain`. -/
  | producer (i : ι)
  | processMainThread
  | main

section
variable {ι τ : Type} [DecidableEq ι] [DecidableEq τ]

/-- What the main thread does next. -/
def MainState.main (stub : τ) (s : MainState ι τ) : Option (MainState ι τ) :=
  match s.pc with
  | .outside => none
  | .next =>
    (TaskMPSCQueue.step stub s.mainQ .pop).map fun q => { s with mainQ := q, pc := .popping }
  | .popping =>
    (TaskMPSCQueue.step stub s.mainQ .consumer).map fun q =>
      { s with
        mainQ := q
        pc := if q.consumer = .idle then q.out.elim .outside .execute else .popping }
  | .execute t => some { s with executed := s.executed ++ [t], pc := .free t }
  | .free t => some { s with freed := s.freed ++ [t], pc := .next }

/-- One step. A task that the main thread has is not pushed. -/
def MainState.step (stub : τ) (s : MainState ι τ) : MainAct ι τ → Option (MainState ι τ)
  | .write x v => (TaskMPSCQueue.step stub s.mainQ (.write x v)).map fun q => { s with mainQ := q }
  | .pushMain i x =>
    if s.pc.task = some x then none
    else (TaskMPSCQueue.step stub s.mainQ (.push i x)).map fun q => { s with mainQ := q }
  | .producer i =>
    (TaskMPSCQueue.step stub s.mainQ (.producer i)).map fun q => { s with mainQ := q }
  | .processMainThread => if s.pc = .outside then some { s with pc := .next } else none
  | .main => s.main stub

/-- An empty queue. -/
def MainState.init (stub : τ) : MainState ι τ where
  mainQ := .init stub
  pc := .outside
  executed := []
  freed := []

variable {stub : τ} {s s' : MainState ι τ} {q q' : TaskMPSCQueue.State ι τ}

/-! ## What the queue does -/

/-- An access of the consumer ends the `pop` with nothing, or with the next task, or goes on. -/
theorem consumerStep_cases (hs : TaskMPSCQueue.consumerStep stub q = some q') :
    (q'.consumer = .idle ∧ q'.out = none ∧ q'.returned = q.returned) ∨
      (∃ t, q'.consumer = .idle ∧ q'.out = some t ∧ q'.returned = q.returned ++ [t]) ∨
      (q'.consumer ≠ .idle ∧ q'.returned = q.returned) := by
  unfold TaskMPSCQueue.consumerStep at hs
  cases hpc : q.consumer with
  | idle => simp [hpc] at hs
  | loadNext =>
    simp only [hpc] at hs
    split_ifs at hs <;> split at hs <;> cases hs
    · exact .inl ⟨rfl, rfl, rfl⟩
    · exact .inr (.inr ⟨fun heq => (by cases heq), rfl⟩)
    · exact .inr (.inl ⟨_, rfl, rfl, rfl⟩)
    · exact .inr (.inr ⟨fun heq => (by cases heq), rfl⟩)
  | skipStub t =>
    simp only [hpc] at hs
    split at hs <;> cases hs
    · exact .inr (.inl ⟨_, rfl, rfl, rfl⟩)
    · exact .inr (.inr ⟨fun heq => (by cases heq), rfl⟩)
  | reloadNext t =>
    simp only [hpc] at hs
    split at hs <;> cases hs
    · exact .inr (.inl ⟨_, rfl, rfl, rfl⟩)
    · exact .inl ⟨rfl, rfl, rfl⟩
  | loadHead t =>
    simp only [hpc] at hs
    split_ifs at hs <;> cases hs
    · exact .inl ⟨rfl, rfl, rfl⟩
    · exact .inr (.inr ⟨fun heq => (by cases heq), rfl⟩)
  | appendStub t =>
    simp only [hpc, TaskMPSCQueue.appendStep] at hs
    refine .inr (.inr ?_)
    cases hw : q.appending none with
    | idle =>
      simp only [hw] at hs
      cases hs
    | clear b | exchange b | link a b =>
      simp only [hw] at hs
      cases hs
      exact ⟨fun heq => (by cases heq), rfl⟩

/-- An access of a producer leaves the consumer alone. -/
theorem producerStep_consumer {i : ι} (hs : TaskMPSCQueue.producerStep stub q i = some q') :
    q'.consumer = q.consumer ∧ q'.returned = q.returned := by
  unfold TaskMPSCQueue.producerStep TaskMPSCQueue.appendStep at hs
  cases hw : q.appending (some i) with
  | idle =>
    simp only [hw] at hs
    cases hs
  | clear b | exchange b | link a b =>
    simp only [hw] at hs
    cases hs
    exact ⟨rfl, rfl⟩

theorem enter_consumer {i : ι} {b : TaskMPSCQueue.Batch τ}
    (hs : TaskMPSCQueue.enter stub q i b = some q') :
    q'.consumer = q.consumer ∧ q'.returned = q.returned := by
  unfold TaskMPSCQueue.enter at hs
  split at hs
  · split_ifs at hs
    cases hs
    exact ⟨rfl, rfl⟩
  · cases hs

/-! ## The main thread -/

/-- The tasks that `pop` gave and the main thread has not executed. -/
def MainPc.popped : MainPc τ → List τ
  | .execute t => [t]
  | _ => []

/-- The tasks that it has executed and not freed. -/
def MainPc.unfreed : MainPc τ → List τ
  | .free t => [t]
  | _ => []

/-- What holds in every state. -/
structure MainInv (stub : τ) (s : MainState ι τ) : Prop where
  mainQ : ∃ l, TaskMPSCQueue.Inv stub s.mainQ l
  consumer : s.mainQ.consumer ≠ .idle → s.pc = .popping
  executed : s.mainQ.returned = s.executed ++ s.pc.popped
  freed : s.executed = s.freed ++ s.pc.unfreed

omit [DecidableEq ι] in
theorem MainInv.init : MainInv stub (MainState.init stub : MainState ι τ) where
  mainQ := ⟨[stub], TaskMPSCQueue.Inv.init⟩
  consumer h := absurd rfl h
  executed := rfl
  freed := rfl

/-- A step of another thread. -/
theorem MainInv.other (h : MainInv stub s) {a : TaskMPSCQueue.Act ι τ}
    (hs : TaskMPSCQueue.step stub s.mainQ a = some q)
    (hq : q.consumer = s.mainQ.consumer ∧ q.returned = s.mainQ.returned) :
    MainInv stub { s with mainQ := q } where
  mainQ := TaskMPSCQueue.Inv.step h.mainQ hs
  consumer hne := h.consumer (hq.1 ▸ hne)
  executed := hq.2.trans h.executed
  freed := h.freed

theorem MainInv.main (h : MainInv stub s) (hs : s.main stub = some s') : MainInv stub s' := by
  have hexecuted := h.executed
  have hfreed := h.freed
  unfold MainState.main at hs
  cases hpc : s.pc with
  | outside =>
    rw [hpc] at hs
    cases hs
  | next =>
    simp only [hpc] at hs hexecuted hfreed
    obtain ⟨q, hq, rfl⟩ := Option.map_eq_some_iff.1 hs
    have hreturned : q.returned = s.mainQ.returned := by
      simp only [TaskMPSCQueue.step] at hq
      split at hq <;> cases hq
      rfl
    exact ⟨TaskMPSCQueue.Inv.step h.mainQ hq, fun _ => rfl, hreturned.trans hexecuted, hfreed⟩
  | popping =>
    simp only [hpc] at hs hexecuted hfreed
    obtain ⟨q, hq, rfl⟩ := Option.map_eq_some_iff.1 hs
    have hmainQ := TaskMPSCQueue.Inv.step h.mainQ hq
    rcases consumerStep_cases (q := s.mainQ) hq with
      ⟨hidle, hout, hreturned⟩ | ⟨t, hidle, hout, hreturned⟩ | ⟨hne, hreturned⟩
    · simp only [hidle, hout, if_true, Option.elim_none]
      exact ⟨hmainQ, fun hne => absurd hidle hne, hreturned.trans hexecuted, hfreed⟩
    · simp only [hidle, hout, if_true, Option.elim_some]
      refine ⟨hmainQ, fun hne => absurd hidle hne, ?_, hfreed⟩
      rw [hreturned, hexecuted]
      exact congrArg (· ++ [t]) (List.append_nil _)
    · simp only [hne, if_false]
      exact ⟨hmainQ, fun _ => rfl, hreturned.trans hexecuted, hfreed⟩
  | execute t =>
    simp only [hpc] at hs hexecuted hfreed
    cases hs
    refine ⟨h.mainQ, fun hne => ?_, hexecuted.trans (List.append_nil _).symm, ?_⟩
    · have := h.consumer hne
      rw [hpc] at this
      cases this
    · exact congrArg (· ++ [t]) (hfreed.trans (List.append_nil _))
  | free t =>
    simp only [hpc] at hs hexecuted hfreed
    cases hs
    refine ⟨h.mainQ, fun hne => ?_, hexecuted, hfreed.trans (List.append_nil _).symm⟩
    have := h.consumer hne
    rw [hpc] at this
    cases this

theorem MainInv.step {a : MainAct ι τ} (h : MainInv stub s) (hs : s.step stub a = some s') :
    MainInv stub s' := by
  cases a with
  | write x v =>
    obtain ⟨q, hq, rfl⟩ := Option.map_eq_some_iff.1 hs
    refine h.other hq ?_
    simp only [TaskMPSCQueue.step] at hq
    split_ifs at hq
    cases hq
    exact ⟨rfl, rfl⟩
  | pushMain i x =>
    rw [MainState.step] at hs
    split_ifs at hs
    obtain ⟨q, hq, rfl⟩ := Option.map_eq_some_iff.1 hs
    exact h.other hq (enter_consumer hq)
  | producer i =>
    obtain ⟨q, hq, rfl⟩ := Option.map_eq_some_iff.1 hs
    exact h.other hq (producerStep_consumer hq)
  | processMainThread =>
    rw [MainState.step] at hs
    split_ifs at hs with hpc
    cases hs
    have hexecuted := h.executed
    have hfreed := h.freed
    rw [hpc] at hexecuted hfreed
    refine ⟨h.mainQ, fun hne => ?_, hexecuted, hfreed⟩
    have := h.consumer hne
    rw [hpc] at this
    cases this
  | main => exact h.main hs

/-- The main thread returns from a pop that gave nothing. -/
theorem main_returns (hs : s.main stub = some s') (hout : s'.pc = .outside) :
    s.pc = .popping ∧ ∃ q, TaskMPSCQueue.consumerStep stub s.mainQ = some q ∧
      (q.consumer = .idle ∧ q.out = none ∧ q.returned = s.mainQ.returned) ∧
      s' = { s with mainQ := q, pc := .outside } := by
  unfold MainState.main at hs
  cases hpc : s.pc with
  | outside =>
    rw [hpc] at hs
    cases hs
  | next =>
    simp only [hpc] at hs
    obtain ⟨q, -, rfl⟩ := Option.map_eq_some_iff.1 hs
    cases hout
  | popping =>
    simp only [hpc] at hs
    obtain ⟨q, hq, rfl⟩ := Option.map_eq_some_iff.1 hs
    refine ⟨rfl, q, hq, ?_⟩
    rcases consumerStep_cases (q := s.mainQ) hq with hnone | ⟨t, hidle, ht, -⟩ | ⟨hne, -⟩
    · refine ⟨hnone, ?_⟩
      simp only [hnone.1, hnone.2.1, if_true, Option.elim_none]
    · simp only [hidle, ht, if_true, Option.elim_some] at hout
      cases hout
    · simp only [hne, if_false] at hout
      cases hout
  | execute t | free t =>
    simp only [hpc] at hs
    cases hs
    cases hout

/-- The main thread executes the tasks in the order of their pushes, and frees each before it takes
the next one. A call of `ProcessMainThread` that returns from a pop that no push has overlapped has
executed and freed every task. -/
theorem mainQ_executes (h : Lts.Reachable (MainState.step stub) (MainState.init stub) s) :
    s.freed <+: s.executed ∧ s.executed <+: s.mainQ.pushed ∧
      s.mainQ.returned.length ≤ s.freed.length + 1 ∧
      ∀ s', s.step stub .main = some s' → s'.pc = .outside → s.mainQ.quiet = true →
        s'.executed = s.mainQ.pushed ∧ s'.freed = s.mainQ.pushed := by
  have hinv := h.inv (fun h hs => MainInv.step h hs) MainInv.init
  obtain ⟨l, hl⟩ := hinv.mainQ
  have hexecuted := hinv.executed
  have hfreed := hinv.freed
  refine ⟨⟨_, hfreed.symm⟩, ?_, ?_, fun s' hs hout hquiet => ?_⟩
  · exact (List.prefix_append s.executed s.pc.popped).trans
      ⟨_, by rw [← hexecuted]; exact hl.mem.order⟩
  · rw [hexecuted, hfreed]
    cases hpc : s.pc <;> simp [MainPc.popped, MainPc.unfreed]
  · obtain ⟨hpc, q, hq, hnone, rfl⟩ := main_returns hs hout
    have hreturned := (hl.out_eq_none hq hnone.1 hquiet).1 hnone.2.1
    rw [hpc] at hexecuted hfreed
    have hall : s.executed = s.mainQ.pushed := by
      rw [← hreturned, hexecuted]
      exact (List.append_nil _).symm
    refine ⟨hall, ?_⟩
    rw [← hall, hfreed]
    exact (List.append_nil _).symm

end

/-- Task 1 is pushed, popped, executed and freed, and the next pop is at its last access. -/
def mainQRun : List (MainAct Bool Nat) :=
  [.pushMain false 1, .producer false, .producer false, .producer false, .processMainThread] ++
    List.replicate 11 .main

theorem mainQ_executes_mainQRun : ∃ s : MainState Bool Nat,
    Lts.run (MainState.step 0) (MainState.init 0) mainQRun = some s ∧
      s.freed <+: s.executed ∧ s.executed <+: s.mainQ.pushed ∧
        s.mainQ.returned.length ≤ s.freed.length + 1 ∧
        ∀ s', s.step 0 .main = some s' → s'.pc = .outside → s.mainQ.quiet = true →
          s'.executed = s.mainQ.pushed ∧ s'.freed = s.mainQ.pushed :=
  ⟨_, (Option.some_get (x := Lts.run _ _ _) (by decide)).symm,
    mainQ_executes ⟨mainQRun, (Option.some_get (x := Lts.run _ _ _) (by decide)).symm⟩⟩

end JLibScheduler.TaskScheduler
