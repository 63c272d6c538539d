import JLibScheduler.Epochs.Basic
import JLibScheduler.TaskDAG.HasCycle

/-!
# A submitted graph runs, one access per step

The run of a graph after `Submit` has accepted it. An execution context is a thread or a fiber: it
has the epoch slot that `CurrentEpochSlot` gives it, and a stack of calls (`Frame`), since a gate
that fires inside a traversal is propagated by a nested call. `Fire` passes the exchange of
`submitted`, and then hands the task to the scheduler or, for a gate, calls `OnTaskFinished`;
`OnTaskFinished` opens a guard, visits the dependents (`for_each`), closes the guard and retires
the node. The task of a node is run by any free context, after it was enqueued: first its original
function, then `OnTaskFinished` (`OnTaskFinishedWrapper`). A thread that runs an original function
may help with another task. Contexts also run list operations of other graphs, which open a guard
of their own: the `add` of `AddDependency`, the `for_each` of `HasCycle`, `contains`, `get` and
`remove`. Any number of threads call `Tick`.

The nodes keep their memory here; `mgr.freed` says which were passed to `NodeDeleter`.

Not in the code: `log`, what happened, newest first.
-/

namespace JLibScheduler.TaskDAG

open Epochs

/-- What is logged: a node passes the exchange of `submitted` (`fired`) or finds it set
(`refired`); its task is handed to no queue (`dropped`); its original function starts (`ran`) and
returns; `OnTaskFinished` is entered for it, visits a dependent of it, retires it. -/
inductive Event
  | fired (n : Nat)
  | refired (n : Nat)
  | dropped (n : Nat)
  | ran (n : Nat)
  | returned (n : Nat)
  | entered (n : Nat)
  | visited (n d : Nat)
  | retired (n : Nat)
  deriving DecidableEq

/-- A call in progress. `submit` is the loop of `Submit` over the roots; `fire` is before the
exchange of `submitted`, `push` before the push; `wrapper` runs the original function; the next six
are the places of `OnTaskFinished`: before the load and the store of the guard, in the traversal,
before the read of the epoch, before the two accesses of `RetirePtr`. The last three are a list
operation: before the load and the store of its guard, and inside it. -/
inductive Frame
  | submit (roots : List Nat)
  | fire (n : Nat)
  | push (n : Nat)
  | wrapper (n : Nat)
  | finish (n : Nat)
  | guardStore (n epoch : Nat)
  | forEach (n : Nat) (rest : List Nat)
  | readEpoch (n : Nat)
  | enqueue (n epoch : Nat)
  | count
  | listLoad
  | listStore (epoch : Nat)
  | listBody
  deriving DecidableEq

/-- An execution context: its slot and its calls, innermost first. -/
structure Ctx (κ : Type) where
  slot : κ
  stack : List Frame

/-- What the contexts share. The queue holds the nodes whose tasks the scheduler has. -/
structure Shared (κ : Type) where
  left : Nat → Int
  submitted : Nat → Bool
  queue : List Nat
  mgr : EpochManager κ Nat
  log : List Event

/-- The state of a run. -/
structure State (κ ι : Type) where
  shared : Shared κ
  ctxs : List (Ctx κ)
  tick : ι → TickPc κ Nat

/-- A step: a context appears; a free context takes a task from the queue, or starts a list
operation; a context makes the next access of its innermost call, where a push is accepted or not;
a thread makes its next access in `Tick`. -/
inductive Act (κ ι : Type)
  | spawn (slot : κ)
  | start (j n : Nat)
  | list (j : Nat)
  | step (j : Nat) (accepted : Bool)
  | tick (t : ι) (i : Nat)
  deriving DecidableEq

/-- A context may start a task or a list operation when it has no call in progress, or runs an
original function. -/
def Ctx.free {κ : Type} (c : Ctx κ) : Bool :=
  match c.stack with
  | [] | .wrapper _ :: _ => true
  | _ => false

section
variable {κ ι : Type} [DecidableEq κ] [DecidableEq ι]

/-- The next access of a call on the slot `k`, and the calls that take its place. -/
def frameStep (g : Graph) (k : κ) (accepted : Bool) (m : Shared κ) :
    Frame → Shared κ × List Frame
  | .submit [] => (m, [])
  | .submit (r :: roots) => (m, [.fire r, .submit roots])
  | .fire n =>
    if m.submitted n then ({ m with log := .refired n :: m.log }, [])
    else if (g.node n).isGate then
      ({ m with submitted := Function.update m.submitted n true
                log := .entered n :: .fired n :: m.log }, [.finish n])
    else
      ({ m with submitted := Function.update m.submitted n true, log := .fired n :: m.log },
        [.push n])
  | .push n =>
    if (g.node n).routed && accepted then ({ m with queue := m.queue ++ [n] }, [])
    else ({ m with log := .dropped n :: m.log }, [])
  | .wrapper n => ({ m with log := .entered n :: .returned n :: m.log }, [.finish n])
  | .finish n => (m, [.guardStore n m.mgr.globalEpoch])
  | .guardStore n epoch =>
    ({ m with mgr := m.mgr.store k epoch }, [.forEach n (g.node n).dependents])
  | .forEach n (d :: rest) =>
    if (g.node d).gateType = .OR then
      ({ m with log := .visited n d :: m.log }, [.fire d, .forEach n rest])
    else
      let left := m.left d - 1
      ({ m with left := Function.update m.left d left, log := .visited n d :: m.log },
        if left = 0 then [.fire d, .forEach n rest] else [.forEach n rest])
  | .forEach n [] => ({ m with mgr := m.mgr.store k SizeT.max }, [.readEpoch n])
  | .readEpoch n => (m, [.enqueue n m.mgr.globalEpoch])
  | .enqueue n epoch =>
    ({ m with mgr := m.mgr.enqueue n epoch, log := .retired n :: m.log }, [.count])
  | .count => ({ m with mgr := m.mgr.countRetired }, [])
  | .listLoad => (m, [.listStore m.mgr.globalEpoch])
  | .listStore epoch => ({ m with mgr := m.mgr.store k epoch }, [.listBody])
  | .listBody => ({ m with mgr := m.mgr.store k SizeT.max }, [])

/-- One step of the run, over the registered slots. -/
def step (g : Graph) (participants : List κ) (s : State κ ι) : Act κ ι → Option (State κ ι)
  | .spawn k => some { s with ctxs := s.ctxs ++ [⟨k, []⟩] }
  | .start j n =>
    (s.ctxs[j]?).bind fun c =>
      if c.free ∧ n ∈ s.shared.queue then
        some { s with
          shared := { s.shared with queue := s.shared.queue.erase n, log := .ran n :: s.shared.log }
          ctxs := s.ctxs.set j { c with stack := .wrapper n :: c.stack } }
      else none
  | .list j =>
    (s.ctxs[j]?).bind fun c =>
      if c.free then
        some { s with ctxs := s.ctxs.set j { c with stack := .listLoad :: c.stack } }
      else none
  | .step j accepted =>
    (s.ctxs[j]?).bind fun c =>
      match c.stack with
      | [] => none
      | f :: rest =>
        let r := frameStep g c.slot accepted s.shared f
        some { s with shared := r.1, ctxs := s.ctxs.set j { c with stack := r.2 ++ rest } }
  | .tick t i =>
    (tickStep participants i s.shared.mgr (s.tick t)).map fun (m, pc) =>
      { s with shared := { s.shared with mgr := m }, tick := Function.update s.tick t pc }

/-- `Submit` has accepted the graph, and its caller, with the slot `k`, is about to fire the
roots. -/
def State.init (g : Graph) (k : κ) (roots : List Nat) : State κ ι :=
  { shared :=
      { left := fun n => (g.node n).dependenciesLeft, submitted := fun _ => false, queue := []
        mgr := .init, log := [] }
    ctxs := [⟨k, [.submit roots]⟩]
    tick := fun _ => .idle }

end

section
variable {κ : Type} {c c' : Ctx κ} {ctxs : List (Ctx κ)} {j : Nat} {μ : Frame → Nat}

/-! ## Sums over all calls -/

/-- The sum of `μ` over the calls of a context. -/
def Ctx.total (μ : Frame → Nat) (c : Ctx κ) : Nat := (c.stack.map μ).sum

/-- The sum of `μ` over all calls in progress. -/
def total (μ : Frame → Nat) (ctxs : List (Ctx κ)) : Nat := (ctxs.map (Ctx.total μ)).sum

theorem total_set (c' : Ctx κ) (h : ctxs[j]? = some c) :
    total μ (ctxs.set j c') + c.total μ = total μ ctxs + c'.total μ :=
  Sums.map_set h

theorem total_cons (f : Frame) (k : κ) (l : List Frame) :
    Ctx.total μ ⟨k, f :: l⟩ = μ f + Ctx.total μ ⟨k, l⟩ := by
  simp [Ctx.total]

theorem total_append (fs : List Frame) (k : κ) (l : List Frame) :
    Ctx.total μ ⟨k, fs ++ l⟩ = (fs.map μ).sum + Ctx.total μ ⟨k, l⟩ := by
  simp [Ctx.total]

/-- A call in progress counts in the sum. -/
theorem le_total {f : Frame} (hc : c ∈ ctxs) (hf : f ∈ c.stack) : μ f ≤ total μ ctxs := by
  have h₁ : μ f ≤ c.total μ := Sums.le_map hf
  have h₂ : c.total μ ≤ total μ ctxs := Sums.le_map hc
  exact h₁.trans h₂

/-- What a step does to the shared state and the calls in progress: a call of a context makes its
next access; a task is started; or neither the log nor a call of a node changes. -/
theorem step_cases {ι : Type} [DecidableEq κ] [DecidableEq ι] {g : Graph} {participants : List κ}
    {s s' : State κ ι} {a : Act κ ι} (hs : step g participants s a = some s') :
    (∃ j accepted c f rest, a = .step j accepted ∧ c ∈ s.ctxs ∧ c.stack = f :: rest ∧
      s'.shared = (frameStep g c.slot accepted s.shared f).1 ∧
      ∀ μ, total μ s'.ctxs + μ f =
        total μ s.ctxs + ((frameStep g c.slot accepted s.shared f).2.map μ).sum) ∨
    (∃ n ∈ s.shared.queue, s'.shared = { s.shared with
        queue := s.shared.queue.erase n, log := .ran n :: s.shared.log } ∧
      ∀ μ, total μ s'.ctxs = total μ s.ctxs + μ (.wrapper n)) ∨
    (s'.shared.left = s.shared.left ∧ s'.shared.submitted = s.shared.submitted ∧
      s'.shared.queue = s.shared.queue ∧ s'.shared.log = s.shared.log ∧
      ∀ μ, μ .listLoad = 0 → total μ s'.ctxs = total μ s.ctxs) := by
  cases a with
  | spawn k =>
    cases hs
    exact .inr (.inr ⟨rfl, rfl, rfl, rfl, fun μ _ => by simp [total, Ctx.total]⟩)
  | start j n =>
    obtain ⟨c, hc, hs⟩ := Option.bind_eq_some_iff.1 hs
    split_ifs at hs with hfree
    cases hs
    obtain ⟨k, stack⟩ := c
    refine .inr (.inl ⟨n, hfree.2, rfl, fun μ => ?_⟩)
    have hset := total_set (μ := μ) ⟨k, .wrapper n :: stack⟩ hc
    rw [total_cons] at hset
    dsimp only
    omega
  | list j =>
    obtain ⟨c, hc, hs⟩ := Option.bind_eq_some_iff.1 hs
    split_ifs at hs with hfree
    cases hs
    obtain ⟨k, stack⟩ := c
    refine .inr (.inr ⟨rfl, rfl, rfl, rfl, fun μ hμ => ?_⟩)
    have hset := total_set (μ := μ) ⟨k, .listLoad :: stack⟩ hc
    rw [total_cons, hμ] at hset
    dsimp only
    omega
  | step j accepted =>
    obtain ⟨c, hc, hs⟩ := Option.bind_eq_some_iff.1 hs
    obtain ⟨k, stack⟩ := c
    cases stack with
    | nil => cases hs
    | cons f rest =>
      cases hs
      refine .inl ⟨j, accepted, _, f, rest, rfl, List.mem_of_getElem? hc, rfl, rfl, fun μ => ?_⟩
      have hset := total_set (μ := μ)
        ⟨k, (frameStep g k accepted s.shared f).2 ++ rest⟩ hc
      rw [total_append, total_cons] at hset
      dsimp only
      omega
  | tick t i =>
    obtain ⟨⟨m, pc⟩, -, rfl⟩ := Option.map_eq_some_iff.1 hs
    exact .inr (.inr ⟨rfl, rfl, rfl, rfl, fun μ _ => rfl⟩)

end

end JLibScheduler.TaskDAG
