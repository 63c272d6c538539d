import JLibScheduler.Lib.Lts
import JLibScheduler.Sync.Basic

/-!
# The permits of a semaphore

One semaphore, the fibers `φ` and fast jobs `ι` that use it, and the sections of their calls under
the spin lock. A fiber in `Wait` takes a permit or is put into the queue and suspended; a fast job
in `Wait` calls `Try_Wait` until it gets a permit. `Signal` hands its permit to the first fiber of
the queue, or raises the counter up to `maxPermits`. A suspended fiber goes on at any time after
that, and also when something else has woken it.

Each permit that was there or was signaled, and not discarded at the cap, is in the counter or was
granted once, and the fibers of the queue are granted in their order (`semaphore_conserves`).

Not in the code: `signals`, the calls of `Signal` that were not discarded; `taken`, the permits
taken from the counter; `queued`, the fibers that were put into the queue; and `granted`, those that
`Signal` has taken from it (both oldest first).
-/

namespace JLibScheduler.Sync

/-- Where a fiber or a fast job stands: outside the calls, before the section of a call, or
suspended in `Wait`. -/
inductive SemaphorePc where
  | body
  | wait
  | tryWait
  | signal
  | suspended
  deriving DecidableEq, Repr

/-- The semaphore, its callers and the history. -/
structure SemaphoreState (φ ι : Type) where
  sem : SchedulerSemaphore φ
  pc : φ ⊕ ι → SemaphorePc
  signals : ℕ
  taken : ℕ
  queued : List φ
  granted : List φ

/-- The calls of a semaphore. -/
inductive SemaphoreOp where
  | wait
  | tryWait
  | signal
  deriving DecidableEq, Repr

/-- A step: a call, the section of a call, or a suspended fiber goes on. -/
inductive SemaphoreAct (φ ι : Type) where
  | call (c : φ ⊕ ι) (op : SemaphoreOp)
  | section (c : φ ⊕ ι)
  | resumed (f : φ)
  deriving DecidableEq, Repr

/-- The place before the section of a call. -/
def SemaphoreOp.pc : SemaphoreOp → SemaphorePc
  | .wait => .wait
  | .tryWait => .tryWait
  | .signal => .signal

section
variable {φ ι : Type} [DecidableEq φ] [DecidableEq ι]

/-- A semaphore as its constructor leaves it. -/
def SemaphoreState.init (initialPermits maxPermits : ℤ) : SemaphoreState φ ι where
  sem := ⟨initialPermits, maxPermits, []⟩
  pc _ := .body
  signals := 0
  taken := 0
  queued := []
  granted := []

def SemaphoreState.setPc (s : SemaphoreState φ ι) (c : φ ⊕ ι) (pc : SemaphorePc) :
    SemaphoreState φ ι :=
  { s with pc := Function.update s.pc c pc }

/-- The section of `Try_Wait`; without a permit the caller goes on at `pc`. -/
def SemaphoreState.tryWait (s : SemaphoreState φ ι) (c : φ ⊕ ι) (pc : SemaphorePc) :
    SemaphoreState φ ι :=
  match s.sem.tryWait with
  | some sem => { s.setPc c .body with sem, taken := s.taken + 1 }
  | none => s.setPc c pc

/-- The section of `Wait` for a fiber. -/
def SemaphoreState.wait (s : SemaphoreState φ ι) (f : φ) : SemaphoreState φ ι :=
  match s.sem.wait f with
  | (sem, true) => { s.setPc (.inl f) .body with sem, taken := s.taken + 1 }
  | (sem, false) => { s.setPc (.inl f) .suspended with sem, queued := s.queued ++ [f] }

/-- The section of `Signal`. It is discarded when nothing waits and the counter is at its cap. -/
def SemaphoreState.signal (s : SemaphoreState φ ι) (c : φ ⊕ ι) : SemaphoreState φ ι :=
  match s.sem.signal with
  | (sem, some f) =>
    { s.setPc c .body with sem, signals := s.signals + 1, granted := s.granted ++ [f] }
  | (sem, none) =>
    { s.setPc c .body with
      sem
      signals := if s.sem.permits < s.sem.maxPermits then s.signals + 1 else s.signals }

/-- One step. -/
def SemaphoreState.step (s : SemaphoreState φ ι) :
    SemaphoreAct φ ι → Option (SemaphoreState φ ι)
  | .call c op => if s.pc c = .body then some (s.setPc c op.pc) else none
  | .section (.inl f) =>
    match s.pc (.inl f) with
    | .wait => some (s.wait f)
    | .tryWait => some (s.tryWait (.inl f) .body)
    | .signal => some (s.signal (.inl f))
    | .body | .suspended => none
  | .section (.inr i) =>
    match s.pc (.inr i) with
    | .wait => some (s.tryWait (.inr i) .wait)
    | .tryWait => some (s.tryWait (.inr i) .body)
    | .signal => some (s.signal (.inr i))
    | .body | .suspended => none
  | .resumed f => if s.pc (.inl f) = .suspended then some (s.setPc (.inl f) .body) else none

end

section
variable {φ ι : Type} {initialPermits maxPermits : ℤ}

/-- What is claimed of a state: the counter is within its bounds, nothing waits while there are
permits, no permit is lost or made, and the queue is first in, first out. -/
structure Conserves (initialPermits maxPermits : ℤ) (s : SemaphoreState φ ι) : Prop where
  nonneg : 0 ≤ s.sem.permits
  le : s.sem.permits ≤ maxPermits
  empty : 0 < s.sem.permits → s.sem.waitingFibers = []
  conserved : initialPermits + s.signals = s.sem.permits + (s.taken + s.granted.length)
  fifo : s.granted ++ s.sem.waitingFibers = s.queued
  maxPermits : s.sem.maxPermits = maxPermits

/-- A step that touches neither the semaphore nor the history. -/
theorem Conserves.congr {s s' : SemaphoreState φ ι} (h : Conserves initialPermits maxPermits s)
    (hsem : s'.sem = s.sem) (hsignals : s'.signals = s.signals) (htaken : s'.taken = s.taken)
    (hqueued : s'.queued = s.queued) (hgranted : s'.granted = s.granted) :
    Conserves initialPermits maxPermits s' where
  nonneg := hsem ▸ h.nonneg
  le := hsem ▸ h.le
  empty := hsem ▸ h.empty
  conserved := by rw [hsem, hsignals, htaken, hgranted]; exact h.conserved
  fifo := by rw [hsem, hqueued, hgranted]; exact h.fifo
  maxPermits := hsem ▸ h.maxPermits

variable [DecidableEq φ] [DecidableEq ι] {s s' : SemaphoreState φ ι}

/-- A call of `Try_Wait`. -/
theorem Conserves.tryWait (h : Conserves initialPermits maxPermits s) (c : φ ⊕ ι)
    (pc : SemaphorePc) : Conserves initialPermits maxPermits (s.tryWait c pc) := by
  obtain ⟨hnonneg, hle, hempty, hconserved, hfifo, hmax⟩ := h
  by_cases hpos : s.sem.permits > 0
  · simp only [SemaphoreState.tryWait, SchedulerSemaphore.tryWait, hpos, if_true]
    refine ⟨?_, ?_, fun _ => hempty hpos, ?_, hfifo, hmax⟩
    · change 0 ≤ s.sem.permits - 1
      omega
    · change s.sem.permits - 1 ≤ maxPermits
      omega
    · change initialPermits + s.signals =
        s.sem.permits - 1 + (((s.taken + 1 : ℕ) : ℤ) + s.granted.length)
      push_cast
      omega
  · simp only [SemaphoreState.tryWait, SchedulerSemaphore.tryWait, hpos, if_false]
    exact ⟨hnonneg, hle, hempty, hconserved, hfifo, hmax⟩

/-- A call of `Wait` by a fiber. -/
theorem Conserves.wait (h : Conserves initialPermits maxPermits s) (f : φ) :
    Conserves initialPermits maxPermits (s.wait f) := by
  obtain ⟨hnonneg, hle, hempty, hconserved, hfifo, hmax⟩ := h
  by_cases hpos : s.sem.permits > 0
  · simp only [SemaphoreState.wait, SchedulerSemaphore.wait, hpos, if_true]
    refine ⟨?_, ?_, fun _ => hempty hpos, ?_, hfifo, hmax⟩
    · change 0 ≤ s.sem.permits - 1
      omega
    · change s.sem.permits - 1 ≤ maxPermits
      omega
    · change initialPermits + s.signals =
        s.sem.permits - 1 + (((s.taken + 1 : ℕ) : ℤ) + s.granted.length)
      push_cast
      omega
  · simp only [SemaphoreState.wait, SchedulerSemaphore.wait, hpos, if_false]
    refine ⟨hnonneg, hle, fun hpos' => absurd hpos' hpos, hconserved, ?_, hmax⟩
    change s.granted ++ (s.sem.waitingFibers ++ [f]) = s.queued ++ [f]
    rw [← hfifo, List.append_assoc]

/-- A call of `Signal`. -/
theorem Conserves.signal (h : Conserves initialPermits maxPermits s) (c : φ ⊕ ι) :
    Conserves initialPermits maxPermits (s.signal c) := by
  obtain ⟨hnonneg, hle, hempty, hconserved, hfifo, hmax⟩ := h
  cases hq : s.sem.waitingFibers with
  | cons f rest =>
    rw [hq] at hfifo
    simp only [SemaphoreState.signal, SchedulerSemaphore.signal, hq]
    refine ⟨hnonneg, hle, fun hpos => ?_, ?_, ?_, hmax⟩
    · rw [hq] at hempty
      cases hempty hpos
    · change initialPermits + ((s.signals + 1 : ℕ) : ℤ) =
        s.sem.permits + (s.taken + (s.granted ++ [f]).length)
      rw [List.length_append, List.length_singleton]
      push_cast
      omega
    · change s.granted ++ [f] ++ rest = s.queued
      rw [List.append_assoc, List.singleton_append, hfifo]
  | nil =>
    rw [hq] at hfifo
    by_cases hlt : s.sem.permits < s.sem.maxPermits
    · simp only [SemaphoreState.signal, SchedulerSemaphore.signal, hq, hlt, if_true]
      refine ⟨?_, ?_, fun _ => rfl, ?_, hfifo, hmax⟩
      · change 0 ≤ s.sem.permits + 1
        omega
      · change s.sem.permits + 1 ≤ maxPermits
        omega
      · change initialPermits + ((s.signals + 1 : ℕ) : ℤ) =
          s.sem.permits + 1 + (s.taken + s.granted.length)
        push_cast
        omega
    · simp only [SemaphoreState.signal, SchedulerSemaphore.signal, hq, hlt, if_false]
      refine ⟨hnonneg, hle, hempty, hconserved, ?_, hmax⟩
      rwa [hq]

/-- Every step conserves the permits. -/
theorem Conserves.step {a : SemaphoreAct φ ι} (h : Conserves initialPermits maxPermits s)
    (hs : s.step a = some s') : Conserves initialPermits maxPermits s' := by
  cases a with
  | call c op =>
    simp only [SemaphoreState.step] at hs
    split_ifs at hs
    cases hs
    exact h.congr rfl rfl rfl rfl rfl
  | resumed f =>
    simp only [SemaphoreState.step] at hs
    split_ifs at hs
    cases hs
    exact h.congr rfl rfl rfl rfl rfl
  | «section» c =>
    cases c with
    | inl f =>
      simp only [SemaphoreState.step] at hs
      split at hs <;> cases hs
      · exact h.wait f
      · exact h.tryWait (.inl f) .body
      · exact h.signal (.inl f)
    | inr i =>
      simp only [SemaphoreState.step] at hs
      split at hs <;> cases hs
      · exact h.tryWait (.inr i) .wait
      · exact h.tryWait (.inr i) .body
      · exact h.signal (.inr i)

/-- In every run the permits of a semaphore are conserved. -/
theorem semaphore_conserves (h₀ : 0 ≤ initialPermits) (h₁ : initialPermits ≤ maxPermits)
    {as : List (SemaphoreAct φ ι)}
    (hrun : Lts.run SemaphoreState.step (.init initialPermits maxPermits) as = some s) :
    Conserves initialPermits maxPermits s := by
  have hinit : Conserves initialPermits maxPermits
      (.init initialPermits maxPermits : SemaphoreState φ ι) :=
    ⟨h₀, h₁, fun _ => rfl, by simp [SemaphoreState.init], rfl, rfl⟩
  exact Lts.run_inv (fun h hs => Conserves.step h hs) hinit hrun

end

/-- Two fibers wait for the one permit, and a fast job signals. -/
theorem semaphore_conserves_handOff : ∃ s : SemaphoreState (Fin 2) Unit,
    Lts.run SemaphoreState.step (.init 1 1) [.call (.inl 0) .wait, .section (.inl 0),
      .call (.inl 1) .wait, .section (.inl 1), .call (.inr ()) .signal, .section (.inr ())] =
        some s ∧ s.granted = [1] ∧ s.sem.permits = 0 ∧ Conserves 1 1 s :=
  ⟨_, (Option.some_get (x := Lts.run _ _ _) (by decide)).symm, by decide, by decide,
    semaphore_conserves (by decide) (by decide)
      (Option.some_get (x := Lts.run _ _ _) (by decide)).symm⟩

end JLibScheduler.Sync
