import Mathlib.Logic.Function.Basic
import JLibScheduler.Lib.SizeT

/-!
# The epoch manager, one atomic access per step

`EpochManager` (`include/Epochs.h`): a global epoch, one slot for each participant, and the
retired entries. `RetirePtr` enqueues an entry in `incoming`; `Tick` advances the epoch and runs
`TryReclaim`, which one thread at a time gets through: it drains `incoming` into `pending`, takes
the smallest epoch that is in a slot (`MinActiveEpoch`, one load per slot), and passes the entries
with a smaller epoch to their deleters. `tickStep` is the next access of a thread in `Tick`.

The queue `incoming` is a bag: a dequeue takes any of its entries, and fails when it is empty.

Not in the code: `freed`, the pointers that were passed to their deleters.
-/

namespace JLibScheduler.Epochs

/-- `GlobalRetired`: a pointer and the epoch at which it was retired. -/
structure Retired (O : Type) where
  ptr : O
  epoch : Nat
  deriving DecidableEq

/-- `EpochManager`. The slots `localEpoch` are those of the threads and of the fibers. -/
structure EpochManager (κ O : Type) where
  localEpoch : κ → Nat
  globalEpoch : Nat
  incoming : List (Retired O)
  pending : List (Retired O)
  reclaiming : Bool
  retiredCount : Nat
  freed : List O

/-- Where a thread stands in `Tick`: outside it, before the exchange of `reclaiming`, in the drain
of `incoming`, before the load of the epoch in `MinActiveEpoch`, in its scan of the slots, in the
loop over `pending` (what is left of it, what is kept, how many are freed), before the update of
`retiredCount`, before the release of `reclaiming`. -/
inductive TickPc (κ O : Type)
  | idle
  | tryReclaim
  | drain
  | minActiveEpoch
  | scan (slots : List κ) (minEpoch : Nat)
  | sweep (todo kept : List (Retired O)) (freed safeEpoch : Nat)
  | count (freed : Nat)
  | release

section
variable {κ O : Type}

/-- A manager after its construction: `SIZE_MAX` in every slot. -/
def EpochManager.init : EpochManager κ O :=
  { localEpoch := fun _ => SizeT.max, globalEpoch := 0, incoming := [], pending := []
    reclaiming := false, retiredCount := 0, freed := [] }

/-- `incoming.enqueue` in `RetirePtr`. -/
def EpochManager.enqueue (m : EpochManager κ O) (ptr : O) (epoch : Nat) : EpochManager κ O :=
  { m with incoming := m.incoming ++ [⟨ptr, epoch⟩] }

/-- `retiredCount.fetch_add` in `RetirePtr`. -/
def EpochManager.countRetired (m : EpochManager κ O) : EpochManager κ O :=
  { m with retiredCount := SizeT.add m.retiredCount 1 }

/-- `slot->store(epoch)`. -/
def EpochManager.store [DecidableEq κ] (m : EpochManager κ O) (slot : κ) (epoch : Nat) :
    EpochManager κ O :=
  { m with localEpoch := Function.update m.localEpoch slot epoch }

/-- The minimum of a scan of `MinActiveEpoch` after the load of `e` from a slot. -/
def minActive (e minEpoch : Nat) : Nat :=
  if e ≠ SizeT.max ∧ e < minEpoch then e else minEpoch

/-- The next access of a thread in `Tick`, over the registered slots; a dequeue takes the entry
`i` of `incoming`. -/
def tickStep (participants : List κ) (i : Nat) (m : EpochManager κ O) :
    TickPc κ O → Option (EpochManager κ O × TickPc κ O)
  | .idle => some ({ m with globalEpoch := SizeT.add m.globalEpoch 1 }, .tryReclaim)
  | .tryReclaim =>
    if m.reclaiming then some (m, .idle) else some ({ m with reclaiming := true }, .drain)
  | .drain =>
    if m.incoming = [] then some (m, .minActiveEpoch)
    else (m.incoming[i]?).map fun e =>
      ({ m with incoming := m.incoming.eraseIdx i, pending := m.pending ++ [e] }, .drain)
  | .minActiveEpoch => some (m, .scan participants m.globalEpoch)
  | .scan (k :: slots) minEpoch =>
    some (m, .scan slots (minActive (m.localEpoch k) minEpoch))
  | .scan [] minEpoch => some ({ m with pending := [] }, .sweep m.pending [] 0 minEpoch)
  | .sweep (e :: todo) kept freed safeEpoch =>
    if e.epoch < safeEpoch then
      some ({ m with freed := e.ptr :: m.freed }, .sweep todo kept (freed + 1) safeEpoch)
    else some (m, .sweep todo (kept ++ [e]) freed safeEpoch)
  | .sweep [] kept freed _ => some ({ m with pending := kept }, .count freed)
  | .count freed =>
    if freed = 0 then some (m, .release)
    else some ({ m with retiredCount := SizeT.sub m.retiredCount freed }, .release)
  | .release => some ({ m with reclaiming := false }, .idle)

/-- The entries that a reclaimer has taken out of `pending`. -/
def TickPc.held : TickPc κ O → List (Retired O)
  | .sweep todo kept _ _ => kept ++ todo
  | _ => []

/-- The thread has won `reclaiming`. -/
def TickPc.reclaims : TickPc κ O → Bool
  | .idle | .tryReclaim => false
  | _ => true

theorem minActive_le (e minEpoch : Nat) : minActive e minEpoch ≤ minEpoch := by
  unfold minActive
  split_ifs with h <;> omega

theorem minActive_le_left {e : Nat} (he : e < SizeT.max) (minEpoch : Nat) :
    minActive e minEpoch ≤ e := by
  unfold minActive
  split_ifs with h
  · exact Nat.le_refl e
  · rw [not_and_or] at h
    omega

/-- A tick writes to no slot. -/
theorem tickStep_localEpoch {participants : List κ} {i : Nat} {m m' : EpochManager κ O}
    {pc pc' : TickPc κ O} (hs : tickStep participants i m pc = some (m', pc')) :
    m'.localEpoch = m.localEpoch := by
  revert hs
  fun_cases tickStep participants i m pc <;> grind

/-- A tick does not lower the global epoch below `SIZE_MAX`. -/
theorem tickStep_globalEpoch {participants : List κ} {i : Nat} {m m' : EpochManager κ O}
    {pc pc' : TickPc κ O} (hs : tickStep participants i m pc = some (m', pc'))
    (hlt : m.globalEpoch < SizeT.max) : m.globalEpoch ≤ m'.globalEpoch := by
  have hadd : SizeT.add m.globalEpoch 1 = m.globalEpoch + 1 :=
    SizeT.add_of_lt (by rw [SizeT.max] at hlt; omega)
  revert hs
  fun_cases tickStep participants i m pc <;> grind

/-- Every object that was retired satisfies `P`, wherever its entry is in the manager. -/
structure EpochManager.All (P : O → Prop) (m : EpochManager κ O) : Prop where
  incoming : ∀ e ∈ m.incoming, P e.ptr
  pending : ∀ e ∈ m.pending, P e.ptr
  freed : ∀ o ∈ m.freed, P o

/-- A tick makes no entry. -/
theorem tickStep_all {P : O → Prop} {participants : List κ} {i : Nat} {m m' : EpochManager κ O}
    {pc pc' : TickPc κ O} (hs : tickStep participants i m pc = some (m', pc')) (hm : m.All P)
    (hpc : ∀ e ∈ pc.held, P e.ptr) : m'.All P ∧ ∀ e ∈ pc'.held, P e.ptr := by
  obtain ⟨h₁, h₂, h₃⟩ := hm
  cases pc with
  | idle | minActiveEpoch | release =>
    cases hs
    exact ⟨⟨h₁, h₂, h₃⟩, nofun⟩
  | tryReclaim | count n =>
    simp only [tickStep] at hs
    split_ifs at hs <;> cases hs <;> exact ⟨⟨h₁, h₂, h₃⟩, nofun⟩
  | drain =>
    simp only [tickStep] at hs
    split_ifs at hs with hempty
    · cases hs
      exact ⟨⟨h₁, h₂, h₃⟩, nofun⟩
    · obtain ⟨e, he, hs⟩ := Option.map_eq_some_iff.1 hs
      cases hs
      refine ⟨⟨fun x hx => h₁ x (List.mem_of_mem_eraseIdx hx), fun x hx => ?_, h₃⟩, nofun⟩
      rcases List.mem_append.1 hx with hx | hx
      · exact h₂ x hx
      · rw [List.mem_singleton.1 hx]
        exact h₁ e (List.mem_of_getElem? he)
  | scan slots minEpoch =>
    cases slots with
    | nil =>
      cases hs
      exact ⟨⟨h₁, nofun, h₃⟩, by simpa [TickPc.held] using h₂⟩
    | cons k slots =>
      cases hs
      exact ⟨⟨h₁, h₂, h₃⟩, nofun⟩
  | sweep todo kept n safeEpoch =>
    cases todo with
    | nil =>
      cases hs
      exact ⟨⟨h₁, by simpa [TickPc.held] using hpc, h₃⟩, nofun⟩
    | cons e todo =>
      have he : P e.ptr := hpc e (by simp [TickPc.held])
      have hrest : ∀ x ∈ kept ++ todo, P x.ptr := fun x hx =>
        hpc x (by simp only [TickPc.held, List.mem_append, List.mem_cons] at hx ⊢; tauto)
      simp only [tickStep] at hs
      split_ifs at hs
      · cases hs
        exact ⟨⟨h₁, h₂, by simpa using ⟨he, h₃⟩⟩, hrest⟩
      · cases hs
        exact ⟨⟨h₁, h₂, h₃⟩, by simpa [TickPc.held] using hpc⟩

end

end JLibScheduler.Epochs
