import Mathlib.Data.Fintype.Basic
import JLibScheduler.Lib.Lts
import JLibScheduler.Lib.Update
import JLibScheduler.Epochs.Basic

/-!
# Reclamation frees nothing that a reader may hold

The users of the epoch manager: readers that open a guard on a slot (`EpochGuard`: load the global
epoch, then store it to the slot), writers that unlink an object, read the epoch and retire the
object with it, and threads in `Tick`. A reader inside a guard may hold every object that was
linked at some moment since the store (`State.may`).

The reader that holds a retired object was inside its guard when the object was unlinked, so its
slot held an epoch no larger than the one the object was tagged with later (`EntryOk`). A
reclaimer frees an entry that it drained before it scanned the slots, so every reader that holds
the object stored its epoch before the scan, and the minimum of the scan is at most that epoch
(`TickOk`).
-/

namespace JLibScheduler.Epochs

/-- Where a guard stands: not constructed, between the load of the epoch and the store, alive. -/
inductive GuardPc (κ : Type)
  | idle
  | store (slot : κ) (epoch : Nat)
  | inside (slot : κ)

/-- Where a writer stands after it has unlinked an object. -/
inductive WriterPc (O : Type)
  | idle
  | readEpoch (o : O)
  | enqueue (o : O) (epoch : Nat)
  | count

/-- An object is not linked yet, linked, or unlinked for good. -/
inductive Life
  | fresh
  | linked
  | unlinked
  deriving DecidableEq

/-- The state of the manager and of its users. -/
structure State (κ O γ ω ι : Type) where
  mgr : EpochManager κ O
  guard : γ → GuardPc κ
  may : γ → O → Bool
  life : O → Life
  writer : ω → WriterPc O
  tick : ι → TickPc κ O

/-- A step: an object is linked; a guard on a slot loads the epoch, stores it, or is destroyed; a
writer unlinks an object or makes its next access; a thread makes its next access in `Tick`. -/
inductive Act (κ O γ ω ι : Type)
  | link (o : O)
  | load (g : γ) (slot : κ)
  | store (g : γ)
  | leave (g : γ)
  | unlink (w : ω) (o : O)
  | writer (w : ω)
  | tick (t : ι) (i : Nat)

/-- The slot of a guard. -/
def GuardPc.slot? {κ : Type} : GuardPc κ → Option κ
  | .idle => none
  | .store k _ | .inside k => some k

section
variable {κ O γ ω ι : Type} [DecidableEq κ] [DecidableEq O] [DecidableEq γ] [DecidableEq ω]
  [DecidableEq ι]

/-- Nothing is linked and nobody is inside. -/
def State.init : State κ O γ ω ι :=
  { mgr := .init, guard := fun _ => .idle, may := fun _ _ => false, life := fun _ => .fresh
    writer := fun _ => .idle, tick := fun _ => .idle }

/-- The next access of a writer: `CurrentEpoch`, then the two of `RetirePtr`. -/
def writerStep (s : State κ O γ ω ι) (w : ω) : Option (State κ O γ ω ι) :=
  match s.writer w with
  | .idle => none
  | .readEpoch o =>
    some { s with writer := Function.update s.writer w (.enqueue o s.mgr.globalEpoch) }
  | .enqueue o e =>
    some { s with mgr := s.mgr.enqueue o e, writer := Function.update s.writer w .count }
  | .count => some { s with mgr := s.mgr.countRetired, writer := Function.update s.writer w .idle }

/-- One step of the users, over the registered slots. A guard is constructed on a registered slot,
as `CurrentEpochSlot` gives no other. -/
def step (participants : List κ) (s : State κ O γ ω ι) :
    Act κ O γ ω ι → Option (State κ O γ ω ι)
  | .link o =>
    if s.life o = .fresh then
      some { s with
        life := Function.update s.life o .linked
        may := fun g x => s.may g x ||
          (decide (x = o) && match s.guard g with | .inside _ => true | _ => false) }
    else none
  | .load g k =>
    match s.guard g with
    | .idle =>
      if k ∈ participants then
        some { s with guard := Function.update s.guard g (.store k s.mgr.globalEpoch) }
      else none
    | _ => none
  | .store g =>
    match s.guard g with
    | .store k e =>
      some { s with
        mgr := s.mgr.store k e
        guard := Function.update s.guard g (.inside k)
        may := Function.update s.may g fun x => decide (s.life x = .linked) }
    | _ => none
  | .leave g =>
    match s.guard g with
    | .inside k =>
      some { s with
        mgr := s.mgr.store k SizeT.max
        guard := Function.update s.guard g .idle
        may := Function.update s.may g fun _ => false }
    | _ => none
  | .unlink w o =>
    match s.writer w with
    | .idle =>
      if s.life o = .linked then
        some { s with
          life := Function.update s.life o .unlinked
          writer := Function.update s.writer w (.readEpoch o) }
      else none
    | _ => none
  | .writer w => writerStep s w
  | .tick t i =>
    (tickStep participants i s.mgr (s.tick t)).map fun (m, pc) =>
      { s with mgr := m, tick := Function.update s.tick t pc }

/-- Guards on one slot are neither nested nor shared: a guard is constructed on a slot only when
no other guard is alive, or under construction, on it. -/
def Exclusive (s : State κ O γ ω ι) : Act κ O γ ω ι → Prop
  | .load _ k => ∀ g, (s.guard g).slot? ≠ some k
  | _ => True

instance [Fintype γ] (s : State κ O γ ω ι) (a : Act κ O γ ω ι) : Decidable (Exclusive s a) :=
  match a with
  | .load _ k => inferInstanceAs (Decidable (∀ g, (s.guard g).slot? ≠ some k))
  | .link _ | .store _ | .leave _ | .unlink _ _ | .writer _ | .tick _ _ => .isTrue trivial

end

section
variable {κ O γ ω ι : Type} {participants : List κ} {s s' : State κ O γ ω ι}

/-! ## The invariant -/

/-- The reader with guard `g`, on the slot `k`, may hold the object `o`. -/
def Holds (s : State κ O γ ω ι) (g : γ) (k : κ) (o : O) : Prop :=
  s.guard g = .inside k ∧ s.may g o = true

/-- What is known of the guards: one for each slot, and the slot of a guard that is alive holds an
epoch that is not larger than the global one. -/
structure GuardInv (participants : List κ) (s : State κ O γ ω ι) : Prop where
  registered : ∀ g k, (s.guard g).slot? = some k → k ∈ participants
  exclusive : ∀ g g' k, (s.guard g).slot? = some k → (s.guard g').slot? = some k → g = g'
  store : ∀ g k e, s.guard g = .store k e → e ≤ s.mgr.globalEpoch
  inside : ∀ g k, s.guard g = .inside k →
    s.mgr.localEpoch k ≤ s.mgr.globalEpoch ∧ s.mgr.localEpoch k < SizeT.max
  may : ∀ g o, s.may g o = true → ∃ k, s.guard g = .inside k

/-- A retired entry: its object is unlinked, and every reader that may hold it has an epoch in its
slot that is not larger than the entry's. -/
def EntryOk (s : State κ O γ ω ι) (e : Retired O) : Prop :=
  s.life e.ptr = .unlinked ∧ ∀ g k, Holds s g k e.ptr → s.mgr.localEpoch k ≤ e.epoch

/-- What holds at each place of a writer. -/
def WriterOk (s : State κ O γ ω ι) : WriterPc O → Prop
  | .readEpoch o => s.life o = .unlinked
  | .enqueue o e => EntryOk s ⟨o, e⟩
  | .idle | .count => True

/-- What holds at each place of a tick. In the scan, a reader that may hold an object of `pending`
is still to be scanned or was counted in the minimum. -/
def TickOk (s : State κ O γ ω ι) : TickPc κ O → Prop
  | .scan slots minEpoch => ∀ e ∈ s.mgr.pending, ∀ g k, Holds s g k e.ptr →
      k ∈ slots ∨ minEpoch ≤ s.mgr.localEpoch k
  | .sweep todo kept _ safeEpoch => (∀ e ∈ kept ++ todo, EntryOk s e) ∧
      ∀ e ∈ todo, ∀ g k, Holds s g k e.ptr → safeEpoch ≤ s.mgr.localEpoch k
  | _ => True

/-- What is known of the retired entries, wherever they are. -/
structure ReclaimInv (s : State κ O γ ω ι) : Prop where
  queues : ∀ e, e ∈ s.mgr.incoming ∨ e ∈ s.mgr.pending → EntryOk s e
  writers : ∀ w, WriterOk s (s.writer w)
  ticks : ∀ t, TickOk s (s.tick t)
  lock : ∀ t, (s.tick t).reclaims = true → s.mgr.reclaiming = true ∧
    ∀ t', (s.tick t').reclaims = true → t' = t
  freed : ∀ o ∈ s.mgr.freed, s.life o = .unlinked ∧ ∀ g k, ¬ Holds s g k o

/-! ## Readers -/

/-- The step of a reader gives nobody an unlinked object and moves the slot of nobody who may hold
one. -/
structure ReaderFrame (s s' : State κ O γ ω ι) : Prop where
  life : ∀ o, s.life o = .unlinked → s'.life o = .unlinked
  holds : ∀ g k o, s.life o = .unlinked → Holds s' g k o →
    Holds s g k o ∧ s'.mgr.localEpoch k = s.mgr.localEpoch k

theorem ReaderFrame.entryOk (hf : ReaderFrame s s') {e : Retired O} (h : EntryOk s e) :
    EntryOk s' e := by
  refine ⟨hf.life _ h.1, fun g k hg => ?_⟩
  obtain ⟨hg', hk⟩ := hf.holds g k _ h.1 hg
  rw [hk]
  exact h.2 g k hg'

/-- The entries are as they were after the step of a reader. -/
theorem ReclaimInv.reader (h : ReclaimInv s) (hf : ReaderFrame s s')
    (hin : s'.mgr.incoming = s.mgr.incoming) (hpend : s'.mgr.pending = s.mgr.pending)
    (hrec : s'.mgr.reclaiming = s.mgr.reclaiming) (hfreed : s'.mgr.freed = s.mgr.freed)
    (hw : s'.writer = s.writer) (ht : s'.tick = s.tick) : ReclaimInv s' where
  queues e he := hf.entryOk (h.queues e (by rwa [hin, hpend] at he))
  writers w := by
    have hok := h.writers w
    rw [hw]
    cases hpc : s.writer w with
    | idle | count => trivial
    | readEpoch o => rw [hpc] at hok; exact hf.life o hok
    | enqueue o e => rw [hpc] at hok; exact hf.entryOk hok
  ticks t := by
    have hok := h.ticks t
    rw [ht]
    cases hpc : s.tick t with
    | idle | tryReclaim | drain | minActiveEpoch | count | release => trivial
    | scan slots minEpoch =>
      rw [hpc] at hok
      intro e he g k hg
      rw [hpend] at he
      obtain ⟨hg', hk⟩ := hf.holds g k _ (h.queues e (.inr he)).1 hg
      rw [hk]
      exact hok e he g k hg'
    | sweep todo kept n safeEpoch =>
      rw [hpc] at hok
      refine ⟨fun e he => hf.entryOk (hok.1 e he), fun e he g k hg => ?_⟩
      obtain ⟨hg', hk⟩ := hf.holds g k _ (hok.1 e (List.mem_append_right _ he)).1 hg
      rw [hk]
      exact hok.2 e he g k hg'
  lock := by rw [ht, hrec]; exact h.lock
  freed o ho := by
    obtain ⟨hlife, hno⟩ := h.freed o (by rwa [hfreed] at ho)
    exact ⟨hf.life o hlife, fun g k hg => hno g k (hf.holds g k o hlife hg).1⟩

/-! ## Guards -/

/-- The slot of a guard is not that of another. -/
theorem GuardInv.slot_ne (h : GuardInv participants s) {g g' : γ} {k k' : κ}
    (hg : (s.guard g).slot? = some k) (hg' : s.guard g' = .inside k') (hne : g' ≠ g) : k' ≠ k := by
  rintro rfl
  exact hne (h.exclusive g' g k' (by rw [hg']; rfl) hg)

section
variable [DecidableEq γ]

/-- A guard that is constructed alone on its slot. -/
theorem GuardInv.load (h : GuardInv participants s) {g : γ} {k : κ} (hg : s.guard g = .idle)
    (hk : k ∈ participants) (halone : ∀ g', (s.guard g').slot? ≠ some k) :
    GuardInv participants
      { s with guard := Function.update s.guard g (.store k s.mgr.globalEpoch) } := by
  have hslot : ∀ g' k',
      (Function.update s.guard g (.store k s.mgr.globalEpoch) g').slot? = some k' →
      (g' = g ∧ k' = k) ∨ (s.guard g').slot? = some k' := by
    intro g' k' hg'
    rcases Update.eq_cases (b := Function.update s.guard g _ g') rfl with ⟨rfl, hpc⟩ | ⟨-, hpc⟩
    · rw [← hpc] at hg'
      exact .inl ⟨rfl, (Option.some.inj hg').symm⟩
    · exact .inr (hpc ▸ hg')
  refine ⟨fun g' k' hg' => ?_, fun g₁ g₂ k' h₁ h₂ => ?_, fun g' k' e hg' => ?_,
    fun g' k' hg' => ?_, fun g' o ho => ?_⟩
  · rcases hslot g' k' hg' with ⟨-, rfl⟩ | hg'
    · exact hk
    · exact h.registered g' k' hg'
  · rcases hslot g₁ k' h₁ with ⟨hg₁, hk₁⟩ | hs₁ <;> rcases hslot g₂ k' h₂ with ⟨hg₂, hk₂⟩ | hs₂
    · rw [hg₁, hg₂]
    · exact absurd (hk₁ ▸ hs₂) (halone g₂)
    · exact absurd (hk₂ ▸ hs₁) (halone g₁)
    · exact h.exclusive g₁ g₂ k' hs₁ hs₂
  · rcases Update.eq_cases hg' with ⟨-, heq⟩ | ⟨-, hg'⟩
    · cases heq; exact Nat.le_refl _
    · exact h.store g' k' e hg'
  · rcases Update.eq_cases hg' with ⟨-, heq⟩ | ⟨-, hg'⟩
    · cases heq
    · exact h.inside g' k' hg'
  · obtain ⟨k', hk'⟩ := h.may g' o ho
    have hne : g' ≠ g := by
      rintro rfl
      rw [hg] at hk'
      cases hk'
    exact ⟨k', (Function.update_of_ne hne _ s.guard).trans hk'⟩

variable [DecidableEq κ]

omit [DecidableEq γ] in
/-- A store to the slot of a guard leaves the slots of the others. -/
theorem GuardInv.localEpoch_store (h : GuardInv participants s) {g g' : γ} {k k' : κ} {e : Nat}
    (hg : (s.guard g).slot? = some k) (hg' : s.guard g' = .inside k') (hne : g' ≠ g) :
    (s.mgr.store k e).localEpoch k' = s.mgr.localEpoch k' :=
  Function.update_of_ne (h.slot_ne hg hg' hne) _ _

/-- A guard stores the epoch it loaded. -/
theorem GuardInv.storeSlot (h : GuardInv participants s) {g : γ} {k : κ} {e : Nat}
    {may : O → Bool} (hg : s.guard g = .store k e) (hlt : s.mgr.globalEpoch < SizeT.max) :
    GuardInv participants { s with
      mgr := s.mgr.store k e
      guard := Function.update s.guard g (.inside k)
      may := Function.update s.may g may } := by
  have hgk : (s.guard g).slot? = some k := by rw [hg]; rfl
  have hslot : ∀ g', (Function.update s.guard g (.inside k) g').slot? = (s.guard g').slot? :=
    Update.forall_of (P := fun g' (pc : GuardPc κ) => pc.slot? = (s.guard g').slot?) hgk.symm
      fun _ _ => rfl
  refine ⟨fun g' k' hg' => h.registered g' k' (hslot g' ▸ hg'), fun g₁ g₂ k' h₁ h₂ =>
    h.exclusive g₁ g₂ k' (hslot g₁ ▸ h₁) (hslot g₂ ▸ h₂), fun g' k' e' hg' => ?_,
    fun g' k' hg' => ?_, fun g' o ho => ?_⟩
  · rcases Update.eq_cases hg' with ⟨-, heq⟩ | ⟨-, hg'⟩
    · cases heq
    · exact h.store g' k' e' hg'
  · rcases Update.eq_cases hg' with ⟨rfl, heq⟩ | ⟨hne, hg'⟩
    · cases heq
      have hle := h.store g' k e hg
      have hself : (s.mgr.store k e).localEpoch k = e := Function.update_self ..
      dsimp only
      rw [hself]
      exact ⟨hle, by omega⟩
    · dsimp only
      rw [h.localEpoch_store hgk hg' hne]
      exact h.inside g' k' hg'
  · by_cases hgg : g' = g
    · subst hgg
      exact ⟨k, Function.update_self g' _ s.guard⟩
    · have hmay := (congrFun (Function.update_of_ne hgg may s.may) o).symm.trans ho
      obtain ⟨k', hk'⟩ := h.may g' o hmay
      exact ⟨k', (Function.update_of_ne hgg _ s.guard).trans hk'⟩

/-- A guard is destroyed. -/
theorem GuardInv.leave (h : GuardInv participants s) {g : γ} {k : κ} (hg : s.guard g = .inside k) :
    GuardInv participants { s with
      mgr := s.mgr.store k SizeT.max
      guard := Function.update s.guard g .idle
      may := Function.update s.may g fun _ => false } := by
  have hslot : ∀ g' k', (Function.update s.guard g .idle g').slot? = some k' →
      (s.guard g').slot? = some k' :=
    Update.forall_of (P := fun g' (pc : GuardPc κ) => ∀ k', pc.slot? = some k' →
      (s.guard g').slot? = some k') nofun fun _ _ _ => id
  refine ⟨fun g' k' hg' => h.registered g' k' (hslot g' k' hg'), fun g₁ g₂ k' h₁ h₂ =>
    h.exclusive g₁ g₂ k' (hslot g₁ k' h₁) (hslot g₂ k' h₂), fun g' k' e' hg' => ?_,
    fun g' k' hg' => ?_, fun g' o ho => ?_⟩
  · rcases Update.eq_cases hg' with ⟨-, heq⟩ | ⟨-, hg'⟩
    · cases heq
    · exact h.store g' k' e' hg'
  · rcases Update.eq_cases hg' with ⟨-, heq⟩ | ⟨hne, hg'⟩
    · cases heq
    · dsimp only
      rw [h.localEpoch_store (by rw [hg]; rfl) hg' hne]
      exact h.inside g' k' hg'
  · by_cases hgg : g' = g
    · subst hgg
      simp at ho
    · have hmay := (congrFun (Function.update_of_ne hgg _ s.may) o).symm.trans ho
      obtain ⟨k', hk'⟩ := h.may g' o hmay
      exact ⟨k', (Function.update_of_ne hgg _ s.guard).trans hk'⟩

end

/-! ## Steps -/

variable [DecidableEq κ] [DecidableEq O] [DecidableEq γ] [DecidableEq ω] [DecidableEq ι]

/-- What every step keeps. -/
structure Inv (participants : List κ) (s : State κ O γ ω ι) : Prop where
  guards : GuardInv participants s
  reclaim : ReclaimInv s

theorem Inv.link (h : Inv participants s) {o : O}
    (hs : step participants s (.link o) = some s') : Inv participants s' := by
  simp only [step] at hs
  split_ifs at hs with hfresh
  cases hs
  refine ⟨{ h.guards with may := fun g x hx => ?_ }, h.reclaim.reader ⟨fun x hx => ?_,
    fun g k x hx hg => ⟨⟨hg.1, ?_⟩, rfl⟩⟩ rfl rfl rfl rfl rfl rfl⟩
  · cases hg : s.guard g with
    | inside k => exact ⟨k, rfl⟩
    | idle | store k e => simpa [hg] using h.guards.may g x (by simpa [hg] using hx)
  · dsimp only
    rw [Function.update_of_ne]
    · exact hx
    · rintro rfl
      rw [hfresh] at hx
      cases hx
  · have hne : x ≠ o := by
      rintro rfl
      rw [hfresh] at hx
      cases hx
    simpa [hne] using hg.2

theorem Inv.load (h : Inv participants s) {g : γ} {k : κ}
    (halone : ∀ g', (s.guard g').slot? ≠ some k)
    (hs : step participants s (.load g k) = some s') : Inv participants s' := by
  simp only [step] at hs
  cases hg : s.guard g with
  | store | inside => simp [hg] at hs
  | idle =>
    rw [hg] at hs
    dsimp only at hs
    split_ifs at hs with hk
    cases hs
    refine ⟨h.guards.load hg hk halone, h.reclaim.reader ⟨fun _ => id, fun g' k' x _ hx => ?_⟩
      rfl rfl rfl rfl rfl rfl⟩
    rcases Update.eq_cases hx.1 with ⟨-, heq⟩ | ⟨-, hin⟩
    · cases heq
    · exact ⟨⟨hin, hx.2⟩, rfl⟩

theorem Inv.store (h : Inv participants s) {g : γ} (hlt : s.mgr.globalEpoch < SizeT.max)
    (hs : step participants s (.store g) = some s') : Inv participants s' := by
  simp only [step] at hs
  cases hg : s.guard g with
  | idle | inside => simp [hg] at hs
  | store k e =>
    simp only [hg, Option.some.injEq] at hs
    subst hs
    refine ⟨h.guards.storeSlot hg hlt, h.reclaim.reader ⟨fun _ => id, fun g' k' x hx hx' => ?_⟩
      rfl rfl rfl rfl rfl rfl⟩
    obtain ⟨hin, hmay⟩ := hx'
    dsimp only at hmay
    rcases Update.eq_cases hin with ⟨rfl, -⟩ | ⟨hne, hin⟩
    · -- what the new reader may hold is linked
      simp [hx] at hmay
    · rw [Function.update_of_ne hne] at hmay
      exact ⟨⟨hin, hmay⟩, h.guards.localEpoch_store (by rw [hg]; rfl) hin hne⟩

theorem Inv.leave (h : Inv participants s) {g : γ}
    (hs : step participants s (.leave g) = some s') : Inv participants s' := by
  simp only [step] at hs
  cases hg : s.guard g with
  | idle | store => simp [hg] at hs
  | inside k =>
    simp only [hg, Option.some.injEq] at hs
    subst hs
    refine ⟨h.guards.leave hg, h.reclaim.reader ⟨fun _ => id, fun g' k' x hx hx' => ?_⟩
      rfl rfl rfl rfl rfl rfl⟩
    obtain ⟨hin, hmay⟩ := hx'
    dsimp only at hmay
    rcases Update.eq_cases hin with ⟨rfl, -⟩ | ⟨hne, hin⟩
    · simp at hmay
    · rw [Function.update_of_ne hne] at hmay
      exact ⟨⟨hin, hmay⟩, h.guards.localEpoch_store (by rw [hg]; rfl) hin hne⟩

/-! ## Writers -/

theorem Inv.unlink (h : Inv participants s) {w : ω} {o : O}
    (hs : step participants s (.unlink w o) = some s') : Inv participants s' := by
  simp only [step] at hs
  cases hw : s.writer w with
  | readEpoch | enqueue | count => simp [hw] at hs
  | idle =>
    rw [hw] at hs
    dsimp only at hs
    split_ifs at hs with hlinked
    cases hs
    have hlife : ∀ x, s.life x = .unlinked → Function.update s.life o .unlinked x = .unlinked :=
      Update.forall_of (P := fun x l => s.life x = .unlinked → l = Life.unlinked)
        (fun _ => rfl) fun _ _ => id
    have hmid : ReclaimInv { s with life := Function.update s.life o .unlinked } :=
      h.reclaim.reader ⟨hlife, fun g k x _ hx => ⟨hx, rfl⟩⟩ rfl rfl rfl rfl rfl rfl
    refine ⟨{ h.guards with }, { hmid with writers := ?_ }⟩
    exact Update.forall_of (P := fun _ pc => WriterOk _ pc) (Function.update_self o _ s.life)
      fun w' _ => hmid.writers w'

omit [DecidableEq κ] [DecidableEq O] [DecidableEq γ] [DecidableEq ι] in
/-- A writer reads the epoch, and retires the object with it. -/
theorem Inv.writer (h : Inv participants s) {w : ω} (hs : writerStep s w = some s') :
    Inv participants s' := by
  have hok := h.reclaim.writers w
  unfold writerStep at hs
  cases hw : s.writer w with
  | idle => simp [hw] at hs
  | readEpoch o =>
    simp only [hw, Option.some.injEq] at hs
    subst hs
    rw [hw] at hok
    refine ⟨{ h.guards with }, { h.reclaim with writers := ?_ }⟩
    -- the epoch is read after the object was unlinked
    exact Update.forall_of (P := fun _ pc => WriterOk _ pc)
      ⟨hok, fun g k hg => (h.guards.inside g k hg.1).1⟩ fun w' _ => h.reclaim.writers w'
  | enqueue o e =>
    simp only [hw, Option.some.injEq] at hs
    subst hs
    rw [hw] at hok
    refine ⟨{ h.guards with }, { h.reclaim with queues := fun x hx => ?_, writers := ?_ }⟩
    · simp only [EpochManager.enqueue, List.mem_append, List.mem_singleton] at hx
      rcases hx with (hx | rfl) | hx
      · exact h.reclaim.queues x (.inl hx)
      · exact hok
      · exact h.reclaim.queues x (.inr hx)
    · exact Update.forall_of (P := fun _ pc => WriterOk _ pc) trivial
        fun w' _ => h.reclaim.writers w'
  | count =>
    simp only [hw, Option.some.injEq] at hs
    subst hs
    refine ⟨{ h.guards with }, { h.reclaim with writers := ?_ }⟩
    exact Update.forall_of (P := fun _ pc => WriterOk _ pc) trivial
      fun w' _ => h.reclaim.writers w'

/-! ## Ticks -/

omit [DecidableEq κ] [DecidableEq O] [DecidableEq γ] [DecidableEq ω] in
/-- One thread at a time is between the exchange of `reclaiming` and its release. -/
theorem ReclaimInv.lock_update (h : ReclaimInv s) {t : ι} {pc : TickPc κ O} {reclaiming : Bool}
    (hlock : (reclaiming = s.mgr.reclaiming ∧ pc.reclaims = (s.tick t).reclaims) ∨
      (s.mgr.reclaiming = false ∧ reclaiming = true) ∨
      ((s.tick t).reclaims = true ∧ pc.reclaims = false)) (t₁ : ι)
    (h₁ : (Function.update s.tick t pc t₁).reclaims = true) : reclaiming = true ∧
      ∀ t₂, (Function.update s.tick t pc t₂).reclaims = true → t₂ = t₁ := by
  rcases hlock with ⟨hrec, hpc⟩ | ⟨hfalse, htrue⟩ | ⟨ht, hpc⟩
  · have hsame : ∀ x, (Function.update s.tick t pc x).reclaims = (s.tick x).reclaims :=
      Update.forall_of (P := fun x (pc : TickPc κ O) => pc.reclaims = (s.tick x).reclaims) hpc
        fun _ _ => rfl
    rw [hsame] at h₁
    rw [hrec]
    exact ⟨(h.lock t₁ h₁).1, fun t₂ h₂ => (h.lock t₁ h₁).2 t₂ (by rwa [hsame] at h₂)⟩
  · -- nobody was between the two
    have honly : ∀ x, (Function.update s.tick t pc x).reclaims = true → x = t :=
      Update.forall_of (P := fun x (pc : TickPc κ O) => pc.reclaims = true → x = t) (fun _ => rfl)
        fun x _ hx => by rw [(h.lock x hx).1] at hfalse; cases hfalse
    exact ⟨htrue, fun t₂ h₂ => (honly t₂ h₂).trans (honly t₁ h₁).symm⟩
  · have hnone : ∀ x, (Function.update s.tick t pc x).reclaims = false :=
      Update.forall_of (P := fun _ (pc : TickPc κ O) => pc.reclaims = false) hpc fun x hne =>
        Bool.eq_false_iff.2 fun hx => hne ((h.lock t ht).2 x hx)
    rw [hnone] at h₁
    cases h₁

omit [DecidableEq κ] [DecidableEq O] [DecidableEq γ] [DecidableEq ω] in
/-- The step of a tick that keeps the slots: what is to be shown of its own place, of the queues,
of `reclaiming` and of what was freed. -/
theorem ReclaimInv.tick (h : ReclaimInv s) {t : ι} {m : EpochManager κ O} {pc : TickPc κ O}
    (hslots : m.localEpoch = s.mgr.localEpoch)
    (hqueues : ∀ e, e ∈ m.incoming ∨ e ∈ m.pending → EntryOk s e)
    (hpc : TickOk { s with mgr := m } pc)
    (hpend : m.pending = s.mgr.pending ∨ (s.tick t).reclaims = true)
    (hlock : (m.reclaiming = s.mgr.reclaiming ∧ pc.reclaims = (s.tick t).reclaims) ∨
      (s.mgr.reclaiming = false ∧ m.reclaiming = true) ∨
      ((s.tick t).reclaims = true ∧ pc.reclaims = false))
    (hfreed : ∀ o ∈ m.freed, s.life o = .unlinked ∧ ∀ g k, ¬ Holds s g k o) :
    ReclaimInv { s with mgr := m, tick := Function.update s.tick t pc } := by
  have hentry : ∀ e, EntryOk s e →
      EntryOk { s with mgr := m, tick := Function.update s.tick t pc } e := by
    intro e he
    refine ⟨he.1, fun g k hg => ?_⟩
    dsimp only
    rw [hslots]
    exact he.2 g k hg
  refine ⟨fun e he => hentry e (hqueues e he), fun w => ?_, ?_, h.lock_update hlock, hfreed⟩
  · have hok := h.writers w
    dsimp only
    cases hw : s.writer w with
    | idle | count => trivial
    | readEpoch o => rw [hw] at hok; exact hok
    | enqueue o e => rw [hw] at hok; exact hentry _ hok
  · refine Update.forall_of (P := fun _ pc => TickOk _ pc) hpc fun t' hne => ?_
    have hok := h.ticks t'
    cases ht' : s.tick t' with
    | idle | tryReclaim | drain | minActiveEpoch | count | release => trivial
    | scan slots minEpoch =>
      rw [ht'] at hok
      have hpend' : m.pending = s.mgr.pending := hpend.resolve_right fun ht =>
        hne ((h.lock t ht).2 t' (by rw [ht']; rfl))
      intro e he g k hg
      dsimp only at he ⊢
      rw [hslots]
      rw [hpend'] at he
      exact hok e he g k hg
    | sweep todo kept n safeEpoch =>
      rw [ht'] at hok
      refine ⟨fun e he => hentry e (hok.1 e he), fun e he g k hg => ?_⟩
      dsimp only
      rw [hslots]
      exact hok.2 e he g k hg

omit [DecidableEq κ] [DecidableEq O] [DecidableEq γ] [DecidableEq ω] [DecidableEq ι] in
/-- What the slots and the guards are after a tick. -/
theorem GuardInv.tick (h : GuardInv participants s) {m : EpochManager κ O} {f : ι → TickPc κ O}
    (hslots : m.localEpoch = s.mgr.localEpoch) (hle : s.mgr.globalEpoch ≤ m.globalEpoch) :
    GuardInv participants { s with mgr := m, tick := f } := by
  refine { h with
    store := fun g k e hg => (h.store g k e hg).trans hle
    inside := fun g k hg => ?_ }
  dsimp only
  rw [hslots]
  exact ⟨(h.inside g k hg).1.trans hle, (h.inside g k hg).2⟩

/-- Every access of a tick keeps the invariant. -/
theorem Inv.tick (h : Inv participants s) {t : ι} {i : Nat} (hlt : s.mgr.globalEpoch < SizeT.max)
    (hs : step participants s (.tick t i) = some s') : Inv participants s' := by
  simp only [step, Option.map_eq_some_iff, Prod.exists] at hs
  obtain ⟨m, pc, hs, rfl⟩ := hs
  have hr := h.reclaim
  have hok := hr.ticks t
  -- most accesses leave the queues, the lock and the freed entries
  have hkeep : ∀ {pc}, TickOk { s with mgr := s.mgr } pc → pc.reclaims = (s.tick t).reclaims →
      Inv participants { s with mgr := s.mgr, tick := Function.update s.tick t pc } :=
    fun hpc hrec => ⟨h.guards.tick rfl le_rfl, hr.tick rfl hr.queues hpc (.inl rfl)
      (.inl ⟨rfl, hrec⟩) hr.freed⟩
  cases ht : s.tick t with
  | idle =>
    rw [ht] at hs
    simp only [tickStep, Option.some.injEq, Prod.mk.injEq] at hs
    obtain ⟨rfl, rfl⟩ := hs
    refine ⟨h.guards.tick rfl ?_, hr.tick rfl hr.queues trivial (.inl rfl)
      (.inl ⟨rfl, by rw [ht]; rfl⟩) hr.freed⟩
    dsimp only
    rw [SizeT.add_of_lt (by rw [SizeT.max] at hlt; omega)]
    exact Nat.le_succ _
  | tryReclaim =>
    rw [ht] at hs
    simp only [tickStep] at hs
    split_ifs at hs with hrec
    · cases hs
      exact hkeep trivial (by rw [ht]; rfl)
    · cases hs
      exact ⟨h.guards.tick rfl le_rfl, hr.tick rfl hr.queues trivial (.inl rfl)
        (.inr (.inl ⟨by simpa using hrec, rfl⟩)) hr.freed⟩
  | drain =>
    rw [ht] at hs
    simp only [tickStep] at hs
    split_ifs at hs with hempty
    · cases hs
      exact hkeep trivial (by rw [ht]; rfl)
    · simp only [Option.map_eq_some_iff, Prod.mk.injEq] at hs
      obtain ⟨e, he, rfl, rfl⟩ := hs
      refine ⟨h.guards.tick rfl le_rfl, hr.tick rfl (fun x hx => ?_) trivial
        (.inr (by rw [ht]; rfl)) (.inl ⟨rfl, by rw [ht]⟩) hr.freed⟩
      simp only [List.mem_append, List.mem_singleton] at hx
      rcases hx with hx | hx | rfl
      · exact hr.queues x (.inl (List.mem_of_mem_eraseIdx hx))
      · exact hr.queues x (.inr hx)
      · exact hr.queues x (.inl (List.mem_of_getElem? he))
  | minActiveEpoch =>
    rw [ht] at hs
    simp only [tickStep, Option.some.injEq, Prod.mk.injEq] at hs
    obtain ⟨rfl, rfl⟩ := hs
    exact hkeep (fun e _ g k hg => .inl (h.guards.registered g k (by rw [hg.1]; rfl)))
      (by rw [ht]; rfl)
  | scan slots minEpoch =>
    rw [ht] at hs hok
    cases slots with
    | nil =>
      simp only [tickStep, Option.some.injEq, Prod.mk.injEq] at hs
      obtain ⟨rfl, rfl⟩ := hs
      refine ⟨h.guards.tick rfl le_rfl, hr.tick rfl (fun x hx => ?_) ⟨fun e he => ?_,
        fun e he g k hg => ?_⟩ (.inr (by rw [ht]; rfl)) (.inl ⟨rfl, by rw [ht]; rfl⟩) hr.freed⟩
      · exact hr.queues x (.inl (hx.resolve_right List.not_mem_nil))
      · exact hr.queues e (.inr (by simpa using he))
      · exact (hok e he g k hg).resolve_left List.not_mem_nil
    | cons k₀ slots =>
      simp only [tickStep, Option.some.injEq, Prod.mk.injEq] at hs
      obtain ⟨rfl, rfl⟩ := hs
      refine hkeep (fun e he g k hg => ?_) (by rw [ht]; rfl)
      rcases hok e he g k hg with hk | hk
      · rcases List.mem_cons.1 hk with rfl | hk
        · exact .inr (minActive_le_left (h.guards.inside g k hg.1).2 minEpoch)
        · exact .inl hk
      · exact .inr ((minActive_le _ minEpoch).trans hk)
  | sweep todo kept n safeEpoch =>
    rw [ht] at hs hok
    cases todo with
    | nil =>
      simp only [tickStep, Option.some.injEq, Prod.mk.injEq] at hs
      obtain ⟨rfl, rfl⟩ := hs
      refine ⟨h.guards.tick rfl le_rfl, hr.tick rfl (fun x hx => ?_) trivial
        (.inr (by rw [ht]; rfl)) (.inl ⟨rfl, by rw [ht]; rfl⟩) hr.freed⟩
      rcases hx with hx | hx
      · exact hr.queues x (.inl hx)
      · exact hok.1 x (List.mem_append_left _ hx)
    | cons e todo =>
      simp only [tickStep] at hs
      split_ifs at hs with hlt
      · -- a reader that may hold the object has an epoch between the entry's and the minimum
        cases hs
        refine ⟨h.guards.tick rfl le_rfl, hr.tick rfl hr.queues ⟨fun x hx => ?_,
          fun x hx => hok.2 x (.tail _ hx)⟩ (.inl rfl) (.inl ⟨rfl, by rw [ht]; rfl⟩)
          fun o ho => ?_⟩
        · exact hok.1 x (by simp only [List.mem_append, List.mem_cons] at hx ⊢; tauto)
        · rcases List.mem_cons.1 ho with rfl | ho
          · have he := hok.1 e (List.mem_append_right _ (.head _))
            refine ⟨he.1, fun g k hg => ?_⟩
            have h₁ := hok.2 e (.head _) g k hg
            have h₂ := he.2 g k hg
            omega
          · exact hr.freed o ho
      · cases hs
        exact hkeep ⟨fun x hx => hok.1 x (by simpa using hx), fun x hx => hok.2 x (.tail _ hx)⟩
          (by rw [ht]; rfl)
  | count n =>
    rw [ht] at hs
    simp only [tickStep] at hs
    split_ifs at hs with hn
    · cases hs
      exact hkeep trivial (by rw [ht]; rfl)
    · cases hs
      exact ⟨h.guards.tick rfl le_rfl, hr.tick rfl hr.queues trivial (.inl rfl)
        (.inl ⟨rfl, by rw [ht]; rfl⟩) hr.freed⟩
  | release =>
    rw [ht] at hs
    simp only [tickStep, Option.some.injEq, Prod.mk.injEq] at hs
    obtain ⟨rfl, rfl⟩ := hs
    exact ⟨h.guards.tick rfl le_rfl, hr.tick rfl hr.queues trivial (.inl rfl)
      (.inr (.inr ⟨by rw [ht]; rfl, rfl⟩)) hr.freed⟩

/-! ## Runs -/

/-- Every step keeps the invariant, when guards are not nested or shared and the epoch has not
reached `SIZE_MAX`. -/
theorem Inv.step {a : Act κ O γ ω ι} (h : Inv participants s) (hexcl : Exclusive s a)
    (hlt : s.mgr.globalEpoch < SizeT.max) (hs : step participants s a = some s') :
    Inv participants s' := by
  cases a with
  | link o => exact h.link hs
  | load g k => exact h.load hexcl hs
  | store g => exact h.store hlt hs
  | leave g => exact h.leave hs
  | unlink w o => exact h.unlink hs
  | writer w => exact h.writer hs
  | tick t i => exact h.tick hlt hs

omit [DecidableEq κ] [DecidableEq O] [DecidableEq γ] [DecidableEq ω] [DecidableEq ι] in
theorem Inv.init : Inv participants (State.init : State κ O γ ω ι) :=
  ⟨⟨nofun, nofun, nofun, nofun, nofun⟩, ⟨by simp [State.init, EpochManager.init], fun _ => trivial,
    fun _ => trivial, nofun, by simp [State.init, EpochManager.init]⟩⟩

/-- In every run in which guards on one slot are never nested or shared and the global epoch stays
below `SIZE_MAX`, no object that was passed to its deleter may be held by a reader inside a
guard. -/
theorem epochManager_safe {as : List (Act κ O γ ω ι)}
    (hrun : Lts.run (Epochs.step participants) State.init as = some s)
    (hexcl : ∀ p ∈ Lts.visits (Epochs.step participants) State.init as, Exclusive p.1 p.2)
    (hlt : ∀ p ∈ Lts.visits (Epochs.step participants) State.init as,
      p.1.mgr.globalEpoch < SizeT.max) :
    ∀ o ∈ s.mgr.freed, ∀ g, s.may g o = false := by
  have hinv : Inv participants s :=
    Lts.run_inv_of (G := fun s a => Exclusive s a ∧ s.mgr.globalEpoch < SizeT.max)
      (fun h hgood hs => h.step hgood.1 hgood.2 hs) Inv.init hrun
      fun p hp => ⟨hexcl p hp, hlt p hp⟩
  intro o ho g
  refine Bool.eq_false_iff.2 fun hmay => ?_
  obtain ⟨k, hk⟩ := hinv.guards.may g o hmay
  exact (hinv.reclaim.freed o ho).2 g k ⟨hk, hmay⟩

end

/-- A reader enters, a writer retires the object it may hold, one pass keeps the entry; the reader
leaves and enters again, and the next pass frees it. -/
def keptThenFreed : List (Act Nat Nat Unit Unit Unit) :=
  [.link 1, .load () 0, .store (), .unlink () 1, .writer (), .writer (), .writer ()] ++
    List.replicate 11 (.tick () 0) ++ [.leave (), .link 2, .load () 0, .store ()] ++
    List.replicate 10 (.tick () 0)

theorem epochManager_safe_keptThenFreed : ∃ s : State Nat Nat Unit Unit Unit,
    Lts.run (Epochs.step [0]) State.init keptThenFreed = some s ∧ s.mgr.freed = [1] ∧
      s.may () 2 = true ∧ ∀ o ∈ s.mgr.freed, ∀ g, s.may g o = false := by
  refine ⟨(Lts.run (Epochs.step [0]) State.init keptThenFreed).get (by decide),
    (Option.some_get _).symm, by decide, by decide, ?_⟩
  exact epochManager_safe (Option.some_get _).symm (by decide) (by decide)

end JLibScheduler.Epochs
