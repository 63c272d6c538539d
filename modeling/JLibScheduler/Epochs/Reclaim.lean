import Mathlib.Data.List.Perm.Basic
import JLibScheduler.Lib.Lts
import JLibScheduler.Lib.Update
import JLibScheduler.Epochs.Basic

/-!
# Where the retired entries are

`TryReclaim` compacts the survivors of a pass in place: it reads `pending` from the front, writes
each survivor back to the next free position, and cuts the vector at the end. Here the sweep is
modelled with its two indices, over any number of threads that retire entries and that reclaim, and
over slots that change at any time. During a sweep the reclaimer holds the survivors in front of the
position it writes to and what it has not read yet (`PassPc.live`); every retired entry is there, in
`incoming`, or was passed to its deleter, each exactly once (`reclaim_conserves`).
-/

namespace JLibScheduler.Epochs

/-- Where a thread stands in `TryReclaim`: outside it, before the exchange of `reclaiming`, in the
drain of `incoming`, before the load of the epoch in `MinActiveEpoch`, in its scan of the slots, in
the loop over `pending` with its locals, before the update of `retiredCount`, before the release of
`reclaiming`. -/
inductive PassPc (κ : Type) where
  | idle
  | tryReclaim
  | drain
  | minActiveEpoch
  | scan (slots : List κ) (minEpoch : ℕ)
  | sweep (i kept freed safeEpoch : ℕ)
  | count (freed : ℕ)
  | release
  deriving DecidableEq, Repr

/-- Where a thread stands in `RetirePtr`: outside it, before the enqueue, before the count. -/
inductive RetirePc (O : Type) where
  | idle
  | enqueue (e : Retired O)
  | count
  deriving DecidableEq

section
variable {κ O : Type}

/-- The next access of a thread in `TryReclaim` (`Epochs.h:92-121`), over the registered slots; a
dequeue takes the entry `j` of `incoming`. -/
def passStep (participants : List κ) (j : ℕ) (m : EpochManager κ O) :
    PassPc κ → Option (EpochManager κ O × PassPc κ)
  | .idle => none
  | .tryReclaim =>
    if m.reclaiming then some (m, .idle) else some ({ m with reclaiming := true }, .drain)
  | .drain =>
    if m.incoming = [] then some (m, .minActiveEpoch)
    else (m.incoming[j]?).map fun e =>
      ({ m with incoming := m.incoming.eraseIdx j, pending := m.pending ++ [e] }, .drain)
  | .minActiveEpoch => some (m, .scan participants m.globalEpoch)
  | .scan (k :: slots) minEpoch => some (m, .scan slots (minActive (m.localEpoch k) minEpoch))
  | .scan [] minEpoch => some (m, .sweep 0 0 0 minEpoch)
  | .sweep i kept freed safeEpoch =>
    match m.pending[i]? with
    | some e =>
      if e.epoch < safeEpoch then
        some ({ m with freed := e.ptr :: m.freed },
          .sweep (i + 1) kept (SizeT.add freed 1) safeEpoch)
      else
        some ({ m with pending := m.pending.set kept e }, .sweep (i + 1) (kept + 1) freed safeEpoch)
    -- `pending.resize(kept)`
    | none => some ({ m with pending := m.pending.take kept }, .count freed)
  | .count freed =>
    if freed = 0 then some (m, .release)
    else some ({ m with retiredCount := SizeT.sub m.retiredCount freed }, .release)
  | .release => some ({ m with reclaiming := false }, .idle)

/-- The thread has won `reclaiming`. -/
def PassPc.reclaims : PassPc κ → Bool
  | .idle | .tryReclaim => false
  | _ => true

/-- The entries that the vector `pending` stands for: during a sweep the positions from `kept` up to
`i` hold what was read already. -/
def PassPc.live (pending : List (Retired O)) : PassPc κ → List (Retired O)
  | .sweep i kept _ _ => pending.take kept ++ pending.drop i
  | _ => pending

end

/-- A pass of a reclaimer: `pending` when its sweep began and when it ended, and the result of
`MinActiveEpoch`. -/
structure Pass (O : Type) where
  before : List (Retired O)
  after : List (Retired O)
  safeEpoch : ℕ

/-- The manager, the threads `ω` in `RetirePtr` and the threads `ι` in `TryReclaim`. History only:
the entries that were enqueued, how many calls have counted theirs, the entries that were passed to
their deleters, each with the safe epoch of the pass, how many of them were subtracted from the
counter, `pending` at the begin of the sweep in progress, and the sweeps that have ended. -/
structure ReclaimState (κ O ω ι : Type) where
  mgr : EpochManager κ O
  retire : ω → RetirePc O
  pass : ι → PassPc κ
  retired : List (Retired O)
  counted : ℕ
  deleted : List (Retired O × ℕ)
  subtracted : ℕ
  before : List (Retired O)
  passes : List (Pass O)

/-- A step: a call of `RetirePtr`, its next access, a call of `TryReclaim`, its next access, an
advance of the global epoch, or a store to a slot. -/
inductive ReclaimAct (κ O ω ι : Type) where
  | retirePtr (w : ω) (e : Retired O)
  | retire (w : ω)
  | tryReclaim (t : ι)
  | pass (t : ι) (j : ℕ)
  | advance
  | store (slot : κ) (epoch : ℕ)

section
variable {κ O ω ι : Type}

def ReclaimState.init : ReclaimState κ O ω ι where
  mgr := .init
  retire _ := .idle
  pass _ := .idle
  retired := []
  counted := 0
  deleted := []
  subtracted := 0
  before := []
  passes := []

/-- What a step of a pass passes to its deleter. -/
def deletes (pending : List (Retired O)) : PassPc κ → List (Retired O × ℕ)
  | .sweep i _ _ safeEpoch =>
    ((pending[i]?).filter fun e => e.epoch < safeEpoch).toList.map fun e => (e, safeEpoch)
  | _ => []

/-- The sweep that a step ends. -/
def endsPass (before pending : List (Retired O)) : PassPc κ → List (Pass O)
  | .sweep i kept _ safeEpoch =>
    if pending.length ≤ i then [⟨before, pending.take kept, safeEpoch⟩] else []
  | _ => []

/-- A step of the history for a thread at `pc`. -/
def ReclaimState.record (s : ReclaimState κ O ω ι) (pc : PassPc κ) : ReclaimState κ O ω ι :=
  { s with
    deleted := deletes s.mgr.pending pc ++ s.deleted
    subtracted := match pc with
      | .count _ => s.deleted.length
      | _ => s.subtracted
    before := match pc with
      | .scan [] _ => s.mgr.pending
      | _ => s.before
    passes := endsPass s.before s.mgr.pending pc ++ s.passes }

/-- One step, over the registered slots. -/
def ReclaimState.step [DecidableEq κ] [DecidableEq ω] [DecidableEq ι] (participants : List κ)
    (s : ReclaimState κ O ω ι) : ReclaimAct κ O ω ι → Option (ReclaimState κ O ω ι)
  | .retirePtr w e =>
    match s.retire w with
    | .idle => some { s with retire := Function.update s.retire w (.enqueue e) }
    | _ => none
  | .retire w =>
    match s.retire w with
    | .idle => none
    | .enqueue e =>
      some { s with
        mgr := s.mgr.enqueue e.ptr e.epoch
        retire := Function.update s.retire w .count
        retired := e :: s.retired }
    | .count =>
      some { s with
        mgr := s.mgr.countRetired
        retire := Function.update s.retire w .idle
        counted := s.counted + 1 }
  | .tryReclaim t =>
    match s.pass t with
    | .idle => some { s with pass := Function.update s.pass t .tryReclaim }
    | _ => none
  | .pass t j =>
    (passStep participants j s.mgr (s.pass t)).map fun (m, pc) =>
      { s.record (s.pass t) with mgr := m, pass := Function.update s.pass t pc }
  | .advance => some { s with mgr := { s.mgr with globalEpoch := SizeT.add s.mgr.globalEpoch 1 } }
  | .store k e => some { s with mgr := s.mgr.store k e }

end

section
variable {O : Type}

/-- The position `i` of the sweep over what was `before` in `pending`: the entries before it are the
ones read, of which the survivors stand in front of `kept`. -/
def Swept (before pending : List (Retired O)) (i kept safeEpoch : ℕ) : Prop :=
  kept ≤ i ∧ i ≤ pending.length ∧ ∃ done, before = done ++ pending.drop i ∧
    pending.take kept = done.filter fun e => safeEpoch ≤ e.epoch

/-- Nothing was read when a sweep begins. -/
theorem Swept.zero (pending : List (Retired O)) (safeEpoch : ℕ) :
    Swept pending pending 0 0 safeEpoch :=
  ⟨Nat.le_refl 0, Nat.zero_le _, [], rfl, rfl⟩

variable {before pending : List (Retired O)} {e : Retired O} {i kept safeEpoch : ℕ}

/-- The sweep passes an entry that it frees. -/
theorem Swept.free (h : Swept before pending i kept safeEpoch) (he : pending[i]? = some e)
    (hlt : e.epoch < safeEpoch) : Swept before pending (i + 1) kept safeEpoch := by
  obtain ⟨hkept, -, done, hbefore, htake⟩ := h
  obtain ⟨hi, rfl⟩ := List.getElem?_eq_some_iff.1 he
  refine ⟨by omega, hi, done ++ [pending[i]], ?_, ?_⟩
  · rw [hbefore, List.drop_eq_getElem_cons hi, List.append_assoc, List.singleton_append]
  · rw [htake, List.filter_append, List.filter_cons_of_neg (by simpa using hlt), List.filter_nil,
      List.append_nil]

/-- The position that a survivor is written to is one that was read. -/
theorem drop_set (hkept : kept ≤ i) : (pending.set kept e).drop (i + 1) = pending.drop (i + 1) :=
  List.drop_set_of_lt (by omega)

/-- What stands in front of the position to write to, after a survivor was written. -/
theorem take_set (hkept : kept ≤ i) (he : pending[i]? = some e) :
    (pending.set kept e).take (kept + 1) = pending.take kept ++ [e] := by
  obtain ⟨hi, rfl⟩ := List.getElem?_eq_some_iff.1 he
  rw [List.take_add_one, List.take_set_of_le (Nat.le_refl kept),
    List.getElem?_set_self (by omega), Option.toList_some]

/-- The sweep passes an entry that it keeps. -/
theorem Swept.keep (h : Swept before pending i kept safeEpoch) (he : pending[i]? = some e)
    (hle : ¬ e.epoch < safeEpoch) :
    Swept before (pending.set kept e) (i + 1) (kept + 1) safeEpoch := by
  obtain ⟨hkept, -, done, hbefore, htake⟩ := h
  obtain ⟨hi, rfl⟩ := List.getElem?_eq_some_iff.1 he
  refine ⟨by omega, by rwa [List.length_set], done ++ [pending[i]], ?_, ?_⟩
  · rw [hbefore, drop_set hkept, List.drop_eq_getElem_cons hi, List.append_assoc,
      List.singleton_append]
  · rw [take_set hkept he, htake, List.filter_append,
      List.filter_cons_of_pos (by simpa using hle), List.filter_nil]

/-- A sweep ends with the survivors, in their order. -/
theorem Swept.resize (h : Swept before pending i kept safeEpoch) (he : pending[i]? = none) :
    pending.take kept = before.filter fun e => safeEpoch ≤ e.epoch := by
  obtain ⟨-, -, done, hbefore, htake⟩ := h
  rw [htake, hbefore, List.drop_eq_nil_iff.2 (List.getElem?_eq_none_iff.1 he), List.append_nil]

end

section
variable {κ O ω ι : Type}

/-- The sweep passes the entry at its position to the deleter when its epoch is below the safe one.
-/
theorem deletes_sweep {pending : List (Retired O)} {e : Retired O} {i kept freed safeEpoch : ℕ}
    (he : pending[i]? = some e) :
    deletes pending (PassPc.sweep (κ := κ) i kept freed safeEpoch) =
      if e.epoch < safeEpoch then [(e, safeEpoch)] else [] := by
  by_cases hlt : e.epoch < safeEpoch
  · simp [deletes, he, hlt, Option.filter_some]
  · simp [deletes, he, hlt, Option.filter_some]

/-- A reclaimer at `pc`: every retired entry is in one of the three places, and the sweep keeps the
survivors. -/
structure PassOk (s : ReclaimState κ O ω ι) (pc : PassPc κ) : Prop where
  placed : s.retired.Perm
    (s.mgr.incoming ++ pc.live s.mgr.pending ++ s.deleted.map Prod.fst)
  swept : ∀ {i kept freed safeEpoch}, pc = .sweep i kept freed safeEpoch →
    Swept s.before s.mgr.pending i kept safeEpoch

/-- Outside the sweep the entries that a thread holds are those of `pending`. -/
theorem PassOk.of_not_sweep {s s' : ReclaimState κ O ω ι} {pc pc' : PassPc κ} (h : PassOk s pc)
    (hpc' : ∀ i kept freed safeEpoch, pc' ≠ .sweep i kept freed safeEpoch)
    (hretired : s'.retired = s.retired) (hdeleted : s'.deleted = s.deleted)
    (hlive : (s'.mgr.incoming ++ pc'.live s'.mgr.pending).Perm
      (s.mgr.incoming ++ pc.live s.mgr.pending)) : PassOk s' pc' where
  placed := by
    rw [hretired, hdeleted]
    exact h.placed.trans (hlive.symm.append_right _)
  swept hpc := absurd hpc (hpc' _ _ _ _)

/-- The entry that the sweep frees leaves the entries that the reclaimer holds. -/
theorem live_free {pending : List (Retired O)} {e : Retired O} {i kept freed safeEpoch : ℕ}
    (he : pending[i]? = some e) (freed' : ℕ) :
    ((PassPc.sweep (κ := κ) i kept freed safeEpoch).live pending).Perm
      (e :: (PassPc.sweep (κ := κ) (i + 1) kept freed' safeEpoch).live pending) := by
  obtain ⟨hi, rfl⟩ := List.getElem?_eq_some_iff.1 he
  simp only [PassPc.live]
  rw [List.drop_eq_getElem_cons hi]
  exact List.perm_middle

/-- The entry that the sweep keeps is held on. -/
theorem live_keep {pending : List (Retired O)} {e : Retired O} {i kept freed safeEpoch : ℕ}
    (hkept : kept ≤ i) (he : pending[i]? = some e) :
    (PassPc.sweep (κ := κ) (i + 1) (kept + 1) freed safeEpoch).live (pending.set kept e) =
      (PassPc.sweep (κ := κ) i kept freed safeEpoch).live pending := by
  obtain ⟨hi, rfl⟩ := List.getElem?_eq_some_iff.1 he
  simp only [PassPc.live]
  rw [take_set hkept he, drop_set hkept, List.drop_eq_getElem_cons hi, List.append_assoc,
    List.singleton_append]

/-- An access of the reclaimer keeps every entry in one of its places. -/
theorem PassOk.step {participants : List κ} {j : ℕ} {s : ReclaimState κ O ω ι} {pc pc' : PassPc κ}
    {m : EpochManager κ O} {ps : ι → PassPc κ} (h : PassOk s pc) (hreclaims : pc.reclaims = true)
    (hstep : passStep participants j s.mgr pc = some (m, pc')) :
    PassOk { s.record pc with mgr := m, pass := ps } pc' := by
  cases pc with
  | idle | tryReclaim => cases hreclaims
  | drain =>
    simp only [passStep] at hstep
    split_ifs at hstep with hempty
    · cases hstep
      exact h.of_not_sweep (by simp) rfl rfl (List.Perm.refl _)
    · obtain ⟨e, he, hstep⟩ := Option.map_eq_some_iff.1 hstep
      cases hstep
      obtain ⟨hj, rfl⟩ := List.getElem?_eq_some_iff.1 he
      refine h.of_not_sweep (by simp) rfl rfl ?_
      -- The entry moves from its place in `incoming` to the end of `pending`.
      change (s.mgr.incoming.eraseIdx j ++ (s.mgr.pending ++ [s.mgr.incoming[j]])).Perm
        (s.mgr.incoming ++ s.mgr.pending)
      rw [← List.append_assoc]
      exact (List.perm_append_singleton _ _).trans
        ((List.getElem_cons_eraseIdx_perm hj).append_right s.mgr.pending)
  | minActiveEpoch =>
    cases hstep
    exact h.of_not_sweep (by simp) rfl rfl (List.Perm.refl _)
  | scan slots minEpoch =>
    cases slots with
    | nil =>
      cases hstep
      refine ⟨h.placed, fun hpc => ?_⟩
      cases hpc
      exact Swept.zero _ _
    | cons k slots =>
      cases hstep
      exact h.of_not_sweep (by simp) rfl rfl (List.Perm.refl _)
  | sweep i kept freed safeEpoch =>
    have hswept := h.swept rfl
    cases he : s.mgr.pending[i]? with
    | none =>
      simp only [passStep, he, Option.some.injEq, Prod.mk.injEq] at hstep
      obtain ⟨rfl, rfl⟩ := hstep
      have hdrop : s.mgr.pending.drop i = [] :=
        List.drop_eq_nil_iff.2 (List.getElem?_eq_none_iff.1 he)
      refine h.of_not_sweep (by simp) rfl (by simp [ReclaimState.record, deletes, he]) ?_
      simp [PassPc.live, hdrop]
    | some e =>
      by_cases hlt : e.epoch < safeEpoch
      · simp only [passStep, he, hlt, if_true, Option.some.injEq, Prod.mk.injEq] at hstep
        obtain ⟨rfl, rfl⟩ := hstep
        refine ⟨?_, fun hpc => ?_⟩
        · have hdel : deletes s.mgr.pending (PassPc.sweep (κ := κ) i kept freed safeEpoch) =
              [(e, safeEpoch)] := by rw [deletes_sweep he, if_pos hlt]
          simp only [ReclaimState.record, hdel, List.singleton_append, List.map_cons]
          refine h.placed.trans ?_
          refine (((live_free he (SizeT.add freed 1)).append_left _).append_right _).trans ?_
          simp only [List.append_assoc]
          exact List.Perm.append_left _ List.perm_middle.symm
        · cases hpc
          exact hswept.free he hlt
      · simp only [passStep, he, hlt, if_false, Option.some.injEq, Prod.mk.injEq] at hstep
        obtain ⟨rfl, rfl⟩ := hstep
        refine ⟨?_, fun hpc => ?_⟩
        · have hdel :
              deletes s.mgr.pending (PassPc.sweep (κ := κ) i kept freed safeEpoch) = [] := by
            rw [deletes_sweep he, if_neg hlt]
          simp only [ReclaimState.record, hdel, List.nil_append]
          rw [live_keep hswept.1 he]
          exact h.placed
        · cases hpc
          exact hswept.keep he hlt
  | count freed =>
    have hmgr : m.incoming = s.mgr.incoming ∧ m.pending = s.mgr.pending ∧ pc' = .release := by
      simp only [passStep] at hstep
      split_ifs at hstep <;> cases hstep <;> exact ⟨rfl, rfl, rfl⟩
    obtain ⟨hincoming, hpending, rfl⟩ := hmgr
    refine h.of_not_sweep (by simp) rfl rfl ?_
    simp only [hincoming, hpending, PassPc.live]
    exact List.Perm.refl _
  | release =>
    cases hstep
    exact h.of_not_sweep (by simp) rfl rfl (List.Perm.refl _)

/-- What holds of the entries, the reclaimers and the passes in every state. -/
structure EntriesInv (s : ReclaimState κ O ω ι) : Prop where
  one : ∀ {t u}, (s.pass t).reclaims → (s.pass u).reclaims → t = u
  held : ∀ {t}, (s.pass t).reclaims → s.mgr.reclaiming = true
  busy : ∀ {t}, (s.pass t).reclaims → PassOk s (s.pass t)
  rest : (∀ t, ¬ (s.pass t).reclaims) → PassOk s .idle
  freed : s.mgr.freed = s.deleted.map fun p => p.1.ptr
  safe : ∀ p ∈ s.deleted, p.1.epoch < p.2
  kept : ∀ p ∈ s.passes, p.after = p.before.filter fun e => p.safeEpoch ≤ e.epoch

/-- Nothing was retired at the start. -/
theorem EntriesInv.init : EntriesInv (ReclaimState.init : ReclaimState κ O ω ι) where
  one h := by cases h
  held h := by cases h
  busy h := by cases h
  rest _ := ⟨.refl _, fun h => by cases h⟩
  freed := rfl
  safe p hp := by cases hp
  kept p hp := by cases hp

/-- A step that moves no reclaimer and changes neither `pending` nor what was freed keeps the
invariant, when the new entries of `incoming` are those retired. -/
theorem EntriesInv.of_frame {s s' : ReclaimState κ O ω ι} (h : EntriesInv s)
    (new : List (Retired O))
    (hpass : s'.pass = s.pass) (hreclaiming : s'.mgr.reclaiming = s.mgr.reclaiming)
    (hpending : s'.mgr.pending = s.mgr.pending) (hfreed : s'.mgr.freed = s.mgr.freed)
    (hdeleted : s'.deleted = s.deleted) (hbefore : s'.before = s.before)
    (hpasses : s'.passes = s.passes) (hretired : s'.retired = new ++ s.retired)
    (hincoming : s'.mgr.incoming = s.mgr.incoming ++ new) : EntriesInv s' := by
  have hok : ∀ {pc}, PassOk s pc → PassOk s' pc := by
    intro pc hpc
    refine ⟨?_, fun hp => by rw [hbefore, hpending]; exact hpc.swept hp⟩
    rw [hretired, hincoming, hdeleted, hpending]
    have hswap : (new ++ s.mgr.incoming).Perm (s.mgr.incoming ++ new) := List.perm_append_comm
    have hall := hpc.placed.append_left new
    rw [← List.append_assoc, ← List.append_assoc] at hall
    exact hall.trans ((hswap.append_right _).append_right _)
  refine ⟨?_, ?_, ?_, ?_, ?_, ?_, ?_⟩
  · rw [hpass]
    exact h.one
  · rw [hpass, hreclaiming]
    exact h.held
  · intro t ht
    rw [hpass] at ht ⊢
    exact hok (h.busy ht)
  · intro hidle
    rw [hpass] at hidle
    exact hok (h.rest hidle)
  · rw [hfreed, hdeleted]
    exact h.freed
  · rw [hdeleted]
    exact h.safe
  · rw [hpasses]
    exact h.kept

/-- A step of a pass frees what the history says. -/
theorem passStep_freed {participants : List κ} {j : ℕ} {m m' : EpochManager κ O} {pc pc' : PassPc κ}
    (hstep : passStep participants j m pc = some (m', pc')) :
    m'.freed = ((deletes m.pending pc).map fun p => p.1.ptr) ++ m.freed := by
  cases pc with
  | idle => cases hstep
  | drain =>
    simp only [passStep] at hstep
    split_ifs at hstep
    · cases hstep
      rfl
    · obtain ⟨e, -, hstep⟩ := Option.map_eq_some_iff.1 hstep
      cases hstep
      rfl
  | scan slots minEpoch => cases slots <;> cases hstep <;> rfl
  | sweep i kept freed safeEpoch =>
    cases he : m.pending[i]? with
    | none =>
      simp only [passStep, he] at hstep
      cases hstep
      simp [deletes, he]
    | some e =>
      simp only [passStep, he] at hstep
      rw [deletes_sweep he]
      split_ifs at hstep ⊢ <;> cases hstep <;> rfl
  | tryReclaim | count =>
    simp only [passStep] at hstep
    split_ifs at hstep <;> cases hstep <;> rfl
  | minActiveEpoch | release =>
    cases hstep
    rfl

/-- A reclaimer stays one until it releases `reclaiming`. -/
theorem passStep_reclaims {participants : List κ} {j : ℕ} {m m' : EpochManager κ O}
    {pc pc' : PassPc κ} (hpc : pc.reclaims = true)
    (hstep : passStep participants j m pc = some (m', pc')) :
    (pc'.reclaims = true ∧ m'.reclaiming = m.reclaiming) ∨ pc' = .idle := by
  revert hstep
  fun_cases passStep participants j m pc with
  | case1 | case2 | case3 => cases hpc
  | case5 =>
    intro hstep
    obtain ⟨e, -, hstep⟩ := Option.map_eq_some_iff.1 hstep
    cases hstep
    exact .inl ⟨rfl, rfl⟩
  | case14 =>
    intro hstep
    cases hstep
    exact .inr rfl
  | _ =>
    intro hstep
    cases hstep
    exact .inl ⟨rfl, rfl⟩

/-- What a step frees has an epoch below the safe one. -/
theorem safe_of_mem_deletes {pending : List (Retired O)} {pc : PassPc κ} {p : Retired O × ℕ}
    (hp : p ∈ deletes pending pc) : p.1.epoch < p.2 := by
  cases pc with
  | sweep i kept freed safeEpoch =>
    obtain ⟨e, he, rfl⟩ := List.mem_map.1 hp
    rw [Option.mem_toList, Option.filter_eq_some_iff] at he
    exact of_decide_eq_true he.2
  | idle | tryReclaim | drain | minActiveEpoch | scan | count | release => cases hp

/-- A sweep that ends has kept the entries it must keep. -/
theorem PassOk.after {s : ReclaimState κ O ω ι} {pc : PassPc κ} (h : PassOk s pc) {p : Pass O}
    (hp : p ∈ endsPass s.before s.mgr.pending pc) :
    p.after = p.before.filter fun e => p.safeEpoch ≤ e.epoch := by
  cases pc with
  | sweep i kept freed safeEpoch =>
    simp only [endsPass] at hp
    split_ifs at hp with hlen
    · rw [List.mem_singleton.1 hp]
      exact (h.swept rfl).resize (List.getElem?_eq_none_iff.2 hlen)
    · cases hp
  | idle | tryReclaim | drain | minActiveEpoch | scan | count | release => cases hp

variable [DecidableEq ι]

/-- The invariant after an access of a reclaimer. -/
theorem EntriesInv.pass {participants : List κ} {j : ℕ} {s : ReclaimState κ O ω ι} {t : ι}
    {m : EpochManager κ O} {pc : PassPc κ} (h : EntriesInv s) (ht : (s.pass t).reclaims)
    (hstep : passStep participants j s.mgr (s.pass t) = some (m, pc)) :
    EntriesInv { s.record (s.pass t) with
      mgr := m, pass := Function.update s.pass t pc } := by
  have hok : PassOk { s.record (s.pass t) with
      mgr := m, pass := Function.update s.pass t pc } pc := (h.busy ht).step ht hstep
  have hne : ∀ {u}, u ≠ t → ¬ (s.pass u).reclaims := fun hu hu' => hu (h.one hu' ht)
  have hupd : ∀ {u}, (Function.update s.pass t pc u).reclaims → u = t ∧ pc.reclaims := by
    intro u hu
    by_cases hut : u = t
    · subst hut
      exact ⟨rfl, by simpa using hu⟩
    · rw [Function.update_of_ne hut] at hu
      exact absurd hu (hne hut)
  have hpc := passStep_reclaims ht hstep
  refine ⟨fun hu hv => (hupd hu).1.trans (hupd hv).1.symm, fun hu => ?_, fun {u} hu => ?_,
    fun hidle => ?_, ?_, fun p hp => ?_, fun p hp => ?_⟩
  · rcases hpc with ⟨-, hreclaiming⟩ | rfl
    · exact hreclaiming.trans (h.held ht)
    · cases (hupd hu).2
  · obtain ⟨rfl, -⟩ := hupd hu
    change PassOk _ (Function.update s.pass u pc u)
    rw [Function.update_self]
    exact hok
  · rcases hpc with ⟨hreclaims, -⟩ | rfl
    · refine absurd ?_ (hidle t)
      simpa using hreclaims
    · exact hok
  · change m.freed = (deletes s.mgr.pending (s.pass t) ++ s.deleted).map _
    rw [passStep_freed hstep, h.freed, List.map_append]
  · rcases List.mem_append.1 hp with hp | hp
    · exact safe_of_mem_deletes hp
    · exact h.safe p hp
  · rcases List.mem_append.1 hp with hp | hp
    · exact (h.busy ht).after hp
    · exact h.kept p hp

/-- A thread that does not reclaim moves to where it does not reclaim. -/
theorem EntriesInv.move {s : ReclaimState κ O ω ι} {t : ι} {pc : PassPc κ} (h : EntriesInv s)
    (ht : ¬ (s.pass t).reclaims) (hpc : ¬ pc.reclaims) :
    EntriesInv { s with pass := Function.update s.pass t pc } := by
  have hsame : ∀ {u}, (Function.update s.pass t pc u).reclaims ↔ (s.pass u).reclaims := by
    intro u
    by_cases hu : u = t
    · subst hu
      rw [Function.update_self]
      exact iff_of_false hpc ht
    · rw [Function.update_of_ne hu]
  refine ⟨fun hu hv => h.one (hsame.1 hu) (hsame.1 hv), fun hu => h.held (hsame.1 hu),
    fun {u} hu => ?_,
    fun hidle => ⟨(h.rest fun u hu => hidle u (hsame.2 hu)).placed, fun hp => by cases hp⟩,
    h.freed, h.safe, h.kept⟩
  have hbusy := h.busy (hsame.1 hu)
  have hut : u ≠ t := by
    rintro rfl
    exact ht (hsame.1 hu)
  change PassOk _ (Function.update s.pass t pc u)
  rw [Function.update_of_ne hut]
  exact ⟨hbusy.placed, hbusy.swept⟩

/-- A thread wins `reclaiming`. -/
theorem EntriesInv.win {s : ReclaimState κ O ω ι} (h : EntriesInv s)
    (hflag : s.mgr.reclaiming = false) (t : ι) :
    EntriesInv { s with
      mgr := { s.mgr with reclaiming := true }, pass := Function.update s.pass t .drain } := by
  -- The flag is free, so no thread reclaims, and `t` is the only one now.
  have hrest : ∀ u, ¬ (s.pass u).reclaims := fun u hu => by
    rw [h.held hu] at hflag
    cases hflag
  have hupd : ∀ {u}, (Function.update s.pass t PassPc.drain u).reclaims → u = t := by
    intro u hu
    by_contra hut
    rw [Function.update_of_ne hut] at hu
    exact hrest u hu
  refine ⟨fun hu hv => (hupd hu).trans (hupd hv).symm, fun _ => rfl, fun {u} hu => ?_,
    fun hidle => absurd (by simp [PassPc.reclaims]) (hidle t), h.freed, h.safe, h.kept⟩
  obtain rfl := hupd hu
  change PassOk _ (Function.update s.pass u PassPc.drain u)
  rw [Function.update_self]
  exact ⟨(h.rest hrest).placed, fun hp => by cases hp⟩

/-- Outside a pass a thread has no access. -/
theorem not_reclaims_cases {pc : PassPc κ} (h : ¬ pc.reclaims) : pc = .idle ∨ pc = .tryReclaim := by
  cases pc with
  | idle => exact .inl rfl
  | tryReclaim => exact .inr rfl
  | drain | minActiveEpoch | scan | sweep | count | release => exact absurd rfl h

variable [DecidableEq κ] [DecidableEq ω]

/-- A step keeps the invariant. -/
theorem EntriesInv.step {participants : List κ} {s s' : ReclaimState κ O ω ι}
    {a : ReclaimAct κ O ω ι} (h : EntriesInv s) (hstep : s.step participants a = some s') :
    EntriesInv s' := by
  cases a with
  | retirePtr w e =>
    simp only [ReclaimState.step] at hstep
    split at hstep <;> cases hstep
    exact h.of_frame [] rfl rfl rfl rfl rfl rfl rfl rfl (List.append_nil _).symm
  | retire w =>
    simp only [ReclaimState.step] at hstep
    split at hstep <;> cases hstep
    · exact h.of_frame [_] rfl rfl rfl rfl rfl rfl rfl rfl rfl
    · exact h.of_frame [] rfl rfl rfl rfl rfl rfl rfl rfl (List.append_nil _).symm
  | tryReclaim t =>
    simp only [ReclaimState.step] at hstep
    split at hstep <;> cases hstep
    rename_i hidle
    exact h.move (by simp [hidle, PassPc.reclaims]) (by simp [PassPc.reclaims])
  | pass t j =>
    obtain ⟨⟨m, pc⟩, hpass, hs'⟩ := Option.map_eq_some_iff.1 hstep
    cases hs'
    by_cases ht : (s.pass t).reclaims
    · exact h.pass ht hpass
    · rcases not_reclaims_cases ht with hpc | hpc <;> rw [hpc] at hpass ht
      · cases hpass
      · simp only [passStep] at hpass
        rw [hpc]
        split_ifs at hpass with hflag
        · cases hpass
          exact h.move (by rw [hpc]; exact ht) (by simp [PassPc.reclaims])
        · cases hpass
          exact h.win (Bool.eq_false_iff.2 hflag) t
  | advance =>
    cases hstep
    exact h.of_frame [] rfl rfl rfl rfl rfl rfl rfl rfl (List.append_nil _).symm
  | store k e =>
    cases hstep
    exact h.of_frame [] rfl rfl rfl rfl rfl rfl rfl rfl (List.append_nil _).symm

/-- The state with another vector `pending`. -/
def ReclaimState.withPending (s : ReclaimState κ O ω ι) (pending : List (Retired O)) :
    ReclaimState κ O ω ι :=
  { s with mgr := { s.mgr with pending := pending } }

/-- No step but those of the thread that won `reclaiming` reads or writes `pending`. -/
theorem step_withPending (participants : List κ) (s : ReclaimState κ O ω ι)
    {a : ReclaimAct κ O ω ι} (ha : ∀ t j, a = .pass t j → ¬ (s.pass t).reclaims)
    (pending : List (Retired O)) :
    (s.withPending pending).step participants a =
      (s.step participants a).map fun s' => s'.withPending pending := by
  cases a with
  | retirePtr w e | retire w =>
    simp only [ReclaimState.step, ReclaimState.withPending]
    cases s.retire w <;> rfl
  | tryReclaim t =>
    simp only [ReclaimState.step, ReclaimState.withPending]
    cases s.pass t <;> rfl
  | pass t j =>
    simp only [ReclaimState.step, ReclaimState.withPending]
    rcases not_reclaims_cases (ha t j rfl) with hpc | hpc <;> rw [hpc]
    · rfl
    · simp only [passStep]
      split_ifs <;> rfl
  | advance | store => rfl

/-- What is claimed of a state: at most one thread reclaims, and it holds the flag; every retired
entry is in exactly one of `incoming`, the entries that `pending` stands for to the reclaimer, and
the entries that were passed to their deleters; those had an epoch below the safe one of their pass;
a sweep kept exactly the others, in their order; and only the thread that won `reclaiming` touches
`pending`. -/
structure Conserves (participants : List κ) (s : ReclaimState κ O ω ι) : Prop where
  one : ∀ t u, (s.pass t).reclaims → (s.pass u).reclaims → t = u
  held : ∀ t, (s.pass t).reclaims → s.mgr.reclaiming = true
  placed : ∃ live, s.retired.Perm (s.mgr.incoming ++ live ++ s.deleted.map Prod.fst) ∧
    (∀ t, (s.pass t).reclaims → (s.pass t).live s.mgr.pending = live) ∧
    ((∀ t, ¬ (s.pass t).reclaims) → s.mgr.pending = live)
  freed : s.mgr.freed = s.deleted.map fun p => p.1.ptr
  safe : ∀ p ∈ s.deleted, p.1.epoch < p.2
  kept : ∀ p ∈ s.passes, p.after = p.before.filter fun e => p.safeEpoch ≤ e.epoch
  touches : ∀ a : ReclaimAct κ O ω ι, (∀ t j, a = .pass t j → ¬ (s.pass t).reclaims) →
    ∀ pending, (s.withPending pending).step participants a =
      (s.step participants a).map fun s' => s'.withPending pending

/-- The invariant says where the entries are. -/
theorem EntriesInv.conserves {s : ReclaimState κ O ω ι} (h : EntriesInv s)
    (participants : List κ) : Conserves participants s where
  one _ _ := h.one
  held _ := h.held
  placed := by
    by_cases hbusy : ∃ t, (s.pass t).reclaims
    · obtain ⟨t, ht⟩ := hbusy
      refine ⟨_, (h.busy ht).placed, fun u hu => ?_, fun hidle => absurd ht (hidle t)⟩
      rw [h.one hu ht]
    · have hidle : ∀ t, ¬ (s.pass t).reclaims := fun t ht => hbusy ⟨t, ht⟩
      exact ⟨_, (h.rest hidle).placed, fun t ht => absurd ht (hidle t), fun _ => rfl⟩
  freed := h.freed
  safe := h.safe
  kept := h.kept
  touches _ ha := step_withPending participants s ha

/-- Whatever the interleaving, no retired entry is lost and none is freed twice. -/
theorem reclaim_conserves (participants : List κ) {as : List (ReclaimAct κ O ω ι)}
    {s : ReclaimState κ O ω ι} (hrun : Lts.run (ReclaimState.step participants) .init as = some s) :
    Conserves participants s :=
  (Lts.run_inv (fun h hstep => EntriesInv.step h hstep) EntriesInv.init hrun).conserves participants

/-- Two entries are retired, and the pass frees the one that is old enough. -/
theorem reclaim_conserves_two :
    ∃ s, Lts.run (ReclaimState.step (κ := Unit) (O := ℕ) (ω := Unit) (ι := Unit) [()]) .init
      [.retirePtr () ⟨7, 0⟩, .retire (), .retire (), .retirePtr () ⟨8, 5⟩, .retire (), .advance,
        .tryReclaim (), .pass () 0, .pass () 1, .pass () 0, .pass () 0, .pass () 0, .pass () 0,
        .pass () 0, .pass () 0, .pass () 0] = some s ∧ Conserves [()] s :=
  ⟨_, (Option.some_get (x := Lts.run _ _ _) (by decide)).symm,
    reclaim_conserves [()] (Option.some_get (x := Lts.run _ _ _) (by decide)).symm⟩

end

end JLibScheduler.Epochs
