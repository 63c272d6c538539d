import JLibScheduler.Epochs.Reclaim

/-!
# The counter of retired entries

`RetirePtr` enqueues its entry first and counts it second; a reclaimer subtracts at the end of its
pass what it has freed. The counter is the number of entries counted less the number subtracted,
modulo `2 ^ 64` (`CountInv.counter`). An entry that is freed and subtracted before the thread that
retired it has come to its `fetch_add` makes it wrap (`not_countOk_wrapped`); it stays within the
entries that are retired and not freed yet, as long as no reclaimer subtracts while fewer entries
are counted than were freed (`countOk_iff`).
-/

namespace JLibScheduler.Epochs

section
variable {κ O ω ι : Type}

/-- The entries that the pass at a place has freed and not subtracted yet are `n`. -/
def PassPc.Tally (n : ℕ) : PassPc κ → Prop
  | .sweep _ _ freed _ | .count freed => freed = n % 2 ^ 64
  | _ => n = 0

/-- Where the pass in progress stands: at `idle` when no thread reclaims. -/
def ReclaimState.InPass (s : ReclaimState κ O ω ι) (pc : PassPc κ) : Prop :=
  (∃ t, s.pass t = pc ∧ pc.reclaims) ∨ ((∀ t, ¬ (s.pass t).reclaims) ∧ pc = .idle)

/-- The threads in `RetirePtr` whose entry is enqueued and not counted yet. -/
def ReclaimState.Retiring (s : ReclaimState κ O ω ι) (retiring : List ω) : Prop :=
  retiring.Nodup ∧ ∀ w, w ∈ retiring ↔ s.retire w = .count

/-- What holds of the counter in every state. -/
structure CountInv (s : ReclaimState κ O ω ι) : Prop where
  entries : EntriesInv s
  subtracted_le : s.subtracted ≤ s.deleted.length
  counter : (s.mgr.retiredCount + s.subtracted) % 2 ^ 64 = s.counted % 2 ^ 64
  lt : s.mgr.retiredCount < 2 ^ 64
  tally : ∀ {pc}, s.InPass pc → pc.Tally (s.deleted.length - s.subtracted)
  retiring : ∃ l, s.Retiring l ∧ s.retired.length = s.counted + l.length

/-- Nothing was counted at the start. -/
theorem CountInv.init : CountInv (ReclaimState.init : ReclaimState κ O ω ι) where
  entries := .init
  subtracted_le := Nat.le_refl 0
  counter := rfl
  lt := by simp [ReclaimState.init, EpochManager.init]
  tally := by
    rintro pc (⟨t, rfl, ht⟩ | ⟨-, rfl⟩)
    · cases ht
    · rfl
  retiring := ⟨[], ⟨List.nodup_nil, fun w => by simp [ReclaimState.init]⟩, rfl⟩

/-- What an access of a reclaimer does to its tally and to the counter. -/
theorem passStep_tally {participants : List κ} {j : ℕ} {s : ReclaimState κ O ω ι}
    {pc pc' : PassPc κ} {m : EpochManager κ O} (hpc : pc.reclaims = true)
    (htally : pc.Tally (s.deleted.length - s.subtracted))
    (hle : s.subtracted ≤ s.deleted.length) (hlt : s.mgr.retiredCount < 2 ^ 64)
    (hstep : passStep participants j s.mgr pc = some (m, pc')) :
    (s.record pc).subtracted ≤ (s.record pc).deleted.length ∧
      pc'.Tally ((s.record pc).deleted.length - (s.record pc).subtracted) ∧
      m.retiredCount < 2 ^ 64 ∧ (m.retiredCount + (s.record pc).subtracted) % 2 ^ 64 =
        (s.mgr.retiredCount + s.subtracted) % 2 ^ 64 := by
  cases pc with
  | idle | tryReclaim => cases hpc
  | drain =>
    simp only [passStep] at hstep
    split_ifs at hstep
    · cases hstep
      exact ⟨hle, htally, hlt, rfl⟩
    · obtain ⟨e, -, hstep⟩ := Option.map_eq_some_iff.1 hstep
      cases hstep
      exact ⟨hle, htally, hlt, rfl⟩
  | minActiveEpoch | release =>
    cases hstep
    exact ⟨hle, htally, hlt, rfl⟩
  | scan slots minEpoch =>
    cases slots with
    | nil =>
      cases hstep
      refine ⟨hle, ?_, hlt, rfl⟩
      change 0 = (s.deleted.length - s.subtracted) % 2 ^ 64
      rw [show s.deleted.length - s.subtracted = 0 from htally, Nat.zero_mod]
    | cons k slots =>
      cases hstep
      exact ⟨hle, htally, hlt, rfl⟩
  | sweep i kept freed safeEpoch =>
    have hfreed : freed = (s.deleted.length - s.subtracted) % 2 ^ 64 := htally
    cases he : s.mgr.pending[i]? with
    | none =>
      have hdel : (s.record (.sweep i kept freed safeEpoch)).deleted = s.deleted := by
        simp [ReclaimState.record, deletes, he]
      simp only [passStep, he] at hstep
      cases hstep
      rw [hdel]
      exact ⟨hle, hfreed, hlt, rfl⟩
    | some e =>
      have hdel : (s.record (.sweep i kept freed safeEpoch)).deleted =
          (if e.epoch < safeEpoch then [(e, safeEpoch)] else []) ++ s.deleted := by
        rw [← deletes_sweep he]
        rfl
      simp only [passStep, he] at hstep
      rw [hdel]
      change s.subtracted ≤ _ ∧ PassPc.Tally (_ - s.subtracted) _ ∧ _ ∧
        (_ + s.subtracted) % 2 ^ 64 = _
      split_ifs at hstep ⊢
      · cases hstep
        refine ⟨?_, ?_, hlt, rfl⟩
        · simp only [List.length_append, List.length_cons, List.length_nil]
          omega
        · change SizeT.add freed 1 = _
          simp only [SizeT.add, List.length_append, List.length_cons, List.length_nil]
          omega
      · cases hstep
        exact ⟨hle, hfreed, hlt, rfl⟩
  | count freed =>
    have hfreed : freed = (s.deleted.length - s.subtracted) % 2 ^ 64 := htally
    refine ⟨Nat.le_refl _, ?_⟩
    change PassPc.Tally (s.deleted.length - s.deleted.length) pc' ∧ _ ∧
      (_ + s.deleted.length) % 2 ^ 64 = _
    rw [Nat.sub_self]
    simp only [passStep] at hstep
    split_ifs at hstep with hzero
    · cases hstep
      exact ⟨rfl, hlt, by omega⟩
    · have hpc' : pc' = .release := by cases hstep; rfl
      have hcount : m.retiredCount = SizeT.sub s.mgr.retiredCount freed := by cases hstep; rfl
      rw [hpc', hcount]
      refine ⟨rfl, ?_, ?_⟩ <;> rw [SizeT.sub] <;> omega

/-- The place of the pass in progress depends on the threads only. -/
theorem inPass_congr {s s' : ReclaimState κ O ω ι} (h : s'.pass = s.pass) {pc : PassPc κ} :
    s'.InPass pc ↔ s.InPass pc := by
  rw [ReclaimState.InPass, ReclaimState.InPass, h]

/-- A step that moves no reclaimer, frees nothing and subtracts nothing keeps the invariant, when it
counts as many entries as it adds to the counter. -/
theorem CountInv.of_frame {s s' : ReclaimState κ O ω ι} (h : CountInv s) (hinv : EntriesInv s')
    (hpass : s'.pass = s.pass) (hdeleted : s'.deleted = s.deleted)
    (hsubtracted : s'.subtracted = s.subtracted) (hlt : s'.mgr.retiredCount < 2 ^ 64)
    (hcounter : (s'.mgr.retiredCount + s.subtracted) % 2 ^ 64 = s'.counted % 2 ^ 64)
    (hretiring : ∃ l, s'.Retiring l ∧ s'.retired.length = s'.counted + l.length) :
    CountInv s' where
  entries := hinv
  subtracted_le := by
    rw [hsubtracted, hdeleted]
    exact h.subtracted_le
  counter := by rwa [hsubtracted]
  lt := hlt
  tally hpc := by
    rw [hsubtracted, hdeleted]
    exact h.tally ((inPass_congr hpass).1 hpc)
  retiring := hretiring

section
variable [DecidableEq ι]

/-- A thread that does not reclaim moves outside the passes. -/
theorem inPass_move {s : ReclaimState κ O ω ι} {t : ι} {pc q : PassPc κ}
    (ht : ¬ (s.pass t).reclaims) (hpc : ¬ pc.reclaims)
    (hq : ReclaimState.InPass { s with pass := Function.update s.pass t pc } q) : s.InPass q := by
  rcases hq with ⟨u, rfl, hu⟩ | ⟨hidle, rfl⟩
  · by_cases hut : u = t
    · subst hut
      refine absurd hu ?_
      simpa using hpc
    · refine .inl ⟨u, ?_, hu⟩
      change _ = Function.update s.pass t pc u
      rw [Function.update_of_ne hut]
  · refine .inr ⟨fun u hu => ?_, rfl⟩
    by_cases hut : u = t
    · subst hut
      exact ht hu
    · refine hidle u ?_
      change (Function.update s.pass t pc u).reclaims = true
      rwa [Function.update_of_ne hut]

/-- The pass in progress stands where its reclaimer does. -/
theorem inPass_reclaimer {s : ReclaimState κ O ω ι} {t : ι} {pc q : PassPc κ} {m : EpochManager κ O}
    (hother : ∀ u, u ≠ t → ¬ (s.pass u).reclaims) (hpc : pc.reclaims ∨ pc = .idle)
    (hq : ReclaimState.InPass { s with mgr := m, pass := Function.update s.pass t pc } q) :
    q = pc := by
  rcases hq with ⟨u, rfl, hu⟩ | ⟨hidle, rfl⟩
  · by_cases hut : u = t
    · subst hut
      exact Function.update_self ..
    · refine absurd ?_ (hother u hut)
      change (Function.update s.pass t pc u).reclaims = true at hu
      rwa [Function.update_of_ne hut] at hu
  · rcases hpc with hpc | rfl
    · refine absurd ?_ (hidle t)
      simpa using hpc
    · rfl

end

/-- The threads that retire, after one of them comes to its count. -/
theorem ReclaimState.Retiring.enqueue [DecidableEq ω] {s s' : ReclaimState κ O ω ι} {l : List ω}
    {w : ω} (h : s.Retiring l) (hw : s.retire w ≠ .count)
    (hretire : s'.retire = Function.update s.retire w .count) : s'.Retiring (w :: l) := by
  refine ⟨List.nodup_cons.2 ⟨fun hmem => hw ((h.2 w).1 hmem), h.1⟩, fun u => ?_⟩
  rw [List.mem_cons, hretire]
  by_cases hu : u = w
  · subst hu
    simp
  · rw [Function.update_of_ne hu, h.2]
    exact or_iff_right hu

/-- The threads that retire, after one of them has counted. -/
theorem ReclaimState.Retiring.count [DecidableEq ω] {s s' : ReclaimState κ O ω ι} {l : List ω}
    {w : ω} (h : s.Retiring l) (hretire : s'.retire = Function.update s.retire w .idle) :
    s'.Retiring (l.erase w) := by
  refine ⟨h.1.erase w, fun u => ?_⟩
  rw [h.1.mem_erase_iff, hretire]
  by_cases hu : u = w
  · subst hu
    simp
  · rw [Function.update_of_ne hu, h.2]
    exact and_iff_right hu

/-- The threads that retire, after one of them calls `RetirePtr`. -/
theorem ReclaimState.Retiring.call [DecidableEq ω] {s s' : ReclaimState κ O ω ι} {l : List ω}
    {w : ω} {pc : RetirePc O} (h : s.Retiring l) (hw : s.retire w ≠ .count) (hpc : pc ≠ .count)
    (hretire : s'.retire = Function.update s.retire w pc) : s'.Retiring l := by
  refine ⟨h.1, fun u => ?_⟩
  rw [hretire]
  by_cases hu : u = w
  · subst hu
    rw [Function.update_self, h.2]
    exact iff_of_false hw hpc
  · rw [Function.update_of_ne hu, h.2]

variable [DecidableEq κ] [DecidableEq ω] [DecidableEq ι]

/-- A reclaimer that subtracts what it freed finds at least as many entries counted as were passed
to their deleters. -/
def Counted (s : ReclaimState κ O ω ι) : ReclaimAct κ O ω ι → Prop
  | .pass t _ => match s.pass t with
    | .count _ => s.deleted.length ≤ s.counted
    | _ => True
  | _ => True

instance (s : ReclaimState κ O ω ι) (a : ReclaimAct κ O ω ι) : Decidable (Counted s a) := by
  unfold Counted
  split
  · split <;> infer_instance
  · infer_instance

/-- A step keeps the invariant of the counter. -/
theorem CountInv.step {participants : List κ} {s s' : ReclaimState κ O ω ι}
    {a : ReclaimAct κ O ω ι} (h : CountInv s) (hstep : s.step participants a = some s') :
    CountInv s' := by
  have hinv : EntriesInv s' := h.entries.step hstep
  obtain ⟨l, hl, hlen⟩ := h.retiring
  cases a with
  | retirePtr w e =>
    simp only [ReclaimState.step] at hstep
    split at hstep <;> cases hstep
    rename_i hidle
    exact h.of_frame hinv rfl rfl rfl h.lt h.counter
      ⟨l, hl.call (by rw [hidle]; simp) (by simp) rfl, hlen⟩
  | retire w =>
    simp only [ReclaimState.step] at hstep
    split at hstep <;> cases hstep
    · rename_i e hpc
      refine h.of_frame hinv rfl rfl rfl h.lt h.counter
        ⟨w :: l, hl.enqueue (by rw [hpc]; simp) rfl, ?_⟩
      rw [List.length_cons, List.length_cons, hlen, Nat.add_assoc]
    · rename_i hpc
      have hcounter := h.counter
      have hmem : w ∈ l := (hl.2 w).2 hpc
      refine h.of_frame hinv rfl rfl rfl (Nat.mod_lt _ (by decide)) ?_
        ⟨l.erase w, hl.count rfl, ?_⟩
      · change (SizeT.add s.mgr.retiredCount 1 + s.subtracted) % 2 ^ 64 = (s.counted + 1) % 2 ^ 64
        rw [SizeT.add]
        omega
      · have hpos : 0 < l.length := List.length_pos_of_mem hmem
        rw [List.length_erase_of_mem hmem]
        change s.retired.length = s.counted + 1 + (l.length - 1)
        omega
  | tryReclaim t =>
    simp only [ReclaimState.step] at hstep
    split at hstep <;> cases hstep
    rename_i hidle
    exact ⟨hinv, h.subtracted_le, h.counter, h.lt, fun hpc => h.tally (inPass_move
      (by simp [hidle, PassPc.reclaims]) (by simp [PassPc.reclaims]) hpc), l, hl, hlen⟩
  | pass t j =>
    obtain ⟨⟨m, pc⟩, hpass, hs'⟩ := Option.map_eq_some_iff.1 hstep
    cases hs'
    by_cases ht : (s.pass t).reclaims
    · have htally := h.tally (.inl ⟨t, rfl, ht⟩)
      obtain ⟨hle, hpc, hlt, hcounter⟩ :=
        passStep_tally ht htally h.subtracted_le h.lt hpass
      refine ⟨hinv, hle, hcounter.trans h.counter, hlt, fun hq => ?_, l, hl, hlen⟩
      have hother : ∀ u, u ≠ t → ¬ (s.pass u).reclaims :=
        fun u hu hu' => hu (h.entries.one hu' ht)
      have hq' := inPass_reclaimer (s := s.record (s.pass t)) hother
        ((passStep_reclaims ht hpass).imp And.left id) hq
      rw [hq']
      exact hpc
    · rcases not_reclaims_cases ht with hpc | hpc <;> rw [hpc] at hpass ht
      · cases hpass
      · simp only [passStep] at hpass
        rw [hpc] at hinv ⊢
        split_ifs at hpass with hflag
        · cases hpass
          exact ⟨hinv, h.subtracted_le, h.counter, h.lt, fun hq => h.tally (inPass_move
            (by rw [hpc]; exact ht) (by simp [PassPc.reclaims]) hq), l, hl, hlen⟩
        · cases hpass
          have hrest : ∀ u, ¬ (s.pass u).reclaims := fun u hu => hflag (h.entries.held hu)
          refine ⟨hinv, h.subtracted_le, h.counter, h.lt, fun hq => ?_, l, hl, hlen⟩
          rw [inPass_reclaimer (s := s) (fun u _ => hrest u) (.inl rfl) hq]
          have hidle : PassPc.Tally (κ := κ) (s.deleted.length - s.subtracted) .idle :=
            h.tally (.inr ⟨hrest, rfl⟩)
          exact hidle
  | advance =>
    cases hstep
    exact h.of_frame hinv rfl rfl rfl h.lt h.counter ⟨l, hl, hlen⟩
  | store k e =>
    cases hstep
    exact h.of_frame hinv rfl rfl rfl h.lt h.counter ⟨l, hl, hlen⟩

end

end JLibScheduler.Epochs
