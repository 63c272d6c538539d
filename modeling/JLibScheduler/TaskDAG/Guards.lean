import JLibScheduler.TaskDAG.Fires

/-!
# The guards on one slot

`EpochGuard` stores the epoch in its slot when it is constructed and `SIZE_MAX` when it is
destroyed, whatever other guard is alive on the slot. A gate that fires inside a traversal is
traversed by the same context, on the same slot, and a slot is shared by the threads with one
`thread_id`; the slot of a guard that is alive holds an epoch in every state of a run exactly when
no guard is destroyed while another one is alive on its slot.
-/

namespace JLibScheduler.TaskDAG

open Epochs

/-- The call is inside a guard. -/
def Frame.guarded : Frame → Nat
  | .forEach _ _ | .listBody => 1
  | _ => 0

/-- The next access of the call destroys its guard. -/
def Frame.leaves : Frame → Bool
  | .forEach _ [] | .listBody => true
  | _ => false

/-- The epoch that the next access of the call stores in its slot. -/
def Frame.epoch? : Frame → Option Nat
  | .guardStore _ epoch | .listStore epoch => some epoch
  | _ => none

section
variable {κ ι : Type} [DecidableEq κ]

/-- How many guards are alive on the slot. -/
def alive (k : κ) (ctxs : List (Ctx κ)) : Nat :=
  (ctxs.map fun c => if c.slot = k then c.total Frame.guarded else 0).sum

/-- The slot of every guard that is alive holds an epoch that is not larger than the global one,
and not `SIZE_MAX`. -/
def GuardsOk (s : State κ ι) : Prop :=
  ∀ c ∈ s.ctxs, ∀ f ∈ c.stack, f.guarded = 1 →
    s.shared.mgr.localEpoch c.slot ≤ s.shared.mgr.globalEpoch ∧
      s.shared.mgr.localEpoch c.slot ≠ SizeT.max

/-- The step destroys no guard while another one is alive on its slot. -/
def Alone (s : State κ ι) : Act κ ι → Prop
  | .step j _ => ∀ c ∈ s.ctxs[j]?, ∀ f ∈ c.stack.head?, f.leaves = true → alive c.slot s.ctxs = 1
  | _ => True

end

section
variable {κ ι : Type} [DecidableEq κ] {g : Graph} {participants : List κ} {s s' : State κ ι}
  {ctxs : List (Ctx κ)} {c c' : Ctx κ} {k : κ} {j : Nat} {f : Frame} {rest : List Frame}

/-! ## Counting the guards -/

theorem alive_pos (hc : c ∈ ctxs) (hf : f ∈ c.stack) (hg : f.guarded = 1) :
    0 < alive c.slot ctxs := by
  have h₁ : f.guarded ≤ c.total Frame.guarded :=
    List.single_le_sum (fun _ _ => Nat.zero_le _) _ (List.mem_map_of_mem hf)
  have h₂ : (if c.slot = c.slot then c.total Frame.guarded else 0) ≤ alive c.slot ctxs :=
    List.single_le_sum (fun _ _ => Nat.zero_le _) _
      (List.mem_map_of_mem (f := fun x : Ctx κ =>
        if x.slot = c.slot then x.total Frame.guarded else 0) hc)
  rw [if_pos rfl] at h₂
  omega

/-- A positive count is that of some guard. -/
theorem exists_guarded (h : 0 < alive k ctxs) :
    ∃ c ∈ ctxs, c.slot = k ∧ ∃ f ∈ c.stack, f.guarded = 1 := by
  by_contra hno
  refine h.ne' (List.sum_eq_zero fun x hx => ?_)
  obtain ⟨c, hc, rfl⟩ := List.mem_map.1 hx
  split_ifs with hk
  · refine List.sum_eq_zero fun y hy => ?_
    obtain ⟨f, hf, rfl⟩ := List.mem_map.1 hy
    by_contra hne
    refine hno ⟨c, hc, hk, f, hf, ?_⟩
    cases f <;> simp_all [Frame.guarded]
  · rfl

/-- `GuardsOk`, by slot. -/
theorem guardsOk_iff : GuardsOk s ↔ ∀ k, 0 < alive k s.ctxs →
    s.shared.mgr.localEpoch k ≤ s.shared.mgr.globalEpoch ∧
      s.shared.mgr.localEpoch k ≠ SizeT.max := by
  constructor
  · intro h k hk
    obtain ⟨c, hc, rfl, f, hf, hg⟩ := exists_guarded hk
    exact h c hc f hf hg
  · intro h c hc f hf hg
    exact h c.slot (alive_pos hc hf hg)

/-- What the step of a context changes in the count. -/
theorem alive_set (c' : Ctx κ) (h : ctxs[j]? = some c) (hslot : c'.slot = c.slot) (k : κ) :
    alive k (ctxs.set j c') + (if c.slot = k then c.total Frame.guarded else 0) =
      alive k ctxs + if c.slot = k then c'.total Frame.guarded else 0 := by
  have := Sums.map_set (b := c') (φ := fun c => if c.slot = k then c.total Frame.guarded else 0) h
  simp only [hslot] at this
  exact this

/-! ## One step -/

/-- What one access of a call does to the guards: it constructs one, destroys one, or neither. -/
theorem frameStep_guards (accepted : Bool) {m : Shared κ} :
    ((∃ e, f.epoch? = some e ∧ f.guarded = 0 ∧
        ((frameStep g k accepted m f).2.map Frame.guarded).sum = 1 ∧
        (frameStep g k accepted m f).1.mgr = m.mgr.store k e) ∨
      (f.leaves = true ∧ f.guarded = 1 ∧
        ((frameStep g k accepted m f).2.map Frame.guarded).sum = 0 ∧
        (frameStep g k accepted m f).1.mgr = m.mgr.store k SizeT.max) ∨
      (f.leaves = false ∧ ((frameStep g k accepted m f).2.map Frame.guarded).sum = f.guarded ∧
        (frameStep g k accepted m f).1.mgr.localEpoch = m.mgr.localEpoch)) ∧
    (frameStep g k accepted m f).1.mgr.globalEpoch = m.mgr.globalEpoch ∧
    ∀ f' ∈ (frameStep g k accepted m f).2, ∀ e ∈ f'.epoch?, e = m.mgr.globalEpoch := by
  fun_cases frameStep g k accepted m f with
  | case12 n d rest hor left =>
    split_ifs <;> simp [Frame.epoch?, Frame.guarded, Frame.leaves]
  | _ =>
    simp [Frame.epoch?, Frame.guarded, Frame.leaves, EpochManager.store, EpochManager.enqueue,
      EpochManager.countRetired]

/-- What a step keeps that destroys no guard while another one is alive on its slot. -/
structure SlotInv (s : State κ ι) : Prop where
  alive : ∀ k, 0 < alive k s.ctxs → s.shared.mgr.localEpoch k ≤ s.shared.mgr.globalEpoch ∧
    s.shared.mgr.localEpoch k < SizeT.max
  loaded : ∀ c ∈ s.ctxs, ∀ f ∈ c.stack, ∀ e ∈ f.epoch?, e ≤ s.shared.mgr.globalEpoch

theorem SlotInv.guardsOk (h : SlotInv s) : GuardsOk s :=
  guardsOk_iff.2 fun k hk => ⟨(h.alive k hk).1, (h.alive k hk).2.ne⟩

/-- A call in which no guard is alive, and that will store no epoch, is made. -/
theorem SlotInv.call (h : SlotInv s) {shared : Shared κ} (hmgr : shared.mgr = s.shared.mgr)
    (hc : s.ctxs[j]? = some c) (hg : f.guarded = 0) (he : f.epoch? = none) :
    SlotInv { s with shared, ctxs := s.ctxs.set j { c with stack := f :: c.stack } } := by
  refine ⟨fun k hk => ?_, fun x hx y hy e hye => ?_⟩
  · have hset := alive_set { c with stack := f :: c.stack } hc rfl k
    have htotal : Ctx.total Frame.guarded { c with stack := f :: c.stack } =
        c.total Frame.guarded := by
      simp [Ctx.total, hg]
    rw [htotal] at hset
    dsimp only at hk ⊢
    rw [hmgr]
    exact h.alive k (by omega)
  · dsimp only
    rw [hmgr]
    rcases List.mem_or_eq_of_mem_set hx with hx | rfl
    · exact h.loaded x hx y hy e hye
    · rcases List.mem_cons.1 hy with rfl | hy
      · rw [he] at hye; cases hye
      · exact h.loaded c (List.mem_of_getElem? hc) y hy e hye

/-- The counts after the next access of a call. -/
theorem alive_frame (fs : List Frame) (hc : s.ctxs[j]? = some ⟨k, f :: rest⟩) (k' : κ) :
    alive k' (s.ctxs.set j ⟨k, fs ++ rest⟩) + (if k = k' then f.guarded else 0) =
      alive k' s.ctxs + if k = k' then (fs.map Frame.guarded).sum else 0 := by
  have hset := alive_set ⟨k, fs ++ rest⟩ hc rfl k'
  rw [total_cons, total_append] at hset
  dsimp only at hset
  split_ifs at hset ⊢ <;> omega

/-- A call makes its next access. -/
theorem SlotInv.frame (h : SlotInv s) {accepted : Bool} (hc : s.ctxs[j]? = some ⟨k, f :: rest⟩)
    (hlt : s.shared.mgr.globalEpoch < SizeT.max)
    (halone : f.leaves = true → TaskDAG.alive k s.ctxs = 1) :
    SlotInv { s with
      shared := (frameStep g k accepted s.shared f).1
      ctxs := s.ctxs.set j ⟨k, (frameStep g k accepted s.shared f).2 ++ rest⟩ } := by
  obtain ⟨hguards, hglobal, hepochs⟩ :=
    frameStep_guards (g := g) (k := k) (f := f) accepted (m := s.shared)
  have hmem := List.mem_of_getElem? hc
  refine ⟨fun k' hk' => ?_, fun x hx y hy e hye => ?_⟩
  · have halive := alive_frame (s := s) (frameStep g k accepted s.shared f).2 hc k'
    dsimp only at hk' ⊢
    rw [hglobal]
    by_cases hkk : k = k'
    · subst hkk
      rw [if_pos rfl, if_pos rfl] at halive
      rcases hguards with ⟨e, he, hzero, hone, hmgr⟩ | ⟨hleaves, hone, hzero, hmgr⟩ |
        ⟨-, hsame, hlocal⟩
      · have hself : (s.shared.mgr.store k e).localEpoch k = e := Function.update_self ..
        have hle := h.loaded _ hmem f (.head _) e he
        rw [hmgr, hself]
        omega
      · have := halone hleaves
        omega
      · rw [hlocal]
        exact h.alive k (by omega)
    · rw [if_neg hkk, if_neg hkk] at halive
      have hlocal : (frameStep g k accepted s.shared f).1.mgr.localEpoch k' =
          s.shared.mgr.localEpoch k' := by
        rcases hguards with ⟨e, -, -, -, hmgr⟩ | ⟨-, -, -, hmgr⟩ | ⟨-, -, hlocal⟩
        · rw [hmgr]; exact Function.update_of_ne (Ne.symm hkk) _ _
        · rw [hmgr]; exact Function.update_of_ne (Ne.symm hkk) _ _
        · rw [hlocal]
      rw [hlocal]
      exact h.alive k' (by omega)
  · dsimp only
    rw [hglobal]
    rcases List.mem_or_eq_of_mem_set hx with hx | rfl
    · exact h.loaded x hx y hy e hye
    · rcases List.mem_append.1 hy with hy | hy
      · exact (hepochs y hy e hye).le
      · exact h.loaded _ hmem y (.tail _ hy) e hye

variable [DecidableEq ι]

theorem SlotInv.step {a : Act κ ι} (h : SlotInv s) (halone : Alone s a)
    (hlt : s.shared.mgr.globalEpoch < SizeT.max) (hs : step g participants s a = some s') :
    SlotInv s' := by
  cases a with
  | spawn k =>
    cases hs
    refine ⟨fun k' hk' => h.alive k' ?_, fun c hc f hf => ?_⟩
    · simpa [TaskDAG.alive, Ctx.total] using hk'
    · rcases List.mem_append.1 hc with hc | hc
      · exact h.loaded c hc f hf
      · rw [List.mem_singleton.1 hc] at hf
        cases hf
  | start j n =>
    obtain ⟨c, hc, hs⟩ := Option.bind_eq_some_iff.1 hs
    split_ifs at hs
    cases hs
    exact h.call (f := .wrapper n) rfl hc rfl rfl
  | list j =>
    obtain ⟨c, hc, hs⟩ := Option.bind_eq_some_iff.1 hs
    split_ifs at hs
    cases hs
    exact h.call (f := .listLoad) rfl hc rfl rfl
  | step j accepted =>
    obtain ⟨⟨k, stack⟩, hc, hs⟩ := Option.bind_eq_some_iff.1 hs
    cases stack with
    | nil => cases hs
    | cons f rest =>
      cases hs
      exact h.frame hc hlt (halone _ hc f rfl)
  | tick t i =>
    obtain ⟨⟨m, pc⟩, htick, rfl⟩ := Option.map_eq_some_iff.1 hs
    have hslots := tickStep_localEpoch htick
    have hle := tickStep_globalEpoch htick hlt
    refine ⟨fun k hk => ?_, fun c hc f hf e he => (h.loaded c hc f hf e he).trans hle⟩
    dsimp only
    rw [hslots]
    exact ⟨(h.alive k hk).1.trans hle, (h.alive k hk).2⟩

/-- A step that destroys a guard while another one is alive on its slot leaves `SIZE_MAX` in the
slot of the other. -/
theorem alone_of_guardsOk {a : Act κ ι} (hs : step g participants s a = some s')
    (h : GuardsOk s') : Alone s a := by
  cases a with
  | step j accepted =>
    intro c hc f hf hleaves
    obtain ⟨k, stack⟩ := c
    obtain ⟨c', hc', hs⟩ := Option.bind_eq_some_iff.1 hs
    obtain rfl : c' = ⟨k, stack⟩ := Option.some.inj (hc'.symm.trans hc)
    obtain ⟨rest, rfl⟩ : ∃ rest, stack = f :: rest := by
      cases stack with
      | nil => cases hf
      | cons x rest => cases hf; exact ⟨rest, rfl⟩
    cases hs
    have halive := alive_frame (s := s) (frameStep g k accepted s.shared f).2 hc k
    rw [if_pos rfl, if_pos rfl] at halive
    obtain ⟨⟨e, he, -⟩ | ⟨-, hone, hzero, hmgr⟩ | ⟨hno, -⟩, -⟩ :=
      frameStep_guards (g := g) (k := k) (f := f) accepted (m := s.shared)
    · cases f <;> simp_all [Frame.epoch?, Frame.leaves]
    · by_contra hne
      have hself : (s.shared.mgr.store k SizeT.max).localEpoch k = SizeT.max :=
        Function.update_self ..
      have hbad := (guardsOk_iff.1 h k (by dsimp only at hne ⊢; omega)).2
      dsimp only at hbad
      rw [hmgr] at hbad
      exact hbad hself
    · rw [hleaves] at hno
      cases hno
  | spawn | start | list | tick => trivial

/-! ## Runs -/

/-- In every run in which the global epoch stays below `SIZE_MAX`, the slot of every guard that is
alive holds an epoch, not larger than the global one, in every state exactly when no step destroys
a guard while another one is alive on its slot. -/
theorem epochGuard_discipline_iff {roots : List Nat} {as : List (Act κ ι)}
    (hrun : Lts.run (TaskDAG.step g participants) (State.init g k roots) as = some s)
    (hlt : ∀ p ∈ Lts.visits (TaskDAG.step g participants) (State.init g k roots) as,
      p.1.shared.mgr.globalEpoch < SizeT.max) :
    (∀ t ∈ Lts.states (TaskDAG.step g participants) (State.init g k roots) as, GuardsOk t) ↔
      ∀ p ∈ Lts.visits (TaskDAG.step g participants) (State.init g k roots) as,
        Alone p.1 p.2 := by
  constructor
  · intro h p hp
    obtain ⟨t, ht⟩ := Lts.exists_step_of_mem_visits hrun hp
    exact alone_of_guardsOk ht (h t (Lts.mem_states_of_mem_visits hp ht))
  · intro h t ht
    refine SlotInv.guardsOk (Lts.states_inv_of (I := SlotInv) (G := fun s a => Alone s a ∧
      s.shared.mgr.globalEpoch < SizeT.max) (fun h hgood hs => h.step hgood.1 hgood.2 hs) ?_
      (fun p hp => ⟨h p hp, hlt p hp⟩) t ht)
    exact ⟨fun k' hk' => by simp [State.init, TaskDAG.alive, Ctx.total, Frame.guarded] at hk',
      by simp [State.init, Frame.epoch?]⟩

end

theorem epochGuard_discipline_iff_orRun :
    (∀ t ∈ Lts.states (TaskDAG.step orGraph [0, 1]) (State.init orGraph 0 [1, 2] : State Nat Unit)
        orRun, GuardsOk t) ↔
      ∀ p ∈ Lts.visits (TaskDAG.step orGraph [0, 1])
        (State.init orGraph 0 [1, 2] : State Nat Unit) orRun, Alone p.1 p.2 :=
  epochGuard_discipline_iff (s := (Lts.run (TaskDAG.step orGraph [0, 1])
    (State.init orGraph 0 [1, 2]) orRun).get (by decide)) (Option.some_get _).symm (by decide)

/-- The first root visits the gate, which fires and is traversed on the same slot. -/
def nestedGuardRun : List (Act Nat Unit) :=
  List.replicate 7 (.step 0 true) ++ [.spawn 1, .start 1 1] ++ List.replicate 11 (.step 1 true)

/-- The traversal of a gate leaves `SIZE_MAX` in the slot of the traversal it is nested in. -/
theorem epochGuard_nested : ¬ ∀ (ops : List BuildOp) (g : Graph) (roots : List Nat)
    (as : List (Act Nat Unit)) (s : State Nat Unit), build ops = some g → (pairs ops).Nodup →
      g.submit = some roots → Lts.run (TaskDAG.step g [0, 1]) (State.init g 0 roots) as = some s →
      ∀ c ∈ s.ctxs, ∀ f ∈ c.stack, f.guarded = 1 →
        s.shared.mgr.localEpoch c.slot ≤ s.shared.mgr.globalEpoch ∧
          s.shared.mgr.localEpoch c.slot ≠ SizeT.max := by
  intro h
  have hall := h orOps orGraph [1, 2] nestedGuardRun
    ((Lts.run (TaskDAG.step orGraph [0, 1]) (State.init orGraph 0 [1, 2]) nestedGuardRun).get
      (by decide))
    (Option.some_get _).symm (by decide) (by decide) (Option.some_get _).symm
  exact absurd hall (by decide)

end JLibScheduler.TaskDAG
