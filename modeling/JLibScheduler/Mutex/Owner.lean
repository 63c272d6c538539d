import JLibScheduler.Lib.Lts
import JLibScheduler.Mutex.Basic

/-!
# Who owns a mutex

`Inv` gives the owner of a mutex that has not run yet: a fiber that was taken from the queue is the
only owner from that moment (`Pending`), while it is still suspended, and a context that is about to
resume a fiber is the only one, and has it from some queue. The mutex stays locked all the while,
and the fibers acquire it in the order of the queue (`mutex_handOff`).
-/

namespace JLibScheduler.Mutex

open JLibScheduler.Sync (SchedulerMutex)

section
variable {κ ν : Type} {s s' : State κ ν}

/-- The fiber `f` was taken from the queue of `x` and has not returned from `Lock`. -/
structure Pending (s : State κ ν) (x : ν) (f : κ) : Prop where
  taken : s.taken x = s.acquired x ++ [f]
  owns : s.owns x = [f]
  notWaiting : f ∉ (s.mutex x).waitingFibers

/-- The fiber that a context is about to resume. -/
def Pc.wakes : Pc κ ν → Option κ
  | .unboost _ nextFiber => nextFiber
  | .resume nextFiber => some nextFiber
  | _ => none

/-- The mutex that a context is about to give away in `Unlock`. -/
def Pc.gives : Pc κ ν → Option ν
  | .clearHolder x | .unlock x _ => some x
  | _ => none

/-- A context that waits for a mutex, or has it after a wait. -/
def Pc.waited : Pc κ ν → Option ν
  | .suspended x | .setHolder x true => some x
  | _ => none

/-- The invariant. -/
structure Inv (s : State κ ν) : Prop where
  owner : ∀ x, (s.owns x).length = (s.mutex x).locked.toNat
  locked : ∀ x, (s.mutex x).waitingFibers ≠ [] → (s.mutex x).locked = true
  suspended : ∀ x, ∀ f ∈ (s.mutex x).waitingFibers, s.pc f = .suspended x
  nodup : ∀ x, (s.mutex x).waitingFibers.Nodup
  queued : ∀ x, s.queued x = s.taken x ++ (s.mutex x).waitingFibers
  taken : ∀ x, s.taken x = s.acquired x ∨ ∃ f, Pending s x f ∧ (s.pc f).waited = some x
  setHolder : ∀ c x, s.pc c = .setHolder x true → Pending s x c
  resumed : ∀ f, s.resumed f = true → ∃ x, s.pc f = .suspended x ∧ Pending s x f
  wakes : ∀ d f, (s.pc d).wakes = some f →
    s.resumed f = false ∧ ∃ x, s.pc f = .suspended x ∧ Pending s x f
  wakesOnce : ∀ d d' f, (s.pc d).wakes = some f → (s.pc d').wakes = some f → d = d'
  gives : ∀ c x, (s.pc c).gives = some x → c ∈ s.owns x

/-- The invariant holds at the start. -/
theorem Inv.init {hiPri : κ → UInt8} : Inv (State.init hiPri : State κ ν) where
  owner x := rfl
  locked x hx := absurd rfl hx
  suspended x f hf := by cases hf
  nodup x := List.nodup_nil
  queued x := rfl
  taken x := .inl rfl
  setHolder c x hc := by cases hc
  resumed f hf := by cases hf
  wakes d f hd := by cases hd
  wakesOnce d d' f hd := by cases hd
  gives c x hc := by cases hc

/-- A mutex has one owner at most. -/
theorem Inv.owns_of_mem {c : κ} {x : ν} (h : Inv s) (hc : c ∈ s.owns x) : s.owns x = [c] := by
  have hlen := h.owner x
  have hle := Bool.toNat_le (s.mutex x).locked
  match heq : s.owns x with
  | [] =>
    rw [heq] at hc
    cases hc
  | [d] =>
    rw [heq, List.mem_singleton] at hc
    rw [hc]
  | _ :: _ :: _ =>
    rw [heq] at hlen
    simp only [List.length_cons] at hlen
    omega

/-- A mutex with an owner is locked. -/
theorem Inv.locked_of_mem {c : κ} {x : ν} (h : Inv s) (hc : c ∈ s.owns x) :
    (s.mutex x).locked = true := by
  have hlen := h.owner x
  rw [h.owns_of_mem hc] at hlen
  cases hl : (s.mutex x).locked with
  | true => rfl
  | false =>
    rw [hl] at hlen
    cases hlen

/-- A mutex that is not locked has no owner and no queue. -/
theorem Inv.free {x : ν} (h : Inv s) (hfree : (s.mutex x).locked = false) :
    s.owns x = [] ∧ (s.mutex x).waitingFibers = [] := by
  refine ⟨List.length_eq_zero_iff.1 ?_, ?_⟩
  · rw [h.owner x, hfree]
    rfl
  · by_contra hne
    rw [h.locked x hne] at hfree
    cases hfree

/-- When a mutex is not handed over, the fibers that were taken from its queue have acquired it. -/
theorem Inv.taken_eq {x : ν} (h : Inv s) (hnot : ∀ f, ¬ Pending s x f) :
    s.taken x = s.acquired x :=
  (h.taken x).resolve_right fun ⟨f, hf, _⟩ => hnot f hf

/-- What a step that leaves the mutex `x` alone does to a hand-over of it. -/
theorem Pending.congr {x : ν} {f : κ} (h : Pending s x f) (htaken : s'.taken x = s.taken x)
    (hacquired : s'.acquired x = s.acquired x) (howns : s'.owns x = s.owns x)
    (hmutex : s'.mutex x = s.mutex x) : Pending s' x f :=
  ⟨by rw [htaken, hacquired, h.taken], howns.trans h.owns, hmutex ▸ h.notWaiting⟩

/-- A fiber that a mutex is handed to waits for it, or is about to return from `Lock`. -/
theorem Inv.waited_of_pending {x : ν} {f : κ} (h : Inv s) (hf : Pending s x f) :
    (s.pc f).waited = some x := by
  rcases h.taken x with heq | ⟨g, hg, hw⟩
  · have := hf.taken
    rw [heq] at this
    simp at this
  · have := hf.owns.symm.trans hg.owns
    cases this
    exact hw

/-- A fiber that is suspended on a mutex, and to which some mutex is handed, gets that one. -/
theorem Inv.pending_unique {x y : ν} {f : κ} (h : Inv s) (hpc : s.pc f = .suspended x)
    (hf : Pending s y f) : y = x := by
  have := h.waited_of_pending hf
  rw [hpc] at this
  cases this
  rfl

end

section
variable {κ ν : Type} [DecidableEq κ] {s s' : State κ ν}

/-- The end of a boost changes priorities only. -/
theorem unboost_frame (s : State κ ν) (wasHolder : Option κ) :
    ∃ hiPri priorityBoost, wasHolder.elim s (unboostTaskPriority s) =
      { s with hiPri := hiPri, priorityBoost := priorityBoost } := by
  cases wasHolder with
  | none => exact ⟨s.hiPri, s.priorityBoost, rfl⟩
  | some t =>
    simp only [Option.elim_some, unboostTaskPriority]
    split
    · exact ⟨_, _, rfl⟩
    · exact ⟨s.hiPri, s.priorityBoost, rfl⟩

/-- The rule for steps of one context that concern no queue and no owner. -/
theorem Inv.plain {c : κ} {p : Pc κ ν} (h : Inv s) (hpc : s'.pc = Function.update s.pc c p)
    (hmutex : s'.mutex = s.mutex) (howns : s'.owns = s.owns) (hqueued : s'.queued = s.queued)
    (htaken : s'.taken = s.taken) (hacquired : s'.acquired = s.acquired)
    (hresumed : s'.resumed = s.resumed) (hc : (s.pc c).waited = none) (hp : p.waited = none)
    (hwakes : ∀ f, p.wakes = some f → (s.pc c).wakes = some f)
    (hgives : ∀ x, p.gives = some x → c ∈ s.owns x) : Inv s' := by
  have hpending : ∀ x f, Pending s x f → Pending s' x f := fun x f hf =>
    hf.congr (by rw [htaken]) (by rw [hacquired]) (by rw [howns]) (by rw [hmutex])
  have hsusp : ∀ f x, s.pc f = .suspended x → s'.pc f = .suspended x := by
    intro f x hf
    have hne : f ≠ c := by
      rintro rfl
      rw [hf] at hc
      cases hc
    rw [hpc, Function.update_of_ne hne, hf]
  have hwakes' : ∀ d f, (s'.pc d).wakes = some f → (s.pc d).wakes = some f := by
    intro d f hd
    rw [hpc, Function.update_apply] at hd
    split at hd
    next heq => exact heq ▸ hwakes f hd
    next => exact hd
  refine ⟨fun x => ?_, fun x hx => ?_, fun x f hf => ?_, fun x => ?_, fun x => ?_, fun x => ?_,
    fun d x hd => ?_, fun f hf => ?_, fun d f hd => ?_, fun d d' f hd hd' => ?_, fun d x hd => ?_⟩
  · rw [howns, hmutex]
    exact h.owner x
  · rw [hmutex] at hx ⊢
    exact h.locked x hx
  · exact hsusp f x (h.suspended x f (hmutex ▸ hf))
  · rw [hmutex]
    exact h.nodup x
  · rw [hqueued, htaken, hmutex]
    exact h.queued x
  · rw [htaken, hacquired]
    refine (h.taken x).imp_right fun ⟨f, hf, hw⟩ => ⟨f, hpending x f hf, ?_⟩
    have hne : f ≠ c := by
      rintro rfl
      rw [hc] at hw
      cases hw
    rw [hpc, Function.update_of_ne hne, hw]
  · rw [hpc, Function.update_apply] at hd
    split at hd
    · rw [hd] at hp
      cases hp
    · exact hpending x d (h.setHolder d x hd)
  · obtain ⟨x, hx, hf⟩ := h.resumed f (hresumed ▸ hf)
    exact ⟨x, hsusp f x hx, hpending x f hf⟩
  · obtain ⟨hr, x, hx, hf⟩ := h.wakes d f (hwakes' d f hd)
    exact ⟨hresumed ▸ hr, x, hsusp f x hx, hpending x f hf⟩
  · exact h.wakesOnce d d' f (hwakes' d f hd) (hwakes' d' f hd')
  · rw [howns]
    rw [hpc, Function.update_apply] at hd
    split at hd
    next heq => exact heq ▸ hgives x hd
    next => exact h.gives d x hd

/-- The rule for steps of one context that change whether it was resumed: what becomes of the
hand-overs is left to the step. -/
theorem Inv.handed {c : κ} {p : Pc κ ν} (h : Inv s) (hpc : s'.pc = Function.update s.pc c p)
    (hmutex : s'.mutex = s.mutex) (howns : s'.owns = s.owns) (hqueued : s'.queued = s.queued)
    (htaken : s'.taken = s.taken) (hwaiting : ∀ x, c ∉ (s.mutex x).waitingFibers)
    (hp : p.wakes = none ∧ p.gives = none)
    (hpending : ∀ x f, f ≠ c → Pending s x f → Pending s' x f)
    (hc : ∀ x, Pending s x c → s'.taken x = s'.acquired x ∨ Pending s' x c ∧ p.waited = some x)
    (hnot : ∀ x, (∀ f, ¬ Pending s x f) → s'.acquired x = s.acquired x)
    (hset : ∀ x, p = .setHolder x true → Pending s' x c)
    (hresumed : ∀ f, s'.resumed f = true → f ≠ c ∧ ∃ x, s.pc f = .suspended x ∧ Pending s x f)
    (hwakes : ∀ d f, d ≠ c → (s.pc d).wakes = some f → f ≠ c ∧ s'.resumed f = false) :
    Inv s' := by
  have hother : ∀ d, d ≠ c → s'.pc d = s.pc d := fun d hd => by
    rw [hpc, Function.update_of_ne hd]
  have hself : s'.pc c = p := by rw [hpc, Function.update_self]
  have hwakes' : ∀ d f, (s'.pc d).wakes = some f → d ≠ c ∧ (s.pc d).wakes = some f := by
    intro d f hd
    have hdc : d ≠ c := by
      rintro rfl
      rw [hself, hp.1] at hd
      cases hd
    exact ⟨hdc, hother d hdc ▸ hd⟩
  refine ⟨fun x => ?_, fun x hx => ?_, fun x f hf => ?_, fun x => ?_, fun x => ?_, fun x => ?_,
    fun d x hd => ?_, fun f hf => ?_, fun d f hd => ?_, fun d d' f hd hd' => ?_, fun d x hd => ?_⟩
  · rw [howns, hmutex]
    exact h.owner x
  · rw [hmutex] at hx ⊢
    exact h.locked x hx
  · rw [hmutex] at hf
    have hne : f ≠ c := by
      rintro rfl
      exact hwaiting x hf
    rw [hother f hne]
    exact h.suspended x f hf
  · rw [hmutex]
    exact h.nodup x
  · rw [hqueued, htaken, hmutex]
    exact h.queued x
  · rcases h.taken x with heq | ⟨f, hf, hw⟩
    · refine .inl ?_
      rw [htaken, heq]
      refine (hnot x fun f hf => ?_).symm
      have := hf.taken
      rw [heq] at this
      simp at this
    · by_cases hfc : f = c
      · subst hfc
        exact (hc x hf).imp_right fun hf => ⟨f, hf.1, hself ▸ hf.2⟩
      · exact .inr ⟨f, hpending x f hfc hf, hother f hfc ▸ hw⟩
  · by_cases hdc : d = c
    · subst hdc
      exact hset x (hself ▸ hd)
    · exact hpending x d hdc (h.setHolder d x (hother d hdc ▸ hd))
  · obtain ⟨hfc, x, hx, hf⟩ := hresumed f hf
    exact ⟨x, hother f hfc ▸ hx, hpending x f hfc hf⟩
  · obtain ⟨hdc, hd⟩ := hwakes' d f hd
    obtain ⟨hfc, hr⟩ := hwakes d f hdc hd
    obtain ⟨-, x, hx, hf⟩ := h.wakes d f hd
    exact ⟨hr, x, hother f hfc ▸ hx, hpending x f hfc hf⟩
  · exact h.wakesOnce d d' f (hwakes' d f hd).2 (hwakes' d' f hd').2
  · have hdc : d ≠ c := by
      rintro rfl
      rw [hself, hp.2] at hd
      cases hd
    rw [howns]
    exact h.gives d x (hother d hdc ▸ hd)

/-- A fiber that was resumed goes on. -/
theorem Inv.continue {c : κ} {x : ν} (h : Inv s) (hpc : s.pc c = .suspended x)
    (hres : s.resumed c = true) :
    Inv { s.setPc c (.setHolder x true) with resumed := Function.update s.resumed c false } := by
  obtain ⟨y, hy, hpend⟩ := h.resumed c hres
  obtain rfl : y = x := h.pending_unique hpc hpend
  refine h.handed rfl rfl rfl rfl rfl (fun z hz => ?_) ⟨rfl, rfl⟩
    (fun y f _ hf => hf.congr rfl rfl rfl rfl) (fun z hz => .inr ⟨hz.congr rfl rfl rfl rfl, ?_⟩)
    (fun _ _ => rfl) (fun z hz => ?_) (fun f hf => ?_) fun d f _ hd => ?_
  · obtain rfl : y = z := by
      have := hpc.symm.trans (h.suspended z c hz)
      cases this
      rfl
    exact hpend.notWaiting hz
  · rw [h.pending_unique hpc hz]
    rfl
  · cases hz
    exact hpend.congr rfl rfl rfl rfl
  · replace hf : Function.update s.resumed c false f = true := hf
    have hfc : f ≠ c := by
      rintro rfl
      rw [Function.update_self] at hf
      cases hf
    rw [Function.update_of_ne hfc] at hf
    exact ⟨hfc, h.resumed f hf⟩
  · have hr := (h.wakes d f hd).1
    have hfc : f ≠ c := by
      rintro rfl
      rw [hres] at hr
      cases hr
    exact ⟨hfc, (Function.update_of_ne hfc _ _).trans hr⟩

/-- A context calls `Resume` on the fiber it took from a queue. -/
theorem Inv.resume {c f : κ} (h : Inv s) (hpc : s.pc c = .resume f) :
    Inv { s.setPc c .idle with resumed := Function.update s.resumed f true } := by
  have hwakesc : (s.pc c).wakes = some f := by rw [hpc]; rfl
  obtain ⟨-, x, hx, hpend⟩ := h.wakes c f hwakesc
  have hsusp : ∀ d y, s.pc d = .suspended y → d ≠ c := by
    rintro d y hd rfl
    rw [hpc] at hd
    cases hd
  refine h.handed rfl rfl rfl rfl rfl (fun z hz => ?_) ⟨rfl, rfl⟩
    (fun y f _ hf => hf.congr rfl rfl rfl rfl) (fun z hz => ?_) (fun _ _ => rfl)
    (fun z hz => by cases hz) (fun g hg => ?_) fun d g hdc hd => ?_
  · exact hsusp c z (h.suspended z c hz) rfl
  · have := h.waited_of_pending hz
    rw [hpc] at this
    cases this
  · replace hg : Function.update s.resumed f true g = true := hg
    by_cases hgf : g = f
    · subst hgf
      exact ⟨hsusp g x hx, x, hx, hpend⟩
    · rw [Function.update_of_ne hgf] at hg
      obtain ⟨y, hy, hg⟩ := h.resumed g hg
      exact ⟨hsusp g y hy, y, hy, hg⟩
  · have hgf : g ≠ f := by
      rintro rfl
      exact hdc (h.wakesOnce d c g hd hwakesc)
    obtain ⟨hr, y, hy, -⟩ := h.wakes d g hd
    exact ⟨hsusp g y hy, (Function.update_of_ne hgf _ _).trans hr⟩

end

section
variable {κ ν : Type} [DecidableEq κ] [DecidableEq ν] {fiber : κ → Bool} {s s' : State κ ν}

/-- A fiber that waited enters itself as the holder. -/
theorem Inv.acquire {c : κ} {x : ν} {holder : ν → Option κ} (h : Inv s)
    (hpc : s.pc c = .setHolder x true) :
    Inv { s.setPc c .idle with
      lockHolder := holder
      acquired := Function.update s.acquired x (s.acquired x ++ [c]) } := by
  have hpend := h.setHolder c x hpc
  have hne : ∀ y f, f ≠ c → Pending s y f → y ≠ x := by
    rintro y f hfc hf rfl
    have := hf.owns.symm.trans hpend.owns
    cases this
    exact hfc rfl
  have hsusp : ∀ d y, s.pc d = .suspended y → d ≠ c := by
    rintro d y hd rfl
    rw [hpc] at hd
    cases hd
  refine h.handed rfl rfl rfl rfl rfl (fun z hz => hsusp c z (h.suspended z c hz) rfl) ⟨rfl, rfl⟩
    (fun y f hfc hf => ?_) (fun y hy => .inl ?_) (fun y hy => ?_) (fun z hz => by cases hz)
    (fun f hf => ?_) fun d f hdc hd => ?_
  · exact hf.congr rfl (Function.update_of_ne (hne y f hfc hf) _ _) rfl rfl
  · have hw := h.waited_of_pending hy
    rw [hpc] at hw
    cases hw
    have hself : Function.update s.acquired x (s.acquired x ++ [c]) x = s.acquired x ++ [c] :=
      Function.update_self _ _ _
    exact hy.taken.trans hself.symm
  · refine Function.update_of_ne ?_ _ _
    rintro rfl
    exact hy c hpend
  · obtain ⟨y, hy, hf⟩ := h.resumed f hf
    exact ⟨hsusp f y hy, y, hy, hf⟩
  · obtain ⟨hr, y, hy, -⟩ := h.wakes d f hd
    exact ⟨hsusp f y hy, hr⟩

/-- A context sets `locked`. -/
theorem Inv.got {c : κ} {x : ν} {m : SchedulerMutex κ} (h : Inv s)
    (hfree : (s.mutex x).locked = false) (hm : m = { s.mutex x with locked := true })
    (hc : (s.pc c).waited = none) : Inv (s.got c x m) := by
  obtain ⟨howns, hqueue⟩ := h.free hfree
  have hnot : ∀ f, ¬ Pending s x f := by
    intro f hf
    have := hf.owns
    rw [howns] at this
    cases this
  have hpending : ∀ y f, Pending s y f → Pending (s.got c x m) y f := by
    intro y f hf
    have hne : y ≠ x := by
      rintro rfl
      exact hnot f hf
    exact hf.congr rfl rfl (Function.update_of_ne hne _ _) (Function.update_of_ne hne _ _)
  have hsusp : ∀ f y, s.pc f = .suspended y → (s.got c x m).pc f = .suspended y := by
    intro f y hf
    have hne : f ≠ c := by
      rintro rfl
      rw [hf] at hc
      cases hc
    exact (Function.update_of_ne hne _ _).trans hf
  have hpc : ∀ d, (s.got c x m).pc d = s.pc d ∨
      d = c ∧ (s.got c x m).pc d = .setHolder x false := by
    intro d
    by_cases hdc : d = c
    · subst hdc
      exact .inr ⟨rfl, Function.update_self _ _ _⟩
    · exact .inl (Function.update_of_ne hdc _ _)
  have hwakes : ∀ d f, ((s.got c x m).pc d).wakes = some f → (s.pc d).wakes = some f := by
    intro d f hd
    rcases hpc d with heq | ⟨-, heq⟩
    · exact heq ▸ hd
    · rw [heq] at hd
      cases hd
  have hwaiting : ∀ y, ((s.got c x m).mutex y).waitingFibers = (s.mutex y).waitingFibers := by
    intro y
    simp only [State.got, Function.update_apply]
    split
    next heq => rw [hm, heq]
    next => rfl
  refine ⟨fun y => ?_, fun y hy => ?_, fun y f hf => hsusp f y (h.suspended y f (hwaiting y ▸ hf)),
    fun y => hwaiting y ▸ h.nodup y, fun y => ?_, fun y => ?_, fun d y hd => ?_, fun f hf => ?_,
    fun d f hd => ?_, fun d d' f hd hd' => h.wakesOnce d d' f (hwakes d f hd) (hwakes d' f hd'),
    fun d y hd => ?_⟩
  · simp only [State.got, Function.update_apply]
    split
    · rw [hm, howns]
      rfl
    · exact h.owner y
  · rw [hwaiting] at hy
    have hne : y ≠ x := by
      rintro rfl
      exact hy hqueue
    have hsame : (s.got c x m).mutex y = s.mutex y := Function.update_of_ne hne _ _
    rw [hsame]
    exact h.locked y hy
  · rw [hwaiting]
    exact h.queued y
  · refine (h.taken y).imp_right fun ⟨f, hf, hw⟩ => ⟨f, hpending y f hf, ?_⟩
    have hne : f ≠ c := by
      rintro rfl
      rw [hc] at hw
      cases hw
    exact (congrArg Pc.waited (Function.update_of_ne hne _ _)).trans hw
  · rcases hpc d with heq | ⟨-, heq⟩
    · exact hpending y d (h.setHolder d y (heq ▸ hd))
    · rw [heq] at hd
      cases hd
  · obtain ⟨y, hy, hf⟩ := h.resumed f hf
    exact ⟨y, hsusp f y hy, hpending y f hf⟩
  · obtain ⟨hr, y, hy, hf⟩ := h.wakes d f (hwakes d f hd)
    exact ⟨hr, y, hsusp f y hy, hpending y f hf⟩
  · rcases hpc d with heq | ⟨-, heq⟩
    · have := h.gives d y (heq ▸ hd)
      have hne : y ≠ x := by
        rintro rfl
        rw [howns] at this
        cases this
      exact (congrArg (d ∈ ·) (Function.update_of_ne hne _ _)).mpr this
    · rw [heq] at hd
      cases hd

/-- A fiber finds the mutex locked. -/
theorem Inv.queue {c : κ} {x : ν} {m : SchedulerMutex κ} (h : Inv s)
    (hlocked : (s.mutex x).locked = true)
    (hm : m = { s.mutex x with waitingFibers := (s.mutex x).waitingFibers ++ [c] })
    (hpc : s.pc c = .lock x) : Inv (s.queue c x m) := by
  have hsusp : ∀ d y, s.pc d = .suspended y → d ≠ c := by
    rintro d y hd rfl
    rw [hpc] at hd
    cases hd
  have hother : ∀ d, d ≠ c → (s.queue c x m).pc d = s.pc d :=
    fun d hd => Function.update_of_ne hd _ _
  have hself : (s.queue c x m).pc c = .suspended x := Function.update_self _ _ _
  have hlock : ∀ y, ((s.queue c x m).mutex y).locked = (s.mutex y).locked := by
    intro y
    simp only [State.queue, Function.update_apply]
    split
    next heq => rw [hm, heq]
    next => rfl
  have hwaiting : ∀ y, ((s.queue c x m).mutex y).waitingFibers =
      (s.mutex y).waitingFibers ++ if y = x then [c] else [] := by
    intro y
    simp only [State.queue, Function.update_apply]
    split
    next heq => rw [hm, heq]
    next => simp
  have hnotwaiting : ∀ y, c ∉ (s.mutex y).waitingFibers :=
    fun y hc => hsusp c y (h.suspended y c hc) rfl
  have hpending : ∀ y f, Pending s y f → f ≠ c ∧ Pending (s.queue c x m) y f := by
    intro y f hf
    have hfc : f ≠ c := by
      rintro rfl
      have := h.waited_of_pending hf
      rw [hpc] at this
      cases this
    refine ⟨hfc, hf.taken, hf.owns, ?_⟩
    rw [hwaiting, List.mem_append, not_or]
    refine ⟨hf.notWaiting, ?_⟩
    split <;> simp [hfc]
  have hresumed : ∀ f, f ≠ c → (s.queue c x m).resumed f = s.resumed f :=
    fun f hf => Function.update_of_ne hf _ _
  have hwakes : ∀ d f, ((s.queue c x m).pc d).wakes = some f → (s.pc d).wakes = some f := by
    intro d f hd
    by_cases hdc : d = c
    · rw [hdc, hself] at hd
      cases hd
    · exact hother d hdc ▸ hd
  refine ⟨fun y => hlock y ▸ h.owner y, fun y hy => ?_, fun y f hf => ?_, fun y => ?_, fun y => ?_,
    fun y => ?_, fun d y hd => ?_, fun f hf => ?_, fun d f hd => ?_,
    fun d d' f hd hd' => h.wakesOnce d d' f (hwakes d f hd) (hwakes d' f hd'), fun d y hd => ?_⟩
  · rw [hlock]
    by_cases hyx : y = x
    · rw [hyx, hlocked]
    · rw [hwaiting, if_neg hyx, List.append_nil] at hy
      exact h.locked y hy
  · rw [hwaiting, List.mem_append] at hf
    rcases hf with hf | hf
    · rw [hother f (hsusp f y (h.suspended y f hf))]
      exact h.suspended y f hf
    · split at hf
      next hyx =>
        rw [List.mem_singleton.1 hf, hyx, hself]
      next => cases hf
  · rw [hwaiting]
    refine (h.nodup y).append (by split <;> simp) fun f hf hf' => ?_
    split at hf'
    · exact hnotwaiting y (List.mem_singleton.1 hf' ▸ hf)
    · cases hf'
  · rw [hwaiting]
    simp only [State.queue, State.setPc, Function.update_apply]
    split
    next heq => rw [← heq, h.queued y, List.append_assoc]
    next => rw [List.append_nil, h.queued y]
  · refine (h.taken y).imp_right fun ⟨f, hf, hw⟩ => ⟨f, (hpending y f hf).2, ?_⟩
    rw [hother f (hpending y f hf).1]
    exact hw
  · by_cases hdc : d = c
    · rw [hdc, hself] at hd
      cases hd
    · exact (hpending y d (h.setHolder d y (hother d hdc ▸ hd))).2
  · have hfc : f ≠ c := by
      rintro rfl
      have hfalse : (s.queue f x m).resumed f = false := Function.update_self _ _ _
      rw [hfalse] at hf
      cases hf
    obtain ⟨y, hy, hf⟩ := h.resumed f (hresumed f hfc ▸ hf)
    exact ⟨y, hother f hfc ▸ hy, (hpending y f hf).2⟩
  · obtain ⟨hr, y, hy, hf⟩ := h.wakes d f (hwakes d f hd)
    obtain ⟨hfc, hf⟩ := hpending y f hf
    exact ⟨hresumed f hfc ▸ hr, y, hother f hfc ▸ hy, hf⟩
  · by_cases hdc : d = c
    · rw [hdc, hself] at hd
      cases hd
    · exact h.gives d y (hother d hdc ▸ hd)

/-- The section of `Unlock`: the mutex is unlocked, or it gets its next owner. -/
theorem Inv.unlock {c : κ} {x : ν} {wasHolder : Option κ} (h : Inv s)
    (hpc : s.pc c = .unlock x wasHolder) : Inv (s.unlock c x wasHolder) := by
  have howns : s.owns x = [c] := h.owns_of_mem (h.gives c x (by rw [hpc]; rfl))
  have hsusp : ∀ d y, s.pc d = .suspended y → d ≠ c := by
    rintro d y hd rfl
    rw [hpc] at hd
    cases hd
  have hnot : ∀ f, ¬ Pending s x f := by
    intro f hf
    have hw := h.waited_of_pending hf
    have := howns.symm.trans hf.owns
    cases this
    rw [hpc] at hw
    cases hw
  have htaken := h.taken_eq hnot
  have hgives : ∀ d y, d ≠ c → (s.pc d).gives = some y → y ≠ x := by
    rintro d y hdc hd rfl
    have := h.gives d y hd
    rw [howns, List.mem_singleton] at this
    exact hdc this
  have hne : ∀ y f, Pending s y f → y ≠ x := by
    rintro y f hf rfl
    exact hnot f hf
  have hother : ∀ d, d ≠ c → (s.unlock c x wasHolder).pc d = s.pc d :=
    fun d hd => Function.update_of_ne hd _ _
  have hmutex : ∀ y, y ≠ x → (s.unlock c x wasHolder).mutex y = s.mutex y :=
    fun y hy => Function.update_of_ne hy _ _
  have hpending : ∀ y f, Pending s y f → Pending (s.unlock c x wasHolder) y f := fun y f hf =>
    hf.congr (Function.update_of_ne (hne y f hf) _ _) rfl (Function.update_of_ne (hne y f hf) _ _)
      (hmutex y (hne y f hf))
  have hwaited : ∀ d, (s.pc d).waited ≠ none → d ≠ c := by
    rintro d hd rfl
    rw [hpc] at hd
    exact hd rfl
  -- what the section does to the mutex itself, by whether a fiber waits for it
  have hx : ((s.unlock c x wasHolder).owns x).length =
        ((s.unlock c x wasHolder).mutex x).locked.toNat ∧
      (((s.unlock c x wasHolder).mutex x).waitingFibers ≠ [] →
        ((s.unlock c x wasHolder).mutex x).locked = true) ∧
      (s.mutex x).waitingFibers = (s.mutex x).unlock.2.toList ++
        ((s.unlock c x wasHolder).mutex x).waitingFibers := by
    simp only [State.unlock, State.setPc, Function.update_self, howns, List.erase_cons_head,
      List.nil_append, SchedulerMutex.unlock]
    cases hw : (s.mutex x).waitingFibers with
    | nil => simp
    | cons f rest => simp [h.locked x (by simp [hw])]
  obtain ⟨hlen, hlock, hqueue⟩ := hx
  have hsub : ∀ y, ∀ f ∈ ((s.unlock c x wasHolder).mutex y).waitingFibers,
      f ∈ (s.mutex y).waitingFibers := by
    intro y f hf
    by_cases hyx : y = x
    · subst hyx
      rw [hqueue]
      exact List.mem_append_right _ hf
    · exact hmutex y hyx ▸ hf
  have hself : (s.unlock c x wasHolder).pc c = .unboost wasHolder (s.mutex x).unlock.2 :=
    Function.update_self _ _ _
  have hnext : ∀ f, (s.mutex x).unlock.2 = some f → s.pc f = .suspended x ∧ s.resumed f = false ∧
      Pending (s.unlock c x wasHolder) x f ∧ ∀ d, (s.pc d).wakes ≠ some f := by
    intro f hf
    rw [hf, Option.toList_some, List.singleton_append] at hqueue
    have hmem : f ∈ (s.mutex x).waitingFibers := hqueue ▸ .head _
    have hpcf := h.suspended x f hmem
    refine ⟨hpcf, ?_, ⟨?_, ?_, ?_⟩, fun d hd => ?_⟩
    · by_contra hr
      obtain ⟨y, hy, hp⟩ := h.resumed f (by simpa using hr)
      exact hne y f hp (h.pending_unique hpcf hp)
    · simp only [State.unlock, State.setPc, Function.update_self, hf, Option.toList_some, htaken]
    · simp only [State.unlock, State.setPc, Function.update_self, hf, Option.toList_some, howns,
        List.erase_cons_head, List.nil_append]
    · have := h.nodup x
      rw [hqueue, List.nodup_cons] at this
      exact this.1
    · obtain ⟨-, y, hy, hp⟩ := h.wakes d f hd
      exact hne y f hp (h.pending_unique hpcf hp)
  have hwakes : ∀ d f, ((s.unlock c x wasHolder).pc d).wakes = some f →
      d ≠ c ∧ (s.pc d).wakes = some f ∨ d = c ∧ (s.mutex x).unlock.2 = some f := by
    intro d f hd
    by_cases hdc : d = c
    · rw [hdc, hself] at hd
      exact .inr ⟨hdc, hd⟩
    · exact .inl ⟨hdc, hother d hdc ▸ hd⟩
  refine ⟨fun y => ?_, fun y hy => ?_, fun y f hf => ?_, fun y => ?_, fun y => ?_, fun y => ?_,
    fun d y hd => ?_, fun f hf => ?_, fun d f hd => ?_, fun d d' f hd hd' => ?_, fun d y hd => ?_⟩
  · by_cases hyx : y = x
    · subst hyx
      exact hlen
    · rw [hmutex y hyx]
      exact (congrArg List.length (Function.update_of_ne hyx _ _)).trans (h.owner y)
  · by_cases hyx : y = x
    · subst hyx
      exact hlock hy
    · rw [hmutex y hyx] at hy ⊢
      exact h.locked y hy
  · have hf := h.suspended y f (hsub y f hf)
    rw [hother f (hsusp f y hf)]
    exact hf
  · by_cases hyx : y = x
    · subst hyx
      have := h.nodup y
      rw [hqueue] at this
      exact this.of_append_right
    · rw [hmutex y hyx]
      exact h.nodup y
  · by_cases hyx : y = x
    · subst hyx
      have : (s.unlock c y wasHolder).taken y = s.taken y ++ (s.mutex y).unlock.2.toList :=
        Function.update_self _ _ _
      rw [this, List.append_assoc, ← hqueue]
      exact h.queued y
    · rw [hmutex y hyx]
      exact (h.queued y).trans (congrArg (· ++ _) (Function.update_of_ne hyx _ _).symm)
  · by_cases hyx : y = x
    · subst hyx
      cases hf : (s.mutex y).unlock.2 with
      | none =>
        refine .inl ?_
        have : (s.unlock c y wasHolder).taken y = s.taken y ++ (s.mutex y).unlock.2.toList :=
          Function.update_self _ _ _
        rw [this, hf, Option.toList_none, List.append_nil]
        exact htaken
      | some f =>
        obtain ⟨hpcf, -, hpend, -⟩ := hnext f hf
        exact .inr ⟨f, hpend, by rw [hother f (hsusp f y hpcf), hpcf]; rfl⟩
    · rcases h.taken y with heq | ⟨f, hf, hw⟩
      · exact .inl ((Function.update_of_ne hyx _ _).trans heq)
      · exact .inr ⟨f, hpending y f hf, by rw [hother f (hwaited f (by simp [hw])), hw]⟩
  · by_cases hdc : d = c
    · rw [hdc, hself] at hd
      cases hd
    · exact hpending y d (h.setHolder d y (hother d hdc ▸ hd))
  · obtain ⟨y, hy, hp⟩ := h.resumed f hf
    exact ⟨y, hother f (hsusp f y hy) ▸ hy, hpending y f hp⟩
  · rcases hwakes d f hd with ⟨-, hd⟩ | ⟨-, hf⟩
    · obtain ⟨hr, y, hy, hp⟩ := h.wakes d f hd
      exact ⟨hr, y, hother f (hsusp f y hy) ▸ hy, hpending y f hp⟩
    · obtain ⟨hpcf, hr, hpend, -⟩ := hnext f hf
      exact ⟨hr, x, hother f (hsusp f x hpcf) ▸ hpcf, hpend⟩
  · rcases hwakes d f hd with ⟨-, hd⟩ | ⟨hdc, hf⟩ <;>
      rcases hwakes d' f hd' with ⟨-, hd'⟩ | ⟨hdc', hf'⟩
    · exact h.wakesOnce d d' f hd hd'
    · exact absurd hd ((hnext f hf').2.2.2 d)
    · exact absurd hd' ((hnext f hf).2.2.2 d')
    · rw [hdc, hdc']
  · have hdc : d ≠ c := by
      rintro rfl
      rw [hself] at hd
      cases hd
    rw [hother d hdc] at hd
    have hyx := hgives d y hdc hd
    exact (congrArg (d ∈ ·) (Function.update_of_ne hyx _ _)).mpr (h.gives d y hd)

/-- A step of a call keeps the invariant. -/
theorem Inv.next {c : κ} {callerTask : Option κ} (h : Inv s)
    (hs : nextStep fiber s c callerTask = some s') : Inv s' := by
  unfold nextStep at hs
  cases hpc : s.pc c with
  | idle =>
    rw [hpc] at hs
    cases hs
  | lock x =>
    simp only [hpc, SchedulerMutex.lock] at hs
    cases hl : (s.mutex x).locked with
    | false =>
      simp only [hl, Bool.not_false, if_true, Option.some.injEq] at hs
      exact hs ▸ h.got hl rfl (by rw [hpc]; rfl)
    | true =>
      simp only [hl, Bool.not_true, Bool.false_eq_true, if_false, Option.some.injEq] at hs
      exact hs ▸ h.queue hl (by simp [hl]) hpc
  | tryLock x spins =>
    simp only [hpc, SchedulerMutex.tryLock] at hs
    cases hl : (s.mutex x).locked with
    | false =>
      simp only [hl, Bool.false_eq_true, if_false, Option.some.injEq] at hs
      exact hs ▸ h.got hl rfl (by rw [hpc]; rfl)
    | true =>
      simp only [hl, if_true, Option.some.injEq] at hs
      subst hs
      refine h.plain rfl rfl rfl rfl rfl rfl rfl (by rw [hpc]; rfl) ?_ (fun f hf => ?_)
        fun y hy => ?_
      · cases spins <;> rfl
      · cases spins <;> cases hf
      · cases spins <;> cases hy
  | suspended x =>
    simp only [hpc, Option.ite_none_right_eq_some, Option.some.injEq] at hs
    obtain ⟨hres, rfl⟩ := hs
    exact h.continue hpc hres
  | setHolder x waited =>
    simp only [hpc, Option.some.injEq] at hs
    subst hs
    cases waited with
    | true => exact h.acquire hpc
    | false =>
      exact h.plain rfl rfl rfl rfl rfl rfl rfl (by rw [hpc]; rfl) rfl (fun f hf => by cases hf)
        fun y hy => by cases hy
  | clearHolder x =>
    simp only [hpc, Option.some.injEq] at hs
    subst hs
    refine h.plain rfl rfl rfl rfl rfl rfl rfl (by rw [hpc]; rfl) rfl (fun f hf => by cases hf)
      fun y hy => ?_
    cases hy
    exact h.gives c x (by rw [hpc]; rfl)
  | unlock x wasHolder =>
    simp only [hpc, Option.some.injEq] at hs
    exact hs ▸ h.unlock hpc
  | unboost wasHolder nextFiber =>
    simp only [hpc, Option.some.injEq] at hs
    obtain ⟨hiPri, priorityBoost, heq⟩ := unboost_frame s wasHolder
    rw [heq] at hs
    subst hs
    refine h.plain rfl rfl rfl rfl rfl rfl rfl (by rw [hpc]; rfl) ?_ (fun f hf => ?_) fun y hy => ?_
    · cases nextFiber <;> rfl
    · cases nextFiber with
      | none => cases hf
      | some g =>
        cases hf
        rw [hpc]
        rfl
    · cases nextFiber <;> cases hy
  | resume f =>
    simp only [hpc, Option.some.injEq] at hs
    exact hs ▸ h.resume hpc

/-- Every step keeps the invariant. -/
theorem Inv.step {a : Act κ ν} (h : Inv s) (hs : Mutex.step fiber s a = some s') : Inv s' := by
  cases a with
  | lock c x =>
    simp only [Mutex.step, Option.ite_none_right_eq_some, Option.some.injEq] at hs
    obtain ⟨hpc, rfl⟩ := hs
    refine h.plain rfl rfl rfl rfl rfl rfl rfl (by rw [hpc]; rfl) ?_ (fun f hf => ?_) fun y hy => ?_
    · cases fiber c <;> rfl
    · cases hc : fiber c <;> simp [hc, Pc.wakes] at hf
    · cases hc : fiber c <;> simp [hc, Pc.gives] at hy
  | tryLock c x =>
    simp only [Mutex.step, Option.ite_none_right_eq_some, Option.some.injEq] at hs
    obtain ⟨hpc, rfl⟩ := hs
    exact h.plain rfl rfl rfl rfl rfl rfl rfl (by rw [hpc]; rfl) rfl (fun f hf => by cases hf)
      fun y hy => by cases hy
  | unlock c x =>
    simp only [Mutex.step, Option.ite_none_right_eq_some, Option.some.injEq] at hs
    obtain ⟨⟨hpc, howns⟩, rfl⟩ := hs
    refine h.plain rfl rfl rfl rfl rfl rfl rfl (by rw [hpc]; rfl) rfl (fun f hf => by cases hf)
      fun y hy => ?_
    cases hy
    exact howns
  | next c callerTask => exact h.next hs

/-- A mutex has one owner at most; while fibers wait for it it is locked, and while it has an owner,
which need not have run yet, `Try_Lock` fails. Fibers are taken from the queue, and return from
`Lock`, in the order in which they were queued. -/
theorem mutex_handOff {hiPri : κ → UInt8} {as : List (Act κ ν)}
    (hrun : Lts.run (Mutex.step fiber) (State.init hiPri) as = some s) (x : ν) :
    (s.owns x).length ≤ 1 ∧
    ((s.mutex x).waitingFibers ≠ [] → (s.mutex x).locked = true) ∧
    (s.owns x ≠ [] → (s.mutex x).tryLock = none) ∧
    s.queued x = s.taken x ++ (s.mutex x).waitingFibers ∧ s.acquired x <+: s.taken x := by
  have h := Lts.run_inv Inv.step Inv.init hrun
  refine ⟨h.owner x ▸ Bool.toNat_le _, h.locked x, fun hne => ?_, h.queued x, ?_⟩
  · obtain ⟨c, hc⟩ := List.exists_mem_of_ne_nil _ hne
    simp [SchedulerMutex.tryLock, h.locked_of_mem hc]
  · rcases h.taken x with heq | ⟨f, hf, -⟩
    · rw [heq]
    · rw [hf.taken]
      exact List.prefix_append _ _

end

/-- A fiber unlocks a mutex that another fiber waits for, and tries to lock it again before that
fiber runs. -/
def unlocksAndTries : List (Act Bool Unit) :=
  [.lock false (), .next false none, .next false none, .lock true (), .next true none,
    .unlock false (), .next false none, .next false none, .next false none, .next false none,
    .tryLock false (), .next false none]

theorem mutex_handOff_unlocksAndTries : ∃ s : State Bool Unit,
    Lts.run (step fun _ => true) (State.init fun _ => 0) unlocksAndTries = some s ∧
      s.owns () = [true] ∧ s.pc true = .suspended () ∧ s.pc false = .idle ∧
      (s.owns ()).length ≤ 1 ∧
      ((s.mutex ()).waitingFibers ≠ [] → (s.mutex ()).locked = true) ∧
      (s.owns () ≠ [] → (s.mutex ()).tryLock = none) ∧
      s.queued () = s.taken () ++ (s.mutex ()).waitingFibers ∧ s.acquired () <+: s.taken () := by
  refine ⟨(Lts.run _ _ unlocksAndTries).get (by decide), (Option.some_get _).symm, by decide,
    by decide, by decide, ?_⟩
  exact mutex_handOff (Option.some_get (by decide)).symm ()

end JLibScheduler.Mutex
