import Mathlib.Data.Fintype.Basic
import Mathlib.Logic.Relation
import Mathlib.Order.Basic
import JLibScheduler.Lib.Lts
import JLibScheduler.Helping.Effects

/-!
# Helping and deadlock

Tasks that lock mutexes in one order do not deadlock when each has a thread of its own. A job that
runs in a spin loop shares its thread with the contexts beneath it, which hold their mutexes until
it ends: when it locks a mutex that one of them holds, the two wait for each other
(`waitsFor_cycle`). As long as such a job locks only what comes after the mutexes held beneath it,
all contexts of a thread lock in order together, and the mutexes increase along the wait-for
relation (`Chain`).
-/

namespace JLibScheduler.Helping

open JLibScheduler.Sync (Obj Kind)

section
variable {τ ω ν γ : Type}

/-- The mutex or semaphore that a step tries to acquire, and on which worker. -/
def Act.takes : Act τ ω ν γ → Option (ω × ν)
  | .acquire w x | .tryAcquire w x => some (w, x)
  | _ => none

/-- The one that it waits for when it does not get it. -/
def Act.locks : Act τ ω ν γ → Option (ω × ν)
  | .acquire w x => some (w, x)
  | _ => none

/-- The worker on which a task ends. -/
def Act.ends : Act τ ω ν γ → Option ω
  | .finish w => some w
  | _ => none

/-- A context in `Lock` waits for the holder of the mutex, and a context whose spin loop runs a job
waits for the job. -/
def WaitsFor (s : State τ ω ν γ) (c c' : τ) : Prop :=
  (∃ x, s.waits c = some (.obj x) ∧ s.holder x = some c') ∨
    ∃ w above below, s.stack w = above ++ c' :: c :: below

/-- A task acquires mutexes in the order of `ν`, and ends when it has released them. -/
def InOrder [LT ν] (s : State τ ω ν γ) (a : Act τ ω ν γ) : Prop :=
  (∀ p ∈ a.takes, (s.obj p.2).isMutex = true → ∀ t ∈ (s.stack p.1).head?,
    ∀ x, s.holder x = some t → x < p.2) ∧
  ∀ w ∈ a.ends, ∀ t ∈ (s.stack w).head?, ∀ x, s.holder x ≠ some t

/-- A job that runs on top of other contexts locks only mutexes that come after those they hold. -/
def LocksAbove [LT ν] (s : State τ ω ν γ) (a : Act τ ω ν γ) : Prop :=
  ∀ p ∈ a.locks, (s.obj p.2).isMutex = true → ∀ t ∈ (s.stack p.1).tail,
    ∀ x, s.holder x = some t → x < p.2

instance [DecidableEq τ] [LT ν] [DecidableLT ν] [Fintype ν] {s : State τ ω ν γ}
    {a : Act τ ω ν γ} : Decidable (InOrder s a) :=
  inferInstanceAs (Decidable ((∀ p ∈ a.takes, (s.obj p.2).isMutex = true →
    ∀ t ∈ (s.stack p.1).head?, ∀ x, s.holder x = some t → x < p.2) ∧
    ∀ w ∈ a.ends, ∀ t ∈ (s.stack w).head?, ∀ x, s.holder x ≠ some t))

instance [DecidableEq τ] [LT ν] [DecidableLT ν] [Fintype ν] {s : State τ ω ν γ}
    {a : Act τ ω ν γ} : Decidable (LocksAbove s a) :=
  inferInstanceAs (Decidable (∀ p ∈ a.locks, (s.obj p.2).isMutex = true →
    ∀ t ∈ (s.stack p.1).tail, ∀ x, s.holder x = some t → x < p.2))

end

section
variable {τ ω ν γ : Type} [DecidableEq τ] {s s' : State τ ω ν γ}

/-- The context `t` is beneath `c` on the same thread. -/
def Under (s : State τ ω ν γ) (t c : τ) : Prop :=
  ∃ w, c ∈ s.stack w ∧ t ∈ s.stack w ∧ (s.stack w).idxOf c < (s.stack w).idxOf t

/-- The invariant: a context waits for a mutex that comes after all those held by itself and by the
contexts beneath it, and only mutexes are held. -/
structure Ordered [LT ν] (s : State τ ω ν γ) : Prop where
  after : ∀ c x, s.waits c = some (.obj x) → (s.obj x).isMutex = true → ∀ t, t = c ∨ Under s t c →
    ∀ x', s.holder x' = some t → x' < x
  mutex : ∀ x t, s.holder x = some t → (s.obj x).isMutex = true

/-! ## Stacks -/

theorem Under.irrefl {t : τ} (h : Under s t t) : False := by
  obtain ⟨w, -, -, hlt⟩ := h
  exact Nat.lt_irrefl _ hlt

theorem Under.trans {fastJob : τ → Bool} {t c d : τ} (hloc : Located fastJob s) (h : Under s t c)
    (h' : Under s c d) : Under s t d := by
  obtain ⟨w, hc, ht, hlt⟩ := h
  obtain ⟨w', hd, hc', hlt'⟩ := h'
  obtain rfl := hloc.stack_unique hc hc'
  exact ⟨w, hd, ht, hlt'.trans hlt⟩

/-- The context whose spin loop runs a job is beneath it. -/
theorem under_of_stack {fastJob : τ → Bool} {w : ω} {c c' : τ} {above below : List τ}
    (hloc : Located fastJob s) (h : s.stack w = above ++ c' :: c :: below) : Under s c c' := by
  have hnodup := hloc.nodup w
  rw [h, List.nodup_append] at hnodup
  obtain ⟨-, hrest, hdisj⟩ := hnodup
  rw [List.nodup_cons] at hrest
  have hc' : c' ∉ above := fun hmem => hdisj c' hmem c' (.head _) rfl
  have hc : c ∉ above := fun hmem => hdisj c hmem c (.tail _ (.head _)) rfl
  have hne : c' ≠ c := by
    rintro rfl
    exact hrest.1 (.head _)
  refine ⟨w, by simp [h], by simp [h], ?_⟩
  rw [h, List.idxOf_append_of_notMem hc', List.idxOf_append_of_notMem hc, List.idxOf_cons_self,
    List.idxOf_cons_ne _ hne, List.idxOf_cons_self]
  omega

/-- Nothing is above the context that runs. -/
theorem not_under_head {fastJob : τ → Bool} {w : ω} {t c : τ} {rest : List τ}
    (hloc : Located fastJob s) (hstack : s.stack w = t :: rest) : ¬ Under s t c := by
  rintro ⟨v, -, ht, hlt⟩
  have hmem : t ∈ s.stack w := hstack ▸ .head _
  obtain rfl := hloc.stack_unique hmem ht
  rw [hstack, List.idxOf_cons_self] at hlt
  exact Nat.not_lt_zero _ hlt

/-- A context beneath the one that runs. -/
theorem mem_tail_of_under {fastJob : τ → Bool} {w : ω} {t c : τ} {rest : List τ}
    (hloc : Located fastJob s) (hstack : s.stack w = c :: rest) (h : Under s t c) : t ∈ rest := by
  obtain ⟨v, hc, ht, hlt⟩ := h
  have hmem : c ∈ s.stack w := hstack ▸ .head _
  obtain rfl := hloc.stack_unique hmem hc
  rw [hstack] at ht hlt
  rcases List.mem_cons.1 ht with rfl | ht
  · exact absurd hlt (Nat.lt_irrefl _)
  · exact ht

/-- What is beneath what when the head of a stack leaves it or comes to it. -/
theorem under_of_cons {w : ω} {u : τ} {l : List τ} [DecidableEq ω] {t c : τ}
    (hstack : s'.stack = Function.update s.stack w (u :: l)) (hl : s.stack w = l)
    (hu : u ∉ l) (h : Under s' t c) : Under s t c ∨ c = u := by
  obtain ⟨v, hc, ht, hlt⟩ := h
  rw [hstack, Function.update_apply] at hc ht hlt
  split at hc
  next heq =>
    subst heq
    rw [if_pos rfl] at ht hlt
    by_cases hcu : c = u
    · exact .inr hcu
    · have hc : c ∈ l := (List.mem_cons.1 hc).resolve_left hcu
      have htu : t ≠ u := by
        rintro rfl
        rw [List.idxOf_cons_self] at hlt
        exact Nat.not_lt_zero _ hlt
      have ht : t ∈ l := (List.mem_cons.1 ht).resolve_left htu
      rw [List.idxOf_cons_ne _ (Ne.symm hcu), List.idxOf_cons_ne _ (Ne.symm htu)] at hlt
      exact .inl ⟨v, hl ▸ hc, hl ▸ ht, by rw [hl]; omega⟩
  next hne =>
    rw [if_neg hne] at ht hlt
    exact .inl ⟨v, hc, ht, hlt⟩

theorem under_of_pop {w : ω} {u : τ} {rest : List τ} [DecidableEq ω] {t c : τ}
    (hstack : s.stack w = u :: rest) (hstack' : s'.stack = Function.update s.stack w rest)
    (hu : u ∉ rest) (h : Under s' t c) : Under s t c := by
  obtain ⟨v, hc, ht, hlt⟩ := h
  rw [hstack', Function.update_apply] at hc ht hlt
  split at hc
  next heq =>
    subst heq
    rw [if_pos rfl] at ht hlt
    have hcu : u ≠ c := by
      rintro rfl
      exact hu hc
    have htu : u ≠ t := by
      rintro rfl
      exact hu ht
    refine ⟨v, hstack ▸ .tail _ hc, hstack ▸ .tail _ ht, ?_⟩
    rw [hstack, List.idxOf_cons_ne _ hcu, List.idxOf_cons_ne _ htu]
    omega
  next hne =>
    rw [if_neg hne] at ht hlt
    exact ⟨v, hc, ht, hlt⟩

/-! ## Steps -/

/-- The rule for steps after which the holders of the mutexes are the same. -/
theorem Ordered.mono [LT ν] (h : Ordered s) (hholder : s'.holder = s.holder)
    (hobj : ∀ x, (s'.obj x).isMutex = (s.obj x).isMutex)
    (hafter : ∀ c x, s'.waits c = some (.obj x) →
      s.waits c = some (.obj x) ∧ ∀ t, Under s' t c → Under s t c) : Ordered s' := by
  refine ⟨fun c x hx hmutex t ht x' hx' => ?_, fun x t hx => ?_⟩
  · obtain ⟨hx, hunder⟩ := hafter c x hx
    rw [hholder] at hx'
    exact h.after c x hx (hobj x ▸ hmutex) t (ht.imp_right (hunder t)) x' hx'
  · rw [hobj]
    exact h.mutex x t (hholder ▸ hx)

/-- The rule for a mutex that changes hands: who has it now does not wait and has no context above.
-/
theorem Ordered.setObj [DecidableEq ν] [LT ν] {x : ν} {o : Obj τ} {next : Option τ} (h : Ordered s)
    (hkind : o.isMutex = (s.obj x).isMutex) (hunder : ∀ u c, next = some u → ¬ Under s u c)
    (hobj' : s'.obj = (s.setObj x o next).obj) (hholder' : s'.holder = (s.setObj x o next).holder)
    (hstack' : s'.stack = s.stack)
    (hwaits' : ∀ c y, s'.waits c = some y → s.waits c = some y ∧ next ≠ some c) : Ordered s' := by
  have hholder : ∀ y t, s'.holder y = some t →
      s.holder y = some t ∨ y = x ∧ next = some t ∧ (s.obj x).isMutex = true := by
    intro y t hy
    simp only [hholder', State.setObj] at hy
    cases hobj : s.obj x with
    | semaphore m =>
      rw [hobj] at hy
      exact .inl hy
    | mutex m =>
      rw [hobj] at hy
      simp only [Function.update_apply] at hy
      split at hy
      next heq => exact .inr ⟨heq, hy, rfl⟩
      next => exact .inl hy
  have hisMutex : ∀ y, (s'.obj y).isMutex = (s.obj y).isMutex := by
    intro y
    simp only [hobj', State.setObj, Function.update_apply]
    split
    next heq => rw [hkind, heq]
    next => rfl
  refine ⟨fun c y hy hmutex t ht x' hx' => ?_, fun y t hy => ?_⟩
  · obtain ⟨hy, hne⟩ := hwaits' c _ hy
    have ht : t = c ∨ Under s t c := by
      refine ht.imp_right fun hunder' => ?_
      obtain ⟨w, hw⟩ := hunder'
      exact ⟨w, hstack' ▸ hw⟩
    rcases hholder x' t hx' with hx' | ⟨-, hnext, -⟩
    · exact h.after c y hy ((hisMutex y).symm.trans hmutex) t ht x' hx'
    · rcases ht with rfl | ht
      · exact absurd hnext hne
      · exact absurd ht (hunder t c hnext)
  · refine (hisMutex y).trans ?_
    rcases hholder y t hy with hy | ⟨rfl, -, hm⟩
    · exact h.mutex y t hy
    · exact hm

/-- No mutex is held at the start. -/
theorem Ordered.init [LT ν] {kind : ν → Kind} : Ordered (State.init kind : State τ ω ν γ) where
  after c x hx := by cases hx
  mutex x t hx := by cases hx

/-! ## Chains -/

/-- Where a path of the wait-for relation from `a` to `b` leads: up the stack of `a`, or from a
context there that waits for `x` to what is above a holder of a mutex that does not come before `x`.
-/
inductive Chain [LE ν] (s : State τ ω ν γ) (a b : τ) : Prop where
  | up (h : Under s a b)
  | locks (c h : τ) (x x' : ν) (hc : a = c ∨ Under s a c) (hx : s.waits c = some (.obj x))
      (hmutex : (s.obj x).isMutex = true) (hh : h = b ∨ Under s h b) (hx' : s.holder x' = some h)
      (hle : x ≤ x')

theorem chain_of_transGen [Preorder ν] {fastJob : τ → Bool} {a b : τ} (hloc : Located fastJob s)
    (h : Ordered s) (hpath : Relation.TransGen (WaitsFor s) a b) : Chain s a b := by
  induction hpath with
  | single hedge =>
    rcases hedge with ⟨x, hwaits, hholder⟩ | ⟨w, above, below, hstack⟩
    · exact .locks a _ x x (.inl rfl) hwaits (h.mutex x _ hholder) (.inl rfl) hholder le_rfl
    · exact .up (under_of_stack hloc hstack)
  | tail _ hedge ih =>
    rcases hedge with ⟨y, hwaits, hholder⟩ | ⟨w, above, below, hstack⟩
    · have hmutex := h.mutex y _ hholder
      cases ih with
      | up hup => exact .locks _ _ y y (.inr hup) hwaits hmutex (.inl rfl) hholder le_rfl
      | locks c h' x x' hc hx hm hh hx' hle =>
        exact .locks c _ x y hc hx hm (.inl rfl) hholder
          (hle.trans (h.after _ y hwaits hmutex h' hh x' hx').le)
    · have hup := under_of_stack hloc hstack
      cases ih with
      | up hup' => exact .up (hup'.trans hloc hup)
      | locks c h' x x' hc hx hm hh hx' hle =>
        refine .locks c h' x x' hc hx hm (.inr ?_) hx' hle
        rcases hh with rfl | hh
        · exact hup
        · exact hh.trans hloc hup

/-- No path of the wait-for relation comes back to where it began. -/
theorem Ordered.not_cycle [Preorder ν] {fastJob : τ → Bool} (h : Ordered s)
    (hloc : Located fastJob s) (c : τ) : ¬ Relation.TransGen (WaitsFor s) c c := by
  intro hpath
  cases chain_of_transGen hloc h hpath with
  | up hup => exact hup.irrefl
  | locks d h' x x' hc hx hm hh hx' hle =>
    have hunder : h' = d ∨ Under s h' d := by
      rcases hh with rfl | hh
      · exact hc
      · rcases hc with rfl | hc
        · exact .inr hh
        · exact .inr (hh.trans hloc hc)
    exact absurd (h.after d x hx hm h' hunder x' hx') (not_lt_of_ge hle)

end

section
variable {τ ω ν γ : Type} [DecidableEq τ] [DecidableEq ω] [DecidableEq ν] [DecidableEq γ]
  {fastJob hiPri : τ → Bool} {s s' : State τ ω ν γ} {a : Act τ ω ν γ}

/-- Every step that locks in order keeps the invariant. -/
theorem Ordered.step [LT ν] (h : Ordered s) (hloc : Located fastJob s) (hin : InOrder s a)
    (habove : LocksAbove s a) (hs : step fastJob hiPri s a = some s') : Ordered s' := by
  cases step_effect hloc hs with
  | place u target hi ha hrun hwaits hplace hkeeps hgroup =>
    obtain ⟨hstack, hwaits', hobj, hholder⟩ := hkeeps
    exact h.mono hholder (fun x => by rw [hobj]) fun c x hx =>
      ⟨hwaits' ▸ hx, fun t ⟨w, ht⟩ => ⟨w, hstack ▸ ht⟩⟩
  | move u w hi hrun hwaits hplace hkeeps hgroup =>
    obtain ⟨hstack, hwaits', hobj, hholder⟩ := hkeeps
    exact h.mono hholder (fun x => by rw [hobj]) fun c x hx =>
      ⟨hwaits' ▸ hx, fun t ⟨w, ht⟩ => ⟨w, hstack ▸ ht⟩⟩
  | start u w hrun hwaits heq =>
    subst heq
    have hu : u ∉ s.stack w := fun hu => hrun w (hloc.running w u hu)
    refine h.mono rfl (fun x => rfl) fun c x hx => ⟨hx, fun t ht => ?_⟩
    refine (under_of_cons rfl rfl hu ht).resolve_right ?_
    rintro rfl
    exact ne_of_eq_of_ne hx (by simp) hwaits
  | leave t w rest p hstack hwaits hp hplace hstack' hwaits' hobj hholder hgroup =>
    have ht : t ∉ rest := (List.nodup_cons.1 (hstack ▸ hloc.nodup w)).1
    exact h.mono hholder (fun x => by rw [hobj]) fun c x hx =>
      ⟨hwaits' ▸ hx, fun u hu => under_of_pop hstack hstack' ht hu⟩
  | queue t w rest x o hstack hslow ha hwaits ho hkind heq =>
    have ht : t ∉ rest := (List.nodup_cons.1 (hstack ▸ hloc.nodup w)).1
    have hstack' : s'.stack = Function.update s.stack w rest := by
      rw [heq]
      rfl
    have hobj : ∀ y, (s'.obj y).isMutex = (s.obj y).isMutex := by
      intro y
      rw [heq]
      simp only [State.setStack, State.put, State.setWaits, Function.update_apply]
      split
      next hyx => rw [hkind, hyx]
      next => rfl
    have hholder : s'.holder = s.holder := by
      rw [heq]
      rfl
    have hwaits' : s'.waits = Function.update s.waits t (some (.obj x)) := by
      rw [heq]
      rfl
    have hloc' := hloc.step hs
    refine ⟨fun c y hy hmutex u hu x' hx' => ?_, fun y u hy => ?_⟩
    · rw [hholder] at hx'
      by_cases hct : c = t
      · subst hct
        rw [hwaits', Function.update_self] at hy
        cases hy
        have huc : u = c := by
          refine hu.resolve_right ?_
          rintro ⟨v, hc, -⟩
          have hnone := hloc'.slow v c hc hslow
          rw [hwaits', Function.update_self] at hnone
          cases hnone
        subst huc
        subst ha
        exact hin.1 (w, x) rfl (hobj x ▸ hmutex) u (by simp [hstack]) x' hx'
      · rw [hwaits', Function.update_of_ne hct] at hy
        exact h.after c y hy (hobj y ▸ hmutex) u (hu.imp_right (under_of_pop hstack hstack' ht)) x'
          hx'
    · rw [hobj]
      exact h.mutex y u (hholder ▸ hy)
  | got t w rest x o hstack ho hkind heq =>
    subst heq
    refine h.setObj hkind (fun u c hu => ?_) rfl rfl rfl fun c y hy => ?_
    · cases hu
      exact not_under_head hloc hstack
    · simp only [State.setWaits, Function.update_apply] at hy
      split at hy
      · cases hy
      next hct => exact ⟨hy, fun heq => hct (Option.some.inj heq).symm⟩
  | spin t w rest y hstack hfast ha hwaits heq =>
    subst heq
    rcases hwaits with hwaits | henters
    · have hsame : s.setWaits t (some y) = s := by simp [State.setWaits, ← hwaits]
      rwa [hsame]
    · refine ⟨fun c x hx hmutex u hu x' hx' => ?_, h.mutex⟩
      by_cases hct : c = t
      · subst hct
        have hself : (s.setWaits c (some y)).waits c = some y := Function.update_self _ _ _
        obtain rfl := Option.some.inj (hself.symm.trans hx)
        obtain rfl := ha x rfl
        rcases hu with rfl | hu
        · exact hin.1 (w, x) rfl hmutex u (by simp [hstack]) x' hx'
        · have hmem : u ∈ (s.stack w).tail := by
            simpa [hstack] using mem_tail_of_under hloc hstack hu
          exact habove (w, x) rfl hmutex u hmem x' hx'
      · exact h.after c x ((Function.update_of_ne hct _ _).symm.trans hx) hmutex u hu x' hx'
  | stop t w rest hstack heq =>
    subst heq
    refine h.mono rfl (fun x => rfl) fun c x hx => ⟨?_, fun t ht => ht⟩
    simp only [State.setWaits, Function.update_apply] at hx
    split at hx
    · cases hx
    · exact hx
  | release t w rest x hstack heq =>
    subst heq
    have hkind := Obj.isMutex_release (s.obj x)
    cases hnext : (s.obj x).release.2 with
    | none =>
      exact h.setObj hkind (fun u c hu => by cases hu) rfl rfl rfl
        fun c y hy => ⟨hy, fun heq => by cases heq⟩
    | some f =>
      have hf := hloc.queued x f (by
        rw [← Obj.waitingFibers_release (s.obj x), hnext]
        exact .head _)
      refine h.setObj hkind (fun u c hu hc => ?_) rfl rfl rfl fun c y hy => ?_
      · cases hu
        obtain ⟨v, -, hv, -⟩ := hc
        exact absurd ((hloc.running v f hv).symm.trans hf.1) (by simp)
      · simp only [Option.elim_some, State.setWaits, Function.update_apply] at hy
        split at hy
        · cases hy
        next hcf => exact ⟨hy, fun heq => hcf (Option.some.inj heq).symm⟩

/-- Tasks that acquire mutexes in order, and jobs on top of spin loops that lock only what comes
after the mutexes held beneath them, never wait for each other in a cycle. -/
theorem waitsFor_acyclic [Preorder ν] {kind : ν → Kind} {as : List (Act τ ω ν γ)}
    (hrun : Lts.run (Helping.step fastJob hiPri) (State.init kind) as = some s)
    (hin : ∀ p ∈ Lts.visits (Helping.step fastJob hiPri) (State.init kind) as, InOrder p.1 p.2)
    (habove : ∀ p ∈ Lts.visits (Helping.step fastJob hiPri) (State.init kind) as,
      LocksAbove p.1 p.2) (c : τ) : ¬ Relation.TransGen (WaitsFor s) c c := by
  have h := Lts.run_inv_of (I := fun s => Located fastJob s ∧ Ordered s)
    (G := fun s a => InOrder s a ∧ LocksAbove s a)
    (fun h hg hs => ⟨h.1.step hs, h.2.step h.1 hg.1 hg.2 hs⟩) ⟨Located.init, Ordered.init⟩ hrun
    fun p hp => ⟨hin p hp, habove p hp⟩
  exact h.2.not_cycle h.1 c

end

/-- A fast job on worker `false` holds the first mutex and spins for the second one, which a fast
job on worker `true` holds; it steals a third fast job, which locks `x`. -/
def stealsWhileHolding (x : Bool) : List (Act (Option Bool) Bool Bool Unit) :=
  [.push none none true, .drain true none, .push (some true) none true, .drain true (some true),
    .take true (some true), .acquire true true, .push (some false) none false,
    .drain false (some false), .take false (some false), .acquire false false, .acquire false true,
    .help false none false, .acquire false x]

theorem waitsFor_acyclic_stealsWhileHolding : ∃ s : State (Option Bool) Bool Bool Unit,
    Lts.run (step (fun _ => true) fun _ => false) (State.init fun _ => .mutex)
      (stealsWhileHolding true) = some s ∧ s.stack false = [none, some false] ∧
      s.waits none = some (.obj true) ∧ ¬ Relation.TransGen (WaitsFor s) none none := by
  refine ⟨(Lts.run _ _ (stealsWhileHolding true)).get (by decide), (Option.some_get _).symm,
    by decide, by decide, ?_⟩
  exact waitsFor_acyclic (Option.some_get (by decide)).symm (by decide) (by decide) none

/-- The third job locks the first mutex: it waits for the job beneath it, which waits for it. -/
theorem waitsFor_cycle :
    ¬ ∀ (as : List (Act (Option Bool) Bool Bool Unit)) (s : State (Option Bool) Bool Bool Unit),
      Lts.run (step (fun _ => true) fun _ => false) (State.init fun _ => .mutex) as = some s →
        (∀ p ∈ Lts.visits (step (fun _ => true) fun _ => false) (State.init fun _ => .mutex) as,
          InOrder p.1 p.2) → ∀ c, ¬ Relation.TransGen (WaitsFor s) c c := by
  intro hall
  refine hall (stealsWhileHolding false) _ (Option.some_get (by decide)).symm (by decide) none ?_
  exact .tail (b := some false) (.single (.inl ⟨false, by decide, by decide⟩))
    (.inr ⟨false, [], [], by decide⟩)

end JLibScheduler.Helping
