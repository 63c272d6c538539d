import JLibScheduler.Lib.Lts
import JLibScheduler.ContextSwitch.Frame

/-!
# A context switch preserves the contexts

In every run, each context that does not run has a frame on its own stack, at the address in its
`Context` object (`Parked`). Therefore a `ContextSwitch` to it does not fault, and goes on with the
registers that it had when it called (`contextSwitch_preserves`).
-/

namespace JLibScheduler.ContextSwitch

open Memory (Mem read write)

/-- The registers and the address with which a context goes on. -/
def Layout.regs {ι : Type} (l : Layout ι) (trampoline : BitVec 64) (i : ι) :
    Prepared → Cpu × BitVec 64
  | .fresh entryPoint => (freshCpu (l.stackEnd i) trampoline entryPoint, trampoline)
  | .called c ret => (c, ret)

/-- The context `i` has its frame at `sp`. -/
structure Parked {ι : Type} (l : Layout ι) (m : Mem) (i : ι) (g : Cpu × BitVec 64) (sp : ℕ) :
    Prop where
  ctx : read m (l.ctx i) 8 = sp
  align : sp % 16 = 0
  base : l.stackBase i ≤ sp
  top : sp + 240 ≤ l.stackEnd i
  frame : Frame m sp g.1 g.2
  rsp : g.1.rsp = BitVec.ofNat 64 (sp + 240)

/-- The invariant. -/
def Inv {ι : Type} (l : Layout ι) (trampoline : BitVec 64) (s : State ι) : Prop :=
  ∀ i, i ≠ s.current → ∀ p, s.saved i = some p →
    ∃ sp, Parked l s.cpu.mem i (l.regs trampoline i p) sp

section
variable {ι : Type} {l : Layout ι} {m m' : Mem} {i j : ι} {g : Cpu × BitVec 64} {sp a : ℕ}

/-- No byte belongs to two contexts. -/
theorem Layout.Has.unique (hi : l.Has i a) (hj : l.Has j a) : i = j := by
  by_contra hne
  have hstack := l.stack_disjoint i j hne
  have hctx := l.ctx_disjoint i j hne
  have hij := l.ctx_stack i j
  have hji := l.ctx_stack j i
  unfold Layout.Has at hi hj
  omega

/-- What a context has saved depends on its own bytes. -/
theorem Parked.congr (h : Parked l m i g sp) (heq : ∀ a, l.Has i a → m a = m' a) :
    Parked l m' i g sp where
  ctx := h.ctx ▸ (Memory.read_congr fun a hl hr => heq a (.inr ⟨hl, hr⟩)).symm
  align := h.align
  base := h.base
  top := h.top
  frame := h.frame.congr fun a hl hr => heq a (.inl ⟨by have := h.base; omega, by
    have := h.top
    omega⟩)
  rsp := h.rsp

/-- A step that changes no byte of a context that does not run. -/
theorem Inv.congr {trampoline : BitVec 64} {s : State ι} {cpu : Cpu} (h : Inv l trampoline s)
    (heq : ∀ i, i ≠ s.current → ∀ a, l.Has i a → s.cpu.mem a = cpu.mem a) :
    Inv l trampoline { s with cpu := cpu } := fun i hi p hp =>
  (h i hi p hp).imp fun _ hpark => hpark.congr (heq i hi)

end

section
variable {ι : Type} [DecidableEq ι] {l : Layout ι} {trampoline : BitVec 64} {s s' : State ι}
  {i j : ι} {ret : BitVec 64}

/-- `Fiber::Init` prepares a context. -/
theorem Inv.init (h : Inv l trampoline s) (hroom : l.stackBase i + 288 ≤ l.stackEnd i)
    (entryPoint : BitVec 64) :
    Inv l trampoline { s with
      cpu := { s.cpu with
        mem := init s.cpu.mem (l.stackEnd i) (l.ctx i) trampoline entryPoint }
      saved := Function.update s.saved i (some (.fresh entryPoint)) } := by
  have hend := l.stackEnd_lt i
  have hctx := l.ctx_stack i i
  obtain ⟨sp, hsp⟩ : ∃ sp, sp + 272 = l.stackEnd i - l.stackEnd i % 16 :=
    ⟨l.stackEnd i - l.stackEnd i % 16 - 272, Nat.sub_add_cancel (by omega)⟩
  obtain ⟨m', hm', hframe, hread, hout⟩ := frame_init sp s.cpu.mem (l.ctx i) trampoline entryPoint
    hsp (by omega) (by omega)
  intro j hj p hp
  replace hp : Function.update s.saved i (some (.fresh entryPoint)) j = some p := hp
  rw [hm']
  by_cases hji : j = i
  · subst hji
    rw [Function.update_self] at hp
    cases hp
    exact ⟨sp, hread, by omega, by omega, by omega, hframe, by
      show BitVec.ofNat 64 _ = _
      rw [← hsp]
      rfl⟩
  · rw [Function.update_of_ne hji] at hp
    obtain ⟨sp', hpark⟩ := h j hj p hp
    refine ⟨sp', hpark.congr fun a ha => (hout a ?_ ?_).symm⟩
    · by_contra hin
      exact hji (ha.unique (.inl ⟨by omega, by omega⟩))
    · by_contra hin
      exact hji (ha.unique (.inr ⟨by omega, by omega⟩))

/-- A call of `ContextSwitch` saves the context that runs, and goes on as the other was prepared. -/
theorem Inv.switch {p : Prepared} (h : Inv l trampoline s) (hcan : l.CanCall s)
    (hp : s.target j ret = some p) :
    ∃ cpu, execs (s.cpu.call (BitVec.ofNat 64 (l.ctx s.current)) (BitVec.ofNat 64 (l.ctx j)) ret)
        contextSwitch = some cpu ∧
      Resumes (l.regs trampoline j p).1 (l.regs trampoline j p).2 cpu ∧
      Inv l trampoline {
        cpu := cpu
        current := j
        saved := Function.update
          (Function.update s.saved s.current (some (.called s.cpu ret))) j none } := by
  obtain ⟨halign, hbase, htop⟩ := hcan
  have hend := l.stackEnd_lt s.current
  have hctx := l.ctx_stack s.current s.current
  obtain ⟨sp, hsp⟩ : ∃ sp, sp + 240 = s.cpu.rsp.toNat := ⟨_, Nat.sub_add_cancel (by omega)⟩
  have hrsp : s.cpu.rsp = BitVec.ofNat 64 (sp + 240) := by
    rw [hsp, BitVec.ofNat_toNat, BitVec.setWidth_eq]
  have hrsp8 : s.cpu.rsp - 8 = BitVec.ofNat 64 (sp + 232) := by
    rw [hrsp]
    exact ofNat_sub (sp + 232) 8
  have haddr : (s.cpu.rsp - 8).toNat = sp + 232 := by rw [hrsp8, toNat_rsp (by omega)]
  obtain ⟨c, hc⟩ : ∃ c, s.cpu.call (BitVec.ofNat 64 (l.ctx s.current)) (BitVec.ofNat 64 (l.ctx j))
      ret = c := ⟨_, rfl⟩
  have hcrsp : c.rsp = BitVec.ofNat 64 (sp + 232) := hc ▸ hrsp8
  have hrcx : (c.gpr .rcx).toNat = l.ctx s.current := hc ▸ toNat_rsp (l.ctx_lt _)
  have hrdx : (c.gpr .rdx).toNat = l.ctx j := hc ▸ toNat_rsp (l.ctx_lt _)
  have hmem : c.mem = write s.cpu.mem (sp + 232) 8 ret.toNat := by rw [← haddr, ← hc]; rfl
  obtain ⟨m, hsave, hframe, hread, hout⟩ := execs_save sp c hcrsp (by omega)
    (by omega) (by rw [hmem]; exact Memory.read_write_self ret.isLt) (by rw [hrcx]; omega)
  rw [hrcx] at hread hout
  have hself : Parked l m s.current (s.cpu, ret) sp := by
    subst hc
    refine ⟨hread, by omega, by omega, by omega, ?_, hrsp⟩
    exact ⟨hframe.xmms, hframe.mxcsr, hframe.fcw, hframe.gprs, hframe.ret⟩
  have hother : ∀ i, i ≠ s.current → ∀ a, l.Has i a → s.cpu.mem a = m a := by
    intro i hi a ha
    have hstack : a < sp ∨ sp + 240 ≤ a := by
      by_contra hin
      exact hi (ha.unique (.inl ⟨by omega, by omega⟩))
    have hctx : a < l.ctx s.current ∨ l.ctx s.current + 8 ≤ a := by
      by_contra hin
      exact hi (ha.unique (.inr ⟨by omega, by omega⟩))
    rw [hout a (by omega) hctx, hmem]
    exact (Memory.write_apply (by omega)).symm
  have htarget : ∃ sp', Parked l m j (l.regs trampoline j p) sp' := by
    unfold State.target at hp
    split at hp
    next heq =>
      subst heq
      cases hp
      exact ⟨sp, hself⟩
    next hne =>
      obtain ⟨sp', hpark⟩ := h j hne p hp
      exact ⟨sp', hpark.congr (hother j hne)⟩
  obtain ⟨sp', hpark⟩ := htarget
  have hend' := l.stackEnd_lt j
  have htop' := hpark.top
  obtain ⟨cpu, hrestore, hcpu, hres⟩ := execs_restore
    { c with rsp := BitVec.ofNat 64 sp, mem := m } (l.regs trampoline j p).1
    (by rw [hrdx]; exact hpark.ctx) (by omega) hpark.align hpark.frame hpark.rsp
  refine ⟨cpu, ?_, hres, fun i hi q hq => ?_⟩
  · rw [hc, contextSwitch_eq, execs_append, hsave, Option.bind_some, hrestore]
  · replace hi : i ≠ j := hi
    replace hq : Function.update (Function.update s.saved s.current (some (.called s.cpu ret)))
        j none i = some q := hq
    rw [Function.update_of_ne hi] at hq
    rw [hcpu]
    by_cases hcur : i = s.current
    · subst hcur
      rw [Function.update_self] at hq
      cases hq
      exact ⟨sp, hself⟩
    · rw [Function.update_of_ne hcur] at hq
      obtain ⟨sp'', hpark'⟩ := h i hcur q hq
      exact ⟨sp'', hpark'.congr (hother i hcur)⟩

variable [Fintype ι]

/-- Every step keeps the invariant. -/
theorem Inv.step {a : Act ι} (h : Inv l trampoline s)
    (hs : ContextSwitch.step l trampoline s a = some s') : Inv l trampoline s' := by
  cases a with
  | setGpr r v | setRsp v | setRip v | setXmm x v | setMxcsr v | setFcw v =>
    cases hs
    exact h.congr fun _ _ _ _ => rfl
  | store a b =>
    simp only [ContextSwitch.step, Option.ite_none_right_eq_some, Option.some.injEq] at hs
    obtain ⟨hnot, rfl⟩ := hs
    refine h.congr fun i hi x hx => (Function.update_of_ne ?_ _ _).symm
    rintro rfl
    exact hnot i hi hx
  | init i entryPoint =>
    simp only [ContextSwitch.step, Option.ite_none_right_eq_some, Option.some.injEq] at hs
    obtain ⟨⟨-, hroom⟩, rfl⟩ := hs
    exact h.init hroom entryPoint
  | switch j ret =>
    simp only [ContextSwitch.step, Option.ite_none_right_eq_some] at hs
    obtain ⟨⟨hcan, hsome⟩, hs⟩ := hs
    obtain ⟨p, hp⟩ := Option.isSome_iff_exists.1 hsome
    obtain ⟨cpu, hexec, -, hinv⟩ := h.switch hcan hp
    rw [hexec] at hs
    cases hs
    exact hinv

/-- A `ContextSwitch` to a context that was prepared does not fault, and goes on with the registers
the context had when it called, or with those of a new fiber. -/
theorem contextSwitch_preserves {s₀ : State ι} {as : List (Act ι)}
    (hrun : Lts.run (step l trampoline) s₀ as = some s) (hstart : ∀ i, s₀.saved i = none) (j : ι)
    (ret : BitVec 64) (p : Prepared) (hcan : l.CanCall s) (hp : s.target j ret = some p) :
    ∃ s', step l trampoline s (.switch j ret) = some s' ∧ s'.current = j ∧
      Resumes (l.regs trampoline j p).1 (l.regs trampoline j p).2 s'.cpu := by
  have h : Inv l trampoline s := by
    refine Lts.run_inv Inv.step (fun i _ p hp => ?_) hrun
    rw [hstart i] at hp
    cases hp
  obtain ⟨cpu, hexec, hres, -⟩ := h.switch hcan hp
  refine ⟨{
    cpu := cpu
    current := j
    saved := Function.update
      (Function.update s.saved s.current (some (.called s.cpu ret))) j none }, ?_, rfl, hres⟩
  rw [step, if_pos ⟨hcan, by rw [hp]; rfl⟩, hexec]
  rfl

end

/-- A thread and a fiber. -/
def twoContexts : Layout Bool where
  stackBase i := if i then 4096 else 16384
  stackEnd i := if i then 8200 else 20480
  ctx i := if i then 64 else 72
  stack_disjoint := by decide
  ctx_disjoint := by decide
  ctx_stack := by decide
  stackEnd_lt := by decide
  ctx_lt := by decide

/-- The thread runs. -/
def threadRuns : State Bool where
  cpu :=
    { gpr := fun _ => 5
      rsp := 20000
      rip := 0
      xmm := fun _ => 6
      mxcsr := 0x9FC0
      fcw := 0x027F
      mem := fun _ => 0 }
  current := false
  saved _ := none

/-- The thread prepares a fiber and switches to it, and the fiber changes registers. -/
def switchesToFiber : List (Act Bool) :=
  [.init true 0x401000, .switch true 0x402000, .setGpr .rbx 1, .setXmm .xmm9 2, .setMxcsr 3,
    .setFcw 4]

theorem contextSwitch_preserves_switchesToFiber : ∃ s s' : State Bool, ∃ p : Prepared,
    Lts.run (step twoContexts 0x400000) threadRuns switchesToFiber = some s ∧
      s.target false 0x403000 = some p ∧
      step twoContexts 0x400000 s (.switch false 0x403000) = some s' ∧ s'.current = false ∧
      Resumes (twoContexts.regs 0x400000 false p).1 (twoContexts.regs 0x400000 false p).2
        s'.cpu := by
  have hall : (Lts.run (step twoContexts 0x400000) threadRuns switchesToFiber).map (fun s =>
      decide (twoContexts.CanCall s) && (s.target false 0x403000).isSome) = some true := by
    decide +kernel
  obtain ⟨s, hrun, hs⟩ := Option.map_eq_some_iff.1 hall
  rw [Bool.and_eq_true, decide_eq_true_eq] at hs
  obtain ⟨p, hp⟩ := Option.isSome_iff_exists.1 hs.2
  obtain ⟨s', hs', hcur, hres⟩ :=
    contextSwitch_preserves hrun (fun _ => rfl) false 0x403000 p hs.1 hp
  exact ⟨s, s', p, hrun, hp, hs', hcur, hres⟩

end JLibScheduler.ContextSwitch
