import JLibScheduler.ContextSwitch.Frame

/-!
# The first switch to a fiber

`Fiber::Init` builds by hand the frame that the second half of `ContextSwitch` takes from a stack.
For every stack that has room for the frame above its guard page the two fit together: the switch
lands on `FiberTrampoline` with the registers that `Init` seeded, and the `call rbx` there enters
the entry point with the alignment and the shadow space of a call (`init_starts`).
-/

namespace JLibScheduler.ContextSwitch

open Memory (Mem read write)

/-- The size of the guard page, the lowest one of a stack (`FiberStackArena.h:35`). -/
def guardSize : ℕ := 4096

/-- `FiberTrampoline` (`ContextSwitch.asm:78-79`): `call rbx`, an instruction of two bytes. -/
def fiberTrampoline (c : Cpu) : Cpu :=
  { c with
    rsp := c.rsp - 8
    mem := write c.mem (c.rsp - 8).toNat 8 (c.rip + 2).toNat
    rip := c.gpr .rbx }

/-- The general registers that `Init` seeds with zero. -/
def zeroGprs : List Gpr := [.rbp, .rdi, .rsi, .r12, .r13, .r14, .r15]

/-- The processor is at `FiberTrampoline` with the registers of a new fiber, and the call there
enters the entry point as the calling convention wants: with `rsp` congruent to 8 modulo 16, and 32
bytes above the return address that belong to the usable stack. -/
structure Starts (stackBase stackSize : ℕ) (trampoline entryPoint : BitVec 64) (c : Cpu) :
    Prop where
  mxcsr : c.mxcsr = 0x1F80
  fcw : c.fcw = 0x037F
  gpr : ∀ r ∈ zeroGprs, c.gpr r = 0
  xmm : ∀ x ∈ savedXmms, c.xmm x = 0
  rbx : c.gpr .rbx = entryPoint
  rip : c.rip = trampoline
  align : c.rsp.toNat % 16 = 0
  enters : (fiberTrampoline c).rip = entryPoint
  entryAlign : (fiberTrampoline c).rsp.toNat % 16 = 8
  entryBase : stackBase + guardSize ≤ (fiberTrampoline c).rsp.toNat
  shadow : (fiberTrampoline c).rsp.toNat + 8 + 32 ≤ stackBase + stackSize

section
variable {stackBase stackSize ctx : ℕ} {trampoline entryPoint : BitVec 64}

/-- The stack pointer that `Init` leaves: 16-aligned, with the frame and the shadow space above it
in the usable stack. -/
theorem exists_sp (stackBase : ℕ) (hsize : guardSize + 288 ≤ stackSize) :
    ∃ sp, sp + 272 = stackBase + stackSize - (stackBase + stackSize) % 16 ∧ sp % 16 = 0 ∧
      stackBase + guardSize ≤ sp := by
  refine ⟨stackBase + stackSize - (stackBase + stackSize) % 16 - 272, ?_, ?_, ?_⟩ <;> omega

/-- The stack pointer of a new fiber stands above its frame. -/
theorem freshCpu_rsp {sp : ℕ}
    (hsp : sp + 272 = stackBase + stackSize - (stackBase + stackSize) % 16) :
    (freshCpu (stackBase + stackSize) trampoline entryPoint).rsp = BitVec.ofNat 64 (sp + 240) := by
  have htop : stackBase + stackSize - (stackBase + stackSize) % 16 - 32 = sp + 240 := by omega
  rw [freshCpu, htop]

/-- A processor that goes on with the registers of a new fiber starts it. -/
theorem Resumes.starts {sp : ℕ} {cpu : Cpu}
    (h : Resumes (freshCpu (stackBase + stackSize) trampoline entryPoint) trampoline cpu)
    (hsp : sp + 272 = stackBase + stackSize - (stackBase + stackSize) % 16) (halign : sp % 16 = 0)
    (hbase : stackBase + guardSize ≤ sp) (hlt : stackBase + stackSize < 2 ^ 64) :
    Starts stackBase stackSize trampoline entryPoint cpu := by
  have hrsp : cpu.rsp = BitVec.ofNat 64 (sp + 240) := by
    rw [h.rsp, freshCpu_rsp hsp]
  have hnat : cpu.rsp.toNat = sp + 240 := by
    rw [hrsp, toNat_rsp (by omega)]
  have hcall : (fiberTrampoline cpu).rsp.toNat = sp + 232 := by
    change (cpu.rsp - 8).toNat = sp + 232
    rw [hrsp, show (8 : BitVec 64) = BitVec.ofNat 64 8 from rfl,
      show sp + 240 = sp + 232 + 8 from rfl, ofNat_sub, toNat_rsp (by omega)]
  have hrbx : cpu.gpr .rbx = entryPoint := h.gpr .rbx (by decide)
  refine ⟨h.mxcsr, h.fcw, fun r hr => ?_, h.xmm, hrbx, h.rip, ?_, hrbx, ?_, ?_, ?_⟩
  · have hsaved : r ∈ savedGprs ∧ r ≠ .rbx := by
      revert hr
      cases r <;> decide
    rw [h.gpr r hsaved.1]
    exact if_neg hsaved.2
  · rw [hnat]
    omega
  · rw [hcall]
    omega
  · rw [hcall]
    omega
  · rw [hcall]
    omega

/-- A new fiber starts correctly: `Init` writes only to the usable part of the fiber's stack and to
its `Context` object, leaves a 16-aligned `ctx.rsp` there, and the second half of `ContextSwitch`
from this `Context` starts the fiber. -/
theorem init_starts (m : Mem) (trampoline entryPoint : BitVec 64)
    (hsize : guardSize + 288 ≤ stackSize) (hlt : stackBase + stackSize < 2 ^ 64)
    (hctx : ctx + 8 ≤ stackBase ∨ stackBase + stackSize ≤ ctx) :
    (∀ x, (x < stackBase + guardSize ∨ stackBase + stackSize ≤ x) → (x < ctx ∨ ctx + 8 ≤ x) →
      init m (stackBase + stackSize) ctx trampoline entryPoint x = m x) ∧
    read (init m (stackBase + stackSize) ctx trampoline entryPoint) ctx 8 % 16 = 0 ∧
    ∀ c : Cpu, c.mem = init m (stackBase + stackSize) ctx trampoline entryPoint →
      (c.gpr .rdx).toNat = ctx → ∃ cpu, execs c restore = some cpu ∧
        Starts stackBase stackSize trampoline entryPoint cpu := by
  obtain ⟨sp, hsp, halign, hbase⟩ := exists_sp stackBase hsize
  obtain ⟨m', rfl, hframe, hread, hout⟩ := frame_init sp m ctx trampoline entryPoint hsp (by omega)
    (by omega)
  refine ⟨fun x hx hxctx => hout x (by omega) hxctx, by rw [hread]; exact halign,
    fun c hmem hrdx => ?_⟩
  rw [← hmem] at hframe hread
  rw [← hrdx] at hread
  obtain ⟨cpu, hrun, -, hresumes⟩ := execs_restore c
    (freshCpu (stackBase + stackSize) trampoline entryPoint) hread (by omega) halign hframe
    (freshCpu_rsp hsp)
  exact ⟨cpu, hrun, hresumes.starts hsp halign hbase hlt⟩

end

/-- The smallest stack, at an address that is not aligned. -/
theorem init_starts_smallest :
    read (init (fun _ => 0) (65541 + 4384) 16 0x5000 0x6000) 16 8 % 16 = 0 ∧
      ∀ c : Cpu, c.mem = init (fun _ => 0) (65541 + 4384) 16 0x5000 0x6000 →
        (c.gpr .rdx).toNat = 16 →
          ∃ cpu, execs c restore = some cpu ∧ Starts 65541 4384 0x5000 0x6000 cpu :=
  (init_starts (fun _ => 0) 0x5000 0x6000 (by decide) (by decide) (by decide)).2

end JLibScheduler.ContextSwitch
