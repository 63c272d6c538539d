import Mathlib.Data.Fintype.Basic
import JLibScheduler.Lib.Memory

/-!
# The context switch

`ContextSwitch.asm` over the instructions it uses (`Instr`), and `Fiber::Init` (`Fiber.cpp:11-53`),
which prepares the stack of a fiber for it. An aligned access of 16 bytes to an address that is not
a multiple of 16 faults: then `exec` is `none`.

Around them the machine of any number of contexts with a stack and a `Context` object each. The code
of the context that runs may change every register, and the memory but for the stacks and `Context`
objects of the others; it may prepare another fiber, and call `ContextSwitch`. Not in the code:
`saved`, how each context that does not run was prepared, a context that called with its registers
at the call.
-/

namespace JLibScheduler.ContextSwitch

open Memory (Mem read write)

/-- The general registers but for `rsp`. -/
inductive Gpr where
  | rax | rbx | rcx | rdx | rbp | rsi | rdi | r8 | r9 | r10 | r11 | r12 | r13 | r14 | r15
  deriving DecidableEq, Repr

/-- The vector registers. -/
inductive Xmm where
  | xmm0 | xmm1 | xmm2 | xmm3 | xmm4 | xmm5 | xmm6 | xmm7 | xmm8 | xmm9 | xmm10 | xmm11 | xmm12
  | xmm13 | xmm14 | xmm15
  deriving DecidableEq, Repr

/-- The registers of a processor, and the memory. -/
structure Cpu where
  gpr : Gpr → BitVec 64
  rsp : BitVec 64
  rip : BitVec 64
  xmm : Xmm → BitVec 128
  mxcsr : BitVec 32
  /-- the x87 control word -/
  fcw : BitVec 16
  mem : Mem

/-- The instructions of `ContextSwitch`; `off` is an offset from `rsp`. -/
inductive Instr where
  | push (r : Gpr)
  | pop (r : Gpr)
  | subRsp (n : ℕ)
  | addRsp (n : ℕ)
  /-- `movdqa [rsp + off], x` -/
  | movdqaStore (off : ℕ) (x : Xmm)
  /-- `movdqa x, [rsp + off]` -/
  | movdqaLoad (x : Xmm) (off : ℕ)
  | stmxcsr (off : ℕ)
  | fnstcw (off : ℕ)
  | ldmxcsr (off : ℕ)
  | fldcw (off : ℕ)
  /-- `mov [r], rsp` -/
  | storeRsp (r : Gpr)
  /-- `mov rsp, [r]` -/
  | loadRsp (r : Gpr)
  | ret
  deriving DecidableEq, Repr

/-- The address `[rsp + off]`. -/
def Cpu.addr (c : Cpu) (off : ℕ) : ℕ := (c.rsp + BitVec.ofNat 64 off).toNat

/-- What an instruction does. -/
def exec (c : Cpu) : Instr → Option Cpu
  | .push r =>
    let rsp := c.rsp - 8
    some { c with rsp := rsp, mem := write c.mem rsp.toNat 8 (c.gpr r).toNat }
  | .pop r =>
    some { c with
      rsp := c.rsp + 8
      gpr := Function.update c.gpr r (BitVec.ofNat 64 (read c.mem c.rsp.toNat 8)) }
  | .subRsp n => some { c with rsp := c.rsp - BitVec.ofNat 64 n }
  | .addRsp n => some { c with rsp := c.rsp + BitVec.ofNat 64 n }
  | .movdqaStore off x =>
    if c.addr off % 16 = 0 then
      some { c with mem := write c.mem (c.addr off) 16 (c.xmm x).toNat }
    else none
  | .movdqaLoad x off =>
    if c.addr off % 16 = 0 then
      some { c with
        xmm := Function.update c.xmm x (BitVec.ofNat 128 (read c.mem (c.addr off) 16)) }
    else none
  | .stmxcsr off => some { c with mem := write c.mem (c.addr off) 4 c.mxcsr.toNat }
  | .fnstcw off => some { c with mem := write c.mem (c.addr off) 2 c.fcw.toNat }
  | .ldmxcsr off => some { c with mxcsr := BitVec.ofNat 32 (read c.mem (c.addr off) 4) }
  | .fldcw off => some { c with fcw := BitVec.ofNat 16 (read c.mem (c.addr off) 2) }
  | .storeRsp r => some { c with mem := write c.mem (c.gpr r).toNat 8 c.rsp.toNat }
  | .loadRsp r => some { c with rsp := BitVec.ofNat 64 (read c.mem (c.gpr r).toNat 8) }
  | .ret =>
    some { c with
      rip := BitVec.ofNat 64 (read c.mem c.rsp.toNat 8)
      rsp := c.rsp + 8 }

/-- What a piece of code does. -/
def execs : Cpu → List Instr → Option Cpu
  | c, [] => some c
  | c, i :: is => (exec c i).bind fun c' => execs c' is

/-- `ContextSwitch` (`ContextSwitch.asm:2-71`). -/
def contextSwitch : List Instr :=
  [.push .rbx, .push .rbp, .push .rdi, .push .rsi, .push .r12, .push .r13, .push .r14, .push .r15,
    .subRsp 168,
    .movdqaStore 0 .xmm6, .movdqaStore 16 .xmm7, .movdqaStore 32 .xmm8, .movdqaStore 48 .xmm9,
    .movdqaStore 64 .xmm10, .movdqaStore 80 .xmm11, .movdqaStore 96 .xmm12,
    .movdqaStore 112 .xmm13, .movdqaStore 128 .xmm14, .movdqaStore 144 .xmm15,
    .stmxcsr 160, .fnstcw 164,
    .storeRsp .rcx, .loadRsp .rdx,
    .ldmxcsr 160, .fldcw 164,
    .movdqaLoad .xmm6 0, .movdqaLoad .xmm7 16, .movdqaLoad .xmm8 32, .movdqaLoad .xmm9 48,
    .movdqaLoad .xmm10 64, .movdqaLoad .xmm11 80, .movdqaLoad .xmm12 96, .movdqaLoad .xmm13 112,
    .movdqaLoad .xmm14 128, .movdqaLoad .xmm15 144,
    .addRsp 168,
    .pop .r15, .pop .r14, .pop .r13, .pop .r12, .pop .rsi, .pop .rdi, .pop .rbp, .pop .rbx,
    .ret]

/-- The call `ContextSwitch(from, to)`, which will return to the address `ret`. -/
def Cpu.call (c : Cpu) (fromCtx toCtx ret : BitVec 64) : Cpu :=
  { c with
    rsp := c.rsp - 8
    mem := write c.mem (c.rsp - 8).toNat 8 ret.toNat
    gpr := Function.update (Function.update c.gpr .rcx fromCtx) .rdx toCtx }

/-- The words `*(--sp) = w`. -/
def pushWords (m : Mem) (sp : ℕ) : List (BitVec 64) → Mem × ℕ
  | [] => (m, sp)
  | w :: ws => pushWords (write m (sp - 8) 8 w.toNat) (sp - 8) ws

/-- The words that `Fiber::Init` puts on a stack: the return address, the registers `rbx`, `rbp`,
`rdi`, `rsi`, `r12` to `r15`, the control words, and the vector registers. -/
def initWords (trampoline entryPoint : BitVec 64) : List (BitVec 64) :=
  [trampoline, entryPoint, 0, 0, 0, 0, 0, 0, 0, 0x0000037F00001F80] ++ List.replicate 20 0

/-- `Fiber::Init` (`Fiber.cpp:11-53`) on the stack that ends at `stackEnd`. -/
def init (m : Mem) (stackEnd ctx : ℕ) (trampoline entryPoint : BitVec 64) : Mem :=
  let top := stackEnd - stackEnd % 16
  let (m, sp) := pushWords m (top - 32) (initWords trampoline entryPoint)
  write m ctx 8 sp

/-- Where the stacks and the `Context` objects of contexts lie. -/
structure Layout (ι : Type) where
  stackBase : ι → ℕ
  stackEnd : ι → ℕ
  ctx : ι → ℕ
  stack_disjoint : ∀ i j, i ≠ j → stackEnd i ≤ stackBase j ∨ stackEnd j ≤ stackBase i
  ctx_disjoint : ∀ i j, i ≠ j → ctx i + 8 ≤ ctx j ∨ ctx j + 8 ≤ ctx i
  ctx_stack : ∀ i j, ctx i + 8 ≤ stackBase j ∨ stackEnd j ≤ ctx i
  stackEnd_lt : ∀ i, stackEnd i < 2 ^ 64
  ctx_lt : ∀ i, ctx i < 2 ^ 64

/-- The byte `a` lies in the stack or the `Context` object of `i`. -/
def Layout.Has {ι : Type} (l : Layout ι) (i : ι) (a : ℕ) : Prop :=
  (l.stackBase i ≤ a ∧ a < l.stackEnd i) ∨ (l.ctx i ≤ a ∧ a < l.ctx i + 8)

instance {ι : Type} (l : Layout ι) (i : ι) (a : ℕ) : Decidable (l.Has i a) :=
  inferInstanceAs (Decidable (_ ∨ _))

/-- How a context that does not run was prepared. -/
inductive Prepared where
  | fresh (entryPoint : BitVec 64)
  /-- it called with the registers of `c`, and the call returns to `ret` -/
  | called (c : Cpu) (ret : BitVec 64)

/-- The state of contexts `ι`. -/
structure State (ι : Type) where
  cpu : Cpu
  current : ι
  saved : ι → Option Prepared

/-- What the running code does. -/
inductive Act (ι : Type) where
  | setGpr (r : Gpr) (v : BitVec 64)
  | setRsp (v : BitVec 64)
  | setRip (v : BitVec 64)
  | setXmm (x : Xmm) (v : BitVec 128)
  | setMxcsr (v : BitVec 32)
  | setFcw (v : BitVec 16)
  | store (a : ℕ) (b : UInt8)
  /-- `Fiber::Init` on another context -/
  | init (i : ι) (entryPoint : BitVec 64)
  /-- `ContextSwitch` to a context, with the address that this call returns to -/
  | switch (j : ι) (ret : BitVec 64)

section
variable {ι : Type} [DecidableEq ι]

/-- The stack pointer has the alignment of a call and is in the stack, with room for what the call
pushes. -/
def Layout.CanCall (l : Layout ι) (s : State ι) : Prop :=
  s.cpu.rsp.toNat % 16 = 0 ∧ l.stackBase s.current + 240 ≤ s.cpu.rsp.toNat ∧
    s.cpu.rsp.toNat ≤ l.stackEnd s.current

instance (l : Layout ι) (s : State ι) : Decidable (l.CanCall s) :=
  inferInstanceAs (Decidable (_ ∧ _))

/-- How the context `j` was prepared when the running code calls `ContextSwitch` to it. -/
def State.target (s : State ι) (j : ι) (ret : BitVec 64) : Option Prepared :=
  if j = s.current then some (.called s.cpu ret) else s.saved j

/-- One step of the machine. -/
def step [Fintype ι] (l : Layout ι) (trampoline : BitVec 64) (s : State ι) :
    Act ι → Option (State ι)
  | .setGpr r v => some { s with cpu := { s.cpu with gpr := Function.update s.cpu.gpr r v } }
  | .setRsp v => some { s with cpu := { s.cpu with rsp := v } }
  | .setRip v => some { s with cpu := { s.cpu with rip := v } }
  | .setXmm x v => some { s with cpu := { s.cpu with xmm := Function.update s.cpu.xmm x v } }
  | .setMxcsr v => some { s with cpu := { s.cpu with mxcsr := v } }
  | .setFcw v => some { s with cpu := { s.cpu with fcw := v } }
  | .store a b =>
    if ∀ j, j ≠ s.current → ¬ l.Has j a then
      some { s with cpu := { s.cpu with mem := Function.update s.cpu.mem a b } }
    else none
  | .init i entryPoint =>
    if i ≠ s.current ∧ l.stackBase i + 288 ≤ l.stackEnd i then
      some { s with
        cpu := { s.cpu with mem := init s.cpu.mem (l.stackEnd i) (l.ctx i) trampoline entryPoint }
        saved := Function.update s.saved i (some (.fresh entryPoint)) }
    else none
  | .switch j ret =>
    if l.CanCall s ∧ (s.target j ret).isSome then
      (execs (s.cpu.call (BitVec.ofNat 64 (l.ctx s.current)) (BitVec.ofNat 64 (l.ctx j)) ret)
          contextSwitch).map fun cpu =>
        { cpu := cpu
          current := j
          saved := Function.update
            (Function.update s.saved s.current (some (.called s.cpu ret))) j none }
    else none

end

end JLibScheduler.ContextSwitch
