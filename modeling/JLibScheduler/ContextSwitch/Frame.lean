import Mathlib.Data.BitVec
import JLibScheduler.ContextSwitch.Basic

/-!
# The frame that a context switch leaves

The first half of `ContextSwitch` puts the callee-saved registers below the return address on the
stack of the caller (`execs_save`), the second half takes them from the stack of the callee
(`execs_restore`). `Frame` says what lies on a stack in between; `Fiber::Init` writes such a frame
too (`frame_init`).
-/

namespace JLibScheduler.ContextSwitch

open Memory (Mem read write Cells)

/-- The general registers that a call keeps, in the order in which they are pushed. -/
def savedGprs : List Gpr := [.rbx, .rbp, .rdi, .rsi, .r12, .r13, .r14, .r15]

/-- The vector registers that a call keeps. -/
def savedXmms : List Xmm :=
  [.xmm6, .xmm7, .xmm8, .xmm9, .xmm10, .xmm11, .xmm12, .xmm13, .xmm14, .xmm15]

def stores (off : ℕ) : List Xmm → List Instr
  | [] => []
  | x :: xs => .movdqaStore off x :: stores (off + 16) xs

def loads (off : ℕ) : List Xmm → List Instr
  | [] => []
  | x :: xs => .movdqaLoad x off :: loads (off + 16) xs

/-- `ContextSwitch` up to the store of the stack pointer. -/
def save : List Instr :=
  savedGprs.map .push ++ (.subRsp 168 ::
    (stores 0 savedXmms ++ [.stmxcsr 160, .fnstcw 164, .storeRsp .rcx]))

/-- `ContextSwitch` from the load of the stack pointer on. -/
def restore : List Instr :=
  [.loadRsp .rdx, .ldmxcsr 160, .fldcw 164] ++
    (loads 0 savedXmms ++ (.addRsp 168 :: (savedGprs.reverse.map .pop ++ [.ret])))

theorem contextSwitch_eq : contextSwitch = save ++ restore := rfl

/-- The saved registers of `c` and its return address lie from `sp` on. -/
structure Frame (m : Mem) (sp : ℕ) (c : Cpu) (ret : BitVec 64) : Prop where
  xmms : Cells m sp 16 (savedXmms.map fun x => (c.xmm x).toNat)
  mxcsr : read m (sp + 160) 4 = c.mxcsr.toNat
  fcw : read m (sp + 164) 2 = c.fcw.toNat
  gprs : Cells m (sp + 168) 8 (savedGprs.reverse.map fun r => (c.gpr r).toNat)
  ret : read m (sp + 232) 8 = ret.toNat

/-- The processor goes on as `c`, at the address `ret`. -/
structure Resumes (c : Cpu) (ret : BitVec 64) (cpu : Cpu) : Prop where
  gpr : ∀ r ∈ savedGprs, cpu.gpr r = c.gpr r
  xmm : ∀ x ∈ savedXmms, cpu.xmm x = c.xmm x
  mxcsr : cpu.mxcsr = c.mxcsr
  fcw : cpu.fcw = c.fcw
  rsp : cpu.rsp = c.rsp
  rip : cpu.rip = ret

variable {c : Cpu} {m m' : Mem} {sp off n k : ℕ} {ret : BitVec 64}

/-- A frame depends on the bytes in it. -/
theorem Frame.congr (h : Frame m sp c ret) (heq : ∀ x, sp ≤ x → x < sp + 240 → m x = m' x) :
    Frame m' sp c ret where
  xmms := h.xmms.congr fun x hl hr => heq x hl (by
    simp only [List.length_map, savedXmms, List.length_cons, List.length_nil] at hr
    omega)
  mxcsr := h.mxcsr ▸ (Memory.read_congr fun x hl hr => heq x (by omega) (by omega)).symm
  fcw := h.fcw ▸ (Memory.read_congr fun x hl hr => heq x (by omega) (by omega)).symm
  gprs := h.gprs.congr fun x hl hr => heq x (by omega) (by
    simp only [List.length_map, List.length_reverse, savedGprs, List.length_cons,
      List.length_nil] at hr
    omega)
  ret := h.ret ▸ (Memory.read_congr fun x hl hr => heq x (by omega) (by omega)).symm

theorem toNat_rsp (h : n < 2 ^ 64) : (BitVec.ofNat 64 n).toNat = n := by
  rw [BitVec.toNat_ofNat, Nat.mod_eq_of_lt h]

theorem ofNat_sub (n k : ℕ) : BitVec.ofNat 64 (n + k) - BitVec.ofNat 64 k = BitVec.ofNat 64 n := by
  rw [BitVec.ofNat_add, BitVec.add_sub_cancel]

theorem Cpu.addr_eq (hsp : c.rsp = BitVec.ofNat 64 sp) (h : sp + off < 2 ^ 64) :
    c.addr off = sp + off := by
  rw [Cpu.addr, hsp, ← BitVec.ofNat_add, toNat_rsp h]

theorem execs_append (is js : List Instr) (c : Cpu) :
    execs c (is ++ js) = (execs c is).bind fun c' => execs c' js := by
  induction is generalizing c with
  | nil => rfl
  | cons i is ih =>
    rw [List.cons_append, execs, execs]
    cases exec c i with
    | none => rfl
    | some c' => exact ih c'

theorem execs_cons (i : Instr) (is : List Instr) (c : Cpu) :
    execs c (i :: is) = (exec c i).bind fun c' => execs c' is := rfl

/-- The pushes put the registers below the stack pointer. -/
theorem execs_push (rs : List Gpr) (c : Cpu) (sp : ℕ)
    (hsp : c.rsp = BitVec.ofNat 64 (sp + 8 * rs.length)) (h : sp + 8 * rs.length < 2 ^ 64) :
    ∃ m, execs c (rs.map .push) = some { c with rsp := BitVec.ofNat 64 sp, mem := m } ∧
      Cells m sp 8 (rs.reverse.map fun r => (c.gpr r).toNat) ∧
      ∀ x, x < sp ∨ sp + 8 * rs.length ≤ x → m x = c.mem x := by
  induction rs generalizing c with
  | nil =>
    rw [List.length_nil, Nat.mul_zero, Nat.add_zero] at hsp
    exact ⟨c.mem, by rw [← hsp]; rfl, trivial, fun _ _ => rfl⟩
  | cons r rs ih =>
    rw [List.length_cons, Nat.mul_succ, ← Nat.add_assoc] at hsp h
    have hrsp : c.rsp - 8 = BitVec.ofNat 64 (sp + 8 * rs.length) := by
      rw [hsp]
      exact ofNat_sub _ 8
    have haddr : (c.rsp - 8).toNat = sp + 8 * rs.length := by
      rw [hrsp, toNat_rsp (by omega)]
    obtain ⟨m, hm, hcells, hout⟩ := ih
      { c with rsp := c.rsp - 8, mem := write c.mem (c.rsp - 8).toNat 8 (c.gpr r).toNat } hrsp
      (by omega)
    refine ⟨m, hm, ?_, fun x hx => ?_⟩
    · rw [List.reverse_cons, List.map_append, Memory.cells_append]
      refine ⟨hcells, ?_, trivial⟩
      rw [List.length_map, List.length_reverse]
      refine (Memory.read_congr fun x hl _ => hout x (.inr hl)).trans ?_
      rw [haddr]
      exact Memory.read_write_self (c.gpr r).isLt
    · rw [List.length_cons, Nat.mul_succ] at hx
      rw [hout x (by omega)]
      refine Memory.write_apply ?_
      rw [haddr]
      omega

/-- The stores of the vector registers do not fault on an aligned stack. -/
theorem execs_stores (xs : List Xmm) (c : Cpu) (off : ℕ) (hsp : c.rsp = BitVec.ofNat 64 sp)
    (halign : (sp + off) % 16 = 0) (h : sp + off + 16 * xs.length < 2 ^ 64) :
    ∃ m, execs c (stores off xs) = some { c with mem := m } ∧
      Cells m (sp + off) 16 (xs.map fun x => (c.xmm x).toNat) ∧
      ∀ x, x < sp + off ∨ sp + off + 16 * xs.length ≤ x → m x = c.mem x := by
  induction xs generalizing c off with
  | nil => exact ⟨c.mem, rfl, trivial, fun _ _ => rfl⟩
  | cons x xs ih =>
    rw [List.length_cons, Nat.mul_succ] at h
    have haddr : c.addr off = sp + off := Cpu.addr_eq hsp (by omega)
    obtain ⟨m, hm, hcells, hout⟩ := ih
      { c with mem := write c.mem (sp + off) 16 (c.xmm x).toNat } (off + 16) hsp (by omega)
      (by omega)
    refine ⟨m, ?_, ⟨?_, hcells⟩, fun y hy => ?_⟩
    · rw [stores, execs_cons, exec, haddr, if_pos halign, Option.bind_some]
      exact hm
    · refine (Memory.read_congr fun y _ hr => hout y (.inl (by omega))).trans ?_
      exact Memory.read_write_self (c.xmm x).isLt
    · rw [List.length_cons, Nat.mul_succ] at hy
      rw [hout y (by omega)]
      exact Memory.write_apply (by omega)

/-- The loads of the vector registers. -/
theorem execs_loads (g : Xmm → BitVec 128) (xs : List Xmm) (c : Cpu) (off : ℕ)
    (hsp : c.rsp = BitVec.ofNat 64 sp) (halign : (sp + off) % 16 = 0)
    (h : sp + off + 16 * xs.length < 2 ^ 64)
    (hcells : Cells c.mem (sp + off) 16 (xs.map fun x => (g x).toNat)) :
    execs c (loads off xs) = some { c with xmm := fun x => if x ∈ xs then g x else c.xmm x } := by
  induction xs generalizing c off with
  | nil => simp [loads, execs]
  | cons x xs ih =>
    rw [List.length_cons, Nat.mul_succ] at h
    have haddr : c.addr off = sp + off := Cpu.addr_eq hsp (by omega)
    obtain ⟨hread, hcells⟩ := hcells
    have hload : exec c (.movdqaLoad x off) =
        some { c with xmm := Function.update c.xmm x (g x) } := by
      rw [exec, haddr, if_pos halign, hread, BitVec.ofNat_toNat, BitVec.setWidth_eq]
    have hxmm : (fun y => if y ∈ xs then g y else Function.update c.xmm x (g x) y) =
        fun y => if y ∈ x :: xs then g y else c.xmm y := by
      funext y
      simp only [List.mem_cons, Function.update_apply]
      by_cases hy : y ∈ xs
      · simp [hy]
      · by_cases hyx : y = x
        · simp [hyx]
        · simp [hy, hyx]
    rw [loads, execs_cons, hload, Option.bind_some, ← hxmm]
    exact ih { c with xmm := Function.update c.xmm x (g x) } (off + 16) hsp (by omega)
      (by omega) hcells

/-- The pops of the general registers. -/
theorem execs_pop (g : Gpr → BitVec 64) (rs : List Gpr) (c : Cpu) (sp : ℕ)
    (hsp : c.rsp = BitVec.ofNat 64 sp) (h : sp + 8 * rs.length < 2 ^ 64)
    (hcells : Cells c.mem sp 8 (rs.map fun r => (g r).toNat)) :
    execs c (rs.map .pop) = some { c with
      rsp := BitVec.ofNat 64 (sp + 8 * rs.length)
      gpr := fun r => if r ∈ rs then g r else c.gpr r } := by
  induction rs generalizing c sp with
  | nil => simp [execs, ← hsp]
  | cons r rs ih =>
    rw [List.length_cons, Nat.mul_succ] at h
    obtain ⟨hread, hcells⟩ := hcells
    have haddr : c.rsp.toNat = sp := by rw [hsp, toNat_rsp (by omega)]
    have hrsp : c.rsp + 8 = BitVec.ofNat 64 (sp + 8) := by
      rw [hsp]
      exact (BitVec.ofNat_add sp 8).symm
    have hpop : exec c (.pop r) =
        some { c with rsp := c.rsp + 8, gpr := Function.update c.gpr r (g r) } := by
      rw [exec, haddr, hread, BitVec.ofNat_toNat, BitVec.setWidth_eq]
    have hlen : sp + 8 + 8 * rs.length = sp + 8 * (r :: rs).length := by
      rw [List.length_cons]
      omega
    have hgpr : (fun y => if y ∈ rs then g y else Function.update c.gpr r (g r) y) =
        fun y => if y ∈ r :: rs then g y else c.gpr y := by
      funext y
      simp only [List.mem_cons, Function.update_apply]
      by_cases hy : y ∈ rs
      · simp [hy]
      · by_cases hyr : y = r
        · simp [hyr]
        · simp [hy, hyr]
    rw [List.map_cons, execs_cons, hpop, Option.bind_some, ← hgpr, ← hlen]
    exact ih { c with rsp := c.rsp + 8, gpr := Function.update c.gpr r (g r) } (sp + 8) hrsp
      (by omega) hcells

/-- The first half of `ContextSwitch` leaves a frame on the stack, and its address in the `Context`
object. -/
theorem execs_save (sp : ℕ) (c : Cpu) (hsp : c.rsp = BitVec.ofNat 64 (sp + 232))
    (h : sp + 232 < 2 ^ 64) (halign : sp % 16 = 0) (hret : read c.mem (sp + 232) 8 = ret.toNat)
    (hctx : (c.gpr .rcx).toNat + 8 ≤ sp ∨ sp + 240 ≤ (c.gpr .rcx).toNat) :
    ∃ m, execs c save = some { c with rsp := BitVec.ofNat 64 sp, mem := m } ∧ Frame m sp c ret ∧
      read m (c.gpr .rcx).toNat 8 = sp ∧
      ∀ x, x < sp ∨ sp + 232 ≤ x → x < (c.gpr .rcx).toNat ∨ (c.gpr .rcx).toNat + 8 ≤ x →
        m x = c.mem x := by
  obtain ⟨m₁, hm₁, hgprs, hout₁⟩ := execs_push savedGprs c (sp + 168) hsp h
  obtain ⟨m₂, hm₂, hxmms, hout₂⟩ := execs_stores savedXmms
    { c with rsp := BitVec.ofNat 64 sp, mem := m₁ } 0 rfl halign (by
      simp only [savedXmms, List.length_cons, List.length_nil]
      omega)
  have hlen₁ : 8 * savedGprs.length = 64 := rfl
  have hlen₂ : 16 * savedXmms.length = 160 := rfl
  rw [hlen₁] at hout₁
  replace hout₂ : ∀ x, x < sp ∨ sp + 160 ≤ x → m₂ x = m₁ x := hout₂
  have haddr : ∀ off (m : Mem), sp + off < 2 ^ 64 →
      Cpu.addr { c with rsp := BitVec.ofNat 64 sp, mem := m } off = sp + off :=
    fun off m => Cpu.addr_eq rfl
  have hsub : BitVec.ofNat 64 (sp + 168) - BitVec.ofNat 64 168 = BitVec.ofNat 64 sp :=
    ofNat_sub sp 168
  let m₃ := write m₂ (sp + 160) 4 c.mxcsr.toNat
  let m₄ := write m₃ (sp + 164) 2 c.fcw.toNat
  have hrun : execs c save = some { c with
      rsp := BitVec.ofNat 64 sp
      mem := write m₄ (c.gpr .rcx).toNat 8 sp } := by
    rw [save, execs_append, hm₁, Option.bind_some, execs_cons, exec, Option.bind_some, hsub,
      execs_append, hm₂, Option.bind_some, execs_cons, exec, haddr 160 m₂ (by omega),
      Option.bind_some, execs_cons, exec, haddr 164 _ (by omega), Option.bind_some, execs_cons,
      exec, toNat_rsp (by omega)]
    rfl
  have hin : ∀ x, sp ≤ x → x < sp + 240 →
      write m₄ (c.gpr .rcx).toNat 8 sp x = m₄ x := fun x hl hr => Memory.write_apply (by omega)
  have hlow : ∀ x, x < sp + 160 → m₄ x = m₂ x := fun x hx =>
    (Memory.write_apply (by omega)).trans (Memory.write_apply (by omega))
  have hhigh : ∀ x, sp + 166 ≤ x → m₄ x = m₂ x := fun x hx =>
    (Memory.write_apply (by omega)).trans (Memory.write_apply (by omega))
  have hframe : Frame m₄ sp c ret := by
    constructor
    · refine hxmms.congr fun x hl hr => (hlow x ?_).symm
      rw [List.length_map, hlen₂] at hr
      omega
    · exact (Memory.read_write_of_disjoint (by omega)).trans (Memory.read_write_self c.mxcsr.isLt)
    · exact Memory.read_write_self c.fcw.isLt
    · refine hgprs.congr fun x hl hr => ?_
      rw [hhigh x (by omega), hout₂ x (by omega)]
    · rw [← hret]
      refine Memory.read_congr fun x hl hr => ?_
      rw [hhigh x (by omega), hout₂ x (by omega), hout₁ x (by omega)]
  refine ⟨_, hrun, hframe.congr fun x hl hr => (hin x hl hr).symm, ?_, fun x hx hctx => ?_⟩
  · exact Memory.read_write_self (by omega)
  · rw [Memory.write_apply hctx]
    rcases hx with hx | hx
    · rw [hlow x (by omega), hout₂ x (by omega), hout₁ x (by omega)]
    · rw [hhigh x (by omega), hout₂ x (by omega), hout₁ x (by omega)]

/-- The second half of `ContextSwitch` goes on where the frame says. -/
theorem execs_restore (c g : Cpu) (hsp : read c.mem (c.gpr .rdx).toNat 8 = sp)
    (h : sp + 240 < 2 ^ 64) (halign : sp % 16 = 0) (hframe : Frame c.mem sp g ret)
    (hrsp : g.rsp = BitVec.ofNat 64 (sp + 240)) :
    ∃ cpu, execs c restore = some cpu ∧ cpu.mem = c.mem ∧ Resumes g ret cpu := by
  have hxmms := execs_loads g.xmm savedXmms
    { c with rsp := BitVec.ofNat 64 sp, mxcsr := g.mxcsr, fcw := g.fcw } 0 rfl halign
    (by
      simp only [savedXmms, List.length_cons, List.length_nil]
      omega)
    hframe.xmms
  have hpops := execs_pop g.gpr savedGprs.reverse
    { c with
      rsp := BitVec.ofNat 64 (sp + 168)
      mxcsr := g.mxcsr
      fcw := g.fcw
      xmm := fun x => if x ∈ savedXmms then g.xmm x else c.xmm x } (sp + 168) rfl
    (by
      simp only [savedGprs, List.length_reverse, List.length_cons, List.length_nil]
      omega)
    hframe.gprs
  have haddr : ∀ off (c' : Cpu), c'.rsp = BitVec.ofNat 64 sp → sp + off < 2 ^ 64 →
      c'.addr off = sp + off := fun off c' hc' => Cpu.addr_eq hc'
  have hadd : ∀ n k, BitVec.ofNat 64 n + BitVec.ofNat 64 k = BitVec.ofNat 64 (n + k) :=
    fun n k => (BitVec.ofNat_add n k).symm
  have hfp : execs c [.loadRsp .rdx, .ldmxcsr 160, .fldcw 164] =
      some { c with rsp := BitVec.ofNat 64 sp, mxcsr := g.mxcsr, fcw := g.fcw } := by
    rw [execs_cons, exec, hsp, Option.bind_some, execs_cons, exec, haddr 160 _ rfl (by omega),
      hframe.mxcsr, BitVec.ofNat_toNat, BitVec.setWidth_eq, Option.bind_some, execs_cons, exec,
      haddr 164 _ rfl (by omega), hframe.fcw, BitVec.ofNat_toNat, BitVec.setWidth_eq]
    rfl
  have hret : (BitVec.ofNat 64 (sp + 168 + 8 * savedGprs.reverse.length)).toNat = sp + 232 :=
    toNat_rsp (n := sp + 232) (by omega)
  refine ⟨{
    gpr := fun r => if r ∈ savedGprs.reverse then g.gpr r else c.gpr r
    rsp := BitVec.ofNat 64 (sp + 232) + 8
    rip := ret
    xmm := fun x => if x ∈ savedXmms then g.xmm x else c.xmm x
    mxcsr := g.mxcsr
    fcw := g.fcw
    mem := c.mem }, ?_, rfl, ?_⟩
  · rw [restore, execs_append, hfp, Option.bind_some, execs_append, hxmms, Option.bind_some,
      execs_cons, exec, Option.bind_some, hadd, execs_append, hpops, Option.bind_some, execs_cons,
      exec, hret, hframe.ret, BitVec.ofNat_toNat, BitVec.setWidth_eq]
    rfl
  · constructor
    · exact fun r hr => if_pos (List.mem_reverse.2 hr)
    · exact fun x hx => if_pos hx
    · rfl
    · rfl
    · rw [hrsp]
      exact hadd (sp + 232) 8
    · rfl

/-! ## The frame of a new fiber -/

/-- The words are put below the address `sp + 8 * ws.length`. -/
theorem pushWords_spec (ws : List (BitVec 64)) (m : Mem) (sp : ℕ) :
    ∃ m', pushWords m (sp + 8 * ws.length) ws = (m', sp) ∧
      Cells m' sp 8 (ws.reverse.map BitVec.toNat) ∧
      ∀ x, x < sp ∨ sp + 8 * ws.length ≤ x → m' x = m x := by
  induction ws generalizing m with
  | nil => exact ⟨m, rfl, trivial, fun _ _ => rfl⟩
  | cons w ws ih =>
    have hsp : sp + 8 * (w :: ws).length - 8 = sp + 8 * ws.length := by
      rw [List.length_cons]
      omega
    obtain ⟨m', hm', hcells, hout⟩ := ih (write m (sp + 8 * ws.length) 8 w.toNat)
    refine ⟨m', ?_, ?_, fun x hx => ?_⟩
    · rw [pushWords, hsp, hm']
    · rw [List.reverse_cons, List.map_append, Memory.cells_append]
      refine ⟨hcells, ?_, trivial⟩
      rw [List.length_map, List.length_reverse]
      refine (Memory.read_congr fun x hl _ => hout x (.inr hl)).trans ?_
      exact Memory.read_write_self w.isLt
    · rw [List.length_cons] at hx
      rw [hout x (by omega)]
      exact Memory.write_apply (by omega)

/-- The registers with which a new fiber starts at `FiberTrampoline`. -/
def freshCpu (stackEnd : ℕ) (trampoline entryPoint : BitVec 64) : Cpu where
  gpr r := if r = .rbx then entryPoint else 0
  rsp := BitVec.ofNat 64 (stackEnd - stackEnd % 16 - 32)
  rip := trampoline
  xmm _ := 0
  mxcsr := 0x1F80
  fcw := 0x037F
  mem _ := 0

/-- `Fiber::Init` leaves a frame on the stack, and its address in the `Context` object. -/
theorem frame_init (sp : ℕ) (m : Mem) {stackEnd : ℕ} (ctx : ℕ) (trampoline entryPoint : BitVec 64)
    (h : sp + 272 = stackEnd - stackEnd % 16) (hlt : sp < 2 ^ 64)
    (hctx : ctx + 8 ≤ sp ∨ sp + 240 ≤ ctx) :
    ∃ m', init m stackEnd ctx trampoline entryPoint = m' ∧
      Frame m' sp (freshCpu stackEnd trampoline entryPoint) trampoline ∧ read m' ctx 8 = sp ∧
      ∀ x, x < sp ∨ sp + 240 ≤ x → x < ctx ∨ ctx + 8 ≤ x → m' x = m x := by
  have htop : stackEnd - stackEnd % 16 - 32 =
      sp + 8 * (initWords trampoline entryPoint).length := by
    rw [show (initWords trampoline entryPoint).length = 30 from rfl]
    omega
  obtain ⟨m', hm', hcells, hout⟩ := pushWords_spec (initWords trampoline entryPoint) m sp
  rw [show (initWords trampoline entryPoint).length = 30 from rfl] at hout
  rw [show (initWords trampoline entryPoint).reverse.map BitVec.toNat = List.replicate (2 * 10) 0 ++
      [0x0000037F00001F80, 0, 0, 0, 0, 0, 0, 0, entryPoint.toNat, trampoline.toNat] from rfl,
    Memory.cells_append, List.length_replicate] at hcells
  obtain ⟨hzero, hfp, hgprs⟩ := hcells
  have hin : ∀ x, sp ≤ x → x < sp + 240 → m' x = write m' ctx 8 sp x :=
    fun x hl hr => (Memory.write_apply (by omega)).symm
  have hwords : read m' (sp + 160) 4 = 0x1F80 ∧ read m' (sp + 164) 2 = 0x037F := by
    rw [show 8 = 4 + (2 + 2) from rfl, Memory.read_add, Memory.read_add] at hfp
    have h₁ := Memory.read_lt (m := m') (a := sp + 160) (n := 4)
    have h₂ := Memory.read_lt (m := m') (a := sp + 164) (n := 2)
    have h₃ : (256 : ℕ) ^ 4 = 4294967296 := by norm_num
    have h₄ : (256 : ℕ) ^ 2 = 65536 := by norm_num
    rw [h₃] at hfp h₁
    rw [h₄] at hfp h₂
    replace hfp : read m' (sp + 160) 4 +
        4294967296 * (read m' (sp + 164) 2 + 65536 * read m' (sp + 166) 2) = 3843995737984 := hfp
    constructor <;> omega
  have hinit : init m stackEnd ctx trampoline entryPoint = write m' ctx 8 sp := by
    rw [init, htop, hm']
  rw [hinit]
  refine ⟨_, rfl, Frame.congr ⟨hzero.double, hwords.1, hwords.2, ?_, ?_⟩ hin,
    Memory.read_write_self hlt, fun x hx hctx => (Memory.write_apply hctx).trans (hout x hx)⟩
  · rw [show [(0 : ℕ), 0, 0, 0, 0, 0, 0, entryPoint.toNat, trampoline.toNat] =
      [0, 0, 0, 0, 0, 0, 0, entryPoint.toNat] ++ [trampoline.toNat] from rfl,
      Memory.cells_append] at hgprs
    exact hgprs.1
  · rw [show [(0 : ℕ), 0, 0, 0, 0, 0, 0, entryPoint.toNat, trampoline.toNat] =
      [0, 0, 0, 0, 0, 0, 0, entryPoint.toNat] ++ [trampoline.toNat] from rfl,
      Memory.cells_append] at hgprs
    exact hgprs.2.1

end JLibScheduler.ContextSwitch
