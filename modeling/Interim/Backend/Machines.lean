import Interim.Compiler.Model

/-!
# The x64 and ARM back ends

The emitters of `sledge/jit_x64.c` and `sledge/jit_arm_raw.c` that the integer
builtins of `compile_expr` call, and what the processor does with what they
emit.

* x64: an emitter prints assembler text, so code is a list of instructions.
* ARM: an emitter stores instruction words, so code is a list of words, and
  the processor decodes them. Two things are kept as units. A load from the
  constant pool (`jit_movi`, `jit_lea`) is `ldr rd, =imm`; a call (`jit_call`)
  is the four words that save `lr`, set it, jump and restore it.

A result the architecture or the calling convention leaves undefined is not
given a value: a flag is `none`, a register a C function may change is what
the parameter `Callee` says, and a fault ends the run.
-/

namespace Interim.Backend

open Compiler

/-- The C functions the integer builtins call. -/
inductive Helper
  | allocInt
  | inlineDiv
  | inlineMod
  deriving DecidableEq, Repr

/-- Where the linker and the allocators put the blocks. -/
abbrev Layout (w : ℕ) : Type := Block → BitVec w

/-- An immediate operand: a number in the width of the machine, or an address. -/
def Layout.imm {w : ℕ} (l : Layout w) : Word → Option (BitVec w)
  | .int v => some (v.setWidth w)
  | .ptr b off => some (l b + BitVec.ofInt w off)
  | _ => none

/-- What a C function leaves behind in the registers it may change, and the
    address of the cell that `cell_alloc` hands out. -/
structure Callee (R : Type) (w : ℕ) where
  junk : R → BitVec w
  fresh : BitVec w

/-! ## x64 -/

namespace X64

/-- The general purpose registers the back end names. -/
inductive Reg
  | rax | rcx | rdx | rsi | rdi | rsp
  | r8 | r9 | r10 | r11 | r12 | r13 | r14 | r15
  deriving DecidableEq, Repr

/-- `regnames` (`jit_x64.c`, lines 3–17); index 12 is the last. -/
def regnames : ℕ → Reg
  | 0 => .rax
  | 1 => .rdi
  | 2 => .rsi
  | 3 => .rdx
  | 4 => .r12
  | 5 => .r13
  | 6 => .r14
  | 7 => .r15
  | 8 => .r8
  | 9 => .r9
  | 10 => .r10
  | 11 => .r11
  | _ => .rsp

/-- Instructions in the operand order of the emitted text: source first.
    `call` is `mov $f, %rax` and `callq *%rax`. -/
inductive Instr
  | movImm (imm : BitVec 64) (d : Reg)
  | mov (s d : Reg)
  | load (disp : ℤ) (base d : Reg)
  | cmovs (s d : Reg)
  | cmove (s d : Reg)
  | addq (s d : Reg)
  | subq (s d : Reg)
  | andq (s d : Reg)
  | orq (s d : Reg)
  | xorq (s d : Reg)
  | notq (d : Reg)
  | imulq (s d : Reg)
  | shlCl (d : Reg)
  | shrCl (d : Reg)
  | cqto
  | idivq (s : Reg)
  | cmp (s d : Reg)
  | call (f : Helper)
  deriving DecidableEq, Repr

/-! ### Emitters -/

/-- `jit_movr` (lines 52–55). -/
def jitMovr (dreg sreg : ℕ) : List Instr :=
  if dreg = sreg then [] else [.mov (regnames sreg) (regnames dreg)]

/-- `jit_modr` (lines 219–224): `ARGR0` is 1, `ARGR1` is 2. -/
def jitModr (dreg sreg : ℕ) : List Instr :=
  jitMovr argr0 dreg ++ jitMovr argr1 sreg ++ [.call .inlineMod] ++
    if dreg ≠ 0 then jitMovr dreg 0 else []

/-- The emitters of `jit_x64.c` that the integer builtins call. -/
def emit (l : Layout 64) : Jit → Option (List Instr)
  | .movi reg imm => do some [.movImm (← l.imm imm) (regnames reg)]
  | .movr dreg sreg => some (jitMovr dreg sreg)
  | .movneg dreg sreg =>
    some (if dreg = sreg then [] else [.cmovs (regnames sreg) (regnames dreg)])
  | .moveq dreg sreg =>
    some (if dreg = sreg then [] else [.cmove (regnames sreg) (regnames dreg)])
  | .lea reg addr => do some [.movImm (← l.imm addr) (regnames reg)]
  | .ldr reg => some [.load 0 (regnames reg) (regnames reg)]
  | .ldrStack dreg offset _ => some [.load offset .rsp (regnames dreg)]
  | .addr dreg sreg => some [.addq (regnames sreg) (regnames dreg)]
  | .andr dreg sreg => some [.andq (regnames sreg) (regnames dreg)]
  | .notr dreg => some [.notq (regnames dreg)]
  | .orr dreg sreg => some [.orq (regnames sreg) (regnames dreg)]
  | .xorr dreg sreg => some [.xorq (regnames sreg) (regnames dreg)]
  | .shrr dreg sreg => some [.mov (regnames sreg) .rcx, .shrCl (regnames dreg)]
  | .shlr dreg sreg => some [.mov (regnames sreg) .rcx, .shlCl (regnames dreg)]
  | .subr dreg sreg => some [.subq (regnames sreg) (regnames dreg)]
  | .mulr dreg sreg => some [.imulq (regnames sreg) (regnames dreg)]
  | .divr dreg sreg =>
    some [.mov (regnames dreg) .rax, .cqto, .idivq (regnames sreg), .mov .rax (regnames dreg)]
  | .modr dreg sreg => some (jitModr dreg sreg)
  | .call .allocInt => some [.call .allocInt]
  | .cmpr sreg dreg => some [.cmp (regnames dreg) (regnames sreg)]
  | _ => none

/-! ### Execution -/

/-- Registers, the sign and zero flags, and the eight bytes at each address. -/
structure State where
  regs : Reg → BitVec 64
  sf : Option Bool
  zf : Option Bool
  mem : BitVec 64 → BitVec 64

namespace State

/-- Write a register. -/
def set (m : State) (d : Reg) (v : BitVec 64) : State :=
  { m with regs := Function.update m.regs d v }

/-- Write a register and the flags of the result. -/
def setFlags (m : State) (d : Reg) (v : BitVec 64) : State :=
  { m.set d v with sf := some v.msb, zf := some (v == 0) }

end State

/-- The registers a C function must preserve. -/
def calleeSaved : Reg → Bool
  | .rsp | .r12 | .r13 | .r14 | .r15 => true
  | _ => false

/-- The state after a C function returned `v` in `rax`. -/
def returned (c : Callee Reg 64) (m : State) (v : BitVec 64) : State :=
  { m with
    regs := Function.update (fun r => if calleeSaved r then m.regs r else c.junk r) .rax v
    sf := none
    zf := none }

/-- A call. `alloc_int(int i)` fills a cell with `i`; `inline_mod(int64_t a,
    int64_t b)` returns an `int32_t`, so only the low half of `rax` is
    defined. -/
def call (c : Callee Reg 64) (m : State) : Helper → Option State
  | .allocInt =>
    let i : BitVec 32 := (m.regs .rdi).setWidth 32
    some { returned c m c.fresh with mem := Function.update m.mem c.fresh (i.signExtend 64) }
  | .inlineMod =>
    let a := (m.regs .rdi).toInt
    let b := (m.regs .rsi).toInt
    if b = 0 ∨ (a = -2 ^ 63 ∧ b = -1) then none
    else some (returned c m ((c.junk .rax).extractLsb' 32 32 ++ BitVec.ofInt 32 (a.tmod b)))
  | .inlineDiv => none

/-- One instruction. -/
def step (c : Callee Reg 64) (m : State) : Instr → Option State
  | .movImm imm d => some (m.set d imm)
  | .mov s d => some (m.set d (m.regs s))
  | .load disp base d => some (m.set d (m.mem (m.regs base + BitVec.ofInt 64 disp)))
  | .cmovs s d => m.sf.map fun t => if t then m.set d (m.regs s) else m
  | .cmove s d => m.zf.map fun t => if t then m.set d (m.regs s) else m
  | .addq s d => some (m.setFlags d (m.regs d + m.regs s))
  | .subq s d => some (m.setFlags d (m.regs d - m.regs s))
  | .andq s d => some (m.setFlags d (m.regs d &&& m.regs s))
  | .orq s d => some (m.setFlags d (m.regs d ||| m.regs s))
  | .xorq s d => some (m.setFlags d (m.regs d ^^^ m.regs s))
  | .notq d => some (m.set d (~~~ m.regs d))
  | .imulq s d => some { m.set d (m.regs d * m.regs s) with sf := none, zf := none }
  -- the processor masks the count to six bits, and a zero count leaves the flags
  | .shlCl d =>
    let n := (m.regs .rcx).toNat % 64
    some (if n = 0 then m else m.setFlags d (m.regs d <<< n))
  | .shrCl d =>
    let n := (m.regs .rcx).toNat % 64
    some (if n = 0 then m else m.setFlags d (m.regs d >>> n))
  | .cqto => some (m.set .rdx (if (m.regs .rax).msb then BitVec.allOnes 64 else 0))
  -- signed division of rdx:rax; a quotient that does not fit faults
  | .idivq s =>
    let a := (m.regs .rdx ++ m.regs .rax).toInt
    let b := (m.regs s).toInt
    if b = 0 ∨ a.tdiv b < -2 ^ 63 ∨ 2 ^ 63 ≤ a.tdiv b then none
    else some
      { (m.set .rax (BitVec.ofInt 64 (a.tdiv b))).set .rdx (BitVec.ofInt 64 (a.tmod b)) with
        sf := none
        zf := none }
  | .cmp s d =>
    let v := m.regs d - m.regs s
    some { m with sf := some v.msb, zf := some (v == 0) }
  | .call f => call c m f

/-- Straight-line code. -/
def run (c : Callee Reg 64) (code : List Instr) (m : State) : Option State :=
  code.foldlM (step c) m

/-- Run what the emitters print for a list of emitter calls. -/
def runJit (l : Layout 64) (c : Callee Reg 64) (code : List Jit) (m : State) : Option State :=
  code.foldlM (fun m j => do run c (← emit l j) m) m

end X64

/-! ## ARM -/

namespace Arm

/-- A register number as it stands in an instruction word. -/
abbrev reg (n : ℕ) : BitVec 32 := BitVec.ofNat 32 n

/-- What an emitter stores: one instruction word, `ldr rd, =imm`, or the call
    sequence. -/
inductive Item
  | word (w : BitVec 32)
  | literal (rd : ℕ) (imm : BitVec 32)
  | call (f : Helper)
  deriving DecidableEq, Repr

/-! ### Emitters -/

/-- `jit_movr` (lines 85–91). -/
def jitMovr (dreg sreg : ℕ) : BitVec 32 := 0xe1a00000#32 ||| reg sreg <<< 0 ||| reg dreg <<< 12

/-- `jit_movneg` (lines 93–99). -/
def jitMovneg (dreg sreg : ℕ) : BitVec 32 := 0x41a00000#32 ||| reg sreg <<< 0 ||| reg dreg <<< 12

/-- `jit_moveq` (lines 109–115). -/
def jitMoveq (dreg sreg : ℕ) : BitVec 32 := 0x01a00000#32 ||| reg sreg <<< 0 ||| reg dreg <<< 12

/-- `jit_ldr` (lines 121–126). -/
def jitLdr (r : ℕ) : BitVec 32 := 0xe5900000#32 ||| reg r <<< 16 ||| reg r <<< 12

/-- `jit_ldr_stack` (lines 128–137). -/
def jitLdrStack (dreg : ℕ) (offset : ℤ) : BitVec 32 :=
  let op := if offset < 0 then 0xe51d0000#32 else 0xe59d0000#32
  let offset := if offset < 0 then -1 * offset else offset
  op ||| (BitVec.ofInt 32 offset &&& 0xfff#32) ||| reg dreg <<< 12

/-- `jit_addr` (lines 212–218). -/
def jitAddr (dreg sreg : ℕ) : BitVec 32 :=
  0xe0900000#32 ||| reg sreg <<< 0 ||| reg dreg <<< 12 ||| reg dreg <<< 16

/-- `jit_subr` (lines 225–231). -/
def jitSubr (dreg sreg : ℕ) : BitVec 32 :=
  0xe0500000#32 ||| reg sreg <<< 0 ||| reg dreg <<< 12 ||| reg dreg <<< 16

/-- `jit_mulr` (lines 233–239). -/
def jitMulr (dreg sreg : ℕ) : BitVec 32 :=
  0xe0100090#32 ||| reg sreg <<< 8 ||| reg dreg <<< 0 ||| reg dreg <<< 16

/-- `jit_andr` (lines 241–247). -/
def jitAndr (dreg sreg : ℕ) : BitVec 32 :=
  0xe0000000#32 ||| reg sreg <<< 0 ||| reg dreg <<< 12 ||| reg dreg <<< 16

/-- `jit_notr` (lines 249–254). -/
def jitNotr (dreg : ℕ) : BitVec 32 := 0xe1e00000#32 ||| reg dreg <<< 0 ||| reg dreg <<< 12

/-- `jit_orr` (lines 256–262). -/
def jitOrr (dreg sreg : ℕ) : BitVec 32 :=
  0xe1800000#32 ||| reg sreg <<< 0 ||| reg dreg <<< 12 ||| reg dreg <<< 16

/-- `jit_xorr` (lines 264–270). -/
def jitXorr (dreg sreg : ℕ) : BitVec 32 :=
  0xe0200000#32 ||| reg sreg <<< 0 ||| reg dreg <<< 12 ||| reg dreg <<< 16

/-- `jit_shlr` (lines 272–278). -/
def jitShlr (dreg sreg : ℕ) : BitVec 32 :=
  0xe1a00010#32 ||| reg sreg <<< 8 ||| reg dreg <<< 12 ||| reg dreg <<< 0

/-- `jit_shrr` (lines 280–286). -/
def jitShrr (dreg sreg : ℕ) : BitVec 32 :=
  0xe1a00030#32 ||| reg sreg <<< 8 ||| reg dreg <<< 12 ||| reg dreg <<< 0

/-- `jit_divr` and `jit_modr` (lines 308–325): they differ in the function. -/
def jitHelper (f : Helper) (dreg sreg : ℕ) : List Item :=
  [.word (jitMovr 0 dreg), .word (jitMovr 1 sreg), .call f] ++
    if dreg ≠ 0 then [.word (jitMovr dreg 0)] else []

/-- `jit_cmpr` (lines 327–332). -/
def jitCmpr (sreg dreg : ℕ) : BitVec 32 := 0xe1500000#32 ||| reg sreg <<< 0 ||| reg dreg <<< 16

/-- The emitters of `jit_arm_raw.c` that the integer builtins call. -/
def emit (l : Layout 32) : Jit → Option (List Item)
  | .movi r imm => do some [.literal r (← l.imm imm)]
  | .movr dreg sreg => some [.word (jitMovr dreg sreg)]
  | .movneg dreg sreg => some [.word (jitMovneg dreg sreg)]
  | .moveq dreg sreg => some [.word (jitMoveq dreg sreg)]
  | .lea r addr => do some [.literal r (← l.imm addr)]
  | .ldr r => some [.word (jitLdr r)]
  | .ldrStack dreg offset _ => some [.word (jitLdrStack dreg offset)]
  | .addr dreg sreg => some [.word (jitAddr dreg sreg)]
  | .andr dreg sreg => some [.word (jitAndr dreg sreg)]
  | .notr dreg => some [.word (jitNotr dreg)]
  | .orr dreg sreg => some [.word (jitOrr dreg sreg)]
  | .xorr dreg sreg => some [.word (jitXorr dreg sreg)]
  | .shrr dreg sreg => some [.word (jitShrr dreg sreg)]
  | .shlr dreg sreg => some [.word (jitShlr dreg sreg)]
  | .subr dreg sreg => some [.word (jitSubr dreg sreg)]
  | .mulr dreg sreg => some [.word (jitMulr dreg sreg)]
  | .divr dreg sreg => some (jitHelper .inlineDiv dreg sreg)
  | .modr dreg sreg => some (jitHelper .inlineMod dreg sreg)
  | .call .allocInt => some [.call .allocInt]
  | .cmpr sreg dreg => some [.word (jitCmpr sreg dreg)]
  | _ => none

/-! ### Decoding -/

/-- The data-processing operations in use, by their opcode field. -/
inductive DataOp
  | and | eor | sub | add | cmp | orr | mov | mvn
  deriving DecidableEq, Repr

/-- The opcode field, bits 24–21. -/
def DataOp.ofOpcode : ℕ → Option DataOp
  | 0 => some .and
  | 1 => some .eor
  | 2 => some .sub
  | 4 => some .add
  | 10 => some .cmp
  | 12 => some .orr
  | 13 => some .mov
  | 15 => some .mvn
  | _ => none

/-- The second operand: a register, or one shifted by a register. -/
inductive Operand2
  | reg (rm : ℕ)
  | lsl (rm rs : ℕ)
  | lsr (rm rs : ℕ)
  deriving DecidableEq, Repr

/-- Decoded instructions. -/
inductive Instr
  | data (op : DataOp) (setFlags : Bool) (rd rn : ℕ) (src : Operand2)
  | mul (setFlags : Bool) (rd rm rs : ℕ)
  | ldr (rd rn : ℕ) (disp : ℤ)
  deriving DecidableEq, Repr

/-- The condition field: the conditions in use. -/
inductive Cond
  | eq | mi | al
  deriving DecidableEq, Repr

/-- The condition field, bits 31–28. -/
def Cond.ofField : ℕ → Option Cond
  | 0 => some .eq
  | 4 => some .mi
  | 14 => some .al
  | _ => none

/-- Bits `lo … lo + n - 1` of an instruction word. -/
def field (w : BitVec 32) (lo n : ℕ) : ℕ := (w.toNat >>> lo) % 2 ^ n

/-- The shifter operand of a data-processing instruction, bits 11–0. -/
def operand2 (w : BitVec 32) : Option Operand2 :=
  if field w 4 8 = 0 then some (.reg (field w 0 4))
  else if field w 4 4 = 1 then some (.lsl (field w 0 4) (field w 8 4))
  else if field w 4 4 = 3 then some (.lsr (field w 0 4) (field w 8 4))
  else none

/-- The instruction of a word: a multiplication, a data-processing
    instruction with a register operand, or a word load with an immediate
    offset. -/
def decodeInstr (w : BitVec 32) : Option Instr :=
  if field w 21 7 = 0 ∧ field w 4 4 = 9 then
    some (.mul (field w 20 1 = 1) (field w 16 4) (field w 0 4) (field w 8 4))
  else if field w 25 3 = 0 then do
    let op ← DataOp.ofOpcode (field w 21 4)
    let src ← operand2 w
    some (.data op (field w 20 1 = 1) (field w 12 4) (field w 16 4) src)
  -- P = 1, B = 0, W = 0, L = 1; the U bit is the sign of the offset
  else if field w 24 4 = 5 ∧ field w 20 3 = 1 then
    let off : ℤ := field w 0 12
    some (.ldr (field w 12 4) (field w 16 4) (if field w 23 1 = 1 then off else -off))
  else none

/-- Decode an instruction word. -/
def decode (w : BitVec 32) : Option (Cond × Instr) := do
  some (← Cond.ofField (field w 28 4), ← decodeInstr w)

/-! ### Execution -/

/-- Registers, the negative and zero flags, and the word at each address. -/
structure State where
  regs : ℕ → BitVec 32
  n : Option Bool
  z : Option Bool
  mem : BitVec 32 → BitVec 32

namespace State

/-- Write a register. -/
def set (s : State) (d : ℕ) (v : BitVec 32) : State :=
  { s with regs := Function.update s.regs d v }

/-- Set the flags of a result. -/
def flags (s : State) (on : Bool) (v : BitVec 32) : State :=
  if on then { s with n := some v.msb, z := some (v == 0) } else s

/-- The value of a shifter operand: the count is the low byte of the register,
    and a count of 32 or more gives zero. -/
def operand (s : State) : Operand2 → BitVec 32
  | .reg rm => s.regs rm
  | .lsl rm rs => s.regs rm <<< ((s.regs rs).toNat % 256)
  | .lsr rm rs => s.regs rm >>> ((s.regs rs).toNat % 256)

/-- Whether a condition holds; `none` when the flag is undefined. -/
def holds (s : State) : Cond → Option Bool
  | .eq => s.z
  | .mi => s.n
  | .al => some true

end State

/-- The result of a data-processing operation. -/
def DataOp.value : DataOp → BitVec 32 → BitVec 32 → BitVec 32
  | .and, x, y => x &&& y
  | .eor, x, y => x ^^^ y
  | .sub, x, y => x - y
  | .add, x, y => x + y
  | .cmp, x, y => x - y
  | .orr, x, y => x ||| y
  | .mov, _, y => y
  | .mvn, _, y => ~~~ y

/-- An instruction whose condition holds. -/
def exec (s : State) : Instr → State
  | .data op f rd rn src =>
    let v := op.value (s.regs rn) (s.operand src)
    (if op = .cmp then s else s.set rd v).flags f v
  | .mul f rd rm rs =>
    let v := s.regs rm * s.regs rs
    (s.set rd v).flags f v
  | .ldr rd rn disp => s.set rd (s.mem (s.regs rn + BitVec.ofInt 32 disp))

/-- One instruction word. -/
def stepWord (s : State) (w : BitVec 32) : Option State := do
  let (c, i) ← decode w
  let t ← s.holds c
  some (if t then exec s i else s)

/-- The registers a C function must preserve; `lr` is restored by the call
    sequence. -/
def calleeSaved (r : ℕ) : Bool := 4 ≤ r ∧ r ≠ 12

/-- The state after a C function returned `v` in `r0`. -/
def returned (c : Callee ℕ 32) (s : State) (v : BitVec 32) : State :=
  { s with
    regs := Function.update (fun r => if calleeSaved r then s.regs r else c.junk r) 0 v
    n := none
    z := none }

/-- A call. `inline_div(int32_t a, int32_t b)` and `inline_mod` are the C
    operators, undefined for a zero divisor and for `INT_MIN` by -1. -/
def call (c : Callee ℕ 32) (s : State) : Helper → Option State
  | .allocInt =>
    some { returned c s c.fresh with mem := Function.update s.mem c.fresh (s.regs 0) }
  | f =>
    let a := (s.regs 0).toInt
    let b := (s.regs 1).toInt
    if b = 0 ∨ (a = -2 ^ 31 ∧ b = -1) then none
    else some (returned c s (BitVec.ofInt 32 (if f = .inlineDiv then a.tdiv b else a.tmod b)))

/-- One item. -/
def step (c : Callee ℕ 32) (s : State) : Item → Option State
  | .word w => stepWord s w
  | .literal rd imm => some (s.set rd imm)
  | .call f => call c s f

/-- Straight-line code. -/
def run (c : Callee ℕ 32) (code : List Item) (s : State) : Option State :=
  code.foldlM (step c) s

/-- Run what the emitters store for a list of emitter calls. -/
def runJit (l : Layout 32) (c : Callee ℕ 32) (code : List Jit) (s : State) : Option State :=
  code.foldlM (fun s j => do run c (← emit l j) s) s

end Arm

end Interim.Backend
