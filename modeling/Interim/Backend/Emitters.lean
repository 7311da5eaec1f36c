import Interim.Backend.ArmCode
import Interim.Backend.StackSlots
import Interim.Backend.X86Code

/-!
# The emitters of both 32-bit back ends

Every `jit_*` function of `sledge/jit_arm_raw.c` and `sledge/jit_x86.c` that
`compile_expr` calls, with the words or bytes it stores. What an instruction does
is not said here; the length of the code and what happens to the label tables
depend on no more than this.

Addresses are those of one run: where the heap, the global environment and the C
functions lie.
-/

namespace Interim.Backend

open Compiler

/-- The numbers that stand for addresses in the code of one run. -/
structure Addresses where
  /-- an immediate, or the address of a cell, an entry or an array -/
  imm : Word → BitVec 32
  /-- a C function -/
  func : CFun → BitVec 32
  inlineDiv : BitVec 32
  inlineMod : BitVec 32

/-- What a call does to the label tables, on any back end. -/
def event : Compiler.Jit → Option (Event Label)
  | .je l | .jne l | .jmp l => some (.branch l)
  | .label l => some (.label l)
  | _ => none

/-- What the calls do to the label tables. -/
def events (code : List Compiler.Jit) : List (Event Label) :=
  code.flatMap fun i => (event i).toList

/-! ## ARM -/

namespace Arm

/-- `jit_movne` (lines 101–107). -/
def jitMovne (dreg sreg : ℕ) : BitVec 32 := 0x11a00000#32 ||| reg sreg <<< 0 ||| reg dreg <<< 12

/-- `jit_str_stack` (lines 139–148): the word for a negative offset is that of a
    load. -/
def jitStrStack (sreg : ℕ) (offset : ℤ) : BitVec 32 :=
  let op := if offset < 0 then 0xe51d0000#32 else 0xe58d0000#32
  let offset := if offset < 0 then -1 * offset else offset
  op ||| (BitVec.ofInt 32 offset &&& 0xfff#32) ||| reg sreg <<< 12

/-- `jit_inc_stack` (lines 150–154). -/
def jitIncStack (offset : ℤ) : BitVec 32 := 0xe28dd000#32 ||| (BitVec.ofInt 32 offset &&& 0xfff#32)

/-- `jit_dec_stack` (lines 156–160). -/
def jitDecStack (offset : ℤ) : BitVec 32 := 0xe24dd000#32 ||| (BitVec.ofInt 32 offset &&& 0xfff#32)

/-- `jit_ldrb` (lines 167–173). -/
def jitLdrb (r : ℕ) : BitVec 32 := 0xe5900000#32 ||| 1#32 <<< 22 ||| reg r <<< 16 ||| 3#32 <<< 12

/-- `jit_ldrs` (lines 176–182). -/
def jitLdrs (r : ℕ) : BitVec 32 := 0xe1d000b0#32 ||| 1#32 <<< 22 ||| reg r <<< 16 ||| 3#32 <<< 12

/-- `jit_strb` (lines 185–191). -/
def jitStrb (r : ℕ) : BitVec 32 := 0xe5800000#32 ||| 1#32 <<< 22 ||| reg r <<< 16 ||| 3#32 <<< 12

/-- `jit_strs` (lines 194–200). -/
def jitStrs (r : ℕ) : BitVec 32 := 0xe1c000b0#32 ||| 1#32 <<< 22 ||| reg r <<< 16 ||| 3#32 <<< 12

/-- `jit_strw` (lines 203–208). -/
def jitStrw (r : ℕ) : BitVec 32 := 0xe5800000#32 ||| reg r <<< 16 ||| 3#32 <<< 12

/-- `jit_cmpi` (lines 334–339). -/
def jitCmpi (sreg : ℕ) (imm : ℤ) : BitVec 32 :=
  0xe3500000#32 ||| (BitVec.ofInt 32 imm &&& 0xffff#32) ||| reg sreg <<< 16

/-- The bit pattern of the registers from `a` to `b`. -/
def regMask (op : BitVec 32) (a b : ℕ) : BitVec 32 :=
  (List.range' a (b + 1 - a)).foldl (fun op i => op ||| 1#32 <<< i) op

/-- `jit_push` (lines 432–439). -/
def jitPush (a b : ℕ) : BitVec 32 := regMask 0xe92d0000#32 a b

/-- `jit_pop` (lines 441–448). -/
def jitPop (a b : ℕ) : BitVec 32 := regMask 0xe8bd0000#32 a b

/-- `jit_call` (lines 288–293): `jit_movr(14,15)` and `jit_lea(15,func)` between
    a push and a pop of `lr`. -/
def jitCall (func : BitVec 32) : List (Prim Label) :=
  [.word 0xe92d4000, .word (jitMovr 14 15), .movi 15 func, .word 0xe8bd4000]

/-- `jit_divr` and `jit_modr` (lines 308–325). -/
def jitInline (func : BitVec 32) (dreg sreg : ℕ) : List (Prim Label) :=
  [.word (jitMovr 0 dreg), .word (jitMovr 1 sreg)] ++ jitCall func ++
    if dreg ≠ 0 then [.word (jitMovr dreg 0)] else []

/-- `jit_movi(reg, imm)`; a register number is below 16. -/
def moviPrim (r : ℕ) (imm : BitVec 32) : Prim Label := .movi (Fin.ofNat 16 r) imm

/-- What a call of an emitter stores. -/
def prims (a : Addresses) : Compiler.Jit → List (Prim Label)
  | .movi r imm => [moviPrim r (a.imm imm)]
  | .lea r addr => [moviPrim r (a.imm addr)]
  | .movr dreg sreg => [.word (jitMovr dreg sreg)]
  | .movneg dreg sreg => [.word (jitMovneg dreg sreg)]
  | .movne dreg sreg => [.word (jitMovne dreg sreg)]
  | .moveq dreg sreg => [.word (jitMoveq dreg sreg)]
  | .ldr r | .ldrw r => [.word (jitLdr r)]
  | .ldrStack dreg offset _ => [.word (jitLdrStack dreg offset)]
  | .strStack sreg offset _ => [.word (jitStrStack sreg offset)]
  | .incStack offset => [.word (jitIncStack offset)]
  | .decStack offset => [.word (jitDecStack offset)]
  | .ldrb r => [.word (jitLdrb r)]
  | .ldrs r => [.word (jitLdrs r)]
  | .strb r => [.word (jitStrb r)]
  | .strs r => [.word (jitStrs r)]
  | .strw r | .stra r => [.word (jitStrw r)]
  | .addr dreg sreg => [.word (jitAddr dreg sreg)]
  | .addi dreg imm => [.movi 9 (BitVec.ofInt 32 imm), .word (jitAddr dreg 9)]
  | .andr dreg sreg => [.word (jitAndr dreg sreg)]
  | .notr dreg => [.word (jitNotr dreg)]
  | .orr dreg sreg => [.word (jitOrr dreg sreg)]
  | .xorr dreg sreg => [.word (jitXorr dreg sreg)]
  | .shrr dreg sreg => [.word (jitShrr dreg sreg)]
  | .shlr dreg sreg => [.word (jitShlr dreg sreg)]
  | .subr dreg sreg => [.word (jitSubr dreg sreg)]
  | .mulr dreg sreg => [.word (jitMulr dreg sreg)]
  | .divr dreg sreg => jitInline a.inlineDiv dreg sreg
  | .modr dreg sreg => jitInline a.inlineMod dreg sreg
  -- `jit_call2` and `jit_call3` are `jit_call`, and the host call hooks are empty
  | .call f | .hostCall f => jitCall (a.func f)
  | .callr r _ => [.word 0xe92d4000, .word (jitMovr 14 15), .word (jitMovr 15 r), .word 0xe8bd4000]
  | .cmpi sreg imm => [.word (jitCmpi sreg imm)]
  | .cmpr sreg dreg => [.word (jitCmpr sreg dreg)]
  | .je l => [.branch .je l]
  | .jne l => [.branch .jne l]
  | .jmp l => [.branch .jmp l]
  | .label l => [.label l]
  | .ret => [.word (jitMovr 15 14)]
  | .push r r' => [.word (jitPush r r')]
  | .pop r r' => [.word (jitPop r r')]

/-- What a sequence of emitter calls stores. -/
def program (a : Addresses) (code : List Compiler.Jit) : List (Prim Label) := code.flatMap (prims a)

theorem events_prims (a : Addresses) (i : Compiler.Jit) :
    emitter.events (prims a i) = (event i).toList := by
  cases i with
  | divr dreg sreg =>
    rw [prims, jitInline]
    split
    · rfl
    · rfl
  | modr dreg sreg =>
    rw [prims, jitInline]
    split
    · rfl
    · rfl
  | _ => rfl

/-- The label tables see what the compiler emits. -/
theorem events_program (a : Addresses) (code : List Compiler.Jit) :
    emitter.events (program a code) = events code := by
  induction code with
  | nil => rfl
  | cons i code ih =>
    rw [program, List.flatMap_cons, Emitter.events, List.flatMap_append]
    exact congrArg₂ (· ++ ·) (events_prims a i) ih

end Arm

/-! ## x86 -/

namespace X86

/-- `jit_movr` (lines 122–126). -/
def movrBytes (dreg sreg : ℕ) : List (BitVec 8) :=
  if dreg = sreg then [] else [0x89, 0xc0 ||| regi sreg <<< 3 ||| regi dreg]

/-- `jit_movne` (lines 134–138). -/
def jitMovne (dreg sreg : ℕ) : List (BitVec 8) := [0x0f, 0x45, 0xc0 ||| regi dreg <<< 3 ||| regi sreg]

/-- `jit_moveq` (lines 140–144). -/
def jitMoveq (dreg sreg : ℕ) : List (BitVec 8) := [0x0f, 0x44, 0xc0 ||| regi dreg <<< 3 ||| regi sreg]

/-- `jit_addr` (lines 150–153). -/
def jitAddr (dreg sreg : ℕ) : List (BitVec 8) := [0x01, 0xc0 + regi sreg <<< 3 + regi dreg]

/-- The shape of `jit_addi`, `jit_subi`, `jit_andi` and `jit_cmpi`: a shorter
    opcode for `R0`. -/
def immBytes (short long : BitVec 8) (dreg : ℕ) (imm : BitVec 32) : List (BitVec 8) :=
  (if dreg = 0 then [short] else [0x81, long ||| regi dreg]) ++ jitImm imm

/-- `jit_addi` (lines 156–164). -/
def jitAddi (dreg : ℕ) (imm : ℤ) : List (BitVec 8) := immBytes 0x05 0xc0 dreg (BitVec.ofInt 32 imm)

/-- `jit_subi` (lines 166–174). -/
def jitSubi (dreg : ℕ) (imm : ℤ) : List (BitVec 8) := immBytes 0x2d 0xe8 dreg (BitVec.ofInt 32 imm)

/-- `jit_andi` (lines 181–189). -/
def jitAndi (dreg : ℕ) (imm : BitVec 32) : List (BitVec 8) := immBytes 0x25 0xe0 dreg imm

/-- `jit_cmpi` (lines 354–362). -/
def jitCmpi (dreg : ℕ) (imm : ℤ) : List (BitVec 8) := immBytes 0x3d 0xf8 dreg (BitVec.ofInt 32 imm)

/-- `jit_andr` (lines 176–179). -/
def jitAndr (dreg sreg : ℕ) : List (BitVec 8) := [0x21, 0xc0 ||| regi sreg <<< 3 ||| regi dreg]

/-- `jit_notr` (lines 191–194). -/
def jitNotr (dreg : ℕ) : List (BitVec 8) := [0xf7, 0xd0 ||| regi dreg]

/-- `jit_orr` (lines 196–199). -/
def jitOrr (dreg sreg : ℕ) : List (BitVec 8) := [0x09, 0xc0 ||| regi sreg <<< 3 ||| regi dreg]

/-- `jit_xorr` (lines 201–204). -/
def jitXorr (dreg sreg : ℕ) : List (BitVec 8) := [0x31, 0xc0 ||| regi sreg <<< 3 ||| regi dreg]

/-- `jit_shrr` and `jit_shlr` (lines 206–220): the count goes to `%ecx`, which is
    saved in `R3`. -/
def shiftBytes (op : BitVec 8) (dreg sreg : ℕ) : List (BitVec 8) :=
  movrBytes 3 4 ++ movrBytes 4 sreg ++ [0xd3, op ||| regi dreg] ++ movrBytes 4 3

/-- `jit_mulr` (lines 227–231). -/
def jitMulr (dreg sreg : ℕ) : List (BitVec 8) := [0x0f, 0xaf, 0xc0 ||| regi dreg <<< 3 ||| regi sreg]

/-- `jit_divr` (lines 233–239). -/
def jitDivr (dreg sreg : ℕ) : List (BitVec 8) :=
  movrBytes 0 dreg ++ [0x99, 0xf7, 0xf8 ||| regi sreg] ++ movrBytes dreg 0

/-- `jit_ldrb` (lines 262–268). -/
def jitLdrb (r : ℕ) : List (BitVec 8) :=
  [0x8a, 0x10 ||| regi r] ++ jitAndi 3 0xff ++ movrBytes r 3

/-- `jit_ldrs` (lines 270–277). -/
def jitLdrs (r : ℕ) : List (BitVec 8) :=
  [0x66, 0x8b, 0x10 ||| regi r] ++ jitAndi 3 0xffff ++ movrBytes r 3

/-- `jit_ldrw` (lines 279–282): the word goes to `R3`. -/
def jitLdrw (r : ℕ) : List (BitVec 8) := [0x8b, 0x10 ||| regi r]

/-- `jit_strb` (lines 285–288). -/
def jitStrb (r : ℕ) : List (BitVec 8) := [0x88, 0x10 ||| regi r]

/-- `jit_strw` (lines 290–293). -/
def jitStrw (r : ℕ) : List (BitVec 8) := [0x89, 0x10 ||| regi r]

/-- `jit_strs` (lines 295–299). -/
def jitStrs (r : ℕ) : List (BitVec 8) := [0x66, 0x89, 0x10 ||| regi r]

/-- The pushes of `jit_call`, `jit_call2` and `jit_call3`: the last argument
    first. -/
def argPushes : ℕ → List (BitVec 8)
  | 1 => [0x57]
  | 2 => [0x56, 0x57]
  | _ => [0x52, 0x56, 0x57]

/-- `jit_call`, `jit_call2` and `jit_call3` (lines 303–337). -/
def jitCall (argc : ℕ) (func : BitVec 32) : List (BitVec 8) :=
  jitMovi 0 func ++ argPushes argc ++ [0xff, 0xd0, 0x83, 0xc4, BitVec.ofNat 8 (4 * argc)]

/-- The one of the three that `compile_expr` calls a function with. -/
def callArgs : CFun → ℕ
  | .insertGlobalSymbol | .allocCons | .allocConcat | .lispWriteToCell | .fsMount
  | .streamWrite => 2
  | .allocSubstr | .collectGarbage => 3
  | _ => 1

/-- `jit_modr` (lines 347–352). -/
def jitModr (func : BitVec 32) (dreg sreg : ℕ) : List (BitVec 8) :=
  movrBytes 1 dreg ++ movrBytes 2 sreg ++ jitCall 2 func ++
    if dreg ≠ 0 then movrBytes dreg 0 else []

/-- `jit_cmpr` (lines 364–367). -/
def jitCmpr (sreg dreg : ℕ) : List (BitVec 8) := [0x39, 0xc0 ||| regi sreg <<< 3 ||| regi dreg]

/-- `jit_push` (lines 418–422). -/
def jitPush (a b : ℕ) : List (BitVec 8) := (List.range' a (b + 1 - a)).map fun i => 0x50 ||| regi i

/-- `jit_pop` (lines 424–428). -/
def jitPop (a b : ℕ) : List (BitVec 8) :=
  (List.range' a (b + 1 - a)).reverse.map fun i => 0x58 ||| regi i

/-- The bytes of a call that is neither a branch nor a label. -/
def bytesOf (a : Addresses) : Compiler.Jit → List (BitVec 8)
  | .movi r imm => jitMovi r (a.imm imm)
  | .lea r addr => jitMovi r (a.imm addr)
  | .movr dreg sreg => movrBytes dreg sreg
  | .movneg dreg sreg => jitMovneg dreg sreg
  | .movne dreg sreg => jitMovne dreg sreg
  | .moveq dreg sreg => jitMoveq dreg sreg
  | .ldr r => jitLdr r
  | .ldrStack dreg offset _ => jitLdrStack dreg offset
  | .strStack sreg offset _ => jitStrStack sreg offset
  | .incStack offset => jitAddi Port.x86.rsp offset
  | .decStack offset => jitSubi Port.x86.rsp offset
  | .ldrb r => jitLdrb r
  | .ldrs r => jitLdrs r
  | .ldrw r => jitLdrw r
  | .strb r => jitStrb r
  | .strs r => jitStrs r
  | .strw r | .stra r => jitStrw r
  | .addr dreg sreg => jitAddr dreg sreg
  | .addi dreg imm => jitAddi dreg imm
  | .andr dreg sreg => jitAndr dreg sreg
  | .notr dreg => jitNotr dreg
  | .orr dreg sreg => jitOrr dreg sreg
  | .xorr dreg sreg => jitXorr dreg sreg
  | .shrr dreg sreg => shiftBytes 0xe8 dreg sreg
  | .shlr dreg sreg => shiftBytes 0xe0 dreg sreg
  | .subr dreg sreg => jitSubr dreg sreg
  | .mulr dreg sreg => jitMulr dreg sreg
  | .divr dreg sreg => jitDivr dreg sreg
  | .modr dreg sreg => jitModr a.inlineMod dreg sreg
  | .call f | .hostCall f => jitCall (callArgs f) (a.func f)
  | .callr r _ => [0xff, 0xd0 ||| regi r]
  | .cmpi sreg imm => jitCmpi sreg imm
  | .cmpr sreg dreg => jitCmpr sreg dreg
  | .ret => [0xc3]
  | .push r r' => jitPush r r'
  | .pop r r' => jitPop r r'
  | .je _ | .jne _ | .jmp _ | .label _ => []

/-- What a call of an emitter stores. -/
def prim (a : Addresses) : Compiler.Jit → Prim Label
  | .je l => .branch .je l
  | .jne l => .branch .jne l
  | .jmp l => .branch .jmp l
  | .label l => .label l
  | i => .bytes (bytesOf a i)

/-- What a sequence of emitter calls stores. -/
def program (a : Addresses) (code : List Compiler.Jit) : List (Prim Label) := code.map (prim a)

theorem event_prim (a : Addresses) (i : Compiler.Jit) : (prim a i).event = event i := by
  cases i <;> rfl

/-- The label tables see what the compiler emits. -/
theorem events_program (a : Addresses) (code : List Compiler.Jit) :
    emitter.events (program a code) = events code := by
  induction code with
  | nil => rfl
  | cons i code ih =>
    rw [program, List.map_cons, Emitter.events_cons]
    exact congrArg₂ (fun o es => o.toList ++ es) (event_prim a i) ih

end X86

end Interim.Backend
