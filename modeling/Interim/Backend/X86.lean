import Interim.Backend.Integer

/-!
# The x86 back end

The emitters of `sledge/jit_x86.c` that loads and the comparison builtins call,
and what the processor does with the bytes they store. A call (`jit_call`) is
kept as a unit: `mov $f, %eax`, `push %edi`, `call *%eax`, `add $4, %esp`.

`ARG_SPILLOVER` is 0 here, so parameters are always on the stack.
-/

namespace Interim.Backend

open Compiler

/-- `jit_x86.c`. -/
def x86 : Target := ⟨1, 4⟩

namespace X86

/-- `regi` (lines 27–36): the number of a register in an instruction. -/
def regi : ℕ → BitVec 8
  | 0 => 0
  | 1 => 7
  | 2 => 6
  | 3 => 2
  | 4 => 1
  | 5 => 3
  | 6 => 4
  | _ => 0

/-- What an emitter stores: the bytes of one instruction, or the call
    sequence. -/
inductive Item
  | code (bytes : List (BitVec 8))
  | call (f : Helper)
  deriving DecidableEq, Repr

/-! ## Emitters -/

/-- `jit_imm` (lines 69–74). -/
def jitImm (imm : BitVec 32) : List (BitVec 8) :=
  [imm.extractLsb' 0 8, imm.extractLsb' 8 8, imm.extractLsb' 16 8, imm.extractLsb' 24 8]

/-- `jit_movi` (lines 117–120). -/
def jitMovi (reg : ℕ) (imm : BitVec 32) : List (BitVec 8) := (0xb8 ||| regi reg) :: jitImm imm

/-- `jit_movr` (lines 122–126). -/
def jitMovr (dreg sreg : ℕ) : List Item :=
  if dreg = sreg then [] else [.code [0x89, 0xc0 ||| regi sreg <<< 3 ||| regi dreg]]

/-- `jit_movneg` (lines 128–132). -/
def jitMovneg (dreg sreg : ℕ) : List (BitVec 8) := [0x0f, 0x48, 0xc0 ||| regi dreg <<< 3 ||| regi sreg]

/-- `jit_subr` (lines 219–222). -/
def jitSubr (dreg sreg : ℕ) : List (BitVec 8) := [0x29, 0xc0 ||| regi sreg <<< 3 ||| regi dreg]

/-- `jit_ldr` (lines 239–242). -/
def jitLdr (reg : ℕ) : List (BitVec 8) := [0x8b, regi reg <<< 3 ||| regi reg]

/-- `jit_ldr_stack` (lines 244–249): the offset is one byte. -/
def jitLdrStack (dreg : ℕ) (offset : ℤ) : List (BitVec 8) :=
  [0x8b, 0x44 ||| regi dreg <<< 3, 0x24, BitVec.ofInt 8 offset]

/-- The emitters of `jit_x86.c` that loads and comparisons call. -/
def emit (l : Layout 32) : Jit → Option (List Item)
  | .movi reg imm => do some [.code (jitMovi reg (← l.imm imm))]
  | .lea reg addr => do some [.code (jitMovi reg (← l.imm addr))]
  | .movr dreg sreg => some (jitMovr dreg sreg)
  | .movneg dreg sreg => some [.code (jitMovneg dreg sreg)]
  | .subr dreg sreg => some [.code (jitSubr dreg sreg)]
  | .ldr reg => some [.code (jitLdr reg)]
  | .ldrStack dreg offset _ => some [.code (jitLdrStack dreg offset)]
  | .call .allocInt => some [.call .allocInt]
  | _ => none

/-! ## Decoding -/

/-- The general purpose registers. -/
inductive Reg
  | eax | ecx | edx | ebx | esp | ebp | esi | edi
  deriving DecidableEq, Repr

/-- The register with a number. -/
def Reg.ofNum (n : BitVec 3) : Reg :=
  match n.toNat with
  | 0 => .eax
  | 1 => .ecx
  | 2 => .edx
  | 3 => .ebx
  | 4 => .esp
  | 5 => .ebp
  | 6 => .esi
  | _ => .edi

/-- Decoded instructions. -/
inductive Instr
  | movImm (d : Reg) (imm : BitVec 32)
  | mov (d s : Reg)
  | sub (d s : Reg)
  | cmovs (d s : Reg)
  | load (d base : Reg) (disp : BitVec 32)
  deriving DecidableEq, Repr

/-- The `mod` field of a ModRM byte. -/
def modField (m : BitVec 8) : BitVec 2 := m.extractLsb' 6 2

/-- The `reg` field of a ModRM byte. -/
def regField (m : BitVec 8) : Reg := .ofNum (m.extractLsb' 3 3)

/-- The `rm` field of a ModRM byte. -/
def rmField (m : BitVec 8) : Reg := .ofNum (m.extractLsb' 0 3)

/-- The instruction in a list of bytes: `mov r32, imm32`; `mov`, `sub` and
    `cmovs` between registers; a load through a register, where the
    fields of `%esp` and `%ebp` mean something else, and one through `%esp` with a byte displacement. -/
def decode : List (BitVec 8) → Option Instr
  | [op, m] =>
    if op = 0x89 ∧ modField m = 3 then some (.mov (rmField m) (regField m))
    else if op = 0x29 ∧ modField m = 3 then some (.sub (rmField m) (regField m))
    else if op = 0x8b ∧ modField m = 0 ∧ rmField m ≠ .esp ∧ rmField m ≠ .ebp then
      some (.load (regField m) (rmField m) 0)
    else none
  | [op, ext, m] =>
    if op = 0x0f ∧ ext = 0x48 ∧ modField m = 3 then some (.cmovs (regField m) (rmField m))
    else none
  | [op, m, sib, disp] =>
    if op = 0x8b ∧ modField m = 1 ∧ rmField m = .esp ∧ sib = 0x24 then
      some (.load (regField m) .esp (disp.signExtend 32))
    else none
  | [op, b₀, b₁, b₂, b₃] =>
    if op.extractLsb' 3 5 = 0x17 then some (.movImm (.ofNum (op.extractLsb' 0 3)) (b₃ ++ b₂ ++ b₁ ++ b₀))
    else none
  | _ => none

/-! ## Execution -/

/-- Registers, the sign flag, and the word at each address. -/
structure State where
  regs : Reg → BitVec 32
  sf : Option Bool
  mem : BitVec 32 → BitVec 32

/-- Write a register. -/
def State.set (m : State) (d : Reg) (v : BitVec 32) : State :=
  { m with regs := Function.update m.regs d v }

/-- One instruction. -/
def exec (m : State) : Instr → Option State
  | .movImm d imm => some (m.set d imm)
  | .mov d s => some (m.set d (m.regs s))
  | .sub d s =>
    let v := m.regs d - m.regs s
    some { m.set d v with sf := some v.msb }
  | .cmovs d s => m.sf.map fun t => if t then m.set d (m.regs s) else m
  | .load d base disp => some (m.set d (m.mem (m.regs base + disp)))

/-- The registers a C function must preserve: all but `%eax`, `%ecx`, `%edx`. -/
def calleeSaved : Reg → Bool
  | .eax | .ecx | .edx => false
  | _ => true

/-- A call. The argument is the pushed `%edi`. -/
def call (c : Callee Reg 32) (m : State) : Helper → Option State
  | .allocInt =>
    some
      { regs := Function.update (fun r => if calleeSaved r then m.regs r else c.junk r) .eax c.fresh
        sf := none
        mem := Function.update m.mem c.fresh (m.regs .edi) }
  | _ => none

/-- One item. -/
def step (c : Callee Reg 32) (m : State) : Item → Option State
  | .code bytes => do exec m (← decode bytes)
  | .call f => call c m f

/-- Straight-line code. -/
def run (c : Callee Reg 32) (code : List Item) (m : State) : Option State :=
  code.foldlM (step c) m

/-- Run what the emitters store for a list of emitter calls. -/
def runJit (l : Layout 32) (c : Callee Reg 32) (code : List Jit) (m : State) : Option State :=
  code.foldlM (fun m j => do run c (← emit l j) m) m

/-! ## Loads -/

/-- The register of `regnames` (lines 2–10). -/
def regnames : ℕ → Reg
  | 0 => .eax
  | 1 => .edi
  | 2 => .esi
  | 3 => .edx
  | 4 => .ecx
  | 5 => .ebx
  | _ => .esp

/-- Operand `x` is the machine word `a` in state `m`: a literal, the cell of a
    global, a cell on the stack or a raw integer on the stack. -/
def Holds (l : Layout 32) (sp : ℤ) (m : State) (x : Operand) (a : BitVec 32) : Prop :=
  match x.arg.type with
  | .const => ∃ v, x.value = .int v ∧ v.setWidth 32 = a
  | .env => ∃ e, x.arg.env = some e ∧ m.mem (m.mem (l (.entry e))) = a
  | .stack => m.mem (m.mem (m.regs .esp + (BitVec.ofInt 8 (4 * (sp - x.arg.slot))).signExtend 32)) = a
  | .stackInt => m.mem (m.regs .esp + (BitVec.ofInt 8 (4 * (sp - x.arg.slot))).signExtend 32) = a
  | _ => False

section Runs

variable {l : Layout 32} {c : Callee Reg 32} {sp : ℤ} {m m' : State} {x y : Operand}
  {a b : BitVec 32} {d : ℕ} {code rest : List Jit} {j : Jit} {is : List Item}

@[simp] theorem run_nil : run c [] m = some m := rfl

@[simp] theorem run_cons {i : Item} : run c (i :: is) m = (step c m i).bind (run c is) := rfl

@[simp] theorem runJit_nil : runJit l c [] m = some m := rfl

@[simp] theorem runJit_cons :
    runJit l c (j :: rest) m = ((emit l j).bind fun is => run c is m).bind (runJit l c rest) := rfl

theorem runJit_append (h : runJit l c code m = some m') :
    runJit l c (code ++ rest) m = runJit l c rest m' := by
  unfold runJit at h ⊢
  rw [List.foldlM_append, h]
  rfl

@[simp] theorem State.set_regs (r r' : Reg) (v : BitVec 32) :
    (m.set r v).regs r' = if r' = r then v else m.regs r' := by
  simp [State.set, Function.update_apply]

@[simp] theorem State.set_mem (r : Reg) (v : BitVec 32) : (m.set r v).mem = m.mem := rfl

@[simp] theorem State.set_set (r : Reg) (v w : BitVec 32) :
    (m.set r v).set r w = m.set r w := by
  simp [State.set]

/-- The four bytes of an immediate, put together again. -/
theorem append_jitImm (imm : BitVec 32) :
    imm.extractLsb' 24 8 ++ imm.extractLsb' 16 8 ++ imm.extractLsb' 8 8 ++ imm.extractLsb' 0 8 =
      imm := by
  apply BitVec.eq_of_getLsbD_eq
  intro i hi
  simp only [BitVec.getLsbD_append, BitVec.getLsbD_extractLsb']
  interval_cases i <;> simp

theorem decode_jitMovi (hd : d < lbdreg) (imm : BitVec 32) :
    decode (jitMovi d imm) = some (.movImm (regnames d) imm) := by
  have h23 : (0xb8 ||| regi d).extractLsb' 3 5 = 0x17#5 := by
    have hd4 : d < 4 := hd
    interval_cases d <;> decide
  have hnum : Reg.ofNum ((0xb8 ||| regi d).extractLsb' 0 3) = regnames d := by
    have hd4 : d < 4 := hd
    interval_cases d <;> decide
  simp only [jitMovi, jitImm, decode, h23, hnum, append_jitImm]
  rfl

theorem decode_jitLdr : ∀ d < lbdreg, decode (jitLdr d) = some (.load (regnames d) (regnames d) 0) := by
  decide

theorem decode_jitLdrStack (hd : d < lbdreg) (offset : ℤ) :
    decode (jitLdrStack d offset) =
      some (.load (regnames d) .esp ((BitVec.ofInt 8 offset).signExtend 32)) := by
  have hd4 : d < 4 := hd
  interval_cases d <;> rfl

/-- `load_int` puts the word into its register and changes nothing else. -/
theorem runJit_loadInt (hd : d < lbdreg) (hx : Holds l sp m x a) :
    runJit l c (x86.loadInt sp d x) m = some (m.set (regnames d) a) := by
  unfold Holds at hx
  unfold Target.loadInt
  split at hx
  · rename_i ht
    obtain ⟨v, hv, ha⟩ := hx
    simp [ht, hv, emit, Layout.imm, step, decode_jitMovi hd, exec, ha]
  · rename_i ht
    obtain ⟨e, he, hv⟩ := hx
    simp [ht, he, entryPtr, emit, Layout.imm, step, decode_jitMovi hd, decode_jitLdr d hd, exec, hv]
  · rename_i ht
    simp [ht, emit, step, decode_jitLdrStack hd, decode_jitLdr d hd, exec, hx, x86]
  · rename_i ht
    simp [ht, emit, step, decode_jitLdrStack hd, exec, hx, x86]
  · exact hx.elim

/-- Writing one of the first four registers moves no operand. -/
theorem Holds.set (hd : d < lbdreg) {v : BitVec 32} (hx : Holds l sp m x a) :
    Holds l sp (m.set (regnames d) v) x a := by
  have hd4 : d < 4 := hd
  have hsp : Reg.esp ≠ regnames d := by interval_cases d <;> decide
  unfold Holds at hx ⊢
  split at hx
  · exact hx
  · exact hx
  · rw [State.set_mem, State.set_regs, if_neg hsp]
    exact hx
  · rw [State.set_mem, State.set_regs, if_neg hsp]
    exact hx
  · exact hx.elim

/-- `sub` and `cmovs`: the difference, or zero if it is negative. -/
theorem runJit_positive :
    ∃ m', runJit l c [.movi r3 (.int 0), .subr x86.argr0 r2, .movneg x86.argr0 r3] m = some m' ∧
      m'.mem = m.mem ∧
      m'.regs .edi = if (m.regs .edi - m.regs .esi).msb then 0 else m.regs .edi - m.regs .esi := by
  have hsub : decode (jitSubr 1 r2) = some (.sub .edi .esi) := by decide
  have hneg : decode (jitMovneg 1 r3) = some (.cmovs .edi .edx) := by decide
  have hzero : decode (jitMovi r3 0#32) = some (.movImm .edx 0) := by decide
  by_cases hn : (m.regs .edi - m.regs .esi).msb
  · simp [emit, Layout.imm, step, exec, x86, hsub, hneg, hzero, hn]
  · simp [emit, Layout.imm, step, exec, x86, hsub, hneg, hzero, hn]

end Runs

end X86

end Interim.Backend
