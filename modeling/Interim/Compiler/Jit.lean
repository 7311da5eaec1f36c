import Interim.Minilisp

/-!
# Emitter calls

`compile_expr` produces code by calling the `jit_*` functions of a back end
one after another. Code is the list of these calls; what each of them makes
the processor do is said by the machine models, not here.

`jit_comment` lines are left out: the assembler drops them. So are `jit_jge`
and `jit_jneg`, which are only reached with `CHECK_BOUNDS`.
-/

namespace Interim.Compiler

/-! ## Registers

A register is its number in `enum jit_reg`, which is an index into `regnames`
where a back end prints names. -/

abbrev r0 : ℕ := 0
abbrev r1 : ℕ := 1
abbrev r2 : ℕ := 2
abbrev r3 : ℕ := 3

/-- `LBDREG`: the first register used for passing arguments to functions. -/
abbrev lbdreg : ℕ := 4

/-! ## Ports (`compiler_new.c`, lines 12–17 and 81–99) -/

/-- What `compile_expr` takes from the back end it is built with. -/
class Port where
  /-- `ARGR0` -/
  argr0 : ℕ
  /-- `ARGR1` -/
  argr1 : ℕ
  /-- `ARGR2` -/
  argr2 : ℕ
  /-- `RSP` -/
  rsp : ℕ
  /-- `ARG_SPILLOVER` -/
  argSpillover : ℕ
  /-- `PTRSZ` -/
  ptrsz : ℤ

/-- `jit_x64.c`; the port meant where none is mentioned. -/
instance Port.x64 : Port := ⟨1, 2, 3, 12, 3, 8⟩

/-- `jit_arm_raw.c`. -/
abbrev Port.arm : Port := ⟨0, 1, 2, 13, 3, 4⟩

/-- `jit_x86.c`. -/
abbrev Port.x86 : Port := ⟨1, 2, 3, 6, 0, 4⟩

abbrev argr0 [Port] : ℕ := Port.argr0
abbrev argr1 [Port] : ℕ := Port.argr1
abbrev argr2 [Port] : ℕ := Port.argr2
abbrev rsp [Port] : ℕ := Port.rsp
abbrev argSpillover [Port] : ℕ := Port.argSpillover
abbrev ptrsz [Port] : ℤ := Port.ptrsz

theorem argr0_x64 : argr0 = 1 := rfl
theorem argSpillover_x64 : argSpillover = 3 := rfl
theorem ptrsz_x64 : ptrsz = 8 := rfl

/-! ## Labels and C functions -/

/-- The names `compile_expr` prints for its labels. -/
inductive Label
  /-- `Lelse_%d` -/
  | else_ (n : ℕ)
  /-- `Lendif_%d` -/
  | endif (n : ℕ)
  /-- `Lloop_%d` -/
  | loop (n : ℕ)
  /-- `Lskip_%d` -/
  | skip (n : ℕ)
  /-- `Lskip2_%d` -/
  | skip2 (n : ℕ)
  /-- `Lok_%d` -/
  | ok (n : ℕ)
  /-- `L0_%p`: the entry of the lambda in `cell_heap[a]` -/
  | fn (a : ℕ)
  /-- `L1_%p`: the first instruction after that lambda -/
  | fe (a : ℕ)
  deriving DecidableEq, Repr

/-- The C functions compiled code calls. -/
inductive CFun
  | allocInt
  | allocNil
  | allocCons
  | allocStructDef
  | allocStruct
  | allocConcat
  | allocSubstr
  | allocNumBytes
  | allocNumString
  | allocStringFromBytes
  | insertGlobalSymbol
  | collectGarbage
  | listSymbols
  | lispWriteToCell
  | readStringCell
  | platformEval
  | lispPrint
  | fsMount
  | fsMmap
  | fsOpen
  | streamRead
  | streamWrite
  deriving DecidableEq, Repr

/-! ## Instructions -/

/-- A call of an emitter. `ldrStack` and `strStack` carry, besides the byte
    offset the emitter gets, the frame slot the compiler meant to address
    (`none` where the access is not to a slot of the frame), and `callr` the
    number of arguments the call site passes; no back end reads these.
    `hostCall f` is `jit_host_call_enter(); jit_call(f); jit_host_call_exit()`,
    which the compiler always emits together. -/
inductive Jit
  | movi (reg : ℕ) (imm : Word)
  | movr (dreg sreg : ℕ)
  | movneg (dreg sreg : ℕ)
  | movne (dreg sreg : ℕ)
  | moveq (dreg sreg : ℕ)
  | lea (reg : ℕ) (addr : Word)
  | ldr (reg : ℕ)
  | ldrStack (dreg : ℕ) (offset : ℤ) (slot : Option ℤ)
  | strStack (sreg : ℕ) (offset : ℤ) (slot : Option ℤ)
  | incStack (offset : ℤ)
  | decStack (offset : ℤ)
  | ldrb (reg : ℕ)
  | ldrs (reg : ℕ)
  | ldrw (reg : ℕ)
  | strb (reg : ℕ)
  | strs (reg : ℕ)
  | strw (reg : ℕ)
  | stra (reg : ℕ)
  | addr (dreg sreg : ℕ)
  | addi (dreg : ℕ) (imm : ℤ)
  | andr (dreg sreg : ℕ)
  | notr (dreg : ℕ)
  | orr (dreg sreg : ℕ)
  | xorr (dreg sreg : ℕ)
  | shrr (dreg sreg : ℕ)
  | shlr (dreg sreg : ℕ)
  | subr (dreg sreg : ℕ)
  | mulr (dreg sreg : ℕ)
  | divr (dreg sreg : ℕ)
  | modr (dreg sreg : ℕ)
  | call (f : CFun)
  | hostCall (f : CFun)
  | callr (reg : ℕ) (argc : ℕ)
  | cmpi (sreg : ℕ) (imm : ℤ)
  | cmpr (sreg dreg : ℕ)
  | je (l : Label)
  | jne (l : Label)
  | jmp (l : Label)
  | label (l : Label)
  | ret
  | push (a b : ℕ)
  | pop (a b : ℕ)

end Interim.Compiler
