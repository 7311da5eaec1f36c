import Interim.Compiler.Frame
import Interim.Alloc.Construct

/-!
# Loading arguments

Model of the helpers of `compile_expr` (`sledge/compiler_new.c`, lines
112–296): `load_int`, `load_cell`, the frame lookup, saving and restoring the
parameter registers, `analyze_fn`, and `clean_return`; and the enumeration
`builtin_t`.
-/

namespace Interim.Compiler

open Writer (cellAt car cdr cString elemAt)
open CompM

/-! ## `builtin_t` (`compiler_new.h`, lines 45–124) -/

/-- `typedef enum builtin_t`. -/
inductive Builtin
  | add | sub | mul | div | mod
  | bitand | bitnot | bitor | bitxor | shl | shr
  | lt | gt | eq
  | while_
  | def_ | if_ | fn
  | car | cdr | cons | list
  | alloc | allocStr | new | bytesToStr | strToBytes | concat | substr
  | get8 | get16 | get32 | put8 | put16 | put32 | sget | sput | size
  | uget | uput | usize
  | type | let_ | quote | struct | map | do_
  | eval | read | write
  | print | mount | mmap | open_ | close | recv | send
  | gc | symbols | debug
  | load | save
  | sin | cos | sqrt
  deriving DecidableEq, Repr

namespace Builtin

/-- The enumerators in order; the first has the value 1. -/
def all : List Builtin :=
  [.add, .sub, .mul, .div, .mod, .bitand, .bitnot, .bitor, .bitxor, .shl, .shr, .lt, .gt, .eq,
    .while_, .def_, .if_, .fn, .car, .cdr, .cons, .list, .alloc, .allocStr, .new, .bytesToStr,
    .strToBytes, .concat, .substr, .get8, .get16, .get32, .put8, .put16, .put32, .sget, .sput,
    .size, .uget, .uput, .usize, .type, .let_, .quote, .struct, .map, .do_, .eval, .read, .write,
    .print, .mount, .mmap, .open_, .close, .recv, .send, .gc, .symbols, .debug, .load, .save,
    .sin, .cos, .sqrt]

/-- The enumerator in a cell's `ar.value`. -/
def ofWord : Word → Option Builtin
  | .int v => if v = 0 then none else all[v.toNat - 1]?
  | _ => none

end Builtin

/-! ## Reading cells -/

/-- `w->tag`. -/
def tagOf (w : Word) : CompM ℕ := do
  let c ← fetch fun h => cellAt h w
  pure c.tag

/-- The string behind `w->ar.addr`. -/
def nameOf (w : Word) : CompM (List UInt8) := do
  let c ← fetch fun h => cellAt h w
  fetch fun h => cString h c.ar

/-- `lookup_global_symbol(name)` (lines 24–30): the index of the entry. -/
def lookupGlobalSymbol (name : List UInt8) : CompM (Option ℕ) := do
  let c ← ctx
  pure (c.lookup name)

/-- The address of an `env_entry`; `NULL` for none. -/
def entryPtr : Option ℕ → Word
  | some e => .ptr (.entry e) 0
  | none => .null

/-! ## `load_int` and `load_cell` -/

variable [Port]

/-- `load_int(dreg, arg, f)` (lines 112–145). -/
def loadInt (dreg : ℕ) (arg : Arg) : CompM Unit :=
  match arg.type with
  | .const => do
    let c ← fetch fun h => cellAt h arg.cell
    emit [.movi dreg c.ar]
  | .env => emit [.lea dreg (entryPtr arg.env), .ldr dreg, .ldr dreg]
  | .reg => emit [.movr dreg arg.slot.toNat, .ldr dreg]
  | .regInt => emit (if (dreg : ℤ) ≠ arg.slot then [.movr dreg arg.slot.toNat] else [])
  | .stack => do
    let f ← frame
    emit [.ldrStack dreg (ptrsz * (f.sp - arg.slot)) (some arg.slot), .ldr dreg]
  | .stackInt => do
    let f ← frame
    emit [.ldrStack dreg (ptrsz * (f.sp - arg.slot)) (some arg.slot)]
  | .lambda => emit [.movi dreg (.ofNat 0xdeadbeef)]

/-- The boxing sequence of `load_cell` (lines 166–177): the registers it uses
    are saved unless they are the destination, and the offset allows for what
    was pushed. -/
def boxStackInt (dreg : ℕ) (sp slot : ℤ) : List Jit :=
  let saveArg := if dreg ≠ argr0 then [Jit.push argr0 argr0] else []
  let saveRes := if dreg ≠ r0 then [Jit.push r0 r0] else []
  let adjust : ℤ := saveArg.length + saveRes.length
  saveArg ++ saveRes ++
    [.ldrStack argr0 (ptrsz * (sp - slot + adjust)) (some slot), .call .allocInt, .movr dreg r0] ++
    (if dreg ≠ r0 then [Jit.pop r0 r0] else []) ++
    (if dreg ≠ argr0 then [Jit.pop argr0 argr0] else [])

/-- `load_cell(dreg, arg, f)` (lines 147–182). -/
def loadCell (dreg : ℕ) (arg : Arg) : CompM Unit :=
  match arg.type with
  | .const => emit [.movi dreg arg.cell]
  | .env => emit [.lea dreg (entryPtr arg.env), .ldr dreg]
  | .reg => emit [.movr dreg arg.slot.toNat]
  | .regInt => emit [.call .allocInt, .movr dreg r0]
  | .stack => do
    let f ← frame
    emit [.ldrStack dreg (ptrsz * (f.sp - arg.slot)) (some arg.slot)]
  | .stackInt => do
    let f ← frame
    emit (boxStackInt dreg f.sp arg.slot)
  | .lambda => emit [.movi dreg (.ofNat 0xdeadcafe)]

/-! ## The frame -/

/-- `get_sym_frame_idx(argname, fn_frame, ignore_regs)` (lines 184–202). -/
def getSymFrameIdx (argname : List UInt8) (f : Option (ℕ → Arg)) (ignoreRegs : Bool) : Option ℕ :=
  match f with
  | none => none
  | some fr => (List.range maxFrame).find? fun i =>
      (fr i).name = some argname ∧ ¬ ((fr i).type = .reg ∧ ignoreRegs = true)

/-- The number of `ARGT_REG` entries of a frame, counted by `push_frame_regs`
    and again by `pop_frame_regs`. -/
def frameRegs : Option (ℕ → Arg) → ℕ
  | none => 0
  | some fr => ((List.range maxFrame).filter fun i => (fr i).type = .reg).length

/-- `if (pushreg) jit_push(LBDREG, LBDREG+pushreg-1)`. -/
def pushRegs (n : ℕ) : List Jit := if n = 0 then [] else [.push lbdreg (lbdreg + n - 1)]

/-- `if (pushreg) jit_pop(LBDREG, LBDREG+pushreg-1)`. -/
def popRegs (n : ℕ) : List Jit := if n = 0 then [] else [.pop lbdreg (lbdreg + n - 1)]

/-- `push_frame_regs(fn_frame)` (lines 205–221). -/
def pushFrameRegs (f : Option (ℕ → Arg)) : List Jit := pushRegs (frameRegs f)

/-- `pop_frame_regs(fn_frame)` (lines 223–239). -/
def popFrameRegs (f : Option (ℕ → Arg)) : List Jit := popRegs (frameRegs f)

/-- `fn_frame[i] = a`; outside the array this is a stray write. -/
def setFrameEntry (i : ℕ) (a : Arg) : CompM Unit := do
  let fr ← frame
  match fr.f with
  | none => fault
  | some f => if i < maxFrame then setFrame { fr with f := some (Function.update f i a) } else fault

/-! ## `analyze_fn` (lines 241–280) -/

/-- The search of `analyze_buffer` for a name. -/
def knownLocal (h : Heap) (sym : Word) : List Word → Except Stop Bool
  | [] => .ok false
  | known :: rest => do
    let a ← cString h known
    let b ← cString h sym
    if a = b then .ok true else knownLocal h sym rest

/-- Lines 249–270: a symbol bound to the builtin `let` declares the symbol
    that follows it in `parent`. `buf` is `analyze_buffer[0 .. num_lets)`. -/
def analyzeLet (h : Heap) (parent : Word) (buf : List Word) : Except Stop (List Word) := do
  let rest ← cdr h parent
  let sym ← car h rest
  if sym = .null then .ok buf
  else do
    let c ← cellAt h sym
    let existing ← knownLocal h c.ar buf
    if existing then .ok buf
    else if buf.length < maxFrame then .ok (buf ++ [c.ar]) else .error .fault

/-- Whether the symbol cell `c` is bound to the builtin `let`. -/
def namesLet (c : Ctx) (h : Heap) (sym : Cell) : Except Stop Bool := do
  let name ← cString h sym.ar
  match c.lookup name with
  | none => .ok false
  | some e => do
    let op ← cellAt h (c.entry e)
    .ok (op.tag = tagBuiltin ∧ Builtin.ofWord op.ar = some .let_)

/-- `analyze_fn(expr, parent, num_lets)`. -/
def analyzeFn (c : Ctx) (h : Heap) : ℕ → Word → Word → List Word → Except Stop (List Word)
  | 0, _, _, _ => .error .fuel
  | n + 1, expr, parent, buf => do
    let cell ← cellAt h expr
    if cell.tag = tagSym then do
      let isLet ← namesLet c h cell
      if isLet then analyzeLet h parent buf else .ok buf
    else if cell.tag = tagCons then do
      let buf ← (if cell.ar = .null then .ok buf else analyzeFn c h n cell.ar expr buf)
      if cell.dr = .null then .ok buf else analyzeFn c h n cell.dr expr buf
    else .ok buf

/-! ## Types and returning -/

/-- `compatible_type(given, required)` (lines 282–287). -/
def compatibleType (given required : ℕ) : Bool :=
  given = required ∨
    ((given = tagStr ∨ given = tagBytes) ∧ (required = tagStr ∨ required = tagBytes))

/-- `clean_return(args_pushed, frame, compiled_type)` (lines 289–296). -/
def cleanReturn (argsPushed : ℕ) (compiledType : Word) : CompM Word :=
  if argsPushed = 0 then pure compiledType
  else do
    emit [.incStack (argsPushed * ptrsz)]
    addSp (-argsPushed)
    pure compiledType

/-- The end of every integer builtin: box the result in `ARGR0` when a cell
    is wanted, else leave it raw in `R0`. -/
def intResult (returnType : Word) : CompM Word := do
  let c ← ctx
  let tag ← tagOf returnType
  if tag = tagAny then do
    emit [.call .allocInt]
    pure (.cell c.prototypeAny)
  else do
    emit [.movr r0 argr0]
    pure (.cell c.prototypeInt)

end Interim.Compiler
