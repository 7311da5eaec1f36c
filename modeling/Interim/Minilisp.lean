import Mathlib.Tactic

/-!
# Words, cells and tags

The data model of `sledge/minilisp.h` on the x64 build (`CPU_X64`, so
`jit_word_t` is `uint64_t`).

A machine word is either a raw 64-bit integer or a pointer. Pointers are kept
symbolic: a block (one cell of `cell_heap`, one buffer returned by
`bytes_alloc`, one array of cell pointers, …) and a byte offset into it. The
word the compiler writes into every frame, `(jit_word_t)lambda |
STACK_FRAME_MARKER`, has its own constructor, since it is neither a number nor
a usable pointer.

C code that reads through a wild pointer, writes outside a block or calls
`exit` has no result; it ends in a `Stop`.
-/

namespace Interim

/-! ## Tags (`minilisp.h`, lines 40–59) -/

abbrev tagFreed : ℕ := 0
abbrev tagInt : ℕ := 1
abbrev tagCons : ℕ := 2
abbrev tagSym : ℕ := 3
abbrev tagLambda : ℕ := 4
abbrev tagBuiltin : ℕ := 5
abbrev tagBignum : ℕ := 6
abbrev tagStr : ℕ := 7
abbrev tagBytes : ℕ := 8
abbrev tagVec : ℕ := 9
abbrev tagStructDef : ℕ := 10
abbrev tagStruct : ℕ := 11
abbrev tagError : ℕ := 512
abbrev tagAny : ℕ := 2048
abbrev tagVoid : ℕ := 4096
abbrev tagStream : ℕ := 8192
abbrev tagFs : ℕ := 16384
abbrev tagMark : ℕ := 65536

/-- `SYM_INIT_BUFFER_SIZE`. -/
abbrev symInitBufferSize : ℕ := 32

/-- `MAX_SYMBOL_SIZE`. -/
abbrev maxSymbolSize : ℕ := 64

/-- `ERR_SYNTAX`. -/
abbrev errSyntax : ℕ := 0

/-- `ERR_MAX_EVAL_DEPTH`. -/
abbrev errMaxEvalDepth : ℕ := 1

/-- `ERR_UNKNOWN_OP`. -/
abbrev errUnknownOp : ℕ := 2

/-- `ERR_APPLY_NIL`. -/
abbrev errApplyNil : ℕ := 3

/-- `ERR_INVALID_PARAM_TYPE`. -/
abbrev errInvalidParamType : ℕ := 4

/-- `ERR_OUT_OF_BOUNDS`. -/
abbrev errOutOfBounds : ℕ := 5

/-! ## Words -/

/-- What a pointer points into. -/
inductive Block
  /-- `cell_heap[i]` -/
  | cell (i : ℕ)
  /-- a buffer of `bytes_alloc` -/
  | bytes (i : ℕ)
  /-- a `Cell**` array of a vector, struct or struct definition -/
  | elems (i : ℕ)
  /-- an `env_entry` of the global environment -/
  | entry (i : ℕ)
  /-- a `Stream` -/
  | stream (i : ℕ)
  /-- a `Filesystem` -/
  | filesystem (i : ℕ)
  /-- assembled code of one `compile_for_platform` call -/
  | code (i : ℕ)
  /-- a C function -/
  | func (i : ℕ)
  /-- the machine stack; the offset is the byte address -/
  | stack
  /-- the `StrMap` behind `global_env` -/
  | env
  deriving DecidableEq, Repr

/-- A 64-bit machine word. -/
inductive Word
  /-- a raw integer; `NULL` is `int 0` -/
  | int (v : BitVec 64)
  /-- the address of a block plus a byte offset -/
  | ptr (b : Block) (off : ℤ)
  /-- `(jit_word_t)&cell_heap[lambda] | STACK_FRAME_MARKER` -/
  | frame (lambda : ℕ)
  /-- a word the source leaves undefined (a register a C call may clobber) -/
  | undef
  deriving DecidableEq, Repr

namespace Word

/-- `NULL`. -/
abbrev null : Word := .int 0

/-- The `Cell*` of `cell_heap[i]`. -/
abbrev cell (i : ℕ) : Word := .ptr (.cell i) 0

/-- The value of the C expression `(jit_word_t)n` for a non-negative `n`. -/
abbrev ofNat (n : ℕ) : Word := .int (BitVec.ofNat 64 n)

end Word

/-- `typedef struct Cell` (`minilisp.h`, lines 82–92). -/
structure Cell where
  ar : Word
  dr : Word
  tag : ℕ
  deriving DecidableEq, Repr

/-- `typedef struct env_entry` (`minilisp.h`, lines 96–99). -/
structure EnvEntry where
  cell : Word
  name : List UInt8
  deriving DecidableEq, Repr

/-- How C code can fail to return. -/
inductive Stop
  /-- `exit(1)` in `cell_alloc`: `MAX_CELLS` cells are in use -/
  | exit
  /-- an access through a wild or null pointer, or outside a block -/
  | fault
  /-- the evaluation bound of the model ran out -/
  | fuel
  deriving DecidableEq, Repr

/-- A C computation that returns is one whose steps return. -/
theorem bind_ok {α β : Type} {x : Except Stop α} {f : α → Except Stop β} {b : β} :
    (x >>= f) = .ok b ↔ ∃ a, x = .ok a ∧ f a = .ok b := by
  cases x with
  | error e => simp [bind, Except.bind]
  | ok a => simp [bind, Except.bind]

theorem ok_bind {α β : Type} (a : α) (f : α → Except Stop β) : (Except.ok a >>= f) = f a := rfl

/-- The cell pointer in a word: `some none` for `NULL`, `none` when the word
    is no cell pointer. -/
def Word.asCell : Word → Option (Option ℕ)
  | .int v => if v = 0 then some none else none
  | .ptr (.cell i) off => if off = 0 then some (some i) else none
  | _ => none

@[simp] theorem Word.asCell_null : Word.asCell (.int 0) = some none := rfl

@[simp] theorem Word.asCell_cell (i : ℕ) : (Word.cell i).asCell = some (some i) := rfl

theorem Word.asCell_eq_some {w : Word} {i : ℕ} (hw : w.asCell = some (some i)) : w = .cell i := by
  unfold Word.asCell at hw
  split at hw
  · split at hw
    · simp at hw
    · simp at hw
  · rename_i j off
    split at hw
    · rename_i ho
      simp only [Option.some.injEq] at hw
      rw [hw, ho]
    · simp at hw
  · simp at hw

/-! ## C integer conversions -/

/-- The value of `(unsigned int)n`. -/
def toUInt32 (n : ℕ) : ℕ := n % 2 ^ 32

/-- The value of `(int)n` for a non-negative `n`: the low 32 bits, read in
    two's complement. -/
def toInt32 (n : ℕ) : ℤ := (BitVec.ofNat 32 n).toInt

theorem toUInt32_of_lt {n : ℕ} (h : n < 2 ^ 32) : toUInt32 n = n := Nat.mod_eq_of_lt h

theorem toInt32_of_lt {n : ℕ} (h : n < 2 ^ 31) : toInt32 n = n := by
  unfold toInt32
  rw [BitVec.toInt_eq_toNat_of_lt (by rw [BitVec.toNat_ofNat]; omega), BitVec.toNat_ofNat]
  omega

end Interim
