import Interim.Alloc.Heap

/-!
# The reader

Model of `sledge/reader.c`: the character-level state machine `read_char`
(lines 27–203) with its two list helpers, and `read_string` (lines 205–245).

The result is assembled by destructive updates of heap cells. `stack_root`
(`Cell stack_root[32]`, used as 96 pointers) is part of the reader state;
indexing it outside `0 .. 95` is a fault, as is writing outside a token
buffer. The locals that `read_string` leaves uninitialised are the argument
`Junk`.
-/

namespace Interim.Reader

open Heap

/-! ## Characters -/

abbrev lf : UInt8 := 10
abbrev cr : UInt8 := 13
abbrev space : UInt8 := 32
abbrev dquote : UInt8 := 34
abbrev lparen : UInt8 := 40
abbrev rparen : UInt8 := 41
abbrev minus : UInt8 := 45
abbrev semicolon : UInt8 := 59
abbrev lbracket : UInt8 := 91
abbrev rbracket : UInt8 := 93
abbrev lowerX : UInt8 := 120

/-- `c==' ' || c==13 || c==10`. -/
def isWs (c : UInt8) : Bool := c = space ∨ c = cr ∨ c = lf

/-- `c>='0' && c<='9'`. -/
def isDigit (c : UInt8) : Bool := 48 ≤ c.toNat ∧ c.toNat ≤ 57

/-- `c>='a' && c<='f'`. -/
def isLowerHex (c : UInt8) : Bool := 97 ≤ c.toNat ∧ c.toNat ≤ 102

/-- `c>='A' && c<='F'`. -/
def isUpperHex (c : UInt8) : Bool := 65 ≤ c.toNat ∧ c.toNat ≤ 70

/-! ## State -/

/-- The `PST_*` states (`reader.h`, lines 6–16). -/
inductive Pst
  | atom
  | num
  | sym
  | str
  | numNeg
  | bytes
  | comment
  | errUnexpClosingBrace
  | errUnexpJunkInNumber
  | errUnexpJunkInBytes
  deriving DecidableEq, Repr

/-- `rs.state >= 10`. -/
def Pst.isError : Pst → Bool
  | .errUnexpClosingBrace | .errUnexpJunkInNumber | .errUnexpJunkInBytes => true
  | _ => false

/-- `VST_DEFAULT`. -/
abbrev vstDefault : ℕ := 0

/-- `VST_HEX`. -/
abbrev vstHex : ℕ := 1

/-- The number of pointers in `Cell stack_root[32]`. -/
abbrev stackSize : ℕ := 96

/-- `ReaderState` (`reader.h`, lines 21–29) with the storage it points to:
    `stack` is `rs->stack - stack_root` in pointers, `slots` the contents of
    `stack_root`. -/
structure ReaderState where
  state : Pst
  cell : Word
  symLen : ℕ
  valuestate : ℕ
  stack : ℤ
  level : ℕ
  slots : ℕ → Word

/-- The cell a non-null cell pointer points to. -/
def cellOf (w : Word) : Except Stop ℕ :=
  match w.asCell with
  | some (some i) => .ok i
  | _ => .error .fault

/-- `*rs->stack`. -/
def ReaderState.top (rs : ReaderState) : Except Stop Word :=
  if 0 ≤ rs.stack ∧ rs.stack < stackSize then .ok (rs.slots rs.stack.toNat) else .error .fault

/-- `*rs->stack = w`. -/
def ReaderState.setTop (rs : ReaderState) (w : Word) : Except Stop ReaderState :=
  if 0 ≤ rs.stack ∧ rs.stack < stackSize then
    .ok { rs with slots := Function.update rs.slots rs.stack.toNat w }
  else .error .fault

/-- `cell->ar.addr = w`. -/
def setAr (h : Heap) (i : ℕ) (w : Word) : Heap := h.setCell i { h.cells i with ar := w }

/-- `cell->dr.next = w`, `cell->dr.size = w`. -/
def setDr (h : Heap) (i : ℕ) (w : Word) : Heap := h.setCell i { h.cells i with dr := w }

/-! ## List helpers -/

/-- `reader_next_list_cell` (lines 5–10). -/
def readerNextListCell (cell : ℕ) (rs : ReaderState) (h : Heap) :
    Except Stop (ℕ × ReaderState × Heap) := do
  let (next, h) ← h.allocNil
  .ok (next, { rs with state := .atom }, setDr h cell (.cell next))

/-- Line 19: `if (cell->ar.addr) cell->dr.next = alloc_nil()`. -/
def terminateList (cell : ℕ) (h : Heap) : Except Stop Heap :=
  if (h.cells cell).ar ≠ .null then do
    let (n, h) ← h.allocNil
    .ok (setDr h cell (.cell n))
  else .ok h

/-- `reader_end_list` (lines 12–25). -/
def readerEndList (cell : ℕ) (rs : ReaderState) (h : Heap) :
    Except Stop (ℕ × ReaderState × Heap) := do
  if rs.level < 1 then .ok (cell, { rs with state := .errUnexpClosingBrace }, h)
  else
    let rs := { rs with level := rs.level - 1, stack := rs.stack - 1 }
    let h ← terminateList cell h
    let cell ← cellOf (← rs.top)
    readerNextListCell cell rs h

/-! ## Token buffers -/

/-- `memset(buffer + start, 0, n)`. -/
def memsetZero (h : Heap) (b start n : ℕ) : Except Stop Heap :=
  let s := h.bytes b
  if start + n ≤ s.length then
    .ok (h.setBytes b (s.take start ++ List.replicate n 0 ++ s.drop (start + n)))
  else .error .fault

/-- The `grow buffer` blocks (lines 159–163 and 184–188): reallocate the
    buffer of the value cell `v` at twice its size. -/
def growBuffer (h : Heap) (v : ℕ) : Except Stop Heap :=
  match (h.cells v).ar, (h.cells v).dr with
  | .ptr (.bytes b) _, .int size => do
    let (b', h) ← h.cellRealloc b size.toNat (2 * size).toNat
    let h ← memsetZero h b' size.toNat size.toNat
    .ok (h.setCell v { h.cells v with ar := .ptr (.bytes b') 0, dr := .int (2 * size) })
  | _, _ => .error .fault

/-- `if (need) { grow buffer }`. -/
def growWhen (need : Bool) (h : Heap) (v : ℕ) : Except Stop Heap :=
  if need then growBuffer h v else .ok h

/-- Store into the buffer of the value cell `v`: `((char*)v->ar.addr)[idx] = f
    old`. -/
def storeToken (h : Heap) (v idx : ℕ) (f : UInt8 → UInt8) : Except Stop Heap :=
  match (h.cells v).ar with
  | .ptr (.bytes b) _ => h.storeByte b idx (f ((h.bytes b).getD idx 0))
  | _ => .error .fault

/-- The first character in the buffer of the value cell `v`. -/
def firstChar (h : Heap) (v : ℕ) : Except Stop UInt8 :=
  match (h.cells v).ar with
  | .ptr (.bytes b) _ => .ok ((h.bytes b).getD 0 0)
  | _ => .error .fault

/-- The size field of a value cell. -/
def sizeOf (h : Heap) (v : ℕ) : Except Stop (BitVec 64) :=
  match (h.cells v).dr with
  | .int size => .ok size
  | _ => .error .fault

/-- The value of an integer cell. -/
def valueOf (h : Heap) (v : ℕ) : Except Stop (BitVec 64) :=
  match (h.cells v).ar with
  | .int x => .ok x
  | _ => .error .fault

/-- The `append` block (lines 153–165) for symbols and strings. -/
def appendChar (c : UInt8) (cell : ℕ) (rs : ReaderState) (h : Heap) :
    Except Stop (ReaderState × Heap) := do
  let v ← cellOf (h.cells cell).ar
  let idx := rs.symLen
  let rs := { rs with symLen := toUInt32 (rs.symLen + 1) }
  let size ← sizeOf h v
  let h ← growWhen (rs.symLen ≥ (size - 1).toNat) h v
  let h ← storeToken h v idx fun _ => c
  .ok (rs, h)

/-- The value of a hex digit (lines 176–178). -/
def hexVal (c : UInt8) : ℕ :=
  let n := c.toNat
  let n := if n ≥ 97 then n - 39 else n
  let n := if n ≥ 65 then n - 7 else n
  n - 48

/-- The hex digit block (lines 172–193). -/
def appendNibble (c : UInt8) (cell : ℕ) (rs : ReaderState) (h : Heap) :
    Except Stop (ReaderState × Heap) := do
  let n := hexVal c
  let v ← cellOf (h.cells cell).ar
  let idx := rs.symLen
  let rs := { rs with symLen := toUInt32 (rs.symLen + 1) }
  let size ← sizeOf h v
  let h ← growWhen (rs.symLen ≥ (size / 2 - 1).toNat) h v
  let h ← storeToken h v (idx / 2) fun old =>
    if idx % 2 = 0 then UInt8.ofNat (n <<< 4) else old ||| UInt8.ofNat n
  .ok (rs, h)

/-- The digit block (lines 93–108). -/
def appendDigit (c : UInt8) (cell : ℕ) (rs : ReaderState) (h : Heap) : Except Stop Heap := do
  let v ← cellOf (h.cells cell).ar
  let mul : BitVec 64 := if rs.valuestate = vstHex then 16 else 10
  let d : BitVec 64 := BitVec.ofNat 64 (if c.toNat ≥ 97 then 10 + (c.toNat - 97) else c.toNat - 48)
  let x ← valueOf h v
  .ok (setAr h v (.int (if rs.state = .numNeg then x * mul - d else x * mul + d)))

/-! ## `read_char` -/

/-- The `if (!cell)` block (lines 31–36): make a root. -/
def ensureRoot (rs : ReaderState) (h : Heap) : Except Stop (ReaderState × Heap) :=
  if rs.cell = .null then do
    let (root, h) ← h.allocNil
    let (next, h) ← h.allocNil
    let rs ← rs.setTop (.cell root)
    .ok ({ rs with cell := .cell root }, setDr h root (.cell next))
  else .ok (rs, h)

/-- Lines 39–86: `read_char` in state `PST_ATOM`, with current cell `cell`. -/
def readAtom (c : UInt8) (cell : ℕ) (rs : ReaderState) (h : Heap) :
    Except Stop (ℕ × ReaderState × Heap) := do
  if isWs c then .ok (cell, rs, h)
  else if c = semicolon then .ok (cell, { rs with state := .comment }, h)
  else if isDigit c then
    let (v, h) ← h.allocInt 0
    let h := setAr h v (.ofNat (c.toNat - 48))
    .ok (cell, { rs with state := .num, valuestate := vstDefault }, setAr h cell (.cell v))
  else if c = lparen then
    let (v, h) ← h.allocNil
    let h := setAr h cell (.cell v)
    let rs ← rs.setTop (.cell cell)
    .ok (v, { rs with stack := rs.stack + 1, level := rs.level + 1, state := .atom }, h)
  else if c = rparen then readerEndList cell rs h
  else if c = lbracket then
    let (v, h) ← h.allocNumBytes symInitBufferSize
    .ok (cell, { rs with state := .bytes, symLen := 0 }, setAr h cell (.cell v))
  else if c = dquote then
    let (v, h) ← h.allocNumString symInitBufferSize
    .ok (cell, { rs with state := .str, symLen := 0 }, setAr h cell (.cell v))
  else
    let (v, h) ← h.allocNumBytes symInitBufferSize
    let h := h.setCell v { h.cells v with tag := tagSym }
    let h ← storeToken h v 0 fun _ => c
    let h := setDr h v (.ofNat symInitBufferSize)
    .ok (cell, { rs with state := .sym, symLen := 1 }, setAr h cell (.cell v))

/-- Lines 92–117: states `PST_NUM` and `PST_NUM_NEG`. -/
def readNum (c : UInt8) (cell : ℕ) (rs : ReaderState) (h : Heap) :
    Except Stop (ℕ × ReaderState × Heap) := do
  if isDigit c ∨ (rs.valuestate = vstHex ∧ isLowerHex c) then
    let h ← appendDigit c cell rs h
    .ok (cell, rs, h)
  else if isWs c then readerNextListCell cell rs h
  else if c = rparen then readerEndList cell rs h
  else if c = lowerX then .ok (cell, { rs with valuestate := vstHex }, h)
  else .ok (cell, { rs with state := .errUnexpJunkInNumber }, h)

/-- Lines 132–165: state `PST_SYM`. A digit after a leading `-` turns the
    symbol into a negative number. -/
def readSym (c : UInt8) (cell : ℕ) (rs : ReaderState) (h : Heap) :
    Except Stop (ℕ × ReaderState × Heap) := do
  if c = rparen then readerEndList cell rs h
  else if isWs c then readerNextListCell cell rs h
  else
    let v ← cellOf (h.cells cell).ar
    let first ← firstChar h v
    if isDigit c ∧ first = minus then
      let h := h.setCell v
        { h.cells v with tag := tagInt, ar := .int (-BitVec.ofNat 64 (c.toNat - 48)) }
      .ok (cell, { rs with state := .numNeg }, h)
    else
      let (rs, h) ← appendChar c cell rs h
      .ok (cell, rs, h)

/-- Lines 122–131 and 153–165: state `PST_STR`. -/
def readStr (c : UInt8) (cell : ℕ) (rs : ReaderState) (h : Heap) :
    Except Stop (ℕ × ReaderState × Heap) := do
  if c = dquote then
    let v ← cellOf (h.cells cell).ar
    readerNextListCell cell rs (setDr h v (.ofNat rs.symLen))
  else
    let (rs, h) ← appendChar c cell rs h
    .ok (cell, rs, h)

/-- Lines 168–199: state `PST_BYTES`. -/
def readBytes (c : UInt8) (cell : ℕ) (rs : ReaderState) (h : Heap) :
    Except Stop (ℕ × ReaderState × Heap) := do
  if c = rbracket then
    let v ← cellOf (h.cells cell).ar
    readerNextListCell cell rs (setDr h v (.ofNat (rs.symLen / 2)))
  else if isDigit c ∨ isLowerHex c ∨ isUpperHex c then
    let (rs, h) ← appendNibble c cell rs h
    .ok (cell, rs, h)
  else if isWs c then .ok (cell, rs, h)
  else .ok (cell, { rs with state := .errUnexpJunkInBytes }, h)

/-- `read_char` after the root exists: the dispatch on `rs->state`. -/
def readState (c : UInt8) (cell : ℕ) (rs : ReaderState) (h : Heap) :
    Except Stop (ℕ × ReaderState × Heap) :=
  match rs.state with
  | .atom => readAtom c cell rs h
  | .comment => .ok (cell, if c = lf ∨ c = 0 then { rs with state := .atom } else rs, h)
  | .num | .numNeg => readNum c cell rs h
  | .sym => readSym c cell rs h
  | .str => readStr c cell rs h
  | .bytes => readBytes c cell rs h
  | _ => .ok (cell, rs, h)

/-- `read_char(c, rs)` (lines 27–203). -/
def readChar (c : UInt8) (rs : ReaderState) (h : Heap) : Except Stop (ReaderState × Heap) := do
  let (rs, h) ← ensureRoot rs h
  let cell ← cellOf rs.cell
  let (cell, rs, h) ← readState c cell rs h
  .ok ({ rs with cell := .cell cell }, h)

/-! ## `read_string` -/

/-- The initial contents of the uninitialised locals of `read_string`. -/
structure Junk where
  stackRoot : ℕ → Word
  valuestate : ℕ
  symLen : ℕ

/-- The loop of lines 219–226; it stops at the first error state. -/
def readChars : List UInt8 → ReaderState → Heap → Except Stop (ReaderState × Heap)
  | [], rs, h => .ok (rs, h)
  | c :: cs, rs, h => do
    let (rs, h) ← readChar c rs h
    if rs.state.isError then .ok (rs, h) else readChars cs rs h

/-- The reader state `read_string` starts with. -/
def ReaderState.start (junk : Junk) : ReaderState where
  state := .atom
  cell := .null
  symLen := junk.symLen
  valuestate := junk.valuestate
  stack := 0
  level := 0
  slots := junk.stackRoot

/-- Lines 227–244: what `read_string` returns after the loop. -/
def readResult (rs : ReaderState) (h : Heap) : Except Stop (Word × Heap) := do
  if rs.state.isError ∨ rs.level ≠ 0 then
    let (e, h) ← h.allocError errSyntax
    .ok (.cell e, h)
  else
    let root ← rs.top
    if root ≠ .null then
      let r ← cellOf root
      .ok ((h.cells r).ar, h)
    else
      let (e, h) ← h.allocError errSyntax
      .ok (.cell e, h)

/-- `read_string(in)` (lines 205–245); `input` holds the characters before the
    terminating NUL. `len` is an `int`, so a text of `2^31` or more characters
    has a negative length and the loop does not run. -/
def readString (junk : Junk) (input : List UInt8) (h : Heap) : Except Stop (Word × Heap) := do
  let (rs, h) ← readChars (input.take (toInt32 input.length).toNat) (.start junk) h
  readResult rs h

end Interim.Reader
