import Interim.Alloc.Heap

/-!
# The writer

Model of `sledge/writer.c`: `write_` (lines 31–169) and `lisp_write`. An output
buffer is a list of bytes of fixed length; a store outside it is a fault, and
so is reading a C string that has no terminator. The temporary buffers come
from `malloc`, so their first contents are arbitrary (`junk`).
-/

namespace Interim.Writer

open Heap

/-- `TMP_BUF_SIZE`. -/
abbrev tmpBufSize : ℕ := 512

/-- The bytes of an ASCII literal. -/
def ascii (s : String) : List UInt8 := s.toList.map fun c => UInt8.ofNat c.toNat

/-! ## C strings and `snprintf` -/

/-- `(size_t)n` for an `int n`. -/
def toSizeT (n : ℤ) : ℕ := (n % 2 ^ 64).toNat

/-- Store `s` from index `pos` on. -/
def store (buf : List UInt8) (pos : ℕ) (s : List UInt8) : Except Stop (List UInt8) :=
  if pos + s.length ≤ buf.length then
    .ok (buf.take pos ++ (s ++ buf.drop (pos + s.length)))
  else .error .fault

/-- `snprintf(buffer + pos, size, ...)` for the formatted text: at most
    `size - 1` characters and a NUL. -/
def snprintf (buf : List UInt8) (pos : ℕ) (size : ℤ) (text : List UInt8) :
    Except Stop (List UInt8) :=
  if toSizeT size = 0 then .ok buf
  else store buf pos (text.take (toSizeT size - 1) ++ [0])

/-- The C string that starts at index `pos`. -/
def cStringAt (buf : List UInt8) (pos : ℕ) : Except Stop (List UInt8) :=
  if 0 ∈ buf.drop pos then .ok ((buf.drop pos).takeWhile (· ≠ 0)) else .error .fault

/-- The C string a word points to. -/
def cString (h : Heap) : Word → Except Stop (List UInt8)
  | .ptr (.bytes b) off => if 0 ≤ off then cStringAt (h.bytes b) off.toNat else .error .fault
  | _ => .error .fault

/-! ## Number formats -/

/-- A natural number in decimal. -/
def natText (n : ℕ) : List UInt8 :=
  if n = 0 then [48] else (Nat.digits 10 n).reverse.map fun d => UInt8.ofNat (48 + d)

/-- `%ld` and `%d`. -/
def intText (v : ℤ) : List UInt8 := if v < 0 then 45 :: natText v.natAbs else natText v.natAbs

/-- One lower-case hex digit. -/
def hexDigit (n : ℕ) : UInt8 := UInt8.ofNat (if n < 10 then 48 + n else 87 + n)

/-- `%02x`. -/
def hexByte (b : UInt8) : List UInt8 := [hexDigit (b.toNat / 16), hexDigit (b.toNat % 16)]

/-! ## Reading cells -/

/-- The cell a non-null cell pointer points to. -/
def cellAt (h : Heap) (w : Word) : Except Stop Cell :=
  match w.asCell with
  | some (some i) => .ok (h.cells i)
  | _ => .error .fault

/-- `car(x)` (`minilisp.h`, line 101): `NULL` for `NULL`. -/
def car (h : Heap) (w : Word) : Except Stop Word :=
  match w.asCell with
  | some none => .ok .null
  | some (some i) => .ok (h.cells i).ar
  | none => .error .fault

/-- `cdr(x)` (line 102). -/
def cdr (h : Heap) (w : Word) : Except Stop Word :=
  match w.asCell with
  | some none => .ok .null
  | some (some i) => .ok (h.cells i).dr
  | none => .error .fault

/-- The raw value of a word; `%ld` of anything else prints an address, which
    the model does not have. -/
def intOf : Word → Except Stop (BitVec 64)
  | .int v => .ok v
  | _ => .error .fault

/-- `((Cell**)vec)[i]`. -/
def elemAt (h : Heap) (vec : Word) (i : ℕ) : Except Stop Word :=
  match vec with
  | .ptr (.elems e) off =>
    if off = 0 then
      match (h.elems e)[i]? with
      | some w => .ok w
      | none => .error .fault
    else .error .fault
  | _ => .error .fault

/-! ## The branches of `write_`

`rec` stands for the recursive calls: cell, buffer, position, `in_list`,
`bufsize`. In all branches `bufsize` is the decremented one. -/

/-- A recursive call of `write_`. -/
abbrev Rec := Word → List UInt8 → ℕ → Bool → ℤ → Except Stop (List UInt8)

/-- A fresh `TMP_BUF_SIZE` buffer filled by a recursive call, as a C string. -/
def writeTmp (junk : ℕ → UInt8) (rec : Rec) (w : Word) (inList : Bool) :
    Except Stop (List UInt8) := do
  let tmp ← rec w ((List.range tmpBufSize).map junk) 0 inList tmpBufSize
  cStringAt tmp 0

/-- `cell->dr.next && ((Cell*)cell->dr.next)->tag == TAG_CONS`. -/
def isConsPtr (h : Heap) (w : Word) : Except Stop Bool :=
  if w = .null then .ok false
  else do
    let c ← cellAt h w
    .ok (c.tag = tagCons)

/-- Lines 41–69: `TAG_CONS`. -/
def writeCons (junk : ℕ → UInt8) (h : Heap) (rec : Rec) (c : Cell) (buf : List UInt8) (pos : ℕ)
    (inList : Bool) (bufsize : ℤ) : Except Stop (List UInt8) :=
  if c.ar = .null ∧ c.dr = .null then
    if inList then .ok buf else snprintf buf pos bufsize (ascii "nil")
  else do
    let tmpl ← writeTmp junk rec c.ar false
    let proper ← isConsPtr h c.dr
    let tmpr ← writeTmp junk rec c.dr proper
    snprintf buf pos bufsize
      (if proper then
        if inList then
          if tmpr ≠ [] then tmpl ++ (ascii " " ++ tmpr) else tmpl
        else ascii "(" ++ (tmpl ++ (ascii " " ++ (tmpr ++ ascii ")")))
      else ascii "(" ++ (tmpl ++ (ascii " . " ++ (tmpr ++ ascii ")"))))

/-- Line 73: `TAG_STR`; the size bound is compared as `uint64_t`. -/
def writeStr (h : Heap) (c : Cell) (buf : List UInt8) (pos : ℕ) (bufsize : ℤ) :
    Except Stop (List UInt8) := do
  let s ← cString h c.ar
  let size ← intOf c.dr
  let bound : ℕ := min (toSizeT (bufsize - 1)) (size + 3).toNat
  snprintf buf pos bound (ascii "\"" ++ (s ++ ascii "\""))

/-- The loop of lines 118–120, from index `i` on for `n` bytes. -/
def writeHex (h : Heap) (ar : Word) (pos : ℕ) : ℕ → ℕ → List UInt8 → Except Stop (List UInt8)
  | _, 0, buf => .ok buf
  | i, n + 1, buf =>
    match ar with
    | .ptr (.bytes b) off =>
      if 0 ≤ off ∧ off.toNat + i < (h.bytes b).length then do
        let buf ← store buf (pos + 1 + i * 2) (hexByte ((h.bytes b).getD (off.toNat + i) 0) ++ [0])
        writeHex h ar pos (i + 1) n buf
      else .error .fault
    | _ => .error .fault

/-- Lines 112–123: `TAG_BYTES`. -/
def writeBytes (h : Heap) (c : Cell) (buf : List UInt8) (pos : ℕ) (bufsize : ℤ) :
    Except Stop (List UInt8) := do
  let size ← intOf c.dr
  let strsize : ℕ := min (size * 2 + 3).toNat (toSizeT bufsize)
  let maxBytes : ℕ := (((strsize : ℤ) - 3).tdiv 2 % 2 ^ 32).toNat
  if bufsize > 5 then do
    let buf ← store buf pos (ascii "[")
    let buf ← writeHex h c.ar pos 0 maxBytes buf
    store buf (pos + maxBytes * 2 + 1) (ascii "]" ++ [0])
  else .ok buf

/-- The loop of lines 86–96: the parameter names of a lambda. -/
def writeParams (h : Heap) : ℕ → Word → List UInt8 → ℕ → Except Stop (List UInt8)
  | 0, _, _, _ => .error .fuel
  | fuel + 1, args, tmp, ai => do
    let arg ← car h (← car h args)
    if args = .null ∨ arg = .null then .ok tmp
    else do
      let c ← cellAt h arg
      let text ←
        if c.tag = tagCons then do
          let name ← cString h (← cellAt h (← car h arg)).ar
          let type ← cString h (← cellAt h (← car h (← cdr h arg))).ar
          .ok (ascii "(" ++ (name ++ (ascii " " ++ (type ++ ascii ")"))))
        else cString h c.ar
      let text := if ai ≠ 0 then ascii " " ++ text else text
      let tmp ← snprintf tmp ai ((tmpBufSize : ℤ) - ai) text
      writeParams h fuel (← cdr h args) tmp (ai + text.length)

/-- Lines 77–98: `TAG_LAMBDA`. -/
def writeLambda (junk : ℕ → UInt8) (h : Heap) (fuel : ℕ) (rec : Rec) (c : Cell)
    (buf : List UInt8) (pos : ℕ) (bufsize : ℤ) : Except Stop (List UInt8) := do
  let tmpArgs ← store ((List.range tmpBufSize).map junk) 0 [0]
  let tmpArgs ← writeParams h fuel (← car h c.ar) tmpArgs 0
  let tmpBody ← rec (← cdr h c.ar) ((List.range (tmpBufSize * 2)).map junk) 0 false tmpBufSize
  let args ← cStringAt tmpArgs 0
  let body ← cStringAt tmpBody 0
  snprintf buf pos bufsize (ascii "(fn " ++ (args ++ (ascii " " ++ (body ++ ascii ")"))))

/-- Lines 102–110: `TAG_ERROR`. -/
def errorText (code : BitVec 64) : List UInt8 :=
  if code.toNat = errSyntax then ascii "<e0:syntax error.>"
  else if code.toNat = errMaxEvalDepth then ascii "<e1:deepest level of evaluation reached.>"
  else if code.toNat = errUnknownOp then ascii "<e2:unknown operation.>"
  else if code.toNat = errApplyNil then ascii "<e3:cannot apply nil.>"
  else if code.toNat = errInvalidParamType then ascii "<e4:invalid or no parameter given.>"
  else if code.toNat = errOutOfBounds then ascii "<e5:out of bounds.>"
  else ascii "<e" ++ (intText code.toInt ++ ascii ":unknown>")

/-- The loop of lines 147–154: elements `i .. elements - 1`, while there is
    room. Returns the buffer and `pos`. -/
def writeElems (h : Heap) (rec : Rec) (vec : Word) (start : ℕ) (elements : ℤ) (bufsize : ℤ) :
    ℕ → ℕ → ℕ → List UInt8 → Except Stop (ℕ × List UInt8)
  | 0, _, _, _ => .error .fuel
  | fuel + 1, i, pos, buf =>
    if (i : ℤ) < elements ∧ (pos : ℤ) < bufsize - 1 then do
      let w ← elemAt h vec i
      let buf ← rec w buf (start + pos) false (bufsize - pos)
      let s ← cStringAt buf (start + pos)
      let buf ← store buf (start + (pos + s.length)) (ascii " ")
      writeElems h rec vec start elements bufsize fuel (i + 1) (pos + s.length + 1) buf
    else .ok (pos, buf)

/-- The text after `(`, and the first element to print (lines 133–145). -/
def vecHead (h : Heap) (c : Cell) : Except Stop (List UInt8 × ℕ) :=
  if c.tag = tagVec then .ok (ascii "vec ", 0)
  else if c.tag = tagStruct then
    if c.ar = .null then .ok ([], 0)
    else do
      let def_ ← elemAt h c.ar 0
      if def_ = .null then .ok ([], 0)
      else do
        let name ← cString h (← cellAt h (← elemAt h (← cellAt h def_).ar 0)).ar
        .ok (name ++ ascii " ", 1)
  else .ok (ascii "struct ", 0)

/-- Lines 125–157: `TAG_VEC`, `TAG_STRUCT`, `TAG_STRUCT_DEF`. -/
def writeVec (h : Heap) (fuel : ℕ) (rec : Rec) (c : Cell) (buf : List UInt8) (start : ℕ)
    (bufsize : ℤ) : Except Stop (List UInt8) := do
  let size ← intOf c.dr
  if bufsize > 12 then do
    let buf ← store buf start (ascii "(")
    let (text, i) ← vecHead h c
    let buf ← if text = [] then .ok buf else store buf (start + 1) (text ++ [0])
    let (pos, buf) ← writeElems h rec c.ar start (toInt32 size.toNat) bufsize fuel i
      (1 + text.length) buf
    store buf (start + pos) (ascii ")" ++ [0])
  else .ok buf

/-- Lines 159–164: `TAG_STREAM`. -/
def streamText (h : Heap) (c : Cell) : Except Stop (List UInt8) :=
  match c.ar with
  | .int v => if v = 0 then .ok (ascii "<stream:null>") else .error .fault
  | .ptr (.stream s) off =>
    if off = 0 then
      match (h.streams s).fs with
      | .ptr (.filesystem f) off => do
        let path ← cString h (← cellAt h (h.streams s).path).ar
        let mount ← cString h (← cellAt h (h.filesystems f).mountPoint).ar
        if off = 0 then
          .ok (ascii "<stream:" ++ (intText (h.streams s).id ++ (ascii ":" ++
            (path ++ (ascii ":" ++ (mount ++ ascii ">"))))))
        else .error .fault
      | _ => .error .fault
    else .error .fault
  | _ => .error .fault

/-! ## `write_` -/

/-- The dispatch of `write_` on the tag of a cell (lines 38–167). -/
def writeCell (junk : ℕ → UInt8) (h : Heap) (fuel : ℕ) (rec : Rec) (c : Cell) (buf : List UInt8)
    (pos : ℕ) (inList : Bool) (bufsize : ℤ) : Except Stop (List UInt8) :=
  if c.tag = tagInt then do
    snprintf buf pos bufsize (intText (← intOf c.ar).toInt)
  else if c.tag = tagCons then writeCons junk h rec c buf pos inList bufsize
  else if c.tag = tagSym then do
    snprintf buf pos bufsize (← cString h c.ar)
  else if c.tag = tagStr then writeStr h c buf pos bufsize
  else if c.tag = tagBignum then do
    snprintf buf pos bufsize (← cString h c.ar)
  else if c.tag = tagLambda then writeLambda junk h fuel rec c buf pos bufsize
  else if c.tag = tagBuiltin then do
    snprintf buf pos bufsize (ascii "(op " ++ (intText (← intOf c.ar).toInt ++ ascii ")"))
  else if c.tag = tagError then do
    snprintf buf pos bufsize (errorText (← intOf c.ar))
  else if c.tag = tagBytes then writeBytes h c buf pos bufsize
  else if c.tag = tagVec ∨ c.tag = tagStruct ∨ c.tag = tagStructDef then
    writeVec h fuel rec c buf pos bufsize
  else if c.tag = tagStream then do
    snprintf buf pos bufsize (← streamText h c)
  else snprintf buf pos bufsize (ascii "<tag:" ++ (natText c.tag ++ ascii ">"))

/-- `write_(cell, buffer + pos, in_list, bufsize)` (lines 31–169). -/
def write (junk : ℕ → UInt8) (h : Heap) : ℕ → Rec
  | 0, _, _, _, _, _ => .error .fuel
  | fuel + 1, w, buf, pos, inList, bufsize => do
    let buf ← store buf pos [0]
    match w.asCell with
    | none => .error .fault
    | some none => snprintf buf pos (bufsize - 1) (ascii "null")
    | some (some i) =>
      writeCell junk h fuel (write junk h fuel) (h.cells i) buf pos inList (bufsize - 1)

/-- `lisp_write(cell, buffer, bufsize)` (lines 171–173). -/
def lispWrite (junk : ℕ → UInt8) (h : Heap) (fuel : ℕ) (w : Word) (buf : List UInt8)
    (bufsize : ℤ) : Except Stop (List UInt8) :=
  write junk h fuel w buf 0 false bufsize

/-- `lisp_write_to_cell(cell, buffer_cell)` (lines 175–180). `dr.size` becomes
    an `int`. The texts of the printed cells are read from `h`, so they have to
    lie outside the storage that is written. -/
def lispWriteToCell (junk : ℕ → UInt8) (h : Heap) (fuel : ℕ) (w bufferCell : Word) :
    Except Stop Heap := do
  let c ← cellAt h bufferCell
  if c.tag = tagStr ∨ c.tag = tagBytes then
    match c.ar with
    | .ptr (.bytes b) off =>
      if off = 0 then do
        let size ← intOf c.dr
        let out ← lispWrite junk h fuel w (h.bytes b) (toInt32 size.toNat)
        .ok (h.setBytes b out)
      else .error .fault
    | _ => .error .fault
  else .ok h

end Interim.Writer
