import Interim.Writer.Roundtrip

/-!
# Printed widths

What `write_` needs of a cell to print it is a tree (`Tree`): which branch each
cell takes and the texts and sizes it reads. `Shows h t w` says that the cells
from `w` on are the tree `t`.

`width t inList s` counts the characters that a call with `bufsize = s` leaves
before the NUL, from the lengths in the tree alone. The limits of `snprintf`
are `size_t` values, so a tree at the outermost call with `bufsize` 0, or a
string with `bufsize` 1, is not cut at all, and a vector closes its parenthesis
behind the text of its elements whatever their widths are. `Tidy t s` says that
all temporary buffers of such a call are large enough, `Fits t n` that a buffer
of `n + 1` bytes is.
-/

namespace Interim.Writer

open Heap

/-! ## Trees -/

/-- A parameter of a lambda. -/
inductive Param
  | untyped (name : List UInt8)
  | typed (name type : List UInt8)
  deriving DecidableEq, Repr

/-- What is printed for a parameter. -/
def Param.text : Param → List UInt8
  | .untyped name => name
  | .typed name type => ascii "(" ++ (name ++ (ascii " " ++ (type ++ ascii ")")))

/-- `ai` after the parameters, started from `ai`. -/
def paramsEnd : List Param → ℕ → ℕ
  | [], ai => ai
  | p :: ps, ai => paramsEnd ps (ai + ((if ai ≠ 0 then 1 else 0) + p.text.length))

/-- A cell as `write_` sees it. -/
inductive Tree
  /-- a cell printed by one `snprintf` (and `NULL`) -/
  | plain (text : List UInt8)
  /-- a cons cell whose two fields are `NULL` -/
  | nil
  /-- any other cons cell -/
  | cons (a d : Tree)
  /-- a string and its `dr.size` -/
  | str (text : List UInt8) (size : BitVec 64)
  /-- a bytes cell -/
  | bytes (content : List UInt8)
  /-- a lambda -/
  | lambda (params : List Param) (body : Tree)
  /-- a vector, a struct or a struct definition: the text after the
      parenthesis and the elements that follow it -/
  | vec (head : List UInt8) (elements : List Tree)

/-- The tree of a cons cell: with `in_list` set its text goes without
    parentheses. -/
def Tree.isCons : Tree → Bool
  | .nil | .cons _ _ => true
  | _ => false

/-! ## Cells that are a tree -/

/-- Cells printed by one `snprintf`. -/
inductive Plain (h : Heap) : Word → List UInt8 → Prop
  | null : Plain h .null (ascii "null")
  | int {i : ℕ} {v : BitVec 64} (htag : (h.cells i).tag = tagInt) (har : (h.cells i).ar = .int v) :
    Plain h (.cell i) (intText v.toInt)
  | name {i : ℕ} {s : List UInt8} (htag : (h.cells i).tag = tagSym ∨ (h.cells i).tag = tagBignum)
    (har : cString h (h.cells i).ar = .ok s) : Plain h (.cell i) s
  | builtin {i : ℕ} {v : BitVec 64} (htag : (h.cells i).tag = tagBuiltin)
    (har : (h.cells i).ar = .int v) :
    Plain h (.cell i) (ascii "(op " ++ (intText v.toInt ++ ascii ")"))
  | error {i : ℕ} {v : BitVec 64} (htag : (h.cells i).tag = tagError)
    (har : (h.cells i).ar = .int v) : Plain h (.cell i) (errorText v)
  | stream {i : ℕ} {s : List UInt8} (htag : (h.cells i).tag = tagStream)
    (har : streamText h (h.cells i) = .ok s) : Plain h (.cell i) s
  | other {i : ℕ} (htag : (h.cells i).tag ∉ [tagInt, tagCons, tagSym, tagStr, tagBignum, tagLambda,
      tagBuiltin, tagError, tagBytes, tagVec, tagStruct, tagStructDef, tagStream]) :
    Plain h (.cell i) (ascii "<tag:" ++ (natText (h.cells i).tag ++ ascii ">"))

/-- The cell `car(car(args))` of a parameter. -/
def ShowsParam (h : Heap) : Param → Cell → Prop
  | .untyped name, c => c.tag ≠ tagCons ∧ cString h c.ar = .ok name
  | .typed name type, c =>
    c.tag = tagCons ∧ ∃ n w t, cellAt h c.ar = .ok n ∧ cString h n.ar = .ok name ∧
      car h c.dr = .ok w ∧ cellAt h w = .ok t ∧ cString h t.ar = .ok type

/-- A parameter list: it ends at `NULL`, or where `car(car(args))` is `NULL`. -/
def ShowsParams (h : Heap) : List Param → Word → Prop
  | [], args => ∃ a, car h args = .ok a ∧ car h a = .ok .null
  | p :: ps, args =>
    ∃ i j, args = .cell i ∧ car h (h.cells i).ar = .ok (.cell j) ∧ ShowsParam h p (h.cells j) ∧
      ShowsParams h ps (h.cells i).dr

mutual

/-- The cells from `w` on are the tree. Sizes are as the allocators, whose
    `bytes_alloc` takes an `int`, can make them, and the `int` that counts the
    characters of a parameter list does not overflow. -/
def Shows (h : Heap) : Tree → Word → Prop
  | .plain text, w => Plain h w text
  | .nil, w => ∃ i, w = .cell i ∧ h.cells i = ⟨.null, .null, tagCons⟩
  | .cons a d, w =>
    ∃ i, w = .cell i ∧ (h.cells i).tag = tagCons ∧
      ¬ ((h.cells i).ar = .null ∧ (h.cells i).dr = .null) ∧
      Shows h a (h.cells i).ar ∧ Shows h d (h.cells i).dr
  | .str text size, w =>
    ∃ i, w = .cell i ∧ (h.cells i).tag = tagStr ∧ cString h (h.cells i).ar = .ok text ∧
      (h.cells i).dr = .int size ∧ size.toNat < 2 ^ 31
  | .bytes content, w =>
    ∃ i b off rest, w = .cell i ∧ (h.cells i).tag = tagBytes ∧
      (h.cells i).ar = .ptr (.bytes b) off ∧ 0 ≤ off ∧
      (h.bytes b).drop off.toNat = content ++ rest ∧ content.length < 2 ^ 31 ∧
      (h.cells i).dr = .ofNat content.length
  | .lambda params body, w =>
    ∃ i args code, w = .cell i ∧ (h.cells i).tag = tagLambda ∧
      car h (h.cells i).ar = .ok args ∧ ShowsParams h params args ∧ paramsEnd params 0 < 2 ^ 31 ∧
      cdr h (h.cells i).ar = .ok code ∧ Shows h body code
  | .vec head elements, w =>
    ∃ i size first, w = .cell i ∧
      ((h.cells i).tag = tagVec ∨ (h.cells i).tag = tagStruct ∨ (h.cells i).tag = tagStructDef) ∧
      (h.cells i).dr = .int size ∧ vecHead h (h.cells i) = .ok (head, first) ∧
      elements.length = (toInt32 size.toNat - first).toNat ∧
      ShowsAll h elements (h.cells i).ar first

/-- `vec[i]`, `vec[i + 1]`, … are the trees. -/
def ShowsAll (h : Heap) : List Tree → Word → ℕ → Prop
  | [], _, _ => True
  | t :: ts, vec, i => ∃ w, elemAt h vec i = .ok w ∧ Shows h t w ∧ ShowsAll h ts vec (i + 1)

end

/-! ## Widths -/

/-- How many of `len` characters `snprintf(buffer, bufsize, ...)` keeps after
    `bufsize--`. -/
def cut (s len : ℕ) : ℕ := min len (toSizeT ((s : ℤ) - 1) - 1)

mutual

/-- The number of characters before the NUL that `write_` leaves in a buffer
    when it is told that the buffer has `s` bytes. -/
def width : Tree → Bool → ℕ → ℕ
  | .plain text, _, s => cut s text.length
  | .nil, inList, s => if inList then 0 else cut s 3
  | .cons a d, inList, s =>
    let l := width a false tmpBufSize
    let r := width d d.isCons tmpBufSize
    cut s (if d.isCons then if inList then if r ≠ 0 then l + (1 + r) else l else l + r + 3
      else l + r + 5)
  | .str text size, _, s =>
    min (text.length + 2) (min (toSizeT ((s : ℤ) - 2)) (size + 3).toNat - 1)
  | .bytes content, _, s => if 6 < s then 2 * min content.length ((s - 4) / 2) + 2 else 0
  | .lambda params body, _, s =>
    cut s (min (paramsEnd params 0) (tmpBufSize - 1) + width body false tmpBufSize + 6)
  | .vec head elements, _, s => if 13 < s then widthAll elements (s - 1) (1 + head.length) + 1 else 0

/-- `pos` after the loop over the elements, started from `pos`, for the
    decremented `bufsize`. -/
def widthAll : List Tree → ℕ → ℕ → ℕ
  | [], _, pos => pos
  | t :: ts, bufsize, pos =>
    if pos + 1 < bufsize then
      widthAll ts bufsize (pos + width t false (bufsize - pos) + 1)
    else pos

end

/-! ## Temporary buffers -/

/-- Every parameter starts inside `tmp_args` or right at its end, when the
    first one starts at `ai`. -/
def TidyParams : List Param → ℕ → Prop
  | [], _ => True
  | p :: ps, ai => ai ≤ tmpBufSize ∧ TidyParams ps (ai + ((if ai ≠ 0 then 1 else 0) + p.text.length))

mutual

/-- All temporary buffers of a call with `bufsize = s` hold what is put into
    them: `tmpl` and `tmpr` of every cons cell printed, `tmp_args` and
    `tmp_body` of every lambda printed. -/
def Tidy : Tree → ℕ → Prop
  | .plain _, _ | .nil, _ | .str _ _, _ | .bytes _, _ => True
  | .cons a d, _ =>
    (Tidy a tmpBufSize ∧ width a false tmpBufSize < tmpBufSize) ∧
      Tidy d tmpBufSize ∧ width d d.isCons tmpBufSize < tmpBufSize
  | .lambda params body, _ =>
    TidyParams params 0 ∧ Tidy body tmpBufSize ∧ width body false tmpBufSize < tmpBufSize * 2
  | .vec head elements, s => 13 < s → TidyAll elements (s - 1) (1 + head.length)

/-- The same for the elements of a vector that are printed. -/
def TidyAll : List Tree → ℕ → ℕ → Prop
  | [], _, _ => True
  | t :: ts, bufsize, pos =>
    pos + 1 < bufsize →
      Tidy t (bufsize - pos) ∧ TidyAll ts bufsize (pos + width t false (bufsize - pos) + 1)

end

/-- The text of the outermost call and its NUL end inside `n + 1` bytes when
    `write_` is told that there are `n`. -/
def Fits : Tree → ℕ → Prop
  | .plain text, n => n = 0 → text = []
  | .nil, n | .cons _ _, n | .lambda _ _, n => n ≠ 0
  | .str _ _, n => 2 ≤ n
  | .bytes _, _ => True
  | .vec head elements, n => 13 < n → widthAll elements (n - 1) (1 + head.length) < n

/-! ## Nested calls -/

mutual

/-- How deep `write_` calls itself on a tree, loops included. -/
def depth : Tree → ℕ
  | .plain _ | .nil | .str _ _ | .bytes _ => 1
  | .cons a d => 1 + depth a + depth d
  | .lambda params body => 2 + params.length + depth body
  | .vec _ elements => 2 + depthAll elements

/-- The same for the elements of a vector. -/
def depthAll : List Tree → ℕ
  | [] => 0
  | t :: ts => 1 + depth t + depthAll ts

end

end Interim.Writer
