import Interim.Reader.Layout

/-!
# The input loop of `main`

Model of the loop of `main` (`sledge/sledge.c`, lines 94–143) up to its call
of `read_string`. The loop collects lines in `in_buffer` until as many `)` as
`(` were seen, and then reads the buffer. It scans the lines by itself: a `;`
ends a line, and parentheses count wherever they stand.

The second half says what the loop is for, in terms of the reader: on which
lines of a text a datum ends (`Data`), and what it means that the loop agrees
(`Agrees`).
-/

namespace Interim.Sledge

open Reader

/-- `BUFSZ`. -/
abbrev bufsz : ℕ := 2048

/-- The bytes behind `in_buffer`. -/
abbrev inBufferSize : ℕ := 64 * bufsz

/-! ## The loop -/

/-- The loop of lines 108–115 over a line: the characters before `i`, and
    `parens`. -/
def recognizeParens : List UInt8 → ℤ → List UInt8 × ℤ
  | [], parens => ([], parens)
  | c :: cs, parens =>
    if c = semicolon then ([], parens)
    else
      let parens := if c = lparen then parens + 1 else if c = rparen then parens - 1 else parens
      let (kept, parens) := recognizeParens cs parens
      (c :: kept, parens)

/-- What the loop keeps from one line to the next: `buffer` are the bytes
    `in_buffer[0 .. in_offset)`. -/
structure LoopState where
  buffer : List UInt8
  parens : ℤ
  deriving DecidableEq, Repr

/-- One iteration on the line `fgets` has read (lines 97–131), which is not
    empty: the new state, and the text passed to `read_string` if it is called.
    A line that does not fit `in_buffer` is a fault. -/
def feedLine (s : LoopState) (line : List UInt8) : Except Stop (LoopState × Option (List UInt8)) :=
  let (kept, parens) := recognizeParens line s.parens
  if s.buffer.length + kept.length + 2 ≤ inBufferSize then
    if parens > 0 then .ok (⟨s.buffer ++ kept, parens⟩, none)
    else .ok (⟨[], parens⟩, if line.length > 1 then some (s.buffer ++ kept ++ [lf]) else none)
  else .error .fault

/-- The calls of `read_string` made line by line. -/
def feedLines : LoopState → List (List UInt8) → Except Stop (List (Option (List UInt8)))
  | _, [] => .ok []
  | s, line :: lines => do
    let (s, call) ← feedLine s line
    let calls ← feedLines s lines
    .ok (call :: calls)

/-- The variables before the loop. -/
def LoopState.start : LoopState := ⟨[], 0⟩

/-! ## Texts -/

/-- The lines of a text as `fgets` delivers them: each ends with its LF, which
    only the last may lack, and is shorter than `BUFSZ`. -/
def IsLines : List (List UInt8) → Prop
  | [] => True
  | line :: lines =>
    line ≠ [] ∧ line.length < bufsz ∧ 0 ∉ line ∧ lf ∉ line.dropLast ∧
      (lines ≠ [] → line.getLast? = some lf) ∧ IsLines lines

/-- Nothing was read yet but whitespace and comments. -/
def Blank (a : AbsState) : Prop :=
  a.outer = [] ∧ a.cur = [] ∧ (a.tok = .idle ∨ a.tok = .comment)

/-- One list was read, and nothing after it but whitespace and comments. -/
def Complete (a : AbsState) (d : Datum) : Prop :=
  a.outer = [] ∧ a.cur = [d] ∧ (a.tok = .idle ∨ a.tok = .comment) ∧ ∃ ds, d = .list ds

/-- What the end of a line is to the reader. -/
inductive Event
  /-- no datum has begun since the last one -/
  | between
  /-- a list is open -/
  | inside
  /-- the datum ends on this line -/
  | datum (d : Datum)

/-- The text is a sequence of lists, each starting on a new line. The reader
    is in state `a` before the first line, and starts anew after each datum;
    `hex` is the value its uninitialised `valuestate` then has. -/
inductive Data (hex : Bool) : AbsState → List (List UInt8) → List Event → Prop
  | nil : Data hex (.start hex) [] []
  | between {a : AbsState} {line : List UInt8} {lines : List (List UInt8)} {es : List Event} {n : ℕ}
      (hrun : Runs (.start hex) line n a) (hblank : Blank a)
      (hrest : Data hex (.start hex) lines es) :
      Data hex (.start hex) (line :: lines) (.between :: es)
  | inside {a b : AbsState} {line : List UInt8} {lines : List (List UInt8)} {es : List Event} {n : ℕ}
      (hrun : Runs a line n b) (hopen : b.outer ≠ []) (hrest : Data hex b lines es) :
      Data hex a (line :: lines) (.inside :: es)
  | datum {a b : AbsState} {line : List UInt8} {lines : List (List UInt8)} {es : List Event} {n : ℕ}
      {d : Datum} (hrun : Runs a line n b) (hdone : Complete b d)
      (hrest : Data hex (.start hex) lines es) :
      Data hex a (line :: lines) (.datum d :: es)

/-- `read_string` reads `text` as the datum `d` and nothing else. -/
def ReadsAs (hex : Bool) (text : List UInt8) (d : Datum) : Prop :=
  ∃ n a, Runs (.start hex) text n a ∧ a.outer = [] ∧ a.elements = [d] ∧ a.first = 0

/-- What the loop should do at the end of a line. -/
def Matches (hex : Bool) : Option (List UInt8) → Event → Prop
  | none, .between => True
  | none, .inside => True
  | some text, .datum d => ReadsAs hex text d
  | _, _ => False

/-- The loop calls `read_string` once for each datum, on the line where it
    ends, with a text that reads as it. -/
def Agrees (hex : Bool) (lines : List (List UInt8)) (es : List Event) : Prop :=
  ∃ calls, feedLines .start lines = .ok calls ∧ List.Forall₂ (Matches hex) calls es

end Interim.Sledge
