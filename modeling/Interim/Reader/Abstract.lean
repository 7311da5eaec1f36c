import Interim.Reader.Model

/-!
# The reader on data

What `read_char` does, without the heap: the state is the token being read,
the completed elements of the list being read and of the lists around it. No
cell, buffer or stack slot appears. `Interim.Reader.Simulation` proves that
the C reader follows this machine step by step, so every question about what
a text reads as can be settled here.

The machine is a restatement of what the code does, oddities included: any
digit after a leading `-` starts a negative number, `x` inside a number
switches to hex, and `read_string` returns the element whose cell is in
`stack_root[0]`, which is the element after the last `(` at top level
(`first`).
-/

namespace Interim.Reader

/-- A datum as the reader builds it. -/
inductive Datum
  | int (v : BitVec 64)
  | sym (name : List UInt8)
  | str (s : List UInt8)
  | bytes (s : List UInt8)
  | list (ds : List Datum)

/-- The token being read. -/
inductive Token
  | idle
  | comment
  | num (v : BitVec 64)
  | numNeg (v : BitVec 64)
  | sym (name : List UInt8)
  | str (s : List UInt8)
  | bytes (nibbles : List ℕ)

/-- The state of the abstract reader: `cur` are the completed elements of the
    innermost open list, `outer` those of the lists around it, innermost
    first. -/
structure AbsState where
  tok : Token
  hex : Bool
  cur : List Datum
  outer : List (List Datum)
  first : ℕ

/-- Pairs of hex digits as bytes; an odd last digit is dropped. -/
def pack : List ℕ → List UInt8
  | a :: b :: ns => UInt8.ofNat (16 * a + b) :: pack ns
  | _ => []

/-- Append a completed element. -/
def AbsState.push (a : AbsState) (d : Datum) : AbsState :=
  { a with tok := .idle, cur := a.cur ++ [d] }

/-- Close the innermost list. -/
def AbsState.close (a : AbsState) : Option AbsState :=
  match a.outer with
  | [] => none
  | ds :: dss => some { a with tok := .idle, cur := ds ++ [.list a.cur], outer := dss }

/-- The value of a digit in a number. -/
def digitVal (c : UInt8) : BitVec 64 :=
  BitVec.ofNat 64 (if c.toNat ≥ 97 then 10 + (c.toNat - 97) else c.toNat - 48)

/-- A character that starts an element, or stands between two. -/
def absAtom (a : AbsState) (c : UInt8) : Option AbsState :=
  if isWs c then some a
  else if c = semicolon then some { a with tok := .comment }
  else if isDigit c then
    some { a with tok := .num (BitVec.ofNat 64 (c.toNat - 48)), hex := false }
  else if c = lparen then
    some { a with
      cur := [], outer := a.cur :: a.outer
      first := if a.outer.isEmpty then a.cur.length else a.first }
  else if c = rparen then a.close
  else if c = lbracket then some { a with tok := .bytes [] }
  else if c = dquote then some { a with tok := .str [] }
  else some { a with tok := .sym [c] }

/-- A character inside a number whose token is rebuilt by `tok` from its
    value, and whose next digit is added by `add`. -/
def absNum (a : AbsState) (tok : BitVec 64 → Token)
    (add : BitVec 64 → BitVec 64 → BitVec 64) (v : BitVec 64) (c : UInt8) : Option AbsState :=
  if isDigit c ∨ (a.hex ∧ isLowerHex c) then
    some { a with tok := tok (add (v * if a.hex then 16 else 10) (digitVal c)) }
  else if isWs c then some (a.push (.int v))
  else if c = rparen then (a.push (.int v)).close
  else if c = lowerX then some { a with hex := true }
  else none

/-- One character; `none` is a syntax error. -/
def absStep (a : AbsState) (c : UInt8) : Option AbsState :=
  match a.tok with
  | .idle => absAtom a c
  | .comment => some (if c = lf ∨ c = 0 then { a with tok := .idle } else a)
  | .num v => absNum a .num (· + ·) v c
  | .numNeg v => absNum a .numNeg (· - ·) v c
  | .sym name =>
    if c = rparen then (a.push (.sym name)).close
    else if isWs c then some (a.push (.sym name))
    else if isDigit c ∧ name.head? = some minus then
      some { a with tok := .numNeg (-BitVec.ofNat 64 (c.toNat - 48)) }
    else some { a with tok := .sym (name ++ [c]) }
  | .str s =>
    if c = dquote then some (a.push (.str s)) else some { a with tok := .str (s ++ [c]) }
  | .bytes ns =>
    if c = rbracket then some (a.push (.bytes (pack ns)))
    else if isDigit c ∨ isLowerHex c ∨ isUpperHex c then
      some { a with tok := .bytes (ns ++ [hexVal c]) }
    else if isWs c then some a
    else none

/-- The datum of a token that is complete at the end of the text. A string or
    byte literal still open has none. -/
def Token.datum : Token → Option Datum
  | .num v | .numNeg v => some (.int v)
  | .sym name => some (.sym name)
  | _ => none

/-- The sizes the C types can handle: at most 96 open lists, and token buffers
    whose reallocated size still fits the `int` parameter of `bytes_alloc`. -/
def AbsState.Fits (a : AbsState) : Prop :=
  a.outer.length ≤ stackSize ∧
  match a.tok with
  | .sym s | .str s => s.length ≤ 2 ^ 30 - 2
  | .bytes ns => ns.length ≤ 2 ^ 29 - 2
  | _ => True

/-- Cells allocated for a character where an element may start. -/
def atomCost (c : UInt8) : ℕ := if isWs c ∨ c = semicolon then 0 else 1

/-- Cells allocated for a character inside a number or symbol: the next list
    cell when it ends, and the next cell of the outer list when the list ends
    with it. -/
def wordCost (c : UInt8) : ℕ := if c = rparen then 2 else if isWs c then 1 else 0

/-- The number of cells the reader allocates for one character. -/
def stepCost (a : AbsState) (c : UInt8) : ℕ :=
  match a.tok with
  | .idle => atomCost c
  | .comment => 0
  | .num _ | .numNeg _ | .sym _ => wordCost c
  | .str _ => if c = dquote then 1 else 0
  | .bytes _ => if c = rbracket then 1 else 0

/-- The abstract reader takes `a` to `a'` on the given characters, with every
    state on the way within the sizes the code can handle; `n` cells are
    allocated for them. -/
inductive Runs : AbsState → List UInt8 → ℕ → AbsState → Prop
  | nil (a : AbsState) : Runs a [] 0 a
  | cons {a a' a'' : AbsState} {c : UInt8} {cs : List UInt8} {n : ℕ}
      (hstep : absStep a c = some a') (hfit : a'.Fits) (hrest : Runs a' cs n a'') :
      Runs a (c :: cs) (stepCost a c + n) a''

theorem Runs.append {a b c : AbsState} {s t : List UInt8} {m n : ℕ} (hs : Runs a s m b)
    (ht : Runs b t n c) : Runs a (s ++ t) (m + n) c := by
  induction hs with
  | nil => rw [Nat.zero_add]; exact ht
  | cons hstep hfit _ ih => rw [Nat.add_assoc]; exact Runs.cons hstep hfit (ih ht)

theorem Runs.single {a b : AbsState} {c : UInt8} (hstep : absStep a c = some b) (hfit : b.Fits) :
    Runs a [c] (stepCost a c) b :=
  Runs.cons hstep hfit (Runs.nil b)

/-- The state before the first character. -/
def AbsState.start (hex : Bool) : AbsState where
  tok := .idle
  hex := hex
  cur := []
  outer := []
  first := 0

end Interim.Reader
