import Interim.Machine.Expressions

/-!
# Heaps that hold expressions

A global environment with the integer builtins and one variable `x`, as
`init_compiler` enters them: symbols, builtin cells and their signatures.
`place` adds the cells of an expression behind them.

* `place_represents` — every expression over the builtins and `x` is in some
  heap.
-/

namespace Interim.Machine

open Compiler
open Backend (IntOp)
open Writer (ascii cString cellAt)

/-- The names in the environment. -/
def sourceName : ℕ → List UInt8
  | 0 => ascii "+"
  | 1 => ascii "-"
  | 2 => ascii "*"
  | 3 => ascii "/"
  | 4 => ascii "%"
  | 5 => ascii "bitand"
  | 6 => ascii "bitnot"
  | 7 => ascii "bitor"
  | 8 => ascii "bitxor"
  | 9 => ascii "shl"
  | 10 => ascii "shr"
  | 11 => ascii "lt"
  | 12 => ascii "gt"
  | 13 => ascii "eq"
  | _ => ascii "x"

/-- The entry of an integer builtin. -/
def opEntry : IntOp → ℕ
  | .add => 0
  | .sub => 1
  | .mul => 2
  | .div => 3
  | .mod => 4
  | .bitand => 5
  | .bitnot => 6
  | .bitor => 7
  | .bitxor => 8
  | .shl => 9
  | .shr => 10
  | .lt => 11
  | .gt => 12
  | .eq => 13

/-- The prototypes, the empty cell, the two signatures, the builtins, the cell
    of `x`, and the symbols. -/
def sourceCell (j : ℕ) : Cell :=
  match j with
  | 0 => ⟨.null, .null, tagInt⟩
  | 1 => ⟨.null, .null, tagAny⟩
  | 2 => ⟨.null, .null, tagCons⟩
  | 3 => ⟨.cell 0, .cell 2, tagCons⟩
  | 4 => ⟨.cell 0, .cell 3, tagCons⟩
  | j =>
    if j < 19 then ⟨.ofNat (j - 4), .cell (if j = 11 then 3 else 4), tagBuiltin⟩
    else if j = 19 then ⟨.null, .null, tagInt⟩
    else ⟨.ptr (.bytes (j - 20)) 0, .null, tagSym⟩

/-- The number of cells of the environment. -/
def sourceSize : ℕ := 35

/-- The environment. -/
def sourceCtx : Ctx where
  lookup name := (List.range 15).find? fun j => sourceName j = name
  entry j := .cell (5 + j)
  prototypeNil := 2
  prototypeAny := 1
  prototypeVoid := 1
  prototypeInt := 0
  consedTypeError := 2
  junk _ _ := ⟨.const, .null, none, 0, none, none⟩

/-- Heap `h` has the environment. -/
structure HasSource (h : Heap) : Prop where
  cells : ∀ j < sourceSize, h.cells j = sourceCell j
  bytes : ∀ j, h.bytes j = sourceName j ++ [0]

/-- The number of operands. -/
def opArity : IntOp → ℕ
  | .bitnot => 1
  | _ => 2

section HasSource

variable {h : Heap}

theorem HasSource.typed (hs : HasSource h) : Typed sourceCtx h where
  int := by rw [show sourceCtx.prototypeInt = 0 from rfl, hs.cells 0 (by decide)]; rfl
  any := by rw [show sourceCtx.prototypeAny = 1 from rfl, hs.cells 1 (by decide)]; rfl

theorem HasSource.nil (hs : HasSource h) : IsList h (.cell 2) [] := by
  refine ⟨2, rfl, ?_, ?_, ?_⟩
  all_goals
    rw [hs.cells 2 (by decide)]
    rfl

theorem IsList.cons {i : ℕ} {x w : Word} {xs : List Word} (hi : h.cells i = ⟨x, w, tagCons⟩)
    (hx : x ≠ .null) (hw : IsList h w xs) : IsList h (.cell i) (x :: xs) :=
  ⟨i, rfl, by rw [hi], by rw [hi], hx, by rw [hi]; exact hw⟩

theorem HasSource.signature (hs : HasSource h) (op : IntOp) :
    IsList h (sourceCell (5 + opEntry op)).dr (List.replicate (opArity op) (.cell 0)) := by
  have hone : IsList h (.cell 3) [.cell 0] :=
    IsList.cons (hs.cells 3 (by decide)) (cell_ne_null _) hs.nil
  have htwo : IsList h (.cell 4) [.cell 0, .cell 0] :=
    IsList.cons (hs.cells 4 (by decide)) (cell_ne_null _) hone
  cases op with
  | bitnot => exact hone
  | _ => exact htwo

theorem opEntry_lt (op : IntOp) : opEntry op < 14 := by
  cases op <;> decide

/-- The name of a builtin is found. -/
theorem sourceCtx_lookup (op : IntOp) :
    sourceCtx.lookup (sourceName (opEntry op)) = some (opEntry op) := by
  cases op <;> decide

theorem sourceCell_op (op : IntOp) : (sourceCell (5 + opEntry op)).tag = tagBuiltin ∧
    Builtin.ofWord (sourceCell (5 + opEntry op)).ar = some op.builtin := by
  cases op <;> decide

theorem sourceCell_sym {j : ℕ} : sourceCell (20 + j) = ⟨.ptr (.bytes j) 0, .null, tagSym⟩ := by
  unfold sourceCell
  split
  all_goals try omega
  rw [if_neg (by omega), if_neg (by omega)]
  congr 3
  omega

theorem HasSource.name (hs : HasSource h) {j : ℕ} (hj : j < 15) :
    cString h (.ptr (.bytes j) 0) = .ok (sourceName j) := by
  change Writer.cStringAt (h.bytes j) 0 = _
  rw [hs.bytes]
  interval_cases j <;> decide

theorem HasSource.namesOp (hs : HasSource h) (op : IntOp) :
    NamesOp sourceCtx h (.cell (20 + opEntry op)) op (opArity op) := by
  have hlt := opEntry_lt op
  have hsym : h.cells (20 + opEntry op) = ⟨.ptr (.bytes (opEntry op)) 0, .null, tagSym⟩ := by
    rw [hs.cells _ (by unfold sourceSize; omega), sourceCell_sym]
  have hcell : h.cells (5 + opEntry op) = sourceCell (5 + opEntry op) :=
    hs.cells _ (by unfold sourceSize; omega)
  refine ⟨h.cells (20 + opEntry op), sourceName (opEntry op), opEntry op, 5 + opEntry op, rfl, ?_, ?_,
    sourceCtx_lookup op, rfl, ?_, ?_, ?_⟩
  · rw [hsym]
  · rw [hsym]
    exact hs.name (by omega)
  · rw [hcell]
    exact (sourceCell_op op).1
  · rw [hcell]
    exact (sourceCell_op op).2
  · rw [hcell]
    exact hs.signature op

end HasSource

/-! ## Placing an expression -/

/-- The operators have their number of operands, and every symbol is `x`. -/
def Expr.Over (x : List UInt8) : Expr → Prop
  | .lit _ => True
  | .sym name => name = x
  | .bitnot e => e.Over x
  | .bin op e₁ e₂ => op ≠ .bitnot ∧ e₁.Over x ∧ e₂.Over x

/-- Place the cells of an expression from index `n` on: its address, the cells
    and the next free index. -/
def place : Expr → (ℕ → Cell) → ℕ → Word × (ℕ → Cell) × ℕ
  | .lit v, f, n => (.cell n, Function.update f n ⟨.int v, .null, tagInt⟩, n + 1)
  | .sym _, f, n => (.cell 34, f, n)
  | .bitnot e, f, n =>
    let p := place e f n
    (.cell p.2.2, Function.update (Function.update p.2.1 p.2.2
      ⟨.cell (20 + opEntry .bitnot), .cell (p.2.2 + 1), tagCons⟩) (p.2.2 + 1)
      ⟨p.1, .cell 2, tagCons⟩, p.2.2 + 2)
  | .bin op e₁ e₂, f, n =>
    let p := place e₁ f n
    let q := place e₂ p.2.1 p.2.2
    (.cell q.2.2, Function.update (Function.update (Function.update q.2.1 q.2.2
      ⟨.cell (20 + opEntry op), .cell (q.2.2 + 1), tagCons⟩) (q.2.2 + 1)
      ⟨p.1, .cell (q.2.2 + 2), tagCons⟩) (q.2.2 + 2) ⟨q.1, .cell 2, tagCons⟩, q.2.2 + 3)

/-- Placing an expression changes nothing below the free index. -/
theorem place_below (e : Expr) : ∀ (f : ℕ → Cell) (n : ℕ), n ≤ (place e f n).2.2 ∧
    ∀ j < n, (place e f n).2.1 j = f j := by
  induction e with
  | lit v =>
    intro f n
    exact ⟨Nat.le_succ n, fun j hj => Function.update_of_ne (by omega) _ _⟩
  | sym name => exact fun f n => ⟨le_refl n, fun j _ => rfl⟩
  | bitnot e ih =>
    intro f n
    obtain ⟨hle, hbelow⟩ := ih f n
    refine ⟨by simp only [place]; omega, fun j hj => ?_⟩
    simp only [place]
    rw [Function.update_of_ne (by omega), Function.update_of_ne (by omega), hbelow j hj]
  | bin op e₁ e₂ ih₁ ih₂ =>
    intro f n
    obtain ⟨hle₁, hbelow₁⟩ := ih₁ f n
    obtain ⟨hle₂, hbelow₂⟩ := ih₂ (place e₁ f n).2.1 (place e₁ f n).2.2
    refine ⟨by simp only [place]; omega, fun j hj => ?_⟩
    simp only [place]
    rw [Function.update_of_ne (by omega), Function.update_of_ne (by omega),
      Function.update_of_ne (by omega), hbelow₂ j (by omega), hbelow₁ j hj]

theorem Represents.ne_null {ctx : Ctx} {h : Heap} {w : Word} {e : Expr} (hw : Represents ctx h w e) :
    w ≠ .null := by
  cases e with
  | lit v | sym name =>
    obtain ⟨i, rfl, -⟩ := hw
    exact cell_ne_null i
  | bitnot e =>
    obtain ⟨i, _, _, rfl, -⟩ := hw
    exact cell_ne_null i
  | bin op e₁ e₂ =>
    obtain ⟨i, _, _, _, rfl, -⟩ := hw
    exact cell_ne_null i

/-- A heap with the environment and the placed cells holds the expression. -/
theorem place_represents (e : Expr) : ∀ {f : ℕ → Cell} {n : ℕ} {h : Heap}, e.Over (ascii "x") →
    HasSource h → (∀ j, sourceSize ≤ j → j < (place e f n).2.2 → h.cells j = (place e f n).2.1 j) →
    sourceSize ≤ n → Represents sourceCtx h (place e f n).1 e := by
  induction e with
  | lit v =>
    intro f n h _ _ hcells hn
    have hc := hcells n hn (Nat.lt_succ_self n)
    simp only [place, Function.update_self] at hc
    exact ⟨n, rfl, by rw [hc], by rw [hc]⟩
  | sym name =>
    intro f n h hover hs _ _
    have hsym : h.cells 34 = ⟨.ptr (.bytes 14) 0, .null, tagSym⟩ := hs.cells 34 (by decide)
    refine ⟨34, rfl, by rw [hsym], ?_⟩
    rw [hsym]
    have hname : name = sourceName 14 := hover
    rw [hname]
    exact hs.name (by decide)
  | bitnot e ih =>
    intro f n h hover hs hcells hn
    have hle := (place_below e f n).1
    have hp := fun hc => ih (f := f) (n := n) hover hs hc hn
    simp only [place] at hcells ⊢
    generalize place e f n = p at hcells hle hp ⊢
    obtain ⟨w, g, k⟩ := p
    dsimp only at hcells hle hp ⊢
    have hform : h.cells k = ⟨.cell (20 + opEntry .bitnot), .cell (k + 1), tagCons⟩ := by
      rw [hcells k (by omega) (by omega), Function.update_of_ne (by omega), Function.update_self]
    have harg : h.cells (k + 1) = ⟨w, .cell 2, tagCons⟩ := by
      rw [hcells (k + 1) (by omega) (by omega), Function.update_self]
    have hw := hp fun j hj hjk => by
      rw [hcells j hj (by omega), Function.update_of_ne (by omega), Function.update_of_ne (by omega)]
    have hne : w ≠ .null := hw.ne_null
    refine ⟨k, .cell (20 + opEntry .bitnot), w, rfl, by rw [hform], by rw [hform], hs.namesOp .bitnot,
      ?_, hw⟩
    rw [hform]
    exact IsList.cons harg hne hs.nil
  | bin op e₁ e₂ ih₁ ih₂ =>
    intro f n h ⟨hop, hover₁, hover₂⟩ hs hcells hn
    obtain ⟨hle₁, -⟩ := place_below e₁ f n
    have hp₁ := fun hc => ih₁ (f := f) (n := n) hover₁ hs hc hn
    simp only [place] at hcells ⊢
    generalize place e₁ f n = p at hcells hle₁ hp₁ ⊢
    obtain ⟨w₁, g₁, k₁⟩ := p
    dsimp only at hcells hle₁ hp₁ ⊢
    obtain ⟨hle₂, hbelow₂⟩ := place_below e₂ g₁ k₁
    have hp₂ := fun hc => ih₂ (f := g₁) (n := k₁) hover₂ hs hc (hn.trans hle₁)
    generalize place e₂ g₁ k₁ = q at hcells hle₂ hbelow₂ hp₂ ⊢
    obtain ⟨w₂, g₂, k₂⟩ := q
    dsimp only at hcells hle₂ hbelow₂ hp₂ ⊢
    have hform : h.cells k₂ = ⟨.cell (20 + opEntry op), .cell (k₂ + 1), tagCons⟩ := by
      rw [hcells k₂ (by omega) (by omega), Function.update_of_ne (by omega),
        Function.update_of_ne (by omega), Function.update_self]
    have harg₁ : h.cells (k₂ + 1) = ⟨w₁, .cell (k₂ + 2), tagCons⟩ := by
      rw [hcells (k₂ + 1) (by omega) (by omega), Function.update_of_ne (by omega),
        Function.update_self]
    have harg₂ : h.cells (k₂ + 2) = ⟨w₂, .cell 2, tagCons⟩ := by
      rw [hcells (k₂ + 2) (by omega) (by omega), Function.update_self]
    -- the cells of the operands are below those of the form
    have hlow : ∀ j, sourceSize ≤ j → j < k₂ → h.cells j = g₂ j := by
      intro j hj hjk
      rw [hcells j hj (by omega), Function.update_of_ne (by omega), Function.update_of_ne (by omega),
        Function.update_of_ne (by omega)]
    have hw₁ := hp₁ fun j hj hjk => by rw [hlow j hj (by omega), hbelow₂ j hjk]
    have hw₂ := hp₂ hlow
    have hname : NamesOp sourceCtx h (.cell (20 + opEntry op)) op 2 := by
      have hnames := hs.namesOp op
      cases op with
      | bitnot => exact absurd rfl hop
      | _ => exact hnames
    refine ⟨k₂, .cell (20 + opEntry op), w₁, w₂, rfl, by rw [hform], by rw [hform], hop, hname, ?_, hw₁,
      hw₂⟩
    rw [hform]
    exact IsList.cons harg₁ hw₁.ne_null (IsList.cons harg₂ hw₂.ne_null hs.nil)

/-! ## Compiler and machine states -/

/-- The environment with the cells `f` behind it. -/
def sourceHeap (f : ℕ → Cell) : Heap :=
  { Heap.init with
    cells := fun j => if j < sourceSize then sourceCell j else f j
    bytes := fun j => sourceName j ++ [0] }

/-- The compiler on global level. -/
def sourceState (f : ℕ → Cell) : CState where
  heap := sourceHeap f
  labelSkipCount := 0
  frame := { f := none, sp := 0, locals := 0, stackEnd := .null }
  calls := 0

/-- A machine on which `x` is cell `i`. -/
def sourceMachine (h : Heap) (i : ℕ) : State where
  regs _ := .undef
  sp := 0
  stack _ := .undef
  heap := h
  entry _ := .cell i
  sf := none
  zf := none

theorem sourceHeap_hasSource (f : ℕ → Cell) : HasSource (sourceHeap f) :=
  ⟨fun _ hj => if_pos hj, fun _ => rfl⟩

theorem Expr.Over.mentions {x name : List UInt8} : ∀ {e : Expr}, e.Over x → e.Mentions name → name = x
  | .lit _, _, h => h.elim
  | .sym _, ho, h => h.symm.trans ho
  | .bitnot e, ho, h => Expr.Over.mentions (e := e) ho h
  | .bin _ e₁ e₂, ho, h => h.elim (Expr.Over.mentions (e := e₁) ho.2.1)
      (Expr.Over.mentions (e := e₂) ho.2.2)

/-- An expression that is in the heap can be compiled there. -/
theorem sourceState_ready {f : ℕ → Cell} {w : Word} {e : Expr} (hover : e.Over (ascii "x"))
    (hw : Represents sourceCtx (sourceHeap f) w e) : Ready sourceCtx (sourceState f) w e where
  typed := (sourceHeap_hasSource f).typed
  represents := hw
  frameOk := fun f' hf' => absurd hf' (by simp [sourceState])
  height := le_refl 0
  bound := by
    intro name hn
    rw [hover.mentions hn]
    exact Or.inr (by decide)

/-- On the machine `x` has the value of its cell. -/
theorem sourceMachine_valued {f : ℕ → Cell} {e : Expr} {h : Heap} {i : ℕ} {v : BitVec 64}
    (hover : e.Over (ascii "x")) (hi : (h.cells i).ar = .int v) :
    Valued sourceCtx (sourceState f).frame (fun _ => v) e (sourceMachine h i) := by
  intro name hn
  rw [hover.mentions hn]
  exact ⟨14, i, by decide, rfl, hi⟩

/-- The cells of one expression behind the environment. -/
def sourceCells (e : Expr) : ℕ → Cell := (place e sourceCell sourceSize).2.1

/-- Its address. -/
def sourceWord (e : Expr) : Word := (place e sourceCell sourceSize).1

theorem source_ready {e : Expr} (hover : e.Over (ascii "x")) :
    Ready sourceCtx (sourceState (sourceCells e)) (sourceWord e) e := by
  refine sourceState_ready hover (place_represents e hover (sourceHeap_hasSource _) ?_ (le_refl _))
  intro j hj _
  exact if_neg (by omega)

end Interim.Machine
