import Interim.Compiler.Segment

/-!
# The forms compiled in one frame

`compile_expr` compiles the operands of a form in the form's own frame, except
below `fn` (a frame of its own), `quote`, and the builtins that ignore their
operands. `Own c h e w` says that the form `w` is compiled in the frame `e` is
compiled in; it only looks at the cells of the expression and at what its
operator symbols are bound to.

The compiler allocates while it reads the expression. `Settled` is what keeps
these apart: the cells the compiler reads are closed under their pointers and
none of them is waiting in the allocator's supply.
-/

namespace Interim.Compiler

open Writer (cellAt car cdr cString elemAt)
open Heap

/-! ## Signatures (`init_compiler`, lines 1770–1911) -/

/-- The tags of the signature `init_compiler` gives a builtin; `none` is
    `NULL`: any number of arguments. -/
def Builtin.signatureTags : Builtin → Option (List ℕ)
  | .def_ | .let_ => some [tagSym, tagAny]
  | .new => some [tagStructDef]
  | .sget => some [tagStruct, tagSym]
  | .sput => some [tagStruct, tagSym, tagAny]
  | .add | .sub | .mul | .div | .mod | .bitand | .bitor | .bitxor | .shl | .shr | .lt | .gt | .eq =>
    some [tagInt, tagInt]
  | .bitnot | .alloc | .allocStr => some [tagInt]
  | .if_ => some [tagInt, tagLambda, tagLambda]
  | .print | .bytesToStr | .eval => some [tagAny]
  | .car | .cdr => some [tagCons]
  | .cons => some [tagAny, tagAny]
  | .concat => some [tagStr, tagStr]
  | .substr | .put8 | .put16 | .put32 => some [tagStr, tagInt, tagInt]
  | .get8 | .get16 | .get32 => some [tagStr, tagInt]
  | .size | .read | .open_ | .mmap => some [tagStr]
  | .write => some [tagAny, tagStr]
  | .mount => some [tagStr, tagCons]
  | .recv => some [tagStream]
  | .send => some [tagStream, tagAny]
  | _ => none

/-- A signature element: a prototype, or a name with the prototype in its
    `cdr`. -/
inductive PlainSig (h : Heap) : Word → ℕ → ℕ → Prop
  | bare {i : ℕ} (ht : (h.cells i).tag ≠ tagCons) : PlainSig h (.cell i) i (h.cells i).tag
  | named {i n j : ℕ} {text : List UInt8} (ht : (h.cells i).tag = tagCons)
      (ha : (h.cells i).ar = .cell n) (hn : printedName h (h.cells n).ar = .ok text)
      (hd : (h.cells i).dr = .cell j) : PlainSig h (.cell i) j (h.cells j).tag

/-- A signature list with the tags of its prototypes. -/
inductive SigList (h : Heap) : Word → List ℕ → Prop
  | nil {i : ℕ} (hi : h.cells i = ⟨.null, .null, tagCons⟩) : SigList h (.cell i) []
  | cons {i j t : ℕ} {ts : List ℕ} {w rest : Word} (hi : h.cells i = ⟨w, rest, tagCons⟩)
      (hw : PlainSig h w j t) (hr : SigList h rest ts) : SigList h (.cell i) (t :: ts)

/-- The signature in the `dr` of the cell of builtin `b`. -/
def BuiltinSig (h : Heap) (sig : Word) (b : Builtin) : Prop :=
  match b.signatureTags with
  | none => sig = .null
  | some ts => SigList h sig ts

/-- The environment is as `init_compiler` and `def` leave it: the prototypes
    have their tags, builtins have their signatures, and the signature of a
    lambda is one `BUILTIN_FN` made. -/
structure EnvOk (c : Ctx) (h : Heap) : Prop where
  any : (h.cells c.prototypeAny).tag = tagAny
  int : (h.cells c.prototypeInt).tag = tagInt
  void : (h.cells c.prototypeVoid).tag = tagVoid
  builtin : ∀ e i, c.entry e = .cell i → (h.cells i).tag = tagBuiltin →
    ∃ b, Builtin.ofWord (h.cells i).ar = some b ∧ BuiltinSig h (h.cells i).dr b
  lambda : ∀ e i, c.entry e = .cell i → (h.cells i).tag = tagLambda →
    ∃ sig ts, car h (h.cells i).ar = .ok sig ∧ SigList h sig ts ∧ ts.length ≤ maxArgs - 2 ∧
      ∀ t ∈ ts, t = tagAny ∨ t = tagStructDef

/-! ## Settled cells -/

/-- A word that is no cell pointer, or points into `L`. -/
def Within (L : Set ℕ) (w : Word) : Prop := ∀ i, w = .cell i → i ∈ L

/-- The cells of `L` are in use and only point to cells of `L`; `L` holds the
    environment and the prototypes. -/
structure Settled (c : Ctx) (L : Set ℕ) (h : Heap) : Prop where
  freeListOk : h.FreeListOk
  live : ∀ i ∈ L, i ∉ h.Supply
  ar : ∀ i ∈ L, Within L (h.cells i).ar
  dr : ∀ i ∈ L, Within L (h.cells i).dr
  bytes : ∀ i ∈ L, ∀ b off, (h.cells i).ar = .ptr (.bytes b) off → b < h.bytesUsed
  entry : ∀ e, Within L (c.entry e)
  any : c.prototypeAny ∈ L
  int : c.prototypeInt ∈ L
  void : c.prototypeVoid ∈ L

section Reading

variable {c : Ctx} {L : Set ℕ} {h₀ h : Heap}

theorem cellAt_ok {w : Word} {x : Cell} (hx : cellAt h w = .ok x) :
    ∃ i, w = .cell i ∧ h.cells i = x := by
  unfold cellAt at hx
  split at hx
  · rename_i i hi
    exact ⟨i, Word.asCell_eq_some hi, Except.ok.inj hx⟩
  · exact absurd hx (by simp)

theorem cellAt_cell (h : Heap) (i : ℕ) : cellAt h (.cell i) = .ok (h.cells i) := rfl

theorem Settled.cells_eq (hL : Settled c L h₀) (hk : KeepsAll h₀ h) {i : ℕ} (hi : i ∈ L) :
    h.cells i = h₀.cells i := hk.cell (hL.live i hi)

theorem Settled.cellAt_eq (hL : Settled c L h₀) (hk : KeepsAll h₀ h) {w : Word} (hw : Within L w) :
    cellAt h w = cellAt h₀ w := by
  unfold cellAt
  split
  · rename_i i hi
    rw [hL.cells_eq hk (hw i (Word.asCell_eq_some hi))]
  · rfl

theorem Settled.car_eq (hL : Settled c L h₀) (hk : KeepsAll h₀ h) {w : Word} (hw : Within L w) :
    car h w = car h₀ w := by
  unfold car
  split
  · rfl
  · rename_i i hi
    rw [hL.cells_eq hk (hw i (Word.asCell_eq_some hi))]
  · rfl

theorem Settled.cdr_eq (hL : Settled c L h₀) (hk : KeepsAll h₀ h) {w : Word} (hw : Within L w) :
    cdr h w = cdr h₀ w := by
  unfold cdr
  split
  · rfl
  · rename_i i hi
    rw [hL.cells_eq hk (hw i (Word.asCell_eq_some hi))]
  · rfl

theorem Settled.cString_eq (hL : Settled c L h₀) (hk : KeepsAll h₀ h) {i : ℕ} (hi : i ∈ L) :
    cString h (h₀.cells i).ar = cString h₀ (h₀.cells i).ar := by
  unfold cString
  split
  · rename_i b off hb
    rw [hk.keeps.bytes b (hL.bytes i hi b off hb) (Set.notMem_empty b)]
  · rfl

theorem within_null : Within L .null := by
  intro i hi
  exact absurd hi (by simp)

theorem within_cell {i : ℕ} (hi : i ∈ L) : Within L (.cell i) := by
  intro j hj
  obtain rfl : i = j := by simpa using hj
  exact hi

theorem Settled.within_car (hL : Settled c L h₀) {w a : Word} (hw : Within L w)
    (ha : car h₀ w = .ok a) : Within L a := by
  unfold car at ha
  split at ha
  · rw [← Except.ok.inj ha]
    exact within_null
  · rename_i i hi
    rw [← Except.ok.inj ha]
    exact hL.ar i (hw i (Word.asCell_eq_some hi))
  · exact absurd ha (by simp)

theorem Settled.within_cdr (hL : Settled c L h₀) {w a : Word} (hw : Within L w)
    (ha : cdr h₀ w = .ok a) : Within L a := by
  unfold cdr at ha
  split at ha
  · rw [← Except.ok.inj ha]
    exact within_null
  · rename_i i hi
    rw [← Except.ok.inj ha]
    exact hL.dr i (hw i (Word.asCell_eq_some hi))
  · exact absurd ha (by simp)

/-- The operator of a form resolves the same before and after allocations. -/
theorem Settled.findOperator_eq (hL : Settled c L h₀) (hk : KeepsAll h₀ h) (opName : List UInt8) :
    findOperator opName c h = findOperator opName c h₀ := by
  unfold findOperator
  cases he : c.lookup opName with
  | none => rfl
  | some e =>
    dsimp only
    rw [hL.cellAt_eq hk (hL.entry e)]
    split
    · rfl
    · cases hop : cellAt h₀ (c.entry e) with
      | error x => rfl
      | ok op =>
        obtain ⟨i, hi, rfl⟩ := cellAt_ok hop
        have hcar := hL.car_eq hk (hL.ar i (hL.entry e i hi))
        simp only [bind, Except.bind]
        rw [hcar]
        split
        · rfl
        · split
          · rfl
          · split
            · cases hn : c.lookup (Writer.ascii "new") with
              | none => rfl
              | some e' =>
                dsimp only
                rw [hL.cellAt_eq hk (hL.entry e')]
            · rfl

end Reading

/-! ## Own forms -/

/-- The form `e` is the cons cell `x` with operator `o`. -/
structure FormOp (c : Ctx) (h : Heap) (e : Word) (x : Cell) (o : Operator) : Prop where
  cell : cellAt h e = .ok x
  cons : x.tag = tagCons
  op : ∃ opsym opName, cellAt h x.ar = .ok opsym ∧ opsym.tag = tagSym ∧
    cString h opsym.ar = .ok opName ∧ findOperator opName c h = .ok (.ok o)

/-- `a` is element `k` of the list `args`. -/
inductive ListArg (h : Heap) : Word → ℕ → Word → Prop
  | head {args a : Word} (ha : car h args = .ok a) (hne : a ≠ .null) : ListArg h args 0 a
  | tail {args x rest a : Word} {k : ℕ} (hx : car h args = .ok x) (hne : x ≠ .null)
      (hr : cdr h args = .ok rest) (ha : ListArg h rest k a) : ListArg h args (k + 1) a

/-- `a` is element `k` of the list `args`, whatever comes before it. -/
inductive Nth (h : Heap) : Word → ℕ → Word → Prop
  | head {args a : Word} (ha : car h args = .ok a) (hne : a ≠ .null) : Nth h args 0 a
  | tail {args rest a : Word} {k : ℕ} (hr : cdr h args = .ok rest) (ha : Nth h rest k a) :
      Nth h args (k + 1) a

/-- The builtin an operator is. -/
def Operator.builtin (o : Operator) : Option Builtin :=
  if o.op.tag = tagBuiltin then Builtin.ofWord o.op.ar else none

/-- `a` is an operand that the form `x` with operator `o` compiles in its own
    frame. The loops of `do`, `list` and `struct` and the signatures stop at the
    first null element; `while` and an `if` without a signature take theirs by
    position. -/
def Operand (h : Heap) (x : Cell) (o : Operator) (a : Word) : Prop :=
  match o.builtin with
  | some .while_ => Nth h x.dr 0 a ∨ Nth h x.dr 1 a
  | some .do_ | some .list => ∃ k, ListArg h x.dr k a
  | some .struct => ∃ fields k, cdr h x.dr = .ok fields ∧ ListArg h fields (2 * k + 1) a
  | some .if_ =>
    if o.signature = .null then Nth h x.dr 1 a ∨ Nth h x.dr 2 a else ∃ k, ListArg h x.dr k a
  | _ => o.signature ≠ .null ∧ ∃ k, ListArg h x.dr k a

/-- `a` is an operand of the form `e` that is compiled in the frame of `e`. -/
def OwnSub (c : Ctx) (h : Heap) (e a : Word) : Prop :=
  ∃ x o, FormOp c h e x o ∧ Operand h x o a

/-- The form `w` is compiled in the frame of `e`. -/
def Own (c : Ctx) (h : Heap) : Word → Word → Prop := Relation.ReflTransGen (OwnSub c h)

/-- The form `e` is a call of the builtin `b`. -/
def IsBuiltin (c : Ctx) (h : Heap) (e : Word) (b : Builtin) : Prop :=
  ∃ x o, FormOp c h e x o ∧ o.builtin = some b

/-- The form `e` is a `let` of `name`. -/
def IsLetOf (c : Ctx) (h : Heap) (e : Word) (name : List UInt8) : Prop :=
  ∃ x o sym sc, FormOp c h e x o ∧ o.builtin = some .let_ ∧ car h x.dr = .ok sym ∧
    cellAt h sym = .ok sc ∧ cString h sc.ar = .ok name

/-- The mark the form `e` itself leaves in its code. -/
def Marked (c : Ctx) (h : Heap) (e : Word) : Mark → Prop
  | .struct => IsBuiltin c h e .struct
  | .structKey => False
  | .assign name => IsLetOf c h e name
  | .reenter f => (f = .platformEval ∧ IsBuiltin c h e .eval) ∨ (f = .fsMmap ∧ IsBuiltin c h e .mmap)

/-- A form compiled in the frame of `e` leaves the mark `m`. -/
def OwnMark (c : Ctx) (h : Heap) (e : Word) (m : Mark) : Prop := ∃ w, Own c h e w ∧ Marked c h w m

section OwnMark

variable {c : Ctx} {h : Heap} {e : Word} {x : Cell} {o : Operator}

theorem FormOp.unique {x' : Cell} {o' : Operator} (h₁ : FormOp c h e x o)
    (h₂ : FormOp c h e x' o') : x' = x ∧ o' = o := by
  have hx : x' = x := by
    have := h₁.cell.symm.trans h₂.cell
    exact (Except.ok.inj this).symm
  subst hx
  obtain ⟨s₁, n₁, hs₁, -, hn₁, ho₁⟩ := h₁.op
  obtain ⟨s₂, n₂, hs₂, -, hn₂, ho₂⟩ := h₂.op
  obtain rfl := Except.ok.inj (hs₁.symm.trans hs₂)
  obtain rfl := Except.ok.inj (hn₁.symm.trans hn₂)
  exact ⟨rfl, (Except.ok.inj (Except.ok.inj (ho₁.symm.trans ho₂))).symm⟩

theorem not_ownMark_of (hno : ∀ y o, ¬ FormOp c h e y o) (m : Mark) : ¬ OwnMark c h e m := by
  rintro ⟨w, hw, hm⟩
  rcases Relation.ReflTransGen.cases_head hw with rfl | ⟨a, ⟨y, o, hf, -⟩, -⟩
  · cases m with
    | struct => obtain ⟨y, o, hf, -⟩ := hm; exact hno y o hf
    | structKey => exact hm
    | assign name => obtain ⟨y, o, _, _, hf, -⟩ := hm; exact hno y o hf
    | reenter f =>
      rcases hm with ⟨-, y, o, hf, -⟩ | ⟨-, y, o, hf, -⟩
      · exact hno y o hf
      · exact hno y o hf
  · exact hno y o hf

/-- An expression that is no list leaves no marks. -/
theorem not_ownMark {x : Cell} (hx : cellAt h e = .ok x) (ht : x.tag ≠ tagCons) (m : Mark) :
    ¬ OwnMark c h e m := by
  apply not_ownMark_of
  intro y o hf
  obtain rfl := Except.ok.inj (hx.symm.trans hf.cell)
  exact ht hf.cons

/-- A word that is no cell pointer leaves no marks. -/
theorem not_ownMark_junk (he : e.asCell = none) (m : Mark) : ¬ OwnMark c h e m := by
  apply not_ownMark_of
  intro y o hf
  obtain ⟨i, rfl, -⟩ := cellAt_ok hf.cell
  exact absurd he (by simp)

/-- The marks of a form are its own and those of the operands it compiles. -/
theorem ownMark_iff (hf : FormOp c h e x o) (m : Mark) :
    OwnMark c h e m ↔ Marked c h e m ∨ ∃ a, Operand h x o a ∧ OwnMark c h a m := by
  constructor
  · rintro ⟨w, hw, hm⟩
    rcases Relation.ReflTransGen.cases_head hw with rfl | ⟨a, ⟨y, o', hf', ha⟩, haw⟩
    · exact Or.inl hm
    · obtain ⟨rfl, rfl⟩ := hf.unique hf'
      exact Or.inr ⟨a, ha, w, haw, hm⟩
  · rintro (hm | ⟨a, ha, w, haw, hm⟩)
    · exact ⟨e, .refl, hm⟩
    · exact ⟨w, .head ⟨x, o, hf, ha⟩ haw, hm⟩

/-- The mark a form itself leaves depends on its builtin. -/
theorem marked_iff (hf : FormOp c h e x o) (m : Mark) :
    Marked c h e m ↔ match m with
      | .struct => o.builtin = some .struct
      | .structKey => False
      | .assign name => o.builtin = some .let_ ∧ ∃ sym sc, car h x.dr = .ok sym ∧
          cellAt h sym = .ok sc ∧ cString h sc.ar = .ok name
      | .reenter f => (f = .platformEval ∧ o.builtin = some .eval) ∨
          (f = .fsMmap ∧ o.builtin = some .mmap) := by
  have hb : ∀ b, IsBuiltin c h e b ↔ o.builtin = some b := by
    intro b
    constructor
    · rintro ⟨y, o', hf', hb⟩
      obtain ⟨rfl, rfl⟩ := hf.unique hf'
      exact hb
    · exact fun hb => ⟨x, o, hf, hb⟩
  cases m with
  | struct => exact hb .struct
  | structKey => exact Iff.rfl
  | assign name =>
    constructor
    · rintro ⟨y, o', sym, sc, hf', hb', rest⟩
      obtain ⟨rfl, rfl⟩ := hf.unique hf'
      exact ⟨hb', sym, sc, rest⟩
    · rintro ⟨hb', sym, sc, rest⟩
      exact ⟨x, o, sym, sc, hf, hb', rest⟩
  | reenter f => exact or_congr (and_congr Iff.rfl (hb .eval)) (and_congr Iff.rfl (hb .mmap))

/-- A form that is no `struct`, `let`, `eval` or `mmap` has no mark of its own. -/
theorem not_marked (hf : FormOp c h e x o) (hb : o.builtin ≠ some .struct ∧
    o.builtin ≠ some .let_ ∧ o.builtin ≠ some .eval ∧ o.builtin ≠ some .mmap) (m : Mark) :
    ¬ Marked c h e m := by
  rw [marked_iff hf]
  cases m with
  | struct => exact hb.1
  | structKey => exact id
  | assign name => exact fun hm => hb.2.1 hm.1
  | reenter f =>
    rintro (⟨-, hm⟩ | ⟨-, hm⟩)
    · exact hb.2.2.1 hm
    · exact hb.2.2.2 hm

end OwnMark

/-! ## Marks of a segment -/

/-- The marks in `u` are those of `P`, but for the keys of structs. -/
structure Covers (u : List Mark) (P : Mark → Prop) : Prop where
  iff : ∀ m, m ≠ .structKey → (m ∈ u ↔ P m)
  key : .structKey ∈ u → .struct ∈ u

namespace Covers

variable {u u' : List Mark} {P P' Q : Mark → Prop}

theorem nil (hP : ∀ m, ¬ P m) : Covers [] P where
  iff m _ := by simp [hP m]
  key h := absurd h (by simp)

theorem append (h : Covers u P) (h' : Covers u' P') (hQ : ∀ m, Q m ↔ P m ∨ P' m) :
    Covers (u ++ u') Q where
  iff m hm := by rw [List.mem_append, h.iff m hm, h'.iff m hm, hQ m]
  key hk := by
    rcases List.mem_append.mp hk with hk | hk
    · exact List.mem_append.mpr (Or.inl (h.key hk))
    · exact List.mem_append.mpr (Or.inr (h'.key hk))

theorem congr (h : Covers u P) (hQ : ∀ m, Q m ↔ P m) : Covers u Q where
  iff m hm := by rw [h.iff m hm, hQ m]
  key := h.key

theorem single {m : Mark} (hm : m ≠ .structKey) (hP : ∀ m', P m' ↔ m' = m) : Covers [m] P where
  iff m' _ := by rw [List.mem_singleton, hP m']
  key h := absurd (List.mem_singleton.mp h).symm hm

end Covers

end Interim.Compiler
