import Interim.Compiler.Forms
import Interim.Alloc.Runs

/-!
# `init_compiler`

Model of `init_compiler` (`sledge/compiler_new.c`, lines 1770–1911): the
prototype cells `compile_expr` consults and the global environment of builtins
with their signatures. C leaves the order in which the arguments of a call are
evaluated open; here they are evaluated from left to right, which only matters
for the indices of the cells.

The prototypes are C statics and no roots of the collector: they survive a
collection when a signature or an entry of the environment reaches them.
`prototype_void` is in neither.
-/

namespace Interim.Compiler

open Writer (ascii)
open Heap

/-! ## Model -/

/-- The prototype cells. -/
structure Prototypes where
  nil : ℕ
  consedTypeError : ℕ
  any : ℕ
  void : ℕ
  symbol : ℕ
  int : ℕ
  struct : ℕ
  structDef : ℕ
  stream : ℕ
  string : ℕ
  lambda : ℕ
  cons : ℕ
  deriving DecidableEq, Repr

/-- The prototypes with the tags `init_compiler` gives them. -/
def Prototypes.tags (p : Prototypes) : List (ℕ × ℕ) :=
  [(p.nil, tagCons), (p.consedTypeError, tagCons), (p.any, tagAny), (p.void, tagVoid),
    (p.symbol, tagSym), (p.int, tagInt), (p.struct, tagStruct), (p.structDef, tagStructDef),
    (p.stream, tagStream), (p.string, tagStr), (p.lambda, tagLambda), (p.cons, tagCons)]

/-- The prototype a signature uses for a tag. -/
def Prototypes.ofTag (p : Prototypes) (t : ℕ) : ℕ :=
  if t = tagSym then p.symbol
  else if t = tagStructDef then p.structDef
  else if t = tagStruct then p.struct
  else if t = tagInt then p.int
  else if t = tagLambda then p.lambda
  else if t = tagCons then p.cons
  else if t = tagStr then p.string
  else if t = tagStream then p.stream
  else p.any

/-- `alloc_int(0)` with its tag overwritten. -/
def allocTagged (h : Heap) (tag : ℕ) : Except Stop (ℕ × Heap) :=
  h.allocCell fun c => { c with ar := .int 0, tag := tag }

/-- `alloc_string_copy(str)`. -/
def allocStringCopy (h : Heap) (str : List UInt8) : Except Stop (ℕ × Heap) := do
  let (i, h) ← h.cellAlloc
  let (b, h) ← h.bytesAlloc (toInt32 (str.length + 1))
  .ok (i, (h.setBytes b (str ++ [0])).setCell i
    ⟨.ptr (.bytes b) 0, .ofNat (str.length + 1), tagStr⟩)

/-- `alloc_list(items, num)`. -/
def allocList (h : Heap) : List Word → Except Stop (ℕ × Heap)
  | [] => h.allocNil
  | w :: ws => do
    let (l, h) ← allocList h ws
    h.allocCons w (.cell l)

/-- The value of an enumerator of `builtin_t`. -/
def Builtin.code (b : Builtin) : ℕ := Builtin.all.idxOf b + 1

/-- `alloc_builtin(b, signature)`. -/
def allocBuiltin (h : Heap) (b : Builtin) (signature : Word) : Except Stop (ℕ × Heap) :=
  h.allocCell fun _ => ⟨.ofNat b.code, signature, tagBuiltin⟩

/-- `insert_symbol(symbol, cell, &global_env)` (lines 32–55) for a name shorter
    than `MAX_SYMBOL_SIZE`. -/
def insertSymbol (env : List EnvEntry) (name : List UInt8) (cell : Word) : List EnvEntry :=
  if env.any fun e => e.name = name then
    env.map fun e => if e.name = name then { e with cell := cell } else e
  else env ++ [⟨cell, name⟩]

/-- Lines 1779–1799: the prototypes. -/
def initPrototypes : Except Stop (Prototypes × Heap) := do
  let (nil, h) ← init.allocNil
  let (typeError, h) ← h.allocError errInvalidParamType
  let (consedTypeError, h) ← h.allocCons (.cell typeError) (.cell nil)
  let (any, h) ← allocTagged h tagAny
  let (void, h) ← allocTagged h tagVoid
  let (symbol, h) ← h.allocSym (ascii "symbol")
  let (int, h) ← allocTagged h tagInt
  let (struct, h) ← allocTagged h tagStruct
  let (structDef, h) ← allocTagged h tagStructDef
  let (stream, h) ← allocTagged h tagStream
  let (string, h) ← allocStringCopy h (ascii "string")
  let (lambda, h) ← allocTagged h tagLambda
  let (a, h) ← h.allocNil
  let (d, h) ← h.allocNil
  let (cons, h) ← h.allocCons (.cell a) (.cell d)
  .ok (⟨nil, consedTypeError, any, void, symbol, int, struct, structDef, stream, string, lambda,
    cons⟩, h)

/-- The names of the builtins, in the order they are inserted. -/
def builtinNames : List (String × Builtin) :=
  [("def", .def_), ("let", .let_), ("new", .new), ("sget", .sget), ("sput", .sput), ("+", .add),
    ("-", .sub), ("*", .mul), ("/", .div), ("%", .mod), ("bitand", .bitand), ("bitor", .bitor),
    ("bitnot", .bitnot), ("bitxor", .bitxor), ("shl", .shl), ("shr", .shr), ("lt", .lt),
    ("gt", .gt), ("eq", .eq), ("if", .if_), ("fn", .fn), ("while", .while_), ("do", .do_),
    ("print", .print), ("car", .car), ("cdr", .cdr), ("cons", .cons), ("list", .list),
    ("quote", .quote), ("struct", .struct), ("concat", .concat), ("substr", .substr),
    ("put8", .put8), ("get8", .get8), ("put16", .put16), ("get16", .get16), ("get32", .get32),
    ("put32", .put32), ("size", .size), ("alloc", .alloc), ("alloc-str", .allocStr),
    ("bytes->str", .bytesToStr), ("write", .write), ("eval", .eval), ("read", .read),
    ("mount", .mount), ("open", .open_), ("mmap", .mmap), ("recv", .recv), ("send", .send),
    ("gc", .gc), ("symbols", .symbols), ("debug", .debug)]

/-- The signature list of a builtin; `NULL` for any number of arguments. -/
def allocSignature (p : Prototypes) (h : Heap) (b : Builtin) : Except Stop (Word × Heap) :=
  match b.signatureTags with
  | none => .ok (.null, h)
  | some ts => do
    let (l, h) ← allocList h (ts.map fun t => .cell (p.ofTag t))
    .ok (.cell l, h)

/-- `insert_symbol(alloc_sym(name), alloc_builtin(b, signature), &global_env)`. -/
def insertBuiltin (p : Prototypes) (s : Heap × List EnvEntry) (nb : String × Builtin) :
    Except Stop (Heap × List EnvEntry) := do
  let (_, h) ← s.1.allocSym (ascii nb.1)
  let (sig, h) ← allocSignature p h nb.2
  let (i, h) ← allocBuiltin h nb.2 sig
  .ok (h, insertSymbol s.2 (ascii nb.1) (.cell i))

/-- `init_compiler()`: the prototypes, the heap and the global environment. -/
def initCompiler : Except Stop (Prototypes × Heap × List EnvEntry) := do
  let (p, h) ← initPrototypes
  let (_, h) ← h.allocSym (ascii "nil")
  let env := insertSymbol [] (ascii "nil") (.cell p.nil)
  let (_, h) ← h.allocSym (ascii "type_error")
  let env := insertSymbol env (ascii "type_error") (.cell p.consedTypeError)
  let (h, env) ← builtinNames.foldlM (insertBuiltin p) (h, env)
  .ok (p, h, env)

/-! ## The state after `init_compiler` -/

/-- No cell waiting in the supply has been written to. -/
def Blank (h : Heap) : Prop := ∀ i ∈ h.Supply, (h.cells i).tag = tagFreed

theorem Blank.cellAlloc {h h' : Heap} {i : ℕ} (hb : Blank h) (hok : h.FreeListOk)
    (ha : h.cellAlloc = .ok (i, h')) : Blank h' := by
  obtain ⟨hk, -, -⟩ := cellAlloc_keeps hok ha
  have hcells : h'.cells = h.cells := by
    unfold Heap.cellAlloc at ha
    split at ha
    · obtain ⟨-, rfl⟩ := Prod.mk.inj (Except.ok.inj ha); rfl
    · split at ha
      · exact absurd ha (by simp)
      · obtain ⟨-, rfl⟩ := Prod.mk.inj (Except.ok.inj ha); rfl
  intro j hj
  rw [hcells]
  exact hb j (hk.keeps.supply hj)

/-- Writing a cell that was handed out. -/
theorem Blank.setCell {h : Heap} {i : ℕ} (hb : Blank h) (hi : i ∉ h.Supply) (c : Cell) :
    Blank (h.setCell i c) := by
  intro j hj
  rw [setCell_cells, Function.update_of_ne (by rintro rfl; exact hi hj)]
  exact hb j hj

/-- A heap that allocations can go on from. -/
structure Ready (h : Heap) : Prop where
  freeListOk : h.FreeListOk
  blank : Blank h

namespace Ready

variable {h h' : Heap} {i : ℕ}

theorem init : Ready Heap.init := ⟨init_freeListOk, fun _ _ => rfl⟩

theorem cellAlloc (hr : Ready h) (ha : h.cellAlloc = .ok (i, h')) :
    Ready h' ∧ i ∉ h'.Supply := by
  obtain ⟨hk, -, hout⟩ := cellAlloc_keeps hr.freeListOk ha
  exact ⟨⟨hk.freeListOk, hr.blank.cellAlloc hr.freeListOk ha⟩, hout⟩

theorem bytesAlloc {n : ℤ} {b : ℕ} (hr : Ready h) (ha : h.bytesAlloc n = .ok (b, h')) :
    Ready h' ∧ h'.Supply = h.Supply := by
  unfold Heap.bytesAlloc at ha
  split at ha
  · exact absurd ha (by simp)
  · obtain ⟨rfl, rfl⟩ := Prod.mk.inj (Except.ok.inj ha)
    exact ⟨⟨⟨hr.freeListOk.nodup, hr.freeListOk.below⟩, hr.blank⟩, rfl⟩

theorem setCell (hr : Ready h) (hi : i ∉ h.Supply) (c : Cell) : Ready (h.setCell i c) :=
  ⟨⟨hr.freeListOk.nodup, hr.freeListOk.below⟩, hr.blank.setCell hi c⟩

theorem setBytes (hr : Ready h) (b : ℕ) (str : List UInt8) : Ready (h.setBytes b str) :=
  ⟨⟨hr.freeListOk.nodup, hr.freeListOk.below⟩, hr.blank⟩

theorem allocCell {f : Cell → Cell} (hr : Ready h) (ha : h.allocCell f = .ok (i, h')) :
    Ready h' := by
  obtain ⟨⟨j, h₁⟩, hc, ha⟩ := bind_ok.mp ha
  obtain ⟨rfl, rfl⟩ := Prod.mk.inj (Except.ok.inj ha)
  obtain ⟨hr₁, hout⟩ := hr.cellAlloc hc
  exact hr₁.setCell hout _

theorem allocCons {a d : Word} (hr : Ready h) (ha : h.allocCons a d = .ok (i, h')) : Ready h' :=
  hr.allocCell (f := fun _ => ⟨a, d, tagCons⟩) ha

theorem allocNil (hr : Ready h) (ha : h.allocNil = .ok (i, h')) : Ready h' :=
  hr.allocCons (a := .null) (d := .null) ha

theorem allocTagged {tag : ℕ} (hr : Ready h) (ha : allocTagged h tag = .ok (i, h')) : Ready h' :=
  hr.allocCell (f := fun c => { c with ar := .int 0, tag := tag }) ha

theorem allocSym {str : List UInt8} (hr : Ready h) (ha : h.allocSym str = .ok (i, h')) :
    Ready h' := by
  obtain ⟨⟨j, h₁⟩, hc, ha⟩ := bind_ok.mp ha
  obtain ⟨⟨b, h₂⟩, hb, ha⟩ := bind_ok.mp ha
  obtain ⟨hr₁, hout⟩ := hr.cellAlloc hc
  obtain ⟨hr₂, hsame⟩ := hr₁.bytesAlloc hb
  dsimp only at ha
  split at ha
  · obtain ⟨rfl, rfl⟩ := Prod.mk.inj (Except.ok.inj ha)
    exact (hr₂.setBytes b _).setCell (by rw [← hsame] at hout; exact hout) _
  · exact absurd ha (by simp)

theorem allocStringCopy {str : List UInt8} (hr : Ready h)
    (ha : allocStringCopy h str = .ok (i, h')) : Ready h' := by
  obtain ⟨⟨j, h₁⟩, hc, ha⟩ := bind_ok.mp ha
  obtain ⟨⟨b, h₂⟩, hb, ha⟩ := bind_ok.mp ha
  obtain ⟨hr₁, hout⟩ := hr.cellAlloc hc
  obtain ⟨hr₂, hsame⟩ := hr₁.bytesAlloc hb
  obtain ⟨rfl, rfl⟩ := Prod.mk.inj (Except.ok.inj ha)
  exact (hr₂.setBytes b _).setCell (by rw [← hsame] at hout; exact hout) _

theorem allocList {ws : List Word} (hr : Ready h) (ha : allocList h ws = .ok (i, h')) :
    Ready h' := by
  induction ws generalizing i h' with
  | nil => exact hr.allocNil ha
  | cons w ws ih =>
    obtain ⟨⟨l, h₁⟩, hl, ha⟩ := bind_ok.mp ha
    exact (ih hl).allocCons ha

theorem allocSignature {p : Prototypes} {b : Builtin} {sig : Word} (hr : Ready h)
    (ha : allocSignature p h b = .ok (sig, h')) : Ready h' := by
  unfold Compiler.allocSignature at ha
  split at ha
  · obtain ⟨-, rfl⟩ := Prod.mk.inj (Except.ok.inj ha)
    exact hr
  · obtain ⟨⟨l, h₁⟩, hl, ha⟩ := bind_ok.mp ha
    obtain ⟨-, rfl⟩ := Prod.mk.inj (Except.ok.inj ha)
    exact hr.allocList hl

theorem insertBuiltin {p : Prototypes} {env : List EnvEntry} {nb : String × Builtin}
    {s : Heap × List EnvEntry} (hr : Ready h) (ha : insertBuiltin p (h, env) nb = .ok s) :
    Ready s.1 := by
  obtain ⟨⟨k, h₁⟩, h1, ha⟩ := bind_ok.mp ha
  obtain ⟨⟨sig, h₂⟩, h2, ha⟩ := bind_ok.mp ha
  obtain ⟨⟨j, h₃⟩, h3, ha⟩ := bind_ok.mp ha
  obtain rfl := Except.ok.inj ha
  exact ((hr.allocSym h1).allocSignature h2).allocCell h3

theorem insertBuiltins {p : Prototypes} (nbs : List (String × Builtin)) {env : List EnvEntry}
    {s : Heap × List EnvEntry} (hr : Ready h) (ha : nbs.foldlM (Compiler.insertBuiltin p) (h, env) = .ok s) :
    Ready s.1 := by
  induction nbs generalizing h env with
  | nil =>
    obtain rfl := Except.ok.inj ha
    exact hr
  | cons nb nbs ih =>
    rw [List.foldlM_cons] at ha
    obtain ⟨⟨h₁, env₁⟩, h1, ha⟩ := bind_ok.mp ha
    exact ih (hr.insertBuiltin h1) ha

theorem initPrototypes {p : Prototypes} (ha : initPrototypes = .ok (p, h)) : Ready h := by
  obtain ⟨⟨_, h₁⟩, h1, ha⟩ := bind_ok.mp ha
  obtain ⟨⟨_, h₂⟩, h2, ha⟩ := bind_ok.mp ha
  obtain ⟨⟨_, h₃⟩, h3, ha⟩ := bind_ok.mp ha
  obtain ⟨⟨_, h₄⟩, h4, ha⟩ := bind_ok.mp ha
  obtain ⟨⟨_, h₅⟩, h5, ha⟩ := bind_ok.mp ha
  obtain ⟨⟨_, h₆⟩, h6, ha⟩ := bind_ok.mp ha
  obtain ⟨⟨_, h₇⟩, h7, ha⟩ := bind_ok.mp ha
  obtain ⟨⟨_, h₈⟩, h8, ha⟩ := bind_ok.mp ha
  obtain ⟨⟨_, h₉⟩, h9, ha⟩ := bind_ok.mp ha
  obtain ⟨⟨_, g₁⟩, g1, ha⟩ := bind_ok.mp ha
  obtain ⟨⟨_, g₂⟩, g2, ha⟩ := bind_ok.mp ha
  obtain ⟨⟨_, g₃⟩, g3, ha⟩ := bind_ok.mp ha
  obtain ⟨⟨_, g₄⟩, g4, ha⟩ := bind_ok.mp ha
  obtain ⟨⟨_, g₅⟩, g5, ha⟩ := bind_ok.mp ha
  obtain ⟨⟨_, g₆⟩, g6, ha⟩ := bind_ok.mp ha
  obtain ⟨-, rfl⟩ := Prod.mk.inj (Except.ok.inj ha)
  have hr₂ := (init.allocNil h1).allocCell
    (f := fun _ => ⟨.ofNat errInvalidParamType, .null, tagError⟩) h2
  have hr₅ := ((hr₂.allocCons h3).allocTagged h4).allocTagged h5
  have hr₉ := (((hr₅.allocSym h6).allocTagged h7).allocTagged h8).allocTagged h9
  have hs₃ := ((hr₉.allocTagged g1).allocStringCopy g2).allocTagged g3
  exact ((hs₃.allocNil g4).allocNil g5).allocCons g6

theorem initCompiler {p : Prototypes} {env : List EnvEntry}
    (ha : Compiler.initCompiler = .ok (p, h, env)) : Ready h := by
  obtain ⟨⟨p', h₁⟩, h1, ha⟩ := bind_ok.mp ha
  obtain ⟨⟨_, h₂⟩, h2, ha⟩ := bind_ok.mp ha
  obtain ⟨⟨_, h₃⟩, h3, ha⟩ := bind_ok.mp ha
  obtain ⟨s, h4, ha⟩ := bind_ok.mp ha
  obtain ⟨rfl, rfl, rfl⟩ : p' = p ∧ s.1 = h ∧ s.2 = env := by
    simpa only [Except.ok.injEq, Prod.mk.injEq] using ha
  exact insertBuiltins _ (((initPrototypes h1).allocSym h2).allocSym h3) h4

end Ready

/-! ## What reaches the prototypes -/

/-- A word that is no pointer into an array, a stream or a file system. -/
def BareWord : Word → Bool
  | .ptr (.elems _) _ => false
  | .ptr (.stream _) _ => false
  | .ptr (.filesystem _) _ => false
  | _ => true

/-- A cell whose outgoing pointers are in the cell itself. -/
def Bare (c : Cell) : Bool := BareWord c.ar && BareWord c.dr

theorem children_eq_of_bare {h h' : Heap} {i : ℕ} (hc : h'.cells i = h.cells i)
    (hb : Bare (h.cells i) = true) : h'.children i = h.children i := by
  unfold children elements
  rw [hc]
  generalize h.cells i = c at hb
  obtain ⟨har, hdr⟩ := Bool.and_eq_true_iff.mp hb
  obtain ⟨ar, dr, tag⟩ := c
  dsimp only at har hdr ⊢
  split_ifs
  · rfl
  · rfl
  · rfl
  · split
    · rfl
    · exact absurd har (by simp [BareWord])
    · rfl
  · split
    · rfl
    · exact absurd hdr (by simp [BareWord])
    · rfl
  · split
    · split_ifs
      · rfl
      · split
        · exact absurd har (by simp [BareWord])
        · rfl
    · rfl
  · rfl

/-- Whether `q` is found from `w` along fewer than `n` pointers. -/
def reachesWithin (h : Heap) (q : ℕ) : ℕ → Word → Bool
  | 0, _ => false
  | n + 1, w =>
    match w.asCell with
    | some (some i) =>
      i == q || match h.children i with
        | .ok ws => ws.any fun w => reachesWithin h q n w
        | .error _ => false
    | _ => false

theorem mem_reachWord_of_reachesWithin {h : Heap} {q : ℕ} (n : ℕ) :
    ∀ {w : Word}, reachesWithin h q n w = true → q ∈ h.reachWord w := by
  induction n with
  | zero =>
    intro w hw
    exact absurd hw (by simp [reachesWithin])
  | succ n ih =>
    intro w hw
    unfold reachesWithin at hw
    split at hw
    · rename_i i hi
      obtain rfl := Word.asCell_eq_some hi
      rw [Bool.or_eq_true, beq_iff_eq] at hw
      rcases hw with rfl | hw
      · exact ⟨i, rfl, Reach.mem_reach_self i⟩
      · split at hw
        · rename_i ws hws
          obtain ⟨w', hw', hq⟩ := List.any_eq_true.mp hw
          obtain ⟨j, rfl, hj⟩ := ih hq
          exact ⟨i, rfl, Relation.ReflTransGen.head ⟨ws, hws, hw'⟩ hj⟩
        · exact absurd hw (by simp)
    · exact absurd hw (by simp)

/-- The entries of the builtins. -/
def builtinEntries (h : Heap) (env : List EnvEntry) : List EnvEntry :=
  env.filter fun e =>
    match e.cell.asCell with
    | some (some i) => (h.cells i).tag == tagBuiltin
    | _ => false

/-- The prototypes that are in the signature of some builtin. -/
def Prototypes.inSignatures (p : Prototypes) : List ℕ :=
  [p.any, p.symbol, p.int, p.struct, p.structDef, p.stream, p.string, p.lambda, p.cons]

/-- The prototypes that are in no signature. -/
def Prototypes.outside (p : Prototypes) : List ℕ := [p.nil, p.consedTypeError, p.void]

/-- What evaluating `init_compiler` shows about the cells and entries it
    leaves. -/
def InitOk (p : Prototypes) (h : Heap) (env : List EnvEntry) : Bool :=
  h.freeList.isEmpty && h.freeListConsumed == 0 && decide (h.cellsUsed ≤ maxCells) &&
  env.all (fun e =>
    match e.cell.asCell with
    | some (some i) => decide (i < h.cellsUsed)
    | _ => true) &&
  (List.range h.cellsUsed).all (fun i =>
    (h.cells i).tag &&& tagMark == 0 && Bare (h.cells i) &&
    match h.children i with
    | .ok ws => ws.all fun w =>
      match w.asCell with
      | some (some j) => decide (j < h.cellsUsed)
      | _ => true
    | .error _ => true) &&
  p.tags.all (fun qt => decide (qt.1 < h.cellsUsed) && (h.cells qt.1).tag == qt.2 &&
    (p.inSignatures.contains qt.1 || p.outside.contains qt.1)) &&
  p.outside.all (fun q => decide (q < h.cellsUsed)) &&
  p.inSignatures.all (fun q => (builtinEntries h env).any fun e => reachesWithin h q 8 e.cell)

theorem initCompiler_check :
    (match initCompiler with
      | .ok (p, h, env) => InitOk p h env
      | .error _ => false) = true := by
  decide +kernel

/-- `InitOk` as a proposition. -/
structure InitFacts (p : Prototypes) (h : Heap) (env : List EnvEntry) : Prop where
  ready : Ready h
  freeList : h.freeList = []
  freeListConsumed : h.freeListConsumed = 0
  cellsUsed_le : h.cellsUsed ≤ maxCells
  entries : ∀ e ∈ env, ∀ i, e.cell = .cell i → i < h.cellsUsed
  unmarked : ∀ i < h.cellsUsed, h.Unmarked i
  bare : ∀ i < h.cellsUsed, Bare (h.cells i) = true
  edge_lt : ∀ i < h.cellsUsed, ∀ j, h.Edge i j → j < h.cellsUsed
  tags : ∀ qt ∈ p.tags, (h.cells qt.1).tag = qt.2 ∧ (qt.1 ∈ p.inSignatures ∨ qt.1 ∈ p.outside)
  outside_lt : ∀ q ∈ p.outside, q < h.cellsUsed
  inSignatures : ∀ q ∈ p.inSignatures, q ∈ h.reachWords ((builtinEntries h env).map EnvEntry.cell)

theorem initCompiler_facts {p : Prototypes} {h : Heap} {env : List EnvEntry}
    (hinit : initCompiler = .ok (p, h, env)) : InitFacts p h env := by
  have hok : InitOk p h env = true := by
    have hc := initCompiler_check
    rw [hinit] at hc
    exact hc
  simp only [InitOk, Bool.and_eq_true, List.isEmpty_iff, beq_iff_eq, decide_eq_true_eq,
    List.all_eq_true, List.any_eq_true, Bool.or_eq_true, List.contains_iff_mem,
    List.mem_range] at hok
  obtain ⟨⟨⟨⟨⟨⟨⟨hfl, hco⟩, hle⟩, hent⟩, hcells⟩, htags⟩, hout⟩, hsig⟩ := hok
  constructor
  · exact Ready.initCompiler hinit
  · exact hfl
  · exact hco
  · exact hle
  · intro e he i hi
    have := hent e he
    rw [hi, Word.asCell_cell] at this
    exact of_decide_eq_true this
  · intro i hi
    exact (hcells i hi).1.1
  · intro i hi
    exact (hcells i hi).1.2
  · rintro i hi j ⟨ws, hws, hj⟩
    have hall := (hcells i hi).2
    rw [hws] at hall
    have := List.all_eq_true.mp hall _ hj
    rw [Word.asCell_cell] at this
    exact of_decide_eq_true this
  · intro qt hqt
    exact ⟨(htags qt hqt).1.2, (htags qt hqt).2⟩
  · exact hout
  · intro q hq
    obtain ⟨e, he, hr⟩ := hsig q hq
    exact ⟨e.cell, List.mem_map_of_mem he, mem_reachWord_of_reachesWithin 8 hr⟩

/-! ## Runs after `init_compiler` -/

/-- The state `init_compiler` leaves. -/
def afterInit (h : Heap) (env : List EnvEntry) : RunState :=
  ⟨h, env, .null, {i | i < h.cellsUsed}, ∅⟩

/-- One step of a run of compilations, executions and collections from the
    state `σ₀`, as in `Heap.Step`. The fields of a cell are only assigned to by
    the code that allocated it, so an update leaves the cells of
    `init_compiler` alone unless they were handed out again, and it redefines
    no builtin. `C` is a condition on the collections: the state, and the words
    found on the stack. -/
inductive SessionStep (σ₀ : RunState) (C : RunState → List Word → Prop) :
    RunState → RunState → Prop
  | alloc {s : RunState} {i : ℕ} {h' : Heap} (ha : s.heap.cellAlloc = .ok (i, h')) :
      SessionStep σ₀ C s
        { s with heap := h', usable := insert i s.usable, handed := insert i s.handed }
  | update {s s' : RunState} (hu : Update s s')
      (hcells : ∀ i < σ₀.heap.cellsUsed, i ∉ s.handed → s'.heap.cells i = s.heap.cells i)
      (henv : ∀ e ∈ builtinEntries σ₀.heap σ₀.env, e ∈ s.env → e ∈ s'.env) :
      SessionStep σ₀ C s s'
  | collect {s : RunState} {n k : ℕ} {h' : Heap} (L : Layout) (stack : ℤ → Word)
      (stackEnd stackPointer : ℤ)
      (hstack : ∀ w ∈ stackRoots L stack stackEnd stackPointer, s.heap.ValidRef w)
      (hcond : C s (stackRoots L stack stackEnd stackPointer))
      (hc : s.heap.markAndSweep n s.env s.fsList (stackRoots L stack stackEnd stackPointer) =
        .ok (h', k)) :
      SessionStep σ₀ C s { s with heap := h', usable := s.reached, handed := ∅ }

theorem SessionStep.step {σ₀ : RunState} {C : RunState → List Word → Prop} {s s' : RunState}
    (hst : SessionStep σ₀ C s s') : Step s s' := by
  cases hst with
  | alloc ha => exact .alloc ha
  | update hu _ _ => exact .update hu
  | collect L stack stackEnd stackPointer hstack _ hc =>
    exact .collect L stack stackEnd stackPointer hstack hc

theorem InitFacts.inv {p : Prototypes} {h : Heap} {env : List EnvEntry}
    (hf : InitFacts p h env) : Inv (afterInit h env) where
  roots j hj := by
    rcases List.mem_append.mp hj with hj | hj
    · obtain ⟨e, he, hej⟩ := List.mem_map.mp hj
      exact hf.entries e he j hej
    · simp [afterInit] at hj
  closed i hi j hij := hf.edge_lt i hi j hij
  usable_lt i hi := hi
  handed := Set.empty_subset _
  nodup := by simp [afterInit, hf.freeList]
  free i hi := by simp [afterInit, hf.freeList] at hi
  unused i hi := hf.ready.blank i (Or.inr hi)
  unmarked i := by
    by_cases hi : i < h.cellsUsed
    · exact hf.unmarked i hi
    · have ht : (h.cells i).tag = tagFreed := hf.ready.blank i (Or.inr (not_lt.mp hi))
      change (h.cells i).tag &&& tagMark = 0
      rw [ht]
      decide
  edge_lt i j hij := by
    by_cases hi : i < h.cellsUsed
    · exact hf.edge_lt i hi j hij
    · exact absurd hij (Inv.not_edge_of_freed (hf.ready.blank i (Or.inr (not_lt.mp hi))))
  consumed_le := by simp [afterInit, hf.freeList, hf.freeListConsumed]
  length_le := by simp [afterInit, hf.freeList]
  cellsUsed_le := hf.cellsUsed_le

/-- What a run keeps of the cells `K` that `init_compiler` allocated. -/
structure Kept (σ₀ : RunState) (K : Set ℕ) (s : RunState) : Prop where
  inv : Inv s
  used : σ₀.heap.cellsUsed ≤ s.heap.cellsUsed
  cells : ∀ i ∈ K, s.heap.cells i = σ₀.heap.cells i
  free : ∀ i ∈ K, i ∉ s.heap.freeList
  handed : ∀ i ∈ K, i ∉ s.handed
  env : ∀ e ∈ builtinEntries σ₀.heap σ₀.env, e ∈ s.env

/-- The cells the builtins and their signatures are made of. -/
def builtinCells (σ : RunState) : Set ℕ :=
  σ.heap.reachWords ((builtinEntries σ.heap σ.env).map EnvEntry.cell)

section Run

variable {p : Prototypes} {h : Heap} {env : List EnvEntry} {K : Set ℕ} {s s' : RunState}
  {C : RunState → List Word → Prop}

theorem builtinCells_lt (hf : InitFacts p h env) {q : ℕ} (hq : q ∈ builtinCells (afterInit h env)) :
    q < h.cellsUsed := by
  obtain ⟨w, hw, hwq⟩ := hq
  obtain ⟨e, he, rfl⟩ := List.mem_map.mp hw
  have henv : e ∈ env := List.mem_of_mem_filter he
  refine hf.inv.usable_lt q (hf.inv.reached_subset ⟨e.cell, ?_, hwq⟩)
  exact List.mem_append_left _ (List.mem_map_of_mem henv)

/-- While the builtin entries and cells are kept, the roots reach them. -/
theorem Kept.builtinCells_subset (hf : InitFacts p h env) (hk : Kept (afterInit h env) K s)
    (hsub : builtinCells (afterInit h env) ⊆ K) : builtinCells (afterInit h env) ⊆ s.reached := by
  rintro q ⟨w, hw, i, rfl, hiq⟩
  obtain ⟨e, he, hei⟩ := List.mem_map.mp hw
  have hroot : Word.cell i ∈ s.roots := by
    rw [← hei]
    exact List.mem_append_left _ (List.mem_map_of_mem (hk.env e he))
  induction hiq with
  | refl => exact ⟨_, hroot, i, rfl, Reach.mem_reach_self i⟩
  | @tail b c hib hbc ih =>
    have hb : b ∈ builtinCells (afterInit h env) := ⟨_, hw, i, rfl, hib⟩
    obtain ⟨ws, hws, hc⟩ := hbc
    have hsame : s.heap.children b = h.children b :=
      children_eq_of_bare (hk.cells b (hsub hb)) (hf.bare b (builtinCells_lt hf hb))
    exact s.heap.reachWords_closed _ b ih c ⟨ws, hsame.trans hws, hc⟩

/-- One step keeps the builtin cells, and the cells that are live at every
    collection. -/
theorem Kept.step (hf : InitFacts p h env) (hk : Kept (afterInit h env) K s)
    (hlt : ∀ i ∈ K, i < h.cellsUsed)
    (hC : ∀ t ws, C t ws → ∀ i ∈ K, i ∈ builtinCells (afterInit h env) ∨
      i ∈ t.heap.live ws t.env t.fsList)
    (hsub : builtinCells (afterInit h env) ⊆ K)
    (hst : SessionStep (afterInit h env) C s s') : Kept (afterInit h env) K s' := by
  have hinv := hk.inv.step hst.step
  cases hst with
  | @alloc i h' ha =>
    obtain ⟨hcells, hfl, hused, hi⟩ : h'.cells = s.heap.cells ∧ h'.freeList = s.heap.freeList ∧
        s.heap.cellsUsed ≤ h'.cellsUsed ∧ (i ∈ s.heap.freeList ∨ s.heap.cellsUsed ≤ i) := by
      unfold cellAlloc at ha
      split at ha
      · obtain ⟨rfl, rfl⟩ := Prod.mk.inj (Except.ok.inj ha)
        exact ⟨rfl, rfl, le_rfl, Or.inl (List.get_mem _ _)⟩
      · split at ha
        · exact absurd ha (by simp)
        · obtain ⟨rfl, rfl⟩ := Prod.mk.inj (Except.ok.inj ha)
          exact ⟨rfl, rfl, Nat.le_succ _, Or.inr le_rfl⟩
    refine ⟨hinv, le_trans hk.used hused, ?_, ?_, ?_, hk.env⟩
    · intro j hj
      rw [← hk.cells j hj, hcells]
    · intro j hj
      rw [hfl]
      exact hk.free j hj
    · rintro j hj (rfl | hm)
      · rcases hi with hi | hi
        · exact hk.free j hj hi
        · exact absurd (hlt j hj) (not_lt.mpr (le_trans hk.used hi))
      · exact hk.handed j hj hm
  | update hu hcells henv =>
    refine ⟨hinv, ?_, ?_, ?_, ?_, fun e he => henv e he (hk.env e he)⟩
    · rw [hu.cellsUsed]
      exact hk.used
    · intro j hj
      rw [hcells j (hlt j hj) (hk.handed j hj)]
      exact hk.cells j hj
    · intro j hj
      rw [hu.freeList]
      exact hk.free j hj
    · intro j hj
      rw [hu.handed]
      exact hk.handed j hj
  | @collect n k h' L stack stackEnd stackPointer hstack hcond hc =>
    obtain ⟨rfl, -⟩ := markAndSweep_ok hk.inv.unmarked hc
    set ws := stackRoots L stack stackEnd stackPointer
    have hlive : ∀ i ∈ K, i ∈ s.heap.live ws s.env s.fsList := by
      intro i hi
      rcases hC s ws hcond i hi with hb | hl
      · obtain ⟨w, hw, hwi⟩ := hk.builtinCells_subset hf hsub hb
        refine ⟨w, ?_, hwi⟩
        rw [List.append_assoc]
        exact List.mem_append_right _ hw
      · exact hl
    have hnot : ∀ i ∈ K, i ∉ (s.heap.sweptTo (s.heap.live ws s.env s.fsList)
        s.heap.cellsUsed).freeList := by
      intro i hi hfree
      exact ((mem_sweptTo_freeList _ _ _ _).mp hfree).2.2 (hlive i hi)
    refine ⟨hinv, hk.used, ?_, hnot, fun _ _ => Set.notMem_empty _, hk.env⟩
    intro i hi
    rw [← hk.cells i hi]
    exact sweptTo_cells_of_kept (hk.inv.live_lt hstack) (hnot i hi)

/-- The cells `init_compiler` left are kept along a run from its state. -/
theorem Kept.run (hf : InitFacts p h env) (hlt : ∀ i ∈ K, i < h.cellsUsed)
    (hC : ∀ t ws, C t ws → ∀ i ∈ K, i ∈ builtinCells (afterInit h env) ∨
      i ∈ t.heap.live ws t.env t.fsList)
    (hsub : builtinCells (afterInit h env) ⊆ K)
    (hr : Relation.ReflTransGen (SessionStep (afterInit h env) C) (afterInit h env) s) :
    Kept (afterInit h env) K s := by
  induction hr with
  | refl =>
    refine ⟨hf.inv, le_rfl, fun _ _ => rfl, ?_, fun _ _ => Set.notMem_empty _, ?_⟩
    · intro i _
      change i ∉ h.freeList
      rw [hf.freeList]
      exact List.not_mem_nil
    · intro e he
      exact List.mem_of_mem_filter he
  | tail _ hst ih => exact ih.step hf hlt hC hsub hst

end Run

/-- The prototypes in signatures survive every run. -/
theorem inSignatures_survive {p : Prototypes} {h : Heap} {env : List EnvEntry}
    (hinit : initCompiler = .ok (p, h, env)) {s : RunState}
    (hr : Relation.ReflTransGen (SessionStep (afterInit h env) fun _ _ => True)
      (afterInit h env) s) :
    ∀ q ∈ p.inSignatures, s.heap.cells q = h.cells q ∧ q ∉ s.heap.freeList := by
  have hf := initCompiler_facts hinit
  have hk := Kept.run hf (fun i hi => builtinCells_lt hf hi) (fun _ _ _ _ hi => Or.inl hi)
    subset_rfl hr
  intro q hq
  have hb : q ∈ builtinCells (afterInit h env) := hf.inSignatures q hq
  exact ⟨hk.cells q hb, hk.free q hb⟩

/-- `init_compiler` returns. -/
theorem initCompiler_returns : ∃ p h env, initCompiler = .ok (p, h, env) := by
  have hc := initCompiler_check
  split at hc
  · rename_i p h env heq
    exact ⟨p, h, env, heq⟩
  · exact absurd hc (by simp)

/-- `(gc)` with nothing on the stack, evaluated right after `init_compiler`. -/
def firstGc : Except Stop (Prototypes × Heap × ℕ) := do
  let (p, h, env) ← initCompiler
  let (h', k) ← h.markAndSweep 12 env .null []
  .ok (p, h', k)

end Interim.Compiler
