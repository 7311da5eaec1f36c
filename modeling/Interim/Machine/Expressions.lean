import Interim.Compiler.Emission
import Interim.Machine.Buffers
import Interim.Machine.Operation

/-!
# Integer expressions on the machine

Nested integer expressions: `compile_expr` compiles a nested form with the
signature of the argument it stands in, here `prototype_int`, so its value
stays raw; it is pushed and addressed as a stack slot. The result of the
outermost form is raw or boxed by the return type.

* `Expr.eval` — the 64-bit value the code computes, by `opVal`.
* `form_code` — a form compiles, and its code computes `eval`, keeps the stack
  above `rsp`, the parameter registers and the heap.
* `form_gives` — what compiling and running a form gives, for either return
  type.
-/

namespace Interim.Machine

open Compiler Compiler.CompM
open Backend (Operand x64 IntOp emits_loadInt_bind)
open Writer (cellAt car cdr cString)

/-! ## Expressions -/

/-- Integer expressions: literals, symbols and applications of the integer
    builtins. -/
inductive Expr
  | lit (v : BitVec 64)
  | sym (name : List UInt8)
  | bitnot (x : Expr)
  | bin (op : IntOp) (x y : Expr)
  deriving DecidableEq, Repr

namespace Expr

/-- The nesting depth of forms. -/
def depth : Expr → ℕ
  | lit _ | sym _ => 0
  | bitnot x => x.depth + 1
  | bin _ x y => max x.depth y.depth + 1

/-- The value the code computes, the symbols having the values `ρ`. -/
def eval (ρ : List UInt8 → BitVec 64) : Expr → Option (BitVec 64)
  | lit v => some v
  | sym name => some (ρ name)
  | bitnot x => (x.eval ρ).bind fun a => opVal a 0 .bitnot
  | bin op x y => (x.eval ρ).bind fun a => (y.eval ρ).bind fun b => opVal a b op

/-- Whether a symbol occurs. -/
def Mentions (name : List UInt8) : Expr → Prop
  | lit _ => False
  | sym name' => name' = name
  | bitnot x => x.Mentions name
  | bin _ x y => x.Mentions name ∨ y.Mentions name

end Expr

/-- A list of cells, ended by the empty cell. -/
def IsList (h : Heap) : Word → List Word → Prop
  | w, [] => ∃ i : ℕ, w = .cell i ∧ (h.cells i).tag = tagCons ∧ (h.cells i).ar = .null ∧
      (h.cells i).dr = .null
  | w, x :: xs => ∃ i : ℕ, w = .cell i ∧ (h.cells i).tag = tagCons ∧ (h.cells i).ar = x ∧
      x ≠ .null ∧ IsList h (h.cells i).dr xs

theorem IsList.ne_null {h : Heap} {w : Word} {xs : List Word} (hl : IsList h w xs) : w ≠ .null := by
  cases xs with
  | nil =>
    obtain ⟨i, rfl, -⟩ := hl
    exact cell_ne_null i
  | cons x xs =>
    obtain ⟨i, rfl, -⟩ := hl
    exact cell_ne_null i

/-- Word `w` is a symbol bound to the integer builtin `op`, whose signature asks
    for `k` integers. -/
structure NamesOp (ctx : Ctx) (h : Heap) (w : Word) (op : IntOp) (k : ℕ) : Prop where
  symbol : ∃ c name e o, cellAt h w = .ok c ∧ c.tag = tagSym ∧ cString h c.ar = .ok name ∧
    ctx.lookup name = some e ∧ ctx.entry e = .cell o ∧ (h.cells o).tag = tagBuiltin ∧
    Builtin.ofWord (h.cells o).ar = some op.builtin ∧
    IsList h (h.cells o).dr (List.replicate k (.cell ctx.prototypeInt))

/-- The cells `w` points to are the expression. -/
def Represents (ctx : Ctx) (h : Heap) : Word → Expr → Prop
  | w, .lit v => ∃ i : ℕ, w = .cell i ∧ (h.cells i).tag = tagInt ∧ (h.cells i).ar = .int v
  | w, .sym name => ∃ i : ℕ, w = .cell i ∧ (h.cells i).tag = tagSym ∧
      cString h (h.cells i).ar = .ok name
  | w, .bitnot x => ∃ (i : ℕ) (o wx : Word), w = .cell i ∧ (h.cells i).tag = tagCons ∧
      (h.cells i).ar = o ∧ NamesOp ctx h o .bitnot 1 ∧ IsList h (h.cells i).dr [wx] ∧
      Represents ctx h wx x
  | w, .bin op x y => ∃ (i : ℕ) (o wx wy : Word), w = .cell i ∧ (h.cells i).tag = tagCons ∧
      (h.cells i).ar = o ∧ op ≠ .bitnot ∧ NamesOp ctx h o op 2 ∧
      IsList h (h.cells i).dr [wx, wy] ∧ Represents ctx h wx x ∧ Represents ctx h wy y

/-- The prototypes have their tags. -/
structure Typed (ctx : Ctx) (h : Heap) : Prop where
  int : (h.cells ctx.prototypeInt).tag = tagInt
  any : (h.cells ctx.prototypeAny).tag = tagAny

/-! ## States between operands -/

/-- The stack grew by `k` words; what was there, the parameter registers, the
    heap and the environment are as before. -/
structure Grown (k : ℕ) (m m' : State) : Prop where
  regs : ∀ j < argSpillover, m'.regs (lbdreg + j) = m.regs (lbdreg + j)
  sp : m'.sp = m.sp - k
  stack : ∀ i, m.sp ≤ i → m'.stack i = m.stack i
  heap : m'.heap = m.heap
  entry : m'.entry = m.entry

/-- What `clean_return` emits for `k` pushed operands. -/
def cleanCode (k : ℕ) : List Jit := if k = 0 then [] else [.incStack (k * ptrsz)]

/-- An argument on the stack is in a slot that is in use at height `sp`. -/
def InUse (sp : ℤ) (d : Arg) : Prop := d.type = .stack ∨ d.type = .stackInt → d.slot ≤ sp

section Grown

variable {m m' m'' : State} {k k' : ℕ} {sp : ℤ} {d : Arg} {x : Operand} {w : Word} {v : BitVec 64}

theorem Grown.refl : Grown 0 m m :=
  ⟨fun _ _ => rfl, by simp, fun _ _ => rfl, rfl, rfl⟩

theorem Grown.trans (h : Grown k m m') (h' : Grown k' m' m'') : Grown (k + k') m m'' where
  regs j hj := (h'.regs j hj).trans (h.regs j hj)
  sp := by
    rw [h'.sp, h.sp]
    omega
  stack i hi := by
    have hsp := h.sp
    rw [h'.stack i (by omega), h.stack i hi]
  heap := h'.heap.trans h.heap
  entry := h'.entry.trans h.entry

theorem Kept.grown (h : Kept m m') : Grown 0 m m' where
  regs := h.same.regs
  sp := by simp [h.same.sp]
  stack _ _ := by rw [h.same.stack]
  heap := h.heap
  entry := h.same.entry

theorem Grown.slotWord {slot : ℤ} (h : Grown k m m') (hle : slot ≤ sp) :
    m'.slotWord (sp + k) slot = m.slotWord sp slot := by
  unfold State.slotWord
  have hidx : m'.sp + (sp + k - slot) = m.sp + (sp - slot) := by
    rw [h.sp]
    ring
  rw [hidx]
  exact h.stack _ (by omega)

theorem Supplies.grown (h : Grown k m m') (hin : InUse sp d) (hw : Supplies m sp d w) :
    Supplies m' (sp + k) d w := by
  unfold Supplies at hw ⊢
  cases ht : d.type with
  | const =>
    rw [ht] at hw
    exact hw
  | env =>
    rw [ht] at hw
    obtain ⟨e, he, hw⟩ := hw
    exact ⟨e, he, by rw [h.entry]; exact hw⟩
  | reg =>
    rw [ht] at hw
    obtain ⟨j, hj, hslot, hw⟩ := hw
    exact ⟨j, hj, hslot, (h.regs j hj).trans hw⟩
  | stack =>
    rw [ht] at hw
    exact (h.slotWord (hin (Or.inl ht))).trans hw
  | lambda | regInt | stackInt =>
    rw [ht] at hw
    exact hw.elim

theorem SuppliesInt.grown (h : Grown k m m') (hin : InUse sp x.arg) (hv : SuppliesInt m sp x v) :
    SuppliesInt m' (sp + k) x v := by
  unfold SuppliesInt at hv ⊢
  cases ht : x.arg.type with
  | const =>
    rw [ht] at hv
    exact hv
  | stackInt =>
    rw [ht] at hv
    exact (h.slotWord (hin (Or.inr ht))).trans hv
  | env | lambda | reg | regInt | stack =>
    rw [ht] at hv
    obtain ⟨i, hw, hv⟩ := hv
    exact ⟨i, hw.grown h hin, by rw [h.heap]; exact hv⟩

/-- `push` keeps a raw result in the new slot. -/
theorem run_push (sp : ℤ) (hr : m.regs r0 = .int v) :
    ∃ m', run [.push r0 r0] m = some m' ∧ Grown 1 m m' ∧ m'.slotWord (sp + 1) (sp + 1) = .int v := by
  refine ⟨push m r0, rfl, ⟨fun _ _ => rfl, rfl, fun i hi => ?_, rfl, rfl⟩, ?_⟩
  · exact Function.update_of_ne (by omega) _ _
  · simp [State.slotWord, push, hr]

/-- `clean_return` moves the stack pointer and nothing else. -/
theorem run_cleanCode (k : ℕ) (m : State) :
    ∃ m', run (cleanCode k) m = some m' ∧ m'.regs = m.regs ∧ m'.sp = m.sp + k ∧
      m'.stack = m.stack ∧ m'.heap = m.heap ∧ m'.entry = m.entry := by
  unfold cleanCode
  by_cases hk : k = 0
  · subst hk
    exact ⟨m, rfl, rfl, by simp, rfl, rfl, rfl⟩
  · have hoff : (k * ptrsz : ℤ) ≠ 0 := by
      show (k * 8 : ℤ) ≠ 0
      omega
    have hmod : (k * ptrsz : ℤ) % 8 = 0 := Int.mul_emod_left _ _
    have hdiv : (k * ptrsz : ℤ) / 8 = k := Int.mul_ediv_cancel _ (by decide)
    refine ⟨{ m with sp := m.sp + k, sf := none, zf := none }, ?_, rfl, rfl, rfl, rfl, rfl⟩
    rw [if_neg hk, run_cons (by simp), step, if_neg hoff, if_pos hmod, hdiv]
    rfl

/-- `clean_return` drops the pushed operands. -/
theorem run_clean {m₀ : State} (hg : Grown k m₀ m) :
    ∃ m', run (cleanCode k) m = some m' ∧ Grown 0 m₀ m' ∧ m'.regs r0 = m.regs r0 := by
  obtain ⟨m', hrun, hregs, hsp, hstack, hheap, hentry⟩ := run_cleanCode k m
  refine ⟨m', hrun, ⟨?_, ?_, ?_, hheap.trans hg.heap, hentry.trans hg.entry⟩, by rw [hregs]⟩
  · rw [hregs]
    exact hg.regs
  · rw [hsp, hg.sp]
    simp
  · rw [hstack]
    exact hg.stack

end Grown

/-! ## Symbols -/

/-- The frame entry a symbol resolves to. -/
def frameEntry (fr : Frame) (name : List UInt8) : Option Arg :=
  (getSymFrameIdx name fr.f false).bind fun i => fr.f.map fun f => f i

/-- Symbol `name` stands for the integer `v` when the code runs: a local or a
    parameter, or a global. -/
def SymbolIs (ctx : Ctx) (fr : Frame) (m : State) (name : List UInt8) (v : BitVec 64) : Prop :=
  match frameEntry fr name with
  | some d => SuppliesInt m fr.sp ⟨d, .null⟩ v
  | none => ∃ e i : ℕ, ctx.lookup name = some e ∧ m.entry e = .cell i ∧
      (m.heap.cells i).ar = .int v

/-- The symbols of an expression have the values `ρ`. -/
def Valued (ctx : Ctx) (fr : Frame) (ρ : List UInt8 → BitVec 64) (e : Expr) (m : State) : Prop :=
  ∀ name, e.Mentions name → SymbolIs ctx fr m name (ρ name)

/-- The symbols of an expression are bound. -/
def Bound (ctx : Ctx) (fr : Frame) (e : Expr) : Prop :=
  ∀ name, e.Mentions name → frameEntry fr name ≠ none ∨ ctx.lookup name ≠ none

section Symbols

variable {ctx : Ctx} {fr : Frame} {m m' : State} {k : ℕ} {name : List UInt8} {d : Arg}
  {v : BitVec 64}

theorem frameEntry_some (h : frameEntry fr name = some d) :
    ∃ f i, fr.f = some f ∧ i < maxFrame ∧ (f i).name = some name ∧ d = f i := by
  unfold frameEntry at h
  obtain ⟨i, hi, hd⟩ := Option.bind_eq_some_iff.mp h
  obtain ⟨f, hf, rfl⟩ := Option.map_eq_some_iff.mp hd
  rw [hf] at hi
  obtain ⟨hlt, hn⟩ := getSymFrameIdx_some hi
  exact ⟨f, i, hf, hlt, hn, rfl⟩

/-- A parameter or a local is not a literal, and its slot is in use. -/
theorem frameEntry_inUse (hfr : fr.Ok) (hsp : 0 ≤ fr.sp) (h : frameEntry fr name = some d) :
    d.type ≠ .const ∧ InUse fr.sp d := by
  obtain ⟨f, i, hf, hlt, hn, rfl⟩ := frameEntry_some h
  obtain ⟨numLets, numParams, hok⟩ := hfr f hf
  rcases Nat.lt_or_ge i maxArgs with ha | ha
  · rcases Nat.lt_or_ge i numParams with hp | hp
    · rcases Nat.lt_or_ge i argSpillover with hs | hs
      · have ht := (hok.reg i hp hs).1
        refine ⟨by rw [ht]; decide, fun hst => ?_⟩
        rw [ht] at hst
        exact absurd hst (by decide)
      · obtain ⟨ht, hslot⟩ := hok.stack i hp hs
        refine ⟨by rw [ht]; decide, fun _ => ?_⟩
        rw [hslot]
        omega
    · rw [(hok.unused i hp ha).2] at hn
      exact absurd hn (by simp)
  · rcases Nat.lt_or_ge i (maxArgs + fr.locals) with hl | hl
    · obtain ⟨ht, hslot⟩ := hok.local_ (i - maxArgs) (by omega)
      rw [Nat.add_sub_cancel' ha] at ht hslot
      refine ⟨?_, fun _ => ?_⟩
      · rcases ht with ht | ht
        · rw [ht]; decide
        · rw [ht]; decide
      · rw [hslot]
        omega
    · rw [(hok.rest i hl).2] at hn
      exact absurd hn (by simp)

theorem SymbolIs.grown (hg : Grown k m m') (hfr : fr.Ok) (hsp : 0 ≤ fr.sp)
    (h : SymbolIs ctx fr m name v) : SymbolIs ctx { fr with sp := fr.sp + k } m' name v := by
  have hentry : frameEntry { fr with sp := fr.sp + k } name = frameEntry fr name := rfl
  unfold SymbolIs at h ⊢
  rw [hentry]
  cases hd : frameEntry fr name with
  | some d =>
    rw [hd] at h
    exact h.grown hg (frameEntry_inUse hfr hsp hd).2
  | none =>
    rw [hd] at h
    obtain ⟨e, i, hl, he, hv⟩ := h
    exact ⟨e, i, hl, by rw [hg.entry]; exact he, by rw [hg.heap]; exact hv⟩

theorem Valued.grown {ρ : List UInt8 → BitVec 64} {e : Expr} (hg : Grown k m m') (hfr : fr.Ok)
    (hsp : 0 ≤ fr.sp) (h : Valued ctx fr ρ e m) :
    Valued ctx { fr with sp := fr.sp + k } ρ e m' :=
  fun name hn => (h name hn).grown hg hfr hsp

end Symbols

/-! ## One argument -/

/-- Code that computes an expression in the frame `fr`, leaving `k` words on
    the stack; `val` says where the value is. It stops where `eval` has no
    value. -/
structure Computes (ctx : Ctx) (fr : Frame) (e : Expr) (k : ℕ)
    (val : State → BitVec 64 → Prop) (code : List Jit) : Prop where
  noJumps : NoJumps code
  value : ∀ {ρ m u}, Valued ctx fr ρ e m → e.eval ρ = some u →
    ∃ m', run code m = some m' ∧ Grown k m m' ∧ val m' u
  stops : ∀ {ρ m}, Valued ctx fr ρ e m → e.eval ρ = none → run code m = none

/-- The compiler state after `calls` calls in all, with `k` more words on the
    stack. -/
def grownState (s : CState) (k calls : ℕ) : CState :=
  { s with calls := calls, frame := { s.frame with sp := s.frame.sp + k } }

@[simp] theorem grownState_heap (s : CState) (k calls : ℕ) : (grownState s k calls).heap = s.heap :=
  rfl

/-- What compiling the expression behind `w` takes for granted: its symbols are
    bound, and the frame is one of the compiler's. -/
structure Ready (ctx : Ctx) (s : CState) (w : Word) (e : Expr) : Prop where
  typed : Typed ctx s.heap
  represents : Represents ctx s.heap w e
  frameOk : s.frame.Ok
  height : 0 ≤ s.frame.sp
  bound : Bound ctx s.frame e

theorem Ready.grown {ctx : Ctx} {s : CState} {w : Word} {e : Expr} (h : Ready ctx s w e)
    (k calls : ℕ) : Ready ctx (grownState s k calls) w e where
  typed := h.typed
  represents := h.represents
  frameOk := h.frameOk
  height := by
    have hsp := h.height
    show 0 ≤ s.frame.sp + k
    omega
  bound := h.bound

/-- A form compiles, and its code leaves the raw value in `R0`. -/
def FormCompiles (ctx : Ctx) (s : CState) (n : ℕ) (w : Word) (e : Expr) : Prop :=
  ∃ code calls, Emits (compileExpr n w (.cell ctx.prototypeInt)) ctx s (.cell ctx.prototypeInt) code
    (grownState s 0 calls) ∧ Computes ctx s.frame e 0 (fun m u => m.regs r0 = .int u) code

/-- Expression `e` was prepared as the argument `x.arg`. -/
structure Prepared (ctx : Ctx) (s : CState) (e : Expr) (k : ℕ) (x : Operand) (code : List Jit) :
    Prop where
  computes : Computes ctx s.frame e k (fun m u => SuppliesInt m (s.frame.sp + k) x u) code
  read : x.Read s.heap
  inUse : InUse (s.frame.sp + k) x.arg

section Argument

variable {ctx : Ctx} {s : CState} {n : ℕ} {w args sigs : Word} {e : Expr} {a : Args}
  {opName argName : List UInt8}

theorem cellAt_cell (h : Heap) (i : ℕ) : cellAt h (.cell i) = .ok (h.cells i) := rfl

theorem car_cell (h : Heap) (i : ℕ) : car h (.cell i) = .ok (h.cells i).ar := rfl

theorem cdr_cell (h : Heap) (i : ℕ) : cdr h (.cell i) = .ok (h.cells i).dr := rfl

/-- A literal is passed as the cell itself. -/
theorem givenArg_lit {v : BitVec 64} (hty : Typed ctx s.heap) (hw : Represents ctx s.heap w (.lit v)) :
    ∃ k x code calls, Emits (givenArg (compileExpr n) opName argName w (.cell ctx.prototypeInt) false a)
      ctx s { a.set x.arg with pushed := a.pushed + k } code (grownState s k calls) ∧
      Prepared ctx s (.lit v) k x code := by
  obtain ⟨i, rfl, htag, har⟩ := hw
  have hcons : (s.heap.cells i).tag ≠ tagCons := by rw [htag]; decide
  have hsym : ¬ ((s.heap.cells i).tag = tagSym ∧ tagInt ≠ tagSym) := by rw [htag]; decide
  have hcompat : compatibleType (s.heap.cells i).tag tagInt = true ∨ tagInt = tagAny := by
    rw [htag]
    decide
  refine ⟨0, ⟨{ a.defs a.argi with cell := .cell i, slot := a.argi - 1, type := .const }, .int v⟩,
    [], s.calls, ?_, ⟨⟨?_, ?_, ?_⟩, ?_, ?_⟩⟩
  · unfold givenArg
    refine emits_fetch_bind.mpr ⟨_, cellAt_cell _ _, ?_⟩
    rw [if_neg (by decide)]
    refine emits_tagOf_bind.mpr ⟨_, cellAt_cell _ _, ?_⟩
    rw [hty.int, if_neg (by decide), if_neg hcons, if_neg hsym, if_pos hcompat]
    refine emits_pure.mpr ⟨rfl, rfl, ?_⟩
    simp [grownState]
  · exact fun j hj => absurd hj (by simp)
  · intro ρ m u _ hu
    obtain rfl := Option.some.inj hu
    exact ⟨m, rfl, .refl, rfl⟩
  · intro ρ m _ hu
    exact absurd hu (by simp [Expr.eval])
  · exact fun _ => ⟨_, cellAt_cell _ _, har⟩
  · intro ht
    exact absurd ht (by simp)

/-- A symbol is passed as what it is bound to. -/
theorem givenArg_sym {name : List UInt8} (hty : Typed ctx s.heap)
    (hw : Represents ctx s.heap w (.sym name)) (hfr : s.frame.Ok) (hsp : 0 ≤ s.frame.sp)
    (hb : Bound ctx s.frame (.sym name)) :
    ∃ k x code calls, Emits (givenArg (compileExpr n) opName argName w (.cell ctx.prototypeInt) false a)
      ctx s { a.set x.arg with pushed := a.pushed + k } code (grownState s k calls) ∧
      Prepared ctx s (.sym name) k x code := by
  obtain ⟨i, rfl, htag, hname⟩ := hw
  have hcons : (s.heap.cells i).tag ≠ tagCons := by rw [htag]; decide
  have hsym : (s.heap.cells i).tag = tagSym ∧ tagInt ≠ tagSym := ⟨htag, by decide⟩
  -- whatever the symbol is bound to, no code is emitted for it
  have hgiven : ∀ d : Arg, Emits (symbolArg (s.heap.cells i) argName opName a) ctx s (a.set d) [] s →
      Emits (givenArg (compileExpr n) opName argName (.cell i) (.cell ctx.prototypeInt) false a)
        ctx s { a.set d with pushed := a.pushed + 0 } [] (grownState s 0 s.calls) := by
    intro d hd
    unfold givenArg
    refine emits_fetch_bind.mpr ⟨_, cellAt_cell _ _, ?_⟩
    rw [if_neg (by decide)]
    refine emits_tagOf_bind.mpr ⟨_, cellAt_cell _ _, ?_⟩
    rw [hty.int, if_neg (by decide), if_neg hcons, if_pos hsym]
    have hstate : grownState s 0 s.calls = s := by simp [grownState]
    rw [hstate]
    exact hd
  have hprep : ∀ d : Arg, d.type ≠ .const → InUse s.frame.sp d →
      (∀ {m v}, SymbolIs ctx s.frame m name v → SuppliesInt m s.frame.sp ⟨d, .null⟩ v) →
      Prepared ctx s (.sym name) 0 ⟨d, .null⟩ [] := by
    intro d hconst hin hval
    refine ⟨⟨fun j hj => absurd hj (by simp), ?_, ?_⟩, fun ht => absurd ht hconst, by simpa using hin⟩
    · intro ρ m u hρ hu
      obtain rfl := Option.some.inj hu
      refine ⟨m, rfl, .refl, ?_⟩
      simpa using hval (hρ name rfl)
    · intro ρ m _ hu
      exact absurd hu (by simp [Expr.eval])
  cases hd : frameEntry s.frame name with
  | some d =>
    obtain ⟨hconst, hin⟩ := frameEntry_inUse hfr hsp hd
    refine ⟨0, ⟨d, .null⟩, [], s.calls, hgiven d ?_, hprep d hconst hin ?_⟩
    · unfold symbolArg
      refine emits_fetch_bind.mpr ⟨name, hname, emits_frame_bind.mpr ?_⟩
      unfold frameEntry at hd
      rw [hd]
      exact emits_pure.mpr ⟨rfl, rfl, rfl⟩
    · intro m v h
      unfold SymbolIs at h
      rwa [hd] at h
  | none =>
    obtain ⟨e, he⟩ : ∃ e, ctx.lookup name = some e := by
      rcases hb name rfl with h | h
      · exact absurd hd h
      · exact Option.ne_none_iff_exists'.mp h
    refine ⟨0, ⟨{ a.defs a.argi with env := some e, type := .env }, .null⟩, [], s.calls,
      hgiven _ ?_, hprep _ (by simp) (fun h => absurd h (by simp)) ?_⟩
    · unfold symbolArg
      refine emits_fetch_bind.mpr ⟨name, hname, emits_frame_bind.mpr ?_⟩
      unfold frameEntry at hd
      rw [hd]
      unfold lookupGlobalSymbol
      refine (ReadOnly.bind .ctx fun _ => .pure _).emits_bind.mpr ⟨some e, ?_, ?_⟩
      · exact emits_ctx_bind.mpr (emits_pure.mpr ⟨he.symm, rfl, rfl⟩)
      · exact emits_pure.mpr ⟨rfl, rfl, rfl⟩
    · intro m v h
      unfold SymbolIs at h
      rw [hd] at h
      obtain ⟨e', i, hl, hentry, hv⟩ := h
      obtain rfl : e = e' := Option.some.inj (he.symm.trans hl)
      exact ⟨i, ⟨e, rfl, hentry⟩, hv⟩

/-- A nested form is computed and pushed. -/
theorem givenArg_form (hty : Typed ctx s.heap) (hform : FormCompiles ctx s n w e) {i : ℕ}
    (hwi : w = .cell i) (htag : (s.heap.cells i).tag = tagCons) :
    ∃ k x code calls, Emits (givenArg (compileExpr n) opName argName w (.cell ctx.prototypeInt) false a)
      ctx s { a.set x.arg with pushed := a.pushed + k } code (grownState s k calls) ∧
      Prepared ctx s e k x code := by
  obtain ⟨code, calls, hemits, hcomp⟩ := hform
  subst hwi
  generalize hx : ({ a.defs a.argi with cell := .null, slot := s.frame.sp + 1, type := .stackInt } :
    Arg) = d
  refine ⟨1, ⟨d, .null⟩, code ++ [.push r0 r0], calls, ?_, ⟨⟨?_, ?_, ?_⟩, ?_, ?_⟩⟩
  · unfold givenArg
    refine emits_fetch_bind.mpr ⟨_, cellAt_cell _ _, ?_⟩
    rw [if_neg (by decide)]
    refine emits_tagOf_bind.mpr ⟨_, cellAt_cell _ _, ?_⟩
    rw [hty.int, if_neg (by decide), if_pos htag]
    unfold eagerArg
    refine hemits.bind (emits_fetch_bind.mpr ⟨_, cellAt_cell _ _, ?_⟩)
    refine emits_addSp_bind.mpr (emits_frame_bind.mpr ?_)
    have hint : ((grownState s 0 calls).heap.cells ctx.prototypeInt).tag = tagInt := hty.int
    unfold structTypeName
    rw [if_neg (by rw [hint]; decide), emits_pure_bind, emits_emit_bind]
    refine ⟨[], emits_pure.mpr ⟨?_, rfl, ?_⟩, rfl⟩
    · rw [if_pos hint, ← hx]
      simp [grownState]
    · simp [grownState]
  · refine hcomp.noJumps.append fun j hj => ?_
    obtain rfl := List.mem_singleton.mp hj
    simp
  · intro ρ m u hρ hu
    obtain ⟨m₁, hrun, hg, hr⟩ := hcomp.value hρ hu
    obtain ⟨m₂, hrun₂, hg₂, hslot⟩ := run_push s.frame.sp hr
    refine ⟨m₂, by rw [run_append hrun, hrun₂], by simpa using hg.trans hg₂, ?_⟩
    unfold SuppliesInt
    rw [← hx]
    exact hslot
  · intro ρ m hρ hu
    exact run_append_none hcomp.noJumps (hcomp.stops hρ hu)
  · intro ht
    rw [← hx] at ht
    exact absurd ht (by simp)
  · intro _
    rw [← hx]
    exact le_refl _

/-- The argument `e` of an integer builtin is prepared as an operand. -/
theorem prepareArg_emits {i j : ℕ} (hready : Ready ctx s w e)
    (hform : 0 < e.depth → FormCompiles ctx s n w e) (hargs : (s.heap.cells i).ar = w) (hwne : w ≠ .null)
    (hsig : (s.heap.cells j).ar = .cell ctx.prototypeInt) :
    ∃ k x code calls, Emits (prepareArg (compileExpr n) false opName (.cell i) (.cell j) a)
      ctx s { a.set x.arg with pushed := a.pushed + k } code (grownState s k calls) ∧
      Prepared ctx s e k x code := by
  obtain ⟨hty, hw, hfr, hsp, hb⟩ := hready
  have hgiven : ∀ argName, ∃ k x code calls,
      Emits (givenArg (compileExpr n) opName argName w (.cell ctx.prototypeInt) false a)
        ctx s { a.set x.arg with pushed := a.pushed + k } code (grownState s k calls) ∧
        Prepared ctx s e k x code := by
    intro argName
    -- literals and symbols emit nothing; a form is computed by its own code
    cases e with
    | lit v => exact givenArg_lit hty hw
    | sym name => exact givenArg_sym hty hw hfr hsp hb
    | bitnot x =>
      have hf := hform (by simp [Expr.depth])
      obtain ⟨i, _, _, hwi, htag, -⟩ := hw
      exact givenArg_form hty hf hwi htag
    | bin op x y =>
      have hf := hform (by simp [Expr.depth])
      obtain ⟨i, _, _, _, hwi, htag, -⟩ := hw
      exact givenArg_form hty hf hwi htag
  obtain ⟨k, x, code, calls, hemits, hprep⟩ := hgiven (Writer.ascii "a" ++ Writer.natText (a.argi + 1))
  refine ⟨k, x, code, calls, ?_, hprep⟩
  have hnamed : Emits (namedArg a.argi (.cell ctx.prototypeInt)) ctx s
      (Writer.ascii "a" ++ Writer.natText (a.argi + 1), .cell ctx.prototypeInt) [] s := by
    unfold namedArg
    rw [if_neg (cell_ne_null _)]
    refine emits_fetch_bind.mpr ⟨_, cellAt_cell _ _, ?_⟩
    rw [if_neg (by rw [hty.int]; decide)]
    exact emits_pure.mpr ⟨rfl, rfl, rfl⟩
  unfold prepareArg
  refine emits_fetch_bind.mpr ⟨w, by rw [car_cell, hargs], ?_⟩
  refine emits_fetch_bind.mpr ⟨.cell ctx.prototypeInt, by rw [car_cell, hsig], ?_⟩
  refine (ReadOnly.namedArg _ _).emits_bind.mpr ⟨_, hnamed, ?_⟩
  dsimp only
  rw [if_pos ⟨hwne, Or.inr (cell_ne_null _)⟩]
  unfold argSignature
  rw [if_neg (by simp), emits_pure_bind]
  simpa using hemits

end Argument

/-! ## Forms -/

section Form

variable {ctx : Ctx} {s s₁ s₂ : CState} {n : ℕ} {returnType ty : Word} {a a₁ a₂ : Args}
  {opName : List UInt8} {code₁ code₂ : List Jit} {x y : Operand}

/-- An argument with its signature, and the rest of the lists. -/
theorem argLoop_cons {rec : Rec} {k i j : ℕ} (hk : k ≠ 0)
    (harg : Emits (prepareArg rec false opName (.cell i) (.cell j) a) ctx s a₁ code₁ s₁)
    (hi : (s₁.heap.cells i).dr ≠ .null) (hj : (s₁.heap.cells j).dr ≠ .null)
    (hrest : Emits (argLoop rec false opName k (s₁.heap.cells i).dr (s₁.heap.cells j).dr
      { a₁ with argi := a₁.argi + 1 }) ctx s₁ a₂ code₂ s₂) :
    Emits (argLoop rec false opName (k + 1) (.cell i) (.cell j) a) ctx s a₂ (code₁ ++ code₂) s₂ := by
  unfold argLoop
  refine harg.bind ?_
  dsimp only
  rw [if_neg hk]
  refine emits_fetch_bind.mpr ⟨_, cdr_cell _ _, ?_⟩
  rw [if_neg hi, if_neg (cell_ne_null _)]
  refine emits_fetch_bind.mpr ⟨_, cdr_cell _ _, ?_⟩
  rw [if_neg hj]
  exact hrest

/-- The empty cells at the end of both lists count as one more argument. -/
theorem argLoop_end {rec : Rec} {k : ℕ} {args sigs : Word} (hi : IsList s.heap args [])
    (hj : IsList s.heap sigs []) :
    Emits (argLoop rec false opName (k + 1) args sigs a) ctx s { a with argi := a.argi + 1 } [] s := by
  obtain ⟨i, rfl, -, hiar, hidr⟩ := hi
  obtain ⟨j, rfl, -, hjar, hjdr⟩ := hj
  have hprep : Emits (prepareArg rec false opName (.cell i) (.cell j) a) ctx s a [] s := by
    unfold prepareArg
    refine emits_fetch_bind.mpr ⟨.null, by rw [car_cell, hiar], ?_⟩
    refine emits_fetch_bind.mpr ⟨.null, by rw [car_cell, hjar], ?_⟩
    unfold namedArg
    rw [if_pos rfl, emits_pure_bind]
    dsimp only
    rw [if_neg (by simp), if_neg (by simp), if_neg (by simp)]
    exact emits_pure.mpr ⟨rfl, rfl, rfl⟩
  unfold argLoop
  refine emits_bind.mpr ⟨a, [], s, [], hprep, ?_, rfl⟩
  dsimp only
  by_cases hk : k = 0
  · rw [if_pos hk]
    exact emits_pure.mpr ⟨rfl, rfl, rfl⟩
  · rw [if_neg hk]
    refine emits_fetch_bind.mpr ⟨.null, by rw [cdr_cell, hidr], ?_⟩
    rw [if_pos rfl]
    exact emits_pure.mpr ⟨rfl, rfl, rfl⟩

/-- The type of an integer form compiled for a return type with this tag. -/
def resultType (ctx : Ctx) (tag : ℕ) : Word :=
  .cell (if tag = tagAny then ctx.prototypeAny else ctx.prototypeInt)

theorem intResult_emits (ctx : Ctx) {c : Cell} (hr : cellAt s.heap returnType = .ok c) :
    Emits (intResult returnType) ctx s (resultType ctx c.tag)
      (if c.tag = tagAny then [.call .allocInt] else [.movr r0 argr0]) s := by
  unfold intResult resultType
  refine emits_ctx_bind.mpr (emits_tagOf_bind.mpr ⟨c, hr, ?_⟩)
  by_cases ht : c.tag = tagAny
  · rw [if_pos ht, if_pos ht, if_pos ht]
    exact emits_emit_bind.mpr ⟨[], emits_pure.mpr ⟨rfl, rfl, rfl⟩, rfl⟩
  · rw [if_neg ht, if_neg ht, if_neg ht]
    exact emits_emit_bind.mpr ⟨[], emits_pure.mpr ⟨rfl, rfl, rfl⟩, rfl⟩

/-- The code of an integer builtin for prepared operands. -/
theorem compileBuiltin_emits {rec : Rec} {call : ℕ} {origArgs origOp : Word} {c : Cell} (op : IntOp)
    (hr : cellAt s.heap returnType = .ok c) (hx : x.Read s.heap) (h0 : a.defs 0 = x.arg)
    (hy : op ≠ .bitnot → y.Read s.heap) (h1 : op ≠ .bitnot → a.defs 1 = y.arg) :
    Emits (compileBuiltin rec n call returnType origArgs origOp a op.builtin) ctx s
      (resultType ctx c.tag)
      (opCode s.frame.sp x y op ++ opEnd (decide (c.tag = tagAny)) op) s := by
  have hres := intResult_emits ctx hr
  by_cases hnot : op = .bitnot
  · subst hnot
    simp only [IntOp.builtin, compileBuiltin, compileBitnot, h0]
    rw [emits_loadInt_bind hx]
    refine ⟨_, emits_emit_bind.mpr ⟨_, hres, rfl⟩, ?_⟩
    simp [opCode, opTail, opEnd, argr0]
  · have hy' := hy hnot
    rw [opCode_of_ne hnot, List.append_assoc, List.append_assoc]
    cases op with
    | bitnot => exact absurd rfl hnot
    | eq =>
      simp only [IntOp.builtin, compileBuiltin, compileEq, h0, h1 hnot]
      rw [emits_loadInt_bind hx]
      refine ⟨_, (emits_loadInt_bind hy').mpr ⟨_, emits_emit_bind.mpr ⟨_, ?_, rfl⟩, rfl⟩, rfl⟩
      refine emits_ctx_bind.mpr (emits_tagOf_bind.mpr ⟨c, hr, ?_⟩)
      unfold resultType opEnd
      by_cases ht : c.tag = tagAny
      · simp [ht, emits_emit_bind]
      · simp [ht]
    | lt =>
      simp only [IntOp.builtin, compileBuiltin, compileLt, h0, h1 hnot]
      rw [emits_loadInt_bind hx]
      refine ⟨_, (emits_loadInt_bind hy').mpr ⟨_, emits_emit_bind.mpr ⟨_, hres, rfl⟩, rfl⟩, ?_⟩
      simp [opTail, opEnd, opRegs]
    | gt =>
      simp only [IntOp.builtin, compileBuiltin, compileGt, h0, h1 hnot]
      rw [emits_loadInt_bind hx]
      refine ⟨_, (emits_loadInt_bind hy').mpr ⟨_, emits_emit_bind.mpr ⟨_, hres, rfl⟩, rfl⟩, ?_⟩
      simp [opTail, opEnd, opRegs]
    | _ =>
      simp only [IntOp.builtin, compileBuiltin, compileArith, h0, h1 hnot]
      rw [emits_loadInt_bind hx]
      refine ⟨_, (emits_loadInt_bind hy').mpr ⟨_, emits_emit_bind.mpr ⟨_, hres, rfl⟩, rfl⟩, ?_⟩
      simp [opTail, opEnd, opRegs]

/-- A form whose operator is an integer builtin: the arguments, the operation
    and `clean_return`. -/
theorem compileExpr_emits {i o e : ℕ} {c : Cell} {op : IntOp}
    (hcons : (s.heap.cells i).tag = tagCons) (hsym : cellAt s.heap (s.heap.cells i).ar = .ok c)
    (htag : c.tag = tagSym) (hname : cString s.heap c.ar = .ok opName)
    (hlookup : ctx.lookup opName = some e) (hentry : ctx.entry e = .cell o)
    (hbuiltin : (s.heap.cells o).tag = tagBuiltin)
    (hop : Builtin.ofWord (s.heap.cells o).ar = some op.builtin)
    (hloop : Emits (argLoop (compileExpr n) false opName maxArgs (s.heap.cells i).dr
      (s.heap.cells o).dr ⟨0, ctx.junk s.calls, 0⟩) ctx { s with calls := s.calls + 1 } a code₁ s₁)
    (hcode : Emits (compileBuiltin (compileExpr n) n s.calls returnType (s.heap.cells i).dr .null a
      op.builtin) ctx s₁ ty code₂ s₁) :
    Emits (compileExpr (n + 1) (.cell i) returnType) ctx s ty
      (code₁ ++ (code₂ ++ cleanCode a.pushed))
      { s₁ with frame := { s₁.frame with sp := s₁.frame.sp - a.pushed } } := by
  have hne : (s.heap.cells i).ar ≠ .null := by
    intro h
    rw [h] at hsym
    exact absurd hsym (by simp [cellAt, Word.asCell])
  have hlet : decide (some op.builtin = some Builtin.let_) = false := by
    cases op <;> decide
  have hfind : findOperator opName ctx s.heap =
      .ok (.ok ⟨s.heap.cells o, e, (s.heap.cells o).dr, false, .null⟩) := by
    unfold findOperator
    rw [hlookup]
    dsimp only
    rw [hentry, if_neg (cell_ne_null _), cellAt_cell]
    change (if (s.heap.cells o).tag = tagBuiltin then _ else _) = _
    rw [if_pos hbuiltin, hop, hlet]
  have hclean : Emits (cleanReturn a.pushed ty) ctx s₁ ty (cleanCode a.pushed)
      { s₁ with frame := { s₁.frame with sp := s₁.frame.sp - a.pushed } } := by
    unfold cleanReturn cleanCode
    by_cases hp : a.pushed = 0
    · rw [if_pos hp, if_pos hp, hp]
      exact emits_pure.mpr ⟨rfl, rfl, by simp⟩
    · rw [if_neg hp, if_neg hp, emits_emit_bind]
      refine ⟨[], emits_addSp_bind.mpr (emits_pure.mpr ⟨rfl, rfl, ?_⟩), rfl⟩
      rfl
  unfold compileExpr
  rw [if_neg (cell_ne_null _)]
  refine emits_fetch_bind.mpr ⟨_, cellAt_cell _ _, ?_⟩
  rw [if_neg (not_not.mpr hcons)]
  unfold compileForm
  rw [if_neg hne]
  refine emits_fetch_bind.mpr ⟨c, hsym, ?_⟩
  rw [if_neg (not_not.mpr htag)]
  refine emits_fetch_bind.mpr ⟨opName, hname, ?_⟩
  refine emits_inspect_bind.mpr ⟨_, hfind, ?_⟩
  refine emits_nextCall_bind.mpr (emits_ctx_bind.mpr ?_)
  refine hloop.bind (Emits.bind ?_ hclean)
  unfold compileOperator
  rw [if_pos hbuiltin, hop]
  exact hcode

/-- A form compiles: code that leaves the value in a register, the end of the
    operation, and `clean_return`. -/
def FormCode (ctx : Ctx) (s : CState) (n : ℕ) (w : Word) (e : Expr) : Prop :=
  ∀ (returnType : Word) (c : Cell), cellAt s.heap returnType = .ok c →
    ∃ op pre k calls, Emits (compileExpr n w returnType) ctx s (resultType ctx c.tag)
      (pre ++ (opEnd (decide (c.tag = tagAny)) op ++ cleanCode k)) (grownState s 0 calls) ∧
      Computes ctx s.frame e k (fun m u => m.regs (opResult op) = .int u) pre

/-- The raw end of an operation. -/
theorem run_opEnd_raw {m : State} {u : BitVec 64} {op : IntOp}
    (hres : m.regs (opResult op) = .int u) :
    ∃ m', run (opEnd false op) m = some m' ∧ Kept m m' ∧ m'.regs r0 = .int u := by
  by_cases heq : op = .eq
  · subst heq
    exact ⟨m, rfl, ⟨.refl, rfl⟩, hres⟩
  · have hend : opEnd false op = [.movr r0 argr0] := by
      cases op with
      | eq => exact absurd rfl heq
      | _ => rfl
    have hres' : m.regs argr0 = .int u := by
      cases op with
      | eq => exact absurd rfl heq
      | _ => exact hres
    refine ⟨m.set r0 (.int u), ?_, Kept.set (by decide), by simp⟩
    rw [hend, run_cons (by simp), step, hres']
    rfl

/-- The raw variant of a form. -/
theorem FormCode.raw {w : Word} {e : Expr} (hty : Typed ctx s.heap) (h : FormCode ctx s n w e) :
    FormCompiles ctx s n w e := by
  obtain ⟨op, pre, k, calls, hemits, hcomp⟩ := h _ _ (cellAt_cell _ ctx.prototypeInt)
  have htag : (s.heap.cells ctx.prototypeInt).tag ≠ tagAny := by
    rw [hty.int]
    decide
  rw [decide_eq_false htag, resultType, if_neg htag] at hemits
  refine ⟨_, calls, hemits, ?_, ?_, ?_⟩
  · refine hcomp.noJumps.append ((noJumps_opEnd _ _).append ?_)
    unfold cleanCode NoJumps
    split
    · simp
    · simp
  · intro ρ m u hρ hu
    obtain ⟨m₁, hrun₁, hg₁, hres⟩ := hcomp.value hρ hu
    obtain ⟨m₂, hrun₂, hk₂, h0⟩ := run_opEnd_raw hres
    obtain ⟨m₃, hrun₃, hg₃, hr₃⟩ := run_clean (hg₁.trans hk₂.grown)
    refine ⟨m₃, ?_, hg₃, hr₃.trans h0⟩
    rw [run_append hrun₁, run_append hrun₂]
    exact hrun₃
  · intro ρ m hρ hu
    exact run_append_none hcomp.noJumps (hcomp.stops hρ hu)

/-- The code of a form with one operand. -/
theorem Computes.unary {e : Expr} {k : ℕ} {code : List Jit}
    (h : Prepared ctx s e k x code) :
    Computes ctx s.frame (.bitnot e) k (fun m u => m.regs argr0 = .int u)
      (code ++ opCode (s.frame.sp + k) x x .bitnot) where
  noJumps := h.computes.noJumps.append (noJumps_opCode _)
  value := by
    intro ρ m u hρ hu
    obtain ⟨b, hb, hu⟩ := Option.bind_eq_some_iff.mp hu
    obtain ⟨m₁, hrun₁, hg₁, hx⟩ := h.computes.value (fun name hn => hρ name hn) hb
    have hop := run_opCode (y := x) (b := 0) .bitnot hx fun h => absurd rfl h
    rw [hu] at hop
    obtain ⟨m₂, hrun₂, hk₂, hres⟩ := hop
    exact ⟨m₂, by rw [run_append hrun₁, hrun₂], hg₁.trans hk₂.grown, hres⟩
  stops := by
    intro ρ m hρ hu
    cases hb : e.eval ρ with
    | none => exact run_append_none h.computes.noJumps (h.computes.stops (fun name hn => hρ name hn) hb)
    | some b =>
      rw [Expr.eval, hb] at hu
      exact absurd hu (by simp [opVal])

/-- The code of a form with two operands. -/
theorem Computes.binary {e₁ e₂ : Expr} {k₁ k₂ calls : ℕ} {op : IntOp}
    (hfr : s.frame.Ok) (hsp : 0 ≤ s.frame.sp) (h₁ : Prepared ctx s e₁ k₁ x code₁)
    (h₂ : Prepared ctx (grownState s k₁ calls) e₂ k₂ y code₂) :
    Computes ctx s.frame (.bin op e₁ e₂) (k₁ + k₂) (fun m u => m.regs (opResult op) = .int u)
      (code₁ ++ (code₂ ++ opCode (s.frame.sp + k₁ + k₂) x y op)) where
  noJumps := h₁.computes.noJumps.append (h₂.computes.noJumps.append (noJumps_opCode _))
  value := by
    intro ρ m u hρ hu
    obtain ⟨b₁, hb₁, hu⟩ := Option.bind_eq_some_iff.mp hu
    obtain ⟨b₂, hb₂, hu⟩ := Option.bind_eq_some_iff.mp hu
    obtain ⟨m₁, hrun₁, hg₁, hx⟩ := h₁.computes.value (fun name hn => hρ name (Or.inl hn)) hb₁
    have hρ₂ : Valued ctx s.frame ρ e₂ m := fun name hn => hρ name (Or.inr hn)
    obtain ⟨m₂, hrun₂, hg₂, hy⟩ := h₂.computes.value (hρ₂.grown hg₁ hfr hsp) hb₂
    have hstep := run_opCode op (hx.grown hg₂ h₁.inUse) fun _ => hy
    rw [hu] at hstep
    obtain ⟨m₃, hrun₃, hk₃, hres⟩ := hstep
    refine ⟨m₃, ?_, (hg₁.trans hg₂).trans hk₃.grown, hres⟩
    rw [run_append hrun₁, run_append hrun₂]
    exact hrun₃
  stops := by
    intro ρ m hρ hu
    have hρ₁ : Valued ctx s.frame ρ e₁ m := fun name hn => hρ name (Or.inl hn)
    cases hb₁ : e₁.eval ρ with
    | none => exact run_append_none h₁.computes.noJumps (h₁.computes.stops hρ₁ hb₁)
    | some b₁ =>
      obtain ⟨m₁, hrun₁, hg₁, hx⟩ := h₁.computes.value hρ₁ hb₁
      rw [run_append hrun₁]
      have hρ₂ : Valued ctx s.frame ρ e₂ m := fun name hn => hρ name (Or.inr hn)
      cases hb₂ : e₂.eval ρ with
      | none =>
        exact run_append_none h₂.computes.noJumps (h₂.computes.stops (hρ₂.grown hg₁ hfr hsp) hb₂)
      | some b₂ =>
        obtain ⟨m₂, hrun₂, hg₂, hy⟩ := h₂.computes.value (hρ₂.grown hg₁ hfr hsp) hb₂
        have hnone : opVal b₁ b₂ op = none := by
          rw [Expr.eval, hb₁, hb₂] at hu
          exact hu
        have hstep := run_opCode op (hx.grown hg₂ h₁.inUse) fun _ => hy
        rw [hnone] at hstep
        rw [run_append hrun₂]
        exact hstep

theorem grownState_grownState (s : CState) (k k' calls calls' : ℕ) :
    grownState (grownState s k calls) k' calls' = grownState s (k + k') calls' := by
  simp [grownState, add_assoc]

/-- Dropping what was pushed. -/
theorem grownState_drop (s : CState) (k calls : ℕ) :
    { grownState s k calls with frame := { (grownState s k calls).frame with
      sp := (grownState s k calls).frame.sp - k } } = grownState s 0 calls := by
  simp [grownState]

/-- The argument loop over one operand. -/
theorem argLoop_one {args sigs w : Word} {e : Expr} {defs : ℕ → Arg}
    (hargs : IsList s.heap args [w]) (hsigs : IsList s.heap sigs [.cell ctx.prototypeInt])
    (hready : Ready ctx s w e) (hform : 0 < e.depth → FormCompiles ctx s n w e) :
    ∃ k x code calls, Emits (argLoop (compileExpr n) false opName maxArgs args sigs ⟨0, defs, 0⟩) ctx s
      ⟨2, Function.update defs 0 x.arg, k⟩ code (grownState s k calls) ∧
      Prepared ctx s e k x code := by
  obtain ⟨i, rfl, -, hiar, hwne, hinil⟩ := hargs
  obtain ⟨j, rfl, -, hjar, -, hjnil⟩ := hsigs
  obtain ⟨k, x, code, calls, hemits, hprep⟩ :=
    prepareArg_emits (a := ⟨0, defs, 0⟩) hready hform hiar hwne hjar
  refine ⟨k, x, code, calls, ?_, hprep⟩
  rw [← List.append_nil code]
  refine argLoop_cons (by decide) hemits hinil.ne_null hjnil.ne_null ?_
  have hend := @argLoop_end ctx (grownState s k calls)
    ⟨1, Function.update defs 0 x.arg, k⟩ opName (compileExpr n) 6 _ _ hinil hjnil
  simpa [Args.set] using hend

/-- The argument loop over two operands. -/
theorem argLoop_two {args sigs w₁ w₂ : Word} {e₁ e₂ : Expr} {defs : ℕ → Arg}
    (hargs : IsList s.heap args [w₁, w₂])
    (hsigs : IsList s.heap sigs [.cell ctx.prototypeInt, .cell ctx.prototypeInt])
    (hready₁ : Ready ctx s w₁ e₁) (hready₂ : Ready ctx s w₂ e₂)
    (hform₁ : 0 < e₁.depth → FormCompiles ctx s n w₁ e₁)
    (hform₂ : ∀ k calls, 0 < e₂.depth → FormCompiles ctx (grownState s k calls) n w₂ e₂) :
    ∃ k₁ k₂ x y code₁ code₂ calls₁ calls₂,
      Emits (argLoop (compileExpr n) false opName maxArgs args sigs ⟨0, defs, 0⟩) ctx s
        ⟨3, Function.update (Function.update defs 0 x.arg) 1 y.arg, k₁ + k₂⟩ (code₁ ++ code₂)
        (grownState s (k₁ + k₂) calls₂) ∧
      Prepared ctx s e₁ k₁ x code₁ ∧ Prepared ctx (grownState s k₁ calls₁) e₂ k₂ y code₂ := by
  obtain ⟨i, rfl, -, hiar, hwne, i', hi', -, hiar', hwne', hinil⟩ := hargs
  obtain ⟨j, rfl, -, hjar, -, j', hj', -, hjar', -, hjnil⟩ := hsigs
  obtain ⟨k₁, x, code₁, calls₁, hemits₁, hprep₁⟩ :=
    prepareArg_emits (a := ⟨0, defs, 0⟩) hready₁ hform₁ hiar hwne hjar
  obtain ⟨k₂, y, code₂, calls₂, hemits₂, hprep₂⟩ :=
    prepareArg_emits (a := ⟨1, Function.update defs 0 x.arg, k₁⟩) (hready₂.grown k₁ calls₁)
      (hform₂ k₁ calls₁) hiar' hwne' hjar'
  refine ⟨k₁, k₂, x, y, code₁, code₂, calls₁, calls₂, ?_, hprep₁, hprep₂⟩
  have hend := @argLoop_end ctx (grownState (grownState s k₁ calls₁) k₂ calls₂)
    ⟨2, Function.update (Function.update defs 0 x.arg) 1 y.arg, k₁ + k₂⟩ opName (compileExpr n) 5 _ _
    hinil hjnil
  have hrest := argLoop_cons (by decide) hemits₂ hinil.ne_null hjnil.ne_null hend
  rw [List.append_nil, grownState_grownState] at hrest
  refine argLoop_cons (by decide) hemits₁ ?_ ?_ ?_
  · change (s.heap.cells i).dr ≠ .null
    rw [hi']
    exact cell_ne_null i'
  · change (s.heap.cells j).dr ≠ .null
    rw [hj']
    exact cell_ne_null j'
  · change Emits (argLoop _ _ _ _ (s.heap.cells i).dr (s.heap.cells j).dr _) _ _ _ _ _
    rw [hi', hj']
    simpa [Args.set] using hrest

/-- Every form compiles, and its code computes `eval`. -/
theorem form_code (e : Expr) : ∀ {n : ℕ} {s : CState} {w : Word}, 0 < e.depth → e.depth ≤ n →
    Ready ctx s w e → FormCode ctx s n w e := by
  induction e with
  | lit v => exact fun h => absurd h (by simp [Expr.depth])
  | sym name => exact fun h => absurd h (by simp [Expr.depth])
  | bitnot e ih =>
    intro n s w _ hn ⟨hty, hw, hfr, hsp, hb⟩ returnType c hr
    obtain ⟨n, rfl⟩ : ∃ n', n = n' + 1 := ⟨n - 1, by simp only [Expr.depth] at hn; omega⟩
    have hdepth : e.depth ≤ n := by simp only [Expr.depth] at hn; omega
    obtain ⟨i, o, wx, rfl, hcons, rfl, ⟨⟨c', name, e', o, hsym, htag, hname, hl, hentry, hbt, hbop,
      hsigs⟩⟩, hargs, hwx⟩ := hw
    have hready : Ready ctx { s with calls := s.calls + 1 } wx e := ⟨hty, hwx, hfr, hsp, hb⟩
    obtain ⟨k, x, code, calls, hloop, hprep⟩ := argLoop_one (s := { s with calls := s.calls + 1 })
      hargs hsigs hready fun hpos => (ih hpos hdepth hready).raw hty
    refine ⟨.bitnot, _, k, calls, ?_, Computes.unary (s := { s with calls := s.calls + 1 }) hprep⟩
    have hemits := compileExpr_emits hcons hsym htag hname hl hentry hbt hbop hloop
      (compileBuiltin_emits (s := grownState { s with calls := s.calls + 1 } k calls) (y := x) .bitnot
        hr hprep.read (by simp) (fun h => absurd rfl h) (fun h => absurd rfl h))
    rw [grownState_drop, List.append_assoc] at hemits
    rw [List.append_assoc]
    exact hemits
  | bin op e₁ e₂ ih₁ ih₂ =>
    intro n s w _ hn ⟨hty, hw, hfr, hsp, hb⟩ returnType c hr
    obtain ⟨n, rfl⟩ : ∃ n', n = n' + 1 := ⟨n - 1, by simp only [Expr.depth] at hn; omega⟩
    have hdepth₁ : e₁.depth ≤ n := by simp only [Expr.depth] at hn; omega
    have hdepth₂ : e₂.depth ≤ n := by simp only [Expr.depth] at hn; omega
    obtain ⟨i, o, wx, wy, rfl, hcons, rfl, hnot, ⟨⟨c', name, e', o, hsym, htag, hname, hl, hentry, hbt,
      hbop, hsigs⟩⟩, hargs, hwx, hwy⟩ := hw
    have hready₁ : Ready ctx { s with calls := s.calls + 1 } wx e₁ :=
      ⟨hty, hwx, hfr, hsp, fun name hn => hb name (Or.inl hn)⟩
    have hready₂ : Ready ctx { s with calls := s.calls + 1 } wy e₂ :=
      ⟨hty, hwy, hfr, hsp, fun name hn => hb name (Or.inr hn)⟩
    obtain ⟨k₁, k₂, x, y, code₁, code₂, calls₁, calls₂, hloop, hprep₁, hprep₂⟩ :=
      argLoop_two (s := { s with calls := s.calls + 1 }) hargs hsigs hready₁ hready₂
        (fun hpos => (ih₁ hpos hdepth₁ hready₁).raw hty)
        fun k calls hpos => (ih₂ hpos hdepth₂ (hready₂.grown k calls)).raw hty
    refine ⟨op, _, k₁ + k₂, calls₂, ?_,
      Computes.binary (s := { s with calls := s.calls + 1 }) hfr hsp hprep₁ hprep₂⟩
    have hemits := compileExpr_emits hcons hsym htag hname hl hentry hbt hbop hloop
      (compileBuiltin_emits (s := grownState { s with calls := s.calls + 1 } (k₁ + k₂) calls₂) op hr
        hprep₁.read (by simp) (fun _ => hprep₂.read) (fun _ => by simp))
    rw [grownState_drop] at hemits
    have hsp' : (grownState { s with calls := s.calls + 1 } (k₁ + k₂) calls₂).frame.sp =
        s.frame.sp + k₁ + k₂ := by
      simp [grownState, add_assoc]
    rw [hsp'] at hemits
    simp only [List.append_assoc] at hemits ⊢
    exact hemits

/-- The boxed end of an operation: a new cell with the low half of the result. -/
theorem run_opEnd_boxed {m : State} {u : BitVec 64} {k : ℕ} {op : IntOp}
    (hok : m.heap.FreeListOk) (hroom : 0 < m.heap.room) (hres : m.regs (opResult op) = .int u) :
    ∃ (i : ℕ) (m' : State), run (opEnd true op ++ cleanCode k) m = some m' ∧ m'.regs r0 = .cell i ∧
      (m'.heap.cells i).tag = tagInt ∧ (m'.heap.cells i).ar = .int (Heap.boxInt u) := by
  obtain ⟨m₁, hrun₁, hheap, hr₁⟩ : ∃ m₁, (∀ rest, run (opEnd true op ++ rest) m =
      run ([.call .allocInt] ++ rest) m₁) ∧ m₁.heap = m.heap ∧ m₁.regs argr0 = .int u := by
    by_cases heq : op = .eq
    · subst heq
      refine ⟨m.set argr0 (.int u), fun rest => ?_, rfl, by simp⟩
      have hr0 : m.regs r0 = .int u := hres
      change run (.movr argr0 r0 :: _) m = _
      rw [run_cons (by simp), step, hr0]
      rfl
    · have hend : opEnd true op = [.call .allocInt] := by
        cases op with
        | eq => exact absurd rfl heq
        | _ => rfl
      refine ⟨m, fun rest => by rw [hend], rfl, ?_⟩
      cases op with
      | eq => exact absurd rfl heq
      | _ => exact hres
  obtain ⟨i, m₂, hrun₂, hr₂, htag, har⟩ :=
    run_allocInt (by rw [hheap]; exact hok) (by rw [hheap]; exact hroom) hr₁
  obtain ⟨m₃, hrun₃, hregs, -, -, hheap₃, -⟩ := run_cleanCode k m₂
  refine ⟨i, m₃, ?_, by rw [hregs]; exact hr₂, by rw [hheap₃]; exact htag, by rw [hheap₃]; exact har⟩
  rw [hrun₁, run_append hrun₂]
  exact hrun₃

/-- Compiling the expression behind `w` for `returnType`, and running the code
    in state `m`, gives the number `u`. -/
def Gives (ctx : Ctx) (s : CState) (n : ℕ) (returnType w : Word) (m : State) (u : BitVec 64) : Prop :=
  ∃ ty code s' m', Emits (compileExpr n w returnType) ctx s ty code s' ∧ run code m = some m' ∧
    Yields ctx ty m' u

theorem Typed.ne {h : Heap} (hty : Typed ctx h) :
    Word.cell ctx.prototypeInt ≠ .cell ctx.prototypeAny := by
  intro heq
  have hidx : ctx.prototypeInt = ctx.prototypeAny := by simpa using heq
  have htag := hty.int
  rw [hidx, hty.any] at htag
  exact absurd htag (by decide)

/-- A computation emits one thing. -/
theorem emits_code_unique {α : Type} {f : CompM α} {t t' : α} {s₃ : CState} (h : Emits f ctx s t code₁ s₁)
    (h' : Emits f ctx s t' code₂ s₃) : t = t' ∧ code₁ = code₂ := by
  have heq : (.ok (.ok t, code₁, s₁) : Except Stop (Except CompileError α × List Jit × CState)) =
      .ok (.ok t', code₂, s₃) := h.symm.trans h'
  simp only [Except.ok.injEq, Prod.mk.injEq] at heq
  exact ⟨heq.1, heq.2.1⟩

/-- A number in `R0` is the only one there. -/
theorem Yields.unique {ty : Word} {m : State} {u u' : BitVec 64} (hty : Typed ctx s.heap)
    (h : Yields ctx ty m u) (h' : Yields ctx ty m u') : u = u' := by
  rcases h with ⟨ht, hu⟩ | ⟨ht, i, hi, -, hu⟩
  · rcases h' with ⟨-, hu'⟩ | ⟨ht', -⟩
    · rw [hu] at hu'
      exact Word.int.inj hu'
    · exact absurd (ht.symm.trans ht') hty.ne
  · rcases h' with ⟨ht', -⟩ | ⟨-, i', hi', -, hu'⟩
    · exact absurd (ht'.symm.trans ht) hty.ne
    · rw [hi] at hi'
      obtain rfl : i = i' := by simpa using hi'
      rw [hu] at hu'
      exact Word.int.inj hu'

/-- What a form gives: its value raw, or its low half in a cell. -/
theorem form_gives {e : Expr} {w : Word} {c : Cell} {ρ : List UInt8 → BitVec 64} {m : State}
    {u : BitVec 64} (hpos : 0 < e.depth) (hn : e.depth ≤ n) (hready : Ready ctx s w e)
    (hr : cellAt s.heap returnType = .ok c) (hρ : Valued ctx s.frame ρ e m)
    (hok : m.heap.FreeListOk) (hroom : 0 < m.heap.room) :
    Gives ctx s n returnType w m u ↔
      (e.eval ρ).map (fun v => if c.tag = tagAny then Heap.boxInt v else v) = some u := by
  obtain ⟨op, pre, k, calls, hemits, hcomp⟩ := form_code e hpos hn hready returnType c hr
  have hnone : e.eval ρ = none → ∀ rest, run (pre ++ rest) m = none := fun he rest =>
    run_append_none hcomp.noJumps (hcomp.stops hρ he)
  have hsome : ∀ v, e.eval ρ = some v → ∃ m', run (pre ++
      (opEnd (decide (c.tag = tagAny)) op ++ cleanCode k)) m = some m' ∧
      Yields ctx (resultType ctx c.tag) m' (if c.tag = tagAny then Heap.boxInt v else v) := by
    intro v hv
    obtain ⟨m₁, hrun₁, hg₁, hres⟩ := hcomp.value hρ hv
    rw [run_append hrun₁]
    by_cases ht : c.tag = tagAny
    · rw [decide_eq_true ht, if_pos ht, resultType, if_pos ht]
      obtain ⟨i, m₂, hrun₂, hr₂, htag, har⟩ := run_opEnd_boxed (k := k)
        (by rw [hg₁.heap]; exact hok) (by rw [hg₁.heap]; exact hroom) hres
      exact ⟨m₂, hrun₂, .inr ⟨rfl, i, hr₂, htag, har⟩⟩
    · rw [decide_eq_false ht, if_neg ht, resultType, if_neg ht]
      obtain ⟨m₂, hrun₂, hk₂, h0⟩ := run_opEnd_raw hres
      obtain ⟨m₃, hrun₃, -, hr₃⟩ := run_clean (hg₁.trans hk₂.grown)
      exact ⟨m₃, by rw [run_append hrun₂]; exact hrun₃, .inl ⟨rfl, hr₃.trans h0⟩⟩
  constructor
  · rintro ⟨ty, code, s', m', hemits', hrun, hyields⟩
    obtain ⟨rfl, rfl⟩ := emits_code_unique hemits hemits'
    cases he : e.eval ρ with
    | none =>
      rw [hnone he] at hrun
      exact absurd hrun (by simp)
    | some v =>
      obtain ⟨m₂, hrun₂, hyields₂⟩ := hsome v he
      rw [hrun₂] at hrun
      obtain rfl := Option.some.inj hrun
      exact congrArg some (hyields₂.unique hready.typed hyields)
  · intro hu
    obtain ⟨v, hv, rfl⟩ := Option.map_eq_some_iff.mp hu
    obtain ⟨m', hrun, hyields⟩ := hsome v hv
    exact ⟨_, _, _, m', hemits, hrun, hyields⟩

/-- A form compiled for its raw value gives `eval`. -/
theorem form_gives_raw {e : Expr} {w : Word} {ρ : List UInt8 → BitVec 64} {m : State}
    {u : BitVec 64} (hpos : 0 < e.depth) (hn : e.depth ≤ n) (hready : Ready ctx s w e) (hρ : Valued ctx s.frame ρ e m) (hok : m.heap.FreeListOk)
    (hroom : 0 < m.heap.room) :
    Gives ctx s n (.cell ctx.prototypeInt) w m u ↔ e.eval ρ = some u := by
  rw [form_gives hpos hn hready (cellAt_cell _ _) hρ hok hroom]
  have htag : (s.heap.cells ctx.prototypeInt).tag ≠ tagAny := by
    rw [hready.typed.int]
    decide
  simp only [htag, if_false, Option.map_id']

end Form

end Interim.Machine
