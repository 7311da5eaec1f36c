import Interim.Compiler.Model

/-!
# Reading `argdefs`

`compile_expr` does not initialise its array `argdefs`. The argument loop fills
some fields of each element, which ones depends on the argument and on the
signature, and each branch of the `switch` reads some fields of some elements.

`checkedExpr` is `compile_expr` with an array of unwritten elements and a stop in
front of the `switch` when the branch to come reads a field that is unwritten.
The relations and rules below compare such a run with a run of `compile_expr` on
an array with arbitrary contents.
-/

namespace Interim.Compiler

open Writer (cellAt car cdr cString elemAt)
open CompM

/-! ## Unwritten fields -/

/-- An element nothing was stored in. The compiler stores none of these values:
    `slot` is an `int`, and `[0]` is no C string. -/
def unwritten : Arg where
  type := .const
  cell := .undef
  env := none
  slot := 2 ^ 31
  name := none
  typeName := some [0]

/-- What a branch of the `switch` reads of an element of `argdefs`. -/
inductive Use
  /-- what `load_int` and `load_cell` read -/
  | load (i : ℕ)
  /-- `argdefs[i].cell` -/
  | cell (i : ℕ)
  /-- `argdefs[i].env` -/
  | env (i : ℕ)
  /-- the struct type of an argument: `env` of a global, `type_name` otherwise -/
  | struct (i : ℕ)
  deriving DecidableEq, Repr

/-- The fields `load_int` and `load_cell` read are written. -/
def Arg.loadable (d : Arg) : Bool :=
  match d.type with
  | .const => d.cell ≠ .undef
  | .env => d.env.isSome
  | .lambda => true
  | .reg | .regInt | .stack | .stackInt => d.slot ≠ unwritten.slot

/-- What is read was written. -/
def Use.written (defs : ℕ → Arg) : Use → Bool
  | .load i => (defs i).loadable
  | .cell i => (defs i).cell ≠ .undef
  | .env i => (defs i).env.isSome
  | .struct i =>
    if (defs i).type = .env then (defs i).env.isSome else (defs i).typeName ≠ unwritten.typeName

/-- What the branches of the `switch` read. -/
def Builtin.uses (origOp : Word) (a : Args) : Builtin → List Use
  | .bitand | .bitor | .bitxor | .shl | .shr | .add | .sub | .mul | .div | .mod | .gt | .lt | .eq
  | .cons | .concat | .get8 | .get16 | .get32 | .write | .mount | .send => [.load 0, .load 1]
  | .bitnot | .car | .cdr | .alloc | .allocStr | .bytesToStr | .read | .eval | .size | .print
  | .mmap | .open_ | .recv => [.load 0]
  | .substr | .put8 | .put16 | .put32 => [.load 0, .load 1, .load 2]
  | .def_ | .let_ => [.cell 0, .load 1]
  | .fn => (List.range (a.argi - 1)).map .cell
  | .if_ => [.load 0, .cell 1, .cell 2]
  | .while_ => [.cell 0, .cell 1]
  | .new => if origOp ≠ .null then [] else [.env 0]
  | .sget => [.struct 0, .cell 1, .load 0]
  | .sput => [.struct 0, .cell 1, .load 0, .load 2]
  | _ => []

/-- What the code after the argument loop reads. -/
def Operator.uses (o : Operator) (a : Args) : List Use :=
  if o.op.tag = tagBuiltin then
    match Builtin.ofWord o.op.ar with
    | some b => b.uses o.origOp a
    | none => []
  else (List.range (a.argi - 1)).map .load

/-! ## The checked compiler -/

section Checked

variable [Port]

/-- `compileForm` with the check. -/
def checkedForm (rec : Rec) (n : ℕ) (returnType : Word) (c : Cell) : CompM Word :=
  if c.ar = .null then fail .nonSymbolOperator
  else do
    let opsym ← fetch fun h => cellAt h c.ar
    if opsym.tag ≠ tagSym then fail .nonSymbolOperator
    else do
      let opName ← fetch fun h => cString h opsym.ar
      let o ← inspect (findOperator opName)
      let call ← nextCall
      let a ← argLoop rec o.isLet opName maxArgs c.dr o.signature ⟨0, fun _ => unwritten, 0⟩
      if (o.uses a).all (Use.written a.defs) then do
        let ty ← compileOperator rec n call returnType c.dr o a
        cleanReturn a.pushed ty
      else fault

/-- `compileExpr` with the check. -/
def checkedExpr : ℕ → Rec
  | 0 => fun _ _ => outOfFuel
  | n + 1 => fun expr returnType =>
    if expr = .null then fail .noExpr
    else do
      let c ← fetch fun h => cellAt h expr
      if c.tag ≠ tagCons then compileAtom expr c
      else checkedForm (checkedExpr n) n returnType c

/-- Every form that compiling `expr` gets to reads only fields of `argdefs` that
    its argument loop has written. -/
def ReadsWritten (n : ℕ) (expr returnType : Word) (c : Ctx) (s : CState) : Prop :=
  ∃ r, checkedExpr n expr returnType c s = .ok r

end Checked

/-! ## Related states

`g` belongs to the checked run, `r` to the other one. -/

/-- Two values of one element of `argdefs`: what is written in `g` is the same
    in `r`. -/
structure ArgSim (g r : Arg) : Prop where
  type : g.type = r.type ∨ g.type = .const ∧ g.cell = .undef
  cell : g.cell = .undef ∨ g.cell = r.cell
  env : g.env = none ∨ g.env = r.env
  slot : g.slot = unwritten.slot ∨ g.slot = r.slot
  typeName : g.typeName = unwritten.typeName ∨ g.typeName = r.typeName

/-- Two values of one entry of a frame. A `let` copies the `type_name` of its
    value, everything else is written. -/
structure EntrySim (g r : Arg) : Prop where
  type : g.type = r.type
  cell : g.cell = r.cell
  env : g.env = r.env
  slot : g.slot = r.slot
  name : g.name = r.name
  typeName : g.typeName = unwritten.typeName ∨ g.typeName = r.typeName

structure FrameSim (g r : Frame) : Prop where
  f : Option.Rel (fun f f' : ℕ → Arg => ∀ i, EntrySim (f i) (f' i)) g.f r.f
  sp : g.sp = r.sp
  locals : g.locals = r.locals
  stackEnd : g.stackEnd = r.stackEnd

structure StateSim (g r : CState) : Prop where
  heap : g.heap = r.heap
  labelSkipCount : g.labelSkipCount = r.labelSkipCount
  frame : FrameSim g.frame r.frame
  calls : g.calls = r.calls

structure ArgsSim (g r : Args) : Prop where
  argi : g.argi = r.argi
  defs : ∀ i, ArgSim (g.defs i) (r.defs i)
  pushed : g.pushed = r.pushed

theorem EntrySim.refl (d : Arg) : EntrySim d d := ⟨rfl, rfl, rfl, rfl, rfl, Or.inr rfl⟩

theorem FrameSim.refl (fr : Frame) : FrameSim fr fr := by
  refine ⟨?_, rfl, rfl, rfl⟩
  cases fr.f with
  | none => exact .none
  | some f => exact .some fun i => .refl (f i)

theorem StateSim.refl (s : CState) : StateSim s s := ⟨rfl, rfl, .refl _, rfl⟩

theorem ArgSim.unwritten (r : Arg) : ArgSim unwritten r :=
  ⟨Or.inr ⟨rfl, rfl⟩, Or.inl rfl, Or.inl rfl, Or.inl rfl, Or.inl rfl⟩

theorem EntrySim.argSim {g r : Arg} (h : EntrySim g r) : ArgSim g r :=
  ⟨Or.inl h.type, Or.inr h.cell, Or.inr h.env, Or.inr h.slot, h.typeName⟩

/-- Storing related values. -/
theorem ArgsSim.set {a a' : Args} {d d' : Arg} (h : ArgsSim a a') (hd : ArgSim d d') :
    ArgsSim (a.set d) (a'.set d') := by
  refine ⟨h.argi, fun i => ?_, h.pushed⟩
  change ArgSim (Function.update a.defs a.argi d i) (Function.update a'.defs a'.argi d' i)
  rw [← h.argi]
  by_cases hi : i = a.argi
  · subst hi
    rw [Function.update_self, Function.update_self]
    exact hd
  · rw [Function.update_of_ne hi, Function.update_of_ne hi]
    exact h.defs i

/-! ## Simulation -/

/-- The same failure, or related values. -/
def ResultSim {α β : Type} (R : α → β → Prop) :
    Except CompileError α → Except CompileError β → Prop
  | .ok a, .ok b => R a b
  | .error e, .error e' => e = e'
  | _, _ => False

/-- What `m` does without a stop, `m'` does as well when the arrays hold `j`: the
    same code, a related result, a related state. -/
def Sim {α β : Type} (c : Ctx) (j : ℕ → ℕ → Arg) (R : α → β → Prop) (m : CompM α)
    (m' : CompM β) : Prop :=
  ∀ s s' x code t, StateSim s s' → m c s = .ok (x, code, t) →
    ∃ x' t', m' { c with junk := j } s' = .ok (x', code, t') ∧ ResultSim R x x' ∧ StateSim t t'

namespace Sim

variable {α β γ δ : Type} {c : Ctx} {j : ℕ → ℕ → Arg} {R : α → β → Prop} {Q : γ → δ → Prop}
  {m : CompM α} {m' : CompM β}

theorem bind {f : α → CompM γ} {f' : β → CompM δ} (hm : Sim c j R m m')
    (hf : ∀ a b, R a b → Sim c j Q (f a) (f' b)) : Sim c j Q (m >>= f) (m' >>= f') := by
  intro s s' x code t hs h
  change CompM.bind m f c s = _ at h
  unfold CompM.bind at h
  cases hr : m c s with
  | error e => rw [hr] at h; exact absurd h (by simp)
  | ok r =>
    obtain ⟨y, code₁, s₁⟩ := r
    rw [hr] at h
    obtain ⟨y', s₁', hm', hy, hs₁⟩ := hm s s' y code₁ s₁ hs hr
    change ∃ x' t', CompM.bind m' f' _ s' = _ ∧ _
    unfold CompM.bind
    rw [hm']
    cases y with
    | error e =>
      cases y' with
      | ok b => exact hy.elim
      | error e' =>
        simp only [Except.ok.injEq, Prod.mk.injEq] at h
        obtain ⟨rfl, rfl, rfl⟩ := h
        exact ⟨_, s₁', rfl, hy, hs₁⟩
    | ok a =>
      cases y' with
      | error e' => exact hy.elim
      | ok b =>
        dsimp only at h ⊢
        cases hk : f a c s₁ with
        | error e => rw [hk] at h; exact absurd h (by simp)
        | ok r =>
          obtain ⟨x₂, code₂, t₂⟩ := r
          rw [hk] at h
          simp only [Except.ok.injEq, Prod.mk.injEq] at h
          obtain ⟨rfl, rfl, rfl⟩ := h
          obtain ⟨x', t', hf', hx, ht⟩ := hf a b hy s₁ s₁' _ code₂ _ hs₁ hk
          rw [hf']
          exact ⟨x', t', rfl, hx, ht⟩

theorem pure {a : α} {b : β} (h : R a b) : Sim c j R (Pure.pure a) (Pure.pure b) := by
  intro s s' x code t hs hr
  simp only [Pure.pure, CompM.pure, Except.ok.injEq, Prod.mk.injEq] at hr
  obtain ⟨rfl, rfl, rfl⟩ := hr
  exact ⟨_, s', rfl, h, hs⟩

theorem fail (e : CompileError) : Sim c j R (CompM.fail e) (CompM.fail e) := by
  intro s s' x code t hs hr
  simp only [CompM.fail, Except.ok.injEq, Prod.mk.injEq] at hr
  obtain ⟨rfl, rfl, rfl⟩ := hr
  exact ⟨_, s', rfl, rfl, hs⟩

/-- Nothing is asked of a run that stops. -/
theorem of_stop (h : ∀ s, ∃ e, m c s = .error e) : Sim c j R m m' := by
  intro s s' x code t _ hr
  obtain ⟨e, he⟩ := h s
  rw [he] at hr
  exact absurd hr (by simp)

theorem fault : Sim c j R CompM.fault m' := of_stop fun _ => ⟨_, rfl⟩

theorem outOfFuel : Sim c j R CompM.outOfFuel m' := of_stop fun _ => ⟨_, rfl⟩

theorem emit (code : List Jit) : Sim c j Eq (CompM.emit code) (CompM.emit code) := by
  intro s s' x code' t hs hr
  simp only [CompM.emit, Except.ok.injEq, Prod.mk.injEq] at hr
  obtain ⟨rfl, rfl, rfl⟩ := hr
  exact ⟨_, s', rfl, rfl, hs⟩

theorem ctx : Sim c j (fun x y => x = c ∧ y = { c with junk := j }) CompM.ctx CompM.ctx := by
  intro s s' x code t hs hr
  simp only [CompM.ctx, Except.ok.injEq, Prod.mk.injEq] at hr
  obtain ⟨rfl, rfl, rfl⟩ := hr
  exact ⟨_, s', rfl, ⟨rfl, rfl⟩, hs⟩

theorem ctx_bind {f : Ctx → CompM γ} {f' : Ctx → CompM δ}
    (h : Sim c j Q (f c) (f' { c with junk := j })) :
    Sim c j Q (CompM.ctx >>= f) (CompM.ctx >>= f') := by
  refine bind ctx ?_
  rintro _ _ ⟨rfl, rfl⟩
  exact h

/-- Only the other run reads the context. -/
theorem ctx_right {f' : Ctx → CompM β} (h : Sim c j R m (f' { c with junk := j })) :
    Sim c j R m (CompM.ctx >>= f') := by
  intro s s' x code t hs hr
  obtain ⟨x', t', hf, hx, ht⟩ := h s s' x code t hs hr
  refine ⟨x', t', ?_, hx, ht⟩
  change CompM.bind CompM.ctx f' _ s' = _
  unfold CompM.bind CompM.ctx
  dsimp only
  rw [hf]
  rfl

theorem frame : Sim c j FrameSim CompM.frame CompM.frame := by
  intro s s' x code t hs hr
  simp only [CompM.frame, Except.ok.injEq, Prod.mk.injEq] at hr
  obtain ⟨rfl, rfl, rfl⟩ := hr
  exact ⟨_, s', rfl, hs.frame, hs⟩

theorem setFrame {fr fr' : Frame} (h : FrameSim fr fr') :
    Sim c j Eq (CompM.setFrame fr) (CompM.setFrame fr') := by
  intro s s' x code t hs hr
  simp only [CompM.setFrame, Except.ok.injEq, Prod.mk.injEq] at hr
  obtain ⟨rfl, rfl, rfl⟩ := hr
  exact ⟨_, _, rfl, rfl, hs.heap, hs.labelSkipCount, h, hs.calls⟩

theorem addSp (n : ℤ) : Sim c j Eq (CompM.addSp n) (CompM.addSp n) := by
  intro s s' x code t hs hr
  simp only [CompM.addSp, Except.ok.injEq, Prod.mk.injEq] at hr
  obtain ⟨rfl, rfl, rfl⟩ := hr
  refine ⟨_, _, rfl, rfl, hs.heap, hs.labelSkipCount, ⟨hs.frame.f, ?_, hs.frame.locals, ?_⟩, hs.calls⟩
  · change s.frame.sp + n = s'.frame.sp + n
    rw [hs.frame.sp]
  · exact hs.frame.stackEnd

theorem nextLabel : Sim c j Eq CompM.nextLabel CompM.nextLabel := by
  intro s s' x code t hs hr
  simp only [CompM.nextLabel, Except.ok.injEq, Prod.mk.injEq] at hr
  obtain ⟨rfl, rfl, rfl⟩ := hr
  have hl : s.labelSkipCount + 1 = s'.labelSkipCount + 1 := by rw [hs.labelSkipCount]
  exact ⟨_, _, rfl, hl, hs.heap, hl, hs.frame, hs.calls⟩

theorem nextCall : Sim c j Eq CompM.nextCall CompM.nextCall := by
  intro s s' x code t hs hr
  simp only [CompM.nextCall, Except.ok.injEq, Prod.mk.injEq] at hr
  obtain ⟨rfl, rfl, rfl⟩ := hr
  refine ⟨_, _, rfl, hs.calls, hs.heap, hs.labelSkipCount, hs.frame, ?_⟩
  change s.calls + 1 = s'.calls + 1
  rw [hs.calls]

theorem fetch (g : Heap → Except Stop α) : Sim c j Eq (CompM.fetch g) (CompM.fetch g) := by
  intro s s' x code t hs hr
  unfold CompM.fetch at hr ⊢
  rw [← hs.heap]
  cases hg : g s.heap with
  | error e => rw [hg] at hr; exact absurd hr (by simp)
  | ok a =>
    rw [hg] at hr
    simp only [Except.ok.injEq, Prod.mk.injEq] at hr
    obtain ⟨rfl, rfl, rfl⟩ := hr
    exact ⟨_, s', rfl, rfl, hs⟩

theorem inspect {g : Ctx → Heap → Except Stop (Except CompileError α)}
    (h : ∀ hp, g { c with junk := j } hp = g c hp) :
    Sim c j Eq (CompM.inspect g) (CompM.inspect g) := by
  intro s s' x code t hs hr
  unfold CompM.inspect at hr ⊢
  rw [h, ← hs.heap]
  cases hg : g c s.heap with
  | error e => rw [hg] at hr; exact absurd hr (by simp)
  | ok a =>
    rw [hg] at hr
    simp only [Except.ok.injEq, Prod.mk.injEq] at hr
    obtain ⟨rfl, rfl, rfl⟩ := hr
    refine ⟨_, s', rfl, ?_, hs⟩
    cases a with
    | error e => rfl
    | ok a => rfl

theorem alloc (g : Heap → Except Stop (α × Heap)) : Sim c j Eq (CompM.alloc g) (CompM.alloc g) := by
  intro s s' x code t hs hr
  unfold CompM.alloc at hr ⊢
  rw [← hs.heap]
  cases hg : g s.heap with
  | error e => rw [hg] at hr; exact absurd hr (by simp)
  | ok a =>
    rw [hg] at hr
    simp only [Except.ok.injEq, Prod.mk.injEq] at hr
    obtain ⟨rfl, rfl, rfl⟩ := hr
    exact ⟨_, _, rfl, rfl, rfl, hs.labelSkipCount, hs.frame, hs.calls⟩

/-- A step both runs take with the same result. -/
theorem step {p p' : CompM α} {f : α → CompM γ} {f' : α → CompM δ} (hp : Sim c j Eq p p')
    (hf : ∀ a, Sim c j Q (f a) (f' a)) : Sim c j Q (p >>= f) (p' >>= f') := by
  refine bind hp ?_
  rintro a _ rfl
  exact hf a

theorem tagOf (w : Word) : Sim c j Eq (tagOf w) (tagOf w) := step (fetch _) fun _ => pure rfl

theorem nameOf (w : Word) : Sim c j Eq (nameOf w) (nameOf w) := step (fetch _) fun _ => fetch _

theorem lookup (name : List UInt8) :
    Sim c j Eq (lookupGlobalSymbol name) (lookupGlobalSymbol name) := ctx_bind (pure rfl)

end Sim

end Interim.Compiler
