import Interim.Compiler.Jit
import Interim.Writer.Model

/-!
# Frames and the compiler's state

The data `compile_expr` works on (`sledge/compiler_new.h`): `Arg`, `Frame`,
the tables of the global environment, and the code emitted so far.

`CompM` is the monad the model of the compiler is written in. A computation
appends emitter calls and changes the heap, the current frame and
`label_skip_count`; it ends with a value, with one of the compiler's own
errors (`return 0` after a message), or with a `Stop` when the C code would
leave the program or follow a wild pointer.

`Emits m ctx s a code s'` says that `m`, started in `s`, succeeds with `a`
after emitting `code`; the simp set of this file takes such a statement about
a composed computation apart into statements about its steps.
-/

namespace Interim.Compiler

open Writer (cellAt car cdr cString elemAt)

/-! ## Arguments and frames (`compiler_new.h`, lines 6–38) -/

/-- `MAXARGS`. -/
abbrev maxArgs : ℕ := 8

/-- `MAXFRAME`. -/
abbrev maxFrame : ℕ := 64

/-- `typedef enum arg_t`. -/
inductive ArgType
  | const
  | env
  | lambda
  | reg
  | regInt
  | stack
  | stackInt
  deriving DecidableEq, Repr

/-- `typedef struct Arg`. A `char*` is the string it points to, `NULL` is
    `none`; `env` is an index into the entries of the environment. -/
structure Arg where
  type : ArgType
  cell : Word
  env : Option ℕ
  slot : ℤ
  name : Option (List UInt8)
  typeName : Option (List UInt8)
  deriving DecidableEq, Repr

/-- `typedef struct Frame`. `f` is `NULL` on global level; the
    `parent_frame` field is never read. -/
structure Frame where
  f : Option (ℕ → Arg)
  sp : ℤ
  locals : ℕ
  stackEnd : Word

/-- The static variables `compile_expr` reads, and the contents of its
    uninitialised arrays: `junk n i` is element `i` of the array that call
    number `n` finds on its stack. -/
structure Ctx where
  lookup : List UInt8 → Option ℕ
  entry : ℕ → Word
  prototypeNil : ℕ
  prototypeAny : ℕ
  prototypeVoid : ℕ
  prototypeInt : ℕ
  consedTypeError : ℕ
  junk : ℕ → ℕ → Arg

/-- The variables `compile_expr` changes: the heap, `label_skip_count`, the
    frame, and the number of calls made so far. -/
structure CState where
  heap : Heap
  labelSkipCount : ℕ
  frame : Frame
  calls : ℕ

/-- The failures of `compile_expr` (`return 0`), one for each message. -/
inductive CompileError
  | noExpr
  | undefinedSymbol (name : List UInt8)
  | nonSymbolOperator
  | undefinedOperator (name : List UInt8)
  | notCallable (name : List UInt8)
  | undefinedArgument (name argName opName : List UInt8)
  | typeMismatch (argName opName : List UInt8) (given expected : ℕ)
  | argumentMissing (argName opName : List UInt8)
  | surplusArguments (opName : List UInt8)
  | letOnGlobalLevel
  | fnWithoutBody
  | missingStructName
  | nonSymbolStructName
  | undefinedStructName (name : List UInt8)
  | notAStructName (name : List UInt8)
  | illegalParameter
  | incompatibleBranches (thenTag elseTag returnTag : ℕ)
  | emptyDo
  | structKeyNotSymbol
  | structValueMissing
  | newNeedsStructDef
  | untypedSget (field : List UInt8)
  | sgetNeedsStruct
  | sgetFieldNotFound (field : List UInt8)
  | sputTypeNotFound (name : List UInt8)
  | untypedSput
  | sputNeedsStruct
  | sputFieldNotFound (field : List UInt8)
  | emptyQuote
  deriving DecidableEq, Repr

/-! ## The monad -/

/-- A part of the compiler. -/
def CompM (α : Type) : Type :=
  Ctx → CState → Except Stop (Except CompileError α × List Jit × CState)

namespace CompM

variable {α β : Type}

protected def pure (a : α) : CompM α := fun _ s => .ok (.ok a, [], s)

protected def bind (m : CompM α) (f : α → CompM β) : CompM β := fun ctx s =>
  match m ctx s with
  | .error e => .error e
  | .ok (.error e, code, s) => .ok (.error e, code, s)
  | .ok (.ok a, code, s) =>
    match f a ctx s with
    | .error e => .error e
    | .ok (r, code', s) => .ok (r, code ++ code', s)

instance : Monad CompM where
  pure := CompM.pure
  bind := CompM.bind

/-- `return 0`. -/
def fail (e : CompileError) : CompM α := fun _ s => .ok (.error e, [], s)

/-- A wild pointer. -/
def fault : CompM α := fun _ _ => .error .fault

/-- The evaluation bound ran out. -/
def outOfFuel : CompM α := fun _ _ => .error .fuel

/-- Call emitters. -/
def emit (code : List Jit) : CompM Unit := fun _ s => .ok (.ok (), code, s)

def ctx : CompM Ctx := fun ctx s => .ok (.ok ctx, [], s)

def frame : CompM Frame := fun _ s => .ok (.ok s.frame, [], s)

def setFrame (fr : Frame) : CompM Unit := fun _ s => .ok (.ok (), [], { s with frame := fr })

/-- `frame->sp += n`. -/
def addSp (n : ℤ) : CompM Unit := fun _ s =>
  .ok (.ok (), [], { s with frame := { s.frame with sp := s.frame.sp + n } })

/-- `++label_skip_count`. -/
def nextLabel : CompM ℕ := fun _ s =>
  .ok (.ok (s.labelSkipCount + 1), [], { s with labelSkipCount := s.labelSkipCount + 1 })

/-- The number of this call of `compile_expr`. -/
def nextCall : CompM ℕ := fun _ s => .ok (.ok s.calls, [], { s with calls := s.calls + 1 })

/-- Read the heap. -/
def fetch (g : Heap → Except Stop α) : CompM α := fun _ s =>
  match g s.heap with
  | .error e => .error e
  | .ok a => .ok (.ok a, [], s)

/-- Look something up in the environment and the heap. -/
def inspect (g : Ctx → Heap → Except Stop (Except CompileError α)) : CompM α := fun c s =>
  match g c s.heap with
  | .error e => .error e
  | .ok r => .ok (r, [], s)

/-- Call an allocating function. -/
def alloc (g : Heap → Except Stop (α × Heap)) : CompM α := fun _ s =>
  match g s.heap with
  | .error e => .error e
  | .ok (a, h) => .ok (.ok a, [], { s with heap := h })

end CompM

open CompM

/-! ## Successful runs -/

/-- `m` succeeds with `a`, having emitted `code`. -/
def Emits {α : Type} (m : CompM α) (ctx : Ctx) (s : CState) (a : α) (code : List Jit)
    (s' : CState) : Prop :=
  m ctx s = .ok (.ok a, code, s')

section Emits

variable {α β : Type} {c : Ctx} {s s' : CState} {a : α} {b : β} {code : List Jit}

@[simp] theorem emits_pure {x : α} :
    Emits (pure x : CompM α) c s a code s' ↔ a = x ∧ code = [] ∧ s' = s := by
  change Except.ok (Except.ok x, ([] : List Jit), s) = Except.ok (Except.ok a, code, s') ↔ _
  simp only [Except.ok.injEq, Prod.mk.injEq]
  constructor
  · rintro ⟨rfl, rfl, rfl⟩; exact ⟨rfl, rfl, rfl⟩
  · rintro ⟨rfl, rfl, rfl⟩; exact ⟨rfl, rfl, rfl⟩

theorem emits_bind {m : CompM α} {f : α → CompM β} :
    Emits (m >>= f) c s b code s' ↔
      ∃ a code₁ s₁ code₂, Emits m c s a code₁ s₁ ∧ Emits (f a) c s₁ b code₂ s' ∧
        code = code₁ ++ code₂ := by
  change CompM.bind m f c s = _ ↔ _
  unfold CompM.bind Emits
  cases hm : m c s with
  | error e => simp
  | ok r =>
    obtain ⟨ra, code₁, s₁⟩ := r
    cases ra with
    | error e => simp
    | ok a =>
      dsimp only
      constructor
      · intro h
        cases hf : f a c s₁ with
        | error e => rw [hf] at h; exact absurd h (by simp)
        | ok r =>
          obtain ⟨rb, code₂, s₂⟩ := r
          rw [hf] at h
          simp only [Except.ok.injEq, Prod.mk.injEq] at h
          obtain ⟨rfl, rfl, rfl⟩ := h
          exact ⟨a, code₁, s₁, code₂, rfl, hf, rfl⟩
      · rintro ⟨a', code₁', s₁', code₂, h₁, h₂, rfl⟩
        simp only [Except.ok.injEq, Prod.mk.injEq] at h₁
        obtain ⟨rfl, rfl, rfl⟩ := h₁
        rw [h₂]

theorem Emits.bind {m : CompM α} {f : α → CompM β} {s₁ : CState} {code₁ code₂ : List Jit}
    (h₁ : Emits m c s a code₁ s₁) (h₂ : Emits (f a) c s₁ b code₂ s') :
    Emits (m >>= f) c s b (code₁ ++ code₂) s' :=
  emits_bind.mpr ⟨a, code₁, s₁, code₂, h₁, h₂, rfl⟩

@[simp] theorem emits_fail {e : CompileError} : ¬ Emits (fail e : CompM α) c s a code s' := by
  simp [Emits, fail]

@[simp] theorem emits_fault : ¬ Emits (fault : CompM α) c s a code s' := by
  simp [Emits, fault]

@[simp] theorem emits_outOfFuel : ¬ Emits (outOfFuel : CompM α) c s a code s' := by
  simp [Emits, outOfFuel]

@[simp] theorem emits_emit {l : List Jit} {u : Unit} :
    Emits (emit l) c s u code s' ↔ code = l ∧ s' = s := by
  simp only [Emits, emit, Except.ok.injEq, Prod.mk.injEq]
  constructor
  · rintro ⟨-, rfl, rfl⟩; exact ⟨rfl, rfl⟩
  · rintro ⟨rfl, rfl⟩; exact ⟨trivial, rfl, rfl⟩

@[simp] theorem emits_ctx {x : Ctx} : Emits ctx c s x code s' ↔ x = c ∧ code = [] ∧ s' = s := by
  simp only [Emits, ctx, Except.ok.injEq, Prod.mk.injEq]
  constructor
  · rintro ⟨rfl, rfl, rfl⟩; exact ⟨rfl, rfl, rfl⟩
  · rintro ⟨rfl, rfl, rfl⟩; exact ⟨rfl, rfl, rfl⟩

@[simp] theorem emits_frame {x : Frame} :
    Emits frame c s x code s' ↔ x = s.frame ∧ code = [] ∧ s' = s := by
  simp only [Emits, frame, Except.ok.injEq, Prod.mk.injEq]
  constructor
  · rintro ⟨rfl, rfl, rfl⟩; exact ⟨rfl, rfl, rfl⟩
  · rintro ⟨rfl, rfl, rfl⟩; exact ⟨rfl, rfl, rfl⟩

@[simp] theorem emits_setFrame {fr : Frame} {u : Unit} :
    Emits (setFrame fr) c s u code s' ↔ code = [] ∧ s' = { s with frame := fr } := by
  simp only [Emits, setFrame, Except.ok.injEq, Prod.mk.injEq]
  constructor
  · rintro ⟨-, rfl, rfl⟩; exact ⟨rfl, rfl⟩
  · rintro ⟨rfl, rfl⟩; exact ⟨trivial, rfl, rfl⟩

@[simp] theorem emits_addSp {n : ℤ} {u : Unit} :
    Emits (addSp n) c s u code s' ↔
      code = [] ∧ s' = { s with frame := { s.frame with sp := s.frame.sp + n } } := by
  simp only [Emits, addSp, Except.ok.injEq, Prod.mk.injEq]
  constructor
  · rintro ⟨-, rfl, rfl⟩; exact ⟨rfl, rfl⟩
  · rintro ⟨rfl, rfl⟩; exact ⟨trivial, rfl, rfl⟩

@[simp] theorem emits_nextLabel {n : ℕ} :
    Emits nextLabel c s n code s' ↔ n = s.labelSkipCount + 1 ∧ code = [] ∧
      s' = { s with labelSkipCount := s.labelSkipCount + 1 } := by
  simp only [Emits, nextLabel, Except.ok.injEq, Prod.mk.injEq]
  constructor
  · rintro ⟨rfl, rfl, rfl⟩; exact ⟨rfl, rfl, rfl⟩
  · rintro ⟨rfl, rfl, rfl⟩; exact ⟨rfl, rfl, rfl⟩

@[simp] theorem emits_nextCall {n : ℕ} :
    Emits nextCall c s n code s' ↔ n = s.calls ∧ code = [] ∧
      s' = { s with calls := s.calls + 1 } := by
  simp only [Emits, nextCall, Except.ok.injEq, Prod.mk.injEq]
  constructor
  · rintro ⟨rfl, rfl, rfl⟩; exact ⟨rfl, rfl, rfl⟩
  · rintro ⟨rfl, rfl, rfl⟩; exact ⟨rfl, rfl, rfl⟩

@[simp] theorem emits_fetch {g : Heap → Except Stop α} :
    Emits (fetch g) c s a code s' ↔ g s.heap = .ok a ∧ code = [] ∧ s' = s := by
  unfold Emits fetch
  cases hg : g s.heap with
  | error e => simp
  | ok x =>
    simp only [Except.ok.injEq, Prod.mk.injEq]
    constructor
    · rintro ⟨rfl, rfl, rfl⟩; exact ⟨rfl, rfl, rfl⟩
    · rintro ⟨rfl, rfl, rfl⟩; exact ⟨rfl, rfl, rfl⟩

@[simp] theorem emits_inspect {g : Ctx → Heap → Except Stop (Except CompileError α)} :
    Emits (inspect g) c s a code s' ↔ g c s.heap = .ok (.ok a) ∧ code = [] ∧ s' = s := by
  unfold Emits inspect
  cases hg : g c s.heap with
  | error e => simp
  | ok x =>
    simp only [Except.ok.injEq, Prod.mk.injEq]
    constructor
    · rintro ⟨rfl, rfl, rfl⟩; exact ⟨rfl, rfl, rfl⟩
    · rintro ⟨rfl, rfl, rfl⟩; exact ⟨rfl, rfl, rfl⟩

@[simp] theorem emits_alloc {g : Heap → Except Stop (α × Heap)} :
    Emits (alloc g) c s a code s' ↔
      ∃ h, g s.heap = .ok (a, h) ∧ code = [] ∧ s' = { s with heap := h } := by
  unfold Emits alloc
  cases hg : g s.heap with
  | error e => simp
  | ok x =>
    obtain ⟨x, h⟩ := x
    simp only [Except.ok.injEq, Prod.mk.injEq]
    constructor
    · rintro ⟨rfl, rfl, rfl⟩; exact ⟨h, ⟨rfl, rfl⟩, rfl, rfl⟩
    · rintro ⟨h', ⟨rfl, rfl⟩, rfl, rfl⟩; exact ⟨rfl, rfl, rfl⟩

/-! A step that is not a recursive call, followed by the rest. -/

variable {f : α → CompM β}

theorem emits_pure_bind {x : α} : Emits (pure x >>= f) c s b code s' ↔ Emits (f x) c s b code s' := by
  rw [emits_bind]
  constructor
  · rintro ⟨a, code₁, s₁, code₂, h₁, h₂, rfl⟩
    obtain ⟨rfl, rfl, rfl⟩ := emits_pure.mp h₁
    exact h₂
  · intro h
    exact ⟨x, [], s, code, emits_pure.mpr ⟨rfl, rfl, rfl⟩, h, rfl⟩

theorem emits_fetch_bind {g : Heap → Except Stop α} :
    Emits (fetch g >>= f) c s b code s' ↔ ∃ a, g s.heap = .ok a ∧ Emits (f a) c s b code s' := by
  rw [emits_bind]
  constructor
  · rintro ⟨a, code₁, s₁, code₂, h₁, h₂, rfl⟩
    obtain ⟨ha, rfl, rfl⟩ := emits_fetch.mp h₁
    exact ⟨a, ha, h₂⟩
  · rintro ⟨a, ha, h⟩
    exact ⟨a, [], s, code, emits_fetch.mpr ⟨ha, rfl, rfl⟩, h, rfl⟩

theorem emits_inspect_bind {g : Ctx → Heap → Except Stop (Except CompileError α)} :
    Emits (inspect g >>= f) c s b code s' ↔
      ∃ a, g c s.heap = .ok (.ok a) ∧ Emits (f a) c s b code s' := by
  rw [emits_bind]
  constructor
  · rintro ⟨a, code₁, s₁, code₂, h₁, h₂, rfl⟩
    obtain ⟨ha, rfl, rfl⟩ := emits_inspect.mp h₁
    exact ⟨a, ha, h₂⟩
  · rintro ⟨a, ha, h⟩
    exact ⟨a, [], s, code, emits_inspect.mpr ⟨ha, rfl, rfl⟩, h, rfl⟩

theorem emits_alloc_bind {g : Heap → Except Stop (α × Heap)} :
    Emits (alloc g >>= f) c s b code s' ↔
      ∃ a h, g s.heap = .ok (a, h) ∧ Emits (f a) c { s with heap := h } b code s' := by
  rw [emits_bind]
  constructor
  · rintro ⟨a, code₁, s₁, code₂, h₁, h₂, rfl⟩
    obtain ⟨h, ha, rfl, rfl⟩ := emits_alloc.mp h₁
    exact ⟨a, h, ha, h₂⟩
  · rintro ⟨a, h, ha, h₂⟩
    exact ⟨a, [], _, code, emits_alloc.mpr ⟨h, ha, rfl, rfl⟩, h₂, rfl⟩

theorem emits_ctx_bind {f : Ctx → CompM β} :
    Emits (ctx >>= f) c s b code s' ↔ Emits (f c) c s b code s' := by
  rw [emits_bind]
  constructor
  · rintro ⟨a, code₁, s₁, code₂, h₁, h₂, rfl⟩
    obtain ⟨rfl, rfl, rfl⟩ := emits_ctx.mp h₁
    exact h₂
  · intro h
    exact ⟨c, [], s, code, emits_ctx.mpr ⟨rfl, rfl, rfl⟩, h, rfl⟩

theorem emits_frame_bind {f : Frame → CompM β} :
    Emits (frame >>= f) c s b code s' ↔ Emits (f s.frame) c s b code s' := by
  rw [emits_bind]
  constructor
  · rintro ⟨a, code₁, s₁, code₂, h₁, h₂, rfl⟩
    obtain ⟨rfl, rfl, rfl⟩ := emits_frame.mp h₁
    exact h₂
  · intro h
    exact ⟨_, [], s, code, emits_frame.mpr ⟨rfl, rfl, rfl⟩, h, rfl⟩

theorem emits_setFrame_bind {fr : Frame} {f : Unit → CompM β} :
    Emits (setFrame fr >>= f) c s b code s' ↔ Emits (f ()) c { s with frame := fr } b code s' := by
  rw [emits_bind]
  constructor
  · rintro ⟨a, code₁, s₁, code₂, h₁, h₂, rfl⟩
    obtain ⟨rfl, rfl⟩ := emits_setFrame.mp h₁
    exact h₂
  · intro h
    exact ⟨(), [], _, code, emits_setFrame.mpr ⟨rfl, rfl⟩, h, rfl⟩

theorem emits_addSp_bind {n : ℤ} {f : Unit → CompM β} :
    Emits (addSp n >>= f) c s b code s' ↔
      Emits (f ()) c { s with frame := { s.frame with sp := s.frame.sp + n } } b code s' := by
  rw [emits_bind]
  constructor
  · rintro ⟨a, code₁, s₁, code₂, h₁, h₂, rfl⟩
    obtain ⟨rfl, rfl⟩ := emits_addSp.mp h₁
    exact h₂
  · intro h
    exact ⟨(), [], _, code, emits_addSp.mpr ⟨rfl, rfl⟩, h, rfl⟩

theorem emits_nextLabel_bind {f : ℕ → CompM β} :
    Emits (nextLabel >>= f) c s b code s' ↔ Emits (f (s.labelSkipCount + 1)) c
      { s with labelSkipCount := s.labelSkipCount + 1 } b code s' := by
  rw [emits_bind]
  constructor
  · rintro ⟨a, code₁, s₁, code₂, h₁, h₂, rfl⟩
    obtain ⟨rfl, rfl, rfl⟩ := emits_nextLabel.mp h₁
    exact h₂
  · intro h
    exact ⟨_, [], _, code, emits_nextLabel.mpr ⟨rfl, rfl, rfl⟩, h, rfl⟩

theorem emits_nextCall_bind {f : ℕ → CompM β} :
    Emits (nextCall >>= f) c s b code s' ↔
      Emits (f s.calls) c { s with calls := s.calls + 1 } b code s' := by
  rw [emits_bind]
  constructor
  · rintro ⟨a, code₁, s₁, code₂, h₁, h₂, rfl⟩
    obtain ⟨rfl, rfl, rfl⟩ := emits_nextCall.mp h₁
    exact h₂
  · intro h
    exact ⟨_, [], _, code, emits_nextCall.mpr ⟨rfl, rfl, rfl⟩, h, rfl⟩

theorem emits_emit_bind {l : List Jit} {f : Unit → CompM β} :
    Emits (emit l >>= f) c s b code s' ↔ ∃ rest, Emits (f ()) c s b rest s' ∧ code = l ++ rest := by
  rw [emits_bind]
  constructor
  · rintro ⟨a, code₁, s₁, code₂, h₁, h₂, rfl⟩
    obtain ⟨rfl, rfl⟩ := emits_emit.mp h₁
    exact ⟨code₂, h₂, rfl⟩
  · rintro ⟨rest, h, rfl⟩
    exact ⟨(), l, s, rest, emits_emit.mpr ⟨rfl, rfl⟩, h, rfl⟩

end Emits

end Interim.Compiler
