import Interim.Compiler.Init
import Interim.Reader.Model

/-!
# Compiling a text

What `main` does with a complete input after `init_compiler`: `read_string`
makes the expression, and `compile_for_platform` hands it to `compile_expr` with
an empty frame and `prototype_any` (`sledge/compiler_x86.c`, lines 29–37;
`compiler_x64_hosted.c` has the same lines).
-/

namespace Interim.Compiler

open Writer (ascii)

/-- The static variables `init_compiler` sets up. -/
def Prototypes.ctx (p : Prototypes) (env : List EnvEntry) (junk : ℕ → ℕ → Arg) : Ctx where
  lookup name := env.findIdx? fun e => e.name = name
  entry i := (env[i]?).elim .null EnvEntry.cell
  prototypeNil := p.nil
  prototypeAny := p.any
  prototypeVoid := p.void
  prototypeInt := p.int
  consedTypeError := p.consedTypeError
  junk := junk

/-- `empty_frame`. -/
def emptyFrame : Frame where
  f := none
  sp := 0
  locals := 0
  stackEnd := .null

/-- `compile_expr` about to be called. -/
structure Start where
  ctx : Ctx
  state : CState
  expr : Word

/-- The first input after `init_compiler`; `junk` is what the uninitialised
    arrays of `compile_expr` hold. -/
def readText (junk : ℕ → ℕ → Arg) (text : List UInt8) : Except Stop Start := do
  let (p, h, env) ← initCompiler
  let (expr, h) ← Reader.readString ⟨fun _ => .null, 0, 0⟩ text h
  .ok ⟨p.ctx env junk, ⟨h, 0, emptyFrame, 0⟩, expr⟩

/-- `compile_expr(expr, empty_frame, prototype_any)`. -/
def Start.compile [Port] (n : ℕ) (t : Start) :
    Except Stop (Except CompileError Word × List Jit × CState) :=
  compileExpr n t.expr (.cell t.ctx.prototypeAny) t.ctx t.state

/-- The text is an expression `compile_expr` accepts, and `test` holds of the
    start and the code. -/
def accepts [Port] (junk : ℕ → ℕ → Arg) (n : ℕ) (text : List UInt8)
    (test : Start → List Jit → Bool) : Bool :=
  match readText junk text with
  | .error _ => false
  | .ok t =>
    match t.compile n with
    | .ok (.ok _, code, _) => test t code
    | _ => false

theorem exists_of_accepts [Port] {junk : ℕ → ℕ → Arg} {n : ℕ} {text : List UInt8}
    {test : Start → List Jit → Bool} (h : accepts junk n text test = true) :
    ∃ t ty code s', readText junk text = .ok t ∧
      Emits (compileExpr n t.expr (.cell t.ctx.prototypeAny)) t.ctx t.state ty code s' ∧
      test t code = true := by
  unfold accepts at h
  split at h
  · exact absurd h (by simp)
  · rename_i t ht
    split at h
    · rename_i ty code s' hc
      exact ⟨t, ty, code, s', ht, hc, h⟩
    · exact absurd h (by simp)

/-- Uninitialised memory that holds zeros. -/
def zeroed : ℕ → ℕ → Arg := fun _ _ => ⟨.const, .null, none, 0, none, none⟩

end Interim.Compiler
