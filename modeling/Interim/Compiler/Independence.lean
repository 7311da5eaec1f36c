import Interim.Compiler.Unwritten
import Interim.Compiler.Session

/-!
# Uninitialised memory

`compile_expr` does the same whatever its `argdefs` arrays hold at first, if
every form it gets to reads only fields its argument loop has written
(`compile_independent`). `(while 0)` is a form that does not: the array of that
call has one written element, and `BUILTIN_WHILE` compiles the `cell` of the
second (`compile_dependent_while`).

Each part of `compile_expr` is simulated by itself on other contents of the
arrays, if its recursive calls are.
-/

namespace Interim.Compiler

open Writer (cellAt car cdr cString elemAt ascii)
open CompM

/-! ## Reading frames and elements -/

section Reading

variable {g r : Frame} {d d' : Arg}

/-- Both frames are on global level, or both in a function. -/
theorem FrameSim.levels (h : FrameSim g r) : g.f = none ∧ r.f = none ∨
    ∃ f f', g.f = some f ∧ r.f = some f' ∧ ∀ i, EntrySim (f i) (f' i) := by
  have hf := h.f
  cases hg : g.f <;> cases hr : r.f <;> rw [hg, hr] at hf
  · exact Or.inl ⟨rfl, rfl⟩
  · exact absurd hf (by rintro ⟨⟩)
  · exact absurd hf (by rintro ⟨⟩)
  · cases hf with
    | some hf => exact Or.inr ⟨_, _, rfl, rfl, hf⟩

theorem FrameSim.getSymFrameIdx (h : FrameSim g r) (name : List UInt8) (ignoreRegs : Bool) :
    getSymFrameIdx name g.f ignoreRegs = getSymFrameIdx name r.f ignoreRegs := by
  obtain ⟨hg, hr⟩ | ⟨f, f', hg, hr, hf⟩ := h.levels
  · rw [hg, hr]
  · have hname : ∀ i, (f i).name = (f' i).name := fun i => (hf i).name
    have htype : ∀ i, (f i).type = (f' i).type := fun i => (hf i).type
    simp only [hg, hr, Compiler.getSymFrameIdx, hname, htype]

theorem FrameSim.frameRegs (h : FrameSim g r) : frameRegs g.f = frameRegs r.f := by
  obtain ⟨hg, hr⟩ | ⟨f, f', hg, hr, hf⟩ := h.levels
  · rw [hg, hr]
  · have htype : ∀ i, (f i).type = (f' i).type := fun i => (hf i).type
    simp only [hg, hr, Compiler.frameRegs, htype]

theorem FrameSim.pushFrameRegs (h : FrameSim g r) : pushFrameRegs g.f = pushFrameRegs r.f := by
  rw [Compiler.pushFrameRegs, Compiler.pushFrameRegs, h.frameRegs]

theorem FrameSim.popFrameRegs (h : FrameSim g r) : popFrameRegs g.f = popFrameRegs r.f := by
  rw [Compiler.popFrameRegs, Compiler.popFrameRegs, h.frameRegs]

/-- The entry a name is bound to. -/
theorem FrameSim.entry (h : FrameSim g r) (name : List UInt8) (ignoreRegs : Bool) :
    Option.Rel EntrySim
      ((Compiler.getSymFrameIdx name g.f ignoreRegs).bind fun i => g.f.map fun f => f i)
      ((Compiler.getSymFrameIdx name r.f ignoreRegs).bind fun i => r.f.map fun f => f i) := by
  rw [h.getSymFrameIdx]
  cases Compiler.getSymFrameIdx name r.f ignoreRegs with
  | none => exact .none
  | some i =>
    obtain ⟨hg, hr⟩ | ⟨f, f', hg, hr, hf⟩ := h.levels
    · rw [hg, hr]
      exact .none
    · rw [hg, hr]
      exact .some (hf i)

theorem ArgSim.type_eq (h : ArgSim d d') (hl : d.loadable = true) : d.type = d'.type := by
  rcases h.type with ht | ⟨ht, hc⟩
  · exact ht
  · rw [Arg.loadable, ht] at hl
    exact absurd hc (of_decide_eq_true hl)

theorem ArgSim.cell_eq (h : ArgSim d d') (hc : d.cell ≠ .undef) : d.cell = d'.cell :=
  h.cell.resolve_left hc

theorem ArgSim.env_eq (h : ArgSim d d') (he : d.env.isSome = true) : d.env = d'.env := by
  refine h.env.resolve_left fun hn => ?_
  rw [hn] at he
  exact absurd he (by simp)

theorem ArgSim.slot_eq (h : ArgSim d d') (hs : d.slot ≠ Compiler.unwritten.slot) :
    d.slot = d'.slot :=
  h.slot.resolve_left hs

end Reading

namespace Sim

variable {α β : Type} {c : Ctx} {j : ℕ → ℕ → Arg} {d d' : Arg}

/-! ## Loading -/

theorem loadInt_same [Port] (dreg : ℕ) (d : Arg) :
    Sim c j Eq (loadInt dreg d) (loadInt dreg d) := by
  unfold Compiler.loadInt
  cases d.type <;> dsimp only
  case const => exact step (fetch _) fun _ => emit _
  case stack | stackInt =>
    refine bind frame fun fr fr' hfr => ?_
    rw [hfr.sp]
    exact emit _
  all_goals exact emit _

theorem loadCell_same [Port] (dreg : ℕ) (d : Arg) :
    Sim c j Eq (loadCell dreg d) (loadCell dreg d) := by
  unfold Compiler.loadCell
  cases d.type <;> dsimp only
  case stack | stackInt =>
    refine bind frame fun fr fr' hfr => ?_
    rw [hfr.sp]
    exact emit _
  all_goals exact emit _

theorem loadInt [Port] (dreg : ℕ) (h : ArgSim d d') (hl : d.loadable = true) :
    Sim c j Eq (loadInt dreg d) (loadInt dreg d') := by
  have hsame : Compiler.loadInt dreg d' = Compiler.loadInt dreg d := by
    unfold Compiler.loadInt
    rw [← h.type_eq hl]
    unfold Arg.loadable at hl
    cases hd : d.type <;> rw [hd] at hl <;> dsimp only
    case const => rw [h.cell_eq (of_decide_eq_true hl)]
    case env => rw [h.env_eq hl]
    all_goals rw [h.slot_eq (of_decide_eq_true hl)]
  rw [hsame]
  exact loadInt_same dreg d

theorem loadCell [Port] (dreg : ℕ) (h : ArgSim d d') (hl : d.loadable = true) :
    Sim c j Eq (loadCell dreg d) (loadCell dreg d') := by
  have hsame : Compiler.loadCell dreg d' = Compiler.loadCell dreg d := by
    unfold Compiler.loadCell
    rw [← h.type_eq hl]
    unfold Arg.loadable at hl
    cases hd : d.type <;> rw [hd] at hl <;> dsimp only
    case const => rw [h.cell_eq (of_decide_eq_true hl)]
    case env => rw [h.env_eq hl]
    all_goals rw [h.slot_eq (of_decide_eq_true hl)]
  rw [hsame]
  exact loadCell_same dreg d

/-- A symbol in the frame. -/
theorem loadEntry [Port] (dreg : ℕ) (h : EntrySim d d') :
    Sim c j Eq (Compiler.loadCell dreg d) (Compiler.loadCell dreg d') := by
  have hsame : Compiler.loadCell dreg d' = Compiler.loadCell dreg d := by
    unfold Compiler.loadCell
    rw [h.type, h.cell, h.env, h.slot]
  rw [hsame]
  exact loadCell_same dreg d

theorem setFrameEntry {i i' : ℕ} (hi : i = i') (h : EntrySim d d') :
    Sim c j Eq (setFrameEntry i d) (setFrameEntry i' d') := by
  subst hi
  refine bind frame fun fr fr' hfr => ?_
  obtain ⟨hg, hr⟩ | ⟨f, f', hg, hr, hf⟩ := hfr.levels
  · rw [hg]
    exact fault
  · rw [hg, hr]
    dsimp only
    split
    · refine setFrame ⟨.some fun k => ?_, hfr.sp, hfr.locals, hfr.stackEnd⟩
      by_cases hk : k = i
      · subst hk
        rw [Function.update_self, Function.update_self]
        exact h
      · rw [Function.update_of_ne hk, Function.update_of_ne hk]
        exact hf k
    · exact fault

/-- `env->cell` of a written `env`. -/
theorem envCell (he : d.env = d'.env) : Sim c j Eq (envCell d) (envCell d') := by
  refine ctx_bind ?_
  rw [← he]
  cases d.env with
  | none => exact fault
  | some e => exact pure rfl

/-! ## The argument loop -/

/-- The recursive calls of the two runs. -/
def RecSim (c : Ctx) (j : ℕ → ℕ → Arg) (rec rec' : Rec) : Prop :=
  ∀ expr returnType, Sim c j Eq (rec expr returnType) (rec' expr returnType)

variable {rec rec' : Rec} {a a' : Args}

theorem namedArg (argi : ℕ) (sig : Word) : Sim c j Eq (namedArg argi sig) (namedArg argi sig) := by
  unfold Compiler.namedArg
  split
  · exact pure rfl
  · refine step (fetch _) fun c => ?_
    split
    · exact step (fetch _) fun _ => step (fetch _) fun _ => pure rfl
    · exact pure rfl

/-- The first argument of `let` is written when the second is looked at. -/
theorem letSignature (h : ArgsSim a a') (givenTag : ℕ) :
    Sim c j Eq (letSignature a givenTag) (letSignature a' givenTag) := by
  unfold Compiler.letSignature
  by_cases hc : (a.defs 0).cell = .undef
  · rw [hc]
    exact of_stop fun _ => ⟨_, rfl⟩
  · rw [← (h.defs 0).cell_eq hc]
    refine step (nameOf _) fun name => bind frame fun fr fr' hfr => ctx_bind ?_
    have hint : (Compiler.getSymFrameIdx name fr.f true).bind
          (fun i => fr.f.map fun f => (f i).type) =
        (Compiler.getSymFrameIdx name fr'.f true).bind fun i => fr'.f.map fun f => (f i).type := by
      rw [hfr.getSymFrameIdx]
      obtain ⟨hg, hr⟩ | ⟨f, f', hg, hr, hf⟩ := hfr.levels
      · rw [hg, hr]
      · have htype : ∀ i, (f i).type = (f' i).type := fun i => (hf i).type
        simp only [hg, hr, Option.map_some, htype]
    dsimp only
    rw [hint]
    split
    · exact pure rfl
    · exact pure rfl

theorem argSignature (isLet : Bool) (arg sig : Word) (h : ArgsSim a a') :
    Sim c j Eq (argSignature isLet arg sig a) (argSignature isLet arg sig a') := by
  unfold Compiler.argSignature
  rw [h.argi]
  split
  · exact step (tagOf _) fun _ => letSignature h _
  · exact pure rfl

theorem structTypeName (ty : Cell) {old old' : Option (List UInt8)}
    (h : old = unwritten.typeName ∨ old = old') :
    Sim c j (fun n n' => n = unwritten.typeName ∨ n = n') (structTypeName ty old)
      (structTypeName ty old') := by
  unfold Compiler.structTypeName
  split
  · exact step (fetch _) fun _ => step (fetch _) fun _ => step (fetch _) fun _ =>
      step (nameOf _) fun _ => pure (Or.inr rfl)
  · exact pure h

theorem eagerArg (hrec : RecSim c j rec rec') (arg sig : Word) (h : ArgsSim a a') :
    Sim c j ArgsSim (eagerArg rec arg sig a) (eagerArg rec' arg sig a') := by
  unfold Compiler.eagerArg
  refine bind (hrec arg sig) ?_
  rintro consType _ rfl
  refine step (fetch _) fun ty => step (addSp 1) fun _ => bind frame fun fr fr' hfr => ?_
  have hold := h.defs a.argi
  rw [← h.argi]
  refine bind (structTypeName ty hold.typeName) fun n n' hn => step (emit _) fun _ => pure ?_
  have hd : ArgSim
      { a.defs a.argi with
        cell := .null
        slot := fr.sp
        type := if ty.tag = tagInt then .stackInt else .stack
        typeName := n }
      { a'.defs a.argi with
        cell := .null
        slot := fr'.sp
        type := if ty.tag = tagInt then .stackInt else .stack
        typeName := n' } := ⟨Or.inl rfl, Or.inr rfl, hold.env, Or.inr hfr.sp, hn⟩
  have hset := h.set hd
  refine ⟨hset.argi, hset.defs, ?_⟩
  change a.pushed + 1 = a'.pushed + 1
  rw [h.pushed]

theorem symbolArg (arg : Cell) (argName opName : List UInt8) (h : ArgsSim a a') :
    Sim c j ArgsSim (symbolArg arg argName opName a) (symbolArg arg argName opName a') := by
  unfold Compiler.symbolArg
  refine step (fetch _) fun name => bind frame fun fr fr' hfr => ?_
  have he := hfr.entry name false
  cases hg : (Compiler.getSymFrameIdx name fr.f false).bind (fun i => fr.f.map fun f => f i) <;>
    cases hr : (Compiler.getSymFrameIdx name fr'.f false).bind (fun i => fr'.f.map fun f => f i) <;>
    rw [hg, hr] at he
  · refine step (lookup _) fun e => ?_
    cases e with
    | none => exact fail _
    | some e =>
      have hold := h.defs a.argi
      refine pure (h.set ?_)
      rw [← h.argi]
      exact ⟨Or.inl rfl, hold.cell, Or.inr rfl, hold.slot, hold.typeName⟩
  · exact absurd he (by rintro ⟨⟩)
  · exact absurd he (by rintro ⟨⟩)
  · cases he with
    | some he => exact pure (h.set he.argSim)

theorem givenArg (hrec : RecSim c j rec rec') (opName argName : List UInt8) (arg sig : Word)
    (anyNumber : Bool) (h : ArgsSim a a') :
    Sim c j ArgsSim (givenArg rec opName argName arg sig anyNumber a)
      (givenArg rec' opName argName arg sig anyNumber a') := by
  unfold Compiler.givenArg
  have hold := h.defs a.argi
  refine step (fetch _) fun x => ?_
  split
  · refine pure (h.set ?_)
    rw [← h.argi]
    exact ⟨Or.inl rfl, Or.inr rfl, hold.env, hold.slot, hold.typeName⟩
  · refine step (tagOf _) fun sigTag => ?_
    split
    · refine pure (h.set ?_)
      rw [← h.argi]
      exact ⟨Or.inl rfl, Or.inr rfl, hold.env, hold.slot, hold.typeName⟩
    · split
      · exact eagerArg hrec arg sig h
      · split
        · exact symbolArg x argName opName h
        · split
          · refine pure (h.set ?_)
            rw [← h.argi]
            exact ⟨Or.inl rfl, Or.inr rfl, hold.env, Or.inr rfl, hold.typeName⟩
          · exact fail _

theorem prepareArg (hrec : RecSim c j rec rec') (isLet : Bool) (opName : List UInt8)
    (args signatureArgs : Word) (h : ArgsSim a a') :
    Sim c j ArgsSim (prepareArg rec isLet opName args signatureArgs a)
      (prepareArg rec' isLet opName args signatureArgs a') := by
  unfold Compiler.prepareArg
  refine step (fetch _) fun arg => step (fetch _) fun sig => ?_
  rw [h.argi]
  refine step (namedArg _ _) fun named => ?_
  obtain ⟨argName, sig⟩ := named
  dsimp only
  split
  · exact step (argSignature isLet arg sig h) fun sig => givenArg hrec _ _ _ _ _ h
  · split
    · exact fail _
    · split
      · exact fail _
      · exact pure h

theorem argLoop (hrec : RecSim c j rec rec') (isLet : Bool) (opName : List UInt8) (k : ℕ) :
    ∀ (args signatureArgs : Word) {a a' : Args}, ArgsSim a a' →
      Sim c j ArgsSim (argLoop rec isLet opName k args signatureArgs a)
        (argLoop rec' isLet opName k args signatureArgs a') := by
  induction k with
  | zero => exact fun _ _ _ _ h => pure h
  | succ k ih =>
    intro args signatureArgs a a' h
    unfold Compiler.argLoop
    refine bind (prepareArg hrec isLet opName args signatureArgs h) fun b b' hb => ?_
    have hnext : ArgsSim { b with argi := b.argi + 1 } { b' with argi := b'.argi + 1 } :=
      ⟨by rw [hb.argi], hb.defs, hb.pushed⟩
    dsimp only
    split
    · exact pure hnext
    · refine step (fetch _) fun args => ?_
      split
      · exact pure hnext
      · split
        · exact ih _ _ hnext
        · refine step (fetch _) fun signatureArgs => ?_
          split
          · exact pure hnext
          · exact ih _ _ hnext

/-! ## Integers, definitions and calls of C functions -/

variable {g r : ℕ → Arg}

theorem anyResult : Sim c j Eq (CompM.ctx >>= fun x => Pure.pure (Word.cell x.prototypeAny))
    (CompM.ctx >>= fun x => Pure.pure (Word.cell x.prototypeAny)) := ctx_bind (pure rfl)

/-- `emit` followed by `prototype_any`. -/
theorem emitAny (code : List Jit) :
    Sim c j Eq (CompM.emit code >>= fun _ => CompM.ctx >>= fun x =>
        Pure.pure (Word.cell x.prototypeAny))
      (CompM.emit code >>= fun _ => CompM.ctx >>= fun x => Pure.pure (Word.cell x.prototypeAny)) :=
  step (emit _) fun _ => anyResult

theorem intResult [Port] (returnType : Word) :
    Sim c j Eq (intResult returnType) (intResult returnType) := by
  refine ctx_bind (step (tagOf _) fun tag => ?_)
  split
  · exact step (emit _) fun _ => pure rfl
  · exact step (emit _) fun _ => pure rfl

theorem compileArith [Port] (op : ℕ → ℕ → Jit) (returnType : Word)
    (h : ∀ i, ArgSim (g i) (r i)) (h0 : (g 0).loadable = true) (h1 : (g 1).loadable = true) :
    Sim c j Eq (compileArith op returnType g) (compileArith op returnType r) :=
  step (loadInt _ (h 0) h0) fun _ => step (loadInt _ (h 1) h1) fun _ => step (emit _) fun _ =>
    intResult _

theorem compileBitnot [Port] (returnType : Word) (h : ∀ i, ArgSim (g i) (r i))
    (h0 : (g 0).loadable = true) :
    Sim c j Eq (compileBitnot returnType g) (compileBitnot returnType r) :=
  step (loadInt _ (h 0) h0) fun _ => step (emit _) fun _ => intResult _

theorem compileGt [Port] (returnType : Word) (h : ∀ i, ArgSim (g i) (r i))
    (h0 : (g 0).loadable = true) (h1 : (g 1).loadable = true) :
    Sim c j Eq (compileGt returnType g) (compileGt returnType r) :=
  step (loadInt _ (h 0) h0) fun _ => step (loadInt _ (h 1) h1) fun _ => step (emit _) fun _ =>
    intResult _

theorem compileLt [Port] (returnType : Word) (h : ∀ i, ArgSim (g i) (r i))
    (h0 : (g 0).loadable = true) (h1 : (g 1).loadable = true) :
    Sim c j Eq (compileLt returnType g) (compileLt returnType r) :=
  step (loadInt _ (h 0) h0) fun _ => step (loadInt _ (h 1) h1) fun _ => step (emit _) fun _ =>
    intResult _

theorem compileEq [Port] (returnType : Word) (h : ∀ i, ArgSim (g i) (r i))
    (h0 : (g 0).loadable = true) (h1 : (g 1).loadable = true) :
    Sim c j Eq (compileEq returnType g) (compileEq returnType r) := by
  refine step (loadInt _ (h 0) h0) fun _ => step (loadInt _ (h 1) h1) fun _ =>
    step (emit _) fun _ => ctx_bind (step (tagOf _) fun tag => ?_)
  split
  · exact step (emit _) fun _ => pure rfl
  · exact pure rfl

/-- Code between `push_frame_regs` and `pop_frame_regs`, then `prototype_any`. -/
theorem savedRegsAny (mid : List Jit) :
    Sim c j Eq
      (CompM.frame >>= fun fr => CompM.emit (pushFrameRegs fr.f ++ mid ++ popFrameRegs fr.f) >>=
        fun _ => CompM.ctx >>= fun x => Pure.pure (Word.cell x.prototypeAny))
      (CompM.frame >>= fun fr => CompM.emit (pushFrameRegs fr.f ++ mid ++ popFrameRegs fr.f) >>=
        fun _ => CompM.ctx >>= fun x => Pure.pure (Word.cell x.prototypeAny)) := by
  refine bind frame fun fr fr' hfr => ?_
  rw [hfr.pushFrameRegs, hfr.popFrameRegs]
  exact emitAny _

theorem compileDef [Port] (h : ∀ i, ArgSim (g i) (r i)) (h0 : (g 0).cell ≠ .undef)
    (h1 : (g 1).loadable = true) : Sim c j Eq (compileDef g) (compileDef r) := by
  unfold Compiler.compileDef
  rw [← (h 0).cell_eq h0]
  exact step (emit _) fun _ => step (loadCell _ (h 1) h1) fun _ => savedRegsAny _

theorem compileCar [Port] (h : ∀ i, ArgSim (g i) (r i)) (h0 : (g 0).loadable = true) :
    Sim c j Eq (compileCar g) (compileCar r) :=
  ctx_bind (step (loadCell _ (h 0) h0) fun _ => step (emit _) fun _ => pure rfl)

theorem compileCdr [Port] (h : ∀ i, ArgSim (g i) (r i)) (h0 : (g 0).loadable = true) :
    Sim c j Eq (compileCdr g) (compileCdr r) :=
  ctx_bind (step (loadCell _ (h 0) h0) fun _ => step (emit _) fun _ => pure rfl)

theorem compileCall1 [Port] (call : Jit) (h : ∀ i, ArgSim (g i) (r i))
    (h0 : (g 0).loadable = true) : Sim c j Eq (compileCall1 call g) (compileCall1 call r) :=
  step (loadCell _ (h 0) h0) fun _ => emitAny _

theorem compileCall2 [Port] (call : Jit) (h : ∀ i, ArgSim (g i) (r i))
    (h0 : (g 0).loadable = true) (h1 : (g 1).loadable = true) :
    Sim c j Eq (compileCall2 call g) (compileCall2 call r) :=
  step (loadCell _ (h 0) h0) fun _ => step (loadCell _ (h 1) h1) fun _ => emitAny _

theorem compileSavedCall1 [Port] (f : CFun) (h : ∀ i, ArgSim (g i) (r i))
    (h0 : (g 0).loadable = true) : Sim c j Eq (compileSavedCall1 f g) (compileSavedCall1 f r) :=
  step (loadCell _ (h 0) h0) fun _ => savedRegsAny _

theorem compileSend [Port] (h : ∀ i, ArgSim (g i) (r i)) (h0 : (g 0).loadable = true)
    (h1 : (g 1).loadable = true) : Sim c j Eq (compileSend g) (compileSend r) :=
  step (loadCell _ (h 0) h0) fun _ => step (loadCell _ (h 1) h1) fun _ => savedRegsAny _

theorem compileIntCall [Port] (f : CFun) (h : ∀ i, ArgSim (g i) (r i))
    (h0 : (g 0).loadable = true) : Sim c j Eq (compileIntCall f g) (compileIntCall f r) :=
  step (loadInt _ (h 0) h0) fun _ => emitAny _

theorem compileSubstr [Port] (h : ∀ i, ArgSim (g i) (r i)) (h0 : (g 0).loadable = true)
    (h1 : (g 1).loadable = true) (h2 : (g 2).loadable = true) :
    Sim c j Eq (compileSubstr g) (compileSubstr r) :=
  step (loadCell _ (h 0) h0) fun _ => step (loadInt _ (h 1) h1) fun _ =>
    step (loadInt _ (h 2) h2) fun _ => emitAny _

theorem compileGet [Port] (load : Jit) (returnType : Word) (h : ∀ i, ArgSim (g i) (r i))
    (h0 : (g 0).loadable = true) (h1 : (g 1).loadable = true) :
    Sim c j Eq (compileGet load returnType g) (compileGet load returnType r) :=
  step nextLabel fun _ => step (loadCell _ (h 0) h0) fun _ => step (loadInt _ (h 1) h1) fun _ =>
    step (emit _) fun _ => step (emit _) fun _ => step (emit _) fun _ => intResult _

theorem compilePut [Port] (store : Jit) (h : ∀ i, ArgSim (g i) (r i))
    (h0 : (g 0).loadable = true) (h1 : (g 1).loadable = true) (h2 : (g 2).loadable = true) :
    Sim c j Eq (compilePut store g) (compilePut store r) :=
  step nextLabel fun _ => step (loadCell _ (h 0) h0) fun _ => step (loadInt _ (h 1) h1) fun _ =>
    step (loadInt _ (h 2) h2) fun _ => step (emit _) fun _ => emitAny _

theorem compileGet32 [Port] (h : ∀ i, ArgSim (g i) (r i)) (h0 : (g 0).loadable = true)
    (h1 : (g 1).loadable = true) : Sim c j Eq (compileGet32 g) (compileGet32 r) :=
  step (loadInt _ (h 1) h1) fun _ => step (loadCell _ (h 0) h0) fun _ => emitAny _

theorem compilePut32 [Port] (h : ∀ i, ArgSim (g i) (r i)) (h0 : (g 0).loadable = true)
    (h1 : (g 1).loadable = true) (h2 : (g 2).loadable = true) :
    Sim c j Eq (compilePut32 g) (compilePut32 r) :=
  step nextLabel fun _ => step (loadCell _ (h 0) h0) fun _ => step (loadInt _ (h 1) h1) fun _ =>
    step (loadInt _ (h 2) h2) fun _ => step (emit _) fun _ => step (emit _) fun _ => emitAny _

theorem compileSize [Port] (returnType : Word) (h : ∀ i, ArgSim (g i) (r i))
    (h0 : (g 0).loadable = true) :
    Sim c j Eq (compileSize returnType g) (compileSize returnType r) := by
  refine ctx_bind (step (loadCell _ (h 0) h0) fun _ => step (emit _) fun _ =>
    step (tagOf _) fun tag => ?_)
  split
  · exact step (emit _) fun _ => pure rfl
  · split
    · exact step (emit _) fun _ => pure rfl
    · exact pure rfl

theorem compileGc [Port] : Sim c j Eq compileGc compileGc := by
  refine bind frame fun fr fr' hfr => ?_
  rw [hfr.pushFrameRegs, hfr.popFrameRegs, hfr.stackEnd]
  exact emitAny _

/-! ## Locals -/

theorem letIsInt (h : ArgSim d d') (hl : d.loadable = true) :
    Sim c j Eq (letIsInt d) (letIsInt d') := by
  unfold Compiler.letIsInt
  rw [← h.type_eq hl]
  unfold Arg.loadable at hl
  cases hd : d.type <;> rw [hd] at hl <;> dsimp only
  case const =>
    rw [← h.cell_eq (of_decide_eq_true hl)]
    exact step (tagOf _) fun _ => pure rfl
  all_goals exact pure rfl

/-- The entry of a local: its `type_name` is copied, not read. -/
theorem letEntry (name : List UInt8) {f f' : ℕ → Arg} (hf : ∀ i, EntrySim (f i) (f' i))
    (h : ArgSim d d') (hl : d.loadable = true) :
    Sim c j EntrySim (letEntry name f d) (letEntry name f' d') := by
  unfold Compiler.letEntry
  have hidx : getSymFrameIdx name (some f) false = getSymFrameIdx name (some f') false :=
    (⟨.some hf, rfl, rfl, rfl⟩ : FrameSim ⟨some f, 0, 0, .null⟩ ⟨some f', 0, 0, .null⟩).getSymFrameIdx
      name false
  rw [← hidx]
  cases getSymFrameIdx name (some f) false with
  | some i => exact pure (hf i)
  | none =>
    refine step (letIsInt h hl) fun isInt => bind frame fun fr fr' hfr => ?_
    dsimp only
    rw [hfr.locals]
    have hd : EntrySim
        { f (maxArgs + fr'.locals) with
          name := some name
          typeName := d.typeName
          cell := .null
          type := if isInt = true then .stackInt else .stack
          slot := -(fr'.locals : ℤ) }
        { f' (maxArgs + fr'.locals) with
          name := some name
          typeName := d'.typeName
          cell := .null
          type := if isInt = true then .stackInt else .stack
          slot := -(fr'.locals : ℤ) } :=
      ⟨rfl, rfl, (hf _).env, rfl, rfl, h.typeName⟩
    refine step (setFrameEntry rfl hd) fun _ => bind frame fun fr₁ fr₁' hfr₁ => ?_
    rw [hfr₁.locals]
    exact step (setFrame ⟨hfr₁.f, hfr₁.sp, rfl, hfr₁.stackEnd⟩) fun _ => pure hd

theorem letLoad [Port] (isInt : Bool) (h : ArgSim d d') (hl : d.loadable = true) :
    Sim c j Eq (letLoad isInt d) (letLoad isInt d') := by
  refine ctx_bind ?_
  split
  · exact step (loadInt _ h hl) fun _ => pure rfl
  · exact step (loadCell _ h hl) fun _ => pure rfl

theorem letStore [Port] (h : EntrySim d d') : Sim c j Eq (letStore d) (letStore d') := by
  refine bind frame fun fr fr' hfr => ?_
  rw [h.type, h.slot, hfr.sp]
  split
  · exact emit _
  · exact emit _

theorem compileLet [Port] (returnType : Word) (h : ∀ i, ArgSim (g i) (r i))
    (h0 : (g 0).cell ≠ .undef) (h1 : (g 1).loadable = true) :
    Sim c j Eq (compileLet returnType g) (compileLet returnType r) := by
  refine bind frame fun fr fr' hfr => ?_
  obtain ⟨hg, hr⟩ | ⟨f, f', hg, hr, hf⟩ := hfr.levels
  · rw [hg, hr]
    exact fail _
  · rw [hg, hr, ← (h 0).cell_eq h0]
    refine step (nameOf _) fun name => bind (letEntry name hf (h 1) h1) fun d d' hd => ?_
    rw [hd.type]
    refine step (letLoad _ (h 1) h1) fun ty => step (letStore hd) fun _ =>
      step (tagOf _) fun tag => step (tagOf _) fun returnTag => ?_
    split
    · exact emitAny _
    · exact pure rfl

/-! ## Structs -/

theorem firstElem (w : Word) : Sim c j Eq (firstElem w) (firstElem w) := by
  refine step (fetch _) fun x => ?_
  split
  · exact fetch _
  · exact fetch _

theorem findField (elements : Word) (name : List UInt8) (k : ℕ) :
    ∀ i, Sim c j Eq (findField elements name k i) (findField elements name k i) := by
  induction k with
  | zero => exact fun _ => pure rfl
  | succ k ih =>
    intro i
    refine step (fetch _) fun _ => step (nameOf _) fun _ => ?_
    split
    · exact pure rfl
    · exact ih _

theorem compileNew [Port] (n : ℕ) (origOp : Word) (h : ∀ i, ArgSim (g i) (r i))
    (h0 : origOp ≠ .null ∨ (g 0).env.isSome = true) :
    Sim c j Eq (compileNew n origOp g) (compileNew n origOp r) := by
  have harg : Sim c j Eq
      (if origOp ≠ .null then Pure.pure origOp else Compiler.envCell (g 0))
      (if origOp ≠ .null then Pure.pure origOp else Compiler.envCell (r 0)) := by
    split
    · exact pure rfl
    · rename_i hnull
      exact envCell ((h 0).env_eq (h0.resolve_left hnull))
  refine step harg fun arg => step (tagOf _) fun tag => ?_
  split
  · exact fail _
  · exact step (emit _) fun _ => step (alloc _) fun _ => pure rfl

/-- The struct type of a written argument. -/
theorem structUse (h : ArgSim d d') (hw : (Use.struct 0).written (fun _ => d) = true)
    (hl : d.loadable = true) : d.type = d'.type ∧ (d.type = .env → d.env = d'.env) ∧
      (d.type ≠ .env → d.typeName = d'.typeName) := by
  refine ⟨h.type_eq hl, fun ht => ?_, fun ht => ?_⟩
  · rw [Use.written, if_pos ht] at hw
    exact h.env_eq hw
  · rw [Use.written, if_neg ht] at hw
    exact h.typeName.resolve_left (of_decide_eq_true hw)

theorem sgetDef (field : List UInt8) (h : ArgSim d d')
    (hw : (Use.struct 0).written (fun _ => d) = true) (hl : d.loadable = true) :
    Sim c j Eq (sgetDef d field) (sgetDef d' field) := by
  obtain ⟨htype, henv, hname⟩ := structUse h hw hl
  unfold Compiler.sgetDef
  rw [← htype]
  split
  · rename_i ht
    exact step (envCell (henv ht)) fun _ => firstElem _
  · rename_i ht
    rw [← hname ht]
    cases d.typeName with
    | none => exact fail _
    | some typeName => exact step (lookup _) fun e => envCell rfl

theorem sputDef (h : ArgSim d d') (hw : (Use.struct 0).written (fun _ => d) = true)
    (hl : d.loadable = true) : Sim c j Eq (sputDef d) (sputDef d') := by
  obtain ⟨htype, henv, hname⟩ := structUse h hw hl
  unfold Compiler.sputDef
  rw [← htype]
  split
  · rename_i ht
    exact step (envCell (henv ht)) fun _ => firstElem _
  · rename_i ht
    rw [← hname ht]
    cases d.typeName with
    | none => exact fail _
    | some typeName =>
      refine step (lookup _) fun e => ?_
      cases e with
      | none => exact fail _
      | some e => exact envCell rfl

theorem compileSget [Port] (h : ∀ i, ArgSim (g i) (r i))
    (hs : (Use.struct 0).written g = true) (h1 : (g 1).cell ≠ .undef)
    (h0 : (g 0).loadable = true) : Sim c j Eq (compileSget g) (compileSget r) := by
  unfold Compiler.compileSget
  rw [← (h 1).cell_eq h1]
  refine step (nameOf _) fun field => step (sgetDef field (h 0) hs h0) fun structDef =>
    step (fetch _) fun sd => ?_
  split
  · exact fail _
  · refine step (fetch _) fun size => step (findField _ _ _ _) fun found => ?_
    cases found with
    | none => exact step (emit _) fun _ => fail _
    | some i =>
      exact step (loadCell _ (h 0) h0) fun _ => step (emit _) fun _ => step (fetch _) fun _ =>
        step (tagOf _) fun tag => ctx_bind (pure rfl)

theorem compileSput [Port] (h : ∀ i, ArgSim (g i) (r i))
    (hs : (Use.struct 0).written g = true) (h1 : (g 1).cell ≠ .undef)
    (h0 : (g 0).loadable = true) (h2 : (g 2).loadable = true) :
    Sim c j Eq (compileSput g) (compileSput r) := by
  unfold Compiler.compileSput
  rw [← (h 1).cell_eq h1]
  refine step (nameOf _) fun field => step (sputDef (h 0) hs h0) fun structDef =>
    step (fetch _) fun sd => ?_
  split
  · exact fail _
  · refine step (fetch _) fun size => step (findField _ _ _ _) fun found => ?_
    cases found with
    | none => exact step (emit _) fun _ => fail _
    | some i =>
      exact step (loadCell _ (h 0) h0) fun _ => step (emit _) fun _ =>
        step (loadCell _ (h 2) h2) fun _ => emitAny _

theorem compileQuote (origArgs : Word) : Sim c j Eq (compileQuote origArgs) (compileQuote origArgs) := by
  refine step (fetch _) fun arg => ?_
  split
  · exact fail _
  · exact emitAny _

/-! ## Control, lists and structs -/

theorem compileElse (hrec : RecSim c j rec rec') (skip : ℕ) (thenType returnType elseCell : Word) :
    Sim c j Eq (compileElse rec skip thenType returnType elseCell)
      (compileElse rec' skip thenType returnType elseCell) := by
  unfold Compiler.compileElse
  split
  · refine step nextLabel fun _ => step (emit _) fun _ => step (hrec _ _) fun elseType =>
      step (emit _) fun _ => step (tagOf _) fun _ => step (tagOf _) fun _ =>
        step (tagOf _) fun _ => ?_
    split
    · exact fail _
    · exact pure rfl
  · exact emit _

theorem compileIf [Port] (hrec : RecSim c j rec rec') (returnType : Word)
    (h : ∀ i, ArgSim (g i) (r i)) (h0 : (g 0).loadable = true) (h1 : (g 1).cell ≠ .undef)
    (h2 : (g 2).cell ≠ .undef) :
    Sim c j Eq (compileIf rec returnType g) (compileIf rec' returnType r) := by
  unfold Compiler.compileIf
  rw [← (h 1).cell_eq h1, ← (h 2).cell_eq h2]
  exact step nextLabel fun _ => step (loadInt _ (h 0) h0) fun _ => step (emit _) fun _ =>
    step (hrec _ _) fun _ => step (compileElse hrec _ _ _ _) fun _ => anyResult

theorem compileWhile (hrec : RecSim c j rec rec') (returnType : Word)
    (h : ∀ i, ArgSim (g i) (r i)) (h0 : (g 0).cell ≠ .undef) (h1 : (g 1).cell ≠ .undef) :
    Sim c j Eq (compileWhile rec returnType g) (compileWhile rec' returnType r) := by
  unfold Compiler.compileWhile
  rw [← (h 0).cell_eq h0, ← (h 1).cell_eq h1]
  exact step nextLabel fun _ => ctx_bind (step (emit _) fun _ => step (hrec _ _) fun _ =>
    step (tagOf _) fun _ => step (emit _) fun _ => step (emit _) fun _ => step (hrec _ _) fun _ =>
      step (emit _) fun _ => step (tagOf _) fun _ => step (emit _) fun _ => pure rfl)

theorem doLoop (hrec : RecSim c j rec rec') (returnType : Word) (n : ℕ) :
    ∀ args, Sim c j Eq (doLoop rec returnType n args) (doLoop rec' returnType n args) := by
  induction n with
  | zero => exact fun _ => outOfFuel
  | succ n ih =>
    intro args
    refine step (fetch _) fun arg => ?_
    split
    · exact pure rfl
    · exact ctx_bind (step (fetch _) fun _ => step (fetch _) fun _ => step (hrec _ _) fun _ => ih _)

theorem compileDo (hrec : RecSim c j rec rec') (n : ℕ) (returnType origArgs : Word) :
    Sim c j Eq (compileDo rec n returnType origArgs) (compileDo rec' n returnType origArgs) := by
  refine step (fetch _) fun first => ?_
  split
  · exact fail _
  · exact step (doLoop hrec _ _ _) fun _ => anyResult

theorem listLoop (hrec : RecSim c j rec rec') (n : ℕ) :
    ∀ args, Sim c j Eq (listLoop rec n args) (listLoop rec' n args) := by
  induction n with
  | zero => exact fun _ => outOfFuel
  | succ n ih =>
    intro args
    refine step (fetch _) fun arg => ?_
    split
    · exact pure rfl
    · exact ctx_bind (step (hrec _ _) fun _ => step (emit _) fun _ => step (addSp _) fun _ =>
        step (fetch _) fun _ => step (ih _) fun _ => pure rfl)

theorem listPops [Port] (n : ℕ) : Sim c j Eq (listPops n) (listPops n) := by
  induction n with
  | zero => exact pure rfl
  | succ n ih =>
    exact step (emit _) fun _ => step (addSp _) fun _ => step (emit _) fun _ => ih

theorem compileList [Port] (hrec : RecSim c j rec rec') (n : ℕ) (origArgs : Word) :
    Sim c j Eq (compileList rec n origArgs) (compileList rec' n origArgs) :=
  step (listLoop hrec _ _) fun _ => step (emit _) fun _ => step (listPops _) fun _ => anyResult

theorem structLoop (hrec : RecSim c j rec rec') (n : ℕ) :
    ∀ args, Sim c j Eq (structLoop rec n args) (structLoop rec' n args) := by
  induction n with
  | zero => exact fun _ => outOfFuel
  | succ n ih =>
    intro args
    refine step (fetch _) fun key => ?_
    split
    · exact pure rfl
    · refine step (tagOf _) fun keyTag => ?_
      split
      · exact fail _
      · refine step (emit _) fun _ => step (fetch _) fun args => step (fetch _) fun arg => ?_
        split
        · exact fail _
        · exact step (fetch _) fun _ => ctx_bind (step (hrec _ _) fun _ => step (emit _) fun _ =>
            step (addSp _) fun _ => step (ih _) fun _ => pure rfl)

theorem structPops [Port] (n : ℕ) : Sim c j Eq (structPops n) (structPops n) := by
  induction n with
  | zero => exact pure rfl
  | succ n ih =>
    exact step (emit _) fun _ => step (addSp _) fun _ => step (emit _) fun _ => ih

theorem compileStruct [Port] (hrec : RecSim c j rec rec') (n : ℕ) (origArgs : Word) :
    Sim c j Eq (compileStruct rec n origArgs) (compileStruct rec' n origArgs) := by
  refine step (fetch _) fun fields => step (fetch _) fun nameSym => step (emit _) fun _ =>
    step (structLoop hrec _ _) fun k => step (emit _) fun _ => step (structPops _) fun _ =>
      bind frame fun fr fr' hfr => ?_
  rw [hfr.pushFrameRegs, hfr.popFrameRegs]
  exact emitAny _

/-! ## Functions and calls -/

/-- `analyze_fn` reads no argument array. -/
theorem analyzeFn_junk (h : Heap) (n : ℕ) :
    ∀ expr parent buf, analyzeFn { c with junk := j } h n expr parent buf =
      analyzeFn c h n expr parent buf := by
  induction n with
  | zero => exact fun _ _ _ => rfl
  | succ n ih =>
    intro expr parent buf
    unfold analyzeFn
    simp only [ih]
    rfl

theorem typedParam (x : Cell) : Sim c j Eq (typedParam x) (typedParam x) := by
  refine step (fetch _) fun typeCell => ?_
  split
  · exact fail _
  · refine step (tagOf _) fun tag => ?_
    split
    · exact fail _
    · refine step (nameOf _) fun name => step (nameOf _) fun typeName => step (lookup _) fun e =>
        ctx_bind ?_
      cases e with
      | none => exact fail _
      | some e =>
        dsimp only
        split
        · exact fail _
        · refine step (tagOf _) fun tag => ?_
          split
          · exact fail _
          · exact pure rfl

theorem fnParamDecl (cell : Word) : Sim c j Eq (fnParamDecl cell) (fnParamDecl cell) := by
  refine step (fetch _) fun x => ctx_bind ?_
  split
  · exact step (fetch _) fun _ => pure rfl
  · split
    · exact typedParam _
    · exact fail _

theorem fnParams [Port] (numLets : ℕ) (k : ℕ) (h : ∀ i < k, (g i).cell = (r i).cell) :
    ∀ f fnArgs, Sim c j Eq (fnParams numLets g k f fnArgs) (fnParams numLets r k f fnArgs) := by
  induction k with
  | zero => exact fun _ _ => pure rfl
  | succ k ih =>
    intro f fnArgs
    unfold Compiler.fnParams
    rw [h k (Nat.lt_succ_self k)]
    exact step (fnParamDecl _) fun _ => step (alloc _) fun _ => step (alloc _) fun _ =>
      step (alloc _) fun _ => ih (fun i hi => h i (Nat.lt_succ_of_lt hi)) _ _

theorem compileFn [Port] (hj : ∀ call i, maxArgs ≤ i → j call i = c.junk call i)
    (hrec : RecSim c j rec rec') (n call : ℕ) (h : ArgsSim a a')
    (hw : ∀ i < a.argi - 1, (a.defs i).cell ≠ .undef) :
    Sim c j Eq (compileFn rec n call a) (compileFn rec' n call a') := by
  have hcell : ∀ i < a.argi - 1, (a.defs i).cell = (a'.defs i).cell := fun i hi =>
    (h.defs i).cell_eq (hw i hi)
  unfold Compiler.compileFn
  rw [← h.argi]
  split
  · exact fail _
  · have hbody : (a.defs (a.argi - 2)).cell = (a'.defs (a.argi - 2)).cell :=
      hcell _ (by omega)
    have hempty : (fun i => { j call (maxArgs + i) with
          type := ArgType.const, slot := (-1 : ℤ), name := none } : ℕ → Arg) =
        fun i => { c.junk call (maxArgs + i) with type := .const, slot := -1, name := none } := by
      funext i
      rw [hj call (maxArgs + i) (Nat.le_add_right _ _)]
    refine ctx_bind ?_
    dsimp only
    rw [hempty, ← hbody]
    simp only [analyzeFn_junk]
    refine step (fetch _) fun lets => step (alloc _) fun nil =>
      step (fnParams _ _ (fun i hi => hcell i (by omega)) _ _) fun f => step (alloc _) fun def_ =>
        step (alloc _) fun lambda => step (alloc _) fun _ => step (emit _) fun _ =>
          bind frame fun outer outer' houter => ?_
    exact step (setFrame ⟨.some fun i => .refl _, rfl, rfl, houter.stackEnd⟩) fun _ =>
      step (hrec _ _) fun _ => step (setFrame houter) fun _ => step (emit _) fun _ => pure rfl

theorem passInReg [Port] (pushed spo k : ℕ) (h : ArgSim d d') (hl : d.loadable = true) :
    Sim c j Eq (passInReg pushed spo k d) (passInReg pushed spo k d') := by
  have ht := h.type_eq hl
  unfold Compiler.passInReg
  rw [← ht]
  split
  · rename_i hreg
    rw [Arg.loadable, hreg] at hl
    rw [← h.slot_eq (of_decide_eq_true hl)]
    exact emit _
  · exact loadCell _ h hl

theorem passArgs [Port] (pushed k : ℕ) (h : ∀ i, ArgSim (g i) (r i))
    (hl : ∀ i < k, (g i).loadable = true) :
    ∀ spo, Sim c j Eq (passArgs pushed g k spo) (passArgs pushed r k spo) := by
  induction k with
  | zero => exact fun _ => pure rfl
  | succ k ih =>
    intro spo
    have ih := ih fun i hi => hl i (Nat.lt_succ_of_lt hi)
    have hk := hl k (Nat.lt_succ_self k)
    unfold Compiler.passArgs
    split
    · exact step (loadCell _ (h k) hk) fun _ => step (emit _) fun _ => step (addSp _) fun _ => ih _
    · exact step (passInReg _ _ _ (h k) hk) fun _ => ih _

theorem dropSpilled [Port] (spo : ℕ) : Sim c j Eq (dropSpilled spo) (dropSpilled spo) := by
  unfold Compiler.dropSpilled
  split
  · exact pure rfl
  · exact step (emit _) fun _ => addSp _

theorem compileCall [Port] (e : ℕ) (h : ArgsSim a a')
    (hl : ∀ i < a.argi - 1, (a.defs i).loadable = true) :
    Sim c j Eq (compileCall e a) (compileCall e a') := by
  unfold Compiler.compileCall
  refine bind frame fun fr fr' hfr => ?_
  rw [← h.argi, hfr.frameRegs, hfr.pushFrameRegs, hfr.popFrameRegs]
  exact step (emit _) fun _ => step (addSp _) fun _ =>
    step (passArgs _ _ h.defs hl _) fun spo => step (emit _) fun _ => step (dropSpilled _) fun _ =>
      step (emit _) fun _ => step (addSp _) fun _ => anyResult

/-! ## The switch and the recursion -/

theorem compileAtom [Port] (expr : Word) (x : Cell) :
    Sim c j Eq (compileAtom expr x) (compileAtom expr x) := by
  refine ctx_bind ?_
  split
  · refine step (fetch _) fun name => bind frame fun fr fr' hfr => ?_
    have he := hfr.entry name false
    cases hg : (getSymFrameIdx name fr.f false).bind (fun i => fr.f.map fun f => f i) <;>
      cases hr : (getSymFrameIdx name fr'.f false).bind (fun i => fr'.f.map fun f => f i) <;>
      rw [hg, hr] at he
    · refine step (lookup _) fun e => ?_
      cases e with
      | none => exact step (emit _) fun _ => fail _
      | some e =>
        refine step (emit _) fun _ => ?_
        dsimp only
        split
        · exact fail _
        · exact pure rfl
    · exact absurd he (by rintro ⟨⟩)
    · exact absurd he (by rintro ⟨⟩)
    · cases he with
      | some he => exact step (loadEntry _ he) fun _ => pure rfl
  · exact step (emit _) fun _ => pure rfl

theorem compileBuiltin [Port] (hj : ∀ call i, maxArgs ≤ i → j call i = c.junk call i)
    (hrec : RecSim c j rec rec') (n call : ℕ) (returnType origArgs origOp : Word)
    (h : ArgsSim a a') (b : Builtin)
    (hw : ∀ u ∈ b.uses origOp a, u.written a.defs = true) :
    Sim c j Eq (compileBuiltin rec n call returnType origArgs origOp a b)
      (compileBuiltin rec' n call returnType origArgs origOp a' b) := by
  have hd := h.defs
  cases b <;> simp only [Builtin.uses, List.forall_mem_cons, List.not_mem_nil,
    false_imp_iff, implies_true, and_true] at hw
  case bitnot => exact compileBitnot _ hd hw
  case gt => exact compileGt _ hd hw.1 hw.2
  case lt => exact compileLt _ hd hw.1 hw.2
  case eq => exact compileEq _ hd hw.1 hw.2
  case bitand | bitor | bitxor | shl | shr | add | sub | mul | div | mod =>
    exact compileArith _ _ hd hw.1 hw.2
  case def_ => exact compileDef hd (of_decide_eq_true hw.1) hw.2
  case let_ => exact compileLet _ hd (of_decide_eq_true hw.1) hw.2
  case fn =>
    refine compileFn hj hrec n call h fun i hi => ?_
    exact of_decide_eq_true (hw _ (List.mem_map_of_mem (List.mem_range.mpr hi)))
  case if_ =>
    exact compileIf hrec _ hd hw.1 (of_decide_eq_true hw.2.1) (of_decide_eq_true hw.2.2)
  case while_ => exact compileWhile hrec _ hd (of_decide_eq_true hw.1) (of_decide_eq_true hw.2)
  case do_ => exact compileDo hrec _ _ _
  case list => exact compileList hrec _ _
  case struct => exact compileStruct hrec _ _
  case new =>
    refine compileNew n origOp hd ?_
    by_cases hnull : origOp = .null
    · rw [if_neg (not_not.mpr hnull)] at hw
      exact Or.inr (hw _ (List.mem_singleton_self _))
    · exact Or.inl hnull
  case sget => exact compileSget hd hw.1 (of_decide_eq_true hw.2.1) hw.2.2
  case sput => exact compileSput hd hw.1 (of_decide_eq_true hw.2.1) hw.2.2.1 hw.2.2.2
  case quote => exact compileQuote _
  case car => exact compileCar hd hw
  case cdr => exact compileCdr hd hw
  case cons | concat | write | mount => exact compileCall2 _ hd hw.1 hw.2
  case substr => exact compileSubstr hd hw.1 hw.2.1 hw.2.2
  case get8 | get16 => exact compileGet _ _ hd hw.1 hw.2
  case put8 | put16 => exact compilePut _ hd hw.1 hw.2.1 hw.2.2
  case get32 => exact compileGet32 hd hw.1 hw.2
  case put32 => exact compilePut32 hd hw.1 hw.2.1 hw.2.2
  case alloc | allocStr => exact compileIntCall _ hd hw
  case bytesToStr | read | eval | mmap => exact compileCall1 _ hd hw
  case size => exact compileSize _ hd hw
  case gc => exact compileGc
  case symbols => exact emitAny _
  case print | open_ | recv => exact compileSavedCall1 _ hd hw
  case send => exact compileSend hd hw.1 hw.2
  all_goals exact anyResult

theorem compileOperator [Port] (hj : ∀ call i, maxArgs ≤ i → j call i = c.junk call i)
    (hrec : RecSim c j rec rec') (n call : ℕ) (returnType origArgs : Word) (o : Operator)
    (h : ArgsSim a a') (hw : ∀ u ∈ o.uses a, u.written a.defs = true) :
    Sim c j Eq (compileOperator rec n call returnType origArgs o a)
      (compileOperator rec' n call returnType origArgs o a') := by
  unfold Compiler.compileOperator
  unfold Operator.uses at hw
  split
  · rename_i htag
    rw [if_pos htag] at hw
    cases hb : Builtin.ofWord o.op.ar with
    | none => exact anyResult
    | some b =>
      rw [hb] at hw
      exact compileBuiltin hj hrec n call returnType origArgs o.origOp h b hw
  · rename_i htag
    rw [if_neg htag] at hw
    refine compileCall _ h fun i hi => ?_
    exact hw _ (List.mem_map_of_mem (List.mem_range.mpr hi))

theorem cleanReturn [Port] {n n' : ℕ} (hn : n = n') (ty : Word) :
    Sim c j Eq (cleanReturn n ty) (cleanReturn n' ty) := by
  subst hn
  unfold Compiler.cleanReturn
  split
  · exact pure rfl
  · exact step (emit _) fun _ => step (addSp _) fun _ => pure rfl

/-- A form whose branch of the `switch` reads written fields only. -/
theorem compileForm [Port] (hj : ∀ call i, maxArgs ≤ i → j call i = c.junk call i)
    (hrec : RecSim c j rec rec') (n : ℕ) (returnType : Word) (x : Cell) :
    Sim c j Eq (checkedForm rec n returnType x) (compileForm rec' n returnType x) := by
  unfold checkedForm Compiler.compileForm
  split
  · exact fail _
  · refine step (fetch _) fun opsym => ?_
    split
    · exact fail _
    · refine step (fetch _) fun opName => step (inspect fun _ => rfl) fun o =>
        step nextCall fun call => ?_
      refine ctx_right (bind (argLoop hrec _ _ _ _ _
        ⟨rfl, fun i => .unwritten _, rfl⟩) fun a a' ha => ?_)
      split
      · rename_i hw
        exact step (compileOperator hj hrec n call returnType x.dr o ha (List.all_eq_true.mp hw))
          fun ty => cleanReturn ha.pushed ty
      · exact fault

/-- The checked compiler is simulated by the compiler on any contents of the
    arrays. -/
theorem compileExpr [Port] (hj : ∀ call i, maxArgs ≤ i → j call i = c.junk call i) (n : ℕ) :
    RecSim c j (checkedExpr n) (compileExpr n) := by
  induction n with
  | zero => exact fun _ _ => outOfFuel
  | succ n ih =>
    intro expr returnType
    unfold checkedExpr Compiler.compileExpr
    split
    · exact fail _
    · refine step (fetch _) fun x => ?_
      split
      · exact compileAtom _ _
      · exact compileForm hj ih _ _ _

end Sim

/-! ## Independence -/

/-- Both fail, or both succeed with the same code and the same type. -/
def SameOutcome : Except Stop (Except CompileError Word × List Jit × CState) →
    Except Stop (Except CompileError Word × List Jit × CState) → Prop
  | .ok (.ok ty, code, _), .ok (.ok ty', code', _) => ty = ty' ∧ code = code'
  | .ok (.error _, _, _), .ok (.error _, _, _) => True
  | .error _, .error _ => True
  | _, _ => False

/-- The outcome does not depend on what the `argdefs` arrays hold at first: it is
    the same for `j` and `j'`, which agree on everything else. -/
def Independent [Port] (n : ℕ) (expr returnType : Word) (c : Ctx) (s : CState) : Prop :=
  ∀ j j' : ℕ → ℕ → Arg, (∀ call i, maxArgs ≤ i → j call i = c.junk call i) →
    (∀ call i, maxArgs ≤ i → j' call i = c.junk call i) →
    SameOutcome (compileExpr n expr returnType { c with junk := j } s)
      (compileExpr n expr returnType { c with junk := j' } s)

/-- Memory in which every `cell` is the cell at index `k`. -/
def pointing (k : ℕ) : ℕ → ℕ → Arg := fun _ i =>
  if i < maxArgs then ⟨.const, .cell k, none, 0, none, none⟩ else ⟨.const, .null, none, 0, none, none⟩

/-- Rejected in the first run and compiled in the second. -/
def rejectedOnce : Except Stop (Except CompileError Word × List Jit × CState) →
    Except Stop (Except CompileError Word × List Jit × CState) → Bool
  | .ok (.error _, _, _), .ok (.ok _, _, _) => true
  | _, _ => false

end Interim.Compiler
