import Interim.Compiler.Model

/-!
# Accesses to the stack

The `jit_ldr_stack` and `jit_str_stack` calls in the code of an expression. All
are made by `load_int`, `load_cell`, `BUILTIN_LET` and the lambda call; the
offset is `PTRSZ` times the distance of a slot from `frame->sp`, but for
arguments that are passed on from one parameter register to another, which only
ports with `ARG_SPILLOVER` greater than 0 have.
-/

namespace Interim.Compiler

open Writer (cellAt car cdr cString elemAt)
open CompM

/-! ## Every instruction -/

/-- The offset and the slot of an access to the stack. -/
def Jit.access : Jit → Option (ℤ × Option ℤ)
  | .ldrStack _ offset slot | .strStack _ offset slot => some (offset, slot)
  | _ => none

/-- `P` holds of the accesses the compiler makes and of everything else. -/
structure Shapes [Port] (P : Jit → Prop) : Prop where
  ldrStack : ∀ d height slot, P (.ldrStack d (ptrsz * (height - slot)) (some slot))
  strStack : ∀ height slot, P (.strStack r0 (ptrsz * (height - slot)) (some slot))
  passed : ∀ j < argSpillover, ∀ d offset, P (.ldrStack d offset none)
  other : ∀ i, i.access.isNone = true → P i

/-- `P` holds of every instruction `m` emits. -/
def Every {α : Type} (P : Jit → Prop) (m : CompM α) : Prop :=
  ∀ c s a code s', Emits m c s a code s' → ∀ i ∈ code, P i

namespace Every

variable {α β : Type} {P : Jit → Prop}

theorem bind {m : CompM α} {f : α → CompM β} (hm : Every P m) (hf : ∀ a, Every P (f a)) :
    Every P (m >>= f) := by
  intro c s b code s' h i hi
  obtain ⟨a, code₁, s₁, code₂, h₁, h₂, rfl⟩ := emits_bind.mp h
  rcases List.mem_append.mp hi with hi | hi
  · exact hm c s a code₁ s₁ h₁ i hi
  · exact hf a c s₁ b code₂ s' h₂ i hi

/-- A computation that emits nothing. -/
theorem of_nil {m : CompM α} (h : ∀ c s a code s', Emits m c s a code s' → code = []) :
    Every P m := by
  intro c s a code s' he i hi
  rw [h c s a code s' he] at hi
  exact absurd hi List.not_mem_nil

theorem pure (a : α) : Every P (Pure.pure a : CompM α) :=
  of_nil fun _ _ _ _ _ h => (emits_pure.mp h).2.1

theorem fail (e : CompileError) : Every P (CompM.fail e : CompM α) :=
  of_nil fun _ _ _ _ _ h => absurd h emits_fail

theorem fault : Every P (CompM.fault : CompM α) := of_nil fun _ _ _ _ _ h => absurd h emits_fault

theorem outOfFuel : Every P (CompM.outOfFuel : CompM α) :=
  of_nil fun _ _ _ _ _ h => absurd h emits_outOfFuel

theorem ctx : Every P CompM.ctx := of_nil fun _ _ _ _ _ h => (emits_ctx.mp h).2.1

theorem frame : Every P CompM.frame := of_nil fun _ _ _ _ _ h => (emits_frame.mp h).2.1

theorem setFrame (fr : Frame) : Every P (CompM.setFrame fr) :=
  of_nil fun _ _ _ _ _ h => (emits_setFrame.mp h).1

theorem addSp (n : ℤ) : Every P (CompM.addSp n) :=
  of_nil fun _ _ _ _ _ h => (emits_addSp.mp h).1

theorem nextLabel : Every P CompM.nextLabel :=
  of_nil fun _ _ _ _ _ h => (emits_nextLabel.mp h).2.1

theorem nextCall : Every P CompM.nextCall := of_nil fun _ _ _ _ _ h => (emits_nextCall.mp h).2.1

theorem fetch (g : Heap → Except Stop α) : Every P (CompM.fetch g) :=
  of_nil fun _ _ _ _ _ h => (emits_fetch.mp h).2.1

theorem inspect (g : Ctx → Heap → Except Stop (Except CompileError α)) :
    Every P (CompM.inspect g) :=
  of_nil fun _ _ _ _ _ h => (emits_inspect.mp h).2.1

theorem alloc (g : Heap → Except Stop (α × Heap)) : Every P (CompM.alloc g) :=
  of_nil fun _ _ _ _ _ h => by
    obtain ⟨_, -, hc, -⟩ := emits_alloc.mp h
    exact hc

theorem tagOf (w : Word) : Every P (tagOf w) := bind (fetch _) fun _ => pure _

theorem nameOf (w : Word) : Every P (nameOf w) := bind (fetch _) fun _ => fetch _

theorem lookup (name : List UInt8) : Every P (lookupGlobalSymbol name) := bind ctx fun _ => pure _

theorem envCell (d : Arg) : Every P (envCell d) := by
  refine bind ctx fun _ => ?_
  cases d.env with
  | none => exact fault
  | some e => exact pure _

theorem emit_of {code : List Jit} (h : ∀ i ∈ code, P i) : Every P (CompM.emit code) := by
  intro c s u code' s' he i hi
  obtain ⟨rfl, -⟩ := emits_emit.mp he
  exact h i hi

theorem namedArg (argi : ℕ) (sig : Word) : Every P (namedArg argi sig) := by
  unfold Compiler.namedArg
  split
  · exact pure _
  · refine bind (fetch _) fun c => ?_
    split
    · exact bind (fetch _) fun _ => bind (fetch _) fun _ => pure _
    · exact pure _

theorem letSignature (a : Args) (givenTag : ℕ) : Every P (letSignature a givenTag) := by
  refine bind (nameOf _) fun _ => bind frame fun _ => bind ctx fun _ => ?_
  dsimp only
  split
  · exact pure _
  · exact pure _

theorem argSignature (isLet : Bool) (arg sig : Word) (a : Args) :
    Every P (argSignature isLet arg sig a) := by
  unfold Compiler.argSignature
  split
  · exact bind (tagOf _) fun _ => letSignature _ _
  · exact pure _

theorem structTypeName (ty : Cell) (old : Option (List UInt8)) :
    Every P (structTypeName ty old) := by
  unfold Compiler.structTypeName
  split
  · exact bind (fetch _) fun _ => bind (fetch _) fun _ => bind (fetch _) fun _ =>
      bind (nameOf _) fun _ => pure _
  · exact pure _

theorem symbolArg (arg : Cell) (argName opName : List UInt8) (a : Args) :
    Every P (symbolArg arg argName opName a) := by
  refine bind (fetch _) fun name => bind frame fun fr => ?_
  split
  · exact pure _
  · refine bind (lookup _) fun e => ?_
    cases e with
    | none => exact fail _
    | some e => exact pure _

theorem setFrameEntry (i : ℕ) (d : Arg) : Every P (setFrameEntry i d) := by
  refine bind frame fun fr => ?_
  cases fr.f with
  | none => exact fault
  | some f =>
    dsimp only
    split
    · exact setFrame _
    · exact fault

theorem letIsInt (d : Arg) : Every P (letIsInt d) := by
  unfold Compiler.letIsInt
  cases d.type <;> dsimp only
  case const => exact bind (tagOf _) fun _ => pure _
  all_goals exact pure _

theorem letEntry (name : List UInt8) (f : ℕ → Arg) (value : Arg) :
    Every P (letEntry name f value) := by
  unfold Compiler.letEntry
  split
  · exact pure _
  · exact bind (letIsInt _) fun _ => bind frame fun _ => bind (setFrameEntry _ _) fun _ =>
      bind frame fun _ => bind (setFrame _) fun _ => pure _

theorem firstElem (w : Word) : Every P (firstElem w) := by
  refine bind (fetch _) fun x => ?_
  split
  · exact fetch _
  · exact fetch _

theorem findField (elements : Word) (name : List UInt8) (k : ℕ) :
    ∀ i, Every P (findField elements name k i) := by
  induction k with
  | zero => exact fun _ => pure _
  | succ k ih =>
    intro i
    refine bind (fetch _) fun _ => bind (nameOf _) fun _ => ?_
    split
    · exact pure _
    · exact ih _

theorem sgetDef (d : Arg) (field : List UInt8) : Every P (sgetDef d field) := by
  unfold Compiler.sgetDef
  split
  · exact bind (envCell _) fun _ => firstElem _
  · split
    · exact fail _
    · exact bind (lookup _) fun _ => envCell _

theorem sputDef (d : Arg) : Every P (sputDef d) := by
  unfold Compiler.sputDef
  split
  · exact bind (envCell _) fun _ => firstElem _
  · split
    · exact fail _
    · refine bind (lookup _) fun e => ?_
      cases e with
      | none => exact fail _
      | some e => exact envCell _

theorem typedParam (x : Cell) : Every P (typedParam x) := by
  refine bind (fetch _) fun typeCell => ?_
  split
  · exact fail _
  · refine bind (tagOf _) fun tag => ?_
    split
    · exact fail _
    · refine bind (nameOf _) fun _ => bind (nameOf _) fun _ => bind (lookup _) fun e =>
        bind ctx fun _ => ?_
      cases e with
      | none => exact fail _
      | some e =>
        dsimp only
        split
        · exact fail _
        · refine bind (tagOf _) fun tag => ?_
          split
          · exact fail _
          · exact pure _

theorem fnParamDecl (cell : Word) : Every P (fnParamDecl cell) := by
  refine bind (fetch _) fun x => bind ctx fun _ => ?_
  split
  · exact bind (fetch _) fun _ => pure _
  · split
    · exact typedParam _
    · exact fail _

/-- The end of most builtins. -/
theorem anyResult : Every P (CompM.ctx >>= fun x => Pure.pure (Word.cell x.prototypeAny)) :=
  bind ctx fun _ => pure _

/-- The recursive calls. -/
def RecEvery (P : Jit → Prop) (rec : Rec) : Prop := ∀ expr returnType, Every P (rec expr returnType)

variable {rec : Rec}

theorem doLoop (hrec : RecEvery P rec) (returnType : Word) (n : ℕ) :
    ∀ args, Every P (doLoop rec returnType n args) := by
  induction n with
  | zero => exact fun _ => outOfFuel
  | succ n ih =>
    intro args
    refine bind (fetch _) fun arg => ?_
    split
    · exact pure _
    · exact bind ctx fun _ => bind (fetch _) fun _ => bind (fetch _) fun _ =>
        bind (hrec _ _) fun _ => ih _

theorem compileDo (hrec : RecEvery P rec) (n : ℕ) (returnType origArgs : Word) :
    Every P (compileDo rec n returnType origArgs) := by
  refine bind (fetch _) fun first => ?_
  split
  · exact fail _
  · exact bind (doLoop hrec _ _ _) fun _ => anyResult

theorem pushRegs_none (n : ℕ) : ((pushRegs n).all fun i => i.access.isNone) = true := by
  unfold pushRegs
  split
  · rfl
  · rfl

theorem popRegs_none (n : ℕ) : ((popRegs n).all fun i => i.access.isNone) = true := by
  unfold popRegs
  split
  · rfl
  · rfl

variable [Port]

/-- Instructions that leave the stack alone. -/
theorem emit (hP : Shapes P) {code : List Jit}
    (h : (code.all fun i => i.access.isNone) = true) : Every P (CompM.emit code) :=
  emit_of fun i hi => hP.other i (List.all_eq_true.mp h i hi)

/-! ## Arguments -/

theorem loadInt (hP : Shapes P) (dreg : ℕ) (d : Arg) : Every P (loadInt dreg d) := by
  unfold Compiler.loadInt
  cases d.type <;> dsimp only
  case const => exact bind (fetch _) fun _ => emit hP rfl
  case regInt =>
    split
    · exact emit hP rfl
    · exact emit hP rfl
  case stack =>
    refine bind frame fun fr => emit_of fun i hi => ?_
    rcases List.mem_cons.mp hi with rfl | hi
    · exact hP.ldrStack _ _ _
    · obtain rfl := List.mem_singleton.mp hi
      exact hP.other _ rfl
  case stackInt =>
    refine bind frame fun fr => emit_of fun i hi => ?_
    obtain rfl := List.mem_singleton.mp hi
    exact hP.ldrStack _ _ _
  all_goals exact emit hP rfl

/-- The boxing sequence: `height` is `frame->sp` and what was pushed. -/
theorem boxStackInt (hP : Shapes P) (dreg : ℕ) (sp slot : ℤ) :
    ∀ i ∈ boxStackInt dreg sp slot, P i := by
  have single : ∀ (p : Prop) [Decidable p] (j : Jit), j.access.isNone = true →
      ∀ i ∈ (if p then [j] else []), P i := by
    intro p _ j hj i hi
    split at hi
    · obtain rfl := List.mem_singleton.mp hi
      exact hP.other _ hj
    · exact absurd hi List.not_mem_nil
  intro i hi
  unfold Compiler.boxStackInt at hi
  simp only [List.mem_append] at hi
  rcases hi with (((hi | hi) | hi) | hi) | hi
  · exact single _ _ rfl i hi
  · exact single _ _ rfl i hi
  · rcases List.mem_cons.mp hi with rfl | hi
    · have hslot : ∀ n : ℤ, sp - slot + n = sp + n - slot := fun n => by ring
      rw [hslot]
      exact hP.ldrStack _ _ _
    · simp only [List.mem_cons, List.not_mem_nil, or_false] at hi
      rcases hi with rfl | rfl
      · exact hP.other _ rfl
      · exact hP.other _ rfl
  · exact single _ _ rfl i hi
  · exact single _ _ rfl i hi

theorem loadCell (hP : Shapes P) (dreg : ℕ) (d : Arg) : Every P (loadCell dreg d) := by
  unfold Compiler.loadCell
  cases d.type <;> dsimp only
  case stack =>
    refine bind frame fun fr => emit_of fun i hi => ?_
    obtain rfl := List.mem_singleton.mp hi
    exact hP.ldrStack _ _ _
  case stackInt => exact bind frame fun fr => emit_of (boxStackInt hP _ _ _)
  all_goals exact emit hP rfl

theorem eagerArg (hP : Shapes P) (hrec : RecEvery P rec) (arg sig : Word) (a : Args) :
    Every P (eagerArg rec arg sig a) :=
  bind (hrec _ _) fun _ => bind (fetch _) fun _ => bind (addSp _) fun _ => bind frame fun _ =>
    bind (structTypeName _ _) fun _ => bind (emit hP rfl) fun _ => pure _

theorem givenArg (hP : Shapes P) (hrec : RecEvery P rec) (opName argName : List UInt8)
    (arg sig : Word) (anyNumber : Bool) (a : Args) :
    Every P (givenArg rec opName argName arg sig anyNumber a) := by
  refine bind (fetch _) fun x => ?_
  split
  · exact pure _
  · refine bind (tagOf _) fun sigTag => ?_
    split
    · exact pure _
    · split
      · exact eagerArg hP hrec _ _ _
      · split
        · exact symbolArg _ _ _ _
        · split
          · exact pure _
          · exact fail _

theorem prepareArg (hP : Shapes P) (hrec : RecEvery P rec) (isLet : Bool) (opName : List UInt8)
    (args signatureArgs : Word) (a : Args) :
    Every P (prepareArg rec isLet opName args signatureArgs a) := by
  refine bind (fetch _) fun arg => bind (fetch _) fun sig => bind (namedArg _ _) fun named => ?_
  obtain ⟨argName, sig⟩ := named
  dsimp only
  split
  · exact bind (argSignature _ _ _ _) fun _ => givenArg hP hrec _ _ _ _ _ _
  · split
    · exact fail _
    · split
      · exact fail _
      · exact pure _

theorem argLoop (hP : Shapes P) (hrec : RecEvery P rec) (isLet : Bool) (opName : List UInt8)
    (k : ℕ) : ∀ args signatureArgs a, Every P (argLoop rec isLet opName k args signatureArgs a) := by
  induction k with
  | zero => exact fun _ _ _ => pure _
  | succ k ih =>
    intro args signatureArgs a
    refine bind (prepareArg hP hrec _ _ _ _ _) fun b => ?_
    dsimp only
    split
    · exact pure _
    · refine bind (fetch _) fun args => ?_
      split
      · exact pure _
      · split
        · exact ih _ _ _
        · refine bind (fetch _) fun signatureArgs => ?_
          split
          · exact pure _
          · exact ih _ _ _

theorem cleanReturn (hP : Shapes P) (n : ℕ) (ty : Word) : Every P (cleanReturn n ty) := by
  unfold Compiler.cleanReturn
  split
  · exact pure _
  · exact bind (emit hP rfl) fun _ => bind (addSp _) fun _ => pure _

/-! ## Builtins -/

theorem intResult (hP : Shapes P) (returnType : Word) : Every P (intResult returnType) := by
  refine bind ctx fun _ => bind (tagOf _) fun tag => ?_
  split
  · exact bind (emit hP rfl) fun _ => pure _
  · exact bind (emit hP rfl) fun _ => pure _

theorem compileArith (hP : Shapes P) {op : ℕ → ℕ → Jit}
    (hop : (op argr0 r2).access.isNone = true) (returnType : Word) (defs : ℕ → Arg) :
    Every P (compileArith op returnType defs) :=
  bind (loadInt hP _ _) fun _ => bind (loadInt hP _ _) fun _ =>
    bind (emit hP (by simpa using hop)) fun _ => intResult hP _

theorem compileEq (hP : Shapes P) (returnType : Word) (defs : ℕ → Arg) :
    Every P (compileEq returnType defs) := by
  refine bind (loadInt hP _ _) fun _ => bind (loadInt hP _ _) fun _ => bind (emit hP rfl) fun _ =>
    bind ctx fun _ => bind (tagOf _) fun tag => ?_
  split
  · exact bind (emit hP rfl) fun _ => pure _
  · exact pure _

/-- Code with the parameter registers saved around it. -/
theorem emitSaved (hP : Shapes P) (f : Option (ℕ → Arg)) {mid : List Jit}
    (hm : (mid.all fun i => i.access.isNone) = true) :
    Every P (CompM.emit (pushFrameRegs f ++ mid ++ popFrameRegs f)) := by
  refine emit hP ?_
  rw [List.all_append, List.all_append, pushFrameRegs, popFrameRegs, pushRegs_none, popRegs_none, hm]
  rfl

theorem compileDef (hP : Shapes P) (defs : ℕ → Arg) : Every P (compileDef defs) :=
  bind (emit hP rfl) fun _ => bind (loadCell hP _ _) fun _ => bind frame fun _ =>
    bind (emitSaved hP _ rfl) fun _ => anyResult

theorem letLoad (hP : Shapes P) (isInt : Bool) (value : Arg) : Every P (letLoad isInt value) := by
  refine bind ctx fun _ => ?_
  split
  · exact bind (loadInt hP _ _) fun _ => pure _
  · exact bind (loadCell hP _ _) fun _ => pure _

theorem letStore (hP : Shapes P) (d : Arg) : Every P (letStore d) := by
  refine bind frame fun fr => ?_
  split
  · exact emit hP rfl
  · refine emit_of fun i hi => ?_
    obtain rfl := List.mem_singleton.mp hi
    exact hP.strStack _ _

theorem compileLet (hP : Shapes P) (returnType : Word) (defs : ℕ → Arg) :
    Every P (compileLet returnType defs) := by
  refine bind frame fun fr => ?_
  cases fr.f with
  | none => exact fail _
  | some f =>
    refine bind (nameOf _) fun _ => bind (letEntry _ _ _) fun _ => bind (letLoad hP _ _) fun _ =>
      bind (letStore hP _) fun _ => bind (tagOf _) fun _ => bind (tagOf _) fun _ => ?_
    split
    · exact bind (emit hP rfl) fun _ => anyResult
    · exact pure _

theorem compileNew (hP : Shapes P) (n : ℕ) (origOp : Word) (defs : ℕ → Arg) :
    Every P (compileNew n origOp defs) := by
  have harg : Every P (if origOp ≠ .null then Pure.pure origOp else Compiler.envCell (defs 0)) := by
    split
    · exact pure _
    · exact envCell _
  refine bind harg fun arg => bind (tagOf _) fun tag => ?_
  split
  · exact fail _
  · exact bind (emit hP rfl) fun _ => bind (alloc _) fun _ => pure _

theorem compileSget (hP : Shapes P) (defs : ℕ → Arg) : Every P (compileSget defs) := by
  refine bind (nameOf _) fun _ => bind (sgetDef _ _) fun _ => bind (fetch _) fun sd => ?_
  split
  · exact fail _
  · refine bind (fetch _) fun size => bind (findField _ _ _ _) fun found => ?_
    cases found with
    | none => exact bind (emit hP rfl) fun _ => fail _
    | some i =>
      exact bind (loadCell hP _ _) fun _ => bind (emit hP rfl) fun _ => bind (fetch _) fun _ =>
        bind (tagOf _) fun _ => bind ctx fun _ => pure _

theorem compileSput (hP : Shapes P) (defs : ℕ → Arg) : Every P (compileSput defs) := by
  refine bind (nameOf _) fun _ => bind (sputDef _) fun _ => bind (fetch _) fun sd => ?_
  split
  · exact fail _
  · refine bind (fetch _) fun size => bind (findField _ _ _ _) fun found => ?_
    cases found with
    | none => exact bind (emit hP rfl) fun _ => fail _
    | some i =>
      exact bind (loadCell hP _ _) fun _ => bind (emit hP rfl) fun _ =>
        bind (loadCell hP _ _) fun _ => bind (emit hP rfl) fun _ => anyResult

theorem compileQuote (hP : Shapes P) (origArgs : Word) : Every P (compileQuote origArgs) := by
  refine bind (fetch _) fun arg => ?_
  split
  · exact fail _
  · exact bind (emit hP rfl) fun _ => anyResult

theorem compileCall1 (hP : Shapes P) {call : Jit} (hc : call.access.isNone = true)
    (defs : ℕ → Arg) : Every P (compileCall1 call defs) :=
  bind (loadCell hP _ _) fun _ => bind (emit hP (by simpa using hc)) fun _ => anyResult

theorem compileCall2 (hP : Shapes P) {call : Jit} (hc : call.access.isNone = true)
    (defs : ℕ → Arg) : Every P (compileCall2 call defs) :=
  bind (loadCell hP _ _) fun _ => bind (loadCell hP _ _) fun _ =>
    bind (emit hP (by simpa using hc)) fun _ => anyResult

theorem compileSavedCall1 (hP : Shapes P) (f : CFun) (defs : ℕ → Arg) :
    Every P (compileSavedCall1 f defs) :=
  bind (loadCell hP _ _) fun _ => bind frame fun _ => bind (emitSaved hP _ rfl) fun _ => anyResult

theorem compileSend (hP : Shapes P) (defs : ℕ → Arg) : Every P (compileSend defs) :=
  bind (loadCell hP _ _) fun _ => bind (loadCell hP _ _) fun _ => bind frame fun _ =>
    bind (emitSaved hP _ rfl) fun _ => anyResult

theorem compileGet (hP : Shapes P) {load : Jit} (hl : load.access.isNone = true)
    (returnType : Word) (defs : ℕ → Arg) : Every P (compileGet load returnType defs) :=
  bind nextLabel fun _ => bind (loadCell hP _ _) fun _ => bind (loadInt hP _ _) fun _ =>
    bind (emit hP rfl) fun _ => bind (emit hP (by simpa [Jit.access] using hl)) fun _ =>
      bind (emit hP rfl) fun _ => intResult hP _

theorem compilePut (hP : Shapes P) {store : Jit} (hs : store.access.isNone = true)
    (defs : ℕ → Arg) : Every P (compilePut store defs) :=
  bind nextLabel fun _ => bind (loadCell hP _ _) fun _ => bind (loadInt hP _ _) fun _ =>
    bind (loadInt hP _ _) fun _ => bind (emit hP (by simpa [Jit.access] using hs)) fun _ =>
      bind (emit hP rfl) fun _ => anyResult

theorem compileSize (hP : Shapes P) (returnType : Word) (defs : ℕ → Arg) :
    Every P (compileSize returnType defs) := by
  refine bind ctx fun _ => bind (loadCell hP _ _) fun _ => bind (emit hP rfl) fun _ =>
    bind (tagOf _) fun tag => ?_
  split
  · exact bind (emit hP rfl) fun _ => pure _
  · split
    · exact bind (emit hP rfl) fun _ => pure _
    · exact pure _

/-! ## Control, lists and structs -/

theorem compileElse (hP : Shapes P) (hrec : RecEvery P rec) (skip : ℕ)
    (thenType returnType elseCell : Word) :
    Every P (compileElse rec skip thenType returnType elseCell) := by
  unfold Compiler.compileElse
  split
  · refine bind nextLabel fun _ => bind (emit hP rfl) fun _ => bind (hrec _ _) fun _ =>
      bind (emit hP rfl) fun _ => bind (tagOf _) fun _ => bind (tagOf _) fun _ =>
        bind (tagOf _) fun _ => ?_
    split
    · exact fail _
    · exact pure _
  · exact emit hP rfl

theorem compileIf (hP : Shapes P) (hrec : RecEvery P rec) (returnType : Word) (defs : ℕ → Arg) :
    Every P (compileIf rec returnType defs) :=
  bind nextLabel fun _ => bind (loadInt hP _ _) fun _ => bind (emit hP rfl) fun _ =>
    bind (hrec _ _) fun _ => bind (compileElse hP hrec _ _ _ _) fun _ => anyResult

theorem compileWhile (hP : Shapes P) (hrec : RecEvery P rec) (returnType : Word)
    (defs : ℕ → Arg) : Every P (compileWhile rec returnType defs) := by
  refine bind nextLabel fun _ => bind ctx fun _ => bind (emit hP rfl) fun _ =>
    bind (hrec _ _) fun _ => bind (tagOf _) fun condTag => bind ?_ fun _ =>
      bind (emit hP rfl) fun _ => bind (hrec _ _) fun _ => bind (emit hP rfl) fun _ =>
        bind (tagOf _) fun returnTag => bind ?_ fun _ => pure _
  · split
    · exact emit hP rfl
    · exact emit hP rfl
  · split
    · exact emit hP rfl
    · exact emit hP rfl

theorem listLoop (hP : Shapes P) (hrec : RecEvery P rec) (n : ℕ) :
    ∀ args, Every P (listLoop rec n args) := by
  induction n with
  | zero => exact fun _ => outOfFuel
  | succ n ih =>
    intro args
    refine bind (fetch _) fun arg => ?_
    split
    · exact pure _
    · exact bind ctx fun _ => bind (hrec _ _) fun _ => bind (emit hP rfl) fun _ =>
        bind (addSp _) fun _ => bind (fetch _) fun _ => bind (ih _) fun _ => pure _

theorem listPops (hP : Shapes P) (n : ℕ) : Every P (listPops n) := by
  induction n with
  | zero => exact pure _
  | succ n ih =>
    exact bind (emit hP rfl) fun _ => bind (addSp _) fun _ => bind (emit hP rfl) fun _ => ih

theorem structLoop (hP : Shapes P) (hrec : RecEvery P rec) (n : ℕ) :
    ∀ args, Every P (structLoop rec n args) := by
  induction n with
  | zero => exact fun _ => outOfFuel
  | succ n ih =>
    intro args
    refine bind (fetch _) fun key => ?_
    split
    · exact pure _
    · refine bind (tagOf _) fun keyTag => ?_
      split
      · exact fail _
      · refine bind (emit hP rfl) fun _ => bind (fetch _) fun _ => bind (fetch _) fun arg => ?_
        split
        · exact fail _
        · exact bind (fetch _) fun _ => bind ctx fun _ => bind (hrec _ _) fun _ =>
            bind (emit hP rfl) fun _ => bind (addSp _) fun _ => bind (ih _) fun _ => pure _

theorem structPops (hP : Shapes P) (n : ℕ) : Every P (structPops n) := by
  induction n with
  | zero => exact pure _
  | succ n ih =>
    exact bind (emit hP rfl) fun _ => bind (addSp _) fun _ => bind (emit hP rfl) fun _ => ih

theorem compileStruct (hP : Shapes P) (hrec : RecEvery P rec) (n : ℕ) (origArgs : Word) :
    Every P (compileStruct rec n origArgs) := by
  refine bind (fetch _) fun _ => bind (fetch _) fun _ => bind (emit hP rfl) fun _ =>
    bind (structLoop hP hrec _ _) fun _ => bind (emit hP rfl) fun _ =>
      bind (structPops hP _) fun _ => bind frame fun _ => bind (emit hP ?_) fun _ => anyResult
  simp only [List.all_append, pushFrameRegs, popFrameRegs, pushRegs_none, popRegs_none]
  rfl

/-! ## Functions and calls -/

theorem fnParams (numLets : ℕ) (defs : ℕ → Arg) (k : ℕ) :
    ∀ f fnArgs, Every P (fnParams numLets defs k f fnArgs) := by
  induction k with
  | zero => exact fun _ _ => pure _
  | succ k ih =>
    intro f fnArgs
    exact bind (fnParamDecl _) fun _ => bind (alloc _) fun _ => bind (alloc _) fun _ =>
      bind (alloc _) fun _ => ih _ _

theorem compileFn (hP : Shapes P) (hrec : RecEvery P rec) (n call : ℕ) (a : Args) :
    Every P (compileFn rec n call a) := by
  unfold Compiler.compileFn
  split
  · exact fail _
  · exact bind ctx fun _ => bind (fetch _) fun _ => bind (alloc _) fun _ =>
      bind (fnParams _ _ _ _ _) fun _ => bind (alloc _) fun _ => bind (alloc _) fun _ =>
        bind (alloc _) fun _ => bind (emit hP rfl) fun _ => bind frame fun _ =>
          bind (setFrame _) fun _ => bind (hrec _ _) fun _ => bind (setFrame _) fun _ =>
            bind (emit hP rfl) fun _ => pure _

theorem passInReg (hP : Shapes P) (pushed spo : ℕ) {k : ℕ} (hk : k < argSpillover) (d : Arg) :
    Every P (passInReg pushed spo k d) := by
  unfold Compiler.passInReg
  split
  · refine emit_of fun i hi => ?_
    obtain rfl := List.mem_singleton.mp hi
    exact hP.passed k hk _ _
  · exact loadCell hP _ _

theorem passArgs (hP : Shapes P) (pushed : ℕ) (defs : ℕ → Arg) (k : ℕ) :
    ∀ spo, Every P (passArgs pushed defs k spo) := by
  induction k with
  | zero => exact fun _ => pure _
  | succ k ih =>
    intro spo
    unfold Compiler.passArgs
    split
    · exact bind (loadCell hP _ _) fun _ => bind (emit hP rfl) fun _ => bind (addSp _) fun _ => ih _
    · rename_i hk
      exact bind (passInReg hP _ _ (Nat.lt_of_not_le hk) _) fun _ => ih _

theorem dropSpilled (hP : Shapes P) (spo : ℕ) : Every P (dropSpilled spo) := by
  unfold Compiler.dropSpilled
  split
  · exact pure _
  · exact bind (emit hP rfl) fun _ => addSp _

theorem compileCall (hP : Shapes P) (e : ℕ) (a : Args) : Every P (compileCall e a) :=
  bind frame fun _ => bind (emit hP (pushRegs_none _)) fun _ => bind (addSp _) fun _ =>
    bind (passArgs hP _ _ _ _) fun _ => bind (emit hP rfl) fun _ => bind (dropSpilled hP _) fun _ =>
      bind (emit hP (popRegs_none _)) fun _ => bind (addSp _) fun _ => anyResult

/-! ## The switch and the recursion -/

theorem compileAtom (hP : Shapes P) (expr : Word) (x : Cell) : Every P (compileAtom expr x) := by
  refine bind ctx fun _ => ?_
  split
  · refine bind (fetch _) fun name => bind frame fun fr => ?_
    split
    · exact bind (loadCell hP _ _) fun _ => pure _
    · refine bind (lookup _) fun e => ?_
      cases e with
      | none => exact bind (emit hP rfl) fun _ => fail _
      | some e =>
        refine bind (emit hP rfl) fun _ => ?_
        split
        · exact fail _
        · exact pure _
  · exact bind (emit hP rfl) fun _ => pure _

theorem compileBuiltin (hP : Shapes P) (hrec : RecEvery P rec) (n call : ℕ)
    (returnType origArgs origOp : Word) (a : Args) (b : Builtin) :
    Every P (compileBuiltin rec n call returnType origArgs origOp a b) := by
  cases b
  case bitnot =>
    exact bind (loadInt hP _ _) fun _ => bind (emit hP rfl) fun _ => intResult hP _
  case gt | lt =>
    exact bind (loadInt hP _ _) fun _ => bind (loadInt hP _ _) fun _ => bind (emit hP rfl) fun _ =>
      intResult hP _
  case eq => exact compileEq hP _ _
  case bitand | bitor | bitxor | shl | shr | add | sub | mul | div | mod =>
    exact compileArith hP rfl _ _
  case def_ => exact compileDef hP _
  case let_ => exact compileLet hP _ _
  case fn => exact compileFn hP hrec _ _ _
  case if_ => exact compileIf hP hrec _ _
  case while_ => exact compileWhile hP hrec _ _
  case do_ => exact compileDo hrec _ _ _
  case list =>
    exact bind (listLoop hP hrec _ _) fun _ => bind (emit hP rfl) fun _ =>
      bind (listPops hP _) fun _ => anyResult
  case struct => exact compileStruct hP hrec _ _
  case new => exact compileNew hP _ _ _
  case sget => exact compileSget hP _
  case sput => exact compileSput hP _
  case quote => exact compileQuote hP _
  case car | cdr =>
    exact bind ctx fun _ => bind (loadCell hP _ _) fun _ => bind (emit hP rfl) fun _ => pure _
  case cons | concat | write | mount => exact compileCall2 hP rfl _
  case substr =>
    exact bind (loadCell hP _ _) fun _ => bind (loadInt hP _ _) fun _ =>
      bind (loadInt hP _ _) fun _ => bind (emit hP rfl) fun _ => anyResult
  case get8 | get16 => exact compileGet hP rfl _ _
  case put8 | put16 => exact compilePut hP rfl _
  case get32 =>
    exact bind (loadInt hP _ _) fun _ => bind (loadCell hP _ _) fun _ => bind (emit hP rfl) fun _ =>
      anyResult
  case put32 =>
    exact bind nextLabel fun _ => bind (loadCell hP _ _) fun _ => bind (loadInt hP _ _) fun _ =>
      bind (loadInt hP _ _) fun _ => bind (emit hP rfl) fun _ => bind (emit hP rfl) fun _ =>
        bind (emit hP rfl) fun _ => anyResult
  case alloc | allocStr =>
    exact bind (loadInt hP _ _) fun _ => bind (emit hP rfl) fun _ => anyResult
  case bytesToStr | read | eval | mmap => exact compileCall1 hP rfl _
  case size => exact compileSize hP _ _
  case gc =>
    exact bind frame fun _ => bind (emitSaved hP _ rfl) fun _ => anyResult
  case symbols => exact bind (emit hP rfl) fun _ => anyResult
  case print | open_ | recv => exact compileSavedCall1 hP _ _
  case send => exact compileSend hP _
  all_goals exact anyResult

theorem compileOperator (hP : Shapes P) (hrec : RecEvery P rec) (n call : ℕ)
    (returnType origArgs : Word) (o : Operator) (a : Args) :
    Every P (compileOperator rec n call returnType origArgs o a) := by
  unfold Compiler.compileOperator
  split
  · split
    · exact compileBuiltin hP hrec _ _ _ _ _ _ _
    · exact anyResult
  · exact compileCall hP _ _

theorem compileForm (hP : Shapes P) (hrec : RecEvery P rec) (n : ℕ) (returnType : Word)
    (x : Cell) : Every P (compileForm rec n returnType x) := by
  unfold Compiler.compileForm
  split
  · exact fail _
  · refine bind (fetch _) fun opsym => ?_
    split
    · exact fail _
    · exact bind (fetch _) fun _ => bind (inspect _) fun _ => bind nextCall fun _ =>
        bind ctx fun _ => bind (argLoop hP hrec _ _ _ _ _ _) fun _ =>
          bind (compileOperator hP hrec _ _ _ _ _ _) fun _ => cleanReturn hP _ _

/-- What holds of the accesses the compiler makes holds of every instruction of
    an expression. -/
theorem compileExpr (hP : Shapes P) (n : ℕ) : RecEvery P (compileExpr n) := by
  induction n with
  | zero => exact fun _ _ => outOfFuel
  | succ n ih =>
    intro expr returnType
    unfold Compiler.compileExpr
    split
    · exact fail _
    · refine bind (fetch _) fun x => ?_
      split
      · exact compileAtom hP _ _
      · exact compileForm hP ih _ _ _

end Every

end Interim.Compiler
