import Interim.Compiler.Bodies
import Interim.Compiler.Session
import Interim.Writer.Apart

/-!
# Labels

Every expression `compile_expr` accepts gives code in which

* no label is defined twice,
* the target of every branch is defined, and
* branch and label stand in the body of the same function, or both on top
  level (`labels_wellFormed`).

Each part of `compile_expr` emits closed code if its recursive calls do.
-/

namespace Interim.Compiler

open Writer (cellAt car cdr cString elemAt ascii natText)
open CompM Heap

/-! ## Computations -/

/-- The code `m` emits is closed. -/
def Sound {α : Type} (m : CompM α) : Prop :=
  ∀ c s a code s', s.heap.FreeListOk → Emits m c s a code s' → Closed s code s'

namespace Sound

variable {α β : Type}

theorem bind {m : CompM α} {f : α → CompM β} (hm : Sound m) (hf : ∀ a, Sound (f a)) :
    Sound (m >>= f) := by
  intro c s b code s' hok h
  obtain ⟨a, code₁, s₁, code₂, h₁, h₂, rfl⟩ := emits_bind.mp h
  have hc := hm c s a code₁ s₁ hok h₁
  exact hc.append (hf a c s₁ b code₂ s' hc.later.heap.freeListOk h₂)

theorem pure (a : α) : Sound (Pure.pure a : CompM α) := by
  intro c s x code s' hok h
  obtain ⟨-, rfl, rfl⟩ := emits_pure.mp h
  exact .flat rfl (.refl hok)

theorem fail (e : CompileError) : Sound (CompM.fail e : CompM α) :=
  fun _ _ _ _ _ _ h => absurd h emits_fail

theorem fault : Sound (CompM.fault : CompM α) := fun _ _ _ _ _ _ h => absurd h emits_fault

theorem outOfFuel : Sound (CompM.outOfFuel : CompM α) :=
  fun _ _ _ _ _ _ h => absurd h emits_outOfFuel

theorem emit {code : List Jit} (hf : code.all Jit.isFlat = true) : Sound (CompM.emit code) := by
  intro c s x code' s' hok h
  obtain ⟨rfl, rfl⟩ := emits_emit.mp h
  exact .flat hf (.refl hok)

theorem ctx : Sound CompM.ctx := by
  intro c s x code s' hok h
  obtain ⟨-, rfl, rfl⟩ := emits_ctx.mp h
  exact .flat rfl (.refl hok)

theorem frame : Sound CompM.frame := by
  intro c s x code s' hok h
  obtain ⟨-, rfl, rfl⟩ := emits_frame.mp h
  exact .flat rfl (.refl hok)

theorem setFrame (fr : Frame) : Sound (CompM.setFrame fr) := by
  intro c s x code s' hok h
  obtain ⟨rfl, rfl⟩ := emits_setFrame.mp h
  exact .flat rfl ⟨le_rfl, .refl hok⟩

theorem addSp (n : ℤ) : Sound (CompM.addSp n) := by
  intro c s x code s' hok h
  obtain ⟨rfl, rfl⟩ := emits_addSp.mp h
  exact .flat rfl ⟨le_rfl, .refl hok⟩

theorem nextCall : Sound CompM.nextCall := by
  intro c s x code s' hok h
  obtain ⟨-, rfl, rfl⟩ := emits_nextCall.mp h
  exact .flat rfl ⟨le_rfl, .refl hok⟩

theorem fetch (g : Heap → Except Stop α) : Sound (CompM.fetch g) := by
  intro c s x code s' hok h
  obtain ⟨-, rfl, rfl⟩ := emits_fetch.mp h
  exact .flat rfl (.refl hok)

theorem inspect (g : Ctx → Heap → Except Stop (Except CompileError α)) :
    Sound (CompM.inspect g) := by
  intro c s x code s' hok h
  obtain ⟨-, rfl, rfl⟩ := emits_inspect.mp h
  exact .flat rfl (.refl hok)

theorem alloc {g : Heap → Except Stop (α × Heap)}
    (hg : ∀ h a h', h.FreeListOk → g h = .ok (a, h') → KeepsAll h h') : Sound (CompM.alloc g) := by
  intro c s a code s' hok h
  obtain ⟨h', ha, rfl, rfl⟩ := emits_alloc.mp h
  exact .flat rfl ⟨le_rfl, hg _ _ _ hok ha⟩

theorem tagOf (w : Word) : Sound (tagOf w) := bind (fetch _) fun _ => pure _

theorem nameOf (w : Word) : Sound (nameOf w) := bind (fetch _) fun _ => fetch _

theorem lookup (name : List UInt8) : Sound (lookupGlobalSymbol name) := bind ctx fun _ => pure _

theorem envCell (d : Arg) : Sound (envCell d) := by
  refine bind ctx fun c => ?_
  cases d.env with
  | none => exact fault
  | some e => exact pure _

/-! ## Arguments -/

theorem loadInt [Port] (dreg : ℕ) (arg : Arg) : Sound (loadInt dreg arg) := by
  unfold Compiler.loadInt
  cases arg.type with
  | const => exact bind (fetch _) fun _ => emit rfl
  | regInt =>
    apply emit
    split
    · rfl
    · rfl
  | stack => exact bind frame fun _ => emit rfl
  | stackInt => exact bind frame fun _ => emit rfl
  | _ => exact emit rfl

theorem boxStackInt_flat [Port] (dreg : ℕ) (sp slot : ℤ) :
    (boxStackInt dreg sp slot).all Jit.isFlat = true := by
  have single : ∀ (p : Prop) [Decidable p] (i : Jit), i.isFlat = true →
      (if p then [i] else []).all Jit.isFlat = true := by
    intro p _ i hi
    split
    · simpa using hi
    · rfl
  unfold boxStackInt
  simp only [List.all_append, Bool.and_eq_true]
  exact ⟨⟨⟨⟨single _ _ rfl, single _ _ rfl⟩, rfl⟩, single _ _ rfl⟩, single _ _ rfl⟩

theorem loadCell [Port] (dreg : ℕ) (arg : Arg) : Sound (loadCell dreg arg) := by
  unfold Compiler.loadCell
  cases arg.type with
  | stack => exact bind frame fun _ => emit rfl
  | stackInt => exact bind frame fun _ => emit (boxStackInt_flat _ _ _)
  | _ => exact emit rfl

theorem setFrameEntry (i : ℕ) (a : Arg) : Sound (setFrameEntry i a) := by
  refine bind frame fun fr => ?_
  split
  · exact fault
  · split
    · exact setFrame _
    · exact fault

theorem namedArg (argi : ℕ) (sig : Word) : Sound (namedArg argi sig) := by
  unfold Compiler.namedArg
  split
  · exact pure _
  · refine bind (fetch _) fun _ => ?_
    split
    · exact bind (fetch _) fun _ => bind (fetch _) fun _ => pure _
    · exact pure _

theorem letSignature (a : Args) (givenTag : ℕ) : Sound (letSignature a givenTag) := by
  refine bind (nameOf _) fun _ => bind frame fun _ => bind ctx fun _ => ?_
  dsimp only
  split
  · exact pure _
  · exact pure _

theorem argSignature (isLet : Bool) (arg sig : Word) (a : Args) :
    Sound (argSignature isLet arg sig a) := by
  unfold Compiler.argSignature
  split
  · exact bind (tagOf _) fun _ => letSignature _ _
  · exact pure _

theorem structTypeName (ty : Cell) (old : Option (List UInt8)) : Sound (structTypeName ty old) := by
  unfold Compiler.structTypeName
  split
  · exact bind (fetch _) fun _ => bind (fetch _) fun _ => bind (fetch _) fun _ =>
      bind (nameOf _) fun _ => pure _
  · exact pure _

theorem symbolArg (arg : Cell) (argName opName : List UInt8) (a : Args) :
    Sound (symbolArg arg argName opName a) := by
  refine bind (fetch _) fun _ => bind frame fun _ => ?_
  split
  · exact pure _
  · refine bind (lookup _) fun e => ?_
    cases e with
    | none => exact fail _
    | some e => exact pure _

/-- What a recursive call has to satisfy. -/
abbrev RecSound (rec : Rec) : Prop := ∀ expr returnType, Sound (rec expr returnType)

variable {rec : Rec}

theorem eagerArg (hrec : RecSound rec) (arg sig : Word) (a : Args) : Sound (eagerArg rec arg sig a) :=
  bind (hrec _ _) fun _ => bind (fetch _) fun _ => bind (addSp _) fun _ => bind frame fun _ =>
    bind (structTypeName _ _) fun _ => bind (emit rfl) fun _ => pure _

theorem givenArg (hrec : RecSound rec) (opName argName : List UInt8) (arg sig : Word)
    (anyNumber : Bool) (a : Args) : Sound (givenArg rec opName argName arg sig anyNumber a) := by
  refine bind (fetch _) fun c => ?_
  split
  · exact pure _
  · refine bind (tagOf _) fun sigTag => ?_
    split
    · exact pure _
    · split
      · exact eagerArg hrec _ _ _
      · split
        · exact symbolArg _ _ _ _
        · split
          · exact pure _
          · exact fail _

theorem prepareArg (hrec : RecSound rec) (isLet : Bool) (opName : List UInt8)
    (args signatureArgs : Word) (a : Args) :
    Sound (prepareArg rec isLet opName args signatureArgs a) := by
  refine bind (fetch _) fun arg => bind (fetch _) fun sig => bind (namedArg _ _) fun named => ?_
  dsimp only
  split
  · exact bind (argSignature _ _ _ _) fun _ => givenArg hrec _ _ _ _ _ _
  · split
    · exact fail _
    · split
      · exact fail _
      · exact pure _

theorem argLoop (hrec : RecSound rec) (isLet : Bool) (opName : List UInt8) (k : ℕ) :
    ∀ (args signatureArgs : Word) (a : Args),
      Sound (argLoop rec isLet opName k args signatureArgs a) := by
  induction k with
  | zero => exact fun _ _ _ => pure _
  | succ k ih =>
    intro args signatureArgs a
    refine bind (prepareArg hrec _ _ _ _ _) fun a => ?_
    dsimp only
    split
    · exact pure _
    · refine bind (fetch _) fun args => ?_
      split
      · exact pure _
      · split
        · exact ih _ _ _
        · refine bind (fetch _) fun signatureArgs => ?_
          split
          · exact pure _
          · exact ih _ _ _

theorem cleanReturn [Port] (argsPushed : ℕ) (ty : Word) : Sound (cleanReturn argsPushed ty) := by
  unfold Compiler.cleanReturn
  split
  · exact pure _
  · exact bind (emit rfl) fun _ => bind (addSp _) fun _ => pure _

/-! ## Builtins without labels -/

theorem intResult [Port] (returnType : Word) : Sound (intResult returnType) := by
  refine bind ctx fun _ => bind (tagOf _) fun _ => ?_
  split
  · exact bind (emit rfl) fun _ => pure _
  · exact bind (emit rfl) fun _ => pure _

/-- The end of the builtins that return `prototype_any`. -/
theorem anyResult : Sound (CompM.ctx >>= fun c => Pure.pure (Word.cell c.prototypeAny)) :=
  bind ctx fun _ => pure _

theorem compileArith [Port] {op : ℕ → ℕ → Jit} (hop : (op argr0 r2).isFlat = true) (returnType : Word)
    (defs : ℕ → Arg) : Sound (compileArith op returnType defs) :=
  bind (loadInt _ _) fun _ => bind (loadInt _ _) fun _ =>
    bind (emit (by rw [List.all_cons, hop]; rfl)) fun _ => intResult _

theorem compileBitnot [Port] (returnType : Word) (defs : ℕ → Arg) : Sound (compileBitnot returnType defs) :=
  bind (loadInt _ _) fun _ => bind (emit rfl) fun _ => intResult _

theorem compileGt [Port] (returnType : Word) (defs : ℕ → Arg) : Sound (compileGt returnType defs) :=
  bind (loadInt _ _) fun _ => bind (loadInt _ _) fun _ => bind (emit rfl) fun _ => intResult _

theorem compileLt [Port] (returnType : Word) (defs : ℕ → Arg) : Sound (compileLt returnType defs) :=
  bind (loadInt _ _) fun _ => bind (loadInt _ _) fun _ => bind (emit rfl) fun _ => intResult _

theorem compileEq [Port] (returnType : Word) (defs : ℕ → Arg) : Sound (compileEq returnType defs) := by
  refine bind (loadInt _ _) fun _ => bind (loadInt _ _) fun _ => bind (emit rfl) fun _ =>
    bind ctx fun _ => bind (tagOf _) fun _ => ?_
  split
  · exact bind (emit rfl) fun _ => pure _
  · exact pure _

theorem pushRegs_flat (n : ℕ) : (pushRegs n).all Jit.isFlat = true := by
  unfold pushRegs
  split
  · rfl
  · rfl

theorem popRegs_flat (n : ℕ) : (popRegs n).all Jit.isFlat = true := by
  unfold popRegs
  split
  · rfl
  · rfl

/-- Code between `push_frame_regs` and `pop_frame_regs`. -/
theorem savedRegs {f : Option (ℕ → Arg)} {mid : List Jit} (hm : mid.all Jit.isFlat = true) :
    Sound (CompM.emit (pushFrameRegs f ++ mid ++ popFrameRegs f)) := by
  apply emit
  rw [List.all_append, List.all_append, pushFrameRegs, popFrameRegs, pushRegs_flat, popRegs_flat, hm]
  rfl

theorem compileDef [Port] (defs : ℕ → Arg) : Sound (compileDef defs) :=
  bind (emit rfl) fun _ => bind (loadCell _ _) fun _ => bind frame fun _ =>
    bind (savedRegs rfl) fun _ => anyResult

theorem letIsInt (d : Arg) : Sound (letIsInt d) := by
  unfold Compiler.letIsInt
  split
  · exact pure _
  · exact pure _
  · exact bind (tagOf _) fun _ => pure _
  · exact pure _

theorem letEntry (name : List UInt8) (f : ℕ → Arg) (value : Arg) : Sound (letEntry name f value) := by
  unfold Compiler.letEntry
  split
  · exact pure _
  · exact bind (letIsInt _) fun _ => bind frame fun _ => bind (setFrameEntry _ _) fun _ =>
      bind frame fun _ => bind (setFrame _) fun _ => pure _

theorem letLoad [Port] (isInt : Bool) (value : Arg) : Sound (letLoad isInt value) := by
  refine bind ctx fun _ => ?_
  split
  · exact bind (loadInt _ _) fun _ => pure _
  · exact bind (loadCell _ _) fun _ => pure _

theorem letStore [Port] (d : Arg) : Sound (letStore d) := by
  refine bind frame fun _ => ?_
  split
  · exact emit rfl
  · exact emit rfl

theorem compileLet [Port] (returnType : Word) (defs : ℕ → Arg) : Sound (compileLet returnType defs) := by
  refine bind frame fun fr => ?_
  split
  · exact fail _
  · refine bind (nameOf _) fun _ => bind (letEntry _ _ _) fun _ => bind (letLoad _ _) fun _ =>
      bind (letStore _) fun _ => bind (tagOf _) fun _ => bind (tagOf _) fun _ => ?_
    split
    · exact bind (emit rfl) fun _ => anyResult
    · exact pure _

theorem compileNew [Port] (n : ℕ) (origOp : Word) (defs : ℕ → Arg) : Sound (compileNew n origOp defs) := by
  unfold Compiler.compileNew
  apply bind
  · split
    · exact pure _
    · exact envCell _
  · intro arg
    refine bind (tagOf _) fun _ => ?_
    split
    · exact fail _
    · exact bind (emit rfl) fun _ =>
        bind (alloc fun _ _ _ hok ha => allocStruct_keeps hok ha) fun _ => pure _

theorem firstElem (w : Word) : Sound (firstElem w) := by
  refine bind (fetch _) fun c => ?_
  split
  · exact fetch _
  · exact fetch _

theorem findField (elements : Word) (name : List UInt8) (k : ℕ) :
    ∀ i, Sound (findField elements name k i) := by
  induction k with
  | zero => exact fun _ => pure _
  | succ k ih =>
    intro i
    refine bind (fetch _) fun _ => bind (nameOf _) fun _ => ?_
    split
    · exact pure _
    · exact ih _

theorem sgetDef (d : Arg) (field : List UInt8) : Sound (sgetDef d field) := by
  unfold Compiler.sgetDef
  split
  · exact bind (envCell _) fun _ => firstElem _
  · cases d.typeName with
    | none => exact fail _
    | some typeName => exact bind (lookup _) fun _ => envCell _

theorem compileSget [Port] (defs : ℕ → Arg) : Sound (compileSget defs) := by
  refine bind (nameOf _) fun _ => bind (sgetDef _ _) fun _ => bind (fetch _) fun _ => ?_
  split
  · exact fail _
  · refine bind (fetch _) fun _ => bind (findField _ _ _ _) fun found => ?_
    cases found with
    | none => exact bind (emit rfl) fun _ => fail _
    | some i =>
      exact bind (loadCell _ _) fun _ => bind (emit rfl) fun _ => bind (fetch _) fun _ =>
        bind (tagOf _) fun _ => bind ctx fun _ => pure _

theorem sputDef (d : Arg) : Sound (sputDef d) := by
  unfold Compiler.sputDef
  split
  · exact bind (envCell _) fun _ => firstElem _
  · cases d.typeName with
    | none => exact fail _
    | some typeName =>
      refine bind (lookup _) fun e => ?_
      cases e with
      | none => exact fail _
      | some e => exact envCell _

theorem compileSput [Port] (defs : ℕ → Arg) : Sound (compileSput defs) := by
  refine bind (nameOf _) fun _ => bind (sputDef _) fun _ => bind (fetch _) fun _ => ?_
  split
  · exact fail _
  · refine bind (fetch _) fun _ => bind (findField _ _ _ _) fun found => ?_
    cases found with
    | none => exact bind (emit rfl) fun _ => fail _
    | some i =>
      exact bind (loadCell _ _) fun _ => bind (emit rfl) fun _ => bind (loadCell _ _) fun _ =>
        bind (emit rfl) fun _ => anyResult

theorem compileQuote (origArgs : Word) : Sound (compileQuote origArgs) := by
  refine bind (fetch _) fun _ => ?_
  split
  · exact fail _
  · exact bind (emit rfl) fun _ => anyResult

theorem compileCar [Port] (defs : ℕ → Arg) : Sound (compileCar defs) :=
  bind ctx fun _ => bind (loadCell _ _) fun _ => bind (emit rfl) fun _ => pure _

theorem compileCdr [Port] (defs : ℕ → Arg) : Sound (compileCdr defs) :=
  bind ctx fun _ => bind (loadCell _ _) fun _ => bind (emit rfl) fun _ => pure _

theorem compileCall1 [Port] {call : Jit} (hc : call.isFlat = true) (defs : ℕ → Arg) :
    Sound (compileCall1 call defs) :=
  bind (loadCell _ _) fun _ => bind (emit (by rw [List.all_cons, hc]; rfl)) fun _ => anyResult

theorem compileCall2 [Port] {call : Jit} (hc : call.isFlat = true) (defs : ℕ → Arg) :
    Sound (compileCall2 call defs) :=
  bind (loadCell _ _) fun _ => bind (loadCell _ _) fun _ =>
    bind (emit (by rw [List.all_cons, hc]; rfl)) fun _ => anyResult

theorem compileSavedCall1 [Port] (f : CFun) (defs : ℕ → Arg) : Sound (compileSavedCall1 f defs) :=
  bind (loadCell _ _) fun _ => bind frame fun _ => bind (savedRegs rfl) fun _ => anyResult

theorem compileSend [Port] (defs : ℕ → Arg) : Sound (compileSend defs) :=
  bind (loadCell _ _) fun _ => bind (loadCell _ _) fun _ => bind frame fun _ =>
    bind (savedRegs rfl) fun _ => anyResult

theorem compileIntCall [Port] (f : CFun) (defs : ℕ → Arg) : Sound (compileIntCall f defs) :=
  bind (loadInt _ _) fun _ => bind (emit rfl) fun _ => anyResult

theorem compileSubstr [Port] (defs : ℕ → Arg) : Sound (compileSubstr defs) :=
  bind (loadCell _ _) fun _ => bind (loadInt _ _) fun _ => bind (loadInt _ _) fun _ =>
    bind (emit rfl) fun _ => anyResult

theorem compileGet32 [Port] (defs : ℕ → Arg) : Sound (compileGet32 defs) :=
  bind (loadInt _ _) fun _ => bind (loadCell _ _) fun _ => bind (emit rfl) fun _ => anyResult

theorem compileSize [Port] (returnType : Word) (defs : ℕ → Arg) : Sound (compileSize returnType defs) := by
  refine bind ctx fun _ => bind (loadCell _ _) fun _ => bind (emit rfl) fun _ =>
    bind (tagOf _) fun _ => ?_
  split
  · exact bind (emit rfl) fun _ => pure _
  · split
    · exact bind (emit rfl) fun _ => pure _
    · exact pure _

theorem compileGc [Port] : Sound compileGc :=
  bind frame fun _ => bind (savedRegs rfl) fun _ => anyResult

theorem compileSymbols [Port] : Sound compileSymbols := bind (emit rfl) fun _ => anyResult

theorem compileAtom [Port] (expr : Word) (c : Cell) : Sound (compileAtom expr c) := by
  refine bind ctx fun x => ?_
  split
  · refine bind (fetch _) fun _ => bind frame fun _ => ?_
    split
    · exact bind (loadCell _ _) fun _ => pure _
    · refine bind (lookup _) fun e => ?_
      cases e with
      | none => exact bind (emit rfl) fun _ => fail _
      | some e =>
        refine bind (emit rfl) fun _ => ?_
        split
        · exact fail _
        · exact pure _
  · exact bind (emit rfl) fun _ => pure _

/-! ## Lists, structs and calls -/

theorem doLoop (hrec : RecSound rec) (returnType : Word) (n : ℕ) :
    ∀ args, Sound (doLoop rec returnType n args) := by
  induction n with
  | zero => exact fun _ => outOfFuel
  | succ n ih =>
    intro args
    refine bind (fetch _) fun _ => ?_
    split
    · exact pure _
    · exact bind ctx fun _ => bind (fetch _) fun _ => bind (fetch _) fun _ =>
        bind (hrec _ _) fun _ => ih _

theorem compileDo (hrec : RecSound rec) (n : ℕ) (returnType origArgs : Word) :
    Sound (compileDo rec n returnType origArgs) := by
  refine bind (fetch _) fun _ => ?_
  split
  · exact fail _
  · exact bind (doLoop hrec _ _ _) fun _ => anyResult

theorem listLoop (hrec : RecSound rec) (n : ℕ) : ∀ args, Sound (listLoop rec n args) := by
  induction n with
  | zero => exact fun _ => outOfFuel
  | succ n ih =>
    intro args
    refine bind (fetch _) fun _ => ?_
    split
    · exact pure _
    · exact bind ctx fun _ => bind (hrec _ _) fun _ => bind (emit rfl) fun _ =>
        bind (addSp _) fun _ => bind (fetch _) fun _ => bind (ih _) fun _ => pure _

theorem listPops [Port] (n : ℕ) : Sound (listPops n) := by
  induction n with
  | zero => exact pure _
  | succ n ih =>
    exact bind (emit rfl) fun _ => bind (addSp _) fun _ => bind (emit rfl) fun _ => ih

theorem compileList [Port] (hrec : RecSound rec) (n : ℕ) (origArgs : Word) :
    Sound (compileList rec n origArgs) :=
  bind (listLoop hrec _ _) fun _ => bind (emit rfl) fun _ => bind (listPops _) fun _ => anyResult

theorem structLoop (hrec : RecSound rec) (n : ℕ) : ∀ args, Sound (structLoop rec n args) := by
  induction n with
  | zero => exact fun _ => outOfFuel
  | succ n ih =>
    intro args
    refine bind (fetch _) fun _ => ?_
    split
    · exact pure _
    · refine bind (tagOf _) fun _ => ?_
      split
      · exact fail _
      · refine bind (emit rfl) fun _ => bind (fetch _) fun _ => bind (fetch _) fun _ => ?_
        split
        · exact fail _
        · exact bind (fetch _) fun _ => bind ctx fun _ => bind (hrec _ _) fun _ =>
            bind (emit rfl) fun _ => bind (addSp _) fun _ => bind (ih _) fun _ => pure _

theorem structPops [Port] (n : ℕ) : Sound (structPops n) := by
  induction n with
  | zero => exact pure _
  | succ n ih =>
    exact bind (emit rfl) fun _ => bind (addSp _) fun _ => bind (emit rfl) fun _ => ih

theorem compileStruct [Port] (hrec : RecSound rec) (n : ℕ) (origArgs : Word) :
    Sound (compileStruct rec n origArgs) := by
  refine bind (fetch _) fun _ => bind (fetch _) fun nameSym => bind (emit rfl) fun _ =>
    bind (structLoop hrec _ _) fun _ => bind (emit rfl) fun _ => bind (structPops _) fun _ =>
      bind frame fun fr => bind (emit ?_) fun _ => anyResult
  simp only [List.all_append, pushFrameRegs, popFrameRegs, pushRegs_flat, popRegs_flat]
  rfl

theorem passInReg [Port] (pushed spo j : ℕ) (d : Arg) : Sound (passInReg pushed spo j d) := by
  unfold Compiler.passInReg
  split
  · exact emit rfl
  · exact loadCell _ _

theorem passArgs [Port] (pushed : ℕ) (defs : ℕ → Arg) (k : ℕ) :
    ∀ spo, Sound (passArgs pushed defs k spo) := by
  induction k with
  | zero => exact fun _ => pure _
  | succ j ih =>
    intro spo
    unfold Compiler.passArgs
    split
    · exact bind (loadCell _ _) fun _ => bind (emit rfl) fun _ => bind (addSp _) fun _ => ih _
    · exact bind (passInReg _ _ _ _) fun _ => ih _

theorem dropSpilled [Port] (spo : ℕ) : Sound (dropSpilled spo) := by
  unfold Compiler.dropSpilled
  split
  · exact pure _
  · exact bind (emit rfl) fun _ => addSp _

theorem compileCall [Port] (e : ℕ) (a : Args) : Sound (compileCall e a) :=
  bind frame fun _ => bind (emit (pushRegs_flat _)) fun _ => bind (addSp _) fun _ =>
    bind (passArgs _ _ _ _) fun _ => bind (emit rfl) fun _ => bind (dropSpilled _) fun _ =>
      bind (emit (popRegs_flat _)) fun _ => bind (addSp _) fun _ => anyResult

theorem typedParam (x : Cell) : Sound (typedParam x) := by
  refine bind (fetch _) fun _ => ?_
  split
  · exact fail _
  · refine bind (tagOf _) fun _ => ?_
    split
    · exact fail _
    · refine bind (nameOf _) fun _ => bind (nameOf _) fun _ => bind (lookup _) fun e =>
        bind ctx fun _ => ?_
      cases e with
      | none => exact fail _
      | some e =>
        dsimp only
        split
        · exact fail _
        · refine bind (tagOf _) fun _ => ?_
          split
          · exact fail _
          · exact pure _

theorem fnParamDecl (cell : Word) : Sound (fnParamDecl cell) := by
  refine bind (fetch _) fun _ => bind ctx fun _ => ?_
  split
  · exact bind (fetch _) fun _ => pure _
  · split
    · exact typedParam _
    · exact fail _

theorem allocCell (f : Cell → Cell) : Sound (CompM.alloc fun h => h.allocCell f) :=
  alloc fun _ _ _ hok ha => (allocCell_keeps hok ha).1

theorem fnParams [Port] (numLets : ℕ) (defs : ℕ → Arg) (k : ℕ) :
    ∀ (f : ℕ → Arg) (fnArgs : Word), Sound (fnParams numLets defs k f fnArgs) := by
  induction k with
  | zero => exact fun _ _ => pure _
  | succ k ih =>
    intro f fnArgs
    exact bind (fnParamDecl _) fun _ =>
      bind (alloc fun _ _ _ hok ha => allocSym_keeps hok ha) fun _ => bind (allocCell _) fun _ =>
        bind (allocCell _) fun _ => ih _ _

/-! ## Builtins with labels -/

/-- A piece of closed code and what a form with labels puts around it. -/
theorem enclose_one {s s₀ s₁ s₂ : CState} {code : List Jit} (p₀ p₁ : List Jit)
    (h : Closed s₀ code s₁)
    (h₀ : Later s s₀) (h₂ : Later s₁ s₂) (hlevel : ∀ i ∈ p₀ ++ p₁, ∀ fns, enter fns i = fns)
    (hown : ∀ l ∈ labelsOf (p₀ ++ p₁), Fresh s s₀ l) (hnodup : (labelsOf (p₀ ++ p₁)).Nodup)
    (htarget : ∀ i ∈ p₀ ++ p₁, ∀ l, i.target = some l → Jit.label l ∈ p₀ ++ p₁) :
    Closed s (p₀ ++ (code ++ p₁)) s₂ := by
  have hnil : Closed s₁ [] s₂ := .flat rfl h₂
  have h := Closed.enclose p₀ p₁ [] h hnil h₀ (.refl h.later.heap.freeListOk)
    (by rwa [List.append_nil]) (by rw [List.append_nil]; exact fun l hl => Or.inl (hown l hl))
    (by rwa [List.append_nil]) (by rwa [List.append_nil])
  rwa [List.nil_append, List.append_nil] at h

/-- A label nothing goes to, behind closed code. -/
theorem skipLabel {s s₁ : CState} {code : List Jit} (h : Closed s.bump code s₁)
    (hok : s.heap.FreeListOk) :
    Closed s (code ++ [.label (.skip (s.labelSkipCount + 1))]) s₁ := by
  refine enclose_one [] _ h (.bump hok) (.refl h.later.heap.freeListOk) ?_ ?_ ?_ ?_
  · intro i hi fns
    obtain rfl := List.mem_singleton.mp hi
    rfl
  · intro l hl
    obtain rfl := List.mem_singleton.mp hl
    exact ⟨Nat.lt_succ_self _, le_rfl⟩
  · exact List.nodup_singleton _
  · intro i hi l ht
    obtain rfl := List.mem_singleton.mp hi
    exact absurd ht (by simp [Jit.target])

theorem compilePut [Port] {store : Jit} (hs : store.isFlat = true) (defs : ℕ → Arg) :
    Sound (compilePut store defs) := by
  intro c s ty code s' hok h
  unfold Compiler.compilePut at h
  rw [emits_nextLabel_bind] at h
  obtain ⟨_, c₁, s₁, _, h₁, k₁, rfl⟩ := emits_bind.mp h
  obtain ⟨_, c₂, s₂, _, h₂, k₂, rfl⟩ := emits_bind.mp k₁
  obtain ⟨_, c₃, s₃, _, h₃, k₃, rfl⟩ := emits_bind.mp k₂
  simp only [emits_emit_bind, emits_ctx_bind, emits_pure] at k₃
  obtain ⟨_, ⟨_, ⟨-, rfl, rfl⟩, rfl⟩, rfl⟩ := k₃
  have hc₁ := loadCell _ _ _ s.bump _ _ _ hok h₁
  have hc₂ := loadInt _ _ _ _ _ _ _ hc₁.later.heap.freeListOk h₂
  have hc₃ := loadInt _ _ _ _ _ _ _ hc₂.later.heap.freeListOk h₃
  have hflat : [Jit.movr r1 r0, .ldr r1, .addr r1 r2, store].all Jit.isFlat = true := by
    simp only [List.all_cons, hs]
    rfl
  have hc := ((hc₁.append hc₂).append hc₃).append (.flat hflat (.refl hc₃.later.heap.freeListOk))
  have hl := skipLabel (s := s) hc hok
  simpa only [List.append_assoc, List.append_nil] using hl

theorem compilePut32 [Port] (defs : ℕ → Arg) : Sound (compilePut32 defs) := by
  intro c s ty code s' hok h
  unfold Compiler.compilePut32 at h
  rw [emits_nextLabel_bind] at h
  obtain ⟨_, c₁, s₁, _, h₁, k₁, rfl⟩ := emits_bind.mp h
  obtain ⟨_, c₂, s₂, _, h₂, k₂, rfl⟩ := emits_bind.mp k₁
  obtain ⟨_, c₃, s₃, _, h₃, k₃, rfl⟩ := emits_bind.mp k₂
  simp only [emits_emit_bind, emits_ctx_bind, emits_pure] at k₃
  obtain ⟨_, ⟨_, ⟨_, ⟨-, rfl, rfl⟩, rfl⟩, rfl⟩, rfl⟩ := k₃
  have hc₁ := loadCell _ _ _ s.bump _ _ _ hok h₁
  have hc₂ := loadInt _ _ _ _ _ _ _ hc₁.later.heap.freeListOk h₂
  have hc₃ := loadInt _ _ _ _ _ _ _ hc₂.later.heap.freeListOk h₃
  have hend := Later.refl hc₃.later.heap.freeListOk
  have hc := ((hc₁.append hc₂).append hc₃).append
    (.flat (show [Jit.movr r1 r0, .ldr r1, .addr r1 r2, .strw r1].all Jit.isFlat = true from rfl) hend)
  have hl := (skipLabel (s := s) hc hok).append
    (.flat (show [Jit.movr r0 r1, .call .allocInt].all Jit.isFlat = true from rfl) hend)
  simpa only [List.append_assoc, List.append_nil] using hl

/-- The type check of `get8` and `get16`. -/
theorem tagCheck {s s₁ s₂ : CState} {code : List Jit} {load : Jit} (hload : load.isFlat = true)
    (h : Closed s.bump code s₁) (hok : s.heap.FreeListOk) (h₂ : Later s₁ s₂) :
    Closed s (code ++ [.cmpi r1 tagBytes, .je (.ok (s.labelSkipCount + 1)), .cmpi r1 tagStr,
      .je (.ok (s.labelSkipCount + 1)), .movi r3 (.int 0), .jmp (.skip (s.labelSkipCount + 1)),
      .label (.ok (s.labelSkipCount + 1)), .movr r1 r0, .movr r1 r0, .ldr r1, .addr r1 r2,
      .movi r3 (.int 0), load, .label (.skip (s.labelSkipCount + 1))]) s₂ := by
  have hplace : labelsOf [load] = [] := by
    rw [Jit.isFlat, Bool.and_eq_true] at hload
    exact List.filterMap_cons_none (Option.isNone_iff_eq_none.mp hload.2)
  have hlabels : labelsOf ([] ++ [.cmpi r1 tagBytes, .je (.ok (s.labelSkipCount + 1)),
      .cmpi r1 tagStr, .je (.ok (s.labelSkipCount + 1)), .movi r3 (.int 0),
      .jmp (.skip (s.labelSkipCount + 1)), .label (.ok (s.labelSkipCount + 1)), .movr r1 r0,
      .movr r1 r0, .ldr r1, .addr r1 r2, .movi r3 (.int 0), load,
      .label (.skip (s.labelSkipCount + 1))]) =
      [.ok (s.labelSkipCount + 1), .skip (s.labelSkipCount + 1)] := by
    change labelsOf ([.label (.ok (s.labelSkipCount + 1))] ++ ([load] ++
      [.label (.skip (s.labelSkipCount + 1))])) = _
    rw [labelsOf_append, labelsOf_append, hplace]
    rfl
  refine enclose_one [] _ h (.bump hok) h₂ ?_ ?_ ?_ ?_
  · intro i hi fns
    simp only [List.nil_append, List.mem_cons, List.not_mem_nil, or_false] at hi
    rcases hi with rfl | rfl | rfl | rfl | rfl | rfl | rfl | rfl | rfl | rfl | rfl | rfl | rfl | rfl
    case inr.inr.inr.inr.inr.inr.inr.inr.inr.inr.inr.inr.inl => exact Jit.isFlat_enter hload
    all_goals rfl
  · intro l hl
    rw [hlabels] at hl
    simp only [List.mem_cons, List.not_mem_nil, or_false] at hl
    rcases hl with rfl | rfl
    · exact ⟨Nat.lt_succ_self _, le_rfl⟩
    · exact ⟨Nat.lt_succ_self _, le_rfl⟩
  · rw [hlabels]
    simp
  · intro i hi l ht
    simp only [List.nil_append, List.mem_cons, List.not_mem_nil, or_false] at hi
    rcases hi with rfl | rfl | rfl | rfl | rfl | rfl | rfl | rfl | rfl | rfl | rfl | rfl | rfl | rfl
    case inr.inr.inr.inr.inr.inr.inr.inr.inr.inr.inr.inr.inl =>
      rw [Jit.isFlat_target hload] at ht
      exact absurd ht (by simp)
    all_goals simp only [Jit.target, Option.some.injEq, reduceCtorEq] at ht
    all_goals subst ht
    all_goals simp

theorem compileGet [Port] {load : Jit} (hload : load.isFlat = true) (returnType : Word) (defs : ℕ → Arg) :
    Sound (compileGet load returnType defs) := by
  intro c s ty code s' hok h
  unfold Compiler.compileGet at h
  rw [emits_nextLabel_bind] at h
  obtain ⟨_, c₁, s₁, _, h₁, k₁, rfl⟩ := emits_bind.mp h
  obtain ⟨_, c₂, s₂, _, h₂, k₂, rfl⟩ := emits_bind.mp k₁
  simp only [emits_emit_bind] at k₂
  obtain ⟨_, ⟨_, ⟨rest, k₃, rfl⟩, rfl⟩, rfl⟩ := k₂
  have hc₁ := loadCell _ _ _ s.bump _ _ _ hok h₁
  have hc₂ := loadInt _ _ _ _ _ _ _ hc₁.later.heap.freeListOk h₂
  have hend := Later.refl hc₂.later.heap.freeListOk
  have hc := (hc₁.append hc₂).append
    (.flat (show [Jit.movr r0 r1, .addi r1 (2 * ptrsz), .ldr r1].all Jit.isFlat = true from rfl) hend)
  have ht := (tagCheck (s := s) hload hc hok hend).append
    (.flat (show [Jit.movr argr0 r3].all Jit.isFlat = true from rfl) hend)
  have hi := ht.append (intResult _ _ _ _ _ _ hc₂.later.heap.freeListOk k₃)
  simpa only [List.append_assoc] using hi

theorem compileElse (hrec : RecSound rec) {skip : ℕ} {thenType returnType elseCell : Word}
    {c : Ctx} {s s₁ : CState} {th : List Jit} (hth : Closed s.bump th s₁) (hok : s.heap.FreeListOk)
    (hskip : skip = s.labelSkipCount + 1) {u : Unit} {code : List Jit} {s' : CState}
    (h : Emits (compileElse rec skip thenType returnType elseCell) c s₁ u code s') :
    Closed s ([.cmpi r0 0, .je (.else_ skip)] ++ (th ++ code)) s' := by
  subst hskip
  have hok₁ := hth.later.heap.freeListOk
  have hcount := hth.later.count
  have hn : s.labelSkipCount + 1 ≤ s₁.labelSkipCount := hcount
  unfold Compiler.compileElse at h
  split at h
  · rw [emits_nextLabel_bind, emits_emit_bind] at h
    obtain ⟨_, k₁, rfl⟩ := h
    obtain ⟨elseType, el, s₂, _, hel, k₂, rfl⟩ := emits_bind.mp k₁
    rw [emits_emit_bind] at k₂
    obtain ⟨rest, k₃, rfl⟩ := k₂
    have hel := hrec _ _ _ s₁.bump _ _ _ hok₁ hel
    have hrest : rest = [] ∧ s' = s₂ := by
      simp only [(ReadOnly.tagOf _).emits_bind] at k₃
      obtain ⟨returnTag, -, thenTag, -, elseTag, -, k₃⟩ := k₃
      split at k₃
      · exact absurd k₃ emits_fail
      · exact (emits_pure.mp k₃).2
    obtain ⟨rfl, rfl⟩ := hrest
    have hbump : Later s₁ s₁.bump := .bump hok₁
    have h := Closed.enclose [.cmpi r0 0, .je (.else_ (s.labelSkipCount + 1))]
      [.jmp (.endif (s₁.labelSkipCount + 1)), .label (.else_ (s.labelSkipCount + 1))]
      [.label (.endif (s₁.labelSkipCount + 1))] hth hel (.bump hok) hbump ?_ ?_ ?_ ?_
    · simpa only [List.append_assoc, List.append_nil] using h
    · intro i hi fns
      simp only [List.cons_append, List.nil_append, List.mem_cons, List.not_mem_nil, or_false] at hi
      rcases hi with rfl | rfl | rfl | rfl | rfl <;> rfl
    · intro l hl
      change l ∈ [Label.else_ _, Label.endif _] at hl
      simp only [List.mem_cons, List.not_mem_nil, or_false] at hl
      rcases hl with rfl | rfl
      · exact Or.inl ⟨Nat.lt_succ_self _, le_rfl⟩
      · exact Or.inr ⟨Nat.lt_succ_self _, le_rfl⟩
    · change [Label.else_ _, Label.endif _].Nodup
      simp
    · intro i hi l ht
      simp only [List.cons_append, List.nil_append, List.mem_cons, List.not_mem_nil, or_false] at hi
      rcases hi with rfl | rfl | rfl | rfl | rfl
      all_goals simp only [Jit.target, Option.some.injEq, reduceCtorEq] at ht
      all_goals subst ht
      all_goals simp
  · obtain ⟨rfl, rfl⟩ := emits_emit.mp h
    refine enclose_one _ _ hth (.bump hok) (.refl hok₁) ?_ ?_ ?_ ?_
    · intro i hi fns
      simp only [List.cons_append, List.nil_append, List.mem_cons, List.not_mem_nil, or_false] at hi
      rcases hi with rfl | rfl | rfl <;> rfl
    · intro l hl
      obtain rfl := List.mem_singleton.mp hl
      exact ⟨Nat.lt_succ_self _, le_rfl⟩
    · exact List.nodup_singleton _
    · intro i hi l ht
      simp only [List.cons_append, List.nil_append, List.mem_cons, List.not_mem_nil, or_false] at hi
      rcases hi with rfl | rfl | rfl
      all_goals simp only [Jit.target, Option.some.injEq, reduceCtorEq] at ht
      all_goals subst ht
      all_goals simp

theorem loadInt_flat [Port] {dreg : ℕ} {arg : Arg} {c : Ctx} {s s' : CState} {u : Unit} {code : List Jit}
    (h : Emits (Compiler.loadInt dreg arg) c s u code s') : code.all Jit.isFlat = true ∧ s' = s := by
  unfold Compiler.loadInt at h
  split at h
  · rw [emits_fetch_bind] at h
    obtain ⟨_, -, h⟩ := h
    obtain ⟨rfl, rfl⟩ := emits_emit.mp h
    exact ⟨rfl, rfl⟩
  · obtain ⟨rfl, rfl⟩ := emits_emit.mp h
    exact ⟨rfl, rfl⟩
  · obtain ⟨rfl, rfl⟩ := emits_emit.mp h
    exact ⟨rfl, rfl⟩
  · obtain ⟨rfl, rfl⟩ := emits_emit.mp h
    split
    · exact ⟨rfl, rfl⟩
    · exact ⟨rfl, rfl⟩
  · rw [emits_frame_bind] at h
    obtain ⟨rfl, rfl⟩ := emits_emit.mp h
    exact ⟨rfl, rfl⟩
  · rw [emits_frame_bind] at h
    obtain ⟨rfl, rfl⟩ := emits_emit.mp h
    exact ⟨rfl, rfl⟩
  · obtain ⟨rfl, rfl⟩ := emits_emit.mp h
    exact ⟨rfl, rfl⟩

theorem compileIf [Port] (hrec : RecSound rec) (returnType : Word) (defs : ℕ → Arg) :
    Sound (compileIf rec returnType defs) := by
  intro c s ty code s' hok h
  unfold Compiler.compileIf at h
  rw [emits_nextLabel_bind] at h
  obtain ⟨_, c₁, s₁, _, h₁, k₁, rfl⟩ := emits_bind.mp h
  obtain ⟨hflat, rfl⟩ := loadInt_flat h₁
  rw [emits_emit_bind] at k₁
  obtain ⟨_, k₂, rfl⟩ := k₁
  obtain ⟨thenType, th, s₂, _, hth, k₃, rfl⟩ := emits_bind.mp k₂
  obtain ⟨_, el, s₃, _, hel, k₄, rfl⟩ := emits_bind.mp k₃
  simp only [emits_ctx_bind, emits_pure] at k₄
  obtain ⟨-, rfl, rfl⟩ := k₄
  have hth := hrec _ _ _ s.bump _ _ _ hok hth
  have h := Closed.append (.flat hflat (.refl hok)) (compileElse hrec hth hok rfl hel)
  simpa only [List.append_assoc, List.append_nil] using h

/-- The end of `while` jumps to a label of its own. -/
theorem whileTail_level (boxed : Bool) (n : ℕ) :
    ∀ i ∈ whileTail boxed n, ∀ fns, enter fns i = fns := by
  intro i hi fns
  cases boxed with
  | false => exact absurd hi List.not_mem_nil
  | true =>
    simp only [whileTail, if_true, List.mem_cons, List.not_mem_nil, or_false] at hi
    rcases hi with rfl | rfl | rfl | rfl <;> rfl

/-- The condition and the body of `while` with its labels around them. -/
theorem whileCode_closed {s s₁ s' : CState} {cc bc : List Jit} (boxed : Bool)
    (hc : Closed s.bump cc s₁) (hb : Closed s₁ bc s') (hok : s.heap.FreeListOk) :
    Closed s (whileCode boxed (s.labelSkipCount + 1) cc bc) s' := by
  have hparts : [Jit.label (.loop (s.labelSkipCount + 1))] ++
      [.cmpi r0 0, .je (.skip (s.labelSkipCount + 1))] ++
      ([.jmp (.loop (s.labelSkipCount + 1)), .label (.skip (s.labelSkipCount + 1))] ++
        whileTail boxed (s.labelSkipCount + 1)) =
      [.label (.loop (s.labelSkipCount + 1)), .cmpi r0 0, .je (.skip (s.labelSkipCount + 1)),
        .jmp (.loop (s.labelSkipCount + 1)), .label (.skip (s.labelSkipCount + 1))] ++
        whileTail boxed (s.labelSkipCount + 1) := rfl
  have hlabels : labelsOf ([Jit.label (.loop (s.labelSkipCount + 1)), .cmpi r0 0,
      .je (.skip (s.labelSkipCount + 1)), .jmp (.loop (s.labelSkipCount + 1)),
      .label (.skip (s.labelSkipCount + 1))] ++ whileTail boxed (s.labelSkipCount + 1)) =
      [.loop (s.labelSkipCount + 1), .skip (s.labelSkipCount + 1)] ++
        if boxed then [.skip2 (s.labelSkipCount + 1)] else [] := by
    cases boxed <;> rfl
  refine Closed.enclose _ _ _ hc hb (.bump hok) (.refl hc.later.heap.freeListOk) ?_ ?_ ?_ ?_
  · rw [hparts]
    intro i hi fns
    rcases List.mem_append.mp hi with hi | hi
    · simp only [List.mem_cons, List.not_mem_nil, or_false] at hi
      rcases hi with rfl | rfl | rfl | rfl | rfl <;> rfl
    · exact whileTail_level boxed _ i hi fns
  · rw [hparts, hlabels]
    intro l hl
    left
    cases boxed with
    | false =>
      simp only [Bool.false_eq_true, if_false, List.append_nil, List.mem_cons, List.not_mem_nil,
        or_false] at hl
      rcases hl with rfl | rfl
      · exact ⟨Nat.lt_succ_self _, le_rfl⟩
      · exact ⟨Nat.lt_succ_self _, le_rfl⟩
    | true =>
      simp only [if_true, List.cons_append, List.nil_append, List.mem_cons, List.not_mem_nil,
        or_false] at hl
      rcases hl with rfl | rfl | rfl
      · exact ⟨Nat.lt_succ_self _, le_rfl⟩
      · exact ⟨Nat.lt_succ_self _, le_rfl⟩
      · exact ⟨Nat.lt_succ_self _, le_rfl⟩
  · rw [hparts, hlabels]
    cases boxed <;> simp
  · rw [hparts]
    intro i hi l ht
    rcases List.mem_append.mp hi with hi | hi
    · simp only [List.mem_cons, List.not_mem_nil, or_false] at hi
      rcases hi with rfl | rfl | rfl | rfl | rfl
      all_goals simp only [Jit.target, Option.some.injEq, reduceCtorEq] at ht
      all_goals subst ht
      all_goals simp
    · cases boxed with
      | false => exact absurd hi List.not_mem_nil
      | true =>
        simp only [whileTail, if_true, List.mem_cons, List.not_mem_nil, or_false] at hi
        rcases hi with rfl | rfl | rfl | rfl
        all_goals simp only [Jit.target, Option.some.injEq, reduceCtorEq] at ht
        all_goals subst ht
        all_goals simp [whileTail]

theorem compileWhile (hrec : RecSound rec) (returnType : Word) (defs : ℕ → Arg) :
    Sound (compileWhile rec returnType defs) := by
  intro c s ty code s' hok h
  unfold Compiler.compileWhile at h
  rw [emits_nextLabel_bind, emits_ctx_bind, emits_emit_bind] at h
  obtain ⟨_, k₁, rfl⟩ := h
  obtain ⟨condType, cc, s₁, _, hc, k₂, rfl⟩ := emits_bind.mp k₁
  simp only [(ReadOnly.tagOf _).emits_bind, emits_emit_bind] at k₂
  obtain ⟨condTag, -, _, ⟨_, k₃, rfl⟩, rfl⟩ := k₂
  obtain ⟨bodyType, bc, s₂, _, hb, k₄, rfl⟩ := emits_bind.mp k₃
  simp only [(ReadOnly.tagOf _).emits_bind, emits_emit_bind, emits_pure] at k₄
  obtain ⟨_, ⟨returnTag, -, _, ⟨-, rfl, rfl⟩, rfl⟩, rfl⟩ := k₄
  have hcc := hrec _ _ _ s.bump _ _ _ hok hc
  have hok₁ := hcc.later.heap.freeListOk
  have hbc := hrec _ _ _ _ _ _ _ hok₁ hb
  have hldr : (if condTag ≠ tagInt then [Jit.ldr r0] else []).all Jit.isFlat = true := by
    split <;> rfl
  have hw := whileCode_closed (decide (returnTag = tagAny)) (hcc.append (.flat hldr (.refl hok₁)))
    hbc hok
  simpa [whileCode, whileTail] using hw

theorem compileFn [Port] (hrec : RecSound rec) (n call : ℕ) (a : Args) : Sound (compileFn rec n call a) := by
  intro c s ty code s' hok h
  unfold Compiler.compileFn at h
  split at h
  · exact absurd h emits_fail
  · simp only [emits_ctx_bind, emits_fetch_bind, emits_alloc_bind] at h
    obtain ⟨lets, -, nil, hn, hnil, k₁⟩ := h
    obtain ⟨⟨f, fnArgs⟩, code₁, s₁, _, h₁, k₂, rfl⟩ := emits_bind.mp k₁
    have hkn := (allocCell_keeps hok (show s.heap.allocCons .null .null = _ from hnil)).1
    have hp := fnParams _ _ _ _ _ _ { s with heap := hn } _ _ _ hkn.freeListOk h₁
    have hs₁ : Later s s₁ := (show Later s { s with heap := hn } from ⟨le_rfl, hkn⟩).trans hp.later
    unfold clearNext at k₂
    simp only [emits_alloc_bind] at k₂
    obtain ⟨d, hd, hda, lambda, hl, hla, _, hc, hca, k₃⟩ := k₂
    obtain ⟨-, rfl⟩ := Prod.mk.inj (Except.ok.inj hca)
    have hkd := (allocCell_keeps hs₁.heap.freeListOk hda).1
    obtain ⟨hkl, hin, hout⟩ := allocCell_keeps hkd.freeListOk hla
    simp only [emits_emit_bind, emits_frame_bind, emits_setFrame_bind] at k₃
    obtain ⟨_, k₄, rfl⟩ := k₃
    obtain ⟨bodyType, body, s₂, _, hb, k₅, rfl⟩ := emits_bind.mp k₄
    simp only [emits_setFrame_bind, emits_emit_bind, emits_pure] at k₅
    obtain ⟨_, ⟨-, rfl, rfl⟩, rfl⟩ := k₅
    -- the heap the body is compiled in
    have hkeep : KeepsAll s₁.heap (hl.setCell lambda { hl.cells lambda with dr := .null }) :=
      (hkd.trans hkl).setCell (hkd.keeps.supply hin) _
    have hbody := hrec _ _ _ _ _ _ _ hkeep.freeListOk hb
    have hfn : Closed s₁ (fnCode lambda lets.length body) s₂ :=
      .fn hbody ⟨le_rfl, hkeep⟩ (hkd.keeps.supply hin) hout
    have hframe : Closed s₂ [] { s₂ with frame := s₁.frame } :=
      .flat rfl ⟨le_rfl, .refl hbody.later.heap.freeListOk⟩
    have hstart : Closed s [] { s with heap := hn } := .flat rfl ⟨le_rfl, hkn⟩
    have h := (hstart.append hp).append (hfn.append hframe)
    simpa [fnCode] using h

/-! ## The switch and the recursion -/

theorem compileBuiltin [Port] (hrec : RecSound rec) (n call : ℕ) (returnType origArgs origOp : Word)
    (a : Args) (b : Builtin) :
    Sound (compileBuiltin rec n call returnType origArgs origOp a b) := by
  cases b with
  | add | sub | mul | div | mod | bitand | bitor | bitxor | shl | shr => exact compileArith rfl _ _
  | bitnot => exact compileBitnot _ _
  | gt => exact compileGt _ _
  | lt => exact compileLt _ _
  | eq => exact compileEq _ _
  | def_ => exact compileDef _
  | let_ => exact compileLet _ _
  | fn => exact compileFn hrec _ _ _
  | if_ => exact compileIf hrec _ _
  | while_ => exact compileWhile hrec _ _
  | do_ => exact compileDo hrec _ _ _
  | list => exact compileList hrec _ _
  | struct => exact compileStruct hrec _ _
  | new => exact compileNew _ _ _
  | sget => exact compileSget _
  | sput => exact compileSput _
  | quote => exact compileQuote _
  | car => exact compileCar _
  | cdr => exact compileCdr _
  | cons | concat | write | mount => exact compileCall2 rfl _
  | substr => exact compileSubstr _
  | get8 | get16 => exact compileGet rfl _ _
  | put8 | put16 => exact compilePut rfl _
  | get32 => exact compileGet32 _
  | put32 => exact compilePut32 _
  | alloc | allocStr => exact compileIntCall _ _
  | bytesToStr | read | eval | mmap => exact compileCall1 rfl _
  | size => exact compileSize _ _
  | gc => exact compileGc
  | symbols => exact compileSymbols
  | print | open_ | recv => exact compileSavedCall1 _ _
  | send => exact compileSend _
  | _ => exact anyResult

theorem compileOperator [Port] (hrec : RecSound rec) (n call : ℕ) (returnType origArgs : Word)
    (o : Operator) (a : Args) : Sound (compileOperator rec n call returnType origArgs o a) := by
  unfold Compiler.compileOperator
  split
  · split
    · exact compileBuiltin hrec _ _ _ _ _ _ _
    · exact anyResult
  · exact compileCall _ _

theorem compileForm [Port] (hrec : RecSound rec) (n : ℕ) (returnType : Word) (c : Cell) :
    Sound (compileForm rec n returnType c) := by
  unfold Compiler.compileForm
  split
  · exact fail _
  · refine bind (fetch _) fun opsym => ?_
    split
    · exact fail _
    · exact bind (fetch _) fun _ => bind (inspect _) fun _ => bind nextCall fun _ => bind ctx fun _ =>
        bind (argLoop hrec _ _ _ _ _ _) fun _ => bind (compileOperator hrec _ _ _ _ _ _) fun _ =>
          cleanReturn _ _

end Sound

/-- The code of every expression is closed. -/
theorem compileExpr_sound [Port] (n : ℕ) : Sound.RecSound (compileExpr n) := by
  induction n with
  | zero => exact fun _ _ => .outOfFuel
  | succ n ih =>
    intro expr returnType
    unfold compileExpr
    split
    · exact .fail _
    · refine .bind (.fetch _) fun c => ?_
      split
      · exact .compileAtom _ _
      · exact .compileForm ih _ _ _

/-! ## Label names -/

/-- Different labels have different names, if `%p` prints different addresses
    differently. -/
theorem Label.text_injective {p : ℕ → List UInt8} (hp : Function.Injective p) :
    Function.Injective (Label.text p) := by
  intro l l' h
  cases l <;> cases l' <;> simp [Label.text, ascii] at h
  case fn.fn => rw [hp h]
  case fe.fe => rw [hp h]
  all_goals rw [Writer.natText_injective h]

/-- In the code of an expression no two labels have the same name, the target of
    every branch is defined, and branch and label are in the same body. -/
theorem labels_wellFormed [Port] {n : ℕ} {expr returnType ty : Word} {c : Ctx} {s s' : CState}
    {code : List Jit} {p : ℕ → List UInt8} (hp : Function.Injective p) (hok : s.heap.FreeListOk)
    (h : Emits (compileExpr n expr returnType) c s ty code s') :
    ((labelsOf code).map (Label.text p)).Nodup ∧
    ∀ fns i l, (fns, i) ∈ inBodies [] code → i.target = some l →
      (fns, Jit.label l) ∈ inBodies [] code := by
  have hc := compileExpr_sound n expr returnType c s ty code s' hok h
  exact ⟨hc.nodup.map (Label.text_injective hp), fun fns i l hi ht => hc.resolved [] fns i l hi ht⟩

/-- A loop around a conditional in a function. -/
theorem labels_wellFormed_loop :
    ∃ t ty code s', readText zeroed (ascii "(fn x (while (lt x 9) (if x (print x) 0)))") = .ok t ∧
      Emits (compileExpr 60 t.expr (.cell t.ctx.prototypeAny)) t.ctx t.state ty code s' ∧
      (labelsOf code).length = 7 ∧ ((labelsOf code).map (Label.text natText)).Nodup ∧
      ∀ fns i l, (fns, i) ∈ inBodies [] code → i.target = some l →
        (fns, Jit.label l) ∈ inBodies [] code := by
  obtain ⟨t, ty, code, s', ht, hc, hcheck⟩ := exists_of_accepts (show accepts zeroed 60
    (ascii "(fn x (while (lt x 9) (if x (print x) 0)))") (fun t code =>
      t.state.heap.freeList.isEmpty && (labelsOf code).length == 7) = true by decide +kernel)
  rw [Bool.and_eq_true, List.isEmpty_iff, beq_iff_eq] at hcheck
  have hok : t.state.heap.FreeListOk := ⟨by simp [hcheck.1], by simp [hcheck.1]⟩
  exact ⟨t, ty, code, s', ht, hc, hcheck.2,
    labels_wellFormed (fun _ _ h => Writer.natText_injective h) hok hc⟩

end Interim.Compiler
