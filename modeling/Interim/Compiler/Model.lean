import Interim.Compiler.Builtin

/-!
# `compile_expr`

Model of `compile_expr` (`sledge/compiler_new.c`, lines 299–1764) without
`CHECK_BOUNDS` and `debug_mode`, which is a static 0 that nothing sets. The
argument loop, the builtins and the lambda call are separate definitions; `rec`
stands for the recursive calls. Integer builtins that differ in one instruction
only share `compileArith`.
-/

namespace Interim.Compiler

open Writer (cellAt car cdr cString elemAt ascii natText)
open CompM

/-- A recursive call `compile_expr(expr, frame, return_type)` on the current
    frame. -/
abbrev Rec : Type := Word → Word → CompM Word

/-! ## Preparing the arguments (lines 411–551) -/

variable [Port]

/-- `argi`, `argdefs` and `args_pushed`. -/
structure Args where
  argi : ℕ
  defs : ℕ → Arg
  pushed : ℕ

/-- `argdefs[argi] = d`. -/
def Args.set (a : Args) (d : Arg) : Args := { a with defs := Function.update a.defs a.argi d }

/-- The text `%s` prints for a name. -/
def printedName (h : Heap) (w : Word) : Except Stop (List UInt8) :=
  if w = .null then .ok (ascii "(null)") else cString h w

/-- Lines 412–424: the argument's name for messages, and its signature; a cons
    in the signature is a name with the signature in its `cdr`. -/
def namedArg (argi : ℕ) (sig : Word) : CompM (List UInt8 × Word) :=
  if sig = .null then pure (ascii "a" ++ natText (argi + 1), sig)
  else do
    let c ← fetch fun h => cellAt h sig
    if c.tag = tagCons then do
      let n ← fetch fun h => cellAt h c.ar
      let text ← fetch fun h => printedName h n.ar
      pure (text.take 31, c.dr)
    else pure (ascii "a" ++ natText (argi + 1), sig)

/-- Lines 437–457: the signature of the second argument of `let`, raw integer
    when the value is an integer literal or the local already holds one. -/
def letSignature (a : Args) (givenTag : ℕ) : CompM Word := do
  let name ← nameOf (a.defs 0).cell
  let fr ← frame
  let c ← ctx
  let typeHint := (getSymFrameIdx name fr.f true).bind fun i => fr.f.map fun f => (f i).type
  if givenTag = tagInt ∨ typeHint = some .stackInt then pure (.cell c.prototypeInt)
  else pure (.cell c.prototypeAny)

/-- Lines 486–492: the struct name of a nested struct value. -/
def structTypeName (ty : Cell) (old : Option (List UInt8)) : CompM (Option (List UInt8)) :=
  if ty.tag = tagStruct then do
    let def_ ← fetch fun h => elemAt h ty.ar 0
    let defCell ← fetch fun h => cellAt h def_
    let name ← fetch fun h => elemAt h defCell.ar 0
    let name ← nameOf name
    pure (some name)
  else pure old

/-- Lines 469–496: a nested expression is compiled and its value pushed. -/
def eagerArg (rec : Rec) (arg sig : Word) (a : Args) : CompM Args := do
  let consType ← rec arg sig
  let ty ← fetch fun h => cellAt h consType
  addSp 1
  let fr ← frame
  let typeName ← structTypeName ty (a.defs a.argi).typeName
  emit [.push r0 r0]
  pure { a.set { a.defs a.argi with
      cell := .null
      slot := fr.sp
      type := if ty.tag = tagInt then .stackInt else .stack
      typeName := typeName } with pushed := a.pushed + 1 }

/-- Lines 498–523: a symbol is looked up in the frame, then in the global
    environment. -/
def symbolArg (arg : Cell) (argName opName : List UInt8) (a : Args) : CompM Args := do
  let name ← fetch fun h => cString h arg.ar
  let fr ← frame
  match (getSymFrameIdx name fr.f false).bind fun i => fr.f.map fun f => f i with
  | some d => pure (a.set d)
  | none => do
    let e ← lookupGlobalSymbol name
    match e with
    | none => fail (.undefinedArgument name argName opName)
    | some e => pure (a.set { a.defs a.argi with env := some e, type := .env })

/-- Lines 459–537: an argument that is there, against its signature. -/
def givenArg (rec : Rec) (opName argName : List UInt8) (arg sig : Word) (anyNumber : Bool)
    (a : Args) : CompM Args := do
  let c ← fetch fun h => cellAt h arg
  if anyNumber then pure (a.set { a.defs a.argi with cell := arg, type := .stack })
  else do
    let sigTag ← tagOf sig
    if sigTag = tagLambda then pure (a.set { a.defs a.argi with cell := arg, type := .lambda })
    else if c.tag = tagCons then eagerArg rec arg sig a
    else if c.tag = tagSym ∧ sigTag ≠ tagSym then symbolArg c argName opName a
    else if compatibleType c.tag sigTag ∨ sigTag = tagAny then
      pure (a.set { a.defs a.argi with cell := arg, slot := a.argi - 1, type := .const })
    else fail (.typeMismatch argName opName c.tag sigTag)

/-- The signature an argument is checked against: the second argument of
    `let` has its own. -/
def argSignature (isLet : Bool) (arg sig : Word) (a : Args) : CompM Word :=
  if isLet = true ∧ a.argi = 1 then do
    let givenTag ← tagOf arg
    letSignature a givenTag
  else pure sig

/-- One iteration of the argument loop, before `argi++`. -/
def prepareArg (rec : Rec) (isLet : Bool) (opName : List UInt8) (args signatureArgs : Word)
    (a : Args) : CompM Args := do
  let arg ← fetch fun h => car h args
  let sig ← fetch fun h => car h signatureArgs
  let (argName, sig) ← namedArg a.argi sig
  if arg ≠ .null ∧ (signatureArgs = .null ∨ sig ≠ .null) then do
    let sig ← argSignature isLet arg sig a
    givenArg rec opName argName arg sig (signatureArgs = .null) a
  else if arg = .null ∧ sig ≠ .null then fail (.argumentMissing argName opName)
  else if arg ≠ .null ∧ sig = .null then fail (.surplusArguments opName)
  else pure a

/-- The argument loop: `k` more iterations are allowed by `MAXARGS`. -/
def argLoop (rec : Rec) (isLet : Bool) (opName : List UInt8) :
    ℕ → Word → Word → Args → CompM Args
  | 0, _, _, a => pure a
  | k + 1, args, signatureArgs, a => do
    let a ← prepareArg rec isLet opName args signatureArgs a
    let a := { a with argi := a.argi + 1 }
    if k = 0 then pure a
    else do
      let args ← fetch fun h => cdr h args
      if args = .null then pure a
      else if signatureArgs = .null then argLoop rec isLet opName k args .null a
      else do
        let signatureArgs ← fetch fun h => cdr h signatureArgs
        if signatureArgs = .null then pure a
        else argLoop rec isLet opName k args signatureArgs a

/-! ## Integer builtins (lines 557–719) -/

/-- `BUILTIN_ADD` … `BUILTIN_MOD`, `BUILTIN_BITAND`, `BUILTIN_BITOR`,
    `BUILTIN_BITXOR`, `BUILTIN_SHL`, `BUILTIN_SHR`: the operands in `ARGR0` and
    `R2`, one instruction. -/
def compileArith (op : ℕ → ℕ → Jit) (returnType : Word) (defs : ℕ → Arg) : CompM Word := do
  loadInt argr0 (defs 0)
  loadInt r2 (defs 1)
  emit [op argr0 r2]
  intResult returnType

/-- `BUILTIN_BITNOT` (lines 569–578). -/
def compileBitnot (returnType : Word) (defs : ℕ → Arg) : CompM Word := do
  loadInt argr0 (defs 0)
  emit [.notr argr0]
  intResult returnType

/-- `BUILTIN_GT` (lines 677–689). -/
def compileGt (returnType : Word) (defs : ℕ → Arg) : CompM Word := do
  loadInt argr0 (defs 0)
  loadInt r2 (defs 1)
  emit [.movi r3 (.int 0), .subr argr0 r2, .movneg argr0 r3]
  intResult returnType

/-- `BUILTIN_LT` (lines 690–702). -/
def compileLt (returnType : Word) (defs : ℕ → Arg) : CompM Word := do
  loadInt r2 (defs 0)
  loadInt argr0 (defs 1)
  emit [.movi r3 (.int 0), .subr argr0 r2, .movneg argr0 r3]
  intResult returnType

/-- `BUILTIN_EQ` (lines 703–719). -/
def compileEq (returnType : Word) (defs : ℕ → Arg) : CompM Word := do
  loadInt r1 (defs 0)
  loadInt r2 (defs 1)
  emit [.movi r0 (.int 0), .movi r3 (.int 1), .cmpr r1 r2, .moveq r0 r3]
  let c ← ctx
  let tag ← tagOf returnType
  if tag = tagAny then do
    emit [.movr argr0 r0, .call .allocInt]
    pure (.cell c.prototypeAny)
  else pure (.cell c.prototypeInt)

/-! ## Definitions and locals (lines 720–842) -/

/-- `BUILTIN_DEF` (lines 720–731). -/
def compileDef (defs : ℕ → Arg) : CompM Word := do
  emit [.lea argr0 (defs 0).cell]
  loadCell argr1 (defs 1)
  let fr ← frame
  emit (pushFrameRegs fr.f ++ [.call .insertGlobalSymbol] ++ popFrameRegs fr.f)
  let c ← ctx
  pure (.cell c.prototypeAny)

/-- Line 765: whether the value of a new local is a raw integer. -/
def letIsInt (d : Arg) : CompM Bool :=
  match d.type with
  | .regInt | .stackInt => pure true
  | .const => do
    let tag ← tagOf d.cell
    pure (tag = tagInt)
  | _ => pure false

/-- Lines 761–793: the frame entry of the local `name`, a new one when the
    frame has none. -/
def letEntry (name : List UInt8) (f : ℕ → Arg) (value : Arg) : CompM Arg :=
  match getSymFrameIdx name (some f) false with
  | some i => pure (f i)
  | none => do
    let isInt ← letIsInt value
    let fr ← frame
    let offset := maxArgs + fr.locals
    let d : Arg := { f offset with
      name := some name
      typeName := value.typeName
      cell := .null
      type := if isInt then .stackInt else .stack
      slot := -fr.locals }
    setFrameEntry offset d
    let fr ← frame
    setFrame { fr with locals := fr.locals + 1 }
    pure d

/-- Lines 797–805: load the value, raw or as a cell. -/
def letLoad (isInt : Bool) (value : Arg) : CompM Word := do
  let c ← ctx
  if isInt then do
    loadInt r0 value
    pure (.cell c.prototypeInt)
  else do
    loadCell r0 value
    pure (.cell c.prototypeAny)

/-- Lines 807–827: store the value in the local's slot or register. -/
def letStore (d : Arg) : CompM Unit := do
  let fr ← frame
  if d.type = .regInt ∨ d.type = .reg then emit [.movr d.slot.toNat r0]
  else emit [.strStack r0 (ptrsz * (fr.sp - d.slot)) (some d.slot)]

/-- `BUILTIN_LET` (lines 732–842). -/
def compileLet (returnType : Word) (defs : ℕ → Arg) : CompM Word := do
  let fr ← frame
  match fr.f with
  | none => fail .letOnGlobalLevel
  | some f => do
    let name ← nameOf (defs 0).cell
    let d ← letEntry name f (defs 1)
    let ty ← letLoad (d.type = .regInt ∨ d.type = .stackInt) (defs 1)
    letStore d
    let tag ← tagOf ty
    let returnTag ← tagOf returnType
    if tag = tagInt ∧ returnTag = tagAny then do
      emit [.movr argr0 r0, .call .allocInt]
      let c ← ctx
      pure (.cell c.prototypeAny)
    else pure ty

/-! ## Functions (lines 843–981) -/

/-- The `(name struct-name)` form of a parameter (lines 884–911). -/
def typedParam (c : Cell) : CompM (List UInt8 × Option (List UInt8) × Word) := do
  let typeCell ← fetch fun h => car h c.dr
  if typeCell = .null then fail .missingStructName
  else do
    let tag ← tagOf typeCell
    if tag ≠ tagSym then fail .nonSymbolStructName
    else do
      let name ← nameOf c.ar
      let typeName ← nameOf typeCell
      let e ← lookupGlobalSymbol typeName
      let x ← ctx
      match e with
      | none => fail (.undefinedStructName typeName)
      | some e =>
        if x.entry e = .null then fail (.undefinedStructName typeName)
        else do
          let tag ← tagOf (x.entry e)
          if tag ≠ tagStructDef then fail (.notAStructName typeName)
          else pure (name, some typeName, x.entry e)

/-- The name, struct name and prototype of a parameter (lines 882–916). -/
def fnParamDecl (cell : Word) : CompM (List UInt8 × Option (List UInt8) × Word) := do
  let c ← fetch fun h => cellAt h cell
  let x ← ctx
  if c.tag = tagSym then do
    let name ← fetch fun h => cString h c.ar
    pure (name, none, .cell x.prototypeAny)
  else if c.tag = tagCons then typedParam c
  else fail .illegalParameter

/-- The location of parameter `j` (lines 872–881). -/
def paramLocation (numLets j : ℕ) (d : Arg) : Arg :=
  if argSpillover ≤ j then
    { d with type := .stack, slot := -numLets - (j - argSpillover : ℕ) - 2 }
  else { d with type := .reg, slot := j + lbdreg }

/-- The loop of lines 866–923 over the parameters `k - 1, …, 0`: the frame of
    the new function and its signature list. -/
def fnParams (numLets : ℕ) (defs : ℕ → Arg) :
    ℕ → (ℕ → Arg) → Word → CompM ((ℕ → Arg) × Word)
  | 0, f, fnArgs => pure (f, fnArgs)
  | j + 1, f, fnArgs => do
    let (name, typeName, prototype) ← fnParamDecl (defs j).cell
    let sym ← alloc fun h => h.allocSym name
    let arg ← alloc fun h => h.allocCons (.cell sym) prototype
    let fnArgs ← alloc fun h => h.allocCons (.cell arg) fnArgs
    let d := { paramLocation numLets j (f j) with name := some name, typeName := typeName }
    fnParams numLets defs j (Function.update f j d) (.cell fnArgs)

/-- `lambda->dr.next = 0`. -/
def clearNext (lambda : ℕ) : CompM Unit :=
  alloc fun h => .ok ((), h.setCell lambda { h.cells lambda with dr := .null })

/-- `BUILTIN_FN`. `call` is the number of this call of `compile_expr` and `n`
    bounds the walk of `analyze_fn`. -/
def compileFn (rec : Rec) (n call : ℕ) (a : Args) : CompM Word :=
  if a.argi < 2 then fail .fnWithoutBody
  else do
    let c ← ctx
    let fnBody := (a.defs (a.argi - 2)).cell
    let lets ← fetch fun h => analyzeFn c h n fnBody .null []
    let numLets := lets.length
    let nil ← alloc fun h => h.allocNil
    let empty : ℕ → Arg := fun i =>
      { c.junk call (maxArgs + i) with type := .const, slot := -1, name := none }
    let (f, fnArgs) ← fnParams numLets a.defs (a.argi - 2) empty (.cell nil)
    let def_ ← alloc fun h => h.allocCons fnArgs fnBody
    let lambda ← alloc fun h => h.allocLambda (.cell def_)
    clearNext lambda
    emit [.jmp (.fe lambda), .label (.fn lambda), .movi r2 (.frame lambda), .push r2 r2,
      .decStack (numLets * ptrsz)]
    let outer ← frame
    setFrame { f := some f, sp := 0, locals := 0, stackEnd := outer.stackEnd }
    let _ ← rec fnBody (.cell c.prototypeAny)
    setFrame outer
    emit [.incStack (numLets * ptrsz), .incStack ptrsz, .ret, .label (.fe lambda),
      .lea r0 (.cell lambda)]
    pure (.cell c.prototypeAny)

/-! ## Control (lines 982–1083) -/

/-- The second half of `BUILTIN_IF`, after the `then` branch. -/
def compileElse (rec : Rec) (skip : ℕ) (thenType returnType elseCell : Word) : CompM Unit :=
  if elseCell ≠ .null then do
    let end_ ← nextLabel
    emit [.jmp (.endif end_), .label (.else_ skip)]
    let elseType ← rec elseCell returnType
    emit [.label (.endif end_)]
    let returnTag ← tagOf returnType
    let thenTag ← tagOf thenType
    let elseTag ← tagOf elseType
    if returnTag ≠ tagVoid ∧ thenTag ≠ elseTag then
      fail (.incompatibleBranches thenTag elseTag returnTag)
    else pure ()
  else emit [.label (.else_ skip)]

/-- `BUILTIN_IF` (lines 982–1020). -/
def compileIf (rec : Rec) (returnType : Word) (defs : ℕ → Arg) : CompM Word := do
  let skip ← nextLabel
  loadInt r0 (defs 0)
  emit [.cmpi r0 0, .je (.else_ skip)]
  let thenType ← rec (defs 1).cell returnType
  compileElse rec skip thenType returnType (defs 2).cell
  let c ← ctx
  pure (.cell c.prototypeAny)

/-- `BUILTIN_WHILE` (lines 1021–1060). -/
def compileWhile (rec : Rec) (returnType : Word) (defs : ℕ → Arg) : CompM Word := do
  let n ← nextLabel
  let c ← ctx
  emit [.label (.loop n)]
  let condType ← rec (defs 0).cell (.cell c.prototypeInt)
  let condTag ← tagOf condType
  emit (if condTag ≠ tagInt then [.ldr r0] else [])
  emit [.cmpi r0 0, .je (.skip n)]
  let bodyType ← rec (defs 1).cell returnType
  emit [.jmp (.loop n), .label (.skip n)]
  let returnTag ← tagOf returnType
  emit (if returnTag = tagAny then
    [.cmpi r0 0, .jne (.skip2 n), .call .allocInt, .label (.skip2 n)] else [])
  pure bodyType

/-- The loop of `BUILTIN_DO` over the list `args`; `n` bounds its length. -/
def doLoop (rec : Rec) (returnType : Word) : ℕ → Word → CompM Unit
  | 0, _ => outOfFuel
  | n + 1, args => do
    let arg ← fetch fun h => car h args
    if arg = .null then pure ()
    else do
      let c ← ctx
      let rest ← fetch fun h => cdr h args
      let next ← fetch fun h => car h rest
      let _ ← rec arg (if next ≠ .null then .cell c.prototypeVoid else returnType)
      doLoop rec returnType n rest

/-- `BUILTIN_DO` (lines 1061–1083). -/
def compileDo (rec : Rec) (n : ℕ) (returnType origArgs : Word) : CompM Word := do
  let first ← fetch fun h => car h origArgs
  if first = .null then fail .emptyDo
  else do
    doLoop rec returnType n origArgs
    let c ← ctx
    pure (.cell c.prototypeAny)

/-! ## Lists and structs (lines 1084–1301) -/

/-- The first loop of `BUILTIN_LIST`: compile and push the elements; the
    result is their number. -/
def listLoop (rec : Rec) : ℕ → Word → CompM ℕ
  | 0, _ => outOfFuel
  | n + 1, args => do
    let arg ← fetch fun h => car h args
    if arg = .null then pure 0
    else do
      let c ← ctx
      let _ ← rec arg (.cell c.prototypeAny)
      emit [.push r0 r0]
      addSp 1
      let rest ← fetch fun h => cdr h args
      let k ← listLoop rec n rest
      pure (k + 1)

/-- The second loop of `BUILTIN_LIST`. -/
def listPops : ℕ → CompM Unit
  | 0 => pure ()
  | n + 1 => do
    emit [.pop argr0 argr0]
    addSp (-1)
    emit [.call .allocCons, .movr argr1 r0]
    listPops n

/-- `BUILTIN_LIST` (lines 1084–1105). -/
def compileList (rec : Rec) (n : ℕ) (origArgs : Word) : CompM Word := do
  let k ← listLoop rec n origArgs
  emit [.call .allocNil, .movr argr1 r0]
  listPops k
  let c ← ctx
  pure (.cell c.prototypeAny)

/-- The first loop of `BUILTIN_STRUCT`: push each key and its value, with one
    adjustment of `frame->sp` for both; the result counts the pushes. -/
def structLoop (rec : Rec) : ℕ → Word → CompM ℕ
  | 0, _ => outOfFuel
  | n + 1, args => do
    let key ← fetch fun h => car h args
    if key = .null then pure 0
    else do
      let keyTag ← tagOf key
      if keyTag ≠ tagSym then fail .structKeyNotSymbol
      else do
        emit [.lea r0 key, .push r0 r0]
        let args ← fetch fun h => cdr h args
        let arg ← fetch fun h => car h args
        if arg = .null then fail .structValueMissing
        else do
          let args ← fetch fun h => cdr h args
          let c ← ctx
          let _ ← rec arg (.cell c.prototypeAny)
          emit [.push r0 r0]
          addSp 2
          let k ← structLoop rec n args
          pure (k + 2)

/-- The second loop of `BUILTIN_STRUCT`. -/
def structPops : ℕ → CompM Unit
  | 0 => pure ()
  | n + 1 => do
    emit [.addi r1 (-ptrsz), .pop r3 r3]
    addSp (-1)
    emit [.stra r1]
    structPops n

/-- `BUILTIN_STRUCT` (lines 1106–1163). -/
def compileStruct (rec : Rec) (n : ℕ) (origArgs : Word) : CompM Word := do
  let fields ← fetch fun h => cdr h origArgs
  let nameSym ← fetch fun h => car h origArgs
  emit [.lea r0 nameSym, .push r0 r0]
  let k ← structLoop rec n fields
  emit [.movi argr0 (.ofNat (k + 1)), .call .allocStructDef, .movr r1 r0, .ldr r1,
    .addi r1 ((k + 1 : ℕ) * ptrsz)]
  structPops (k + 1)
  let fr ← frame
  emit ([.push r0 r0, .movr argr1 r0, .lea argr0 nameSym] ++ pushFrameRegs fr.f ++
    [.call .insertGlobalSymbol] ++ popFrameRegs fr.f ++ [.pop r0 r0])
  let c ← ctx
  pure (.cell c.prototypeAny)

/-- `env->cell` of an argument. -/
def envCell (d : Arg) : CompM Word := do
  let c ← ctx
  match d.env with
  | none => fault
  | some e => pure (c.entry e)

/-- `BUILTIN_NEW` (lines 1164–1188). `origOp` is the definition in operator
    position, `NULL` for `(new struct-def)`. -/
def compileNew (n : ℕ) (origOp : Word) (defs : ℕ → Arg) : CompM Word := do
  let arg ← (if origOp ≠ .null then pure origOp else envCell (defs 0))
  let tag ← tagOf arg
  if tag ≠ tagStructDef then fail .newNeedsStructDef
  else do
    emit [.lea argr0 arg, .call .allocStruct]
    let prototype ← alloc fun h => h.allocStruct n arg
    pure (.cell prototype)

/-- `car(car(x))` for a struct: the first word of what `x->ar` points to. -/
def firstElem (w : Word) : CompM Word := do
  let c ← fetch fun h => cellAt h w
  match c.ar with
  | .ptr (.elems _) _ => fetch fun h => elemAt h c.ar 0
  | _ => fetch fun h => car h c.ar

/-- The field loop of `BUILTIN_SGET` and `BUILTIN_SPUT`: the index of the field
    named `name`, `k` more fields from field `i` on. -/
def findField (elements : Word) (name : List UInt8) : ℕ → ℕ → CompM (Option ℕ)
  | 0, _ => pure none
  | k + 1, i => do
    let key ← fetch fun h => elemAt h elements (1 + i * 2)
    let keyName ← nameOf key
    if name = keyName then pure (some i) else findField elements name k (i + 1)

/-- The struct definition an argument of `sget` is typed with (lines 1195–1211). -/
def sgetDef (d : Arg) (field : List UInt8) : CompM Word :=
  if d.type = .env then do
    let w ← envCell d
    firstElem w
  else
    match d.typeName with
    | none => fail (.untypedSget field)
    | some typeName => do
      let e ← lookupGlobalSymbol typeName
      envCell { d with env := e }

/-- `BUILTIN_SGET` (lines 1189–1248). -/
def compileSget (defs : ℕ → Arg) : CompM Word := do
  let field ← nameOf (defs 1).cell
  let structDef ← sgetDef (defs 0) field
  let sd ← fetch fun h => cellAt h structDef
  if sd.tag ≠ tagStructDef then fail .sgetNeedsStruct
  else do
    let size ← fetch fun _ => Heap.sizeOf sd.dr
    let found ← findField sd.ar field (size / 2) 0
    match found with
    | none => do
      emit [.movi r0 (.int 0)]
      fail (.sgetFieldNotFound field)
    | some i => do
      loadCell r0 (defs 0)
      emit [.ldr r0, .addi r0 ((i + 1 : ℕ) * ptrsz), .ldr r0]
      let fieldType ← fetch fun h => elemAt h sd.ar (1 + i * 2 + 1)
      let tag ← tagOf fieldType
      let c ← ctx
      pure (if tag ≠ tagStruct then .cell c.prototypeAny else fieldType)

/-- The struct definition an argument of `sput` is typed with (lines 1255–1269). -/
def sputDef (d : Arg) : CompM Word :=
  if d.type = .env then do
    let w ← envCell d
    firstElem w
  else
    match d.typeName with
    | none => fail .untypedSput
    | some typeName => do
      let e ← lookupGlobalSymbol typeName
      match e with
      | none => fail (.sputTypeNotFound typeName)
      | some e => envCell { d with env := some e }

/-- `BUILTIN_SPUT` (lines 1249–1301). -/
def compileSput (defs : ℕ → Arg) : CompM Word := do
  let field ← nameOf (defs 1).cell
  let structDef ← sputDef (defs 0)
  let sd ← fetch fun h => cellAt h structDef
  if sd.tag ≠ tagStructDef then fail .sputNeedsStruct
  else do
    let size ← fetch fun _ => Heap.sizeOf sd.dr
    let found ← findField sd.ar field (size / 2) 0
    match found with
    | none => do
      emit [.movi r0 (.int 0)]
      fail (.sputFieldNotFound field)
    | some i => do
      loadCell r2 (defs 0)
      emit [.movr r0 r2, .ldr r2, .addi r2 ((i + 1 : ℕ) * ptrsz)]
      loadCell r3 (defs 2)
      emit [.stra r2]
      let c ← ctx
      pure (.cell c.prototypeAny)

/-- `BUILTIN_QUOTE` (lines 1302–1314). -/
def compileQuote (origArgs : Word) : CompM Word := do
  let arg ← fetch fun h => car h origArgs
  if arg = .null then fail .emptyQuote
  else do
    emit [.lea r0 arg]
    let c ← ctx
    pure (.cell c.prototypeAny)

/-! ## Cells, strings and buffers (lines 1315–1616) -/

/-- `BUILTIN_CAR` (lines 1315–1332). -/
def compileCar (defs : ℕ → Arg) : CompM Word := do
  let c ← ctx
  loadCell r0 (defs 0)
  emit [.movr r1 r0, .addi r1 (2 * ptrsz), .ldr r1, .lea r2 (.cell c.consedTypeError),
    .cmpi r1 tagCons, .movne r0 r2, .ldr r0, .lea r2 (.cell c.prototypeNil), .cmpi r0 0,
    .moveq r0 r2]
  pure (.cell c.prototypeAny)

/-- `BUILTIN_CDR` (lines 1333–1351). -/
def compileCdr (defs : ℕ → Arg) : CompM Word := do
  let c ← ctx
  loadCell r0 (defs 0)
  emit [.addi r0 ptrsz, .movr r1 r0, .addi r1 ptrsz, .ldr r1, .lea r2 (.cell c.consedTypeError),
    .cmpi r1 tagCons, .movne r0 r2, .ldr r0, .lea r2 (.cell c.prototypeNil), .cmpi r0 0,
    .moveq r0 r2]
  pure (.cell c.prototypeAny)

/-- A builtin that calls a C function on one cell. -/
def compileCall1 (call : Jit) (defs : ℕ → Arg) : CompM Word := do
  loadCell argr0 (defs 0)
  emit [call]
  let c ← ctx
  pure (.cell c.prototypeAny)

/-- A builtin that calls a C function on two cells. -/
def compileCall2 (call : Jit) (defs : ℕ → Arg) : CompM Word := do
  loadCell argr0 (defs 0)
  loadCell argr1 (defs 1)
  emit [call]
  let c ← ctx
  pure (.cell c.prototypeAny)

/-- `BUILTIN_OPEN`, `BUILTIN_RECV`, `BUILTIN_PRINT`: `compileCall1` with the
    parameter registers saved around the call. -/
def compileSavedCall1 (f : CFun) (defs : ℕ → Arg) : CompM Word := do
  loadCell argr0 (defs 0)
  let fr ← frame
  emit (pushFrameRegs fr.f ++ [.hostCall f] ++ popFrameRegs fr.f)
  let c ← ctx
  pure (.cell c.prototypeAny)

/-- `BUILTIN_SEND` (lines 1686–1695). -/
def compileSend (defs : ℕ → Arg) : CompM Word := do
  loadCell argr0 (defs 0)
  loadCell argr1 (defs 1)
  let fr ← frame
  emit (pushFrameRegs fr.f ++ [.hostCall .streamWrite] ++ popFrameRegs fr.f)
  let c ← ctx
  pure (.cell c.prototypeAny)

/-- A builtin that calls a C function on one integer. -/
def compileIntCall (f : CFun) (defs : ℕ → Arg) : CompM Word := do
  loadInt argr0 (defs 0)
  emit [.call f]
  let c ← ctx
  pure (.cell c.prototypeAny)

/-- `BUILTIN_SUBSTR` (lines 1364–1370). -/
def compileSubstr (defs : ℕ → Arg) : CompM Word := do
  loadCell argr0 (defs 0)
  loadInt argr1 (defs 1)
  loadInt argr2 (defs 2)
  emit [.call .allocSubstr]
  let c ← ctx
  pure (.cell c.prototypeAny)

/-- `BUILTIN_GET8` and `BUILTIN_GET16` (lines 1371–1466), which differ in the
    load. -/
def compileGet (load : Jit) (returnType : Word) (defs : ℕ → Arg) : CompM Word := do
  let n ← nextLabel
  loadCell r1 (defs 0)
  loadInt r2 (defs 1)
  emit [.movr r0 r1, .addi r1 (2 * ptrsz), .ldr r1]
  emit [.cmpi r1 tagBytes, .je (.ok n), .cmpi r1 tagStr, .je (.ok n), .movi r3 (.int 0),
    .jmp (.skip n), .label (.ok n), .movr r1 r0, .movr r1 r0, .ldr r1, .addr r1 r2,
    .movi r3 (.int 0), load, .label (.skip n)]
  emit [.movr argr0 r3]
  intResult returnType

/-- `BUILTIN_PUT8` and `BUILTIN_PUT16` (lines 1468–1518), which differ in the
    store. -/
def compilePut (store : Jit) (defs : ℕ → Arg) : CompM Word := do
  let n ← nextLabel
  loadCell r0 (defs 0)
  loadInt r2 (defs 1)
  loadInt r3 (defs 2)
  emit [.movr r1 r0, .ldr r1, .addr r1 r2, store]
  emit [.label (.skip n)]
  let c ← ctx
  pure (.cell c.prototypeAny)

/-- `BUILTIN_GET32` (lines 1519–1532). -/
def compileGet32 (defs : ℕ → Arg) : CompM Word := do
  loadInt r2 (defs 1)
  loadCell r3 (defs 0)
  emit [.ldr r3, .movi r1 (.int 2), .shlr r2 r1, .addr r3 r2, .ldrw r3, .movr argr0 r3,
    .call .allocInt]
  let c ← ctx
  pure (.cell c.prototypeAny)

/-- `BUILTIN_PUT32` (lines 1533–1562). -/
def compilePut32 (defs : ℕ → Arg) : CompM Word := do
  let n ← nextLabel
  loadCell r1 (defs 0)
  loadInt r2 (defs 1)
  loadInt r3 (defs 2)
  emit [.movr r1 r0, .ldr r1, .addr r1 r2, .strw r1]
  emit [.label (.skip n)]
  emit [.movr r0 r1, .call .allocInt]
  let c ← ctx
  pure (.cell c.prototypeAny)

/-- `BUILTIN_SIZE` (lines 1617–1629). -/
def compileSize (returnType : Word) (defs : ℕ → Arg) : CompM Word := do
  let c ← ctx
  loadCell argr0 (defs 0)
  emit [.addi argr0 ptrsz, .ldr argr0]
  let tag ← tagOf returnType
  if tag = tagAny then do
    emit [.call .allocInt]
    pure (.cell c.prototypeAny)
  else if tag = tagInt then do
    emit [.movr r0 argr0]
    pure (.cell c.prototypeInt)
  else pure (.cell c.prototypeAny)

/-- `BUILTIN_GC` (lines 1630–1638). -/
def compileGc : CompM Word := do
  let fr ← frame
  emit (pushFrameRegs fr.f ++ [.lea argr0 (.ptr .env 0), .movi argr1 fr.stackEnd, .movr argr2 rsp,
    .call .collectGarbage] ++ popFrameRegs fr.f)
  let c ← ctx
  pure (.cell c.prototypeAny)

/-- `BUILTIN_SYMBOLS` (lines 1639–1643). -/
def compileSymbols : CompM Word := do
  emit [.lea argr0 (.ptr .env 0), .call .listSymbols]
  let c ← ctx
  pure (.cell c.prototypeAny)

/-- No code: `BUILTIN_DEBUG`, and the enumerators without a `case`. -/
def compileNothing : CompM Word := do
  let c ← ctx
  pure (.cell c.prototypeAny)

/-! ## The lambda call (lines 1701–1756) -/

/-- Pass argument `j < ARG_SPILLOVER` in its register. An argument that is
    itself in a parameter register is read from the copy `push_frame_regs`
    made, since the register may be overwritten already. -/
def passInReg (pushed spo j : ℕ) (d : Arg) : CompM Unit :=
  if d.type = .reg then
    emit [.ldrStack (lbdreg + j)
      (((pushed + spo : ℕ) - (d.slot - (lbdreg : ℕ)) - 1) * ptrsz) none]
  else loadCell (lbdreg + j) d

/-- The loop over the arguments `k - 1, …, 0`, `spo` of which are on the stack
    so far; the result is `spo_adjust`. -/
def passArgs (pushed : ℕ) (defs : ℕ → Arg) : ℕ → ℕ → CompM ℕ
  | 0, spo => pure spo
  | j + 1, spo =>
    if argSpillover ≤ j then do
      loadCell r0 (defs j)
      emit [.push r0 r0]
      addSp 1
      passArgs pushed defs j (spo + 1)
    else do
      passInReg pushed spo j (defs j)
      passArgs pushed defs j spo

/-- Lines 1749–1752. -/
def dropSpilled (spo : ℕ) : CompM Unit :=
  if spo = 0 then pure ()
  else do
    emit [.incStack (spo * ptrsz)]
    addSp (-spo)

/-- The call of the lambda bound to entry `e`. -/
def compileCall (e : ℕ) (a : Args) : CompM Word := do
  let fr ← frame
  let pushed := frameRegs fr.f
  emit (pushFrameRegs fr.f)
  addSp pushed
  let spo ← passArgs pushed a.defs (a.argi - 1) 0
  emit [.lea r0 (.ptr (.entry e) 0), .ldr r0, .addi r0 ptrsz, .ldr r0, .callr r0 (a.argi - 1)]
  dropSpilled spo
  emit (popFrameRegs fr.f)
  addSp (-pushed)
  let c ← ctx
  pure (.cell c.prototypeAny)

/-! ## The switch -/

/-- The `switch` of lines 556–1700. -/
def compileBuiltin (rec : Rec) (n call : ℕ) (returnType origArgs origOp : Word) (a : Args) :
    Builtin → CompM Word
  | .bitand => compileArith .andr returnType a.defs
  | .bitnot => compileBitnot returnType a.defs
  | .bitor => compileArith .orr returnType a.defs
  | .bitxor => compileArith .xorr returnType a.defs
  | .shl => compileArith .shlr returnType a.defs
  | .shr => compileArith .shrr returnType a.defs
  | .add => compileArith .addr returnType a.defs
  | .sub => compileArith .subr returnType a.defs
  | .mul => compileArith .mulr returnType a.defs
  | .div => compileArith .divr returnType a.defs
  | .mod => compileArith .modr returnType a.defs
  | .gt => compileGt returnType a.defs
  | .lt => compileLt returnType a.defs
  | .eq => compileEq returnType a.defs
  | .def_ => compileDef a.defs
  | .let_ => compileLet returnType a.defs
  | .fn => compileFn rec n call a
  | .if_ => compileIf rec returnType a.defs
  | .while_ => compileWhile rec returnType a.defs
  | .do_ => compileDo rec n returnType origArgs
  | .list => compileList rec n origArgs
  | .struct => compileStruct rec n origArgs
  | .new => compileNew n origOp a.defs
  | .sget => compileSget a.defs
  | .sput => compileSput a.defs
  | .quote => compileQuote origArgs
  | .car => compileCar a.defs
  | .cdr => compileCdr a.defs
  | .cons => compileCall2 (.call .allocCons) a.defs
  | .concat => compileCall2 (.call .allocConcat) a.defs
  | .substr => compileSubstr a.defs
  | .get8 => compileGet (.ldrb r1) returnType a.defs
  | .get16 => compileGet (.ldrs r1) returnType a.defs
  | .put8 => compilePut (.strb r1) a.defs
  | .put16 => compilePut (.strs r1) a.defs
  | .get32 => compileGet32 a.defs
  | .put32 => compilePut32 a.defs
  | .alloc => compileIntCall .allocNumBytes a.defs
  | .allocStr => compileIntCall .allocNumString a.defs
  | .bytesToStr => compileCall1 (.call .allocStringFromBytes) a.defs
  | .write => compileCall2 (.hostCall .lispWriteToCell) a.defs
  | .read => compileCall1 (.hostCall .readStringCell) a.defs
  | .eval => compileCall1 (.hostCall .platformEval) a.defs
  | .size => compileSize returnType a.defs
  | .gc => compileGc
  | .symbols => compileSymbols
  | .print => compileSavedCall1 .lispPrint a.defs
  | .mount => compileCall2 (.hostCall .fsMount) a.defs
  | .mmap => compileCall1 (.hostCall .fsMmap) a.defs
  | .open_ => compileSavedCall1 .fsOpen a.defs
  | .recv => compileSavedCall1 .streamRead a.defs
  | .send => compileSend a.defs
  | _ => compileNothing

/-! ## `compile_expr` -/

/-- Lines 316–342: an expression that is not a list. -/
def compileAtom (expr : Word) (c : Cell) : CompM Word := do
  let x ← ctx
  if c.tag = tagSym then do
    let name ← fetch fun h => cString h c.ar
    let fr ← frame
    match (getSymFrameIdx name fr.f false).bind fun i => fr.f.map fun f => f i with
    | some d => do
      loadCell r0 d
      pure (.cell x.prototypeAny)
    | none => do
      let e ← lookupGlobalSymbol name
      match e with
      | none => do
        emit [.movi r0 (.int 0)]
        fail (.undefinedSymbol name)
      | some e => do
        emit [.movi r0 (.ptr (.entry e) 0), .ldr r0]
        if x.entry e = .null then fail .noExpr else pure (x.entry e)
  else do
    emit [.movi r0 expr]
    pure (.cell x.prototypeAny)

/-- What an operator symbol resolves to: `op`, `op_env`, the initial
    `signature_args`, `is_let` and `orig_op`. -/
structure Operator where
  op : Cell
  entry : ℕ
  signature : Word
  isLet : Bool
  origOp : Word

/-- Lines 347–386: the operator of a form. -/
def findOperator (opName : List UInt8) (c : Ctx) (h : Heap) :
    Except Stop (Except CompileError Operator) :=
  match c.lookup opName with
  | none => .ok (.error (.undefinedOperator opName))
  | some e =>
    if c.entry e = .null then .ok (.error (.undefinedOperator opName))
    else do
      let op ← cellAt h (c.entry e)
      if op.tag = tagBuiltin then
        .ok (.ok ⟨op, e, op.dr, Builtin.ofWord op.ar = some .let_, .null⟩)
      else if op.tag = tagLambda then do
        let sig ← car h op.ar
        .ok (.ok ⟨op, e, sig, false, .null⟩)
      else if op.tag = tagStructDef then
        match c.lookup (ascii "new") with
        | none => .error .fault
        | some e' => do
          let newOp ← cellAt h (c.entry e')
          .ok (.ok ⟨newOp, e', .null, false, c.entry e⟩)
      else .ok (.error (.notCallable opName))

/-- Lines 553–1756: the code for the operator, its arguments being prepared. -/
def compileOperator (rec : Rec) (n call : ℕ) (returnType origArgs : Word) (o : Operator)
    (a : Args) : CompM Word :=
  if o.op.tag = tagBuiltin then
    match Builtin.ofWord o.op.ar with
    | some b => compileBuiltin rec n call returnType origArgs o.origOp a b
    | none => compileNothing
  else compileCall o.entry a

/-- Lines 344–1763: a list. -/
def compileForm (rec : Rec) (n : ℕ) (returnType : Word) (c : Cell) : CompM Word :=
  if c.ar = .null then fail .nonSymbolOperator
  else do
    let opsym ← fetch fun h => cellAt h c.ar
    if opsym.tag ≠ tagSym then fail .nonSymbolOperator
    else do
      let opName ← fetch fun h => cString h opsym.ar
      let o ← inspect (findOperator opName)
      let call ← nextCall
      let x ← ctx
      let a ← argLoop rec o.isLet opName maxArgs c.dr o.signature ⟨0, x.junk call, 0⟩
      let ty ← compileOperator rec n call returnType c.dr o a
      cleanReturn a.pushed ty

/-- `compile_expr(expr, frame, return_type)`. The first argument bounds the
    nesting depth and the length of the lists walked. -/
def compileExpr : ℕ → Rec
  | 0 => fun _ _ => outOfFuel
  | n + 1 => fun expr returnType =>
    if expr = .null then fail .noExpr
    else do
      let c ← fetch fun h => cellAt h expr
      if c.tag ≠ tagCons then compileAtom expr c
      else compileForm (compileExpr n) n returnType c

end Interim.Compiler
