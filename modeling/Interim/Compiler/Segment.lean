import Interim.Compiler.Model

/-!
# What `compile_expr` emits

A grammar of the code `compile_expr` can emit. `Segment t s code u s'` says
that `code` is emitted between the compiler states `s` and `s'` and leaves `t`
words on the stack; `u` lists what in it matters to somebody else (`Mark`).
Every invariant of the emitted code is proved by induction on this relation,
so that the builtins are gone through once, in `Compiler.Emission`.

`Tame r sp code` is straight-line code that changes no register from `r` on,
pops what it pushes, and addresses frame slots as they are at height `sp`.
-/

namespace Interim.Compiler

/-! ## Straight-line code -/

/-- C functions that run compiled code: `platform_eval`, and the functions of
    `stream.c` that call the handlers of a filesystem. -/
def CFun.reenters : CFun → Bool
  | .platformEval | .fsMmap | .fsOpen | .streamRead | .streamWrite => true
  | _ => false

/-- The instruction goes on with the next one, leaves the stack alone, and
    changes only registers below `r`. -/
def isQuiet (r : ℕ) : Jit → Bool
  | .movi d _ | .lea d _ | .ldr d | .notr d | .addi d _ => d < r
  | .movr d _ | .movneg d _ | .movne d _ | .moveq d _ => d < r
  | .ldrb d | .ldrs d | .ldrw d => d < r
  | .strb _ | .strs _ | .strw _ | .stra _ => true
  | .addr d _ | .andr d _ | .orr d _ | .xorr d _ | .shrr d _ | .shlr d _ => d < r
  | .subr d _ | .mulr d _ | .divr d _ | .modr d _ => d < r
  | .call f | .hostCall f => !f.reenters
  | .cmpi _ _ | .cmpr _ _ => true
  | _ => false

/-- Straight-line code at height `sp` that changes registers below `r`. -/
inductive Tame (r : ℕ) : ℤ → List Jit → Prop
  | nil (sp : ℤ) : Tame r sp []
  | quiet {sp : ℤ} {i : Jit} {code : List Jit} (hi : isQuiet r i = true) (hc : Tame r sp code) :
      Tame r sp (i :: code)
  /-- a load from a slot of the frame -/
  | slot {sp : ℤ} {d : ℕ} {k : ℤ} {code : List Jit} (hd : d < r) (hc : Tame r sp code) :
      Tame r sp (.ldrStack d (ptrsz * (sp - k)) (some k) :: code)
  /-- a load from elsewhere on the stack -/
  | peek {sp : ℤ} {d : ℕ} {off : ℤ} {code : List Jit} (hd : d < r) (hc : Tame r sp code) :
      Tame r sp (.ldrStack d off none :: code)
  /-- registers saved and restored -/
  | nest {sp : ℤ} {a b : ℕ} {mid code : List Jit} (hab : a ≤ b) (hb : b < rsp)
      (hm : Tame r (sp + (b + 1 - a : ℕ)) mid) (hc : Tame r sp code) :
      Tame r sp (.push a b :: (mid ++ .pop a b :: code))

namespace Tame

variable {r : ℕ} {sp : ℤ} {code code' : List Jit}

theorem append (h : Tame r sp code) (h' : Tame r sp code') : Tame r sp (code ++ code') := by
  induction h with
  | nil => exact h'
  | quiet hi _ ih => exact .quiet hi (ih h')
  | slot hd _ ih => exact .slot hd (ih h')
  | peek hd _ ih => exact .peek hd (ih h')
  | nest hab hb hm _ _ ih =>
    rw [List.cons_append, List.append_assoc, List.cons_append]
    exact .nest hab hb hm (ih h')

theorem ofQuiet (h : code.all (isQuiet r) = true) : Tame r sp code := by
  induction code with
  | nil => exact .nil sp
  | cons i code ih =>
    rw [List.all_cons, Bool.and_eq_true] at h
    exact .quiet h.1 (ih h.2)

theorem mono {r' : ℕ} (hr : r ≤ r') (h : Tame r sp code) : Tame r' sp code := by
  induction h with
  | nil => exact .nil _
  | quiet hi _ ih =>
    refine .quiet ?_ ih
    revert hi
    rename_i i _ _
    cases i <;> simp only [isQuiet, decide_eq_true_eq] <;> intros <;> first | assumption | omega
  | slot hd _ ih => exact .slot (by omega) ih
  | peek hd _ ih => exact .peek (by omega) ih
  | nest hab hb _ _ ihm ih => exact .nest hab hb ihm ih

end Tame

/-! ## State changes -/

namespace CState

/-- `frame->sp += n`. -/
def addSp (s : CState) (n : ℤ) : CState :=
  { s with frame := { s.frame with sp := s.frame.sp + n } }

/-- `++label_skip_count`. -/
def bump (s : CState) : CState := { s with labelSkipCount := s.labelSkipCount + 1 }

/-- Enter the frame of a new function. -/
def enter (s : CState) (f : ℕ → Arg) : CState :=
  { s with frame := { f := some f, sp := 0, locals := 0, stackEnd := s.frame.stackEnd } }

/-- Add a local to the frame `f`. -/
def addLocal (s : CState) (f : ℕ → Arg) (d : Arg) : CState :=
  { s with frame := { s.frame with
      f := some (Function.update f (maxArgs + s.frame.locals) d)
      locals := s.frame.locals + 1 } }

end CState

/-- From `s` to `s'` nothing changes but by allocation. -/
structure Silent (s s' : CState) : Prop where
  frame : s'.frame = s.frame
  labels : s'.labelSkipCount = s.labelSkipCount
  heap : Heap.KeepsAll s.heap s'.heap

namespace Silent

variable {s s' s'' : CState}

theorem refl (hok : s.heap.FreeListOk) : Silent s s := ⟨rfl, rfl, .refl hok⟩

theorem trans (h : Silent s s') (h' : Silent s' s'') : Silent s s'' :=
  ⟨h'.frame.trans h.frame, h'.labels.trans h.labels, h.heap.trans h'.heap⟩

end Silent

/-! ## Frames -/

/-- The frame of a function with `numParams` parameters and `numLets` reserved
    words, after `locals` locals have been added: the entries `BUILTIN_FN` and
    `BUILTIN_LET` write. -/
structure FrameOk (numLets numParams : ℕ) (f : ℕ → Arg) (locals : ℕ) : Prop where
  numParams_le : numParams ≤ maxArgs
  locals_le : maxArgs + locals ≤ maxFrame
  reg : ∀ j < numParams, j < argSpillover → (f j).type = .reg ∧ (f j).slot = j + lbdreg
  stack : ∀ j < numParams, argSpillover ≤ j →
    (f j).type = .stack ∧ (f j).slot = -numLets - (j - argSpillover : ℕ) - 2
  unused : ∀ j, numParams ≤ j → j < maxArgs → (f j).type = .const ∧ (f j).name = none
  local_ : ∀ k < locals, ((f (maxArgs + k)).type = .stack ∨ (f (maxArgs + k)).type = .stackInt) ∧
    (f (maxArgs + k)).slot = -k
  rest : ∀ i, maxArgs + locals ≤ i → (f i).type = .const ∧ (f i).name = none

/-- A frame `compile_expr` can be called with: on global level, or of a
    function. -/
def Frame.Ok (fr : Frame) : Prop :=
  ∀ f, fr.f = some f → ∃ numLets numParams, FrameOk numLets numParams f fr.locals

/-! ## The grammar -/

/-- What a segment records about itself. -/
inductive Mark
  /-- a `struct` form -/
  | struct
  /-- a key of a `struct` form -/
  | structKey
  /-- a `let` of the local or parameter with this name -/
  | assign (name : List UInt8)
  /-- a call of a C function that runs compiled code, with the parameter
      registers unsaved -/
  | reenter (f : CFun)
  deriving DecidableEq, Repr

/-- The code of `BUILTIN_IF` after the condition, with two branches. -/
def ifElseCode (skip end_ : ℕ) (th el : List Jit) : List Jit :=
  [Jit.cmpi r0 0, Jit.je (.else_ skip)] ++ (th ++
    ([Jit.jmp (.endif end_), Jit.label (.else_ skip)] ++ (el ++ [Jit.label (.endif end_)])))

/-- The code of `BUILTIN_IF` after the condition, with one branch. -/
def ifThenCode (skip : ℕ) (th : List Jit) : List Jit :=
  [Jit.cmpi r0 0, Jit.je (.else_ skip)] ++ (th ++ [Jit.label (.else_ skip)])

/-- The end of `BUILTIN_WHILE`. -/
def whileTail (boxed : Bool) (n : ℕ) : List Jit :=
  if boxed then [Jit.cmpi r0 0, Jit.jne (.skip2 n), Jit.call .allocInt, Jit.label (.skip2 n)]
  else []

/-- The code of `BUILTIN_WHILE`. -/
def whileCode (boxed : Bool) (n : ℕ) (c b : List Jit) : List Jit :=
  [Jit.label (.loop n)] ++ (c ++ ([Jit.cmpi r0 0, Jit.je (.skip n)] ++ (b ++
    ([Jit.jmp (.loop n), Jit.label (.skip n)] ++ whileTail boxed n))))

/-- The type check of `BUILTIN_GET8` and `BUILTIN_GET16` around `code`. -/
def tagCheckCode (n : ℕ) (code : List Jit) : List Jit :=
  [Jit.cmpi r1 tagBytes, Jit.je (.ok n), Jit.cmpi r1 tagStr, Jit.je (.ok n), Jit.movi r3 (.int 0),
    Jit.jmp (.skip n), Jit.label (.ok n)] ++ (code ++ [Jit.label (.skip n)])

/-- The code of `BUILTIN_FN` around the body. -/
def fnCode [Port] (a numLets : ℕ) (body : List Jit) : List Jit :=
  [Jit.jmp (.fe a), Jit.label (.fn a), Jit.movi r2 (.frame a), Jit.push r2 r2,
    Jit.decStack (numLets * ptrsz)] ++
    (body ++ [Jit.incStack (numLets * ptrsz), Jit.incStack ptrsz, Jit.ret, Jit.label (.fe a),
      Jit.lea r0 (.cell a)])

/-- `jit_inc_stack` of the arguments passed on the stack. -/
def dropCode [Port] (spo : ℕ) : List Jit := if spo = 0 then [] else [Jit.incStack (spo * ptrsz)]

/-- The code of a lambda call: `p` parameter registers are saved, `args` passes
    `spo` arguments on the stack, `regs` the others in registers. -/
def callCode [Port] (p e argc spo : ℕ) (args regs : List Jit) : List Jit :=
  pushRegs p ++ (args ++ (regs ++
    ([Jit.lea r0 (.ptr (.entry e) 0), Jit.ldr r0, Jit.addi r0 ptrsz, Jit.ldr r0,
      Jit.callr r0 argc] ++
      (dropCode spo ++ popRegs p))))

/-- `code` is emitted between `s` and `s'`; it leaves `t` words on the stack and
    never goes below the height it starts at. `counted` says whether
    `analyze_fn` finds every `let`: it misses one whose operator only gets to
    the builtin `let` through a rebound `new`. -/
inductive Segment (counted : Prop) : ℕ → CState → List Jit → List Mark → CState → Prop
  | tame {s s' : CState} {code : List Jit} (hc : Tame lbdreg s.frame.sp code) (hs : Silent s s') :
      Segment counted 0 s code [] s'
  | seq {t t' : ℕ} {s s₁ s' : CState} {code code' : List Jit} {u u' : List Mark}
      (h : Segment counted t s code u s₁) (h' : Segment counted t' s₁ code' u' s') :
      Segment counted (t + t') s (code ++ code') (u ++ u') s'
  /-- keep a value on the stack -/
  | push (s : CState) (hok : s.heap.FreeListOk) : Segment counted 1 s [.push r0 r0] [] (s.addSp 1)
  | pop {t : ℕ} {s s₁ : CState} {code : List Jit} {u : List Mark} {a : ℕ} (ha : a < lbdreg)
      (h : Segment counted (t + 1) s code u s₁) :
      Segment counted t s (code ++ [.pop a a]) u (s₁.addSp (-1))
  | drop {t n : ℕ} {s s₁ : CState} {code : List Jit} {u : List Mark}
      (h : Segment counted (t + n) s code u s₁) :
      Segment counted t s (code ++ [.incStack (n * ptrsz)]) u (s₁.addSp (-n))
  | ifElse {s s₁ s₂ : CState} {th el : List Jit} {u u' : List Mark}
      (ht : Segment counted 0 s.bump th u s₁) (he : Segment counted 0 s₁.bump el u' s₂) :
      Segment counted 0 s (ifElseCode (s.labelSkipCount + 1) (s₁.labelSkipCount + 1) th el) (u ++ u') s₂
  | ifThen {s s₁ : CState} {th : List Jit} {u : List Mark} (ht : Segment counted 0 s.bump th u s₁) :
      Segment counted 0 s (ifThenCode (s.labelSkipCount + 1) th) u s₁
  | loop {s s₁ s₂ : CState} {c b : List Jit} {u u' : List Mark} (boxed : Bool)
      (hc : Segment counted 0 s.bump c u s₁) (hb : Segment counted 0 s₁ b u' s₂) :
      Segment counted 0 s (whileCode boxed (s.labelSkipCount + 1) c b) (u ++ u') s₂
  | tagCheck {s : CState} {code : List Jit} (hc : Tame lbdreg s.frame.sp code)
      (hok : s.heap.FreeListOk) :
      Segment counted 0 s (tagCheckCode (s.labelSkipCount + 1) code) [] s.bump
  /-- a label nothing jumps to -/
  | label (s : CState) (hok : s.heap.FreeListOk) :
      Segment counted 0 s [.label (.skip (s.labelSkipCount + 1))] [] s.bump
  /-- a function: `s` is the state before its lambda is allocated, `s₁` the
      one its body is compiled in but for the frame -/
  | fn {s s₁ s₂ : CState} {a numLets numParams : ℕ} {f : ℕ → Arg} {body : List Jit} {u : List Mark}
      (hs : Silent s s₁) (ha : a ∈ s.heap.Supply) (ha' : a ∉ s₁.heap.Supply)
      (hf : FrameOk numLets numParams f 0) (hb : Segment counted 0 (s₁.enter f) body u s₂)
      (hl : counted → s₂.frame.locals ≤ numLets) :
      Segment counted 0 s (fnCode a numLets body) [] { s₂ with frame := s.frame }
  /-- a new local, with its name and type -/
  | newLocal {s : CState} {f : ℕ → Arg} {d : Arg} {name : List UInt8} (hf : s.frame.f = some f)
      (hok : s.heap.FreeListOk) (hlt : maxArgs + s.frame.locals < maxFrame)
      (hn : d.name = some name) (hnew : ∀ i < maxFrame, (f i).name ≠ some name)
      (ht : d.type = .stack ∨ d.type = .stackInt) (hslot : d.slot = -s.frame.locals) :
      Segment counted 0 s [] [.assign name] (s.addLocal f d)
  /-- the store of a `let` into the slot of an entry -/
  | store {s : CState} {f : ℕ → Arg} {i : ℕ} {name : List UInt8} (hf : s.frame.f = some f)
      (hok : s.heap.FreeListOk) (hi : i < maxFrame) (hn : (f i).name = some name)
      (ht : (f i).type = .stack ∨ (f i).type = .stackInt) :
      Segment counted 0 s [.strStack r0 (ptrsz * (s.frame.sp - (f i).slot)) (some (f i).slot)]
        [.assign name] s
  /-- the store of a `let` into a parameter register -/
  | storeReg {s : CState} {f : ℕ → Arg} {i : ℕ} {name : List UInt8} (hf : s.frame.f = some f)
      (hok : s.heap.FreeListOk) (hi : i < maxFrame) (hn : (f i).name = some name)
      (ht : (f i).type = .reg) :
      Segment counted 0 s [.movr (f i).slot.toNat r0] [.assign name] s
  | reenter {s : CState} (f : CFun) (hok : s.heap.FreeListOk) :
      Segment counted 0 s [.hostCall f] [.reenter f] s
  /-- a C function that runs compiled code, called with the parameter registers
      saved -/
  | saved {s : CState} (f : CFun) (hok : s.heap.FreeListOk) :
      Segment counted 0 s (pushRegs (frameRegs s.frame.f) ++ ([.hostCall f] ++
        popRegs (frameRegs s.frame.f))) [] s
  /-- a lambda call -/
  | call {s : CState} {args regs : List Jit} (e argc spo : ℕ) (hspo : spo = argc - argSpillover)
      (hargs : Segment counted spo (s.addSp (frameRegs s.frame.f)) args []
        (s.addSp (frameRegs s.frame.f + spo)))
      (hregs : Tame (lbdreg + argSpillover) (s.frame.sp + (frameRegs s.frame.f + spo)) regs) :
      Segment counted 0 s (callCode (frameRegs s.frame.f) e argc spo args regs) [] s
  /-- the name of a struct, pushed without adjusting `frame->sp` -/
  | structName (s : CState) (w : Word) (hok : s.heap.FreeListOk) :
      Segment counted 1 s [.lea r0 w, .push r0 r0] [.struct] s
  /-- a key and a value of a struct -/
  | structField {s s₁ : CState} {w : Word} {code : List Jit} {u : List Mark}
      (h : Segment counted 0 s code u s₁) :
      Segment counted 2 s ([.lea r0 w, .push r0 r0] ++ (code ++ [.push r0 r0])) (.structKey :: u)
        (s₁.addSp 2)

/-! ## What every segment keeps -/

/-- `BUILTIN_LET` keeps the frame in shape. -/
theorem FrameOk.addLocal {numLets numParams locals : ℕ} {f : ℕ → Arg} {d : Arg}
    (h : FrameOk numLets numParams f locals) (hlt : maxArgs + locals < maxFrame)
    (ht : d.type = .stack ∨ d.type = .stackInt) (hslot : d.slot = -locals) :
    FrameOk numLets numParams (Function.update f (maxArgs + locals) d) (locals + 1) := by
  have hp := h.numParams_le
  have hne : ∀ j, j < maxArgs → Function.update f (maxArgs + locals) d j = f j := by
    intro j hj
    exact Function.update_of_ne (by omega) _ _
  refine ⟨hp, by omega, ?_, ?_, ?_, ?_, ?_⟩
  · intro j hj hs
    rw [hne j (by omega)]
    exact h.reg j hj hs
  · intro j hj hs
    rw [hne j (by omega)]
    exact h.stack j hj hs
  · intro j hj hs
    rw [hne j hs]
    exact h.unused j hj hs
  · intro k hk
    rcases Nat.lt_or_ge k locals with hlt | hge
    · rw [Function.update_of_ne (by omega)]
      exact h.local_ k hlt
    · obtain rfl : k = locals := by omega
      rw [Function.update_self]
      exact ⟨ht, hslot⟩
  · intro i hi
    rw [Function.update_of_ne (by omega)]
    exact h.rest i (by omega)

namespace Segment

variable {counted : Prop} {t : ℕ} {s s' : CState} {code : List Jit} {u : List Mark}

theorem keeps (h : Segment counted t s code u s') : Heap.KeepsAll s.heap s'.heap := by
  induction h with
  | tame _ hs => exact hs.heap
  | seq _ _ ih ih' => exact ih.trans ih'
  | push s hok => exact .refl hok
  | pop _ _ ih => exact ih
  | drop _ ih => exact ih
  | ifElse _ _ ih ih' => exact ih.trans ih'
  | ifThen _ ih => exact ih
  | loop _ _ _ ih ih' => exact ih.trans ih'
  | tagCheck _ hok => exact .refl hok
  | label s hok => exact .refl hok
  | fn hs _ _ _ _ _ ih => exact hs.heap.trans ih
  | newLocal _ hok => exact .refl hok
  | store _ hok => exact .refl hok
  | storeReg _ hok => exact .refl hok
  | reenter _ hok => exact .refl hok
  | saved _ hok => exact .refl hok
  | call _ _ _ _ _ _ ih => exact ih
  | structName s w hok => exact .refl hok
  | structField _ ih => exact ih

theorem frameOk (h : Segment counted t s code u s') (hs : s.frame.Ok) : s'.frame.Ok := by
  induction h with
  | tame _ hs' =>
    rw [hs'.frame]
    exact hs
  | seq _ _ ih ih' => exact ih' (ih hs)
  | push => exact hs
  | pop _ _ ih => exact ih hs
  | drop _ ih => exact ih hs
  | ifElse _ _ ih ih' => exact ih' (ih hs)
  | ifThen _ ih => exact ih hs
  | loop _ _ _ ih ih' => exact ih' (ih hs)
  | tagCheck => exact hs
  | label => exact hs
  | fn => exact hs
  | newLocal hf _ hlt _ _ ht hslot =>
    intro f' hf'
    obtain ⟨numLets, numParams, hok⟩ := hs _ hf
    obtain rfl := Option.some.inj hf'
    exact ⟨numLets, numParams, hok.addLocal hlt ht hslot⟩
  | store => exact hs
  | storeReg => exact hs
  | reenter => exact hs
  | saved => exact hs
  | call => exact hs
  | structName => exact hs
  | structField _ ih => exact ih hs

end Segment

end Interim.Compiler
