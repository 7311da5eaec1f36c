import Interim.Backend.Machines

/-!
# The integer builtins on both back ends

`compile_expr` (`sledge/compiler_new.c`, lines 557–719) is compiled once for
each back end: the same emitter calls, with the back end's `ARGR0` and `PTRSZ`.
This module has these calls with both as parameters, shows that for x64 they
are what the compiler model emits, and runs them on the two machines.

* `intCode_x64` — on x64 the compiler model emits exactly `intCode`.
* `X64.run_intCode`, `Arm.run_intCode` — what the cell made by `alloc_int`
  holds at the end, for operands in any of the places a boxed integer can be.
-/

namespace Interim.Backend

open Compiler Compiler.CompM
open Writer (cellAt)

/-! ## Emitter calls -/

/-- What `compile_expr` takes from a back end. -/
structure Target where
  argr0 : ℕ
  ptrsz : ℤ
  deriving DecidableEq, Repr

/-- `jit_x64.c`. -/
def x64 : Target := ⟨1, 8⟩

/-- `jit_arm_raw.c`. -/
def arm : Target := ⟨0, 4⟩

/-- The integer builtins. -/
inductive IntOp
  | add | sub | mul | div | mod
  | bitand | bitnot | bitor | bitxor | shl | shr
  | lt | gt | eq
  deriving DecidableEq, Repr

/-- The enumerator of `builtin_t`. -/
def IntOp.builtin : IntOp → Builtin
  | .add => .add
  | .sub => .sub
  | .mul => .mul
  | .div => .div
  | .mod => .mod
  | .bitand => .bitand
  | .bitnot => .bitnot
  | .bitor => .bitor
  | .bitxor => .bitxor
  | .shl => .shl
  | .shr => .shr
  | .lt => .lt
  | .gt => .gt
  | .eq => .eq

/-- An operand: the prepared argument and, for a constant, the integer its
    cell holds when the code is generated. -/
structure Operand where
  arg : Arg
  value : Word

/-- `load_int(dreg, arg, f)` (lines 112–145) with `f->sp = sp`. -/
def Target.loadInt (t : Target) (sp : ℤ) (dreg : ℕ) (x : Operand) : List Jit :=
  match x.arg.type with
  | .const => [.movi dreg x.value]
  | .env => [.lea dreg (entryPtr x.arg.env), .ldr dreg, .ldr dreg]
  | .reg => [.movr dreg x.arg.slot.toNat, .ldr dreg]
  | .regInt => if (dreg : ℤ) ≠ x.arg.slot then [.movr dreg x.arg.slot.toNat] else []
  | .stack => [.ldrStack dreg (t.ptrsz * (sp - x.arg.slot)) (some x.arg.slot), .ldr dreg]
  | .stackInt => [.ldrStack dreg (t.ptrsz * (sp - x.arg.slot)) (some x.arg.slot)]
  | .lambda => [.movi dreg (.ofNat 0xdeadbeef)]

/-- The emitter calls of an integer builtin whose result is boxed. -/
def Target.intCode (t : Target) (sp : ℤ) (x y : Operand) : IntOp → List Jit
  | .add => t.loadInt sp t.argr0 x ++ t.loadInt sp r2 y ++ [.addr t.argr0 r2, .call .allocInt]
  | .sub => t.loadInt sp t.argr0 x ++ t.loadInt sp r2 y ++ [.subr t.argr0 r2, .call .allocInt]
  | .mul => t.loadInt sp t.argr0 x ++ t.loadInt sp r2 y ++ [.mulr t.argr0 r2, .call .allocInt]
  | .div => t.loadInt sp t.argr0 x ++ t.loadInt sp r2 y ++ [.divr t.argr0 r2, .call .allocInt]
  | .mod => t.loadInt sp t.argr0 x ++ t.loadInt sp r2 y ++ [.modr t.argr0 r2, .call .allocInt]
  | .bitand => t.loadInt sp t.argr0 x ++ t.loadInt sp r2 y ++ [.andr t.argr0 r2, .call .allocInt]
  | .bitnot => t.loadInt sp t.argr0 x ++ [.notr t.argr0, .call .allocInt]
  | .bitor => t.loadInt sp t.argr0 x ++ t.loadInt sp r2 y ++ [.orr t.argr0 r2, .call .allocInt]
  | .bitxor => t.loadInt sp t.argr0 x ++ t.loadInt sp r2 y ++ [.xorr t.argr0 r2, .call .allocInt]
  | .shl => t.loadInt sp t.argr0 x ++ t.loadInt sp r2 y ++ [.shlr t.argr0 r2, .call .allocInt]
  | .shr => t.loadInt sp t.argr0 x ++ t.loadInt sp r2 y ++ [.shrr t.argr0 r2, .call .allocInt]
  | .lt => t.loadInt sp r2 x ++ t.loadInt sp t.argr0 y ++
      [.movi r3 (.int 0), .subr t.argr0 r2, .movneg t.argr0 r3, .call .allocInt]
  | .gt => t.loadInt sp t.argr0 x ++ t.loadInt sp r2 y ++
      [.movi r3 (.int 0), .subr t.argr0 r2, .movneg t.argr0 r3, .call .allocInt]
  | .eq => t.loadInt sp r1 x ++ t.loadInt sp r2 y ++
      [.movi r0 (.int 0), .movi r3 (.int 1), .cmpr r1 r2, .moveq r0 r3, .movr t.argr0 r0,
        .call .allocInt]

/-! ## The x64 code is the compiler model's -/

/-- A constant operand carries the value of its cell in heap `h`. -/
def Operand.Read (h : Heap) (x : Operand) : Prop :=
  x.arg.type = .const → ∃ c, cellAt h x.arg.cell = .ok c ∧ c.ar = x.value

section Compiler

variable {ctx : Ctx} {s s' : CState} {x y : Operand} {u : Unit} {w returnType : Word}
  {code : List Jit}

theorem emits_loadInt {dreg : ℕ} (hx : x.Read s.heap) :
    Emits (loadInt dreg x.arg) ctx s u code s' ↔
      code = x64.loadInt s.frame.sp dreg x ∧ s' = s := by
  unfold loadInt Target.loadInt
  cases ht : x.arg.type with
  | const =>
    obtain ⟨c, hc, hv⟩ := hx ht
    rw [← hv]
    simp [emits_fetch_bind, hc]
  | env => simp
  | lambda => simp
  | reg => simp
  | regInt => simp
  | stack => simp [emits_frame_bind, x64, ptrsz_x64]
  | stackInt => simp [emits_frame_bind, x64, ptrsz_x64]

theorem emits_loadInt_bind {dreg : ℕ} {f : Unit → CompM Word} (hx : x.Read s.heap) :
    Emits (loadInt dreg x.arg >>= f) ctx s w code s' ↔
      ∃ rest, Emits (f ()) ctx s w rest s' ∧ code = x64.loadInt s.frame.sp dreg x ++ rest := by
  rw [emits_bind]
  constructor
  · rintro ⟨a, code₁, s₁, code₂, h₁, h₂, rfl⟩
    obtain ⟨rfl, rfl⟩ := (emits_loadInt hx).mp h₁
    exact ⟨code₂, h₂, rfl⟩
  · rintro ⟨rest, h, rfl⟩
    exact ⟨(), _, s, rest, (emits_loadInt hx).mpr ⟨rfl, rfl⟩, h, rfl⟩

theorem emits_intResult {c : Cell} (hr : cellAt s.heap returnType = .ok c) (ha : c.tag = tagAny)
    (h : Emits (intResult returnType) ctx s w code s') : code = [.call .allocInt] := by
  unfold intResult tagOf at h
  rw [emits_ctx_bind, emits_bind] at h
  obtain ⟨tag, code₁, s₁, code₂, h₁, h₂, rfl⟩ := h
  simp only [emits_fetch_bind, hr, Except.ok.injEq, exists_eq_left', emits_pure] at h₁
  obtain ⟨rfl, rfl, rfl⟩ := h₁
  rw [if_pos ha, emits_emit_bind] at h₂
  obtain ⟨rest, h₂, rfl⟩ := h₂
  obtain ⟨-, rfl, -⟩ := emits_pure.mp h₂
  rfl

/-- An integer builtin in a boxed context emits `intCode` on x64. -/
theorem intCode_x64 {rec : Rec} {n call : ℕ} {origArgs origOp : Word} {a : Args} {c : Cell}
    (op : IntOp) (hr : cellAt s.heap returnType = .ok c) (ha : c.tag = tagAny)
    (hx : x.Read s.heap) (hy : y.Read s.heap) (h0 : a.defs 0 = x.arg) (h1 : a.defs 1 = y.arg)
    (h : Emits (compileBuiltin rec n call returnType origArgs origOp a op.builtin) ctx s w code s') :
    code = x64.intCode s.frame.sp x y op := by
  cases op with
  | bitnot =>
    simp only [IntOp.builtin, compileBuiltin, compileBitnot, h0, emits_loadInt_bind hx,
      emits_emit_bind] at h
    obtain ⟨_, ⟨_, h, rfl⟩, rfl⟩ := h
    rw [emits_intResult hr ha h]
    rfl
  | lt =>
    simp only [IntOp.builtin, compileBuiltin, compileLt, h0, h1, emits_loadInt_bind hx,
      emits_loadInt_bind hy, emits_emit_bind] at h
    obtain ⟨_, ⟨_, ⟨_, h, rfl⟩, rfl⟩, rfl⟩ := h
    rw [emits_intResult hr ha h]
    simp [Target.intCode, x64, argr0_x64]
  | gt =>
    simp only [IntOp.builtin, compileBuiltin, compileGt, h0, h1, emits_loadInt_bind hx,
      emits_loadInt_bind hy, emits_emit_bind] at h
    obtain ⟨_, ⟨_, ⟨_, h, rfl⟩, rfl⟩, rfl⟩ := h
    rw [emits_intResult hr ha h]
    simp [Target.intCode, x64, argr0_x64]
  | eq =>
    simp only [IntOp.builtin, compileBuiltin, compileEq, h0, h1, emits_loadInt_bind hx,
      emits_loadInt_bind hy, emits_emit_bind, emits_ctx_bind] at h
    obtain ⟨_, ⟨_, ⟨_, h, rfl⟩, rfl⟩, rfl⟩ := h
    rw [emits_bind] at h
    obtain ⟨tag, code₁, s₁, code₂, h₁, h₂, rfl⟩ := h
    simp only [tagOf, emits_fetch_bind, hr, Except.ok.injEq, exists_eq_left', emits_pure] at h₁
    obtain ⟨rfl, rfl, rfl⟩ := h₁
    rw [if_pos ha, emits_emit_bind] at h₂
    obtain ⟨rest, h₂, rfl⟩ := h₂
    obtain ⟨-, rfl, -⟩ := emits_pure.mp h₂
    simp [Target.intCode, x64, argr0_x64]
  | _ =>
    simp only [IntOp.builtin, compileBuiltin, compileArith, h0, h1, emits_loadInt_bind hx,
      emits_loadInt_bind hy, emits_emit_bind] at h
    obtain ⟨_, ⟨_, ⟨_, h, rfl⟩, rfl⟩, rfl⟩ := h
    rw [emits_intResult hr ha h]
    simp [Target.intCode, x64, argr0_x64]

end Compiler

/-- A boxed integer read back from its low half. -/
theorem setWidth_sext (a : BitVec 32) : (a.signExtend 64).setWidth 32 = a := by
  ext i hi
  simp only [BitVec.getElem_setWidth, BitVec.getLsbD_signExtend]
  simp [hi]
  omega

/-! ## Runs on x64 -/

namespace X64

/-- Operand `x` is the boxed integer `a` in state `m`: a constant, the cell of
    a global, or a cell whose address is in a parameter register or on the
    stack. -/
def Holds (l : Layout 64) (sp : ℤ) (m : State) (x : Operand) (a : BitVec 32) : Prop :=
  match x.arg.type with
  | .const => x.value = .int (a.signExtend 64)
  | .env => ∃ e, x.arg.env = some e ∧ m.mem (m.mem (l (.entry e))) = a.signExtend 64
  | .reg => ∃ j < argSpillover, x.arg.slot = (lbdreg + j : ℕ) ∧
      m.mem (m.regs (regnames (lbdreg + j))) = a.signExtend 64
  | .stack =>
      m.mem (m.mem (m.regs .rsp + BitVec.ofInt 64 (8 * (sp - x.arg.slot)))) = a.signExtend 64
  | _ => False

/-- Operand `x` is the machine word `v` in state `m`: as `Holds`, or a raw
    integer on the stack. -/
def HoldsWord (l : Layout 64) (sp : ℤ) (m : State) (x : Operand) (v : BitVec 64) : Prop :=
  match x.arg.type with
  | .const => x.value = .int v
  | .env => ∃ e, x.arg.env = some e ∧ m.mem (m.mem (l (.entry e))) = v
  | .reg => ∃ j < argSpillover, x.arg.slot = (lbdreg + j : ℕ) ∧
      m.mem (m.regs (regnames (lbdreg + j))) = v
  | .stack => m.mem (m.mem (m.regs .rsp + BitVec.ofInt 64 (8 * (sp - x.arg.slot)))) = v
  | .stackInt => m.mem (m.regs .rsp + BitVec.ofInt 64 (8 * (sp - x.arg.slot))) = v
  | _ => False

section Runs

variable {l : Layout 64} {c : Callee Reg 64} {sp : ℤ} {m m' : State} {x y : Operand}
  {a b : BitVec 32} {d : ℕ} {code rest : List Jit} {j : Jit} {is : List Instr}

@[simp] theorem run_nil : run c [] m = some m := rfl

@[simp] theorem run_cons {i : Instr} : run c (i :: is) m = (step c m i).bind (run c is) := rfl

@[simp] theorem runJit_nil : runJit l c [] m = some m := rfl

@[simp] theorem runJit_cons :
    runJit l c (j :: rest) m = ((emit l j).bind fun is => run c is m).bind (runJit l c rest) := rfl

theorem runJit_append (h : runJit l c code m = some m') :
    runJit l c (code ++ rest) m = runJit l c rest m' := by
  unfold runJit at h ⊢
  rw [List.foldlM_append, h]
  rfl

@[simp] theorem State.set_regs (r r' : Reg) (v : BitVec 64) :
    (m.set r v).regs r' = if r' = r then v else m.regs r' := by
  simp [State.set, Function.update_apply]

@[simp] theorem State.set_mem (r : Reg) (v : BitVec 64) : (m.set r v).mem = m.mem := rfl

@[simp] theorem State.set_set (r : Reg) (v w : BitVec 64) : (m.set r v).set r w = m.set r w := by
  simp [State.set]

theorem Holds.word (hx : Holds l sp m x a) : HoldsWord l sp m x (a.signExtend 64) := by
  unfold Holds at hx
  unfold HoldsWord
  cases ht : x.arg.type with
  | const | env | reg | stack =>
    rw [ht] at hx
    exact hx
  | lambda | regInt | stackInt =>
    rw [ht] at hx
    exact hx.elim

/-- `load_int` puts the word into its register and changes nothing else. -/
theorem runJit_loadInt (hd : d < lbdreg) {v : BitVec 64} (hx : HoldsWord l sp m x v) :
    runJit l c (x64.loadInt sp d x) m = some (m.set (regnames d) v) := by
  unfold HoldsWord at hx
  unfold Target.loadInt
  split at hx
  · rename_i ht
    simp [ht, hx, emit, Layout.imm, step]
  · rename_i ht
    obtain ⟨e, he, hv⟩ := hx
    simp [ht, he, entryPtr, emit, Layout.imm, step, hv]
  · rename_i ht
    obtain ⟨j, -, hs, hv⟩ := hx
    have hslot : x.arg.slot.toNat = lbdreg + j := by omega
    have hne : d ≠ lbdreg + j := by omega
    simp [ht, hslot, emit, jitMovr, step, hne, hv]
  · rename_i ht
    simp [ht, emit, step, hx, x64]
  · rename_i ht
    simp [ht, emit, step, hx, x64]
  · exact hx.elim

/-- Writing one of the first four registers moves no operand. -/
theorem HoldsWord.set (hd : d < lbdreg) {v w : BitVec 64} (hx : HoldsWord l sp m x v) :
    HoldsWord l sp (m.set (regnames d) w) x v := by
  have hsp : Reg.rsp ≠ regnames d := by interval_cases d <;> decide
  unfold HoldsWord at hx ⊢
  split at hx
  · exact hx
  · exact hx
  · obtain ⟨j, hj, hs, hv⟩ := hx
    rw [argSpillover_x64] at hj
    have hne : regnames (lbdreg + j) ≠ regnames d := by
      interval_cases j <;> interval_cases d <;> decide
    refine ⟨j, hj, hs, ?_⟩
    rw [State.set_mem, State.set_regs, if_neg hne]
    exact hv
  · rw [State.set_mem, State.set_regs, if_neg hsp]
    exact hx
  · rw [State.set_mem, State.set_regs, if_neg hsp]
    exact hx
  · exact hx.elim

/-- The argument of `alloc_int` at the end of each builtin. -/
def intArg (a b : BitVec 32) : IntOp → BitVec 32
  | .add => (a.signExtend 64 + b.signExtend 64).setWidth 32
  | .sub => (a.signExtend 64 - b.signExtend 64).setWidth 32
  | .mul => (a.signExtend 64 * b.signExtend 64).setWidth 32
  | .div => BitVec.ofInt 32 (a.toInt.tdiv b.toInt)
  | .mod => BitVec.ofInt 32 (a.toInt.tmod b.toInt)
  | .bitand => (a.signExtend 64 &&& b.signExtend 64).setWidth 32
  | .bitnot => (~~~ a.signExtend 64).setWidth 32
  | .bitor => (a.signExtend 64 ||| b.signExtend 64).setWidth 32
  | .bitxor => (a.signExtend 64 ^^^ b.signExtend 64).setWidth 32
  | .shl => (a.signExtend 64 <<< ((b.signExtend 64).toNat % 64)).setWidth 32
  | .shr => (a.signExtend 64 >>> ((b.signExtend 64).toNat % 64)).setWidth 32
  | .lt => if (b.signExtend 64 - a.signExtend 64).msb then 0
      else (b.signExtend 64 - a.signExtend 64).setWidth 32
  | .gt => if (a.signExtend 64 - b.signExtend 64).msb then 0
      else (a.signExtend 64 - b.signExtend 64).setWidth 32
  | .eq => if a = b then 1 else 0

/-- The cell made by the final `alloc_int`, whose address is in `rax`. -/
theorem runJit_allocInt {v : BitVec 32} (h : runJit l c code m = some m')
    (hv : (m'.regs .rdi).setWidth 32 = v) :
    ∃ m₂, runJit l c (code ++ [.call .allocInt]) m = some m₂ ∧
      m₂.mem (m₂.regs .rax) = v.signExtend 64 := by
  rw [runJit_append h]
  refine ⟨_, rfl, ?_⟩
  simp [returned, hv]

/-- Two loads, some instructions, `alloc_int`. -/
theorem runJit_binary {d' : ℕ} {v : BitVec 32} (tail : List Jit) (hd : d < lbdreg)
    (hd' : d' < lbdreg) (hx : Holds l sp m x a) (hy : Holds l sp m y b)
    (h : runJit l c tail ((m.set (regnames d) (a.signExtend 64)).set (regnames d')
      (b.signExtend 64)) = some m')
    (hv : (m'.regs .rdi).setWidth 32 = v) :
    ∃ m₂, runJit l c (x64.loadInt sp d x ++ x64.loadInt sp d' y ++ (tail ++ [.call .allocInt])) m =
      some m₂ ∧ m₂.mem (m₂.regs .rax) = v.signExtend 64 := by
  rw [List.append_assoc, runJit_append (runJit_loadInt hd hx.word),
    runJit_append (runJit_loadInt hd' (hy.word.set hd))]
  exact runJit_allocInt h hv

theorem toInt_sext (a : BitVec 32) : (a.signExtend 64).toInt = a.toInt :=
  BitVec.toInt_signExtend_of_le (by decide)

/-- What `cqto` leaves in `rdx:rax` is the dividend. -/
theorem toInt_cqto (v : BitVec 64) :
    ((if v.msb then BitVec.allOnes 64 else 0) ++ v).toInt = v.toInt := by
  have happ : (if v.msb then BitVec.allOnes 64 else 0) ++ v = v.signExtend 128 := by
    rw [BitVec.signExtend_eq_append_of_le (by decide)]
    cases v.msb with
    | false => rfl
    | true => rfl
  rw [happ, BitVec.toInt_signExtend_of_le (by decide)]

/-- A quotient of 32-bit numbers does not overflow 64 bits. -/
theorem tdiv_bounds (a b : BitVec 32) :
    ¬ (a.toInt.tdiv b.toInt < -2 ^ 63 ∨ 2 ^ 63 ≤ a.toInt.tdiv b.toInt) := by
  have hle : (a.toInt.tdiv b.toInt).natAbs ≤ a.toInt.natAbs := by
    rw [Int.natAbs_tdiv]
    exact Nat.div_le_self _ _
  have h1 := BitVec.le_toInt a
  have h2 := BitVec.toInt_lt (x := a)
  omega

theorem toInt_ne_zero {b : BitVec 32} (hb : b ≠ 0) : b.toInt ≠ 0 := by
  intro h
  apply hb
  exact BitVec.eq_of_toInt_eq h

theorem sext_sub_eq_zero {a b : BitVec 32} : a.signExtend 64 - b.signExtend 64 = 0#64 ↔ a = b := by
  constructor
  · intro h
    apply BitVec.eq_of_toInt_eq
    rw [← toInt_sext, BitVec.sub_eq_iff_eq_add.mp h, ← toInt_sext b]
    simp
  · intro h
    rw [h]
    exact BitVec.sub_self _

theorem setWidth_ofInt (v : ℤ) : (BitVec.ofInt 64 v).setWidth 32 = BitVec.ofInt 32 v := by
  apply BitVec.eq_of_toNat_eq
  simp only [BitVec.toNat_setWidth, BitVec.toNat_ofInt]
  omega

/-- The division sequence. -/
theorem runJit_divr (hb : (m.regs .rsi).toInt ≠ 0)
    (hq : ¬ ((m.regs .rdi).toInt.tdiv (m.regs .rsi).toInt < -2 ^ 63 ∨
      2 ^ 63 ≤ (m.regs .rdi).toInt.tdiv (m.regs .rsi).toInt)) :
    ∃ m', runJit l c [.divr argr0 r2] m = some m' ∧
      m'.regs .rdi = BitVec.ofInt 64 ((m.regs .rdi).toInt.tdiv (m.regs .rsi).toInt) := by
  refine ⟨?m, ?run, ?value⟩
  case run =>
    simp only [argr0_x64, runJit_cons, emit, Option.bind_some, run_cons, step, regnames,
      State.set_regs, reduceCtorEq, ↓reduceIte, toInt_cqto, hb, hq, false_or]
    rfl
  case value => simp [State.set]

/-- The remainder sequence. -/
theorem runJit_modr (hb : (m.regs .rsi).toInt ≠ 0)
    (hq : ¬ ((m.regs .rdi).toInt = -2 ^ 63 ∧ (m.regs .rsi).toInt = -1)) :
    ∃ m', runJit l c [.modr argr0 r2] m = some m' ∧
      (m'.regs .rdi).setWidth 32 =
        BitVec.ofInt 32 ((m.regs .rdi).toInt.tmod (m.regs .rsi).toInt) := by
  have hc : ¬ ((m.regs .rsi).toInt = 0 ∨
      ((m.regs .rdi).toInt = -2 ^ 63 ∧ (m.regs .rsi).toInt = -1)) := by
    tauto
  have hcall : call c m .inlineMod = some _ := if_neg hc
  refine ⟨?m, ?run, ?value⟩
  case run =>
    change ((call c m .inlineMod).bind _).bind _ = _
    rw [hcall]
    rfl
  case value =>
    simp only [State.set, returned, regnames, Function.update_self]
    exact BitVec.setWidth_append_eq_right

/-- What the cell made by an integer builtin holds on x64. -/
theorem run_intCode (op : IntOp) (hx : Holds l sp m x a) (hy : op ≠ .bitnot → Holds l sp m y b)
    (hb : op = .div ∨ op = .mod → b ≠ 0) :
    ∃ m', runJit l c (x64.intCode sp x y op) m = some m' ∧
      m'.mem (m'.regs .rax) = (intArg a b op).signExtend 64 := by
  have h1 : x64.argr0 < lbdreg := by decide
  have h2 : r2 < lbdreg := by decide
  cases op with
  | add =>
    refine runJit_binary [.addr x64.argr0 r2] h1 h2 hx (hy (by decide)) rfl ?_
    simp [State.setFlags, x64, regnames, intArg]
  | sub =>
    refine runJit_binary [.subr x64.argr0 r2] h1 h2 hx (hy (by decide)) rfl ?_
    simp [State.setFlags, x64, regnames, intArg]
  | mul =>
    refine runJit_binary [.mulr x64.argr0 r2] h1 h2 hx (hy (by decide)) rfl ?_
    simp [x64, regnames, intArg]
  | bitand =>
    refine runJit_binary [.andr x64.argr0 r2] h1 h2 hx (hy (by decide)) rfl ?_
    simp [State.setFlags, x64, regnames, intArg]
  | bitor =>
    refine runJit_binary [.orr x64.argr0 r2] h1 h2 hx (hy (by decide)) rfl ?_
    simp [State.setFlags, x64, regnames, intArg]
  | bitxor =>
    refine runJit_binary [.xorr x64.argr0 r2] h1 h2 hx (hy (by decide)) rfl ?_
    simp [State.setFlags, x64, regnames, intArg]
  | bitnot =>
    have hrun : runJit l c (x64.loadInt sp x64.argr0 x ++ [.notr x64.argr0]) m =
        some ((m.set .rdi (a.signExtend 64)).set .rdi (~~~ (a.signExtend 64))) := by
      rw [runJit_append (runJit_loadInt h1 hx.word)]
      simp [emit, step, x64, regnames]
    obtain ⟨m₂, hm₂, hv⟩ := runJit_allocInt hrun rfl
    rw [List.append_assoc] at hm₂
    refine ⟨m₂, hm₂, hv.trans ?_⟩
    simp [intArg]
  | shl =>
    refine runJit_binary [.shlr x64.argr0 r2] h1 h2 hx (hy (by decide)) rfl ?_
    by_cases hn : (b.signExtend 64).toNat % 64 = 0
    · simp [x64, regnames, intArg, hn]
    · simp [State.setFlags, x64, regnames, intArg, hn]
  | shr =>
    refine runJit_binary [.shrr x64.argr0 r2] h1 h2 hx (hy (by decide)) rfl ?_
    by_cases hn : (b.signExtend 64).toNat % 64 = 0
    · simp [x64, regnames, intArg, hn]
    · simp [State.setFlags, x64, regnames, intArg, hn]
  | gt =>
    refine runJit_binary [.movi r3 (.int 0), .subr x64.argr0 r2, .movneg x64.argr0 r3] h1 h2 hx
      (hy (by decide)) rfl ?_
    by_cases hn : (a.signExtend 64 - b.signExtend 64).msb
    · simp [State.setFlags, x64, regnames, intArg, hn]
    · simp [State.setFlags, x64, regnames, intArg, hn]
  | lt =>
    refine runJit_binary [.movi r3 (.int 0), .subr x64.argr0 r2, .movneg x64.argr0 r3] h2 h1 hx
      (hy (by decide)) rfl ?_
    by_cases hn : (b.signExtend 64 - a.signExtend 64).msb
    · simp [State.setFlags, x64, regnames, intArg, hn]
    · simp [State.setFlags, x64, regnames, intArg, hn]
  | eq =>
    refine runJit_binary [.movi r0 (.int 0), .movi r3 (.int 1), .cmpr r1 r2, .moveq r0 r3,
      .movr x64.argr0 r0] (by decide) h2 hx (hy (by decide)) rfl ?_
    by_cases hn : a = b
    · simp [x64, regnames, intArg, hn]
    · have hz := mt sext_sub_eq_zero.mp hn
      simp [x64, regnames, intArg, hn, hz]
  | div =>
    have hb0 := toInt_ne_zero (hb (.inl rfl))
    obtain ⟨m₁, hm₁, hv⟩ := runJit_divr (l := l) (c := c)
      (m := (m.set .rdi (a.signExtend 64)).set .rsi (b.signExtend 64))
      (by simpa [toInt_sext] using hb0) (by simpa [toInt_sext] using tdiv_bounds a b)
    refine runJit_binary [.divr x64.argr0 r2] h1 h2 hx (hy (by decide)) hm₁ ?_
    rw [hv, setWidth_ofInt]
    simp [toInt_sext, intArg]
  | mod =>
    have hb0 := toInt_ne_zero (hb (.inr rfl))
    have ha := BitVec.le_toInt a
    obtain ⟨m₁, hm₁, hv⟩ := runJit_modr (l := l) (c := c)
      (m := (m.set .rdi (a.signExtend 64)).set .rsi (b.signExtend 64))
      (by simpa [toInt_sext] using hb0) (by simp [toInt_sext]; omega)
    refine runJit_binary [.modr x64.argr0 r2] h1 h2 hx (hy (by decide)) hm₁ ?_
    rw [hv]
    simp [toInt_sext, intArg]

end Runs

end X64

/-! ## Runs on ARM -/

namespace Arm

/-- Operand `x` is the boxed integer `a` in state `s`. The code area of 1024
    words (`jit_init(0x400)`) keeps stack operands within 1024 words of `sp`:
    each word between was pushed by an instruction of it. -/
def Holds (l : Layout 32) (sp : ℤ) (s : State) (x : Operand) (a : BitVec 32) : Prop :=
  match x.arg.type with
  | .const => x.value = .int (a.signExtend 64)
  | .env => ∃ e, x.arg.env = some e ∧ s.mem (s.mem (l (.entry e))) = a
  | .reg => ∃ j < argSpillover, x.arg.slot = (lbdreg + j : ℕ) ∧ s.mem (s.regs (lbdreg + j)) = a
  | .stack => |sp - x.arg.slot| < 1024 ∧
      s.mem (s.mem (s.regs 13 + BitVec.ofInt 32 (4 * (sp - x.arg.slot)))) = a
  | _ => False

/-- Operand `x` is the machine word `a` in state `s`: as `Holds`, with a
    literal of any size, or a raw integer on the stack. -/
def HoldsWord (l : Layout 32) (sp : ℤ) (s : State) (x : Operand) (a : BitVec 32) : Prop :=
  match x.arg.type with
  | .const => ∃ v, x.value = .int v ∧ v.setWidth 32 = a
  | .env => ∃ e, x.arg.env = some e ∧ s.mem (s.mem (l (.entry e))) = a
  | .reg => ∃ j < argSpillover, x.arg.slot = (lbdreg + j : ℕ) ∧ s.mem (s.regs (lbdreg + j)) = a
  | .stack => |sp - x.arg.slot| < 1024 ∧
      s.mem (s.mem (s.regs 13 + BitVec.ofInt 32 (4 * (sp - x.arg.slot)))) = a
  | .stackInt => |sp - x.arg.slot| < 1024 ∧
      s.mem (s.regs 13 + BitVec.ofInt 32 (4 * (sp - x.arg.slot))) = a
  | _ => False

section Runs

variable {l : Layout 32} {c : Callee ℕ 32} {sp : ℤ} {s s' : State} {x y : Operand}
  {a b : BitVec 32} {d : ℕ} {code rest : List Jit} {j : Jit} {is : List Item}

@[simp] theorem run_nil : run c [] s = some s := rfl

@[simp] theorem run_cons {i : Item} : run c (i :: is) s = (step c s i).bind (run c is) := rfl

@[simp] theorem runJit_nil : runJit l c [] s = some s := rfl

@[simp] theorem runJit_cons :
    runJit l c (j :: rest) s = ((emit l j).bind fun is => run c is s).bind (runJit l c rest) := rfl

theorem runJit_append (h : runJit l c code s = some s') :
    runJit l c (code ++ rest) s = runJit l c rest s' := by
  unfold runJit at h ⊢
  rw [List.foldlM_append, h]
  rfl

@[simp] theorem State.set_regs (r r' : ℕ) (v : BitVec 32) :
    (s.set r v).regs r' = if r' = r then v else s.regs r' := by
  simp [State.set, Function.update_apply]

@[simp] theorem State.set_mem (r : ℕ) (v : BitVec 32) : (s.set r v).mem = s.mem := rfl

@[simp] theorem State.set_set (r : ℕ) (v w : BitVec 32) : (s.set r v).set r w = s.set r w := by
  simp [State.set]

theorem decode_jitLdr : ∀ d < lbdreg, decode (jitLdr d) = some (.al, .ldr d d 0) := by
  decide

theorem decode_jitMovr : ∀ d < lbdreg, ∀ s < 8,
    decode (jitMovr d s) = some (.al, .data .mov false d 0 (.reg s)) := by
  decide

/-! The words of the integer builtins, with `ARGR0` = 0 and `R2` = 2. -/

@[simp] theorem decode_jitAddr :
    decode (jitAddr 0 2) = some (.al, .data .add true 0 0 (.reg 2)) := by decide

@[simp] theorem decode_jitSubr :
    decode (jitSubr 0 2) = some (.al, .data .sub true 0 0 (.reg 2)) := by decide

@[simp] theorem decode_jitMulr : decode (jitMulr 0 2) = some (.al, .mul true 0 0 2) := by decide

@[simp] theorem decode_jitAndr :
    decode (jitAndr 0 2) = some (.al, .data .and false 0 0 (.reg 2)) := by decide

@[simp] theorem decode_jitOrr :
    decode (jitOrr 0 2) = some (.al, .data .orr false 0 0 (.reg 2)) := by decide

@[simp] theorem decode_jitXorr :
    decode (jitXorr 0 2) = some (.al, .data .eor false 0 0 (.reg 2)) := by decide

@[simp] theorem decode_jitNotr :
    decode (jitNotr 0) = some (.al, .data .mvn false 0 0 (.reg 0)) := by decide

@[simp] theorem decode_jitShlr :
    decode (jitShlr 0 2) = some (.al, .data .mov false 0 0 (.lsl 0 2)) := by decide

@[simp] theorem decode_jitShrr :
    decode (jitShrr 0 2) = some (.al, .data .mov false 0 0 (.lsr 0 2)) := by decide

@[simp] theorem decode_jitMovneg :
    decode (jitMovneg 0 3) = some (.mi, .data .mov false 0 0 (.reg 3)) := by decide

@[simp] theorem decode_jitMoveq :
    decode (jitMoveq 0 3) = some (.eq, .data .mov false 0 0 (.reg 3)) := by decide

@[simp] theorem decode_jitCmpr :
    decode (jitCmpr 1 2) = some (.al, .data .cmp true 0 2 (.reg 1)) := by decide

@[simp] theorem decode_jitMovr_zero :
    decode (jitMovr 0 0) = some (.al, .data .mov false 0 0 (.reg 0)) := by decide

@[simp] theorem decode_jitMovr_one :
    decode (jitMovr 1 2) = some (.al, .data .mov false 1 0 (.reg 2)) := by decide

/-- The word of a stack load: the offset fills the low twelve bits. -/
theorem toNat_ldrStack {op n : ℕ} (hd : d < lbdreg) (hop : op < 2 ^ 16) (hn : n < 4096) :
    (BitVec.ofNat 32 (2 ^ 16 * op) ||| (BitVec.ofInt 32 n &&& 0xfff#32) ||| reg d <<< 12).toNat =
      2 ^ 12 * (16 * op + d) + n := by
  have hd4 : d < 4 := hd
  have hmask : (BitVec.ofInt 32 n &&& 0xfff#32).toNat = n := by
    have hlow := Nat.and_two_pow_sub_one_eq_mod n 12
    rw [BitVec.toNat_and, BitVec.ofInt_natCast, BitVec.toNat_ofNat, Nat.mod_eq_of_lt (by omega)]
    exact hlow.trans (Nat.mod_eq_of_lt hn)
  have hhigh : (BitVec.ofNat 32 (2 ^ 16 * op) ||| reg d <<< 12).toNat =
      2 ^ 12 * (16 * op + d) := by
    have hor := Nat.two_pow_add_eq_or_of_lt (show 2 ^ 12 * d < 2 ^ 16 by omega) op
    rw [BitVec.toNat_or, BitVec.toNat_shiftLeft, BitVec.toNat_ofNat, BitVec.toNat_ofNat,
      Nat.mod_eq_of_lt (show 2 ^ 16 * op < 2 ^ 32 by omega),
      Nat.mod_eq_of_lt (show d < 2 ^ 32 by omega), Nat.shiftLeft_eq,
      Nat.mod_eq_of_lt (show d * 2 ^ 12 < 2 ^ 32 by omega), Nat.mul_comm d, ← hor]
    ring
  have hcomm : BitVec.ofNat 32 (2 ^ 16 * op) ||| (BitVec.ofInt 32 n &&& 0xfff#32) ||| reg d <<< 12 =
      (BitVec.ofNat 32 (2 ^ 16 * op) ||| reg d <<< 12) ||| (BitVec.ofInt 32 n &&& 0xfff#32) := by
    rw [BitVec.or_assoc, BitVec.or_comm (BitVec.ofInt 32 n &&& 0xfff#32), ← BitVec.or_assoc]
  rw [hcomm, BitVec.toNat_or, hhigh, hmask, ← Nat.two_pow_add_eq_or_of_lt hn]

theorem decode_jitLdrStack (hd : d < lbdreg) {k : ℤ} (hk : |k| < 1024) :
    decode (jitLdrStack d (4 * k)) = some (.al, .ldr d 13 (4 * k)) := by
  have hbound := abs_lt.mp hk
  -- `op` holds the upper half of the word; only its U bit depends on the sign
  obtain ⟨op, n, hn, hop, hsign, hw⟩ : ∃ op n : ℕ, n < 4096 ∧ (op = 0xe51d ∨ op = 0xe59d) ∧
      (4 * k = if op = 0xe59d then (n : ℤ) else -n) ∧
      (jitLdrStack d (4 * k)).toNat = 2 ^ 12 * (16 * op + d) + n := by
    by_cases hneg : 4 * k < 0
    · refine ⟨0xe51d, (-1 * (4 * k)).toNat, by omega, .inl rfl, by simp; omega, ?_⟩
      rw [← toNat_ldrStack hd (by decide) (by omega), jitLdrStack, if_pos hneg, if_pos hneg,
        Int.toNat_of_nonneg (by omega)]
      rfl
    · refine ⟨0xe59d, (4 * k).toNat, by omega, .inr rfl, by simp; omega, ?_⟩
      rw [← toNat_ldrStack hd (by decide) (by omega), jitLdrStack, if_neg hneg, if_neg hneg,
        Int.toNat_of_nonneg (by omega)]
      rfl
  generalize jitLdrStack d (4 * k) = word at hw ⊢
  have hd4 : d < 4 := hd
  have hfield : ∀ lo w v, (2 ^ 12 * (16 * op + d) + n) / 2 ^ lo % 2 ^ w = v →
      field word lo w = v := by
    intro lo w v hv
    rw [field, hw, Nat.shiftRight_eq_div_pow, hv]
  have h21 : field word 21 7 ≠ 0 := by
    rw [field, hw, Nat.shiftRight_eq_div_pow]
    omega
  rw [decode, decodeInstr, hfield 28 4 14 (by omega), hfield 25 3 2 (by omega),
    hfield 24 4 5 (by omega), hfield 20 3 1 (by omega), hfield 0 12 n (by omega),
    hfield 12 4 d (by omega), hfield 16 4 13 (by omega)]
  rcases hop with rfl | rfl
  · rw [hfield 23 1 0 (by omega)]
    simp [h21, Cond.ofField, hsign]
  · rw [hfield 23 1 1 (by omega)]
    simp [h21, Cond.ofField, hsign]

theorem Holds.word (hx : Holds l sp s x a) : HoldsWord l sp s x a := by
  unfold Holds at hx
  unfold HoldsWord
  cases ht : x.arg.type with
  | const =>
    rw [ht] at hx
    exact ⟨_, hx, setWidth_sext a⟩
  | env | reg | stack =>
    rw [ht] at hx
    exact hx
  | lambda | regInt | stackInt =>
    rw [ht] at hx
    exact hx.elim

/-- `load_int` puts the word into its register and changes nothing else. -/
theorem runJit_loadInt (hd : d < lbdreg) (hx : HoldsWord l sp s x a) :
    runJit l c (arm.loadInt sp d x) s = some (s.set d a) := by
  unfold HoldsWord at hx
  unfold Target.loadInt
  split at hx
  · rename_i ht
    obtain ⟨v, hv, ha⟩ := hx
    simp [ht, hv, emit, Layout.imm, step, ha]
  · rename_i ht
    obtain ⟨e, he, hv⟩ := hx
    simp [ht, he, entryPtr, emit, Layout.imm, step, stepWord, decode_jitLdr d hd, State.holds,
      exec, hv]
  · rename_i ht
    obtain ⟨j, hj, hs, hv⟩ := hx
    have hslot : x.arg.slot.toNat = lbdreg + j := by omega
    have hj8 : lbdreg + j < 8 := Nat.add_lt_add_left (Nat.lt_succ_of_lt hj) lbdreg
    simp [ht, hslot, emit, step, stepWord, decode_jitLdr d hd,
      decode_jitMovr d hd (lbdreg + j) hj8, State.holds, exec, State.operand, DataOp.value,
      State.flags, hv]
  · rename_i ht
    simp [ht, arm, emit, step, stepWord, decode_jitLdr d hd, decode_jitLdrStack hd hx.1,
      State.holds, exec, hx.2]
  · rename_i ht
    simp [ht, arm, emit, step, stepWord, decode_jitLdrStack hd hx.1, State.holds, exec, hx.2]
  · exact hx.elim

/-- Writing one of the first four registers moves no operand. -/
theorem HoldsWord.set (hd : d < lbdreg) {v : BitVec 32} (hx : HoldsWord l sp s x a) :
    HoldsWord l sp (s.set d v) x a := by
  have hd4 : d < 4 := hd
  unfold HoldsWord at hx ⊢
  split at hx
  · exact hx
  · exact hx
  · obtain ⟨j, hj, hs, hv⟩ := hx
    have hne : lbdreg + j ≠ d := by
      show 4 + j ≠ d
      omega
    refine ⟨j, hj, hs, ?_⟩
    rw [State.set_mem, State.set_regs, if_neg hne]
    exact hv
  · rw [State.set_mem, State.set_regs, if_neg (by omega)]
    exact hx
  · rw [State.set_mem, State.set_regs, if_neg (by omega)]
    exact hx
  · exact hx.elim

/-- The argument of `alloc_int` at the end of each builtin. -/
def intArg (a b : BitVec 32) : IntOp → BitVec 32
  | .add => a + b
  | .sub => a - b
  | .mul => a * b
  | .div => BitVec.ofInt 32 (a.toInt.tdiv b.toInt)
  | .mod => BitVec.ofInt 32 (a.toInt.tmod b.toInt)
  | .bitand => a &&& b
  | .bitnot => ~~~ a
  | .bitor => a ||| b
  | .bitxor => a ^^^ b
  | .shl => a <<< (b.toNat % 256)
  | .shr => a >>> (b.toNat % 256)
  | .lt => if (b - a).msb then 0 else b - a
  | .gt => if (a - b).msb then 0 else a - b
  | .eq => if a = b then 1 else 0

/-- The cell made by the final `alloc_int`, whose address is in `r0`. -/
theorem runJit_allocInt {v : BitVec 32} (h : runJit l c code s = some s') (hv : s'.regs 0 = v) :
    ∃ s₂, runJit l c (code ++ [.call .allocInt]) s = some s₂ ∧ s₂.mem (s₂.regs 0) = v := by
  rw [runJit_append h]
  refine ⟨_, rfl, ?_⟩
  simp [returned, hv]

/-- Two loads, some instructions, `alloc_int`. -/
theorem runJit_binary {d' : ℕ} {v : BitVec 32} (tail : List Jit) (hd : d < lbdreg)
    (hd' : d' < lbdreg) (hx : Holds l sp s x a) (hy : Holds l sp s y b)
    (h : ∃ s', runJit l c tail ((s.set d a).set d' b) = some s' ∧ s'.regs 0 = v) :
    ∃ s₂, runJit l c (arm.loadInt sp d x ++ arm.loadInt sp d' y ++ (tail ++ [.call .allocInt])) s =
      some s₂ ∧ s₂.mem (s₂.regs 0) = v := by
  obtain ⟨s', hrun, hv⟩ := h
  rw [List.append_assoc, runJit_append (runJit_loadInt hd hx.word),
    runJit_append (runJit_loadInt hd' (hy.word.set hd))]
  exact runJit_allocInt hrun hv

/-- One emitter call. -/
theorem runJit_single (he : emit l j = some is) (hr : run c is s = some s') :
    runJit l c [j] s = some s' := by
  rw [runJit_cons, he, Option.bind_some, hr]
  rfl

/-- One word that is always executed. -/
theorem runJit_word {w : BitVec 32} {i : Instr} (he : emit l j = some [.word w])
    (hw : decode w = some (.al, i)) : runJit l c [j] s = some (exec s i) := by
  apply runJit_single he
  simp [step, stepWord, hw, State.holds]

/-- `SUBS` and `MOVMI`: the difference, or zero if it is negative. -/
theorem runJit_positive :
    ∃ s', runJit l c [.movi r3 (.int 0), .subr arm.argr0 r2, .movneg arm.argr0 r3] s = some s' ∧
      s'.regs 0 = if (s.regs 0 - s.regs 2).msb then 0 else s.regs 0 - s.regs 2 := by
  by_cases hn : (s.regs 0 - s.regs 2).msb
  · simp [emit, Layout.imm, step, stepWord, State.holds, exec, State.flags, DataOp.value,
      State.operand, arm, hn]
  · simp [emit, Layout.imm, step, stepWord, State.holds, exec, State.flags, DataOp.value,
      State.operand, arm, hn]

/-- `CMP` and `MOVEQ`: one if the registers are equal, else zero. -/
theorem runJit_equal :
    ∃ s', runJit l c [.movi r0 (.int 0), .movi r3 (.int 1), .cmpr r1 r2, .moveq r0 r3,
        .movr arm.argr0 r0] s = some s' ∧
      s'.regs 0 = if s.regs 1 = s.regs 2 then 1 else 0 := by
  by_cases hn : s.regs 1 = s.regs 2
  · simp [emit, Layout.imm, step, stepWord, State.holds, exec, State.flags, DataOp.value,
      State.operand, arm, hn]
  · have hz : s.regs 2 - s.regs 1 ≠ 0#32 := by
      intro h
      exact hn ((BitVec.sub_eq_iff_eq_add.mp h).trans (BitVec.zero_add _)).symm
    simp [emit, Layout.imm, step, stepWord, State.holds, exec, State.flags, DataOp.value,
      State.operand, arm, hn, hz]

/-- The C operators are defined on these operands. -/
theorem helper_defined (hb : b ≠ 0 ∧ ¬ (a = BitVec.intMin 32 ∧ b = -1)) :
    ¬ (b.toInt = 0 ∨ (a.toInt = -2 ^ 31 ∧ b.toInt = -1)) := by
  intro h
  rcases h with h | ⟨ha, hb'⟩
  · exact hb.1 (BitVec.eq_of_toInt_eq h)
  · exact hb.2 ⟨BitVec.eq_of_toInt_eq ha, BitVec.eq_of_toInt_eq hb'⟩

@[simp] theorem exec_mov {n r : ℕ} :
    exec s (.data .mov false d n (.reg r)) = s.set d (s.regs r) := rfl

/-- `jit_divr` and `jit_modr`. -/
theorem run_jitHelper {f : Helper} (hf : f ≠ .allocInt) (hdef : ¬ ((s.regs 2).toInt = 0 ∨
      ((s.regs 0).toInt = -2 ^ 31 ∧ (s.regs 2).toInt = -1))) :
    ∃ s', run c (jitHelper f 0 2) s = some s' ∧ s'.regs 0 = BitVec.ofInt 32
      (if f = .inlineDiv then (s.regs 0).toInt.tdiv (s.regs 2).toInt
        else (s.regs 0).toInt.tmod (s.regs 2).toInt) := by
  have hmoves : run c (jitHelper f 0 2) s =
      call c ((s.set 0 (s.regs 0)).set 1 (s.regs 2)) f := by
    have hnil : run c [] = some := rfl
    simp [jitHelper, step, stepWord, State.holds, hnil]
  have hcall : call c ((s.set 0 (s.regs 0)).set 1 (s.regs 2)) f =
      some (returned c ((s.set 0 (s.regs 0)).set 1 (s.regs 2)) (BitVec.ofInt 32
        (if f = .inlineDiv then (s.regs 0).toInt.tdiv (s.regs 2).toInt
          else (s.regs 0).toInt.tmod (s.regs 2).toInt))) := by
    cases f with
    | allocInt => exact absurd rfl hf
    | inlineDiv => exact if_neg hdef
    | inlineMod => exact if_neg hdef
  refine ⟨_, hmoves.trans hcall, ?_⟩
  simp [returned]

/-- What the cell made by an integer builtin holds on ARM. -/
theorem run_intCode (op : IntOp) (hx : Holds l sp s x a) (hy : op ≠ .bitnot → Holds l sp s y b)
    (hb : op = .div ∨ op = .mod → b ≠ 0 ∧ ¬ (a = BitVec.intMin 32 ∧ b = -1)) :
    ∃ s', runJit l c (arm.intCode sp x y op) s = some s' ∧ s'.mem (s'.regs 0) = intArg a b op := by
  have h1 : arm.argr0 < lbdreg := by decide
  have h2 : r2 < lbdreg := by decide
  cases op with
  | add =>
    refine runJit_binary [.addr arm.argr0 r2] h1 h2 hx (hy (by decide))
      ⟨_, runJit_word rfl decode_jitAddr, ?_⟩
    simp [exec, State.flags, DataOp.value, State.operand, arm, intArg]
  | sub =>
    refine runJit_binary [.subr arm.argr0 r2] h1 h2 hx (hy (by decide))
      ⟨_, runJit_word rfl decode_jitSubr, ?_⟩
    simp [exec, State.flags, DataOp.value, State.operand, arm, intArg]
  | mul =>
    refine runJit_binary [.mulr arm.argr0 r2] h1 h2 hx (hy (by decide))
      ⟨_, runJit_word rfl decode_jitMulr, ?_⟩
    simp [exec, State.flags, arm, intArg]
  | bitand =>
    refine runJit_binary [.andr arm.argr0 r2] h1 h2 hx (hy (by decide))
      ⟨_, runJit_word rfl decode_jitAndr, ?_⟩
    simp [exec, State.flags, DataOp.value, State.operand, arm, intArg]
  | bitor =>
    refine runJit_binary [.orr arm.argr0 r2] h1 h2 hx (hy (by decide))
      ⟨_, runJit_word rfl decode_jitOrr, ?_⟩
    simp [exec, State.flags, DataOp.value, State.operand, arm, intArg]
  | bitxor =>
    refine runJit_binary [.xorr arm.argr0 r2] h1 h2 hx (hy (by decide))
      ⟨_, runJit_word rfl decode_jitXorr, ?_⟩
    simp [exec, State.flags, DataOp.value, State.operand, arm, intArg]
  | shl =>
    refine runJit_binary [.shlr arm.argr0 r2] h1 h2 hx (hy (by decide))
      ⟨_, runJit_word rfl decode_jitShlr, ?_⟩
    simp [exec, State.flags, DataOp.value, State.operand, arm, intArg]
  | shr =>
    refine runJit_binary [.shrr arm.argr0 r2] h1 h2 hx (hy (by decide))
      ⟨_, runJit_word rfl decode_jitShrr, ?_⟩
    simp [exec, State.flags, DataOp.value, State.operand, arm, intArg]
  | bitnot =>
    have hrun : runJit l c (arm.loadInt sp arm.argr0 x ++ [.notr arm.argr0]) s = some _ :=
      (runJit_append (runJit_loadInt h1 hx.word)).trans (runJit_word rfl decode_jitNotr)
    obtain ⟨s₂, hs₂, hv⟩ := runJit_allocInt hrun rfl
    rw [List.append_assoc] at hs₂
    refine ⟨s₂, hs₂, hv.trans ?_⟩
    simp [exec, State.flags, DataOp.value, State.operand, arm, intArg]
  | gt =>
    obtain ⟨s', hrun, hv⟩ := runJit_positive (l := l) (c := c) (s := (s.set 0 a).set 2 b)
    exact runJit_binary _ h1 h2 hx (hy (by decide)) ⟨s', hrun, by simpa [intArg] using hv⟩
  | lt =>
    obtain ⟨s', hrun, hv⟩ := runJit_positive (l := l) (c := c) (s := (s.set 2 a).set 0 b)
    exact runJit_binary _ h2 h1 hx (hy (by decide)) ⟨s', hrun, by simpa [intArg] using hv⟩
  | eq =>
    obtain ⟨s', hrun, hv⟩ := runJit_equal (l := l) (c := c) (s := (s.set 1 a).set 2 b)
    exact runJit_binary _ (by decide) h2 hx (hy (by decide)) ⟨s', hrun, by simpa [intArg] using hv⟩
  | div =>
    obtain ⟨s', hrun, hv⟩ := run_jitHelper (c := c) (s := (s.set 0 a).set 2 b)
      (show Helper.inlineDiv ≠ .allocInt by decide) (helper_defined (hb (.inl rfl)))
    refine runJit_binary [.divr arm.argr0 r2] h1 h2 hx (hy (by decide)) ⟨s', ?_, ?_⟩
    · exact runJit_single rfl hrun
    · simpa [intArg] using hv
  | mod =>
    obtain ⟨s', hrun, hv⟩ := run_jitHelper (c := c) (s := (s.set 0 a).set 2 b)
      (show Helper.inlineMod ≠ .allocInt by decide) (helper_defined (hb (.inr rfl)))
    refine runJit_binary [.modr arm.argr0 r2] h1 h2 hx (hy (by decide)) ⟨s', ?_, ?_⟩
    · exact runJit_single rfl hrun
    · simpa [intArg] using hv

end Runs

end Arm

end Interim.Backend
