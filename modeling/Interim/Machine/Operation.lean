import Interim.Machine.Operands

/-!
# One integer builtin on the machine

The code of an integer builtin is two loads, the operation, and the end that
boxes the result or leaves it raw (`compile_expr`, lines 557–719).

* `opVal` — the raw 64-bit result; `none` where the processor or `inline_mod`
  faults.
* `run_opCode` — the loads and the operation leave `opVal` in a register, and
  change nothing an operand is read from.
-/

namespace Interim.Machine

open Compiler Compiler.CompM
open Backend (Operand x64 IntOp)

/-! ## The code -/

/-- The raw result of an integer builtin for the operands `a` and `b`
    (`bitnot` has only the first). -/
def opVal (a b : BitVec 64) : IntOp → Option (BitVec 64)
  | .add => some (a + b)
  | .sub => some (a - b)
  | .mul => some (a * b)
  | .div => if b = 0 ∨ 2 ^ 63 ≤ a.toInt.tdiv b.toInt then none
      else some (BitVec.ofInt 64 (a.toInt.tdiv b.toInt))
  | .mod => if b = 0 ∨ (a.toInt = -2 ^ 63 ∧ b.toInt = -1) then none
      else some ((BitVec.ofInt 32 (a.toInt.tmod b.toInt)).setWidth 64)
  | .bitand => some (a &&& b)
  | .bitnot => some (~~~ a)
  | .bitor => some (a ||| b)
  | .bitxor => some (a ^^^ b)
  | .shl => some (a <<< (b.toNat % 64))
  | .shr => some (a >>> (b.toNat % 64))
  | .lt => some (if (b - a).msb then 0 else b - a)
  | .gt => some (if (a - b).msb then 0 else a - b)
  | .eq => some (if a = b then 1 else 0)

/-- The registers the two operands are loaded into. -/
def opRegs : IntOp → ℕ × ℕ
  | .lt => (r2, argr0)
  | _ => (argr0, r2)

/-- What follows the loads. -/
def opTail : IntOp → List Jit
  | .add => [.addr argr0 r2]
  | .sub => [.subr argr0 r2]
  | .mul => [.mulr argr0 r2]
  | .div => [.divr argr0 r2]
  | .mod => [.modr argr0 r2]
  | .bitand => [.andr argr0 r2]
  | .bitnot => [.notr argr0]
  | .bitor => [.orr argr0 r2]
  | .bitxor => [.xorr argr0 r2]
  | .shl => [.shlr argr0 r2]
  | .shr => [.shrr argr0 r2]
  | .lt => [.movi r3 (.int 0), .subr argr0 r2, .movneg argr0 r3]
  | .gt => [.movi r3 (.int 0), .subr argr0 r2, .movneg argr0 r3]
  | .eq => [.movi r0 (.int 0), .movi r3 (.int 1), .cmpr r1 r2, .moveq r0 r3]

/-- Where the result is then. -/
def opResult : IntOp → ℕ
  | .eq => r0
  | _ => argr0

/-- The two loads and the operation. -/
def opCode (sp : ℤ) (x y : Operand) (op : IntOp) : List Jit :=
  match op with
  | .bitnot => x64.loadInt sp argr0 x ++ opTail .bitnot
  | op => x64.loadInt sp (opRegs op).1 x ++ (x64.loadInt sp (opRegs op).2 y ++ opTail op)

/-- How the result is handed on: boxed, or raw in `R0`. -/
def opEnd (boxed : Bool) : IntOp → List Jit
  | .eq => if boxed then [.movr argr0 r0, .call .allocInt] else []
  | _ => if boxed then [.call .allocInt] else [.movr r0 argr0]

section Tail

variable {m : State} {a b : BitVec 64}

/-- The part of the state an operation does not touch. -/
structure Kept (m m' : State) : Prop where
  same : SameOperands m m'
  heap : m'.heap = m.heap

theorem Kept.set {r : ℕ} {w : Word} (hr : r < lbdreg) : Kept m (m.set r w) :=
  ⟨SameOperands.set hr, rfl⟩

theorem Kept.trans {m' m'' : State} (h : Kept m m') (h' : Kept m' m'') : Kept m m'' :=
  ⟨h.same.trans h'.same, h'.heap.trans h.heap⟩

theorem Kept.flags {w : Word} : Kept m (m.flags w) := ⟨SameOperands.flags, flags_heap⟩

theorem Kept.setFlags {r : ℕ} {w : Word} (hr : r < lbdreg) : Kept m (m.setFlags r w) :=
  (Kept.set hr).trans Kept.flags

/-- Other flags. -/
theorem Kept.withFlags {sf zf : Option Bool} : Kept m { m with sf := sf, zf := zf } :=
  ⟨⟨fun _ _ => rfl, rfl, rfl, rfl⟩, rfl⟩

theorem Kept.returned {w : Word} : Kept m (returned m w) := by
  refine ⟨⟨fun j hj => ?_, rfl, rfl, rfl⟩, rfl⟩
  have hj3 : j < 3 := hj
  interval_cases j
  · rfl
  · rfl
  · rfl

theorem run_single {m' : State} {j : Jit}
    (hj : ∀ l, j ≠ .label l ∧ j ≠ .jmp l ∧ j ≠ .je l ∧ j ≠ .jne l) (h : step m j = some m') :
    run [j] m = some m' := by
  rw [run_cons hj, h]
  rfl

/-- An instruction that leaves its result in `ARGR0` with its flags. -/
theorem run_arith {j : Jit} {u : BitVec 64}
    (hj : ∀ l, j ≠ .label l ∧ j ≠ .jmp l ∧ j ≠ .je l ∧ j ≠ .jne l)
    (h : step m j = some (m.setFlags argr0 (.int u))) :
    ∃ m', run [j] m = some m' ∧ Kept m m' ∧ m'.regs argr0 = .int u := by
  refine ⟨_, run_single hj h, Kept.setFlags (by decide), ?_⟩
  simp [State.setFlags]

/-- A shift. -/
theorem run_shift {j : Jit} {f : BitVec 64 → ℕ → BitVec 64}
    (hj : ∀ l, j ≠ .label l ∧ j ≠ .jmp l ∧ j ≠ .je l ∧ j ≠ .jne l)
    (h : step m j = some (shift m argr0 r2 f)) (hf : f a 0 = a) (ha : m.regs argr0 = .int a)
    (hb : m.regs r2 = .int b) :
    ∃ m', run [j] m = some m' ∧ Kept m m' ∧ m'.regs argr0 = .int (f a (b.toNat % 64)) := by
  by_cases hz : b.toNat % 64 = 0
  · refine ⟨m, run_single hj ?_, ⟨SameOperands.refl, rfl⟩, by rw [hz, hf, ha]⟩
    rw [h, shift, ha, hb]
    dsimp only
    rw [if_pos hz]
  · apply run_arith hj
    rw [h, shift, ha, hb]
    dsimp only
    rw [if_neg hz]

/-- `gt` and `lt`: the difference, or zero if it is negative. -/
theorem run_positive (ha : m.regs argr0 = .int a) (hb : m.regs r2 = .int b) :
    ∃ m', run [.movi r3 (.int 0), .subr argr0 r2, .movneg argr0 r3] m = some m' ∧ Kept m m' ∧
      m'.regs argr0 = .int (if (a - b).msb then 0 else a - b) := by
  have ha' : (m.set r3 (.int 0)).regs argr0 = .int a := by
    rw [set_regs, if_neg (by decide)]
    exact ha
  have hb' : (m.set r3 (.int 0)).regs r2 = .int b := by
    rw [set_regs, if_neg (by decide)]
    exact hb
  have hkept : Kept m ((m.set r3 (.int 0)).setFlags argr0 (.int (a - b))) :=
    (Kept.set (by decide)).trans (Kept.setFlags (by decide))
  rw [run_cons (by simp), step, Option.bind_some, run_cons (by simp), step, ha', hb', onInts,
    Option.bind_some, run_cons (by simp), step, cmov, if_neg (by decide)]
  cases hn : (a - b).msb with
  | true =>
    refine ⟨((m.set r3 (.int 0)).setFlags argr0 (.int (a - b))).set argr0 (.int 0), ?_,
      hkept.trans (Kept.set (by decide)), by simp⟩
    simp [State.setFlags, State.flags, argr0_x64, hn]
  | false =>
    refine ⟨(m.set r3 (.int 0)).setFlags argr0 (.int (a - b)), ?_, hkept, ?_⟩
    · simp [State.setFlags, State.flags, hn]
    · simp [State.setFlags]

/-- `eq`: one if the operands are equal, else zero. -/
theorem run_equal (ha : m.regs argr0 = .int a) (hb : m.regs r2 = .int b) :
    ∃ m', run [.movi r0 (.int 0), .movi r3 (.int 1), .cmpr r1 r2, .moveq r0 r3] m = some m' ∧
      Kept m m' ∧ m'.regs r0 = .int (if a = b then 1 else 0) := by
  generalize hm : (m.set r0 (.int 0)).set r3 (.int 1) = m₁
  have ha' : m₁.regs r1 = .int a := by rw [← hm, ← ha]; rfl
  have hb' : m₁.regs r2 = .int b := by rw [← hm, ← hb]; rfl
  have hkept : Kept m (m₁.flags (.int (a - b))) := by
    rw [← hm]
    exact ((Kept.set (by decide)).trans (Kept.set (by decide))).trans Kept.flags
  rw [run_cons (by simp), step, Option.bind_some, run_cons (by simp), step, Option.bind_some, hm,
    run_cons (by simp), step, ha', hb', onInts, Option.bind_some, run_cons (by simp), step, cmov,
    if_neg (by decide)]
  have hzf : (m₁.flags (.int (a - b))).zf = some (a - b == 0) := rfl
  rw [hzf]
  by_cases hab : a = b
  · refine ⟨(m₁.flags (.int (a - b))).set r0 (.int 1), ?_, hkept.trans (Kept.set (by decide)), ?_⟩
    · have hz : (a - b == 0) = true := by simp [hab]
      have hr3 : (m₁.flags (.int (a - b))).regs r3 = .int 1 := by
        rw [flags_regs, ← hm]
        rfl
      rw [hz, hr3]
      rfl
    · rw [if_pos hab]
      simp
  · refine ⟨m₁.flags (.int (a - b)), ?_, hkept, ?_⟩
    · have hz : (a - b == 0) = false := by
        rw [beq_eq_false_iff_ne]
        intro h
        exact hab ((BitVec.sub_eq_iff_eq_add.mp h).trans (BitVec.zero_add _))
      rw [hz]
      rfl
    · rw [if_neg hab, flags_regs, ← hm]
      rfl

/-- `div`: `idivq`, which faults on a zero divisor and on overflow. -/
theorem run_quotient (ha : m.regs argr0 = .int a) (hb : m.regs r2 = .int b) :
    match opVal a b .div with
    | some u => ∃ m', run [.divr argr0 r2] m = some m' ∧ Kept m m' ∧ m'.regs argr0 = .int u
    | none => run [.divr argr0 r2] m = none := by
  have hstep : step m (.divr argr0 r2) = divr m argr0 r2 := rfl
  generalize hm : (m.set r0 (.int a)).set r3 (.int (if a.msb then BitVec.allOnes 64 else 0)) = m₁
  have hb' : m₁.regs r2 = .int b := by rw [← hm, ← hb]; rfl
  have hdiv : divr m argr0 r2 = if b = 0 ∨ 2 ^ 63 ≤ a.toInt.tdiv b.toInt then none
      else some { ((m₁.set r0 (.int (BitVec.ofInt 64 (a.toInt.tdiv b.toInt)))).set r3
        (.int (BitVec.ofInt 64 (a.toInt.tmod b.toInt)))).set argr0
          (.int (BitVec.ofInt 64 (a.toInt.tdiv b.toInt))) with sf := none, zf := none } := by
    rw [divr, ha]
    dsimp only
    rw [hm, hb']
    rfl
  unfold opVal
  by_cases hc : b = 0 ∨ 2 ^ 63 ≤ a.toInt.tdiv b.toInt
  · rw [if_pos hc]
    rw [if_pos hc] at hdiv
    rw [run_cons (by simp), hstep, hdiv]
    rfl
  · rw [if_neg hc]
    rw [if_neg hc] at hdiv
    refine ⟨_, run_single (by simp) (hstep.trans hdiv), ?_, ?_⟩
    · rw [← hm]
      exact (((((Kept.set (by decide)).trans (Kept.set (by decide))).trans
        (Kept.set (by decide))).trans (Kept.set (by decide))).trans (Kept.set (by decide))).trans
          Kept.withFlags
    · rfl

/-- `mod`: a call of `inline_mod`. -/
theorem run_remainder (ha : m.regs argr0 = .int a) (hb : m.regs r2 = .int b) :
    match opVal a b .mod with
    | some u => ∃ m', run [.modr argr0 r2] m = some m' ∧ Kept m m' ∧ m'.regs argr0 = .int u
    | none => run [.modr argr0 r2] m = none := by
  generalize hm : (m.set argr0 (.int a)).set argr1 (.int b) = m₁
  have hstep : step m (.modr argr0 r2) = (inlineMod m₁).map fun m => m.set argr0 (m.regs r0) := by
    rw [step, ha]
    have hb' : (m.set argr0 (.int a)).regs r2 = .int b := by rw [← hb]; rfl
    rw [hb', hm]
  have ha₁ : m₁.regs argr0 = .int a := by rw [← hm]; rfl
  have hb₁ : m₁.regs argr1 = .int b := by rw [← hm]; rfl
  have hmod : inlineMod m₁ = if b = 0 ∨ (a.toInt = -2 ^ 63 ∧ b.toInt = -1) then none
      else some (returned m₁ (.int ((BitVec.ofInt 32 (a.toInt.tmod b.toInt)).setWidth 64))) := by
    rw [inlineMod, ha₁, hb₁]
  unfold opVal
  by_cases hc : b = 0 ∨ (a.toInt = -2 ^ 63 ∧ b.toInt = -1)
  · rw [if_pos hc]
    rw [hmod, if_pos hc] at hstep
    rw [run_cons (by simp), hstep]
    rfl
  · rw [if_neg hc]
    rw [hmod, if_neg hc] at hstep
    refine ⟨_, run_single (by simp) hstep, ?_, ?_⟩
    · rw [← hm]
      exact (((Kept.set (by decide)).trans (Kept.set (by decide))).trans Kept.returned).trans
        (Kept.set (by decide))
    · rw [set_regs, if_pos rfl]
      rfl

/-- The operation, its operands being in their registers. -/
theorem run_opTail (op : IntOp) (ha : m.regs (opRegs op).1 = .int a)
    (hb : op ≠ .bitnot → m.regs (opRegs op).2 = .int b) :
    match opVal a b op with
    | some u => ∃ m', run (opTail op) m = some m' ∧ Kept m m' ∧ m'.regs (opResult op) = .int u
    | none => run (opTail op) m = none := by
  cases op with
  | lt => exact run_positive (hb (by decide)) ha
  | bitnot =>
    have ha' : m.regs argr0 = .int a := ha
    refine ⟨m.set argr0 (.int (~~~ a)), run_single (by simp) ?_, Kept.set (by decide), ?_⟩
    · rw [step, ha']
      rfl
    · simp [opResult]
  | add | sub | bitand | bitor | bitxor =>
    have ha' : m.regs argr0 = .int a := ha
    have hb' : m.regs r2 = .int b := hb (by decide)
    apply run_arith (by simp)
    rw [step, ha', hb']
    rfl
  | mul =>
    have ha' : m.regs argr0 = .int a := ha
    have hb' : m.regs r2 = .int b := hb (by decide)
    refine ⟨{ m.set argr0 (.int (a * b)) with sf := none, zf := none }, run_single (by simp) ?_,
      (Kept.set (by decide)).trans Kept.withFlags, ?_⟩
    · rw [step, ha', hb']
      rfl
    · change (m.set argr0 (.int (a * b))).regs argr0 = _
      rw [set_regs, if_pos rfl]
  | shl => exact run_shift (f := fun a n => a <<< n) (by simp) rfl (by simp) ha (hb (by decide))
  | shr => exact run_shift (f := fun a n => a >>> n) (by simp) rfl (by simp) ha (hb (by decide))
  | gt => exact run_positive ha (hb (by decide))
  | eq => exact run_equal ha (hb (by decide))
  | div => exact run_quotient ha (hb (by decide))
  | mod => exact run_remainder ha (hb (by decide))

end Tail

section Op

variable {m : State} {sp : ℤ} {x y : Operand} {a b : BitVec 64}

/-- Code without jumps and labels. -/
def NoJumps (code : List Jit) : Prop :=
  ∀ j ∈ code, ∀ l, j ≠ .label l ∧ j ≠ .jmp l ∧ j ≠ .je l ∧ j ≠ .jne l

theorem NoJumps.append {c c' : List Jit} (h : NoJumps c) (h' : NoJumps c') : NoJumps (c ++ c') := by
  intro j hj
  rcases List.mem_append.mp hj with hj | hj
  · exact h j hj
  · exact h' j hj

theorem noJumps_loadInt {d : ℕ} : NoJumps (x64.loadInt sp d x) := by
  unfold Backend.Target.loadInt NoJumps
  split
  all_goals
    try split
    all_goals simp

theorem noJumps_opTail (op : IntOp) : NoJumps (opTail op) := by
  unfold NoJumps
  cases op <;> simp [opTail]

theorem noJumps_opEnd (op : IntOp) (boxed : Bool) : NoJumps (opEnd boxed op) := by
  unfold NoJumps
  cases op <;> cases boxed <;> simp [opEnd]

theorem noJumps_opCode (op : IntOp) : NoJumps (opCode sp x y op) := by
  unfold opCode
  split
  · exact noJumps_loadInt.append (noJumps_opTail _)
  · exact noJumps_loadInt.append (noJumps_loadInt.append (noJumps_opTail _))

theorem opCode_of_ne {op : IntOp} (h : op ≠ .bitnot) :
    opCode sp x y op =
      x64.loadInt sp (opRegs op).1 x ++ (x64.loadInt sp (opRegs op).2 y ++ opTail op) := by
  cases op with
  | bitnot => exact absurd rfl h
  | _ => rfl

theorem opRegs_lt (op : IntOp) : (opRegs op).1 < lbdreg ∧ (opRegs op).2 < lbdreg ∧
    (opRegs op).1 ≠ (opRegs op).2 := by
  cases op <;> decide

/-- The operation after loads that left `m₁`. -/
theorem run_opTail_after {m₁ : State} {op : IntOp} {loads : List Jit}
    (hrun : run loads m = some m₁) (hkept : Kept m m₁) (ha : m₁.regs (opRegs op).1 = .int a)
    (hb : op ≠ .bitnot → m₁.regs (opRegs op).2 = .int b) :
    match opVal a b op with
    | some u => ∃ m', run (loads ++ opTail op) m = some m' ∧ Kept m m' ∧
        m'.regs (opResult op) = .int u
    | none => run (loads ++ opTail op) m = none := by
  have htail := run_opTail op ha hb
  rw [run_append hrun]
  cases hv : opVal a b op with
  | none =>
    rw [hv] at htail
    exact htail
  | some u =>
    rw [hv] at htail
    obtain ⟨m', hrun', hkept', hres⟩ := htail
    exact ⟨m', hrun', hkept.trans hkept', hres⟩

/-- The loads and the operation. -/
theorem run_opCode (op : IntOp) (ha : SuppliesInt m sp x a)
    (hb : op ≠ .bitnot → SuppliesInt m sp y b) :
    match opVal a b op with
    | some u => ∃ m', run (opCode sp x y op) m = some m' ∧ Kept m m' ∧
        m'.regs (opResult op) = .int u
    | none => run (opCode sp x y op) m = none := by
  obtain ⟨h1, h2, hne⟩ := opRegs_lt op
  by_cases hnot : op = .bitnot
  · subst hnot
    exact run_opTail_after (b := b) (run_loadInt ha) (Kept.set h1) (by simp)
      (fun h => absurd rfl h)
  · have hb' := (hb hnot).same (SameOperands.set (w := .int a) h1) rfl
    have hrun : run (x64.loadInt sp (opRegs op).1 x ++ x64.loadInt sp (opRegs op).2 y) m =
        some ((m.set (opRegs op).1 (.int a)).set (opRegs op).2 (.int b)) := by
      rw [run_append (run_loadInt ha), run_loadInt hb']
    rw [opCode_of_ne hnot, ← List.append_assoc]
    exact run_opTail_after hrun ((Kept.set h1).trans (Kept.set h2)) (by simp [hne]) fun _ => by simp

end Op

end Interim.Machine
