import Interim.Backend.X86

/-!
# Do `gt` and `lt` decide the signed order?

Both subtract, and clear the difference when the sign flag is set
(`sledge/compiler_new.c`, lines 677–702). The result is used raw, or its low 32
bits go into a cell. This module runs the two forms on the three back ends, for
machine words of their width in any place an operand can be.

* `comparison_decides_iff` — the result is non-zero exactly when the order
  holds, raw and boxed, if and only if the difference does not overflow the
  word and, on x64, a positive difference is no multiple of `2 ^ 32`.
-/

namespace Interim.Backend

open Compiler Compiler.CompM
open Writer (cellAt)

/-- The comparison builtins. -/
inductive Cmp
  | gt
  | lt
  deriving DecidableEq, Repr

/-- The integer builtin. -/
def Cmp.op : Cmp → IntOp
  | .gt => .gt
  | .lt => .lt

/-- The difference that is computed: of the operand that has to be greater and
    the other one. -/
def Cmp.difference (k : Cmp) (a b : ℤ) : ℤ :=
  match k with
  | .gt => a - b
  | .lt => b - a

/-- The order the builtin has to decide. -/
def Cmp.Holds (k : Cmp) (a b : ℤ) : Prop :=
  match k with
  | .gt => b < a
  | .lt => a < b

theorem Cmp.holds_iff (k : Cmp) (a b : ℤ) : k.Holds a b ↔ 0 < k.difference a b := by
  cases k with
  | gt => exact Int.sub_pos.symm
  | lt => exact Int.sub_pos.symm

/-! ## The raw form -/

/-- The emitter calls of a comparison whose result stays raw. -/
def Target.rawCmp (t : Target) (sp : ℤ) (x y : Operand) : Cmp → List Jit
  | .gt => t.loadInt sp t.argr0 x ++ t.loadInt sp r2 y ++
      [.movi r3 (.int 0), .subr t.argr0 r2, .movneg t.argr0 r3, .movr r0 t.argr0]
  | .lt => t.loadInt sp r2 x ++ t.loadInt sp t.argr0 y ++
      [.movi r3 (.int 0), .subr t.argr0 r2, .movneg t.argr0 r3, .movr r0 t.argr0]

/-- A comparison in an integer context emits `rawCmp` on x64. -/
theorem rawCmp_x64 {ctx : Ctx} {s s' : CState} {x y : Operand} {w returnType origArgs origOp : Word}
    {code : List Jit} {rec : Rec} {n call : ℕ} {a : Args} {c : Cell} (k : Cmp)
    (hr : cellAt s.heap returnType = .ok c) (ha : c.tag ≠ tagAny) (hx : x.Read s.heap)
    (hy : y.Read s.heap) (h0 : a.defs 0 = x.arg) (h1 : a.defs 1 = y.arg)
    (h : Emits (compileBuiltin rec n call returnType origArgs origOp a k.op.builtin) ctx s w code
      s') : code = x64.rawCmp s.frame.sp x y k := by
  have hres : ∀ {rest}, Emits (intResult returnType) ctx s w rest s' → rest = [.movr r0 argr0] := by
    intro rest hrest
    unfold intResult tagOf at hrest
    rw [emits_ctx_bind, emits_bind] at hrest
    obtain ⟨tag, code₁, s₁, code₂, h₁, h₂, rfl⟩ := hrest
    simp only [emits_fetch_bind, hr, Except.ok.injEq, exists_eq_left', emits_pure] at h₁
    obtain ⟨rfl, rfl, rfl⟩ := h₁
    rw [if_neg ha, emits_emit_bind] at h₂
    obtain ⟨rest, h₂, rfl⟩ := h₂
    obtain ⟨-, rfl, -⟩ := emits_pure.mp h₂
    rfl
  cases k with
  | gt =>
    simp only [Cmp.op, IntOp.builtin, compileBuiltin, compileGt, h0, h1, emits_loadInt_bind hx,
      emits_loadInt_bind hy, emits_emit_bind] at h
    obtain ⟨_, ⟨_, ⟨_, h, rfl⟩, rfl⟩, rfl⟩ := h
    rw [hres h]
    simp [Target.rawCmp, x64, argr0_x64]
  | lt =>
    simp only [Cmp.op, IntOp.builtin, compileBuiltin, compileLt, h0, h1, emits_loadInt_bind hx,
      emits_loadInt_bind hy, emits_emit_bind] at h
    obtain ⟨_, ⟨_, ⟨_, h, rfl⟩, rfl⟩, rfl⟩ := h
    rw [hres h]
    simp [Target.rawCmp, x64, argr0_x64]

/-! ## Sites -/

/-- A comparison about to run on x64, its operands in place. -/
structure X64.Site where
  layout : Layout 64
  callee : Callee X64.Reg 64
  sp : ℤ
  state : X64.State
  x : Operand
  y : Operand
  a : BitVec 64
  b : BitVec 64
  hx : X64.HoldsWord layout sp state x a
  hy : X64.HoldsWord layout sp state y b

/-- A comparison about to run on ARM. -/
structure Arm.Site where
  layout : Layout 32
  callee : Callee ℕ 32
  sp : ℤ
  state : Arm.State
  x : Operand
  y : Operand
  a : BitVec 32
  b : BitVec 32
  hx : Arm.HoldsWord layout sp state x a
  hy : Arm.HoldsWord layout sp state y b

/-- A comparison about to run on x86. -/
structure X86.Site where
  layout : Layout 32
  callee : Callee X86.Reg 32
  sp : ℤ
  state : X86.State
  x : Operand
  y : Operand
  a : BitVec 32
  b : BitVec 32
  hx : X86.Holds layout sp state x a
  hy : X86.Holds layout sp state y b

/-- A comparison about to run. -/
inductive Site
  | x64 (s : X64.Site)
  | arm (s : Arm.Site)
  | x86 (s : X86.Site)

namespace Site

/-- The width of a machine word. -/
def width : Site → ℕ
  | .x64 _ => 64
  | .arm _ | .x86 _ => 32

/-- The first operand as a signed integer. -/
def a : Site → ℤ
  | .x64 s => s.a.toInt
  | .arm s => s.a.toInt
  | .x86 s => s.a.toInt

/-- The second operand as a signed integer. -/
def b : Site → ℤ
  | .x64 s => s.b.toInt
  | .arm s => s.b.toInt
  | .x86 s => s.b.toInt

/-- The integer in `R0` after the raw form. -/
def raw (k : Cmp) : Site → Option ℤ
  | .x64 s => (X64.runJit s.layout s.callee (Backend.x64.rawCmp s.sp s.x s.y k) s.state).map
      fun m => (m.regs .rax).toInt
  | .arm s => (Arm.runJit s.layout s.callee (Backend.arm.rawCmp s.sp s.x s.y k) s.state).map
      fun m => (m.regs 0).toInt
  | .x86 s => (X86.runJit s.layout s.callee (Backend.x86.rawCmp s.sp s.x s.y k) s.state).map
      fun m => (m.regs .eax).toInt

/-- The integer in the cell that `R0` points to after the boxed form. -/
def boxed (k : Cmp) : Site → Option ℤ
  | .x64 s => (X64.runJit s.layout s.callee (Backend.x64.intCode s.sp s.x s.y k.op) s.state).map
      fun m => (m.mem (m.regs .rax)).toInt
  | .arm s => (Arm.runJit s.layout s.callee (Backend.arm.intCode s.sp s.x s.y k.op) s.state).map
      fun m => (m.mem (m.regs 0)).toInt
  | .x86 s => (X86.runJit s.layout s.callee (Backend.x86.intCode s.sp s.x s.y k.op) s.state).map
      fun m => (m.mem (m.regs .eax)).toInt

/-- The code runs, and its result, raw and boxed, is non-zero exactly when the
    order holds. -/
def Decides (σ : Site) (k : Cmp) : Prop :=
  (∃ r, σ.raw k = some r ∧ (r ≠ 0 ↔ k.Holds σ.a σ.b)) ∧
    ∃ r, σ.boxed k = some r ∧ (r ≠ 0 ↔ k.Holds σ.a σ.b)

end Site

/-! ## Runs -/

/-- The signed difference modulo `2 ^ w`, or zero if that is negative. -/
def clamped (w : ℕ) (d : ℤ) : ℤ := if d.bmod (2 ^ w) < 0 then 0 else d.bmod (2 ^ w)

theorem clamped_toInt {w : ℕ} (u v : BitVec w) :
    (if (u - v).msb then 0 else u - v).toInt = clamped w (u.toInt - v.toInt) := by
  rw [apply_ite BitVec.toInt, BitVec.msb_eq_toInt, BitVec.toInt_sub, clamped]
  simp

/-- The part of a comparison before its result is moved or boxed. -/
def Target.cmpBody (t : Target) (sp : ℤ) (x y : Operand) : Cmp → List Jit
  | .gt => t.loadInt sp t.argr0 x ++ (t.loadInt sp r2 y ++
      [.movi r3 (.int 0), .subr t.argr0 r2, .movneg t.argr0 r3])
  | .lt => t.loadInt sp r2 x ++ (t.loadInt sp t.argr0 y ++
      [.movi r3 (.int 0), .subr t.argr0 r2, .movneg t.argr0 r3])

theorem Target.rawCmp_eq (t : Target) (sp : ℤ) (x y : Operand) (k : Cmp) :
    t.rawCmp sp x y k = t.cmpBody sp x y k ++ [.movr r0 t.argr0] := by
  cases k with
  | gt => simp [Target.rawCmp, Target.cmpBody]
  | lt => simp [Target.rawCmp, Target.cmpBody]

theorem Target.intCode_eq (t : Target) (sp : ℤ) (x y : Operand) (k : Cmp) :
    t.intCode sp x y k.op = t.cmpBody sp x y k ++ [.call .allocInt] := by
  cases k with
  | gt => simp [Target.intCode, Target.cmpBody, Cmp.op]
  | lt => simp [Target.intCode, Target.cmpBody, Cmp.op]

namespace X64

/-- `subq` and `cmovs`: the difference, or zero if it is negative. -/
theorem runJit_positive {l : Layout 64} {c : Callee Reg 64} {m : State} :
    ∃ m', runJit l c [.movi r3 (.int 0), .subr x64.argr0 r2, .movneg x64.argr0 r3] m = some m' ∧
      m'.regs .rdi = if (m.regs .rdi - m.regs .rsi).msb then 0 else m.regs .rdi - m.regs .rsi := by
  by_cases hn : (m.regs .rdi - m.regs .rsi).msb
  · simp [emit, Layout.imm, step, x64, regnames, State.setFlags, hn]
  · simp [emit, Layout.imm, step, x64, regnames, State.setFlags, hn]

theorem Site.run_cmpBody (s : Site) (k : Cmp) :
    ∃ m', runJit s.layout s.callee (x64.cmpBody s.sp s.x s.y k) s.state = some m' ∧
      (m'.regs .rdi).toInt = clamped 64 (k.difference s.a.toInt s.b.toInt) := by
  have h1 : x64.argr0 < lbdreg := by decide
  have h2 : r2 < lbdreg := by decide
  cases k with
  | gt =>
    obtain ⟨m', hm, hv⟩ := @runJit_positive s.layout s.callee
      ((s.state.set (regnames x64.argr0) s.a).set (regnames r2) s.b)
    refine ⟨m', ?_, ?_⟩
    · rw [Target.cmpBody, runJit_append (runJit_loadInt h1 s.hx),
        runJit_append (runJit_loadInt h2 (s.hy.set h1)), hm]
    · rw [hv]
      exact clamped_toInt s.a s.b
  | lt =>
    obtain ⟨m', hm, hv⟩ := @runJit_positive s.layout s.callee
      ((s.state.set (regnames r2) s.a).set (regnames x64.argr0) s.b)
    refine ⟨m', ?_, ?_⟩
    · rw [Target.cmpBody, runJit_append (runJit_loadInt h2 s.hx),
        runJit_append (runJit_loadInt h1 (s.hy.set h2)), hm]
    · rw [hv]
      exact clamped_toInt s.b s.a

end X64

namespace Arm

theorem Site.run_cmpBody (s : Site) (k : Cmp) :
    ∃ m', runJit s.layout s.callee (arm.cmpBody s.sp s.x s.y k) s.state = some m' ∧
      (m'.regs 0).toInt = clamped 32 (k.difference s.a.toInt s.b.toInt) := by
  have h1 : arm.argr0 < lbdreg := by decide
  have h2 : r2 < lbdreg := by decide
  cases k with
  | gt =>
    obtain ⟨m', hm, hv⟩ := @runJit_positive s.layout s.callee
      ((s.state.set arm.argr0 s.a).set r2 s.b)
    refine ⟨m', ?_, ?_⟩
    · rw [Target.cmpBody, runJit_append (runJit_loadInt h1 s.hx),
        runJit_append (runJit_loadInt h2 (s.hy.set h1)), hm]
    · rw [hv]
      exact clamped_toInt s.a s.b
  | lt =>
    obtain ⟨m', hm, hv⟩ := @runJit_positive s.layout s.callee
      ((s.state.set r2 s.a).set arm.argr0 s.b)
    refine ⟨m', ?_, ?_⟩
    · rw [Target.cmpBody, runJit_append (runJit_loadInt h2 s.hx),
        runJit_append (runJit_loadInt h1 (s.hy.set h2)), hm]
    · rw [hv]
      exact clamped_toInt s.b s.a

end Arm

namespace X86

theorem Site.run_cmpBody (s : Site) (k : Cmp) :
    ∃ m', runJit s.layout s.callee (x86.cmpBody s.sp s.x s.y k) s.state = some m' ∧
      (m'.regs .edi).toInt = clamped 32 (k.difference s.a.toInt s.b.toInt) := by
  have h1 : x86.argr0 < lbdreg := by decide
  have h2 : r2 < lbdreg := by decide
  cases k with
  | gt =>
    obtain ⟨m', hm, -, hv⟩ := @runJit_positive s.layout s.callee
      ((s.state.set (regnames x86.argr0) s.a).set (regnames r2) s.b)
    refine ⟨m', ?_, ?_⟩
    · rw [Target.cmpBody, runJit_append (runJit_loadInt h1 s.hx),
        runJit_append (runJit_loadInt h2 (s.hy.set h1)), hm]
    · rw [hv]
      exact clamped_toInt s.a s.b
  | lt =>
    obtain ⟨m', hm, -, hv⟩ := @runJit_positive s.layout s.callee
      ((s.state.set (regnames r2) s.a).set (regnames x86.argr0) s.b)
    refine ⟨m', ?_, ?_⟩
    · rw [Target.cmpBody, runJit_append (runJit_loadInt h2 s.hx),
        runJit_append (runJit_loadInt h1 (s.hy.set h2)), hm]
    · rw [hv]
      exact clamped_toInt s.b s.a

end X86

namespace Site

/-- The raw result is the difference, or zero if the sign flag is set. -/
theorem raw_eq (σ : Site) (k : Cmp) :
    σ.raw k = some (clamped σ.width (k.difference σ.a σ.b)) := by
  cases σ with
  | x64 s =>
    obtain ⟨m', hm, hv⟩ := s.run_cmpBody k
    rw [raw, Target.rawCmp_eq, X64.runJit_append hm, width, a, b, ← hv]
    simp [X64.emit, X64.jitMovr, X64.step, Backend.x64, X64.regnames]
  | arm s =>
    obtain ⟨m', hm, hv⟩ := s.run_cmpBody k
    rw [raw, Target.rawCmp_eq, Arm.runJit_append hm, width, a, b, ← hv]
    simp [Arm.emit, Arm.step, Arm.stepWord, Arm.State.holds, Backend.arm]
  | x86 s =>
    obtain ⟨m', hm, hv⟩ := s.run_cmpBody k
    have hmov : X86.runJit s.layout s.callee [.movr r0 Backend.x86.argr0] m' =
        some (m'.set .eax (m'.regs .edi)) := rfl
    rw [raw, Target.rawCmp_eq, X86.runJit_append hm, hmov, width, a, b, ← hv]
    simp

/-- `alloc_int` keeps the low 32 bits. -/
theorem boxed_eq (σ : Site) (k : Cmp) :
    σ.boxed k = some ((clamped σ.width (k.difference σ.a σ.b)).bmod (2 ^ 32)) := by
  cases σ with
  | x64 s =>
    obtain ⟨m', hm, hv⟩ := s.run_cmpBody k
    obtain ⟨m₂, hm₂, hv₂⟩ := X64.runJit_allocInt hm rfl
    rw [boxed, Target.intCode_eq, hm₂, width, a, b, ← hv, Option.map_some, hv₂, X64.toInt_sext,
      BitVec.toInt_setWidth, BitVec.toInt_eq_toNat_bmod, Int.bmod_bmod_of_dvd (by norm_num)]
  | arm s =>
    obtain ⟨m', hm, hv⟩ := s.run_cmpBody k
    obtain ⟨m₂, hm₂, hv₂⟩ := Arm.runJit_allocInt hm rfl
    rw [boxed, Target.intCode_eq, hm₂, width, a, b, ← hv, Option.map_some, hv₂,
      BitVec.toInt_bmod_cancel]
  | x86 s =>
    obtain ⟨m', hm, hv⟩ := s.run_cmpBody k
    have hcall : ∃ m₂, X86.runJit s.layout s.callee [.call .allocInt] m' = some m₂ ∧
        m₂.mem (m₂.regs .eax) = m'.regs .edi := by
      refine ⟨_, rfl, ?_⟩
      simp
    obtain ⟨m₂, hm₂, hv₂⟩ := hcall
    rw [boxed, Target.intCode_eq, X86.runJit_append hm, hm₂, width, a, b, ← hv, Option.map_some,
      hv₂, BitVec.toInt_bmod_cancel]

end Site

/-! ## The order -/

theorem Site.difference_bounds (σ : Site) (k : Cmp) :
    -2 ^ σ.width < k.difference σ.a σ.b ∧ k.difference σ.a σ.b < 2 ^ σ.width := by
  have hword : ∀ {w : ℕ} (hw : 0 < w) (u v : BitVec w),
      -2 ^ w < k.difference u.toInt v.toInt ∧ k.difference u.toInt v.toInt < 2 ^ w := by
    intro w hw u v
    have hu := BitVec.le_toInt u
    have hu' := BitVec.toInt_lt (x := u)
    have hv := BitVec.le_toInt v
    have hv' := BitVec.toInt_lt (x := v)
    have hpow : (2 : ℤ) ^ w = 2 * 2 ^ (w - 1) := by
      rw [← pow_succ', Nat.sub_add_cancel hw]
    cases k with
    | gt =>
      simp only [Cmp.difference]
      omega
    | lt =>
      simp only [Cmp.difference]
      omega
  cases σ with
  | x64 s => exact hword (by decide) s.a s.b
  | arm s => exact hword (by decide) s.a s.b
  | x86 s => exact hword (by decide) s.a s.b

theorem bmod_cases {w : ℕ} (hw : 0 < w) {d : ℤ} (hlo : -2 ^ w < d) (hhi : d < 2 ^ w) :
    (-2 ^ (w - 1) ≤ d ∧ d < 2 ^ (w - 1) ∧ d.bmod (2 ^ w) = d) ∨
      (2 ^ (w - 1) ≤ d ∧ d.bmod (2 ^ w) = d - 2 ^ w) ∨
      (d < -2 ^ (w - 1) ∧ d.bmod (2 ^ w) = d + 2 ^ w) := by
  have hpow : (2 : ℤ) ^ w = 2 * 2 ^ (w - 1) := by
    rw [← pow_succ', Nat.sub_add_cancel hw]
  have hcast : ((2 ^ w : ℕ) : ℤ) = 2 * 2 ^ (w - 1) := by
    rw [Nat.cast_pow, Nat.cast_ofNat, hpow]
  rw [hpow] at hlo hhi ⊢
  by_cases hup : 2 ^ (w - 1) ≤ d
  · refine .inr (.inl ⟨hup, ?_⟩)
    rw [← Int.sub_bmod_right, hcast]
    apply Int.bmod_eq_of_le_mul_two
    all_goals omega
  · by_cases hdown : d < -2 ^ (w - 1)
    · refine .inr (.inr ⟨hdown, ?_⟩)
      rw [← Int.add_bmod_right, hcast]
      apply Int.bmod_eq_of_le_mul_two
      all_goals omega
    · refine .inl ⟨by omega, by omega, ?_⟩
      apply Int.bmod_eq_of_le_mul_two
      all_goals omega

/-- **When a comparison is right.** The result of `gt` and `lt`, raw and boxed,
    is non-zero exactly when the order holds if and only if the difference does
    not overflow the machine word and is no positive multiple of `2 ^ 32`,
    which `alloc_int` would turn into zero. -/
theorem comparison_decides_iff (σ : Site) (k : Cmp) :
    σ.Decides k ↔
      (-2 ^ (σ.width - 1) ≤ k.difference σ.a σ.b ∧ k.difference σ.a σ.b < 2 ^ (σ.width - 1)) ∧
        (0 < k.difference σ.a σ.b → ¬ 2 ^ 32 ∣ k.difference σ.a σ.b) := by
  have hw : 0 < σ.width := by
    cases σ with
    | x64 => exact Nat.succ_pos _
    | arm => exact Nat.succ_pos _
    | x86 => exact Nat.succ_pos _
  obtain ⟨hlo, hhi⟩ := σ.difference_bounds k
  unfold Site.Decides
  simp only [σ.raw_eq, σ.boxed_eq, Option.some.injEq, exists_eq_left', k.holds_iff, clamped]
  generalize k.difference σ.a σ.b = d at *
  generalize σ.width = w at *
  have hdvd : ∀ e : ℤ, e.bmod (2 ^ 32) = 0 ↔ 2 ^ 32 ∣ e := by
    intro e
    exact Int.dvd_iff_bmod_eq_zero.symm
  rcases bmod_cases hw hlo hhi with ⟨h1, h2, h3⟩ | ⟨h1, h2⟩ | ⟨h1, h2⟩
  · rw [h3]
    by_cases hneg : d < 0
    · simp [hneg]
      omega
    · simp only [hneg, if_false, ne_eq, hdvd]
      by_cases hpos : 0 < d
      · have hne : d ≠ 0 := by omega
        simp only [hpos, hne, h1, h2, iff_true, not_false_eq_true, true_and, and_self,
          forall_const]
      · have hzero : d = 0 := by omega
        subst hzero
        simp [h1]
  · -- the difference is too large: the sign flag is set and the result is cleared
    have hpos : 0 < d := lt_of_lt_of_le (by positivity) h1
    rw [h2, if_pos (by omega)]
    refine iff_of_false ?_ ?_
    · rintro ⟨hraw, -⟩
      exact absurd hpos (by simpa using hraw)
    · rintro ⟨⟨-, hlt⟩, -⟩
      omega
  · -- it is too small: the sign flag is clear and a positive difference stays
    have hneg : ¬ 0 < d := by
      have : (0 : ℤ) < 2 ^ (w - 1) := by positivity
      omega
    rw [h2, if_neg (by omega)]
    refine iff_of_false ?_ ?_
    · rintro ⟨hraw, -⟩
      exact hneg (hraw.mp (by omega))
    · rintro ⟨⟨hle, -⟩, -⟩
      omega

/-- `(gt 4294967296 0)` on x64, both literals. -/
def wideSite : Site := .x64
  { layout := fun _ => 0
    callee := ⟨fun _ => 7, 64⟩
    sp := 0
    state := ⟨fun _ => 0, none, none, fun _ => 0⟩
    x := ⟨⟨.const, .cell 0, none, 0, none, none⟩, .int 4294967296⟩
    y := ⟨⟨.const, .cell 1, none, 0, none, none⟩, .int 0⟩
    a := 4294967296
    b := 0
    hx := rfl
    hy := rfl }

/-- The difference is positive, and its low half is zero. -/
theorem comparison_undecided_wide : ¬ wideSite.Decides .gt := by
  rintro ⟨-, r, hr, hiff⟩
  have hzero : wideSite.boxed .gt = some 0 := by decide +kernel
  have horder : Cmp.gt.Holds wideSite.a wideSite.b := by
    unfold Cmp.Holds
    decide
  rw [hzero, Option.some.injEq] at hr
  exact hiff.mpr horder hr.symm

end Interim.Backend
