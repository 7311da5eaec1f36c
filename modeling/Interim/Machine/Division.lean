import Interim.Machine.Source

/-!
# Quotient and remainder

`/` is an `idivq` on 64 bits; `%` calls `inline_mod`, whose `int32_t` comes
back with the upper half of the register zero, so that a negative remainder is
read as a number beyond 31 bits.

* `opVal_mod_int` — `%` as an operand: the remainder modulo 2³².
* `division_law` — the law of division holds exactly for the remainders that
  are not negative.
-/

namespace Interim.Machine

open Compiler
open Backend (IntOp)
open Backend.X64 (toInt_sext tdiv_bounds toInt_ne_zero)
open Writer (ascii cellAt)

/-! ## Values -/

section Values

variable {a b : BitVec 32}

theorem sext_ne_zero (hb : b ≠ 0) : b.signExtend 64 ≠ 0 := by
  intro h
  apply hb
  apply BitVec.eq_of_toInt_eq
  rw [← toInt_sext, h]
  rfl

theorem toInt_bounds (a : BitVec 32) : -2 ^ 31 ≤ a.toInt ∧ a.toInt < 2 ^ 31 :=
  ⟨BitVec.le_toInt a, BitVec.toInt_lt⟩

/-- The quotient of 32-bit numbers. -/
theorem opVal_div (hb : b ≠ 0) : opVal (a.signExtend 64) (b.signExtend 64) .div =
    some (BitVec.ofInt 64 (a.toInt.tdiv b.toInt)) := by
  dsimp only [opVal]
  rw [toInt_sext, toInt_sext, if_neg]
  rintro (h | h)
  · exact sext_ne_zero hb h
  · exact tdiv_bounds a b (Or.inr h)

/-- The remainder of 32-bit numbers, as the register has it. -/
theorem opVal_mod (hb : b ≠ 0) : opVal (a.signExtend 64) (b.signExtend 64) .mod =
    some ((BitVec.ofInt 32 (a.toInt.tmod b.toInt)).setWidth 64) := by
  have ha := toInt_bounds a
  dsimp only [opVal]
  rw [toInt_sext, toInt_sext, if_neg]
  rintro (h | h)
  · exact sext_ne_zero hb h
  · omega

theorem tmod_bounds (hb : b ≠ 0) : -2 ^ 31 < a.toInt.tmod b.toInt ∧ a.toInt.tmod b.toInt < 2 ^ 31 := by
  have hb0 : b.toInt ≠ 0 := toInt_ne_zero hb
  have hlt : (a.toInt.tmod b.toInt).natAbs < b.toInt.natAbs := by
    rw [Int.natAbs_tmod]
    exact Nat.mod_lt _ (Int.natAbs_pos.mpr hb0)
  have hbb := toInt_bounds b
  omega

/-- A register that was zero-extended from 32 bits. -/
theorem zext_eq_iff {r : ℤ} (hl : -2 ^ 31 < r) (hu : r < 2 ^ 31) :
    (BitVec.ofInt 32 r).setWidth 64 = BitVec.ofInt 64 r ↔ 0 ≤ r := by
  rw [← BitVec.toNat_inj, BitVec.toNat_setWidth, BitVec.toNat_ofInt, BitVec.toNat_ofInt]
  push_cast
  omega

/-- The remainder is not negative exactly for a non-negative dividend or a
    divisor that divides it. -/
theorem tmod_nonneg_iff : 0 ≤ a.toInt.tmod b.toInt ↔ 0 ≤ a.toInt ∨ b.toInt ∣ a.toInt := by
  constructor
  · intro h
    by_cases ha : 0 ≤ a.toInt
    · exact Or.inl ha
    · right
      have hneg : a.toInt.tmod b.toInt = -((-a.toInt).tmod b.toInt) := by
        rw [Int.neg_tmod, neg_neg]
      have hpos : 0 ≤ (-a.toInt).tmod b.toInt := Int.tmod_nonneg _ (by omega)
      exact Int.dvd_of_tmod_eq_zero (by omega)
  · rintro (h | h)
    · exact Int.tmod_nonneg _ h
    · rw [Int.tmod_eq_zero_of_dvd h]

end Values

/-! ## The law -/

/-- `(eq a (+ (* (/ a b) b) (% a b)))`. -/
def divisionLaw (x y : Expr) : Expr :=
  .bin .eq x (.bin .add (.bin .mul (.bin .div x y) y) (.bin .mod x y))

section Law

variable {a b : BitVec 32} {x y : Expr} {ρ : List UInt8 → BitVec 64}

theorem eval_mod (hx : x.eval ρ = some (a.signExtend 64)) (hy : y.eval ρ = some (b.signExtend 64))
    (hb : b ≠ 0) : (Expr.bin .mod x y).eval ρ =
      some ((BitVec.ofInt 32 (a.toInt.tmod b.toInt)).setWidth 64) := by
  simp only [Expr.eval, hx, hy, Option.bind_some]
  exact opVal_mod hb

/-- The two sides of the law differ by what the remainder was read as. -/
theorem eval_divisionLaw (hx : x.eval ρ = some (a.signExtend 64))
    (hy : y.eval ρ = some (b.signExtend 64)) (hb : b ≠ 0) :
    (divisionLaw x y).eval ρ = some (if 0 ≤ a.toInt.tmod b.toInt then 1 else 0) := by
  have hquot : (Expr.bin .div x y).eval ρ = some (BitVec.ofInt 64 (a.toInt.tdiv b.toInt)) := by
    simp only [Expr.eval, hx, hy, Option.bind_some]
    exact opVal_div hb
  have hmod := eval_mod hx hy hb
  unfold divisionLaw
  rw [Expr.eval, hx, Option.bind_some, Expr.eval, Expr.eval, hquot, Option.bind_some, hy,
    Option.bind_some, opVal, Option.bind_some, hmod, Option.bind_some, opVal, Option.bind_some,
    opVal]
  have hsum : a.signExtend 64 = BitVec.ofInt 64 (a.toInt.tdiv b.toInt) * b.signExtend 64 +
      BitVec.ofInt 64 (a.toInt.tmod b.toInt) := by
    have hsa : a.signExtend 64 = BitVec.ofInt 64 a.toInt := by
      rw [← toInt_sext, BitVec.ofInt_toInt]
    have hsb : b.signExtend 64 = BitVec.ofInt 64 b.toInt := by
      rw [← toInt_sext, BitVec.ofInt_toInt]
    rw [hsa, hsb, ← BitVec.ofInt_mul, ← BitVec.ofInt_add, Int.tdiv_mul_add_tmod]
  obtain ⟨hl, hu⟩ := tmod_bounds (a := a) hb
  have hiff : a.signExtend 64 = BitVec.ofInt 64 (a.toInt.tdiv b.toInt) * b.signExtend 64 +
      (BitVec.ofInt 32 (a.toInt.tmod b.toInt)).setWidth 64 ↔ 0 ≤ a.toInt.tmod b.toInt := by
    rw [← zext_eq_iff hl hu]
    constructor
    · intro h
      exact (BitVec.add_right_inj _).mp (h.symm.trans hsum)
    · intro h
      rw [h]
      exact hsum
  by_cases hr : 0 ≤ a.toInt.tmod b.toInt
  · rw [if_pos (hiff.mpr hr), if_pos hr]
  · rw [if_neg fun h => hr (hiff.mp h), if_neg hr]

variable {ctx : Ctx} {s : CState} {n : ℕ} {w returnType : Word} {c : Cell} {m : State}

/-- Wherever `(% x y)` stands directly in `lt`, `gt`, `eq` or `+`, on either
    side, the code computes with the value `r`. -/
def RemainderReadAs (ctx : Ctx) (s : CState) (n : ℕ) (ρ : List UInt8 → BitVec 64) (m : State)
    (x y : Expr) (r : BitVec 64) : Prop :=
  ∀ op ∈ [IntOp.lt, .gt, .eq, .add], ∀ (z : Expr) (v u : BitVec 64) (w : Word),
    Valued ctx s.frame ρ z m → z.eval ρ = some v →
    (Ready ctx s w (.bin op (.bin .mod x y) z) → (Expr.bin op (.bin .mod x y) z).depth ≤ n →
      (Gives ctx s n (.cell ctx.prototypeInt) w m u ↔ opVal r v op = some u)) ∧
    (Ready ctx s w (.bin op z (.bin .mod x y)) → (Expr.bin op z (.bin .mod x y)).depth ≤ n →
      (Gives ctx s n (.cell ctx.prototypeInt) w m u ↔ opVal v r op = some u))

/-- The operands of the remainder have values. -/
theorem remainderReadAs (hok : m.heap.FreeListOk) (hroom : 0 < m.heap.room)
    (hρ : Valued ctx s.frame ρ (.bin .mod x y) m) (hx : x.eval ρ = some (a.signExtend 64))
    (hy : y.eval ρ = some (b.signExtend 64)) (hb : b ≠ 0) :
    RemainderReadAs ctx s n ρ m x y ((BitVec.ofInt 32 (a.toInt.tmod b.toInt)).setWidth 64) := by
  intro op _ z v u w hz hv
  have hmod := eval_mod hx hy hb
  constructor
  · intro hready hn
    rw [form_gives_raw (by simp [Expr.depth]) hn hready (fun name h => h.elim (hρ name) (hz name)) hok
      hroom, Expr.eval, hmod, hv]
    rfl
  · intro hready hn
    rw [form_gives_raw (by simp [Expr.depth]) hn hready (fun name h => h.elim (hz name) (hρ name)) hok
      hroom, Expr.eval, hmod, hv]
    rfl

/-- The law of division, and the remainder as an operand: they hold exactly
    when the dividend is not negative or the divisor divides it. -/
theorem division_law (hready : Ready ctx s w (divisionLaw x y)) (hn : (divisionLaw x y).depth ≤ n)
    (hr : cellAt s.heap returnType = .ok c) (hρ : Valued ctx s.frame ρ (divisionLaw x y) m)
    (hok : m.heap.FreeListOk) (hroom : 0 < m.heap.room) (hx : x.eval ρ = some (a.signExtend 64))
    (hy : y.eval ρ = some (b.signExtend 64)) (hb : b ≠ 0) :
    (Gives ctx s n returnType w m 1 ∧
      RemainderReadAs ctx s n ρ m x y (BitVec.ofInt 64 (a.toInt.tmod b.toInt))) ↔
      0 ≤ a.toInt ∨ b.toInt ∣ a.toInt := by
  have hgives : Gives ctx s n returnType w m 1 ↔ 0 ≤ a.toInt.tmod b.toInt := by
    rw [form_gives (by simp [divisionLaw, Expr.depth]) hn hready hr hρ hok hroom,
      eval_divisionLaw hx hy hb]
    by_cases h : 0 ≤ a.toInt.tmod b.toInt
    · simp only [h, iff_true, Option.map_some, Option.some.injEq]
      split
      · decide
      · rfl
    · simp only [h, iff_false, Option.map_some, Option.some.injEq]
      split
      · decide
      · decide
  rw [← tmod_nonneg_iff]
  constructor
  · rintro ⟨h, -⟩
    exact hgives.mp h
  · intro h
    obtain ⟨hl, hu⟩ := tmod_bounds (a := a) hb
    refine ⟨hgives.mpr h, ?_⟩
    rw [← (zext_eq_iff hl hu).mpr h]
    exact remainderReadAs hok hroom (fun name hm => hρ name (Or.inr (Or.inr hm))) hx hy hb

end Law

/-- The law for two literals. -/
def literalLaw (a b : BitVec 32) : Expr :=
  divisionLaw (.lit (a.signExtend 64)) (.lit (b.signExtend 64))

theorem literalLaw_over (a b : BitVec 32) : (literalLaw a b).Over (ascii "x") := by
  simp [literalLaw, divisionLaw, Expr.Over]

/-- `7 = (7 / 3) * 3 + 7 % 3`. -/
theorem division_law_seven :
    Gives sourceCtx (sourceState (sourceCells (literalLaw 7 3))) 4 (.cell 1)
      (sourceWord (literalLaw 7 3)) (sourceMachine Heap.init 0) 1 ∧
    RemainderReadAs sourceCtx (sourceState (sourceCells (literalLaw 7 3))) 4 (fun _ => 0)
      (sourceMachine Heap.init 0) (.lit 7) (.lit 3) 1 :=
  (division_law (a := 7) (b := 3) (source_ready (literalLaw_over 7 3)) (by decide) (cellAt_cell _ 1)
    (sourceMachine_valued (literalLaw_over 7 3) rfl) Heap.init_freeListOk (by decide) rfl rfl
    (by decide)).mpr (Or.inl (by decide))

/-- `-7` and `3`: the remainder `-1` is read as `4294967295`. -/
theorem division_law_negative :
    ¬ Gives sourceCtx (sourceState (sourceCells (literalLaw (-7) 3))) 4 (.cell 1)
      (sourceWord (literalLaw (-7) 3)) (sourceMachine Heap.init 0) 1 := by
  intro h
  have hvalued := sourceMachine_valued (f := sourceCells (literalLaw (-7) 3)) (h := Heap.init) (i := 0)
    (literalLaw_over (-7) 3) rfl
  have heval := (form_gives (by decide) (by decide) (source_ready (literalLaw_over (-7) 3))
    (cellAt_cell _ 1) hvalued Heap.init_freeListOk (by decide)).mp h
  rw [literalLaw, eval_divisionLaw (a := -7) (b := 3) rfl rfl (by decide)] at heval
  exact absurd heval (by decide)

end Interim.Machine
