import Interim.Backend.Integer

/-!
# Do the back ends agree?

The x64 code of an integer builtin works on sign-extended 64-bit registers and
`alloc_int` keeps the low half; the ARM code works on 32 bits. This module
compares the integers the two leave in the result cell.

* Arithmetic, division, the bit operations and `eq` always agree.
* `shl` and `shr` differ in the count: x64 takes it modulo 64, ARM takes the
  low byte. `shr` also differs on every negative number that is shifted at
  all: x64 shifts in copies of the sign from the upper half, ARM zeros.
* `gt` and `lt` return the difference or zero, by the sign flag of the
  subtraction. They differ exactly when the difference overflows 32 bits.

`backends_agree_iff` states this for every operand in every place.
-/

namespace Interim.Backend

/-- The operands the C division operators are defined on. -/
def IntOp.Defined (op : IntOp) (a b : BitVec 32) : Prop :=
  op = .div ∨ op = .mod → b ≠ 0 ∧ ¬ (a = BitVec.intMin 32 ∧ b = -1)

instance (op : IntOp) (a b : BitVec 32) : Decidable (op.Defined a b) :=
  inferInstanceAs (Decidable (_ → _))

/-- When the two back ends compute the same integer. -/
def IntOp.Agrees (a b : BitVec 32) : IntOp → Prop
  | .shl => b.toNat % 256 < 64 ∨ 2 ^ 32 ∣ a.toNat * 2 ^ (b.toNat % 64)
  | .shr => b.toNat % 256 = 0 ∨
      (0 ≤ a.toInt ∧ (b.toNat % 256 < 64 ∨ a.toInt < 2 ^ (b.toNat % 64)))
  | .gt => -2 ^ 31 ≤ a.toInt - b.toInt ∧ a.toInt - b.toInt < 2 ^ 31
  | .lt => -2 ^ 31 ≤ b.toInt - a.toInt ∧ b.toInt - a.toInt < 2 ^ 31
  | _ => True

section Values

variable {a b : BitVec 32}

/-- A shift count survives sign extension. -/
theorem sext_count (b : BitVec 32) : (b.signExtend 64).toNat % 64 = b.toNat % 64 := by
  have h := congrArg BitVec.toNat (setWidth_sext b)
  rw [BitVec.toNat_setWidth] at h
  omega

theorem setWidth_sext_sub (a b : BitVec 32) :
    (a.signExtend 64 - b.signExtend 64).setWidth 32 = a - b := by
  rw [BitVec.sub_eq_add_neg, BitVec.setWidth_add _ _ (by decide), BitVec.setWidth_neg_of_le (by decide),
    setWidth_sext, setWidth_sext, ← BitVec.sub_eq_add_neg]

theorem msb_sext_sub (a b : BitVec 32) :
    (a.signExtend 64 - b.signExtend 64).msb = decide (a.toInt < b.toInt) := by
  have ha := BitVec.le_toInt a
  have ha' := BitVec.toInt_lt (x := a)
  have hb := BitVec.le_toInt b
  have hb' := BitVec.toInt_lt (x := b)
  rw [BitVec.msb_eq_toInt, BitVec.toInt_sub, X64.toInt_sext, X64.toInt_sext,
    Int.bmod_eq_of_le (by omega) (by omega)]
  simp

/-- A shift count of x64 is a shift count of ARM, less a multiple of 64. -/
theorem count_cases (n : ℕ) : (n % 256 < 64 ∧ n % 64 = n % 256) ∨ (64 ≤ n % 256 ∧ n % 64 < 64) := by
  omega

theorem shl_agree : X64.intArg a b .shl = Arm.intArg a b .shl ↔ IntOp.Agrees a b .shl := by
  have hx : X64.intArg a b .shl = a <<< (b.toNat % 64) := by
    simp only [X64.intArg, sext_count, BitVec.setWidth_shiftLeft_of_le (show 32 ≤ 64 by decide),
      setWidth_sext]
  rw [hx, Arm.intArg, IntOp.Agrees]
  rcases count_cases b.toNat with ⟨hlt, heq⟩ | ⟨hge, -⟩
  · rw [heq]
    exact iff_of_true rfl (.inl hlt)
  · have hzero : a <<< (b.toNat % 256) = 0#32 := BitVec.shiftLeft_eq_zero (by omega)
    rw [hzero, ← BitVec.toNat_inj, BitVec.toNat_shiftLeft, Nat.shiftLeft_eq]
    simp only [BitVec.toNat_ofNat, Nat.zero_mod]
    rw [← Nat.dvd_iff_mod_eq_zero]
    constructor
    · exact .inr
    · intro h
      exact h.resolve_left (by omega)

/-- Bit `i` of a sign-extended number, for `i` in the upper half or the sign. -/
theorem getLsbD_sext_sign {i : ℕ} (hlo : 31 ≤ i) (hhi : i < 64) :
    (a.signExtend 64).getLsbD i = a.msb := by
  rw [BitVec.getLsbD_signExtend]
  by_cases hi : i < 32
  · have h31 : i = 31 := by omega
    rw [h31, BitVec.msb_eq_getLsbD_last]
    simp
  · simp [hhi, hi]

/-- On x64 a right shift of a negative number keeps one of the low 32 bits
    that ARM clears. -/
theorem shr_negative (hneg : a.msb = true) {k j : ℕ} (hk : k < 64) (hj : 0 < j)
    (hkj : k = j ∨ 32 ≤ j) : (a.signExtend 64 >>> k).setWidth 32 ≠ a >>> j := by
  intro h
  have hbit : ∀ i, 31 ≤ k + i → k + i < 64 → i < 32 → 32 ≤ j + i → False := by
    intro i h1 h2 h3 h4
    have hi := congrArg (fun v => v.getLsbD i) h
    simp only [BitVec.getLsbD_setWidth, BitVec.getLsbD_ushiftRight, getLsbD_sext_sign h1 h2, hneg,
      BitVec.getLsbD_of_ge a (j + i) h4, h3, decide_true, Bool.and_true] at hi
    exact absurd hi (by decide)
  by_cases hk32 : k ≤ 32
  · exact hbit 31 (by omega) (by omega) (by omega) (by omega)
  · exact hbit (63 - k) (by omega) (by omega) (by omega) (by omega)

/-- A right shift of a number that is not negative is the same on both. -/
theorem shr_nonneg (hpos : a.msb = false) (k : ℕ) :
    (a.signExtend 64 >>> k).setWidth 32 = a >>> k := by
  have ha := a.isLt
  apply BitVec.eq_of_toNat_eq
  rw [BitVec.signExtend_eq_setWidth_of_msb_false hpos, BitVec.toNat_setWidth,
    BitVec.toNat_ushiftRight, BitVec.toNat_setWidth, BitVec.toNat_ushiftRight,
    Nat.mod_eq_of_lt (show a.toNat < 2 ^ 64 by omega)]
  apply Nat.mod_eq_of_lt
  rw [Nat.shiftRight_eq_div_pow]
  exact (Nat.div_le_self _ _).trans_lt ha

theorem shr_agree : X64.intArg a b .shr = Arm.intArg a b .shr ↔ IntOp.Agrees a b .shr := by
  rw [X64.intArg, Arm.intArg, IntOp.Agrees, sext_count]
  by_cases hneg : a.toInt < 0
  · have hmsb : a.msb = true := by
      rw [BitVec.msb_eq_toInt, decide_eq_true hneg]
    by_cases hzero : b.toNat % 256 = 0
    · have h64 : b.toNat % 64 = 0 := by omega
      rw [h64, hzero]
      refine iff_of_true ?_ (.inl rfl)
      simp [setWidth_sext]
    · refine iff_of_false (shr_negative hmsb (by omega) (by omega) ?_) ?_
      · rcases count_cases b.toNat with ⟨-, heq⟩ | ⟨hge, -⟩
        · exact .inl heq
        · exact .inr (by omega)
      · rintro (h | ⟨h, -⟩)
        · exact hzero h
        · omega
  · have hmsb : a.msb = false := by
      rw [BitVec.msb_eq_toInt, decide_eq_false hneg]
    rw [shr_nonneg hmsb]
    rcases count_cases b.toNat with ⟨hlt, heq⟩ | ⟨hge, -⟩
    · rw [heq]
      exact iff_of_true rfl (.inr ⟨by omega, .inl hlt⟩)
    · have hzero : a >>> (b.toNat % 256) = 0#32 := BitVec.ushiftRight_eq_zero (by omega)
      rw [hzero, ← BitVec.toNat_inj, BitVec.toNat_ushiftRight, Nat.shiftRight_eq_div_pow,
        BitVec.toNat_ofNat, Nat.zero_mod, Nat.div_eq_zero_iff_lt (Nat.two_pow_pos _),
        BitVec.toInt_eq_toNat_of_msb hmsb]
      constructor
      · intro h
        exact .inr ⟨by omega, .inr (by exact_mod_cast h)⟩
      · rintro (h | ⟨-, h | h⟩)
        · omega
        · omega
        · exact_mod_cast h

/-- The difference of two registers, or zero if it is negative, in 64 and in
    32 bits. -/
theorem positive_agree (a b : BitVec 32) :
    (if (a.signExtend 64 - b.signExtend 64).msb then 0#32
      else (a.signExtend 64 - b.signExtend 64).setWidth 32) =
        (if (a - b).msb then 0#32 else a - b) ↔
      -2 ^ 31 ≤ a.toInt - b.toInt ∧ a.toInt - b.toInt < 2 ^ 31 := by
  have ha := BitVec.le_toInt a
  have ha' := BitVec.toInt_lt (x := a)
  have hb := BitVec.le_toInt b
  have hb' := BitVec.toInt_lt (x := b)
  have hsub : (a - b).toInt = (a.toInt - b.toInt).bmod (2 ^ 32) := BitVec.toInt_sub
  have hzero : (0#32).toInt = 0 := rfl
  rw [setWidth_sext_sub, msb_sext_sub, BitVec.msb_eq_toInt, ← BitVec.toInt_inj,
    apply_ite BitVec.toInt, apply_ite BitVec.toInt, hzero]
  simp only [decide_eq_true_eq]
  -- the 32-bit difference is the exact one, up to one multiple of 2 ^ 32
  generalize (a - b).toInt = e at hsub ⊢
  rw [Int.bmod] at hsub
  split_ifs at hsub ⊢
  all_goals omega

/-- The back ends agree on a builtin exactly when `Agrees` says so. -/
theorem intArg_agree (op : IntOp) :
    X64.intArg a b op = Arm.intArg a b op ↔ op.Agrees a b := by
  cases op with
  | shl => exact shl_agree
  | shr => exact shr_agree
  | gt => exact positive_agree a b
  | lt => exact positive_agree b a
  | sub => exact iff_of_true (setWidth_sext_sub a b) trivial
  | add =>
    refine iff_of_true ?_ trivial
    rw [X64.intArg, BitVec.setWidth_add _ _ (by decide), setWidth_sext, setWidth_sext, Arm.intArg]
  | mul =>
    refine iff_of_true ?_ trivial
    rw [X64.intArg, BitVec.setWidth_mul _ _ (by decide), setWidth_sext, setWidth_sext, Arm.intArg]
  | bitand =>
    refine iff_of_true ?_ trivial
    rw [X64.intArg, BitVec.setWidth_and, setWidth_sext, setWidth_sext, Arm.intArg]
  | bitor =>
    refine iff_of_true ?_ trivial
    rw [X64.intArg, BitVec.setWidth_or, setWidth_sext, setWidth_sext, Arm.intArg]
  | bitxor =>
    refine iff_of_true ?_ trivial
    rw [X64.intArg, BitVec.setWidth_xor, setWidth_sext, setWidth_sext, Arm.intArg]
  | bitnot =>
    refine iff_of_true ?_ trivial
    rw [X64.intArg, BitVec.setWidth_not (by decide), setWidth_sext, Arm.intArg]
  | div => exact iff_of_true rfl trivial
  | mod => exact iff_of_true rfl trivial
  | eq => exact iff_of_true rfl trivial

end Values

/-! ## The result cells -/

/-- The x64 code and the ARM code of an integer builtin, each on operands that
    hold the boxed integers `a` and `b`, both make a cell; the two cells hold
    the same integer if and only if `Agrees`. -/
theorem backends_agree_iff (op : IntOp) (a b : BitVec 32) (hdef : op.Defined a b)
    (lx : Layout 64) (la : Layout 32) (cx : Callee X64.Reg 64) (ca : Callee ℕ 32)
    (m : X64.State) (s : Arm.State) (spx spa : ℤ) (x y x' y' : Operand)
    (hx : X64.Holds lx spx m x a) (hy : op ≠ .bitnot → X64.Holds lx spx m y b)
    (hx' : Arm.Holds la spa s x' a) (hy' : op ≠ .bitnot → Arm.Holds la spa s y' b) :
    ∃ m' s', X64.runJit lx cx (x64.intCode spx x y op) m = some m' ∧
      Arm.runJit la ca (arm.intCode spa x' y' op) s = some s' ∧
      ((m'.mem (m'.regs .rax)).toInt = (s'.mem (s'.regs 0)).toInt ↔ op.Agrees a b) := by
  obtain ⟨m', hm, hvx⟩ := X64.run_intCode (c := cx) op hx hy fun h => (hdef h).1
  obtain ⟨s', hs, hva⟩ := Arm.run_intCode (c := ca) op hx' hy' hdef
  refine ⟨m', s', hm, hs, ?_⟩
  rw [hvx, hva, X64.toInt_sext, BitVec.toInt_inj]
  exact intArg_agree op

/-! ## Two comparisons -/

/-- The integer constant `v` as an operand. -/
def intConst (v : BitVec 32) : Operand :=
  ⟨⟨.const, .cell 0, none, 0, none, none⟩, .int (v.signExtend 64)⟩

/-- Processors with cleared registers and memory. -/
def X64.cleared : X64.State := ⟨fun _ => 0, none, none, fun _ => 0⟩

/-- Processors with cleared registers and memory. -/
def Arm.cleared : Arm.State := ⟨fun _ => 0, none, none, fun _ => 0⟩

/-- `(gt 5 3)` on both back ends. -/
theorem backends_agree_gt_five_three :
    ∃ m' s', X64.runJit (fun _ => 0) ⟨fun _ => 7, 64⟩
        (x64.intCode 0 (intConst 5) (intConst 3) .gt) X64.cleared = some m' ∧
      Arm.runJit (fun _ => 0) ⟨fun _ => 7, 64⟩
        (arm.intCode 0 (intConst 5) (intConst 3) .gt) Arm.cleared = some s' ∧
      ((m'.mem (m'.regs .rax)).toInt = (s'.mem (s'.regs 0)).toInt ↔ IntOp.Agrees 5 3 .gt) :=
  backends_agree_iff .gt 5 3 (by decide) _ _ _ _ _ _ 0 0 _ _ _ _ rfl (fun _ => rfl) rfl
    (fun _ => rfl)

/-- `(gt 2147483647 -1)`: the 64-bit difference is positive and `alloc_int`
    keeps a negative number, the 32-bit difference is negative. -/
theorem backends_differ_gt :
    (X64.runJit (fun _ => 0) ⟨fun _ => 7, 64⟩
        (x64.intCode 0 (intConst 2147483647) (intConst (-1)) .gt) X64.cleared).map
        (fun m => (m.mem (m.regs .rax)).toInt) = some (-2147483648) ∧
      (Arm.runJit (fun _ => 0) ⟨fun _ => 7, 64⟩
        (arm.intCode 0 (intConst 2147483647) (intConst (-1)) .gt) Arm.cleared).map
        (fun s => (s.mem (s.regs 0)).toInt) = some 0 := by
  decide +kernel

end Interim.Backend
