import Interim.Backend.X86
import Interim.Compiler.Accesses
import Interim.Compiler.Session

/-!
# Stack slots on x86

`jit_ldr_stack` and `jit_str_stack` of `sledge/jit_x86.c` (lines 244–259) put the
low byte of the offset into the instruction, which the processor extends with
its sign. The access is to the word that was asked for when the offset fits into
a signed byte; otherwise it is to one that is a multiple of 256 bytes away.
-/

namespace Interim.Backend.X86

open Compiler
open Writer (ascii)

/-! ## Encoding -/

/-- `jit_str_stack` (lines 254–259). -/
def jitStrStack (sreg : ℕ) (offset : ℤ) : List (BitVec 8) :=
  [0x89, 0x44 ||| regi sreg <<< 3, 0x24, BitVec.ofInt 8 offset]

/-- The bytes of an access to the stack. -/
def accessBytes : Compiler.Jit → Option (List (BitVec 8))
  | .ldrStack dreg offset _ => some (jitLdrStack dreg offset)
  | .strStack sreg offset _ => some (jitStrStack sreg offset)
  | _ => none

/-- The address a `mov` between a register and memory goes to, for the form with
    a SIB byte that names `%esp` alone and a byte displacement. -/
def stackAddress (esp : BitVec 32) : List (BitVec 8) → Option (BitVec 32)
  | [op, m, sib, disp] =>
    if (op = 0x8b ∨ op = 0x89) ∧ modField m = 1 ∧ rmField m = .esp ∧ sib = 0x24 then
      some (esp + disp.signExtend 32)
    else none
  | _ => none

/-- The access is to `%esp` plus the offset the emitter was given. -/
def AddressRight (i : Compiler.Jit) : Prop :=
  ∀ offset slot bytes, i.access = some (offset, slot) → accessBytes i = some bytes →
    ∀ esp, stackAddress esp bytes = some (esp + BitVec.ofInt 32 offset)

theorem regi_lt (r : ℕ) : regi r < 8 := by
  unfold regi
  split <;> decide

/-- All registers fit into the field between `mod` and `rm`. -/
theorem modRm_stack (r : ℕ) :
    modField (0x44#8 ||| regi r <<< 3) = 1#2 ∧ rmField (0x44#8 ||| regi r <<< 3) = .esp := by
  have h : ∀ b : BitVec 8, b < 8 →
      modField (0x44#8 ||| b <<< 3) = 1#2 ∧ rmField (0x44#8 ||| b <<< 3) = .esp := by decide
  exact h _ (regi_lt r)

/-- Both emitters make the processor add the sign-extended byte to `%esp`. -/
theorem stackAddress_access {i : Compiler.Jit} {offset : ℤ} {slot : Option ℤ}
    {bytes : List (BitVec 8)} (hi : i.access = some (offset, slot))
    (hb : accessBytes i = some bytes) (esp : BitVec 32) :
    stackAddress esp bytes = some (esp + (BitVec.ofInt 8 offset).signExtend 32) := by
  cases i <;> simp only [Jit.access, reduceCtorEq, Option.some.injEq, Prod.mk.injEq] at hi
  case ldrStack d off sl =>
    obtain ⟨rfl, -⟩ := hi
    obtain rfl := Option.some.inj hb
    obtain ⟨hmod, hrm⟩ := modRm_stack d
    simp [stackAddress, jitLdrStack, hmod, hrm]
  case strStack d off sl =>
    obtain ⟨rfl, -⟩ := hi
    obtain rfl := Option.some.inj hb
    obtain ⟨hmod, hrm⟩ := modRm_stack d
    simp [stackAddress, jitStrStack, hmod, hrm]

/-- An `int` is its low byte, extended, exactly when it is a signed byte. -/
theorem signExtend_ofInt_iff (offset : ℤ) :
    (BitVec.ofInt 8 offset).signExtend 32 = BitVec.ofInt 32 offset ↔
      -128 ≤ (BitVec.ofInt 32 offset).toInt ∧ (BitVec.ofInt 32 offset).toInt < 128 := by
  rw [← BitVec.toInt_inj, BitVec.toInt_signExtend_of_le (by decide), BitVec.toInt_ofInt,
    BitVec.toInt_ofInt]
  simp only [Int.bmod_def]
  constructor
  · intro h
    split_ifs at h ⊢ <;> omega
  · intro h
    split_ifs at h ⊢ <;> omega

/-- The offset, as the `int` the emitter gets, is a signed byte. -/
def FitsByte (offset : ℤ) : Prop :=
  -128 ≤ (BitVec.ofInt 32 offset).toInt ∧ (BitVec.ofInt 32 offset).toInt < 128

instance (offset : ℤ) : Decidable (FitsByte offset) := inferInstanceAs (Decidable (_ ∧ _))

theorem addressRight_iff {i : Compiler.Jit} {offset : ℤ} {slot : Option ℤ}
    (hi : i.access = some (offset, slot)) : AddressRight i ↔ FitsByte offset := by
  obtain ⟨bytes, hb⟩ : ∃ bytes, accessBytes i = some bytes := by
    cases i <;> simp only [Jit.access, reduceCtorEq] at hi
    · exact ⟨_, rfl⟩
    · exact ⟨_, rfl⟩
  constructor
  · intro h
    have hadd := h offset slot bytes hi hb 0#32
    rw [stackAddress_access hi hb, Option.some.injEq, BitVec.zero_add, BitVec.zero_add] at hadd
    exact (signExtend_ofInt_iff offset).mp hadd
  · intro h offset' slot' bytes' hi' hb' esp
    obtain ⟨rfl, -⟩ := Prod.mk.inj (Option.some.inj (hi.symm.trans hi'))
    rw [stackAddress_access hi' hb', (signExtend_ofInt_iff offset).mpr h]

/-! ## Accesses of an expression -/

/-- All parameters are on the stack, so that every access is to a slot of the
    frame: the offset is four times its distance from `frame->sp`, or from where
    `load_cell` has pushed more. -/
theorem access_slot {n : ℕ} {expr returnType ty : Word} {c : Ctx} {s s' : CState}
    {code : List Compiler.Jit}
    (h : Emits (@compileExpr Port.x86 n expr returnType) c s ty code s') {i : Compiler.Jit}
    (hi : i ∈ code) {offset : ℤ} {slot : Option ℤ} (ha : i.access = some (offset, slot)) :
    ∃ height k, slot = some k ∧ offset = 4 * (height - k) := by
  have hshapes : @Shapes Port.x86 fun i => ∀ offset slot, i.access = some (offset, slot) →
      ∃ height k, slot = some k ∧ offset = 4 * (height - k) := by
    refine @Shapes.mk Port.x86 _ ?_ ?_ ?_ ?_
    · intro d height k offset slot hacc
      obtain ⟨rfl, rfl⟩ := Prod.mk.inj (Option.some.inj hacc)
      exact ⟨height, k, rfl, rfl⟩
    · intro height k offset slot hacc
      obtain ⟨rfl, rfl⟩ := Prod.mk.inj (Option.some.inj hacc)
      exact ⟨height, k, rfl, rfl⟩
    · exact fun j hj => absurd hj (Nat.not_lt_zero j)
    · intro i hnone offset slot hacc
      rw [hacc] at hnone
      exact absurd hnone (by simp)
  exact @Every.compileExpr _ Port.x86 hshapes n expr returnType c s ty code s' h i hi offset slot ha

end Interim.Backend.X86
