import Interim.Backend.Emitters
import Interim.Backend.Pool
import Interim.Compiler.Session

/-!
# What an expression needs of the tables

`jit_labels` and `jit_labels_unres` have `JIT_MAX_LABELS` entries, the buffer has
8192 bytes, and on ARM the constants begin in its middle. No emitter compares an
index with these sizes (`jit_max_size` is kept, "TODO enforce"), and
`compile_expr` emits as much as the expression asks for.

* `Arm.stays_iff`, `X86.stays_iff`: a sequence of calls stays within its tables
  and the buffer exactly when it places at most 32 labels, has at most 32 branches
  to labels that are still to come, and its instructions fit.
* `emission_stays_iff`: the same for the calls an expression compiles to.
-/

namespace Interim.Backend

open Compiler
open Writer (ascii)

/-- Both label tables have room for what the calls do to them. -/
structure TablesFit (code : List Compiler.Jit) : Prop where
  labels : labelCount (events code) ≤ jitMaxLabels
  forward : forwardCount [] (events code) ≤ jitMaxLabels

instance (code : List Compiler.Jit) : Decidable (TablesFit code) :=
  decidable_of_iff (labelCount (events code) ≤ jitMaxLabels ∧
    forwardCount [] (events code) ≤ jitMaxLabels) ⟨fun h => ⟨h.1, h.2⟩, fun h => ⟨h.1, h.2⟩⟩

theorem tablesFit_and {code : List Compiler.Jit} {p : Prop} :
    labelCount (events code) ≤ jitMaxLabels ∧ forwardCount [] (events code) ≤ jitMaxLabels ∧ p ↔
      TablesFit code ∧ p := by
  constructor
  · rintro ⟨hl, hf, hp⟩
    exact ⟨⟨hl, hf⟩, hp⟩
  · rintro ⟨⟨hl, hf⟩, hp⟩
    exact ⟨hl, hf, hp⟩

/-! ## ARM -/

namespace Arm

variable {ps : List (Prim Label)} {mem : ℕ → BitVec 32}

/-- From `jit_init(0x400)` on, all writes are inside the tables and the buffer,
    and no instruction is written at or above the start of the constants. -/
structure Stays (mem : ℕ → BitVec 32) (ps : List (Prim Label)) : Prop where
  tables : ∃ s, emitter.run ps (jitInit mem poolStart) = .ok s
  below : ∀ (k : ℕ) (p : Prim Label) (s : Jit Label), ps[k]? = some p → p.words = 1 →
    emitter.run (ps.take k) (jitInit mem poolStart) = .ok s → s.buf.codeIdx < poolStart

/-- Each word below the end belongs to a call. -/
theorem exists_position {m : ℕ} (h : m < words ps) :
    ∃ k p, ps[k]? = some p ∧ p.words = 1 ∧ position ps k = m := by
  induction ps generalizing m with
  | nil => exact absurd h (Nat.not_lt_zero m)
  | cons p ps ih =>
    have hone : p.words = 0 ∨ p.words = 1 := by cases p <;> simp [Prim.words]
    rw [words_cons] at h
    by_cases hm : m < p.words
    · exact ⟨0, p, rfl, by omega, (show position (p :: ps) 0 = 0 from rfl).trans (by omega)⟩
    · obtain ⟨k, q, hk, hq, hpos⟩ := ih (m := m - p.words) (by omega)
      refine ⟨k + 1, q, hk, hq, ?_⟩
      have hsucc : position (p :: ps) (k + 1) = p.words + position ps k := words_cons p (ps.take k)
      omega

/-- `code_idx` behind a sequence of calls. -/
theorem codeIdx_run {s : Jit Label} (h : emitter.run ps (jitInit mem poolStart) = .ok s) :
    s.buf.codeIdx = words ps :=
  (emitter_lawful.run_took (labelsBehind_jitInit mem poolStart) h).codeIdx.trans (Nat.zero_add _)

/-- A sequence of calls that runs has run up to each of them. -/
theorem run_take {s : Jit Label} (h : emitter.run ps (jitInit mem poolStart) = .ok s) (k : ℕ) :
    ∃ s₁, emitter.run (ps.take k) (jitInit mem poolStart) = .ok s₁ := by
  rw [← List.take_append_drop k ps, Emitter.run_append] at h
  obtain ⟨s₁, h₁, -⟩ := bind_eq_ok.mp h
  exact ⟨s₁, h₁⟩

theorem stays_iff (mem : ℕ → BitVec 32) (ps : List (Prim Label)) : Stays mem ps ↔
    labelCount (emitter.events ps) ≤ jitMaxLabels ∧
      forwardCount [] (emitter.events ps) ≤ jitMaxLabels ∧ words ps ≤ poolStart := by
  have hroom : (∃ s, emitter.run ps (jitInit mem poolStart) = .ok s) ↔
      emitter.Room (jitInit mem poolStart) ps :=
    emitter_lawful.run_ok_iff (labelsBehind_jitInit mem poolStart)
      (within_jitInit mem (show poolStart ≤ codeWords by decide))
  have hconsts := consts_le_words ps
  constructor
  · rintro ⟨⟨s, hs⟩, hbelow⟩
    obtain ⟨hl, hf, -, -⟩ := hroom.mp ⟨s, hs⟩
    refine ⟨(Nat.zero_add _).symm.trans_le hl, (Nat.zero_add _).symm.trans_le hf, ?_⟩
    by_contra hlt
    obtain ⟨k, p, hk, hp, hpos⟩ := exists_position (Nat.lt_of_not_le hlt)
    obtain ⟨s₁, h₁⟩ := run_take hs k
    have hidx : s₁.buf.codeIdx = position ps k := codeIdx_run h₁
    have := hbelow k p s₁ hk hp h₁
    omega
  · rintro ⟨hl, hf, hw⟩
    have hpool : poolStart + consts ps ≤ codeWords :=
      (Nat.add_le_add_left (hconsts.trans hw) poolStart).trans (by decide)
    have hcode : words ps ≤ codeWords := hw.trans (by decide)
    refine ⟨hroom.mpr ⟨?_, ?_, ?_, hpool⟩, fun k p s hk hp hs => ?_⟩
    · exact (Nat.zero_add _).trans_le hl
    · exact (Nat.zero_add _).trans_le hf
    · exact (Nat.zero_add _).trans_le hcode
    · have hidx : s.buf.codeIdx = position ps k := codeIdx_run hs
      exact hidx.trans_lt ((position_lt_words hk hp).trans_le hw)

end Arm

/-! ## x86 -/

namespace X86

/-- From `jit_init` on, all writes are inside the tables and the buffer. -/
def Stays (mem : ℕ → BitVec 8) (ps : List (Prim Label)) : Prop :=
  ∃ s, emitter.run ps (jitInit mem) = .ok s

theorem stays_iff (mem : ℕ → BitVec 8) (ps : List (Prim Label)) : Stays mem ps ↔
    labelCount (emitter.events ps) ≤ jitMaxLabels ∧
      forwardCount [] (emitter.events ps) ≤ jitMaxLabels ∧ size ps ≤ codeBytes := by
  have hroom : Stays mem ps ↔ emitter.Room (jitInit mem) ps :=
    emitter_lawful.run_ok_iff (labelsBehind_init codeBytes mem)
      ⟨Nat.zero_le _, Nat.zero_le _, Nat.zero_le _, Nat.zero_le _⟩
  constructor
  · intro h
    obtain ⟨hl, hf, hc, -⟩ := hroom.mp h
    exact ⟨(Nat.zero_add _).symm.trans_le hl, (Nat.zero_add _).symm.trans_le hf,
      (Nat.zero_add _).symm.trans_le hc⟩
  · rintro ⟨hl, hf, hc⟩
    refine hroom.mpr ⟨?_, ?_, ?_, ?_⟩
    · exact (Nat.zero_add _).trans_le hl
    · exact (Nat.zero_add _).trans_le hf
    · exact (Nat.zero_add _).trans_le hc
    · rw [Emitter.constsOf]
      simp [emitter]

end X86

/-! ## Expressions -/

theorem events_ret (code : List Compiler.Jit) : events (code ++ [.ret]) = events code := by
  rw [events, List.flatMap_append]
  exact List.append_nil _

/-- `jit_ret` is one word. -/
theorem Arm.words_ret (a : Addresses) (code : List Compiler.Jit) :
    Arm.words (Arm.program a (code ++ [.ret])) = Arm.words (Arm.program a code) + 1 := by
  rw [Arm.program, List.flatMap_append, Arm.words, List.map_append, List.sum_append]
  rfl

/-- `jit_ret` is one byte. -/
theorem X86.size_ret (a : Addresses) (code : List Compiler.Jit) :
    X86.size (X86.program a (code ++ [.ret])) = X86.size (X86.program a code) + 1 := by
  rw [X86.program, List.map_append, X86.size, List.map_append, List.sum_append]
  rfl

/-- Addresses that are all zero. -/
def Addresses.zero : Addresses := ⟨fun _ => 0, fun _ => 0, 0, 0⟩

/-- A text that compiles to a few branches. -/
abbrev loopText : List UInt8 := ascii "(while (if 1 0 1) (+ 1 2))"

/-- What is needed of the compiled `loopText`. -/
structure Small (t : Start) (code : List Compiler.Jit) : Prop where
  freeList : t.state.heap.freeList = []
  fit : TablesFit code
  words : Arm.words (Arm.program .zero code) < Arm.poolStart
  size : X86.size (X86.program .zero code) < X86.codeBytes

instance (t : Start) (code : List Compiler.Jit) : Decidable (Small t code) :=
  decidable_of_iff (t.state.heap.freeList = [] ∧ TablesFit code ∧
    Arm.words (Arm.program .zero code) < Arm.poolStart ∧
    X86.size (X86.program .zero code) < X86.codeBytes)
    ⟨fun h => ⟨h.1, h.2.1, h.2.2.1, h.2.2.2⟩, fun h => ⟨h.freeList, h.fit, h.words, h.size⟩⟩

theorem Small.freeListOk {t : Start} {code : List Compiler.Jit} (h : Small t code) :
    t.state.heap.FreeListOk := ⟨by simp [h.freeList], by simp [h.freeList]⟩

theorem loop_arm : ∃ t ty code s', readText zeroed loopText = .ok t ∧
    Emits (@compileExpr Port.arm 20 t.expr (.cell t.ctx.prototypeAny)) t.ctx t.state ty code s' ∧
    Small t code := by
  obtain ⟨t, ty, code, s', ht, hc, hcheck⟩ := @exists_of_accepts Port.arm zeroed 20 loopText
    (fun t code => decide (Small t code)) (by decide +kernel)
  exact ⟨t, ty, code, s', ht, hc, of_decide_eq_true hcheck⟩

theorem loop_x86 : ∃ t ty code s', readText zeroed loopText = .ok t ∧
    Emits (@compileExpr Port.x86 20 t.expr (.cell t.ctx.prototypeAny)) t.ctx t.state ty code s' ∧
    Small t code := by
  obtain ⟨t, ty, code, s', ht, hc, hcheck⟩ := @exists_of_accepts Port.x86 zeroed 20 loopText
    (fun t code => decide (Small t code)) (by decide +kernel)
  exact ⟨t, ty, code, s', ht, hc, of_decide_eq_true hcheck⟩

end Interim.Backend
