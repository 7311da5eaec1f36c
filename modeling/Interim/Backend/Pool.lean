import Interim.Backend.ArmCode

/-!
# The constant pool on ARM

`jit_movi` (lines 69–83 of `sledge/jit_arm_raw.c`) stores its immediate at
`cpool_idx` and a load with a 12-bit offset at `code_idx`. The offset is or-ed in
unchecked. It fits because every constant comes with a word of code, so that
`cpool_idx - 0x400` never exceeds `code_idx`.
-/

namespace Interim.Backend.Arm

variable {Name : Type} [DecidableEq Name] {ps : List (Prim Name)} {code : ℕ → BitVec 32}

/-- The `gap` that `compiler_arm_hosted.c` passes to `jit_init`. -/
abbrev poolStart : ℕ := 0x400

/-- `code_idx` never exceeds the start of the pool, and leaves two words to it
    when `jit_movi` is called. -/
structure BelowPool (ps : List (Prim Name)) : Prop where
  code : words ps ≤ poolStart
  movi : ∀ (k : ℕ) (rd : Fin 16) (imm : BitVec 32), ps[k]? = some (.movi rd imm) →
    position ps k ≤ 0x3fe

/-- After the calls, every `jit_movi` loads its own immediate from a pool word of
    its own, and each call left alone what was emitted before it, but for the
    branches a label patches. -/
structure PoolRight (code : ℕ → BitVec 32) (ps : List (Prim Name)) (s : Jit Name) : Prop where
  offset : ∀ (k : ℕ) (rd : Fin 16) (imm : BitVec 32), ps[k]? = some (.movi rd imm) →
    ∃ off : ℕ, off ≤ 4095 ∧ position ps k * 4 + 8 + off = poolPosition poolStart ps k * 4 ∧
      decode (s.buf.code (position ps k)) = some (.al, .ldr rd 15 off)
  loads : ∀ (k : ℕ) (rd : Fin 16) (imm base : BitVec 32) (m : State),
    ps[k]? = some (.movi rd imm) → m.regs 15 = base + BitVec.ofNat 32 (position ps k * 4 + 8) →
      (∀ c < codeWords, m.mem (base + BitVec.ofNat 32 (c * 4)) = s.buf.code c) →
        stepWord m (s.buf.code (position ps k)) = some (m.set rd imm)
  distinct : ∀ (k k' : ℕ) (rd rd' : Fin 16) (imm imm' : BitVec 32), ps[k]? = some (.movi rd imm) →
    ps[k']? = some (.movi rd' imm') → k ≠ k' →
      poolPosition poolStart ps k ≠ poolPosition poolStart ps k'
  pool : s.cpoolIdx < codeWords
  kept : ∀ (k c : ℕ) (p : Prim Name) (s₁ s₂ : Jit Name), ps[k]? = some p →
    emitter.run (ps.take k) (jitInit code poolStart) = .ok s₁ → emitPrim s₁ p = .ok s₂ →
      c < s₁.buf.codeIdx ∨ (poolStart ≤ c ∧ c < s₁.cpoolIdx) → s₂.buf.code c ≠ s₁.buf.code c →
        ∃ (l : Name) (m : ℕ) (b : Branch), p = .label l ∧ m < k ∧ ps[m]? = some (.branch b l) ∧
          position ps m = c

/-! ## The instruction -/

theorem moviWord_toNat (rd : Fin 16) {x : ℕ} (hx : x < 4096) (h4 : x % 4 = 0) :
    (moviWord rd (x / 4 : ℕ)).toNat = (0xe59f0 + rd) * 2 ^ 12 + x := by
  have hbase : ∀ r : Fin 16, (0xe5900000#32 ||| 15#32 <<< 16 ||| reg r <<< 12).toNat =
      (0xe59f0 + r.val) <<< 12 := by decide
  have hx4 : ((x / 4 : ℕ) : ℤ) * 4 = (x : ℤ) := by omega
  rw [moviWord, hx4, BitVec.ofInt_natCast, BitVec.toNat_or, hbase rd, BitVec.toNat_ofNat,
    Nat.mod_eq_of_lt (by omega), ← Nat.shiftLeft_add_eq_or_of_lt hx, Nat.shiftLeft_eq]

theorem decode_moviWord (rd : Fin 16) {x : ℕ} (hx : x < 4096) (h4 : x % 4 = 0) :
    decode (moviWord rd (x / 4 : ℕ)) = some (.al, .ldr rd 15 x) := by
  have hw := moviWord_toNat rd hx h4
  have hrd := rd.isLt
  generalize moviWord rd (x / 4 : ℕ) = w at hw
  have hfield : ∀ lo n, field w lo n = ((0xe59f0 + rd) * 2 ^ 12 + x) / 2 ^ lo % 2 ^ n := by
    intro lo n
    rw [field, hw, Nat.shiftRight_eq_div_pow]
  have h28 : field w 28 4 = 14 := by rw [hfield]; omega
  have h21 : field w 21 7 = 44 := by rw [hfield]; omega
  have h25 : field w 25 3 = 2 := by rw [hfield]; omega
  have h24 : field w 24 4 = 5 := by rw [hfield]; omega
  have h20 : field w 20 3 = 1 := by rw [hfield]; omega
  have h23 : field w 23 1 = 1 := by rw [hfield]; omega
  have h12 : field w 12 4 = rd := by rw [hfield]; omega
  have h16 : field w 16 4 = 15 := by rw [hfield]; omega
  have h0 : field w 0 12 = x := by rw [hfield]; omega
  have hinstr : decodeInstr w = some (.ldr rd 15 x) := by
    rw [decodeInstr, h21, if_neg (by omega), h25, if_neg (by omega), h24, h20,
      if_pos ⟨rfl, rfl⟩, h12, h16, h23, h0]
    rfl
  rw [decode, h28, hinstr]
  rfl

/-! ## Positions -/

omit [DecidableEq Name] in
/-- Every constant comes with a word of code. -/
theorem consts_le_words (ps : List (Prim Name)) : consts ps ≤ words ps :=
  List.sum_le_sum fun p _ => by cases p <;> simp [Prim.consts, Prim.words]

omit [DecidableEq Name] in
theorem poolPosition_succ {gap k : ℕ} {p : Prim Name} (hk : ps[k]? = some p) :
    poolPosition gap ps (k + 1) = poolPosition gap ps k + p.consts := by
  obtain ⟨hlt, rfl⟩ := List.getElem?_eq_some_iff.mp hk
  simp only [poolPosition, consts]
  rw [List.take_succ_eq_append_getElem hlt, List.map_append, List.sum_append]
  simp [Nat.add_assoc]

omit [DecidableEq Name] in
theorem poolPosition_mono {gap k m : ℕ} (h : k ≤ m) :
    poolPosition gap ps k ≤ poolPosition gap ps m := by
  have hsub : (ps.take k).Sublist (ps.take m) := List.take_sublist_take_left h
  exact Nat.add_le_add_left ((hsub.map _).sum_le_sum (by simp)) gap

omit [DecidableEq Name] in
/-- A later constant lies behind an earlier one. -/
theorem poolPosition_lt {gap k m : ℕ} {rd : Fin 16} {imm : BitVec 32}
    (hk : ps[k]? = some (.movi rd imm)) (h : k < m) :
    poolPosition gap ps k < poolPosition gap ps m := by
  have hs : poolPosition gap ps (k + 1) = poolPosition gap ps k + 1 := poolPosition_succ hk
  have hmono : poolPosition gap ps (k + 1) ≤ poolPosition gap ps m := poolPosition_mono h
  omega

omit [DecidableEq Name] in
theorem poolPosition_length (gap : ℕ) : poolPosition gap ps ps.length = gap + consts ps := by
  rw [poolPosition, List.take_length]

omit [DecidableEq Name] in
/-- The offset of a constant is at least 0 and less than 4096. -/
theorem offset_bounds {k : ℕ} (h : position ps k ≤ 0x3fe) :
    position ps k + 2 ≤ poolPosition poolStart ps k ∧
      poolPosition poolStart ps k ≤ position ps k + 1024 := by
  have hc := consts_le_words (ps.take k)
  unfold position at h ⊢
  unfold poolPosition
  have hp : poolStart = 1024 := rfl
  omega

omit [DecidableEq Name] in
/-- The last constant is stored when `code_idx` is at most 0x3fe. -/
theorem BelowPool.poolPosition_lt_codeWords (h : BelowPool ps) (k : ℕ) :
    poolPosition poolStart ps k < codeWords := by
  induction k with
  | zero => exact (show poolStart + 0 < codeWords by decide)
  | succ k ih =>
    cases hk : ps[k]? with
    | none =>
      have hlen := List.getElem?_eq_none_iff.mp hk
      rw [poolPosition, List.take_of_length_le (by omega)]
      rwa [poolPosition, List.take_of_length_le hlen] at ih
    | some p =>
      rw [poolPosition_succ hk]
      cases p with
      | movi rd imm =>
        have hb := (offset_bounds (h.movi k rd imm hk)).2
        have hp := h.movi k rd imm hk
        have hc : (Prim.movi rd imm : Prim Name).consts = 1 := rfl
        have hsize : codeWords = 2048 := rfl
        omega
      | _ => exact ih

omit [DecidableEq Name] in
theorem BelowPool.pool_lt (h : BelowPool ps) : poolStart + consts ps < codeWords := by
  rw [← poolPosition_length]
  exact h.poolPosition_lt_codeWords ps.length

/-! ## The calls -/

/-- The indices at call `k`. -/
theorem run_take_idx {gap k : ℕ} {s : Jit Name}
    (h : emitter.run (ps.take k) (jitInit code gap) = .ok s) :
    s.buf.codeIdx = position ps k ∧ s.cpoolIdx = poolPosition gap ps k := by
  have ht := emitter_lawful.run_took (labelsBehind_jitInit code gap) h
  exact ⟨ht.codeIdx.trans (Nat.zero_add _), ht.poolIdx⟩

/-- The load a `jit_movi` stores stays as it is. -/
theorem BelowPool.load_cell (h : BelowPool ps) {s : Jit Name}
    (hs : emitter.run ps (jitInit code poolStart) = .ok s) {k : ℕ} {rd : Fin 16} {imm : BitVec 32}
    (hk : ps[k]? = some (.movi rd imm)) :
    s.buf.code (position ps k) =
      moviWord rd ((poolPosition poolStart ps k : ℤ) - position ps k - 2) := by
  have hi : (items 0 poolStart ps)[k]? = some (.data 1
      (fun _ => moviWord rd ((poolPosition poolStart ps k : ℤ) - position ps k - 2))
      (some (poolPosition poolStart ps k, imm))) := by
    rw [items_getElem?, hk, Nat.zero_add]
    rfl
  have hcell := @Backpatch.data_cell _ _ _ encoding _ _ code _ _ _ _ _ hi Nat.zero_lt_one
  rw [pos_items, Nat.add_zero] at hcell
  rw [run_code hs]
  refine hcell fun m w f a y _ hm => ?_
  obtain ⟨rd', -, rfl⟩ := items_data hm
  have hp := position_lt_words hk rfl
  have hw := h.code
  unfold poolPosition
  omega

/-- The constant a `jit_movi` stores stays as it is. -/
theorem BelowPool.pool_cell (h : BelowPool ps) {s : Jit Name}
    (hs : emitter.run ps (jitInit code poolStart) = .ok s) {k : ℕ} {rd : Fin 16} {imm : BitVec 32}
    (hk : ps[k]? = some (.movi rd imm)) : s.buf.code (poolPosition poolStart ps k) = imm := by
  have hi : (items 0 poolStart ps)[k]? = some (.data 1
      (fun _ => moviWord rd ((poolPosition poolStart ps k : ℤ) - position ps k - 2))
      (some (poolPosition poolStart ps k, imm))) := by
    rw [items_getElem?, hk, Nat.zero_add]
    rfl
  rw [run_code hs]
  refine Backpatch.store_cell hi ?_ fun m w f a y hkm hm => ?_
  · rw [total_items]
    exact h.code.trans (Nat.le_add_right _ _)
  · obtain ⟨rd', -, rfl⟩ := items_data hm
    exact (poolPosition_lt hk hkm).ne'

/-- A call leaves what was emitted before it alone, but for the branches a label
    patches. -/
theorem BelowPool.kept (h : BelowPool ps) {k c : ℕ} {p : Prim Name} {s₁ s₂ : Jit Name}
    (hk : ps[k]? = some p) (h₁ : emitter.run (ps.take k) (jitInit code poolStart) = .ok s₁)
    (h₂ : emitPrim s₁ p = .ok s₂)
    (hc : c < s₁.buf.codeIdx ∨ (poolStart ≤ c ∧ c < s₁.cpoolIdx))
    (hne : s₂.buf.code c ≠ s₁.buf.code c) :
    ∃ (l : Name) (m : ℕ) (b : Branch), p = .label l ∧ m < k ∧ ps[m]? = some (.branch b l) ∧
      position ps m = c := by
  by_cases hl : ∃ l, p = .label l
  · obtain ⟨l, rfl⟩ := hl
    obtain ⟨m, b, hm⟩ := label_patched h₁ h₂ hne
    exact ⟨l, m, b, rfl, hm⟩
  · exfalso
    have hb : s₁.buf.LabelsBehind :=
      emitter_lawful.run_keeps (labelsBehind_jitInit code poolStart) h₁
    have hbuf := congrArg Backpatch.Buffer.code (emitPrim_emitted hb h₂).buffer
    obtain ⟨hci, hpi⟩ := run_take_idx h₁
    have hend : position ps k + p.words ≤ poolStart := by
      have hi : (items 0 0 ps)[k]? = some (p.item (0 + position ps k) (poolPosition 0 ps k)) := by
        rw [items_getElem?, hk]
        rfl
      have := Backpatch.pos_add_size_le_total (E := encoding) hi
      rw [pos_items, total_items, item_size] at this
      exact this.trans h.code
    have hpool : poolStart ≤ poolPosition poolStart ps k := Nat.le_add_right _ _
    refine hne ((congrFun hbuf c).trans (Backpatch.step_code_of_settled ?_ ?_ ?_))
    · rw [item_size]
      change c < s₁.buf.codeIdx ∨ s₁.buf.codeIdx + p.words ≤ c
      omega
    · intro w f a y hy
      cases p with
      | movi rd imm =>
        simp only [Prim.item, Backpatch.Item.data.injEq, Option.some.injEq, Prod.mk.injEq] at hy
        omega
      | _ => simp [Prim.item] at hy
    · intro n hn
      cases p with
      | label l => exact absurd ⟨l, rfl⟩ hl
      | _ => simp [Prim.item] at hn

/-- Executing the load fetches the constant. -/
theorem step_load {rd : Fin 16} {off pool p : ℕ} {w imm base : BitVec 32} {m : State}
    (hw : decode w = some (.al, .ldr rd 15 off)) (hoff : p * 4 + 8 + off = pool * 4)
    (hpc : m.regs 15 = base + BitVec.ofNat 32 (p * 4 + 8))
    (hmem : m.mem (base + BitVec.ofNat 32 (pool * 4)) = imm) :
    stepWord m w = some (m.set rd imm) := by
  have haddr : m.regs 15 + BitVec.ofInt 32 off = base + BitVec.ofNat 32 (pool * 4) := by
    rw [hpc, BitVec.ofInt_natCast, BitVec.add_assoc, ← BitVec.ofNat_add, hoff]
  rw [stepWord, hw]
  change some (m.set rd (m.mem (m.regs 15 + BitVec.ofInt 32 off))) = _
  rw [haddr, hmem]

/-- Two constants, a loop and a forward branch. -/
def armConstants : List (Prim ℕ) :=
  [.label 0, .movi 0 7, .branch .je 1, .movi 9 8, .branch .jmp 0, .label 1]

end Interim.Backend.Arm
