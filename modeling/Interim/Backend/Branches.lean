import Interim.Backend.ArmCode
import Interim.Backend.X86Code

/-!
# Branches reach their labels

* ARM: a backward branch is encoded at once, a forward one by or-ing its offset
  into the instruction when the label is placed. The offset counts from two
  words ahead, so it is -1 when the label follows its branch directly, and the
  or then sets all bits of the instruction.
* x86: the displacement is written over four zero bytes, and every branch
  reaches its label.
-/

namespace Interim.Backend

open Backpatch (Encoding)

variable {Name : Type}

/-! ## ARM -/

namespace Arm

theorem Branch.cond_lt (b : Branch) : b.cond < 16 := by cases b <;> decide

theorem Branch.op_eq (b : Branch) : b.op.toNat = (b.cond * 16 + 10) <<< 24 := by
  cases b <;> decide

/-- A branch with an offset in its low 24 bits. -/
theorem decodeBranch_offset (b : Branch) {p x : ℕ} (hx : x < 2 ^ 24) :
    decodeBranch p (b.op ||| BitVec.ofNat 32 x) =
      some (b.cond, p + 2 + (BitVec.ofNat 24 x).toInt) := by
  have hc := b.cond_lt
  have hw : (b.op ||| BitVec.ofNat 32 x).toNat = (b.cond * 16 + 10) * 2 ^ 24 + x := by
    rw [BitVec.toNat_or, b.op_eq, BitVec.toNat_ofNat, Nat.mod_eq_of_lt (by omega),
      ← Nat.shiftLeft_add_eq_or_of_lt hx, Nat.shiftLeft_eq]
  have h24 : field (b.op ||| BitVec.ofNat 32 x) 24 4 = 10 := by
    rw [field, hw, Nat.shiftRight_eq_div_pow]
    omega
  have h28 : field (b.op ||| BitVec.ofNat 32 x) 28 4 = b.cond := by
    rw [field, hw, Nat.shiftRight_eq_div_pow]
    omega
  have hlow : (b.op ||| BitVec.ofNat 32 x).extractLsb' 0 24 = BitVec.ofNat 24 x := by
    apply BitVec.eq_of_toNat_eq
    rw [BitVec.extractLsb'_toNat, hw, BitVec.toNat_ofNat, Nat.shiftRight_zero]
    omega
  rw [decodeBranch, if_pos h24, h28, hlow]

/-- The branch to a label in front of it. -/
theorem decodeBranch_back (b : Branch) {p t : ℕ} (hle : t ≤ p) (hp : p < codeWords) :
    decodeBranch p (encoding.back b p t 0) = some (b.cond, (t : ℤ)) := by
  have hsize : p < 2048 := hp
  obtain ⟨x, hx⟩ : ∃ x : ℕ, (x : ℤ) = 0x1000000 - (-((t : ℤ) - p - 2)) :=
    ⟨(0x1000000 - (-((t : ℤ) - p - 2))).toNat, by omega⟩
  have hlt : x < 2 ^ 24 := by omega
  change decodeBranch p (b.op ||| BitVec.ofInt 32 (0x1000000 - (-((t : ℤ) - p - 2)))) = _
  rw [← hx, BitVec.ofInt_natCast, decodeBranch_offset b hlt]
  congr 2
  rw [BitVec.toInt_eq_toNat_cond, BitVec.toNat_ofNat, Nat.mod_eq_of_lt hlt, if_neg (by omega)]
  omega

/-- The branch to a label behind it that does not follow directly. -/
theorem decodeBranch_patched (b : Branch) {p t : ℕ} (hlt : p + 1 < t) (ht : t ≤ codeWords) :
    decodeBranch p (encoding.patch p t 0 (encoding.hole b 0)) = some (b.cond, (t : ℤ)) := by
  have hsize : t ≤ 2048 := ht
  obtain ⟨x, hx⟩ : ∃ x : ℕ, (x : ℤ) = (t : ℤ) - p - 2 := ⟨t - p - 2, by omega⟩
  have hbound : x < 2 ^ 23 := by omega
  change decodeBranch p (b.op ||| BitVec.ofInt 32 ((t : ℤ) - p - 2)) = _
  rw [← hx, BitVec.ofInt_natCast, decodeBranch_offset b (by omega)]
  congr 2
  rw [BitVec.toInt_eq_toNat_cond, BitVec.toNat_ofNat, Nat.mod_eq_of_lt (by omega),
    if_pos (by omega)]
  omega

/-- Patching a branch directly in front of its label leaves no branch. -/
theorem decodeBranch_directly (b : Branch) (p : ℕ) :
    decodeBranch p (encoding.patch p (p + 1) 0 (encoding.hole b 0)) = none := by
  have hones : BitVec.ofInt 32 (((p + 1 : ℕ) : ℤ) - p - 2) = BitVec.allOnes 32 := by
    rw [show ((p + 1 : ℕ) : ℤ) - p - 2 = -1 by omega]
    rfl
  change decodeBranch p (b.op ||| BitVec.ofInt 32 (((p + 1 : ℕ) : ℤ) - p - 2)) = none
  rw [hones, BitVec.or_allOnes]
  exact if_neg (by decide)

section Runs

variable [DecidableEq Name] {gap : ℕ} {ps : List (Prim Name)} {code : ℕ → BitVec 32}

/-- The calls fit into the label tables and the buffer, their label names
    differ, and no constant is stored over a branch. -/
structure Admissible (gap : ℕ) (ps : List (Prim Name)) : Prop where
  labels : labelCount (emitter.events ps) ≤ jitMaxLabels
  forward : forwardCount [] (emitter.events ps) ≤ jitMaxLabels
  code : words ps ≤ codeWords
  pool : gap + consts ps ≤ codeWords
  distinct : (labelNames (emitter.events ps)).Nodup
  apart : ∀ (k m : ℕ) (b : Branch) (l : Name) (rd : Fin 16) (imm : BitVec 32),
    ps[k]? = some (.branch b l) → ps[m]? = some (.movi rd imm) → k < m →
      poolPosition gap ps m ≠ position ps k

/-- Every branch with its label among the calls decodes to its condition and the
    label's position, and placing a label changes no word but those of branches
    to it. -/
structure BranchesRight (code : ℕ → BitVec 32) (gap : ℕ) (ps : List (Prim Name))
    (s : Jit Name) : Prop where
  target : ∀ (k j : ℕ) (b : Branch) (l : Name),
    ps[k]? = some (.branch b l) → ps[j]? = some (.label l) →
      decodeBranch (position ps k) (s.buf.code (position ps k)) = some (b.cond, (position ps j : ℤ))
  patched : ∀ (k c : ℕ) (l : Name) (s₁ s₂ : Jit Name), ps[k]? = some (.label l) →
    emitter.run (ps.take k) (jitInit code gap) = .ok s₁ → emitPrim s₁ (.label l) = .ok s₂ →
      s₂.buf.code c ≠ s₁.buf.code c →
        ∃ (m : ℕ) (b : Branch), m < k ∧ ps[m]? = some (.branch b l) ∧ position ps m = c

/-- A label is placed directly behind a branch that waits for it. -/
def DirectlyBehind (ps : List (Prim Name)) : Prop :=
  ∃ (k j : ℕ) (b : Branch) (l : Name), ps[k]? = some (.branch b l) ∧ ps[j]? = some (.label l) ∧
    k < j ∧ position ps j = position ps k + 1

omit [DecidableEq Name] in
/-- No constant is stored over a branch when the code ends in front of the pool. -/
theorem apart_of_le (h : words ps ≤ gap) (k m : ℕ) (b : Branch) (l : Name) (rd : Fin 16)
    (imm : BitVec 32) (hk : ps[k]? = some (.branch b l)) (_ : ps[m]? = some (.movi rd imm))
    (_ : k < m) : poolPosition gap ps m ≠ position ps k := by
  have := position_lt_words hk rfl
  unfold poolPosition
  omega

theorem Admissible.distinct_items (h : Admissible gap ps) :
    Backpatch.Distinct (items 0 gap ps) := fun _ _ _ hj hj' =>
  emitter.label_unique h.distinct (items_label.mp hj) rfl (items_label.mp hj') rfl

theorem Admissible.clear_items (h : Admissible gap ps) : encoding.Clear (items 0 gap ps) := by
  intro k m op l w f a x hk hm hlt
  obtain ⟨rd, hmovi, rfl⟩ := items_data hm
  have hne := h.apart k m op l rd x (items_branch.mp hk) hmovi hlt
  rw [pos_items, show encoding.width = 1 from rfl]
  omega

theorem Admissible.run_ok (h : Admissible gap ps) (code : ℕ → BitVec 32) :
    ∃ s, emitter.run ps (jitInit code gap) = .ok s := by
  have hgap : gap ≤ codeWords := le_trans (Nat.le_add_right _ _) h.pool
  refine (emitter_lawful.run_ok_iff (labelsBehind_jitInit code gap)
    (within_jitInit code hgap)).mpr ⟨?_, ?_, ?_, h.pool⟩
  · exact (Nat.zero_add _).trans_le h.labels
  · exact (Nat.zero_add _).trans_le h.forward
  · exact (Nat.zero_add _).trans_le h.code

/-- The word of a branch after all calls. -/
theorem Admissible.branch_cell (h : Admissible gap ps) {s : Jit Name}
    (hs : emitter.run ps (jitInit code gap) = .ok s) {k j : ℕ} {b : Branch} {l : Name}
    (hk : ps[k]? = some (.branch b l)) (hj : ps[j]? = some (.label l)) :
    s.buf.code (position ps k) =
      encoding.resolved (j < k) b (position ps k) (position ps j) 0 := by
  have hfinal := @Backpatch.final_cell _ _ _ _ _ _ _ code _ _ _ _ h.distinct_items h.clear_items
    (items_branch.mpr hk) (items_label.mpr hj) Nat.zero_lt_one
  rw [pos_items, pos_items, Nat.add_zero] at hfinal
  rw [run_code hs, hfinal]

/-- A branch is right unless its label follows directly. -/
theorem Admissible.decode_iff (h : Admissible gap ps) {s : Jit Name}
    (hs : emitter.run ps (jitInit code gap) = .ok s) {k j : ℕ} {b : Branch} {l : Name}
    (hk : ps[k]? = some (.branch b l)) (hj : ps[j]? = some (.label l)) :
    decodeBranch (position ps k) (s.buf.code (position ps k)) = some (b.cond, (position ps j : ℤ)) ↔
      ¬ (k < j ∧ position ps j = position ps k + 1) := by
  have hp : position ps k < codeWords := (position_lt_words hk rfl).trans_le h.code
  have ht : position ps j ≤ codeWords := (position_le_words j).trans h.code
  rw [h.branch_cell hs hk hj, Encoding.resolved]
  rcases Nat.lt_or_ge j k with hjk | hkj
  · rw [if_pos hjk, decodeBranch_back b (position_mono hjk.le) hp]
    exact ⟨fun _ hd => absurd hd.1 (by omega), fun _ => rfl⟩
  · have hne : k ≠ j := by
      rintro rfl
      rw [hk] at hj
      exact absurd (Option.some.inj hj) (by simp)
    have hlt := position_branch_lt hk (lt_of_le_of_ne hkj hne)
    rw [if_neg (by omega)]
    rcases Nat.eq_or_lt_of_le hlt with heq | hlt
    · rw [← heq, decodeBranch_directly]
      exact ⟨fun hd => absurd hd (by simp), fun hd => absurd ⟨by omega, rfl⟩ hd⟩
    · rw [decodeBranch_patched b hlt ht]
      exact ⟨fun _ hd => absurd hd.2 (by omega), fun _ => rfl⟩

/-- The ARM back end resolves all branches unless a label directly follows a
    branch that waits for it. -/
theorem Admissible.branchesRight_iff (h : Admissible gap ps) {s : Jit Name}
    (hs : emitter.run ps (jitInit code gap) = .ok s) :
    BranchesRight code gap ps s ↔ ¬ DirectlyBehind ps := by
  constructor
  · rintro hr ⟨k, j, b, l, hk, hj, hkj, hpos⟩
    exact (h.decode_iff hs hk hj).mp (hr.target k j b l hk hj) ⟨hkj, hpos⟩
  · intro hno
    refine ⟨fun k j b l hk hj => ?_, fun k c l s₁ s₂ _ h₁ h₂ hne => label_patched h₁ h₂ hne⟩
    exact (h.decode_iff hs hk hj).mpr fun hd => hno ⟨k, j, b, l, hk, hj, hd⟩

end Runs

end Arm

/-! ## x86 -/

namespace X86

/-- The displacement of a backward branch is that of a patched one. -/
theorem back_eq (p t i : ℕ) : encoding.back () p t i = encoding.patch p t i 0 := by
  have himm : BitVec.ofInt 32 (0xffffffff - (-((t : ℤ) - p)) + 1 - 4) =
      BitVec.ofInt 32 ((t : ℤ) - p - 4) := by
    rw [show (0xffffffff - (-((t : ℤ) - p)) + 1 - 4 : ℤ) = (t : ℤ) - p - 4 + 0x100000000 by ring,
      BitVec.ofInt_add]
    exact BitVec.add_zero _
  change (jitImm (BitVec.ofInt 32 (0xffffffff - (-((t : ℤ) - p)) + 1 - 4))).getD i 0 = _
  rw [himm]
  rfl

theorem resolved_eq (before : Prop) [Decidable before] (p t i : ℕ) :
    encoding.resolved before () p t i = (jitImm (BitVec.ofInt 32 ((t : ℤ) - p - 4))).getD i 0 := by
  unfold Encoding.resolved
  split
  · exact back_eq p t i
  · rfl

/-- Four bytes read as a displacement. -/
theorem word32_jitImm {code : ℕ → BitVec 8} {p : ℕ} {imm : BitVec 32}
    (h : ∀ i < 4, code (p + i) = (jitImm imm).getD i 0) : word32 code p = imm := by
  have h₀ := h 0 (by omega)
  rw [Nat.add_zero] at h₀
  rw [word32, h 3 (by omega), h 2 (by omega), h 1 (by omega), h₀]
  exact append_jitImm imm

/-- A conditional jump has two bytes in front of its displacement. -/
theorem decodeBranch_long {code : ℕ → BitVec 8} {p t c : ℕ} {x : BitVec 8} (h₀ : code p = 0x0f)
    (h₁ : code (p + 1) = x) (hx : x.extractLsb' 4 4 = 8) (hc : (x.extractLsb' 0 4).toNat = c)
    (hint : (word32 code (p + 2)).toInt = (t : ℤ) - (p + 2 : ℕ) - 4) :
    decodeBranch code p = some (some c, (t : ℤ)) := by
  rw [decodeBranch, h₀, h₁, if_neg (by decide), if_pos ⟨rfl, hx⟩, hc, hint]
  refine congrArg some (Prod.ext rfl ?_)
  dsimp only
  omega

/-- The opcode of a branch and a displacement to `t`. -/
theorem decodeBranch_disp (b : Branch) {code : ℕ → BitVec 8} {p t : ℕ} (hp : p ≤ codeBytes)
    (ht : t ≤ codeBytes) (hop : ∀ i < b.opcode.length, code (p + i) = b.opcode.getD i 0)
    (hdisp : word32 code (p + b.opcode.length) =
      BitVec.ofInt 32 ((t : ℤ) - (p + b.opcode.length : ℕ) - 4)) :
    decodeBranch code p = some (b.cond, (t : ℤ)) := by
  have hsize : p ≤ 8192 ∧ t ≤ 8192 := ⟨hp, ht⟩
  have htwo : b.opcode.length ≤ 2 := by cases b <;> decide
  have hint : (word32 code (p + b.opcode.length)).toInt =
      (t : ℤ) - (p + b.opcode.length : ℕ) - 4 := by
    rw [hdisp]
    exact BitVec.toInt_ofInt_eq_self (by decide) (by omega) (by omega)
  have h₀ : code p = b.opcode.getD 0 0 := hop 0 (by cases b <;> decide)
  cases b with
  | jmp =>
    have h₀ : code p = 0xe9 := h₀
    have hint : (word32 code (p + 1)).toInt = (t : ℤ) - (p + 1 : ℕ) - 4 := hint
    rw [decodeBranch, if_pos h₀, hint]
    refine congrArg some (Prod.ext rfl ?_)
    dsimp only
    omega
  | je => exact decodeBranch_long h₀ (hop 1 (by decide)) (by decide) (by decide) hint
  | jne => exact decodeBranch_long h₀ (hop 1 (by decide)) (by decide) (by decide) hint
  | jneg => exact decodeBranch_long h₀ (hop 1 (by decide)) (by decide) (by decide) hint

section Runs

variable [DecidableEq Name] {ps : List (Prim Name)} {code : ℕ → BitVec 8}

/-- The calls fit into the label tables and the buffer, and their label names
    differ. -/
structure Admissible (ps : List (Prim Name)) : Prop where
  labels : labelCount (emitter.events ps) ≤ jitMaxLabels
  forward : forwardCount [] (emitter.events ps) ≤ jitMaxLabels
  code : size ps ≤ codeBytes
  distinct : (labelNames (emitter.events ps)).Nodup

/-- Every branch with its label among the calls decodes to its condition and the
    label's position, and placing a label changes no byte but those of the
    displacements of branches to it. -/
structure BranchesRight (code : ℕ → BitVec 8) (ps : List (Prim Name)) (s : Code Name (BitVec 8)) :
    Prop where
  target : ∀ (k j : ℕ) (b : Branch) (l : Name),
    ps[k]? = some (.branch b l) → ps[j]? = some (.label l) →
      decodeBranch s.code (position ps k) = some (b.cond, (position ps j : ℤ))
  patched : ∀ (k c : ℕ) (l : Name) (s₁ s₂ : Code Name (BitVec 8)), ps[k]? = some (.label l) →
    emitter.run (ps.take k) (jitInit code) = .ok s₁ → emitPrim s₁ (.label l) = .ok s₂ →
      s₂.code c ≠ s₁.code c → ∃ (m : ℕ) (b : Branch), m < k ∧ ps[m]? = some (.branch b l) ∧
        position ps m + b.opcode.length ≤ c ∧ c < position ps m + b.opcode.length + 4

/-- From `jit_init` on, the calls are a run on an empty buffer. -/
theorem run_jitInit {s : Code Name (BitVec 8)} (h : emitter.run ps (jitInit code) = .ok s) :
    s.buffer = encoding.run (items ps) (.empty code) :=
  run_buffer (labelsBehind_init _ _) h

theorem Admissible.distinct_items (h : Admissible ps) : Backpatch.Distinct (items ps) := by
  intro j j' l hj hj'
  obtain ⟨k, hk, rfl⟩ := items_label hj
  obtain ⟨k', hk', rfl⟩ := items_label hj'
  rw [emitter.label_unique h.distinct hk rfl hk' rfl]

omit [DecidableEq Name] in
theorem clear_items (ps : List (Prim Name)) : encoding.Clear (items ps) :=
  fun _ _ _ _ _ _ _ _ _ hm _ => absurd hm items_store

theorem Admissible.run_ok (h : Admissible ps) (code : ℕ → BitVec 8) :
    ∃ s, emitter.run ps (jitInit code) = .ok s := by
  refine (emitter_lawful.run_ok_iff (labelsBehind_init _ _)
    ⟨Nat.zero_le _, Nat.zero_le _, Nat.zero_le _, Nat.zero_le _⟩).mpr ⟨?_, ?_, ?_, ?_⟩
  · exact (Nat.zero_add _).trans_le h.labels
  · exact (Nat.zero_add _).trans_le h.forward
  · exact (Nat.zero_add _).trans_le h.code
  · rw [Emitter.constsOf]
    simp [emitter]

/-- Every branch is right. -/
theorem Admissible.decode (h : Admissible ps) {s : Code Name (BitVec 8)}
    (hs : emitter.run ps (jitInit code) = .ok s) {k j : ℕ} {b : Branch} {l : Name}
    (hk : ps[k]? = some (.branch b l)) (hj : ps[j]? = some (.label l)) :
    decodeBranch s.code (position ps k) = some (b.cond, (position ps j : ℤ)) := by
  have hcode : s.code = (encoding.run (items ps) (.empty code)).code :=
    congrArg Backpatch.Buffer.code (run_jitInit hs)
  have hop : (items ps)[itemIndex ps k]? = some (dataItem b.opcode) :=
    items_at hk 0 Nat.zero_lt_two
  have hdisp : (items ps)[itemIndex ps k + 1]? = some (.branch () l) :=
    items_at hk 1 Nat.one_lt_two
  have hlabel : (items ps)[itemIndex ps j]? = some (.label l) := items_at hj 0 Nat.zero_lt_one
  have hpos : encoding.pos (items ps) (itemIndex ps k + 1) = position ps k + b.opcode.length := by
    rw [Backpatch.pos_succ hop, pos_items hk]
    rfl
  refine decodeBranch_disp b ((position_le_size k).trans h.code) ((position_le_size j).trans h.code)
    (fun i hi => ?_) (word32_jitImm fun i hi => ?_)
  · rw [hcode, ← pos_items hk]
    exact Backpatch.data_cell hop hi fun _ _ _ _ _ _ hm =>
      absurd hm items_store
  · rw [hcode, ← hpos, Backpatch.final_cell h.distinct_items (clear_items ps) hdisp hlabel hi,
      resolved_eq, pos_items hj]

/-- Placing a label changes the displacements of waiting branches only. -/
theorem label_patched {k c : ℕ} {l : Name} {s₁ s₂ : Code Name (BitVec 8)}
    (hk : ps[k]? = some (.label l)) (h₁ : emitter.run (ps.take k) (jitInit code) = .ok s₁)
    (h₂ : emitPrim s₁ (.label l) = .ok s₂) (hne : s₂.code c ≠ s₁.code c) :
    ∃ (m : ℕ) (b : Branch), m < k ∧ ps[m]? = some (.branch b l) ∧
      position ps m + b.opcode.length ≤ c ∧ c < position ps m + b.opcode.length + 4 := by
  have hb : s₁.LabelsBehind := emitter_lawful.run_keeps (labelsBehind_init _ _) h₁
  have htake : items (ps.take k) = (items ps).take (itemIndex ps k) := by
    rw [items_split hk, itemIndex, List.take_left]
  have hbuf₁ := run_jitInit h₁
  have hbuf₂ : s₂.buffer = encoding.step s₁.buffer (.label l) := (emitted_label hb h₂).buffer
  rw [hbuf₁, htake] at hbuf₂
  rw [htake] at hbuf₁
  have hcode : ∀ s : Code Name (BitVec 8), s.code = s.buffer.code := fun _ => rfl
  rw [hcode, hcode, hbuf₁, hbuf₂] at hne
  obtain ⟨m, ⟨⟩, hm, hbr, hle, hlt⟩ := Backpatch.label_changes hne
  obtain ⟨i, b, hi, rfl⟩ := items_branch hbr
  have hop : (items ps)[itemIndex ps i]? = some (dataItem b.opcode) :=
    items_at hi 0 Nat.zero_lt_two
  have hpos : encoding.pos (items ps) (itemIndex ps i + 1) = position ps i + b.opcode.length := by
    rw [Backpatch.pos_succ hop, pos_items hi]
    rfl
  rw [hpos] at hle hlt
  refine ⟨i, b, ?_, hi, hle, hlt⟩
  by_contra hki
  have hmono : itemIndex ps k ≤ itemIndex ps i := itemIndex_mono (Nat.le_of_not_lt hki)
  omega

/-- The x86 back end resolves all branches. -/
theorem Admissible.branchesRight (h : Admissible ps) {s : Code Name (BitVec 8)}
    (hs : emitter.run ps (jitInit code) = .ok s) : BranchesRight code ps s :=
  ⟨fun _ _ _ _ hk hj => h.decode hs hk hj, fun _ _ _ _ _ hk h₁ h₂ hne => label_patched hk h₁ h₂ hne⟩

end Runs

end X86

/-! ## Both back ends -/

/-- Calls that fit are all emitted. On ARM the branches are right exactly when
    no label directly follows a branch that waits for it, on x86 always. -/
theorem branches_resolved_iff [DecidableEq Name] {gap : ℕ} {ps : List (Arm.Prim Name)}
    {qs : List (X86.Prim Name)} (code : ℕ → BitVec 32) (code' : ℕ → BitVec 8)
    (ha : Arm.Admissible gap ps) (hx : X86.Admissible qs) :
    (∃ s, Arm.emitter.run ps (Arm.jitInit code gap) = .ok s ∧
      (Arm.BranchesRight code gap ps s ↔ ¬ Arm.DirectlyBehind ps)) ∧
    ∃ s, X86.emitter.run qs (X86.jitInit code') = .ok s ∧ X86.BranchesRight code' qs s := by
  obtain ⟨s, hs⟩ := ha.run_ok code
  obtain ⟨s', hs'⟩ := hx.run_ok code'
  exact ⟨⟨s, hs, ha.branchesRight_iff hs⟩, s', hs', hx.branchesRight hs'⟩

/-- A loop and a conditional on ARM. -/
def armLoop : List (Arm.Prim ℕ) :=
  [.label 0, .branch .je 1, .movi 0 5, .branch .jmp 0, .label 1]

/-- A loop and a conditional on x86. -/
def x86Loop : List (X86.Prim ℕ) :=
  [.label 0, .branch .je 1, .bytes [0xb8, 5, 0, 0, 0], .branch .jmp 0, .label 1]

/-- A conditional on ARM with nothing between the jump over the second branch and
    its label. -/
def armEmptyElse : List (Arm.Prim ℕ) :=
  [.branch .je 0, .movi 0 1, .branch .jmp 1, .label 0, .label 1]

theorem branches_resolved_loop :
    (∃ s, Arm.emitter.run armLoop (Arm.jitInit (fun _ => 0) 0x400) = .ok s ∧
      (Arm.BranchesRight (fun _ => 0) 0x400 armLoop s ↔ ¬ Arm.DirectlyBehind armLoop)) ∧
    ∃ s, X86.emitter.run x86Loop (X86.jitInit fun _ => 0) = .ok s ∧
      X86.BranchesRight (fun _ => 0) x86Loop s :=
  branches_resolved_iff (fun _ => 0) (fun _ => 0)
    ⟨by decide, by decide, by decide, by decide, by decide, Arm.apart_of_le (by decide)⟩
    ⟨by decide, by decide, by decide, by decide⟩

/-- The jump over the empty second branch becomes a word of ones. -/
theorem armEmptyElse_not_right : Arm.Admissible 0x400 armEmptyElse ∧
    ∃ s, Arm.emitter.run armEmptyElse (Arm.jitInit (fun _ => 0) 0x400) = .ok s ∧
      s.buf.code 2 = 0xffffffff ∧ ¬ Arm.BranchesRight (fun _ => 0) 0x400 armEmptyElse s := by
  have hadm : Arm.Admissible 0x400 armEmptyElse :=
    ⟨by decide, by decide, by decide, by decide, by decide, Arm.apart_of_le (by decide)⟩
  obtain ⟨s, hs⟩ := hadm.run_ok fun _ => 0
  refine ⟨hadm, s, hs, ?_, fun hr => ?_⟩
  · exact hadm.branch_cell hs (k := 2) (j := 4) (b := .jmp) (l := 1) rfl rfl
  · exact (hadm.branchesRight_iff hs).mp hr ⟨2, 4, .jmp, 1, rfl, rfl, by decide, rfl⟩

end Interim.Backend
