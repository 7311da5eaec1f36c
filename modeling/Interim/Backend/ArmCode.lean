import Interim.Backend.Agreement
import Interim.Backend.Compare
import Interim.Backend.Labels

/-!
# Code on ARM

The emitters of `sledge/jit_arm_raw.c` at the level of the words they store:
instructions from the start of the buffer, constants from `cpool_idx`, branches
with their labels. An emitter call is a list of `Prim`s, one for each word
or label; `jit_call`, for instance, is two words, a `jit_movr` and a `jit_lea`.
-/

namespace Interim.Backend.Arm

open Backpatch (Encoding)

/-- There are 16 registers. -/
instance registers_neZero : NeZero 16 := ⟨by decide⟩

/-! ## Branches -/

/-- The branch emitters (lines 385–409). -/
inductive Branch
  | je | jge | jne | jneg | jmp
  deriving DecidableEq, Repr

/-- The instruction word an emitter passes to `jit_emit_branch`. -/
def Branch.op : Branch → BitVec 32
  | .je => 0x0a000000
  | .jge => 0xaa000000
  | .jne => 0x1a000000
  | .jneg => 0x4a000000
  | .jmp => 0xea000000

/-- The condition an emitter is for: EQ, GE, NE, MI, AL. -/
def Branch.cond : Branch → ℕ
  | .je => 0
  | .jge => 10
  | .jne => 1
  | .jneg => 4
  | .jmp => 14

/-- The condition and the target of the branch in word `w` at index `p`, counted
    in words; the program counter is two words ahead. -/
def decodeBranch (p : ℕ) (w : BitVec 32) : Option (ℕ × ℤ) :=
  if field w 24 4 = 10 then some (field w 28 4, p + 2 + (w.extractLsb' 0 24).toInt) else none

/-! ## State and emitters -/

/-- `code`, `code_idx` and the label tables, and `cpool_idx`. -/
structure Jit (Name : Type) where
  buf : Code Name (BitVec 32)
  cpoolIdx : ℕ

/-- What the emitters store: an instruction word, a constant with the load that
    reads it, a branch, or nothing at all for a label. -/
inductive Prim (Name : Type)
  | word (w : BitVec 32)
  | movi (rd : Fin 16) (imm : BitVec 32)
  | branch (b : Branch) (l : Name)
  | label (l : Name)

variable {Name : Type}

/-- `CODESZ` of `compiler_arm_hosted.c`, in words. -/
abbrev codeWords : ℕ := 2048

/-- `jit_init(gap)` (lines 53–67) on a new buffer. -/
def jitInit (code : ℕ → BitVec 32) (gap : ℕ) : Jit Name := ⟨.init codeWords code, gap⟩

/-- The instruction `jit_movi` stores (lines 73–76); `d` is
    `cpool_idx-code_idx-2`. -/
def moviWord (rd : Fin 16) (d : ℤ) : BitVec 32 :=
  0xe5900000#32 ||| 15#32 <<< 16 ||| reg rd <<< 12 ||| BitVec.ofInt 32 (d * 4)

/-- `*(code+cpool_idx) = imm; cpool_idx++`. -/
def storeConst (imm : BitVec 32) (s : Jit Name) : Except Overrun (Jit Name) :=
  if s.cpoolIdx < s.buf.size then
    .ok ⟨{ s.buf with code := Function.update s.buf.code s.cpoolIdx imm }, s.cpoolIdx + 1⟩
  else .error .code

/-- `code[code_idx++] = op`. -/
def putWord (op : BitVec 32) (s : Jit Name) : Except Overrun (Jit Name) := do
  let buf ← s.buf.put op
  .ok { s with buf := buf }

/-- `jit_movi(reg, imm)` (lines 69–83). -/
def jitMovi (rd : Fin 16) (imm : BitVec 32) (s : Jit Name) : Except Overrun (Jit Name) := do
  let op := moviWord rd ((s.cpoolIdx : ℤ) - s.buf.codeIdx - 2)
  let s ← storeConst imm s
  putWord op s

/-- The patch of `jit_label` (line 418). -/
def patchWord (target : ℕ) (code : ℕ → BitVec 32) (site : ℕ) : ℕ → BitVec 32 :=
  Function.update code site (code site ||| BitVec.ofInt 32 ((target : ℤ) - site - 2))

variable [DecidableEq Name]

/-- `jit_emit_branch(op, label)` (lines 365–383). -/
def jitEmitBranch (op : BitVec 32) (l : Name) (s : Jit Name) : Except Overrun (Jit Name) :=
  match s.buf.findLabel l with
  | some t =>
    let offset : ℤ := (t : ℤ) - s.buf.codeIdx - 2
    if offset < 0 then putWord (op ||| BitVec.ofInt 32 (0x1000000 - (-offset))) s else .ok s
  | none => do
    let buf ← s.buf.addUnresolved l
    putWord op { s with buf := buf }

/-- `jit_label(label)` (lines 411–426). -/
def jitLabel (l : Name) (s : Jit Name) : Except Overrun (Jit Name) := do
  let buf ← s.buf.jitLabel patchWord l
  .ok { s with buf := buf }

/-- One of the things the emitters store. -/
def emitPrim (s : Jit Name) : Prim Name → Except Overrun (Jit Name)
  | .word w => putWord w s
  | .movi rd imm => jitMovi rd imm s
  | .branch b l => jitEmitBranch b.op l s
  | .label l => jitLabel l s

/-! ## Positions -/

section Positions

variable {Name : Type}

/-- The instruction words a call stores. -/
def Prim.words : Prim Name → ℕ
  | .label _ => 0
  | _ => 1

/-- The constants a call stores. -/
def Prim.consts : Prim Name → ℕ
  | .movi _ _ => 1
  | _ => 0

/-- What a call does to the label tables. -/
def Prim.event : Prim Name → Option (Event Name)
  | .branch _ l => some (.branch l)
  | .label l => some (.label l)
  | _ => none

/-- The instruction words of a sequence of calls. -/
def words (ps : List (Prim Name)) : ℕ := (ps.map Prim.words).sum

/-- The constants of a sequence of calls. -/
def consts (ps : List (Prim Name)) : ℕ := (ps.map Prim.consts).sum

/-- `code_idx` at call `k`. -/
def position (ps : List (Prim Name)) (k : ℕ) : ℕ := words (ps.take k)

/-- `cpool_idx` at call `k`, from `gap` on. -/
def poolPosition (gap : ℕ) (ps : List (Prim Name)) (k : ℕ) : ℕ := gap + consts (ps.take k)

/-- The items of the one-pass assembler: `ci` and `pi` are `code_idx` and
    `cpool_idx`. -/
def Prim.item (ci pi : ℕ) : Prim Name → Backpatch.Item Name Branch (BitVec 32)
  | .word w => .data 1 (fun _ => w) none
  | .movi rd imm => .data 1 (fun _ => moviWord rd ((pi : ℤ) - ci - 2)) (some (pi, imm))
  | .branch b l => .branch b l
  | .label l => .label l

/-- The items of a sequence of calls. -/
def items (ci pi : ℕ) : List (Prim Name) → List (Backpatch.Item Name Branch (BitVec 32))
  | [] => []
  | p :: ps => p.item ci pi :: items (ci + p.words) (pi + p.consts) ps

/-- How ARM encodes branches. -/
def encoding : Encoding Branch (BitVec 32) where
  width := 1
  back b p t _ := b.op ||| BitVec.ofInt 32 (0x1000000 - (-((t : ℤ) - p - 2)))
  hole b _ := b.op
  patch p t _ old := old ||| BitVec.ofInt 32 ((t : ℤ) - p - 2)

theorem words_cons (p : Prim Name) (ps : List (Prim Name)) :
    words (p :: ps) = p.words + words ps := List.sum_cons ..

theorem consts_cons (p : Prim Name) (ps : List (Prim Name)) :
    consts (p :: ps) = p.consts + consts ps := List.sum_cons ..

theorem items_getElem? (ps : List (Prim Name)) (ci pi k : ℕ) :
    (items ci pi ps)[k]? =
      ps[k]?.map (Prim.item (ci + position ps k) (poolPosition pi ps k)) := by
  induction ps generalizing ci pi k with
  | nil => simp [items]
  | cons p ps ih =>
    cases k with
    | zero => simp [items, position, poolPosition, words, consts]
    | succ k =>
      rw [items, List.getElem?_cons_succ, List.getElem?_cons_succ, ih]
      simp only [position, poolPosition, List.take_succ_cons, words_cons, consts_cons,
        Nat.add_assoc]

theorem item_size (p : Prim Name) (ci pi : ℕ) : encoding.size (p.item ci pi) = p.words := by
  cases p <;> rfl

theorem total_items (ps : List (Prim Name)) (ci pi : ℕ) :
    encoding.total (items ci pi ps) = words ps := by
  induction ps generalizing ci pi with
  | nil => rfl
  | cons p ps ih =>
    rw [words_cons, ← ih (ci + p.words) (pi + p.consts)]
    simp [Encoding.total, items, item_size]

theorem items_take (ps : List (Prim Name)) (ci pi k : ℕ) :
    (items ci pi ps).take k = items ci pi (ps.take k) := by
  induction ps generalizing ci pi k with
  | nil => simp [items]
  | cons p ps ih =>
    cases k with
    | zero => rfl
    | succ k => rw [items, List.take_succ_cons, List.take_succ_cons, items, ih]

/-- A call's item begins at the call's `code_idx`. -/
theorem pos_items (ps : List (Prim Name)) (ci pi k : ℕ) :
    encoding.pos (items ci pi ps) k = position ps k := by
  rw [Encoding.pos, items_take, total_items]
  rfl

theorem items_branch {ps : List (Prim Name)} {ci pi k : ℕ} {b : Branch} {l : Name} :
    (items ci pi ps)[k]? = some (.branch b l) ↔ ps[k]? = some (.branch b l) := by
  rw [items_getElem?]
  cases h : ps[k]? with
  | none => simp
  | some p => cases p <;> simp [Prim.item]

theorem items_label {ps : List (Prim Name)} {ci pi k : ℕ} {l : Name} :
    (items ci pi ps)[k]? = some (.label l) ↔ ps[k]? = some (.label l) := by
  rw [items_getElem?]
  cases h : ps[k]? with
  | none => simp
  | some p => cases p <;> simp [Prim.item]

theorem position_le_words {ps : List (Prim Name)} (k : ℕ) : position ps k ≤ words ps :=
  (List.Sublist.map _ (List.take_sublist k ps)).sum_le_sum (by simp)

theorem position_lt_words {ps : List (Prim Name)} {k : ℕ} {p : Prim Name} (hk : ps[k]? = some p)
    (hp : p.words = 1) :
    position ps k < words ps := by
  have hi : (items 0 0 ps)[k]? = some (p.item (0 + position ps k) (poolPosition 0 ps k)) := by
    rw [items_getElem?, hk]
    rfl
  have := Backpatch.pos_add_size_le_total (E := encoding) hi
  rw [pos_items, total_items, item_size, hp] at this
  omega

theorem position_mono {ps : List (Prim Name)} {j k : ℕ} (h : j ≤ k) :
    position ps j ≤ position ps k := by
  have hpos : encoding.pos (items 0 0 ps) j ≤ encoding.pos (items 0 0 ps) k := Backpatch.pos_mono h
  rwa [pos_items, pos_items] at hpos

theorem position_branch_lt {ps : List (Prim Name)} {j k : ℕ} {b : Branch} {l : Name}
    (hk : ps[k]? = some (.branch b l)) (h : k < j) : position ps k + 1 ≤ position ps j := by
  have hi : (items 0 0 ps)[k]? = some (.branch b l) := items_branch.mpr hk
  have hpos := Backpatch.pos_add_size_le (E := encoding) hi h
  rwa [pos_items, pos_items] at hpos

end Positions

/-! ## The emitters are the one-pass assembler -/

section Refinement

variable {s s' : Jit Name} {ps : List (Prim Name)} {p : Prim Name}

omit [DecidableEq Name] in
theorem putWord_ok {op : BitVec 32} (h : putWord op s = .ok s') : s.buf.codeIdx < s.buf.size ∧
    s' = ⟨{ s.buf with
      code := Function.update s.buf.code s.buf.codeIdx op
      codeIdx := s.buf.codeIdx + 1 }, s.cpoolIdx⟩ := by
  obtain ⟨buf, hp, hs⟩ := bind_eq_ok.mp h
  obtain ⟨hlt, rfl⟩ := put_ok hp
  exact ⟨hlt, (Except.ok.inj hs).symm⟩

omit [DecidableEq Name] in
theorem putWord_error {op : BitVec 32} {e : Overrun} (h : putWord op s = .error e) :
    e = .code ∧ s.buf.size ≤ s.buf.codeIdx := by
  rcases bind_eq_error.mp h with hp | ⟨buf, -, hs⟩
  · exact put_error hp
  · exact absurd hs (by simp)

omit [DecidableEq Name] in
theorem storeConst_ok {imm : BitVec 32} (h : storeConst imm s = .ok s') :
    s.cpoolIdx < s.buf.size ∧
    s' = ⟨{ s.buf with code := Function.update s.buf.code s.cpoolIdx imm }, s.cpoolIdx + 1⟩ := by
  unfold storeConst at h
  split at h
  · rename_i hlt
    exact ⟨hlt, (Except.ok.inj h).symm⟩
  · exact absurd h (by simp)

omit [DecidableEq Name] in
theorem storeConst_error {imm : BitVec 32} {e : Overrun} (h : storeConst imm s = .error e) :
    e = .code ∧ s.buf.size ≤ s.cpoolIdx := by
  unfold storeConst at h
  split at h
  · exact absurd h (by simp)
  · rename_i hlt
    exact ⟨(Except.error.inj h).symm, Nat.le_of_not_lt hlt⟩

theorem patchWord_eq : patchWord = encoding.patchAt := by
  funext t code p
  rw [Encoding.patchAt, show encoding.width = 1 from rfl, Backpatch.fill_one]
  rfl

/-- The emitters and what they need. -/
def emitter : Emitter (Jit Name) (Prim Name) Name where
  emit := emitPrim
  event := Prim.event
  cells := Prim.words
  consts := Prim.consts
  names s := s.buf.labels.map Prod.fst
  unres s := s.buf.unres.length
  codeIdx s := s.buf.codeIdx
  poolIdx := Jit.cpoolIdx
  size s := s.buf.size

/-- What one call does. -/
structure Emitted (s : Jit Name) (p : Prim Name) (s' : Jit Name) : Prop where
  buffer : s'.buf.buffer = encoding.step s.buf.buffer (p.item s.buf.codeIdx s.cpoolIdx)
  behind : s'.buf.LabelsBehind
  took : emitter.Took s p s'

theorem emitted_word {w : BitVec 32} (hb : s.buf.LabelsBehind)
    (h : emitPrim s (.word w) = .ok s') : Emitted s (.word w) s' := by
  obtain ⟨hlt, rfl⟩ := putWord_ok h
  refine ⟨?_, fun e he => (hb e he).trans (Nat.le_succ _),
    (List.append_nil _).symm, rfl, rfl, rfl, rfl, fun hw => ?_⟩
  · change _ = encoding.step _ (.data 1 _ none)
    rw [Backpatch.step_data, Backpatch.fill_one]
    rfl
  · exact ⟨hw.labels, hw.unres, hlt, hw.pool⟩

theorem emitted_movi {rd : Fin 16} {imm : BitVec 32} (hb : s.buf.LabelsBehind)
    (h : emitPrim s (.movi rd imm) = .ok s') : Emitted s (.movi rd imm) s' := by
  obtain ⟨s₁, hs, h⟩ := bind_eq_ok.mp h
  obtain ⟨hpool, rfl⟩ := storeConst_ok hs
  obtain ⟨hlt, rfl⟩ := putWord_ok h
  refine ⟨?_, fun e he => (hb e he).trans (Nat.le_succ _),
    (List.append_nil _).symm, rfl, rfl, rfl, rfl, fun hw => ?_⟩
  · change _ = encoding.step _ (.data 1 _ (some _))
    rw [Backpatch.step_data, Backpatch.fill_one]
    rfl
  · exact ⟨hw.labels, hw.unres, hlt, hpool⟩

theorem emitted_branch {b : Branch} {l : Name} (hb : s.buf.LabelsBehind)
    (h : emitPrim s (.branch b l) = .ok s') : Emitted s (.branch b l) s' := by
  change jitEmitBranch b.op l s = .ok s' at h
  unfold jitEmitBranch at h
  cases hf : s.buf.findLabel l with
  | some t =>
    have hle := hb.findLabel hf
    have hfwd := forward_of_some hf
    rw [hf] at h
    dsimp only at h
    -- the label is not ahead, so the offset is negative
    rw [if_pos (by omega)] at h
    obtain ⟨hlt, rfl⟩ := putWord_ok h
    refine ⟨?_, fun e he => (hb e he).trans (Nat.le_succ _),
      (List.append_nil _).symm, (Nat.add_zero _).symm.trans (congrArg _ hfwd.symm),
      rfl, rfl, rfl, fun hw => ?_⟩
    · rw [findLabel_buffer] at hf
      change _ = encoding.step _ (.branch b l)
      rw [Backpatch.step_branch_some hf, show encoding.width = 1 from rfl, Backpatch.fill_one]
      rfl
    · exact ⟨hw.labels, hw.unres, hlt, hw.pool⟩
  | none =>
    have hfwd := forward_of_none hf
    rw [hf] at h
    obtain ⟨buf, ha, h⟩ := bind_eq_ok.mp h
    obtain ⟨hroom, rfl⟩ := addUnresolved_ok ha
    have hbuf := addUnresolved_buffer ha
    obtain ⟨hlt, rfl⟩ := putWord_ok h
    refine ⟨?_, fun e he => (hb e he).trans (Nat.le_succ _),
      (List.append_nil _).symm, List.length_append.trans (congrArg _ hfwd.symm),
      rfl, rfl, rfl, fun hw => ?_⟩
    · rw [findLabel_buffer] at hf
      change _ = encoding.step _ (.branch b l)
      rw [Backpatch.step_branch_none hf, show encoding.width = 1 from rfl, Backpatch.fill_one]
      exact congrArg (fun c : Backpatch.Buffer Name (BitVec 32) =>
        { c with code := Function.update c.code c.idx b.op, idx := c.idx + 1 }) hbuf
    · exact ⟨hw.labels, le_of_eq_of_le List.length_append hroom, hlt, hw.pool⟩

theorem emitted_label {l : Name} (hb : s.buf.LabelsBehind)
    (h : emitPrim s (.label l) = .ok s') : Emitted s (.label l) s' := by
  obtain ⟨buf, hj, h⟩ := bind_eq_ok.mp h
  obtain rfl := Except.ok.inj h
  obtain ⟨hroom, hlabels, hunres⟩ := jitLabel_ok hj
  rw [patchWord_eq] at hj
  obtain ⟨hbuf, hsize⟩ := jitLabel_buffer hj
  have hidx : buf.codeIdx = s.buf.codeIdx := congrArg Backpatch.Buffer.idx hbuf
  have hnames : buf.labels.map Prod.fst = s.buf.labels.map Prod.fst ++ [l] := by
    rw [hlabels, List.map_append]
    rfl
  refine ⟨hbuf, fun e he => ?_, hnames, hunres, hidx, rfl, hsize, fun hw => ⟨?_, ?_, ?_, ?_⟩⟩
  · change e.2 ≤ buf.codeIdx
    change e ∈ buf.labels at he
    rw [hidx]
    rw [hlabels] at he
    rcases List.mem_append.mp he with he | he
    · exact hb e he
    · obtain rfl := List.mem_singleton.mp he
      exact le_refl _
  · change (buf.labels.map Prod.fst).length ≤ _
    rw [hlabels, List.length_map]
    exact le_of_eq_of_le List.length_append hroom
  · exact hunres.trans_le hw.unres
  · exact (hidx.trans_le hw.code).trans_eq hsize.symm
  · exact hw.pool.trans_eq hsize.symm

theorem emitPrim_emitted (hb : s.buf.LabelsBehind) (h : emitPrim s p = .ok s') :
    Emitted s p s' := by
  cases p with
  | word w => exact emitted_word hb h
  | movi rd imm => exact emitted_movi hb h
  | branch b l => exact emitted_branch hb h
  | label l => exact emitted_label hb h

/-- A call fails when the table or the buffer it writes to is full. -/
theorem emitPrim_error {e : Overrun} (hb : s.buf.LabelsBehind) (h : emitPrim s p = .error e) :
    emitter.Full s e (Event.names p.event).length
      (Event.forward (s.buf.labels.map Prod.fst) p.event) p.words p.consts := by
  have hcode : s.buf.size ≤ s.buf.codeIdx → emitter.size s < emitter.codeIdx s + 1 :=
    Nat.lt_succ_of_le
  cases p with
  | word w =>
    obtain ⟨rfl, hle⟩ := putWord_error h
    exact Or.inr (Or.inr ⟨rfl, Or.inl (hcode hle)⟩)
  | movi rd imm =>
    refine Or.inr (Or.inr ?_)
    rcases bind_eq_error.mp h with hs | ⟨s₁, hs, h⟩
    · obtain ⟨rfl, hle⟩ := storeConst_error hs
      exact ⟨rfl, Or.inr (Nat.lt_succ_of_le hle)⟩
    · obtain ⟨-, rfl⟩ := storeConst_ok hs
      obtain ⟨rfl, hle⟩ := putWord_error h
      exact ⟨rfl, Or.inl (hcode hle)⟩
  | branch b l =>
    change jitEmitBranch b.op l s = .error e at h
    unfold jitEmitBranch at h
    cases hf : s.buf.findLabel l with
    | some t =>
      have hle := hb.findLabel hf
      rw [hf] at h
      dsimp only at h
      rw [if_pos (by omega)] at h
      obtain ⟨rfl, hle⟩ := putWord_error h
      exact Or.inr (Or.inr ⟨rfl, Or.inl (hcode hle)⟩)
    | none =>
      rw [hf] at h
      rcases bind_eq_error.mp h with ha | ⟨buf, ha, h⟩
      · obtain ⟨rfl, hle⟩ := addUnresolved_error ha
        refine Or.inr (Or.inl ⟨rfl, ?_⟩)
        rw [Prim.event, forward_of_none hf]
        exact Nat.lt_succ_of_le hle
      · obtain ⟨-, rfl⟩ := addUnresolved_ok ha
        obtain ⟨rfl, hle⟩ := putWord_error h
        exact Or.inr (Or.inr ⟨rfl, Or.inl (hcode hle)⟩)
  | label l =>
    rcases bind_eq_error.mp h with hj | ⟨buf, -, h⟩
    · obtain ⟨rfl, hle⟩ := jitLabel_error hj
      refine Or.inl ⟨rfl, ?_⟩
      change jitMaxLabels < (s.buf.labels.map Prod.fst).length + 1
      rw [List.length_map]
      exact Nat.lt_succ_of_le hle
    · exact absurd h (by simp)

/-- The emitters keep the labels behind `code_idx` and use up the room. -/
theorem emitter_lawful :
    (emitter : Emitter (Jit Name) (Prim Name) Name).Lawful fun s => s.buf.LabelsBehind where
  keeps hb h := (emitPrim_emitted hb h).behind
  took hb h := (emitPrim_emitted hb h).took
  full hb h := emitPrim_error hb h

/-- A sequence of calls is a run of the one-pass assembler. -/
theorem run_buffer (hb : s.buf.LabelsBehind) (h : emitter.run ps s = .ok s') :
    s'.buf.buffer = encoding.run (items s.buf.codeIdx s.cpoolIdx ps) s.buf.buffer := by
  induction ps generalizing s with
  | nil =>
    obtain rfl := Except.ok.inj h
    rfl
  | cons p ps ih =>
    obtain ⟨s₁, h₁, h₂⟩ := bind_eq_ok.mp h
    have he := emitPrim_emitted hb h₁
    have hci : s₁.buf.codeIdx = s.buf.codeIdx + p.words := he.took.codeIdx
    have hpi : s₁.cpoolIdx = s.cpoolIdx + p.consts := he.took.poolIdx
    rw [ih he.behind h₂, hci, hpi, he.buffer]
    rfl

end Refinement

/-! ## From `jit_init` on -/

section Runs

variable {gap : ℕ} {ps : List (Prim Name)} {code : ℕ → BitVec 32}

omit [DecidableEq Name] in
theorem labelsBehind_jitInit (code : ℕ → BitVec 32) (gap : ℕ) :
    (jitInit code gap : Jit Name).buf.LabelsBehind := labelsBehind_init _ _

theorem within_jitInit (code : ℕ → BitVec 32) (h : gap ≤ codeWords) :
    emitter.Within (jitInit code gap : Jit Name) :=
  ⟨Nat.zero_le _, Nat.zero_le _, Nat.zero_le _, h⟩

/-- From `jit_init` on, the calls are a run on an empty buffer. -/
theorem run_jitInit {s : Jit Name} (h : emitter.run ps (jitInit code gap) = .ok s) :
    s.buf.buffer = encoding.run (items 0 gap ps) (.empty code) :=
  run_buffer (labelsBehind_jitInit code gap) h

theorem run_code {s : Jit Name} (h : emitter.run ps (jitInit code gap) = .ok s) :
    s.buf.code = (encoding.run (items 0 gap ps) (.empty code)).code :=
  congrArg Backpatch.Buffer.code (run_jitInit h)

omit [DecidableEq Name] in
theorem items_data {ci pi k w : ℕ} {f : ℕ → BitVec 32} {a : ℕ} {x : BitVec 32}
    (h : (items ci pi ps)[k]? = some (.data w f (some (a, x)))) :
    ∃ rd, ps[k]? = some (.movi rd x) ∧ a = poolPosition pi ps k := by
  rw [items_getElem?] at h
  cases hk : ps[k]? with
  | none => simp [hk] at h
  | some p =>
    rw [hk] at h
    cases p with
    | movi rd imm =>
      simp only [Option.map_some, Prim.item, Option.some.injEq, Backpatch.Item.data.injEq,
        Prod.mk.injEq] at h
      obtain ⟨-, -, rfl, rfl⟩ := h
      exact ⟨rd, rfl, rfl⟩
    | _ => simp [Prim.item] at h

/-- Placing a label changes the words of waiting branches only. -/
theorem label_patched {k c : ℕ} {l : Name} {s₁ s₂ : Jit Name}
    (h₁ : emitter.run (ps.take k) (jitInit code gap) = .ok s₁)
    (h₂ : emitPrim s₁ (.label l) = .ok s₂) (hne : s₂.buf.code c ≠ s₁.buf.code c) :
    ∃ (m : ℕ) (b : Branch), m < k ∧ ps[m]? = some (.branch b l) ∧ position ps m = c := by
  have hb : s₁.buf.LabelsBehind := emitter_lawful.run_keeps (labelsBehind_jitInit code gap) h₁
  have hbuf₁ := run_jitInit h₁
  have hbuf₂ := (emitted_label hb h₂).buffer
  rw [hbuf₁, ← items_take] at hbuf₂
  rw [← items_take] at hbuf₁
  have hcode : ∀ s : Jit Name, s.buf.code = s.buf.buffer.code := fun _ => rfl
  rw [hcode, hcode, hbuf₁, hbuf₂] at hne
  obtain ⟨m, b, hm, hbr, hle, hlt⟩ := Backpatch.label_changes hne
  rw [pos_items] at hle hlt
  exact ⟨m, b, hm, items_branch.mp hbr, by
    rw [show encoding.width = 1 from rfl] at hlt
    omega⟩

end Runs

end Interim.Backend.Arm
