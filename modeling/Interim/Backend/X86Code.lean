import Interim.Backend.X86
import Interim.Backend.Labels

/-!
# Code on x86

The emitters of `sledge/jit_x86.c` at the level of the bytes they store: the
bytes of an instruction, a branch with its label, or a label. The displacement
of a branch is four bytes behind its opcode, counted from the next instruction.
-/

namespace Interim.Backend.X86

open Backpatch (Encoding)

/-! ## Branches -/

/-- The branch emitters (lines 369–390). -/
inductive Branch
  | je | jne | jneg | jmp
  deriving DecidableEq, Repr

/-- The bytes in front of the displacement. -/
def Branch.opcode : Branch → List (BitVec 8)
  | .je => [0x0f, 0x84]
  | .jne => [0x0f, 0x85]
  | .jneg => [0x0f, 0x88]
  | .jmp => [0xe9]

/-- The condition code an emitter is for: E, NE, S, none. -/
def Branch.cond : Branch → Option ℕ
  | .je => some 4
  | .jne => some 5
  | .jneg => some 8
  | .jmp => none

/-- The four bytes at `p`, lowest first. -/
def word32 (code : ℕ → BitVec 8) (p : ℕ) : BitVec 32 :=
  code (p + 3) ++ code (p + 2) ++ code (p + 1) ++ code p

/-- The condition and the target of the near jump at `p`. -/
def decodeBranch (code : ℕ → BitVec 8) (p : ℕ) : Option (Option ℕ × ℤ) :=
  if code p = 0xe9 then some (none, p + 5 + (word32 code (p + 1)).toInt)
  else if code p = 0x0f ∧ (code (p + 1)).extractLsb' 4 4 = 8 then
    some (some ((code (p + 1)).extractLsb' 0 4).toNat, p + 6 + (word32 code (p + 2)).toInt)
  else none

/-! ## Emitters -/

variable {Name : Type}

/-- What the emitters store: the bytes of an instruction, a branch, or nothing
    at all for a label. -/
inductive Prim (Name : Type)
  | bytes (bs : List (BitVec 8))
  | branch (b : Branch) (l : Name)
  | label (l : Name)

/-- `codesz` of `compiler_x86.c`. -/
abbrev codeBytes : ℕ := 8192

/-- `jit_init(dest, max_size)` (lines 51–68) on a new buffer. -/
def jitInit (code : ℕ → BitVec 8) : Code Name (BitVec 8) := .init codeBytes code

/-- The patch of `jit_label` (lines 399–404). -/
def patchDisp (target : ℕ) (code : ℕ → BitVec 8) (site : ℕ) : ℕ → BitVec 8 :=
  let imm := BitVec.ofInt 32 ((target : ℤ) - site - 4)
  Function.update (Function.update (Function.update (Function.update code
    site (imm.extractLsb' 0 8)) (site + 1) (imm.extractLsb' 8 8))
    (site + 2) (imm.extractLsb' 16 8)) (site + 3) (imm.extractLsb' 24 8)

variable [DecidableEq Name]

/-- `jit_emit_branch(label)` (lines 97–115). -/
def jitEmitBranch (l : Name) (s : Code Name (BitVec 8)) : Except Overrun (Code Name (BitVec 8)) :=
  match s.findLabel l with
  | some t =>
    let offset : ℤ := (t : ℤ) - s.codeIdx
    if offset < 0 then s.puts (jitImm (BitVec.ofInt 32 (0xffffffff - (-offset) + 1 - 4)))
    else .ok s
  | none => do
    let s ← s.addUnresolved l
    s.puts (jitImm 0)

/-- One of the things the emitters store. -/
def emitPrim (s : Code Name (BitVec 8)) : Prim Name → Except Overrun (Code Name (BitVec 8))
  | .bytes bs => s.puts bs
  | .branch b l => do
    let s ← s.puts b.opcode
    jitEmitBranch l s
  | .label l => s.jitLabel patchDisp l

/-! ## Positions -/

section Positions

variable {Name : Type}

/-- The bytes a call stores. -/
def Prim.size : Prim Name → ℕ
  | .bytes bs => bs.length
  | .branch b _ => b.opcode.length + 4
  | .label _ => 0

/-- The bytes of a sequence of calls. -/
def size (ps : List (Prim Name)) : ℕ := (ps.map Prim.size).sum

/-- `code_idx` at call `k`. -/
def position (ps : List (Prim Name)) (k : ℕ) : ℕ := size (ps.take k)

/-- What a call does to the label tables. -/
def Prim.event : Prim Name → Option (Event Name)
  | .branch _ l => some (.branch l)
  | .label l => some (.label l)
  | .bytes _ => none

/-- A piece of data for the one-pass assembler. -/
def dataItem (bs : List (BitVec 8)) : Backpatch.Item Name Unit (BitVec 8) :=
  .data bs.length (fun i => bs.getD i 0) none

/-- The items of a call: the displacement of a branch is an item of its own. -/
def Prim.items : Prim Name → List (Backpatch.Item Name Unit (BitVec 8))
  | .bytes bs => [dataItem bs]
  | .branch b l => [dataItem b.opcode, .branch () l]
  | .label l => [.label l]

/-- The items of a sequence of calls. -/
def items (ps : List (Prim Name)) : List (Backpatch.Item Name Unit (BitVec 8)) :=
  ps.flatMap Prim.items

/-- How x86 encodes displacements. -/
def encoding : Encoding Unit (BitVec 8) where
  width := 4
  back _ p t i := (jitImm (BitVec.ofInt 32 (0xffffffff - (-((t : ℤ) - p)) + 1 - 4))).getD i 0
  hole _ i := (jitImm 0).getD i 0
  patch p t i _ := (jitImm (BitVec.ofInt 32 ((t : ℤ) - p - 4))).getD i 0

theorem size_cons (p : Prim Name) (ps : List (Prim Name)) :
    size (p :: ps) = p.size + size ps := List.sum_cons ..

theorem items_cons (p : Prim Name) (ps : List (Prim Name)) :
    items (p :: ps) = p.items ++ items ps := List.flatMap_cons

theorem total_prim_items (p : Prim Name) : encoding.total p.items = p.size := by
  cases p with
  | bytes bs => simp [Encoding.total, Prim.items, dataItem, Encoding.size, Prim.size]
  | branch b l => simp [Encoding.total, Prim.items, dataItem, Encoding.size, Prim.size, encoding]
  | label l => rfl

theorem total_items (ps : List (Prim Name)) : encoding.total (items ps) = size ps := by
  induction ps with
  | nil => rfl
  | cons p ps ih => rw [items_cons, Backpatch.total_append, total_prim_items, ih, size_cons]

/-- The item a call begins with. -/
def itemIndex (ps : List (Prim Name)) (k : ℕ) : ℕ := (items (ps.take k)).length

variable {ps : List (Prim Name)} {k : ℕ} {p : Prim Name}

theorem items_split (hk : ps[k]? = some p) :
    items ps = items (ps.take k) ++ (p.items ++ items (ps.drop (k + 1))) := by
  obtain ⟨hlt, rfl⟩ := List.getElem?_eq_some_iff.mp hk
  conv_lhs => rw [← List.take_append_drop k ps, List.drop_eq_getElem_cons hlt]
  rw [items, List.flatMap_append, List.flatMap_cons]
  rfl

theorem items_at (hk : ps[k]? = some p) (i : ℕ) (hi : i < p.items.length) :
    (items ps)[itemIndex ps k + i]? = p.items[i]? := by
  rw [items_split hk, itemIndex, List.getElem?_append_right (Nat.le_add_right _ _),
    Nat.add_sub_cancel_left, List.getElem?_append_left hi]

/-- A call's first item begins at the call's `code_idx`. -/
theorem pos_items (hk : ps[k]? = some p) : encoding.pos (items ps) (itemIndex ps k) = position ps k := by
  rw [Encoding.pos, items_split hk, itemIndex, List.take_left, total_items]
  rfl

theorem position_le_size (k : ℕ) : position ps k ≤ size ps :=
  (List.Sublist.map _ (List.take_sublist k ps)).sum_le_sum (by simp)

/-- An item belongs to a call. -/
theorem items_index {m : ℕ} {x : Backpatch.Item Name Unit (BitVec 8)}
    (h : (items ps)[m]? = some x) :
    ∃ (k : ℕ) (p : Prim Name) (i : ℕ), ps[k]? = some p ∧ p.items[i]? = some x ∧
      m = itemIndex ps k + i := by
  induction ps generalizing m with
  | nil => simp [items] at h
  | cons q qs ih =>
    rw [items_cons] at h
    rcases Nat.lt_or_ge m q.items.length with hm | hm
    · rw [List.getElem?_append_left hm] at h
      exact ⟨0, q, m, rfl, h, by simp [itemIndex, items]⟩
    · rw [List.getElem?_append_right hm] at h
      obtain ⟨k, p, i, hk, hi, hmi⟩ := ih h
      refine ⟨k + 1, p, i, hk, hi, ?_⟩
      have hstep : itemIndex (q :: qs) (k + 1) = q.items.length + itemIndex qs k := by
        rw [itemIndex, List.take_succ_cons, items_cons, List.length_append]
        rfl
      omega

theorem items_label {l : Name} {m : ℕ} (h : (items ps)[m]? = some (.label l)) :
    ∃ k, ps[k]? = some (.label l) ∧ m = itemIndex ps k := by
  obtain ⟨k, p, i, hk, hi, hm⟩ := items_index h
  have hmem := List.mem_of_getElem? hi
  cases p with
  | bytes bs => simp [Prim.items, dataItem] at hmem
  | branch b l' => simp [Prim.items, dataItem] at hmem
  | label l' =>
    obtain rfl : l = l' := by simpa [Prim.items] using hmem
    obtain rfl : i = 0 := by
      have := (List.getElem?_eq_some_iff.mp hi).1
      simpa [Prim.items] using this
    exact ⟨k, hk, hm⟩

theorem items_branch {l : Name} {m : ℕ} (h : (items ps)[m]? = some (.branch () l)) :
    ∃ k b, ps[k]? = some (.branch b l) ∧ m = itemIndex ps k + 1 := by
  obtain ⟨k, p, i, hk, hi, hm⟩ := items_index h
  have hmem := List.mem_of_getElem? hi
  cases p with
  | bytes bs => simp [Prim.items, dataItem] at hmem
  | label l' => simp [Prim.items] at hmem
  | branch b l' =>
    obtain rfl : l = l' := by simpa [Prim.items, dataItem] using hmem
    obtain rfl : i = 1 := by
      have hlt := (List.getElem?_eq_some_iff.mp hi).1
      simp only [Prim.items, List.length_cons, List.length_nil] at hlt
      rcases Nat.lt_or_ge i 1 with h0 | h1
      · obtain rfl : i = 0 := by omega
        simp [Prim.items, dataItem] at hi
      · omega
    exact ⟨k, b, hk, hm⟩

/-- Nothing is stored away from the code. -/
theorem items_store {m w a : ℕ} {f : ℕ → BitVec 8} {x : BitVec 8} :
    (items ps)[m]? ≠ some (.data w f (some (a, x))) := by
  intro h
  obtain ⟨k, p, i, -, hi, -⟩ := items_index h
  have hmem := List.mem_of_getElem? hi
  cases p <;> simp [Prim.items, dataItem] at hmem

theorem itemIndex_take {m : ℕ} (h : m ≤ k) : itemIndex (ps.take k) m = itemIndex ps m := by
  rw [itemIndex, List.take_take, Nat.min_eq_left h]
  rfl

theorem itemIndex_mono {m : ℕ} (h : m ≤ k) : itemIndex ps m ≤ itemIndex ps k := by
  rw [itemIndex, itemIndex, ← List.take_append_drop m (ps.take k), List.take_take,
    Nat.min_eq_left h, items, items, List.flatMap_append, List.length_append]
  exact Nat.le_add_right _ _

end Positions

/-! ## The emitters are the one-pass assembler -/

section Refinement

variable {s s' : Code Name (BitVec 8)} {ps : List (Prim Name)} {p : Prim Name}

/-- The emitters and what they need; nothing is stored behind the code. -/
def emitter : Emitter (Code Name (BitVec 8)) (Prim Name) Name where
  emit := emitPrim
  event := Prim.event
  cells := Prim.size
  consts _ := 0
  names s := s.labels.map Prod.fst
  unres s := s.unres.length
  codeIdx := Code.codeIdx
  poolIdx _ := 0
  size := Code.size

omit [DecidableEq Name] in
theorem puts_ok {bs : List (BitVec 8)} (h : s.puts bs = .ok s') :
    (s.codeIdx ≤ s.size → s.codeIdx + bs.length ≤ s.size) ∧
    s' = { s with
      code := Backpatch.fill s.code s.codeIdx bs.length fun i => bs.getD i 0
      codeIdx := s.codeIdx + bs.length } := by
  induction bs generalizing s with
  | nil =>
    obtain rfl := Except.ok.inj h
    refine ⟨id, ?_⟩
    have hfill : Backpatch.fill s.code s.codeIdx 0 (fun i => ([] : List (BitVec 8)).getD i 0) =
        s.code := by
      funext c
      exact Backpatch.fill_outside (by omega)
    rw [List.length_nil, hfill]
    rfl
  | cons x xs ih =>
    obtain ⟨s₁, h₁, h₂⟩ := bind_eq_ok.mp h
    obtain ⟨hlt, rfl⟩ := put_ok h₁
    obtain ⟨hle, rfl⟩ := ih h₂
    dsimp only at hle ⊢
    refine ⟨fun _ => ?_, ?_⟩
    · have := hle hlt
      rw [List.length_cons]
      omega
    · rw [List.length_cons, show s.codeIdx + 1 + xs.length = s.codeIdx + (xs.length + 1) by omega]
      congr 1
      funext c
      unfold Backpatch.fill
      by_cases hc : c = s.codeIdx
      · subst hc
        rw [if_neg (by omega), if_pos (by omega)]
        simp
      · by_cases hin : s.codeIdx ≤ c ∧ c < s.codeIdx + (xs.length + 1)
        · rw [if_pos (by omega), if_pos hin, show c - s.codeIdx = (c - (s.codeIdx + 1)) + 1 by omega]
          exact (List.getD_cons_succ ..).symm
        · rw [if_neg (by omega), if_neg hin, Function.update_of_ne hc]

omit [DecidableEq Name] in
theorem puts_error {bs : List (BitVec 8)} {e : Overrun} (h : s.puts bs = .error e) :
    e = .code ∧ s.size < s.codeIdx + bs.length := by
  induction bs generalizing s with
  | nil => exact absurd h (by simp [Code.puts])
  | cons x xs ih =>
    rw [List.length_cons]
    rcases bind_eq_error.mp h with h₁ | ⟨s₁, h₁, h₂⟩
    · obtain ⟨rfl, hle⟩ := put_error h₁
      exact ⟨rfl, by omega⟩
    · obtain ⟨-, rfl⟩ := put_ok h₁
      obtain ⟨rfl, hlt⟩ := ih h₂
      dsimp only at hlt
      exact ⟨rfl, by omega⟩

theorem patchDisp_eq : patchDisp = encoding.patchAt := by
  funext t code p c
  rw [Encoding.patchAt, Backpatch.fill]
  change patchDisp t code p c = if p ≤ c ∧ c < p + 4 then _ else _
  unfold patchDisp
  by_cases hin : p ≤ c ∧ c < p + 4
  · rw [if_pos hin]
    obtain ⟨i, rfl⟩ := Nat.exists_eq_add_of_le hin.1
    have hi : i < 4 := by omega
    rw [Nat.add_sub_cancel_left]
    interval_cases i <;> simp [Function.update, encoding, jitImm]
  · rw [if_neg hin]
    rw [Function.update_of_ne (by omega), Function.update_of_ne (by omega),
      Function.update_of_ne (by omega), Function.update_of_ne (by omega)]

/-- What one call does. -/
structure Emitted (s : Code Name (BitVec 8)) (p : Prim Name) (s' : Code Name (BitVec 8)) :
    Prop where
  buffer : s'.buffer = encoding.run p.items s.buffer
  behind : s'.LabelsBehind
  took : emitter.Took s p s'

theorem emitted_bytes {bs : List (BitVec 8)} (hb : s.LabelsBehind)
    (h : emitPrim s (.bytes bs) = .ok s') : Emitted s (.bytes bs) s' := by
  obtain ⟨hle, rfl⟩ := puts_ok h
  exact ⟨rfl, fun e he => (hb e he).trans (Nat.le_add_right _ _), (List.append_nil _).symm, rfl, rfl,
    rfl, rfl, fun hw => ⟨hw.labels, hw.unres, hle hw.code, hw.pool⟩⟩

theorem emitted_branch {b : Branch} {l : Name} (hb : s.LabelsBehind)
    (h : emitPrim s (.branch b l) = .ok s') : Emitted s (.branch b l) s' := by
  obtain ⟨s₁, h₁, h⟩ := bind_eq_ok.mp h
  obtain ⟨hle₁, hs₁⟩ := puts_ok h₁
  have hidx : s₁.codeIdx = s.codeIdx + b.opcode.length := by rw [hs₁]
  have hpos : 0 < b.opcode.length := by cases b <;> decide
  have hlabels : s₁.labels = s.labels := by rw [hs₁]
  have hunres : s₁.unres = s.unres := by rw [hs₁]
  have hsize : s₁.size = s.size := by rw [hs₁]
  have hfind : s.findLabel l = s₁.findLabel l := by rw [hs₁]; rfl
  have hbuf : s₁.buffer = encoding.step s.buffer (dataItem b.opcode) := by rw [hs₁]; rfl
  have hcells : s.codeIdx + b.opcode.length + 4 = s.codeIdx + (Prim.branch b l).size :=
    Nat.add_assoc ..
  have hbehind : ∀ e ∈ s.labels, e.2 ≤ s.codeIdx + b.opcode.length + 4 := fun e he =>
    (hb e he).trans (by omega)
  unfold jitEmitBranch at h
  cases hf : s₁.findLabel l with
  | some t =>
    have hle := hb.findLabel (hfind.trans hf)
    have hfwd := forward_of_some (hfind.trans hf)
    rw [hf] at h
    dsimp only at h
    -- the opcode lies between the label and the displacement
    rw [if_pos (by omega)] at h
    obtain ⟨hle₂, rfl⟩ := puts_ok h
    refine ⟨?_, ?_, ?_, ?_, ?_, rfl, hsize, fun hw => ⟨?_, ?_, ?_, Nat.zero_le _⟩⟩
    · change _ = encoding.step (encoding.step s.buffer (dataItem b.opcode)) (.branch () l)
      rw [← hbuf, Backpatch.step_branch_some (findLabel_buffer.symm.trans hf)]
      rfl
    · intro e he
      rw [hidx]
      exact hbehind e (hlabels ▸ he)
    · change s₁.labels.map Prod.fst = s.labels.map Prod.fst ++ []
      rw [hlabels, List.append_nil]
    · exact (congrArg List.length hunres).trans (congrArg (s.unres.length + ·) hfwd.symm)
    · exact (congrArg (· + 4) hidx).trans hcells
    · exact (congrArg (fun l => (l.map Prod.fst).length) hlabels).trans_le hw.labels
    · exact (congrArg List.length hunres).trans_le hw.unres
    · exact hle₂ (by rw [hidx, hsize]; exact hle₁ hw.code)
  | none =>
    have hfwd := forward_of_none (hfind.trans hf)
    rw [hf] at h
    obtain ⟨s₂, ha, h⟩ := bind_eq_ok.mp h
    obtain ⟨hroom, hs₂⟩ := addUnresolved_ok ha
    have hbuf₂ := addUnresolved_buffer ha
    obtain ⟨hle₂, rfl⟩ := puts_ok h
    have hidx₂ : s₂.codeIdx = s₁.codeIdx := by rw [hs₂]
    have hlabels₂ : s₂.labels = s₁.labels := by rw [hs₂]
    have hunres₂ : s₂.unres.length = s₁.unres.length + 1 := by
      rw [hs₂]
      exact List.length_append
    have hsize₂ : s₂.size = s₁.size := by rw [hs₂]
    refine ⟨?_, ?_, ?_, ?_, ?_, rfl, hsize₂.trans hsize,
      fun hw => ⟨?_, ?_, ?_, Nat.zero_le _⟩⟩
    · change _ = encoding.step (encoding.step s.buffer (dataItem b.opcode)) (.branch () l)
      rw [← hbuf, Backpatch.step_branch_none (findLabel_buffer.symm.trans hf)]
      rw [hs₂] at hbuf₂ ⊢
      exact congrArg (fun c : Backpatch.Buffer Name (BitVec 8) => { c with
        code := Backpatch.fill c.code c.idx 4 fun i => (jitImm 0).getD i 0
        idx := c.idx + 4 }) hbuf₂
    · intro e he
      rw [hidx₂, hidx]
      exact hbehind e (hlabels ▸ hlabels₂ ▸ he)
    · change s₂.labels.map Prod.fst = s.labels.map Prod.fst ++ []
      rw [hlabels₂, hlabels, List.append_nil]
    · rw [hunres] at hunres₂
      exact hunres₂.trans (congrArg (s.unres.length + ·) hfwd.symm)
    · exact (congrArg (· + 4) (hidx₂.trans hidx)).trans hcells
    · exact (congrArg (fun l => (l.map Prod.fst).length) (hlabels₂.trans hlabels)).trans_le hw.labels
    · exact hunres₂.trans_le hroom
    · exact hle₂ (by rw [hidx₂, hsize₂, hidx, hsize]; exact hle₁ hw.code)

theorem emitted_label {l : Name} (hb : s.LabelsBehind)
    (h : emitPrim s (.label l) = .ok s') : Emitted s (.label l) s' := by
  change s.jitLabel patchDisp l = .ok s' at h
  obtain ⟨hroom, hlabels, hunres⟩ := jitLabel_ok h
  rw [patchDisp_eq] at h
  obtain ⟨hbuf, hsize⟩ := jitLabel_buffer h
  have hidx : s'.codeIdx = s.codeIdx := congrArg Backpatch.Buffer.idx hbuf
  have hnames : s'.labels.map Prod.fst = s.labels.map Prod.fst ++ [l] := by
    rw [hlabels, List.map_append]
    rfl
  refine ⟨hbuf, fun e he => ?_, hnames, hunres, hidx, rfl, hsize, fun hw => ⟨?_, ?_, ?_, Nat.zero_le _⟩⟩
  · rw [hidx]
    rw [hlabels] at he
    rcases List.mem_append.mp he with he | he
    · exact hb e he
    · obtain rfl := List.mem_singleton.mp he
      exact le_refl _
  · change (s'.labels.map Prod.fst).length ≤ _
    rw [hlabels, List.length_map]
    exact le_of_eq_of_le List.length_append hroom
  · exact hunres.trans_le hw.unres
  · exact (hidx.trans_le hw.code).trans_eq hsize.symm

theorem emitPrim_emitted (hb : s.LabelsBehind) (h : emitPrim s p = .ok s') : Emitted s p s' := by
  cases p with
  | bytes bs => exact emitted_bytes hb h
  | branch b l => exact emitted_branch hb h
  | label l => exact emitted_label hb h

/-- A call fails when the table or the buffer it writes to is full. -/
theorem emitPrim_error {e : Overrun} (hb : s.LabelsBehind) (h : emitPrim s p = .error e) :
    emitter.Full s e (Event.names p.event).length
      (Event.forward (s.labels.map Prod.fst) p.event) p.size 0 := by
  cases p with
  | bytes bs =>
    obtain ⟨rfl, hlt⟩ := puts_error h
    exact Or.inr (Or.inr ⟨rfl, Or.inl hlt⟩)
  | branch b l =>
    have hsz : (Prim.branch b l).size = b.opcode.length + 4 := rfl
    rcases bind_eq_error.mp h with h₁ | ⟨s₁, h₁, h⟩
    · obtain ⟨rfl, hlt⟩ := puts_error h₁
      refine Or.inr (Or.inr ⟨rfl, Or.inl ?_⟩)
      change s.size < s.codeIdx + _
      omega
    · obtain ⟨-, hs₁⟩ := puts_ok h₁
      have hidx : s₁.codeIdx = s.codeIdx + b.opcode.length := by rw [hs₁]
      have hsize : s₁.size = s.size := by rw [hs₁]
      have hunres : s₁.unres = s.unres := by rw [hs₁]
      have hfind : s.findLabel l = s₁.findLabel l := by rw [hs₁]; rfl
      have hpos : 0 < b.opcode.length := by cases b <;> decide
      have hfull : ∀ {imm : BitVec 32} {s₂ : Code Name (BitVec 8)},
          s₂.puts (jitImm imm) = .error e → s₂.size = s.size →
          s₂.codeIdx = s.codeIdx + b.opcode.length → e = .code ∧
            (s.size < s.codeIdx + (Prim.branch b l).size ∨ s.size < 0 + 0) := by
        intro imm s₂ hp hs hc
        obtain ⟨rfl, hlt⟩ := puts_error hp
        have hfour : (jitImm imm).length = 4 := rfl
        exact ⟨rfl, Or.inl (by omega)⟩
      unfold jitEmitBranch at h
      cases hf : s₁.findLabel l with
      | some t =>
        have hle := hb.findLabel (hfind.trans hf)
        rw [hf] at h
        dsimp only at h
        rw [if_pos (by omega)] at h
        exact Or.inr (Or.inr (hfull h hsize hidx))
      | none =>
        rw [hf] at h
        rcases bind_eq_error.mp h with ha | ⟨s₂, ha, h⟩
        · obtain ⟨rfl, hle⟩ := addUnresolved_error ha
          refine Or.inr (Or.inl ⟨rfl, ?_⟩)
          have hfwd := forward_of_none (hfind.trans hf)
          rw [hunres] at hle
          exact Nat.lt_of_lt_of_eq (Nat.lt_succ_of_le hle) (congrArg (s.unres.length + ·) hfwd.symm)
        · obtain ⟨-, rfl⟩ := addUnresolved_ok ha
          exact Or.inr (Or.inr (hfull h hsize hidx))
  | label l =>
    obtain ⟨rfl, hle⟩ := jitLabel_error h
    refine Or.inl ⟨rfl, ?_⟩
    change jitMaxLabels < (s.labels.map Prod.fst).length + 1
    rw [List.length_map]
    exact Nat.lt_succ_of_le hle

/-- The emitters keep the labels behind `code_idx` and use up the room. -/
theorem emitter_lawful : (emitter : Emitter (Code Name (BitVec 8)) (Prim Name) Name).Lawful
    Code.LabelsBehind where
  keeps hb h := (emitPrim_emitted hb h).behind
  took hb h := (emitPrim_emitted hb h).took
  full hb h := emitPrim_error hb h

/-- A sequence of calls is a run of the one-pass assembler. -/
theorem run_buffer (hb : s.LabelsBehind) (h : emitter.run ps s = .ok s') :
    s'.buffer = encoding.run (items ps) s.buffer := by
  induction ps generalizing s with
  | nil =>
    obtain rfl := Except.ok.inj h
    rfl
  | cons p ps ih =>
    obtain ⟨s₁, h₁, h₂⟩ := bind_eq_ok.mp h
    have he := emitPrim_emitted hb h₁
    rw [ih he.behind h₂, he.buffer, items_cons, Encoding.run, Encoding.run, Encoding.run,
      List.foldl_append]

end Refinement

end Interim.Backend.X86
