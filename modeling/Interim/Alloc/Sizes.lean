import Interim.Alloc.Strings
import Interim.Reader.Layout

/-!
# The size field of strings

Five constructors fill `dr.size` of a `TAG_STR` cell: the reader, when a
literal ends (`sledge/reader.c`, lines 122–128), `alloc_substr`,
`alloc_string_copy`, `alloc_string_from_bytes` and `alloc_concat`
(`sledge/alloc.c`, lines 381–449). A `StringTerm` is any composition of them.

* `readString_literal` — the cell of a literal holds its characters, a NUL,
  and their number.
* `sizes_sound_iff` — every string that a composition makes has its number of
  characters in `dr.size`, and `concat` adds the sizes, exactly when the
  composition uses literals and `substr` only. `alloc_string_copy`,
  `alloc_string_from_bytes` and `alloc_concat` always count one more.
-/

namespace Interim.Heap

open Writer (cellAt intOf)

/-! ## Compositions -/

/-- An expression that makes strings. -/
inductive StringTerm
  /-- a literal: the cell the reader made for it -/
  | lit (x : ℕ)
  /-- `alloc_string_copy(s)` -/
  | copy (s : List UInt8)
  /-- `(substr t start len)` -/
  | substr (t : StringTerm) (start len : BitVec 32)
  /-- `(concat t u)` -/
  | concat (t u : StringTerm)
  /-- `(bytes->str t)` -/
  | bytesToStr (t : StringTerm)

/-- What an evaluation leaves: the cell of the value, all string cells on the
    way to it, the operands and the result of each `concat`, and the memory. -/
structure Strings where
  value : ℕ
  made : List ℕ
  joins : List (ℕ × ℕ × ℕ)
  heap : Heap

namespace StringTerm

/-- Evaluation, operands from left to right. -/
def eval : StringTerm → Heap → Except Stop Strings
  | lit x, h => .ok ⟨x, [x], [], h⟩
  | copy s, h => do
    let (i, h) ← h.allocStringCopy s
    .ok ⟨i, [i], [], h⟩
  | substr t start len, h => do
    let r ← t.eval h
    let (i, h) ← r.heap.allocSubstr (.cell r.value) start len
    .ok ⟨i, i :: r.made, r.joins, h⟩
  | concat t u, h => do
    let r ← t.eval h
    let q ← u.eval r.heap
    let (i, h) ← q.heap.allocConcat (.cell r.value) (.cell q.value)
    .ok ⟨i, i :: (r.made ++ q.made), (r.value, q.value, i) :: (r.joins ++ q.joins), h⟩
  | bytesToStr t, h => do
    let r ← t.eval h
    let (i, h) ← r.heap.allocStringFromBytes (.cell r.value)
    .ok ⟨i, i :: r.made, r.joins, h⟩

/-- Literals and `substr` only. -/
def Plain : StringTerm → Prop
  | lit _ => True
  | substr t _ _ => t.Plain
  | copy _ | concat _ _ | bytesToStr _ => False

end StringTerm

/-- Cell `x` holds the literal `s`, as the reader leaves it. -/
structure Literal (h : Heap) (x : ℕ) (s : List UInt8) : Prop where
  nulFree : 0 ∉ s
  tag : (h.cells x).tag = tagStr
  text : ∃ rest, TextCell h x s.length (s ++ 0 :: rest)

/-- The literals of a term are in the heap, and what `alloc_string_copy` gets
    is a C string. -/
def StringTerm.Ready (h : Heap) : StringTerm → Prop
  | .lit x => ∃ s, Literal h x s
  | .copy s => 0 ∉ s
  | .substr t _ _ | .bytesToStr t => t.Ready h
  | .concat t u => t.Ready h ∧ u.Ready h

/-- `dr.size` is the number of bytes in front of the NUL. -/
def SizeOk (h : Heap) (i : ℕ) : Prop :=
  ∃ b, (h.cells i).ar = .ptr (.bytes b) 0 ∧ (h.cells i).dr = .ofNat (content (h.bytes b)).length

/-- The number in `dr.size`. -/
def sizeField (h : Heap) (i : ℕ) : BitVec 64 :=
  match (h.cells i).dr with
  | .int v => v
  | _ => 0

/-- All strings have their number of characters in `dr.size`, and `concat`
    adds the sizes. -/
structure Strings.Sound (r : Strings) : Prop where
  sizes : ∀ i ∈ r.made, SizeOk r.heap i
  sums : ∀ j ∈ r.joins,
    sizeField r.heap j.2.2 = sizeField r.heap j.1 + sizeField r.heap j.2.1

/-! ## What the constructors leave -/

section Constructors

variable {h h' : Heap} {x y i size sizeX sizeY : ℕ} {data dataX dataY : List UInt8}
  {start len : BitVec 32}

theorem sizeOk_text (ht : TextCell h x size data) (hz : 0 ∈ data) :
    SizeOk h x ↔ size = (content data).length := by
  obtain ⟨b, -, har, hbuf⟩ := ht.buffer
  have hs := ht.size_lt
  have hlen := content_length_lt hz
  have hlt := ht.length_lt
  constructor
  · rintro ⟨b', har', hdr⟩
    obtain rfl : b = b' := by simpa using har.symm.trans har'
    rw [hbuf, ht.dr] at hdr
    have hv := congrArg BitVec.toNat (Word.int.inj hdr)
    rw [BitVec.toNat_ofNat, BitVec.toNat_ofNat] at hv
    omega
  · intro he
    exact ⟨b, har, by rw [ht.dr, hbuf, he]⟩

theorem allocText_room {n : ℤ} {r : ℕ × ℕ × Heap} (ha : h.allocText n = .ok r) : 0 < h.room := by
  obtain ⟨⟨i, h₁⟩, hal, -⟩ := bind_ok.mp ha
  exact cellAlloc_room hal

/-- `alloc_string_copy` on a heap with a cell left. -/
theorem allocStringCopy_spec {s : List UInt8} (hok : h.FreeListOk) (hroom : 0 < h.room)
    (hlen : s.length + 1 < 2 ^ 31) :
    ∃ i h', h.allocStringCopy s = .ok (i, h') ∧ NewText h i (s.length + 1) (s ++ [0]) h' := by
  obtain ⟨i, h₁, hal, hk, hfr, hlive, hused, hzero, hrm⟩ := allocText_spec hok hroom (s.length + 1)
  have hfit : 0 + (s ++ [0]).length ≤ (h₁.bytes h.bytesUsed).length := by
    rw [hzero, List.length_replicate, List.length_append, List.length_singleton]
    omega
  refine ⟨i, _, ?_, NewText.of_fill hk hfr hlive hused hrm (s.length + 1) (s ++ [0])⟩
  unfold allocStringCopy
  rw [toInt32_of_lt hlen, hal, ok_bind]
  dsimp only
  rw [storeAt_ok hfit, ok_bind, hzero, List.take_zero, List.nil_append,
    List.drop_eq_nil_of_le (by simp), List.append_nil]

/-- `alloc_string_copy` counts the NUL. -/
theorem allocStringCopy_inv {s : List UInt8} (hok : h.FreeListOk)
    (ha : h.allocStringCopy s = .ok (i, h')) :
    s.length + 1 < 2 ^ 31 ∧ NewText h i (s.length + 1) (s ++ [0]) h' := by
  unfold allocStringCopy at ha
  obtain ⟨⟨j, b, h₁⟩, hal, ha⟩ := bind_ok.mp ha
  have hroom := allocText_room hal
  by_cases hneg : toInt32 (s.length + 1) < 0
  · rw [allocText_fault hok hroom hneg] at hal
    exact absurd hal (by simp)
  · obtain ⟨n, hn⟩ := Int.eq_ofNat_of_zero_le (not_lt.mp hneg)
    have hnlt : n < 2 ^ 31 := by
      have hle := BitVec.toInt_lt (x := BitVec.ofNat 32 (s.length + 1))
      unfold toInt32 at hn
      omega
    obtain ⟨i', h₁', hal', hk, hfr, hlive, hused, hzero, hrm⟩ := allocText_spec hok hroom n
    rw [hn, hal'] at hal
    obtain ⟨rfl, rfl, rfl⟩ : i' = j ∧ h.bytesUsed = b ∧ h₁' = h₁ := by simpa using hal
    obtain ⟨h₂, hst, ha⟩ := bind_ok.mp ha
    -- the copy fits the storage, so the length fits an `int`
    have hfit : s.length + 1 ≤ n := by
      unfold storeAt Writer.store at hst
      rw [hzero] at hst
      by_contra hlt
      rw [if_neg (by simp; omega)] at hst
      exact absurd hst (by simp [bind, Except.bind])
    have hlen : s.length + 1 < 2 ^ 31 := by omega
    rw [toInt32_of_lt hlen] at hn
    obtain rfl : n = s.length + 1 := by omega
    rw [storeAt_ok (by rw [hzero]; simp), hzero] at hst
    obtain rfl := Except.ok.inj hst
    obtain ⟨rfl, rfl⟩ := Prod.mk.inj (Except.ok.inj ha)
    refine ⟨hlen, ?_⟩
    have hnew := NewText.of_fill hk hfr hlive hused hrm (s.length + 1) (s ++ [0])
    simpa using hnew

/-- `alloc_substr` copies a range of the storage. -/
theorem allocSubstr_inv (hok : h.FreeListOk) (ht : TextCell h x size data)
    (ha : h.allocSubstr (.cell x) start len = .ok (i, h')) :
    ∃ f l, (substrFrom (BitVec.ofNat 64 size) start).toNat = f ∧
      (substrLen (BitVec.ofNat 64 size) (substrFrom (BitVec.ofNat 64 size) start) len).toNat = l ∧
      l + 1 < 2 ^ 31 ∧ f + l ≤ data.length ∧ NewText h i l ((data.drop f).take l ++ [0]) h' := by
  have hroom : 0 < h.room := by
    rw [allocSubstr_eq ht] at ha
    obtain ⟨v, -, ha⟩ := bind_ok.mp ha
    obtain ⟨r, hal, -⟩ := bind_ok.mp ha
    exact allocText_room hal
  refine ⟨_, _, rfl, rfl, ?_⟩
  have hlt : (substrLen (BitVec.ofNat 64 size) (substrFrom (BitVec.ofNat 64 size) start)
      len).toNat + 1 < 2 ^ 31 := by
    by_contra hge
    rw [allocSubstr_fault hroom hok ht (by omega)] at ha
    exact absurd ha (by simp)
  have hin : (substrFrom (BitVec.ofNat 64 size) start).toNat + (substrLen (BitVec.ofNat 64 size)
      (substrFrom (BitVec.ofNat 64 size) start) len).toNat ≤ data.length := by
    by_contra hout
    rw [allocSubstr_outside hok hroom ht rfl rfl hlt (by omega)] at ha
    exact absurd ha (by simp)
  obtain ⟨i', h'', hal, hnew⟩ := allocSubstr_ok hok hroom ht rfl rfl hlt hin
  rw [ha] at hal
  obtain ⟨rfl, rfl⟩ := Prod.mk.inj (Except.ok.inj hal)
  exact ⟨hlt, hin, hnew⟩

/-- A range that `alloc_substr` can copy is inside the string: where it would
    leave it, it also leaves the storage. -/
theorem substr_range_le (ht : TextCell h x size data)
    (hin : (substrFrom (BitVec.ofNat 64 size) start).toNat + (substrLen (BitVec.ofNat 64 size)
      (substrFrom (BitVec.ofNat 64 size) start) len).toNat ≤ data.length) :
    (substrFrom (BitVec.ofNat 64 size) start).toNat + (substrLen (BitVec.ofNat 64 size)
      (substrFrom (BitVec.ofNat 64 size) start) len).toNat ≤ size := by
  have hs := ht.size_lt
  have hlt := ht.length_lt
  have hlen := len.isLt
  have hf : (substrFrom (BitVec.ofNat 64 size) start).toNat < size ∨
      (substrFrom (BitVec.ofNat 64 size) start).toNat = 2 ^ 32 - 1 := by
    by_cases hst : start.toNat < size
    · rw [substrFrom_of_lt hs hst]
      exact Or.inl hst
    · rw [substrFrom_of_le hs (by omega)]
      split
      · exact Or.inr rfl
      · exact Or.inl (by omega)
  rw [substrLen_toNat hs] at hin ⊢
  by_cases hc : size < (len.toNat + (substrFrom (BitVec.ofNat 64 size) start).toNat) % 2 ^ 32
  · rw [if_pos hc] at hin ⊢
    omega
  · rw [if_neg hc] at hin ⊢
    omega

/-- `alloc_concat` counts one more than the characters. -/
theorem allocConcat_inv (hok : h.FreeListOk) (hx : TextCell h x sizeX dataX)
    (hy : TextCell h y sizeY dataY) (hzx : 0 ∈ dataX) (hzy : 0 ∈ dataY)
    (ha : h.allocConcat (.cell x) (.cell y) = .ok (i, h')) :
    (content dataX).length + (content dataY).length + 2 < 2 ^ 31 ∧
      NewText h i ((content dataX).length + (content dataY).length + 1)
        (content dataX ++ content dataY ++ [0, 0]) h' := by
  have hroom : 0 < h.room := by
    rw [allocConcat_eq hx hy] at ha
    obtain ⟨_, -, ha⟩ := bind_ok.mp ha
    obtain ⟨_, -, ha⟩ := bind_ok.mp ha
    obtain ⟨r, hal, -⟩ := bind_ok.mp ha
    exact allocText_room hal
  have hlt : (content dataX).length + (content dataY).length + 2 < 2 ^ 31 := by
    by_contra hge
    rw [allocConcat_fault hok hroom hx hy hzx hzy (by omega)] at ha
    exact absurd ha (by simp)
  obtain ⟨i', h'', hal, hnew⟩ := allocConcat_spec hok hroom hx hy hzx hzy hlt
  rw [ha] at hal
  obtain ⟨rfl, rfl⟩ := Prod.mk.inj (Except.ok.inj hal)
  exact ⟨hlt, hnew⟩

/-- `alloc_string_from_bytes` counts one more than the bytes it copies. -/
theorem allocStringFromBytes_inv (hok : h.FreeListOk) (ht : TextCell h x size data)
    (ha : h.allocStringFromBytes (.cell x) = .ok (i, h')) :
    size + 1 < 2 ^ 31 ∧ NewText h i (size + 1) (data.take size ++ [0]) h' := by
  have hs := ht.size_lt
  have hle := ht.size_le
  unfold allocStringFromBytes at ha
  rw [if_neg (by simp), cellAt_cell, ok_bind, if_pos ht.tag, ht.dr] at ha
  change (if (BitVec.ofNat 64 size).toNat < 1 then _ else _) = _ at ha
  rw [BitVec.toNat_ofNat, Nat.mod_eq_of_lt (by omega)] at ha
  by_cases hz : size < 1
  · obtain rfl : size = 0 := by omega
    rw [if_pos hz] at ha
    obtain ⟨-, hnew⟩ := allocStringCopy_inv hok ha
    exact ⟨by decide, hnew⟩
  · rw [if_neg hz] at ha
    unfold stringFromBytes at ha
    obtain ⟨⟨j, b, h₁⟩, hal, ha⟩ := bind_ok.mp ha
    have hroom := allocText_room hal
    have hsucc : (BitVec.ofNat 64 size + 1).toNat = size + 1 := by
      rw [BitVec.toNat_add, BitVec.toNat_ofNat]
      change (size % 2 ^ 64 + 1) % 2 ^ 64 = size + 1
      omega
    have hsize : (BitVec.ofNat 64 size).toNat = size := by
      rw [BitVec.toNat_ofNat, Nat.mod_eq_of_lt (by omega)]
    rw [hsucc] at hal
    have hfit : size + 1 < 2 ^ 31 := by
      by_contra hge
      obtain rfl : size = 2 ^ 31 - 1 := by omega
      rw [allocText_fault hok hroom (by decide)] at hal
      exact absurd hal (by simp)
    obtain ⟨b', hb', har, hbuf⟩ := ht.buffer
    obtain ⟨i', h₁', hal', hk, hfr, hlive, hused, hzero, hrm⟩ := allocText_spec hok hroom (size + 1)
    rw [toInt32_of_lt hfit, hal'] at hal
    obtain ⟨rfl, rfl, rfl⟩ : i' = j ∧ h.bytesUsed = b ∧ h₁' = h₁ := by simpa using hal
    have hbuf₁ : h₁'.bytes b' = data := by
      rw [hk.keeps.bytes b' hb' (Set.notMem_empty b'), hbuf]
    have htake : (data.take size).length = size := by
      rw [List.length_take]
      omega
    dsimp only at ha
    rw [hsize, har, loadAt_ok hbuf₁ (by omega), ok_bind, List.drop_zero,
      storeAt_ok (by rw [hzero, htake, List.length_replicate]; omega), ok_bind, hzero, htake] at ha
    have hfill : (List.replicate (size + 1) (0 : UInt8)).take 0 ++ (data.take size ++
        (List.replicate (size + 1) 0).drop (0 + size)) = data.take size ++ [0] := by
      simp
    rw [hfill, storeAt_ok (by rw [setBytes_bytes_self]; simp [htake]), ok_bind, setBytes_bytes_self,
      setBytes_setBytes] at ha
    have hlast : (data.take size ++ [(0 : UInt8)]).take size ++ ([0] ++
        (data.take size ++ [0]).drop (size + [(0 : UInt8)].length)) = data.take size ++ [0] := by
      rw [List.take_left' htake, List.drop_eq_nil_of_le (by simp [htake])]
      rfl
    have hdr : Word.int (BitVec.ofNat 64 size + 1) = .ofNat (size + 1) := by
      rw [Word.int.injEq, ← BitVec.toNat_inj, hsucc, BitVec.toNat_ofNat, Nat.mod_eq_of_lt (by omega)]
    rw [hlast, hdr] at ha
    obtain ⟨rfl, rfl⟩ := Prod.mk.inj (Except.ok.inj ha)
    exact ⟨hfit, .of_fill hk hfr hlive hused hrm (size + 1) (data.take size ++ [0])⟩

end Constructors

/-! ## Evaluation -/

/-- Cell `i` is a text whose storage has a NUL. -/
def Terminated (h : Heap) (i : ℕ) : Prop := ∃ size data, TextCell h i size data ∧ 0 ∈ data

/-- The strings of an evaluation are terminated texts, and what was in use is
    as before. -/
structure Evaluated (h : Heap) (r : Strings) : Prop where
  keeps : KeepsAll h r.heap
  value : r.value ∈ r.made
  texts : ∀ i ∈ r.made, Terminated r.heap i

section Evaluation

variable {h h' : Heap} {i size : ℕ} {data : List UInt8}

theorem Terminated.keeps (ht : Terminated h i) (hk : KeepsAll h h') : Terminated h' i := by
  obtain ⟨size, data, ht, hz⟩ := ht
  exact ⟨size, data, ht.keeps hk, hz⟩

theorem Terminated.sizeOk_iff (ht : Terminated h i) (hk : KeepsAll h h') :
    SizeOk h' i ↔ SizeOk h i := by
  obtain ⟨size, data, ht, hz⟩ := ht
  rw [sizeOk_text ht hz, sizeOk_text (ht.keeps hk) hz]

theorem NewText.terminated (hn : NewText h i size data h') (hle : size ≤ data.length)
    (hlt : data.length < 2 ^ 31) (hz : 0 ∈ data) : Terminated h' i :=
  ⟨size, data, hn.textCell hle hlt, hz⟩

theorem StringTerm.Ready.keeps (hk : KeepsAll h h') : ∀ {t : StringTerm}, t.Ready h → t.Ready h'
  | .lit x, ⟨s, hs⟩ => by
    obtain ⟨rest, ht⟩ := hs.text
    exact ⟨s, hs.nulFree, by rw [hk.cell ht.live]; exact hs.tag, rest, ht.keeps hk⟩
  | .copy _, hr => hr
  | .substr t _ _, hr => StringTerm.Ready.keeps (t := t) hk hr
  | .bytesToStr t, hr => StringTerm.Ready.keeps (t := t) hk hr
  | .concat t u, hr => ⟨StringTerm.Ready.keeps (t := t) hk hr.1, StringTerm.Ready.keeps (t := u) hk hr.2⟩

/-- One more string made from those of `r`. -/
theorem Evaluated.cons {r : Strings} {js : List (ℕ × ℕ × ℕ)} (hr : Evaluated h r)
    (hk : KeepsAll r.heap h') (ht : Terminated h' i) :
    Evaluated h ⟨i, i :: r.made, js, h'⟩ where
  keeps := hr.keeps.trans hk
  value := List.mem_cons_self
  texts := by
    intro j hj
    rcases List.mem_cons.mp hj with rfl | hj
    · exact ht
    · exact (hr.texts j hj).keeps hk

theorem allocSubstr_terminated {x : ℕ} {start len : BitVec 32} (hok : h.FreeListOk)
    (ht : TextCell h x size data) (ha : h.allocSubstr (.cell x) start len = .ok (i, h')) :
    KeepsAll h h' ∧ Terminated h' i := by
  obtain ⟨f, l, -, -, hlt, hin, hnew⟩ := allocSubstr_inv hok ht ha
  have hlen : ((data.drop f).take l ++ [0]).length = l + 1 := by
    rw [List.length_append, List.length_take, List.length_drop, List.length_singleton]
    omega
  exact ⟨hnew.keeps, hnew.terminated (by omega) (by omega) (by simp)⟩

theorem allocStringFromBytes_terminated {x : ℕ} (hok : h.FreeListOk) (ht : TextCell h x size data)
    (ha : h.allocStringFromBytes (.cell x) = .ok (i, h')) : KeepsAll h h' ∧ Terminated h' i := by
  obtain ⟨hlt, hnew⟩ := allocStringFromBytes_inv hok ht ha
  have hle := ht.size_le
  have hlen : (data.take size ++ [(0 : UInt8)]).length = size + 1 := by
    rw [List.length_append, List.length_take, List.length_singleton]
    omega
  exact ⟨hnew.keeps, hnew.terminated hlen.ge (by omega) (by simp)⟩

/-- Every evaluation leaves terminated texts. -/
theorem StringTerm.evaluated : ∀ {t : StringTerm} {h : Heap} {r : Strings}, h.FreeListOk →
    t.Ready h → t.eval h = .ok r → Evaluated h r
  | .lit x, h, r, hok, hr, he => by
    obtain rfl := Except.ok.inj he
    obtain ⟨s, hs⟩ := hr
    obtain ⟨rest, ht⟩ := hs.text
    refine ⟨.refl hok, List.mem_cons_self, fun i hi => ?_⟩
    obtain rfl : i = x := by simpa using hi
    exact ⟨_, _, ht, by simp⟩
  | .copy s, h, r, hok, hr, he => by
    obtain ⟨⟨i, h'⟩, ha, he⟩ := bind_ok.mp he
    obtain rfl := Except.ok.inj he
    obtain ⟨hlt, hnew⟩ := allocStringCopy_inv hok ha
    refine ⟨hnew.keeps, List.mem_cons_self, fun j hj => ?_⟩
    obtain rfl : j = i := by simpa using hj
    exact hnew.terminated (by simp) (by simpa using hlt) (by simp)
  | .substr t start len, h, r, hok, hr, he => by
    obtain ⟨q, hq, he⟩ := bind_ok.mp he
    obtain ⟨⟨i, h'⟩, ha, he⟩ := bind_ok.mp he
    obtain rfl := Except.ok.inj he
    have hq := StringTerm.evaluated (t := t) hok hr hq
    obtain ⟨size, data, ht, -⟩ := hq.texts _ hq.value
    obtain ⟨hk, hterm⟩ := allocSubstr_terminated hq.keeps.freeListOk ht ha
    exact hq.cons hk hterm
  | .bytesToStr t, h, r, hok, hr, he => by
    obtain ⟨q, hq, he⟩ := bind_ok.mp he
    obtain ⟨⟨i, h'⟩, ha, he⟩ := bind_ok.mp he
    obtain rfl := Except.ok.inj he
    have hq := StringTerm.evaluated (t := t) hok hr hq
    obtain ⟨size, data, ht, -⟩ := hq.texts _ hq.value
    obtain ⟨hk, hterm⟩ := allocStringFromBytes_terminated hq.keeps.freeListOk ht ha
    exact hq.cons hk hterm
  | .concat t u, h, r, hok, hr, he => by
    obtain ⟨q₁, hq₁, he⟩ := bind_ok.mp he
    obtain ⟨q₂, hq₂, he⟩ := bind_ok.mp he
    obtain ⟨⟨i, h'⟩, ha, he⟩ := bind_ok.mp he
    obtain rfl := Except.ok.inj he
    have hq₁ := StringTerm.evaluated (t := t) hok hr.1 hq₁
    have hq₂ := StringTerm.evaluated (t := u) hq₁.keeps.freeListOk
      (StringTerm.Ready.keeps hq₁.keeps hr.2) hq₂
    obtain ⟨size₁, data₁, ht₁, hz₁⟩ := (hq₁.texts _ hq₁.value).keeps hq₂.keeps
    obtain ⟨size₂, data₂, ht₂, hz₂⟩ := hq₂.texts _ hq₂.value
    obtain ⟨hlt, hnew⟩ := allocConcat_inv hq₂.keeps.freeListOk ht₁ ht₂ hz₁ hz₂ ha
    refine ⟨(hq₁.keeps.trans hq₂.keeps).trans hnew.keeps, List.mem_cons_self, fun j hj => ?_⟩
    rcases List.mem_cons.mp hj with rfl | hj
    · exact hnew.terminated (by simp) (by simp; omega) (by simp)
    · rcases List.mem_append.mp hj with hj | hj
      · exact ((hq₁.texts j hj).keeps hq₂.keeps).keeps hnew.keeps
      · exact (hq₂.texts j hj).keeps hnew.keeps

end Evaluation

/-! ## Which compositions keep the sizes right -/

section Sizes

variable {h h' : Heap} {x i size : ℕ} {data : List UInt8}

theorem NewText.sizeOk_iff (hn : NewText h i size data h') (hle : size ≤ data.length)
    (hlt : data.length < 2 ^ 31) (hz : 0 ∈ data) :
    SizeOk h' i ↔ size = (content data).length :=
  sizeOk_text (hn.textCell hle hlt) hz

/-- `substr` of a string with the right size has the right size. -/
theorem allocSubstr_sizeOk {start len : BitVec 32} (hok : h.FreeListOk)
    (ht : TextCell h x size data) (hz : 0 ∈ data) (hs : SizeOk h x)
    (ha : h.allocSubstr (.cell x) start len = .ok (i, h')) : SizeOk h' i := by
  obtain ⟨f, l, rfl, rfl, hlt, hin, hnew⟩ := allocSubstr_inv hok ht ha
  have hle := substr_range_le ht hin
  generalize (substrLen (BitVec.ofNat 64 size) (substrFrom (BitVec.ofNat 64 size) start) len).toNat
    = l at *
  generalize (substrFrom (BitVec.ofNat 64 size) start).toNat = f at *
  rw [sizeOk_text ht hz] at hs
  have hlen : ((data.drop f).take l).length = l := by
    rw [List.length_take, List.length_drop]
    omega
  -- the copied range is a part of the contents
  have hn0 : 0 ∉ (data.drop f).take l := by
    obtain ⟨rest, hd⟩ := exists_content hz
    intro hm
    have hpart : (data.drop f).take l = ((content data).drop f).take l := by
      conv_lhs => rw [hd]
      rw [List.drop_append_of_le_length (by omega), List.take_append_of_le_length]
      rw [List.length_drop]
      omega
    rw [hpart] at hm
    exact zero_notMem_content data (List.mem_of_mem_drop (List.mem_of_mem_take hm))
  rw [hnew.sizeOk_iff (by rw [List.length_append, hlen]; omega)
    (by rw [List.length_append, hlen]; simpa using hlt) (by simp), content_append hn0, hlen]

/-- Literals and their substrings have the right size. -/
theorem StringTerm.Plain.sized : ∀ {t : StringTerm} {h : Heap} {r : Strings}, h.FreeListOk →
    t.Ready h → t.Plain → t.eval h = .ok r → (∀ i ∈ r.made, SizeOk r.heap i) ∧ r.joins = []
  | .lit x, h, r, hok, hr, _, he => by
    obtain rfl := Except.ok.inj he
    obtain ⟨s, hs⟩ := hr
    obtain ⟨rest, ht⟩ := hs.text
    refine ⟨fun i hi => ?_, rfl⟩
    obtain rfl : i = x := by simpa using hi
    rw [sizeOk_text ht (by simp), content_append hs.nulFree]
  | .substr t start len, h, r, hok, hr, hp, he => by
    obtain ⟨q, hq, he⟩ := bind_ok.mp he
    obtain ⟨⟨i, h'⟩, ha, he⟩ := bind_ok.mp he
    obtain rfl := Except.ok.inj he
    obtain ⟨hsized, hj⟩ := StringTerm.Plain.sized (t := t) hok hr hp hq
    have hev := StringTerm.evaluated (t := t) hok hr hq
    obtain ⟨size, data, ht, hz⟩ := hev.texts _ hev.value
    obtain ⟨hk, -⟩ := allocSubstr_terminated hev.keeps.freeListOk ht ha
    refine ⟨fun j hj => ?_, hj⟩
    rcases List.mem_cons.mp hj with rfl | hj
    · exact allocSubstr_sizeOk hev.keeps.freeListOk ht hz (hsized _ hev.value) ha
    · exact ((hev.texts j hj).sizeOk_iff hk).mpr (hsized j hj)

/-- Every other composition makes a string whose size is one too large. -/
theorem StringTerm.unsized : ∀ {t : StringTerm} {h : Heap} {r : Strings}, h.FreeListOk →
    t.Ready h → ¬ t.Plain → t.eval h = .ok r → ∃ i ∈ r.made, ¬ SizeOk r.heap i
  | .lit x, h, r, _, _, hp, _ => absurd trivial hp
  | .copy s, h, r, hok, hr, _, he => by
    obtain ⟨⟨i, h'⟩, ha, he⟩ := bind_ok.mp he
    obtain rfl := Except.ok.inj he
    obtain ⟨hlt, hnew⟩ := allocStringCopy_inv hok ha
    refine ⟨i, List.mem_cons_self, ?_⟩
    rw [hnew.sizeOk_iff (by simp) (by simpa using hlt) (by simp), content_append hr]
    omega
  | .substr t start len, h, r, hok, hr, hp, he => by
    obtain ⟨q, hq, he⟩ := bind_ok.mp he
    obtain ⟨⟨i, h'⟩, ha, he⟩ := bind_ok.mp he
    obtain rfl := Except.ok.inj he
    obtain ⟨j, hj, hbad⟩ := StringTerm.unsized (t := t) hok hr hp hq
    have hev := StringTerm.evaluated (t := t) hok hr hq
    obtain ⟨size, data, ht, -⟩ := hev.texts _ hev.value
    obtain ⟨hk, -⟩ := allocSubstr_terminated hev.keeps.freeListOk ht ha
    exact ⟨j, List.mem_cons_of_mem _ hj, mt ((hev.texts j hj).sizeOk_iff hk).mp hbad⟩
  | .bytesToStr t, h, r, hok, hr, _, he => by
    obtain ⟨q, hq, he⟩ := bind_ok.mp he
    obtain ⟨⟨i, h'⟩, ha, he⟩ := bind_ok.mp he
    obtain rfl := Except.ok.inj he
    have hev := StringTerm.evaluated (t := t) hok hr hq
    obtain ⟨size, data, ht, -⟩ := hev.texts _ hev.value
    obtain ⟨hlt, hnew⟩ := allocStringFromBytes_inv hev.keeps.freeListOk ht ha
    have hle := ht.size_le
    have hlen : (data.take size ++ [(0 : UInt8)]).length = size + 1 := by
      rw [List.length_append, List.length_take, List.length_singleton]
      omega
    have hshort := content_length_lt (show 0 ∈ data.take size ++ [(0 : UInt8)] by simp)
    refine ⟨i, List.mem_cons_self, ?_⟩
    rw [hnew.sizeOk_iff hlen.ge (by omega) (by simp)]
    omega
  | .concat t u, h, r, hok, hr, _, he => by
    obtain ⟨q₁, hq₁, he⟩ := bind_ok.mp he
    obtain ⟨q₂, hq₂, he⟩ := bind_ok.mp he
    obtain ⟨⟨i, h'⟩, ha, he⟩ := bind_ok.mp he
    obtain rfl := Except.ok.inj he
    have hev₁ := StringTerm.evaluated hok hr.1 hq₁
    have hev₂ := StringTerm.evaluated hev₁.keeps.freeListOk
      (StringTerm.Ready.keeps hev₁.keeps hr.2) hq₂
    obtain ⟨size₁, data₁, ht₁, hz₁⟩ := (hev₁.texts _ hev₁.value).keeps hev₂.keeps
    obtain ⟨size₂, data₂, ht₂, hz₂⟩ := hev₂.texts _ hev₂.value
    obtain ⟨hlt, hnew⟩ := allocConcat_inv hev₂.keeps.freeListOk ht₁ ht₂ hz₁ hz₂ ha
    have hn0 : 0 ∉ content data₁ ++ content data₂ := by
      rw [List.mem_append]
      exact fun hm => hm.elim (zero_notMem_content _) (zero_notMem_content _)
    refine ⟨i, List.mem_cons_self, ?_⟩
    rw [hnew.sizeOk_iff (by simp) (by simp; omega) (by simp),
      show content data₁ ++ content data₂ ++ [0, 0] = (content data₁ ++ content data₂) ++ 0 :: [0]
        from rfl, content_append hn0, List.length_append]
    omega

/-- The strings of a composition all have their number of characters in
    `dr.size`, and `concat` adds the sizes, exactly when only literals and
    `substr` are used. -/
theorem sizes_sound_iff {t : StringTerm} {r : Strings} (hok : h.FreeListOk) (hr : t.Ready h)
    (he : t.eval h = .ok r) : r.Sound ↔ t.Plain := by
  constructor
  · intro hs
    by_contra hp
    obtain ⟨i, hi, hbad⟩ := StringTerm.unsized hok hr hp he
    exact hbad (hs.sizes i hi)
  · intro hp
    obtain ⟨hsized, hj⟩ := StringTerm.Plain.sized hok hr hp he
    exact ⟨hsized, by rw [hj]; simp⟩

end Sizes

/-- The literal `ab` in cell 0. -/
theorem textHeap_literal : Literal (textHeap 2 [97, 98, 0]) 0 [97, 98] :=
  ⟨by decide, rfl, [], textHeap_textCell (by decide) (by decide)⟩

theorem sizes_sound_substr :
    ∃ r, (StringTerm.substr (.lit 0) 1 1).eval (textHeap 2 [97, 98, 0]) = .ok r ∧
      (r.Sound ↔ (StringTerm.substr (.lit 0) 1 1).Plain) := by
  obtain ⟨i, h', ha, -⟩ := allocSubstr_ok (textHeap_freeListOk 2 [97, 98, 0])
    (by rw [textHeap_room]; decide) (textHeap_textCell (by decide) (by decide))
    (show (substrFrom (BitVec.ofNat 64 2) 1).toNat = 1 from rfl)
    (show (substrLen (BitVec.ofNat 64 2) (substrFrom (BitVec.ofNat 64 2) 1) 1).toNat = 1 from rfl)
    (by decide) (by decide)
  have he : (StringTerm.substr (.lit 0) 1 1).eval (textHeap 2 [97, 98, 0]) =
      .ok ⟨i, [i, 0], [], h'⟩ := by
    rw [StringTerm.eval, StringTerm.eval, ok_bind, ha, ok_bind]
  exact ⟨_, he, sizes_sound_iff (textHeap_freeListOk _ _) ⟨_, textHeap_literal⟩ he⟩

/-- `(size (concat "ab" "ab"))` is 5. -/
theorem sizes_unsound_concat :
    ¬ ∀ (h : Heap) (t : StringTerm) (r : Strings), h.FreeListOk → t.Ready h → t.eval h = .ok r →
      r.Sound := by
  intro hall
  have ht : TextCell (textHeap 2 [97, 98, 0]) 0 2 [97, 98, 0] :=
    textHeap_textCell (by decide) (by decide)
  obtain ⟨i, h', ha, -⟩ := allocConcat_spec (textHeap_freeListOk _ _)
    (by rw [textHeap_room]; decide) ht ht (by decide) (by decide) (by decide)
  have he : (StringTerm.concat (.lit 0) (.lit 0)).eval (textHeap 2 [97, 98, 0]) =
      .ok ⟨i, [i, 0, 0], [(0, 0, i)], h'⟩ := by
    rw [StringTerm.eval, StringTerm.eval, ok_bind, StringTerm.eval, ok_bind, ha, ok_bind]
    rfl
  have hr : (StringTerm.concat (.lit 0) (.lit 0)).Ready (textHeap 2 [97, 98, 0]) :=
    ⟨⟨_, textHeap_literal⟩, ⟨_, textHeap_literal⟩⟩
  obtain ⟨j, hj, hbad⟩ := StringTerm.unsized (textHeap_freeListOk _ _) hr (fun hp => hp) he
  exact hbad ((hall _ _ _ (textHeap_freeListOk _ _) hr he).sizes j hj)

/-! ## Literals -/

section Literals

open Reader

variable {rs : ReaderState} {h : Heap} {a : AbsState} {S : Set Block} {cs : List ℕ} {c v b k : ℕ}
  {os : List (List ℕ × ℕ)} {s : List UInt8}

/-- The closing quote: the value cell becomes the literal, and the current
    cell keeps pointing to it. -/
theorem readChar_quote (hc : Core rs h a S cs c os) (hB : Buffer h S c os tagStr v b k s)
    (hstate : rs.state = .str) (hsym : rs.symLen = s.length) (hs : s.length + 1 < 2 ^ k)
    (hnul : 0 ∉ s) (hroom : 0 < h.room) :
    ∃ n h', readChar dquote rs h = .ok ({ rs with state := .atom, cell := .cell n }, h') ∧
      (h'.cells c).ar = .cell v ∧ Literal h' v s := by
  have hcv : v ≠ c := fun hvc => hB.fresh.notOpen (by simp [hvc])
  have hok₁ : (setDr h v (.ofNat s.length)).FreeListOk := ⟨hc.freeListOk.nodup, hc.freeListOk.below⟩
  obtain ⟨n, h₂, hal, hk, -, -, -, -⟩ := allocCell_spec hok₁ hroom fun _ => ⟨.null, .null, tagCons⟩
  have hcell : h₂.cells v = ⟨.ptr (.bytes b) 0, .ofNat s.length, tagStr⟩ := by
    rw [hk.cells v hB.fresh.notSupply (Set.notMem_empty v), setDr, setCell_cells,
      Function.update_self, hB.cell]
  have hcar : (h₂.cells c).ar = .cell v := by
    rw [hk.cells c (hc.openFresh c (by simp)).2 (Set.notMem_empty c), setDr, setCell_cells,
      Function.update_of_ne hcv.symm, hB.ar]
  have hbuf : h₂.bytes b = filled s k := by
    rw [hk.bytes b hB.old (Set.notMem_empty b)]
    exact hB.contents
  refine ⟨n, setDr h₂ c (.cell n), ?_, ?_, hnul, ?_, ?_⟩
  · have hroot : ensureRoot rs h = .ok (rs, h) := by
      rw [ensureRoot, if_neg (by rw [hc.cell]; simp)]
    have hstr : readState dquote c rs h = .ok (n, { rs with state := .atom }, setDr h₂ c (.cell n)) := by
      unfold readState readStr readerNextListCell allocNil allocCons
      rw [hstate, if_pos rfl, hB.ar, hsym]
      change ((setDr h v (.ofNat s.length)).allocCell _ >>= _) = _
      rw [hal]
      rfl
    unfold readChar
    rw [hroot]
    change (cellOf rs.cell >>= _) = _
    rw [hc.cell]
    change (readState dquote c rs h >>= _) = _
    rw [hstr]
    rfl
  · rw [setDr, setCell_cells, Function.update_self]
    exact hcar
  · rw [setDr, setCell_cells, Function.update_of_ne hcv, hcell]
  · obtain ⟨rest, hrest⟩ := filled_eq_append_zero (k := k) (s := s) (by omega)
    have hk30 : 2 ^ k ≤ 2 ^ 30 := Nat.pow_le_pow_right (by decide) hB.upper
    have hlen := filled_length (k := k) (s := s) (by omega)
    refine ⟨rest, ?_, ?_, ?_, ⟨b, ?_, ?_, ?_⟩, by simp, ?_⟩
    · exact fun hsup => hB.fresh.notSupply (hk.supply hsup)
    · rw [setDr, setCell_cells, Function.update_of_ne hcv, hcell]
      rfl
    · rw [setDr, setCell_cells, Function.update_of_ne hcv, hcell]
    · exact lt_of_lt_of_le hB.old hk.bytesUsed
    · rw [setDr, setCell_cells, Function.update_of_ne hcv, hcell]
    · exact hbuf.trans hrest
    · rw [← hrest, hlen]
      omega

/-- The cell `read_string` returns for a string literal. -/
theorem readString_literal {junk : Junk} (hok : h.FreeListOk) (hroom : 4 ≤ h.room) (hnul : 0 ∉ s)
    (hquote : dquote ∉ s) (hlen : s.length ≤ 2 ^ 30 - 2) :
    ∃ x h', readString junk (dquote :: (s ++ [dquote])) h = .ok (.cell x, h') ∧
      Literal h' x s := by
  obtain ⟨rs₀, h₀, hr₀, hs₀, hcell₀, hrm₀⟩ := ensureRoot_sim junk hok (by omega)
  have hrun : Runs (.start (junk.valuestate = vstHex)) (dquote :: s) 1
      { AbsState.start (junk.valuestate = vstHex) with tok := .str s } := by
    have hopen : Runs (.start (junk.valuestate = vstHex)) [dquote] 1
        { AbsState.start (junk.valuestate = vstHex) with tok := .str [] } :=
      Runs.single rfl ⟨Nat.zero_le _, Nat.zero_le _⟩
    exact hopen.append (str_runs (Nat.zero_le _) [] (fun c hc h0 => hquote (h0 ▸ hc)) hlen)
  obtain ⟨rs, h₁, hr, hs, hrm⟩ := readChars_sim hrun hs₀ (by omega)
  have herr := hs.not_isError
  obtain ⟨S, cs, c, os, hc, hstate, v, b, k, hB, hsym, hlt⟩ := hs
  obtain ⟨n, h', hq, hcar, hlit⟩ := readChar_quote hc hB hstate hsym hlt hnul (by omega)
  have hos : os = [] := by
    have hl := hc.outer.length_eq
    exact List.length_eq_zero_iff.mp hl
  subst hos
  obtain rfl : cs = [] := List.length_eq_zero_iff.mp hc.cur.length_eq
  obtain ⟨r, hroot, hslot⟩ := hc.root
  obtain rfl : c = r := by simpa [topChain, AbsState.start] using hroot
  refine ⟨v, h', ?_, hlit⟩
  have hread : readChars (dquote :: (s ++ [dquote])) rs₀ h₀ =
      .ok ({ rs with state := .atom, cell := .cell n }, h') := by
    rw [← List.cons_append, readChars_append hr herr, readChars, hq]
    rfl
  have hfirst : readChars (dquote :: (s ++ [dquote])) (.start junk) h =
      readChars (dquote :: (s ++ [dquote])) rs₀ h₀ := by
    have hnext : ensureRoot rs₀ h₀ = .ok (rs₀, h₀) := by rw [ensureRoot, if_neg hcell₀]
    rw [readChars, readChars, readChar, readChar, hr₀, hnext]
  have htake : (dquote :: (s ++ [dquote])).take
      (toInt32 (dquote :: (s ++ [dquote])).length).toNat = dquote :: (s ++ [dquote]) := by
    rw [toInt32_of_lt (by simp; omega), Int.toNat_natCast, List.take_length]
  unfold readString
  rw [htake, hfirst, hread]
  change readResult { rs with state := .atom, cell := .cell n } h' = _
  unfold readResult
  have hlev : rs.level = 0 := hc.level
  have hst : rs.stack = 0 := hc.stack
  have htop : ReaderState.top { rs with state := .atom, cell := .cell n } = .ok (.cell c) := by
    rw [ReaderState.top, if_pos (by simp [hst])]
    simp only [hst, Int.toNat_zero]
    rw [hslot]
  rw [if_neg (by simp [hlev, Pst.isError]), htop]
  change (.ok ((h'.cells c).ar, h') : Except Stop _) = _
  rw [hcar]

end Literals

end Interim.Heap
