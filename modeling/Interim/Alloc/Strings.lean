import Interim.Alloc.Construct

/-!
# String constructors

Model of `alloc_substr`, `alloc_string_copy`, `alloc_string_from_bytes` and
`alloc_concat` (`sledge/alloc.c`, lines 381–449).

* `substr_clips_iff` — `alloc_substr` is the clipped substring exactly when
  the offset is inside the string and `from + len` does not wrap, or the
  offset is at or behind the end of a non-empty string and nothing is asked
  for.
* `allocConcat_spec`, `allocConcat_fault` — `alloc_concat` on terminated
  storage.

`len + from` is an `unsigned int` sum and `str->dr.size - 1` is stored into an
`unsigned int`, so on the empty string the offset becomes `2^32 - 1`.
-/

namespace Interim.Heap

open Writer (cellAt cString cStringAt intOf store toSizeT)

/-! ## The constructors -/

/-- `int` arithmetic: the low 32 bits in two's complement. -/
def wrapInt (n : ℤ) : ℤ := (BitVec.ofInt 32 n).toInt

/-- `cell_alloc()` and `bytes_alloc(num_bytes)`, which start every constructor
    of this module. -/
def allocText (h : Heap) (numBytes : ℤ) : Except Stop (ℕ × ℕ × Heap) := do
  let (i, h) ← h.cellAlloc
  let (b, h) ← h.bytesAlloc numBytes
  .ok (i, b, h)

/-- Store `data` into buffer `b` from index `pos` on. -/
def storeAt (h : Heap) (b pos : ℕ) (data : List UInt8) : Except Stop Heap := do
  let buf ← store (h.bytes b) pos data
  .ok (h.setBytes b buf)

/-- The `n` bytes from `ar + off` on. -/
def loadAt (h : Heap) (ar : Word) (off n : ℕ) : Except Stop (List UInt8) :=
  match ar with
  | .ptr (.bytes b) o =>
    if 0 ≤ o ∧ o.toNat + off + n ≤ (h.bytes b).length then
      .ok (((h.bytes b).drop (o.toNat + off)).take n)
    else .error .fault
  | _ => .error .fault

/-- What `strncpy(dst, s, n)` stores at `dst`: at most `n` characters of `s`,
    padded with NULs to `n`. -/
def strncpyBytes (s : List UInt8) (n : ℕ) : List UInt8 :=
  s.take n ++ List.replicate (n - s.length) 0

/-- `str->tag!=TAG_BYTES && str->tag!=TAG_STR` fails. -/
def isText (c : Cell) : Bool := c.tag = tagBytes ∨ c.tag = tagStr

/-- `alloc_string_copy(str)` (lines 403–410); `str` holds the characters
    before the NUL. -/
def allocStringCopy (h : Heap) (str : List UInt8) : Except Stop (ℕ × Heap) := do
  let (i, b, h) ← h.allocText (toInt32 (str.length + 1))
  let h ← h.storeAt b 0 (str ++ [0])
  .ok (i, h.setCell i ⟨.ptr (.bytes b) 0, .ofNat (str.length + 1), tagStr⟩)

/-- Line 388: `if (from>=str->dr.size) from=str->dr.size-1`. -/
def substrFrom (size : BitVec 64) (start : BitVec 32) : BitVec 32 :=
  if size.toNat ≤ start.toNat then (size - 1).setWidth 32 else start

/-- Line 389: `if (len+from>str->dr.size) len=str->dr.size-from`. -/
def substrLen (size : BitVec 64) (start len : BitVec 32) : BitVec 32 :=
  if size.toNat < (len + start).toNat then (size - start.setWidth 64).setWidth 32 else len

/-- Lines 388–396: `alloc_substr` on a string or byte cell. -/
def substrOf (h : Heap) (c : Cell) (start len : BitVec 32) : Except Stop (ℕ × Heap) := do
  let size ← intOf c.dr
  let start := substrFrom size start
  let len := substrLen size start len
  let (i, b, h) ← h.allocText (len + 1).toInt
  let data ← h.loadAt c.ar start.toNat len.toNat
  let h ← h.storeAt b 0 data
  .ok (i, h.setCell i ⟨.ptr (.bytes b) 0, .ofNat len.toNat, tagStr⟩)

/-- `alloc_substr(str, from, len)` (lines 381–397). -/
def allocSubstr (h : Heap) (str : Word) (start len : BitVec 32) : Except Stop (ℕ × Heap) :=
  if str = .null then h.allocStringCopy []
  else do
    let c ← cellAt h str
    if isText c then h.substrOf c start len else h.allocStringCopy []

/-- Lines 418–424: `alloc_string_from_bytes` on a cell of `size` bytes. -/
def stringFromBytes (h : Heap) (c : Cell) (size : BitVec 64) : Except Stop (ℕ × Heap) := do
  let (i, b, h) ← h.allocText (toInt32 (size + 1).toNat)
  let data ← h.loadAt c.ar 0 size.toNat
  let h ← h.storeAt b 0 data
  let h ← h.storeAt b size.toNat [0]
  .ok (i, h.setCell i ⟨.ptr (.bytes b) 0, .int (size + 1), tagStr⟩)

/-- `alloc_string_from_bytes(bytes)` (lines 412–425). -/
def allocStringFromBytes (h : Heap) (bytes : Word) : Except Stop (ℕ × Heap) :=
  if bytes = .null then h.allocStringCopy []
  else do
    let c ← cellAt h bytes
    if isText c then do
      let size ← intOf c.dr
      if size.toNat < 1 then h.allocStringCopy [] else h.stringFromBytes c size
    else h.allocStringCopy []

/-- Lines 435–448: `alloc_concat` on string or byte cells. -/
def concatOf (h : Heap) (c₁ c₂ : Cell) : Except Stop (ℕ × Heap) := do
  let s₁ ← cString h c₁.ar
  let s₂ ← cString h c₂.ar
  let size1 := toInt32 s₁.length
  let size2 := toInt32 s₂.length
  let newsize := wrapInt (size1 + size2 + 1)
  let (i, b, h) ← h.allocText (wrapInt (newsize + 1))
  let h ← h.storeAt b 0 (strncpyBytes s₁ (toSizeT size1))
  let h ← h.storeAt b size1.toNat (strncpyBytes s₂ (toSizeT (1 + newsize - size1)))
  let h ← h.storeAt b newsize.toNat [0]
  .ok (i, h.setCell i ⟨.ptr (.bytes b) 0, .int (BitVec.ofInt 64 newsize), tagStr⟩)

/-- `alloc_concat(str1, str2)` (lines 427–449). -/
def allocConcat (h : Heap) (str1 str2 : Word) : Except Stop (ℕ × Heap) :=
  if str1 = .null ∨ str2 = .null then h.allocStringCopy []
  else do
    let c₁ ← cellAt h str1
    let c₂ ← cellAt h str2
    if isText c₁ ∧ isText c₂ then h.concatOf c₁ c₂ else h.allocStringCopy []

/-! ## Cells with text -/

/-- Cell `x` is a string or byte cell in use: `size` is its size field and
    `data` its storage. The constructors allocate at least `size` bytes, and
    `bytes_alloc` takes an `int`. -/
structure TextCell (h : Heap) (x size : ℕ) (data : List UInt8) : Prop where
  live : x ∉ h.Supply
  tag : isText (h.cells x)
  dr : (h.cells x).dr = .ofNat size
  buffer : ∃ b < h.bytesUsed, (h.cells x).ar = .ptr (.bytes b) 0 ∧ h.bytes b = data
  size_le : size ≤ data.length
  length_lt : data.length < 2 ^ 31

/-- The bytes before the first NUL. -/
def content (data : List UInt8) : List UInt8 := data.takeWhile (· ≠ 0)

/-- Cell `i` of `h'` is a new string with size field `size` and storage
    `data`; what was in use in `h` is as before. -/
structure NewText (h : Heap) (i size : ℕ) (data : List UInt8) (h' : Heap) : Prop where
  keeps : KeepsAll h h'
  fresh : i ∈ h.Supply
  live : i ∉ h'.Supply
  buffer : ∃ b, h.bytesUsed ≤ b ∧ b < h'.bytesUsed ∧
    h'.cells i = ⟨.ptr (.bytes b) 0, .ofNat size, tagStr⟩ ∧ h'.bytes b = data
  room : h.room = h'.room + 1

section Text

variable {h h' : Heap} {x i size n : ℕ} {data : List UInt8}

theorem TextCell.size_lt (ht : TextCell h x size data) : size < 2 ^ 31 :=
  lt_of_le_of_lt ht.size_le ht.length_lt

/-- Allocations leave a text alone. -/
theorem TextCell.keeps (ht : TextCell h x size data) (hk : KeepsAll h h') : TextCell h' x size data := by
  obtain ⟨b, hb, har, hbuf⟩ := ht.buffer
  have hc := hk.cell ht.live
  refine ⟨fun hs => ht.live (hk.keeps.supply hs), by rw [hc]; exact ht.tag,
    by rw [hc]; exact ht.dr, ⟨b, lt_of_lt_of_le hb hk.keeps.bytesUsed, by rw [hc]; exact har, ?_⟩,
    ht.size_le, ht.length_lt⟩
  rw [hk.keeps.bytes b hb (Set.notMem_empty b), hbuf]

theorem NewText.textCell (hn : NewText h i size data h') (hle : size ≤ data.length)
    (hlt : data.length < 2 ^ 31) : TextCell h' i size data := by
  obtain ⟨b, -, hb, hc, hbuf⟩ := hn.buffer
  exact ⟨hn.live, by rw [hc]; rfl, by rw [hc], ⟨b, hb, by rw [hc], hbuf⟩, hle, hlt⟩

theorem cellAt_cell : cellAt h (.cell x) = .ok (h.cells x) := by
  simp [cellAt]

/-- `cell_alloc` and `bytes_alloc` on a non-negative size. -/
theorem allocText_spec (hok : h.FreeListOk) (hroom : 0 < h.room) (n : ℕ) :
    ∃ i h₁, h.allocText n = .ok (i, h.bytesUsed, h₁) ∧ KeepsAll h h₁ ∧ i ∈ h.Supply ∧
      i ∉ h₁.Supply ∧ h₁.bytesUsed = h.bytesUsed + 1 ∧
      h₁.bytes h.bytesUsed = List.replicate n 0 ∧ h.room = h₁.room + 1 := by
  obtain ⟨i, h₁, hal, -, -, -, -, hrm, -, hbytes, hused⟩ := cellAlloc_spec hok hroom
  obtain ⟨hk, hin, hout⟩ := cellAlloc_keeps hok hal
  have hb : h₁.bytesAlloc n = .ok (h.bytesUsed,
      { h₁ with
        bytes := Function.update h₁.bytes h.bytesUsed (List.replicate n 0)
        bytesUsed := h.bytesUsed + 1 }) := by
    unfold bytesAlloc
    rw [if_neg (by omega), hused]
    rfl
  obtain ⟨hk₂, -⟩ := bytesAlloc_keeps hk.freeListOk hb
  refine ⟨i, _, ?_, hk.trans hk₂, hin, hout, rfl, Function.update_self _ _ _, hrm⟩
  unfold allocText
  rw [hal, ok_bind]
  dsimp only
  rw [hb, ok_bind]

/-- `malloc` of a negative `int` fails, and the `memset` behind it faults. -/
theorem allocText_fault (hok : h.FreeListOk) (hroom : 0 < h.room) {n : ℤ} (hneg : n < 0) :
    h.allocText n = .error .fault := by
  obtain ⟨i, h₁, hal, -⟩ := cellAlloc_spec hok hroom
  unfold allocText
  rw [hal, ok_bind]
  dsimp only
  unfold bytesAlloc
  rw [if_pos hneg]
  rfl

/-- The constructors' last step: fill the new buffer and set the cell. -/
theorem NewText.of_fill {h₁ : Heap} (hk : KeepsAll h h₁) (hin : i ∈ h.Supply)
    (hout : i ∉ h₁.Supply) (hused : h₁.bytesUsed = h.bytesUsed + 1)
    (hrm : h.room = h₁.room + 1) (size : ℕ) (data : List UInt8) :
    NewText h i size data ((h₁.setBytes h.bytesUsed data).setCell i
      ⟨.ptr (.bytes h.bytesUsed) 0, .ofNat size, tagStr⟩) where
  keeps := (hk.setBytes le_rfl data).setCell hin _
  fresh := hin
  live := hout
  buffer := by
    refine ⟨h.bytesUsed, le_rfl, ?_, Function.update_self _ _ _, Function.update_self _ _ _⟩
    rw [setCell_bytesUsed, setBytes_bytesUsed, hused]
    exact Nat.lt_succ_self _
  room := hrm

theorem storeAt_ok {b pos : ℕ} (hin : pos + data.length ≤ (h.bytes b).length) :
    h.storeAt b pos data = .ok (h.setBytes b
      ((h.bytes b).take pos ++ (data ++ (h.bytes b).drop (pos + data.length)))) := by
  unfold storeAt store
  rw [if_pos hin, ok_bind]

theorem loadAt_ok {b off n : ℕ} (hbuf : h.bytes b = data) (hin : off + n ≤ data.length) :
    h.loadAt (.ptr (.bytes b) 0) off n = .ok ((data.drop off).take n) := by
  subst hbuf
  unfold loadAt
  dsimp only
  rw [Int.toNat_zero, Nat.zero_add, if_pos ⟨le_rfl, hin⟩]

theorem setBytes_setBytes (h : Heap) (b : ℕ) (s t : List UInt8) :
    (h.setBytes b s).setBytes b t = h.setBytes b t := by
  simp [setBytes]

theorem setBytes_bytes_self (h : Heap) (b : ℕ) (s : List UInt8) : (h.setBytes b s).bytes b = s :=
  Function.update_self _ _ _

end Text

/-- A heap with one string, in cell 0. -/
def textHeap (size : ℕ) (data : List UInt8) : Heap :=
  { init with
    cells := Function.update init.cells 0 ⟨.ptr (.bytes 0) 0, .ofNat size, tagStr⟩
    cellsUsed := 1
    bytes := Function.update init.bytes 0 data
    bytesUsed := 1 }

theorem textHeap_freeListOk (size : ℕ) (data : List UInt8) : (textHeap size data).FreeListOk where
  nodup := by simp [textHeap, init]
  below := by simp [textHeap, init]

theorem textHeap_room (size : ℕ) (data : List UInt8) : (textHeap size data).room = 99999 := by
  simp [room, textHeap, init, maxCells]

theorem textHeap_textCell {size : ℕ} {data : List UInt8} (hle : size ≤ data.length)
    (hlt : data.length < 2 ^ 31) : TextCell (textHeap size data) 0 size data where
  live := by simp [Supply, textHeap, init]
  tag := rfl
  dr := rfl
  buffer := ⟨0, Nat.zero_lt_one, rfl, rfl⟩
  size_le := hle
  length_lt := hlt

/-! ## `alloc_substr` -/

/-- The bytes of `data` from `min(from, size)` up to `min(from + len, size)`. -/
def clip (data : List UInt8) (size start len : ℕ) : List UInt8 :=
  (data.take (min (start + len) size)).drop (min start size)

/-- The indices of the string's storage that the `memcpy` of line 395 reads. -/
def substrReads (size : BitVec 64) (start len : BitVec 32) : Set ℕ :=
  {k | (substrFrom size start).toNat ≤ k ∧
    k < (substrFrom size start).toNat + (substrLen size (substrFrom size start) len).toNat}

/-- `alloc_substr` on cell `x` reads inside the string and returns the clipped
    substring. -/
def SubstrClips (h : Heap) (x size : ℕ) (data : List UInt8) (start len : BitVec 32) : Prop :=
  (∀ k ∈ substrReads (BitVec.ofNat 64 size) start len, k < size) ∧
    ∃ i h', h.allocSubstr (.cell x) start len = .ok (i, h') ∧
      NewText h i (clip data size start.toNat len.toNat).length
        (clip data size start.toNat len.toNat ++ [0]) h'

section Substr

variable {h : Heap} {x size : ℕ} {data : List UInt8} {start len : BitVec 32}

theorem substrFrom_of_lt (hs : size < 2 ^ 31) (hlt : start.toNat < size) :
    substrFrom (BitVec.ofNat 64 size) start = start := by
  unfold substrFrom
  rw [BitVec.toNat_ofNat, if_neg (by omega)]

theorem substrFrom_of_le (hs : size < 2 ^ 31) (hle : size ≤ start.toNat) :
    (substrFrom (BitVec.ofNat 64 size) start).toNat = if size = 0 then 2 ^ 32 - 1 else size - 1 := by
  unfold substrFrom
  rw [BitVec.toNat_ofNat, if_pos (by omega), BitVec.toNat_setWidth, BitVec.toNat_sub,
    BitVec.toNat_ofNat]
  split
  · subst size; rfl
  · change (2 ^ 64 - 1 + size % 2 ^ 64) % 2 ^ 64 % 2 ^ 32 = size - 1
    omega

theorem substrLen_toNat (hs : size < 2 ^ 31) :
    (substrLen (BitVec.ofNat 64 size) start len).toNat =
      if size < (len.toNat + start.toNat) % 2 ^ 32 then (size + 2 ^ 32 - start.toNat) % 2 ^ 32
      else len.toNat := by
  unfold substrLen
  rw [BitVec.toNat_ofNat, BitVec.toNat_add, Nat.mod_eq_of_lt (show size < 2 ^ 64 by omega)]
  split
  · have hst := start.isLt
    rw [BitVec.toNat_setWidth, BitVec.toNat_sub, BitVec.toNat_ofNat, BitVec.toNat_setWidth]
    omega
  · rfl

theorem allocSubstr_eq (ht : TextCell h x size data) :
    h.allocSubstr (.cell x) start len = h.substrOf (h.cells x) start len := by
  unfold allocSubstr
  rw [if_neg (by simp), cellAt_cell, ok_bind, if_pos ht.tag]

/-- `len + 1` as the `int` argument of `bytes_alloc`. -/
theorem toInt_succ {v : BitVec 32} {l : ℕ} (hl : v.toNat = l) (hlt : l + 1 < 2 ^ 31) :
    (v + 1).toInt = (l + 1 : ℕ) := by
  have hn : (v + 1).toNat = l + 1 := by
    rw [BitVec.toNat_add, hl]
    change (l + 1) % 2 ^ 32 = l + 1
    exact Nat.mod_eq_of_lt (by omega)
  rw [BitVec.toInt_eq_toNat_of_lt (by omega), hn]

/-- The copy succeeds when its range is inside the storage. -/
theorem allocSubstr_ok (hok : h.FreeListOk) (hroom : 0 < h.room) (ht : TextCell h x size data)
    {f l : ℕ} (hf : (substrFrom (BitVec.ofNat 64 size) start).toNat = f)
    (hl : (substrLen (BitVec.ofNat 64 size) (substrFrom (BitVec.ofNat 64 size) start) len).toNat = l)
    (hlt : l + 1 < 2 ^ 31) (hin : f + l ≤ data.length) :
    ∃ i h', h.allocSubstr (.cell x) start len = .ok (i, h') ∧
      NewText h i l ((data.drop f).take l ++ [0]) h' := by
  obtain ⟨b, hb, har, hbuf⟩ := ht.buffer
  obtain ⟨i, h₁, hal, hk, hfr, hlive, hused, hzero, hrm⟩ := allocText_spec hok hroom (l + 1)
  have hbuf₁ : h₁.bytes b = data := by
    rw [hk.keeps.bytes b hb (Set.notMem_empty b), hbuf]
  refine ⟨i, _, ?_, .of_fill hk hfr hlive hused hrm l ((data.drop f).take l ++ [0])⟩
  rw [allocSubstr_eq ht]
  unfold substrOf
  rw [ht.dr]
  change (h.allocText (substrLen _ _ _ + 1).toInt >>= _) = _
  have hlen : ((data.drop f).take l).length = l := by
    rw [List.length_take, List.length_drop]
    omega
  rw [toInt_succ hl hlt, hal, ok_bind]
  dsimp only
  rw [har, hf, hl, loadAt_ok hbuf₁ hin, ok_bind,
    storeAt_ok (by rw [hzero, hlen, List.length_replicate]; omega), ok_bind, hzero, hlen]
  simp

/-- A range that leaves the storage. -/
theorem allocSubstr_outside (hok : h.FreeListOk) (hroom : 0 < h.room) (ht : TextCell h x size data)
    {f l : ℕ} (hf : (substrFrom (BitVec.ofNat 64 size) start).toNat = f)
    (hl : (substrLen (BitVec.ofNat 64 size) (substrFrom (BitVec.ofNat 64 size) start) len).toNat = l)
    (hlt : l + 1 < 2 ^ 31) (hout : data.length < f + l) :
    h.allocSubstr (.cell x) start len = .error .fault := by
  obtain ⟨b, hb, har, hbuf⟩ := ht.buffer
  obtain ⟨i, h₁, hal, hk, -⟩ := allocText_spec hok hroom (l + 1)
  have hbuf₁ : h₁.bytes b = data := by
    rw [hk.keeps.bytes b hb (Set.notMem_empty b), hbuf]
  rw [allocSubstr_eq ht]
  unfold substrOf
  rw [ht.dr]
  change (h.allocText (substrLen _ _ _ + 1).toInt >>= _) = _
  have hload : h₁.loadAt (.ptr (.bytes b) 0) f l = .error .fault := by
    unfold loadAt
    dsimp only
    rw [hbuf₁, if_neg (by rw [Int.toNat_zero]; omega)]
  rw [toInt_succ hl hlt, hal, ok_bind]
  dsimp only
  rw [har, hf, hl, hload]
  rfl

/-- A length the `int` argument of `bytes_alloc` cannot hold. -/
theorem allocSubstr_fault (hroom : 0 < h.room) (hok : h.FreeListOk) (ht : TextCell h x size data)
    (hl : 2 ^ 31 - 1 ≤ (substrLen (BitVec.ofNat 64 size)
      (substrFrom (BitVec.ofNat 64 size) start) len).toNat) :
    h.allocSubstr (.cell x) start len = .error .fault := by
  rw [allocSubstr_eq ht]
  unfold substrOf
  rw [ht.dr]
  change (h.allocText (substrLen _ _ _ + 1).toInt >>= _) = _
  generalize substrFrom (BitVec.ofNat 64 size) start = f at *
  generalize substrLen (BitVec.ofNat 64 size) f len = l at *
  have hlt := l.isLt
  have hn : (l + 1).toNat = (l.toNat + 1) % 2 ^ 32 := by
    rw [BitVec.toNat_add]
    rfl
  by_cases hmax : l.toNat = 2 ^ 32 - 1
  · -- `len + 1` wraps to 0: no storage, and the copy leaves the source
    have hint : (l + 1).toInt = (0 : ℕ) := by
      rw [BitVec.toInt_eq_toNat_of_lt (by rw [hn, hmax]; decide), hn, hmax]
      rfl
    obtain ⟨b, hb, har, hbuf⟩ := ht.buffer
    obtain ⟨i, h₁, hal, hk, -⟩ := allocText_spec hok hroom 0
    have hbuf₁ : h₁.bytes b = data := by
      rw [hk.keeps.bytes b hb (Set.notMem_empty b), hbuf]
    have hdata := ht.length_lt
    have hload : h₁.loadAt (.ptr (.bytes b) 0) f.toNat l.toNat = .error .fault := by
      unfold loadAt
      dsimp only
      rw [hbuf₁, if_neg (by rw [Int.toNat_zero]; omega)]
    rw [hint, hal, ok_bind]
    dsimp only
    rw [har, hload]
    rfl
  · have hint : (l + 1).toInt < 0 := by
      rw [BitVec.toInt_eq_toNat_cond, hn, Nat.mod_eq_of_lt (by omega), if_neg (by omega)]
      omega
    rw [allocText_fault hok hroom hint]
    rfl

theorem clip_length (hle : size ≤ data.length) (s l : ℕ) :
    (clip data size s l).length = min (s + l) size - min s size := by
  unfold clip
  rw [List.length_drop, List.length_take]
  omega

theorem clip_of_lt {s l l' : ℕ} (hs : s < size) (hl' : min (s + l) size = s + l') :
    clip data size s l = (data.drop s).take l' := by
  unfold clip
  rw [hl', min_eq_left hs.le, List.drop_take]
  congr 1
  omega

/-- Without wrap-around the copied range is the clipped one. -/
theorem substrLen_of_lt (hs : size < 2 ^ 31) (hlt : start.toNat < size)
    (hw : start.toNat + len.toNat < 2 ^ 32) :
    (substrLen (BitVec.ofNat 64 size) (substrFrom (BitVec.ofNat 64 size) start) len).toNat =
      min (start.toNat + len.toNat) size - start.toNat := by
  rw [substrFrom_of_lt hs hlt, substrLen_toNat hs]
  split
  · omega
  · omega

/-- The offset is inside the string and the sum does not wrap. -/
theorem substrClips_inside (hok : h.FreeListOk) (hroom : 0 < h.room) (ht : TextCell h x size data)
    (hlt : start.toNat < size) (hw : start.toNat + len.toNat < 2 ^ 32)
    (hfit : ¬ (start.toNat = 0 ∧ size = 2 ^ 31 - 1 ∧ size ≤ len.toNat)) :
    SubstrClips h x size data start len := by
  have hs := ht.size_lt
  have hle := ht.size_le
  have hf := congrArg BitVec.toNat (substrFrom_of_lt hs hlt)
  have hl := substrLen_of_lt hs hlt hw
  refine ⟨?_, ?_⟩
  · rintro k ⟨-, hk⟩
    rw [hf, hl] at hk
    omega
  · obtain ⟨i, h', hal, hnew⟩ := allocSubstr_ok hok hroom ht hf hl (by omega) (by omega)
    rw [← clip_of_lt hlt (l := len.toNat) (by omega)] at hnew
    have hlen := clip_length hle start.toNat len.toNat
    rw [min_eq_left hlt.le] at hlen
    rw [← hlen] at hnew
    exact ⟨i, h', hal, hnew⟩

/-- Nothing is asked for at or behind the end of a non-empty string. -/
theorem substrClips_end (hok : h.FreeListOk) (hroom : 0 < h.room) (ht : TextCell h x size data)
    (hpos : 0 < size) (hle : size ≤ start.toNat) (hlen : len.toNat = 0) :
    SubstrClips h x size data start len := by
  have hs := ht.size_lt
  have hle' := ht.size_le
  have hf : (substrFrom (BitVec.ofNat 64 size) start).toNat = size - 1 := by
    rw [substrFrom_of_le hs hle, if_neg (by omega)]
  have hl : (substrLen (BitVec.ofNat 64 size) (substrFrom (BitVec.ofNat 64 size) start) len).toNat
      = 0 := by
    rw [substrLen_toNat hs, hf, hlen, if_neg (by omega)]
  have hclip : clip data size start.toNat len.toNat = [] := by
    rw [← List.length_eq_zero_iff, clip_length hle']
    omega
  refine ⟨?_, ?_⟩
  · rintro k ⟨hk, hk'⟩
    rw [hf, hl] at *
    omega
  · obtain ⟨i, h', hal, hnew⟩ := allocSubstr_ok hok hroom ht hf hl (by omega) (by omega)
    rw [hclip]
    exact ⟨i, h', hal, by simpa using hnew⟩

/-- A wrapped sum leaves `len` alone, and the copy runs past the string. -/
theorem not_substrClips_of_wrap (ht : TextCell h x size data)
    (hw : 2 ^ 32 ≤ (substrFrom (BitVec.ofNat 64 size) start).toNat + len.toNat)
    (hf : (substrFrom (BitVec.ofNat 64 size) start).toNat < size) :
    ¬ SubstrClips h x size data start len := by
  intro hc
  have hs := ht.size_lt
  have hlen := len.isLt
  have hl : (substrLen (BitVec.ofNat 64 size) (substrFrom (BitVec.ofNat 64 size) start) len).toNat =
      len.toNat := by
    rw [substrLen_toNat hs, if_neg (by omega)]
  have hk := hc.1 ((substrFrom (BitVec.ofNat 64 size) start).toNat + len.toNat - 1)
    ⟨by omega, by rw [hl]; omega⟩
  omega

/-- On the empty string the offset wraps to `2^32 - 1`, and one byte is read
    there. -/
theorem substr_empty (start len : BitVec 32) (hz : size = 0) :
    (substrFrom (BitVec.ofNat 64 size) start).toNat = 2 ^ 32 - 1 ∧
    (substrLen (BitVec.ofNat 64 size) (substrFrom (BitVec.ofNat 64 size) start) len).toNat = 1 := by
  have hlen := len.isLt
  have hf : (substrFrom (BitVec.ofNat 64 size) start).toNat = _ :=
    substrFrom_of_le (by omega) (by omega)
  rw [if_pos hz] at hf
  refine ⟨hf, ?_⟩
  rw [substrLen_toNat (by omega), hf]
  split
  · omega
  · omega

/-- Every `substr` of an empty string faults. -/
theorem allocSubstr_empty (hok : h.FreeListOk) (hroom : 0 < h.room) (ht : TextCell h x 0 data) :
    h.allocSubstr (.cell x) start len = .error .fault := by
  obtain ⟨hf, hl⟩ := substr_empty start len (rfl : 0 = 0)
  have hlt := ht.length_lt
  exact allocSubstr_outside hok hroom ht hf hl (by decide) (by omega)

/-- Behind the end a request for bytes gets the last byte, or reads outside. -/
theorem not_substrClips_end (hok : h.FreeListOk) (hroom : 0 < h.room) (ht : TextCell h x size data)
    (hle : size ≤ start.toNat) (hbad : size = 0 ∨ 0 < len.toNat) :
    ¬ SubstrClips h x size data start len := by
  have hs := ht.size_lt
  have hle' := ht.size_le
  have hf := substrFrom_of_le hs hle
  by_cases hz : size = 0
  · intro hc
    obtain ⟨hf, hl⟩ := substr_empty start len hz
    have hk := hc.1 (2 ^ 32 - 1) ⟨by omega, by omega⟩
    omega
  · rw [if_neg hz] at hf
    have hpos : 0 < len.toNat := hbad.resolve_left hz
    by_cases hw : 2 ^ 32 ≤ size - 1 + len.toNat
    · exact not_substrClips_of_wrap ht (by omega) (by omega)
    · have hl : (substrLen (BitVec.ofNat 64 size) (substrFrom (BitVec.ofNat 64 size) start)
          len).toNat = 1 := by
        rw [substrLen_toNat hs, hf]
        split
        · omega
        · omega
      rintro ⟨-, i, h', hal, hnew⟩
      obtain ⟨i', h'', hal', hnew'⟩ := allocSubstr_ok hok hroom ht hf hl (by omega) (by omega)
      rw [hal] at hal'
      obtain ⟨rfl, rfl⟩ := Prod.mk.inj (Except.ok.inj hal')
      obtain ⟨b, -, -, hc, -⟩ := hnew.buffer
      obtain ⟨b', -, -, hc', -⟩ := hnew'.buffer
      have hzero : (clip data size start.toNat len.toNat).length = 0 := by
        rw [clip_length hle']
        omega
      have hdr : Word.ofNat 0 = Word.ofNat 1 := by
        rw [hzero] at hc
        exact congrArg Cell.dr (hc.symm.trans hc')
      exact absurd hdr (by decide)

/-- `alloc_substr` is the clipped substring, reading inside the string only,
    exactly when the offset is inside the string and `from + len` does not
    wrap, or nothing is asked for behind the end of a non-empty string; and
    the storage must fit the `int` argument of `bytes_alloc`. -/
theorem substr_clips_iff (hok : h.FreeListOk) (hroom : 0 < h.room) (ht : TextCell h x size data) :
    SubstrClips h x size data start len ↔
      ((start.toNat < size ∧ start.toNat + len.toNat < 2 ^ 32) ∨
        (0 < size ∧ size ≤ start.toNat ∧ len.toNat = 0)) ∧
      ¬ (start.toNat = 0 ∧ size = 2 ^ 31 - 1 ∧ size ≤ len.toNat) := by
  constructor
  · intro hc
    have hs := ht.size_lt
    refine ⟨?_, ?_⟩
    · by_contra hno
      by_cases hlt : start.toNat < size
      · have hf := congrArg BitVec.toNat (substrFrom_of_lt hs hlt)
        exact not_substrClips_of_wrap ht (by omega) (by omega) hc
      · exact not_substrClips_end hok hroom ht (by omega) (by omega) hc
    · rintro ⟨h0, hsz, hlen⟩
      obtain ⟨-, i, h', hal, -⟩ := hc
      have hl := len.isLt
      rw [allocSubstr_fault hroom hok ht (by rw [substrLen_of_lt hs (by omega) (by omega)]; omega)]
        at hal
      exact absurd hal (by simp)
  · rintro ⟨⟨hlt, hw⟩ | ⟨hpos, hle, hlen⟩, hfit⟩
    · exact substrClips_inside hok hroom ht hlt hw hfit
    · exact substrClips_end hok hroom ht hpos hle hlen

end Substr

theorem substr_clips_abc :
    SubstrClips (textHeap 3 [97, 98, 99, 0]) 0 3 [97, 98, 99, 0] 1 2 ↔
      (((1 : BitVec 32).toNat < 3 ∧ (1 : BitVec 32).toNat + (2 : BitVec 32).toNat < 2 ^ 32) ∨
        (0 < 3 ∧ 3 ≤ (1 : BitVec 32).toNat ∧ (2 : BitVec 32).toNat = 0)) ∧
      ¬ ((1 : BitVec 32).toNat = 0 ∧ 3 = 2 ^ 31 - 1 ∧ 3 ≤ (2 : BitVec 32).toNat) :=
  substr_clips_iff (textHeap_freeListOk _ _) (by rw [textHeap_room]; decide)
    (textHeap_textCell (by decide) (by decide))

/-- The empty string: `(substr "" 0 0)` reads one byte at offset `2^32 - 1`. -/
theorem substr_empty_reads_outside :
    ¬ ∀ (h : Heap) (x size : ℕ) (data : List UInt8) (start len : BitVec 32), h.FreeListOk →
      0 < h.room → TextCell h x size data → SubstrClips h x size data start len := by
  intro hall
  have hc := hall (textHeap 0 [0]) 0 0 [0] 0 0 (textHeap_freeListOk _ _)
    (by rw [textHeap_room]; decide) (textHeap_textCell (by decide) (by decide))
  exact absurd (hc.1 (2 ^ 32 - 1) (by constructor <;> decide)) (by decide)

/-! ## `alloc_concat` -/

theorem wrapInt_of_range {n : ℤ} (hlo : -2 ^ 31 ≤ n) (hhi : n < 2 ^ 31) : wrapInt n = n := by
  unfold wrapInt
  rw [BitVec.toInt_ofInt, Int.bmod_eq_of_le (by omega) (by omega)]

theorem toSizeT_natCast {n : ℕ} (hn : n < 2 ^ 64) : toSizeT n = n := by
  unfold toSizeT
  omega

section Concat

variable {h : Heap} {x y sizeX sizeY : ℕ} {dataX dataY : List UInt8}

theorem zero_notMem_content (data : List UInt8) : 0 ∉ content data := by
  intro hm
  have hall := List.all_eq_true.mp (List.all_takeWhile (p := (· ≠ (0 : UInt8))) (l := data))
  simpa using hall 0 hm

/-- The contents end at the first NUL. -/
theorem content_append {s : List UInt8} (hs : 0 ∉ s) (rest : List UInt8) :
    content (s ++ 0 :: rest) = s := by
  unfold content
  rw [List.takeWhile_append_of_pos fun c hc => by
    simpa using fun h0 : c = 0 => hs (h0 ▸ hc)]
  simp

theorem exists_content {data : List UInt8} (hz : 0 ∈ data) :
    ∃ rest, data = content data ++ 0 :: rest := by
  induction data with
  | nil => exact absurd hz (by simp)
  | cons c data ih =>
    by_cases hc : c = 0
    · subst hc
      exact ⟨data, by simp [content]⟩
    · obtain ⟨rest, hd⟩ := ih ((List.mem_cons.mp hz).resolve_left fun h0 => hc h0.symm)
      refine ⟨rest, ?_⟩
      have hcons : content (c :: data) = c :: content data := by
        unfold content
        rw [List.takeWhile_cons_of_pos (by simpa using hc)]
      rw [hcons, List.cons_append, ← hd]

theorem content_length_lt {data : List UInt8} (hz : 0 ∈ data) :
    (content data).length < data.length := by
  obtain ⟨rest, hd⟩ := exists_content hz
  have hlen := congrArg List.length hd
  rw [List.length_append, List.length_cons] at hlen
  omega

/-- A text whose storage has a NUL is a C string. -/
theorem TextCell.cString (ht : TextCell h x sizeX dataX) (hz : 0 ∈ dataX) :
    cString h (h.cells x).ar = .ok (content dataX) := by
  obtain ⟨b, -, har, hbuf⟩ := ht.buffer
  rw [har]
  simp only [Writer.cString, cStringAt, Int.toNat_zero, List.drop_zero, hbuf, hz, le_refl, if_true]
  rfl

theorem allocConcat_eq (hx : TextCell h x sizeX dataX) (hy : TextCell h y sizeY dataY) :
    h.allocConcat (.cell x) (.cell y) = h.concatOf (h.cells x) (h.cells y) := by
  unfold allocConcat
  rw [if_neg (by simp), cellAt_cell, ok_bind, cellAt_cell, ok_bind, if_pos ⟨hx.tag, hy.tag⟩]

theorem strncpyBytes_exact (s : List UInt8) : strncpyBytes s s.length = s := by
  simp [strncpyBytes]

/-- The three stores of lines 443–445 into zeroed storage. -/
theorem concat_stores {h₁ : Heap} {b : ℕ} {s t : List UInt8}
    (hzero : h₁.bytes b = List.replicate (s.length + t.length + 2) 0) :
    (h₁.storeAt b 0 s >>= fun h => h.storeAt b s.length (t ++ [0, 0]) >>= fun h =>
      h.storeAt b (s.length + t.length + 1) [0]) = .ok (h₁.setBytes b (s ++ t ++ [0, 0])) := by
  have hstore₁ : h₁.storeAt b 0 s =
      .ok (h₁.setBytes b (s ++ List.replicate (t.length + 2) 0)) := by
    rw [storeAt_ok (by rw [hzero, List.length_replicate]; omega), hzero]
    simp only [List.take_zero, List.nil_append, Nat.zero_add, List.drop_replicate]
    rw [show s.length + t.length + 2 - s.length = t.length + 2 by omega]
  have hstore₂ : (h₁.setBytes b (s ++ List.replicate (t.length + 2) 0)).storeAt b s.length
      (t ++ [0, 0]) = .ok (h₁.setBytes b (s ++ (t ++ [0, 0]))) := by
    rw [storeAt_ok (by rw [setBytes_bytes_self]; simp), setBytes_bytes_self, setBytes_setBytes,
      List.take_left, List.drop_eq_nil_of_le (by simp), List.append_nil]
  have hsplit : s ++ (t ++ [0, 0]) = (s ++ t ++ [0]) ++ [(0 : UInt8)] := by simp
  rw [hstore₁, ok_bind, hstore₂, ok_bind, storeAt_ok (by rw [setBytes_bytes_self]; simp; omega),
    setBytes_bytes_self, setBytes_setBytes, hsplit, List.take_left' (by simp; omega),
    List.drop_eq_nil_of_le (by simp; omega)]
  simp

/-- The contents are appended, behind them two NULs. -/
theorem allocConcat_spec (hok : h.FreeListOk) (hroom : 0 < h.room) (hx : TextCell h x sizeX dataX)
    (hy : TextCell h y sizeY dataY) (hzx : 0 ∈ dataX) (hzy : 0 ∈ dataY)
    (hlt : (content dataX).length + (content dataY).length + 2 < 2 ^ 31) :
    ∃ i h', h.allocConcat (.cell x) (.cell y) = .ok (i, h') ∧
      NewText h i ((content dataX).length + (content dataY).length + 1)
        (content dataX ++ content dataY ++ [0, 0]) h' := by
  rw [allocConcat_eq hx hy]
  unfold concatOf
  rw [hx.cString hzx, ok_bind, hy.cString hzy, ok_bind]
  generalize content dataX = s at *
  generalize content dataY = t at *
  obtain ⟨i, h₁, hal, hk, hfr, hlive, hused, hzero, hrm⟩ :=
    allocText_spec hok hroom (s.length + t.length + 2)
  refine ⟨i, _, ?_, .of_fill hk hfr hlive hused hrm _ (s ++ t ++ [0, 0])⟩
  rw [toInt32_of_lt (by omega), toInt32_of_lt (by omega)]
  dsimp only
  have hnew : wrapInt ((s.length : ℤ) + t.length + 1) = (s.length + t.length + 1 : ℕ) := by
    rw [wrapInt_of_range (by omega) (by omega)]
    omega
  have hsum : wrapInt (((s.length + t.length + 1 : ℕ) : ℤ) + 1) =
      (s.length + t.length + 2 : ℕ) := by
    rw [wrapInt_of_range (by omega) (by omega)]
    omega
  have hpad : toSizeT (1 + ((s.length + t.length + 1 : ℕ) : ℤ) - s.length) = t.length + 2 := by
    rw [← toSizeT_natCast (n := t.length + 2) (by omega)]
    congr 1
    omega
  have htwo : strncpyBytes t (t.length + 2) = t ++ [0, 0] := by
    simp [strncpyBytes, List.replicate]
  rw [hnew, hsum, hal, ok_bind]
  dsimp only
  rw [hpad, toSizeT_natCast (by omega), strncpyBytes_exact, htwo, Int.toNat_natCast,
    Int.toNat_natCast]
  obtain ⟨h₂, hs₁, hrest⟩ := bind_ok.mp (concat_stores hzero)
  obtain ⟨h₃, hs₂, hs₃⟩ := bind_ok.mp hrest
  rw [hs₁, ok_bind, hs₂, ok_bind, hs₃, ok_bind]
  rfl

/-- Contents too long for the `int` argument of `bytes_alloc`. -/
theorem allocConcat_fault (hok : h.FreeListOk) (hroom : 0 < h.room) (hx : TextCell h x sizeX dataX)
    (hy : TextCell h y sizeY dataY) (hzx : 0 ∈ dataX) (hzy : 0 ∈ dataY)
    (hge : 2 ^ 31 ≤ (content dataX).length + (content dataY).length + 2) :
    h.allocConcat (.cell x) (.cell y) = .error .fault := by
  have hlx := content_length_lt hzx
  have hly := content_length_lt hzy
  have hdx := hx.length_lt
  have hdy := hy.length_lt
  rw [allocConcat_eq hx hy]
  unfold concatOf
  rw [hx.cString hzx, ok_bind, hy.cString hzy, ok_bind, toInt32_of_lt (by omega),
    toInt32_of_lt (by omega)]
  dsimp only
  generalize (content dataX).length = l at *
  generalize (content dataY).length = l' at *
  have hneg : wrapInt (wrapInt ((l : ℤ) + l' + 1) + 1) < 0 := by
    unfold wrapInt
    rw [BitVec.toInt_ofInt, BitVec.toInt_ofInt, Int.bmod_def, Int.bmod_def]
    omega
  rw [allocText_fault hok hroom hneg]
  rfl

end Concat

end Interim.Heap
