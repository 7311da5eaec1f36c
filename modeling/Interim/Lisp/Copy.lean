import Interim.Lisp.Lib

/-!
# `copy` of `lib.l`

The function `(copy buf from to num)` (`sledge/os/lib.l`, lines 62–83): when
`from < to` it copies from the last byte down, else from the first byte up.

* `copy_memmove` — the bytes `to .. to + num - 1` become the old bytes
  `from .. from + num - 1`, every other byte and the rest of the memory stay,
  for every overlap.

Both loops keep one invariant, `Moved`: a window of the destination holds the
old bytes of the source. In the direction the code chooses, the next source
byte is outside the window that has been written.
-/

namespace Interim.Lisp

open Heap
open Writer (cellAt)

/-! ## The function -/

/-- The locals of `copy` and the memory. -/
structure Copy where
  i : BitVec 64
  c : BitVec 64
  heap : Heap

/-- Lines 70–71 and 77–78: `(let c (get8 buf (+ from i)))` and
    `(put8 buf (+ to i) c)`. -/
def copyByte (buf : Word) (start dest : BitVec 64) (l : Copy) : Except Stop Copy := do
  let c ← get8 l.heap buf (start + l.i)
  let h ← put8 l.heap buf (dest + l.i) (boxInt c)
  .ok ⟨l.i, boxInt c, h⟩

/-- Lines 69–73: `(while (gt i -1) …)`. -/
def copyDown (fuel : ℕ) (buf : Word) (start dest : BitVec 64) : Copy → Except Stop Copy :=
  WhileLoop.loop .fuel (fun l => truth (gt l.i (-1)))
    (fun l => do
      let l ← copyByte buf start dest l
      .ok { l with i := boxInt (l.i - 1) })
    fuel

/-- Lines 76–80: `(while (lt i num) …)`. -/
def copyUp (fuel : ℕ) (buf : Word) (start dest num : BitVec 64) : Copy → Except Stop Copy :=
  WhileLoop.loop .fuel (fun l => truth (lt l.i num))
    (fun l => do
      let l ← copyByte buf start dest l
      .ok { l with i := boxInt (l.i + 1) })
    fuel

/-- Lines 63–81: `(if (lt from to) …)`. -/
def copyLoop (fuel : ℕ) (h : Heap) (buf : Word) (start dest num : BitVec 64) : Except Stop Copy :=
  if truth (lt start dest) then copyDown fuel buf start dest ⟨boxInt (num - 1), 0, h⟩
  else copyUp fuel buf start dest num ⟨0, 0, h⟩

/-- `(copy buf from to num)` (lines 62–83). -/
def copy (fuel : ℕ) (h : Heap) (buf : Word) (start dest num : BitVec 64) :
    Except Stop (BitVec 64 × Heap) := do
  let l ← copyLoop fuel h buf start dest num
  .ok (num, l.heap)

/-! ## The invariant -/

/-- `cur` is `data` after the bytes `a + lo .. a + hi - 1` were copied to
    `b + lo .. b + hi - 1`. -/
structure Moved (data cur : List UInt8) (a b lo hi : ℕ) : Prop where
  length : cur.length = data.length
  bytes : ∀ k, cur.getD k 0 =
    if b + lo ≤ k ∧ k < b + hi then data.getD (a + (k - b)) 0 else data.getD k 0

section Moved

variable {data cur : List UInt8} {a b lo hi j : ℕ}

theorem Moved.refl (data : List UInt8) (a b j : ℕ) : Moved data data a b j j :=
  ⟨rfl, fun k => by rw [if_neg (by omega)]⟩

theorem getD_set {k : ℕ} {c : UInt8} (hj : j < cur.length) :
    (cur.set j c).getD k 0 = if k = j then c else cur.getD k 0 := by
  by_cases hk : k = j
  · subst hk
    simp [List.getD, hj]
  · simp [List.getD, List.getElem?_set_ne (Ne.symm hk), hk]

/-- One more byte at the upper end of the window. -/
theorem Moved.up (hm : Moved data cur a b lo hi) (hle : lo ≤ hi) (hin : b + hi < data.length) :
    Moved data (cur.set (b + hi) (data.getD (a + hi) 0)) a b lo (hi + 1) := by
  refine ⟨by rw [List.length_set, hm.length], fun k => ?_⟩
  rw [getD_set (by rw [hm.length]; exact hin)]
  by_cases hk : k = b + hi
  · subst hk
    rw [if_pos rfl, if_pos (by omega), Nat.add_sub_cancel_left]
  · rw [if_neg hk, hm.bytes k]
    congr 1
    exact propext ⟨fun h => by omega, fun h => by omega⟩

/-- One more byte at the lower end. -/
theorem Moved.down (hm : Moved data cur a b (lo + 1) hi) (hlt : lo < hi)
    (hin : b + hi ≤ data.length) :
    Moved data (cur.set (b + lo) (data.getD (a + lo) 0)) a b lo hi := by
  refine ⟨by rw [List.length_set, hm.length], fun k => ?_⟩
  rw [getD_set (by rw [hm.length]; omega)]
  by_cases hk : k = b + lo
  · subst hk
    rw [if_pos rfl, if_pos (by omega), Nat.add_sub_cancel_left]
  · rw [if_neg hk, hm.bytes k]
    congr 1
    exact propext ⟨fun h => by omega, fun h => by omega⟩

/-- A source byte outside the window still has its old value. -/
theorem Moved.source (hm : Moved data cur a b lo hi) (hout : a + j < b + lo ∨ b + hi ≤ a + j) :
    cur.getD (a + j) 0 = data.getD (a + j) 0 := by
  rw [hm.bytes, if_neg (by omega)]

end Moved

/-! ## One byte -/

section CopyByte

variable {h : Heap} {x B sz : ℕ} {data cur : List UInt8} {l : Copy}

/-- Other contents of the same length in the buffer of a text. -/
theorem textCell_setBytes (ht : TextCell h x sz data) (hB : (h.cells x).ar = .ptr (.bytes B) 0)
    (hlen : cur.length = data.length) : TextCell (h.setBytes B cur) x sz cur := by
  obtain ⟨b, hb, har, -⟩ := ht.buffer
  rw [hB] at har
  obtain rfl : B = b := by simpa using har
  exact ⟨ht.live, ht.tag, ht.dr, ⟨B, hb, hB, setBytes_bytes_self h B cur⟩,
    hlen ▸ ht.size_le, hlen ▸ ht.length_lt⟩

theorem put8_text (ht : TextCell h x sz data) (hB : (h.cells x).ar = .ptr (.bytes B) 0) {k : ℕ}
    (hk : k < data.length) (c : UInt8) :
    put8 h (.cell x) (BitVec.ofInt 64 k) (BitVec.ofInt 64 c.toNat) =
      .ok (h.setBytes B (data.set k c)) := by
  obtain ⟨b, -, har, rfl⟩ := ht.buffer
  obtain rfl : B = b := by simpa using hB.symm.trans har
  have hbyte : UInt8.ofNat (BitVec.ofInt 64 (c.toNat : ℤ)).toNat = c := by
    have hc := c.toNat_lt
    rw [BitVec.ofInt_natCast, BitVec.toNat_ofNat, Nat.mod_eq_of_lt (by omega), UInt8.ofNat_toNat]
  unfold put8
  rw [cellAt_cell, ok_bind, address_text har (by omega) (by omega) ht.length_lt, ok_bind, hbyte,
    Int.toNat_natCast]

/-- `copyByte` at index `j`. -/
theorem copyByte_at {a b j : ℕ} (ht : TextCell h x sz data)
    (hB : (h.cells x).ar = .ptr (.bytes B) 0) (hlen : cur.length = data.length)
    (ha : a + j < data.length) (hb : b + j < data.length) (hi : l.i = BitVec.ofInt 64 j)
    (hh : l.heap = h.setBytes B cur) :
    ∃ c, copyByte (.cell x) (BitVec.ofNat 64 a) (BitVec.ofNat 64 b) l =
      .ok ⟨l.i, c, h.setBytes B (cur.set (b + j) (cur.getD (a + j) 0))⟩ := by
  have ht' := textCell_setBytes ht hB hlen
  refine ⟨BitVec.ofInt 64 (cur.getD (a + j) 0).toNat, ?_⟩
  unfold copyByte
  rw [hh, hi, ← BitVec.ofInt_natCast, ← BitVec.ofInt_natCast, ofInt_add_ofInt, ofInt_add_ofInt,
    ← Nat.cast_add, ← Nat.cast_add, get8_text ht' (by omega), ok_bind, boxInt_byte,
    put8_text ht' hB (by omega), ok_bind, setBytes_setBytes]

end CopyByte

/-! ## The loops -/

section Loops

variable {h : Heap} {x B sz a b n : ℕ} {data : List UInt8}

/-- The state of `copy` when the bytes `lo .. hi - 1` have been copied and `i`
    is next. -/
def Copy.At (h : Heap) (B : ℕ) (data : List UInt8) (a b lo hi : ℕ) (i : ℤ) (l : Copy) : Prop :=
  l.i = BitVec.ofInt 64 i ∧ ∃ cur, l.heap = h.setBytes B cur ∧ Moved data cur a b lo hi

theorem copyUp_round (ht : TextCell h x sz data) (hB : (h.cells x).ar = .ptr (.bytes B) 0)
    (hab : b ≤ a) (ha : a + n ≤ data.length) {l : Copy}
    (hl : ∃ j ≤ n, l.At h B data a b 0 j j)
    (hc : truth (lt l.i (BitVec.ofNat 64 n)) = true) :
    ∃ l', (copyByte (.cell x) (BitVec.ofNat 64 a) (BitVec.ofNat 64 b) l >>= fun l =>
        .ok { l with i := boxInt (l.i + 1) }) = .ok l' ∧
      (∃ j ≤ n, l'.At h B data a b 0 j j) ∧ n - l'.i.toNat < n - l.i.toNat := by
  obtain ⟨j, hj, hi, cur, hh, hm⟩ := hl
  have hlt := ht.length_lt
  rw [lt_eq_gt, hi, ← BitVec.ofInt_natCast, truth_gt (by omega) (by omega), decide_eq_true_eq] at hc
  obtain ⟨c, hbyte⟩ := copyByte_at ht hB hm.length (a := a) (b := b) (j := j) (by omega) (by omega)
    hi hh
  have hnext : boxInt (l.i + 1) = BitVec.ofInt 64 (j + 1 : ℕ) := by
    rw [hi, show (1 : BitVec 64) = BitVec.ofInt 64 1 from rfl, ofInt_add_ofInt,
      boxInt_ofInt (by omega) (by omega)]
    rfl
  -- the source byte is above what has been written
  rw [hm.source (by omega)] at hbyte
  rw [hbyte, ok_bind]
  refine ⟨_, rfl, ⟨j + 1, by omega, hnext, _, rfl, hm.up (by omega) (by omega)⟩, ?_⟩
  dsimp only
  rw [hnext, hi, BitVec.ofInt_natCast, BitVec.ofInt_natCast, BitVec.toNat_ofNat,
    BitVec.toNat_ofNat]
  omega

/-- The loop that goes up: the destination is not above the source. -/
theorem copyUp_spec (ht : TextCell h x sz data) (hB : (h.cells x).ar = .ptr (.bytes B) 0)
    (hab : b ≤ a) (ha : a + n ≤ data.length) {l : Copy} (hl : l.At h B data a b 0 0 0) :
    ∃ l', l'.At h B data a b 0 n n ∧ ∀ fuel, n < fuel →
      copyUp fuel (.cell x) (BitVec.ofNat 64 a) (BitVec.ofNat 64 b) (BitVec.ofNat 64 n) l =
        .ok l' := by
  have hlt := ht.length_lt
  obtain ⟨l', ⟨j, hj, hl'⟩, hexit, hrun⟩ := WhileLoop.loop_total Stop.fuel
    (fun _ => copyUp_round ht hB hab ha) ⟨0, Nat.zero_le n, hl⟩
  rw [lt_eq_gt, hl'.1, ← BitVec.ofInt_natCast, truth_gt (by omega) (by omega),
    decide_eq_false_iff_not] at hexit
  obtain rfl : j = n := by omega
  exact ⟨l', hl', fun fuel hf => hrun fuel (by omega)⟩

theorem copyDown_round (ht : TextCell h x sz data) (hB : (h.cells x).ar = .ptr (.bytes B) 0)
    (hab : a < b) (hb : b + n ≤ data.length) {l : Copy}
    (hl : ∃ j ≤ n, l.At h B data a b j n (j - 1)) (hc : truth (gt l.i (-1)) = true) :
    ∃ l', (copyByte (.cell x) (BitVec.ofNat 64 a) (BitVec.ofNat 64 b) l >>= fun l =>
        .ok { l with i := boxInt (l.i - 1) }) = .ok l' ∧
      (∃ j ≤ n, l'.At h B data a b j n (j - 1)) ∧
      (l'.i.toInt + 1).toNat < (l.i.toInt + 1).toNat := by
  obtain ⟨j, hj, hi, cur, hh, hm⟩ := hl
  have hlt := ht.length_lt
  rw [hi, show (-1 : BitVec 64) = BitVec.ofInt 64 (-1) from rfl, truth_gt (by omega) (by omega),
    decide_eq_true_eq] at hc
  obtain ⟨k, rfl⟩ : ∃ k, j = k + 1 := ⟨j - 1, by omega⟩
  have hi' : l.i = BitVec.ofInt 64 k := by
    rw [hi]
    congr 1
    omega
  obtain ⟨c, hbyte⟩ := copyByte_at ht hB hm.length (a := a) (b := b) (j := k) (by omega) (by omega)
    hi' hh
  have hnext : boxInt (l.i - 1) = BitVec.ofInt 64 (k - 1) := by
    rw [hi', show (1 : BitVec 64) = BitVec.ofInt 64 1 from rfl, ofInt_sub_ofInt,
      boxInt_ofInt (by omega) (by omega)]
  -- the source byte is below what has been written
  rw [hm.source (by omega)] at hbyte
  rw [hbyte, ok_bind]
  refine ⟨_, rfl, ⟨k, by omega, hnext, _, rfl, hm.down (by omega) hb⟩, ?_⟩
  dsimp only
  rw [hnext, hi', toInt_ofInt_of_range (by omega) (by omega),
    toInt_ofInt_of_range (by omega) (by omega)]
  omega

/-- The loop that goes down: the destination is above the source. -/
theorem copyDown_spec (ht : TextCell h x sz data) (hB : (h.cells x).ar = .ptr (.bytes B) 0)
    (hab : a < b) (hb : b + n ≤ data.length) {l : Copy} (hl : l.At h B data a b n n (n - 1)) :
    ∃ l', l'.At h B data a b 0 n (-1) ∧ ∀ fuel, n < fuel →
      copyDown fuel (.cell x) (BitVec.ofNat 64 a) (BitVec.ofNat 64 b) l = .ok l' := by
  have hlt := ht.length_lt
  obtain ⟨l', ⟨j, hj, hl'⟩, hexit, hrun⟩ := WhileLoop.loop_total Stop.fuel
    (fun _ => copyDown_round ht hB hab hb) ⟨n, le_rfl, hl⟩
  rw [hl'.1, show (-1 : BitVec 64) = BitVec.ofInt 64 (-1) from rfl,
    truth_gt (by omega) (by omega), decide_eq_false_iff_not] at hexit
  obtain rfl : j = 0 := by omega
  refine ⟨l', by simpa using hl', fun fuel hf => hrun fuel ?_⟩
  rw [hl.1, toInt_ofInt_of_range (by omega) (by omega)]
  omega

/-- The loop the code chooses copies the whole range. -/
theorem copyLoop_spec (ht : TextCell h x sz data) (hB : (h.cells x).ar = .ptr (.bytes B) 0)
    (ha : a + n ≤ data.length) (hb : b + n ≤ data.length) :
    ∃ (l : Copy) (cur : List UInt8), l.heap = h.setBytes B cur ∧ Moved data cur a b 0 n ∧
      ∀ fuel, n < fuel → copyLoop fuel h (.cell x) (BitVec.ofNat 64 a) (BitVec.ofNat 64 b)
        (BitVec.ofNat 64 n) = .ok l := by
  have hlt := ht.length_lt
  have hself : h = h.setBytes B data := by
    obtain ⟨b', -, har, hbuf⟩ := ht.buffer
    obtain rfl : B = b' := by simpa using hB.symm.trans har
    rw [← hbuf]
    simp [setBytes]
  have hcond : truth (lt (BitVec.ofNat 64 a) (BitVec.ofNat 64 b)) = decide (a < b) := by
    rw [lt_eq_gt, ← BitVec.ofInt_natCast, ← BitVec.ofInt_natCast, truth_gt (by omega) (by omega),
      decide_eq_decide]
    omega
  unfold copyLoop
  rw [hcond]
  by_cases hdir : a < b
  · have hi : boxInt (BitVec.ofNat 64 n - 1) = BitVec.ofInt 64 (n - 1) := by
      rw [← BitVec.ofInt_natCast, show (1 : BitVec 64) = BitVec.ofInt 64 1 from rfl,
        ofInt_sub_ofInt, boxInt_ofInt (by omega) (by omega)]
    obtain ⟨l, ⟨-, cur, hh, hm⟩, hrun⟩ := copyDown_spec ht hB hdir hb
      (l := ⟨boxInt (BitVec.ofNat 64 n - 1), 0, h⟩) ⟨hi, data, hself, .refl data a b n⟩
    refine ⟨l, cur, hh, hm, fun fuel hf => ?_⟩
    rw [if_pos (by simpa using hdir)]
    exact hrun fuel hf
  · obtain ⟨l, ⟨-, cur, hh, hm⟩, hrun⟩ := copyUp_spec ht hB (by omega) ha (l := ⟨0, 0, h⟩)
      ⟨rfl, data, hself, .refl data a b 0⟩
    refine ⟨l, cur, hh, hm, fun fuel hf => ?_⟩
    rw [if_neg (by simpa using hdir)]
    exact hrun fuel hf

end Loops

/-! ## `copy` is `memmove` -/

/-- For both ranges inside the storage, overlapping in any way, `copy` returns
    `num`; the bytes `to .. to + num - 1` are the old bytes
    `from .. from + num - 1`, every other byte is as before, and so is the rest
    of the memory. -/
theorem copy_memmove {h : Heap} {x sz : ℕ} {data : List UInt8} (ht : TextCell h x sz data)
    {start dest num : ℕ} (hsrc : start + num ≤ data.length) (hdst : dest + num ≤ data.length) :
    ∃ N b data', (h.cells x).ar = .ptr (.bytes b) 0 ∧
      (∀ fuel, N ≤ fuel → copy fuel h (.cell x) (BitVec.ofNat 64 start) (BitVec.ofNat 64 dest)
        (BitVec.ofNat 64 num) = .ok (BitVec.ofNat 64 num, h.setBytes b data')) ∧
      data'.length = data.length ∧ (∀ k < num, data'[dest + k]? = data[start + k]?) ∧
      ∀ k, k < dest ∨ dest + num ≤ k → data'[k]? = data[k]? := by
  obtain ⟨B, -, hB, -⟩ := ht.buffer
  obtain ⟨l, cur, hh, hm, hrun⟩ := copyLoop_spec ht hB hsrc hdst
  refine ⟨num + 1, B, cur, hB, fun fuel hf => ?_, hm.length, fun k hk => ?_, fun k hk => ?_⟩
  · unfold copy
    rw [hrun fuel hf, ok_bind, hh]
  · have hb := hm.bytes (dest + k)
    rw [if_pos (by omega), Nat.add_sub_cancel_left] at hb
    have hk₁ : dest + k < cur.length := by rw [hm.length]; omega
    have hk₂ : start + k < data.length := by omega
    simpa [List.getD, hk₁, hk₂] using hb
  · have hb := hm.bytes k
    rw [if_neg (by omega)] at hb
    by_cases hkl : k < data.length
    · have hk₁ : k < cur.length := by rw [hm.length]; exact hkl
      simpa [List.getD, hk₁, hkl] using hb
    · rw [List.getElem?_eq_none (by rw [hm.length]; omega), List.getElem?_eq_none (by omega)]

/-- `abcd`, the first three bytes moved up by one. -/
theorem copy_memmove_abcd :
    ∃ N b data', ((textHeap 4 [97, 98, 99, 100, 0]).cells 0).ar = .ptr (.bytes b) 0 ∧
      (∀ fuel, N ≤ fuel → copy fuel (textHeap 4 [97, 98, 99, 100, 0]) (.cell 0)
        (BitVec.ofNat 64 0) (BitVec.ofNat 64 1) (BitVec.ofNat 64 3) =
        .ok (BitVec.ofNat 64 3, (textHeap 4 [97, 98, 99, 100, 0]).setBytes b data')) ∧
      data'.length = 5 ∧
      (∀ k < 3, data'[1 + k]? = [(97 : UInt8), 98, 99, 100, 0][0 + k]?) ∧
      ∀ k, k < 1 ∨ 1 + 3 ≤ k → data'[k]? = [(97 : UInt8), 98, 99, 100, 0][k]? :=
  copy_memmove (textHeap_textCell (by decide) (by decide)) (by decide) (by decide)

end Interim.Lisp
