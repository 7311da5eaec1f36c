import Interim.Lisp.Lib

/-!
# Surfaces

The `surface` of `sledge/os/gfx.l` and what the drawing functions use besides
the integer builtins: `shl`, `get16` and `put16`, `abs`, `not` and `set-pixel`.

Compiled code does not check the bounds of a buffer, so memory is a function of
the address; `pixels` is the address of the storage. The fields of a surface are
kept apart from it.
-/

namespace Interim.Gfx

open Heap Lisp

/-- Memory, by address. -/
abbrev Mem := BitVec 64 → UInt8

/-- `(struct surface …)` (`gfx.l`, lines 2–9), with the address of the pixels. -/
structure Surface where
  width : BitVec 64
  height : BitVec 64
  shift : BitVec 64
  pitch : BitVec 64
  x : BitVec 64
  y : BitVec 64
  pixels : BitVec 64

/-! ## Builtins -/

/-- `(shl a b)`. -/
def shl (a b : BitVec 64) : BitVec 64 := a <<< (b.toNat % 64)

theorem opVal_shl (a b : BitVec 64) : Machine.opVal a b .shl = some (shl a b) := rfl

/-- `(/ a b)`; a division the machine cannot do is a fault. -/
def div (a b : BitVec 64) : Except Stop (BitVec 64) :=
  match Machine.opVal a b .div with
  | some q => .ok q
  | none => .error .fault

/-- `(get16 pixels ofs)` (`compiler_new.c`, lines 1425–1479). -/
def get16 (m : Mem) (pixels ofs : BitVec 64) : BitVec 64 :=
  BitVec.ofNat 64 ((m (pixels + ofs)).toNat + 256 * (m (pixels + ofs + 1)).toNat)

/-- `(put16 pixels ofs v)` (lines 1508–1534). -/
def put16 (m : Mem) (pixels ofs v : BitVec 64) : Mem := fun p =>
  if p = pixels + ofs + 1 then UInt8.ofNat (v.toNat / 256)
  else if p = pixels + ofs then UInt8.ofNat v.toNat
  else m p

/-- `(abs a)` (`lib.l`, line 136). -/
def abs (a : BitVec 64) : BitVec 64 :=
  if truth (lt (boxInt a) 0) then boxInt (0 - boxInt a) else boxInt a

/-- `(not a)` (`lib.l`, line 7). -/
def not (a : BitVec 64) : BitVec 64 := if truth (boxInt a) then 0 else 1

/-- `(set-pixel surf x y c)` (`gfx.l`, lines 30–36). -/
def setPixel (s : Surface) (m : Mem) (x y c : BitVec 64) : Mem :=
  let ofs := boxInt (y * s.pitch + shl x s.shift)
  put16 m s.pixels ofs c

/-! ## Pixels -/

/-- A surface of 16-bit pixels: a row is `width` pixels, and the pixels are
    `pitch * height` bytes, the size of a cell (an `int`). -/
structure Surface16 (s : Surface) (W H : ℕ) : Prop where
  width : s.width = BitVec.ofInt 64 W
  height : s.height = BitVec.ofInt 64 H
  shift : s.shift = 1
  pitch : s.pitch = BitVec.ofInt 64 (2 * W)
  rows : 2 * W < 2 ^ 31 ∧ H < 2 ^ 31
  size : 2 * W * H < 2 ^ 31

/-- The distance of an address from the pixels. -/
def offset (pixels p : BitVec 64) : ℕ := (p - pixels).toNat

/-- Byte `k` of a 16-bit value in memory. -/
def byte16 (v : BitVec 64) (k : ℕ) : UInt8 :=
  if k % 2 = 0 then UInt8.ofNat v.toNat else UInt8.ofNat (v.toNat / 256)

/-- The value of a pixel that is set to `v`. -/
def low16 (v : BitVec 64) : BitVec 64 := BitVec.ofNat 64 (v.toNat % 2 ^ 16)

/-- The memory in which the pixels of `P`, counted from the first one on, have the
    values `v`. -/
def overlay (m : Mem) (pixels : BitVec 64) (P : ℕ → Bool) (v : ℕ → BitVec 64) : Mem := fun p =>
  if P (offset pixels p / 2) then byte16 (v (offset pixels p / 2)) (offset pixels p) else m p

section Overlay

variable {m : Mem} {pixels : BitVec 64} {P Q : ℕ → Bool} {v : ℕ → BitVec 64} {n : ℕ}

theorem offset_eq_iff {k : ℕ} (hk : k < 2 ^ 64) (p : BitVec 64) :
    offset pixels p = k ↔ p = pixels + BitVec.ofInt 64 k := by
  unfold offset
  rw [BitVec.ofInt_natCast]
  constructor
  · rintro rfl
    rw [BitVec.ofNat_toNat, BitVec.setWidth_eq, BitVec.add_comm, BitVec.sub_add_cancel]
  · rintro rfl
    rw [BitVec.add_comm, BitVec.add_sub_cancel]
    exact Nat.mod_eq_of_lt hk

theorem overlay_false (m : Mem) (hP : ∀ n, P n = false) : overlay m pixels P v = m := by
  funext p
  unfold overlay
  rw [hP]
  rfl

theorem overlay_congr (hPQ : ∀ n, P n = Q n) : overlay m pixels P v = overlay m pixels Q v := by
  rw [funext hPQ]

theorem ofInt_succ (k : ℕ) : BitVec.ofInt 64 (k + 1 : ℕ) = BitVec.ofInt 64 (k : ℕ) + 1 := by
  rw [show (1 : BitVec 64) = BitVec.ofInt 64 1 from rfl, ofInt_add_ofInt]
  rfl

/-- One more pixel. -/
theorem put16_overlay (hn : 2 * n + 1 < 2 ^ 64) :
    put16 (overlay m pixels P v) pixels (BitVec.ofInt 64 (2 * n : ℕ)) (v n) =
      overlay m pixels (fun k => P k || k == n) v := by
  funext p
  have hlow := @offset_eq_iff pixels (2 * n) (by omega) p
  have hhigh := @offset_eq_iff pixels (2 * n + 1) (by omega) p
  rw [ofInt_succ, ← BitVec.add_assoc] at hhigh
  unfold put16 overlay
  dsimp only
  generalize offset pixels p = o at *
  have hin : (P n || n == n) = true := by simp
  by_cases h1 : o = 2 * n + 1
  · rw [if_pos (hhigh.mp h1), show o / 2 = n by omega, if_pos hin]
    unfold byte16
    rw [if_neg (by omega)]
  · rw [if_neg (mt hhigh.mpr h1)]
    by_cases h0 : o = 2 * n
    · rw [if_pos (hlow.mp h0), show o / 2 = n by omega, if_pos hin]
      unfold byte16
      rw [if_pos (by omega)]
    · have hout : (P (o / 2) || o / 2 == n) = P (o / 2) := by
        simp [show o / 2 ≠ n by omega]
      rw [if_neg (mt hlow.mpr h0)]
      simp only [hout]

/-- A pixel of the overlay. -/
theorem get16_overlay (hn : 2 * n + 1 < 2 ^ 64) :
    get16 (overlay m pixels P v) pixels (BitVec.ofInt 64 (2 * n : ℕ)) =
      if P n then low16 (v n) else get16 m pixels (BitVec.ofInt 64 (2 * n : ℕ)) := by
  have hlow := (@offset_eq_iff pixels (2 * n) (by omega) _).mpr rfl
  have hhigh := (@offset_eq_iff pixels (2 * n + 1) (by omega) _).mpr rfl
  rw [ofInt_succ, ← BitVec.add_assoc] at hhigh
  unfold get16 overlay
  rw [hlow, hhigh, show 2 * n / 2 = n by omega, show (2 * n + 1) / 2 = n by omega]
  cases hP : P n
  · rfl
  · rw [if_pos rfl, if_pos rfl, if_pos rfl]
    unfold byte16 low16
    rw [if_pos (by omega), if_neg (by omega), UInt8.toNat_ofNat', UInt8.toNat_ofNat']
    congr 1
    omega

/-- A value outside the overlay. -/
theorem get16_outside {src ofs : BitVec 64} (hlow : P (offset pixels (src + ofs) / 2) = false)
    (hhigh : P (offset pixels (src + ofs + 1) / 2) = false) :
    get16 (overlay m pixels P v) src ofs = get16 m src ofs := by
  unfold get16 overlay
  rw [hlow, hhigh]
  rfl

theorem get16_lt (m : Mem) (pixels ofs : BitVec 64) : (get16 m pixels ofs).toNat < 2 ^ 16 := by
  have hlow := (m (pixels + ofs)).toNat_lt
  have hhigh := (m (pixels + ofs + 1)).toNat_lt
  unfold get16
  rw [BitVec.toNat_ofNat]
  omega

theorem low16_get16 (m : Mem) (ofs : BitVec 64) :
    low16 (get16 m pixels ofs) = get16 m pixels ofs := by
  unfold low16
  rw [Nat.mod_eq_of_lt (get16_lt m pixels ofs), BitVec.ofNat_toNat, BitVec.setWidth_eq]

theorem boxInt_get16 (m : Mem) (ofs : BitVec 64) :
    boxInt (get16 m pixels ofs) = get16 m pixels ofs := by
  have hlt := get16_lt m pixels ofs
  have hint : (get16 m pixels ofs).toInt = (get16 m pixels ofs).toNat :=
    BitVec.toInt_eq_toNat_of_lt (by omega)
  rw [Machine.boxInt_eq_iff]
  omega

end Overlay

/-! ## Boxes of pixels -/

/-- The pixel in column `i` and row `j` of a surface of width `W`. -/
def pixel (m : Mem) (pixels : BitVec 64) (W i j : ℕ) : BitVec 64 :=
  get16 m pixels (BitVec.ofInt 64 (2 * (j * W + i) : ℕ))

/-- The pixels, counted from the first one on, in the columns `a ..< b` and the
    rows `c ..< d` of a surface of width `W`. -/
def inBox (W : ℕ) (a b c d : ℤ) (n : ℕ) : Bool :=
  decide (a ≤ (n % W : ℕ) ∧ ((n % W : ℕ) : ℤ) < b ∧ c ≤ (n / W : ℕ) ∧ ((n / W : ℕ) : ℤ) < d)

theorem inBox_eq_false {W n : ℕ} {a b c d : ℤ} (h : b ≤ a ∨ d ≤ c) : inBox W a b c d n = false := by
  unfold inBox
  rw [decide_eq_false_iff_not]
  omega

/-- The pixels of one row lie next to each other. -/
theorem inBox_row {W n a b j : ℕ} (hb : b ≤ W) :
    inBox W a b j (j + 1) n = decide (j * W + a ≤ n ∧ n < j * W + b) := by
  unfold inBox
  rw [decide_eq_decide]
  have hdiv := Nat.div_add_mod n W
  have hcomm : W * (n / W) = n / W * W := mul_comm _ _
  constructor
  · rintro ⟨h1, h2, h3, h4⟩
    obtain rfl : n / W = j := by omega
    omega
  · rintro ⟨h1, h2⟩
    have hpos : 0 < W := by omega
    have hmod := Nat.mod_lt n hpos
    have hj : n / W = j := by
      apply Nat.div_eq_of_lt_le
      · omega
      · rw [add_mul]
        omega
    rw [hj] at hdiv hcomm ⊢
    omega

/-- One more row. -/
theorem inBox_succ {W n : ℕ} {a b c d : ℤ} (hcd : c ≤ d) :
    (inBox W a b c d n || inBox W a b d (d + 1) n) = inBox W a b c (d + 1) n := by
  unfold inBox
  rw [← Bool.decide_or, decide_eq_decide]
  omega

/-- The point `(i, j)` is in the rectangle of size `w × h` at `(x, y)`. -/
def rectangle (x y w h i j : ℤ) : Prop := x ≤ i ∧ i < x + w ∧ y ≤ j ∧ j < y + h

section Box

variable {W H : ℕ}

theorem row_le {b j : ℕ} (hb : b ≤ W) (hj : j < H) : 2 * (j * W + b) ≤ 2 * W * H := by
  have hmul : (j + 1) * W ≤ H * W := Nat.mul_le_mul_right W hj
  have hcomm : 2 * W * H = 2 * (H * W) := by ring
  rw [add_mul] at hmul
  omega

theorem row_bound {b j : ℕ} (hsize : 2 * W * H < 2 ^ 31) (hb : b ≤ W) (hj : j < H) :
    2 * (j * W + b) < 2 ^ 31 :=
  lt_of_le_of_lt (row_le hb hj) hsize

/-- The bytes of a pixel are bytes of the surface. -/
theorem inside_size {i j : ℕ} (hi : i < W) (hj : j < H) : 2 * (j * W + i) + 1 < 2 * W * H := by
  have hle := row_le (b := i + 1) hi hj
  omega

/-- The index of a pixel fits. -/
theorem index_lt {s : Surface} (hs : Surface16 s W H) {i j : ℕ} (hi : i < W) (hj : j < H) :
    2 * (j * W + i) + 1 < 2 ^ 64 := by
  have hlt := inside_size hi hj
  have hsize := hs.size
  omega

/-- The column and the row of a pixel. -/
theorem index_mod_div {i : ℕ} (hi : i < W) (j : ℕ) :
    (j * W + i) % W = i ∧ (j * W + i) / W = j := by
  constructor
  · rw [add_comm, Nat.add_mul_mod_self_right, Nat.mod_eq_of_lt hi]
  · rw [add_comm, Nat.add_mul_div_right _ _ (by omega), Nat.div_eq_of_lt hi, Nat.zero_add]

theorem index_inj {i j i' j' : ℕ} (hi : i < W) (hi' : i' < W) (h : j * W + i = j' * W + i') :
    i = i' ∧ j = j' := by
  obtain ⟨hmod, hdiv⟩ := index_mod_div hi j
  obtain ⟨hmod', hdiv'⟩ := index_mod_div hi' j'
  rw [h] at hmod hdiv
  exact ⟨hmod.symm.trans hmod', hdiv.symm.trans hdiv'⟩

theorem inBox_pixel {a b c d : ℤ} {i j : ℕ} (hi : i < W) :
    inBox W a b c d (j * W + i) = decide (a ≤ i ∧ (i : ℤ) < b ∧ c ≤ j ∧ (j : ℤ) < d) := by
  obtain ⟨hmod, hdiv⟩ := index_mod_div hi j
  unfold inBox
  rw [hmod, hdiv]

/-- A pixel of a box on the surface, by its column and row. -/
theorem inBox_split {n : ℕ} {a b c d : ℤ} (hb : b ≤ W) (hd : d ≤ H)
    (hin : inBox W a b c d n = true) : n % W < W ∧ n / W < H ∧ n = n / W * W + n % W := by
  have hdiv := Nat.div_add_mod n W
  have hcomm : W * (n / W) = n / W * W := mul_comm _ _
  unfold inBox at hin
  rw [decide_eq_true_eq] at hin
  omega

end Box

/-! ## Integers in range -/

/-- An integer of the language: `alloc_int` keeps 32 bits. -/
def Int32 (a : ℤ) : Prop := -2 ^ 31 ≤ a ∧ a < 2 ^ 31

section Range

variable {a b : ℤ}

theorem abs_ofInt (hlo : -2 ^ 31 < a) (hhi : a < 2 ^ 31) :
    abs (BitVec.ofInt 64 a) = BitVec.ofInt 64 a.natAbs := by
  have hzero : (0 : BitVec 64) = BitVec.ofInt 64 0 := rfl
  unfold abs
  rw [boxInt_ofInt (by omega) hhi, hzero, truth_lt (by omega) (by omega), ofInt_sub_ofInt,
    boxInt_ofInt (by omega) (by omega)]
  by_cases hneg : a < 0
  · rw [if_pos (decide_eq_true hneg)]
    congr 1
    omega
  · rw [if_neg (by simpa using hneg)]
    congr 1
    omega

/-- The sum of two integers of the language, as `alloc_int` keeps it; it is only
    used where it does not pass the lower end. -/
def wrap (a : ℤ) : ℤ := if a < 2 ^ 31 then a else a - 2 ^ 32

theorem boxInt_wrap (hlo : -2 ^ 31 ≤ a) (hhi : a < 2 ^ 32) :
    boxInt (BitVec.ofInt 64 a) = BitVec.ofInt 64 (wrap a) := by
  have hbox : (boxInt (BitVec.ofInt 64 a)).toInt = ((BitVec.ofInt 64 a).toNat : ℤ).bmod (2 ^ 32) := by
    unfold boxInt
    rw [BitVec.toInt_signExtend_of_le (by decide), BitVec.truncate_eq_setWidth, BitVec.toInt_setWidth]
  have hnat : ((BitVec.ofInt 64 a).toNat : ℤ) = a % 2 ^ 64 := by
    rw [BitVec.toNat_ofInt, Int.toNat_of_nonneg (Int.emod_nonneg _ (by norm_num))]
    rfl
  apply BitVec.eq_of_toInt_eq
  unfold wrap
  rw [hbox, hnat, toInt_ofInt_of_range (by split <;> omega) (by split <;> omega), Int.bmod_def]
  split_ifs <;> omega

/-- Twice an integer. -/
theorem shl_one (a : ℤ) : shl (BitVec.ofInt 64 a) 1 = BitVec.ofInt 64 (2 * a) := by
  unfold shl
  change BitVec.ofInt 64 a <<< 1 = _
  rw [BitVec.shiftLeft_eq_mul_twoPow, two_mul, ← ofInt_add_ofInt]
  bv_omega

/-- Half of an integer, truncated. -/
theorem div_two (hlo : -2 ^ 31 ≤ a) (hhi : a < 2 ^ 31) :
    div (BitVec.ofInt 64 a) 2 = .ok (BitVec.ofInt 64 (a.tdiv 2)) := by
  have htwo : (2 : BitVec 64).toInt = 2 := rfl
  have habs : (a.tdiv 2).natAbs = a.natAbs / 2 := Int.natAbs_tdiv a 2
  unfold div Machine.opVal
  dsimp only
  rw [toInt_ofInt_of_range (by omega) (by omega), htwo, if_neg]
  rintro (h | h)
  · exact absurd h (by decide)
  · omega

theorem truth_not (v : BitVec 64) : truth (not v) = !truth (boxInt v) := by
  unfold not
  cases truth (boxInt v)
  · rfl
  · rfl

/-- `(and (eq a b) (eq c d))`. -/
theorem truth_and_eq (a b c d : BitVec 64) :
    truth (boxInt (Lisp.and (eq a b) (eq c d))) = decide (a = b ∧ c = d) := by
  unfold Lisp.eq
  by_cases hab : a = b
  · by_cases hcd : c = d
    · rw [if_pos hab, if_pos hcd, decide_eq_true ⟨hab, hcd⟩]
      decide
    · rw [if_pos hab, if_neg hcd, decide_eq_false (fun h => hcd h.2)]
      decide
  · rw [if_neg hab, decide_eq_false (fun h => hab h.1)]
    by_cases hcd : c = d
    · rw [if_pos hcd]
      decide
    · rw [if_neg hcd]
      decide

end Range

end Interim.Gfx
