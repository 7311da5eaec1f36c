import Interim.Gfx.Surface

/-!
# `boxfill` of `gfx.l`

The function `(boxfill surf x y w h color)` (`sledge/os/gfx.l`, lines 211–244). It
moves a negative corner to 0, cuts the size where the rectangle leaves the
surface at the far edge, and fills row by row.

* `boxfill_overlay` — what is filled, for all integers: the rectangle of the
  given size at the moved corner, as far as it is on the surface.
* `boxfill_paints_iff` — that is the visible part of the rectangle exactly when
  nothing is visible either way, or each negative coordinate belongs to a side
  that reaches the far edge. Otherwise moving the corner without reducing the
  size fills too much.
-/

namespace Interim.Gfx

open Heap Lisp

/-! ## The function -/

/-- The locals that the loops of `boxfill` change, and the memory. -/
structure Boxfill where
  xi : BitVec 64
  yi : BitVec 64
  ofs : BitVec 64
  mem : Mem

/-- Lines 212–213: `(if (lt x 0) (let x 0) 0)`. -/
def clipStart (x : BitVec 64) : BitVec 64 := if truth (lt x 0) then 0 else x

/-- Lines 217–218: `(if (gt (+ x w) (- dw 1)) (let w (- dw x)) 0)`. -/
def clipSize (x w dw : BitVec 64) : BitVec 64 :=
  if truth (gt (x + w) (dw - 1)) then boxInt (dw - x) else w

/-- Lines 235–239: the loop over one row. -/
def boxfillRow (fuel : ℕ) (pixels color xx : BitVec 64) : Boxfill → Except Stop Boxfill :=
  WhileLoop.loop .fuel (fun l => truth (lt l.xi xx))
    (fun l => .ok { l with
      mem := put16 l.mem pixels l.ofs color
      xi := boxInt (l.xi + 1)
      ofs := boxInt (l.ofs + 2) })
    fuel

/-- Lines 234–241: one row. -/
def boxfillBody (fuel : ℕ) (pixels color x xx pitch ww : BitVec 64) (l : Boxfill) :
    Except Stop Boxfill := do
  let l ← boxfillRow fuel pixels color xx { l with xi := boxInt (x + 0) }
  .ok { l with
    ofs := boxInt (l.ofs + pitch - ww)
    yi := boxInt (l.yi + 1) }

/-- `(boxfill surf x y w h color)` (lines 211–244): the memory when it returns. -/
def boxfill (fuel : ℕ) (s : Surface) (m : Mem) (x y w h color : BitVec 64) : Except Stop Mem := do
  let x := clipStart x
  let y := clipStart y
  let w := clipSize x w s.width
  let h := clipSize y h s.height
  let xx := boxInt (x + w)
  let yy := boxInt (y + h)
  let ww := boxInt (shl w 1)
  let ofs := boxInt (y * s.pitch + shl x 1)
  let l ← WhileLoop.loop .fuel (fun l => truth (lt l.yi yy))
    (boxfillBody fuel s.pixels color x xx s.pitch ww) fuel ⟨boxInt (x + 0), boxInt (y + 0), ofs, m⟩
  .ok l.mem

/-! ## Clipping -/

/-- The moved corner. -/
def first (x : ℤ) : ℤ := max x 0

/-- The end of the rectangle behind the moved corner, on a surface of size `n`. -/
def last (x w : ℤ) (n : ℕ) : ℤ := min (first x + w) n

section Clip

variable {x w : ℤ} {n : ℕ}

theorem clipStart_ofInt (hx : Int32 x) : clipStart (BitVec.ofInt 64 x) = BitVec.ofInt 64 (first x) := by
  obtain ⟨hlo, hhi⟩ := hx
  have hzero : (0 : BitVec 64) = BitVec.ofInt 64 0 := rfl
  unfold clipStart first
  rw [hzero, truth_lt (by omega) (by omega)]
  by_cases hneg : x < 0
  · rw [if_pos (decide_eq_true hneg), max_eq_right (by omega)]
  · rw [if_neg (by simpa using hneg), max_eq_left (by omega)]

/-- The size after clipping ends where the rectangle leaves the surface. -/
theorem clipSize_ofInt (hx : Int32 x) (hw : Int32 w) (hn : n < 2 ^ 31) :
    clipSize (BitVec.ofInt 64 (first x)) (BitVec.ofInt 64 w) (BitVec.ofInt 64 n) =
      BitVec.ofInt 64 (last x w n - first x) := by
  obtain ⟨hxl, hxh⟩ := hx
  obtain ⟨hwl, hwh⟩ := hw
  have hone : (1 : BitVec 64) = BitVec.ofInt 64 1 := rfl
  unfold clipSize last first
  rw [hone, ofInt_add_ofInt, ofInt_sub_ofInt, ofInt_sub_ofInt, truth_gt (by omega) (by omega)]
  by_cases hgt : (n : ℤ) - 1 < max x 0 + w
  · rw [if_pos (decide_eq_true hgt), boxInt_ofInt (by omega) (by omega)]
    congr 1
    omega
  · rw [if_neg (by simpa using hgt)]
    congr 1
    omega

end Clip

/-! ## The loops -/

section Rows

variable {W H a b j : ℕ} {m : Mem} {pixels color : BitVec 64} {P : ℕ → Bool} {l : Boxfill}

/-- The locals after `k` pixels of row `j`. -/
def rowAt (W a j : ℕ) (m : Mem) (pixels color : BitVec 64) (P : ℕ → Bool) (yi : BitVec 64) (k : ℕ) :
    Boxfill where
  xi := BitVec.ofInt 64 (a + k : ℕ)
  yi := yi
  ofs := BitVec.ofInt 64 (2 * (j * W + a + k) : ℕ)
  mem := overlay m pixels (fun n => P n || decide (j * W + a ≤ n ∧ n < j * W + a + k)) fun _ => color

/-- The loop over one row fills it from column `a` to column `b`. -/
theorem boxfillRow_run (hsize : 2 * W * H < 2 ^ 31) (hW : W < 2 ^ 31) (hab : a ≤ b) (hb : b ≤ W)
    (hj : j < H) (yi : BitVec 64) {fuel : ℕ} (hf : b - a < fuel) :
    boxfillRow fuel pixels color (BitVec.ofInt 64 b) (rowAt W a j m pixels color P yi 0) =
      .ok (rowAt W a j m pixels color P yi (b - a)) := by
  have hbound := row_bound hsize hb hj
  obtain ⟨k, rfl⟩ := Nat.exists_eq_add_of_lt hf
  unfold boxfillRow
  rw [Nat.add_assoc, WhileLoop.loop_rounds (rowAt W a j m pixels color P yi), WhileLoop.loop_exit]
  · unfold rowAt
    rw [truth_lt (by omega) (by omega), decide_eq_false (by omega)]
  · intro i hi
    unfold rowAt
    dsimp only
    have hput := @put16_overlay m pixels
      (fun n => P n || decide (j * W + a ≤ n ∧ n < j * W + a + i)) (fun _ => color)
      (j * W + a + i) (by omega)
    have hP : ∀ n, (P n || decide (j * W + a ≤ n ∧ n < j * W + a + i) || n == j * W + a + i) =
        (P n || decide (j * W + a ≤ n ∧ n < j * W + a + (i + 1))) := by
      intro n
      rw [Bool.or_assoc, beq_eq_decide, ← Bool.decide_or]
      congr 2
      rw [eq_iff_iff]
      omega
    rw [truth_lt (by omega) (by omega), hput, overlay_congr hP]
    refine ⟨decide_eq_true (by omega), ?_⟩
    have hone : (1 : BitVec 64) = BitVec.ofInt 64 1 := rfl
    have htwo : (2 : BitVec 64) = BitVec.ofInt 64 2 := rfl
    rw [hone, htwo, boxInt_add (by omega) (by omega), boxInt_add (by omega) (by omega)]
    rfl

end Rows

/-- The locals before the row that follows `r` rows. Where there are no columns,
    the position is left open. -/
structure Filled (s : Surface) (W : ℕ) (color : BitVec 64) (m : Mem) (a b c d : ℤ) (r : ℕ)
    (l : Boxfill) : Prop where
  yi : l.yi = BitVec.ofInt 64 (c + r)
  mem : l.mem = overlay m s.pixels (inBox W a b c (c + r)) fun _ => color
  ofs : a < b → c + r < d → l.ofs = BitVec.ofInt 64 (2 * ((c + r) * W + a))

section Loop

variable {s : Surface} {W H r fuel : ℕ} {m : Mem} {color : BitVec 64} {a b c d : ℤ} {l : Boxfill}

/-- One row. -/
theorem Filled.round (hs : Surface16 s W H) (ha : 0 ≤ a ∧ a < 2 ^ 31) (hb : -2 ^ 31 ≤ b ∧ b ≤ W)
    (hc : 0 ≤ c) (hd : d ≤ H) (hf : W < fuel) (hl : Filled s W color m a b c d r l)
    (hr : c + r < d) :
    ∃ l', boxfillBody fuel s.pixels color (BitVec.ofInt 64 a) (BitVec.ofInt 64 b) s.pitch
        (boxInt (shl (BitVec.ofInt 64 (b - a)) 1)) l = .ok l' ∧
      Filled s W color m a b c d (r + 1) l' := by
  have hW := hs.rows
  have hsize := hs.size
  have hzero : (0 : BitVec 64) = BitVec.ofInt 64 0 := rfl
  have hone : (1 : BitVec 64) = BitVec.ofInt 64 1 := rfl
  unfold boxfillBody
  rw [hzero, boxInt_add (by omega) (by omega), add_zero]
  have hyi : boxInt (l.yi + 1) = BitVec.ofInt 64 (c + (r + 1 : ℕ)) := by
    rw [hl.yi, hone, boxInt_add (by omega) (by omega)]
    congr 1
    omega
  by_cases hab : a < b
  · obtain ⟨A, rfl⟩ := Int.eq_ofNat_of_zero_le ha.1
    obtain ⟨B, rfl⟩ := Int.eq_ofNat_of_zero_le (ha.1.trans hab.le)
    obtain ⟨C, rfl⟩ := Int.eq_ofNat_of_zero_le hc
    have hAB : A ≤ B := by omega
    have hBW : B ≤ W := by omega
    have hj : C + r < H := by omega
    have hbound := row_bound hsize hBW hj
    have hstart : { l with xi := BitVec.ofInt 64 A } =
        rowAt W A (C + r) m s.pixels color (inBox W A B C (C + r)) l.yi 0 := by
      unfold rowAt
      rw [hl.mem, hl.ofs hab hr]
      congr 1
      apply overlay_congr
      intro n
      rw [decide_eq_false (by omega), Bool.or_false]
    have hrun := @boxfillRow_run W H A B (C + r) m s.pixels color (inBox W A B C (C + r)) hsize
      (by omega) hAB hBW hj l.yi fuel (by omega)
    rw [hstart, hrun, ok_bind]
    refine ⟨_, rfl, hyi, ?_, ?_⟩
    · unfold rowAt
      dsimp only
      apply overlay_congr
      intro n
      have hrow := @inBox_row W n A B (C + r) hBW
      have hsucc := @inBox_succ W n A B C (C + r) (by omega)
      push_cast at hrow hsucc ⊢
      rw [show (C : ℤ) + (r + 1) = C + r + 1 by ring, ← hsucc, hrow,
        show (C + r) * W + A + (B - A) = (C + r) * W + B by omega]
    · intro _ hr'
      have hnext := @row_bound W H A (C + r + 1) hsize (by omega) (by omega)
      have hsub : ((B - A : ℕ) : ℤ) = B - A := by omega
      have hmul : ((C + r + 1) * W : ℕ) = (C + r) * W + W := by rw [add_mul, one_mul]
      unfold rowAt
      dsimp only
      rw [hs.pitch, shl_one, boxInt_ofInt (by omega) (by omega), ofInt_add_ofInt,
        ofInt_sub_ofInt, boxInt_ofInt (by omega) (by omega)]
      congr 1
      push_cast at hmul ⊢
      rw [hsub]
      linarith
  · have hexit : boxfillRow fuel s.pixels color (BitVec.ofInt 64 b)
        { l with xi := BitVec.ofInt 64 a } = .ok { l with xi := BitVec.ofInt 64 a } := by
      obtain ⟨k, rfl⟩ := Nat.exists_eq_add_of_lt hf
      apply WhileLoop.loop_exit
      rw [truth_lt (by omega) (by omega), decide_eq_false hab]
    rw [hexit, ok_bind]
    refine ⟨_, rfl, hyi, ?_, fun h => absurd h hab⟩
    change l.mem = _
    rw [hl.mem]
    apply overlay_congr
    intro n
    rw [inBox_eq_false (by omega), inBox_eq_false (by omega)]

/-- `boxfill` fills the rectangle behind the moved corner, as far as it is on the
    surface. -/
theorem boxfill_overlay (hs : Surface16 s W H) (m : Mem) {x y w h : ℤ} (hx : Int32 x)
    (hy : Int32 y) (hw : Int32 w) (hh : Int32 h) (color : BitVec 64) (hf : W + H < fuel) :
    boxfill fuel s m (BitVec.ofInt 64 x) (BitVec.ofInt 64 y) (BitVec.ofInt 64 w)
      (BitVec.ofInt 64 h) color = .ok (overlay m s.pixels
        (inBox W (first x) (last x w W) (first y) (last y h H)) fun _ => color) := by
  have hW := hs.rows
  have ha : 0 ≤ first x ∧ first x < 2 ^ 31 := by
    unfold first
    unfold Int32 at hx
    omega
  have hb : -2 ^ 31 ≤ last x w W ∧ last x w W ≤ W := by
    unfold last
    unfold Int32 at hw
    omega
  have hc : 0 ≤ first y ∧ first y < 2 ^ 31 := by
    unfold first
    unfold Int32 at hy
    omega
  have hd : -2 ^ 31 ≤ last y h H ∧ last y h H ≤ H := by
    unfold last
    unfold Int32 at hh
    omega
  have hzero : (0 : BitVec 64) = BitVec.ofInt 64 0 := rfl
  unfold boxfill
  dsimp only
  rw [clipStart_ofInt hx, clipStart_ofInt hy, hs.width, hs.height,
    clipSize_ofInt hx hw (by omega), clipSize_ofInt hy hh hW.2]
  generalize first x = a at *
  generalize last x w W = b at *
  generalize first y = c at *
  generalize last y h H = d at *
  rw [boxInt_add (by omega) (by omega), boxInt_add (by omega) (by omega), hzero,
    boxInt_add (by omega) (by omega), boxInt_add (by omega) (by omega), add_zero, add_zero,
    add_sub_cancel, add_sub_cancel]
  have hcond : ∀ {r : ℕ} {l : Boxfill}, Filled s W color m a b c d r l → (c + r ≤ d ∨ r = 0) →
      truth (lt l.yi (BitVec.ofInt 64 d)) = decide (c + r < d) := by
    intro r l hl hr
    rw [hl.yi]
    exact truth_lt (by omega) (by omega)
  have hstart : Filled s W color m a b c d 0 ⟨BitVec.ofInt 64 a, BitVec.ofInt 64 c,
      boxInt (BitVec.ofInt 64 c * s.pitch + shl (BitVec.ofInt 64 a) 1), m⟩ := by
    refine ⟨by simp, ?_, ?_⟩
    · symm
      apply overlay_false
      intro n
      exact inBox_eq_false (Or.inr (by simp))
    · intro hab hcd
      obtain ⟨A, rfl⟩ := Int.eq_ofNat_of_zero_le ha.1
      obtain ⟨C, rfl⟩ := Int.eq_ofNat_of_zero_le hc.1
      have hbound := @row_bound W H A C hs.size (by omega) (by omega)
      have hofs : (C : ℤ) * (2 * W) + 2 * A = (2 * (C * W + A) : ℕ) := by
        push_cast
        ring
      dsimp only
      rw [hs.pitch, shl_one, ← BitVec.ofInt_mul, ofInt_add_ofInt, hofs,
        boxInt_ofInt (by omega) (by omega)]
      push_cast
      rw [add_zero]
  have hstep : ∀ l : Boxfill, (∃ r : ℕ, (c + r ≤ d ∨ r = 0) ∧ Filled s W color m a b c d r l) →
      truth (lt l.yi (BitVec.ofInt 64 d)) = true →
      ∃ l', boxfillBody fuel s.pixels color (BitVec.ofInt 64 a) (BitVec.ofInt 64 b) s.pitch
          (boxInt (shl (BitVec.ofInt 64 (b - a)) 1)) l = .ok l' ∧
        (∃ r : ℕ, (c + r ≤ d ∨ r = 0) ∧ Filled s W color m a b c d r l') ∧
        (d - l'.yi.toInt).toNat < (d - l.yi.toInt).toNat := by
    rintro l ⟨r, hr, hl⟩ hlt
    rw [hcond hl hr, decide_eq_true_eq] at hlt
    obtain ⟨l', hbody, hl'⟩ := hl.round hs ha hb hc.1 hd.2 (show W < fuel by omega) hlt
    have hyi : l.yi.toInt = c + r := by
      rw [hl.yi]
      exact toInt_ofInt_of_range (by omega) (by omega)
    have hyi' : l'.yi.toInt = c + (r + 1 : ℕ) := by
      rw [hl'.yi]
      exact toInt_ofInt_of_range (by omega) (by omega)
    exact ⟨l', hbody, ⟨r + 1, Or.inl (by omega), hl'⟩, by omega⟩
  obtain ⟨l, ⟨r, hr, hl⟩, hexit, hrun⟩ :=
    WhileLoop.loop_total Stop.fuel hstep ⟨0, Or.inr rfl, hstart⟩
  rw [hcond hl hr, decide_eq_false_iff_not] at hexit
  rw [hrun fuel, ok_bind, hl.mem]
  · congr 1
    apply overlay_congr
    intro n
    unfold inBox
    rw [decide_eq_decide]
    omega
  · rw [toInt_ofInt_of_range (by omega) (by omega)]
    omega

end Loop

/-! ## The claim -/

/-- Exactly the pixels of a `W × H` surface that are in `region` are set to
    `color`; no other byte of memory changes. -/
structure Paints (pixels : BitVec 64) (W H : ℕ) (color : BitVec 64) (region : ℤ → ℤ → Prop)
    (m m' : Mem) : Prop where
  inside : ∀ i < W, ∀ j < H, region i j → pixel m' pixels W i j = low16 color
  outside : ∀ p, (∀ i < W, ∀ j < H, region i j → offset pixels p / 2 ≠ j * W + i) → m' p = m p

/-- `boxfill` paints the visible part of its rectangle, whatever is in memory. -/
def BoxfillPaints (s : Surface) (W H : ℕ) (x y w h : ℤ) (color : BitVec 64) : Prop :=
  ∀ m, ∃ N m', (∀ fuel, N ≤ fuel → boxfill fuel s m (BitVec.ofInt 64 x) (BitVec.ofInt 64 y)
    (BitVec.ofInt 64 w) (BitVec.ofInt 64 h) color = .ok m') ∧
    Paints s.pixels W H color (rectangle x y w h) m m'

/-- Nothing is visible of the rectangle behind the moved corner, or moving the
    corner changes nothing that is visible. -/
def Clips (W H : ℕ) (x y w h : ℤ) : Prop :=
  (w ≤ 0 ∨ (W : ℤ) ≤ max x 0 ∨ h ≤ 0 ∨ (H : ℤ) ≤ max y 0) ∨
    ((0 ≤ x ∨ W ≤ x + w) ∧ (0 ≤ y ∨ H ≤ y + h))

section Claim

variable {s : Surface} {W H : ℕ} {x y w h : ℤ}

/-- What is filled is the visible part of the rectangle. -/
theorem filled_iff (hclips : Clips W H x y w h) {i j : ℕ} (hi : i < W) (hj : j < H) :
    inBox W (first x) (last x w W) (first y) (last y h H) (j * W + i) = true ↔
      rectangle x y w h i j := by
  rw [inBox_pixel hi, decide_eq_true_eq]
  unfold Clips at hclips
  unfold first last first rectangle
  omega

/-- A pixel that is filled by mistake. -/
theorem exists_filled (hclips : ¬ Clips W H x y w h) : ∃ i < W, ∃ j < H,
    inBox W (first x) (last x w W) (first y) (last y h H) (j * W + i) = true ∧
      ¬ rectangle x y w h i j := by
  unfold Clips at hclips
  push Not at hclips
  obtain ⟨⟨hw, hx, hh, hy⟩, hout⟩ := hclips
  obtain ⟨i, j, hi, hj, hbox⟩ : ∃ i j : ℕ, i < W ∧ j < H ∧ (first x ≤ i ∧ (i : ℤ) < last x w W ∧
      first y ≤ j ∧ (j : ℤ) < last y h H) ∧ ¬ rectangle x y w h i j := by
    unfold first last first rectangle
    by_cases hleft : 0 ≤ x ∨ (W : ℤ) ≤ x + w
    · have hy' := hout hleft
      exact ⟨(max x 0).toNat, (max (y + h) 0).toNat, by omega, by omega, by omega, by omega⟩
    · exact ⟨(max (x + w) 0).toNat, (max y 0).toNat, by omega, by omega, by omega, by omega⟩
  refine ⟨i, hi, j, hj, ?_, hbox.2⟩
  rw [inBox_pixel hi, decide_eq_true_eq]
  exact hbox.1

/-- **`boxfill` paints the clipped rectangle** exactly when clipping it at 0 by
    moving the corner makes no difference. -/
theorem boxfill_paints_iff (hs : Surface16 s W H) (hx : Int32 x) (hy : Int32 y) (hw : Int32 w)
    (hh : Int32 h) (color : BitVec 64) :
    BoxfillPaints s W H x y w h color ↔ Clips W H x y w h := by
  have hrun : ∀ m fuel, W + H + 1 ≤ fuel → boxfill fuel s m (BitVec.ofInt 64 x) (BitVec.ofInt 64 y)
      (BitVec.ofInt 64 w) (BitVec.ofInt 64 h) color = .ok (overlay m s.pixels
        (inBox W (first x) (last x w W) (first y) (last y h H)) fun _ => color) :=
    fun m fuel hf => boxfill_overlay hs m hx hy hw hh color hf
  constructor
  · intro hpaints
    by_contra hclips
    obtain ⟨i, hi, j, hj, hin, hout⟩ := exists_filled hclips
    -- a memory that differs from the color everywhere
    obtain ⟨N, m', hok, hpaint⟩ := hpaints fun _ => byte16 color 0 + 1
    have heq := (hok _ (le_max_left N (W + H + 1))).symm.trans
      (hrun _ _ (le_max_right N (W + H + 1)))
    obtain rfl := Except.ok.inj heq
    have hlt := index_lt hs hi hj
    have hofs : offset s.pixels (s.pixels + BitVec.ofInt 64 (2 * (j * W + i) : ℕ)) =
        2 * (j * W + i) := (offset_eq_iff (by omega) _).mpr rfl
    have hsame := hpaint.outside (s.pixels + BitVec.ofInt 64 (2 * (j * W + i) : ℕ)) (by
      intro i' hi' j' hj' hregion hdiv
      rw [hofs] at hdiv
      obtain ⟨rfl, rfl⟩ := index_inj hi hi' (show j * W + i = j' * W + i' by omega)
      exact hout hregion)
    unfold overlay at hsame
    rw [hofs, show 2 * (j * W + i) / 2 = j * W + i by omega, if_pos hin] at hsame
    unfold byte16 at hsame
    rw [if_pos (by omega), if_pos (by omega)] at hsame
    exact absurd hsame (by simp)
  · intro hclips m
    refine ⟨W + H + 1, _, hrun m, ?_, ?_⟩
    · intro i hi j hj hregion
      unfold pixel
      rw [get16_overlay (index_lt hs hi hj), if_pos ((filled_iff hclips hi hj).mpr hregion)]
    · intro p hp
      apply if_neg
      intro hin
      obtain ⟨hi, hj, hn⟩ := inBox_split (min_le_right _ _) (min_le_right _ _) hin
      rw [hn, filled_iff hclips hi hj] at hin
      exact hp _ hi _ hj hin hn

end Claim

/-- A surface of 4 by 3 pixels. -/
def tile : Surface := ⟨4, 3, 1, 8, 0, 0, 4096⟩

theorem tile_surface16 : Surface16 tile 4 3 :=
  ⟨rfl, rfl, rfl, rfl, by decide, by decide⟩

theorem boxfill_paints_inside :
    BoxfillPaints tile 4 3 1 1 2 9 7 ↔ Clips 4 3 1 1 2 9 :=
  boxfill_paints_iff tile_surface16 (by unfold Int32; decide) (by unfold Int32; decide)
    (by unfold Int32; decide) (by unfold Int32; decide) 7

/-- A rectangle that is two pixels wide and starts one pixel left of the surface
    is painted two pixels wide. -/
theorem boxfill_paints_left : ¬ BoxfillPaints tile 4 3 (-1) 0 2 1 7 := by
  intro hpaints
  have hint : ∀ a : ℤ, -1 ≤ a ∧ a ≤ 2 → Int32 a := by
    intro a ha
    unfold Int32
    omega
  obtain ⟨N, m', hok, hpaint⟩ := hpaints fun _ => 0
  have hrun := boxfill_overlay tile_surface16 (fun _ => 0) (hint (-1) (by decide))
    (hint 0 (by decide)) (hint 2 (by decide)) (hint 1 (by decide)) 7
    (show 4 + 3 < N + 8 by omega)
  obtain rfl := Except.ok.inj ((hok _ (Nat.le_add_right N 8)).symm.trans hrun)
  have hsame := hpaint.outside (4096 + 2) (by
    intro i hi j hj hregion hdiv
    have h1 : offset tile.pixels (4096 + 2) / 2 = 1 := rfl
    rw [h1] at hdiv
    unfold rectangle at hregion
    omega)
  exact absurd hsame (by decide)

end Interim.Gfx
