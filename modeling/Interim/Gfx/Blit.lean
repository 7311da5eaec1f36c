import Interim.Gfx.Surface

/-!
# `blit` of `gfx.l`

The function `(blit dest from)` (`sledge/os/gfx.l`, lines 246–300). It cuts off what
leaves the destination at the top, at the bottom, at the left and at the right,
in this order, and copies row by row. The addresses it reads and writes are
recorded.

* `blit_overlay` — what is copied, for all placements: the bottom row of the
  destination is never written, and when both sides are cut, the pixels cut on the
  left are not skipped.
* `blit_copies_iff` — so the visible part of the source is copied exactly when
  there is none, or it ends above the bottom row and is cut on one side at most.
-/

namespace Interim.Gfx

open Heap Lisp

/-! ## The function -/

/-- The locals that the clipping leaves: the first column and row, the columns and
    rows where the loops end, the width, the pixels to skip in each row, and the
    source position. -/
structure Clipped where
  x : BitVec 64
  yy : BitVec 64
  xw : BitVec 64
  yh : BitVec 64
  w : BitVec 64
  xskip : BitVec 64
  si : BitVec 64

/-- Lines 251–280. -/
def blitClip (dest src : Surface) : Clipped :=
  let yy := boxInt (src.y + 0)
  let xw := boxInt (src.x + src.width)
  let yh := boxInt (src.y + src.height)
  let clipTop := truth (lt yy 0)
  let si := if clipTop then boxInt (0 + abs yy * shl src.width 1) else 0
  let yy := if clipTop then 0 else yy
  let yh := if truth (gt yh (dest.height - 1)) then boxInt (dest.height - 1) else yh
  let clipLeft := truth (lt src.x 0)
  let xskip := if clipLeft then abs src.x else 0
  let w := if clipLeft then boxInt (src.width - xskip) else src.width
  let x := if clipLeft then boxInt (src.x + xskip) else src.x
  let clipRight := truth (gt xw (dest.width - 1))
  let xskip := if clipRight then boxInt (xw - dest.width) else xskip
  let si := if clipRight then boxInt (si - shl xskip 1) else si
  let xw := if clipRight then boxInt (xw - xskip) else xw
  let w := if clipRight then boxInt (w - xskip) else w
  ⟨x, yy, xw, yh, w, xskip, si⟩

/-- The locals that the loops change, the memory, and the addresses that were
    read and written. -/
structure Blit where
  xx : BitVec 64
  yy : BitVec 64
  si : BitVec 64
  di : BitVec 64
  mem : Mem
  reads : List (BitVec 64)
  writes : List (BitVec 64)

/-- Lines 290–294: one pixel. -/
def blitPixel (pixels dst : BitVec 64) (l : Blit) : Blit :=
  let c := boxInt (get16 l.mem pixels l.si)
  { l with
    mem := put16 l.mem dst l.di c
    si := boxInt (l.si + 2)
    di := boxInt (l.di + 2)
    xx := boxInt (l.xx + 1)
    reads := l.reads ++ [pixels + l.si, pixels + l.si + 1]
    writes := l.writes ++ [dst + l.di, dst + l.di + 1] }

/-- Lines 289–295: the loop over one row. -/
def blitRow (fuel : ℕ) (pixels dst xw : BitVec 64) : Blit → Except Stop Blit :=
  WhileLoop.loop .fuel (fun l => truth (lt l.xx xw)) (fun l => .ok (blitPixel pixels dst l)) fuel

/-- Lines 285–298: one row. -/
def blitBody (fuel : ℕ) (pixels dst pitch : BitVec 64) (k : Clipped) (l : Blit) :
    Except Stop Blit := do
  let l ← blitRow fuel pixels dst k.xw { l with
    xx := boxInt (k.x + 0)
    si := boxInt (l.si + shl k.xskip 1) }
  .ok { l with
    yy := boxInt (l.yy + 1)
    di := boxInt (l.di + pitch) }

/-- `(blit dest from)` (lines 246–300): the locals when it returns. -/
def blit (fuel : ℕ) (dest src : Surface) (m : Mem) : Except Stop Blit :=
  let k := blitClip dest src
  let pitch := boxInt (dest.pitch - shl k.w dest.shift)
  let di := boxInt (shl k.x dest.shift + k.yy * dest.pitch)
  WhileLoop.loop .fuel (fun l => truth (lt l.yy k.yh)) (blitBody fuel src.pixels dest.pixels pitch k)
    fuel ⟨0, k.yy, k.si, di, m, [], []⟩

/-! ## One row -/

/-- The buffers of two surfaces do not overlap. -/
def Apart (dest src : Surface) (sizeD sizeS : ℕ) : Prop :=
  ∀ p, offset dest.pixels p < sizeD → sizeS ≤ offset src.pixels p

/-- The accesses so far were inside the two buffers. -/
structure Inside (dest src : Surface) (sizeD sizeS : ℕ) (l : Blit) : Prop where
  reads : ∀ p ∈ l.reads, offset src.pixels p < sizeS
  writes : ∀ p ∈ l.writes, offset dest.pixels p < sizeD

/-- The locals after `k` pixels of row `j` were copied from column `a` on; the
    source pixels start at `σ`. -/
structure Copied (dest src : Surface) (W sizeD sizeS a j σ : ℕ) (m : Mem) (P : ℕ → Bool)
    (v : ℕ → BitVec 64) (yy : BitVec 64) (k : ℕ) (l : Blit) : Prop where
  xx : l.xx = BitVec.ofInt 64 (a + k : ℕ)
  yy : l.yy = yy
  si : l.si = BitVec.ofInt 64 (2 * (σ + k) : ℕ)
  di : l.di = BitVec.ofInt 64 (2 * (j * W + a + k) : ℕ)
  mem : l.mem = overlay m dest.pixels
    (fun n => P n || decide (j * W + a ≤ n ∧ n < j * W + a + k)) v
  inside : Inside dest src sizeD sizeS l

section Row

variable {dest src : Surface} {W sizeD sizeS a j σ k : ℕ} {m : Mem} {P : ℕ → Bool}
  {v : ℕ → BitVec 64} {yy : BitVec 64} {l : Blit}

theorem offset_inside {pixels : BitVec 64} {n size : ℕ} (hn : 2 * n + 1 < size)
    (hsize : size < 2 ^ 31) :
    offset pixels (pixels + BitVec.ofInt 64 (2 * n : ℕ)) = 2 * n ∧
      offset pixels (pixels + BitVec.ofInt 64 (2 * n : ℕ) + 1) = 2 * n + 1 := by
  constructor
  · exact (offset_eq_iff (by omega) _).mpr rfl
  · apply (offset_eq_iff (by omega) _).mpr
    rw [ofInt_succ, BitVec.add_assoc]

/-- One pixel. -/
theorem Copied.pixel (hl : Copied dest src W sizeD sizeS a j σ m P v yy k l)
    (hapart : Apart dest src sizeD sizeS) (hsizeD : sizeD < 2 ^ 31) (hsizeS : sizeS < 2 ^ 31)
    (hP : ∀ n, P n = true → 2 * n + 1 < sizeD) (hd : 2 * (j * W + a + k) + 1 < sizeD)
    (hs : 2 * (σ + k) + 1 < sizeS)
    (hv : v (j * W + a + k) = get16 m src.pixels (BitVec.ofInt 64 (2 * (σ + k) : ℕ)))
    (ha : a + k + 1 < 2 ^ 31) :
    Copied dest src W sizeD sizeS a j σ m P v yy (k + 1) (blitPixel src.pixels dest.pixels l) := by
  have hone : (1 : BitVec 64) = BitVec.ofInt 64 1 := rfl
  have htwo : (2 : BitVec 64) = BitVec.ofInt 64 2 := rfl
  obtain ⟨hs0, hs1⟩ := @offset_inside src.pixels (σ + k) sizeS hs hsizeS
  obtain ⟨hd0, hd1⟩ := @offset_inside dest.pixels (j * W + a + k) sizeD hd hsizeD
  -- the source pixel has not been written
  have hout : ∀ p, offset src.pixels p < sizeS →
      (P (offset dest.pixels p / 2) ||
        decide (j * W + a ≤ offset dest.pixels p / 2 ∧ offset dest.pixels p / 2 < j * W + a + k)) =
        false := by
    intro p hp
    have hge : sizeD ≤ offset dest.pixels p := by
      by_contra hlt
      exact absurd (hapart p (by omega)) (by omega)
    rw [Bool.or_eq_false_iff, decide_eq_false_iff_not]
    refine ⟨?_, by omega⟩
    rw [Bool.eq_false_iff]
    intro hin
    have := hP _ hin
    omega
  have hc : boxInt (get16 l.mem src.pixels l.si) = v (j * W + a + k) := by
    rw [boxInt_get16, hl.mem, hl.si, get16_outside (hout _ (by omega)) (hout _ (by omega)), hv]
  refine ⟨?_, hl.yy, ?_, ?_, ?_, ?_, ?_⟩
  · change boxInt (l.xx + 1) = _
    rw [hl.xx, hone, boxInt_add (by omega) (by omega)]
    rfl
  · change boxInt (l.si + 2) = _
    rw [hl.si, htwo, boxInt_add (by omega) (by omega)]
    congr 1
  · change boxInt (l.di + 2) = _
    rw [hl.di, htwo, boxInt_add (by omega) (by omega)]
    congr 1
  · change put16 l.mem dest.pixels l.di (boxInt (get16 l.mem src.pixels l.si)) = _
    rw [hc, hl.mem, hl.di, put16_overlay (by omega)]
    apply overlay_congr
    intro n
    rw [Bool.or_assoc, beq_eq_decide, ← Bool.decide_or]
    congr 2
    rw [eq_iff_iff]
    omega
  · intro p hp
    obtain hp | hp := List.mem_append.mp hp
    · exact hl.inside.reads p hp
    · rw [hl.si] at hp
      obtain rfl | hp := List.mem_cons.mp hp
      · omega
      · rw [List.mem_singleton.mp hp]
        omega
  · intro p hp
    obtain hp | hp := List.mem_append.mp hp
    · exact hl.inside.writes p hp
    · rw [hl.di] at hp
      obtain rfl | hp := List.mem_cons.mp hp
      · omega
      · rw [List.mem_singleton.mp hp]
        omega

/-- The loop over one row copies the columns from `a` to `b`. -/
theorem blitRow_run {b : ℕ} (hl : Copied dest src W sizeD sizeS a j σ m P v yy 0 l)
    (hapart : Apart dest src sizeD sizeS) (hsizeD : sizeD < 2 ^ 31) (hsizeS : sizeS < 2 ^ 31)
    (hP : ∀ n, P n = true → 2 * n + 1 < sizeD) (hab : a ≤ b)
    (hd : 2 * (j * W + b) ≤ sizeD) (hs : 2 * (σ + (b - a)) ≤ sizeS)
    (hv : ∀ k < b - a, v (j * W + a + k) =
      get16 m src.pixels (BitVec.ofInt 64 (2 * (σ + k) : ℕ)))
    {fuel : ℕ} (hf : b - a < fuel) :
    ∃ l', blitRow fuel src.pixels dest.pixels (BitVec.ofInt 64 b) l = .ok l' ∧
      Copied dest src W sizeD sizeS a j σ m P v yy (b - a) l' := by
  have hcond : ∀ {k : ℕ} {l : Blit}, Copied dest src W sizeD sizeS a j σ m P v yy k l →
      k ≤ b - a → truth (lt l.xx (BitVec.ofInt 64 b)) = decide (k < b - a) := by
    intro k l hl hk
    rw [hl.xx, truth_lt (by omega) (by omega), decide_eq_decide]
    omega
  have hxx : ∀ {k : ℕ} {l : Blit}, Copied dest src W sizeD sizeS a j σ m P v yy k l →
      k ≤ b - a → l.xx.toInt = a + k := by
    intro k l hl hk
    rw [hl.xx, toInt_ofInt_of_range (by omega) (by omega)]
    rfl
  have hstep : ∀ l, (∃ k ≤ b - a, Copied dest src W sizeD sizeS a j σ m P v yy k l) →
      truth (lt l.xx (BitVec.ofInt 64 b)) = true →
      ∃ l', (.ok (blitPixel src.pixels dest.pixels l) : Except Stop Blit) = .ok l' ∧
        (∃ k ≤ b - a, Copied dest src W sizeD sizeS a j σ m P v yy k l') ∧
        (b - l'.xx.toInt).toNat < (b - l.xx.toInt).toNat := by
    rintro l ⟨k, hk, hl⟩ hlt
    rw [hcond hl hk, decide_eq_true_eq] at hlt
    have hl' := hl.pixel hapart hsizeD hsizeS hP (by omega) (by omega) (hv k hlt) (by omega)
    refine ⟨_, rfl, ⟨k + 1, hlt, hl'⟩, ?_⟩
    rw [hxx hl hk, hxx hl' hlt]
    omega
  obtain ⟨l', ⟨k, hk, hl'⟩, hexit, hrun⟩ :=
    WhileLoop.loop_total Stop.fuel hstep ⟨0, Nat.zero_le _, hl⟩
  rw [hcond hl' hk, decide_eq_false_iff_not] at hexit
  obtain rfl : k = b - a := by omega
  refine ⟨l', hrun fuel ?_, hl'⟩
  rw [hxx hl (Nat.zero_le _)]
  omega

end Row

/-! ## The rows -/

/-- What the loops need of the clipping: they copy the columns from `a` to `b` and
    the rows from `c` to `d`, and skip `skip` pixels in front of each row. If there
    is anything to copy, the first row starts at source pixel `S`, and the pixels
    read are pixels of the source. -/
structure Plan (W H sizeS : ℕ) (k : Clipped) (a b c d : ℤ) (skip S : ℕ) : Prop where
  x : k.x = BitVec.ofInt 64 a
  xw : k.xw = BitVec.ofInt 64 b
  yy : k.yy = BitVec.ofInt 64 c
  yh : k.yh = BitVec.ofInt 64 d
  cols : (0 ≤ a ∧ a < 2 ^ 31) ∧ -2 ^ 31 ≤ b ∧ b ≤ W
  rows : (0 ≤ c ∧ c < 2 ^ 31) ∧ -2 ^ 31 ≤ d ∧ d ≤ H
  cut : a < b → c < d → k.xskip = BitVec.ofInt 64 skip ∧
    k.si = BitVec.ofInt 64 (2 * (S - skip)) ∧ k.w = BitVec.ofInt 64 (b - a) ∧
    2 * (S + (d - c - 1) * (skip + (b - a)) + (b - a)) ≤ sizeS

/-- The value that is copied to pixel `n` of the destination. -/
def copiedValue (src : Surface) (m : Mem) (W : ℕ) (a b c : ℤ) (skip S n : ℕ) : BitVec 64 :=
  get16 m src.pixels (BitVec.ofInt 64
    (2 * (S + ((n / W : ℕ) - c) * (skip + (b - a)) + ((n % W : ℕ) - a))))

/-- The locals before the row that follows `r` rows. -/
structure CopiedRows (dest src : Surface) (W sizeD sizeS : ℕ) (m : Mem) (a b c d : ℤ)
    (skip S r : ℕ) (l : Blit) : Prop where
  yy : l.yy = BitVec.ofInt 64 (c + r)
  mem : l.mem = overlay m dest.pixels (inBox W a b c (c + r)) (copiedValue src m W a b c skip S)
  inside : Inside dest src sizeD sizeS l
  pos : a < b → c + r < d → l.si = BitVec.ofInt 64 (2 * (S - skip + r * (skip + (b - a)))) ∧
    l.di = BitVec.ofInt 64 (2 * ((c + r) * W + a))

section Rows

variable {dest src : Surface} {W H sizeS skip S r fuel : ℕ} {m : Mem} {k : Clipped}
  {a b c d : ℤ} {l : Blit}

/-- One row. -/
theorem CopiedRows.round (hd : Surface16 dest W H) (hsizeS : sizeS < 2 ^ 31)
    (hapart : Apart dest src (2 * W * H) sizeS) (hk : Plan W H sizeS k a b c d skip S)
    (hf : W < fuel) (hl : CopiedRows dest src W (2 * W * H) sizeS m a b c d skip S r l)
    (hr : c + r < d) :
    ∃ l', blitBody fuel src.pixels dest.pixels
        (boxInt (dest.pitch - shl k.w dest.shift)) k l = .ok l' ∧
      CopiedRows dest src W (2 * W * H) sizeS m a b c d skip S (r + 1) l' := by
  have hW := hd.rows
  have hsize := hd.size
  obtain ⟨⟨ha0, ha1⟩, hb0, hb1⟩ := hk.cols
  obtain ⟨⟨hc0, hc1⟩, hd0, hd1⟩ := hk.rows
  have hzero : (0 : BitVec 64) = BitVec.ofInt 64 0 := rfl
  have hone : (1 : BitVec 64) = BitVec.ofInt 64 1 := rfl
  unfold blitBody
  rw [hk.x, hk.xw, hzero, boxInt_add (by omega) (by omega), add_zero]
  have hyy : boxInt (l.yy + 1) = BitVec.ofInt 64 (c + (r + 1 : ℕ)) := by
    rw [hl.yy, hone, boxInt_add (by omega) (by omega)]
    congr 1
    omega
  by_cases hab : a < b
  · obtain ⟨A, rfl⟩ := Int.eq_ofNat_of_zero_le ha0
    obtain ⟨B, rfl⟩ := Int.eq_ofNat_of_zero_le (ha0.trans hab.le)
    obtain ⟨C, rfl⟩ := Int.eq_ofNat_of_zero_le hc0
    obtain ⟨hxskip, hsi, hw, hread⟩ := hk.cut hab (by omega)
    obtain ⟨hsi', hdi'⟩ := hl.pos hab hr
    have hAB : A ≤ B := by omega
    have hBW : B ≤ W := by omega
    have hj : C + r < H := by omega
    have hend := @row_le W H B (C + r) hBW hj
    -- the source pixels of this row
    have hstride : ((skip + (B - A) : ℕ) : ℤ) = skip + (B - A) := by omega
    generalize hT : skip + (B - A) = T at hstride
    rw [← hstride] at hread hsi'
    have hrow : (r : ℤ) * T ≤ (d - C - 1) * T :=
      mul_le_mul_of_nonneg_right (by omega) (Int.natCast_nonneg T)
    have hσ : ((S + r * T : ℕ) : ℤ) = S + r * T := by
      push_cast
      rfl
    generalize hσ' : S + r * T = σ at hσ
    have hsource : 2 * (σ + (B - A)) ≤ sizeS := by omega
    have hstart : Copied dest src W (2 * W * H) sizeS A (C + r) σ m (inBox W A B C (C + r))
        (copiedValue src m W A B C skip S) l.yy 0 { l with
          xx := BitVec.ofInt 64 A
          si := boxInt (l.si + shl k.xskip 1) } := by
      refine ⟨rfl, rfl, ?_, ?_, ?_, ⟨hl.inside.reads, hl.inside.writes⟩⟩
      · dsimp only
        rw [hsi', hxskip, shl_one, boxInt_add (by omega) (by omega)]
        congr 1
        omega
      · rw [hdi']
        congr 1
      · dsimp only
        rw [hl.mem]
        apply overlay_congr
        intro n
        rw [decide_eq_false (by omega), Bool.or_false]
    have hP : ∀ n, inBox W A B C (C + r) n = true → 2 * n + 1 < 2 * W * H := by
      intro n hin
      obtain ⟨hi, hn, heq⟩ := inBox_split (H := H) (by omega) (by omega) hin
      have hle := @row_le W H (n % W + 1) (n / W) hi hn
      omega
    have hv : ∀ i < B - A, copiedValue src m W A B C skip S ((C + r) * W + A + i) =
        get16 m src.pixels (BitVec.ofInt 64 (2 * (σ + i) : ℕ)) := by
      intro i hi
      obtain ⟨hmod, hdiv⟩ := @index_mod_div W (A + i) (by omega) (C + r)
      unfold copiedValue
      rw [Nat.add_assoc, hmod, hdiv, ← hstride]
      congr 2
      push_cast
      rw [hσ]
      ring
    obtain ⟨l', hrun, hl'⟩ := blitRow_run hstart hapart hsize hsizeS hP hAB hend hsource
      hv (show B - A < fuel by omega)
    rw [hrun, ok_bind]
    refine ⟨_, rfl, ?_, ?_, ⟨hl'.inside.reads, hl'.inside.writes⟩, ?_⟩
    · rw [← hyy, ← hl'.yy]
    · change l'.mem = _
      rw [hl'.mem]
      apply overlay_congr
      intro n
      have hrow := @inBox_row W n A B (C + r) hBW
      have hsucc := @inBox_succ W n A B C (C + r) (by omega)
      push_cast at hrow hsucc ⊢
      rw [show (C : ℤ) + (r + 1) = C + r + 1 by ring, ← hsucc, hrow,
        show (C + r) * W + A + (B - A) = (C + r) * W + B by omega]
    · intro _ hr'
      have hnext := @row_bound W H A (C + r + 1) hsize (by omega) (by omega)
      have hmul : ((C + r + 1) * W : ℕ) = (C + r) * W + W := by rw [add_mul, one_mul]
      have hmul' : (((C + r) * W : ℕ) : ℤ) = (C + r) * W := by
        push_cast
        rfl
      have hnext' : ((r + 1 : ℕ) : ℤ) * T = r * T + T := by
        push_cast
        ring
      have hnext'' : ((C : ℤ) + (r + 1 : ℕ)) * W = (C + r) * W + W := by
        push_cast
        ring
      constructor
      · change l'.si = _
        rw [hl'.si, ← hstride, hnext']
        congr 1
        omega
      · change boxInt (l'.di + boxInt (dest.pitch - shl k.w dest.shift)) = _
        rw [hl'.di, hd.pitch, hw, hd.shift, shl_one, ofInt_sub_ofInt,
          boxInt_ofInt (by omega) (by omega), boxInt_add (by omega) (by omega), hnext'']
        congr 1
        omega
  · set l₀ : Blit := { l with
      xx := BitVec.ofInt 64 a
      si := boxInt (l.si + shl k.xskip 1) }
    have hexit : blitRow fuel src.pixels dest.pixels (BitVec.ofInt 64 b) l₀ = .ok l₀ := by
      obtain ⟨n, rfl⟩ := Nat.exists_eq_add_of_lt hf
      apply WhileLoop.loop_exit
      rw [truth_lt (by omega) (by omega), decide_eq_false hab]
    rw [hexit, ok_bind]
    refine ⟨_, rfl, hyy, ?_, ⟨hl.inside.reads, hl.inside.writes⟩, fun h => absurd h hab⟩
    change l.mem = _
    rw [hl.mem]
    apply overlay_congr
    intro n
    rw [inBox_eq_false (by omega), inBox_eq_false (by omega)]

/-- The loops copy what the clipping leaves. -/
theorem plan_run (hd : Surface16 dest W H) (hsizeS : sizeS < 2 ^ 31)
    (hapart : Apart dest src (2 * W * H) sizeS) (hk : Plan W H sizeS k a b c d skip S)
    (hf : W + H < fuel) (m : Mem) :
    ∃ l, WhileLoop.loop Stop.fuel (fun l => truth (lt l.yy k.yh))
        (blitBody fuel src.pixels dest.pixels (boxInt (dest.pitch - shl k.w dest.shift)) k) fuel
        (⟨0, k.yy, k.si, boxInt (shl k.x dest.shift + k.yy * dest.pitch), m, [], []⟩ : Blit) =
          .ok l ∧
      l.mem = overlay m dest.pixels (inBox W a b c d) (copiedValue src m W a b c skip S) ∧
      Inside dest src (2 * W * H) sizeS l := by
  have hW := hd.rows
  obtain ⟨⟨ha0, ha1⟩, hb0, hb1⟩ := hk.cols
  obtain ⟨⟨hc0, hc1⟩, hd0, hd1⟩ := hk.rows
  have hcond : ∀ {r : ℕ} {l : Blit},
      CopiedRows dest src W (2 * W * H) sizeS m a b c d skip S r l → (c + r ≤ d ∨ r = 0) →
      truth (lt l.yy k.yh) = decide (c + r < d) := by
    intro r l hl hr
    rw [hl.yy, hk.yh]
    exact truth_lt (by omega) (by omega)
  have hstart : CopiedRows dest src W (2 * W * H) sizeS m a b c d skip S 0
      ⟨0, k.yy, k.si, boxInt (shl k.x dest.shift + k.yy * dest.pitch), m, [], []⟩ := by
    refine ⟨by simp [hk.yy], ?_, ⟨by simp, by simp⟩, ?_⟩
    · symm
      apply overlay_false
      intro n
      exact inBox_eq_false (Or.inr (by simp))
    · intro hab hcd
      obtain ⟨A, rfl⟩ := Int.eq_ofNat_of_zero_le ha0
      obtain ⟨C, rfl⟩ := Int.eq_ofNat_of_zero_le hc0
      obtain ⟨-, hsi, -, -⟩ := hk.cut hab (by omega)
      have hbound := @row_bound W H A C hd.size (by omega) (by omega)
      have hofs : 2 * (A : ℤ) + C * (2 * W) = (2 * (C * W + A) : ℕ) := by
        push_cast
        ring
      constructor
      · dsimp only
        rw [hsi]
        simp
      · dsimp only
        rw [hk.x, hk.yy, hd.pitch, hd.shift, shl_one, ← BitVec.ofInt_mul, ofInt_add_ofInt, hofs,
          boxInt_ofInt (by omega) (by omega)]
        push_cast
        rw [add_zero]
  have hstep : ∀ l : Blit, (∃ r : ℕ, (c + r ≤ d ∨ r = 0) ∧
        CopiedRows dest src W (2 * W * H) sizeS m a b c d skip S r l) →
      truth (lt l.yy k.yh) = true →
      ∃ l', blitBody fuel src.pixels dest.pixels (boxInt (dest.pitch - shl k.w dest.shift)) k l =
          .ok l' ∧
        (∃ r : ℕ, (c + r ≤ d ∨ r = 0) ∧
          CopiedRows dest src W (2 * W * H) sizeS m a b c d skip S r l') ∧
        (d - l'.yy.toInt).toNat < (d - l.yy.toInt).toNat := by
    rintro l ⟨r, hr, hl⟩ hlt
    rw [hcond hl hr, decide_eq_true_eq] at hlt
    obtain ⟨l', hbody, hl'⟩ := hl.round hd hsizeS hapart hk (show W < fuel by omega) hlt
    have hyy : l.yy.toInt = c + r := by
      rw [hl.yy]
      exact toInt_ofInt_of_range (by omega) (by omega)
    have hyy' : l'.yy.toInt = c + (r + 1 : ℕ) := by
      rw [hl'.yy]
      exact toInt_ofInt_of_range (by omega) (by omega)
    exact ⟨l', hbody, ⟨r + 1, Or.inl (by omega), hl'⟩, by omega⟩
  obtain ⟨l, ⟨r, hr, hl⟩, hexit, hrun⟩ :=
    WhileLoop.loop_total Stop.fuel hstep ⟨0, Or.inr rfl, hstart⟩
  rw [hcond hl hr, decide_eq_false_iff_not] at hexit
  refine ⟨l, hrun fuel ?_, ?_, hl.inside⟩
  · dsimp only
    rw [hk.yy, toInt_ofInt_of_range (by omega) (by omega)]
    omega
  · rw [hl.mem]
    apply overlay_congr
    intro n
    unfold inBox
    rw [decide_eq_decide]
    omega

end Rows

/-! ## Clipping -/

/-- The number of pixels cut at the near edge. -/
def cutNear (x : ℤ) : ℤ := max (-x) 0

/-- The end of the columns that are copied. -/
def lastColumn (x : ℤ) (w W : ℕ) : ℤ := min (wrap (x + w)) W

/-- The end of the rows that are copied. -/
def lastRow (y : ℤ) (h H : ℕ) : ℤ := if (H : ℤ) ≤ wrap (y + h) then H - 1 else wrap (y + h)

/-- The number of pixels skipped in front of each row. -/
def skipped (x : ℤ) (w W : ℕ) : ℤ := if (W : ℤ) ≤ wrap (x + w) then wrap (x + w) - W else cutNear x

/-- The source pixel the first row starts at: with the right side cut, the pixels
    cut on the left are not skipped. -/
def firstPixel (x y : ℤ) (w W : ℕ) : ℤ :=
  cutNear y * w + if (W : ℤ) ≤ wrap (x + w) then 0 else cutNear x

section Clip

variable {dest src : Surface} {W H w h : ℕ} {x y : ℤ}

theorem abs_cancel (hx : Int32 x) (hneg : x < 0) :
    boxInt (BitVec.ofInt 64 x + abs (BitVec.ofInt 64 x)) = BitVec.ofInt 64 0 := by
  obtain ⟨hlo, hhi⟩ := hx
  by_cases hmin : x = -2 ^ 31
  · rw [hmin]
    decide
  · rw [abs_ofInt (by omega) hhi, boxInt_add (by omega) (by omega)]
    congr 1
    omega

/-- The pixels that are read are pixels of the source. -/
theorem read_bound {S T V R t w h : ℤ} (hR : 1 ≤ R) (hT : T ≤ w) (hw : 0 ≤ w)
    (hS : S + V ≤ t * w + w) (hle : t + R ≤ h) : 2 * (S + (R - 1) * T + V) ≤ 2 * w * h := by
  have hrows : (R - 1) * T ≤ (R - 1) * w := mul_le_mul_of_nonneg_left hT (by omega)
  have hall : (t + R) * w ≤ h * w := mul_le_mul_of_nonneg_right hle hw
  linarith

/-- What the clipping leaves. -/
theorem blitClip_plan (hd : Surface16 dest W H) (hs : Surface16 src w h)
    (hx : src.x = BitVec.ofInt 64 x) (hy : src.y = BitVec.ofInt 64 y) (hx32 : Int32 x)
    (hy32 : Int32 y) :
    Plan W H (2 * w * h) (blitClip dest src) (max x 0) (lastColumn x w W) (max y 0)
      (lastRow y h H) (skipped x w W).toNat (firstPixel x y w W).toNat := by
  obtain ⟨hxl, hxh⟩ := id hx32
  obtain ⟨hyl, hyh⟩ := id hy32
  have hrows := hd.rows
  have hrows' := hs.rows
  have hone : (1 : BitVec 64) = BitVec.ofInt 64 1 := rfl
  have hzero : (0 : BitVec 64) = BitVec.ofInt 64 0 := rfl
  have hwx : -2 ^ 31 ≤ wrap (x + w) ∧ wrap (x + w) < 2 ^ 31 := by
    unfold wrap
    split <;> omega
  have hwy : -2 ^ 31 ≤ wrap (y + h) ∧ wrap (y + h) < 2 ^ 31 := by
    unfold wrap
    split <;> omega
  have hxw : boxInt (src.x + src.width) = BitVec.ofInt 64 (wrap (x + w)) := by
    rw [hx, hs.width, ofInt_add_ofInt, boxInt_wrap (by omega) (by omega)]
  have hyh' : boxInt (src.y + src.height) = BitVec.ofInt 64 (wrap (y + h)) := by
    rw [hy, hs.height, ofInt_add_ofInt, boxInt_wrap (by omega) (by omega)]
  have hyy : boxInt (src.y + 0) = BitVec.ofInt 64 y := by
    rw [hy, hzero, boxInt_add (by omega) (by omega), add_zero]
  have htop : truth (lt (BitVec.ofInt 64 y) 0) = decide (y < 0) := by
    rw [hzero, truth_lt (by omega) (by omega)]
  have hleft : truth (lt src.x 0) = decide (x < 0) := by
    rw [hx, hzero, truth_lt (by omega) (by omega)]
  have hbottom : truth (gt (BitVec.ofInt 64 (wrap (y + h))) (dest.height - 1)) =
      decide ((H : ℤ) ≤ wrap (y + h)) := by
    rw [hd.height, hone, ofInt_sub_ofInt, truth_gt (by omega) (by omega), decide_eq_decide]
    omega
  have hright : truth (gt (BitVec.ofInt 64 (wrap (x + w))) (dest.width - 1)) =
      decide ((W : ℤ) ≤ wrap (x + w)) := by
    rw [hd.width, hone, ofInt_sub_ofInt, truth_gt (by omega) (by omega), decide_eq_decide]
    omega
  have hover : (W : ℤ) ≤ wrap (x + w) →
      boxInt (BitVec.ofInt 64 (wrap (x + w)) - dest.width) = BitVec.ofInt 64 (wrap (x + w) - W) := by
    intro hle
    rw [hd.width, ofInt_sub_ofInt, boxInt_ofInt (by omega) (by omega)]
  unfold blitClip
  simp only [hxw, hyh', hyy, htop, hleft, hbottom, hright, decide_eq_true_eq]
  refine ⟨?_, ?_, ?_, ?_, ⟨by omega, ?_⟩, ⟨by omega, ?_⟩, ?_⟩
  · dsimp only
    by_cases hneg : x < 0
    · rw [if_pos hneg, if_pos hneg, hx, abs_cancel hx32 hneg, max_eq_right hneg.le]
    · rw [if_neg hneg, hx, max_eq_left (by omega)]
  · dsimp only
    unfold lastColumn
    by_cases hle : (W : ℤ) ≤ wrap (x + w)
    · rw [if_pos hle, if_pos hle, hover hle, ofInt_sub_ofInt, boxInt_ofInt (by omega) (by omega)]
      congr 1
      omega
    · rw [if_neg hle]
      congr 1
      omega
  · dsimp only
    by_cases hneg : y < 0
    · rw [if_pos hneg, max_eq_right hneg.le]
      rfl
    · rw [if_neg hneg, max_eq_left (by omega)]
  · dsimp only
    unfold lastRow
    by_cases hle : (H : ℤ) ≤ wrap (y + h)
    · rw [if_pos hle, if_pos hle, hd.height, hone, ofInt_sub_ofInt,
        boxInt_ofInt (by omega) (by omega)]
    · rw [if_neg hle, if_neg hle]
  · unfold lastColumn
    omega
  · unfold lastRow
    split <;> omega
  · intro hcols hlines
    have hwrapx : wrap (x + w) = x + w := by
      unfold lastColumn wrap at hcols
      unfold wrap
      split_ifs at * <;> omega
    have hwrapy : wrap (y + h) = y + h := by
      unfold lastRow wrap at hlines
      unfold wrap
      split_ifs at * <;> omega
    have hcx : 0 ≤ cutNear x ∧ cutNear x < w := by
      unfold lastColumn at hcols
      unfold cutNear
      omega
    have hcy : 0 ≤ cutNear y ∧ max y 0 + cutNear y = y + 2 * cutNear y ∧
        cutNear y + (lastRow y h H - max y 0) ≤ h := by
      unfold lastRow at hlines ⊢
      unfold cutNear
      split_ifs at * <;> omega
    have hsize : 2 * (h * w) < 2 ^ 31 := by
      have hcomm : 2 * (h * w) = 2 * w * h := by ring
      rw [hcomm]
      exact hs.size
    have htw : cutNear y * w ≤ h * w :=
      mul_le_mul_of_nonneg_right (by omega) (Int.natCast_nonneg w)
    have htw0 : 0 ≤ cutNear y * w := mul_nonneg hcy.1 (Int.natCast_nonneg w)
    -- the values of the locals
    have hskipL : (if x < 0 then abs src.x else 0) = BitVec.ofInt 64 (cutNear x) := by
      unfold cutNear
      by_cases hneg : x < 0
      · unfold cutNear at hcx
        rw [if_pos hneg, hx, abs_ofInt (by omega) (by omega)]
        congr 1
        omega
      · rw [if_neg hneg, max_eq_right (by omega)]
        rfl
    have hsi0 : (if y < 0 then boxInt (0 + abs (BitVec.ofInt 64 y) * shl src.width 1) else 0) =
        BitVec.ofInt 64 (2 * (cutNear y * w)) := by
      unfold cutNear
      by_cases hneg : y < 0
      · unfold cutNear at hcy htw htw0
        have hmul : ((y.natAbs : ℕ) : ℤ) * (2 * w) = 2 * (max (-y) 0 * w) := by
          rw [show ((y.natAbs : ℕ) : ℤ) = max (-y) 0 by omega]
          ring
        rw [if_pos hneg, abs_ofInt (by omega) (by omega), hs.width, shl_one, ← BitVec.ofInt_mul,
          hmul, hzero, boxInt_add (by omega) (by omega), zero_add]
      · rw [if_neg hneg, max_eq_right (by omega), zero_mul]
        rfl
    have hwL : (if x < 0 then boxInt (src.width - BitVec.ofInt 64 (cutNear x)) else src.width) =
        BitVec.ofInt 64 (w - cutNear x) := by
      rw [hs.width]
      by_cases hneg : x < 0
      · rw [if_pos hneg, ofInt_sub_ofInt, boxInt_ofInt (by omega) (by omega)]
      · unfold cutNear
        rw [if_neg hneg, max_eq_right (by omega), sub_zero]
    simp only [hskipL, hsi0, hwL]
    unfold lastColumn at hcols ⊢
    by_cases hle : (W : ℤ) ≤ wrap (x + w)
    · have hskip : (((skipped x w W).toNat : ℕ) : ℤ) = x + w - W := by
        unfold skipped
        rw [if_pos hle]
        omega
      have hfirst : (((firstPixel x y w W).toNat : ℕ) : ℤ) = cutNear y * w := by
        unfold firstPixel
        rw [if_pos hle, add_zero]
        omega
      rw [if_pos hle, if_pos hle, if_pos hle, hover hle, hskip, hfirst, shl_one, ofInt_sub_ofInt,
        ofInt_sub_ofInt, boxInt_ofInt (by omega) (by omega), boxInt_ofInt (by omega) (by omega)]
      refine ⟨by rw [hwrapx], by rw [hwrapx]; ring_nf, ?_, ?_⟩
      · congr 1
        unfold cutNear
        omega
      · push_cast
        apply read_bound (t := cutNear y)
        · omega
        · omega
        · omega
        · omega
        · omega
    · have hskip : (((skipped x w W).toNat : ℕ) : ℤ) = cutNear x := by
        unfold skipped
        rw [if_neg hle]
        omega
      have hfirst : (((firstPixel x y w W).toNat : ℕ) : ℤ) = cutNear y * w + cutNear x := by
        unfold firstPixel
        rw [if_neg hle]
        omega
      rw [if_neg hle, if_neg hle, if_neg hle, hskip, hfirst]
      refine ⟨rfl, by rw [add_sub_cancel_right], ?_, ?_⟩
      · congr 1
        unfold cutNear
        omega
      · push_cast
        apply read_bound (t := cutNear y)
        · omega
        · unfold cutNear
          omega
        · omega
        · unfold cutNear
          omega
        · omega

end Clip

/-! ## The claim -/

/-- Each pixel of the destination in the rectangle of the source is the source
    pixel there; no other byte of memory changes. -/
structure Copies (dest src : Surface) (W H w h : ℕ) (x y : ℤ) (m m' : Mem) : Prop where
  inside : ∀ i < W, ∀ j < H, rectangle x y w h i j →
    pixel m' dest.pixels W i j = pixel m src.pixels w (i - x).toNat (j - y).toNat
  outside : ∀ p, (∀ i < W, ∀ j < H, rectangle x y w h i j → offset dest.pixels p / 2 ≠ j * W + i) →
    m' p = m p

/-- `blit` copies the visible part of the source, whatever is in memory, and stays
    inside the two buffers. -/
def BlitCopies (dest src : Surface) (W H w h : ℕ) (x y : ℤ) : Prop :=
  ∀ m, ∃ N m', (∀ fuel, N ≤ fuel → ∃ l, blit fuel dest src m = .ok l ∧ l.mem = m' ∧
    Inside dest src (2 * W * H) (2 * w * h) l) ∧ Copies dest src W H w h x y m m'

/-- Nothing is visible, or the visible part ends above the bottom row and is not cut
    on both sides. -/
def OneSided (W H w h : ℕ) (x y : ℤ) : Prop :=
  (min (x + w) W ≤ max x 0 ∨ min (y + h) H ≤ max y 0) ∨
    (y + h < H ∧ (0 ≤ x ∨ x + w < W))

instance (W H w h : ℕ) (x y : ℤ) : Decidable (OneSided W H w h x y) :=
  inferInstanceAs (Decidable ((min (x + w) W ≤ max x 0 ∨ min (y + h) H ≤ max y 0) ∨
    (y + h < H ∧ (0 ≤ x ∨ x + w < W))))

section Claim

variable {dest src : Surface} {W H w h : ℕ} {x y : ℤ}

/-- What `blit` does. -/
theorem blit_overlay (hd : Surface16 dest W H) (hs : Surface16 src w h)
    (hx : src.x = BitVec.ofInt 64 x) (hy : src.y = BitVec.ofInt 64 y) (hx32 : Int32 x)
    (hy32 : Int32 y) (hapart : Apart dest src (2 * W * H) (2 * w * h)) (m : Mem) {fuel : ℕ}
    (hf : W + H < fuel) :
    ∃ l, blit fuel dest src m = .ok l ∧
      l.mem = overlay m dest.pixels
        (inBox W (max x 0) (lastColumn x w W) (max y 0) (lastRow y h H))
        (copiedValue src m W (max x 0) (lastColumn x w W) (max y 0) (skipped x w W).toNat
          (firstPixel x y w W).toNat) ∧
      Inside dest src (2 * W * H) (2 * w * h) l :=
  plan_run hd hs.size hapart (blitClip_plan hd hs hx hy hx32 hy32) hf m

/-- A surface with a pixel is less than `2^30` wide and high. -/
theorem size_lt {s : Surface} (hs : Surface16 s W H) (hW : 0 < W) : W < 2 ^ 30 ∧ H < 2 ^ 30 := by
  have hrows := hs.rows
  have hsize := hs.size
  have hle : H ≤ W * H := Nat.le_mul_of_pos_left H hW
  have hcomm : 2 * W * H = 2 * (W * H) := mul_assoc 2 W H
  omega

/-- Where something is visible, the columns that are copied are the visible ones. -/
theorem lastColumn_eq (hd : Surface16 dest W H) (hs : Surface16 src w h)
    (hvisible : max x 0 < min (x + w) W) : wrap (x + w) = x + w := by
  have hW := size_lt hd (show 0 < W by omega)
  have hw := size_lt hs (show 0 < w by omega)
  unfold wrap
  rw [if_pos (by omega)]

/-- With one side cut at most, the source pixel is the right one. -/
theorem copiedValue_eq (hwrap : wrap (x + w) = x + w) (hside : 0 ≤ x ∨ x + w < W) (m : Mem)
    {i j : ℕ} (hi : i < W) (hin : rectangle x y w h i j) :
    copiedValue src m W (max x 0) (lastColumn x w W) (max y 0) (skipped x w W).toNat
      (firstPixel x y w W).toNat (j * W + i) =
      pixel m src.pixels w (i - x).toNat (j - y).toNat := by
  obtain ⟨hmod, hdiv⟩ := index_mod_div hi j
  obtain ⟨hx0, hx1, hy0, hy1⟩ := hin
  have htw : 0 ≤ cutNear y * w := mul_nonneg (le_max_right _ _) (Int.natCast_nonneg w)
  have hcut : 0 ≤ cutNear x := le_max_right _ _
  have hfirst : (((firstPixel x y w W).toNat : ℕ) : ℤ) = firstPixel x y w W := by
    apply Int.toNat_of_nonneg
    unfold firstPixel
    split <;> omega
  have hskip : (((skipped x w W).toNat : ℕ) : ℤ) = skipped x w W := by
    apply Int.toNat_of_nonneg
    unfold skipped
    split <;> omega
  have hstride : skipped x w W + (lastColumn x w W - max x 0) = w := by
    unfold skipped lastColumn cutNear
    split <;> omega
  have hstart : firstPixel x y w W = cutNear y * w + cutNear x := by
    unfold firstPixel cutNear
    split <;> omega
  unfold copiedValue pixel
  rw [hmod, hdiv, hfirst, hskip, hstride, hstart]
  congr 2
  push_cast
  rw [Int.toNat_of_nonneg (by omega), Int.toNat_of_nonneg (by omega)]
  have hy' : cutNear y = max y 0 - y := by
    unfold cutNear
    omega
  have hx' : cutNear x = max x 0 - x := by
    unfold cutNear
    omega
  rw [hy', hx']
  ring

/-- Where nothing is visible, nothing is copied. -/
theorem copied_none (hnone : min (x + w) W ≤ max x 0 ∨ min (y + h) H ≤ max y 0) (n : ℕ) :
    inBox W (max x 0) (lastColumn x w W) (max y 0) (lastRow y h H) n = false := by
  apply inBox_eq_false
  have hx : wrap (x + w) ≤ x + w := by
    unfold wrap
    split <;> omega
  have hy : wrap (y + h) ≤ y + h := by
    unfold wrap
    split <;> omega
  unfold lastColumn lastRow
  rcases hnone with hnone | hnone
  · exact Or.inl (by omega)
  · refine Or.inr ?_
    split <;> omega

/-- A source that is cut on one side at most, and not at the bottom. -/
theorem copies_of_oneSided (hd : Surface16 dest W H) (hs : Surface16 src w h) (m : Mem)
    (hside : OneSided W H w h x y) : Copies dest src W H w h x y m (overlay m dest.pixels
      (inBox W (max x 0) (lastColumn x w W) (max y 0) (lastRow y h H))
      (copiedValue src m W (max x 0) (lastColumn x w W) (max y 0) (skipped x w W).toNat
        (firstPixel x y w W).toNat)) := by
  by_cases hnone : min (x + w) W ≤ max x 0 ∨ min (y + h) H ≤ max y 0
  · rw [overlay_false m (copied_none hnone)]
    refine ⟨?_, fun _ _ => rfl⟩
    rintro i hi j hj ⟨hx0, hx1, hy0, hy1⟩
    omega
  · obtain ⟨hbottom, hside⟩ := hside.resolve_left hnone
    have hwrap := lastColumn_eq hd hs (show max x 0 < min (x + w) W by omega)
    have hH := size_lt hd (show 0 < W by omega)
    have hrow : lastRow y h H = y + h := by
      unfold lastRow wrap
      rw [if_pos (show y + h < 2 ^ 31 by omega), if_neg (by omega)]
    have hcol : lastColumn x w W = min (x + w) W := by
      unfold lastColumn
      rw [hwrap]
    have hbox : ∀ {i j : ℕ}, i < W → (inBox W (max x 0) (lastColumn x w W) (max y 0)
        (lastRow y h H) (j * W + i) = true ↔ rectangle x y w h i j) := by
      intro i j hi
      rw [inBox_pixel hi, decide_eq_true_eq, hrow, hcol]
      unfold rectangle
      omega
    constructor
    · intro i hi j hj hin
      rw [← copiedValue_eq hwrap hside m hi hin]
      unfold pixel
      rw [get16_overlay (index_lt hd hi hj), if_pos ((hbox hi).mpr hin)]
      exact low16_get16 _ _
    · intro p hp
      apply if_neg
      intro hin
      obtain ⟨hi, hj, hn⟩ := inBox_split (H := H) (by omega) (by omega) hin
      rw [hn, hbox hi] at hin
      exact hp _ hi _ hj hin hn

/-- A source that reaches the bottom row: the row is not copied. -/
theorem not_copies_bottom (hd : Surface16 dest W H) (hs : Surface16 src w h)
    (hapart : Apart dest src (2 * W * H) (2 * w * h)) (hx : max x 0 < min (x + w) W)
    (hy : max y 0 < min (y + h) H) (hbottom : (H : ℤ) ≤ y + h) :
    ∃ m, ¬ Copies dest src W H w h x y m (overlay m dest.pixels
      (inBox W (max x 0) (lastColumn x w W) (max y 0) (lastRow y h H))
      (copiedValue src m W (max x 0) (lastColumn x w W) (max y 0) (skipped x w W).toNat
        (firstPixel x y w W).toNat)) := by
  refine ⟨fun p => if offset src.pixels p < 2 * w * h then 1 else 0, fun hcopies => ?_⟩
  obtain ⟨i, hi⟩ := Int.eq_ofNat_of_zero_le (le_max_right x 0)
  have hiW : i < W := by omega
  have hjH : H - 1 < H := by omega
  have hpixel := hcopies.inside i hiW (H - 1) hjH (by unfold rectangle; omega)
  have hout : inBox W (max x 0) (lastColumn x w W) (max y 0) (lastRow y h H)
      ((H - 1) * W + i) = false := by
    rw [inBox_pixel hiW, decide_eq_false_iff_not]
    unfold lastRow
    split <;> omega
  obtain ⟨hd0, hd1⟩ := @offset_inside dest.pixels ((H - 1) * W + i) (2 * W * H)
    (inside_size hiW hjH) hd.size
  obtain ⟨hs0, hs1⟩ := @offset_inside src.pixels ((((H - 1 : ℕ) : ℤ) - y).toNat * w +
    ((i : ℤ) - x).toNat) (2 * w * h) (inside_size (by omega) (by omega)) hs.size
  have hlt := @inside_size W H i (H - 1) hiW hjH
  have hlt' := @inside_size w h ((i : ℤ) - x).toNat (((H - 1 : ℕ) : ℤ) - y).toNat (by omega)
    (by omega)
  have ha0 := hapart _ (lt_of_eq_of_lt hd0 (by omega))
  have ha1 := hapart _ (lt_of_eq_of_lt hd1 (by omega))
  unfold pixel at hpixel
  rw [get16_overlay (index_lt hd hiW hjH), if_neg (by rw [hout]; simp)] at hpixel
  unfold get16 at hpixel
  dsimp only at hpixel
  rw [hs0, hs1, if_neg (by omega), if_neg (by omega), if_pos (by omega), if_pos (by omega)] at hpixel
  exact absurd hpixel (by decide)

/-- A source that is cut on both sides: the first row is copied from the wrong
    source pixel. -/
theorem not_copies_sides (hd : Surface16 dest W H) (hs : Surface16 src w h)
    (hx : max x 0 < min (x + w) W) (hy : max y 0 < min (y + h) H) (hbottom : y + h < H)
    (hleft : x < 0) (hright : (W : ℤ) ≤ x + w) :
    ∃ m, ¬ Copies dest src W H w h x y m (overlay m dest.pixels
      (inBox W (max x 0) (lastColumn x w W) (max y 0) (lastRow y h H))
      (copiedValue src m W (max x 0) (lastColumn x w W) (max y 0) (skipped x w W).toNat
        (firstPixel x y w W).toNat)) := by
  have hwrap := lastColumn_eq hd hs hx
  have hH := size_lt hd (show 0 < W by omega)
  obtain ⟨c, hc⟩ := Int.eq_ofNat_of_zero_le (le_max_right y 0)
  have hjH : c < H := by omega
  -- the source pixels that are read and that should be read
  set S := ((c : ℤ) - y).toNat * w with hS
  set e := S + (0 - x).toNat with he
  refine ⟨fun p => if offset src.pixels p = 2 * e then 1 else 0, fun hcopies => ?_⟩
  have hpixel := hcopies.inside 0 (by omega) c hjH (by unfold rectangle; omega)
  have hin : inBox W (max x 0) (lastColumn x w W) (max y 0) (lastRow y h H) (c * W + 0) = true := by
    have hrow : lastRow y h H = y + h := by
      unfold lastRow wrap
      rw [if_pos (show y + h < 2 ^ 31 by omega), if_neg (by omega)]
    have hcol : lastColumn x w W = min (x + w) W := by
      unfold lastColumn
      rw [hwrap]
    rw [inBox_pixel (by omega), decide_eq_true_eq, hrow, hcol]
    omega
  have hcopied : ∀ m, copiedValue src m W (max x 0) (lastColumn x w W) (max y 0)
      (skipped x w W).toNat (firstPixel x y w W).toNat (c * W + 0) =
      get16 m src.pixels (BitVec.ofInt 64 (2 * S : ℕ)) := by
    intro m
    obtain ⟨hmod, hdiv⟩ := index_mod_div (show 0 < W by omega) c
    have hfirst : firstPixel x y w W = S := by
      unfold firstPixel cutNear
      rw [if_pos (by omega), add_zero, hS]
      push_cast
      rw [show ((((c : ℤ) - y).toNat : ℕ) : ℤ) = max (-y) 0 by omega]
    unfold copiedValue
    rw [hmod, hdiv, hfirst, hc, Int.toNat_natCast, sub_self, zero_mul, max_eq_right hleft.le]
    congr 2
  have hle := @inside_size w h (0 - x).toNat ((c : ℤ) - y).toNat (by omega) (by omega)
  rw [← hS, ← he] at hle
  obtain ⟨hs0, hs1⟩ := @offset_inside src.pixels e (2 * w * h) hle hs.size
  obtain ⟨hr0, hr1⟩ := @offset_inside src.pixels S (2 * w * h) (by omega) hs.size
  unfold pixel at hpixel
  rw [get16_overlay (index_lt hd (by omega) hjH), if_pos hin, hcopied, low16_get16] at hpixel
  change get16 _ _ (BitVec.ofInt 64 (2 * S : ℕ)) = get16 _ _ (BitVec.ofInt 64 (2 * e : ℕ)) at hpixel
  unfold get16 at hpixel
  dsimp only at hpixel
  rw [hs0, hs1, hr0, hr1, if_neg (by omega), if_neg (by omega), if_pos (by omega),
    if_neg (by omega)] at hpixel
  exact absurd hpixel (by decide)

/-- A source that is copied is cut on one side at most, and not at the bottom. -/
theorem BlitCopies.oneSided (hd : Surface16 dest W H) (hs : Surface16 src w h)
    (hx : src.x = BitVec.ofInt 64 x) (hy : src.y = BitVec.ofInt 64 y) (hx32 : Int32 x)
    (hy32 : Int32 y) (hapart : Apart dest src (2 * W * H) (2 * w * h))
    (hcopies : BlitCopies dest src W H w h x y) : OneSided W H w h x y := by
  by_contra hside
  unfold OneSided at hside
  have hmem : ∀ m, Copies dest src W H w h x y m (overlay m dest.pixels
      (inBox W (max x 0) (lastColumn x w W) (max y 0) (lastRow y h H))
      (copiedValue src m W (max x 0) (lastColumn x w W) (max y 0) (skipped x w W).toNat
        (firstPixel x y w W).toNat)) := by
    intro m
    obtain ⟨N, m', hrun, hm'⟩ := hcopies m
    obtain ⟨l, hl, hlm, -⟩ := hrun (N + W + H + 1) (by omega)
    obtain ⟨l', hl', hlm', -⟩ := blit_overlay hd hs hx hy hx32 hy32 hapart m
      (show W + H < N + W + H + 1 by omega)
    obtain rfl := Except.ok.inj (hl.symm.trans hl')
    rw [← hlm', hlm]
    exact hm'
  have hvx : max x 0 < min (x + w) W := by omega
  have hvy : max y 0 < min (y + h) H := by omega
  by_cases hbottom : (H : ℤ) ≤ y + h
  · obtain ⟨m, hm⟩ := not_copies_bottom hd hs hapart hvx hvy hbottom
    exact hm (hmem m)
  · have hleft : x < 0 := by omega
    have hright : (W : ℤ) ≤ x + w := by omega
    obtain ⟨m, hm⟩ := not_copies_sides hd hs hvx hvy (by omega) hleft hright
    exact hm (hmem m)

/-- **`blit` copies the visible part** exactly when there is none, or it ends above
    the bottom row and is not cut on both sides. -/
theorem blit_copies_iff (hd : Surface16 dest W H) (hs : Surface16 src w h)
    (hx : src.x = BitVec.ofInt 64 x) (hy : src.y = BitVec.ofInt 64 y) (hx32 : Int32 x)
    (hy32 : Int32 y) (hapart : Apart dest src (2 * W * H) (2 * w * h)) :
    BlitCopies dest src W H w h x y ↔ OneSided W H w h x y := by
  constructor
  · exact BlitCopies.oneSided hd hs hx hy hx32 hy32 hapart
  · intro hside m
    refine ⟨W + H + 1, _, ?_, copies_of_oneSided hd hs m hside⟩
    intro fuel hf
    exact blit_overlay hd hs hx hy hx32 hy32 hapart m hf

end Claim

/-- A surface of 4 by 3 pixels, and one of 6 by 2 pixels at `(x, y)`. -/
def screen : Surface := ⟨4, 3, 1, 8, 0, 0, 4096⟩

def window (x y : ℤ) : Surface :=
  ⟨6, 2, 1, 12, BitVec.ofInt 64 x, BitVec.ofInt 64 y, 8192⟩

theorem screen_surface16 : Surface16 screen 4 3 :=
  ⟨rfl, rfl, rfl, rfl, by decide, by decide⟩

theorem window_surface16 (x y : ℤ) : Surface16 (window x y) 6 2 :=
  ⟨rfl, rfl, rfl, rfl, by decide, by decide⟩

theorem screen_apart (x y : ℤ) : Apart screen (window x y) (2 * 4 * 3) (2 * 6 * 2) := by
  intro p hp
  unfold offset screen window at *
  dsimp only at hp ⊢
  bv_omega

theorem blit_copies_right :
    BlitCopies screen (window 1 0) 4 3 6 2 1 0 ↔ OneSided 4 3 6 2 1 0 :=
  blit_copies_iff screen_surface16 (window_surface16 1 0) rfl rfl (by unfold Int32; decide)
    (by unfold Int32; decide) (screen_apart 1 0)

/-- A window that covers the bottom row, and one that leaves the screen on both
    sides. -/
theorem blit_copies_clipped :
    ¬ BlitCopies screen (window 1 1) 4 3 6 2 1 1 ∧
      ¬ BlitCopies screen (window (-1) 0) 4 3 6 2 (-1) 0 := by
  constructor
  · intro hcopies
    exact absurd (hcopies.oneSided screen_surface16 (window_surface16 1 1) rfl rfl
      (by unfold Int32; decide) (by unfold Int32; decide) (screen_apart 1 1)) (by decide)
  · intro hcopies
    exact absurd (hcopies.oneSided screen_surface16 (window_surface16 (-1) 0) rfl rfl
      (by unfold Int32; decide) (by unfold Int32; decide) (screen_apart (-1) 0)) (by decide)

end Interim.Gfx
