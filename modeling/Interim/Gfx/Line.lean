import Interim.Gfx.Surface
import Interim.Library.Bresenham

/-!
# `line` of `gfx.l`

The function `(line s a b color)` (`sledge/os/gfx.l`, lines 40–62). The points it
passes to `set-pixel` are recorded.

Main result: `line_segment`. With coordinates below `2^28` no integer leaves its
32 bits, and `line` is Bresenham's walk: it draws a connected segment in exactly
as many rounds as the greater distance.
-/

namespace Interim.Gfx

open Heap Lisp Bresenham

/-! ## The function -/

/-- The locals that the loop of `line` changes, the memory, and the points passed
    to `set-pixel`. -/
structure Line where
  xa : BitVec 64
  ya : BitVec 64
  err : BitVec 64
  mem : Mem
  drawn : List (BitVec 64 × BitVec 64)

/-- Line 55: the condition of the loop. -/
def lineCond (xb yb : BitVec 64) (l : Line) : Bool :=
  truth (not (and (eq l.xa xb) (eq l.ya yb)))

/-- Lines 56–59: the body of the loop. -/
def lineBody (s : Surface) (color dx dy sx sy : BitVec 64) (l : Line) : Line :=
  let mem := setPixel s l.mem l.xa l.ya color
  let e2 := l.err
  let moveX := truth (gt e2 (0 - dx))
  let err := if moveX then boxInt (l.err - dy) else l.err
  let xa := if moveX then boxInt (l.xa + sx) else l.xa
  let moveY := truth (lt e2 dy)
  let err := if moveY then boxInt (err + dx) else err
  let ya := if moveY then boxInt (l.ya + sy) else l.ya
  ⟨xa, ya, err, mem, l.drawn ++ [(l.xa, l.ya)]⟩

/-- `(line s a b color)` (lines 40–62): the locals when it returns. -/
def line (fuel : ℕ) (s : Surface) (m : Mem) (a b : BitVec 64 × BitVec 64) (color : BitVec 64) :
    Except Stop Line := do
  let (xa, ya) := a
  let (xb, yb) := b
  let dx := abs (xb - xa)
  let dy := abs (yb - ya)
  let sx := if truth (lt xa xb) then 1 else -1
  let sy := if truth (lt ya yb) then 1 else -1
  let err := boxInt (if truth (gt dx dy) then dx else 0 - dy)
  let err := boxInt (← div err 2)
  WhileLoop.loop .fuel (lineCond xb yb) (fun l => .ok (lineBody s color dx dy sx sy l)) fuel
    ⟨xa, ya, err, m, []⟩

/-! ## The walk -/

/-- A point as a pair of Lisp integers. -/
def word (p : ℤ × ℤ) : BitVec 64 × BitVec 64 := (BitVec.ofInt 64 p.1, BitVec.ofInt 64 p.2)

/-- The memory after the points were drawn. -/
def draw (s : Surface) (color : BitVec 64) (m : Mem) (points : List (ℤ × ℤ)) : Mem :=
  points.foldl (fun m p => setPixel s m (word p).1 (word p).2 color) m

/-- The locals of `line` after `t` rounds of a walk. -/
def lineAt (s : Surface) (color : BitVec 64) (m : Mem) (w : Walk) (t : ℕ) : Line where
  xa := BitVec.ofInt 64 (w.pen t).x
  ya := BitVec.ofInt 64 (w.pen t).y
  err := BitVec.ofInt 64 (w.pen t).err
  mem := draw s color m (w.drawn t)
  drawn := (w.drawn t).map word

/-- The coordinates of a point fit: their differences and the error fit 32 bits. -/
def Small (p : ℤ × ℤ) : Prop := p.1.natAbs < 2 ^ 28 ∧ p.2.natAbs < 2 ^ 28

section Rounds

variable {s : Surface} {color : BitVec 64} {m : Mem} {w : Walk} {t : ℕ}

theorem length_lt (ha : Small w.a) (hb : Small w.b) : w.length < 2 ^ 29 := by
  obtain ⟨ha1, ha2⟩ := ha
  obtain ⟨hb1, hb2⟩ := hb
  unfold Walk.length
  omega

theorem pen_small (ha : Small w.a) (hb : Small w.b) (ht : t ≤ w.length) :
    Small ((w.pen t).x, (w.pen t).y) := by
  obtain ⟨ha1, ha2⟩ := ha
  obtain ⟨hb1, hb2⟩ := hb
  obtain ⟨hx, hy⟩ := point_box w ht
  unfold Walk.point at hx hy
  constructor
  · dsimp only at hx ⊢
    omega
  · dsimp only at hy ⊢
    omega

theorem drawn_succ (w : Walk) (t : ℕ) : w.drawn (t + 1) = w.drawn t ++ [w.point t] := by
  unfold Walk.drawn
  rw [List.range_succ, List.map_append, List.map_singleton]

/-- The condition holds until the pen is at `b`. -/
theorem lineCond_at (ha : Small w.a) (hb : Small w.b) (ht : t ≤ w.length) :
    lineCond (word w.b).1 (word w.b).2 (lineAt s color m w t) = decide (t < w.length) := by
  obtain ⟨hx, hy⟩ := pen_small ha hb ht
  obtain ⟨hb1, hb2⟩ := hb
  unfold lineCond lineAt word
  dsimp only at hx hy ⊢
  have hpoint : w.point t = w.b ↔ (w.pen t).x = w.b.1 ∧ (w.pen t).y = w.b.2 := Prod.ext_iff
  rw [truth_not, truth_and_eq, ← decide_not, decide_eq_decide, ofInt_inj (by omega) (by omega),
    ofInt_inj (by omega) (by omega), ← hpoint]
  constructor
  · intro hne
    apply lt_of_le_of_ne ht
    rintro rfl
    exact hne (point_length w)
  · exact point_ne w

/-- One round. -/
theorem lineBody_at (ha : Small w.a) (hb : Small w.b) (ht : t < w.length) :
    lineBody s color (BitVec.ofInt 64 w.dx) (BitVec.ofInt 64 w.dy) (BitVec.ofInt 64 w.sx)
      (BitVec.ofInt 64 w.sy) (lineAt s color m w t) = lineAt s color m w (t + 1) := by
  have hlen := length_lt ha hb
  obtain ⟨hx, hy⟩ := pen_small ha hb ht.le
  obtain ⟨he1, he2⟩ := err_bounds w ht.le
  have hdx := dx_nonneg w
  have hdy := dy_nonneg w
  have hmax := length_eq w
  have hsx := sx_eq w
  have hsy := sy_eq w
  dsimp only at hx hy
  have hdrawn : (lineAt s color m w t).drawn ++ [((lineAt s color m w t).xa,
      (lineAt s color m w t).ya)] = (lineAt s color m w (t + 1)).drawn := by
    unfold lineAt
    dsimp only
    rw [drawn_succ, List.map_append]
    rfl
  have hmem : setPixel s (lineAt s color m w t).mem (lineAt s color m w t).xa
      (lineAt s color m w t).ya color = (lineAt s color m w (t + 1)).mem := by
    unfold lineAt draw
    dsimp only
    rw [drawn_succ, List.foldl_append]
    rfl
  have hzero : (0 : BitVec 64) = BitVec.ofInt 64 0 := rfl
  have hmoveX : truth (gt (BitVec.ofInt 64 (w.pen t).err) (0 - BitVec.ofInt 64 w.dx)) =
      decide (-w.dx < (w.pen t).err) := by
    rw [hzero, ofInt_sub_ofInt, truth_gt (by omega) (by omega), zero_sub]
  have hmoveY : truth (lt (BitVec.ofInt 64 (w.pen t).err) (BitVec.ofInt 64 w.dy)) =
      decide ((w.pen t).err < w.dy) := truth_lt (by omega) (by omega)
  have hlast : ∀ {l l' : Line}, l.xa = l'.xa → l.ya = l'.ya → l.err = l'.err → l.mem = l'.mem →
      l.drawn = l'.drawn → l = l' := by
    rintro ⟨⟩ ⟨⟩ rfl rfl rfl rfl rfl
    rfl
  have hnext := pen_succ w t
  unfold Walk.step at hnext
  apply hlast
  · change (if truth (gt (BitVec.ofInt 64 (w.pen t).err) (0 - BitVec.ofInt 64 w.dx)) = true then
        boxInt (BitVec.ofInt 64 (w.pen t).x + BitVec.ofInt 64 w.sx)
      else BitVec.ofInt 64 (w.pen t).x) = BitVec.ofInt 64 (w.pen (t + 1)).x
    rw [hmoveX, boxInt_add (by omega) (by omega), hnext]
    by_cases hx : -w.dx < (w.pen t).err
    · rw [if_pos (decide_eq_true hx), if_pos hx]
    · rw [if_neg (by simpa using hx), if_neg hx]
  · change (if truth (lt (BitVec.ofInt 64 (w.pen t).err) (BitVec.ofInt 64 w.dy)) = true then
        boxInt (BitVec.ofInt 64 (w.pen t).y + BitVec.ofInt 64 w.sy)
      else BitVec.ofInt 64 (w.pen t).y) = BitVec.ofInt 64 (w.pen (t + 1)).y
    rw [hmoveY, boxInt_add (by omega) (by omega), hnext]
    by_cases hy : (w.pen t).err < w.dy
    · rw [if_pos (decide_eq_true hy), if_pos hy]
    · rw [if_neg (by simpa using hy), if_neg hy]
  · change (if truth (lt (BitVec.ofInt 64 (w.pen t).err) (BitVec.ofInt 64 w.dy)) = true then
        boxInt ((if truth (gt (BitVec.ofInt 64 (w.pen t).err) (0 - BitVec.ofInt 64 w.dx)) = true then
          boxInt (BitVec.ofInt 64 (w.pen t).err - BitVec.ofInt 64 w.dy)
          else BitVec.ofInt 64 (w.pen t).err) + BitVec.ofInt 64 w.dx)
      else if truth (gt (BitVec.ofInt 64 (w.pen t).err) (0 - BitVec.ofInt 64 w.dx)) = true then
        boxInt (BitVec.ofInt 64 (w.pen t).err - BitVec.ofInt 64 w.dy)
      else BitVec.ofInt 64 (w.pen t).err) = BitVec.ofInt 64 (w.pen (t + 1)).err
    have herr : (if -w.dx < (w.pen t).err then
        boxInt (BitVec.ofInt 64 (w.pen t).err - BitVec.ofInt 64 w.dy)
        else BitVec.ofInt 64 (w.pen t).err) =
        BitVec.ofInt 64 ((w.pen t).err - if -w.dx < (w.pen t).err then w.dy else 0) := by
      by_cases hx : -w.dx < (w.pen t).err
      · rw [if_pos hx, if_pos hx, ofInt_sub_ofInt, boxInt_ofInt (by omega) (by omega)]
      · rw [if_neg hx, if_neg hx, sub_zero]
    simp only [hmoveX, hmoveY, decide_eq_true_eq]
    rw [herr, boxInt_add (by split <;> omega) (by split <;> omega), hnext]
    dsimp only
    by_cases hy : (w.pen t).err < w.dy
    · rw [if_pos hy, if_pos hy]
    · rw [if_neg hy, if_neg hy, add_zero]
  · exact hmem
  · exact hdrawn

/-- The parameters of the walk, as `line` computes them. -/
theorem line_start (fuel : ℕ) (ha : Small w.a) (hb : Small w.b) :
    line fuel s m (word w.a) (word w.b) color =
      WhileLoop.loop .fuel (lineCond (word w.b).1 (word w.b).2)
        (fun l => .ok (lineBody s color (BitVec.ofInt 64 w.dx) (BitVec.ofInt 64 w.dy)
          (BitVec.ofInt 64 w.sx) (BitVec.ofInt 64 w.sy) l)) fuel (lineAt s color m w 0) := by
  obtain ⟨ha1, ha2⟩ := ha
  obtain ⟨hb1, hb2⟩ := hb
  have hdx : abs (BitVec.ofInt 64 w.b.1 - BitVec.ofInt 64 w.a.1) = BitVec.ofInt 64 w.dx := by
    rw [ofInt_sub_ofInt, abs_ofInt (by omega) (by omega)]
    rfl
  have hdy : abs (BitVec.ofInt 64 w.b.2 - BitVec.ofInt 64 w.a.2) = BitVec.ofInt 64 w.dy := by
    rw [ofInt_sub_ofInt, abs_ofInt (by omega) (by omega)]
    rfl
  have hsx : (if truth (lt (BitVec.ofInt 64 w.a.1) (BitVec.ofInt 64 w.b.1)) = true then 1 else -1) =
      BitVec.ofInt 64 w.sx := by
    rw [truth_lt (by omega) (by omega)]
    unfold Walk.sx
    split_ifs <;> first | rfl | simp_all
  have hsy : (if truth (lt (BitVec.ofInt 64 w.a.2) (BitVec.ofInt 64 w.b.2)) = true then 1 else -1) =
      BitVec.ofInt 64 w.sy := by
    rw [truth_lt (by omega) (by omega)]
    unfold Walk.sy
    split_ifs <;> first | rfl | simp_all
  have hdx' : w.dx < 2 ^ 29 := by
    unfold Walk.dx
    omega
  have hdy' : w.dy < 2 ^ 29 := by
    unfold Walk.dy
    omega
  have hx0 := dx_nonneg w
  have hy0 := dy_nonneg w
  have herr : boxInt (if truth (gt (BitVec.ofInt 64 w.dx) (BitVec.ofInt 64 w.dy)) = true then
      BitVec.ofInt 64 w.dx else 0 - BitVec.ofInt 64 w.dy) =
      BitVec.ofInt 64 (if w.dy < w.dx then w.dx else -w.dy) := by
    rw [truth_gt (by omega) (by omega)]
    by_cases hlt : w.dy < w.dx
    · rw [if_pos (decide_eq_true hlt), if_pos hlt, boxInt_ofInt (by omega) (by omega)]
    · rw [if_neg (by simpa using hlt), if_neg hlt, show (0 : BitVec 64) = BitVec.ofInt 64 0 from rfl,
        ofInt_sub_ofInt, zero_sub, boxInt_ofInt (by omega) (by omega)]
  have hhalf : (if w.dy < w.dx then w.dx else -w.dy).natAbs < 2 ^ 29 := by
    split <;> omega
  have hw : ((if w.dy < w.dx then w.dx else -w.dy).tdiv 2).natAbs < 2 ^ 29 := by
    rw [Int.natAbs_tdiv]
    change _ / 2 < _
    omega
  unfold line word
  dsimp only
  rw [hdx, hdy, hsx, hsy, herr, div_two (by omega) (by omega), ok_bind,
    boxInt_ofInt (by omega) (by omega)]
  rfl

end Rounds

end Interim.Gfx
