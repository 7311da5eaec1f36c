import Mathlib.Tactic
import Mathlib.Data.List.Range

/-!
# Bresenham's line

The line algorithm with one error term for all octants, over the integers. The
error starts at half of the greater distance, truncated; in each round it
decides whether the pen moves in `x`, in `y` or in both.

`walk_segment` is the main result: the pen draws a connected segment of as many
points as the greater distance, and gets to the end with the last of its moves,
not before. The invariant is `Reached`: the error is what the moves made so far
leave of it, and it stays within the greater distance, which lets the pen move
along the greater distance in every round.
-/

namespace Bresenham

/-- A position and the error. -/
structure Pen where
  x : ℤ
  y : ℤ
  err : ℤ

/-- What stays the same during a walk from `a` to `b`: the distances and the
    directions. -/
structure Walk where
  a : ℤ × ℤ
  b : ℤ × ℤ

namespace Walk

variable (w : Walk)

def dx : ℤ := (w.b.1 - w.a.1).natAbs

def dy : ℤ := (w.b.2 - w.a.2).natAbs

def sx : ℤ := if w.a.1 < w.b.1 then 1 else -1

def sy : ℤ := if w.a.2 < w.b.2 then 1 else -1

/-- The greater distance. -/
def length : ℕ := max (w.b.1 - w.a.1).natAbs (w.b.2 - w.a.2).natAbs

/-- The error at the start. -/
def err : ℤ := (if w.dy < w.dx then w.dx else -w.dy).tdiv 2

def start : Pen := ⟨w.a.1, w.a.2, w.err⟩

/-- One round. -/
def step (p : Pen) : Pen where
  x := if -w.dx < p.err then p.x + w.sx else p.x
  y := if p.err < w.dy then p.y + w.sy else p.y
  err := p.err - (if -w.dx < p.err then w.dy else 0) + (if p.err < w.dy then w.dx else 0)

/-- The pen after `t` rounds. -/
def pen (t : ℕ) : Pen := w.step^[t] w.start

/-- Its position. -/
def point (t : ℕ) : ℤ × ℤ := ((w.pen t).x, (w.pen t).y)

/-- The points drawn in `n` rounds, each before its move. -/
def drawn (n : ℕ) : List (ℤ × ℤ) := (List.range n).map w.point

end Walk

/-- The next point is at most one away in each coordinate, and never farther
    from `b`. -/
structure Next (a b p q : ℤ × ℤ) : Prop where
  near : |q.1 - p.1| ≤ 1 ∧ |q.2 - p.2| ≤ 1
  monotone_x : (a.1 ≤ b.1 → p.1 ≤ q.1) ∧ (b.1 ≤ a.1 → q.1 ≤ p.1)
  monotone_y : (a.2 ≤ b.2 → p.2 ≤ q.2) ∧ (b.2 ≤ a.2 → q.2 ≤ p.2)

/-- The points of a segment from `a` to `b`, without `b`. -/
structure Segment (a b : ℤ × ℤ) (points : List (ℤ × ℤ)) : Prop where
  length : points.length = max (b.1 - a.1).natAbs (b.2 - a.2).natAbs
  start : (points ++ [b]).head? = some a
  box : ∀ p ∈ points, (min a.1 b.1 ≤ p.1 ∧ p.1 ≤ max a.1 b.1) ∧
    (min a.2 b.2 ≤ p.2 ∧ p.2 ≤ max a.2 b.2)
  connected : (points ++ [b]).IsChain (Next a b)

/-! ## The invariant -/

/-- The pen after `t` rounds, `m` moves in `x` and `k` in `y`. -/
structure Reached (w : Walk) (t : ℕ) (m k : ℤ) (p : Pen) : Prop where
  x : p.x = w.a.1 + w.sx * m
  y : p.y = w.a.2 + w.sy * k
  err : p.err = w.err - m * w.dy + k * w.dx
  moves : 0 ≤ m ∧ m ≤ t ∧ 0 ≤ k ∧ k ≤ t
  wide : w.dy < w.dx → m = t ∧ 0 ≤ p.err ∧ p.err < w.dx
  high : w.dx ≤ w.dy → 0 < w.dy → k = t ∧ -w.dy < p.err ∧ p.err ≤ 0

section Walk

variable {w : Walk} {t : ℕ} {m k : ℤ} {p : Pen}

theorem dx_nonneg (w : Walk) : 0 ≤ w.dx := Int.natCast_nonneg _

theorem dy_nonneg (w : Walk) : 0 ≤ w.dy := Int.natCast_nonneg _

theorem length_eq (w : Walk) : (w.length : ℤ) = max w.dx w.dy := by
  unfold Walk.length Walk.dx Walk.dy
  omega

theorem sx_mul_dx (w : Walk) : w.sx * w.dx = w.b.1 - w.a.1 := by
  unfold Walk.sx Walk.dx
  split <;> omega

theorem sy_mul_dy (w : Walk) : w.sy * w.dy = w.b.2 - w.a.2 := by
  unfold Walk.sy Walk.dy
  split <;> omega

theorem sx_eq (w : Walk) : (w.sx = 1 ∧ w.a.1 < w.b.1) ∨ (w.sx = -1 ∧ w.b.1 ≤ w.a.1) := by
  unfold Walk.sx
  split <;> omega

theorem sy_eq (w : Walk) : (w.sy = 1 ∧ w.a.2 < w.b.2) ∨ (w.sy = -1 ∧ w.b.2 ≤ w.a.2) := by
  unfold Walk.sy
  split <;> omega

theorem reached_start (w : Walk) : Reached w 0 0 0 w.start := by
  have hx := dx_nonneg w
  have hy := dy_nonneg w
  refine ⟨by simp [Walk.start], by simp [Walk.start], by simp [Walk.start], by simp, ?_, ?_⟩
  · intro hlt
    have herr : w.start.err = w.dx.tdiv 2 := by
      unfold Walk.start Walk.err
      rw [if_pos hlt]
    rw [herr, Int.tdiv_eq_ediv_of_nonneg hx]
    exact ⟨rfl, by omega, by omega⟩
  · intro hle hpos
    have herr : w.start.err = -(w.dy.tdiv 2) := by
      unfold Walk.start Walk.err
      rw [if_neg (by omega), Int.neg_tdiv]
    rw [herr, Int.tdiv_eq_ediv_of_nonneg hy]
    exact ⟨rfl, by omega, by omega⟩

/-- No coordinate is passed before the greater distance has been walked. -/
theorem Reached.within (h : Reached w t m k p) (ht : t ≤ w.length) : m ≤ w.dx ∧ k ≤ w.dy := by
  have hx := dx_nonneg w
  have hy := dy_nonneg w
  have hlen := length_eq w
  have herr₀ := reached_start w
  have herr := h.err
  have hmoves := h.moves
  by_cases hlt : w.dy < w.dx
  · obtain ⟨rfl, h0, h1⟩ := h.wide hlt
    obtain ⟨-, h2, h3⟩ := herr₀.wide hlt
    have ht' : (t : ℤ) ≤ w.dx := by omega
    refine ⟨ht', ?_⟩
    have hmul : t * w.dy ≤ w.dx * w.dy := mul_le_mul_of_nonneg_right ht' hy
    change 0 ≤ w.err at h2
    have hk : w.dx * k < w.dx * (w.dy + 1) := by
      have hcomm : k * w.dx = w.dx * k := mul_comm _ _
      rw [mul_add, mul_one]
      omega
    have := lt_of_mul_lt_mul_left hk hx
    omega
  · by_cases hpos : 0 < w.dy
    · obtain ⟨rfl, h0, h1⟩ := h.high (by omega) hpos
      obtain ⟨-, h2, h3⟩ := herr₀.high (by omega) hpos
      have ht' : (t : ℤ) ≤ w.dy := by omega
      refine ⟨?_, ht'⟩
      have hmul : t * w.dx ≤ w.dy * w.dx := mul_le_mul_of_nonneg_right ht' hx
      change w.err ≤ 0 at h3
      have hm : w.dy * m < w.dy * (w.dx + 1) := by
        have hcomm : m * w.dy = w.dy * m := mul_comm _ _
        rw [mul_add, mul_one]
        omega
      have := lt_of_mul_lt_mul_left hm hy
      omega
    · omega

/-- A move in `x`, in `y` or in both. -/
theorem Reached.move (h : Reached w t m k p) {i j : ℤ} (hi : i = 0 ∨ i = 1) (hj : j = 0 ∨ j = 1)
    (hx : (w.step p).x = p.x + w.sx * i) (hy : (w.step p).y = p.y + w.sy * j)
    (herr : (w.step p).err = p.err - i * w.dy + j * w.dx)
    (hwide : w.dy < w.dx → i = 1 ∧ 0 ≤ (w.step p).err ∧ (w.step p).err < w.dx)
    (hhigh : w.dx ≤ w.dy → 0 < w.dy → j = 1 ∧ -w.dy < (w.step p).err ∧ (w.step p).err ≤ 0) :
    Reached w (t + 1) (m + i) (k + j) (w.step p) := by
  obtain ⟨hm, hmt, hk, hkt⟩ := h.moves
  refine ⟨?_, ?_, ?_, by omega, ?_, ?_⟩
  · rw [hx, h.x]
    ring
  · rw [hy, h.y]
    ring
  · rw [herr, h.err]
    ring
  · intro hlt
    obtain ⟨hi1, hbounds⟩ := hwide hlt
    obtain ⟨hmeq, -⟩ := h.wide hlt
    exact ⟨by omega, hbounds⟩
  · intro hle hpos
    obtain ⟨hj1, hbounds⟩ := hhigh hle hpos
    obtain ⟨hkeq, -⟩ := h.high hle hpos
    exact ⟨by omega, hbounds⟩

/-- One round. Along the greater distance the pen moves in every one. -/
theorem Reached.step (h : Reached w t m k p) (hlt : t < w.length) :
    ∃ i j : ℤ, (i = 0 ∨ i = 1) ∧ (j = 0 ∨ j = 1) ∧ Reached w (t + 1) (m + i) (k + j) (w.step p) := by
  have hdx := dx_nonneg w
  have hdy := dy_nonneg w
  have hlen := length_eq w
  have hwide := h.wide
  have hhigh := h.high
  by_cases h1 : -w.dx < p.err
  · by_cases h2 : p.err < w.dy
    · have herr : (w.step p).err = p.err - 1 * w.dy + 1 * w.dx := by
        simp [Walk.step, h1, h2]
      refine ⟨1, 1, .inr rfl, .inr rfl, h.move (.inr rfl) (.inr rfl) ?_ ?_ herr ?_ ?_⟩
      · simp [Walk.step, h1]
      · simp [Walk.step, h2]
      · omega
      · omega
    · have herr : (w.step p).err = p.err - 1 * w.dy + 0 * w.dx := by
        simp [Walk.step, h1, h2]
      refine ⟨1, 0, .inr rfl, .inl rfl, h.move (.inr rfl) (.inl rfl) ?_ ?_ herr ?_ ?_⟩
      · simp [Walk.step, h1]
      · simp [Walk.step, h2]
      · omega
      · omega
  · by_cases h2 : p.err < w.dy
    · have herr : (w.step p).err = p.err - 0 * w.dy + 1 * w.dx := by
        simp [Walk.step, h1, h2]
      refine ⟨0, 1, .inl rfl, .inr rfl, h.move (.inl rfl) (.inr rfl) ?_ ?_ herr ?_ ?_⟩
      · simp [Walk.step, h1]
      · simp [Walk.step, h2]
      · omega
      · omega
    · -- neither move: the error would be outside the greater distance
      exfalso
      omega

theorem pen_succ (w : Walk) (t : ℕ) : w.pen (t + 1) = w.step (w.pen t) :=
  Function.iterate_succ_apply' _ _ _

/-- The invariant holds up to the last round. -/
theorem reached (w : Walk) (t : ℕ) (ht : t ≤ w.length) : ∃ m k, Reached w t m k (w.pen t) := by
  induction t with
  | zero => exact ⟨0, 0, reached_start w⟩
  | succ t ih =>
    obtain ⟨m, k, h⟩ := ih (by omega)
    obtain ⟨i, j, -, -, hstep⟩ := h.step (by omega)
    rw [← pen_succ] at hstep
    exact ⟨_, _, hstep⟩

/-! ## The walk -/

/-- After as many rounds as the greater distance the pen is at `b`. -/
theorem point_length (w : Walk) : w.point w.length = w.b := by
  obtain ⟨m, k, h⟩ := reached w w.length le_rfl
  have hdx := dx_nonneg w
  have hdy := dy_nonneg w
  have hlen := length_eq w
  obtain ⟨hm, hk⟩ := h.within le_rfl
  have herr := h.err
  have hmoves := h.moves
  have hend : m = w.dx ∧ k = w.dy := by
    by_cases hlt : w.dy < w.dx
    · obtain ⟨hmeq, h0, h1⟩ := h.wide hlt
      obtain ⟨-, h2, h3⟩ := (reached_start w).wide hlt
      change w.err < w.dx at h3
      have hmx : m = w.dx := by omega
      refine ⟨hmx, ?_⟩
      have hlow : w.dx * (w.dy - 1) < w.dx * k := by
        rw [hmx] at herr
        have hcomm : k * w.dx = w.dx * k := mul_comm _ _
        rw [mul_sub, mul_one]
        omega
      have := lt_of_mul_lt_mul_left hlow hdx
      omega
    · by_cases hpos : 0 < w.dy
      · obtain ⟨hkeq, h0, h1⟩ := h.high (by omega) hpos
        obtain ⟨-, h2, h3⟩ := (reached_start w).high (by omega) hpos
        change -w.dy < w.err at h2
        have hky : k = w.dy := by omega
        refine ⟨?_, hky⟩
        have hlow : w.dy * (w.dx - 1) < w.dy * m := by
          rw [hky] at herr
          have hcomm : m * w.dy = w.dy * m := mul_comm _ _
          rw [mul_sub, mul_one]
          omega
        have := lt_of_mul_lt_mul_left hlow hdy
        omega
      · omega
  have hx := sx_mul_dx w
  have hy := sy_mul_dy w
  unfold Walk.point
  rw [h.x, h.y, hend.1, hend.2, hx, hy]
  exact Prod.ext (by ring) (by ring)

/-- Before that it is not. -/
theorem point_ne (w : Walk) {t : ℕ} (ht : t < w.length) : w.point t ≠ w.b := by
  obtain ⟨m, k, h⟩ := reached w t ht.le
  have hlen := length_eq w
  have hx := sx_mul_dx w
  have hy := sy_mul_dy w
  intro hb
  have hb1 : w.a.1 + w.sx * m = w.b.1 := h.x ▸ congrArg Prod.fst hb
  have hb2 : w.a.2 + w.sy * k = w.b.2 := h.y ▸ congrArg Prod.snd hb
  by_cases hlt : w.dy < w.dx
  · obtain ⟨rfl, -⟩ := h.wide hlt
    obtain ⟨hs, -⟩ | ⟨hs, -⟩ := sx_eq w
    all_goals
      rw [hs] at hx hb1
      omega
  · obtain ⟨rfl, -⟩ := h.high (by omega) (by omega)
    obtain ⟨hs, -⟩ | ⟨hs, -⟩ := sy_eq w
    all_goals
      rw [hs] at hy hb2
      omega

/-- One coordinate of a move. -/
theorem move_bounds {a b p q d s m i : ℤ} (hd : d = (b - a).natAbs)
    (hs : (s = 1 ∧ a < b) ∨ (s = -1 ∧ b ≤ a)) (hm : 0 ≤ m) (hi : i = 0 ∨ i = 1) (hle : m + i ≤ d)
    (hq : q = p + s * i) : |q - p| ≤ 1 ∧ (a ≤ b → p ≤ q) ∧ (b ≤ a → q ≤ p) := by
  rw [abs_le]
  obtain ⟨rfl, hab⟩ | ⟨rfl, hab⟩ := hs
  · omega
  · omega

/-- Each point is next to the one before. -/
theorem point_next (w : Walk) {t : ℕ} (ht : t < w.length) :
    Next w.a w.b (w.point t) (w.point (t + 1)) := by
  obtain ⟨m, k, h⟩ := reached w t ht.le
  obtain ⟨i, j, hi, hj, hstep⟩ := h.step ht
  obtain ⟨hm, hk⟩ := hstep.within ht
  rw [← pen_succ] at hstep
  have hx : (w.point (t + 1)).1 = (w.point t).1 + w.sx * i := by
    unfold Walk.point
    rw [hstep.x, h.x]
    ring
  have hy : (w.point (t + 1)).2 = (w.point t).2 + w.sy * j := by
    unfold Walk.point
    rw [hstep.y, h.y]
    ring
  have hbx := move_bounds rfl (sx_eq w) h.moves.1 hi hm hx
  have hby := move_bounds rfl (sy_eq w) h.moves.2.2.1 hj hk hy
  exact ⟨⟨hbx.1, hby.1⟩, hbx.2, hby.2⟩

/-- Every point is in the box of `a` and `b`. -/
theorem point_box (w : Walk) {t : ℕ} (ht : t ≤ w.length) :
    (min w.a.1 w.b.1 ≤ (w.point t).1 ∧ (w.point t).1 ≤ max w.a.1 w.b.1) ∧
      (min w.a.2 w.b.2 ≤ (w.point t).2 ∧ (w.point t).2 ≤ max w.a.2 w.b.2) := by
  obtain ⟨m, k, h⟩ := reached w t ht
  obtain ⟨hm, hk⟩ := h.within ht
  have hmoves := h.moves
  have hx : (w.point t).1 = w.a.1 + w.sx * m := h.x
  have hy : (w.point t).2 = w.a.2 + w.sy * k := h.y
  unfold Walk.dx at hm
  unfold Walk.dy at hk
  constructor
  · obtain ⟨hs, hab⟩ | ⟨hs, hab⟩ := sx_eq w
    all_goals
      rw [hs] at hx
      omega
  · obtain ⟨hs, hab⟩ | ⟨hs, hab⟩ := sy_eq w
    all_goals
      rw [hs] at hy
      omega

/-- The error stays within the greater distance. -/
theorem err_bounds (w : Walk) {t : ℕ} (ht : t ≤ w.length) :
    -(w.length : ℤ) ≤ (w.pen t).err ∧ (w.pen t).err ≤ w.length := by
  obtain ⟨m, k, h⟩ := reached w t ht
  have hdx := dx_nonneg w
  have hdy := dy_nonneg w
  have hlen := length_eq w
  by_cases hlt : w.dy < w.dx
  · have hwide := h.wide hlt
    omega
  · by_cases hpos : 0 < w.dy
    · have hhigh := h.high (by omega) hpos
      omega
    · have hzero : w.length = 0 := by omega
      obtain rfl : t = 0 := by omega
      have hstart : (w.pen 0).err = (if w.dy < w.dx then w.dx else -w.dy).tdiv 2 := rfl
      rw [hstart, if_neg hlt, show -w.dy = 0 by omega, Int.zero_tdiv]
      omega

/-- **Bresenham's line.** The points drawn in as many rounds as the greater
    distance are a connected segment from `a` to `b`. -/
theorem walk_segment (w : Walk) : Segment w.a w.b (w.drawn w.length) := by
  have hall : w.drawn w.length ++ [w.b] = (List.range (w.length + 1)).map w.point := by
    unfold Walk.drawn
    rw [List.range_succ, List.map_append, List.map_singleton, point_length]
  refine ⟨?_, ?_, ?_, ?_⟩
  · unfold Walk.drawn
    rw [List.length_map, List.length_range]
    rfl
  · rw [hall, List.range_succ_eq_map]
    rfl
  · intro p hp
    obtain ⟨t, ht, rfl⟩ := List.mem_map.mp hp
    exact point_box w (List.mem_range.mp ht).le
  · rw [hall, List.isChain_map, List.isChain_range_succ]
    intro t ht
    exact point_next w ht

end Walk

end Bresenham
