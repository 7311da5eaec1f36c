import Mathlib.Tactic
import Mathlib.Data.Nat.ModEq

/-!
# One's-complement sums

One's-complement addition of 16-bit words, the big-endian words of a string of
bytes, and the sum of the words of a region of a byte-addressed memory.

Main result: `sum_eq_max_iff`. The one's-complement sum of some words is
`0xFFFF` exactly when their ordinary sum is a positive multiple of `0xFFFF`.
-/

namespace OnesComplement

/-! ## Addition with end-around carry -/

/-- The sum of two words, the carry added back in. -/
def add (a b : ℕ) : ℕ := if a + b < 2 ^ 16 then a + b else (a + b) % 2 ^ 16 + 1

/-- The one's-complement sum of a list of words. -/
def sum (ws : List ℕ) : ℕ := ws.foldl add 0

theorem add_modEq {a b : ℕ} (ha : a < 2 ^ 16) (hb : b < 2 ^ 16) :
    add a b ≡ a + b [MOD 2 ^ 16 - 1] := by
  unfold add
  split
  · exact Nat.ModEq.refl _
  · have h : a + b = ((a + b) % 2 ^ 16 + 1) + (2 ^ 16 - 1) := by omega
    rw [Nat.ModEq]
    omega

theorem add_lt {a b : ℕ} (ha : a < 2 ^ 16) (hb : b < 2 ^ 16) : add a b < 2 ^ 16 := by
  unfold add
  split
  · assumption
  · omega

theorem add_eq_zero_iff {a b : ℕ} : add a b = 0 ↔ a + b = 0 := by
  unfold add
  split
  · exact Iff.rfl
  · omega

/-- What the accumulator is after some more words. -/
theorem foldl_add {ws : List ℕ} (hws : ∀ w ∈ ws, w < 2 ^ 16) {a : ℕ} (ha : a < 2 ^ 16) :
    ws.foldl add a < 2 ^ 16 ∧ ws.foldl add a ≡ a + ws.sum [MOD 2 ^ 16 - 1] ∧
      (ws.foldl add a = 0 ↔ a + ws.sum = 0) := by
  induction ws generalizing a with
  | nil => exact ⟨ha, by simp [Nat.ModEq], by simp⟩
  | cons w ws ih =>
    have hw : w < 2 ^ 16 := hws w List.mem_cons_self
    obtain ⟨hlt, hmod, hzero⟩ :=
      ih (fun v hv => hws v (List.mem_cons_of_mem w hv)) (add_lt ha hw)
    rw [List.foldl_cons, List.sum_cons]
    refine ⟨hlt, ?_, ?_⟩
    · calc
        ws.foldl add (add a w) ≡ add a w + ws.sum [MOD 2 ^ 16 - 1] := hmod
        _ ≡ a + w + ws.sum [MOD 2 ^ 16 - 1] := (add_modEq ha hw).add_right _
        _ = a + (w + ws.sum) := Nat.add_assoc a w ws.sum
    · have hz := @add_eq_zero_iff a w
      omega

/-- A sum of words is `0xFFFF` exactly when their ordinary sum is a positive
    multiple of `0xFFFF`. -/
theorem sum_eq_max_iff {ws : List ℕ} (hws : ∀ w ∈ ws, w < 2 ^ 16) :
    sum ws = 2 ^ 16 - 1 ↔ 0 < ws.sum ∧ 2 ^ 16 - 1 ∣ ws.sum := by
  obtain ⟨hlt, hmod, hzero⟩ := foldl_add hws (a := 0) (by norm_num)
  change sum ws < 2 ^ 16 at hlt
  change sum ws ≡ 0 + ws.sum [MOD 2 ^ 16 - 1] at hmod
  change sum ws = 0 ↔ 0 + ws.sum = 0 at hzero
  rw [Nat.ModEq] at hmod
  rw [Nat.dvd_iff_mod_eq_zero]
  omega

/-! ## The words of a string of bytes -/

/-- The big-endian words of some bytes; an odd last byte is padded with zero. -/
def words : List UInt8 → List ℕ
  | a :: b :: bs => (a.toNat * 256 + b.toNat) :: words bs
  | [a] => [a.toNat * 256]
  | [] => []

theorem words_lt (bs : List UInt8) : ∀ w ∈ words bs, w < 2 ^ 16 := by
  fun_induction words bs with
  | case1 a b bs ih =>
    intro w hw
    have ha := a.toNat_lt
    have hb := b.toNat_lt
    rcases List.mem_cons.mp hw with rfl | hw
    · omega
    · exact ih w hw
  | case2 a =>
    intro w hw
    have ha := a.toNat_lt
    rw [List.mem_singleton] at hw
    omega
  | case3 =>
    intro w hw
    exact absurd hw List.not_mem_nil

/-- The words of an even number of bytes followed by more. -/
theorem words_append (bs cs : List UInt8) (heven : 2 ∣ bs.length) :
    words (bs ++ cs) = words bs ++ words cs := by
  fun_induction words bs with
  | case1 a b bs ih =>
    rw [List.length_cons, List.length_cons] at heven
    rw [List.cons_append, List.cons_append, words, ih (by omega), List.cons_append]
  | case2 a =>
    rw [List.length_singleton] at heven
    omega
  | case3 => rfl

/-! ## The words of a region of memory -/

/-- The `n` bytes from `off` on. -/
def bytesAt (m : ℕ → UInt8) (off n : ℕ) : List UInt8 := (List.range n).map fun k => m (off + k)

@[simp] theorem bytesAt_length (m : ℕ → UInt8) (off n : ℕ) : (bytesAt m off n).length = n := by
  simp [bytesAt]

theorem bytesAt_succ (m : ℕ → UInt8) (off n : ℕ) :
    bytesAt m off (n + 1) = m off :: bytesAt m (off + 1) n := by
  unfold bytesAt
  rw [List.range_succ_eq_map, List.map_cons, List.map_map]
  congr 1
  apply List.map_congr_left
  intro k _
  change m (off + (k + 1)) = m (off + 1 + k)
  congr 1
  omega

theorem bytesAt_congr {m m' : ℕ → UInt8} {off n : ℕ}
    (h : ∀ i, off ≤ i → i < off + n → m i = m' i) : bytesAt m off n = bytesAt m' off n := by
  apply List.map_congr_left
  intro k hk
  exact h (off + k) (Nat.le_add_right _ _) (Nat.add_lt_add_left (List.mem_range.mp hk) off)

theorem bytesAt_add (m : ℕ → UInt8) (off a b : ℕ) :
    bytesAt m off (a + b) = bytesAt m off a ++ bytesAt m (off + a) b := by
  unfold bytesAt
  rw [List.range_add, List.map_append, List.map_map]
  congr 1
  apply List.map_congr_left
  intro k _
  change m (off + (a + k)) = m (off + a + k)
  rw [Nat.add_assoc]

/-- The ordinary sum of the words of the `n` bytes from `off` on. -/
def wordSum (m : ℕ → UInt8) (off n : ℕ) : ℕ := (words (bytesAt m off n)).sum

theorem wordSum_zero (m : ℕ → UInt8) (off : ℕ) : wordSum m off 0 = 0 := rfl

theorem wordSum_one (m : ℕ → UInt8) (off : ℕ) : wordSum m off 1 = (m off).toNat * 256 := by
  simp [wordSum, bytesAt, words]

theorem wordSum_add_two (m : ℕ → UInt8) (off n : ℕ) :
    wordSum m off (n + 2) =
      (m off).toNat * 256 + (m (off + 1)).toNat + wordSum m (off + 2) n := by
  unfold wordSum
  rw [bytesAt_succ, bytesAt_succ, words, List.sum_cons]

theorem wordSum_congr {m m' : ℕ → UInt8} {off n : ℕ}
    (h : ∀ i, off ≤ i → i < off + n → m i = m' i) : wordSum m off n = wordSum m' off n := by
  unfold wordSum
  rw [bytesAt_congr h]

/-- A region of an even number of bytes followed by another one. -/
theorem wordSum_add (m : ℕ → UInt8) (off a b : ℕ) (heven : 2 ∣ a) :
    wordSum m off (a + b) = wordSum m off a + wordSum m (off + a) b := by
  unfold wordSum
  rw [bytesAt_add, words_append _ _ (by rwa [bytesAt_length]), List.sum_append]

theorem wordSum_le (m : ℕ → UInt8) (off n : ℕ) : wordSum m off n ≤ (n + 1) / 2 * 65535 := by
  induction n using Nat.strong_induction_on generalizing off with
  | _ n ih =>
    match n with
    | 0 => exact le_of_eq (by simp [wordSum_zero])
    | 1 =>
      have h := (m off).toNat_lt
      rw [wordSum_one]
      omega
    | n + 2 =>
      have h₁ := (m off).toNat_lt
      have h₂ := (m (off + 1)).toNat_lt
      have := ih n (by omega) (off + 2)
      rw [wordSum_add_two]
      omega

/-- Storing the two bytes of `v` where two zeros were, at an even distance from
    the start of the region, adds `v` to its sum. -/
theorem wordSum_store {m m' : ℕ → UInt8} {off n k v : ℕ} (hk : 2 * k + 2 ≤ n)
    (hzero : m (off + 2 * k) = 0 ∧ m (off + 2 * k + 1) = 0)
    (hstore : (m' (off + 2 * k)).toNat * 256 + (m' (off + 2 * k + 1)).toNat = v)
    (hother : ∀ i, i ≠ off + 2 * k → i ≠ off + 2 * k + 1 → m' i = m i) :
    wordSum m' off n = wordSum m off n + v := by
  obtain ⟨c, rfl⟩ : ∃ c, n = 2 * k + (c + 2) := ⟨n - (2 * k + 2), by omega⟩
  have hbefore : wordSum m' off (2 * k) = wordSum m off (2 * k) :=
    wordSum_congr fun i _ hi => hother i (by omega) (by omega)
  have hafter : wordSum m' (off + 2 * k + 2) c = wordSum m (off + 2 * k + 2) c :=
    wordSum_congr fun i hi _ => hother i (by omega) (by omega)
  rw [wordSum_add m' off (2 * k) _ ⟨k, rfl⟩, wordSum_add m off (2 * k) _ ⟨k, rfl⟩,
    wordSum_add_two, wordSum_add_two, hbefore, hafter, hzero.1, hzero.2, hstore]
  simp only [UInt8.toNat_zero]
  omega

end OnesComplement
