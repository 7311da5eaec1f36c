import Interim.Lisp.Lib

/-!
# `split` of `lib.l`

The function `(split str sepstr)` (`sledge/os/lib.l`, lines 36–60). It scans
the string backwards, down to the position -1 in front of it, and conses the
piece behind each separator and the first piece onto the result.

* `split_inverts_join_iff` — the result is the list of the maximal
  separator-free pieces exactly for non-empty strings; on the empty string
  `(substr str 0 0)` reads outside. One more string fails: the longest
  possible one, when it has no separator, since its only piece does not fit
  `bytes_alloc`.

The quoted `()` that ends the result is a constant of the program, `nilCell`.
-/

namespace Interim.Lisp

open Heap
open Writer (cellAt)

/-! ## The function -/

/-- The locals that the loop of `split` changes, and the memory. -/
structure Split where
  i : BitVec 64
  lastI : BitVec 64
  result : Word
  heap : Heap

/-- Lines 47–49: `(if (lt i 0) (let c 0) (let c (get8 str i)))`. -/
def splitChar (str : Word) (l : Split) : Except Stop (BitVec 64) :=
  if truth (lt l.i 0) then .ok 0 else do
    let c ← get8 l.heap str l.i
    .ok (boxInt c)

/-- Lines 51–55: cons the piece behind position `i` onto the result. -/
def splitPiece (str : Word) (l : Split) : Except Stop Split := do
  let partsize := boxInt (l.lastI - l.i - 1)
  if truth (gt partsize (-1)) then
    let (p, h) ← l.heap.allocSubstr str ((l.i + 1).setWidth 32) (partsize.setWidth 32)
    let (r, h) ← h.allocCons (.cell p) l.result
    .ok { l with result := .cell r, heap := h, lastI := l.i }
  else .ok { l with lastI := l.i }

/-- Lines 47–57: the body of the loop. -/
def splitBody (str : Word) (sep : BitVec 64) (l : Split) : Except Stop Split := do
  let c ← splitChar str l
  let l ← if truth (or (eq c sep) (eq l.i (-1))) then splitPiece str l else .ok l
  .ok { l with i := boxInt (l.i - 1) }

/-- Line 46: `(gt i -2)`. -/
def splitCond (l : Split) : Bool := truth (gt l.i (-2))

/-- `(split str sepstr)` (lines 36–60). -/
def split (fuel : ℕ) (h : Heap) (nilCell str sepstr : Word) : Except Stop (Word × Heap) := do
  let sep := boxInt (← get8 h sepstr 0)
  let sz := boxInt (← size h str)
  let i := boxInt (sz - 1)
  let l ← WhileLoop.loop .fuel splitCond (splitBody str sep) fuel ⟨i, boxInt (i + 1), nilCell, h⟩
  .ok (l.result, l.heap)

/-! ## Pieces -/

/-- The word `w` is a list of strings with the contents `pieces`, ended by
    `nilCell`. -/
def IsPieces (h : Heap) (nilCell : Word) : Word → List (List UInt8) → Prop
  | w, [] => w = nilCell
  | w, p :: ps => ∃ i j rest, w = .cell i ∧ i ∉ h.Supply ∧ h.cells i = ⟨.cell j, rest, tagCons⟩ ∧
      (h.cells j).tag = tagStr ∧ TextCell h j p.length (p ++ [0]) ∧ IsPieces h nilCell rest ps

/-- `pieces` are the maximal pieces of `bytes` without `sep`: joined with `sep`
    they are `bytes`. -/
structure Splits (sep : UInt8) (bytes : List UInt8) (pieces : List (List UInt8)) : Prop where
  free : ∀ p ∈ pieces, sep ∉ p
  length : pieces.length = bytes.count sep + 1
  join : [sep].intercalate pieces = bytes

section Pieces

variable {h h' : Heap} {nilCell : Word}

theorem IsPieces.keeps (hk : KeepsAll h h') :
    ∀ {ps : List (List UInt8)} {w : Word}, IsPieces h nilCell w ps → IsPieces h' nilCell w ps
  | [], _, hp => hp
  | _ :: _, _, ⟨i, j, rest, hw, hi, hc, htag, ht, hrest⟩ =>
    ⟨i, j, rest, hw, fun hs => hi (hk.keeps.supply hs), by rw [hk.cell hi]; exact hc,
      by rw [hk.cell ht.live]; exact htag, ht.keeps hk, hrest.keeps hk⟩

/-- `List.splitOn` gives the maximal pieces. -/
theorem splitOn_splits (sep : UInt8) (bytes : List UInt8) :
    Splits sep bytes (bytes.splitOn sep) := by
  refine ⟨?_, ?_, List.intercalate_splitOn sep⟩
  · induction bytes with
    | nil => simp [List.splitOn_nil]
    | cons c bytes ih =>
      rw [List.splitOn_cons_eq_if_modifyHead]
      split
      · simpa using ih
      · rename_i hc
        cases hs : bytes.splitOn sep with
        | nil => exact absurd hs (List.splitOn_ne_nil sep bytes)
        | cons p ps =>
          rw [hs] at ih
          intro q hq
          rcases List.mem_cons.mp hq with rfl | hq
          · rw [List.mem_cons]
            rintro (rfl | hm)
            · exact hc (beq_self_eq_true _)
            · exact ih p List.mem_cons_self hm
          · exact ih q (List.mem_cons_of_mem _ hq)
  · induction bytes with
    | nil => simp [List.splitOn_nil]
    | cons c bytes ih =>
      rw [List.splitOn_cons_eq_if_modifyHead, List.count_cons]
      split
      · rename_i hc
        simp [ih]
      · rename_i hc
        simp [ih]

end Pieces

/-! ## One round -/

section Round

variable {h : Heap} {x n k m : ℕ} {data : List UInt8} {sep : UInt8} {nilCell : Word} {l : Split}

theorem truth_or_eq (a b c d : BitVec 64) :
    truth (or (eq a b) (eq c d)) = decide (a = b ∨ c = d) := by
  unfold Lisp.or Lisp.eq
  by_cases hab : a = b
  · rw [if_pos hab, decide_eq_true (Or.inl hab)]
    rfl
  · by_cases hcd : c = d
    · rw [if_neg hab, if_pos hcd, decide_eq_true (Or.inr hcd)]
      rfl
    · rw [if_neg hab, if_neg hcd, decide_eq_false (not_or.mpr ⟨hab, hcd⟩)]
      rfl

/-- The byte in front of the remaining `k` bytes, or 0 at position -1. -/
theorem splitChar_at (ht : TextCell l.heap x n data) (hk : k ≤ n) (hi : l.i = BitVec.ofInt 64 (k - 1)) :
    splitChar (.cell x) l = .ok (BitVec.ofInt 64
      (if k = 0 then 0 else (data.getD (k - 1) 0).toNat : ℕ)) := by
  have hn := ht.size_lt
  have hle := ht.size_le
  have hcond : truth (lt l.i 0) = decide (k = 0) := by
    rw [hi, show (0 : BitVec 64) = BitVec.ofInt 64 0 from rfl, truth_lt (by omega) (by omega),
      decide_eq_decide]
    omega
  unfold splitChar
  rw [hcond]
  by_cases h0 : k = 0
  · rw [if_pos (by simpa using h0), if_pos h0]
    rfl
  · have hi' : l.i = BitVec.ofInt 64 (k - 1 : ℕ) := by
      rw [hi]
      congr 1
      omega
    rw [if_neg (by simpa using h0), if_neg h0, hi', get8_text ht (by omega), ok_bind, boxInt_byte]

/-- `setWidth 32` of a number that fits. -/
theorem setWidth_ofInt_toNat {a : ℕ} (ha : a < 2 ^ 32) :
    ((BitVec.ofInt 64 (a : ℤ)).setWidth 32).toNat = a := by
  rw [BitVec.ofInt_natCast, BitVec.toNat_setWidth, BitVec.toNat_ofNat]
  omega

/-- The piece from `k` to `m` is consed onto the result. -/
theorem splitPiece_at {done : List (List UInt8)} (hok : l.heap.FreeListOk) (hroom : 2 ≤ l.heap.room)
    (ht : TextCell l.heap x n data) (hpos : 0 < n) (hkm : k ≤ m) (hmn : m ≤ n)
    (hfit : ¬ (k = 0 ∧ n = 2 ^ 31 - 1 ∧ n ≤ m)) (hi : l.i = BitVec.ofInt 64 (k - 1))
    (hlast : l.lastI = BitVec.ofInt 64 m) (hdone : IsPieces l.heap nilCell l.result done) :
    ∃ l', splitPiece (.cell x) l = .ok l' ∧ l'.i = l.i ∧ l'.lastI = l.i ∧
      KeepsAll l.heap l'.heap ∧ l.heap.room = l'.heap.room + 2 ∧
      IsPieces l'.heap nilCell l'.result ((data.take m).drop k :: done) := by
  have hn := ht.size_lt
  have hle := ht.size_le
  have hpart : boxInt (l.lastI - l.i - 1) = BitVec.ofInt 64 (m - k : ℕ) := by
    rw [hi, hlast, show (1 : BitVec 64) = BitVec.ofInt 64 1 from rfl, ofInt_sub_ofInt,
      ofInt_sub_ofInt, boxInt_ofInt (by omega) (by omega)]
    congr 1
    omega
  have hnext : l.i + 1 = BitVec.ofInt 64 k := by
    rw [hi, show (1 : BitVec 64) = BitVec.ofInt 64 1 from rfl, ofInt_add_ofInt]
    congr 1
    omega
  have hcond : truth (gt (BitVec.ofInt 64 (m - k : ℕ)) (-1)) = true := by
    rw [show (-1 : BitVec 64) = BitVec.ofInt 64 (-1) from rfl, truth_gt (by omega) (by omega),
      decide_eq_true_eq]
    omega
  have hclip : clip data n k (m - k) = (data.take m).drop k := by
    unfold clip
    rw [show min (k + (m - k)) n = m by omega, show min k n = k by omega]
  have hplen : ((data.take m).drop k).length = m - k := by
    rw [List.length_drop, List.length_take]
    omega
  have hclips : SubstrClips l.heap x n data ((l.i + 1).setWidth 32)
      ((BitVec.ofInt 64 (m - k : ℕ)).setWidth 32) := by
    have hs := setWidth_ofInt_toNat (a := k) (by omega)
    have hl := setWidth_ofInt_toNat (a := m - k) (by omega)
    rw [hnext]
    by_cases hlt : k < n
    · exact substrClips_inside hok (by omega) ht (by omega) (by omega) (by omega)
    · exact substrClips_end hok (by omega) ht hpos (by omega) (by omega)
  obtain ⟨-, p, h₁, hal, hnew⟩ := hclips
  rw [hnext, setWidth_ofInt_toNat (by omega), setWidth_ofInt_toNat (by omega), hclip, hplen] at hnew
  have hrm := hnew.room
  obtain ⟨r, h₂, hal₂, -, -, -, hcell, hrm₂⟩ := allocCell_spec hnew.keeps.freeListOk (by omega)
    fun _ => ⟨.cell p, l.result, tagCons⟩
  obtain ⟨hk₂, -, hlive₂⟩ := allocCell_keeps hnew.keeps.freeListOk hal₂
  refine ⟨{ l with result := .cell r, heap := h₂, lastI := l.i }, ?_, rfl, rfl,
    hnew.keeps.trans hk₂, ?_, ?_⟩
  · unfold splitPiece
    rw [hpart, if_pos hcond, hal, ok_bind]
    dsimp only
    rw [show h₁.allocCons (.cell p) l.result = .ok (r, h₂) from hal₂, ok_bind]
  · dsimp only
    omega
  · have htext : TextCell h₁ p (m - k) ((data.take m).drop k ++ [0]) := by
      refine hnew.textCell ?_ ?_
      · rw [List.length_append, hplen]
        omega
      · rw [List.length_append, hplen, List.length_singleton]
        omega
    obtain ⟨b, -, -, hcp, -⟩ := hnew.buffer
    refine ⟨r, p, l.result, rfl, hlive₂, hcell, ?_, ?_, hdone.keeps (hnew.keeps.trans hk₂)⟩
    · rw [hk₂.cell htext.live, hcp]
    · rw [hplen]
      exact htext.keeps hk₂

/-- The state in front of the loop's test while `k` bytes remain: the bytes
    from `k` on are split into a first piece, which ends at `lastI`, and the
    pieces of the result. -/
structure SplitAt (h₀ : Heap) (n : ℕ) (data : List UInt8) (sep : UInt8) (nilCell : Word) (k : ℕ)
    (l : Split) : Prop where
  i : l.i = BitVec.ofInt 64 (k - 1)
  pieces : ∃ m done, k ≤ m ∧ m ≤ n ∧ l.lastI = BitVec.ofInt 64 (m : ℕ) ∧
    ((data.take n).drop k).splitOn sep = (data.take m).drop k :: done ∧
    IsPieces l.heap nilCell l.result done
  keeps : KeepsAll h₀ l.heap
  room : 2 * ((data.take k).count sep + 1) ≤ l.heap.room

/-- The state after the last round. -/
structure SplitDone (h₀ : Heap) (n : ℕ) (data : List UInt8) (sep : UInt8) (nilCell : Word)
    (l : Split) : Prop where
  i : l.i = BitVec.ofInt 64 (-2)
  pieces : IsPieces l.heap nilCell l.result ((data.take n).splitOn sep)
  keeps : KeepsAll h₀ l.heap

/-- The byte the round looks at, in front of the ones behind it. -/
theorem drop_succ_take (hk : k < n) (hle : n ≤ data.length) :
    (data.take n).drop k = data.getD k 0 :: (data.take n).drop (k + 1) := by
  have hlen : k < (data.take n).length := by
    rw [List.length_take]
    omega
  rw [List.drop_eq_getElem_cons hlen]
  congr 1
  simp [List.getD, show k < data.length by omega]

theorem count_take_succ (sep : UInt8) (hk : k < data.length) :
    (data.take (k + 1)).count sep =
      (data.take k).count sep + if data.getD k 0 = sep then 1 else 0 := by
  rw [List.take_add_one, List.count_append]
  simp [List.getD, hk, List.count_singleton]

/-- The round at a byte of the string. -/
theorem splitBody_byte (ht : TextCell h x n data) (hpos : 0 < n)
    (hl : SplitAt h n data sep nilCell (k + 1) l) (hk : k + 1 ≤ n) :
    ∃ l', splitBody (.cell x) (BitVec.ofInt 64 sep.toNat) l = .ok l' ∧
      SplitAt h n data sep nilCell k l' := by
  have hn := ht.size_lt
  have hle := ht.size_le
  obtain ⟨m, done, hkm, hmn, hlast, hsplit, hdone⟩ := hl.pieces
  have ht' := ht.keeps hl.keeps
  have hsep := sep.toNat_lt
  have hcount := count_take_succ sep (show k < data.length by omega)
  have hnext : boxInt (l.i - 1) = BitVec.ofInt 64 (k - 1) := by
    rw [hl.i, show (1 : BitVec 64) = BitVec.ofInt 64 1 from rfl, ofInt_sub_ofInt,
      boxInt_ofInt (by omega) (by omega)]
    congr 1
    omega
  have hcond : truth (or (eq (BitVec.ofInt 64 (data.getD k 0).toNat) (BitVec.ofInt 64 sep.toNat))
      (eq l.i (-1))) = decide (data.getD k 0 = sep) := by
    have hc := (data.getD k 0).toNat_lt
    rw [truth_or_eq, decide_eq_decide, hl.i, show (-1 : BitVec 64) = BitVec.ofInt 64 (-1) from rfl,
      ofInt_inj (by omega) (by omega), ofInt_inj (by omega) (by omega), Nat.cast_inj, UInt8.toNat_inj]
    constructor
    · rintro (h0 | h0)
      · exact h0
      · omega
    · exact Or.inl
  unfold splitBody
  rw [splitChar_at ht' hk hl.i, ok_bind]
  simp only [Nat.add_one_ne_zero, if_false, Nat.add_sub_cancel]
  rw [hcond]
  by_cases hc : data.getD k 0 = sep
  · -- a separator: the piece behind it is complete
    have hroom := hl.room
    have hnil : (data.take k).drop k = [] := List.drop_eq_nil_of_le (by simp)
    rw [hcount, if_pos hc] at hroom
    obtain ⟨l', hp, hi', hlast', hk', hrm, hpieces⟩ := splitPiece_at hl.keeps.freeListOk (by omega)
      ht' hpos hkm hmn (by omega) hl.i hlast hdone
    rw [if_pos (by simpa using hc), hp, ok_bind]
    refine ⟨_, rfl, ?_, ⟨k, _, le_rfl, by omega, ?_, ?_, hpieces⟩, hl.keeps.trans hk', ?_⟩
    · dsimp only
      rw [hi', hnext]
    · dsimp only
      rw [hlast', hl.i]
      congr 1
      omega
    · rw [drop_succ_take (by omega) hle, List.splitOn_cons_eq_if_modifyHead,
        if_pos (by simpa using hc), hsplit, hnil]
    · dsimp only
      omega
  · rw [if_neg (by simpa using hc), ok_bind]
    have hroom := hl.room
    rw [hcount, if_neg hc] at hroom
    refine ⟨_, rfl, hnext, ⟨m, done, by omega, hmn, hlast, ?_, hdone⟩, hl.keeps, by simpa using hroom⟩
    rw [drop_succ_take (by omega) hle, List.splitOn_cons_eq_if_modifyHead,
      if_neg (by simpa using hc), hsplit, drop_succ_take (k := k) (n := m) (by omega) (by omega)]
    rfl

/-- The round at position -1. -/
theorem splitBody_front (ht : TextCell h x n data) (hpos : 0 < n)
    (hfit : ¬ (n = 2 ^ 31 - 1 ∧ sep ∉ data.take n))
    (hl : SplitAt h n data sep nilCell 0 l) :
    ∃ l', splitBody (.cell x) (BitVec.ofInt 64 sep.toNat) l = .ok l' ∧
      SplitDone h n data sep nilCell l' := by
  have hn := ht.size_lt
  have hle := ht.size_le
  obtain ⟨m, done, hkm, hmn, hlast, hsplit, hdone⟩ := hl.pieces
  have ht' := ht.keeps hl.keeps
  have hroom := hl.room
  have hi : l.i = BitVec.ofInt 64 (-1) := hl.i
  rw [List.drop_zero, List.drop_zero] at hsplit
  -- a single piece is the whole string, and has no separator
  have hfit' : ¬ (0 = 0 ∧ n = 2 ^ 31 - 1 ∧ n ≤ m) := by
    rintro ⟨-, hmax, hnm⟩
    refine hfit ⟨hmax, ?_⟩
    obtain rfl : m = n := by omega
    exact (splitOn_splits sep (data.take m)).free _ (by rw [hsplit]; exact List.mem_cons_self)
  obtain ⟨l', hp, hi', hlast', hk', hrm, hpieces⟩ := splitPiece_at hl.keeps.freeListOk (by omega)
    ht' hpos hkm hmn hfit' hl.i hlast hdone
  unfold splitBody
  rw [splitChar_at ht' (Nat.zero_le n) hl.i, ok_bind, truth_or_eq,
    if_pos (by rw [hi]; simp), hp, ok_bind]
  refine ⟨_, rfl, ?_, by simpa [hsplit] using hpieces, hl.keeps.trans hk'⟩
  dsimp only
  rw [hi', hi]
  rfl

end Round

/-! ## The whole run -/

/-- `(split str sepstr)` on the cells `x` and `y` returns the maximal pieces of
    the `n` bytes of `x`, as new strings; what was in use is as before. -/
def SplitsJoin (h : Heap) (nilCell : Word) (x y n : ℕ) (data : List UInt8) (sep : UInt8) : Prop :=
  ∃ N w h' pieces, (∀ fuel, N ≤ fuel → split fuel h nilCell (.cell x) (.cell y) = .ok (w, h')) ∧
    KeepsAll h h' ∧ IsPieces h' nilCell w pieces ∧ Splits sep (data.take n) pieces

section Run

variable {h : Heap} {x y n sizeY : ℕ} {data dataY : List UInt8} {sep : UInt8} {nilCell : Word}

theorem split_eq (ht : TextCell h x n data) (hy : TextCell h y sizeY (sep :: dataY)) (fuel : ℕ) :
    split fuel h nilCell (.cell x) (.cell y) =
      (WhileLoop.loop .fuel splitCond (splitBody (.cell x) (BitVec.ofInt 64 sep.toNat)) fuel
        ⟨BitVec.ofInt 64 (n - 1), BitVec.ofInt 64 n, nilCell, h⟩ >>= fun l =>
      .ok (l.result, l.heap)) := by
  have hn := ht.size_lt
  have hsep : get8 h (.cell y) 0 = .ok (BitVec.ofInt 64 sep.toNat) :=
    get8_text hy (k := 0) (by simp)
  have hi : boxInt (BitVec.ofInt 64 n - 1) = BitVec.ofInt 64 (n - 1) := by
    rw [show (1 : BitVec 64) = BitVec.ofInt 64 1 from rfl, ofInt_sub_ofInt,
      boxInt_ofInt (by omega) (by omega)]
  have hlast : boxInt (BitVec.ofInt 64 (n - 1) + 1) = BitVec.ofInt 64 n := by
    rw [show (1 : BitVec 64) = BitVec.ofInt 64 1 from rfl, ofInt_add_ofInt,
      boxInt_ofInt (by omega) (by omega)]
    congr 1
    omega
  unfold split
  rw [hsep, ok_bind, size_text ht, ok_bind, boxInt_byte,
    boxInt_ofInt (a := n) (by omega) (by omega)]
  dsimp only
  rw [hi, hlast]

/-- The state the loop starts in. -/
theorem splitAt_start (nilCell : Word) (hok : h.FreeListOk)
    (hroom : 2 * ((data.take n).count sep + 1) ≤ h.room) :
    SplitAt h n data sep nilCell n ⟨BitVec.ofInt 64 (n - 1), BitVec.ofInt 64 n, nilCell, h⟩ := by
  have hdrop : (data.take n).drop n = [] := List.drop_eq_nil_of_le (by simp)
  refine ⟨rfl, ⟨n, [], le_rfl, le_rfl, rfl, ?_, rfl⟩, .refl hok, hroom⟩
  rw [hdrop, List.splitOn_nil]

theorem splitCond_ofInt {l : Split} {i : ℤ} (hi : l.i = BitVec.ofInt 64 i) (hlo : -2 ^ 31 ≤ i)
    (hhi : i < 2 ^ 31) : splitCond l = decide (-2 < i) := by
  unfold splitCond
  rw [hi, show (-2 : BitVec 64) = BitVec.ofInt 64 (-2) from rfl, truth_gt (by omega) (by omega)]

/-- One round of the loop. -/
theorem split_round (ht : TextCell h x n data) (hpos : 0 < n)
    (hfit : ¬ (n = 2 ^ 31 - 1 ∧ sep ∉ data.take n)) {l : Split}
    (hl : (∃ k ≤ n, SplitAt h n data sep nilCell k l) ∨ SplitDone h n data sep nilCell l)
    (hc : splitCond l = true) :
    ∃ l', splitBody (.cell x) (BitVec.ofInt 64 sep.toNat) l = .ok l' ∧
      ((∃ k ≤ n, SplitAt h n data sep nilCell k l') ∨ SplitDone h n data sep nilCell l') ∧
      (l'.i.toInt + 2).toNat < (l.i.toInt + 2).toNat := by
  have hn := ht.size_lt
  rcases hl with ⟨k, hk, hl⟩ | hl
  · cases k with
    | zero =>
      obtain ⟨l', hb, hl'⟩ := splitBody_front ht hpos hfit hl
      refine ⟨l', hb, Or.inr hl', ?_⟩
      rw [hl.i, hl'.i]
      decide
    | succ k =>
      obtain ⟨l', hb, hl'⟩ := splitBody_byte ht hpos hl hk
      refine ⟨l', hb, Or.inl ⟨k, by omega, hl'⟩, ?_⟩
      rw [hl.i, hl'.i, toInt_ofInt_of_range (by omega) (by omega),
        toInt_ofInt_of_range (by omega) (by omega)]
      omega
  · rw [splitCond_ofInt hl.i (by omega) (by omega)] at hc
    exact absurd hc (by decide)

/-- A non-empty string is split. -/
theorem splitsJoin_of_pos (hok : h.FreeListOk) (ht : TextCell h x n data)
    (hy : TextCell h y sizeY (sep :: dataY)) (hroom : 2 * ((data.take n).count sep + 1) ≤ h.room)
    (hpos : 0 < n) (hfit : ¬ (n = 2 ^ 31 - 1 ∧ sep ∉ data.take n)) :
    SplitsJoin h nilCell x y n data sep := by
  have hn := ht.size_lt
  obtain ⟨l, hl, hexit, hrun⟩ := WhileLoop.loop_total Stop.fuel
    (fun _ => split_round ht hpos hfit) (Or.inl ⟨n, le_rfl, splitAt_start nilCell hok hroom⟩)
  rcases hl with ⟨k, hk, hl⟩ | hl
  · rw [splitCond_ofInt hl.i (by omega) (by omega), decide_eq_false_iff_not] at hexit
    omega
  · refine ⟨n + 2, l.result, l.heap, _, fun fuel hf => ?_, hl.keeps, hl.pieces,
      splitOn_splits sep (data.take n)⟩
    rw [split_eq ht hy, hrun fuel, ok_bind]
    rw [toInt_ofInt_of_range (by omega) (by omega)]
    omega

/-- The state while no separator has been seen. -/
def splitIdle (h : Heap) (nilCell : Word) (n k : ℕ) : Split :=
  ⟨BitVec.ofInt 64 (k - 1), BitVec.ofInt 64 n, nilCell, h⟩

/-- At position -1 the whole string is asked for. -/
theorem splitBody_whole (ht : TextCell h x n data)
    (hfault : h.allocSubstr (.cell x) 0 ((BitVec.ofInt 64 (n : ℕ)).setWidth 32) = .error .fault) :
    splitBody (.cell x) (BitVec.ofInt 64 sep.toNat) (splitIdle h nilCell n 0) = .error .fault := by
  have hn := ht.size_lt
  have hpart : boxInt (BitVec.ofInt 64 n - BitVec.ofInt 64 ((0 : ℕ) - 1) - 1) =
      BitVec.ofInt 64 n := by
    rw [show (1 : BitVec 64) = BitVec.ofInt 64 1 from rfl, ofInt_sub_ofInt, ofInt_sub_ofInt,
      boxInt_ofInt (by omega) (by omega)]
    congr 1
    omega
  have hcond : truth (gt (BitVec.ofInt 64 n) (-1)) = true := by
    rw [show (-1 : BitVec 64) = BitVec.ofInt 64 (-1) from rfl, truth_gt (by omega) (by omega),
      decide_eq_true_eq]
    omega
  have hpiece : splitPiece (.cell x) (splitIdle h nilCell n 0) = .error .fault := by
    unfold splitPiece splitIdle
    dsimp only
    rw [hpart, if_pos hcond, show (BitVec.ofInt 64 ((0 : ℕ) - 1) + 1).setWidth 32 = (0 : BitVec 32)
      from rfl, hfault]
    rfl
  unfold splitBody
  rw [splitChar_at ht (Nat.zero_le n) rfl, ok_bind, truth_or_eq, if_pos (by simp [splitIdle]),
    hpiece]
  rfl

/-- A byte that is no separator is passed over. -/
theorem splitBody_skip {k : ℕ} (ht : TextCell h x n data) (hk : k + 1 ≤ n)
    (hc : data.getD k 0 ≠ sep) :
    splitBody (.cell x) (BitVec.ofInt 64 sep.toNat) (splitIdle h nilCell n (k + 1)) =
      .ok (splitIdle h nilCell n k) := by
  have hn := ht.size_lt
  have hcb := (data.getD k 0).toNat_lt
  have hsep := sep.toNat_lt
  have hcond : truth (or (eq (BitVec.ofInt 64 (data.getD k 0).toNat) (BitVec.ofInt 64 sep.toNat))
      (eq (splitIdle h nilCell n (k + 1)).i (-1))) = false := by
    rw [truth_or_eq, decide_eq_false_iff_not]
    unfold splitIdle
    rw [show (-1 : BitVec 64) = BitVec.ofInt 64 (-1) from rfl,
      ofInt_inj (by omega) (by omega), ofInt_inj (by omega) (by omega), Nat.cast_inj, UInt8.toNat_inj]
    rintro (h0 | h0)
    · exact hc h0
    · omega
  unfold splitBody
  rw [splitChar_at ht hk rfl, ok_bind]
  simp only [Nat.add_one_ne_zero, if_false, Nat.add_sub_cancel]
  rw [hcond, if_neg (by simp), ok_bind]
  unfold splitIdle
  dsimp only
  rw [show (1 : BitVec 64) = BitVec.ofInt 64 1 from rfl, ofInt_sub_ofInt,
    boxInt_ofInt (by omega) (by omega)]
  congr 3
  omega

/-- Without a separator the only piece is the whole string; when `alloc_substr`
    cannot make it, `split` does not return. -/
theorem split_never (ht : TextCell h x n data) (hy : TextCell h y sizeY (sep :: dataY))
    (hsep : sep ∉ data.take n)
    (hfault : h.allocSubstr (.cell x) 0 ((BitVec.ofInt 64 (n : ℕ)).setWidth 32) = .error .fault)
    (fuel : ℕ) (r : Word × Heap) : split fuel h nilCell (.cell x) (.cell y) ≠ .ok r := by
  have hn := ht.size_lt
  have hle := ht.size_le
  intro hr
  rw [split_eq ht hy] at hr
  obtain ⟨l, hl, -⟩ := bind_ok.mp hr
  have hstep : ∀ l, (∃ k ≤ n, l = splitIdle h nilCell n k) → splitCond l = true ∧
      ∀ l', splitBody (.cell x) (BitVec.ofInt 64 sep.toNat) l = .ok l' →
        ∃ k ≤ n, l' = splitIdle h nilCell n k := by
    rintro _ ⟨k, hk, rfl⟩
    refine ⟨by rw [splitCond_ofInt rfl (by omega) (by omega), decide_eq_true_eq]; omega, ?_⟩
    intro l' hb
    cases k with
    | zero =>
      rw [splitBody_whole ht hfault] at hb
      exact absurd hb (by simp)
    | succ k =>
      have hc : data.getD k 0 ≠ sep := by
        rintro rfl
        refine hsep (List.mem_of_getElem? (i := k) ?_)
        rw [List.getElem?_take_of_lt (by omega)]
        simp [List.getD, show k < data.length by omega]
      rw [splitBody_skip ht hk hc] at hb
      exact ⟨k, by omega, (Except.ok.inj hb).symm⟩
  exact WhileLoop.loop_never hstep fuel ⟨n, le_rfl, rfl⟩ l hl

end Run

end Interim.Lisp
