import Interim.Reader.Stack

/-!
# Where the abstract reader stops

`Interim.Reader.Step` follows the code where the abstract reader has a next
state within the sizes the code can handle. Here are the other cases: a
character without a next state leaves the reader in an error state
(`readChar_error`), one whose next state is too large is a fault
(`readChar_fault`). So a run of the code that ends in a regular state is a run
of the abstract reader (`readChars_inv`).
-/

namespace Interim.Reader

open Heap

/-! ## Syntax errors -/

section Errors

variable {rs rs' : ReaderState} {h h' : Heap} {a a' : AbsState} {S : Set Block} {cs : List ℕ}
  {c v b k : ℕ} {os : List (List ℕ × ℕ)} {x : UInt8}

/-- `read_char` once the root exists. -/
theorem Core.readChar_eq (hc : Core rs h a S cs c os) (x : UInt8) :
    readChar x rs h =
      (readState x c rs h >>= fun r => .ok ({ r.2.1 with cell := .cell r.1 }, r.2.2)) := by
  have hroot : ensureRoot rs h = .ok (rs, h) := by
    rw [ensureRoot, if_neg (by rw [hc.cell]; simp)]
  unfold readChar
  rw [hroot]
  change (cellOf rs.cell >>= _) = _
  rw [hc.cell]
  rfl

theorem AbsState.outer_of_close (hclose : a.close = none) : a.outer = [] := by
  cases hout : a.outer with
  | nil => rfl
  | cons ds dss =>
    rw [AbsState.close, hout] at hclose
    cases hclose

/-- A `)` at top level. -/
theorem Core.endList_error (hc : Core rs h a S cs c os) (hout : a.outer = []) :
    readerEndList c rs h = .ok (c, { rs with state := .errUnexpClosingBrace }, h) := by
  have hlev : rs.level = 0 := by
    rw [hc.level, hc.outer.length_eq, hout]
    rfl
  rw [readerEndList, if_pos (by omega)]

/-- The errors of a number: a `)` at top level or another character. -/
theorem readNum_error {y : BitVec 64} {tok : BitVec 64 → Token}
    {add : BitVec 64 → BitVec 64 → BitVec 64} (hc : Core rs h a S cs c os)
    (hstep : absNum a tok add y x = none) :
    ∃ rs', readNum x c rs h = .ok (c, rs', h) ∧ rs'.state.isError = true := by
  unfold absNum at hstep
  unfold readNum
  have hhex := hc.hex
  by_cases hd : isDigit x ∨ (a.hex ∧ isLowerHex x)
  · rw [if_pos hd] at hstep
    cases hstep
  rw [if_neg hd] at hstep
  rw [if_neg (by rw [hhex]; exact hd)]
  by_cases hws : isWs x = true
  · rw [if_pos hws] at hstep
    cases hstep
  rw [if_neg hws] at hstep ⊢
  by_cases hrp : x = rparen
  · rw [if_pos hrp] at hstep ⊢
    have hout : (a.push (.int y)).outer = [] := AbsState.outer_of_close hstep
    exact ⟨_, hc.endList_error hout, rfl⟩
  rw [if_neg hrp] at hstep ⊢
  by_cases hx : x = lowerX
  · rw [if_pos hx] at hstep
    cases hstep
  rw [if_neg hx]
  exact ⟨_, rfl, rfl⟩

theorem readState_error (hc : Core rs h a S cs c os) (ht : TokOk rs h S c os a.tok)
    (hstep : absStep a x = none) :
    ∃ rs', readState x c rs h = .ok (c, rs', h) ∧ rs'.state.isError = true := by
  unfold readState
  cases htok : a.tok with
  | idle =>
    rw [htok] at ht
    simp only [absStep, htok] at hstep
    -- only a `)` is wrong where an element may start
    unfold absAtom at hstep
    by_cases hrp : x = rparen
    · subst hrp
      rw [ht.1]
      exact ⟨_, hc.endList_error (AbsState.outer_of_close hstep), rfl⟩
    · rw [if_neg hrp] at hstep
      repeat (split at hstep; · cases hstep)
      cases hstep
  | comment =>
    simp only [absStep, htok] at hstep
    cases hstep
  | num y | numNeg y =>
    rw [htok] at ht
    rw [ht.1]
    simp only [absStep, htok] at hstep
    exact readNum_error hc hstep
  | sym s =>
    rw [htok] at ht
    rw [ht.1]
    simp only [absStep, htok] at hstep
    by_cases hrp : x = rparen
    · rw [if_pos hrp] at hstep
      dsimp only
      rw [readSym, if_pos hrp]
      have hout : (a.push (.sym s)).outer = [] := AbsState.outer_of_close hstep
      exact ⟨_, hc.endList_error hout, rfl⟩
    · rw [if_neg hrp] at hstep
      repeat (split at hstep; · cases hstep)
      cases hstep
  | str s =>
    simp only [absStep, htok] at hstep
    split at hstep <;> cases hstep
  | bytes ns =>
    rw [htok] at ht
    rw [ht.1]
    simp only [absStep, htok] at hstep
    dsimp only
    rw [readBytes]
    by_cases hrb : x = rbracket
    · rw [if_pos hrb] at hstep
      cases hstep
    rw [if_neg hrb] at hstep ⊢
    by_cases hd : isDigit x ∨ isLowerHex x ∨ isUpperHex x
    · rw [if_pos hd] at hstep
      cases hstep
    rw [if_neg hd] at hstep ⊢
    by_cases hws : isWs x = true
    · rw [if_pos hws] at hstep
      cases hstep
    rw [if_neg hws]
    exact ⟨_, rfl, rfl⟩

/-- A character without a next state: the heap is unchanged and the loop of
    `read_string` ends. -/
theorem readChar_error (hs : Sim rs h a) (hstep : absStep a x = none) :
    ∃ rs', readChar x rs h = .ok (rs', h) ∧ rs'.state.isError = true := by
  obtain ⟨S, cs, c, os, hc, ht⟩ := hs
  obtain ⟨rs', hr, herr⟩ := readState_error hc ht hstep
  refine ⟨{ rs' with cell := .cell c }, ?_, herr⟩
  rw [hc.readChar_eq, hr]
  rfl

end Errors

/-! ## Faults -/

section Faults

variable {rs rs' : ReaderState} {h h' : Heap} {a a' : AbsState} {S : Set Block} {cs : List ℕ}
  {c v b k tag : ℕ} {os : List (List ℕ × ℕ)} {x : UInt8} {s : List UInt8}

/-- Character number `2 ^ 30 - 1` of a symbol or string. -/
theorem Buffer.appendChar_fault (hB : Buffer h S c os tag v b k s) (hlen : rs.symLen = s.length)
    (hs : s.length + 1 < 2 ^ k) (hbig : ¬ s.length + 1 ≤ 2 ^ 30 - 2) :
    Reader.appendChar x c rs h = .error .fault := by
  have hk : k = 30 := by
    have hup := hB.upper
    by_contra hne
    have : 2 ^ k ≤ 2 ^ 29 := Nat.pow_le_pow_right (by omega) (by omega)
    omega
  subst hk
  unfold Reader.appendChar
  rw [hB.ar, hlen, toUInt32_of_lt (by omega)]
  change (sizeOf h v >>= _) = _
  rw [sizeOf, hB.cell]
  change (Reader.growWhen (decide (s.length + 1 ≥ (BitVec.ofNat 64 (2 ^ 30) - 1).toNat)) h v >>= _)
    = _
  rw [toNat_size_sub_one (by omega), Reader.growWhen, if_pos (by simp; omega),
    growBuffer_fault hB.cell]
  rfl

/-- Hex digit number `2 ^ 29 - 1` of a byte literal. -/
theorem Buffer.appendNibble_fault {n : ℕ} (hB : Buffer h S c os tag v b k s) (hlen : rs.symLen = n)
    (hs : n + 1 < 2 ^ k / 2) (hbig : ¬ n + 1 ≤ 2 ^ 29 - 2) :
    Reader.appendNibble x c rs h = .error .fault := by
  have hk : k = 30 := by
    have hup := hB.upper
    by_contra hne
    have : 2 ^ k ≤ 2 ^ 29 := Nat.pow_le_pow_right (by omega) (by omega)
    omega
  subst hk
  unfold Reader.appendNibble
  rw [hB.ar, hlen, toUInt32_of_lt (by omega)]
  change (sizeOf h v >>= _) = _
  rw [sizeOf, hB.cell]
  change (Reader.growWhen (decide (n + 1 ≥ (BitVec.ofNat 64 (2 ^ 30) / 2 - 1).toNat)) h v >>= _) = _
  rw [toNat_half_size_sub_one (by omega) (by omega), Reader.growWhen, if_pos (by simp; omega),
    growBuffer_fault hB.cell]
  rfl

/-- A `(` with 96 lists open: the store is outside `stack_root`. -/
theorem Core.openList_fault (hc : Core rs h a S cs c os) (hroom : 0 < h.room)
    (hdeep : a.outer.length = stackSize) : readAtom lparen c rs h = .error .fault := by
  obtain ⟨n, h₁, hal, -⟩ := allocCell_spec hc.freeListOk hroom fun _ => ⟨.null, .null, tagCons⟩
  have htop : ∀ w, rs.setTop w = .error .fault := by
    intro w
    have hst := hc.stack
    rw [hc.outer.length_eq, hdeep] at hst
    rw [ReaderState.setTop, if_neg (by omega)]
  unfold readAtom
  rw [if_neg (by decide), if_neg (by decide), if_neg (by decide), if_pos rfl]
  rw [allocNil, allocCons, hal]
  change (rs.setTop _ >>= _) = _
  rw [htop]
  rfl

/-- The states that the code represents are within its sizes. -/
theorem Sim.fits (hs : Sim rs h a) : a.Fits := by
  obtain ⟨S, cs, c, os, hc, ht⟩ := hs
  refine ⟨by rw [← hc.outer.length_eq]; exact hc.deep, ?_⟩
  cases htok : a.tok with
  | sym s =>
    rw [htok] at ht
    obtain ⟨-, -, v, b, k, hB, -, hs⟩ := ht
    have : 2 ^ k ≤ 2 ^ 30 := Nat.pow_le_pow_right (by omega) hB.upper
    dsimp only
    omega
  | str s =>
    rw [htok] at ht
    obtain ⟨-, v, b, k, hB, -, hs⟩ := ht
    have : 2 ^ k ≤ 2 ^ 30 := Nat.pow_le_pow_right (by omega) hB.upper
    dsimp only
    omega
  | bytes ns =>
    rw [htok] at ht
    obtain ⟨-, v, b, k, hB, -, hs, -⟩ := ht
    have : 2 ^ k ≤ 2 ^ 30 := Nat.pow_le_pow_right (by omega) hB.upper
    dsimp only
    omega
  | idle | comment | num | numNeg => trivial

theorem AbsState.Fits.close (hf : a.Fits) (hclose : a.close = some a') : a'.Fits := by
  have hlen := hf.1
  unfold AbsState.close at hclose
  cases hout : a.outer with
  | nil => rw [hout] at hclose; cases hclose
  | cons ds dss =>
    rw [hout] at hclose hlen
    obtain rfl := Option.some.inj hclose
    refine Fits.of_idle ?_ rfl
    change dss.length ≤ stackSize
    rw [List.length_cons] at hlen
    omega

theorem AbsState.Fits.push (hf : a.Fits) (d : Datum) : (a.push d).Fits := Fits.of_idle hf.1 rfl

/-- The characters that lead beyond the sizes of the code: a `(` at level 96,
    and one more character in a full token buffer. -/
inductive Overflows (a : AbsState) (x : UInt8) : Prop
  | paren (htok : a.tok = .idle) (hx : x = lparen) (hdeep : a.outer.length = stackSize)
  | sym (s : List UInt8) (htok : a.tok = .sym s) (hrp : x ≠ rparen) (hws : ¬ isWs x = true)
      (hneg : ¬ (isDigit x ∧ s.head? = some minus)) (hbig : ¬ s.length + 1 ≤ 2 ^ 30 - 2)
  | str (s : List UInt8) (htok : a.tok = .str s) (hdq : x ≠ dquote)
      (hbig : ¬ s.length + 1 ≤ 2 ^ 30 - 2)
  | bytes (ns : List ℕ) (htok : a.tok = .bytes ns) (hrb : x ≠ rbracket)
      (hx : isDigit x ∨ isLowerHex x ∨ isUpperHex x) (hbig : ¬ ns.length + 1 ≤ 2 ^ 29 - 2)

theorem absAtom_overflows (hf : a.Fits) (htok : a.tok = .idle) (hstep : absAtom a x = some a')
    (hbig : ¬ a'.Fits) : Overflows a x := by
  have hout := hf.1
  unfold absAtom at hstep
  by_cases hlp : x = lparen
  · subst hlp
    refine .paren htok rfl (by_contra fun hne => hbig ?_)
    obtain rfl := Option.some.inj hstep
    refine Fits.of_idle ?_ htok
    change (a.cur :: a.outer).length ≤ stackSize
    rw [List.length_cons]
    omega
  · rw [if_neg hlp] at hstep
    exfalso
    apply hbig
    split at hstep
    · obtain rfl := Option.some.inj hstep
      exact hf
    split at hstep
    · obtain rfl := Option.some.inj hstep
      exact ⟨hout, trivial⟩
    split at hstep
    · obtain rfl := Option.some.inj hstep
      exact ⟨hout, trivial⟩
    split at hstep
    · exact hf.close hstep
    split at hstep
    · obtain rfl := Option.some.inj hstep
      exact ⟨hout, Nat.zero_le _⟩
    split at hstep
    · obtain rfl := Option.some.inj hstep
      exact ⟨hout, Nat.zero_le _⟩
    · obtain rfl := Option.some.inj hstep
      exact ⟨hout, show 1 ≤ 2 ^ 30 - 2 by omega⟩

theorem absNum_fits {y : BitVec 64} {tok : BitVec 64 → Token}
    {add : BitVec 64 → BitVec 64 → BitVec 64} (hf : a.Fits)
    (hstep : absNum a tok add y x = some a')
    (hfit : ∀ z, ({ a with tok := tok z } : AbsState).Fits) : a'.Fits := by
  unfold absNum at hstep
  split at hstep
  · obtain rfl := Option.some.inj hstep
    exact hfit _
  split at hstep
  · obtain rfl := Option.some.inj hstep
    exact hf.push _
  split at hstep
  · exact (hf.push _).close hstep
  split at hstep
  · obtain rfl := Option.some.inj hstep
    exact ⟨hf.1, hf.2⟩
  · cases hstep

theorem absStep_overflows (hf : a.Fits) (hstep : absStep a x = some a') (hbig : ¬ a'.Fits) :
    Overflows a x := by
  have hout := hf.1
  cases htok : a.tok with
  | idle =>
    simp only [absStep, htok] at hstep
    exact absAtom_overflows hf htok hstep hbig
  | comment =>
    simp only [absStep, htok] at hstep
    obtain rfl := Option.some.inj hstep
    refine absurd ?_ hbig
    split
    · exact Fits.of_idle hout rfl
    · exact hf
  | num y | numNeg y =>
    simp only [absStep, htok] at hstep
    exact absurd (absNum_fits hf hstep fun _ => ⟨hout, trivial⟩) hbig
  | sym s =>
    simp only [absStep, htok] at hstep
    by_cases hrp : x = rparen
    · rw [if_pos hrp] at hstep
      exact absurd ((hf.push _).close hstep) hbig
    rw [if_neg hrp] at hstep
    by_cases hws : isWs x = true
    · rw [if_pos hws] at hstep
      obtain rfl := Option.some.inj hstep
      exact absurd (hf.push _) hbig
    rw [if_neg hws] at hstep
    by_cases hneg : isDigit x ∧ s.head? = some minus
    · rw [if_pos hneg] at hstep
      obtain rfl := Option.some.inj hstep
      exact absurd ⟨hout, trivial⟩ hbig
    rw [if_neg hneg] at hstep
    obtain rfl := Option.some.inj hstep
    refine .sym s htok hrp hws hneg fun hle => hbig ⟨hout, ?_⟩
    change (s ++ [x]).length ≤ 2 ^ 30 - 2
    rw [List.length_append]
    exact hle
  | str s =>
    simp only [absStep, htok] at hstep
    by_cases hdq : x = dquote
    · rw [if_pos hdq] at hstep
      obtain rfl := Option.some.inj hstep
      exact absurd (hf.push _) hbig
    rw [if_neg hdq] at hstep
    obtain rfl := Option.some.inj hstep
    refine .str s htok hdq fun hle => hbig ⟨hout, ?_⟩
    change (s ++ [x]).length ≤ 2 ^ 30 - 2
    rw [List.length_append]
    exact hle
  | bytes ns =>
    simp only [absStep, htok] at hstep
    by_cases hrb : x = rbracket
    · rw [if_pos hrb] at hstep
      obtain rfl := Option.some.inj hstep
      exact absurd (hf.push _) hbig
    rw [if_neg hrb] at hstep
    by_cases hx : isDigit x ∨ isLowerHex x ∨ isUpperHex x
    · rw [if_pos hx] at hstep
      obtain rfl := Option.some.inj hstep
      refine .bytes ns htok hrb hx fun hle => hbig ⟨hout, ?_⟩
      change (ns ++ [hexVal x]).length ≤ 2 ^ 29 - 2
      rw [List.length_append]
      exact hle
    rw [if_neg hx] at hstep
    split at hstep
    · obtain rfl := Option.some.inj hstep
      exact absurd hf hbig
    · cases hstep

/-- A next state beyond the sizes of the code is a store outside `stack_root`
    or a reallocation with a negative size. -/
theorem readChar_fault (hs : Sim rs h a) (hstep : absStep a x = some a') (hbig : ¬ a'.Fits)
    (hroom : stepCost a x ≤ h.room) : readChar x rs h = .error .fault := by
  have hover := absStep_overflows hs.fits hstep hbig
  obtain ⟨S, cs, c, os, hc, ht⟩ := hs
  rw [hc.readChar_eq, readState]
  cases hover with
  | paren htok hx hdeep =>
    subst hx
    rw [stepCost, htok] at hroom
    rw [htok] at ht
    rw [ht.1]
    dsimp only
    rw [hc.openList_fault (lt_of_lt_of_le (by decide) hroom) hdeep]
    rfl
  | sym s htok hrp hws hneg hlen =>
    rw [htok] at ht
    obtain ⟨hst, hne, v, b, k, hB, hsym, hs⟩ := ht
    have hfirst : firstChar h v = .ok (s.head hne) := by
      rw [firstChar, hB.cell]
      dsimp only
      rw [hB.contents, filled_getD_zero (List.head?_eq_some_head hne)]
    have hneg' : ¬ (isDigit x ∧ s.head hne = minus) := by
      rintro ⟨hd, hm⟩
      exact hneg ⟨hd, by rw [List.head?_eq_some_head hne, hm]⟩
    rw [hst]
    dsimp only
    rw [readSym, if_neg hrp, if_neg hws, hB.ar]
    change ((firstChar h v >>= _) >>= _) = _
    rw [hfirst]
    change ((if isDigit x ∧ s.head hne = minus then _ else _) >>= _) = _
    rw [if_neg hneg', hB.appendChar_fault hsym hs hlen]
    rfl
  | str s htok hdq hlen =>
    rw [htok] at ht
    obtain ⟨hst, v, b, k, hB, hsym, hs⟩ := ht
    rw [hst]
    dsimp only
    rw [readStr, if_neg hdq, hB.appendChar_fault hsym hs hlen]
    rfl
  | bytes ns htok hrb hx hlen =>
    rw [htok] at ht
    obtain ⟨hst, v, b, k, hB, hsym, hs, -⟩ := ht
    rw [hst]
    dsimp only
    rw [readBytes, if_neg hrb, if_pos hx, hB.appendNibble_fault hsym hs hlen]
    rfl

end Faults

/-! ## Runs of the code -/

section Runs

variable {rs rs' : ReaderState} {h h' : Heap} {a : AbsState} {t : List UInt8}

theorem stepCost_le (a : AbsState) (x : UInt8) : stepCost a x ≤ 2 := by
  have hatom : atomCost x ≤ 1 := by
    unfold atomCost
    split <;> omega
  have hword : wordCost x ≤ 2 := by
    unfold wordCost
    split
    · omega
    · split <;> omega
  unfold stepCost
  cases a.tok with
  | idle => exact Nat.le_succ_of_le hatom
  | comment => exact Nat.zero_le 2
  | num | numNeg | sym => exact hword
  | str | bytes => dsimp only; split <;> omega

/-- The first character makes the root before it does anything else. -/
theorem readChars_ensureRoot {rs₀ : ReaderState} {h₀ : Heap} (hr₀ : ensureRoot rs h = .ok (rs₀, h₀))
    (hcell₀ : rs₀.cell ≠ .null) (x : UInt8) (t : List UInt8) :
    readChars (x :: t) rs h = readChars (x :: t) rs₀ h₀ := by
  rw [readChars, readChars, readChar, readChar, hr₀, ensureRoot_of_ne hcell₀]

/-- The loop of `read_string` ends in a regular state only where the abstract
    reader has followed it. -/
theorem readChars_inv : ∀ {t : List UInt8} {rs : ReaderState} {h : Heap} {a : AbsState},
    Sim rs h a → 2 * t.length ≤ h.room → readChars t rs h = .ok (rs', h') →
    rs'.state.isError = false →
    ∃ n a', Runs a t n a' ∧ Sim rs' h' a' ∧ n ≤ 2 * t.length ∧ h.room ≤ h'.room + n
  | [], rs, h, a, hs, _, hr, _ => by
    obtain ⟨rfl, rfl⟩ := Prod.mk.inj (Except.ok.inj hr)
    exact ⟨0, a, Runs.nil a, hs, le_rfl, le_rfl⟩
  | x :: t, rs, h, a, hs, hroom, hr, herr => by
    have hcost := stepCost_le a x
    rw [List.length_cons] at hroom
    cases hstep : absStep a x with
    | none =>
      obtain ⟨rs₁, hc, herr₁⟩ := readChar_error hs hstep
      rw [readChars_cons hc, if_pos herr₁] at hr
      obtain ⟨rfl, -⟩ := Prod.mk.inj (Except.ok.inj hr)
      rw [herr₁] at herr
      cases herr
    | some a₁ =>
      by_cases hfit : a₁.Fits
      · obtain ⟨rs₁, h₁, hc, hs₁, hrm₁⟩ := readChar_sim hs hstep hfit (by omega)
        rw [readChars_cons hc, if_neg (by rw [hs₁.not_isError]; simp)] at hr
        obtain ⟨n, a', hrun, hs', hn, hrm⟩ := readChars_inv hs₁ (by omega) hr herr
        refine ⟨stepCost a x + n, a', Runs.cons hstep hfit hrun, hs', ?_, by omega⟩
        rw [List.length_cons]
        omega
      · rw [readChars, readChar_fault hs hstep hfit (by omega)] at hr
        cases hr

end Runs

end Interim.Reader
