import Interim.Reader.Outcome

/-!
# What every text reads as

`absRead` is the reading of a text by the abstract reader: a datum, nothing, a
syntax error or a fault. `readString_reading` shows that `read_string` returns
it for every text that is not empty, whatever the uninitialised locals hold;
of them only `valuestate` decides, by being `VST_HEX` or not.

A literal that is still open at the end of the text has the size of its
buffer, so the sizes are part of the invariant here (`Sized`).
-/

namespace Interim.Reader

open Heap

/-! ## Open literals -/

/-- The size of a literal's buffer after `n` characters: it doubles when the
    next index reaches `limit` of the size (lines 157–163 and 182–188). -/
def bufferSize (limit : ℕ → ℕ) : ℕ → ℕ
  | 0 => symInitBufferSize
  | n + 1 =>
    if n + 1 ≥ limit (bufferSize limit n) then 2 * bufferSize limit n else bufferSize limit n

/-- The size of a string's buffer. -/
def strSize : ℕ → ℕ := bufferSize fun size => size - 1

/-- The size of a byte literal's buffer, by its hex digits. -/
def bytesSize : ℕ → ℕ := bufferSize fun size => size / 2 - 1

/-- The buffer of an open literal has the size that its length gives. -/
def Sized (rs : ReaderState) (h : Heap) (a : AbsState) : Prop :=
  ∀ c v, rs.cell = .cell c → (h.cells c).ar = .cell v →
    match a.tok with
    | .str s => ∃ k ≤ 30, (h.cells v).dr = .ofNat (2 ^ k) ∧ strSize s.length = 2 ^ k
    | .bytes ns => ∃ k ≤ 30, (h.cells v).dr = .ofNat (2 ^ k) ∧ bytesSize ns.length = 2 ^ k
    | _ => True

section Literals

variable {rs rs' : ReaderState} {h h' : Heap} {a a' : AbsState} {S : Set Block} {cs : List ℕ}
  {c v b k tag : ℕ} {os : List (List ℕ × ℕ)} {x : UInt8} {s : List UInt8} {ns : List ℕ}

/-- Literals may be left open at the end of a text. -/
def Token.isLiteral : Token → Bool
  | .str _ | .bytes _ => true
  | _ => false

/-- How the reader comes to be inside a literal, or is outside one. -/
inductive LiteralStep (a : AbsState) (x : UInt8) (a' : AbsState) : Prop
  | outside (htok : a'.tok.isLiteral = false)
  | openStr (htok : a.tok = .idle) (hx : x = dquote) (htok' : a'.tok = .str [])
  | openBytes (htok : a.tok = .idle) (hx : x = lbracket) (htok' : a'.tok = .bytes [])
  | str (s : List UInt8) (htok : a.tok = .str s) (hx : x ≠ dquote)
      (htok' : a'.tok = .str (s ++ [x]))
  | bytes (ns : List ℕ) (htok : a.tok = .bytes ns) (hrb : x ≠ rbracket)
      (hx : isDigit x ∨ isLowerHex x ∨ isUpperHex x) (htok' : a'.tok = .bytes (ns ++ [hexVal x]))
  | blank (ns : List ℕ) (htok : a.tok = .bytes ns) (hrb : x ≠ rbracket)
      (hx : ¬ (isDigit x ∨ isLowerHex x ∨ isUpperHex x)) (hws : isWs x = true) (heq : a' = a)

theorem LiteralStep.idle (htok : a'.tok = .idle) : LiteralStep a x a' :=
  .outside (by rw [htok]; rfl)

theorem LiteralStep.close (hclose : a.close = some a') {a₀ : AbsState} : LiteralStep a₀ x a' := by
  unfold AbsState.close at hclose
  split at hclose
  · cases hclose
  · obtain rfl := Option.some.inj hclose
    exact .idle rfl

theorem absAtom_literal (htok : a.tok = .idle) (hstep : absAtom a x = some a') :
    LiteralStep a x a' := by
  unfold absAtom at hstep
  split at hstep
  · obtain rfl := Option.some.inj hstep
    exact .idle htok
  split at hstep
  · obtain rfl := Option.some.inj hstep
    exact .outside rfl
  split at hstep
  · obtain rfl := Option.some.inj hstep
    exact .outside rfl
  split at hstep
  · obtain rfl := Option.some.inj hstep
    exact .idle htok
  split at hstep
  · exact .close hstep
  split at hstep
  · rename_i hx
    obtain rfl := Option.some.inj hstep
    exact .openBytes htok hx rfl
  split at hstep
  · rename_i hx
    obtain rfl := Option.some.inj hstep
    exact .openStr htok hx rfl
  · obtain rfl := Option.some.inj hstep
    exact .outside rfl

theorem absNum_literal {y : BitVec 64} {tok : BitVec 64 → Token}
    {add : BitVec 64 → BitVec 64 → BitVec 64} (hstep : absNum a tok add y x = some a')
    (htok : a.tok = tok y) (hlit : ∀ z, (tok z).isLiteral = false) : LiteralStep a x a' := by
  unfold absNum at hstep
  split at hstep
  · obtain rfl := Option.some.inj hstep
    exact .outside (hlit _)
  split at hstep
  · obtain rfl := Option.some.inj hstep
    exact .idle rfl
  split at hstep
  · exact .close hstep
  split at hstep
  · obtain rfl := Option.some.inj hstep
    exact .outside (by change a.tok.isLiteral = false; rw [htok]; exact hlit y)
  · cases hstep

theorem absStep_literal (hstep : absStep a x = some a') : LiteralStep a x a' := by
  cases htok : a.tok with
  | idle =>
    simp only [absStep, htok] at hstep
    exact absAtom_literal htok hstep
  | comment =>
    simp only [absStep, htok] at hstep
    obtain rfl := Option.some.inj hstep
    split
    · exact .idle rfl
    · exact .outside (by rw [htok]; rfl)
  | num y | numNeg y =>
    simp only [absStep, htok] at hstep
    exact absNum_literal hstep htok fun _ => rfl
  | sym s =>
    simp only [absStep, htok] at hstep
    split at hstep
    · exact .close hstep
    split at hstep
    · obtain rfl := Option.some.inj hstep
      exact .idle rfl
    split at hstep
    · obtain rfl := Option.some.inj hstep
      exact .outside rfl
    · obtain rfl := Option.some.inj hstep
      exact .outside rfl
  | str s =>
    simp only [absStep, htok] at hstep
    split at hstep
    · obtain rfl := Option.some.inj hstep
      exact .idle rfl
    · rename_i hx
      obtain rfl := Option.some.inj hstep
      exact .str s htok hx rfl
  | bytes ns =>
    simp only [absStep, htok] at hstep
    split at hstep
    · obtain rfl := Option.some.inj hstep
      exact .idle rfl
    rename_i hrb
    split at hstep
    · rename_i hx
      obtain rfl := Option.some.inj hstep
      exact .bytes ns htok hrb hx rfl
    rename_i hx
    split at hstep
    · rename_i hws
      exact .blank ns htok hrb hx hws (Option.some.inj hstep).symm
    · cases hstep

/-- The size of a buffer is a power of two; it follows `bufferSize`. -/
theorem bufferSize_succ {limit : ℕ → ℕ} {n k' : ℕ} (hsize : bufferSize limit n = 2 ^ k)
    (hk' : k' = if n + 1 ≥ limit (2 ^ k) then k + 1 else k) :
    bufferSize limit (n + 1) = 2 ^ k' := by
  rw [bufferSize, hsize, hk']
  split
  · rw [pow_succ, Nat.mul_comm]
  · rfl

theorem size_injective {k₁ k₂ : ℕ} (h₁ : k₁ ≤ 30) (h₂ : k₂ ≤ 30)
    (heq : Word.ofNat (2 ^ k₁) = .ofNat (2 ^ k₂)) : k₁ = k₂ := by
  have hnat : BitVec.ofNat 64 (2 ^ k₁) = BitVec.ofNat 64 (2 ^ k₂) := by
    injection heq
  have hpow := congrArg BitVec.toNat hnat
  rw [toNat_size h₁, toNat_size h₂] at hpow
  exact Nat.pow_right_injective le_rfl hpow

theorem Sized.outside (htok : a.tok.isLiteral = false) : Sized rs h a := by
  intro c v _ _
  cases ht : a.tok with
  | str s | bytes ns => rw [ht] at htok; cases htok
  | idle | comment | num | numNeg | sym => trivial

/-- `Sized` for a state whose current cell holds the buffer `hB`. -/
theorem Buffer.sized (hB : Buffer h S c os tag v b k s) (hcell : rs.cell = .cell c)
    (hsize : match a.tok with
      | .str s => strSize s.length = 2 ^ k
      | .bytes ns => bytesSize ns.length = 2 ^ k
      | _ => True) : Sized rs h a := by
  intro c' v' hc' hv'
  rw [hcell] at hc'
  obtain rfl : c = c' := by simpa using hc'
  rw [hB.ar] at hv'
  obtain rfl : v = v' := by simpa using hv'
  have hdr : (h.cells v).dr = .ofNat (2 ^ k) := by rw [hB.cell]
  cases ht : a.tok with
  | str s => rw [ht] at hsize; exact ⟨k, hB.upper, hdr, hsize⟩
  | bytes ns => rw [ht] at hsize; exact ⟨k, hB.upper, hdr, hsize⟩
  | idle | comment | num | numNeg | sym => trivial

theorem Sized.str (hz : Sized rs h a) (hB : Buffer h S c os tag v b k s) (hcell : rs.cell = .cell c)
    {t : List UInt8} (htok : a.tok = .str t) : strSize t.length = 2 ^ k := by
  have hk := hz c v hcell hB.ar
  rw [htok] at hk
  obtain ⟨k', hle, hdr, hsize⟩ := hk
  rw [hB.cell] at hdr
  rw [hsize, size_injective hB.upper hle hdr]

theorem Sized.bytes (hz : Sized rs h a) (hB : Buffer h S c os tag v b k s)
    (hcell : rs.cell = .cell c) (htok : a.tok = .bytes ns) : bytesSize ns.length = 2 ^ k := by
  have hk := hz c v hcell hB.ar
  rw [htok] at hk
  obtain ⟨k', hle, hdr, hsize⟩ := hk
  rw [hB.cell] at hdr
  rw [hsize, size_injective hB.upper hle hdr]

/-- One character keeps the sizes. -/
theorem readChar_sized (hs : Sim rs h a) (hz : Sized rs h a) (hstep : absStep a x = some a')
    (hfit : a'.Fits) (hroom : stepCost a x ≤ h.room) (hr : readChar x rs h = .ok (rs', h')) :
    Sized rs' h' a' := by
  obtain ⟨S, cs, c, os, hc, ht⟩ := hs
  rw [hc.readChar_eq, readState] at hr
  cases absStep_literal hstep with
  | outside htok => exact .outside htok
  | openStr htok hx htok' =>
    subst hx
    rw [stepCost, htok] at hroom
    rw [htok] at ht
    obtain ⟨v, b, h₁, hal, -, hB, -⟩ :=
      hc.startBuffer (lt_of_lt_of_le (by decide) hroom) tagStr
    rw [ht.1] at hr
    dsimp only at hr
    rw [readAtom, if_neg (by decide), if_neg (by decide), if_neg (by decide), if_neg (by decide),
      if_neg (by decide), if_neg (by decide), if_pos rfl, allocNumString, hal] at hr
    obtain ⟨rfl, rfl⟩ := Prod.mk.inj (Except.ok.inj hr)
    exact hB.sized rfl (by rw [htok']; rfl)
  | openBytes htok hx htok' =>
    subst hx
    rw [stepCost, htok] at hroom
    rw [htok] at ht
    obtain ⟨v, b, h₁, hal, -, hB, -⟩ :=
      hc.startBuffer (lt_of_lt_of_le (by decide) hroom) tagBytes
    rw [ht.1] at hr
    dsimp only at hr
    rw [readAtom, if_neg (by decide), if_neg (by decide), if_neg (by decide), if_neg (by decide),
      if_neg (by decide), if_pos rfl, allocNumBytes, hal] at hr
    obtain ⟨rfl, rfl⟩ := Prod.mk.inj (Except.ok.inj hr)
    exact hB.sized rfl (by rw [htok']; rfl)
  | str s htok hx htok' =>
    have hfit' := hfit.2
    rw [htok'] at hfit'
    rw [htok] at ht
    obtain ⟨hst, v, b, k, hB, hlen, hs⟩ := ht
    obtain ⟨b', k', h₁, happ, -, -, hB', -, hk'⟩ :=
      hB.appendChar hc hlen hs (by simpa using hfit') x
    rw [hst] at hr
    dsimp only at hr
    rw [readStr, if_neg hx, happ] at hr
    obtain ⟨rfl, rfl⟩ := Prod.mk.inj (Except.ok.inj hr)
    refine hB'.sized rfl ?_
    rw [htok']
    dsimp only
    rw [List.length_append]
    exact bufferSize_succ (hz.str hB hc.cell htok) hk'
  | bytes ns htok hrb hx htok' =>
    have hfit' := hfit.2
    rw [htok'] at hfit'
    rw [htok] at ht
    obtain ⟨hst, v, b, k, hB, hlen, hs, hns⟩ := ht
    obtain ⟨b', k', h₁, happ, -, -, hB', -, hk'⟩ :=
      hB.appendNibble hc hlen hs hns (by simpa using hfit') (hexVal_lt hx)
    rw [hst] at hr
    dsimp only at hr
    rw [readBytes, if_neg hrb, if_pos hx, happ] at hr
    obtain ⟨rfl, rfl⟩ := Prod.mk.inj (Except.ok.inj hr)
    refine hB'.sized rfl ?_
    rw [htok']
    dsimp only
    rw [List.length_append]
    exact bufferSize_succ (hz.bytes hB hc.cell htok) hk'
  | blank ns htok hrb hx hws heq =>
    subst heq
    rw [htok] at ht
    rw [ht.1] at hr
    dsimp only at hr
    rw [readBytes, if_neg hrb, if_neg hx, if_pos hws] at hr
    obtain ⟨rfl, rfl⟩ := Prod.mk.inj (Except.ok.inj hr)
    intro c' v' hc' hv'
    exact hz c' v' (by rw [hc.cell]; exact hc') hv'

end Literals

/-! ## Readings -/

/-- `s` with zeros up to `size`. -/
def padded (size : ℕ) (s : List UInt8) : List UInt8 := s ++ List.replicate (size - s.length) 0

/-- What the current cell holds at the end of a text. A literal without its
    closing delimiter still has the size of its buffer. -/
def Token.final : Token → Option Datum
  | .str s => some (.str (padded (strSize s.length) s))
  | .bytes ns => some (.bytes (padded (bytesSize ns.length) (packAll ns)))
  | tok => tok.datum

/-- What a text reads as: a datum, nothing (a null pointer), an error cell, or
    a store outside a buffer. -/
inductive Reading
  | datum (d : Datum)
  | nothing
  | syntaxError
  | fault

/-- What is returned after the last character. -/
def AbsState.reading (a : AbsState) : Reading :=
  if a.outer.isEmpty then
    match (a.cur ++ a.tok.final.toList)[a.first]? with
    | some d => .datum d
    | none => .nothing
  else .syntaxError

instance (a : AbsState) : Decidable a.Fits :=
  match a with
  | ⟨.sym s, _, _, outer, _⟩ | ⟨.str s, _, _, outer, _⟩ =>
    inferInstanceAs (Decidable (outer.length ≤ stackSize ∧ s.length ≤ 2 ^ 30 - 2))
  | ⟨.bytes ns, _, _, outer, _⟩ =>
    inferInstanceAs (Decidable (outer.length ≤ stackSize ∧ ns.length ≤ 2 ^ 29 - 2))
  | ⟨.idle, _, _, outer, _⟩ | ⟨.comment, _, _, outer, _⟩ | ⟨.num _, _, _, outer, _⟩
  | ⟨.numNeg _, _, _, outer, _⟩ =>
    inferInstanceAs (Decidable (outer.length ≤ stackSize ∧ True))

/-- The reading of a text from the state `a` on. -/
def absRead : AbsState → List UInt8 → Reading
  | a, [] => a.reading
  | a, x :: xs =>
    match absStep a x with
    | none => .syntaxError
    | some a' => if a'.Fits then absRead a' xs else .fault

/-- The result of `read_string` is as the reading says. -/
inductive Returns : Except Stop (Word × Heap) → Reading → Prop
  | datum {w : Word} {h : Heap} {S : Set Block} {d : Datum} (hrep : Rep h S w d) :
      Returns (.ok (w, h)) (.datum d)
  | nothing (h : Heap) : Returns (.ok (.null, h)) .nothing
  | syntaxError {e : ℕ} {h : Heap} (hcell : h.cells e = ⟨.ofNat errSyntax, .null, tagError⟩) :
      Returns (.ok (.cell e, h)) .syntaxError
  | fault : Returns (.error .fault) .fault

section Readings

variable {rs rs' : ReaderState} {h h' : Heap} {a a' : AbsState} {S : Set Block} {cs : List ℕ}
  {c v b k tag : ℕ} {os : List (List ℕ × ℕ)} {x : UInt8} {s : List UInt8} {ns : List ℕ}

theorem padded_length {size : ℕ} (hs : s.length ≤ size) : (padded size s).length = size := by
  rw [padded, List.length_append, List.length_replicate]
  omega

theorem filled_eq_padded (hs : s.length ≤ 2 ^ k) : filled s k = padded (2 ^ k) s ++ [0] := by
  rw [filled, padded, List.append_assoc, ← List.replicate_succ']
  congr 2
  omega

/-- The current cell at the end of the text. -/
theorem TokOk.final (hc : Core rs h a S cs c os) (ht : TokOk rs h S c os a.tok)
    (hz : Sized rs h a) :
    match a.tok.final with
    | some d => ∃ S', Rep h S' (h.cells c).ar d
    | none => (h.cells c).ar = .null := by
  cases htok : a.tok with
  | idle | comment =>
    rw [htok] at ht
    exact ht.2.ar
  | num y | numNeg y | sym t =>
    obtain ⟨S', -, -, -, hrep⟩ := TokOk.complete hc ht (by rw [htok]; rfl)
    exact ⟨S', hrep⟩
  | str t =>
    rw [htok] at ht
    obtain ⟨-, v, b, k, hB, -, hs⟩ := ht
    refine ⟨Set.univ, ?_⟩
    rw [hB.ar, hz.str hB hc.cell htok]
    have hbuf : h.bytes b = padded (2 ^ k) t ++ 0 :: [] := by
      rw [hB.contents, filled_eq_padded (by omega)]
    refine Rep.str trivial trivial (by rw [hB.cell]) (by rw [hB.cell]) ?_ hbuf
    rw [hB.cell, padded_length (by omega)]
  | bytes ns =>
    rw [htok] at ht
    obtain ⟨-, v, b, k, hB, -, hs, -⟩ := ht
    have hlen := packAll_length ns
    refine ⟨Set.univ, ?_⟩
    rw [hB.ar, hz.bytes hB hc.cell htok]
    have hbuf : h.bytes b = padded (2 ^ k) (packAll ns) ++ [0] := by
      rw [hB.contents, filled_eq_padded (by omega)]
    refine Rep.bytes trivial trivial (by rw [hB.cell]) (by rw [hB.cell]) ?_ hbuf
    rw [hB.cell, padded_length (by omega)]

theorem allocError_returns (hok : h.FreeListOk) (hroom : 0 < h.room) :
    Returns (h.allocError errSyntax >>= fun r => .ok (.cell r.1, r.2)) .syntaxError := by
  obtain ⟨e, h', hal, -, -, -, hcell, -⟩ := allocCell_spec hok hroom
    fun _ => ⟨.ofNat errSyntax, .null, tagError⟩
  rw [allocError, hal]
  exact .syntaxError hcell

/-- After the last character. -/
theorem readResult_reading (hs : Sim rs h a) (hz : Sized rs h a) (hroom : 0 < h.room) :
    Returns (readResult rs h) a.reading := by
  have herr := hs.not_isError
  obtain ⟨S, cs, c, os, hc, ht⟩ := hs
  have hlen := hc.outer.length_eq
  have hlev := hc.level
  unfold readResult AbsState.reading
  cases hout : a.outer with
  | cons ds dss =>
    rw [hout, List.length_cons] at hlen
    rw [if_pos (.inr (by omega))]
    exact allocError_returns hc.freeListOk hroom
  | nil =>
    rw [hout] at hlen
    obtain rfl : os = [] := List.length_eq_zero_iff.mp hlen
    obtain ⟨r, hr, hslot⟩ := hc.root
    have htop : rs.top = .ok (.cell r) := by
      have hst : rs.stack = 0 := hc.stack
      rw [ReaderState.top, hst, if_pos (by simp), Int.toNat_zero, hslot]
    rw [if_neg (by simp [herr, hlev]), htop]
    change Returns (.ok ((h.cells r).ar, h))
      (match (a.cur ++ a.tok.final.toList)[a.first]? with | some d => .datum d | none => .nothing)
    rw [topChain] at hr
    by_cases hlt : a.first < cs.length
    · rw [List.getElem?_append_left hlt] at hr
      obtain ⟨d, hd, hrep⟩ := hc.cur.rep_get hr
      rw [List.getElem?_append_left (by rw [← hc.cur.length_eq]; exact hlt), hd]
      exact .datum hrep
    · -- the current cell
      rw [List.getElem?_append_right (by omega)] at hr
      have hidx : a.first - cs.length = 0 := by
        obtain ⟨hi, -⟩ := List.getElem?_eq_some_iff.mp hr
        simpa using hi
      rw [hidx] at hr
      obtain rfl : c = r := by simpa using hr
      rw [List.getElem?_append_right (by rw [← hc.cur.length_eq]; omega), ← hc.cur.length_eq, hidx]
      have hfin := TokOk.final hc ht hz
      cases hf : a.tok.final with
      | none =>
        rw [hf] at hfin
        rw [show (h.cells c).ar = .null from hfin]
        exact .nothing h
      | some d =>
        rw [hf] at hfin
        obtain ⟨S', hrep⟩ := hfin
        exact .datum hrep

/-- The loop and what follows it. -/
theorem readChars_reading : ∀ {t : List UInt8} {rs : ReaderState} {h : Heap} {a : AbsState},
    Sim rs h a → Sized rs h a → 2 * t.length + 1 ≤ h.room →
    Returns (readChars t rs h >>= fun r => readResult r.1 r.2) (absRead a t)
  | [], rs, h, a, hs, hz, hroom => by
    have hpos : 0 < h.room := by simpa [Nat.succ_le_iff] using hroom
    exact readResult_reading hs hz hpos
  | x :: t, rs, h, a, hs, hz, hroom => by
    have hcost := stepCost_le a x
    rw [List.length_cons] at hroom
    rw [readChars, absRead]
    cases hstep : absStep a x with
    | none =>
      obtain ⟨rs', hr, herr⟩ := readChar_error hs hstep
      obtain ⟨S, cs, c, os, hc, -⟩ := hs
      rw [hr]
      change Returns ((if rs'.state.isError then _ else _) >>= _) _
      rw [if_pos herr]
      change Returns (readResult rs' h) _
      rw [readResult, if_pos (.inl herr)]
      exact allocError_returns hc.freeListOk (by omega)
    | some a' =>
      dsimp only
      by_cases hfit : a'.Fits
      · obtain ⟨rs', h', hr, hs', hrm⟩ := readChar_sim hs hstep hfit (by omega)
        have hz' := readChar_sized hs hz hstep hfit (by omega) hr
        rw [hr, if_pos hfit]
        change Returns ((if rs'.state.isError then _ else _) >>= _) _
        rw [hs'.not_isError]
        exact readChars_reading hs' hz' (show 2 * t.length + 1 ≤ h'.room by omega)
      · rw [readChar_fault hs hstep hfit (by omega), if_neg hfit]
        exact .fault

/-- `read_string` returns what the text reads as. The cells it needs are at
    most two for each character, two for the root and one for an error. -/
theorem readString_reading {junk : Junk} {input : List UInt8} (hok : h.FreeListOk)
    (hne : effective input ≠ []) (hroom : 2 * (effective input).length + 3 ≤ h.room) :
    Returns (readString junk input h)
      (absRead (.start (junk.valuestate = vstHex)) (effective input)) := by
  obtain ⟨rs₀, h₀, hr₀, hs₀, hcell₀, hrm₀⟩ := ensureRoot_sim junk hok (by omega)
  have hfirst : readChars (effective input) (.start junk) h =
      readChars (effective input) rs₀ h₀ := by
    cases hxs : effective input with
    | nil => exact absurd hxs hne
    | cons x xs => exact readChars_ensureRoot hr₀ hcell₀ x xs
  change Returns (readChars (effective input) (.start junk) h >>= _) _
  rw [hfirst]
  exact readChars_reading hs₀ (.outside rfl) (by omega)

end Readings

end Interim.Reader
