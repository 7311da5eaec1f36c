import Interim.Reader.Layout
import Interim.Writer.Model

/-!
# Write, then read

`Datum.print` is the full text `lisp_write` produces for a datum, without a
buffer. `write_print` shows that the C code puts this text into its buffer as
long as it fits, through all the temporary buffers on the way, and
`print_lays` that the text is a layout of the datum. The reader therefore
returns the datum (`lispWrite_readString`).
-/

namespace Interim.Writer

open Heap Reader

/-! ## The printed text -/

mutual

/-- The full text of a datum. The head of a list is always followed by a
    space, also when it is the only element. -/
def print : Datum → List UInt8
  | .int v => intText v.toInt
  | .sym name => name
  | .str s => ascii "\"" ++ (s ++ ascii "\"")
  | .bytes s => ascii "[" ++ (s.flatMap hexByte ++ ascii "]")
  | .list [] => ascii "nil"
  | .list (d :: ds) => ascii "(" ++ (print d ++ (ascii " " ++ (printTail ds ++ ascii ")")))

/-- The text of the rest of a list, with `in_list` set. -/
def printTail : List Datum → List UInt8
  | [] => []
  | d :: ds =>
    if printTail ds ≠ [] then print d ++ (ascii " " ++ printTail ds) else print d

end

/-- The text of a datum with `in_list` as given. -/
def printIn : Bool → Datum → List UInt8
  | false, d => print d
  | true, .list ds => printTail ds
  | true, d => print d

/-! ## Numbers and hex digits -/

theorem natText_isDigits (n : ℕ) : IsDigits (natText n) := by
  unfold natText
  split_ifs with h0
  · exact isDigits_of_all (by simp) rfl
  · refine ⟨?_, ?_⟩
    · simpa using Nat.digits_ne_nil_iff_ne_zero.mpr h0
    · intro c hc
      obtain ⟨d, hd, rfl⟩ := List.mem_map.mp hc
      have hlt : d < 10 := Nat.digits_lt_base (by norm_num) (List.mem_reverse.mp hd)
      rw [isDigit_iff, UInt8.toNat_ofNat']
      omega

theorem decimal_natText (n : ℕ) : decimal (natText n) = n := by
  unfold natText
  split_ifs with h0
  · rw [h0]; rfl
  · have hval : ∀ l : List ℕ, (∀ d ∈ l, d < 10) →
        l.foldr (fun d n => n * 10 + ((UInt8.ofNat (48 + d)).toNat - 48)) 0 = Nat.ofDigits 10 l := by
      intro l
      induction l with
      | nil => intro _; rfl
      | cons d l ih =>
        intro hl
        have hd := hl d (by simp)
        rw [List.foldr_cons, ih fun e he => hl e (List.mem_cons_of_mem _ he), Nat.ofDigits_cons,
          UInt8.toNat_ofNat']
        omega
    rw [decimal, List.foldl_map, List.foldl_reverse,
      hval _ fun d hd => Nat.digits_lt_base (by norm_num) hd, Nat.ofDigits_digits]

/-- `%ld` prints a numeral of the value. -/
theorem intText_isText (v : BitVec 64) : IntText v (intText v.toInt) := by
  have hcond := BitVec.toInt_eq_toNat_cond v
  have hlt := v.isLt
  unfold intText
  split_ifs with hneg
  · refine Or.inr ⟨hneg, natText v.toInt.natAbs, rfl, natText_isDigits _, ?_⟩
    rw [decimal_natText, BitVec.toNat_neg]
    split_ifs at hcond <;> omega
  · refine Or.inl ⟨natText_isDigits _, ?_⟩
    rw [decimal_natText]
    split_ifs at hcond <;> omega

theorem hexVal_hexDigit {n : ℕ} (hn : n < 16) : hexVal (hexDigit n) = n := by
  interval_cases n <;> decide

theorem isWs_hexDigit {n : ℕ} (hn : n < 16) : isWs (hexDigit n) = false := by
  interval_cases n <;> decide

theorem isHex_hexDigit {n : ℕ} (hn : n < 16) :
    isDigit (hexDigit n) ∨ isLowerHex (hexDigit n) ∨ isUpperHex (hexDigit n) := by
  interval_cases n <;> decide

theorem byte_halves (b : UInt8) : b.toNat / 16 < 16 ∧ b.toNat % 16 < 16 := by
  have : b.toNat < 256 := UInt8.toNat_lt b
  omega

/-- `%02x` for each byte prints the hex digits of the bytes. -/
theorem hexText_flatMap (s : List UInt8) : HexText s (s.flatMap hexByte) := by
  constructor
  · intro c hc
    obtain ⟨b, -, hb⟩ := List.mem_flatMap.mp hc
    obtain ⟨h₁, h₂⟩ := byte_halves b
    simp only [hexByte, List.mem_cons, List.not_mem_nil, or_false] at hb
    rcases hb with rfl | rfl
    · exact Or.inr (isHex_hexDigit h₁)
    · exact Or.inr (isHex_hexDigit h₂)
  · induction s with
    | nil => rfl
    | cons b s ih =>
      obtain ⟨h₁, h₂⟩ := byte_halves b
      simp only [List.flatMap_cons, List.filter_append, List.map_append, ih, nibbles, hexByte,
        List.filter_cons, isWs_hexDigit h₁, isWs_hexDigit h₂]
      simp [hexVal_hexDigit h₁, hexVal_hexDigit h₂]

/-! ## The text is a layout -/

mutual

/-- Every list in the datum has an element. -/
def NoEmptyList : Datum → Prop
  | .list [] => False
  | .list (d :: ds) => NoEmptyList d ∧ NoEmptyListAll ds
  | .int _ | .sym _ | .str _ | .bytes _ => True

/-- `NoEmptyList` for all elements of a list. -/
def NoEmptyListAll : List Datum → Prop
  | [] => True
  | d :: ds => NoEmptyList d ∧ NoEmptyListAll ds

end

theorem delimited_nil : Delimited [] := fun _ _ h => by cases h

theorem delimited_space (t : List UInt8) : Delimited (ascii " " ++ t) := by
  intro c cs h
  injection h with h
  rw [← h]
  rfl

theorem intText_ne_nil (v : ℤ) : intText v ≠ [] := by
  unfold intText
  split_ifs
  · simp
  · exact (natText_isDigits _).1

theorem print_ne_nil {d : Datum} (hlex : d.Atoms Lexical) : print d ≠ [] := by
  cases d with
  | int v => rw [print]; exact intText_ne_nil _
  | sym name =>
    rw [print]
    rw [Datum.Atoms] at hlex
    obtain ⟨c, cs, rfl, -⟩ := IsName.start hlex
    simp
  | str s => rw [print]; simp [ascii]
  | bytes s => rw [print]; simp [ascii]
  | list ds => cases ds <;> rw [print] <;> simp [ascii]

theorem printTail_eq_nil {ds : List Datum} (hlex : Datum.AtomsAll Lexical ds)
    (h : printTail ds = []) : ds = [] := by
  cases ds with
  | nil => rfl
  | cons d ds =>
    rw [Datum.AtomsAll] at hlex
    rw [printTail] at h
    split_ifs at h
    · exact absurd (List.append_eq_nil_iff.mp h).1 (print_ne_nil hlex.1)
    · exact absurd h (print_ne_nil hlex.1)

mutual

/-- A printed datum with a gap before it and other elements after it. -/
theorem print_lays : ∀ {d : Datum} {ds : List Datum} {g rest : List UInt8}, NoEmptyList d →
    d.Atoms Lexical → Gap g → Lays ds rest → Delimited rest →
    Lays (d :: ds) (g ++ (print d ++ rest))
  | .int v, _, _, _, _, _, hg, hrest, hdel => by
    rw [print]; exact Lays.int hg (intText_isText v) hrest hdel
  | .sym name, _, _, _, _, _, hg, hrest, hdel => by
    rw [print]; exact Lays.sym hg hrest hdel
  | .str s, _, _, _, _, _, hg, hrest, _ => by
    rw [print, List.append_assoc, List.append_assoc]; exact Lays.str hg hrest
  | .bytes s, _, _, _, _, _, hg, hrest, _ => by
    rw [print, List.append_assoc, List.append_assoc]
    exact Lays.bytes hg (hexText_flatMap s) hrest
  | .list [], _, _, _, hne, _, _, _, _ => by rw [NoEmptyList] at hne; exact hne.elim
  | .list (e :: es), _, _, _, hne, hlex, hg, hrest, _ => by
    rw [NoEmptyList] at hne
    rw [Datum.Atoms, Datum.AtomsAll] at hlex
    have hin : Lays (e :: es) ([] ++ (print e ++ (ascii " " ++ printTail es))) :=
      print_lays hne.1 hlex.1 Gap.nil (printTail_lays hne.2 hlex.2) (delimited_space _)
    rw [print]
    simpa [ascii] using Lays.list hg hin hrest

/-- The printed rest of a list, after its space. -/
theorem printTail_lays : ∀ {ds : List Datum}, NoEmptyListAll ds → Datum.AtomsAll Lexical ds →
    Lays ds (ascii " " ++ printTail ds)
  | [], _, _ => by rw [printTail]; exact Lays.nil (Gap.ws rfl Gap.nil)
  | d :: ds, hne, hlex => by
    rw [NoEmptyListAll] at hne
    rw [Datum.AtomsAll] at hlex
    have hgap : Gap (ascii " ") := Gap.ws rfl Gap.nil
    rw [printTail]
    split_ifs with h
    · exact print_lays hne.1 hlex.1 hgap (printTail_lays hne.2 hlex.2) (delimited_space _)
    · obtain rfl := printTail_eq_nil hlex.2 (not_not.mp h)
      have hlast : Lays [d] (ascii " " ++ (print d ++ [])) :=
        print_lays hne.1 hlex.1 hgap (Lays.nil Gap.nil) delimited_nil
      rwa [List.append_nil] at hlast

end

/-! ## Buffers -/

section Buffers

variable {buf text : List UInt8} {n : ℕ}

theorem toSizeT_natCast (hn : n < 2 ^ 63) : toSizeT (n : ℤ) = n := by
  rw [toSizeT, Int.emod_eq_of_lt (by omega) (by omega), Int.toNat_natCast]

theorem store_length {pos : ℕ} {buf' : List UInt8} (h : store buf pos text = .ok buf') :
    buf'.length = buf.length := by
  unfold store at h
  split_ifs at h with hle
  injection h with h
  rw [← h]
  simp
  omega

theorem cStringAt_append {rest : List UInt8} (hz : 0 ∉ text) :
    cStringAt (text ++ 0 :: rest) 0 = .ok text := by
  rw [cStringAt, List.drop_zero, if_pos (by simp), List.takeWhile_append_of_pos]
  · simp
  · intro c hc
    simp only [decide_eq_true_eq]
    rintro rfl
    exact hz hc

/-- A text and its NUL at the start of a buffer. -/
theorem store_zero (hlen : text.length < buf.length) (hz : 0 ∉ text) :
    ∃ buf', store buf 0 (text ++ [0]) = .ok buf' ∧ cStringAt buf' 0 = .ok text := by
  refine ⟨text ++ 0 :: buf.drop (text.length + 1), ?_, cStringAt_append hz⟩
  rw [store, if_pos (by simp; omega)]
  simp

/-- `snprintf` of a text that fits. -/
theorem snprintf_zero (hn : n < 2 ^ 63) (hlen : text.length < n) (hbuf : n ≤ buf.length)
    (hz : 0 ∉ text) :
    ∃ buf', snprintf buf 0 n text = .ok buf' ∧ cStringAt buf' 0 = .ok text := by
  rw [snprintf, toSizeT_natCast hn, if_neg (by omega), List.take_of_length_le (by omega)]
  exact store_zero (by omega) hz

/-- The loop of the `TAG_BYTES` branch prints its bytes one after the other. -/
theorem writeHex_spec {h : Heap} {b : ℕ} (s : List UInt8) :
    ∀ (done rest todo : List UInt8) (i : ℕ), (h.bytes b).drop i = s ++ todo →
      done.length = 1 + 2 * i → 2 * s.length < rest.length →
      ∃ rest', writeHex h (.ptr (.bytes b) 0) 0 i s.length (done ++ rest) =
          .ok (done ++ (s.flatMap hexByte ++ rest')) ∧ rest'.length + 2 * s.length = rest.length := by
  induction s with
  | nil => exact fun done rest _ _ _ _ _ => ⟨rest, rfl, by simp⟩
  | cons x s ih =>
    intro done rest todo i hs hlen hrest
    have hget : (h.bytes b).getD i 0 = x := by
      have := congrArg (fun l => l.getD 0 0) hs
      simpa using this
    have hi : i < (h.bytes b).length := by
      by_contra hge
      rw [List.drop_eq_nil_of_le (by omega)] at hs
      cases hs
    have hnext : (h.bytes b).drop (i + 1) = s ++ todo := by
      have := congrArg (fun l => l.drop 1) hs
      simpa using this
    simp only [List.length_cons] at hrest
    obtain ⟨r₁, r₂, r₃, rest, rfl⟩ : ∃ r₁ r₂ r₃ rest₀, rest = r₁ :: r₂ :: r₃ :: rest₀ := by
      match rest, hrest with
      | r₁ :: r₂ :: r₃ :: rest, _ => exact ⟨r₁, r₂, r₃, rest, rfl⟩
      | [], hrest | [_], hrest | [_, _], hrest => simp at hrest <;> omega
    -- two digits and a NUL, which the next store overwrites
    have hstore : store (done ++ (r₁ :: r₂ :: r₃ :: rest)) (0 + 1 + i * 2) (hexByte x ++ [0]) =
        .ok ((done ++ hexByte x) ++ (0 :: rest)) := by
      have hpos : 0 + 1 + i * 2 = done.length := by omega
      rw [hpos, store, if_pos (by simp [hexByte])]
      simp [hexByte, List.drop_append]
    obtain ⟨rest', hw, hl⟩ := ih (done ++ hexByte x) (0 :: rest) todo (i + 1) hnext
      (by simp [hexByte]; omega) (by simp at hrest ⊢; omega)
    refine ⟨rest', ?_, by simp at hl ⊢; omega⟩
    rw [List.length_cons, writeHex, if_pos ⟨le_rfl, by simpa using hi⟩, Int.toNat_zero,
      Nat.zero_add i, hget, hstore]
    change writeHex h (.ptr (.bytes b) 0) 0 (i + 1) s.length _ = _
    rw [hw, List.flatMap_cons, List.append_assoc, List.append_assoc]

end Buffers

/-! ## No NUL in the text -/

theorem zero_notMem_natText (n : ℕ) : 0 ∉ natText n := by
  intro h
  exact absurd ((natText_isDigits n).2 0 h) (by decide)

theorem zero_notMem_hex (s : List UInt8) : 0 ∉ s.flatMap hexByte := by
  intro h
  exact absurd ((hexText_flatMap s).1 0 h) (by decide)

mutual

theorem zero_notMem_print : ∀ {d : Datum}, d.Atoms Lexical → 0 ∉ print d
  | .int v, _ => by
    rw [print, intText]
    split_ifs
    · simp [zero_notMem_natText]
    · exact zero_notMem_natText _
  | .sym name, h => by
    rw [print]
    rw [Datum.Atoms] at h
    exact fun h0 => (h.inside 0 h0).2.2 rfl
  | .str s, h => by
    rw [print]
    rw [Datum.Atoms] at h
    have : 0 ∉ s := fun h0 => (h 0 h0).2 rfl
    simp [ascii, this]
  | .bytes s, _ => by
    rw [print]
    have := zero_notMem_hex s
    simp only [List.mem_append, not_or]
    exact ⟨by decide, this, by decide⟩
  | .list [], _ => by rw [print]; decide
  | .list (d :: ds), h => by
    rw [Datum.Atoms, Datum.AtomsAll] at h
    rw [print]
    simp only [List.mem_append, not_or]
    exact ⟨by decide, zero_notMem_print h.1, by decide, zero_notMem_printTail h.2, by decide⟩

theorem zero_notMem_printTail : ∀ {ds : List Datum}, Datum.AtomsAll Lexical ds → 0 ∉ printTail ds
  | [], _ => by rw [printTail]; simp
  | d :: ds, h => by
    rw [Datum.AtomsAll] at h
    rw [printTail]
    split_ifs
    · simp only [List.mem_append, not_or]
      exact ⟨zero_notMem_print h.1, by decide, zero_notMem_printTail h.2⟩
    · exact zero_notMem_print h.1

end

/-! ## `write_` prints the text -/

mutual

/-- How many nested calls of `write_` a datum takes at most. -/
def calls : Datum → ℕ
  | .list ds => callsAll ds
  | .int _ | .sym _ | .str _ | .bytes _ => 1

/-- The same for a list or a tail of one. -/
def callsAll : List Datum → ℕ
  | [] => 1
  | d :: ds => 1 + calls d + callsAll ds

end

theorem cString_bytes {h : Heap} {b : ℕ} {s rest : List UInt8} (hbuf : h.bytes b = s ++ 0 :: rest)
    (hz : 0 ∉ s) : cString h (.ptr (.bytes b) 0) = .ok s := by
  rw [cString, if_pos le_rfl, Int.toNat_zero, hbuf, cStringAt_append hz]

/-- `write_` on a cell: `buffer[0] = 0`, then the dispatch on the tag. -/
theorem write_cell (junk : ℕ → UInt8) (h : Heap) (i fuel : ℕ) (inList : Bool) {n : ℕ}
    {buf : List UInt8} (hn : 0 < n) (hbuf : n ≤ buf.length) :
    ∃ buf₀, buf₀.length = buf.length ∧ cStringAt buf₀ 0 = .ok [] ∧
      write junk h (fuel + 1) (.cell i) buf 0 inList n =
        writeCell junk h fuel (write junk h fuel) (h.cells i) buf₀ 0 inList ((n - 1 : ℕ) : ℤ) := by
  have hstore : store buf 0 [0] = .ok (0 :: buf.drop 1) := by
    rw [store, if_pos (by simp; omega)]
    simp
  refine ⟨0 :: buf.drop 1, store_length hstore, cStringAt_append List.not_mem_nil, ?_⟩
  rw [write, hstore, Nat.cast_sub hn]
  rfl

/-- A string of at most `dr.size` characters, not cut by `bufsize`. -/
theorem writeStr_print {h : Heap} {c : Cell} {s : List UInt8} {n size : ℕ} {buf : List UInt8}
    (hstr : cString h c.ar = .ok s) (hdr : c.dr = .ofNat size) (hsize : s.length ≤ size)
    (hsize' : size < 2 ^ 31) (hz : 0 ∉ s) (hlen : s.length + 4 ≤ n) (hn : n < 2 ^ 63)
    (hbuf : n ≤ buf.length) :
    ∃ buf', writeStr h c buf 0 n = .ok buf' ∧ cStringAt buf' 0 = .ok (print (.str s)) := by
  have hquotes : (BitVec.ofNat 64 size + 3).toNat = size + 3 := by
    have : (BitVec.ofNat 64 size).toNat = size := by
      rw [BitVec.toNat_ofNat, Nat.mod_eq_of_lt (by omega)]
    bv_omega
  have hbound : toSizeT ((n : ℤ) - 1) = n - 1 := by
    rw [← Nat.cast_one, ← Nat.cast_sub (by omega), toSizeT_natCast (by omega)]
  rw [writeStr, hstr, hdr, print]
  change ∃ buf', snprintf buf 0 (min (toSizeT ((n : ℤ) - 1)) (BitVec.ofNat 64 size + 3).toNat : ℕ)
    _ = .ok buf' ∧ _
  rw [hquotes, hbound]
  refine snprintf_zero (by omega) (by simp [ascii]; omega) (by omega) ?_
  simp [ascii, hz]

theorem writeBytes_print {h : Heap} {c : Cell} {b : ℕ} {s rest : List UInt8} {n : ℕ}
    {buf : List UInt8} (har : c.ar = .ptr (.bytes b) 0) (hdr : c.dr = .ofNat s.length)
    (hbytes : h.bytes b = s ++ rest) (hlen : 2 * s.length + 3 ≤ n) (hn5 : 5 < n)
    (hn : n < 2 ^ 31) (hbuf : n ≤ buf.length) :
    ∃ buf', writeBytes h c buf 0 n = .ok buf' ∧ cStringAt buf' 0 = .ok (print (.bytes s)) := by
  have hsize : (BitVec.ofNat 64 s.length * 2 + 3).toNat = s.length * 2 + 3 := by
    have : (BitVec.ofNat 64 s.length).toNat = s.length := by
      rw [BitVec.toNat_ofNat, Nat.mod_eq_of_lt (by omega)]
    bv_omega
  have hmax : ((((s.length * 2 + 3 : ℕ) : ℤ) - 3).tdiv 2 % 2 ^ 32).toNat = s.length := by
    have h₁ : ((s.length * 2 + 3 : ℕ) : ℤ) - 3 = s.length * 2 := by omega
    rw [h₁, Int.mul_tdiv_cancel _ (by norm_num), Int.emod_eq_of_lt (by omega) (by omega),
      Int.toNat_natCast]
  obtain ⟨x, buf, rfl⟩ : ∃ x buf₀, buf = x :: buf₀ := by
    cases buf with
    | nil => simp at hbuf; omega
    | cons x buf => exact ⟨x, buf, rfl⟩
  simp only [List.length_cons] at hbuf
  have hopen : store (x :: buf) 0 (ascii "[") = .ok ([91] ++ buf) := rfl
  obtain ⟨rest', hhex, hrest⟩ := writeHex_spec s [91] buf rest 0 (by simpa using hbytes) rfl
    (by omega)
  obtain ⟨y, z, rest', rfl⟩ : ∃ y z r, rest' = y :: z :: r := by
    match rest', hrest with
    | y :: z :: r, _ => exact ⟨y, z, r, rfl⟩
    | [], hrest | [_], hrest => simp at hrest; omega
  have hhexlen : (s.flatMap hexByte).length = s.length * 2 := by
    simp [List.length_flatMap, hexByte]
  have hclose : store ([91] ++ (s.flatMap hexByte ++ (y :: z :: rest'))) (0 + s.length * 2 + 1)
      (ascii "]" ++ [0]) = .ok (print (.bytes s) ++ (0 :: rest')) := by
    have hpos : 0 + s.length * 2 + 1 = ([91] ++ s.flatMap hexByte).length := by
      simp only [List.length_append, hhexlen, List.length_singleton]; omega
    rw [← List.append_assoc, hpos, store, if_pos (by simp [ascii])]
    simp [print, ascii, List.drop_append]
  refine ⟨print (.bytes s) ++ (0 :: rest'), ?_, cStringAt_append (zero_notMem_print trivial)⟩
  · rw [writeBytes, hdr]
    change (if (n : ℤ) > 5 then _ else _) = _
    rw [if_pos (by omega), hsize, toSizeT_natCast (by omega), Nat.min_eq_left (by omega), hmax,
      hopen]
    change (writeHex h c.ar 0 0 s.length ([91] ++ buf) >>= _) = _
    rw [har, hhex]
    exact hclose

theorem calls_pos : ∀ d : Datum, 0 < calls d
  | .int _ | .sym _ | .str _ | .bytes _ => by rw [calls]; omega
  | .list [] => by rw [calls, callsAll]; omega
  | .list (_ :: _) => by rw [calls, callsAll]; omega

theorem printIn_atom {d : Datum} (inList : Bool) (hd : ∀ ds, d ≠ .list ds) :
    printIn inList d = print d := by
  cases d with
  | list ds => exact absurd rfl (hd ds)
  | int | sym | str | bytes => cases inList <;> rfl

/-- `write_` with `in_list` as given puts the full text into a buffer of at
    least `TMP_BUF_SIZE` bytes, if the text has at most 500 characters. -/
theorem write_print (junk : ℕ → UInt8) {h : Heap} {S : Set Block} {w : Word} {d : Datum}
    (hr : Rep h S w d) : ∀ {fuel n : ℕ} (buf : List UInt8) (inList : Bool), calls d ≤ fuel →
    d.Atoms Lexical → 512 ≤ n → n < 2 ^ 31 → n ≤ buf.length →
    (printIn inList d).length ≤ 500 →
    ∃ buf', write junk h fuel w buf 0 inList n = .ok buf' ∧
      cStringAt buf' 0 = .ok (printIn inList d) := by
  induction hr with
  | @int i v _ htag har =>
    intro fuel n buf inList hfuel hlex hn hn' hbuf hlen
    obtain ⟨fuel, rfl⟩ : ∃ f, fuel = f + 1 := ⟨fuel - 1, by have := calls_pos (.int v); omega⟩
    obtain ⟨buf₀, hlen₀, -, hw⟩ := write_cell junk h i fuel inList (show 0 < n by omega) hbuf
    rw [printIn_atom inList (by simp)] at hlen ⊢
    rw [hw, writeCell, if_pos htag, har]
    exact snprintf_zero (by omega) (show (print (.int v)).length < n - 1 by omega) (by omega)
      (zero_notMem_print hlex)
  | @sym i b name rest _ _ htag har hb =>
    intro fuel n buf inList hfuel hlex hn hn' hbuf hlen
    obtain ⟨fuel, rfl⟩ : ∃ f, fuel = f + 1 := ⟨fuel - 1, by have := calls_pos (.sym name); omega⟩
    obtain ⟨buf₀, hlen₀, -, hw⟩ := write_cell junk h i fuel inList (show 0 < n by omega) hbuf
    rw [printIn_atom inList (by simp)] at hlen ⊢
    have hz := zero_notMem_print hlex
    rw [print] at hlen hz ⊢
    rw [hw, writeCell, if_neg (by rw [htag]; decide), if_neg (by rw [htag]; decide), if_pos htag,
      har, cString_bytes hb hz]
    exact snprintf_zero (by omega) (by omega) (by omega) hz
  | @str i b s rest _ _ htag har hdr hb =>
    intro fuel n buf inList hfuel hlex hn hn' hbuf hlen
    obtain ⟨fuel, rfl⟩ : ∃ f, fuel = f + 1 := ⟨fuel - 1, by have := calls_pos (.str s); omega⟩
    obtain ⟨buf₀, hlen₀, -, hw⟩ := write_cell junk h i fuel inList (show 0 < n by omega) hbuf
    rw [printIn_atom inList (by simp)] at hlen ⊢
    have hz : 0 ∉ s := fun h0 => (hlex 0 h0).2 rfl
    have hs : s.length + 2 ≤ 500 := by
      simp only [print, List.length_append, show (ascii "\"").length = 1 from rfl] at hlen
      omega
    rw [hw, writeCell, if_neg (by rw [htag]; decide), if_neg (by rw [htag]; decide),
      if_neg (by rw [htag]; decide), if_pos htag]
    exact writeStr_print (by rw [har]; exact cString_bytes hb hz) hdr le_rfl (by omega) hz (by omega)
      (by omega) (by omega)
  | @bytes i b s rest _ _ htag har hdr hb =>
    intro fuel n buf inList hfuel hlex hn hn' hbuf hlen
    obtain ⟨fuel, rfl⟩ : ∃ f, fuel = f + 1 := ⟨fuel - 1, by have := calls_pos (.bytes s); omega⟩
    obtain ⟨buf₀, hlen₀, -, hw⟩ := write_cell junk h i fuel inList (show 0 < n by omega) hbuf
    rw [printIn_atom inList (by simp)] at hlen ⊢
    have hs : 2 * s.length + 2 ≤ 500 := by
      have hhex : (s.flatMap hexByte).length = s.length * 2 := by
        simp [List.length_flatMap, hexByte]
      simp only [print, List.length_append, hhex, show (ascii "[").length = 1 from rfl,
        show (ascii "]").length = 1 from rfl] at hlen
      omega
    rw [hw, writeCell, if_neg (by rw [htag]; decide), if_neg (by rw [htag]; decide),
      if_neg (by rw [htag]; decide), if_neg (by rw [htag]; decide), if_neg (by rw [htag]; decide),
      if_neg (by rw [htag]; decide), if_neg (by rw [htag]; decide), if_neg (by rw [htag]; decide),
      if_pos htag]
    exact writeBytes_print har hdr hb (by omega) (by omega) (by omega) (by omega)
  | @nil i _ hcell =>
    intro fuel n buf inList hfuel hlex hn hn' hbuf hlen
    obtain ⟨fuel, rfl⟩ : ∃ f, fuel = f + 1 := ⟨fuel - 1, by have := calls_pos (.list []); omega⟩
    obtain ⟨buf₀, hlen₀, hempty, hw⟩ := write_cell junk h i fuel inList (show 0 < n by omega) hbuf
    rw [hw, hcell, writeCell, if_neg (by simp), if_pos rfl, writeCons, if_pos ⟨rfl, rfl⟩]
    cases inList with
    | true => exact ⟨buf₀, rfl, hempty⟩
    | false =>
      rw [printIn, print] at hlen ⊢
      exact snprintf_zero (by omega) (by omega) (by omega) (by decide)
  | @cons i d ds _ htag hcar hcdr ihcar ihcdr =>
    intro fuel n buf inList hfuel hlex hn hn' hbuf hlen
    rw [Datum.Atoms, Datum.AtomsAll] at hlex
    rw [calls, callsAll] at hfuel
    obtain ⟨fuel, rfl⟩ : ∃ f, fuel = f + 1 := ⟨fuel - 1, by omega⟩
    obtain ⟨buf₀, hlen₀, -, hw⟩ := write_cell junk h i fuel inList (show 0 < n by omega) hbuf
    have htmp : ((List.range tmpBufSize).map junk).length = 512 := by simp
    obtain ⟨hd500, hds500⟩ : (print d).length ≤ 500 ∧ (printTail ds).length ≤ 500 := by
      cases inList with
      | true =>
        rw [printIn, printTail] at hlen
        split_ifs at hlen with h0
        · simp only [List.length_append] at hlen; omega
        · rw [not_not.mp h0]; exact ⟨hlen, by simp⟩
      | false =>
        rw [printIn, print] at hlen
        simp only [List.length_append] at hlen
        omega
    obtain ⟨tl, htl, htltext⟩ := ihcar ((List.range tmpBufSize).map junk) false
      (show calls d ≤ fuel by omega) hlex.1 le_rfl (by norm_num) (by rw [htmp]) hd500
    obtain ⟨tr, htr, htrtext⟩ := ihcdr ((List.range tmpBufSize).map junk) true
      (show calls (.list ds) ≤ fuel by rw [calls]; omega) (by rw [Datum.Atoms]; exact hlex.2) le_rfl
      (by norm_num) (by rw [htmp]) hds500
    have hleft : writeTmp junk (write junk h fuel) (h.cells i).ar false = .ok (print d) := by
      rw [writeTmp, htl]; exact htltext
    have hright : writeTmp junk (write junk h fuel) (h.cells i).dr true = .ok (printTail ds) := by
      rw [writeTmp, htr]; exact htrtext
    have hproper : isConsPtr h (h.cells i).dr = .ok true := by
      obtain ⟨j, hj, hjtag⟩ := hcdr.list_cell
      rw [isConsPtr, if_neg hcdr.ne_null, hj]
      change Except.ok (decide ((h.cells j).tag = tagCons)) = _
      rw [hjtag]
      rfl
    rw [hw, writeCell, if_neg (by rw [htag]; decide), if_pos htag, writeCons,
      if_neg (fun hnull => hcar.ne_null hnull.1), hleft]
    change ∃ buf', (isConsPtr h (h.cells i).dr >>= _) = .ok buf' ∧ _
    rw [hproper]
    change ∃ buf', (writeTmp junk (write junk h fuel) (h.cells i).dr true >>= _) = .ok buf' ∧ _
    rw [hright]
    have hz : 0 ∉ printIn inList (.list (d :: ds)) := by
      cases inList with
      | true => exact zero_notMem_printTail (by rw [Datum.AtomsAll]; exact hlex)
      | false => exact zero_notMem_print (by rw [Datum.Atoms, Datum.AtomsAll]; exact hlex)
    have htext : (if inList then if printTail ds ≠ [] then print d ++ (ascii " " ++ printTail ds)
        else print d else ascii "(" ++ (print d ++ (ascii " " ++ (printTail ds ++ ascii ")")))) =
        printIn inList (.list (d :: ds)) := by
      cases inList with
      | true => rw [printIn, printTail]; rfl
      | false => rw [printIn, print]; rfl
    change ∃ buf', snprintf buf₀ 0 ((n - 1 : ℕ) : ℤ) (if inList then _ else _) = .ok buf' ∧ _
    rw [htext]
    exact snprintf_zero (by omega) (by omega) (by omega) hz

/-! ## The round trip -/

mutual

theorem fitsBuffer_of_print : ∀ {d : Datum}, (print d).length ≤ 500 → d.Atoms FitsBuffer
  | .int v, _ => by rw [Datum.Atoms]; trivial
  | .sym name, h => by
    rw [print] at h
    rw [Datum.Atoms, FitsBuffer]
    omega
  | .str s, h => by
    simp only [print, List.length_append] at h
    rw [Datum.Atoms, FitsBuffer]
    omega
  | .bytes s, h => by
    have hhex : (s.flatMap hexByte).length = s.length * 2 := by simp [List.length_flatMap, hexByte]
    simp only [print, List.length_append, hhex] at h
    rw [Datum.Atoms, FitsBuffer]
    omega
  | .list [], _ => by rw [Datum.Atoms, Datum.AtomsAll]; trivial
  | .list (d :: ds), h => by
    simp only [print, List.length_append] at h
    rw [Datum.Atoms, Datum.AtomsAll]
    exact ⟨fitsBuffer_of_print (by omega), fitsBufferAll_of_print (by omega)⟩

theorem fitsBufferAll_of_print : ∀ {ds : List Datum}, (printTail ds).length ≤ 500 →
    Datum.AtomsAll FitsBuffer ds
  | [], _ => by rw [Datum.AtomsAll]; trivial
  | d :: ds, h => by
    rw [printTail] at h
    rw [Datum.AtomsAll]
    split_ifs at h with h0
    · simp only [List.length_append] at h
      exact ⟨fitsBuffer_of_print (by omega), fitsBufferAll_of_print (by omega)⟩
    · exact ⟨fitsBuffer_of_print h, fitsBufferAll_of_print (by rw [not_not.mp h0]; simp)⟩

end

/-- `read_string` of what `lisp_write` prints is the datum again, when enough
    cells are left to build it: two for each of its nodes and two for the
    root. -/
theorem lispWrite_readString (junk : Junk) (junkTmp : ℕ → UInt8) (h : Heap) (S : Set Block)
    (w : Word) (d : Datum) (buf : List UInt8) (n fuel : ℕ) (hr : Rep h S w d)
    (hlex : d.Atoms Lexical) (hne : NoEmptyList d) (hdepth : d.depth ≤ 96)
    (hlen : (print d).length ≤ 500) (hn : 512 ≤ n) (hint : n < 2 ^ 31) (hbuf : n ≤ buf.length)
    (hvst : junk.valuestate = vstDefault) (hfuel : calls d ≤ fuel) (hok : h.FreeListOk)
    (hroom : 2 * d.nodes + 2 ≤ h.room) :
    ∃ buf' text w' h' S', lispWrite junkTmp h fuel w buf n = .ok buf' ∧
      cStringAt buf' 0 = .ok text ∧ readString junk text h = .ok (w', h') ∧ Rep h' S' w' d := by
  obtain ⟨buf', hw, htext⟩ := write_print junkTmp hr buf false hfuel hlex hn hint hbuf hlen
  have hlays : Lays [d] ([] ++ (print d ++ [])) :=
    print_lays hne hlex Gap.nil (Lays.nil Gap.nil) delimited_nil
  rw [List.append_nil, List.nil_append] at hlays
  obtain ⟨w', h', S', hread, hrep, -⟩ := readString_lays hok hlex
    (Or.inl (by rw [hvst]; decide)) hdepth (fitsBuffer_of_print hlen) hlays (by omega) hroom
  exact ⟨buf', print d, w', h', S', hw, htext, hread, hrep⟩

/-- A heap with the list `(-7)` in it. -/
def oneListHeap : Heap :=
  { Heap.init with
    cells := fun i =>
      if i = 0 then ⟨.cell 1, .cell 2, tagCons⟩
      else if i = 1 then ⟨.int (-7), .null, tagInt⟩
      else ⟨.null, .null, tagCons⟩
    cellsUsed := 3 }

theorem oneListHeap_rep : Rep oneListHeap Set.univ (.cell 0) (.list [.int (-7)]) :=
  Rep.cons trivial rfl (Rep.int trivial rfl rfl) (Rep.nil trivial rfl)

/-- `(-7)` is printed as `(-7 )` and read back. -/
theorem lispWrite_readString_oneList :
    ∃ buf' text w' h' S',
      lispWrite (fun _ => 1) oneListHeap 5 (.cell 0) (List.replicate 512 1) 512 = .ok buf' ∧
        cStringAt buf' 0 = .ok text ∧
        readString ⟨fun _ => .null, vstDefault, 0⟩ text oneListHeap = .ok (w', h') ∧
        Rep h' S' w' (.list [.int (-7)]) := by
  have hprint : print (.list [.int (-7)]) = [40, 45, 55, 32, 41] := by
    simp [print, printTail, intText, natText, ascii]
  refine lispWrite_readString _ _ _ _ _ _ _ 512 5 oneListHeap_rep ?_ ?_ (by decide) ?_ le_rfl
    (by norm_num) (by rw [List.length_replicate]) rfl (by decide) ?_ (by decide)
  · simp [Datum.Atoms, Datum.AtomsAll, Lexical]
  · simp [NoEmptyList, NoEmptyListAll]
  · rw [hprint]; decide
  · exact ⟨by simp [oneListHeap, Heap.init], by simp [oneListHeap, Heap.init]⟩

/-- A heap whose cells are all in use, with the integer 5 in cell 0. -/
def fullHeapFive : Heap := fullHeap.setCell 0 ⟨.int 5, .null, tagInt⟩

/-- With no cell left, what was printed cannot be read back. -/
theorem lispWrite_readString_full :
    Rep fullHeapFive Set.univ (.cell 0) (.int 5) ∧
    ∃ buf', lispWrite (fun _ => 0) fullHeapFive 1 (.cell 0) (List.replicate 512 0) 512 = .ok buf' ∧
      cStringAt buf' 0 = .ok [53] ∧
      readString ⟨fun _ => .null, vstDefault, 0⟩ [53] fullHeapFive = .error .exit := by
  have hrep : Rep fullHeapFive Set.univ (.cell 0) (.int 5) :=
    Rep.int trivial (by simp [fullHeapFive]) (by simp [fullHeapFive])
  have hprint : print (.int 5) = [53] := by simp [print, intText, natText]
  obtain ⟨buf', hw, htext⟩ := write_print (fun _ => 0) hrep (List.replicate 512 0) false
    (show calls (.int 5) ≤ 1 from le_rfl) trivial le_rfl (by norm_num)
    (by rw [List.length_replicate])
    (by rw [printIn, hprint]; decide)
  rw [printIn, hprint] at htext
  exact ⟨hrep, buf', hw, htext, readString_exit rfl⟩

end Interim.Writer
