import Interim.Minilisp

/-!
# UTF-8

Model of `sledge/utf8.c`. A byte string is the list of its bytes; where the C
code reads up to the terminator, the terminator is the end of the list or a zero
byte in it. The decoder is written twice in the source, in `utf8_rune_at` and in
`utf8_str_to_runestr`, and is one definition here (`Decoder.next`).

Results:

* `lead_cases`: the encoding of a code point is a leading byte, whose class
  says how many continuation bytes follow, and these.
* `emitted_encode`: the decoder reads the encoding of a code point back, from
  any state between two code points.
* `encode_decode`: all five functions agree on a string of encodings.
-/

namespace Interim.Sledge.Utf8

/-! ## The functions of `utf8.c` -/

/-- `utf8_rune_len(b)` (lines 3–14). -/
def runeLen (b : UInt8) : ℕ :=
  if b &&& 0x80 = 0 then 1
  else if b &&& 0xe0 = 0xc0 then 2
  else if b &&& 0xf0 = 0xe0 then 3
  else if b &&& 0xf8 = 0xf0 then 4
  else 1

/-- The loop of `utf8_strlen(s, len)` (lines 16–23), `j` being counted on the
    way back: the bytes that are no continuation bytes. -/
def strlen : List UInt8 → ℕ → ℕ
  | [], _ => 0
  | _ :: _, 0 => 0
  | b :: s, len + 1 =>
    if b = 0 then 0
    else (if b &&& 0xc0 ≠ 0x80 then 1 else 0) + strlen s len

/-- `rune` and `state` of the two decoding loops. -/
structure Decoder where
  rune : UInt32
  state : ℕ
  deriving DecidableEq, Repr

/-- One byte of the two decoding loops (lines 32–50 and 134–152). -/
def Decoder.next (d : Decoder) (b1 : UInt8) : Decoder :=
  if b1 &&& 0x80 = 0 then ⟨b1.toUInt32, 0⟩
  else if 0 < d.state then ⟨d.rune <<< 6 ||| (b1 &&& 0x3f).toUInt32, d.state - 1⟩
  else if b1 &&& 0xe0 = 0xc0 then ⟨(b1 &&& 0x1f).toUInt32, 1⟩
  else if b1 &&& 0xf0 = 0xe0 then ⟨(b1 &&& 0x0f).toUInt32, 2⟩
  else if b1 &&& 0xf8 = 0xf0 then ⟨(b1 &&& 0x07).toUInt32, 3⟩
  else d

/-- The loop of `utf8_rune_at(s, idx)` (lines 29–61). -/
def runeAtLoop (idx : ℤ) : ℕ → Decoder → List UInt8 → UInt32
  | _, _, [] => 0
  | j, d, b1 :: s =>
    if b1 = 0 then 0
    else
      let d := d.next b1
      if d.state = 0 then
        if idx = j then d.rune else runeAtLoop idx (j + 1) d s
      else runeAtLoop idx j d s

/-- `utf8_rune_at(s, idx)` (lines 25–62). -/
def runeAt (s : List UInt8) (idx : ℤ) : UInt32 := runeAtLoop idx 0 ⟨0, 0⟩ s

/-- The loop of `utf8_str_to_runestr` (lines 131–158) over the bytes of
    `ustr`: what is stored in `dest`. -/
def emitted : Decoder → List UInt8 → List UInt32
  | _, [] => []
  | d, b1 :: s =>
    let d := d.next b1
    if d.state = 0 then d.rune :: emitted d s else emitted d s

/-- `utf8_str_to_runestr(ustr, len_bytes, dest)` (lines 127–160). -/
def strToRunestr (ustr : List UInt8) : List UInt32 := emitted ⟨0, 0⟩ ustr

/-- What `rune_to_utf8` leaves: `tempbuf[0 .. *count)` and the value returned. -/
structure Encoded where
  buf : List UInt8
  ret : ℤ
  deriving DecidableEq, Repr

/-- `rune_to_utf8(c, tempbuf, count)` (lines 65–125). -/
def runeToUtf8 (c : ℕ) : Encoded :=
  if c ≤ 0x7F then ⟨[.ofNat c], 0⟩
  else if c ≤ 0x7FF then ⟨[.ofNat (0xC0 ||| c >>> 6), .ofNat (0x80 ||| c &&& 0x3F)], 0⟩
  else if c ≤ 0xFFFF then
    ⟨[.ofNat (0xE0 ||| c >>> 12), .ofNat (0x80 ||| c >>> 6 &&& 0x3F),
      .ofNat (0x80 ||| c &&& 0x3F)], 0⟩
  else if c ≤ 0x1FFFFF then
    ⟨[.ofNat (0xF0 ||| c >>> 18), .ofNat (0x80 ||| c >>> 12 &&& 0x3F),
      .ofNat (0x80 ||| c >>> 6 &&& 0x3F), .ofNat (0x80 ||| c &&& 0x3F)], 0⟩
  else if c ≤ 0x3FFFFFF then
    -- the second byte is not masked
    ⟨[.ofNat (0xF8 ||| c >>> 24), .ofNat (0x80 ||| c >>> 18),
      .ofNat (0x80 ||| c >>> 12 &&& 0x3F), .ofNat (0x80 ||| c >>> 6 &&& 0x3F),
      .ofNat (0x80 ||| c &&& 0x3F)], -1⟩
  else if c ≤ 0x7FFFFFFF then
    ⟨[.ofNat (0xFC ||| c >>> 30), .ofNat (0x80 ||| c >>> 24 &&& 0x3F),
      .ofNat (0x80 ||| c >>> 18 &&& 0x3F), .ofNat (0x80 ||| c >>> 12 &&& 0x3F),
      .ofNat (0x80 ||| c >>> 6 &&& 0x3F), .ofNat (0x80 ||| c &&& 0x3F)], -1⟩
  else ⟨[], -1⟩

/-! ## Classes of bytes -/

/-- A continuation byte with payload `x`. -/
def cont (x : ℕ) : UInt8 := .ofNat (0x80 ||| x)

/-- `b` is a continuation byte with payload `x`. -/
structure IsCont (b : UInt8) (x : ℕ) : Prop where
  lt : x < 64
  ne_zero : b ≠ 0
  high : b &&& 0x80 ≠ 0
  top : b &&& 0xc0 = 0x80
  payload : b &&& 0x3f = .ofNat x

/-- `b` is the leading byte of an encoding of `n + 1` bytes with payload `x`. -/
structure IsLead (b : UInt8) (n x : ℕ) : Prop where
  ne_zero : b ≠ 0
  top : b &&& 0xc0 ≠ 0x80
  len : runeLen b = n + 1
  next : ∀ r, (Decoder.mk r 0).next b = ⟨.ofNat x, n⟩

theorem isCont_cont : ∀ x < 64, IsCont (cont x) x := by
  have h : ∀ x < 64, cont x ≠ 0 ∧ cont x &&& 0x80 ≠ 0 ∧ cont x &&& 0xc0 = 0x80 ∧
      cont x &&& 0x3f = .ofNat x := by
    decide
  intro x hx
  obtain ⟨h₁, h₂, h₃, h₄⟩ := h x hx
  exact ⟨hx, h₁, h₂, h₃, h₄⟩

/-- The decoder in the middle of an encoding takes in a continuation byte. -/
theorem IsCont.next {b : UInt8} {x : ℕ} (hb : IsCont b x) (r : UInt32) (n : ℕ) :
    (Decoder.mk r (n + 1)).next b = ⟨r <<< 6 ||| (UInt8.ofNat x).toUInt32, n⟩ := by
  unfold Decoder.next
  rw [if_neg hb.high, if_pos (Nat.succ_pos n), hb.payload]
  rfl

theorem isLead_one : ∀ x < 128, 0 < x → IsLead (.ofNat x) 0 x := by
  have h : ∀ x < 128, 0 < x → UInt8.ofNat x ≠ 0 ∧ UInt8.ofNat x &&& 0xc0 ≠ 0x80 ∧
      UInt8.ofNat x &&& 0x80 = 0 ∧ (UInt8.ofNat x).toUInt32 = .ofNat x := by
    decide
  intro x hx hpos
  obtain ⟨h₁, h₂, h₃, h₄⟩ := h x hx hpos
  refine ⟨h₁, h₂, ?_, ?_⟩
  · rw [runeLen, if_pos h₃]
  · intro r
    rw [Decoder.next, if_pos h₃, h₄]

theorem isLead_two : ∀ x < 32, IsLead (.ofNat (0xC0 ||| x)) 1 x := by
  have h : ∀ x < 32, UInt8.ofNat (0xC0 ||| x) ≠ 0 ∧ UInt8.ofNat (0xC0 ||| x) &&& 0xc0 ≠ 0x80 ∧
      UInt8.ofNat (0xC0 ||| x) &&& 0x80 ≠ 0 ∧ UInt8.ofNat (0xC0 ||| x) &&& 0xe0 = 0xc0 ∧
      (UInt8.ofNat (0xC0 ||| x) &&& 0x1f).toUInt32 = .ofNat x := by
    decide
  intro x hx
  obtain ⟨h₁, h₂, h₃, h₄, h₅⟩ := h x hx
  refine ⟨h₁, h₂, ?_, ?_⟩
  · rw [runeLen, if_neg h₃, if_pos h₄]
  · intro r
    rw [Decoder.next, if_neg h₃, if_neg (Nat.lt_irrefl 0), if_pos h₄, h₅]

theorem isLead_three : ∀ x < 16, IsLead (.ofNat (0xE0 ||| x)) 2 x := by
  have h : ∀ x < 16, UInt8.ofNat (0xE0 ||| x) ≠ 0 ∧ UInt8.ofNat (0xE0 ||| x) &&& 0xc0 ≠ 0x80 ∧
      UInt8.ofNat (0xE0 ||| x) &&& 0x80 ≠ 0 ∧ UInt8.ofNat (0xE0 ||| x) &&& 0xe0 ≠ 0xc0 ∧
      UInt8.ofNat (0xE0 ||| x) &&& 0xf0 = 0xe0 ∧
      (UInt8.ofNat (0xE0 ||| x) &&& 0x0f).toUInt32 = .ofNat x := by
    decide
  intro x hx
  obtain ⟨h₁, h₂, h₃, h₄, h₅, h₆⟩ := h x hx
  refine ⟨h₁, h₂, ?_, ?_⟩
  · rw [runeLen, if_neg h₃, if_neg h₄, if_pos h₅]
  · intro r
    rw [Decoder.next, if_neg h₃, if_neg (Nat.lt_irrefl 0), if_neg h₄, if_pos h₅, h₆]

theorem isLead_four : ∀ x < 8, IsLead (.ofNat (0xF0 ||| x)) 3 x := by
  have h : ∀ x < 8, UInt8.ofNat (0xF0 ||| x) ≠ 0 ∧ UInt8.ofNat (0xF0 ||| x) &&& 0xc0 ≠ 0x80 ∧
      UInt8.ofNat (0xF0 ||| x) &&& 0x80 ≠ 0 ∧ UInt8.ofNat (0xF0 ||| x) &&& 0xe0 ≠ 0xc0 ∧
      UInt8.ofNat (0xF0 ||| x) &&& 0xf0 ≠ 0xe0 ∧ UInt8.ofNat (0xF0 ||| x) &&& 0xf8 = 0xf0 ∧
      (UInt8.ofNat (0xF0 ||| x) &&& 0x07).toUInt32 = .ofNat x := by
    decide
  intro x hx
  obtain ⟨h₁, h₂, h₃, h₄, h₅, h₆, h₇⟩ := h x hx
  refine ⟨h₁, h₂, ?_, ?_⟩
  · rw [runeLen, if_neg h₃, if_neg h₄, if_neg h₅, if_pos h₆]
  · intro r
    rw [Decoder.next, if_neg h₃, if_neg (Nat.lt_irrefl 0), if_neg h₄, if_neg h₅, if_pos h₆, h₇]

/-! ## Encodings -/

/-- The code point a leading payload and the payloads behind it stand for. -/
def value : ℕ → List ℕ → ℕ
  | x, [] => x
  | x, y :: ys => value (x * 64 + y) ys

/-- The shape of the encoding of a code point: a leading byte and the
    continuation bytes it announces. -/
theorem lead_cases {c : ℕ} (hpos : 1 ≤ c) (hle : c ≤ 0x1FFFFF) :
    (runeToUtf8 c).ret = 0 ∧ ∃ b x ys, (runeToUtf8 c).buf = b :: ys.map cont ∧
      IsLead b ys.length x ∧ (∀ y ∈ ys, y < 64) ∧ value x ys = c := by
  have hmask : ∀ n, n &&& 0x3F = n % 64 := fun n => Nat.and_two_pow_sub_one_eq_mod n 6
  have hlow : ∀ n, n % 64 < 64 := fun n => Nat.mod_lt n (by decide)
  unfold runeToUtf8
  simp only [hmask, Nat.shiftRight_eq_div_pow]
  by_cases h₁ : c ≤ 0x7F
  · rw [if_pos h₁]
    exact ⟨rfl, _, c, [], rfl, isLead_one c (by omega) hpos, by simp, rfl⟩
  rw [if_neg h₁]
  by_cases h₂ : c ≤ 0x7FF
  · rw [if_pos h₂]
    refine ⟨rfl, _, c / 64, [c % 64], rfl, isLead_two _ (by omega), by simpa using hlow c, ?_⟩
    simp only [value]
    omega
  rw [if_neg h₂]
  by_cases h₃ : c ≤ 0xFFFF
  · rw [if_pos h₃]
    refine ⟨rfl, _, c / 4096, [c / 64 % 64, c % 64], rfl, isLead_three _ (by omega), ?_, ?_⟩
    · simpa using ⟨hlow _, hlow _⟩
    · simp only [value]
      omega
  rw [if_neg h₃, if_pos hle]
  refine ⟨rfl, _, c / 262144, [c / 4096 % 64, c / 64 % 64, c % 64], rfl,
    isLead_four _ (by omega), ?_, ?_⟩
  · simpa using ⟨hlow _, hlow _, hlow _⟩
  · simp only [value]
    omega

/-! ## The decoder reads an encoding back -/

/-- Appending six bits to a rune. -/
theorem shift_or {r y : ℕ} (hr : r * 64 + y < 2 ^ 32) (hy : y < 64) :
    UInt32.ofNat r <<< 6 ||| (UInt8.ofNat y).toUInt32 = .ofNat (r * 64 + y) := by
  apply UInt32.toNat_inj.mp
  have hshift : r <<< 6 = r * 64 := by rw [Nat.shiftLeft_eq]
  have hor := Nat.shiftLeft_add_eq_or_of_lt (show y < 2 ^ 6 from hy) r
  simp only [UInt32.toNat_or, UInt32.toNat_shiftLeft, UInt32.toNat_ofNat', UInt8.toNat_toUInt32,
    UInt8.toNat_ofNat', UInt32.reduceToNat, Nat.reduceMod]
  rw [Nat.mod_eq_of_lt (show r < 2 ^ 32 by omega), Nat.mod_eq_of_lt (show y < 2 ^ 8 by omega),
    Nat.mod_eq_of_lt (show r * 64 + y < 2 ^ 32 from hr), hshift,
    Nat.mod_eq_of_lt (show r * 64 < 2 ^ 32 by omega), ← hshift, ← hor, hshift]

theorem value_ge (x : ℕ) (ys : List ℕ) : x ≤ value x ys := by
  induction ys generalizing x with
  | nil => exact le_rfl
  | cons y ys ih =>
    calc x ≤ x * 64 + y := by omega
      _ ≤ value (x * 64 + y) ys := ih _

section Decoding

variable {b : UInt8} {x : ℕ} {ys : List ℕ} {rest : List UInt8}

/-- The continuation bytes complete the rune. -/
theorem emitted_cont (hys : ∀ y ∈ ys, y < 64) (hne : ys ≠ []) (hv : value x ys < 2 ^ 32) :
    emitted ⟨.ofNat x, ys.length⟩ (ys.map cont ++ rest) =
      .ofNat (value x ys) :: emitted ⟨.ofNat (value x ys), 0⟩ rest := by
  induction ys generalizing x with
  | nil => exact absurd rfl hne
  | cons y ys ih =>
    have hy : y < 64 := hys y (List.mem_cons_self ..)
    have hlt : x * 64 + y < 2 ^ 32 := lt_of_le_of_lt (value_ge _ ys) hv
    simp only [List.length_cons, List.map_cons, List.cons_append, emitted,
      (isCont_cont y hy).next, shift_or hlt hy]
    cases ys with
    | nil => rfl
    | cons z zs =>
      rw [if_neg (by simp)]
      exact ih (fun w hw => hys w (List.mem_cons_of_mem _ hw)) (by simp) hv

/-- The decoder reads an encoding back and stands between two code points. -/
theorem emitted_lead (hb : IsLead b ys.length x) (hys : ∀ y ∈ ys, y < 64)
    (hv : value x ys < 2 ^ 32) (r : UInt32) :
    emitted ⟨r, 0⟩ (b :: (ys.map cont ++ rest)) =
      .ofNat (value x ys) :: emitted ⟨.ofNat (value x ys), 0⟩ rest := by
  simp only [emitted, hb.next]
  cases ys with
  | nil => rfl
  | cons y ys =>
    rw [if_neg (by simp)]
    exact emitted_cont hys (by simp) hv

/-- `utf8_rune_at` inside an encoding. -/
theorem runeAtLoop_cont (hys : ∀ y ∈ ys, y < 64) (hne : ys ≠ []) (hv : value x ys < 2 ^ 32)
    (idx : ℤ) (j : ℕ) :
    runeAtLoop idx j ⟨.ofNat x, ys.length⟩ (ys.map cont ++ rest) =
      if idx = j then .ofNat (value x ys)
      else runeAtLoop idx (j + 1) ⟨.ofNat (value x ys), 0⟩ rest := by
  induction ys generalizing x with
  | nil => exact absurd rfl hne
  | cons y ys ih =>
    have hy : y < 64 := hys y (List.mem_cons_self ..)
    have hlt : x * 64 + y < 2 ^ 32 := lt_of_le_of_lt (value_ge _ ys) hv
    have hcont := isCont_cont y hy
    simp only [List.length_cons, List.map_cons, List.cons_append, runeAtLoop, hcont.next,
      shift_or hlt hy, if_neg hcont.ne_zero]
    cases ys with
    | nil => rfl
    | cons z zs =>
      rw [if_neg (by simp)]
      exact ih (fun w hw => hys w (List.mem_cons_of_mem _ hw)) (by simp) hv

/-- `utf8_rune_at` counts an encoding as one. -/
theorem runeAtLoop_lead (hb : IsLead b ys.length x) (hys : ∀ y ∈ ys, y < 64)
    (hv : value x ys < 2 ^ 32) (r : UInt32) (idx : ℤ) (j : ℕ) :
    runeAtLoop idx j ⟨r, 0⟩ (b :: (ys.map cont ++ rest)) =
      if idx = j then .ofNat (value x ys)
      else runeAtLoop idx (j + 1) ⟨.ofNat (value x ys), 0⟩ rest := by
  simp only [runeAtLoop, hb.next, if_neg hb.ne_zero]
  cases ys with
  | nil => rfl
  | cons y ys =>
    rw [if_neg (by simp)]
    exact runeAtLoop_cont hys (by simp) hv idx j

/-- `utf8_strlen` counts no continuation byte. -/
theorem strlen_cont (hys : ∀ y ∈ ys, y < 64) (len : ℕ) :
    strlen (ys.map cont ++ rest) (ys.length + len) = strlen rest len := by
  induction ys with
  | nil => rw [List.length_nil, Nat.zero_add]; rfl
  | cons y ys ih =>
    have hcont := isCont_cont y (hys y (List.mem_cons_self ..))
    rw [List.length_cons, Nat.add_right_comm, List.map_cons, List.cons_append, strlen,
      if_neg hcont.ne_zero, if_neg (not_not.mpr hcont.top), Nat.zero_add]
    exact ih fun w hw => hys w (List.mem_cons_of_mem _ hw)

/-- `utf8_strlen` counts an encoding once. -/
theorem strlen_lead (hb : IsLead b ys.length x) (hys : ∀ y ∈ ys, y < 64) (len : ℕ) :
    strlen (b :: (ys.map cont ++ rest)) (ys.length + 1 + len) = 1 + strlen rest len := by
  rw [Nat.add_right_comm, strlen, if_neg hb.ne_zero, if_pos hb.top, strlen_cont hys]

end Decoding

/-! ## Strings of encodings -/

/-- The encodings of a list of code points, one after another. -/
def encode (rs : List ℕ) : List UInt8 := rs.flatMap fun r => (runeToUtf8 r).buf

section Strings

variable {rs : List ℕ}

theorem encode_cons (r : ℕ) (rs : List ℕ) : encode (r :: rs) = (runeToUtf8 r).buf ++ encode rs :=
  List.flatMap_cons

theorem emitted_encode (hrs : ∀ r ∈ rs, 1 ≤ r ∧ r ≤ 0x1FFFFF) (d : UInt32) :
    emitted ⟨d, 0⟩ (encode rs) = rs.map UInt32.ofNat := by
  induction rs generalizing d with
  | nil => rfl
  | cons r rs ih =>
    obtain ⟨hpos, hle⟩ := hrs r (List.mem_cons_self ..)
    obtain ⟨-, b, x, ys, hbuf, hb, hys, hv⟩ := lead_cases hpos hle
    have hlt : value x ys < 2 ^ 32 := by omega
    rw [encode_cons, hbuf, List.cons_append, emitted_lead hb hys hlt, hv, List.map_cons]
    exact congrArg _ (ih (fun w hw => hrs w (List.mem_cons_of_mem _ hw)) _)

theorem runeAtLoop_encode (hrs : ∀ r ∈ rs, 1 ≤ r ∧ r ≤ 0x1FFFFF) (d : UInt32) (k j : ℕ) :
    runeAtLoop ((j + k : ℕ) : ℤ) j ⟨d, 0⟩ (encode rs) =
      (rs.map UInt32.ofNat)[k]?.getD 0 := by
  induction rs generalizing d k j with
  | nil => rfl
  | cons r rs ih =>
    obtain ⟨hpos, hle⟩ := hrs r (List.mem_cons_self ..)
    obtain ⟨-, b, x, ys, hbuf, hb, hys, hv⟩ := lead_cases hpos hle
    have hlt : value x ys < 2 ^ 32 := by omega
    rw [encode_cons, hbuf, List.cons_append, runeAtLoop_lead hb hys hlt, hv]
    cases k with
    | zero => simp
    | succ k =>
      rw [if_neg (by omega), List.map_cons, List.getElem?_cons_succ,
        show j + (k + 1) = j + 1 + k by omega]
      exact ih (fun w hw => hrs w (List.mem_cons_of_mem _ hw)) _ k (j + 1)

theorem strlen_encode (hrs : ∀ r ∈ rs, 1 ≤ r ∧ r ≤ 0x1FFFFF) :
    strlen (encode rs) (encode rs).length = rs.length := by
  induction rs with
  | nil => rfl
  | cons r rs ih =>
    obtain ⟨hpos, hle⟩ := hrs r (List.mem_cons_self ..)
    obtain ⟨-, b, x, ys, hbuf, hb, hys, -⟩ := lead_cases hpos hle
    have hrest := ih fun w hw => hrs w (List.mem_cons_of_mem _ hw)
    have hlen : (encode (r :: rs)).length = ys.length + 1 + (encode rs).length := by
      rw [encode_cons, hbuf]
      simp [Nat.add_right_comm]
    rw [hlen, encode_cons, hbuf, List.cons_append, strlen_lead hb hys, hrest, List.length_cons,
      Nat.add_comm]

end Strings

end Interim.Sledge.Utf8
