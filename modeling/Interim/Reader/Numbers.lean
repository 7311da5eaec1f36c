import Interim.Reader.Outcome
import Interim.Reader.Same

/-!
# Number tokens

The radix is a state of its own, `rs->valuestate`: a digit that starts a
number sets it to decimal, an `x` inside one to hex, and nothing else changes
it. A `-` starts a symbol, which the first digit after it turns into a number
(lines 141–150), in whatever radix the last number left behind and at whatever
place the digit stands.

* `dec_runs`, `hex_runs`, `neg_runs`, `Runs.dash` — what the abstract reader
  makes of each kind of token.
* `number_tokens_iff` — where the code reads a token as what it denotes:
  always for decimal and hex tokens; after `-`, outside hex mode or when both
  radices give the same value; and a `-` symbol, when it has no digit.
-/

namespace Interim.Reader

open Heap

/-! ## Numerals -/

/-- The value of a decimal or lower case hex digit. -/
def digitNat (c : UInt8) : ℕ := if c.toNat ≥ 97 then 10 + (c.toNat - 97) else c.toNat - 48

/-- The number that a sequence of digits denotes. -/
def numeral (base : ℕ) (t : List UInt8) : ℕ := t.foldl (fun n c => n * base + digitNat c) 0

/-- `mul` in line 95. -/
def radix (hex : Bool) : ℕ := if hex then 16 else 10

/-- Digits of a hex numeral. -/
def IsHexDigits (t : List UInt8) : Prop := ∀ c ∈ t, isDigit c = true ∨ isLowerHex c = true

section Numerals

variable {a : AbsState} {t : List UInt8} {c : UInt8}

theorem digitNat_of_isDigit (hc : isDigit c = true) : digitNat c = c.toNat - 48 := by
  rw [isDigit_iff] at hc
  rw [digitNat, if_neg (by omega)]

theorem isWs_of_isLowerHex (hc : isLowerHex c = true) : isWs c = false := by
  rw [Bool.eq_false_iff, Ne, isWs_iff]
  rintro (rfl | rfl | rfl) <;> revert hc <;> decide

/-- A digit does not end a number. -/
theorem wordCost_of_digit (hc : isDigit c = true ∨ isLowerHex c = true) : wordCost c = 0 := by
  rcases hc with hc | hc
  · exact wordCost_of_not (isWs_of_isDigit hc) (by rintro rfl; exact absurd hc (by decide))
  · exact wordCost_of_not (isWs_of_isLowerHex hc) (by rintro rfl; exact absurd hc (by decide))

/-- Further digits of a number; `tok` and `add` are those of the sign at
    hand. -/
theorem numeral_runs (tok : BitVec 64 → Token) (add : BitVec 64 → BitVec 64 → BitVec 64)
    (hstep : ∀ (b : AbsState) v c, b.tok = tok v → absStep b c = absNum b tok add v c)
    (hcost : ∀ (b : AbsState) v c, b.tok = tok v → stepCost b c = wordCost c)
    (hfit : ∀ v, AbsState.Fits { a with tok := tok v }) :
    ∀ {t : List UInt8} (v : BitVec 64), (∀ c ∈ t, isDigit c ∨ (a.hex ∧ isLowerHex c)) →
      Runs { a with tok := tok v } t 0
        { a with tok := tok (t.foldl
          (fun v c => add (v * BitVec.ofNat 64 (radix a.hex)) (digitVal c)) v) }
  | [], v, _ => Runs.nil _
  | c :: t, v, ht => by
    have hc := ht c (by simp)
    have hmul : (if a.hex then 16 else 10 : BitVec 64) = BitVec.ofNat 64 (radix a.hex) := by
      cases a.hex <;> rfl
    have hs : absStep { a with tok := tok v } c =
        some { a with tok := tok (add (v * BitVec.ofNat 64 (radix a.hex)) (digitVal c)) } := by
      rw [hstep _ v c rfl, absNum, if_pos hc, ← hmul]
    have hk : stepCost { a with tok := tok v } c = 0 := by
      rw [hcost _ v c rfl]
      exact wordCost_of_digit (hc.imp_right fun h => h.2)
    have hrest := numeral_runs tok add hstep hcost hfit
      (add (v * BitVec.ofNat 64 (radix a.hex)) (digitVal c))
      fun x hx => ht x (List.mem_cons_of_mem _ hx)
    have hrun := Runs.cons hs (hfit _) hrest
    rw [hk] at hrun
    exact hrun

theorem foldl_add_numeral (base : ℕ) (t : List UInt8) : ∀ n : ℕ,
    t.foldl (fun (v : BitVec 64) c => v * BitVec.ofNat 64 base + digitVal c) (BitVec.ofNat 64 n) =
      BitVec.ofNat 64 (t.foldl (fun n c => n * base + digitNat c) n) := by
  induction t with
  | nil => intro n; rfl
  | cons c t ih =>
    intro n
    simp only [List.foldl_cons]
    rw [← ih, BitVec.ofNat_add, BitVec.ofNat_mul]
    rfl

theorem foldl_sub_numeral (base : ℕ) (t : List UInt8) : ∀ n : ℕ,
    t.foldl (fun (v : BitVec 64) c => v * BitVec.ofNat 64 base - digitVal c)
        (-BitVec.ofNat 64 n) =
      -BitVec.ofNat 64 (t.foldl (fun n c => n * base + digitNat c) n) := by
  induction t with
  | nil => intro n; rfl
  | cons c t ih =>
    intro n
    simp only [List.foldl_cons]
    rw [← ih, BitVec.ofNat_add, BitVec.ofNat_mul, BitVec.neg_add, ← BitVec.neg_mul]
    rfl

/-- A decimal token leaves hex mode. -/
theorem dec_runs (ht : IsDigits t) (htok : a.tok = .idle) (hout : a.outer.length ≤ stackSize) :
    Runs a t 1 { a with tok := .num (BitVec.ofNat 64 (numeral 10 t)), hex := false } := by
  obtain ⟨hne, hdig⟩ := ht
  match t, hne with
  | c :: t, _ =>
    have hc := hdig c (by simp)
    have hws := isWs_of_isDigit hc
    have hsemi : c ≠ semicolon := by rintro rfl; exact absurd hc (by decide)
    have hstep : absStep a c =
        some { a with tok := .num (BitVec.ofNat 64 (digitNat c)), hex := false } := by
      rw [digitNat_of_isDigit hc]
      simp [absStep, htok, absAtom, hws, hsemi, hc]
    have hcost : stepCost a c = 1 := by simp [stepCost, htok, atomCost, hws, hsemi]
    have hrest := numeral_runs (a := { a with hex := false }) .num (· + ·)
      (fun b v c hb => by simp [absStep, hb]) (fun b v c hb => by simp [stepCost, hb])
      (fun v => ⟨hout, trivial⟩) (BitVec.ofNat 64 (digitNat c))
      (fun x hx => .inl (hdig x (List.mem_cons_of_mem _ hx)))
    have hrun := Runs.cons hstep ⟨hout, trivial⟩ hrest
    rw [foldl_add_numeral, hcost] at hrun
    simpa [numeral, radix] using hrun

/-- `0x` and hex digits; hex mode stays on. -/
theorem hex_runs (ht : IsHexDigits t) (htok : a.tok = .idle) (hout : a.outer.length ≤ stackSize) :
    Runs a (48 :: lowerX :: t) 1
      { a with tok := .num (BitVec.ofNat 64 (numeral 16 t)), hex := true } := by
  have hstep₁ : absStep a 48 = some { a with tok := .num 0, hex := false } := by
    simp only [absStep, htok, absAtom]
    rfl
  have hcost₁ : stepCost a 48 = 1 := by simp only [stepCost, htok]; rfl
  have hstep₂ : absStep { a with tok := .num 0, hex := false } lowerX =
      some { a with tok := .num 0, hex := true } := rfl
  have hcost₂ : stepCost { a with tok := .num 0, hex := false } lowerX = 0 := rfl
  have hrest := numeral_runs (a := { a with hex := true }) .num (· + ·)
    (fun b v c hb => by simp [absStep, hb]) (fun b v c hb => by simp [stepCost, hb])
    (fun v => ⟨hout, trivial⟩) (BitVec.ofNat 64 0) (fun x hx => (ht x hx).imp_right fun h => ⟨rfl, h⟩)
  have hrun := Runs.cons hstep₁ ⟨hout, trivial⟩ (Runs.cons hstep₂ ⟨hout, trivial⟩ hrest)
  rw [foldl_add_numeral, hcost₁, hcost₂] at hrun
  simpa [numeral, radix] using hrun

/-- A `-` before digits: the radix is the one at hand. -/
theorem neg_runs (ht : IsDigits t) (htok : a.tok = .idle) (hout : a.outer.length ≤ stackSize) :
    Runs a (minus :: t) 1
      { a with tok := .numNeg (-BitVec.ofNat 64 (numeral (radix a.hex) t)) } := by
  obtain ⟨hne, hdig⟩ := ht
  match t, hne with
  | c :: t, _ =>
    have hc := hdig c (by simp)
    have hws := isWs_of_isDigit hc
    have hrp : c ≠ rparen := by rintro rfl; exact absurd hc (by decide)
    have hstep₁ : absStep a minus = some { a with tok := .sym [minus] } := by
      simp only [absStep, htok, absAtom]
      rfl
    have hcost₁ : stepCost a minus = 1 := by simp only [stepCost, htok]; rfl
    have hstep₂ : absStep { a with tok := .sym [minus] } c =
        some { a with tok := .numNeg (-BitVec.ofNat 64 (digitNat c)) } := by
      rw [digitNat_of_isDigit hc]
      simp [absStep, hrp, hws, hc]
    have hcost₂ : stepCost { a with tok := .sym [minus] } c = 0 := wordCost_of_not hws hrp
    have hrest := numeral_runs (a := a) .numNeg (· - ·)
      (fun b v c hb => by simp [absStep, hb]) (fun b v c hb => by simp [stepCost, hb])
      (fun v => ⟨hout, trivial⟩) (-BitVec.ofNat 64 (digitNat c))
      (fun x hx => .inl (hdig x (List.mem_cons_of_mem _ hx)))
    have hrun := Runs.cons hstep₁ ⟨hout, by simp⟩ (Runs.cons hstep₂ ⟨hout, trivial⟩ hrest)
    rw [foldl_sub_numeral, hcost₁, hcost₂] at hrun
    simpa [numeral] using hrun

/-- Characters that do not end a number or symbol. -/
def IsWord (t : List UInt8) : Prop := ∀ c ∈ t, isWs c = false ∧ c ≠ rparen

/-- Once a `-` token is a number it stays one. -/
theorem Runs.numNeg {b : AbsState} {n : ℕ} (hrun : Runs a t n b) (hword : IsWord t)
    {v : BitVec 64} (htok : a.tok = .numNeg v) : ∃ v', b.tok = .numNeg v' := by
  induction hrun generalizing v with
  | nil => exact ⟨v, htok⟩
  | @cons a a₁ _ c cs _ hstep _ _ ih =>
    obtain ⟨hws, hrp⟩ := hword c (by simp)
    have hnws : ¬ isWs c = true := by rw [hws]; simp
    have hrest : IsWord cs := fun x hx => hword x (List.mem_cons_of_mem _ hx)
    simp only [absStep, htok, absNum, if_neg hnws, if_neg hrp] at hstep
    split at hstep
    · obtain rfl := Option.some.inj hstep
      exact ih hrest rfl
    split at hstep
    · obtain rfl := Option.some.inj hstep
      exact ih hrest rfl
    · cases hstep

/-- A `-` token is a symbol up to its first digit. -/
theorem Runs.dashSym {b : AbsState} {n : ℕ} (hrun : Runs a t n b) (hword : IsWord t)
    {s : List UInt8} (htok : a.tok = .sym s) (hs : s.head? = some minus) :
    ((∀ c ∈ t, isDigit c = false) ∧ b.tok = .sym (s ++ t)) ∨ ∃ v, b.tok = .numNeg v := by
  induction hrun generalizing s with
  | nil => exact .inl ⟨by simp, by rw [htok, List.append_nil]⟩
  | @cons a a₁ _ c cs _ hstep _ hrest ih =>
    obtain ⟨hws, hrp⟩ := hword c (by simp)
    have hnws : ¬ isWs c = true := by rw [hws]; simp
    have hword' : IsWord cs := fun x hx => hword x (List.mem_cons_of_mem _ hx)
    simp only [absStep, htok] at hstep
    rw [if_neg hrp, if_neg hnws] at hstep
    by_cases hdig : isDigit c = true
    · rw [if_pos ⟨hdig, hs⟩] at hstep
      obtain rfl := Option.some.inj hstep
      exact .inr (hrest.numNeg hword' rfl)
    · rw [if_neg fun h => hdig h.1] at hstep
      obtain rfl := Option.some.inj hstep
      have hhead : (s ++ [c]).head? = some minus := by
        cases s with
        | nil => cases hs
        | cons x xs => exact hs
      obtain ⟨hno, hb⟩ | hneg := ih hword' rfl hhead
      · refine .inl ⟨?_, by rw [hb, List.append_assoc]; rfl⟩
        intro x hx
        rcases List.mem_cons.mp hx with rfl | hx
        · simpa using hdig
        · exact hno x hx
      · exact .inr hneg

/-- What the reader makes of a `-` token. -/
theorem Runs.dash {b : AbsState} {n : ℕ} (hrun : Runs a (minus :: t) n b) (hword : IsWord t)
    (htok : a.tok = .idle) :
    ((∀ c ∈ t, isDigit c = false) ∧ b.tok = .sym (minus :: t)) ∨ ∃ v, b.tok = .numNeg v := by
  cases hrun with
  | cons hstep _ hrest =>
    simp only [absStep, htok, absAtom] at hstep
    obtain rfl := Option.some.inj hstep
    exact hrest.dashSym hword rfl rfl

end Numerals

/-! ## Tokens -/

/-- The tokens that are numbers or could be taken for one. -/
inductive NumberToken
  | dec (ds : List UInt8)
  | neg (ds : List UInt8)
  | hex (ds : List UInt8)
  | dash (cs : List UInt8)

/-- The characters of a token. -/
def NumberToken.text : NumberToken → List UInt8
  | .dec ds => ds
  | .neg ds | .dash ds => minus :: ds
  | .hex ds => 48 :: lowerX :: ds

/-- Digits; `-` and digits; `0x`, digits and `a` to `f`; or `-` and other
    characters up to the end of the token. -/
def NumberToken.WellFormed : NumberToken → Prop
  | .dec ds | .neg ds => IsDigits ds
  | .hex ds => IsHexDigits ds
  | .dash cs => IsWord cs ∧ 0 ∉ cs ∧ ¬ IsDigits cs

/-- What a token stands for. -/
def NumberToken.denotes : NumberToken → Datum
  | .dec ds => .int (BitVec.ofNat 64 (numeral 10 ds))
  | .neg ds => .int (-BitVec.ofNat 64 (numeral 10 ds))
  | .hex ds => .int (BitVec.ofNat 64 (numeral 16 ds))
  | .dash cs => .sym (minus :: cs)

/-- Where the code reads a token as what it stands for: after `-` the radix is
    decimal or makes no difference, and a symbol has no digit. A symbol also has
    to fit the `int` sizes of its buffer. -/
def NumberToken.ReadRight (valuestate : ℕ) : NumberToken → Prop
  | .dec _ | .hex _ => True
  | .neg ds => valuestate = vstHex →
      BitVec.ofNat 64 (numeral 16 ds) = BitVec.ofNat 64 (numeral 10 ds)
  | .dash cs => (∀ c ∈ cs, isDigit c = false) ∧ cs.length + 1 ≤ 2 ^ 30 - 2

/-- After the characters `tok` the reader is still in the list it was in, and
    the current cell holds `d`. -/
def TokenReads (rs : ReaderState) (h : Heap) (tok : List UInt8) (d : Datum) : Prop :=
  ∃ rs' h' k S, readChars tok rs h = .ok (rs', h') ∧ rs'.state.isError = false ∧
    rs'.level = rs.level ∧ rs'.cell = .cell k ∧ Rep h' S (h'.cells k).ar d

section Tokens

variable {junk : Junk} {rs rs₁ : ReaderState} {h h₁ : Heap} {a b : AbsState} {t pre : List UInt8}
  {d : Datum}

theorem Sim.level_eq (hs : Sim rs h a) : rs.level = a.outer.length := by
  obtain ⟨S, cs, c, os, hc, -⟩ := hs
  rw [hc.level, hc.outer.length_eq]

/-- The current cell after a number or symbol. -/
theorem Sim.word (hs : Sim rs h a) (hd : a.tok.datum = some d) :
    ∃ k S, rs.cell = .cell k ∧ Rep h S (h.cells k).ar d := by
  obtain ⟨S, cs, c, os, hc, ht⟩ := hs
  obtain ⟨S', -, -, -, hrep⟩ := ht.complete hc hd
  exact ⟨c, S', hc.cell, hrep⟩

/-- A state that the loop of `read_string` reaches between two elements,
    with the root made where it is still missing. -/
theorem reached_sim (hok : h.FreeListOk) (hroom : 2 * pre.length + 2 ≤ h.room)
    (hpre : readChars pre (.start junk) h = .ok (rs, h₁)) (hidle : rs.state = .atom) :
    ∃ rs₁ h₂ a, Sim rs₁ h₂ a ∧ a.tok = .idle ∧ (rs.valuestate = vstHex ↔ a.hex = true) ∧
      rs₁.level = rs.level ∧ (∀ x t, readChars (x :: t) rs h₁ = readChars (x :: t) rs₁ h₂) ∧
      h.room ≤ h₂.room + (2 * pre.length + 2) := by
  obtain ⟨rs₀, h₀, hr₀, hs₀, hcell₀, hrm₀⟩ := ensureRoot_sim junk hok (by omega)
  cases pre with
  | nil =>
    obtain ⟨rfl, rfl⟩ := Prod.mk.inj (Except.ok.inj hpre)
    refine ⟨rs₀, h₀, _, hs₀, rfl, ?_, hs₀.level_eq, readChars_ensureRoot hr₀ hcell₀, by omega⟩
    simp [ReaderState.start, AbsState.start]
  | cons y ys =>
    rw [readChars_ensureRoot hr₀ hcell₀] at hpre
    have herr : rs.state.isError = false := by rw [hidle]; rfl
    obtain ⟨n, a, -, hs, hn, hrm⟩ := readChars_inv hs₀ (by omega) hpre herr
    refine ⟨rs, h₁, a, hs, ?_, ?_, rfl, fun _ _ => rfl, by omega⟩
    · obtain ⟨S, cs, c, os, -, ht⟩ := hs
      cases htok : a.tok with
      | idle => rfl
      | comment | num | numNeg | sym | str | bytes =>
        rw [htok] at ht
        rw [ht.1] at hidle
        cases hidle
    · obtain ⟨S, cs, c, os, hc, -⟩ := hs
      exact hc.hex

theorem Runs.unique {b' : AbsState} {n n' : ℕ} (hrun : Runs a t n b) (hrun' : Runs a t n' b') :
    b = b' := by
  induction hrun generalizing n' with
  | nil => cases hrun'; rfl
  | cons hstep _ _ ih =>
    cases hrun' with
    | cons hstep' _ hrest' =>
      obtain rfl := Option.some.inj (hstep.symm.trans hstep')
      exact ih hrest'

/-- A token the abstract reader reads as `d`. -/
theorem TokenReads.of_runs {n : ℕ} (hs : Sim rs h a) (hrun : Runs a t n b) (hroom : n ≤ h.room)
    (hout : b.outer = a.outer) (hd : b.tok.datum = some d) : TokenReads rs h t d := by
  obtain ⟨rs', h', hr, hs', -⟩ := readChars_sim hrun hs hroom
  obtain ⟨k, S, hcell, hrep⟩ := hs'.word hd
  exact ⟨rs', h', k, S, hr, hs'.not_isError, by rw [hs'.level_eq, hs.level_eq, hout], hcell, hrep⟩

/-- What the code has read is what the abstract reader has read. -/
theorem TokenReads.inv (hs : Sim rs h a) (hroom : 2 * t.length ≤ h.room)
    (ht : TokenReads rs h t d) (hreg : d.Atoms Regular) :
    ∃ n b, Runs a t n b ∧ b.Fits ∧ ∀ d', b.tok.datum = some d' → d'.Atoms Regular → d = d' := by
  obtain ⟨rs', h', k, S, hr, herr, -, hcell, hrep⟩ := ht
  obtain ⟨n, b, hrun, hs', -, -⟩ := readChars_inv hs hroom hr herr
  refine ⟨n, b, hrun, hs'.fits, fun d' hd' hreg' => ?_⟩
  obtain ⟨k', S', hcell', hrep'⟩ := hs'.word hd'
  rw [hcell] at hcell'
  obtain rfl : k = k' := by simpa using hcell'
  exact hrep.unique hrep' hreg hreg'

theorem neg_readRight (hs : Sim rs h a) (htok : a.tok = .idle) (hroom : 2 * (t.length + 1) ≤ h.room)
    (ht : IsDigits t) :
    TokenReads rs h (minus :: t) (.int (-BitVec.ofNat 64 (numeral 10 t))) ↔
      (a.hex = true → BitVec.ofNat 64 (numeral 16 t) = BitVec.ofNat 64 (numeral 10 t)) := by
  have hrun := neg_runs ht htok hs.fits.1
  constructor
  · intro hread hhex
    obtain ⟨n, b, hrun', -, hval⟩ := hread.inv hs (by simpa using hroom) trivial
    obtain rfl := hrun.unique hrun'
    have heq := hval _ rfl trivial
    rw [hhex] at heq
    exact (BitVec.neg_inj.mp (Datum.int.inj heq)).symm
  · intro hsame
    refine TokenReads.of_runs hs hrun (by omega) rfl ?_
    cases hhex : a.hex with
    | false => rfl
    | true =>
      change some (Datum.int (-BitVec.ofNat 64 (numeral 16 t))) = _
      rw [hsame hhex]

theorem dash_readRight (hs : Sim rs h a) (htok : a.tok = .idle)
    (hroom : 2 * (t.length + 1) ≤ h.room) (hword : IsWord t) (hnul : 0 ∉ t) :
    TokenReads rs h (minus :: t) (.sym (minus :: t)) ↔
      (∀ c ∈ t, isDigit c = false) ∧ t.length + 1 ≤ 2 ^ 30 - 2 := by
  have hreg : (Datum.sym (minus :: t)).Atoms Regular := by
    change 0 ∉ minus :: t
    rw [List.mem_cons, not_or]
    exact ⟨by decide, hnul⟩
  constructor
  · intro hread
    obtain ⟨n, b, hrun, hfit, hval⟩ := hread.inv hs (by simpa using hroom) hreg
    obtain ⟨hno, hb⟩ | ⟨v, hb⟩ := hrun.dash hword htok
    · have hlen := hfit.2
      rw [hb] at hlen
      exact ⟨hno, hlen⟩
    · have heq := hval (.int v) (by rw [hb]; rfl) trivial
      cases heq
  · rintro ⟨hno, hlen⟩
    have hname : IsName (minus :: t) :=
      { start := ⟨minus, t, rfl, by decide, by decide, by decide, by decide, by decide,
          fun _ => hno⟩
        inside := by
          intro c hc
          rcases List.mem_cons.mp hc with rfl | hc
          · decide
          · exact ⟨(hword c hc).1, (hword c hc).2, fun h0 => hnul (h0 ▸ hc)⟩ }
    exact TokenReads.of_runs hs (hname.runs htok hs.fits.1 hlen) (by omega) rfl rfl

end Tokens

/-- Number tokens at every place of every text where a token may start,
    whatever came before. -/
theorem number_tokens_iff (junk : Junk) (h h₁ : Heap) (pre : List UInt8) (rs : ReaderState)
    (tok : NumberToken) (hok : h.FreeListOk) (hwf : tok.WellFormed)
    (hpre : readChars pre (.start junk) h = .ok (rs, h₁)) (hidle : rs.state = .atom)
    (hroom : 2 * (pre.length + tok.text.length) + 2 ≤ h.room) :
    TokenReads rs h₁ tok.text tok.denotes ↔ tok.ReadRight rs.valuestate := by
  obtain ⟨rs₁, h₂, a, hs, htok, hhex, hlev, hsame, hrm⟩ := reached_sim hok (by omega) hpre hidle
  have hiff : ∀ x t d, TokenReads rs h₁ (x :: t) d ↔ TokenReads rs₁ h₂ (x :: t) d := by
    intro x t d
    unfold TokenReads
    rw [hsame, hlev]
  cases tok with
  | dec ds =>
    obtain ⟨hne, -⟩ := id hwf
    obtain ⟨x, t, rfl⟩ := List.exists_cons_of_ne_nil hne
    refine iff_of_true ((hiff x t _).mpr ?_) trivial
    exact TokenReads.of_runs hs (dec_runs hwf htok hs.fits.1)
      (by rw [NumberToken.text, List.length_cons] at hroom; omega) rfl rfl
  | hex ds =>
    refine iff_of_true ((hiff 48 _ _).mpr ?_) trivial
    exact TokenReads.of_runs hs (hex_runs hwf htok hs.fits.1)
      (by rw [NumberToken.text, List.length_cons] at hroom; omega) rfl rfl
  | neg ds =>
    rw [NumberToken.text, List.length_cons] at hroom
    refine (hiff minus ds _).trans ?_
    rw [NumberToken.denotes, neg_readRight hs htok (by omega) hwf, NumberToken.ReadRight, hhex]
  | dash cs =>
    rw [NumberToken.text, List.length_cons] at hroom
    refine (hiff minus cs _).trans ?_
    exact dash_readRight hs htok (by omega) hwf.1 hwf.2.1

/-- `-12` at the start of a text. -/
theorem number_tokens_minus_twelve :
    TokenReads (.start ⟨fun _ => .null, 0, 0⟩) Heap.init [45, 49, 50] (.int (-12)) :=
  (number_tokens_iff ⟨fun _ => .null, 0, 0⟩ Heap.init Heap.init [] _ (.neg [49, 50])
    init_freeListOk (isDigits_of_all (by simp) rfl) rfl rfl (by decide)).mpr fun hhex => by cases hhex

/-- `-12` after `0x10` is read in hex, and `-a5` is not read as a symbol. -/
theorem number_tokens_misread :
    (∃ rs h₁, readChars [48, 120, 49, 48, 32] (.start ⟨fun _ => .null, 0, 0⟩) Heap.init =
        .ok (rs, h₁) ∧ rs.state = .atom ∧ ¬ TokenReads rs h₁ [45, 49, 50] (.int (-12))) ∧
    ¬ TokenReads (.start ⟨fun _ => .null, 0, 0⟩) Heap.init [45, 97, 53] (.sym [45, 97, 53]) := by
  constructor
  · have hnum := hex_runs (t := [49, 48]) (a := .start false) (by simp [IsHexDigits, isDigit]) rfl
      (by decide)
    have hspace : isWs 32 = true := rfl
    obtain ⟨hstep, hcost⟩ := step_ws (a := { AbsState.start false with
      tok := .num (BitVec.ofNat 64 (numeral 16 [49, 48])), hex := true }) rfl hspace
    have hrun := hnum.append (Runs.single hstep (Fits.of_idle (by decide) rfl))
    rw [hcost] at hrun
    obtain ⟨rs, h₁, hr, hs, hrm⟩ := @readChars_start_sim ⟨fun _ => .null, 0, 0⟩ _ Heap.init _ _
      init_freeListOk (by simp) hrun (by decide)
    have hroom : Heap.init.room = 100000 := rfl
    have hneg := neg_readRight (t := [49, 50]) hs rfl (by simp; omega)
      (isDigits_of_all (by simp) rfl)
    refine ⟨rs, h₁, hr, ?_, fun hread => ?_⟩
    · obtain ⟨S, cs, c, os, -, ht⟩ := hs
      exact ht.1
    · exact absurd (hneg.mp hread rfl) (by decide)
  · obtain ⟨rs₁, h₂, a, hs, htok, -, hlev, hsame, hrm⟩ := @reached_sim ⟨fun _ => .null, 0, 0⟩ _
      Heap.init Heap.init [] init_freeListOk (by decide) rfl rfl
    have hroom : Heap.init.room = 100000 := rfl
    have hdash := dash_readRight (t := [97, 53]) hs htok (by simp at hrm ⊢; omega)
      (by simp [IsWord, isWs, space, cr, lf, rparen]) (by decide)
    intro hread
    unfold TokenReads at hread
    rw [hsame, ← hlev] at hread
    exact absurd ((hdash.mp hread).1 53 (by simp)) (by decide)

end Interim.Reader
