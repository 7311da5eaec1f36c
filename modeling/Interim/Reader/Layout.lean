import Interim.Reader.Step

/-!
# Every layout of a datum reads as that datum

`Lays ds t` says that the text `t` is a layout of the data `ds`: the elements
in order, with any amount of space, CR, LF and `;` comments where an element
may start. Integers and symbols have no closing delimiter, so what follows
them must begin with whitespace, or be the end of the list or of the text.

Results:

* `Lays.runs`: the abstract reader reads a layout as its data.
* `readString_layout`: so does `read_string`, for texts, tokens and data within
  the limits of the C types and the cell heap.
* `readString_layout_limits`: beyond each of the limits it does not.
-/

namespace Interim.Reader

open Heap

/-! ## Data -/

mutual

/-- `p` holds of every integer, symbol, string and byte string in a datum. -/
def Datum.Atoms (p : Datum → Prop) : Datum → Prop
  | .list ds => Datum.AtomsAll p ds
  | .int v => p (.int v)
  | .sym s => p (.sym s)
  | .str s => p (.str s)
  | .bytes s => p (.bytes s)

/-- `Datum.Atoms` for all elements of a list. -/
def Datum.AtomsAll (p : Datum → Prop) : List Datum → Prop
  | [] => True
  | d :: ds => Datum.Atoms p d ∧ Datum.AtomsAll p ds

end

mutual

/-- The number of lists and atoms in a datum. -/
def Datum.nodes : Datum → ℕ
  | .list ds => 1 + Datum.nodesAll ds
  | .int _ | .sym _ | .str _ | .bytes _ => 1

/-- The number of lists and atoms in a list of data. -/
def Datum.nodesAll : List Datum → ℕ
  | [] => 0
  | d :: ds => d.nodes + Datum.nodesAll ds

end

mutual

/-- How deep lists are nested in a datum. -/
def Datum.depth : Datum → ℕ
  | .list ds => 1 + Datum.depthAll ds
  | .int _ | .sym _ | .str _ | .bytes _ => 0

/-- The greatest depth in a list of data. -/
def Datum.depthAll : List Datum → ℕ
  | [] => 0
  | d :: ds => max d.depth (Datum.depthAll ds)

end

/-- A name the reader reads as one symbol: it does not start like another
    element, no character ends it, and a leading `-` is followed by no
    digit. -/
structure IsName (name : List UInt8) : Prop where
  start : ∃ c cs, name = c :: cs ∧ isDigit c = false ∧ c ≠ semicolon ∧ c ≠ lparen ∧
    c ≠ lbracket ∧ c ≠ dquote ∧ (c = minus → ∀ x ∈ cs, isDigit x = false)
  inside : ∀ c ∈ name, isWs c = false ∧ c ≠ rparen ∧ c ≠ 0

/-- Symbols and strings that can be read at all. -/
def Lexical : Datum → Prop
  | .sym name => IsName name
  | .str s => ∀ c ∈ s, c ≠ dquote ∧ c ≠ 0
  | _ => True

/-- Non-negative integers only. -/
def NonNeg : Datum → Prop
  | .int v => 0 ≤ v.toInt
  | _ => True

/-- Tokens whose buffers stay within the `int` sizes of `bytes_alloc`. -/
def FitsBuffer : Datum → Prop
  | .sym s | .str s => s.length ≤ 2 ^ 30 - 2
  | .bytes s => s.length ≤ 2 ^ 28 - 1
  | _ => True

/-! ## Layouts -/

/-- Text that may stand where an element may start: whitespace and comments
    that run to LF. -/
inductive Gap : List UInt8 → Prop
  | nil : Gap []
  | ws {c : UInt8} {g : List UInt8} (hc : isWs c = true) (hg : Gap g) : Gap (c :: g)
  | comment {body g : List UInt8} (hb : ∀ c ∈ body, c ≠ lf ∧ c ≠ 0) (hg : Gap g) :
      Gap (semicolon :: (body ++ lf :: g))

/-- The value of a decimal numeral. -/
def decimal (t : List UInt8) : ℕ := t.foldl (fun n c => n * 10 + (c.toNat - 48)) 0

/-- A non-empty sequence of decimal digits. -/
def IsDigits (t : List UInt8) : Prop := t ≠ [] ∧ ∀ c ∈ t, isDigit c = true

/-- An integer in decimal; a negative one is the numeral of its negation after
    a `-`. -/
def IntText (v : BitVec 64) (t : List UInt8) : Prop :=
  (IsDigits t ∧ decimal t = v.toNat) ∨
  (v.toInt < 0 ∧ ∃ ds, t = minus :: ds ∧ IsDigits ds ∧ decimal ds = (-v).toNat)

/-- The hex digits of a byte string. -/
def nibbles (s : List UInt8) : List ℕ := s.flatMap fun b => [b.toNat / 16, b.toNat % 16]

/-- The inside of a byte literal: hex digits in either case, with whitespace
    anywhere. -/
def HexText (s t : List UInt8) : Prop :=
  (∀ c ∈ t, isWs c = true ∨ isDigit c ∨ isLowerHex c ∨ isUpperHex c) ∧
  (t.filter fun c => !isWs c).map hexVal = nibbles s

/-- What may follow an integer or a symbol. -/
def Delimited (rest : List UInt8) : Prop := ∀ c cs, rest = c :: cs → isWs c = true

/-- `t` lays out the data `ds`, as the inside of a list or as a whole text. -/
inductive Lays : List Datum → List UInt8 → Prop
  | nil {g : List UInt8} (hg : Gap g) : Lays [] g
  | int {g t rest : List UInt8} {v : BitVec 64} {ds : List Datum} (hg : Gap g)
      (ht : IntText v t) (hrest : Lays ds rest) (hdel : Delimited rest) :
      Lays (.int v :: ds) (g ++ (t ++ rest))
  | sym {g name rest : List UInt8} {ds : List Datum} (hg : Gap g) (hrest : Lays ds rest)
      (hdel : Delimited rest) : Lays (.sym name :: ds) (g ++ (name ++ rest))
  | str {g s rest : List UInt8} {ds : List Datum} (hg : Gap g) (hrest : Lays ds rest) :
      Lays (.str s :: ds) (g ++ (dquote :: (s ++ (dquote :: rest))))
  | bytes {g s t rest : List UInt8} {ds : List Datum} (hg : Gap g) (ht : HexText s t)
      (hrest : Lays ds rest) : Lays (.bytes s :: ds) (g ++ (lbracket :: (t ++ (rbracket :: rest))))
  | list {g inner rest : List UInt8} {es ds : List Datum} (hg : Gap g) (hin : Lays es inner)
      (hrest : Lays ds rest) : Lays (.list es :: ds) (g ++ (lparen :: (inner ++ (rparen :: rest))))

/-! ## Reading a layout -/

section Run

variable {a : AbsState} {g t : List UInt8} {c : UInt8}

theorem Fits.of_idle (hout : a.outer.length ≤ stackSize) (htok : a.tok = .idle) : a.Fits := by
  refine ⟨hout, ?_⟩
  rw [htok]
  trivial

theorem isWs_iff : isWs c = true ↔ c = space ∨ c = cr ∨ c = lf := by simp [isWs]

theorem isDigit_iff : isDigit c = true ↔ 48 ≤ c.toNat ∧ c.toNat ≤ 57 := by simp [isDigit]

theorem isDigits_of_all {t : List UInt8} (hne : t ≠ []) (hall : t.all isDigit = true) :
    IsDigits t :=
  ⟨hne, List.all_eq_true.mp hall⟩

theorem isWs_of_isDigit (hc : isDigit c = true) : isWs c = false := by
  rw [isDigit_iff] at hc
  rw [Bool.eq_false_iff, Ne, isWs_iff]
  rintro (rfl | rfl | rfl) <;> revert hc <;> decide

theorem comment_runs (hout : a.outer.length ≤ stackSize) :
    ∀ {body : List UInt8}, (∀ c ∈ body, c ≠ lf ∧ c ≠ 0) →
      Runs { a with tok := .comment } (body ++ [lf]) 0 { a with tok := .idle }
  | [], _ => by
    refine Runs.single ?_ (Fits.of_idle hout rfl)
    simp [absStep]
  | c :: body, hb => by
    have hc := hb c (by simp)
    have hstep : absStep { a with tok := .comment } c = some { a with tok := .comment } := by
      simp [absStep, hc.1, hc.2]
    exact Runs.cons hstep ⟨hout, trivial⟩ (comment_runs hout fun x hx => hb x (by simp [hx]))

/-- Whitespace and comments change nothing. -/
theorem Gap.runs (hg : Gap g) (htok : a.tok = .idle) (hout : a.outer.length ≤ stackSize) :
    Runs a g 0 a := by
  have hself : { a with tok := .idle } = a := by rw [← htok]
  induction hg with
  | nil => exact Runs.nil a
  | @ws c g hc _ ih =>
    have hcost : stepCost a c = 0 := by simp [stepCost, htok, atomCost, hc]
    have hstep : absStep a c = some a := by simp [absStep, htok, absAtom, hc]
    have := Runs.cons hstep (Fits.of_idle hout htok) ih
    rwa [hcost] at this
  | @comment body g hb _ ih =>
    have hcost : stepCost a semicolon = 0 := by simp [stepCost, htok, atomCost]
    have hstep : absStep a semicolon = some { a with tok := .comment } := by
      simp [absStep, htok, absAtom, show isWs semicolon = false by decide]
    have hbody := comment_runs (a := a) hout hb
    rw [hself] at hbody
    have := Runs.cons hstep ⟨hout, trivial⟩ (hbody.append ih)
    rw [hcost] at this
    simpa using this

/-! ## Tokens -/

theorem str_runs (hout : a.outer.length ≤ stackSize) :
    ∀ {s : List UInt8} (s₀ : List UInt8), (∀ c ∈ s, c ≠ dquote) →
      (s₀ ++ s).length ≤ 2 ^ 30 - 2 →
      Runs { a with tok := .str s₀ } s 0 { a with tok := .str (s₀ ++ s) }
  | [], s₀, _, _ => by rw [List.append_nil]; exact Runs.nil _
  | c :: s, s₀, hs, hlen => by
    have hc := hs c (by simp)
    have hstep : absStep { a with tok := .str s₀ } c = some { a with tok := .str (s₀ ++ [c]) } := by
      simp [absStep, hc]
    have hcost : stepCost { a with tok := .str s₀ } c = 0 := by simp [stepCost, hc]
    have hrest := str_runs hout (s₀ ++ [c]) (fun x hx => hs x (List.mem_cons_of_mem _ hx)) (by simpa using hlen)
    have := Runs.cons hstep ⟨hout, by simp at hlen ⊢; omega⟩ hrest
    rw [hcost] at this
    simpa using this

theorem wordCost_of_not (hws : isWs c = false) (hrp : c ≠ rparen) : wordCost c = 0 := by
  simp [wordCost, hws, hrp]

theorem sym_runs (hout : a.outer.length ≤ stackSize) :
    ∀ {s : List UInt8} (s₀ : List UInt8), (∀ c ∈ s, isWs c = false ∧ c ≠ rparen) →
      (s₀.head? = some minus → ∀ c ∈ s, isDigit c = false) → s₀ ≠ [] →
      (s₀ ++ s).length ≤ 2 ^ 30 - 2 →
      Runs { a with tok := .sym s₀ } s 0 { a with tok := .sym (s₀ ++ s) }
  | [], s₀, _, _, _, _ => by rw [List.append_nil]; exact Runs.nil _
  | c :: s, s₀, hs, hneg, hne, hlen => by
    have hc := hs c (by simp)
    have hstep : absStep { a with tok := .sym s₀ } c = some { a with tok := .sym (s₀ ++ [c]) } := by
      have hd : ¬ (isDigit c = true ∧ s₀.head? = some minus) := by
        rintro ⟨hd, hm⟩
        rw [hneg hm c (by simp)] at hd
        cases hd
      simp only [absStep]
      rw [if_neg hc.2, if_neg (by simp [hc.1]), if_neg hd]
    have hcost : stepCost { a with tok := .sym s₀ } c = 0 := wordCost_of_not hc.1 hc.2
    have hhead : (s₀ ++ [c]).head? = s₀.head? := by
      cases s₀ with
      | nil => exact absurd rfl hne
      | cons x xs => rfl
    have hrest := sym_runs hout (s₀ ++ [c]) (fun x hx => hs x (List.mem_cons_of_mem _ hx))
      (by rw [hhead]; exact fun hm x hx => hneg hm x (List.mem_cons_of_mem _ hx)) (by simp)
      (by simpa using hlen)
    have := Runs.cons hstep ⟨hout, by simp at hlen ⊢; omega⟩ hrest
    rw [hcost] at this
    simpa using this

theorem bytes_runs (hout : a.outer.length ≤ stackSize) :
    ∀ {t : List UInt8} (ns : List ℕ),
      (∀ c ∈ t, isWs c = true ∨ isDigit c ∨ isLowerHex c ∨ isUpperHex c) →
      (ns ++ (t.filter fun c => !isWs c).map hexVal).length ≤ 2 ^ 29 - 2 →
      Runs { a with tok := .bytes ns } t 0
        { a with tok := .bytes (ns ++ (t.filter fun c => !isWs c).map hexVal) }
  | [], ns, _, _ => by simpa using Runs.nil _
  | c :: t, ns, ht, hlen => by
    have hrb : c ≠ rbracket := by
      rintro rfl
      exact absurd (ht rbracket (by simp)) (by decide)
    have hcost : stepCost { a with tok := .bytes ns } c = 0 := by simp [stepCost, hrb]
    have ht' : ∀ x ∈ t, isWs x = true ∨ isDigit x ∨ isLowerHex x ∨ isUpperHex x :=
      fun x hx => ht x (List.mem_cons_of_mem _ hx)
    by_cases hws : isWs c = true
    · have hhex : ¬ (isDigit c = true ∨ isLowerHex c = true ∨ isUpperHex c = true) := by
        rcases isWs_iff.mp hws with rfl | rfl | rfl <;> decide
      have hstep : absStep { a with tok := .bytes ns } c = some { a with tok := .bytes ns } := by
        simp only [absStep]
        rw [if_neg hrb, if_neg hhex, if_pos hws]
      have hfilter : (c :: t).filter (fun c => !isWs c) = t.filter fun c => !isWs c := by
        simp [hws]
      rw [hfilter] at hlen ⊢
      have := Runs.cons hstep ⟨hout, by simp at hlen ⊢; omega⟩ (bytes_runs hout ns ht' hlen)
      rwa [hcost] at this
    · have hhex := (ht c (by simp)).resolve_left hws
      have hstep : absStep { a with tok := .bytes ns } c =
          some { a with tok := .bytes (ns ++ [hexVal c]) } := by
        simp only [absStep]
        rw [if_neg hrb, if_pos hhex]
      have hfilter : ((c :: t).filter fun c => !isWs c).map hexVal =
          hexVal c :: (t.filter fun c => !isWs c).map hexVal := by simp [hws]
      rw [hfilter] at hlen ⊢
      have := Runs.cons hstep ⟨hout, by simp at hlen ⊢; omega⟩
        (bytes_runs hout (ns ++ [hexVal c]) ht' (by simpa using hlen))
      rw [hcost] at this
      simpa using this

theorem pack_nibbles : ∀ s : List UInt8, pack (nibbles s) = s
  | [] => rfl
  | b :: s => by
    have hb : UInt8.ofNat (16 * (b.toNat / 16) + b.toNat % 16) = b := by
      rw [Nat.div_add_mod, UInt8.ofNat_toNat]
    have ih := pack_nibbles s
    simp only [nibbles, List.flatMap_cons, List.cons_append, List.nil_append, pack] at ih ⊢
    rw [hb, ih]

theorem nibbles_length : ∀ s : List UInt8, (nibbles s).length = 2 * s.length
  | [] => rfl
  | b :: s => by
    have ih := nibbles_length s
    simp only [nibbles, List.flatMap_cons, List.length_append, List.length_cons] at ih ⊢
    simp only [List.length_nil]
    omega

/-! ### Numbers -/

theorem digitVal_of_isDigit (hc : isDigit c = true) :
    digitVal c = BitVec.ofNat 64 (c.toNat - 48) := by
  rw [isDigit_iff] at hc
  rw [digitVal, if_neg (by omega)]

/-- Further digits of a number outside hex mode; `tok` and `add` are those of
    the sign at hand. -/
theorem digits_runs (tok : BitVec 64 → Token) (add : BitVec 64 → BitVec 64 → BitVec 64)
    (hstep : ∀ (b : AbsState) v c, b.tok = tok v → absStep b c = absNum b tok add v c)
    (hcost : ∀ (b : AbsState) v c, b.tok = tok v → stepCost b c = wordCost c)
    (hfit : ∀ v, AbsState.Fits { a with tok := tok v }) (hhex : a.hex = false) :
    ∀ {t : List UInt8} (v : BitVec 64), (∀ c ∈ t, isDigit c = true) →
      Runs { a with tok := tok v } t 0
        { a with tok := tok (t.foldl (fun v c => add (v * 10) (BitVec.ofNat 64 (c.toNat - 48))) v) }
  | [], v, _ => Runs.nil _
  | c :: t, v, ht => by
    have hc := ht c (by simp)
    have hs : absStep { a with tok := tok v } c =
        some { a with tok := tok (add (v * 10) (BitVec.ofNat 64 (c.toNat - 48))) } := by
      rw [hstep _ v c rfl, absNum, if_pos (Or.inl hc), digitVal_of_isDigit hc]
      simp [hhex]
    have hk : stepCost { a with tok := tok v } c = 0 := by
      rw [hcost _ v c rfl]
      exact wordCost_of_not (isWs_of_isDigit hc) (by rintro rfl; exact absurd hc (by decide))
    have := Runs.cons hs (hfit _) (digits_runs tok add hstep hcost hfit hhex
      (add (v * 10) (BitVec.ofNat 64 (c.toNat - 48))) fun x hx => ht x (List.mem_cons_of_mem _ hx))
    rw [hk] at this
    exact this

theorem foldl_add_digits (t : List UInt8) : ∀ n : ℕ,
    t.foldl (fun (v : BitVec 64) c => v * 10 + BitVec.ofNat 64 (c.toNat - 48)) (BitVec.ofNat 64 n) =
      BitVec.ofNat 64 (t.foldl (fun n c => n * 10 + (c.toNat - 48)) n) := by
  induction t with
  | nil => intro n; rfl
  | cons c t ih =>
    intro n
    simp only [List.foldl_cons]
    rw [← ih, BitVec.ofNat_add, BitVec.ofNat_mul]
    rfl

theorem foldl_sub_digits (t : List UInt8) : ∀ n : ℕ,
    t.foldl (fun (v : BitVec 64) c => v * 10 - BitVec.ofNat 64 (c.toNat - 48))
        (-BitVec.ofNat 64 n) =
      -BitVec.ofNat 64 (t.foldl (fun n c => n * 10 + (c.toNat - 48)) n) := by
  induction t with
  | nil => intro n; rfl
  | cons c t ih =>
    intro n
    simp only [List.foldl_cons]
    rw [← ih, BitVec.ofNat_add, BitVec.ofNat_mul, BitVec.neg_add, ← BitVec.neg_mul]
    rfl

/-- An integer is read up to its last digit, with one cell for its value. It
    leaves hex mode, and a negative one needs hex mode to be off. -/
theorem IntText.runs {v : BitVec 64} (ht : IntText v t) (htok : a.tok = .idle)
    (hout : a.outer.length ≤ stackSize) (hhex : a.hex = false ∨ 0 ≤ v.toInt) :
    ∃ tok, Runs a t 1 { a with tok := tok, hex := false } ∧ tok.datum = some (.int v) := by
  rcases ht with ⟨⟨hne, hdig⟩, hval⟩ | ⟨hlt, ds, rfl, ⟨hne, hdig⟩, hval⟩
  · cases t with
    | nil => exact absurd rfl hne
    | cons c t =>
      have hc := hdig c (by simp)
      have hws := isWs_of_isDigit hc
      have hsemi : c ≠ semicolon := by rintro rfl; exact absurd hc (by decide)
      have hstep : absStep a c =
          some { a with tok := .num (BitVec.ofNat 64 (c.toNat - 48)), hex := false } := by
        simp [absStep, htok, absAtom, hws, hsemi, hc]
      have hcost : stepCost a c = 1 := by simp [stepCost, htok, atomCost, hws, hsemi]
      have hrest := digits_runs (a := { a with hex := false }) .num (· + ·)
        (fun b v c hb => by simp [absStep, hb]) (fun b v c hb => by simp [stepCost, hb])
        (fun v => ⟨hout, trivial⟩) rfl (BitVec.ofNat 64 (c.toNat - 48))
        (fun x hx => hdig x (List.mem_cons_of_mem _ hx))
      have hv : BitVec.ofNat 64 (decimal (c :: t)) = v := by
        rw [hval, BitVec.ofNat_toNat, BitVec.setWidth_eq]
      refine ⟨.num v, ?_, rfl⟩
      have := Runs.cons hstep ⟨hout, trivial⟩ hrest
      rw [foldl_add_digits] at this
      rw [hcost] at this
      rw [← hv]
      simpa [decimal] using this
  · have hex : a.hex = false := hhex.resolve_right (by omega)
    cases ds with
    | nil => exact absurd rfl hne
    | cons c t =>
      have hc := hdig c (by simp)
      have hws := isWs_of_isDigit hc
      have hrp : c ≠ rparen := by rintro rfl; exact absurd hc (by decide)
      have hstep₁ : absStep a minus = some { a with tok := .sym [minus] } := by
        simp only [absStep, htok, absAtom]
        rfl
      have hcost₁ : stepCost a minus = 1 := by simp only [stepCost, htok]; rfl
      have hstep₂ : absStep { a with tok := .sym [minus] } c =
          some { a with tok := .numNeg (-BitVec.ofNat 64 (c.toNat - 48)) } := by
        simp [absStep, hrp, hws, hc]
      have hcost₂ : stepCost { a with tok := .sym [minus] } c = 0 := wordCost_of_not hws hrp
      have hrest := digits_runs (a := a) .numNeg (· - ·)
        (fun b v c hb => by simp [absStep, hb]) (fun b v c hb => by simp [stepCost, hb])
        (fun v => ⟨hout, trivial⟩) hex (-BitVec.ofNat 64 (c.toNat - 48))
        (fun x hx => hdig x (List.mem_cons_of_mem _ hx))
      have hv : -BitVec.ofNat 64 (decimal (c :: t)) = v := by
        rw [hval, BitVec.ofNat_toNat, BitVec.setWidth_eq, BitVec.neg_neg]
      refine ⟨.numNeg v, ?_, rfl⟩
      have := Runs.cons hstep₁ ⟨hout, by simp⟩ (Runs.cons hstep₂ ⟨hout, trivial⟩ hrest)
      rw [foldl_sub_digits, hcost₁, hcost₂] at this
      rw [← hv, ← hex]
      simpa [decimal] using this

/-- A symbol is read up to its last character. -/
theorem IsName.runs {name : List UInt8} (hn : IsName name) (htok : a.tok = .idle)
    (hout : a.outer.length ≤ stackSize) (hlen : name.length ≤ 2 ^ 30 - 2) :
    Runs a name 1 { a with tok := .sym name } := by
  obtain ⟨c, cs, rfl, hdig, hsemi, hlp, hlb, hdq, hneg⟩ := hn.start
  have hc := hn.inside c (by simp)
  have hstep : absStep a c = some { a with tok := .sym [c] } := by
    simp [absStep, htok, absAtom, hc.1, hc.2.1, hdig, hsemi, hlp, hlb, hdq]
  have hcost : stepCost a c = 1 := by simp [stepCost, htok, atomCost, hc.1, hsemi]
  have hrest := sym_runs (a := a) (s := cs) hout [c]
    (fun x hx => ⟨(hn.inside x (List.mem_cons_of_mem _ hx)).1,
      (hn.inside x (List.mem_cons_of_mem _ hx)).2.1⟩)
    (fun hm => hneg (Option.some.inj hm)) (by simp) hlen
  have := Runs.cons hstep ⟨hout, by simp⟩ hrest
  rw [hcost] at this
  exact this

/-! ## Ends of tokens -/

theorem step_ws {d : Datum} (hd : a.tok.datum = some d) (hws : isWs c = true) :
    absStep a c = some (a.push d) ∧ stepCost a c = 1 := by
  have hdig : isDigit c = false := by
    rw [Bool.eq_false_iff]
    intro hc
    rw [isWs_of_isDigit hc] at hws
    cases hws
  have hlow : isLowerHex c = false := by
    rcases isWs_iff.mp hws with rfl | rfl | rfl <;> decide
  have hrp : c ≠ rparen := by rintro rfl; exact absurd hws (by decide)
  cases htok : a.tok with
  | num v | numNeg v =>
    rw [htok] at hd
    obtain rfl := Option.some.inj hd
    constructor
    · simp [absStep, htok, absNum, hdig, hlow, hws]
    · simp [stepCost, htok, wordCost_ws hws]
  | sym s =>
    rw [htok] at hd
    obtain rfl := Option.some.inj hd
    constructor
    · simp [absStep, htok, hrp, hws]
    · simp [stepCost, htok, wordCost_ws hws]
  | idle | comment | str | bytes => rw [htok] at hd; cases hd

theorem step_rparen {d : Datum} (hd : a.tok.datum = some d) :
    absStep a rparen = (a.push d).close ∧ stepCost a rparen = 2 := by
  have hdig : isDigit rparen = false := by decide
  have hlow : isLowerHex rparen = false := by decide
  have hws : isWs rparen = false := by decide
  cases htok : a.tok with
  | num v | numNeg v =>
    rw [htok] at hd
    obtain rfl := Option.some.inj hd
    constructor
    · simp [absStep, htok, absNum, hdig, hlow, hws]
    · simp [stepCost, htok, wordCost]
  | sym s =>
    rw [htok] at hd
    obtain rfl := Option.some.inj hd
    constructor
    · simp [absStep, htok]
    · simp [stepCost, htok, wordCost]
  | idle | comment | str | bytes => rw [htok] at hd; cases hd

end Run

/-! ## Whole layouts -/

/-- One if a number or symbol still waits for its delimiter. -/
def AbsState.pending (a : AbsState) : ℕ := a.tok.datum.toList.length

/-- `b` is `a` after the complete element `d`. -/
structure Done (a : AbsState) (d : Datum) (b : AbsState) : Prop where
  tok : b.tok = .idle
  outer : b.outer = a.outer
  cur : b.cur = a.cur ++ [d]
  hex : b.hex = false ∨ b.hex = a.hex
  first : b.first = a.first ∨ (a.outer = [] ∧ b.first = a.cur.length)

/-- `b` is `a` after the data `ds`, reached with `n` cells; the last element
    may still be a pending token. -/
structure After (a : AbsState) (ds : List Datum) (n : ℕ) (b : AbsState) : Prop where
  tok : b.tok = .idle ∨ ∃ d, b.tok.datum = some d
  outer : b.outer = a.outer
  elements : b.elements = a.cur ++ ds
  cost : n + b.pending = 2 * Datum.nodesAll ds
  hex : b.hex = false ∨ b.hex = a.hex
  first : b.first = a.first ∨
    (a.outer = [] ∧ a.cur.length ≤ b.first ∧ b.first < a.cur.length + ds.length)

section Layouts

variable {a b e p : AbsState} {d : Datum} {ds : List Datum} {m n : ℕ} {t rest : List UInt8}

theorem AbsState.elements_of_idle (htok : a.tok = .idle) : a.elements = a.cur := by
  simp [AbsState.elements, htok, Token.datum]

theorem AbsState.pending_of_idle (htok : a.tok = .idle) : a.pending = 0 := by
  simp [AbsState.pending, htok, Token.datum]

/-- An element that ends by itself, and what comes after it. -/
theorem Done.cons (hd : Done a d b) (ha : After b ds m e) (hn : n = 2 * d.nodes) :
    After a (d :: ds) (n + m) e where
  tok := ha.tok
  outer := ha.outer.trans hd.outer
  elements := by rw [ha.elements, hd.cur, List.append_assoc]; rfl
  cost := by have := ha.cost; rw [Datum.nodesAll]; omega
  hex := by
    rcases ha.hex with h | h
    · exact Or.inl h
    · rw [h]; exact hd.hex
  first := by
    have hlen : b.cur.length = a.cur.length + 1 := by rw [hd.cur]; simp
    simp only [List.length_cons]
    rcases ha.first with h | ⟨ho, h₁, h₂⟩
    · rcases hd.first with h' | ⟨ho, h'⟩
      · exact Or.inl (h.trans h')
      · exact Or.inr ⟨ho, by omega, by omega⟩
    · exact Or.inr ⟨hd.outer ▸ ho, by omega, by omega⟩

/-- A number or symbol `p` read, and what comes after it: nothing, or text
    that starts with whitespace. -/
theorem After.word (hp : p.tok.datum = some d) (hd : Done a d (p.push d)) (hnode : d.nodes = 1)
    (hdel : Delimited rest) (hrun : Runs (p.push d) rest m e) (he : After (p.push d) ds m e)
    (hfit : (p.push d).Fits) :
    ∃ n e', Runs p rest n e' ∧ After a (d :: ds) (1 + n) e' := by
  have hcur : p.cur ++ [d] = a.cur ++ [d] := hd.cur
  cases hrun with
  | nil =>
    -- the text ends with the token
    have hds : ds = [] := by
      have := he.elements
      rw [AbsState.elements_of_idle hd.tok] at this
      exact List.self_eq_append_right.mp this
    subst hds
    refine ⟨0, p, Runs.nil p, ?_⟩
    exact
      { tok := Or.inr ⟨d, hp⟩
        outer := hd.outer
        elements := by simpa [AbsState.elements, hp] using hcur
        cost := by simp [AbsState.pending, hp, Datum.nodesAll, hnode]
        hex := hd.hex
        first := by
          rcases hd.first with h | ⟨ho, h⟩
          · exact Or.inl h
          · exact Or.inr ⟨ho, le_of_eq h.symm, by
              simp only [List.length_cons, List.length_nil]
              exact lt_of_eq_of_lt h (Nat.lt_succ_self _)⟩ }
  | @cons _ a₁ _ c cs k hstep _ hrest =>
    -- the whitespace completes the token, and then changes nothing
    have hws := hdel c cs rfl
    have hidle : absStep (p.push d) c = some (p.push d) := by
      simp [absStep, AbsState.push, absAtom, hws]
    have hcost : stepCost (p.push d) c = 0 := by
      simp [stepCost, AbsState.push, atomCost, hws]
    obtain rfl : p.push d = a₁ := Option.some.inj (hidle.symm.trans hstep)
    obtain ⟨hs, hc⟩ := step_ws hp hws
    refine ⟨1 + k, e, ?_, ?_⟩
    · have := Runs.cons hs hfit hrest
      rwa [hc] at this
    · rw [hcost, Nat.zero_add] at he
      have := hd.cons (n := 2) he (by rw [hnode])
      rw [← Nat.add_assoc]
      exact this

/-- A `)` after the last element of a list, complete or pending. -/
theorem step_close {ds₀ : List Datum} {dss : List (List Datum)}
    (htok : e.tok = .idle ∨ ∃ d, e.tok.datum = some d) (heo : e.outer = ds₀ :: dss) :
    absStep e rparen = some { e with
      tok := .idle, cur := ds₀ ++ [.list e.elements], outer := dss } ∧
    stepCost e rparen = 1 + e.pending := by
  rcases htok with htok | ⟨d, hd⟩
  · constructor
    · have hws : isWs rparen = false := by decide
      have hdig : isDigit rparen = false := by decide
      simp only [absStep, htok, absAtom, hws, hdig, AbsState.elements_of_idle htok]
      simp [AbsState.close, heo, show rparen ≠ semicolon by decide, show rparen ≠ lparen by decide]
    · simp only [stepCost, htok, AbsState.pending_of_idle htok]
      rfl
  · obtain ⟨hs, hc⟩ := step_rparen hd
    constructor
    · rw [hs]
      simp [AbsState.close, AbsState.push, heo, AbsState.elements, hd]
    · rw [hc]
      simp [AbsState.pending, hd]

/-- The abstract reader reads a layout as its data. -/
theorem Lays.runs (hl : Lays ds t) : ∀ a : AbsState, a.tok = .idle →
    a.outer.length + Datum.depthAll ds ≤ stackSize → Datum.AtomsAll Lexical ds →
    Datum.AtomsAll FitsBuffer ds → (a.hex = false ∨ Datum.AtomsAll NonNeg ds) →
    ∃ n b, Runs a t n b ∧ After a ds n b := by
  induction hl with
  | nil hg =>
    intro a htok hdepth _ _ _
    refine ⟨0, a, hg.runs htok (by omega), Or.inl htok, rfl, ?_, ?_, Or.inr rfl, Or.inl rfl⟩
    · rw [AbsState.elements_of_idle htok, List.append_nil]
    · rw [AbsState.pending_of_idle htok]; rfl
  | @int g t rest v ds hg ht hrest hdel ih =>
    intro a htok hdepth hlex hfit hhex
    simp only [Datum.depthAll, Datum.depth, Nat.zero_max] at hdepth
    have hnn : a.hex = false ∨ 0 ≤ v.toInt := hhex.imp_right fun h => h.1
    obtain ⟨tok, hrun, hd⟩ := ht.runs htok (by omega) hnn
    have hdone : Done a (.int v) ({ a with tok := tok, hex := false }.push (.int v)) :=
      ⟨rfl, rfl, rfl, Or.inl rfl, Or.inl rfl⟩
    obtain ⟨m, e, hrun', he⟩ := ih _ hdone.tok hdepth hlex.2 hfit.2 (Or.inl rfl)
    obtain ⟨n, e', hr, haft⟩ := After.word hd hdone rfl hdel hrun' he
      (Fits.of_idle (show a.outer.length ≤ stackSize by omega) rfl)
    refine ⟨1 + n, e', ?_, haft⟩
    have := (hg.runs htok (by omega)).append (hrun.append hr)
    rwa [Nat.zero_add] at this
  | @sym g name rest ds hg hrest hdel ih =>
    intro a htok hdepth hlex hfit hhex
    simp only [Datum.depthAll, Datum.depth, Nat.zero_max] at hdepth
    have hrun := IsName.runs hlex.1 htok (by omega) hfit.1
    have hdone : Done a (.sym name) ({ a with tok := .sym name }.push (.sym name)) :=
      ⟨rfl, rfl, rfl, Or.inr rfl, Or.inl rfl⟩
    obtain ⟨m, e, hrun', he⟩ := ih _ hdone.tok hdepth hlex.2 hfit.2 (hhex.imp_right fun h => h.2)
    obtain ⟨n, e', hr, haft⟩ := After.word (p := { a with tok := .sym name }) rfl hdone rfl hdel
      hrun' he (Fits.of_idle (show a.outer.length ≤ stackSize by omega) rfl)
    refine ⟨1 + n, e', ?_, haft⟩
    have := (hg.runs htok (by omega)).append (hrun.append hr)
    rwa [Nat.zero_add] at this
  | @str g s rest ds hg hrest ih =>
    intro a htok hdepth hlex hfit hhex
    simp only [Datum.depthAll, Datum.depth, Nat.zero_max] at hdepth
    have hout : a.outer.length ≤ stackSize := by omega
    set b := { a with tok := .str s }.push (.str s) with hb
    have hdone : Done a (.str s) b := ⟨rfl, rfl, rfl, Or.inr rfl, Or.inl rfl⟩
    obtain ⟨m, e, hrun', he⟩ := ih b rfl hdepth hlex.2 hfit.2 (hhex.imp_right fun h => h.2)
    refine ⟨2 + m, e, ?_, hdone.cons he rfl⟩
    have hopen : Runs a [dquote] 1 { a with tok := .str [] } := by
      have hs : absStep a dquote = some { a with tok := .str [] } := by
        simp only [absStep, htok, absAtom]; rfl
      have hc : stepCost a dquote = 1 := by simp only [stepCost, htok]; rfl
      have := Runs.single hs ⟨hout, by simp⟩
      rwa [hc] at this
    have hclose : Runs { a with tok := .str s } [dquote] 1 b := by
      have hs : absStep { a with tok := .str s } dquote = some b := by simp [absStep, hb]
      have hc : stepCost { a with tok := .str s } dquote = 1 := rfl
      have := Runs.single hs (Fits.of_idle hout rfl)
      rwa [hc] at this
    have hbody := str_runs (a := a) (s := s) hout [] (fun c hc => (hlex.1 c hc).1) hfit.1
    have := (hg.runs htok hout).append (hopen.append (hbody.append (hclose.append hrun')))
    simpa [Nat.add_assoc, ← Nat.add_assoc 1 1] using this
  | @bytes g s t rest ds hg ht hrest ih =>
    intro a htok hdepth hlex hfit hhex
    simp only [Datum.depthAll, Datum.depth, Nat.zero_max] at hdepth
    have hout : a.outer.length ≤ stackSize := by omega
    set b := { a with tok := .bytes (nibbles s) }.push (.bytes s) with hb
    have hdone : Done a (.bytes s) b := ⟨rfl, rfl, rfl, Or.inr rfl, Or.inl rfl⟩
    obtain ⟨m, e, hrun', he⟩ := ih b rfl hdepth hlex.2 hfit.2 (hhex.imp_right fun h => h.2)
    refine ⟨2 + m, e, ?_, hdone.cons he rfl⟩
    have hopen : Runs a [lbracket] 1 { a with tok := .bytes [] } := by
      have hs : absStep a lbracket = some { a with tok := .bytes [] } := by
        simp only [absStep, htok, absAtom]; rfl
      have hc : stepCost a lbracket = 1 := by simp only [stepCost, htok]; rfl
      have := Runs.single hs ⟨hout, by simp⟩
      rwa [hc] at this
    have hclose : Runs { a with tok := .bytes (nibbles s) } [rbracket] 1 b := by
      have hs : absStep { a with tok := .bytes (nibbles s) } rbracket = some b := by
        simp [absStep, hb, pack_nibbles]
      have hc : stepCost { a with tok := .bytes (nibbles s) } rbracket = 1 := rfl
      have := Runs.single hs (Fits.of_idle hout rfl)
      rwa [hc] at this
    have hbody := bytes_runs (a := a) (t := t) hout [] ht.1 (by
      have : s.length ≤ 2 ^ 28 - 1 := hfit.1
      rw [List.nil_append, ht.2, nibbles_length]
      omega)
    rw [List.nil_append, ht.2] at hbody
    have := (hg.runs htok hout).append (hopen.append (hbody.append (hclose.append hrun')))
    simpa [Nat.add_assoc, ← Nat.add_assoc 1 1] using this
  | @list g inner rest es ds hg hin hrest ihin ih =>
    intro a htok hdepth hlex hfit hhex
    simp only [Datum.depthAll, Datum.depth] at hdepth
    have hout : a.outer.length ≤ stackSize := by omega
    set b : AbsState := { a with
      cur := [], outer := a.cur :: a.outer
      first := if a.outer.isEmpty then a.cur.length else a.first } with hb
    obtain ⟨k, e, hrunin, hin'⟩ := ihin b htok (by simp [hb]; omega) hlex.1 hfit.1
      (hhex.imp_right fun h => h.1)
    have helem : e.elements = es := by rw [hin'.elements]; rfl
    obtain ⟨hs, hc⟩ := step_close hin'.tok hin'.outer
    rw [helem] at hs
    set f : AbsState := { e with tok := .idle, cur := a.cur ++ [.list es], outer := a.outer } with hf
    have hdone : Done a (.list es) f := by
      refine ⟨rfl, rfl, rfl, hin'.hex, ?_⟩
      have hfirst : f.first = b.first := by
        rcases hin'.first with h | ⟨h, -⟩
        · exact h
        · simp [hb] at h
      rw [hfirst]
      by_cases ho : a.outer = []
      · exact Or.inr ⟨ho, by simp [hb, ho]⟩
      · left
        simp [hb, ho]
    obtain ⟨m, e', hrun', he'⟩ := ih f rfl (by simp [hf]; omega) hlex.2 hfit.2 (by
      rcases hhex with h | h
      · rcases hin'.hex with h' | h'
        · exact Or.inl h'
        · exact Or.inl (h'.trans h)
      · exact Or.inr h.2)
    have hopen : Runs a [lparen] 1 b := by
      have hs : absStep a lparen = some b := by
        simp only [absStep, htok, absAtom]; rw [hb, ← htok]; rfl
      have hc : stepCost a lparen = 1 := by simp only [stepCost, htok]; rfl
      have := Runs.single hs (Fits.of_idle (by simp [hb]; omega) htok)
      rwa [hc] at this
    have hclose := Runs.single hs (Fits.of_idle (show f.outer.length ≤ stackSize from hout) rfl)
    rw [hc] at hclose
    have hcost := hin'.cost
    refine ⟨(1 + k + (1 + e.pending)) + m, e', ?_, hdone.cons he' ?_⟩
    · have := (hg.runs htok hout).append (hopen.append (hrunin.append (hclose.append hrun')))
      simpa [Nat.add_assoc] using this
    · rw [Datum.nodes]; omega

/-- `read_string` reads every layout of a readable datum as that datum. The
    cells it needs are two for each atom and each list, and two for the
    root. -/
theorem readString_lays {junk : Junk} {h : Heap} (hok : h.FreeListOk) (hlex : d.Atoms Lexical)
    (hneg : junk.valuestate ≠ vstHex ∨ d.Atoms NonNeg) (hdepth : d.depth ≤ stackSize)
    (hfit : d.Atoms FitsBuffer) (hl : Lays [d] t) (hlen : t.length < 2 ^ 31)
    (hroom : 2 * d.nodes + 2 ≤ h.room) :
    ∃ w h' S, readString junk t h = .ok (w, h') ∧ Rep h' S w d ∧
      ∀ i, .cell i ∈ S → i ∉ h'.Supply := by
  obtain ⟨n, b, hrun, haft⟩ := hl.runs (.start (junk.valuestate = vstHex)) rfl
    (by simpa [Datum.depthAll, AbsState.start] using hdepth) ⟨hlex, trivial⟩ ⟨hfit, trivial⟩
    (hneg.imp (fun h => by simpa [AbsState.start] using h) fun h => ⟨h, trivial⟩)
  have hcost := haft.cost
  simp only [Datum.nodesAll] at hcost
  have hfirst : b.first = 0 := by
    rcases haft.first with h | ⟨-, -, h⟩
    · exact h
    · simp only [AbsState.start, List.length_nil, List.length_cons] at h
      omega
  have hne : t ≠ [] := by
    rintro rfl
    cases hrun
    exact absurd haft.elements (by simp [AbsState.elements, AbsState.start, Token.datum])
  refine readString_sim hok hne hlen hrun haft.outer ?_ (by omega)
  rw [haft.elements, hfirst]
  rfl

end Layouts

/-! ## Parser correctness -/

/-- Atoms whose layouts are the subject of `readString_layout`: non-negative
    integers, symbols whose first character starts nothing else, strings
    without `"`. -/
def Plain : Datum → Prop
  | .int v => 0 ≤ v.toInt
  | .sym name => name ≠ [] ∧
      (∀ c ∈ name.head?, isDigit c = false ∧
        c ∉ [minus, semicolon, lparen, rparen, lbracket, dquote]) ∧
      ∀ c ∈ name, c ∉ [space, cr, lf, 0, rparen]
  | .str s => ∀ c ∈ s, c ∉ [dquote, 0]
  | _ => True

theorem Plain.lexical {d : Datum} (hd : Plain d) : Lexical d := by
  cases d with
  | sym name =>
    obtain ⟨hne, hstart, hin⟩ := hd
    match name, hne with
    | c :: cs, _ =>
      have hc := hstart c rfl
      simp only [List.mem_cons, List.not_mem_nil, not_or] at hc hin
      refine ⟨⟨c, cs, rfl, hc.1, hc.2.2.1, hc.2.2.2.1, hc.2.2.2.2.2.1, hc.2.2.2.2.2.2.1,
        fun hm => absurd hm hc.2.1⟩, fun x hx => ?_⟩
      have := hin x (List.mem_cons.mp hx)
      refine ⟨?_, this.2.2.2.2.1, this.2.2.2.1⟩
      rw [Bool.eq_false_iff, Ne, isWs_iff]
      tauto
  | str s =>
    intro c hc
    simpa using hd c hc
  | int | bytes | list => trivial

theorem Plain.nonNeg {d : Datum} (hd : Plain d) : NonNeg d := by
  cases d with
  | int v => exact hd
  | sym | str | bytes | list => trivial

mutual

theorem Datum.Atoms.imp {p q : Datum → Prop} (hpq : ∀ d, p d → q d) :
    ∀ {d : Datum}, d.Atoms p → d.Atoms q
  | .list _, h => by
    rw [Datum.Atoms] at h ⊢
    exact Datum.AtomsAll.imp hpq h
  | .int v, h => by rw [Datum.Atoms] at h ⊢; exact hpq _ h
  | .sym s, h => by rw [Datum.Atoms] at h ⊢; exact hpq _ h
  | .str s, h => by rw [Datum.Atoms] at h ⊢; exact hpq _ h
  | .bytes s, h => by rw [Datum.Atoms] at h ⊢; exact hpq _ h

theorem Datum.AtomsAll.imp {p q : Datum → Prop} (hpq : ∀ d, p d → q d) :
    ∀ {ds : List Datum}, Datum.AtomsAll p ds → Datum.AtomsAll q ds
  | [], _ => by rw [Datum.AtomsAll]; trivial
  | _ :: _, h => by
    rw [Datum.AtomsAll] at h ⊢
    exact ⟨Datum.Atoms.imp hpq h.1, Datum.AtomsAll.imp hpq h.2⟩

end

/-- `read_string` returns exactly the datum, for every layout of it: every
    element once and in order, every list ended by a nil cell, every literal
    with its contents and size. No write leaves its buffer, since a write
    outside one is a fault. The limits are those of the C types and of the
    cell heap. -/
theorem readString_layout (junk : Junk) (h : Heap) (d : Datum) (t : List UInt8)
    (hok : h.FreeListOk) (hplain : d.Atoms Plain) (hdepth : d.depth ≤ 96) (hl : Lays [d] t)
    (hlen : t.length < 2 ^ 31) (hfit : d.Atoms FitsBuffer) (hroom : 2 * d.nodes + 2 ≤ h.room) :
    ∃ w h' S, readString junk t h = .ok (w, h') ∧ Rep h' S w d ∧
      ∀ i, .cell i ∈ S → i ∉ h'.Supply :=
  readString_lays hok (hplain.imp fun _ => Plain.lexical)
    (Or.inr (hplain.imp fun _ => Plain.nonNeg)) hdepth hfit hl hlen hroom

/-- `(5 a)`. -/
theorem readString_layout_list :
    ∃ w h' S, readString ⟨fun _ => .null, 7, 0⟩ [40, 53, 32, 97, 41] Heap.init = .ok (w, h') ∧
      Rep h' S w (.list [.int 5, .sym [97]]) ∧ ∀ i, .cell i ∈ S → i ∉ h'.Supply := by
  have hend : Delimited [] := fun c cs h => by cases h
  have hws : Delimited [32, 97] := fun c cs h => by injection h with h; rw [← h]; rfl
  have hdig : IsDigits [53] := isDigits_of_all (by simp) rfl
  have hsym : Lays [.sym [97]] [32, 97] :=
    @Lays.sym [32] [97] [] [] (Gap.ws rfl Gap.nil) (Lays.nil Gap.nil) hend
  have hin : Lays [.int 5, .sym [97]] [53, 32, 97] :=
    Lays.int (t := [53]) Gap.nil (Or.inl ⟨hdig, rfl⟩) hsym hws
  refine readString_layout _ _ _ _ init_freeListOk ?_ (by decide)
    (Lays.list Gap.nil hin (Lays.nil Gap.nil)) (by decide) ?_ (by decide)
  · simp [Datum.Atoms, Datum.AtomsAll, Plain]
    decide
  · simp [Datum.Atoms, Datum.AtomsAll, FitsBuffer]

/-! ## Beyond the limits -/

theorem readChars_append {ys : List UInt8} {rs' : ReaderState} {h' : Heap} :
    ∀ {xs : List UInt8} {rs : ReaderState} {h : Heap}, readChars xs rs h = .ok (rs', h') →
      rs'.state.isError = false → readChars (xs ++ ys) rs h = readChars ys rs' h'
  | [], rs, h, hr, _ => by
    obtain ⟨rfl, rfl⟩ : rs = rs' ∧ h = h' := by simpa [readChars] using hr
    rfl
  | x :: xs, rs, h, hr, herr => by
    rw [readChars] at hr
    rw [List.cons_append, readChars]
    cases hc : readChar x rs h with
    | error e => rw [hc] at hr; cases hr
    | ok p =>
      obtain ⟨rs₁, h₁⟩ := p
      rw [hc] at hr
      change (if rs₁.state.isError then _ else _) = _ at hr
      change (if rs₁.state.isError then _ else _) = _
      by_cases he : rs₁.state.isError = true
      · rw [if_pos he] at hr
        obtain ⟨rfl, rfl⟩ : rs₁ = rs' ∧ h₁ = h' := by simpa using hr
        rw [he] at herr
        cases herr
      · rw [if_neg he] at hr ⊢
        exact readChars_append hr herr

/-- A buffer of size `2 ^ 30` cannot grow: `bytes_alloc` gets a negative
    `int`. -/
theorem growBuffer_fault {h : Heap} {v b tag : ℕ}
    (hcell : h.cells v = ⟨.ptr (.bytes b) 0, .ofNat (2 ^ 30), tag⟩) :
    growBuffer h v = .error .fault := by
  have hsize : toInt32 (toUInt32 (toUInt32 (2 ^ 31) + 1)) < 0 := by decide
  unfold growBuffer
  rw [hcell]
  dsimp only
  rw [two_mul_size, show (BitVec.ofNat 64 (2 ^ (30 + 1))).toNat = 2 ^ 31 from rfl, cellRealloc,
    bytesAlloc, if_pos hsize]
  rfl

/-- Hex digit number `2 ^ 29 - 1` of a byte literal. -/
theorem readChar_bytes_fault {rs : ReaderState} {h : Heap} {a : AbsState} {ns : List ℕ} {x : UInt8}
    (hs : Sim rs h a) (htok : a.tok = .bytes ns) (hns : ns.length = 2 ^ 29 - 2)
    (hx : isDigit x = true) : readChar x rs h = .error .fault := by
  obtain ⟨S, cs, c, os, hc, ht⟩ := hs
  rw [htok] at ht
  obtain ⟨hst, v, b, k, hB, hlen, hlt, -⟩ := ht
  have hk : k = 30 := by
    have hup := hB.upper
    by_contra hne
    have : 2 ^ k ≤ 2 ^ 29 := Nat.pow_le_pow_right (by omega) (by omega)
    omega
  subst hk
  have hroot : ensureRoot rs h = .ok (rs, h) := by
    rw [ensureRoot, if_neg (by rw [hc.cell]; simp)]
  have hrb : x ≠ rbracket := by rintro rfl; exact absurd hx (by decide)
  have happ : appendNibble x c rs h = .error .fault := by
    unfold appendNibble
    rw [hB.ar, hlen, toUInt32_of_lt (by omega)]
    change (sizeOf h v >>= _) = _
    rw [sizeOf, hB.cell]
    change (growWhen (decide (ns.length + 1 ≥ (BitVec.ofNat 64 (2 ^ 30) / 2 - 1).toNat)) h v >>= _)
      = _
    rw [toNat_half_size_sub_one (by omega) (by omega), hns, growWhen, if_pos (by decide),
      growBuffer_fault hB.cell]
    rfl
  unfold readChar
  rw [hroot]
  change (cellOf rs.cell >>= _) = _
  rw [hc.cell]
  change (readState x c rs h >>= _) = _
  rw [readState, hst]
  dsimp only
  rw [readBytes, if_neg hrb, if_pos (Or.inl hx), happ]
  rfl

/-- A byte literal of `2 ^ 28` bytes or more. -/
theorem readString_bytes_too_long {junk : Junk} {h : Heap} {n : ℕ} {rest : List UInt8}
    (hok : h.FreeListOk) (hroom : 3 ≤ h.room) (hn : 2 ^ 29 - 1 ≤ n)
    (hlen : n + rest.length + 1 < 2 ^ 31) :
    readString junk (lbracket :: (List.replicate n 48 ++ rest)) h = .error .fault := by
  -- `N` digits fit; the next one does not
  obtain ⟨N, hN⟩ : ∃ N, N = 2 ^ 29 - 2 := ⟨_, rfl⟩
  obtain ⟨m, rfl⟩ : ∃ m, n = N + (m + 1) := ⟨n - (N + 1), by omega⟩
  set a := AbsState.start (junk.valuestate = vstHex) with ha
  have hout : a.outer.length ≤ stackSize := Nat.zero_le _
  have hdigits : ((List.replicate N (48 : UInt8)).filter fun c => !isWs c).map hexVal =
      List.replicate N 0 := by
    rw [List.filter_replicate_of_pos (by decide), List.map_replicate]
    rfl
  have hbody := bytes_runs (a := a) (t := List.replicate N 48) hout []
    (fun c hc => by rw [List.eq_of_mem_replicate hc]; decide)
    (by rw [hdigits, List.nil_append, List.length_replicate, hN])
  rw [hdigits, List.nil_append] at hbody
  have hopen : absStep a lbracket = some { a with tok := .bytes [] } := rfl
  have hcost : stepCost a lbracket + 0 = 1 := rfl
  have hrun := Runs.cons hopen ⟨hout, Nat.zero_le _⟩ hbody
  rw [hcost] at hrun
  obtain ⟨rs, h', hr, hs, -⟩ := readChars_start_sim hok (by simp) hrun (by omega)
  have hfault := readChar_bytes_fault hs rfl (List.length_replicate.trans hN)
    (show isDigit 48 = true from rfl)
  have htext : lbracket :: (List.replicate (N + (m + 1)) 48 ++ rest) =
      (lbracket :: List.replicate N 48) ++ (48 :: (List.replicate m 48 ++ rest)) := by
    rw [List.replicate_add, List.replicate_succ, List.append_assoc]
    rfl
  have hlen' : (lbracket :: (List.replicate (N + (m + 1)) 48 ++ rest)).length < 2 ^ 31 := by
    simp only [List.length_cons, List.length_append, List.length_replicate]
    omega
  unfold readString
  rw [toInt32_of_lt hlen', Int.toNat_natCast, List.take_length, htext,
    readChars_append hr hs.not_isError, readChars, hfault]
  rfl

/-- A text of `2 ^ 31` characters or more: `len` is negative, no character is
    read, and the uninitialised `stack_root[0]` decides. -/
theorem readString_text_too_long {junk : Junk} {h : Heap} {t : List UInt8} (hok : h.FreeListOk)
    (hroom : 0 < h.room) (hnull : junk.stackRoot 0 = .null) (hlen : t.length = 2 ^ 31) :
    ∃ e h', readString junk t h = .ok (.cell e, h') ∧ (h'.cells e).tag = tagError := by
  obtain ⟨e, h', hal, -, -, -, hcell, -⟩ := allocCell_spec hok hroom
    fun _ => ⟨.ofNat errSyntax, .null, tagError⟩
  refine ⟨e, h', ?_, by rw [hcell]⟩
  have hlen' : (toInt32 t.length).toNat = 0 := by rw [hlen]; decide
  have htop : (ReaderState.start junk).top = .ok .null := by
    rw [← hnull]
    rfl
  unfold readString
  rw [hlen', List.take_zero]
  change readResult (.start junk) h = _
  unfold readResult
  rw [if_neg (by simp [ReaderState.start, Pst.isError]), htop]
  change (h.allocError errSyntax >>= _) = _
  rw [allocError, hal]
  rfl

/-- With no cell left, the root cannot be made. -/
theorem readString_exit {junk : Junk} {h : Heap} {x : UInt8} (hroom : h.room = 0) :
    readString junk [x] h = .error .exit := by
  have hal : h.cellAlloc = .error .exit := by
    simp only [room] at hroom
    rw [cellAlloc, dif_neg (by omega), if_pos (by omega)]
  have hroot : ensureRoot (.start junk) h = .error .exit := by
    rw [ensureRoot, if_pos (show (ReaderState.start junk).cell = .null from rfl), allocNil, allocCons,
      allocCell, hal]
    rfl
  have hlen : (toInt32 [x].length).toNat = 1 := by
    rw [toInt32_of_lt (by simp)]
    rfl
  unfold readString
  rw [hlen]
  change (readChars [x] (.start junk) h >>= _) = _
  rw [readChars, readChar, hroot]
  rfl

/-- A byte literal of `n` zero bytes. -/
def zeroBytesText (n : ℕ) : List UInt8 := lbracket :: (List.replicate (2 * n) 48 ++ [rbracket])

theorem zeroBytesText_lays (n : ℕ) : Lays [.bytes (List.replicate n 0)] (zeroBytesText n) := by
  have hnibbles : nibbles (List.replicate n 0) = List.replicate (2 * n) 0 := by
    induction n with
    | zero => rfl
    | succ n ih =>
      rw [show 2 * (n + 1) = 2 * n + 1 + 1 by ring, List.replicate_succ, List.replicate_succ,
        List.replicate_succ, ← ih]
      rfl
  refine Lays.bytes (t := List.replicate (2 * n) 48) Gap.nil ⟨?_, ?_⟩ (Lays.nil Gap.nil)
  · intro c hc
    rw [List.eq_of_mem_replicate hc]
    decide
  · rw [List.filter_replicate_of_pos (by decide), List.map_replicate, hnibbles]
    rfl

/-- A text of `n` spaces and then the numeral `5`. -/
def spacesText (n : ℕ) : List UInt8 := List.replicate n space ++ [53]

theorem spacesText_lays (n : ℕ) : Lays [.int 5] (spacesText n) := by
  have hgap : Gap (List.replicate n space) := by
    induction n with
    | zero => exact Gap.nil
    | succ n ih => rw [List.replicate_succ]; exact Gap.ws rfl ih
  exact Lays.int (t := [53]) hgap (Or.inl ⟨isDigits_of_all (by simp) rfl, rfl⟩)
    (Lays.nil Gap.nil)
    fun c cs h => by cases h

/-- A heap whose `MAX_CELLS` cells are all in use. -/
def fullHeap : Heap := { Heap.init with cellsUsed := maxCells }

/-- The limits of `readString_layout` are real: a byte literal
    of `2 ^ 28` bytes writes through a failed reallocation, a text of `2 ^ 31`
    characters reads as a syntax error, and a full heap ends the program. -/
theorem readString_layout_limits :
    (Lays [.bytes (List.replicate (2 ^ 28) 0)] (zeroBytesText (2 ^ 28)) ∧
      readString ⟨fun _ => .null, 0, 0⟩ (zeroBytesText (2 ^ 28)) Heap.init = .error .fault) ∧
    (Lays [.int 5] (spacesText (2 ^ 31 - 1)) ∧
      ∃ e h', readString ⟨fun _ => .null, 0, 0⟩ (spacesText (2 ^ 31 - 1)) Heap.init =
        .ok (.cell e, h') ∧ (h'.cells e).tag = tagError) ∧
    (Lays [.int 5] (spacesText 0) ∧
      readString ⟨fun _ => .null, 0, 0⟩ (spacesText 0) fullHeap = .error .exit) := by
  refine ⟨⟨zeroBytesText_lays _, ?_⟩, ⟨spacesText_lays _, ?_⟩, spacesText_lays _, ?_⟩
  · exact readString_bytes_too_long init_freeListOk (by decide) (by omega)
      (by simp only [List.length_singleton]; omega)
  · refine readString_text_too_long init_freeListOk (by decide) rfl ?_
    rw [spacesText, List.length_append, List.length_replicate]
    rfl
  · exact readString_exit rfl

end Interim.Reader
