import Interim.Writer.Dotted

/-!
# Trees that print alike

A dotted tail inside a list is printed in parentheses of its own (lines 61–65
of `sledge/writer.c`), so `(x … y . z)` looks like `(x … (y . z))`, and `%s`
cuts a string at its first zero. `Node.regroup` makes both changes to a tree.

* `text_eq_iff` — trees have the same text exactly when they are equal after
  `regroup`.
* `prints_apart_iff` — when different trees print differently.
* `text_injective` — they do if no list has a dotted tail and no string a zero.
-/

namespace Interim.Writer

open Heap Reader

/-- `.` -/
abbrev dot : UInt8 := 46

/-! ## Trees up to what print shows -/

/-- The tree with the empty list and the symbol `nil` made one. -/
def Node.identify : Node → Node
  | .nil => .sym (ascii "nil")
  | .cons a d => .cons a.identify d.identify
  | t => t

/-- The tree as it looks in print: the dotted tail of a list is a pair at the
    end of the list, the empty list is a symbol except at the end of a list,
    strings end at their first zero. -/
def Node.regroup : Node → Bool → Node
  | .int v, _ => .int v
  | .sym name, _ => .sym name
  | .str s, _ => .str (content s)
  | .nil, inList => if inList then .nil else .sym (ascii "nil")
  | .cons a d, inList =>
    let pair := .cons (a.regroup false) (d.regroup d.isCons)
    if inList ∧ d.isCons = false then .cons pair .nil else pair

/-- No list has a dotted tail after its first element and no string a zero. -/
def Node.Straight : Node → Bool → Prop
  | .str s, _ => 0 ∉ s
  | .cons a d, inList =>
    a.Straight false ∧ d.Straight d.isCons ∧ (inList = true → d.isCons = true)
  | _, _ => True

section Regroup

variable {a d : Node}

/-- A pair with a dotted tail has parentheses whether or not it is in a
    list. -/
theorem text_dotted (hd : d.isCons = false) (inList : Bool) : (Node.cons a d).text inList =
    lparen :: (a.text false ++ space :: dot :: space :: (d.text false ++ [rparen])) := by
  rw [Node.text, hd]
  simp [consText, ascii, lparen, rparen, space, dot]

theorem text_proper (hd : d.isCons = true) : (Node.cons a d).text false =
    lparen :: (a.text false ++ space :: (d.text true ++ [rparen])) := by
  rw [Node.text, hd]
  simp [consText, ascii, lparen, rparen, space]

theorem text_last (a : Node) : (Node.cons a .nil).text true = a.text false := by
  simp [Node.text, Node.isCons, consText]

theorem isCons_regroup (t : Node) : (t.regroup t.isCons).isCons = t.isCons := by
  cases t with
  | int | sym | str | nil => rfl
  | cons a d =>
    rw [Node.regroup]
    split_ifs <;> rfl

/-- Regrouping does not change the text. -/
theorem text_regroup (t : Node) : ∀ inList, (t.regroup inList).text inList = t.text inList := by
  induction t with
  | int | sym => exact fun _ => rfl
  | str s =>
    intro _
    rw [Node.regroup, Node.text, Node.text, content_eq_self (zero_notMem_content s)]
  | nil =>
    intro inList
    cases inList <;> rfl
  | cons a d iha ihd =>
    have hpair : ∀ inList, (Node.cons (a.regroup false) (d.regroup d.isCons)).text inList =
        (Node.cons a d).text inList := by
      intro inList
      rw [Node.text, isCons_regroup, iha, ihd, Node.text]
    intro inList
    rw [Node.regroup]
    split_ifs with htail
    · rw [htail.1, text_last, hpair, text_dotted htail.2, text_dotted htail.2]
    · exact hpair inList

/-- A straight tree is only changed in its empty lists. -/
theorem identify_regroup (t : Node) : ∀ inList, t.Straight inList →
    (t.regroup inList).identify = t.identify := by
  induction t with
  | int | sym => exact fun _ _ => rfl
  | str s =>
    intro _ hs
    rw [Node.regroup, content_eq_self hs]
  | nil =>
    intro inList _
    cases inList <;> rfl
  | cons a d iha ihd =>
    intro inList hs
    obtain ⟨ha, hd, htail⟩ := hs
    have hproper : ¬ (inList = true ∧ d.isCons = false) := by
      rintro ⟨hin, hd⟩
      rw [htail hin] at hd
      cases hd
    rw [Node.regroup, if_neg hproper, Node.identify, iha false ha, ihd _ hd, Node.identify]

end Regroup

/-! ## Where a text ends -/

section Words

/-- What may follow the text of a tree. -/
def Follows (rest : List UInt8) : Prop := ∀ c cs, rest = c :: cs → c = space ∨ c = rparen

theorem follows_nil : Follows [] := fun _ _ h => by cases h

theorem follows_space (l : List UInt8) : Follows (space :: l) := by
  rintro c cs h
  injection h with h
  exact Or.inl h.symm

theorem follows_rparen (l : List UInt8) : Follows (rparen :: l) := by
  rintro c cs h
  injection h with h
  exact Or.inr h.symm

/-- Words of `p` characters end where the text goes on with another one. -/
theorem word_append_inj {p : UInt8 → Bool} {x y r r' : List UInt8} (hx : ∀ c ∈ x, p c = true)
    (hy : ∀ c ∈ y, p c = true) (hr : ∀ c cs, r = c :: cs → p c = false)
    (hr' : ∀ c cs, r' = c :: cs → p c = false) (h : x ++ r = y ++ r') : x = y ∧ r = r' := by
  have hword : ∀ {x r : List UInt8}, (∀ c ∈ x, p c = true) →
      (∀ c cs, r = c :: cs → p c = false) → (x ++ r).takeWhile p = x := by
    intro x r hx hr
    rw [List.takeWhile_append_of_pos hx]
    cases r with
    | nil => simp
    | cons c cs => rw [List.takeWhile_cons_of_neg (by simp [hr c cs rfl]), List.append_nil]
  have hxy : x = y := by
    rw [← hword hx hr, h, hword hy hr']
  subst hxy
  exact ⟨rfl, List.append_cancel_left h⟩

/-- Characters of numbers and symbols. -/
def isWordChar (c : UInt8) : Bool := c ≠ space ∧ c ≠ rparen

theorem Follows.not_wordChar {r : List UInt8} (hr : Follows r) :
    ∀ c cs, r = c :: cs → isWordChar c = false := by
  intro c cs h
  obtain rfl | rfl := hr c cs h <;> decide

theorem isWordChar_of_isDigit {c : UInt8} (hc : isDigit c = true) : isWordChar c = true := by
  rw [isDigit_iff] at hc
  rw [isWordChar, decide_eq_true_eq]
  constructor <;> rintro rfl <;> revert hc <;> decide

theorem isWordChar_of_isAlpha {c : UInt8} (hc : isAlpha c = true) : isWordChar c = true := by
  rw [isAlpha, decide_eq_true_eq] at hc
  rw [isWordChar, decide_eq_true_eq]
  constructor <;> rintro rfl <;> revert hc <;> decide

theorem intText_wordChar (v : ℤ) : ∀ c ∈ intText v, isWordChar c = true := by
  intro c hc
  rw [intText] at hc
  split_ifs at hc
  · obtain rfl | hc := List.mem_cons.mp hc
    · decide
    · exact isWordChar_of_isDigit ((natText_isDigits _).2 c hc)
  · exact isWordChar_of_isDigit ((natText_isDigits _).2 c hc)

theorem natText_ne_minus (n : ℕ) (l : List UInt8) : natText n ≠ 45 :: l := by
  intro h
  have hmem : (45 : UInt8) ∈ natText n := by simp [h]
  exact absurd ((natText_isDigits n).2 45 hmem) (by decide)

theorem natText_injective {m n : ℕ} (h : natText m = natText n) : m = n := by
  rw [← decimal_natText m, h, decimal_natText]

theorem intText_injective {u v : ℤ} (h : intText u = intText v) : u = v := by
  unfold intText at h
  split_ifs at h
  · injection h with _ h
    have := natText_injective h
    omega
  · exact absurd h.symm (natText_ne_minus _ _)
  · exact absurd h (natText_ne_minus _ _)
  · have := natText_injective h
    omega

end Words

/-! ## First characters -/

/-- What a text starts with. -/
inductive Lead
  | paren
  | quote
  | letter
  | numeral
  deriving DecidableEq

/-- The kind of a first character. -/
def leadOf (c : UInt8) : Lead :=
  if c = lparen then .paren
  else if c = dquote then .quote
  else if isAlpha c then .letter
  else .numeral

/-- The kind of the first character of a tree's text. -/
def Node.lead : Node → Lead
  | .cons _ _ => .paren
  | .str _ => .quote
  | .sym _ | .nil => .letter
  | .int _ => .numeral

theorem leadOf_isAlpha {c : UInt8} (hc : isAlpha c = true) : leadOf c = .letter := by
  have h₁ : c ≠ lparen := by rintro rfl; revert hc; decide
  have h₂ : c ≠ dquote := by rintro rfl; revert hc; decide
  rw [leadOf, if_neg h₁, if_neg h₂, if_pos hc]

theorem leadOf_isDigit {c : UInt8} (hc : isDigit c = true) : leadOf c = .numeral := by
  have h₁ : c ≠ lparen := by rintro rfl; revert hc; decide
  have h₂ : c ≠ dquote := by rintro rfl; revert hc; decide
  have h₃ : isAlpha c ≠ true := by
    rw [isDigit_iff] at hc
    rw [isAlpha, Ne, decide_eq_true_eq]
    omega
  rw [leadOf, if_neg h₁, if_neg h₂, if_neg h₃]

theorem natText_lead (n : ℕ) : ∃ c cs, natText n = c :: cs ∧ isDigit c = true := by
  obtain ⟨hne, hdig⟩ := natText_isDigits n
  obtain ⟨c, cs, h⟩ := List.exists_cons_of_ne_nil hne
  exact ⟨c, cs, h, hdig c (by simp [h])⟩

/-- A text is not empty, and its first character tells what it is. -/
theorem text_lead {t : Node} (hp : t.Plain) :
    ∃ c cs, t.text false = c :: cs ∧ leadOf c = t.lead ∧ c ≠ rparen ∧ c ≠ dot := by
  cases t with
  | int v =>
    rw [Node.text, intText]
    split_ifs
    · exact ⟨45, _, rfl, rfl, by decide, by decide⟩
    · obtain ⟨c, cs, h, hc⟩ := natText_lead v.toInt.natAbs
      refine ⟨c, cs, h, leadOf_isDigit hc, ?_, ?_⟩ <;> rintro rfl <;> revert hc <;> decide
  | sym name =>
    obtain ⟨hne, halpha⟩ := hp
    obtain ⟨c, cs, rfl⟩ := List.exists_cons_of_ne_nil hne
    have hc := halpha c (by simp)
    refine ⟨c, cs, rfl, leadOf_isAlpha hc, ?_, ?_⟩ <;> rintro rfl <;> revert hc <;> decide
  | str s => exact ⟨dquote, _, rfl, rfl, by decide, by decide⟩
  | nil => exact ⟨110, _, rfl, rfl, by decide, by decide⟩
  | cons a d =>
    cases hd : d.isCons with
    | true =>
      rw [text_proper hd]
      exact ⟨lparen, _, rfl, rfl, by decide, by decide⟩
    | false =>
      rw [text_dotted hd]
      exact ⟨lparen, _, rfl, rfl, by decide, by decide⟩

/-! ## Decoding -/

/-- The text of `t` is not the beginning of the text of another tree. -/
def Decodes (t : Node) : Prop := ∀ ⦃t' : Node⦄ ⦃rest rest' : List UInt8⦄, t'.Plain →
  Follows rest → Follows rest' → t.text false ++ rest = t'.text false ++ rest' →
  t.regroup false = t'.regroup false ∧ rest = rest'

/-- The same for the tail of a list and its closing parenthesis. -/
def DecodesTail (t : Node) : Prop := ∀ ⦃t' : Node⦄ ⦃rest rest' : List UInt8⦄, t'.Plain →
  t.isCons = true → t'.isCons = true →
  t.text true ++ rparen :: rest = t'.text true ++ rparen :: rest' →
  t.regroup true = t'.regroup true ∧ rest = rest'

section Decoding

variable {t t' a d : Node}

theorem lead_eq {rest rest' : List UInt8} (hp : t.Plain) (hp' : t'.Plain)
    (h : t.text false ++ rest = t'.text false ++ rest') : t.lead = t'.lead := by
  obtain ⟨c, cs, htext, hlead, -⟩ := text_lead hp
  obtain ⟨c', cs', htext', hlead', -⟩ := text_lead hp'
  rw [htext, htext'] at h
  injection h with h _
  rw [← hlead, h, hlead']

/-- The text of a symbol or of the empty list. -/
theorem letter_text (hp : t.Plain) (ht : t.lead = .letter) :
    t.regroup false = .sym (t.text false) ∧ ∀ c ∈ t.text false, isWordChar c = true := by
  cases t with
  | sym name => exact ⟨rfl, fun c hc => isWordChar_of_isAlpha (hp.2 c hc)⟩
  | nil => exact ⟨rfl, List.all_eq_true.mp rfl⟩
  | int | str | cons => cases ht

theorem decodes_letter (hp : t.Plain) (ht : t.lead = .letter) : Decodes t := by
  intro t' rest rest' hp' hrest hrest' h
  have ht' : t'.lead = .letter := by rw [← lead_eq hp hp' h, ht]
  obtain ⟨hgroup, hword⟩ := letter_text hp ht
  obtain ⟨hgroup', hword'⟩ := letter_text hp' ht'
  obtain ⟨htext, hend⟩ := word_append_inj hword hword' hrest.not_wordChar hrest'.not_wordChar h
  rw [hgroup, hgroup', htext]
  exact ⟨rfl, hend⟩

theorem decodes_int (v : BitVec 64) : Decodes (.int v) := by
  intro t' rest rest' hp' hrest hrest' h
  have hlead := lead_eq (t := .int v) trivial hp' h
  cases t' with
  | int v' =>
    obtain ⟨htext, hend⟩ := word_append_inj (intText_wordChar _) (intText_wordChar _)
      hrest.not_wordChar hrest'.not_wordChar h
    have hv : v = v' := BitVec.eq_of_toInt_eq (intText_injective htext)
    rw [hv]
    exact ⟨rfl, hend⟩
  | sym | str | nil | cons => cases hlead

theorem decodes_str {s : List UInt8} (hp : (Node.str s).Plain) : Decodes (.str s) := by
  intro t' rest rest' hp' hrest hrest' h
  have hlead := lead_eq hp hp' h
  cases t' with
  | str s' =>
    have hquote : ∀ {s : List UInt8}, dquote ∉ s → ∀ c ∈ content s, decide (c ≠ dquote) = true := by
      intro s hs c hc
      rw [decide_eq_true_eq]
      rintro rfl
      exact hs ((List.takeWhile_prefix _).subset hc)
    have hstop : ∀ (rest : List UInt8) c cs, dquote :: rest = c :: cs →
        decide (c ≠ dquote) = false := by
      rintro rest c cs h
      injection h with h
      rw [← h]
      decide
    have hbody : content s ++ dquote :: rest = content s' ++ dquote :: rest' := by
      simpa [Node.text, ascii] using h
    obtain ⟨hs, hend⟩ := word_append_inj (hquote hp) (hquote hp') (hstop rest) (hstop rest') hbody
    rw [Node.regroup, Node.regroup, hs]
    exact ⟨rfl, (List.cons.inj hend).2⟩
  | int | sym | nil | cons => cases hlead

/-! ### Lists

A tail `cons a d` is printed as an element and what comes after it: with a
dotted `d` the whole pair is the element and nothing comes after it. -/

/-- The element that a tail starts with. -/
def element (a d : Node) : Node := if d.isCons then a else .cons a d

/-- The tail after it. -/
def remainder (d : Node) : Node := if d.isCons then d else .nil

/-- The text of a tail that is not the first one. -/
def spaced : Node → List UInt8
  | .nil => []
  | t => space :: t.text true

theorem tail_ne_nil (hp : (Node.cons a d).Plain) : (Node.cons a d).text true ≠ [] := by
  obtain ⟨c, cs, htext, -⟩ := text_lead hp.1
  rw [Node.text, htext]
  unfold consText
  split_ifs <;> simp [ascii]

theorem text_tail (hp : (Node.cons a d).Plain) :
    (Node.cons a d).text true = (element a d).text false ++ spaced (remainder d) := by
  unfold element remainder
  cases hd : d.isCons with
  | false => simp [text_dotted hd, spaced]
  | true =>
    cases d with
    | nil => simp [text_last, spaced]
    | cons a' d' =>
      have hne := tail_ne_nil hp.2
      rw [Node.text, hd]
      simp [consText, hne, spaced, ascii]
    | int | sym | str => cases hd

theorem regroup_tail (a d : Node) : (Node.cons a d).regroup true =
    .cons ((element a d).regroup false) ((remainder d).regroup true) := by
  unfold element remainder
  cases hd : d.isCons with
  | false => simp [Node.regroup, hd]
  | true => simp [Node.regroup, hd]

theorem element_plain (hp : (Node.cons a d).Plain) : (element a d).Plain := by
  unfold element
  split_ifs
  · exact hp.1
  · exact hp

theorem remainder_plain (hp : (Node.cons a d).Plain) : (remainder d).Plain := by
  unfold remainder
  split_ifs
  · exact hp.2
  · trivial

theorem isCons_remainder (d : Node) : (remainder d).isCons = true := by
  unfold remainder
  split_ifs with hd
  · exact hd
  · rfl

/-- A tail starts with none of `)` and `.`, unless it is empty. -/
theorem tail_lead (hp : (Node.cons a d).Plain) :
    ∃ c cs, (Node.cons a d).text true = c :: cs ∧ c ≠ rparen ∧ c ≠ dot := by
  obtain ⟨c, cs, htext, -, hc⟩ := text_lead (element_plain hp)
  rw [text_tail hp, htext]
  exact ⟨c, _, rfl, hc⟩

theorem tail_ne_dot (hp : t.Plain) (ht : t.isCons = true) (l l' : List UInt8) :
    t.text true ++ rparen :: l ≠ dot :: l' := by
  intro h
  cases t with
  | nil => exact absurd (List.cons.inj h).1 (by decide)
  | cons a d =>
    obtain ⟨c, cs, htext, -, hdot⟩ := tail_lead hp
    rw [htext] at h
    exact hdot (List.cons.inj h).1
  | int | sym | str => cases ht

theorem follows_spaced (t : Node) (l : List UInt8) : Follows (spaced t ++ rparen :: l) := by
  cases t with
  | nil => exact follows_rparen l
  | int | sym | str | cons => exact follows_space _

theorem decodesTail_nil : DecodesTail .nil := by
  intro t' rest rest' hp' _ ht' h
  cases t' with
  | nil => exact ⟨rfl, (List.cons.inj h).2⟩
  | cons a d =>
    obtain ⟨c, cs, htext, hparen, -⟩ := tail_lead hp'
    rw [htext] at h
    exact absurd (List.cons.inj h).1.symm hparen
  | int | sym | str => cases ht'

/-- The pair `(a . d)`, or a list from its first element on. -/
theorem decodes_cons (hp : (Node.cons a d).Plain) (ha : Decodes a) (hd : Decodes d)
    (htail : DecodesTail d) : Decodes (.cons a d) := by
  intro t' rest rest' hp' hrest hrest' h
  have hlead := lead_eq hp hp' h
  cases t' with
  | cons a' d' =>
    cases hproper : d.isCons with
    | true =>
      cases hproper' : d'.isCons with
      | true =>
        simp only [text_proper hproper, text_proper hproper', List.cons_append, List.append_assoc,
          List.cons.injEq, true_and] at h
        obtain ⟨hfirst, h⟩ := ha hp'.1 (follows_space _) (follows_space _) h
        obtain ⟨hlast, hend⟩ := htail hp'.2 hproper hproper' (List.cons.inj h).2
        simp only [Node.regroup, hproper, hproper', hfirst, hlast]
        exact ⟨trivial, hend⟩
      | false =>
        simp only [text_proper hproper, text_dotted hproper', List.cons_append, List.append_assoc,
          List.cons.injEq, true_and] at h
        obtain ⟨-, h⟩ := ha hp'.1 (follows_space _) (follows_space _) h
        exact absurd (List.cons.inj h).2 (tail_ne_dot hp.2 hproper _ _)
    | false =>
      cases hproper' : d'.isCons with
      | true =>
        simp only [text_dotted hproper, text_proper hproper', List.cons_append, List.append_assoc,
          List.cons.injEq, true_and] at h
        obtain ⟨-, h⟩ := ha hp'.1 (follows_space _) (follows_space _) h
        exact absurd (List.cons.inj h).2.symm (tail_ne_dot hp'.2 hproper' _ _)
      | false =>
        simp only [text_dotted hproper, text_dotted hproper', List.cons_append, List.append_assoc,
          List.cons.injEq, true_and] at h
        obtain ⟨hfirst, h⟩ := ha hp'.1 (follows_space _) (follows_space _) h
        simp only [List.cons.injEq, true_and] at h
        obtain ⟨hlast, hend⟩ := hd hp'.2 (follows_rparen _) (follows_rparen _) h
        simp only [Node.regroup, hproper, hproper', hfirst, hlast]
        exact ⟨trivial, (List.cons.inj hend).2⟩
  | int | sym | str | nil => cases hlead

theorem decodesTail_cons (hp : (Node.cons a d).Plain) (hfirst : Decodes (element a d))
    (hafter : DecodesTail (remainder d)) : DecodesTail (.cons a d) := by
  intro t' rest rest' hp' _ ht' h
  cases t' with
  | nil =>
    obtain ⟨c, cs, htext, hparen, -⟩ := tail_lead hp
    rw [htext] at h
    exact absurd (List.cons.inj h).1 hparen
  | cons a' d' =>
    rw [text_tail hp, text_tail hp', List.append_assoc, List.append_assoc] at h
    obtain ⟨hsame, h⟩ := hfirst (element_plain hp') (follows_spaced _ _) (follows_spaced _ _) h
    have hcons := isCons_remainder d
    have hcons' := isCons_remainder d'
    have hplain := remainder_plain hp'
    rw [regroup_tail, regroup_tail, hsame]
    generalize remainder d = r at h hafter hcons
    generalize remainder d' = r' at h hcons' hplain
    cases r with
    | nil =>
      cases r' with
      | nil => exact ⟨rfl, (List.cons.inj h).2⟩
      | cons => exact absurd (List.cons.inj h).1 (by decide)
      | int | sym | str => cases hcons'
    | cons =>
      cases r' with
      | nil => exact absurd (List.cons.inj h).1 (by decide)
      | cons =>
        obtain ⟨hrest, hend⟩ := hafter hplain hcons hcons' (List.cons.inj h).2
        rw [hrest]
        exact ⟨rfl, hend⟩
      | int | sym | str => cases hcons'
    | int | sym | str => cases hcons
  | int | sym | str => cases ht'

/-- Texts can be cut apart, by induction on the tree. -/
theorem decodes (t : Node) (hp : t.Plain) : Decodes t ∧ DecodesTail t := by
  induction t with
  | int v => exact ⟨decodes_int v, fun _ _ _ _ ht => by cases ht⟩
  | sym name => exact ⟨decodes_letter hp rfl, fun _ _ _ _ ht => by cases ht⟩
  | str s => exact ⟨decodes_str hp, fun _ _ _ _ ht => by cases ht⟩
  | nil => exact ⟨decodes_letter hp rfl, decodesTail_nil⟩
  | cons a d iha ihd =>
    obtain ⟨ha, -⟩ := iha hp.1
    obtain ⟨hd, htail⟩ := ihd hp.2
    have hpair := decodes_cons hp ha hd htail
    refine ⟨hpair, decodesTail_cons hp ?_ ?_⟩
    · unfold element
      split_ifs
      · exact ha
      · exact hpair
    · unfold remainder
      split_ifs
      · exact htail
      · exact decodesTail_nil

/-- Trees have the same text exactly when they are equal after `regroup`. -/
theorem text_eq_iff (hp : t.Plain) (hp' : t'.Plain) :
    t.text false = t'.text false ↔ t.regroup false = t'.regroup false := by
  constructor
  · intro h
    obtain ⟨hdecode, -⟩ := decodes t hp
    exact (hdecode hp' follows_nil follows_nil (by rw [h])).1
  · intro h
    rw [← text_regroup t, h, text_regroup t']

/-- Without dotted tails and zeros different trees have different texts. -/
theorem text_injective (hp : t.Plain) (hp' : t'.Plain) (hs : t.Straight false)
    (hs' : t'.Straight false) (h : t.text false = t'.text false) : t.identify = t'.identify := by
  rw [← identify_regroup t false hs, (text_eq_iff hp hp').mp h, identify_regroup t' false hs']

end Decoding

/-! ## `lisp_write` -/

/-- A call of `lisp_write`: the heap, the cell to print, the buffer and the
    size it is said to have. -/
structure PrintCall where
  /-- contents of fresh temporary buffers -/
  junk : ℕ → UInt8
  heap : Heap
  /-- allowed nesting of calls -/
  fuel : ℕ
  cell : Word
  buf : List UInt8
  bufsize : ℕ

/-- The call leaves `text` in the buffer. -/
def PrintCall.Prints (p : PrintCall) (text : List UInt8) : Prop :=
  ∃ out, lispWrite p.junk p.heap p.fuel p.cell p.buf p.bufsize = .ok out ∧
    cStringAt out 0 = .ok text

/-- The call is on a tree of integers, symbols with alphabetic names, strings
    without quotes and conses, and its text fits. -/
structure PrintCall.On (p : PrintCall) (t : Node) : Prop where
  holds : Holds p.heap t p.cell
  plain : t.Plain
  fits : t.Fits false p.bufsize
  calls : t.calls ≤ p.fuel
  small : p.bufsize < 2 ^ 31
  room : p.bufsize ≤ p.buf.length

theorem PrintCall.On.prints {p : PrintCall} {t : Node} (hp : p.On t) : p.Prints (t.text false) :=
  write_text p.junk t p.buf false hp.holds hp.plain hp.fits hp.calls hp.small hp.room

theorem PrintCall.Prints.unique {p : PrintCall} {x y : List UInt8} (hx : p.Prints x)
    (hy : p.Prints y) : x = y := by
  obtain ⟨out, hout, hread⟩ := hx
  obtain ⟨out', hout', hread'⟩ := hy
  rw [hout] at hout'
  injection hout' with hout'
  rw [← hout', hread] at hread'
  injection hread'

/-- Two trees are printed, and they print alike only if they are equal exactly
    when they do not become equal by moving dotted tails into pairs of their
    own and cutting strings at zeros. -/
theorem prints_apart_iff {p p' : PrintCall} {t t' : Node} (hp : p.On t) (hp' : p'.On t') :
    (∃ text, p.Prints text) ∧ (∃ text, p'.Prints text) ∧
      ((∀ text, p.Prints text → p'.Prints text → t.identify = t'.identify) ↔
        (t.regroup false = t'.regroup false → t.identify = t'.identify)) := by
  refine ⟨⟨_, hp.prints⟩, ⟨_, hp'.prints⟩, ?_⟩
  constructor
  · intro hapart hgroup
    have htext := (text_eq_iff hp.plain hp'.plain).mpr hgroup
    refine hapart _ hp.prints ?_
    rw [htext]
    exact hp'.prints
  · intro hgroup text hprints hprints'
    have htext : t.text false = t'.text false := by
      rw [hp.prints.unique hprints, hp'.prints.unique hprints']
    exact hgroup ((text_eq_iff hp.plain hp'.plain).mp htext)

/-- A heap with `(1 2 . 3)` at cell 0 and `(1 (2 . 3))` at cell 2. -/
def dottedHeap : Heap :=
  { Heap.init with
    cells := fun i =>
      if i = 0 then ⟨.cell 4, .cell 1, tagCons⟩
      else if i = 1 then ⟨.cell 5, .cell 6, tagCons⟩
      else if i = 2 then ⟨.cell 4, .cell 3, tagCons⟩
      else if i = 3 then ⟨.cell 1, .cell 7, tagCons⟩
      else if i = 4 then ⟨.int 1, .null, tagInt⟩
      else if i = 5 then ⟨.int 2, .null, tagInt⟩
      else if i = 6 then ⟨.int 3, .null, tagInt⟩
      else ⟨.null, .null, tagCons⟩
    cellsUsed := 8 }

/-- `(1 2 . 3)`. -/
def dottedTail : Node := .cons (.int 1) (.cons (.int 2) (.int 3))

/-- `(1 (2 . 3))`. -/
def lastPair : Node := .cons (.int 1) (.cons (.cons (.int 2) (.int 3)) .nil)

/-- `lisp_write` of a cell of `dottedHeap` into 100 bytes. -/
def dottedCall (i : ℕ) : PrintCall :=
  ⟨fun _ => 1, dottedHeap, 20, .cell i, List.replicate 100 1, 100⟩

theorem dottedCall_on : (dottedCall 0).On dottedTail where
  holds := ⟨0, rfl, rfl, ⟨4, rfl, rfl, rfl⟩, 1, rfl, rfl, ⟨5, rfl, rfl, rfl⟩, 6, rfl, rfl, rfl⟩
  plain := ⟨trivial, trivial, trivial⟩
  fits := by
    simp [dottedTail, dottedCall, Node.Fits, Node.text, consText, Node.isCons, intText, natText,
      ascii, tmpBufSize]
  calls := by decide
  small := by decide
  room := by simp [dottedCall]

theorem lastPairCall_on : (dottedCall 2).On lastPair where
  holds := ⟨2, rfl, rfl, ⟨4, rfl, rfl, rfl⟩, 3, rfl, rfl,
    ⟨1, rfl, rfl, ⟨5, rfl, rfl, rfl⟩, 6, rfl, rfl, rfl⟩, 7, rfl, rfl⟩
  plain := ⟨trivial, ⟨trivial, trivial⟩, trivial⟩
  fits := by
    simp [lastPair, dottedCall, Node.Fits, Node.text, consText, Node.isCons, intText, natText,
      ascii, tmpBufSize]
  calls := by decide
  small := by decide
  room := by simp [dottedCall]

theorem onePairCall_on : (dottedCall 1).On (.cons (.int 2) (.int 3)) where
  holds := ⟨1, rfl, rfl, ⟨5, rfl, rfl, rfl⟩, 6, rfl, rfl, rfl⟩
  plain := ⟨trivial, trivial⟩
  fits := by
    simp [dottedCall, Node.Fits, Node.text, consText, Node.isCons, intText, natText, ascii,
      tmpBufSize]
  calls := by decide
  small := by decide
  room := by simp [dottedCall]

/-- `(1 2 . 3)` and `(2 . 3)` print differently. -/
theorem prints_apart_pair :
    ¬ ∃ text, (dottedCall 0).Prints text ∧ (dottedCall 1).Prints text := by
  rintro ⟨text, htext, htext'⟩
  obtain ⟨-, -, hiff⟩ := prints_apart_iff dottedCall_on onePairCall_on
  have hsame := hiff.mpr (fun hgroup => absurd hgroup (by decide)) text htext htext'
  exact absurd hsame (by decide)

/-- `(1 2 . 3)` and `(1 (2 . 3))` both print as `(1 (2 . 3))`. -/
theorem prints_alike_dotted :
    ¬ ∀ (p p' : PrintCall) (t t' : Node), p.On t → p'.On t' →
      ∀ text, p.Prints text → p'.Prints text → t.identify = t'.identify := by
  intro hall
  have htext : dottedTail.text false = lastPair.text false := by
    simp [dottedTail, lastPair, Node.text, consText, Node.isCons, intText, natText, ascii]
  have hsame := hall _ _ _ _ dottedCall_on lastPairCall_on (dottedTail.text false)
    dottedCall_on.prints (by rw [htext]; exact lastPairCall_on.prints)
  exact absurd hsame (by decide)

end Interim.Writer
