import Interim.Sledge.MainLoop

/-!
# The input loop and the reader

When the loop of `main` hands the reader one datum at a time. The loop does
not know about strings, so the answer depends on where parentheses and
semicolons stand.

* `accumulator_agrees_iff` — the exact condition, for every text.
* `kept_of_comments` — cutting the lines at `;` is harmless when the reader
  starts a comment there.
* `ReadsAs.no_semicolon` — and never harmless when a `;` belongs to a string
  or a symbol.
-/

namespace Interim.Sledge

open Reader

/-! ## What the loop keeps of a line -/

/-- A line up to its first `;`. -/
def cut (line : List UInt8) : List UInt8 := line.takeWhile (· ≠ semicolon)

/-- The `(` less the `)` of a text. -/
def balance (text : List UInt8) : ℤ := text.count lparen - text.count rparen

theorem recognizeParens_eq : ∀ (line : List UInt8) (parens : ℤ),
    recognizeParens line parens = (cut line, parens + balance (cut line))
  | [], parens => by simp [recognizeParens, cut, balance]
  | c :: cs, parens => by
    rw [recognizeParens]
    by_cases hc : c = semicolon
    · simp [hc, cut, balance]
    · rw [if_neg hc]
      simp only [recognizeParens_eq cs]
      have hcut : cut (c :: cs) = c :: cut cs := by simp [cut, hc]
      rw [hcut]
      refine Prod.ext rfl ?_
      simp only [balance, List.count_cons]
      by_cases hl : c = lparen
      · subst hl
        simp
        ring
      · by_cases hr : c = rparen
        · subst hr
          simp [hl]
          ring
        · simp [hl, hr]

/-! ## The condition -/

/-- At the end of each line, more `(` than `)` were kept so far if and only if
    a list is open; `parens` were before. -/
def Balanced : ℤ → List (List UInt8) → List Event → Prop
  | parens, line :: lines, e :: es =>
    let parens := parens + balance (cut line)
    (match e with
      | .between => True
      | .inside => 0 < parens
      | .datum _ => parens ≤ 0) ∧ Balanced parens lines es
  | _, _, _ => True

/-- A line between two data is a bare newline, and a datum does not end with a
    `)` that is the whole last line of a text without a final newline. -/
def Sized : List (List UInt8) → List Event → Prop
  | line :: lines, e :: es =>
    (match e with
      | .between => line.length ≤ 1
      | .inside => True
      | .datum _ => 1 < line.length) ∧ Sized lines es
  | _, _ => True

/-- The lines of a datum, cut and joined, fit `in_buffer` and still read as the
    datum; `buffer` are its lines so far. -/
def Kept (hex : Bool) : List UInt8 → List (List UInt8) → List Event → Prop
  | buffer, line :: lines, e :: es =>
    (buffer ++ cut line).length + 2 ≤ inBufferSize ∧
      match e with
      | .between => Kept hex [] lines es
      | .inside => Kept hex (buffer ++ cut line) lines es
      | .datum d => ReadsAs hex (buffer ++ cut line ++ [lf]) d ∧ Kept hex [] lines es
  | _, _, _ => True

/-! ## Blank lines -/

section Blank

variable {a b : AbsState} {c : UInt8} {cs line : List UInt8} {n : ℕ} {hex : Bool}

theorem not_blank_push (d : Datum) : ¬ Blank (a.push d) := by
  simp [Blank, AbsState.push]

theorem not_blank_close (hclose : a.close = some b) : ¬ Blank b := by
  unfold AbsState.close at hclose
  split at hclose
  · cases hclose
  · cases hclose
    simp [Blank]

theorem Blank.of_absNum {tok : BitVec 64 → Token} {add : BitVec 64 → BitVec 64 → BitVec 64}
    {v : BitVec 64} (htok : ∀ v, tok v ≠ .idle ∧ tok v ≠ .comment) (ha : a.tok = tok v)
    (hstep : absNum a tok add v c = some b) : ¬ Blank b := by
  unfold absNum at hstep
  split at hstep
  · cases hstep
    rintro ⟨-, -, h | h⟩
    · exact (htok _).1 h
    · exact (htok _).2 h
  split_ifs at hstep
  · cases hstep
    exact not_blank_push _
  · exact not_blank_close hstep
  · cases hstep
    rintro ⟨-, -, h | h⟩
    · exact (htok v).1 (ha.symm.trans h)
    · exact (htok v).2 (ha.symm.trans h)

/-- The reader cannot forget what it has begun. -/
theorem Blank.of_step (hstep : absStep a c = some b) (hb : Blank b) :
    Blank a ∧ (a.tok = .idle → c ≠ semicolon → isWs c = true) := by
  unfold absStep at hstep
  cases htok : a.tok with
  | idle =>
    simp only [htok, absAtom] at hstep
    split_ifs at hstep with hws hsemi
    · cases hstep
      exact ⟨hb, fun _ _ => hws⟩
    · cases hstep
      exact ⟨⟨hb.1, hb.2.1, .inl htok⟩, fun _ h => absurd hsemi h⟩
    · cases hstep
      simp [Blank] at hb
    · cases hstep
      simp [Blank] at hb
    · cases hstep
      simp [Blank] at hb
    · exact absurd hb (not_blank_close hstep)
    · cases hstep
      simp [Blank] at hb
    · cases hstep
      simp [Blank] at hb
    · cases hstep
      simp [Blank] at hb
  | comment =>
    simp only [htok, Option.some.injEq] at hstep
    refine ⟨⟨?_, ?_, .inr htok⟩, by simp⟩
    · have := hb.1
      rw [← hstep] at this
      split_ifs at this <;> exact this
    · have := hb.2.1
      rw [← hstep] at this
      split_ifs at this <;> exact this
  | num v =>
    simp only [htok] at hstep
    exact absurd hb (Blank.of_absNum (by simp) htok hstep)
  | numNeg v =>
    simp only [htok] at hstep
    exact absurd hb (Blank.of_absNum (by simp) htok hstep)
  | sym name =>
    simp only [htok] at hstep
    split_ifs at hstep
    · exact absurd hb (not_blank_close hstep)
    · cases hstep
      exact absurd hb (not_blank_push _)
    · cases hstep
      simp [Blank] at hb
    · cases hstep
      simp [Blank] at hb
  | str t =>
    simp only [htok] at hstep
    split_ifs at hstep
    · cases hstep
      exact absurd hb (not_blank_push _)
    · cases hstep
      simp [Blank] at hb
  | bytes ns =>
    simp only [htok] at hstep
    split_ifs at hstep
    · cases hstep
      exact absurd hb (not_blank_push _)
    · cases hstep
      simp [Blank] at hb
    · cases hstep
      simp [Blank, htok] at hb

theorem absStep_ws (htok : a.tok = .idle) (hws : isWs c = true) : absStep a c = some a := by
  simp [absStep, htok, absAtom, hws]

theorem absStep_semicolon (htok : a.tok = .idle) :
    absStep a semicolon = some { a with tok := .comment } := by
  have hws : isWs semicolon = false := by decide
  simp [absStep, htok, absAtom, hws]

theorem cut_cons (hc : c ≠ semicolon) : cut (c :: cs) = c :: cut cs := by
  simp [cut, hc]

theorem balance_cons_ws (hws : isWs c = true) : balance (c :: cs) = balance cs := by
  rcases isWs_iff.mp hws with rfl | rfl | rfl <;> rfl

/-- A run that ends blank started blank, and the loop sees no parenthesis in
    it. -/
theorem Blank.of_runs (hrun : Runs a cs n b) (hb : Blank b) :
    Blank a ∧ (a.tok = .idle → balance (cut cs) = 0) := by
  induction hrun with
  | nil => exact ⟨hb, fun _ => rfl⟩
  | @cons a a' b x xs m hstep _ _ ih =>
    obtain ⟨hblank, hbal⟩ := ih hb
    obtain ⟨ha, hws⟩ := Blank.of_step hstep hblank
    refine ⟨ha, ?_⟩
    intro htok
    by_cases hx : x = semicolon
    · simp [cut, hx, balance]
    · have hxws := hws htok hx
      rw [absStep_ws htok hxws, Option.some.injEq] at hstep
      subst hstep
      rw [cut_cons hx, balance_cons_ws hxws]
      exact hbal htok

end Blank

/-! ## One line -/

section Feed

variable {hex : Bool} {a b : AbsState} {s : LoopState} {line : List UInt8}
  {lines : List (List UInt8)} {es : List Event} {e : Event} {n : ℕ}

/-- The loop and the reader before a line: a list is open and parentheses are
    missing, or neither. -/
def Link (hex : Bool) (a : AbsState) (s : LoopState) : Prop :=
  (a.outer ≠ [] ∧ 0 < s.parens) ∨ (a = .start hex ∧ s.parens ≤ 0 ∧ s.buffer = [])

/-- The loop does the right thing from state `s` on. -/
def AgreesFrom (hex : Bool) (s : LoopState) (lines : List (List UInt8)) (es : List Event) : Prop :=
  ∃ calls, feedLines s lines = .ok calls ∧ List.Forall₂ (Matches hex) calls es

theorem feedLine_eq :
    feedLine s line =
      if (s.buffer ++ cut line).length + 2 ≤ inBufferSize then
        if 0 < s.parens + balance (cut line) then
          .ok (⟨s.buffer ++ cut line, s.parens + balance (cut line)⟩, none)
        else .ok (⟨[], s.parens + balance (cut line)⟩,
          if line.length > 1 then some (s.buffer ++ cut line ++ [lf]) else none)
      else .error .fault := by
  simp only [feedLine, recognizeParens_eq, List.length_append, gt_iff_lt]

theorem agreesFrom_of_feedLine {s' : LoopState} {call : Option (List UInt8)}
    (hfeed : feedLine s line = .ok (s', call)) :
    AgreesFrom hex s (line :: lines) (e :: es) ↔ Matches hex call e ∧ AgreesFrom hex s' lines es := by
  unfold AgreesFrom
  rw [feedLines, hfeed]
  constructor
  · rintro ⟨calls, hcalls, hall⟩
    obtain ⟨rest, hrest, hcons⟩ := bind_ok.mp (show (feedLines s' lines >>= _) = _ from hcalls)
    cases hcons
    obtain ⟨h, ht⟩ := List.forall₂_cons.mp hall
    exact ⟨h, rest, hrest, ht⟩
  · rintro ⟨h, rest, hrest, ht⟩
    refine ⟨call :: rest, ?_, List.forall₂_cons.mpr ⟨h, ht⟩⟩
    show (feedLines s' lines >>= _) = _
    exact bind_ok.mpr ⟨rest, hrest, rfl⟩

/-- A line that does not fit ends the loop. -/
theorem not_agreesFrom_of_fault (hfeed : feedLine s line = .error .fault) :
    ¬ AgreesFrom hex s (line :: lines) (e :: es) := by
  rintro ⟨calls, hcalls, -⟩
  rw [feedLines, hfeed] at hcalls
  cases hcalls

/-- A line of one character that leaves a list open is an empty one. -/
theorem line_eq_lf (hlines : IsLines (line :: lines)) (hne : lines ≠ []) (hlen : line.length ≤ 1) :
    line = [lf] := by
  obtain ⟨hnil, -, -, -, hlast, -⟩ := hlines
  match line, hnil, hlen, hlast hne with
  | [c], _, _, h => simpa using h

theorem runs_lf (hrun : Runs (.start hex) [lf] n b) : b.outer = [] := by
  cases hrun with
  | cons hstep _ hrest =>
    cases hrest
    cases hstep
    rfl

/-- The loop agrees with the reader from a linked state on exactly when the
    rest of the text meets the condition. -/
theorem agreesFrom_iff (hdata : Data hex a lines es) :
    ∀ s : LoopState, IsLines lines → Link hex a s →
      (AgreesFrom hex s lines es ↔
        Balanced s.parens lines es ∧ Sized lines es ∧ Kept hex s.buffer lines es) := by
  induction hdata with
  | nil =>
    intro s _ _
    simp [AgreesFrom, feedLines, Balanced, Sized, Kept]
  | @between a line lines es n hrun hblank hrest ih =>
    intro s hlines hlink
    obtain ⟨-, hparens, hbuf⟩ : AbsState.start hex = .start hex ∧ s.parens ≤ 0 ∧ s.buffer = [] :=
      hlink.resolve_left fun h => h.1 rfl
    have hbal : balance (cut line) = 0 := (Blank.of_runs hrun hblank).2 rfl
    have hshort : (s.buffer ++ cut line).length + 2 ≤ inBufferSize := by
      have hcut : (cut line).length ≤ line.length := (List.takeWhile_prefix _).length_le
      have hlen := hlines.2.1
      rw [hbuf, List.nil_append]
      simp only [bufsz, inBufferSize] at hlen ⊢
      omega
    have hfeed : feedLine s line = .ok (⟨[], s.parens⟩,
        if line.length > 1 then some (s.buffer ++ cut line ++ [lf]) else none) := by
      rw [feedLine_eq, if_pos hshort, hbal, add_zero, if_neg (by omega)]
    rw [agreesFrom_of_feedLine hfeed, ih ⟨[], s.parens⟩ hlines.2.2.2.2.2 (.inr ⟨rfl, hparens, rfl⟩)]
    simp only [Balanced, Sized, Kept, hbal, add_zero, true_and, hshort]
    by_cases hlen : line.length > 1
    · simp [hlen, Matches]
    · have hone : line.length ≤ 1 := not_lt.mp hlen
      simp only [hlen, ↓reduceIte, Matches, true_and, hone]
  | @inside a b line lines es n hrun hopen hrest ih =>
    intro s hlines hlink
    have hne : lines ≠ [] := by
      rintro rfl
      cases hrest
      exact hopen rfl
    by_cases hfit : (s.buffer ++ cut line).length + 2 ≤ inBufferSize
    · by_cases hpos : 0 < s.parens + balance (cut line)
      · have hfeed : feedLine s line =
            .ok (⟨s.buffer ++ cut line, s.parens + balance (cut line)⟩, none) := by
          rw [feedLine_eq, if_pos hfit, if_pos hpos]
        rw [agreesFrom_of_feedLine hfeed, ih _ hlines.2.2.2.2.2 (.inl ⟨hopen, hpos⟩)]
        simp only [Balanced, Sized, Kept, hfit, hpos, true_and, Matches]
      · -- the list is open but the loop does not see it
        refine iff_of_false ?_ fun h => hpos h.1.1
        have hfeed : feedLine s line = .ok (⟨[], s.parens + balance (cut line)⟩,
            if line.length > 1 then some (s.buffer ++ cut line ++ [lf]) else none) := by
          rw [feedLine_eq, if_pos hfit, if_neg hpos]
        rw [agreesFrom_of_feedLine hfeed]
        rintro ⟨hmatch, -⟩
        by_cases hlen : line.length > 1
        · simp [hlen, Matches] at hmatch
        · have hline := line_eq_lf hlines hne (not_lt.mp hlen)
          rcases hlink with ⟨-, hp⟩ | ⟨rfl, -, -⟩
          · have hzero : balance (cut [lf]) = 0 := by decide
            rw [hline, hzero, add_zero] at hpos
            exact hpos hp
          · rw [hline] at hrun
            exact hopen (runs_lf hrun)
    · refine iff_of_false (not_agreesFrom_of_fault ?_) fun h => hfit h.2.2.1
      rw [feedLine_eq, if_neg hfit]
  | @datum a b line lines es n d hrun hdone hrest ih =>
    intro s hlines hlink
    by_cases hfit : (s.buffer ++ cut line).length + 2 ≤ inBufferSize
    · by_cases hpos : 0 < s.parens + balance (cut line)
      · refine iff_of_false ?_ fun h => absurd h.1.1 (by omega)
        have hfeed : feedLine s line =
            .ok (⟨s.buffer ++ cut line, s.parens + balance (cut line)⟩, none) := by
          rw [feedLine_eq, if_pos hfit, if_pos hpos]
        rw [agreesFrom_of_feedLine hfeed]
        exact fun h => h.1
      · have hfeed : feedLine s line = .ok (⟨[], s.parens + balance (cut line)⟩,
            if line.length > 1 then some (s.buffer ++ cut line ++ [lf]) else none) := by
          rw [feedLine_eq, if_pos hfit, if_neg hpos]
        rw [agreesFrom_of_feedLine hfeed,
          ih _ hlines.2.2.2.2.2 (.inr ⟨rfl, not_lt.mp hpos, rfl⟩)]
        simp only [Balanced, Sized, Kept, hfit, true_and]
        by_cases hlen : line.length > 1
        · simp only [hlen, ↓reduceIte, Matches, true_and, not_lt.mp hpos]
          tauto
        · simp [hlen, Matches]
    · refine iff_of_false (not_agreesFrom_of_fault ?_) fun h => hfit h.2.2.1
      rw [feedLine_eq, if_neg hfit]

end Feed

/-- The list `(a b)` on two lines. -/
def twoLines : List (List UInt8) := [[lparen, 97, lf], [98, rparen, lf]]

/-- The reader at the ends of `twoLines`. -/
def twoLinesEvents : List Event := [.inside, .datum (.list [.sym [97], .sym [98]])]

/-- The reader's lists before and after a character: only the token changed,
    an element was completed, a list was opened, or one was closed. -/
inductive Moves (a : AbsState) (c : UInt8) : AbsState → Prop
  | token {b : AbsState} (hcur : b.cur = a.cur) (hout : b.outer = a.outer)
      (hfirst : b.first = a.first) (hvis : c = lparen → a.tok ≠ .idle)
      (hstr : c = rparen → ∃ s, a.tok = .str s) : Moves a c b
  | push {b : AbsState} (d : Datum) (hcur : b.cur = a.cur ++ [d]) (hout : b.outer = a.outer)
      (hfirst : b.first = a.first) (hne : c ≠ lparen ∧ c ≠ rparen) : Moves a c b
  | openList {b : AbsState} (hc : c = lparen) (hcur : b.cur = []) (hout : b.outer = a.cur :: a.outer)
      (hfirst : b.first = if a.outer.isEmpty then a.cur.length else a.first) : Moves a c b
  | close {b : AbsState} (hc : c = rparen) (ds es : List Datum) (hout : a.outer = ds :: b.outer)
      (hcur : b.cur = ds ++ [.list es]) (hfirst : b.first = a.first) : Moves a c b

section Moves

variable {a b : AbsState} {c : UInt8}

theorem Moves.of_close (hc : c = rparen) {a' : AbsState} (hclose : a'.close = some b)
    (hout : a'.outer = a.outer) (hfirst : a'.first = a.first) : Moves a c b := by
  unfold AbsState.close at hclose
  split at hclose
  · cases hclose
  · rename_i ds dss hds
    cases hclose
    exact .close hc ds a'.cur (hout.symm.trans hds) rfl hfirst

theorem isWs_ne_parens (hws : isWs c = true) : c ≠ lparen ∧ c ≠ rparen := by
  rcases isWs_iff.mp hws with rfl | rfl | rfl <;> decide

theorem isDigit_ne_parens (hd : isDigit c = true) : c ≠ lparen ∧ c ≠ rparen := by
  constructor <;> rintro rfl <;> exact absurd hd (by decide)

theorem isLowerHex_ne_parens (hd : isLowerHex c = true) : c ≠ lparen ∧ c ≠ rparen := by
  constructor <;> rintro rfl <;> exact absurd hd (by decide)

theorem isUpperHex_ne_parens (hd : isUpperHex c = true) : c ≠ lparen ∧ c ≠ rparen := by
  constructor <;> rintro rfl <;> exact absurd hd (by decide)

/-- A character that only changes the token, and is no parenthesis. -/
theorem Moves.of_token (hne : c ≠ lparen ∧ c ≠ rparen) (hcur : b.cur = a.cur)
    (hout : b.outer = a.outer) (hfirst : b.first = a.first) : Moves a c b :=
  .token hcur hout hfirst (fun h => absurd h hne.1) (fun h => absurd h hne.2)

theorem Moves.of_absNum {tok : BitVec 64 → Token} {add : BitVec 64 → BitVec 64 → BitVec 64}
    {v : BitVec 64} (hstep : absNum a tok add v c = some b) : Moves a c b := by
  unfold absNum at hstep
  split at hstep
  · rename_i hdig
    cases hstep
    refine .of_token ?_ rfl rfl rfl
    rcases hdig with h | ⟨-, h⟩
    · exact isDigit_ne_parens h
    · exact isLowerHex_ne_parens h
  split_ifs at hstep with hws hrp hx
  · cases hstep
    exact .push _ rfl rfl rfl (isWs_ne_parens hws)
  · exact .of_close hrp hstep rfl rfl
  · cases hstep
    exact .of_token (by rw [hx]; decide) rfl rfl rfl

/-- Every step of the reader is one of these moves. -/
theorem moves_of_step (hcom : a.tok ≠ .comment) (hstep : absStep a c = some b) : Moves a c b := by
  unfold absStep at hstep
  cases htok : a.tok with
  | idle =>
    simp only [htok, absAtom] at hstep
    split at hstep
    · rename_i hws
      cases hstep
      exact .of_token (isWs_ne_parens hws) rfl rfl rfl
    split at hstep
    · rename_i hsemi
      cases hstep
      exact .of_token (by rw [hsemi]; decide) rfl rfl rfl
    split at hstep
    · rename_i hdig
      cases hstep
      exact .of_token (isDigit_ne_parens hdig) rfl rfl rfl
    split at hstep
    · rename_i hlp
      cases hstep
      exact .openList hlp rfl rfl rfl
    split at hstep
    · rename_i hrp
      exact .of_close hrp hstep rfl rfl
    rename_i hlp hrp
    split_ifs at hstep
    · cases hstep
      exact .of_token ⟨hlp, hrp⟩ rfl rfl rfl
    · cases hstep
      exact .of_token ⟨hlp, hrp⟩ rfl rfl rfl
    · cases hstep
      exact .of_token ⟨hlp, hrp⟩ rfl rfl rfl
  | comment => exact absurd htok hcom
  | num v =>
    simp only [htok] at hstep
    exact .of_absNum hstep
  | numNeg v =>
    simp only [htok] at hstep
    exact .of_absNum hstep
  | sym name =>
    simp only [htok] at hstep
    split_ifs at hstep with hrp hws hdig
    · exact .of_close hrp hstep rfl rfl
    · cases hstep
      exact .push _ rfl rfl rfl (isWs_ne_parens hws)
    · cases hstep
      exact .of_token (isDigit_ne_parens hdig.1) rfl rfl rfl
    · cases hstep
      exact .token rfl rfl rfl (fun _ => by simp [htok]) (fun h => absurd h hrp)
  | str t =>
    simp only [htok] at hstep
    split_ifs at hstep with hq
    · cases hstep
      exact .push _ rfl rfl rfl (by rw [hq]; decide)
    · cases hstep
      exact .token rfl rfl rfl (fun _ => by simp [htok]) (fun _ => ⟨t, htok⟩)
  | bytes ns =>
    simp only [htok] at hstep
    split_ifs at hstep with hrb hdig hws
    · cases hstep
      exact .push _ rfl rfl rfl (by rw [hrb]; decide)
    · cases hstep
      refine .of_token ?_ rfl rfl rfl
      rcases hdig with h | h | h
      · exact isDigit_ne_parens h
      · exact isLowerHex_ne_parens h
      · exact isUpperHex_ne_parens h
    · cases hstep
      exact .of_token (isWs_ne_parens hws) rfl rfl rfl

/-- In a comment only the token changes. -/
theorem comment_step (htok : a.tok = .comment) (hstep : absStep a c = some b) :
    b = if c = lf ∨ c = 0 then { a with tok := .idle } else a := by
  simp only [absStep, htok, Option.some.injEq] at hstep
  exact hstep.symm

/-- `first` is the index of an element of the outermost list, or of the one
    that is open there. -/
structure FirstOk (a : AbsState) : Prop where
  top : a.outer = [] → a.first = 0 ∨ a.first < a.cur.length
  within : ∀ ds ∈ a.outer.getLast?, a.first ≤ ds.length

theorem FirstOk.of_moves (hm : Moves a c b) (ha : FirstOk a) : FirstOk b := by
  cases hm with
  | token hcur hout hfirst =>
    constructor
    · rw [hout, hcur, hfirst]
      exact ha.top
    · rw [hout, hfirst]
      exact ha.within
  | push d hcur hout hfirst =>
    constructor
    · rw [hout, hcur, hfirst, List.length_append]
      intro ho
      exact (ha.top ho).imp id fun h => Nat.lt_add_right _ h
    · rw [hout, hfirst]
      exact ha.within
  | openList hc hcur hout hfirst =>
    constructor
    · rw [hout]
      intro ho
      cases ho
    · rw [hout, hfirst]
      cases ho : a.outer with
      | nil => simp
      | cons ds dss => simpa [ho] using ha.within
  | close hc ds es hout hcur hfirst =>
    have hwithin := ha.within
    rw [hout] at hwithin
    constructor
    · intro ho
      rw [ho] at hwithin
      have hle := hwithin ds (by simp)
      rw [hcur, hfirst, List.length_append, List.length_singleton]
      omega
    · rw [hfirst]
      intro ds' hds'
      apply hwithin
      rw [List.getLast?_cons, Option.mem_def.mp hds']
      rfl

theorem FirstOk.of_runs {cs : List UInt8} {n : ℕ} (hrun : Runs a cs n b) (ha : FirstOk a) :
    FirstOk b := by
  induction hrun with
  | nil => exact ha
  | @cons a a' b x xs m hstep _ _ ih =>
    apply ih
    by_cases hcom : a.tok = .comment
    · rw [comment_step hcom hstep]
      split
      · exact ⟨ha.top, ha.within⟩
      · exact ha
    · exact ha.of_moves (moves_of_step hcom hstep)

end Moves

/-! ## Cutting at comments -/

/-- The reader starts a comment at the first `;` of a line. -/
def StartsComment : AbsState → List UInt8 → Prop
  | _, [] => True
  | a, c :: cs =>
    if c = semicolon then a.tok = .idle else ∀ b, absStep a c = some b → StartsComment b cs

section Comments

variable {a b : AbsState} {c : UInt8} {cs line : List UInt8} {n : ℕ} {hex : Bool}

theorem mem_dropLast_cons {x y : UInt8} (h : y ∈ cs.dropLast) : y ∈ (x :: cs).dropLast := by
  cases cs with
  | nil => simp at h
  | cons z zs =>
    rw [List.dropLast_cons_cons]
    exact List.mem_cons_of_mem _ h

/-- A comment lasts to the end of its line. -/
theorem comment_runs_line (hrun : Runs a cs n b) (htok : a.tok = .comment)
    (hlf : lf ∉ cs.dropLast) (h0 : 0 ∉ cs) :
    b = if cs.getLast? = some lf then { a with tok := .idle } else a := by
  induction hrun with
  | nil => simp
  | @cons a a' b x xs m hstep _ hrest ih =>
    have hb := comment_step htok hstep
    have hx0 : x ≠ 0 := fun h => h0 (by simp [h])
    cases xs with
    | nil =>
      cases hrest
      simpa [hx0] using hb
    | cons y ys =>
      have hxlf : x ≠ lf := fun h => hlf (by simp [h])
      rw [if_neg (by simp [hxlf, hx0])] at hb
      subst hb
      rw [ih htok (fun h => hlf (mem_dropLast_cons h)) fun h => h0 (List.mem_cons_of_mem _ h), List.getLast?_cons_cons]

/-- Reading a line up to its first `;` instead of reading all of it: the same
    state, but for a comment the end of the text leaves open. -/
theorem cut_runs (hrun : Runs a line n b) (hsc : StartsComment a line) (hlf : lf ∉ line.dropLast)
    (h0 : 0 ∉ line) :
    ∃ m c, Runs a (cut line) m c ∧
      (c = b ∨ (line.getLast? ≠ some lf ∧ c.tok = .idle ∧ b = { c with tok := .comment })) := by
  induction hrun with
  | nil a => exact ⟨0, a, Runs.nil a, .inl rfl⟩
  | @cons a a' b x xs m hstep hfit hrest ih =>
    by_cases hx : x = semicolon
    · subst hx
      have htok : a.tok = .idle := by simpa [StartsComment] using hsc
      have ha' : a' = { a with tok := .comment } := by
        rw [absStep_semicolon htok, Option.some.injEq] at hstep
        exact hstep.symm
      refine ⟨0, a, by simpa [cut] using Runs.nil a, ?_⟩
      have hlf' : lf ∉ xs.dropLast := fun h => hlf (mem_dropLast_cons h)
      have hb := comment_runs_line hrest (by rw [ha']) hlf' fun h => h0 (List.mem_cons_of_mem _ h)
      rw [ha'] at hb
      by_cases hlast : xs.getLast? = some lf
      · left
        rw [if_pos hlast] at hb
        rw [hb, ← htok]
      · right
        rw [if_neg hlast] at hb
        refine ⟨?_, htok, hb⟩
        cases xs with
        | nil => decide
        | cons y ys => rwa [List.getLast?_cons_cons]
    · have hsc' : StartsComment a' xs := by
        rw [StartsComment, if_neg hx] at hsc
        exact hsc a' hstep
      cases xs with
      | nil =>
        cases hrest
        refine ⟨stepCost a x + 0, a', ?_, .inl rfl⟩
        rw [cut_cons hx]
        exact Runs.cons hstep hfit (Runs.nil a')
      | cons y ys =>
        obtain ⟨k, e, hrun', he⟩ := ih hsc' (fun h => hlf (mem_dropLast_cons h))
          fun h => h0 (List.mem_cons_of_mem _ h)
        refine ⟨stepCost a x + k, e, ?_, ?_⟩
        · rw [cut_cons hx]
          exact Runs.cons hstep hfit hrun'
        · rw [List.getLast?_cons_cons]
          exact he

/-- The reader starts a comment at the first `;` of every line. -/
def Commented (hex : Bool) : AbsState → List (List UInt8) → List Event → Prop
  | a, line :: lines, e :: es =>
    StartsComment a line ∧ ∀ n b, Runs a line n b →
      Commented hex (match e with | .inside => b | _ => .start hex) lines es
  | _, _, _ => True

theorem close_tok (hclose : a.close = some b) : b.tok = .idle := by
  unfold AbsState.close at hclose
  split at hclose
  · cases hclose
  · cases hclose
    rfl

theorem absNum_tok {tok : BitVec 64 → Token} {add : BitVec 64 → BitVec 64 → BitVec 64}
    {v : BitVec 64} (htok : ∀ v, tok v ≠ .comment) (ha : a.tok = tok v)
    (hstep : absNum a tok add v c = some b) : b.tok ≠ .comment := by
  unfold absNum at hstep
  split at hstep
  · cases hstep
    exact htok _
  split_ifs at hstep
  · cases hstep
    simp [AbsState.push]
  · rw [close_tok hstep]
    simp
  · cases hstep
    rw [ha]
    exact htok v

/-- Only a `;` starts a comment. -/
theorem step_tok_ne_comment (hstep : absStep a c = some b) (hcom : a.tok ≠ .comment)
    (hc : c ≠ semicolon) : b.tok ≠ .comment := by
  unfold absStep at hstep
  cases htok : a.tok with
  | idle =>
    simp only [htok, absAtom, if_neg hc] at hstep
    split at hstep
    · cases hstep
      exact hcom
    split at hstep
    · cases hstep
      simp
    split at hstep
    · cases hstep
      simp
    split at hstep
    · rw [close_tok hstep]
      simp
    split_ifs at hstep
    · cases hstep
      simp
    · cases hstep
      simp
    · cases hstep
      simp
  | comment => exact absurd htok hcom
  | num v =>
    simp only [htok] at hstep
    exact absNum_tok (by simp) htok hstep
  | numNeg v =>
    simp only [htok] at hstep
    exact absNum_tok (by simp) htok hstep
  | sym name =>
    simp only [htok] at hstep
    split_ifs at hstep
    · rw [close_tok hstep]
      simp
    · cases hstep
      simp [AbsState.push]
    · cases hstep
      simp
    · cases hstep
      simp
  | str t =>
    simp only [htok] at hstep
    split_ifs at hstep
    · cases hstep
      simp [AbsState.push]
    · cases hstep
      simp
  | bytes ns =>
    simp only [htok] at hstep
    split_ifs at hstep
    · cases hstep
      simp [AbsState.push]
    · cases hstep
      simp
    · cases hstep
      exact hcom

theorem step_lf_tok (hstep : absStep a lf = some b) : b.tok ≠ .comment := by
  by_cases hcom : a.tok = .comment
  · rw [comment_step hcom hstep, if_pos (.inl rfl)]
    simp
  · exact step_tok_ne_comment hstep hcom (by decide)

theorem tok_ne_comment_of_lf (hrun : Runs a line n b) (hlast : line.getLast? = some lf) :
    b.tok ≠ .comment := by
  induction hrun with
  | nil => simp at hlast
  | @cons a a' b x xs m hstep _ hrest ih =>
    cases xs with
    | nil =>
      cases hrest
      obtain rfl : x = lf := by simpa using hlast
      exact step_lf_tok hstep
    | cons y ys =>
      rw [List.getLast?_cons_cons] at hlast
      exact ih hlast

/-- A text that completes a datum, and the newline the loop adds, read as the
    datum. -/
theorem readsAs_of_complete {d : Datum} (hrun : Runs (.start hex) cs n a) (hdone : Complete a d) :
    ReadsAs hex (cs ++ [lf]) d := by
  obtain ⟨hout, hcur, htok, -⟩ := hdone
  have hfirst : a.first = 0 := by
    have hok : FirstOk a := FirstOk.of_runs hrun ⟨fun _ => .inl rfl, by simp [AbsState.start]⟩
    rcases hok.top hout with h | h
    · exact h
    · rw [hcur, List.length_singleton] at h
      omega
  have hstep : absStep a lf = some { a with tok := .idle } := by
    rcases htok with h | h
    · rw [absStep_ws h (by decide), ← h]
    · simp [absStep, h]
  have hfit : ({ a with tok := .idle } : AbsState).Fits := by
    refine ⟨?_, trivial⟩
    simp [hout]
  refine ⟨_, _, hrun.append (Runs.single hstep hfit), hout, ?_, hfirst⟩
  simp [AbsState.elements, hcur, Token.datum]

/-- Cutting the lines at `;` keeps what they read as, when the reader starts a
    comment there. -/
theorem kept_of_comments {lines : List (List UInt8)} {es : List Event}
    (hdata : Data hex a lines es) :
    ∀ (buffer : List UInt8) (n : ℕ), IsLines lines → Commented hex a lines es →
      Runs (.start hex) buffer n a →
      buffer.length + lines.flatten.length + 2 ≤ inBufferSize → Kept hex buffer lines es := by
  induction hdata with
  | nil =>
    intro buffer n _ _ _ _
    trivial
  | @between a line lines es k hrun hblank hrest ih =>
    intro buffer n hlines hcom hbuf hsize
    have hcut : (cut line).length ≤ line.length := (List.takeWhile_prefix _).length_le
    rw [List.flatten_cons, List.length_append] at hsize
    refine ⟨by rw [List.length_append]; omega, ?_⟩
    exact ih [] 0 hlines.2.2.2.2.2 (hcom.2 k a hrun) (Runs.nil _) (by rw [List.length_nil]; omega)
  | @inside a b line lines es k hrun hopen hrest ih =>
    intro buffer n hlines hcom hbuf hsize
    have hcut : (cut line).length ≤ line.length := (List.takeWhile_prefix _).length_le
    have hne : lines ≠ [] := by
      rintro rfl
      cases hrest
      exact hopen rfl
    obtain ⟨-, -, h0, hlf, hlast, hlines'⟩ := hlines
    obtain ⟨m, c, hcutrun, rfl | ⟨h, -⟩⟩ := cut_runs hrun hcom.1 hlf h0
    · rw [List.flatten_cons, List.length_append] at hsize
      refine ⟨by rw [List.length_append]; omega, ?_⟩
      exact ih _ _ hlines' (hcom.2 k c hrun) (hbuf.append hcutrun)
        (by rw [List.length_append]; omega)
    · exact absurd (hlast hne) h
  | @datum a b line lines es k d hrun hdone hrest ih =>
    intro buffer n hlines hcom hbuf hsize
    have hcut : (cut line).length ≤ line.length := (List.takeWhile_prefix _).length_le
    obtain ⟨-, -, h0, hlf, -, hlines'⟩ := hlines
    rw [List.flatten_cons, List.length_append] at hsize
    refine ⟨by rw [List.length_append]; omega, ?_, ?_⟩
    · obtain ⟨m, c, hcutrun, hc⟩ := cut_runs hrun hcom.1 hlf h0
      apply readsAs_of_complete (hbuf.append hcutrun)
      rcases hc with rfl | ⟨-, htok, rfl⟩
      · exact hdone
      · exact ⟨hdone.1, hdone.2.1, .inl htok, hdone.2.2.2⟩
    · exact ih [] 0 hlines' (hcom.2 k b hrun) (Runs.nil _) (by rw [List.length_nil]; omega)

end Comments

/-! ## Parentheses the reader sees -/

/-- Up to the first `;`, the reader meets `(` between two elements only, and
    no `)` in a string. -/
def Visible : AbsState → List UInt8 → Prop
  | _, [] => True
  | a, c :: cs =>
    c ≠ semicolon → (c = lparen → a.tok = .idle) ∧ (c = rparen → ∀ s, a.tok ≠ .str s) ∧
      ∀ b, absStep a c = some b → Visible b cs

section Visible

variable {a b : AbsState} {c : UInt8} {cs line : List UInt8} {n : ℕ} {hex : Bool}

/-- A character the loop counts changes the nesting level as the loop says. -/
theorem level_of_moves (hm : Moves a c b) (hl : c = lparen → a.tok = .idle)
    (hr : c = rparen → ∀ s, a.tok ≠ .str s) :
    (b.outer.length : ℤ) = a.outer.length + balance [c] := by
  cases hm with
  | token hcur hout hfirst hvis hstr =>
    have hlp : c ≠ lparen := fun h => hvis h (hl h)
    have hrp : c ≠ rparen := fun h => (hstr h).elim (hr h)
    rw [hout]
    simp [balance, hlp, hrp]
  | push d hcur hout hfirst hne =>
    rw [hout]
    simp [balance, hne.1, hne.2]
  | openList hc hcur hout hfirst =>
    have hone : balance [lparen] = 1 := by decide
    rw [hout, hc, hone, List.length_cons]
    push_cast
    rfl
  | close hc ds es hout hcur hfirst =>
    have hone : balance [rparen] = -1 := by decide
    rw [hout, hc, hone, List.length_cons]
    push_cast
    ring

theorem balance_cons (c : UInt8) (cs : List UInt8) :
    balance (c :: cs) = balance [c] + balance cs := by
  unfold balance
  rw [List.count_cons, List.count_cons, List.count_singleton, List.count_singleton]
  push_cast
  ring

theorem level_of_comment (hrun : Runs a cs n b) (htok : a.tok = .comment) (hlf : lf ∉ cs.dropLast)
    (h0 : 0 ∉ cs) : b.outer = a.outer := by
  rw [comment_runs_line hrun htok hlf h0]
  split
  · rfl
  · rfl

/-- On a line whose parentheses the reader sees, the loop counts the nesting
    level. -/
theorem level_of_runs (hrun : Runs a line n b) (hcom : a.tok ≠ .comment) (hsc : StartsComment a line)
    (hvis : Visible a line) (hlf : lf ∉ line.dropLast) (h0 : 0 ∉ line) :
    (b.outer.length : ℤ) = a.outer.length + balance (cut line) := by
  induction hrun with
  | nil => simp [cut, balance]
  | @cons a a' b x xs m hstep hfit hrest ih =>
    have hlf' : lf ∉ xs.dropLast := fun h => hlf (mem_dropLast_cons h)
    have h0' : 0 ∉ xs := fun h => h0 (List.mem_cons_of_mem _ h)
    by_cases hx : x = semicolon
    · subst hx
      have htok : a.tok = .idle := by simpa [StartsComment] using hsc
      rw [absStep_semicolon htok, Option.some.injEq] at hstep
      subst hstep
      rw [level_of_comment hrest rfl hlf' h0']
      simp [cut, balance]
    · obtain ⟨hl, hr, hnext⟩ := hvis hx
      rw [StartsComment, if_neg hx] at hsc
      have hstepLevel := level_of_moves (moves_of_step hcom hstep) hl hr
      rw [ih (step_tok_ne_comment hstep hcom hx) (hsc a' hstep) (hnext a' hstep) hlf' h0',
        cut_cons hx, hstepLevel, balance_cons x (cut xs)]
      ring

/-- The reader sees every parenthesis the loop counts. -/
def VisibleText (hex : Bool) : AbsState → List (List UInt8) → List Event → Prop
  | a, line :: lines, e :: es =>
    Visible a line ∧ ∀ n b, Runs a line n b →
      VisibleText hex (match e with | .inside => b | _ => .start hex) lines es
  | _, _, _ => True

theorem balanced_of_visible {lines : List (List UInt8)} {es : List Event}
    (hdata : Data hex a lines es) :
    IsLines lines → a.tok ≠ .comment → Commented hex a lines es → VisibleText hex a lines es →
      Balanced a.outer.length lines es := by
  induction hdata with
  | nil =>
    intros
    trivial
  | @between a line lines es k hrun hblank hrest ih =>
    intro hlines _ hcom hvis
    have hbal : balance (cut line) = 0 := (Blank.of_runs hrun hblank).2 rfl
    refine ⟨trivial, ?_⟩
    rw [hbal, add_zero]
    exact ih hlines.2.2.2.2.2 (by simp [AbsState.start]) (hcom.2 k a hrun) (hvis.2 k a hrun)
  | @inside a b line lines es k hrun hopen hrest ih =>
    intro hlines htok hcom hvis
    have hne : lines ≠ [] := by
      rintro rfl
      cases hrest
      exact hopen rfl
    obtain ⟨-, -, h0, hlf, hlast, hlines'⟩ := hlines
    have hlevel := level_of_runs hrun htok hcom.1 hvis.1 hlf h0
    refine ⟨?_, ?_⟩
    · rw [← hlevel]
      exact_mod_cast List.length_pos_iff.mpr hopen
    · rw [← hlevel]
      exact ih hlines' (tok_ne_comment_of_lf hrun (hlast hne)) (hcom.2 k b hrun) (hvis.2 k b hrun)
  | @datum a b line lines es k d hrun hdone hrest ih =>
    intro hlines htok hcom hvis
    obtain ⟨-, -, h0, hlf, -, hlines'⟩ := hlines
    have hlevel := level_of_runs hrun htok hcom.1 hvis.1 hlf h0
    rw [hdone.1] at hlevel
    refine ⟨?_, ?_⟩
    · rw [← hlevel]
      simp
    · rw [← hlevel]
      exact ih hlines' (by simp [AbsState.start]) (hcom.2 k b hrun) (hvis.2 k b hrun)

/-- The loop reads a text one datum at a time when every `;` and every
    parenthesis means to the reader what it means to the loop, and the lines
    between two data are empty. -/
theorem agrees_of_visible {lines : List (List UInt8)} {es : List Event} (hlines : IsLines lines)
    (hdata : Data hex (.start hex) lines es) (hfit : lines.flatten.length + 2 ≤ inBufferSize)
    (hsized : Sized lines es) (hcom : Commented hex (.start hex) lines es)
    (hvis : VisibleText hex (.start hex) lines es) : Agrees hex lines es := by
  apply (agreesFrom_iff hdata .start hlines (.inr ⟨rfl, le_refl 0, rfl⟩)).mpr
  refine ⟨balanced_of_visible hdata hlines (by simp [AbsState.start]) hcom hvis, hsized, ?_⟩
  exact kept_of_comments hdata [] 0 hlines hcom (Runs.nil _) (by rw [List.length_nil]; omega)

end Visible

/-! ## Semicolons in strings and symbols -/

/-- No `;` in a symbol or string. -/
def NoSemicolon : Datum → Prop
  | .sym name => semicolon ∉ name
  | .str s => semicolon ∉ s
  | _ => True

/-- No `;` in a token. -/
def Token.NoSemicolon : Token → Prop
  | .sym name => semicolon ∉ name
  | .str s => semicolon ∉ s
  | _ => True

/-- Nothing the reader holds has a `;`. -/
structure Clean (a : AbsState) : Prop where
  tok : Token.NoSemicolon a.tok
  cur : Datum.AtomsAll NoSemicolon a.cur
  outer : ∀ ds ∈ a.outer, Datum.AtomsAll NoSemicolon ds

section Clean

variable {a b : AbsState} {c : UInt8} {cs : List UInt8} {n : ℕ} {hex : Bool}

theorem atomsAll_append {p : Datum → Prop} {d : Datum} (hd : d.Atoms p) {ds : List Datum}
    (hds : Datum.AtomsAll p ds) : Datum.AtomsAll p (ds ++ [d]) := by
  induction ds with
  | nil => exact ⟨hd, trivial⟩
  | cons e es ih => exact ⟨hds.1, ih hds.2⟩

theorem Clean.push {d : Datum} (ha : Clean a) (hd : d.Atoms NoSemicolon) : Clean (a.push d) :=
  ⟨trivial, atomsAll_append hd ha.cur, ha.outer⟩

theorem Clean.close (ha : Clean a) (hclose : a.close = some b) : Clean b := by
  unfold AbsState.close at hclose
  split at hclose
  · cases hclose
  · rename_i ds dss hds
    cases hclose
    refine ⟨trivial, atomsAll_append ?_ (ha.outer ds (by simp [hds])), ?_⟩
    · exact ha.cur
    · intro es hes
      exact ha.outer es (by simp [hds, hes])

theorem Clean.of_absNum (tok : BitVec 64 → Token) {add : BitVec 64 → BitVec 64 → BitVec 64}
    {v : BitVec 64} (htok : ∀ v, Token.NoSemicolon (tok v)) (ha : Clean a)
    (hstep : absNum a tok add v c = some b) : Clean b := by
  unfold absNum at hstep
  split at hstep
  · cases hstep
    exact ⟨htok _, ha.cur, ha.outer⟩
  split_ifs at hstep
  · cases hstep
    exact ha.push trivial
  · exact Clean.close (ha.push (d := .int v) trivial) hstep
  · cases hstep
    exact ⟨ha.tok, ha.cur, ha.outer⟩

/-- A character other than `;` brings no `;` in. -/
theorem Clean.of_step (ha : Clean a) (hc : c ≠ semicolon) (hstep : absStep a c = some b) :
    Clean b := by
  have htoken := ha.tok
  have hstep₀ := hstep
  unfold absStep at hstep
  cases htok : a.tok with
  | idle =>
    simp only [htok, absAtom, if_neg hc] at hstep
    split at hstep
    · cases hstep
      exact ha
    split at hstep
    · cases hstep
      exact ⟨trivial, ha.cur, ha.outer⟩
    split at hstep
    · cases hstep
      refine ⟨by simp [Token.NoSemicolon], trivial, ?_⟩
      intro ds hds
      rcases List.mem_cons.mp hds with rfl | h
      · exact ha.cur
      · exact ha.outer ds h
    split at hstep
    · exact ha.close hstep
    split_ifs at hstep
    · cases hstep
      exact ⟨trivial, ha.cur, ha.outer⟩
    · cases hstep
      exact ⟨by simp [Token.NoSemicolon], ha.cur, ha.outer⟩
    · cases hstep
      exact ⟨by simpa [Token.NoSemicolon] using Ne.symm hc, ha.cur, ha.outer⟩
  | comment =>
    rw [comment_step htok hstep₀]
    split
    · exact ⟨trivial, ha.cur, ha.outer⟩
    · exact ha
  | num v =>
    simp only [htok] at hstep
    exact ha.of_absNum .num (fun _ => trivial) hstep
  | numNeg v =>
    simp only [htok] at hstep
    exact ha.of_absNum .numNeg (fun _ => trivial) hstep
  | sym name =>
    rw [htok] at htoken
    simp only [htok] at hstep
    split_ifs at hstep
    · exact (ha.push (d := .sym name) htoken).close hstep
    · cases hstep
      exact ha.push (d := .sym name) htoken
    · cases hstep
      exact ⟨trivial, ha.cur, ha.outer⟩
    · cases hstep
      refine ⟨?_, ha.cur, ha.outer⟩
      simp only [Token.NoSemicolon, List.mem_append, List.mem_singleton]
      exact not_or.mpr ⟨htoken, Ne.symm hc⟩
  | str t =>
    rw [htok] at htoken
    simp only [htok] at hstep
    split_ifs at hstep
    · cases hstep
      exact ha.push (d := .str t) htoken
    · cases hstep
      refine ⟨?_, ha.cur, ha.outer⟩
      simp only [Token.NoSemicolon, List.mem_append, List.mem_singleton]
      exact not_or.mpr ⟨htoken, Ne.symm hc⟩
  | bytes ns =>
    simp only [htok] at hstep
    split_ifs at hstep
    · cases hstep
      exact ha.push trivial
    · cases hstep
      exact ⟨trivial, ha.cur, ha.outer⟩
    · cases hstep
      exact ha

theorem Clean.of_runs (hrun : Runs a cs n b) (hcs : semicolon ∉ cs) (ha : Clean a) : Clean b := by
  induction hrun with
  | nil => exact ha
  | cons hstep _ _ ih =>
    apply ih (fun h => hcs (List.mem_cons_of_mem _ h))
    exact ha.of_step (fun h => hcs (by simp [h])) hstep

/-- A text without `;` reads as a datum without `;`: what the loop keeps never
    reads as a datum with one. -/
theorem ReadsAs.no_semicolon {d : Datum} (hread : ReadsAs hex cs d) (hcs : semicolon ∉ cs) :
    d.Atoms NoSemicolon := by
  obtain ⟨n, a, hrun, -, hel, -⟩ := hread
  have ha := Clean.of_runs hrun hcs ⟨trivial, trivial, by simp [AbsState.start]⟩
  have hall : Datum.AtomsAll NoSemicolon a.elements := by
    unfold AbsState.elements
    have htoken := ha.tok
    cases htok : a.tok with
    | num v => exact atomsAll_append (p := NoSemicolon) (d := .int v) trivial ha.cur
    | numNeg v => exact atomsAll_append (p := NoSemicolon) (d := .int v) trivial ha.cur
    | sym name =>
      rw [htok] at htoken
      exact atomsAll_append (p := NoSemicolon) (d := .sym name) htoken ha.cur
    | _ => simpa [Token.datum] using ha.cur
  rw [hel] at hall
  exact hall.1

end Clean

/-! ## The C reader -/

/-- What `ReadsAs` says of `read_string`. -/
theorem ReadsAs.readString {junk : Junk} {text : List UInt8} {d : Datum} {h : Heap}
    (hread : ReadsAs (junk.valuestate = vstHex) text d) (hok : h.FreeListOk)
    (hlen : text.length < 2 ^ 31) :
    ∃ n, n + 2 ≤ h.room →
      ∃ w h' S, Reader.readString junk text h = .ok (w, h') ∧ Rep h' S w d := by
  obtain ⟨n, a, hrun, hout, hel, hfirst⟩ := hread
  refine ⟨n, ?_⟩
  intro hroom
  have hne : text ≠ [] := by
    rintro rfl
    cases hrun
    simp [AbsState.elements, AbsState.start, Token.datum] at hel
  obtain ⟨w, h', S, hr, hrep, -⟩ :=
    readString_sim hok hne hlen hrun hout (by rw [hel, hfirst]; rfl) hroom
  exact ⟨w, h', S, hr, hrep⟩

end Interim.Sledge
