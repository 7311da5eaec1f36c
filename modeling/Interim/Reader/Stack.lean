import Interim.Reader.Layout

/-!
# The reader's stack

`read_char` and `read_string` access `*rs->stack` in four places
(`sledge/reader.c`): the root is stored (line 35), a `(` stores the current
cell (line 55), the end of a list loads it again (line 20), and `read_string`
loads the root (line 236). `stringAccess` lists the accesses of a run, each
with the value of `rs->level` at that moment.

* `readChar_leveled` — the index equals `rs->level` in every reachable state.
* `stack_in_bounds_iff` — all accesses of a run are inside `stack_root`
  exactly when no `(` is read outside a token with 96 lists open. At such a
  `(` the index is 96, one behind the last pointer.
-/

namespace Interim.Reader

open Heap

/-! ## The accesses -/

/-- Line 20, in `reader_end_list`. -/
def endListAccess (cell : ℕ) (rs : ReaderState) (h : Heap) : List (ℤ × ℕ) :=
  if rs.level < 1 then []
  else
    match terminateList cell h with
    | .ok _ => [(rs.stack - 1, rs.level - 1)]
    | .error _ => []

/-- Line 55: a `(` stores the current cell once the new one is there. -/
def openAccess (rs : ReaderState) (h : Heap) : List (ℤ × ℕ) :=
  match h.allocNil with
  | .ok _ => [(rs.stack, rs.level)]
  | .error _ => []

/-- The accesses in the states `PST_ATOM`, `PST_NUM`, `PST_NUM_NEG` and
    `PST_SYM`; the others make none. -/
def stateAccess (c : UInt8) (cell : ℕ) (rs : ReaderState) (h : Heap) : List (ℤ × ℕ) :=
  match rs.state with
  | .atom =>
    if c = lparen then openAccess rs h else if c = rparen then endListAccess cell rs h else []
  | .num | .numNeg | .sym => if c = rparen then endListAccess cell rs h else []
  | _ => []

/-- Line 35: the root is stored once it and its successor are there. -/
def rootAccess (rs : ReaderState) (h : Heap) : List (ℤ × ℕ) :=
  if rs.cell = .null then
    match h.allocNil >>= fun r => r.2.allocNil with
    | .ok _ => [(rs.stack, rs.level)]
    | .error _ => []
  else []

/-- The accesses of `read_char(c, rs)`. -/
def charAccess (c : UInt8) (rs : ReaderState) (h : Heap) : List (ℤ × ℕ) :=
  rootAccess rs h ++
    match ensureRoot rs h with
    | .ok (rs, h) =>
      match cellOf rs.cell with
      | .ok cell => stateAccess c cell rs h
      | .error _ => []
    | .error _ => []

/-- The accesses of the loop of lines 219–226. -/
def charsAccess : List UInt8 → ReaderState → Heap → List (ℤ × ℕ)
  | [], _, _ => []
  | c :: cs, rs, h =>
    charAccess c rs h ++
      match readChar c rs h with
      | .ok (rs, h) => if rs.state.isError then [] else charsAccess cs rs h
      | .error _ => []

/-- Line 236. -/
def resultAccess (rs : ReaderState) : List (ℤ × ℕ) :=
  if rs.state.isError ∨ rs.level ≠ 0 then [] else [(rs.stack, rs.level)]

/-- The characters that `read_string` looks at: `len` is an `int`. -/
def effective (input : List UInt8) : List UInt8 := input.take (toInt32 input.length).toNat

/-- All accesses of `read_string(input)`. -/
def stringAccess (junk : Junk) (input : List UInt8) (h : Heap) : List (ℤ × ℕ) :=
  charsAccess (effective input) (.start junk) h ++
    match readChars (effective input) (.start junk) h with
    | .ok (rs, _) => resultAccess rs
    | .error _ => []

/-- An access inside `stack_root`, at the index `rs->level`. -/
def InBounds (p : ℤ × ℕ) : Prop := 0 ≤ p.1 ∧ p.1 < stackSize ∧ p.1 = p.2

/-! ## The index is the level -/

/-- `rs->stack` points to entry `rs->level`, and at most 96 lists are open. -/
structure Leveled (rs : ReaderState) : Prop where
  stack : rs.stack = rs.level
  level : rs.level ≤ stackSize

section Leveled

variable {rs rs' : ReaderState} {h h' : Heap} {c : UInt8} {cell cell' : ℕ}

theorem Leveled.of_eq (hl : Leveled rs) (hs : rs'.stack = rs.stack) (hv : rs'.level = rs.level) :
    Leveled rs' :=
  ⟨by rw [hs, hv, hl.stack], by rw [hv]; exact hl.level⟩

theorem readerNextListCell_leveled (hl : Leveled rs)
    (hr : readerNextListCell cell rs h = .ok (cell', rs', h')) : Leveled rs' := by
  obtain ⟨⟨n, h₁⟩, -, hr⟩ := bind_ok.mp hr
  obtain ⟨-, rfl, -⟩ : _ ∧ _ ∧ _ := by simpa using hr
  exact hl.of_eq rfl rfl

theorem readerEndList_leveled (hl : Leveled rs)
    (hr : readerEndList cell rs h = .ok (cell', rs', h')) : Leveled rs' := by
  unfold readerEndList at hr
  split at hr
  · obtain ⟨-, rfl, -⟩ : _ ∧ _ ∧ _ := by simpa using hr
    exact hl.of_eq rfl rfl
  · obtain ⟨h₁, -, hr⟩ := bind_ok.mp hr
    obtain ⟨w, -, hr⟩ := bind_ok.mp hr
    obtain ⟨k, -, hr⟩ := bind_ok.mp hr
    have hs := hl.stack
    have hle := hl.level
    refine readerNextListCell_leveled ⟨?_, ?_⟩ hr
    · change rs.stack - 1 = ((rs.level - 1 : ℕ) : ℤ)
      omega
    · change rs.level - 1 ≤ stackSize
      omega

theorem setTop_ok {w : Word} (hr : rs.setTop w = .ok rs') :
    0 ≤ rs.stack ∧ rs.stack < stackSize ∧ rs'.stack = rs.stack ∧ rs'.level = rs.level := by
  unfold ReaderState.setTop at hr
  split at hr
  · rename_i hb
    obtain rfl := Except.ok.inj hr
    exact ⟨hb.1, hb.2, rfl, rfl⟩
  · exact absurd hr (by simp)

theorem ensureRoot_leveled (hl : Leveled rs) (hr : ensureRoot rs h = .ok (rs', h')) :
    Leveled rs' := by
  unfold ensureRoot at hr
  split at hr
  · obtain ⟨⟨r, h₁⟩, -, hr⟩ := bind_ok.mp hr
    obtain ⟨⟨n, h₂⟩, -, hr⟩ := bind_ok.mp hr
    obtain ⟨rs₁, htop, hr⟩ := bind_ok.mp hr
    obtain ⟨-, -, hs, hv⟩ := setTop_ok htop
    obtain ⟨rfl, -⟩ := Prod.mk.inj (Except.ok.inj hr)
    exact hl.of_eq hs hv
  · obtain ⟨rfl, -⟩ := Prod.mk.inj (Except.ok.inj hr)
    exact hl

theorem appendChar_stack (hr : appendChar c cell rs h = .ok (rs', h')) :
    rs'.stack = rs.stack ∧ rs'.level = rs.level := by
  obtain ⟨v, -, hr⟩ := bind_ok.mp hr
  obtain ⟨size, -, hr⟩ := bind_ok.mp hr
  obtain ⟨h₁, -, hr⟩ := bind_ok.mp hr
  obtain ⟨h₂, -, hr⟩ := bind_ok.mp hr
  obtain ⟨rfl, -⟩ := Prod.mk.inj (Except.ok.inj hr)
  exact ⟨rfl, rfl⟩

theorem appendNibble_stack (hr : appendNibble c cell rs h = .ok (rs', h')) :
    rs'.stack = rs.stack ∧ rs'.level = rs.level := by
  obtain ⟨v, -, hr⟩ := bind_ok.mp hr
  obtain ⟨size, -, hr⟩ := bind_ok.mp hr
  obtain ⟨h₁, -, hr⟩ := bind_ok.mp hr
  obtain ⟨h₂, -, hr⟩ := bind_ok.mp hr
  obtain ⟨rfl, -⟩ := Prod.mk.inj (Except.ok.inj hr)
  exact ⟨rfl, rfl⟩

/-- A `(` goes one level up; the store before it keeps the level below 96. -/
theorem readAtom_leveled (hl : Leveled rs) (hr : readAtom c cell rs h = .ok (cell', rs', h')) :
    Leveled rs' := by
  unfold readAtom at hr
  by_cases hws : isWs c = true
  · rw [if_pos hws] at hr
    obtain ⟨-, rfl, -⟩ : _ ∧ _ ∧ _ := by simpa using hr
    exact hl
  rw [if_neg hws] at hr
  by_cases hsemi : c = semicolon
  · rw [if_pos hsemi] at hr
    obtain ⟨-, rfl, -⟩ : _ ∧ _ ∧ _ := by simpa using hr
    exact hl.of_eq rfl rfl
  rw [if_neg hsemi] at hr
  by_cases hdig : isDigit c = true
  · rw [if_pos hdig] at hr
    obtain ⟨⟨v, h₁⟩, -, hr⟩ := bind_ok.mp hr
    obtain ⟨-, rfl, -⟩ : _ ∧ _ ∧ _ := by simpa using hr
    exact hl.of_eq rfl rfl
  rw [if_neg hdig] at hr
  by_cases hlp : c = lparen
  · rw [if_pos hlp] at hr
    obtain ⟨⟨v, h₁⟩, -, hr⟩ := bind_ok.mp hr
    obtain ⟨rs₁, htop, hr⟩ := bind_ok.mp hr
    obtain ⟨-, hlt, hs, hv⟩ := setTop_ok htop
    obtain ⟨-, rfl, -⟩ : _ ∧ _ ∧ _ := by simpa using hr
    have hst := hl.stack
    refine ⟨?_, ?_⟩
    · change rs₁.stack + 1 = ((rs₁.level + 1 : ℕ) : ℤ)
      omega
    · change rs₁.level + 1 ≤ stackSize
      omega
  rw [if_neg hlp] at hr
  by_cases hrp : c = rparen
  · rw [if_pos hrp] at hr
    exact readerEndList_leveled hl hr
  rw [if_neg hrp] at hr
  by_cases hlb : c = lbracket
  · rw [if_pos hlb] at hr
    obtain ⟨⟨v, h₁⟩, -, hr⟩ := bind_ok.mp hr
    obtain ⟨-, rfl, -⟩ : _ ∧ _ ∧ _ := by simpa using hr
    exact hl.of_eq rfl rfl
  rw [if_neg hlb] at hr
  by_cases hdq : c = dquote
  · rw [if_pos hdq] at hr
    obtain ⟨⟨v, h₁⟩, -, hr⟩ := bind_ok.mp hr
    obtain ⟨-, rfl, -⟩ : _ ∧ _ ∧ _ := by simpa using hr
    exact hl.of_eq rfl rfl
  rw [if_neg hdq] at hr
  obtain ⟨⟨v, h₁⟩, -, hr⟩ := bind_ok.mp hr
  obtain ⟨h₂, -, hr⟩ := bind_ok.mp hr
  obtain ⟨-, rfl, -⟩ : _ ∧ _ ∧ _ := by simpa using hr
  exact hl.of_eq rfl rfl

theorem readNum_leveled (hl : Leveled rs) (hr : readNum c cell rs h = .ok (cell', rs', h')) :
    Leveled rs' := by
  unfold readNum at hr
  split at hr
  · obtain ⟨h₁, -, hr⟩ := bind_ok.mp hr
    obtain ⟨-, rfl, -⟩ : _ ∧ _ ∧ _ := by simpa using hr
    exact hl
  · split at hr
    · exact readerNextListCell_leveled hl hr
    · split at hr
      · exact readerEndList_leveled hl hr
      · split at hr
        · obtain ⟨-, rfl, -⟩ : _ ∧ _ ∧ _ := by simpa using hr
          exact hl.of_eq rfl rfl
        · obtain ⟨-, rfl, -⟩ : _ ∧ _ ∧ _ := by simpa using hr
          exact hl.of_eq rfl rfl

theorem readSym_leveled (hl : Leveled rs) (hr : readSym c cell rs h = .ok (cell', rs', h')) :
    Leveled rs' := by
  unfold readSym at hr
  split at hr
  · exact readerEndList_leveled hl hr
  · split at hr
    · exact readerNextListCell_leveled hl hr
    · obtain ⟨v, -, hr⟩ := bind_ok.mp hr
      obtain ⟨first, -, hr⟩ := bind_ok.mp hr
      split at hr
      · obtain ⟨-, rfl, -⟩ : _ ∧ _ ∧ _ := by simpa using hr
        exact hl.of_eq rfl rfl
      · obtain ⟨⟨rs₁, h₁⟩, ha, hr⟩ := bind_ok.mp hr
        obtain ⟨hs, hv⟩ := appendChar_stack ha
        obtain ⟨-, rfl, -⟩ : _ ∧ _ ∧ _ := by simpa using hr
        exact hl.of_eq hs hv

theorem readStr_leveled (hl : Leveled rs) (hr : readStr c cell rs h = .ok (cell', rs', h')) :
    Leveled rs' := by
  unfold readStr at hr
  split at hr
  · obtain ⟨v, -, hr⟩ := bind_ok.mp hr
    exact readerNextListCell_leveled hl hr
  · obtain ⟨⟨rs₁, h₁⟩, ha, hr⟩ := bind_ok.mp hr
    obtain ⟨hs, hv⟩ := appendChar_stack ha
    obtain ⟨-, rfl, -⟩ : _ ∧ _ ∧ _ := by simpa using hr
    exact hl.of_eq hs hv

theorem readBytes_leveled (hl : Leveled rs) (hr : readBytes c cell rs h = .ok (cell', rs', h')) :
    Leveled rs' := by
  unfold readBytes at hr
  split at hr
  · obtain ⟨v, -, hr⟩ := bind_ok.mp hr
    exact readerNextListCell_leveled hl hr
  · split at hr
    · obtain ⟨⟨rs₁, h₁⟩, ha, hr⟩ := bind_ok.mp hr
      obtain ⟨hs, hv⟩ := appendNibble_stack ha
      obtain ⟨-, rfl, -⟩ : _ ∧ _ ∧ _ := by simpa using hr
      exact hl.of_eq hs hv
    · split at hr
      · obtain ⟨-, rfl, -⟩ : _ ∧ _ ∧ _ := by simpa using hr
        exact hl
      · obtain ⟨-, rfl, -⟩ : _ ∧ _ ∧ _ := by simpa using hr
        exact hl.of_eq rfl rfl

theorem readState_leveled (hl : Leveled rs) (hr : readState c cell rs h = .ok (cell', rs', h')) :
    Leveled rs' := by
  unfold readState at hr
  cases hst : rs.state with
  | atom => rw [hst] at hr; exact readAtom_leveled hl hr
  | num | numNeg => rw [hst] at hr; exact readNum_leveled hl hr
  | sym => rw [hst] at hr; exact readSym_leveled hl hr
  | str => rw [hst] at hr; exact readStr_leveled hl hr
  | bytes => rw [hst] at hr; exact readBytes_leveled hl hr
  | comment =>
    rw [hst] at hr
    obtain ⟨-, rfl, -⟩ : _ ∧ _ ∧ _ := by simpa using hr
    split
    · exact hl.of_eq rfl rfl
    · exact hl
  | errUnexpClosingBrace | errUnexpJunkInNumber | errUnexpJunkInBytes =>
    rw [hst] at hr
    obtain ⟨-, rfl, -⟩ : _ ∧ _ ∧ _ := by simpa using hr
    exact hl

/-- The index equals the level after every character. -/
theorem readChar_leveled (hl : Leveled rs) (hr : readChar c rs h = .ok (rs', h')) :
    Leveled rs' ∧ ∃ k, rs'.cell = .cell k := by
  obtain ⟨⟨rs₁, h₁⟩, hroot, hr⟩ := bind_ok.mp hr
  obtain ⟨cell, -, hr⟩ := bind_ok.mp hr
  obtain ⟨⟨cell', rs₂, h₂⟩, hst, hr⟩ := bind_ok.mp hr
  obtain ⟨rfl, -⟩ := Prod.mk.inj (Except.ok.inj hr)
  exact ⟨(readState_leveled (ensureRoot_leveled hl hroot) hst).of_eq rfl rfl, cell', rfl⟩

end Leveled

/-! ## The accesses of a run -/

/-- From state `rs` the text `t` leads to a `(`, read outside a token, with 96
    lists open and a cell left for the new list. -/
def DeepParen (t : List UInt8) (rs : ReaderState) (h : Heap) : Prop :=
  ∃ pre post rs' h', t = pre ++ lparen :: post ∧ readChars pre rs h = .ok (rs', h') ∧
    rs'.state = .atom ∧ rs'.level = stackSize ∧ ∃ r, h'.allocNil = .ok r

/-- The states that `read_string` passes through: the current cell is missing
    only at the start. -/
structure Reached (rs : ReaderState) : Prop where
  leveled : Leveled rs
  root : (rs.cell = .null ∧ rs.level = 0) ∨ ∃ k, rs.cell = .cell k

section Accesses

variable {rs rs' : ReaderState} {h h' : Heap} {c : UInt8} {cell : ℕ} {t : List UInt8}

theorem Reached.level_of_null (hr : Reached rs) (hnull : rs.cell = .null) : rs.level = 0 := by
  obtain ⟨-, hlev⟩ | ⟨k, hk⟩ := hr.root
  · exact hlev
  · rw [hk] at hnull
    exact absurd hnull (by simp)

/-- With a list open there is a current cell. -/
theorem Reached.cell_of_level (hr : Reached rs) (hlev : rs.level ≠ 0) : ∃ k, rs.cell = .cell k := by
  obtain ⟨-, hzero⟩ | hk := hr.root
  · exact absurd hzero hlev
  · exact hk

theorem endListAccess_inBounds (hl : Leveled rs) : ∀ p ∈ endListAccess cell rs h, InBounds p := by
  intro p hp
  unfold endListAccess at hp
  have hs := hl.stack
  have hle := hl.level
  split at hp
  · exact absurd hp (by simp)
  · split at hp
    · obtain rfl := List.mem_singleton.mp hp
      refine ⟨?_, ?_, ?_⟩
      · change 0 ≤ rs.stack - 1
        omega
      · change rs.stack - 1 < stackSize
        omega
      · change rs.stack - 1 = ((rs.level - 1 : ℕ) : ℤ)
        omega
    · exact absurd hp (by simp)

theorem Leveled.inBounds (hl : Leveled rs) (hlt : rs.level < stackSize) :
    InBounds (rs.stack, rs.level) := by
  have hs := hl.stack
  refine ⟨?_, ?_, hs⟩
  · change 0 ≤ rs.stack
    omega
  · change rs.stack < stackSize
    omega

theorem stateAccess_inBounds (hl : Leveled rs)
    (hdeep : rs.state = .atom → c = lparen → (∃ r, h.allocNil = .ok r) → rs.level < stackSize) :
    ∀ p ∈ stateAccess c cell rs h, InBounds p := by
  intro p hp
  unfold stateAccess at hp
  cases hst : rs.state with
  | atom =>
    rw [hst] at hp
    dsimp only at hp
    split at hp
    · rename_i hc
      unfold openAccess at hp
      split at hp
      · rename_i r hal
        obtain rfl := List.mem_singleton.mp hp
        exact hl.inBounds (hdeep hst hc ⟨r, hal⟩)
      · exact absurd hp (by simp)
    · split at hp
      · exact endListAccess_inBounds hl p hp
      · exact absurd hp (by simp)
  | num | numNeg | sym =>
    rw [hst] at hp
    dsimp only at hp
    split at hp
    · exact endListAccess_inBounds hl p hp
    · exact absurd hp (by simp)
  | str | bytes | comment | errUnexpClosingBrace | errUnexpJunkInNumber | errUnexpJunkInBytes =>
    rw [hst] at hp
    exact absurd hp (by simp)

theorem ensureRoot_of_ne (hc : rs.cell ≠ .null) : ensureRoot rs h = .ok (rs, h) := by
  rw [ensureRoot, if_neg hc]

/-- The root does not change the state and the level. -/
theorem ensureRoot_level (hr : ensureRoot rs h = .ok (rs', h')) : rs'.level = rs.level := by
  unfold ensureRoot at hr
  split at hr
  · obtain ⟨⟨r, h₁⟩, -, hr⟩ := bind_ok.mp hr
    obtain ⟨⟨n, h₂⟩, -, hr⟩ := bind_ok.mp hr
    obtain ⟨rs₁, htop, hr⟩ := bind_ok.mp hr
    obtain ⟨-, -, -, hv⟩ := setTop_ok htop
    obtain ⟨rfl, -⟩ := Prod.mk.inj (Except.ok.inj hr)
    exact hv
  · obtain ⟨rfl, -⟩ := Prod.mk.inj (Except.ok.inj hr)
    rfl

theorem charAccess_inBounds (hr : Reached rs)
    (hdeep : rs.state = .atom → c = lparen → (∃ r, h.allocNil = .ok r) → rs.level < stackSize) :
    ∀ p ∈ charAccess c rs h, InBounds p := by
  intro p hp
  rcases List.mem_append.mp hp with hp | hp
  · unfold rootAccess at hp
    split at hp
    · rename_i hnull
      split at hp
      · obtain rfl := List.mem_singleton.mp hp
        exact hr.leveled.inBounds (by rw [hr.level_of_null hnull]; decide)
      · exact absurd hp (by simp)
    · exact absurd hp (by simp)
  · split at hp
    · rename_i rs₁ h₁ hroot
      split at hp
      · refine stateAccess_inBounds (ensureRoot_leveled hr.leveled hroot) ?_ p hp
        intro hst hc hal
        rw [ensureRoot_level hroot]
        by_cases hnull : rs.cell = .null
        · rw [hr.level_of_null hnull]
          decide
        · rw [ensureRoot_of_ne hnull] at hroot
          obtain ⟨rfl, rfl⟩ := Prod.mk.inj (Except.ok.inj hroot)
          exact hdeep hst hc hal
      · exact absurd hp (by simp)
    · exact absurd hp (by simp)

theorem readChar_reached (hr : Reached rs) (he : readChar c rs h = .ok (rs', h')) : Reached rs' := by
  obtain ⟨hl, hk⟩ := readChar_leveled hr.leveled he
  exact ⟨hl, .inr hk⟩

theorem start_reached (junk : Junk) : Reached (.start junk) :=
  ⟨⟨rfl, Nat.zero_le _⟩, .inl ⟨rfl, rfl⟩⟩

theorem readChars_cons (he : readChar c rs h = .ok (rs', h')) :
    readChars (c :: t) rs h =
      if rs'.state.isError then .ok (rs', h') else readChars t rs' h' := by
  rw [readChars, he]
  rfl

theorem readChars_leveled : ∀ {t : List UInt8} {rs rs' : ReaderState} {h h' : Heap}, Reached rs →
    readChars t rs h = .ok (rs', h') → Reached rs'
  | [], rs, rs', h, h', hr, he => by
    obtain ⟨rfl, -⟩ := Prod.mk.inj (Except.ok.inj he)
    exact hr
  | c :: t, rs, rs', h, h', hr, he => by
    obtain ⟨⟨rs₁, h₁⟩, hc, -⟩ := bind_ok.mp he
    rw [readChars_cons hc] at he
    split at he
    · obtain ⟨rfl, -⟩ := Prod.mk.inj (Except.ok.inj he)
      exact readChar_reached hr hc
    · exact readChars_leveled (readChar_reached hr hc) he

/-- Without a `(` at level 96 every access is inside. -/
theorem charsAccess_inBounds : ∀ {t : List UInt8} {rs : ReaderState} {h : Heap}, Reached rs →
    ¬ DeepParen t rs h → ∀ p ∈ charsAccess t rs h, InBounds p
  | [], _, _, _, _, _, hp => absurd hp (by simp [charsAccess])
  | c :: t, rs, h, hr, hdeep, p, hp => by
    rw [charsAccess] at hp
    rcases List.mem_append.mp hp with hp | hp
    · refine charAccess_inBounds hr ?_ p hp
      intro hst hc hal
      have hle := hr.leveled.level
      by_contra hge
      exact hdeep ⟨[], t, rs, h, by rw [hc]; rfl, rfl, hst, by omega, hal⟩
    · split at hp
      · rename_i rs₁ h₁ hc
        split at hp
        · exact absurd hp (by simp)
        · rename_i herr
          refine charsAccess_inBounds (readChar_reached hr hc) ?_ p hp
          rintro ⟨pre, post, rs', h', ht, hrun, hrest⟩
          refine hdeep ⟨c :: pre, post, rs', h', by rw [ht]; rfl, ?_, hrest⟩
          rw [readChars_cons hc, if_neg herr, hrun]
      · exact absurd hp (by simp)

/-- At a `(` at level 96 the access is outside. -/
theorem charsAccess_outside : ∀ {t : List UInt8} {rs : ReaderState} {h : Heap}, Reached rs →
    DeepParen t rs h → ∃ p ∈ charsAccess t rs h, ¬ InBounds p
  | t, rs, h, hr, ⟨[], post, rs', h', ht, hrun, hst, hlev, hal⟩ => by
    obtain ⟨rfl, rfl⟩ := Prod.mk.inj (Except.ok.inj hrun)
    obtain ⟨r, hal⟩ := hal
    obtain ⟨k, hk⟩ := hr.cell_of_level (by rw [hlev]; decide)
    refine ⟨(rs.stack, rs.level), ?_, ?_⟩
    · have hopen : stateAccess lparen k rs h = [(rs.stack, rs.level)] := by
        rw [stateAccess, hst]
        dsimp only
        rw [if_pos rfl, openAccess, hal]
      rw [ht, List.nil_append, charsAccess, charAccess, ensureRoot_of_ne (by rw [hk]; simp)]
      dsimp only
      rw [hk]
      refine List.mem_append_left _ (List.mem_append_right _ ?_)
      change (rs.stack, rs.level) ∈ stateAccess lparen k rs h
      rw [hopen]
      exact List.mem_singleton.mpr rfl
    · intro hin
      have hs := hr.leveled.stack
      have hlt : rs.stack < stackSize := hin.2.1
      omega
  | t, rs, h, hr, ⟨c :: pre, post, rs', h', ht, hrun, hst, hlev, hal⟩ => by
    obtain ⟨⟨rs₁, h₁⟩, hc, -⟩ := bind_ok.mp hrun
    rw [readChars_cons hc] at hrun
    split at hrun
    · rename_i herr
      obtain ⟨rfl, -⟩ := Prod.mk.inj (Except.ok.inj hrun)
      rw [hst] at herr
      exact absurd herr (by decide)
    · rename_i herr
      obtain ⟨p, hp, hout⟩ := charsAccess_outside (t := pre ++ lparen :: post)
        (readChar_reached hr hc) ⟨pre, post, rs', h', rfl, hrun, hst, hlev, hal⟩
      refine ⟨p, ?_, hout⟩
      rw [ht, List.cons_append, charsAccess, hc]
      dsimp only
      rw [if_neg herr]
      exact List.mem_append_right _ hp

theorem resultAccess_inBounds (hr : Reached rs) : ∀ p ∈ resultAccess rs, InBounds p := by
  intro p hp
  unfold resultAccess at hp
  split at hp
  · exact absurd hp (by simp)
  · rename_i hend
    obtain rfl := List.mem_singleton.mp hp
    have hlev : rs.level = 0 := by
      by_contra hne
      exact hend (.inr hne)
    exact hr.leveled.inBounds (by rw [hlev]; decide)

end Accesses

/-- All accesses to the stack are inside `stack_root`, at the index
    `rs->level`, exactly when no list is opened as the 97th level. -/
theorem stack_in_bounds_iff (junk : Junk) (input : List UInt8) (h : Heap) :
    (∀ p ∈ stringAccess junk input h, InBounds p) ↔
      ¬ DeepParen (effective input) (.start junk) h := by
  constructor
  · intro hall hdeep
    obtain ⟨p, hp, hout⟩ := charsAccess_outside (start_reached junk) hdeep
    exact hout (hall p (List.mem_append_left _ hp))
  · intro hdeep p hp
    rcases List.mem_append.mp hp with hp | hp
    · exact charsAccess_inBounds (start_reached junk) hdeep p hp
    · split at hp
      · rename_i rs h' hrun
        exact resultAccess_inBounds (readChars_leveled (start_reached junk) hrun) p hp
      · exact absurd hp (by simp)

/-- Opening `n` lists. -/
theorem parens_runs (hex : Bool) : ∀ n ≤ stackSize,
    ∃ a, Runs (.start hex) (List.replicate n lparen) n a ∧ a.tok = .idle ∧ a.outer.length = n
  | 0, _ => ⟨_, Runs.nil _, rfl, rfl⟩
  | n + 1, hn => by
    obtain ⟨⟨tok, hx, cur, outer, first⟩, hrun, rfl, hout⟩ := parens_runs hex n (by omega)
    have hlen : (cur :: outer).length = n + 1 := by rw [List.length_cons, hout]
    have hopen := Runs.single (c := lparen) (a := ⟨.idle, hx, cur, outer, first⟩) rfl
      (Fits.of_idle (show (cur :: outer).length ≤ stackSize by rw [hlen]; exact hn) rfl)
    rw [List.replicate_succ']
    exact ⟨_, hrun.append hopen, rfl, hlen⟩

/-- 97 open parens: the last one stores behind the last pointer of
    `stack_root`. -/
theorem stack_out_of_bounds_parens :
    ∃ p ∈ stringAccess ⟨fun _ => .null, 0, 0⟩ (List.replicate 97 lparen) Heap.init,
      ¬ InBounds p := by
  obtain ⟨a, hrun, htok, hout⟩ := parens_runs (decide ((0 : ℕ) = vstHex)) 96 le_rfl
  obtain ⟨rs, h', hr, ⟨S, cs, c, os, hc, ht⟩, hrm⟩ := @readChars_start_sim ⟨fun _ => .null, 0, 0⟩
    _ Heap.init _ _ init_freeListOk (by simp) hrun (by decide)
  rw [htok] at ht
  have hlev : rs.level = stackSize := by rw [hc.level, hc.outer.length_eq, hout]
  have hroom : Heap.init.room = maxCells := rfl
  have hmax : 98 < maxCells := by decide
  obtain ⟨n, h₁, hal, -⟩ := allocCell_spec hc.freeListOk (by omega)
    fun _ => ⟨.null, .null, tagCons⟩
  have htext : effective (List.replicate 97 lparen) = List.replicate 96 lparen ++ [lparen] := by
    rw [effective, List.length_replicate, toInt32_of_lt (by decide), ← List.replicate_succ']
    rfl
  obtain ⟨p, hp, hp'⟩ := charsAccess_outside (start_reached ⟨fun _ => .null, 0, 0⟩)
    ⟨_, [], rs, h', htext, hr, ht.1, hlev, _, hal⟩
  exact ⟨p, List.mem_append_left _ hp, hp'⟩

end Interim.Reader
