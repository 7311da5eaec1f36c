import Interim.Alloc.Sizes
import Interim.Lisp.Copy
import Interim.Machine.Fields

/-!
# Typing and erasing in the editor

`insert` and `remove` of `lib.l` (lines 85–104) and the two places of
`sledge/os/editor.l` that use them: `handle-editor-key` (lines 196–220) for a
key that is no command, and `backspace` (lines 119–123).

* `insert_text`, `remove_text` — on a string as `concat` leaves it `insert`
  puts the byte in front of position `pos`, and `remove` takes a byte out.
* `typeKey_spec`, `backspace_spec` — what a key and a backspace do to the
  contents of an editor.
* `typing_never` — `concat` counts the NUL in the size of its result, so
  `insert` keeps the space that was to make room. Every key adds a space at the
  end of the contents, and no backspace takes it away.

The handlers of the other keys, which draw, are parameters. `print` writes to
the console only; the list it prints is allocated.
-/

namespace Interim.Lisp

open Heap
open Machine (withElem)
open Writer (cellAt elemAt intOf)

/-! ## `insert` and `remove` -/

/-- `(insert buf pos k)` (`lib.l`, lines 96–104). -/
def insert (fuel : ℕ) (h : Heap) (buf : Word) (pos k : BitVec 64) : Except Stop Heap := do
  let p := boxInt (pos + 0)
  let dest := boxInt (pos + 1)
  let c := boxInt (k + 0)
  let sz ← size h buf
  let num := boxInt (sz - (pos + 1))
  let (_, h) ← copy fuel h buf p dest num
  put8 h buf p c

/-- `(remove buf pos)` (lines 87–94). -/
def remove (fuel : ℕ) (h : Heap) (buf : Word) (pos : BitVec 64) : Except Stop Heap := do
  let p := boxInt (pos + 0)
  let start := boxInt (pos + 1)
  let sz ← size h buf
  let num := boxInt (sz - pos)
  let (_, h) ← copy fuel h buf start p num
  let sz ← size h buf
  put8 h buf (sz - 1) 0

section Edit

variable {h : Heap} {x p : ℕ} {t data' : List UInt8} {c : UInt8}

/-- The bytes from `p` on moved up by one, and `c` at `p`. -/
theorem set_moved_up (hp : p ≤ t.length) (hlen : data'.length = t.length + 2)
    (hin : ∀ j < t.length - p, data'[p + 1 + j]? = (t ++ [0, 0])[p + j]?)
    (hout : ∀ j, j < p + 1 ∨ p + 1 + (t.length - p) ≤ j → data'[j]? = (t ++ [0, 0])[j]?) :
    data'.set p c = t.take p ++ c :: t.drop p ++ [0] := by
  refine List.ext_getElem? fun i => ?_
  rcases lt_trichotomy i p with hlt | rfl | hgt
  · have hi := hout i (by omega)
    grind
  · grind
  · by_cases hle : i ≤ t.length
    · have hi := hin (i - (p + 1)) (by omega)
      rw [show p + 1 + (i - (p + 1)) = i by omega] at hi
      grind
    · have hi := hout i (by omega)
      grind

/-- The bytes behind `p` moved down by one, and a NUL behind them. -/
theorem set_moved_down (hp : p < t.length) (hlen : data'.length = t.length + 1)
    (hin : ∀ j < t.length - p, data'[p + j]? = (t ++ [0])[p + 1 + j]?)
    (hout : ∀ j, j < p ∨ p + (t.length - p) ≤ j → data'[j]? = (t ++ [0])[j]?) :
    data'.set (t.length - 1) 0 = t.take p ++ t.drop (p + 1) ++ [0, 0] := by
  refine List.ext_getElem? fun i => ?_
  by_cases hlt : i < p
  · have hi := hout i (by omega)
    grind
  · by_cases hle : i < t.length
    · have hi := hin (i - p) (by omega)
      rw [show p + (i - p) = i by omega] at hi
      grind
    · have hi := hout i (by omega)
      grind

/-- `insert` on a string whose contents leave one more byte of the size, as
    `concat` makes it. -/
theorem insert_text (ht : TextCell h x (t.length + 1) (t ++ [0, 0])) (hp : p ≤ t.length) :
    ∃ N b, (h.cells x).ar = .ptr (.bytes b) 0 ∧ ∀ fuel, N ≤ fuel →
      insert fuel h (.cell x) (BitVec.ofInt 64 p) (BitVec.ofInt 64 c.toNat) =
        .ok (h.setBytes b (t.take p ++ c :: t.drop p ++ [0])) := by
  have hlt := ht.length_lt
  have hc := c.toNat_lt
  have hlen : (t ++ [(0 : UInt8), 0]).length = t.length + 2 := by simp
  rw [hlen] at hlt
  have hsrc : p + (t.length - p) ≤ (t ++ [(0 : UInt8), 0]).length := by omega
  have hdst : p + 1 + (t.length - p) ≤ (t ++ [(0 : UInt8), 0]).length := by omega
  obtain ⟨N, b, data', hB, hrun, hlen', hin, hout⟩ := copy_memmove ht hsrc hdst
  rw [hlen] at hlen'
  refine ⟨N, b, hB, fun fuel hf => ?_⟩
  have hput := put8_text (textCell_setBytes ht hB (by rw [hlen', hlen])) hB
    (show p < data'.length by omega) c
  rw [setBytes_setBytes, set_moved_up hp hlen' hin hout] at hput
  have hcopy := hrun fuel hf
  rw [← BitVec.ofInt_natCast, ← BitVec.ofInt_natCast, ← BitVec.ofInt_natCast] at hcopy
  have hnum : boxInt (BitVec.ofInt 64 (t.length + 1 : ℕ) - BitVec.ofInt 64 (p + 1 : ℕ)) =
      BitVec.ofInt 64 (t.length - p : ℕ) := by
    rw [ofInt_sub_ofInt, boxInt_ofInt (by omega) (by omega)]
    congr 1
    omega
  unfold insert
  rw [size_text ht, ok_bind, show (0 : BitVec 64) = BitVec.ofInt 64 0 from rfl,
    show (1 : BitVec 64) = BitVec.ofInt 64 (1 : ℕ) from rfl, boxInt_add (by omega) (by omega),
    boxInt_add (by omega) (by omega), boxInt_add (by omega) (by omega), ofInt_add_ofInt, add_zero,
    add_zero, ← Nat.cast_add, hnum]
  dsimp only
  rw [hcopy, ok_bind]
  exact hput

/-- `remove` on a string whose size is the length of its contents. -/
theorem remove_text (ht : TextCell h x t.length (t ++ [0])) (hp : p < t.length) :
    ∃ N b, (h.cells x).ar = .ptr (.bytes b) 0 ∧ ∀ fuel, N ≤ fuel →
      remove fuel h (.cell x) (BitVec.ofInt 64 p) =
        .ok (h.setBytes b (t.take p ++ t.drop (p + 1) ++ [0, 0])) := by
  have hlt := ht.length_lt
  have hlen : (t ++ [(0 : UInt8)]).length = t.length + 1 := by simp
  rw [hlen] at hlt
  have hsrc : p + 1 + (t.length - p) ≤ (t ++ [(0 : UInt8)]).length := by omega
  have hdst : p + (t.length - p) ≤ (t ++ [(0 : UInt8)]).length := by omega
  obtain ⟨N, b, data', hB, hrun, hlen', hin, hout⟩ := copy_memmove ht hsrc hdst
  rw [hlen] at hlen'
  refine ⟨N, b, hB, fun fuel hf => ?_⟩
  have ht' := textCell_setBytes ht hB (show data'.length = (t ++ [(0 : UInt8)]).length by omega)
  have hput := put8_text ht' hB (show t.length - 1 < data'.length by omega) 0
  rw [setBytes_setBytes, set_moved_down hp hlen' hin hout] at hput
  have hcopy := hrun fuel hf
  rw [← BitVec.ofInt_natCast, ← BitVec.ofInt_natCast, ← BitVec.ofInt_natCast] at hcopy
  have hnum : boxInt (BitVec.ofInt 64 t.length - BitVec.ofInt 64 p) =
      BitVec.ofInt 64 (t.length - p : ℕ) := by
    rw [ofInt_sub_ofInt, boxInt_ofInt (by omega) (by omega)]
    congr 1
    omega
  have hlast : BitVec.ofInt 64 t.length - BitVec.ofInt 64 (1 : ℕ) =
      BitVec.ofInt 64 (t.length - 1 : ℕ) := by
    rw [ofInt_sub_ofInt]
    congr 1
    omega
  unfold remove
  rw [size_text ht, ok_bind, show (0 : BitVec 64) = BitVec.ofInt 64 0 from rfl,
    show (1 : BitVec 64) = BitVec.ofInt 64 (1 : ℕ) from rfl, boxInt_add (by omega) (by omega),
    boxInt_add (by omega) (by omega), add_zero, ← Nat.cast_add, hnum]
  dsimp only
  rw [hcopy, ok_bind]
  dsimp only
  rw [size_text ht', ok_bind, hlast]
  exact hput

end Edit

/-! ## The editor -/

/-- The fields of `(struct editor …)` (`editor.l`, lines 2–15) that typing
    reads and writes, by position. -/
abbrev fieldBuffer : ℕ := 0

abbrev fieldCursor : ℕ := 2

abbrev fieldBufDirty : ℕ := 11

/-- `(sget s f)`, the field being number `i`; element 0 is the definition. -/
def sget (h : Heap) (s : Word) (i : ℕ) : Except Stop Word := do
  let c ← cellAt h s
  elemAt h c.ar (i + 1)

/-- `(sget s f)` as an integer. -/
def sgetInt (h : Heap) (s : Word) (i : ℕ) : Except Stop (BitVec 64) := do
  let w ← sget h s i
  let c ← cellAt h w
  intOf c.ar

/-- `(sput s f v)`. -/
def sput (h : Heap) (s : Word) (i : ℕ) (v : Word) : Except Stop Heap := do
  let c ← cellAt h s
  match c.ar with
  | .ptr (.elems e) off => if off = 0 then h.setElem e (i + 1) v else .error .fault
  | _ => .error .fault

/-- The constants of the program: the message `"handle-editor-key2"`, the
    string `" "` and the integer 1. -/
structure Literals where
  message : Word
  space : Word
  one : Word

/-- The handlers of the command keys but backspace. -/
structure Commands where
  cursorRight : Heap → Except Stop Heap
  cursorLeft : Heap → Except Stop Heap
  cursorUp : Heap → Except Stop Heap
  cursorDown : Heap → Except Stop Heap
  yieldFocus : Heap → Except Stop Heap

/-- Lines 121–122 and 212–213: store the integer `v` in `cursor` and set
    `buf-dirty`. -/
def setCursor (lits : Literals) (h : Heap) (this : Word) (v : BitVec 64) : Except Stop Heap := do
  let (c, h) ← h.allocInt v
  let h ← sput h this fieldCursor (.cell c)
  sput h this fieldBufDirty lits.one

/-- `(backspace this)` (lines 119–123). -/
def backspace (fuel : ℕ) (lits : Literals) (h : Heap) (this : Word) : Except Stop Heap := do
  let cursor ← sgetInt h this fieldCursor
  if truth (gt cursor 0) then
    let buffer ← sget h this fieldBuffer
    let h ← remove fuel h buffer (boxInt (cursor - 1))
    let cursor ← sgetInt h this fieldCursor
    setCursor lits h this (cursor - 1)
  else .ok h

/-- Line 208: the list that is printed. -/
def keyMessage (lits : Literals) (h : Heap) (key : Word) : Except Stop Heap := do
  let (l, h) ← h.allocNil
  let (l, h) ← h.allocCons key (.cell l)
  let (_, h) ← h.allocCons lits.message (.cell l)
  .ok h

/-- Lines 208–210: a copy of the buffer, with room for a character, and `k`
    put into it. -/
def insertKey (fuel : ℕ) (lits : Literals) (h : Heap) (this key : Word) :
    Except Stop (ℕ × Heap) := do
  let h ← keyMessage lits h key
  let buffer ← sget h this fieldBuffer
  let (buf, h) ← h.allocConcat buffer lits.space
  let cursor ← sgetInt h this fieldCursor
  let k ← cellAt h key
  let k ← intOf k.ar
  let h ← insert fuel h (.cell buf) cursor (boxInt (k + 0))
  .ok (buf, h)

/-- Lines 208–213: a key that is no command. -/
def typeKey (fuel : ℕ) (lits : Literals) (h : Heap) (this key : Word) : Except Stop Heap := do
  let (buf, h) ← insertKey fuel lits h this key
  let h ← sput h this fieldBuffer (.cell buf)
  let cursor ← sgetInt h this fieldCursor
  setCursor lits h this (cursor + 1)

/-- `(handle-editor-key task-obj this k)` (lines 196–220), `key` being the cell
    of `k`. -/
def handleEditorKey (fuel : ℕ) (lits : Literals) (cmds : Commands) (h : Heap) (this key : Word) :
    Except Stop Heap := do
  let k ← cellAt h key
  let k ← intOf k.ar
  if truth (eq k 20) then cmds.cursorRight h
  else if truth (eq k 19) then cmds.cursorLeft h
  else if truth (eq k 0x7f) then backspace fuel lits h this
  else if truth (eq k 17) then cmds.cursorUp h
  else if truth (eq k 18) then cmds.cursorDown h
  else if truth (eq k 9) then cmds.yieldFocus h
  else if truth (and (gt k 0) (lt k 250)) then typeKey fuel lits h this key
  else .ok h

/-- The keys that `handle-editor-key` takes for commands. -/
def commandKeys : List ℕ := [20, 19, 0x7f, 17, 18, 9]

/-! ## The contents of an editor -/

/-- Cell `this` is an editor with its fields in array `e`, the buffer in cell
    `b` and the cursor `p` in cell `c`. -/
structure EditorCells (h : Heap) (this e b c p : ℕ) : Prop where
  live : this ∉ h.Supply
  fields : (h.cells this).ar = .ptr (.elems e) 0
  array : e < h.elemsUsed
  length : (h.elems e).length = 13
  buffer : (h.elems e)[fieldBuffer + 1]? = some (.cell b)
  cursor : (h.elems e)[fieldCursor + 1]? = some (.cell c)
  cursorLive : c ∉ h.Supply
  position : (h.cells c).ar = .int (BitVec.ofInt 64 p)

/-- The editor in cell `this` has the contents `s` and the cursor `p`. -/
def EditorAt (h : Heap) (this : ℕ) (s : List UInt8) (p : ℕ) : Prop :=
  ∃ e b c size data, EditorCells h this e b c p ∧ TextCell h b size data ∧ 0 ∈ data ∧
    content data = s

/-- Typing the key in cell `key` gives the heap `h'`. -/
def Types (lits : Literals) (cmds : Commands) (h : Heap) (this key : ℕ) (h' : Heap) : Prop :=
  ∃ N, ∀ fuel, N ≤ fuel → handleEditorKey fuel lits cmds h (.cell this) (.cell key) = .ok h'

/-- A backspace gives the heap `h'`. -/
def Erases (lits : Literals) (h : Heap) (this : ℕ) (h' : Heap) : Prop :=
  ∃ N, ∀ fuel, N ≤ fuel → backspace fuel lits h (.cell this) = .ok h'

section EditorCells

variable {h h' : Heap} {this e b c p : ℕ}

theorem EditorCells.keeps (hk : KeepsAll h h') (hc : EditorCells h this e b c p) :
    EditorCells h' this e b c p := by
  have hel := hk.elems e hc.array
  exact ⟨fun hs => hc.live (hk.keeps.supply hs), by rw [hk.cell hc.live]; exact hc.fields,
    lt_of_lt_of_le hc.array hk.elemsUsed, by rw [hel]; exact hc.length,
    by rw [hel]; exact hc.buffer, by rw [hel]; exact hc.cursor,
    fun hs => hc.cursorLive (hk.keeps.supply hs), by rw [hk.cell hc.cursorLive]; exact hc.position⟩

theorem EditorCells.setBytes (hc : EditorCells h this e b c p) (B : ℕ) (data : List UInt8) :
    EditorCells (h.setBytes B data) this e b c p :=
  ⟨hc.live, hc.fields, hc.array, hc.length, hc.buffer, hc.cursor, hc.cursorLive, hc.position⟩

theorem sget_cells (hc : EditorCells h this e b c p) {i : ℕ} {w : Word}
    (hw : (h.elems e)[i + 1]? = some w) : sget h (.cell this) i = .ok w := by
  unfold sget
  rw [cellAt_cell, ok_bind, hc.fields]
  unfold elemAt
  dsimp only
  rw [if_pos rfl, hw]

theorem sgetInt_cells (hc : EditorCells h this e b c p) :
    sgetInt h (.cell this) fieldCursor = .ok (BitVec.ofInt 64 p) := by
  unfold sgetInt
  rw [sget_cells hc hc.cursor, ok_bind, cellAt_cell, ok_bind, hc.position]
  rfl

theorem sput_cells (hc : EditorCells h this e b c p) {i : ℕ} (hi : i < 12) (w : Word) :
    sput h (.cell this) i w = .ok (withElem h e (i + 1) w) := by
  unfold sput
  rw [cellAt_cell, ok_bind, hc.fields]
  dsimp only
  rw [if_pos rfl]
  unfold setElem
  rw [if_pos (by rw [hc.length]; omega)]
  rfl

theorem withElem_elems (e k : ℕ) (w : Word) :
    (withElem h e k w).elems e = (h.elems e).set k w := Function.update_self _ _ _

/-- Another buffer. -/
theorem EditorCells.withBuffer (hc : EditorCells h this e b c p) (b' : ℕ) :
    EditorCells (withElem h e (fieldBuffer + 1) (.cell b')) this e b' c p := by
  refine ⟨hc.live, hc.fields, hc.array, ?_, ?_, ?_, hc.cursorLive, hc.position⟩
  · rw [withElem_elems, List.length_set, hc.length]
  · rw [withElem_elems, List.getElem?_set_self (by rw [hc.length]; decide)]
  · rw [withElem_elems, List.getElem?_set_ne (by decide), hc.cursor]

/-- Another cursor. -/
theorem EditorCells.withCursor (hc : EditorCells h this e b c p) {c' q : ℕ} (hl : c' ∉ h.Supply)
    (hq : (h.cells c').ar = .int (BitVec.ofInt 64 q)) :
    EditorCells (withElem h e (fieldCursor + 1) (.cell c')) this e b c' q := by
  refine ⟨hc.live, hc.fields, hc.array, ?_, ?_, ?_, hl, hq⟩
  · rw [withElem_elems, List.length_set, hc.length]
  · rw [withElem_elems, List.getElem?_set_ne (by decide), hc.buffer]
  · rw [withElem_elems, List.getElem?_set_self (by rw [hc.length]; decide)]

theorem EditorCells.withDirty (hc : EditorCells h this e b c p) (w : Word) :
    EditorCells (withElem h e (fieldBufDirty + 1) w) this e b c p := by
  refine ⟨hc.live, hc.fields, hc.array, ?_, ?_, ?_, hc.cursorLive, hc.position⟩
  · rw [withElem_elems, List.length_set, hc.length]
  · rw [withElem_elems, List.getElem?_set_ne (by decide), hc.buffer]
  · rw [withElem_elems, List.getElem?_set_ne (by decide), hc.cursor]

theorem textCell_withElem {x size e k : ℕ} {data : List UInt8} {w : Word}
    (ht : TextCell h x size data) : TextCell (withElem h e k w) x size data :=
  ⟨ht.live, ht.tag, ht.dr, ht.buffer, ht.size_le, ht.length_lt⟩

end EditorCells

/-! ## Typing -/

/-- The contents `s` after `k` was typed at position `p`: a space is left at
    the end. -/
def typed (s : List UInt8) (p : ℕ) (k : UInt8) : List UInt8 := s.take p ++ k :: s.drop p ++ [32]

/-- `lits.space` is the string `" "`. -/
def Literals.Ok (lits : Literals) (h : Heap) : Prop :=
  ∃ x size data, lits.space = .cell x ∧ TextCell h x size data ∧ 0 ∈ data ∧ content data = [32]

/-- Cell `key` holds the key code `k`. -/
def IsKey (h : Heap) (key : ℕ) (k : UInt8) : Prop :=
  key ∉ h.Supply ∧ (h.cells key).ar = .int (BitVec.ofInt 64 k.toNat)

section Typing

variable {h h' : Heap} {this e b c p key size fuel : ℕ} {data s : List UInt8} {k : UInt8}
  {lits : Literals} {cmds : Commands}

/-- The new cursor. -/
theorem setCursor_spec (hok : h.FreeListOk) (hroom : 0 < h.room)
    (hc : EditorCells h this e b c p) {q : ℕ} (hq : q < 2 ^ 31) :
    ∃ c' h', setCursor lits h (.cell this) (BitVec.ofInt 64 q) = .ok h' ∧
      EditorCells h' this e b c' q ∧ h'.FreeListOk ∧
      (TextCell h b size data → TextCell h' b size data) := by
  obtain ⟨c', h₁, hal, -, -, hout, hcell, -⟩ := allocCell_spec hok hroom fun c =>
    { c with ar := .int (boxInt (BitVec.ofInt 64 q)), tag := tagInt }
  obtain ⟨hk, -⟩ := allocCell_keeps hok hal
  have hval : (h₁.cells c').ar = .int (BitVec.ofInt 64 q) := by
    rw [hcell, boxInt_ofInt (by omega) (by omega)]
  have hc₁ := hc.keeps hk
  have hc₂ := hc₁.withCursor hout hval
  refine ⟨c', withElem (withElem h₁ e (fieldCursor + 1) (.cell c')) e (fieldBufDirty + 1) lits.one,
    ?_, hc₂.withDirty lits.one, ⟨hk.freeListOk.nodup, hk.freeListOk.below⟩,
    fun ht => textCell_withElem (textCell_withElem (ht.keeps hk))⟩
  unfold setCursor allocInt
  rw [hal, ok_bind]
  dsimp only
  rw [sput_cells hc₁ (by decide), ok_bind, sput_cells hc₂ (by decide)]

theorem setCursor_room {v : BitVec 64} (hr : setCursor lits h (.cell this) v = .ok h') :
    0 < h.room := by
  obtain ⟨⟨_, _⟩, hal, -⟩ := bind_ok.mp hr
  obtain ⟨⟨_, _⟩, hc, -⟩ := bind_ok.mp hal
  exact cellAlloc_room hc

theorem keyMessage_spec (lits : Literals) (hok : h.FreeListOk) (hroom : 3 ≤ h.room) (key : Word) :
    ∃ h', keyMessage lits h key = .ok h' ∧ KeepsAll h h' ∧ h.room = h'.room + 3 := by
  obtain ⟨i, h₁, hal, -⟩ := allocCell_spec hok (by omega) fun _ => ⟨.null, .null, tagCons⟩
  obtain ⟨hk₁, hrm₁⟩ := allocCell_ok hok hal
  obtain ⟨i₂, h₂, hal₂, -⟩ := allocCell_spec hk₁.freeListOk (by omega)
    fun _ => ⟨key, .cell i, tagCons⟩
  obtain ⟨hk₂, hrm₂⟩ := allocCell_ok hk₁.freeListOk hal₂
  obtain ⟨i₃, h₃, hal₃, -⟩ := allocCell_spec hk₂.freeListOk (by omega)
    fun _ => ⟨lits.message, .cell i₂, tagCons⟩
  obtain ⟨hk₃, hrm₃⟩ := allocCell_ok hk₂.freeListOk hal₃
  refine ⟨h₃, ?_, hk₁.trans (hk₂.trans hk₃), by omega⟩
  unfold keyMessage allocNil allocCons
  rw [hal, ok_bind]
  dsimp only
  rw [hal₂, ok_bind]
  dsimp only
  rw [hal₃, ok_bind]

theorem keyMessage_ok (hok : h.FreeListOk) {key : Word} (hr : keyMessage lits h key = .ok h') :
    KeepsAll h h' ∧ h.room = h'.room + 3 := by
  obtain ⟨⟨i, h₁⟩, hal, hr⟩ := bind_ok.mp hr
  obtain ⟨hk₁, hrm₁⟩ := allocCell_ok (f := fun _ => ⟨.null, .null, tagCons⟩) hok hal
  obtain ⟨⟨i₂, h₂⟩, hal₂, hr⟩ := bind_ok.mp hr
  obtain ⟨hk₂, hrm₂⟩ :=
    allocCell_ok (f := fun _ => ⟨key, .cell i, tagCons⟩) hk₁.freeListOk hal₂
  obtain ⟨⟨_, h₃⟩, hal₃, hr⟩ := bind_ok.mp hr
  obtain ⟨hk₃, hrm₃⟩ :=
    allocCell_ok (f := fun _ => ⟨lits.message, .cell i₂, tagCons⟩) hk₂.freeListOk hal₃
  obtain rfl := Except.ok.inj hr
  exact ⟨hk₁.trans (hk₂.trans hk₃), by omega⟩

/-- The new buffer holds the key, and the space behind the contents. -/
theorem insertKey_spec (hok : h.FreeListOk) (hroom : 4 ≤ h.room) (hlits : lits.Ok h)
    (hkey : IsKey h key k) (hc : EditorCells h this e b c p) (ht : TextCell h b size data)
    (hz : 0 ∈ data) (hp : p ≤ (content data).length) (hlen : (content data).length + 3 < 2 ^ 31) :
    ∃ N x h', (∀ fuel, N ≤ fuel →
        insertKey fuel lits h (.cell this) (.cell key) = .ok (x, h')) ∧
      EditorCells h' this e b c p ∧
      TextCell h' x (typed (content data) p k).length (typed (content data) p k ++ [0]) ∧
      h'.FreeListOk ∧ h.room = h'.room + 4 := by
  obtain ⟨y, sizeY, dataY, hy, hty, hzy, hspace⟩ := hlits
  have hkb := k.toNat_lt
  obtain ⟨h₁, hmsg, hk₁, hrm₁⟩ := keyMessage_spec lits hok (by omega) (.cell key)
  obtain ⟨x, h₂, hal, hnew⟩ := allocConcat_spec hk₁.freeListOk (by omega) (ht.keeps hk₁)
    (hty.keeps hk₁) hz hzy (by rw [hspace]; simpa using hlen)
  have hrm₂ := hnew.room
  rw [hspace] at hnew
  generalize content data = s at *
  have htext : TextCell h₂ x ((s ++ [32]).length + 1) (s ++ [32] ++ [0, 0]) := by
    have ht₂ := hnew.textCell (by simp) (by simp; omega)
    simpa using ht₂
  obtain ⟨N, B, hB, hins⟩ := insert_text (c := k) htext (p := p) (by simp; omega)
  have hbytes : (s ++ [32]).take p ++ k :: (s ++ [32]).drop p = typed s p k := by
    rw [List.take_append_of_le_length hp, List.drop_append_of_le_length hp]
    simp [typed]
  rw [hbytes] at hins
  have hk := hk₁.trans hnew.keeps
  have hc₂ := hc.keeps hk
  have htyped : (typed s p k).length = s.length + 2 := by
    simp [typed]
    omega
  refine ⟨N, x, h₂.setBytes B (typed s p k ++ [0]), fun fuel hf => ?_, hc₂.setBytes _ _, ?_,
    ⟨hk.freeListOk.nodup, hk.freeListOk.below⟩, ?_⟩
  · have hval : intOf (h₂.cells key).ar = .ok (BitVec.ofInt 64 k.toNat) := by
      rw [hk.cell hkey.1, hkey.2]
      rfl
    unfold insertKey
    rw [hmsg, ok_bind, sget_cells (hc.keeps hk₁) (hc.keeps hk₁).buffer, ok_bind, hy, hal, ok_bind]
    dsimp only
    rw [sgetInt_cells hc₂, ok_bind, cellAt_cell, ok_bind, hval, ok_bind,
      show (0 : BitVec 64) = BitVec.ofInt 64 0 from rfl, boxInt_add (by omega) (by omega), add_zero,
      hins fuel hf, ok_bind]
  · have hsize : (s ++ [(32 : UInt8)]).length + 1 = (typed s p k).length := by
      rw [htyped]
      simp
    rw [← hsize]
    exact textCell_setBytes htext hB (by simp [htyped])
  · change h.room = h₂.room + 4
    omega

/-- What a key that was inserted needed. -/
theorem insertKey_room (hok : h.FreeListOk) (hlits : lits.Ok h) (hc : EditorCells h this e b c p)
    (ht : TextCell h b size data) (hz : 0 ∈ data) {r : ℕ × Heap}
    (hr : insertKey fuel lits h (.cell this) (.cell key) = .ok r) :
    4 ≤ h.room ∧ (content data).length + 3 < 2 ^ 31 := by
  obtain ⟨y, sizeY, dataY, hy, hty, hzy, hspace⟩ := hlits
  obtain ⟨h₁, hmsg, hr⟩ := bind_ok.mp hr
  obtain ⟨hk₁, hrm₁⟩ := keyMessage_ok hok hmsg
  rw [sget_cells (hc.keeps hk₁) (hc.keeps hk₁).buffer, ok_bind, hy] at hr
  obtain ⟨⟨_, _⟩, hal, -⟩ := bind_ok.mp hr
  obtain ⟨hlt, hnew⟩ :=
    allocConcat_inv hk₁.freeListOk (ht.keeps hk₁) (hty.keeps hk₁) hz hzy hal
  have hrm₂ := hnew.room
  rw [hspace] at hlt
  exact ⟨by omega, by simpa using hlt⟩

/-- A key that is no command: the contents are `typed`, the cursor moves on. -/
theorem typeKey_spec (hok : h.FreeListOk) (hroom : 5 ≤ h.room) (hlits : lits.Ok h)
    (hkey : IsKey h key k) (hc : EditorCells h this e b c p) (ht : TextCell h b size data)
    (hz : 0 ∈ data) (hp : p ≤ (content data).length) (hlen : (content data).length + 3 < 2 ^ 31) :
    ∃ N x c' h', (∀ fuel, N ≤ fuel → typeKey fuel lits h (.cell this) (.cell key) = .ok h') ∧
      EditorCells h' this e x c' (p + 1) ∧
      TextCell h' x (typed (content data) p k).length (typed (content data) p k ++ [0]) ∧
      h'.FreeListOk := by
  obtain ⟨N, x, h₁, hins, hc₁, htext, hok₁, hrm⟩ :=
    insertKey_spec hok (by omega) hlits hkey hc ht hz hp hlen
  have hc₂ := hc₁.withBuffer x
  obtain ⟨c', h', hset, hc', hok', hkeep⟩ := setCursor_spec
    (h := withElem h₁ e (fieldBuffer + 1) (.cell x)) ⟨hok₁.nodup, hok₁.below⟩
    (show 0 < h₁.room by omega) hc₂ (q := p + 1) (by omega)
  refine ⟨N, x, c', h', fun fuel hf => ?_, hc', hkeep (textCell_withElem htext), hok'⟩
  unfold typeKey
  rw [hins fuel hf, ok_bind]
  dsimp only
  rw [sput_cells hc₁ (by decide), ok_bind, sgetInt_cells hc₂, ok_bind,
    show (1 : BitVec 64) = BitVec.ofInt 64 1 from rfl, ofInt_add_ofInt]
  exact hset

/-- What a key that was typed needed. -/
theorem typeKey_room (hok : h.FreeListOk) (hlits : lits.Ok h) (hkey : IsKey h key k)
    (hc : EditorCells h this e b c p) (ht : TextCell h b size data) (hz : 0 ∈ data)
    (hp : p ≤ (content data).length) {N : ℕ} (hr : ∀ fuel, N ≤ fuel →
      typeKey fuel lits h (.cell this) (.cell key) = .ok h') :
    5 ≤ h.room ∧ (content data).length + 3 < 2 ^ 31 := by
  obtain ⟨r, hins, -⟩ := bind_ok.mp (hr N le_rfl)
  obtain ⟨hroom, hlen⟩ := insertKey_room hok hlits hc ht hz hins
  obtain ⟨M, x, h₁, hins, hc₁, -, -, hrm⟩ :=
    insertKey_spec hok hroom hlits hkey hc ht hz hp hlen
  have hrun := hr (N + M) (by omega)
  unfold typeKey at hrun
  rw [hins _ (by omega), ok_bind] at hrun
  dsimp only at hrun
  rw [sput_cells hc₁ (by decide), ok_bind, sgetInt_cells (hc₁.withBuffer x), ok_bind] at hrun
  have hpos := setCursor_room hrun
  change 0 < h₁.room at hpos
  exact ⟨by omega, hlen⟩

end Typing

/-! ## Erasing -/

section Erasing

variable {h h' : Heap} {this e b c p : ℕ} {t : List UInt8} {lits : Literals}

/-- The condition of `backspace` behind the start of the text. -/
theorem truth_gt_zero (hp : p + 1 < 2 ^ 31) :
    truth (gt (BitVec.ofInt 64 (p + 1 : ℕ)) 0) = true := by
  rw [show (0 : BitVec 64) = BitVec.ofInt 64 0 from rfl, truth_gt (by omega) (by omega)]
  exact decide_eq_true (by omega)

/-- The byte in front of the cursor. -/
theorem cursor_sub_one (p : ℕ) :
    BitVec.ofInt 64 (p + 1 : ℕ) - 1 = BitVec.ofInt 64 p := by
  rw [show (1 : BitVec 64) = BitVec.ofInt 64 1 from rfl, ofInt_sub_ofInt]
  congr 1
  omega

/-- A backspace takes the byte in front of the cursor out. -/
theorem backspace_spec (hok : h.FreeListOk) (hroom : 0 < h.room)
    (hc : EditorCells h this e b c (p + 1)) (ht : TextCell h b t.length (t ++ [0]))
    (hp : p < t.length) :
    ∃ N c' h', (∀ fuel, N ≤ fuel → backspace fuel lits h (.cell this) = .ok h') ∧
      EditorCells h' this e b c' p ∧
      TextCell h' b t.length (t.take p ++ t.drop (p + 1) ++ [0, 0]) := by
  have hlt := ht.size_lt
  obtain ⟨N, B, hB, hrem⟩ := remove_text ht hp
  have htext : TextCell (h.setBytes B (t.take p ++ t.drop (p + 1) ++ [0, 0])) b t.length
      (t.take p ++ t.drop (p + 1) ++ [0, 0]) :=
    textCell_setBytes ht hB (by simp; omega)
  have hc₁ := hc.setBytes B (t.take p ++ t.drop (p + 1) ++ [0, 0])
  obtain ⟨c', h', hset, hc', -, hkeep⟩ := setCursor_spec
    (h := h.setBytes B (t.take p ++ t.drop (p + 1) ++ [0, 0])) ⟨hok.nodup, hok.below⟩ hroom hc₁
    (q := p) (by omega)
  refine ⟨N, c', h', fun fuel hf => ?_, hc', hkeep htext⟩
  unfold backspace
  rw [sgetInt_cells hc, ok_bind, if_pos (truth_gt_zero (by omega)), sget_cells hc hc.buffer,
    ok_bind, cursor_sub_one, boxInt_ofInt (by omega) (by omega), hrem fuel hf, ok_bind,
    sgetInt_cells hc₁, ok_bind, cursor_sub_one]
  exact hset

/-- What a backspace needed. -/
theorem backspace_room (hc : EditorCells h this e b c (p + 1)) (hp : p + 1 < 2 ^ 31)
    (ht : TextCell h b t.length (t ++ [0])) (hpt : p < t.length) {N : ℕ}
    (hr : ∀ fuel, N ≤ fuel → backspace fuel lits h (.cell this) = .ok h') : 0 < h.room := by
  obtain ⟨M, B, hB, hrem⟩ := remove_text ht hpt
  have hrun := hr (N + M) (by omega)
  unfold backspace at hrun
  rw [sgetInt_cells hc, ok_bind, if_pos (truth_gt_zero hp), sget_cells hc hc.buffer, ok_bind,
    cursor_sub_one, boxInt_ofInt (by omega) (by omega), hrem _ (by omega), ok_bind] at hrun
  obtain ⟨_, -, hset⟩ := bind_ok.mp hrun
  exact setCursor_room (h := h.setBytes B _) hset

end Erasing

/-! ## Contents and cursor -/

/-- Typing `k` puts it at the cursor and moves the cursor on. -/
def KeyInserts (lits : Literals) (cmds : Commands) (h : Heap) (this key : ℕ) (s : List UInt8)
    (p : ℕ) (k : UInt8) : Prop :=
  ∃ h', Types lits cmds h this key h' ∧ EditorAt h' this (s.take p ++ k :: s.drop p) (p + 1)

/-- A backspace after the key gives the old contents and the old cursor. -/
def BackspaceRestores (lits : Literals) (cmds : Commands) (h : Heap) (this key : ℕ)
    (s : List UInt8) (p : ℕ) : Prop :=
  ∃ h' h'', Types lits cmds h this key h' ∧ Erases lits h' this h'' ∧ EditorAt h'' this s p

section Keys

variable {h h' h'' : Heap} {this key p : ℕ} {s : List UInt8} {k : UInt8} {lits : Literals}
  {cmds : Commands}

/-- A key that is no command is typed. -/
theorem handleEditorKey_typeKey (hkey : IsKey h key k) (h0 : 1 ≤ k.toNat) (h250 : k.toNat ≤ 249)
    (hcmd : k.toNat ∉ commandKeys) (fuel : ℕ) (this : Word) :
    handleEditorKey fuel lits cmds h this (.cell key) =
      typeKey fuel lits h this (.cell key) := by
  have hne : ∀ n ∈ commandKeys,
      ¬ truth (eq (BitVec.ofInt 64 k.toNat) (BitVec.ofInt 64 n)) = true := by
    intro n hn
    have hlt : n < 256 := by
      revert n
      decide
    rw [truth_eq, decide_eq_true_eq, ofInt_inj (by omega) (by omega)]
    intro heq
    rw [← Nat.cast_injective heq] at hn
    exact hcmd hn
  have hand : truth (and (gt (BitVec.ofInt 64 k.toNat) 0) (lt (BitVec.ofInt 64 k.toNat) 250)) =
      true := by
    have hk0 : k ≠ 0 := by
      rintro rfl
      exact absurd h0 (by decide)
    have hlt : k.toNat < 250 := by omega
    exact (strlen_cond k (by omega) (by decide)).trans (decide_eq_true ⟨hk0, hlt⟩)
  unfold handleEditorKey
  rw [cellAt_cell, ok_bind, hkey.2]
  change (if _ then _ else _) = _
  rw [if_neg (show ¬ truth (eq _ 20) = true from hne 20 (by decide)),
    if_neg (show ¬ truth (eq _ 19) = true from hne 19 (by decide)),
    if_neg (show ¬ truth (eq _ 0x7f) = true from hne 0x7f (by decide)),
    if_neg (show ¬ truth (eq _ 17) = true from hne 17 (by decide)),
    if_neg (show ¬ truth (eq _ 18) = true from hne 18 (by decide)),
    if_neg (show ¬ truth (eq _ 9) = true from hne 9 (by decide)), if_pos hand]

/-- An editor has one contents. -/
theorem EditorAt.unique {s' : List UInt8} {p' : ℕ} (he : EditorAt h this s p)
    (he' : EditorAt h this s' p') : s = s' := by
  obtain ⟨e, b, c, size, data, hc, ht, -, rfl⟩ := he
  obtain ⟨e', b', c', size', data', hc', ht', -, rfl⟩ := he'
  obtain rfl : e = e' := by simpa using hc.fields.symm.trans hc'.fields
  obtain rfl : b = b' := by simpa using hc.buffer.symm.trans hc'.buffer
  obtain ⟨B, -, har, rfl⟩ := ht.buffer
  obtain ⟨B', -, har', rfl⟩ := ht'.buffer
  obtain rfl : B = B' := by simpa using har.symm.trans har'
  rfl

/-- The contents and the cursor after a key that is no command. -/
theorem types_typed (hok : h.FreeListOk) (hlits : lits.Ok h) (he : EditorAt h this s p)
    (hp : p ≤ s.length) (hkey : IsKey h key k) (h0 : 1 ≤ k.toNat) (h250 : k.toNat ≤ 249)
    (hcmd : k.toNat ∉ commandKeys) (htypes : Types lits cmds h this key h') :
    ∃ e b c, EditorCells h' this e b c (p + 1) ∧
      TextCell h' b (typed s p k).length (typed s p k ++ [0]) ∧ h'.FreeListOk := by
  obtain ⟨e, b, c, size, data, hc, ht, hz, rfl⟩ := he
  obtain ⟨N, hrun⟩ := htypes
  have hrun : ∀ fuel, N ≤ fuel → typeKey fuel lits h (.cell this) (.cell key) = .ok h' := by
    intro fuel hf
    rw [← handleEditorKey_typeKey hkey h0 h250 hcmd fuel]
    exact hrun fuel hf
  obtain ⟨hroom, hlen⟩ := typeKey_room hok hlits hkey hc ht hz hp hrun
  obtain ⟨M, b', c', h₁, htype, hc', ht', hok'⟩ :=
    typeKey_spec hok hroom hlits hkey hc ht hz hp hlen
  have heq := (hrun (N + M) (by omega)).symm.trans (htype (N + M) (by omega))
  obtain rfl := Except.ok.inj heq
  exact ⟨e, b', c', hc', ht', hok'⟩

/-- No byte of `typed s p k` is a NUL. -/
theorem zero_notMem_typed (hs : 0 ∉ s) (hk : k ≠ 0) : 0 ∉ typed s p k := by
  intro hm
  rw [typed, List.mem_append, List.mem_append, List.mem_cons] at hm
  rcases hm with (ht | h0 | hd) | h32
  · exact hs (List.mem_of_mem_take ht)
  · exact hk h0.symm
  · exact hs (List.mem_of_mem_drop hd)
  · exact absurd h32 (by decide)

theorem typed_length (hp : p ≤ s.length) : (typed s p k).length = s.length + 2 := by
  simp [typed]
  omega

/-- Without the key the space is still there. -/
theorem typed_erased (hp : p ≤ s.length) :
    (typed s p k).take p ++ (typed s p k).drop (p + 1) = s ++ [32] := by
  have htake : (s.take p).length = p := List.length_take_of_le hp
  have hsplit : typed s p k = s.take p ++ (k :: (s.drop p ++ [32])) := by simp [typed]
  rw [hsplit, List.take_left' htake, ← List.drop_drop, List.drop_left' htake]
  change s.take p ++ (s.drop p ++ [32]) = s ++ [32]
  rw [← List.append_assoc, List.take_append_drop]

/-- A backspace after a key leaves the space behind. -/
theorem erases_typed (hok : h.FreeListOk) {e b c : ℕ} (hc : EditorCells h this e b c (p + 1))
    (ht : TextCell h b (typed s p k).length (typed s p k ++ [0])) (hp : p ≤ s.length)
    (hs : 0 ∉ s) (herases : Erases lits h this h') : EditorAt h' this (s ++ [32]) p := by
  obtain ⟨N, hrun⟩ := herases
  have hlen := typed_length (k := k) hp
  have hlt := ht.size_lt
  have hroom := backspace_room hc (by omega) ht (by omega) hrun
  obtain ⟨M, c', h₁, hback, hc', ht'⟩ := backspace_spec hok hroom hc ht (by omega)
  have heq := (hrun (N + M) (by omega)).symm.trans (hback (N + M) (by omega))
  obtain rfl := Except.ok.inj heq
  rw [typed_erased hp] at ht'
  have hs' : 0 ∉ s ++ [32] := by
    rw [List.mem_append]
    exact fun hm => hm.elim hs (by decide)
  exact ⟨e, b, c', _, _, hc', ht', by simp, content_append hs' [0]⟩

/-- A key adds a space at the end. -/
theorem types_editorAt (hok : h.FreeListOk) (hlits : lits.Ok h) (he : EditorAt h this s p)
    (hp : p ≤ s.length) (hkey : IsKey h key k) (h0 : 1 ≤ k.toNat) (h250 : k.toNat ≤ 249)
    (hcmd : k.toNat ∉ commandKeys) (htypes : Types lits cmds h this key h') :
    EditorAt h' this (typed s p k) (p + 1) := by
  have hs : 0 ∉ s := by
    obtain ⟨-, -, -, -, data, -, -, -, rfl⟩ := he
    exact zero_notMem_content data
  have hk : k ≠ 0 := by
    rintro rfl
    exact absurd h0 (by decide)
  obtain ⟨e, b, c, hc, ht, -⟩ := types_typed hok hlits he hp hkey h0 h250 hcmd htypes
  exact ⟨e, b, c, _, _, hc, ht, by simp, content_append (zero_notMem_typed hs hk) []⟩

/-- In no state of the editor does a key that is no command insert just
    itself, and in none does a backspace after it restore the contents: a space
    is left at the end. -/
theorem typing_never (hok : h.FreeListOk) (hlits : lits.Ok h) (he : EditorAt h this s p)
    (hp : p ≤ s.length) (hkey : IsKey h key k) (h0 : 1 ≤ k.toNat) (h250 : k.toNat ≤ 249)
    (hcmd : k.toNat ∉ commandKeys) :
    ¬ KeyInserts lits cmds h this key s p k ∧ ¬ BackspaceRestores lits cmds h this key s p := by
  have hs : 0 ∉ s := by
    obtain ⟨-, -, -, -, data, -, -, -, rfl⟩ := he
    exact zero_notMem_content data
  constructor
  · rintro ⟨h', htypes, he'⟩
    have heq := he'.unique (types_editorAt hok hlits he hp hkey h0 h250 hcmd htypes)
    have hlen := congrArg List.length heq
    rw [typed_length hp] at hlen
    simp at hlen
    omega
  · rintro ⟨h', h'', htypes, herases, he''⟩
    obtain ⟨e, b, c, hc, ht, hok'⟩ := types_typed hok hlits he hp hkey h0 h250 hcmd htypes
    have heq := he''.unique (erases_typed hok' hc ht hp hs herases)
    have hlen := congrArg List.length heq
    simp at hlen

end Keys

/-- A heap with an empty editor in cell 2 (its buffer in cell 0, its cursor in
    cell 1), the string `" "` in cell 3 and the key `a` in cell 4. -/
def editorHeap : Heap :=
  { init with
    cells := fun
      | 0 => ⟨.ptr (.bytes 0) 0, .ofNat 1, tagStr⟩
      | 1 => ⟨.int 0, .null, tagInt⟩
      | 2 => ⟨.ptr (.elems 0) 0, .ofNat 13, tagStruct⟩
      | 3 => ⟨.ptr (.bytes 1) 0, .ofNat 2, tagStr⟩
      | 4 => ⟨.int 97, .null, tagInt⟩
      | i => init.cells i
    cellsUsed := 5
    bytes := fun
      | 0 => [0]
      | 1 => [32, 0]
      | i => init.bytes i
    bytesUsed := 2
    elems := fun
      | 0 => [.null, .cell 0, .null, .cell 1, .null, .null, .null, .null, .null, .null, .null,
          .null, .null]
      | i => init.elems i
    elemsUsed := 1 }

/-- The constants of a program on `editorHeap`. -/
def editorLiterals : Literals := ⟨.cell 3, .cell 3, .cell 1⟩

/-- Handlers that do nothing. -/
def idleCommands : Commands := ⟨.ok, .ok, .ok, .ok, .ok⟩

theorem editorHeap_freeListOk : editorHeap.FreeListOk where
  nodup := by simp [editorHeap, init]
  below := by simp [editorHeap, init]

theorem editorHeap_live {i : ℕ} (hi : i < 5) : i ∉ editorHeap.Supply := by
  simp [Supply, editorHeap, init]
  omega

theorem editorHeap_literals : editorLiterals.Ok editorHeap :=
  ⟨3, 2, [32, 0], rfl, ⟨editorHeap_live (by decide), rfl, rfl, ⟨1, by decide, rfl, rfl⟩,
    by decide, by decide⟩, by decide, by decide⟩

theorem editorHeap_editorAt : EditorAt editorHeap 2 [] 0 :=
  ⟨0, 0, 1, 1, [0], ⟨editorHeap_live (by decide), rfl, by decide, rfl, rfl, rfl,
    editorHeap_live (by decide), rfl⟩, ⟨editorHeap_live (by decide), rfl, rfl,
    ⟨0, by decide, rfl, rfl⟩, by decide, by decide⟩, by decide, by decide⟩

theorem editorHeap_isKey : IsKey editorHeap 4 97 := ⟨editorHeap_live (by decide), rfl⟩

theorem typing_never_a :
    ¬ KeyInserts editorLiterals idleCommands editorHeap 2 4 [] 0 97 ∧
      ¬ BackspaceRestores editorLiterals idleCommands editorHeap 2 4 [] 0 :=
  typing_never editorHeap_freeListOk editorHeap_literals editorHeap_editorAt (by decide)
    editorHeap_isKey (by decide) (by decide) (by decide)

/-- The key `a` typed into an empty editor: the contents are `a` and a space. -/
theorem typing_a_spaced : ¬ ∀ (lits : Literals) (cmds : Commands) (h : Heap) (this key p : ℕ)
    (s : List UInt8) (k : UInt8), h.FreeListOk → lits.Ok h → EditorAt h this s p → p ≤ s.length →
    IsKey h key k → 1 ≤ k.toNat → k.toNat ≤ 249 → k.toNat ∉ commandKeys →
    KeyInserts lits cmds h this key s p k ∧ BackspaceRestores lits cmds h this key s p := by
  intro hall
  obtain ⟨⟨h', htypes, he'⟩, -⟩ := hall editorLiterals idleCommands editorHeap 2 4 0 [] 97
    editorHeap_freeListOk editorHeap_literals editorHeap_editorAt (by decide) editorHeap_isKey
    (by decide) (by decide) (by decide)
  have heq := he'.unique (types_editorAt editorHeap_freeListOk editorHeap_literals
    editorHeap_editorAt (by decide) editorHeap_isKey (by decide) (by decide) (by decide) htypes)
  exact absurd heq (by decide)

end Interim.Lisp
