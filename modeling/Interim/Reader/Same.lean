import Interim.Reader.Layout

/-!
# Structural equality

`Same h h' w w'`: the word `w` in the heap `h` and the word `w'` in `h'` are
structurally equal, cell by cell. For represented data this is equality of
the data (`Same.of_rep`, `Same.datum_eq`), so a word represents one datum at
most (`Rep.unique`).
-/

namespace Interim.Reader

open Heap

/-! ## Atoms -/

/-- The buffer of a text cell up to its first zero. -/
def nameAt (h : Heap) (c : Cell) : Option (List UInt8) :=
  match c.ar with
  | .ptr (.bytes b) off => some (((h.bytes b).drop off.toNat).takeWhile (· ≠ 0))
  | _ => none

/-- The buffer of a text cell up to its size. -/
def textAt (h : Heap) (c : Cell) : Option (List UInt8) :=
  match c.ar, c.dr with
  | .ptr (.bytes b) off, .int size => some (((h.bytes b).drop off.toNat).take size.toNat)
  | _, _ => none

/-- The integer in a cell. -/
def intAt (c : Cell) : Option (BitVec 64) :=
  match c.ar with
  | .int v => some v
  | _ => none

/-- The integer, symbol, string or byte string in cell `i`. -/
def atomAt (h : Heap) (i : ℕ) : Option Datum :=
  let c := h.cells i
  if c.tag = tagInt then (intAt c).map .int
  else if c.tag = tagSym then (nameAt h c).map .sym
  else if c.tag = tagStr then (textAt h c).map .str
  else if c.tag = tagBytes then (textAt h c).map .bytes
  else none

/-- Symbols are C strings, and sizes fit a word. -/
def Regular : Datum → Prop
  | .sym s => 0 ∉ s
  | .str s | .bytes s => s.length < 2 ^ 64
  | _ => True

/-- Structural equality of two words in two heaps. -/
inductive Same (h h' : Heap) : Word → Word → Prop
  | null : Same h h' .null .null
  | atom {i j : ℕ} {d : Datum} (hi : atomAt h i = some d) (hj : atomAt h' j = some d) :
      Same h h' (.cell i) (.cell j)
  | cons {i j : ℕ} (hi : (h.cells i).tag = tagCons) (hj : (h'.cells j).tag = tagCons)
      (har : Same h h' (h.cells i).ar (h'.cells j).ar)
      (hdr : Same h h' (h.cells i).dr (h'.cells j).dr) : Same h h' (.cell i) (.cell j)
  | error {i j : ℕ} (hi : (h.cells i).tag = tagError) (hj : (h'.cells j).tag = tagError)
      (har : (h.cells i).ar = (h'.cells j).ar) : Same h h' (.cell i) (.cell j)

/-! ## Lists of data -/

theorem Datum.AtomsAll.mem {q : Datum → Prop} {d : Datum} : ∀ {ds : List Datum}, Datum.AtomsAll q ds →
    d ∈ ds → d.Atoms q
  | _ :: _, hall, hm => by
    rw [Datum.AtomsAll] at hall
    rcases List.mem_cons.mp hm with rfl | hm
    · exact hall.1
    · exact Datum.AtomsAll.mem hall.2 hm

theorem Datum.AtomsAll.append {q : Datum → Prop} : ∀ {ds es : List Datum}, Datum.AtomsAll q ds →
    Datum.AtomsAll q es → Datum.AtomsAll q (ds ++ es)
  | [], _, _, hes => hes
  | _ :: _, _, hds, hes => by
    rw [Datum.AtomsAll] at hds
    rw [List.cons_append, Datum.AtomsAll]
    exact ⟨hds.1, Datum.AtomsAll.append hds.2 hes⟩

/-! ## Structural equality and representation -/

section Same

variable {h h' : Heap} {S S' : Set Block} {w w' : Word} {d d' : Datum} {i j b : ℕ}

theorem atomAt_int {v : BitVec 64} (htag : (h.cells i).tag = tagInt)
    (har : (h.cells i).ar = .int v) : atomAt h i = some (.int v) := by
  rw [atomAt, if_pos htag, intAt, har]
  rfl

theorem atomAt_sym {name rest : List UInt8} (htag : (h.cells i).tag = tagSym)
    (har : (h.cells i).ar = .ptr (.bytes b) 0) (hbuf : h.bytes b = name ++ 0 :: rest)
    (hreg : 0 ∉ name) : atomAt h i = some (.sym name) := by
  have htake : ((h.bytes b).drop (0 : ℤ).toNat).takeWhile (· ≠ 0) = name := by
    rw [hbuf, Int.toNat_zero, List.drop_zero, List.takeWhile_append_of_pos,
      List.takeWhile_cons_of_neg (by simp), List.append_nil]
    intro c hc
    simp only [ne_eq, decide_eq_true_eq]
    rintro rfl
    exact hreg hc
  rw [atomAt, if_neg (by rw [htag]; decide), if_pos htag, nameAt, har]
  dsimp only
  rw [htake]
  rfl

theorem textAt_eq {s rest : List UInt8} (har : (h.cells i).ar = .ptr (.bytes b) 0)
    (hdr : (h.cells i).dr = .ofNat s.length) (hbuf : h.bytes b = s ++ rest)
    (hlen : s.length < 2 ^ 64) : textAt h (h.cells i) = some s := by
  rw [textAt, har, hdr]
  dsimp only
  rw [BitVec.toNat_ofNat, Nat.mod_eq_of_lt hlen, hbuf, Int.toNat_zero, List.drop_zero,
    List.take_left]

theorem atomAt_str {s rest : List UInt8} (htag : (h.cells i).tag = tagStr)
    (har : (h.cells i).ar = .ptr (.bytes b) 0) (hdr : (h.cells i).dr = .ofNat s.length)
    (hbuf : h.bytes b = s ++ rest) (hlen : s.length < 2 ^ 64) : atomAt h i = some (.str s) := by
  rw [atomAt, if_neg (by rw [htag]; decide), if_neg (by rw [htag]; decide), if_pos htag,
    textAt_eq har hdr hbuf hlen]
  rfl

theorem atomAt_bytes {s rest : List UInt8} (htag : (h.cells i).tag = tagBytes)
    (har : (h.cells i).ar = .ptr (.bytes b) 0) (hdr : (h.cells i).dr = .ofNat s.length)
    (hbuf : h.bytes b = s ++ rest) (hlen : s.length < 2 ^ 64) : atomAt h i = some (.bytes s) := by
  rw [atomAt, if_neg (by rw [htag]; decide), if_neg (by rw [htag]; decide),
    if_neg (by rw [htag]; decide), if_pos htag, textAt_eq har hdr hbuf hlen]
  rfl

theorem atomAt_of_tag (htag : (h.cells i).tag = tagCons ∨ (h.cells i).tag = tagError) :
    atomAt h i = none := by
  unfold atomAt
  rcases htag with htag | htag
  · rw [if_neg (by rw [htag]; decide), if_neg (by rw [htag]; decide),
      if_neg (by rw [htag]; decide), if_neg (by rw [htag]; decide)]
  · rw [if_neg (by rw [htag]; decide), if_neg (by rw [htag]; decide),
      if_neg (by rw [htag]; decide), if_neg (by rw [htag]; decide)]

/-- A represented datum is an atom or a list. -/
inductive Shape (h : Heap) (S : Set Block) : Word → Datum → Prop
  | atom {i : ℕ} {d : Datum} (hi : atomAt h i = some d) : Shape h S (.cell i) d
  | nil {i : ℕ} (htag : (h.cells i).tag = tagCons) (har : (h.cells i).ar = .null)
      (hdr : (h.cells i).dr = .null) : Shape h S (.cell i) (.list [])
  | cons {i : ℕ} {d : Datum} {ds : List Datum} (htag : (h.cells i).tag = tagCons)
      (hcar : Rep h S (h.cells i).ar d) (hcdr : Rep h S (h.cells i).dr (.list ds)) :
      Shape h S (.cell i) (.list (d :: ds))

theorem Rep.shape (hr : Rep h S w d) (hreg : d.Atoms Regular) : Shape h S w d := by
  cases hr with
  | int _ htag har => exact .atom (atomAt_int htag har)
  | sym _ _ htag har hbuf => exact .atom (atomAt_sym htag har hbuf hreg)
  | str _ _ htag har hdr hbuf => exact .atom (atomAt_str htag har hdr hbuf hreg)
  | bytes _ _ htag har hdr hbuf => exact .atom (atomAt_bytes htag har hdr hbuf hreg)
  | nil _ hcell => exact .nil (by rw [hcell]) (by rw [hcell]) (by rw [hcell])
  | cons _ htag hcar hcdr => exact .cons htag hcar hcdr

theorem Same.null_left (hw : Same h h' .null w) : w = .null := by
  cases hw
  rfl

theorem Same.null_right (hw : Same h h' w .null) : w = .null := by
  cases hw
  rfl

/-- Representations of one datum are structurally equal. -/
theorem Same.of_rep (hr : Rep h S w d) : ∀ {w' : Word}, Rep h' S' w' d → d.Atoms Regular →
    Same h h' w w' := by
  induction hr with
  | int _ htag har =>
    intro w' hr' hreg
    cases hr'.shape hreg with
    | atom hj => exact .atom (atomAt_int htag har) hj
  | sym _ _ htag har hbuf =>
    intro w' hr' hreg
    cases hr'.shape hreg with
    | atom hj => exact .atom (atomAt_sym htag har hbuf hreg) hj
  | str _ _ htag har hdr hbuf =>
    intro w' hr' hreg
    cases hr'.shape hreg with
    | atom hj => exact .atom (atomAt_str htag har hdr hbuf hreg) hj
  | bytes _ _ htag har hdr hbuf =>
    intro w' hr' hreg
    cases hr'.shape hreg with
    | atom hj => exact .atom (atomAt_bytes htag har hdr hbuf hreg) hj
  | nil _ hcell =>
    intro w' hr' hreg
    cases hr' with
    | nil _ hcell' =>
      refine .cons (by rw [hcell]) (by rw [hcell']) ?_ ?_
      · rw [hcell, hcell']
        exact .null
      · rw [hcell, hcell']
        exact .null
  | cons _ htag _ _ ih₁ ih₂ =>
    intro w' hr' hreg
    rw [Datum.Atoms, Datum.AtomsAll] at hreg
    cases hr' with
    | cons _ htag' hcar' hcdr' =>
      exact .cons htag htag' (ih₁ hcar' hreg.1) (ih₂ hcdr' (by rw [Datum.Atoms]; exact hreg.2))

theorem Same.of_atom (hi : atomAt h i = some d) (hs : Same h h' (.cell i) w) :
    ∃ j, w = .cell j ∧ atomAt h' j = some d := by
  cases hs with
  | @atom _ j d₀ hi₀ hj =>
    refine ⟨j, rfl, ?_⟩
    rw [hj, ← hi₀, hi]
  | cons htag =>
    rw [atomAt_of_tag (.inl htag)] at hi
    cases hi
  | error htag =>
    rw [atomAt_of_tag (.inr htag)] at hi
    cases hi

theorem Shape.eq_of_atom (hs : Shape h S (.cell i) d') (hi : atomAt h i = some d) : d' = d := by
  cases hs with
  | atom hi' => exact Option.some.inj (hi'.symm.trans hi)
  | nil htag | cons htag =>
    rw [atomAt_of_tag (.inl htag)] at hi
    cases hi

/-- What is structurally equal to a cons cell. -/
theorem Same.of_cons (htag : (h.cells i).tag = tagCons) (hs : Same h h' (.cell i) w) :
    ∃ j, w = .cell j ∧ (h'.cells j).tag = tagCons ∧ Same h h' (h.cells i).ar (h'.cells j).ar ∧
      Same h h' (h.cells i).dr (h'.cells j).dr := by
  cases hs with
  | atom hi =>
    rw [atomAt_of_tag (.inl htag)] at hi
    cases hi
  | @cons _ j _ hj har hdr => exact ⟨j, rfl, hj, har, hdr⟩
  | error hi =>
    rw [htag] at hi
    exact absurd hi (by decide)

/-- Structurally equal representations are of one datum. -/
theorem Same.datum_eq (hr : Rep h S w d) : ∀ {w' : Word} {d' : Datum}, Rep h' S' w' d' →
    Same h h' w w' → d.Atoms Regular → d'.Atoms Regular → d = d' := by
  have hatom : ∀ {i : ℕ} {w' : Word} {d d' : Datum}, atomAt h i = some d → Rep h' S' w' d' →
      Same h h' (.cell i) w' → d'.Atoms Regular → d = d' := by
    intro i w' d d' hi hr' hs hreg'
    obtain ⟨j, rfl, hj⟩ := hs.of_atom hi
    exact ((hr'.shape hreg').eq_of_atom hj).symm
  induction hr with
  | int _ htag har => exact fun hr' hs _ hreg' => hatom (atomAt_int htag har) hr' hs hreg'
  | sym _ _ htag har hbuf =>
    exact fun hr' hs hreg hreg' => hatom (atomAt_sym htag har hbuf hreg) hr' hs hreg'
  | str _ _ htag har hdr hbuf =>
    exact fun hr' hs hreg hreg' => hatom (atomAt_str htag har hdr hbuf hreg) hr' hs hreg'
  | bytes _ _ htag har hdr hbuf =>
    exact fun hr' hs hreg hreg' => hatom (atomAt_bytes htag har hdr hbuf hreg) hr' hs hreg'
  | nil _ hcell =>
    intro w' d' hr' hs _ hreg'
    obtain ⟨j, rfl, hj, har, -⟩ := hs.of_cons (by rw [hcell])
    rw [hcell] at har
    cases hr'.shape hreg' with
    | atom hj' =>
      rw [atomAt_of_tag (.inl hj)] at hj'
      cases hj'
    | nil => rfl
    | cons _ hcar => exact absurd har.null_left hcar.ne_null
  | cons _ htag hcar _ ih₁ ih₂ =>
    intro w' d' hr' hs hreg hreg'
    obtain ⟨j, rfl, hj, har, hdr⟩ := hs.of_cons htag
    rw [Datum.Atoms, Datum.AtomsAll] at hreg
    cases hr'.shape hreg' with
    | atom hj' =>
      rw [atomAt_of_tag (.inl hj)] at hj'
      cases hj'
    | nil _ har' =>
      rw [har'] at har
      exact absurd har.null_right hcar.ne_null
    | cons _ hcar' hcdr' =>
      rw [Datum.Atoms, Datum.AtomsAll] at hreg'
      have hhead := ih₁ hcar' har hreg.1 hreg'.1
      have htail := ih₂ hcdr' hdr (by rw [Datum.Atoms]; exact hreg.2)
        (by rw [Datum.Atoms]; exact hreg'.2)
      rw [hhead, Datum.list.inj htail]

/-- A word represents one datum at most. -/
theorem Rep.unique (hr : Rep h S w d) (hr' : Rep h S' w d') (hreg : d.Atoms Regular)
    (hreg' : d'.Atoms Regular) : d = d' :=
  Same.datum_eq hr hr' (Same.of_rep hr hr hreg) hreg hreg'

end Same

end Interim.Reader
