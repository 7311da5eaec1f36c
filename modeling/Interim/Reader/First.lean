import Interim.Reader.Numbers

/-!
# Several data in one text

`read_string` returns `car(stack_root[0])`. That entry is the root at first,
but every `(` at top level stores the current cell there again (line 55),
while an atom stores nothing. So the last list at top level wins over
everything before it, and over every atom after it.

`Spells is t`: the text `t` consists of the data `is`, as they are written:
unlike `Lays` it keeps the numerals, since what a numeral reads as depends on
the radix.

* `Spells.reads` — what the abstract reader makes of such a text.
* `first_datum_iff` — `read_string` returns the first datum exactly when what
  it selects happens to be equal to it.
-/

namespace Interim.Reader

open Heap

/-! ## Written data -/

/-- A datum as it is written. -/
inductive Item
  | dec (ds : List UInt8)
  | neg (ds : List UInt8)
  | hex (ds : List UInt8)
  | sym (name : List UInt8)
  | str (s : List UInt8)
  | bytes (s : List UInt8)
  | list (is : List Item)

mutual

/-- Whether hex mode is on after an item. -/
def Item.hexAfter : Bool → Item → Bool
  | _, .dec _ => false
  | _, .hex _ => true
  | mode, .list is => Item.hexAfterAll mode is
  | mode, .neg _ | mode, .sym _ | mode, .str _ | mode, .bytes _ => mode

/-- Whether hex mode is on after a sequence of items. -/
def Item.hexAfterAll : Bool → List Item → Bool
  | mode, [] => mode
  | mode, i :: is => Item.hexAfterAll (i.hexAfter mode) is

end

mutual

/-- The datum of an item, with `base mode` the base of a numeral after `-`. -/
def Item.read (base : Bool → ℕ) : Bool → Item → Datum
  | _, .dec ds => .int (BitVec.ofNat 64 (numeral 10 ds))
  | mode, .neg ds => .int (-BitVec.ofNat 64 (numeral (base mode) ds))
  | _, .hex ds => .int (BitVec.ofNat 64 (numeral 16 ds))
  | _, .sym name => .sym name
  | _, .str s => .str s
  | _, .bytes s => .bytes s
  | mode, .list is => .list (Item.readAll base mode is)

/-- `Item.read` for a sequence of items. -/
def Item.readAll (base : Bool → ℕ) : Bool → List Item → List Datum
  | _, [] => []
  | mode, i :: is => i.read base mode :: Item.readAll base (i.hexAfter mode) is

end

/-- The datum an item denotes: every numeral after `-` is decimal. -/
def Item.denotes (i : Item) : Datum := i.read (fun _ => 10) false

mutual

/-- How deep lists are nested in an item. -/
def Item.depth : Item → ℕ
  | .list is => 1 + Item.depthAll is
  | .dec _ | .neg _ | .hex _ | .sym _ | .str _ | .bytes _ => 0

/-- The greatest depth in a sequence of items. -/
def Item.depthAll : List Item → ℕ
  | [] => 0
  | i :: is => max i.depth (Item.depthAll is)

end

/-- Whether an item is a list. -/
def Item.isList : Item → Bool
  | .list _ => true
  | _ => false

/-- The index of the last list; `first` when there is none. The items start at
    index `n`. -/
def lastList (first : ℕ) : ℕ → List Item → ℕ
  | _, [] => first
  | n, i :: is => lastList (if i.isList then n else first) (n + 1) is

/-- The text `t` consists of the items `is`, with whitespace and comments
    between them. Tokens fit the `int` sizes of their buffers. -/
inductive Spells : List Item → List UInt8 → Prop
  | nil {g : List UInt8} (hg : Gap g) : Spells [] g
  | dec {g ds rest : List UInt8} {is : List Item} (hg : Gap g) (hds : IsDigits ds)
      (hrest : Spells is rest) (hdel : Delimited rest) : Spells (.dec ds :: is) (g ++ (ds ++ rest))
  | neg {g ds rest : List UInt8} {is : List Item} (hg : Gap g) (hds : IsDigits ds)
      (hrest : Spells is rest) (hdel : Delimited rest) :
      Spells (.neg ds :: is) (g ++ ((minus :: ds) ++ rest))
  | hex {g ds rest : List UInt8} {is : List Item} (hg : Gap g) (hds : IsHexDigits ds)
      (hrest : Spells is rest) (hdel : Delimited rest) :
      Spells (.hex ds :: is) (g ++ ((48 :: lowerX :: ds) ++ rest))
  | sym {g name rest : List UInt8} {is : List Item} (hg : Gap g) (hname : IsName name)
      (hlen : name.length ≤ 2 ^ 30 - 2) (hrest : Spells is rest) (hdel : Delimited rest) :
      Spells (.sym name :: is) (g ++ (name ++ rest))
  | str {g s rest : List UInt8} {is : List Item} (hg : Gap g) (hs : ∀ c ∈ s, c ≠ dquote)
      (hlen : s.length ≤ 2 ^ 30 - 2) (hrest : Spells is rest) :
      Spells (.str s :: is) (g ++ (dquote :: (s ++ (dquote :: rest))))
  | bytes {g s t rest : List UInt8} {is : List Item} (hg : Gap g) (ht : HexText s t)
      (hlen : s.length ≤ 2 ^ 28 - 1) (hrest : Spells is rest) :
      Spells (.bytes s :: is) (g ++ (lbracket :: (t ++ (rbracket :: rest))))
  | list {g inner rest : List UInt8} {es is : List Item} (hg : Gap g) (hin : Spells es inner)
      (hrest : Spells is rest) :
      Spells (.list es :: is) (g ++ (lparen :: (inner ++ (rparen :: rest))))

/-! ## Reading them -/

/-- The abstract reader takes `a` to `b` on the text `t`. -/
def Reaches (a : AbsState) (t : List UInt8) (b : AbsState) : Prop := ∃ n, Runs a t n b

/-- `b` is `a` after the items `is`; the last one may still be a pending
    token. -/
structure ItemsRead (a : AbsState) (is : List Item) (b : AbsState) : Prop where
  tok : b.tok = .idle ∨ ∃ d, b.tok.datum = some d
  outer : b.outer = a.outer
  elements : b.elements = a.cur ++ Item.readAll radix a.hex is
  hex : b.hex = Item.hexAfterAll a.hex is
  first : b.first = if a.outer.isEmpty then lastList a.first a.cur.length is else a.first

/-- `b` is `a` after the complete item `i`. -/
structure ItemRead (a : AbsState) (i : Item) (b : AbsState) : Prop where
  tok : b.tok = .idle
  outer : b.outer = a.outer
  cur : b.cur = a.cur ++ [i.read radix a.hex]
  hex : b.hex = i.hexAfter a.hex
  first : b.first = if a.outer.isEmpty ∧ i.isList then a.cur.length else a.first

section Reads

variable {a b e p : AbsState} {i : Item} {is : List Item} {s t rest : List UInt8} {d : Datum}

theorem Reaches.append {c : AbsState} (hs : Reaches a s b) (ht : Reaches b t c) :
    Reaches a (s ++ t) c := by
  obtain ⟨m, hs⟩ := hs
  obtain ⟨n, ht⟩ := ht
  exact ⟨m + n, hs.append ht⟩

theorem Reaches.cons {x : UInt8} {c : AbsState} (hstep : absStep a x = some b) (hfit : b.Fits)
    (ht : Reaches b t c) : Reaches a (x :: t) c := by
  obtain ⟨n, ht⟩ := ht
  exact ⟨stepCost a x + n, Runs.cons hstep hfit ht⟩

/-- A complete item, and the items after it. -/
theorem ItemRead.cons (hi : ItemRead a i b) (hb : ItemsRead b is e) : ItemsRead a (i :: is) e where
  tok := hb.tok
  outer := hb.outer.trans hi.outer
  elements := by
    rw [hb.elements, hi.cur, hi.hex, Item.readAll, List.append_assoc]
    rfl
  hex := by rw [hb.hex, hi.hex, Item.hexAfterAll]
  first := by
    have hlen : b.cur.length = a.cur.length + 1 := by rw [hi.cur]; simp
    rw [hb.first, hi.outer, hi.first, hlen]
    cases a.outer.isEmpty with
    | false => rfl
    | true => simp [lastList]

/-- A number or symbol `p`, and what comes after it: nothing, or text that
    starts with whitespace. -/
theorem ItemRead.word (hp : p.tok.datum = some d) (hi : ItemRead a i (p.push d))
    (hdel : Delimited rest) (hrun : Reaches (p.push d) rest e) (he : ItemsRead (p.push d) is e)
    (hfit : (p.push d).Fits) : ∃ e', Reaches p rest e' ∧ ItemsRead a (i :: is) e' := by
  obtain ⟨n, hrun⟩ := hrun
  cases hrun with
  | nil =>
    -- the text ends with the token
    have hafter := hi.cons he
    have hidle : (p.push d).elements = p.elements := by
      rw [AbsState.elements_of_idle rfl, AbsState.elements, hp]
      rfl
    refine ⟨p, ⟨0, Runs.nil p⟩, ?_⟩
    exact
      { tok := .inr ⟨d, hp⟩
        outer := hafter.outer
        elements := by rw [← hidle]; exact hafter.elements
        hex := hafter.hex
        first := hafter.first }
  | @cons _ a₁ _ c cs k hstep _ hrest =>
    -- the whitespace completes the token, and then changes nothing
    have hws := hdel c cs rfl
    have hidle : absStep (p.push d) c = some (p.push d) := by
      simp [absStep, AbsState.push, absAtom, hws]
    obtain rfl : p.push d = a₁ := Option.some.inj (hidle.symm.trans hstep)
    obtain ⟨hs, -⟩ := step_ws hp hws
    exact ⟨e, Reaches.cons hs hfit ⟨k, hrest⟩, hi.cons he⟩

/-- `ItemRead.word` with the gap before the token and its text `w`. -/
theorem ItemRead.wordText {g w : List UInt8} (hg : Gap g) (htok : a.tok = .idle)
    (hout : a.outer.length ≤ stackSize) (hw : Reaches a w p) (hp : p.tok.datum = some d)
    (hi : ItemRead a i (p.push d)) (hdel : Delimited rest) (hrun : Reaches (p.push d) rest e)
    (he : ItemsRead (p.push d) is e) :
    ∃ b, Reaches a (g ++ (w ++ rest)) b ∧ ItemsRead a (i :: is) b := by
  have hfit : (p.push d).Fits := Fits.of_idle (by rw [hi.outer]; exact hout) rfl
  obtain ⟨b, hr, hb⟩ := hi.word hp hdel hrun he hfit
  exact ⟨b, Reaches.append ⟨0, hg.runs htok hout⟩ (hw.append hr), hb⟩

/-- The abstract reader reads a text as its items. -/
theorem Spells.reads (hs : Spells is t) : ∀ a : AbsState, a.tok = .idle →
    a.outer.length + Item.depthAll is ≤ stackSize → ∃ b, Reaches a t b ∧ ItemsRead a is b := by
  induction hs with
  | nil hg =>
    intro a htok hdepth
    refine ⟨a, ⟨0, hg.runs htok (by omega)⟩, .inl htok, rfl, ?_, rfl, ?_⟩
    · rw [AbsState.elements_of_idle htok, Item.readAll, List.append_nil]
    · rw [lastList, ite_self]
  | @dec g ds rest is hg hds hrest hdel ih =>
    intro a htok hdepth
    simp only [Item.depthAll, Item.depth, Nat.zero_max] at hdepth
    set p : AbsState :=
      { a with tok := .num (BitVec.ofNat 64 (numeral 10 ds)), hex := false } with hp
    obtain ⟨e, hrun, he⟩ := ih (p.push (.int (BitVec.ofNat 64 (numeral 10 ds)))) rfl hdepth
    exact ItemRead.wordText hg htok (by omega) ⟨1, dec_runs hds htok (by omega)⟩ rfl
      ⟨rfl, rfl, rfl, rfl, by simp [Item.isList, AbsState.push]⟩ hdel hrun he
  | @neg g ds rest is hg hds hrest hdel ih =>
    intro a htok hdepth
    simp only [Item.depthAll, Item.depth, Nat.zero_max] at hdepth
    set p : AbsState :=
      { a with tok := .numNeg (-BitVec.ofNat 64 (numeral (radix a.hex) ds)) } with hp
    obtain ⟨e, hrun, he⟩ :=
      ih (p.push (.int (-BitVec.ofNat 64 (numeral (radix a.hex) ds)))) rfl hdepth
    exact ItemRead.wordText hg htok (by omega) ⟨1, neg_runs hds htok (by omega)⟩ rfl
      ⟨rfl, rfl, rfl, rfl, by simp [Item.isList, AbsState.push]⟩ hdel hrun he
  | @hex g ds rest is hg hds hrest hdel ih =>
    intro a htok hdepth
    simp only [Item.depthAll, Item.depth, Nat.zero_max] at hdepth
    set p : AbsState :=
      { a with tok := .num (BitVec.ofNat 64 (numeral 16 ds)), hex := true } with hp
    obtain ⟨e, hrun, he⟩ := ih (p.push (.int (BitVec.ofNat 64 (numeral 16 ds)))) rfl hdepth
    exact ItemRead.wordText hg htok (by omega) ⟨1, hex_runs hds htok (by omega)⟩ rfl
      ⟨rfl, rfl, rfl, rfl, by simp [Item.isList, AbsState.push]⟩ hdel hrun he
  | @sym g name rest is hg hname hlen hrest hdel ih =>
    intro a htok hdepth
    simp only [Item.depthAll, Item.depth, Nat.zero_max] at hdepth
    set p : AbsState := { a with tok := .sym name } with hp
    obtain ⟨e, hrun, he⟩ := ih (p.push (.sym name)) rfl hdepth
    exact ItemRead.wordText hg htok (by omega) ⟨1, hname.runs htok (by omega) hlen⟩ rfl
      ⟨rfl, rfl, rfl, rfl, by simp [Item.isList, AbsState.push]⟩ hdel hrun he
  | @str g s rest is hg hs hlen hrest ih =>
    intro a htok hdepth
    simp only [Item.depthAll, Item.depth, Nat.zero_max] at hdepth
    have hout : a.outer.length ≤ stackSize := by omega
    set b := { a with tok := .str s }.push (.str s) with hb
    obtain ⟨e, hrun, he⟩ := ih b rfl hdepth
    have hdone : ItemRead a (.str s) b :=
      ⟨rfl, rfl, rfl, rfl, by simp [Item.isList, AbsState.push, hb]⟩
    refine ⟨e, ?_, hdone.cons he⟩
    have hopen : absStep a dquote = some { a with tok := .str [] } := by
      simp only [absStep, htok, absAtom]
      rfl
    have hclose : absStep { a with tok := .str s } dquote = some b := rfl
    have hbody := str_runs (a := a) (s := s) hout [] hs hlen
    exact Reaches.append ⟨0, hg.runs htok hout⟩ (Reaches.cons hopen ⟨hout, Nat.zero_le _⟩
      (Reaches.append ⟨0, hbody⟩ (Reaches.cons hclose (Fits.of_idle hout rfl) hrun)))
  | @bytes g s t rest is hg ht hlen hrest ih =>
    intro a htok hdepth
    simp only [Item.depthAll, Item.depth, Nat.zero_max] at hdepth
    have hout : a.outer.length ≤ stackSize := by omega
    set b := { a with tok := .bytes (nibbles s) }.push (.bytes s) with hb
    obtain ⟨e, hrun, he⟩ := ih b rfl hdepth
    have hdone : ItemRead a (.bytes s) b :=
      ⟨rfl, rfl, rfl, rfl, by simp [Item.isList, AbsState.push, hb]⟩
    refine ⟨e, ?_, hdone.cons he⟩
    have hopen : absStep a lbracket = some { a with tok := .bytes [] } := by
      simp only [absStep, htok, absAtom]
      rfl
    have hclose : absStep { a with tok := .bytes (nibbles s) } rbracket = some b := by
      simp [absStep, hb, pack_nibbles]
    have hbody := bytes_runs (a := a) (t := t) hout [] ht.1 (by
      rw [List.nil_append, ht.2, nibbles_length]
      omega)
    rw [List.nil_append, ht.2] at hbody
    exact Reaches.append ⟨0, hg.runs htok hout⟩ (Reaches.cons hopen ⟨hout, Nat.zero_le _⟩
      (Reaches.append ⟨0, hbody⟩ (Reaches.cons hclose (Fits.of_idle hout rfl) hrun)))
  | @list g inner rest es is hg hin hrest ihin ih =>
    intro a htok hdepth
    simp only [Item.depthAll, Item.depth] at hdepth
    have hout : a.outer.length ≤ stackSize := by omega
    set b : AbsState := { a with
      tok := .idle, cur := [], outer := a.cur :: a.outer
      first := if a.outer.isEmpty then a.cur.length else a.first } with hb
    have hlen : b.outer.length = a.outer.length + 1 := rfl
    obtain ⟨e, hrunin, he⟩ := ihin b rfl (by omega)
    obtain ⟨hs, -⟩ := step_close he.tok he.outer
    have helem : e.elements = Item.readAll radix a.hex es := he.elements
    rw [helem] at hs
    set f : AbsState := { e with
      tok := .idle, cur := a.cur ++ [.list (Item.readAll radix a.hex es)], outer := a.outer }
      with hf
    have hdone : ItemRead a (.list es) f := by
      refine ⟨rfl, rfl, rfl, he.hex, ?_⟩
      have hfirst : f.first = b.first := he.first
      rw [hfirst, hb]
      simp [Item.isList]
    obtain ⟨e', hrun, he'⟩ := ih f rfl (show a.outer.length + _ ≤ _ by omega)
    refine ⟨e', ?_, hdone.cons he'⟩
    have hopen : absStep a lparen = some b := by
      simp only [absStep, htok, absAtom]
      rw [hb, ← htok]
      rfl
    exact Reaches.append ⟨0, hg.runs htok hout⟩ (Reaches.cons hopen
      (Fits.of_idle (by omega) rfl)
      (hrunin.append (Reaches.cons hs (Fits.of_idle (show a.outer.length ≤ _ from hout) rfl) hrun)))

theorem Runs.cost_le {n : ℕ} (hrun : Runs a t n b) : n ≤ 2 * t.length := by
  induction hrun with
  | nil => exact Nat.zero_le _
  | @cons a _ _ x xs n _ _ _ ih =>
    have := stepCost_le a x
    rw [List.length_cons]
    omega

/-- The data of a text are C strings and have sizes that fit a word, in every
    radix. -/
theorem Spells.regular (base : Bool → ℕ) (hs : Spells is t) :
    ∀ mode, Datum.AtomsAll Regular (Item.readAll base mode is) := by
  induction hs with
  | nil => exact fun _ => trivial
  | dec _ _ _ _ ih | neg _ _ _ _ ih | hex _ _ _ _ ih =>
    intro mode
    exact ⟨trivial, ih _⟩
  | sym _ hname _ _ _ ih =>
    intro mode
    exact ⟨fun h0 => (hname.inside 0 h0).2.2 rfl, ih _⟩
  | str _ _ hlen _ ih =>
    intro mode
    exact ⟨lt_of_le_of_lt hlen (by omega), ih _⟩
  | bytes _ _ hlen _ ih =>
    intro mode
    exact ⟨lt_of_le_of_lt hlen (by omega), ih _⟩
  | list _ _ _ ihin ih =>
    intro mode
    refine ⟨?_, ih _⟩
    rw [Item.read, Datum.Atoms]
    exact ihin mode

theorem Item.readAll_length (base : Bool → ℕ) :
    ∀ (mode : Bool) (is : List Item), (Item.readAll base mode is).length = is.length
  | _, [] => rfl
  | mode, i :: is => by
    rw [Item.readAll, List.length_cons, List.length_cons, Item.readAll_length base _ is]

theorem lastList_lt : ∀ {is : List Item} {first n : ℕ}, first < n + is.length →
    lastList first n is < n + is.length
  | [], _, _, hf => hf
  | i :: is, first, n, hf => by
    rw [List.length_cons] at hf ⊢
    have hnext : (if i.isList then n else first) < (n + 1) + is.length := by
      split <;> omega
    have := lastList_lt hnext
    rw [lastList]
    omega

/-- What `read_string` returns for a text of several data. -/
theorem readString_spells (junk : Junk) {h : Heap} (hok : h.FreeListOk)
    (hs : Spells (i :: is) t) (hdepth : Item.depthAll (i :: is) ≤ stackSize)
    (hlen : t.length < 2 ^ 31) (hroom : 2 * t.length + 2 ≤ h.room) :
    ∃ d w h' S,
      (Item.readAll radix (junk.valuestate = vstHex) (i :: is))[lastList 0 0 (i :: is)]? = some d ∧
      readString junk t h = .ok (w, h') ∧ Rep h' S w d := by
  obtain ⟨b, ⟨n, hrun⟩, hb⟩ := hs.reads (.start (junk.valuestate = vstHex)) rfl
    (by simpa [AbsState.start] using hdepth)
  have hcost := hrun.cost_le
  set es := Item.readAll radix (junk.valuestate = vstHex) (i :: is) with hes
  have helem : b.elements = es := hb.elements
  have hfirst : b.first = lastList 0 0 (i :: is) := hb.first
  have hlt : lastList 0 0 (i :: is) < es.length := by
    have hbound : lastList 0 0 (i :: is) < 0 + (i :: is).length := lastList_lt (by simp)
    rw [hes, Item.readAll_length]
    omega
  have hne : t ≠ [] := by
    rintro rfl
    cases hrun
    have := congrArg List.length helem
    rw [hes, Item.readAll_length] at this
    simp [AbsState.elements, AbsState.start, Token.datum] at this
  have hget := List.getElem?_eq_getElem hlt
  obtain ⟨w, h', S, hr, hrep, -⟩ := readString_sim hok hne hlen hrun hb.outer
    (by rw [helem, hfirst]; exact hget) (by omega)
  exact ⟨_, w, h', S, hget, hr, hrep⟩

end Reads

/-- `read_string` returns the first datum exactly when the last list at top
    level, or the first datum itself where there is none, is read as the first
    datum denotes. -/
theorem first_datum_iff (junk : Junk) (h : Heap) (i : Item) (is : List Item) (t : List UInt8)
    (hok : h.FreeListOk) (hs : Spells (i :: is) t) (hdepth : Item.depthAll (i :: is) ≤ 96)
    (hlen : t.length < 2 ^ 31) (hroom : 2 * t.length + 2 ≤ h.room) :
    (∃ w h' S, readString junk t h = .ok (w, h') ∧ Rep h' S w i.denotes) ↔
      (Item.readAll radix (junk.valuestate = vstHex) (i :: is))[lastList 0 0 (i :: is)]? =
        some i.denotes := by
  obtain ⟨d, w, h', S, hget, hr, hrep⟩ := readString_spells junk hok hs hdepth hlen hroom
  have hreg : d.Atoms Regular :=
    Datum.AtomsAll.mem (hs.regular radix _) (List.mem_of_getElem? hget)
  have hreg₀ : i.denotes.Atoms Regular := (hs.regular (fun _ => 10) false).1
  constructor
  · rintro ⟨w', h'', S', hr', hrep'⟩
    obtain ⟨rfl, rfl⟩ := Prod.mk.inj (Except.ok.inj (hr.symm.trans hr'))
    rw [hget, hrep.unique hrep' hreg hreg₀]
  · intro hsel
    obtain rfl := Option.some.inj (hget.symm.trans hsel)
    exact ⟨w, h', S, hr, hrep⟩

/-- `(1) 2` is two data: a list and an integer. -/
theorem list_atom_spells :
    Spells [.list [.dec [49]], .dec [50]] ([] ++ (40 :: ([49] ++ (41 :: ([32] ++ ([50] ++ [])))))) := by
  have hend : Delimited [] := fun c cs hc => by cases hc
  have hone : Spells [.dec [49]] ([] ++ ([49] ++ [])) :=
    .dec .nil (isDigits_of_all (by simp) rfl) (.nil .nil) hend
  have htwo : Spells [.dec [50]] ([32] ++ ([50] ++ [])) :=
    .dec (.ws rfl .nil) (isDigits_of_all (by simp) rfl) (.nil .nil) hend
  exact .list .nil hone htwo

/-- `(1) 2` reads as `(1)`. -/
theorem first_datum_list :
    ∃ w h' S, readString ⟨fun _ => .null, 0, 0⟩ [40, 49, 41, 32, 50] Heap.init = .ok (w, h') ∧
      Rep h' S w (.list [.int 1]) :=
  (first_datum_iff ⟨fun _ => .null, 0, 0⟩ Heap.init (.list [.dec [49]]) [.dec [50]] _
    init_freeListOk list_atom_spells (by decide) (by decide) (by decide)).mpr rfl

/-- `1 (2)` is two data, an integer and a list. -/
theorem atom_list_spells :
    Spells [.dec [49], .list [.dec [50]]] ([] ++ ([49] ++ ([32] ++ (40 :: ([50] ++ (41 :: [])))))) := by
  have hend : Delimited [] := fun c cs hc => by cases hc
  have htwo : Spells [.dec [50]] ([] ++ ([50] ++ [])) :=
    .dec .nil (isDigits_of_all (by simp) rfl) (.nil .nil) hend
  have hlist : Spells [.list [.dec [50]]] ([32] ++ (40 :: ([50] ++ (41 :: [])))) :=
    .list (.ws rfl .nil) htwo (.nil .nil)
  refine .dec .nil (isDigits_of_all (by simp) rfl) hlist ?_
  intro c cs hc
  obtain ⟨rfl, -⟩ := List.cons.inj hc
  rfl

/-- `1 (2)` does not read as `1`: `read_string` returns `(2)`. -/
theorem first_datum_overwritten :
    Spells [.dec [49], .list [.dec [50]]] [49, 32, 40, 50, 41] ∧
      ¬ ∃ w h' S, readString ⟨fun _ => .null, 0, 0⟩ [49, 32, 40, 50, 41] Heap.init = .ok (w, h') ∧
        Rep h' S w (.int 1) := by
  refine ⟨atom_list_spells, ?_⟩
  rintro ⟨w', h'', S', hr', hrep'⟩
  obtain ⟨d, w, h', S, hget, hr, hrep⟩ := readString_spells ⟨fun _ => .null, 0, 0⟩
    init_freeListOk atom_list_spells (by decide) (by decide) (by decide)
  obtain rfl : Datum.list [.int 2] = d := Option.some.inj hget
  obtain ⟨rfl, rfl⟩ := Prod.mk.inj (Except.ok.inj (hr.symm.trans hr'))
  have heq := hrep.unique hrep' ⟨trivial, trivial⟩ trivial
  cases heq

end Interim.Reader
