import Interim.Alloc.Construct
import Interim.Library.Reach

/-!
# What can be read from a value

A program reads a value through `sget` and, in lists, through `car` and `cdr`;
from strings and buffers it reads bytes. `view m h w` is what it can find out
about the value `w` in the heap `h` with at most `m` such steps.

* `view_congr`: the view depends only on the cells seen from `w`, the fields of
  the structs among them and the contents of their buffers.
* `allocClone_clones`: `alloc_clone` of a value without shared structs makes a
  value with the same view, all of whose cells and buffers are new.
-/

namespace Interim.Heap

open Reach
open Writer (cellAt)

/-! ## Fields, parts and views -/

/-- The cells with a copied buffer: symbols, strings and bytes. -/
def IsText (c : Cell) : Prop := c.tag = tagSym ∨ c.tag = tagStr ∨ c.tag = tagBytes

instance (c : Cell) : Decidable (IsText c) := inferInstanceAs (Decidable (_ ∨ _ ∨ _))

/-- The field values of a struct: its elements after the definition. -/
def fields (h : Heap) (c : Cell) : List Word :=
  match c.ar with
  | .ptr (.elems e) off => if off = 0 then (h.elems e).drop 1 else []
  | _ => []

/-- The values a program gets at from cell `i` in one step. -/
def parts (h : Heap) (i : ℕ) : List Word :=
  let c := h.cells i
  if c.tag = tagCons then [c.ar, c.dr]
  else if c.tag = tagStruct then h.fields c
  else []

theorem parts_struct {h : Heap} {i : ℕ} (ht : (h.cells i).tag = tagStruct) :
    h.parts i = h.fields (h.cells i) := by
  unfold parts
  simp [ht]

/-- The bytes of a symbol, string or buffer. -/
def textOf (h : Heap) (c : Cell) : List UInt8 :=
  match c.ar, c.dr with
  | .ptr (.bytes b) off, .int v => ((h.bytes b).drop off.toNat).take v.toNat
  | _, _ => []

/-- What is read from a value. -/
inductive View
  /-- no more steps -/
  | cut
  /-- `NULL`, or no cell at all -/
  | word (w : Word)
  | text (tag : ℕ) (data : List UInt8)
  | node (tag : ℕ) (parts : List View)
  /-- an integer, a function, a stream, … -/
  | leaf (c : Cell)

/-- What can be read from `w` in at most `m` steps. -/
def view : ℕ → Heap → Word → View
  | 0, _, _ => .cut
  | m + 1, h, w =>
    match w.asCell with
    | some (some i) =>
      let c := h.cells i
      if IsText c then .text c.tag (h.textOf c)
      else if c.tag = tagCons ∨ c.tag = tagStruct then .node c.tag ((h.parts i).map (view m h))
      else .leaf c
    | _ => .word w

/-- Cell `j` is a part of cell `i`. -/
def Sees (h : Heap) (i j : ℕ) : Prop := .cell j ∈ h.parts i

/-- The cells a program gets at from `w`. -/
def seen (h : Heap) (w : Word) : Set ℕ := {j | ∃ i, w = .cell i ∧ j ∈ reach h.Sees i}

variable {h h' h'' : Heap} {w w' : Word} {i j : ℕ}

theorem seen_null (h : Heap) : h.seen .null = ∅ := by
  ext j
  simp [seen]

theorem seen_cell (h : Heap) (i : ℕ) : h.seen (.cell i) = reach h.Sees i := by
  ext j
  simp [seen]

theorem mem_seen_self (h : Heap) (i : ℕ) : i ∈ h.seen (.cell i) := ⟨i, rfl, mem_reach_self i⟩

theorem seen_closed (h : Heap) (w : Word) : Closed h.Sees (h.seen w) := by
  rintro a ⟨i, rfl, ha⟩ b hab
  exact ⟨i, rfl, reach_closed i a ha b hab⟩

/-- What is seen from a part is seen from the whole. -/
theorem seen_part (hw : w ∈ h.parts i) : h.seen w ⊆ h.seen (.cell i) := by
  rintro j ⟨k, rfl, hk⟩
  exact ⟨i, rfl, reach_subset_of_edge hw hk⟩

/-- What is seen from a cell is the cell and what is seen from its parts. -/
theorem mem_seen_cell : j ∈ h.seen (.cell i) ↔ j = i ∨ ∃ w ∈ h.parts i, j ∈ h.seen w := by
  rw [seen_cell, reach_eq_insert]
  constructor
  · rintro (rfl | ⟨k, hk, hj⟩)
    · exact Or.inl rfl
    · exact Or.inr ⟨.cell k, hk, k, rfl, hj⟩
  · rintro (rfl | ⟨w, hw, k, rfl, hj⟩)
    · exact Or.inl rfl
    · exact Or.inr ⟨k, hw, hj⟩

/-! ## Frames -/

/-- Cell `j`, its fields and its text are the same in `h` and `h'`. -/
structure Same (h h' : Heap) (j : ℕ) : Prop where
  cell : h'.cells j = h.cells j
  fields : (h.cells j).tag = tagStruct → h'.fields (h.cells j) = h.fields (h.cells j)
  text : IsText (h.cells j) → h'.textOf (h.cells j) = h.textOf (h.cells j)

theorem Same.parts (hs : Same h h' j) : h'.parts j = h.parts j := by
  unfold Heap.parts
  rw [hs.cell]
  by_cases hc : (h.cells j).tag = tagCons
  · simp [hc]
  · by_cases ht : (h.cells j).tag = tagStruct
    · simp [ht, hs.fields ht]
    · simp [hc, ht]

theorem seen_congr (hs : ∀ j ∈ h.seen w, Same h h' j) : h'.seen w = h.seen w := by
  have hr : ∀ i, w = .cell i → reach h'.Sees i = reach h.Sees i := by
    intro i hi
    apply reach_congr
    intro b hb c
    unfold Sees
    rw [(hs b ⟨i, hi, hb⟩).parts]
  ext j
  constructor
  · rintro ⟨i, hi, hj⟩
    exact ⟨i, hi, by rw [← hr i hi]; exact hj⟩
  · rintro ⟨i, hi, hj⟩
    exact ⟨i, hi, by rw [hr i hi]; exact hj⟩

/-- The view of a value depends on what is seen from it only. -/
theorem view_congr (m : ℕ) : ∀ {w : Word}, (∀ j ∈ h.seen w, Same h h' j) →
    view m h' w = view m h w := by
  induction m with
  | zero => intro w _; rfl
  | succ m ih =>
    intro w hs
    unfold view
    split
    · rename_i i hi
      obtain rfl := Word.asCell_eq_some hi
      have hi' := hs i (h.mem_seen_self i)
      have hparts : (h.parts i).map (view m h') = (h.parts i).map (view m h) := by
        apply List.map_congr_left
        intro u hu
        exact ih fun j hj => hs j (seen_part hu hj)
      dsimp only
      rw [hi'.cell, hi'.parts, hparts]
      by_cases ht : IsText (h.cells i)
      · simp [ht, hi'.text ht]
      · simp [ht]
    · rfl

/-! ## What is in use -/

/-- Cell `j` is handed out, and so are its array and its buffer. -/
structure InUse (h : Heap) (j : ℕ) : Prop where
  cell : j ∉ h.Supply
  array : ∀ e off, (h.cells j).tag = tagStruct → (h.cells j).ar = .ptr (.elems e) off →
    e < h.elemsUsed
  buffer : ∀ b off, IsText (h.cells j) → (h.cells j).ar = .ptr (.bytes b) off → b < h.bytesUsed

/-- Everything seen from `w` is in use. -/
def Settled (h : Heap) (w : Word) : Prop := ∀ j ∈ h.seen w, InUse h j

theorem fields_congr {c : Cell}
    (he : ∀ e off, c.ar = .ptr (.elems e) off → h'.elems e = h.elems e) :
    h'.fields c = h.fields c := by
  unfold fields
  split
  · rename_i e off hc
    rw [he e off hc]
  · rfl

theorem textOf_congr {c : Cell}
    (hb : ∀ b off, c.ar = .ptr (.bytes b) off → h'.bytes b = h.bytes b) :
    h'.textOf c = h.textOf c := by
  unfold textOf
  split
  · rename_i b off v hc _
    rw [hb b off hc]
  · rfl

/-- Allocations leave what is in use alone. -/
theorem KeepsAll.same (hk : KeepsAll h h') (hj : InUse h j) : Same h h' j where
  cell := hk.cell hj.cell
  fields := fun ht => fields_congr fun e off hc => hk.elems e (hj.array e off ht hc)
  text := fun ht => textOf_congr fun b off hc =>
    hk.keeps.bytes b (hj.buffer b off ht hc) (Set.notMem_empty b)

theorem KeepsAll.inUse (hk : KeepsAll h h') (hj : InUse h j) : InUse h' j where
  cell := fun hs => hj.cell (hk.keeps.supply hs)
  array := by
    rw [hk.cell hj.cell]
    exact fun e off ht hc => lt_of_lt_of_le (hj.array e off ht hc) hk.elemsUsed
  buffer := by
    rw [hk.cell hj.cell]
    exact fun b off ht hc => lt_of_lt_of_le (hj.buffer b off ht hc) hk.keeps.bytesUsed

theorem KeepsAll.seen (hk : KeepsAll h h') (hw : Settled h w) : h'.seen w = h.seen w :=
  seen_congr fun j hj => hk.same (hw j hj)

theorem KeepsAll.view (hk : KeepsAll h h') (hw : Settled h w) (m : ℕ) :
    view m h' w = view m h w :=
  view_congr m fun j hj => hk.same (hw j hj)

theorem KeepsAll.settled (hk : KeepsAll h h') (hw : Settled h w) : Settled h' w := by
  intro j hj
  rw [hk.seen hw] at hj
  exact hk.inUse (hw j hj)

/-! ## Clones -/

/-- `alloc_clone` copies every part of `w` that can be written through a field:
    `w` leads, through cons cells, to no struct with a field. -/
inductive Copied (h : Heap) : Word → Prop
  | null : Copied h .null
  | text {k : ℕ} (ht : IsText (h.cells k)) : Copied h (.cell k)
  | cons {k : ℕ} (ht : (h.cells k).tag = tagCons) (ha : Copied h (h.cells k).ar)
      (hd : Copied h (h.cells k).dr) : Copied h (.cell k)
  | leaf {k : ℕ} (ht : ¬ IsText (h.cells k)) (hc : (h.cells k).tag ≠ tagCons)
      (hp : h.parts k = []) : Copied h (.cell k)

/-- Cell `j` was handed out after `h₀`; it has no fields, its array is older
    than array `E` and its buffer is new. -/
structure New (E : ℕ) (h₀ h : Heap) (j : ℕ) : Prop where
  fresh : j ∈ h₀.Supply
  inUse : InUse h j
  bare : (h.cells j).tag = tagStruct → h.fields (h.cells j) = []
  array : ∀ e off, (h.cells j).tag = tagStruct → (h.cells j).ar = .ptr (.elems e) off → e < E
  buffer : ∀ b off, IsText (h.cells j) → (h.cells j).ar = .ptr (.bytes b) off → h₀.bytesUsed ≤ b

/-- In `h`, `w'` is a clone of what `w` was in `h₀`. -/
structure Clones (E : ℕ) (h₀ h : Heap) (w' w : Word) : Prop where
  view : ∀ m, view m h w' = view m h₀ w
  new : ∀ j ∈ h.seen w', New E h₀ h j

/-- The arrays of the structs seen from `w` are older than array `E`. -/
def ArraysBelow (E : ℕ) (h : Heap) (w : Word) : Prop :=
  ∀ j ∈ h.seen w, ∀ e off, (h.cells j).tag = tagStruct → (h.cells j).ar = .ptr (.elems e) off → e < E

variable {E : ℕ} {h₀ : Heap}

theorem Clones.settled (hc : Clones E h₀ h w' w) : Settled h w' := fun j hj => (hc.new j hj).inUse

theorem Clones.keeps (hc : Clones E h₀ h w' w) (hk : KeepsAll h h') : Clones E h₀ h' w' w where
  view := fun m => (hk.view hc.settled m).trans (hc.view m)
  new := by
    intro j hj
    rw [hk.seen hc.settled] at hj
    have hn := hc.new j hj
    have hs := hk.same hn.inUse
    refine ⟨hn.fresh, hk.inUse hn.inUse, ?_, ?_, ?_⟩
    · rw [hs.cell]
      intro ht
      rw [hs.fields ht, hn.bare ht]
    · rw [hs.cell]; exact hn.array
    · rw [hs.cell]; exact hn.buffer

/-- A clone made after some allocations. -/
theorem Clones.of_keeps (hk : KeepsAll h₀ h) (hw : Settled h₀ w) (hc : Clones E h h' w' w) :
    Clones E h₀ h' w' w where
  view := fun m => (hc.view m).trans (hk.view hw m)
  new := by
    intro j hj
    have hn := hc.new j hj
    exact ⟨hk.keeps.supply hn.fresh, hn.inUse, hn.bare, hn.array,
      fun b off ht hb => hk.keeps.bytesUsed.trans (hn.buffer b off ht hb)⟩

theorem Copied.congr (hc : Copied h w) : (∀ j ∈ h.seen w, Same h h' j) → Copied h' w := by
  induction hc with
  | null => intro _; exact .null
  | @text k ht =>
    intro hw
    have hs := hw k (h.mem_seen_self k)
    exact .text (by rw [hs.cell]; exact ht)
  | @cons k ht ha hd iha ihd =>
    intro hw
    have hs := hw k (h.mem_seen_self k)
    have hp : h.parts k = [(h.cells k).ar, (h.cells k).dr] := by
      unfold Heap.parts
      simp [ht]
    refine .cons (by rw [hs.cell]; exact ht) ?_ ?_
    · rw [hs.cell]
      exact iha fun j hj => hw j (seen_part (by rw [hp]; simp) hj)
    · rw [hs.cell]
      exact ihd fun j hj => hw j (seen_part (by rw [hp]; simp) hj)
  | @leaf k ht hc hp =>
    intro hw
    have hs := hw k (h.mem_seen_self k)
    exact .leaf (by rw [hs.cell]; exact ht) (by rw [hs.cell]; exact hc) (by rw [hs.parts]; exact hp)

theorem KeepsAll.copied (hk : KeepsAll h h') (hc : Copied h w) (hw : Settled h w) : Copied h' w :=
  hc.congr fun j hj => hk.same (hw j hj)

theorem KeepsAll.arraysBelow (hk : KeepsAll h h') (hw : Settled h w) (ha : ArraysBelow E h w) :
    ArraysBelow E h' w := by
  intro j hj
  rw [hk.seen hw] at hj
  rw [hk.cell (hw j hj).cell]
  exact ha j hj

/-- A cell without parts is all that is seen from it. -/
theorem seen_of_parts_nil (hp : h.parts i = []) (hj : j ∈ h.seen (.cell i)) : j = i := by
  rcases mem_seen_cell.mp hj with rfl | ⟨u, hu, -⟩
  · rfl
  · rw [hp] at hu
    exact absurd hu (by simp)

/-- The view of a text depends on the tag and the text only. -/
theorem view_text {k : ℕ} (ht : IsText (h.cells k)) (htag : (h'.cells i).tag = (h.cells k).tag)
    (htext : h'.textOf (h'.cells i) = h.textOf (h.cells k)) (m : ℕ) :
    view m h' (.cell i) = view m h (.cell k) := by
  cases m with
  | zero => rfl
  | succ m =>
    have ht' : IsText (h'.cells i) := by
      unfold IsText at ht ⊢
      rwa [htag]
    simp only [view, Word.asCell_cell, if_pos ht, if_pos ht', htag, htext]

/-- The view of a cell without parts that is no text is the cell. -/
theorem view_leaf {k : ℕ} (ht : ¬ IsText (h.cells k)) (hcell : h'.cells i = h.cells k)
    (hp : h.parts k = []) (hp' : h'.parts i = []) (m : ℕ) :
    view m h' (.cell i) = view m h (.cell k) := by
  cases m with
  | zero => rfl
  | succ m => simp only [view, Word.asCell_cell, hcell, if_neg ht, hp, hp', List.map_nil]

/-- A clone that is one cell without parts. -/
theorem Clones.single {k : ℕ} (hview : ∀ m, Heap.view m h' (.cell i) = Heap.view m h (.cell k))
    (hp : h'.parts i = []) (hn : New E h h' i) : Clones E h h' (.cell i) (.cell k) where
  view := hview
  new := by
    intro j hj
    rw [seen_of_parts_nil hp hj]
    exact hn

theorem parts_of_text (ht : IsText (h.cells i)) : h.parts i = [] := by
  unfold parts
  rcases ht with ht | ht | ht <;> simp [ht]

theorem not_text_of_cons {c : Cell} (ht : c.tag = tagCons) : ¬ IsText c := by
  unfold IsText
  rw [ht]
  decide

theorem not_struct_of_text {c : Cell} (ht : IsText c) : c.tag ≠ tagStruct := by
  rcases ht with ht | ht | ht <;> rw [ht] <;> decide

/-- The branch of `alloc_clone` for symbols, strings and bytes. -/
theorem cloneBytes_clones {h₁ : Heap} {k : ℕ} (hk : KeepsAll h h₁) (hi : i ∈ h.Supply)
    (hout : i ∉ h₁.Supply) (hin : InUse h k) (ht : IsText (h.cells k))
    (ha : h₁.cloneBytes i (h.cells k) = .ok (w', h')) : Clones E h h' w' (.cell k) := by
  obtain ⟨size, hsize, ha⟩ := bind_ok.mp ha
  obtain ⟨⟨b, h₂⟩, hb, ha⟩ := bind_ok.mp ha
  obtain ⟨h₃, hcp, ha⟩ := bind_ok.mp ha
  obtain ⟨rfl, rfl⟩ := Prod.mk.inj (Except.ok.inj ha)
  obtain ⟨v, hdr, rfl⟩ : ∃ v, (h.cells k).dr = .int v ∧ size = v.toNat := by
    unfold sizeOf at hsize
    split at hsize
    · rename_i v hv
      exact ⟨v, hv, (Except.ok.inj hsize).symm⟩
    · exact absurd hsize (by simp)
  have hbu : b = h₁.bytesUsed ∧ h₂.bytesUsed = h₁.bytesUsed + 1 ∧ h₂.Supply = h₁.Supply ∧
      ∀ b' < h₁.bytesUsed, h₂.bytes b' = h₁.bytes b' := by
    unfold bytesAlloc at hb
    split at hb
    · exact absurd hb (by simp)
    · obtain ⟨rfl, rfl⟩ := Prod.mk.inj (Except.ok.inj hb)
      exact ⟨rfl, rfl, rfl, fun b' hb' => Function.update_of_ne hb'.ne _ _⟩
  obtain ⟨rfl, hused, hsup, hold⟩ := hbu
  unfold copyBytes at hcp
  split at hcp
  · rename_i b' off har
    split at hcp
    · rename_i hfit
      obtain rfl := Except.ok.inj hcp
      have hlt : b' < h.bytesUsed := hin.buffer b' off ht har
      have hbytes : h₂.bytes b' = h.bytes b' := by
        rw [hold b' (lt_of_lt_of_le hlt hk.keeps.bytesUsed)]
        exact hk.keeps.bytes b' hlt (Set.notMem_empty b')
      set h' := (h₂.setBytes h₁.bytesUsed (((h₂.bytes b').drop off.toNat).take v.toNat ++
        (h₂.bytes h₁.bytesUsed).drop v.toNat)).setCell i
          ⟨.ptr (.bytes h₁.bytesUsed) 0, (h.cells k).dr, (h.cells k).tag⟩ with hh'
      have hcell : h'.cells i = ⟨.ptr (.bytes h₁.bytesUsed) 0, (h.cells k).dr, (h.cells k).tag⟩ := by
        rw [hh', setCell_cells, Function.update_self]
      have ht' : IsText (h'.cells i) := by
        rw [hcell]
        exact ht
      have htext : h'.textOf (h'.cells i) = h.textOf (h.cells k) := by
        have hlen : (((h₂.bytes b').drop off.toNat).take v.toNat).length = v.toNat := by
          rw [List.length_take, List.length_drop]
          omega
        have hread : h'.bytes h₁.bytesUsed = ((h₂.bytes b').drop off.toNat).take v.toNat ++
            (h₂.bytes h₁.bytesUsed).drop v.toNat := by
          rw [hh', setCell_bytes, setBytes_bytes, Function.update_self]
        rw [hcell]
        simp only [textOf, har, hdr, hread, Int.toNat_zero, List.drop_zero]
        rw [List.take_append_of_le_length hlen.ge, List.take_of_length_le hlen.le, hbytes]
      refine Clones.single (view_text ht (by rw [hcell]) htext) (parts_of_text ht')
        ⟨hi, ⟨?_, ?_, ?_⟩, ?_, ?_, ?_⟩
      · change i ∉ h₂.Supply
        rw [hsup]
        exact hout
      · intro e off' hs
        exact absurd hs (not_struct_of_text ht')
      · intro b'' off' _ hb''
        rw [hcell] at hb''
        cases hb''
        change h₁.bytesUsed < h₂.bytesUsed
        omega
      · intro hs
        exact absurd hs (not_struct_of_text ht')
      · intro e off' hs
        exact absurd hs (not_struct_of_text ht')
      · intro b'' off' _ hb''
        rw [hcell] at hb''
        cases hb''
        exact hk.keeps.bytesUsed
    · exact absurd hcp (by simp)
  · exact absurd hcp (by simp)

/-- The branch of `alloc_clone` for cells that are copied word by word. -/
theorem setCell_clones {h₁ : Heap} {k : ℕ} (hk : KeepsAll h h₁) (hi : i ∈ h.Supply)
    (hout : i ∉ h₁.Supply) (hin : InUse h k) (ht : ¬ IsText (h.cells k))
    (hc : (h.cells k).tag ≠ tagCons) (hp : h.parts k = [])
    (hE : ArraysBelow E h (.cell k)) :
    Clones E h (h₁.setCell i (h.cells k)) (.cell i) (.cell k) := by
  set h' := h₁.setCell i (h.cells k) with hh'
  have hcell : h'.cells i = h.cells k := by rw [hh', setCell_cells, Function.update_self]
  -- a struct copied this way shares its array, which has no field
  have hfields : (h.cells k).tag = tagStruct → h'.fields (h.cells k) = [] := by
    intro hs
    have hsame : h'.fields (h.cells k) = h.fields (h.cells k) :=
      fields_congr fun e off har => hk.elems e (hin.array e off hs har)
    unfold Heap.parts at hp
    simpa [hs, hsame] using hp
  have hp' : h'.parts i = [] := by
    unfold Heap.parts
    rw [hcell]
    by_cases hs : (h.cells k).tag = tagStruct
    · simp [hs, hfields hs]
    · simp [hc, hs]
  refine Clones.single (view_leaf ht hcell hp hp') hp' ⟨hi, ⟨hout, ?_, ?_⟩, ?_, ?_, ?_⟩
  · rw [hcell]
    exact fun e off hs har => lt_of_lt_of_le (hin.array e off hs har) hk.elemsUsed
  · rw [hcell]
    exact fun b off htext => absurd htext ht
  · rw [hcell]
    exact hfields
  · rw [hcell]
    exact hE k (h.mem_seen_self k)
  · rw [hcell]
    exact fun b off htext => absurd htext ht

/-- Assigning to a cell that a clone does not contain. -/
theorem Clones.setCell_of_notMem {c : Cell} (hc : Clones E h₀ h w' w) (hi : i ∉ h.seen w') :
    Clones E h₀ (h.setCell i c) w' w := by
  have hne : ∀ j ∈ h.seen w', j ≠ i := fun j hj he => hi (he ▸ hj)
  have hsame : ∀ j ∈ h.seen w', Same h (h.setCell i c) j := fun j hj =>
    ⟨Function.update_of_ne (hne j hj) _ _, fun _ => rfl, fun _ => rfl⟩
  refine ⟨fun m => (view_congr m hsame).trans (hc.view m), ?_⟩
  intro j hj
  rw [seen_congr hsame] at hj
  have hn := hc.new j hj
  have hcell := (hsame j hj).cell
  refine ⟨hn.fresh, ⟨hn.inUse.cell, ?_, ?_⟩, ?_, ?_, ?_⟩
  · rw [hcell]; exact hn.inUse.array
  · rw [hcell]; exact hn.inUse.buffer
  · rw [hcell]; exact hn.bare
  · rw [hcell]; exact hn.array
  · rw [hcell]; exact hn.buffer

/-- The frame of the last assignment of `alloc_clone` to a cons cell. -/
theorem Clones.setCell {c : Cell} (hc : Clones E h₀ h w' w) (hi : i ∉ h₀.Supply) :
    Clones E h₀ (h.setCell i c) w' w :=
  hc.setCell_of_notMem fun hs => hi (hc.new i hs).fresh

/-- **Clones.** On a value that `alloc_clone` copies, it makes a new value with
    the same view. -/
theorem allocClone_clones (n : ℕ) : ∀ {h h' : Heap} {w w' : Word}, h.FreeListOk → Settled h w →
    ArraysBelow E h w → Copied h w → allocClone n h w = .ok (w', h') → Clones E h h' w' w := by
  induction n with
  | zero => intro h h' w w' _ _ _ _ ha; exact absurd ha (by simp [allocClone])
  | succ n ih =>
    intro h h' w w' hok hw hE hc ha
    unfold allocClone at ha
    by_cases hnull : w = .null
    · rw [if_pos hnull] at ha
      obtain ⟨rfl, rfl⟩ := Prod.mk.inj (Except.ok.inj ha)
      rw [hnull]
      refine ⟨fun m => rfl, fun j hj => ?_⟩
      rw [seen_null] at hj
      exact absurd hj (Set.notMem_empty j)
    · rw [if_neg hnull] at ha
      obtain ⟨⟨i, h₁⟩, h1, ha⟩ := bind_ok.mp ha
      obtain ⟨hk, hi, hout⟩ := cellAlloc_keeps hok h1
      obtain ⟨orig, horig, hrun⟩ := bind_ok.mp ha
      have hcellAt : ∀ k, w = .cell k → orig = h.cells k := by
        rintro k rfl
        rw [← hk.cell (hw k (h.mem_seen_self k)).cell]
        exact (Except.ok.inj horig).symm
      dsimp only at hrun
      cases hc with
      | null => exact absurd rfl hnull
      | @text k ht =>
        rw [hcellAt k rfl, if_pos (show _ ∨ _ ∨ _ from ht)] at hrun
        exact cloneBytes_clones hk hi hout (hw k (h.mem_seen_self k)) ht hrun
      | @leaf k ht hcons hp =>
        rw [hcellAt k rfl, if_neg (show ¬ (_ ∨ _ ∨ _) from ht), if_neg hcons] at hrun
        obtain ⟨rfl, rfl⟩ := Prod.mk.inj (Except.ok.inj hrun)
        exact setCell_clones hk hi hout (hw k (h.mem_seen_self k)) ht hcons hp hE
      | @cons k ht hca hcd =>
        have htext := not_text_of_cons ht
        have hp : h.parts k = [(h.cells k).ar, (h.cells k).dr] := by
          unfold Heap.parts
          simp [ht]
        rw [hcellAt k rfl, if_neg (show ¬ (_ ∨ _ ∨ _) from htext), if_pos ht] at hrun
        obtain ⟨⟨a, h₂⟩, h2, hrun⟩ := bind_ok.mp hrun
        obtain ⟨⟨d, h₃⟩, h3, hrun⟩ := bind_ok.mp hrun
        obtain ⟨rfl, rfl⟩ := Prod.mk.inj (Except.ok.inj hrun)
        have hsub : ∀ u ∈ h.parts k, Settled h u ∧ ArraysBelow E h u := fun u hu =>
          ⟨fun j hj => hw j (seen_part hu hj), fun j hj => hE j (seen_part hu hj)⟩
        obtain ⟨hwa, hEa⟩ := hsub (h.cells k).ar (by rw [hp]; simp)
        obtain ⟨hwd, hEd⟩ := hsub (h.cells k).dr (by rw [hp]; simp)
        have ca := ih hk.freeListOk (hk.settled hwa) (hk.arraysBelow hwa hEa) (hk.copied hca hwa) h2
        have hk₂ := allocClone_keeps n hk.freeListOk h2
        have hk₁₂ := hk.trans hk₂
        have cd := ih hk₁₂.freeListOk (hk₁₂.settled hwd) (hk₁₂.arraysBelow hwd hEd)
          (hk₁₂.copied hcd hwd) h3
        have hk₃ := allocClone_keeps n hk₂.freeListOk h3
        -- both halves as clones of what was there before `cell_alloc`, with the cons cell filled
        have hout₂ : i ∉ h₂.Supply := fun hs => hout (hk₂.keeps.supply hs)
        have ca' := ((ca.keeps hk₃).setCell (c := ⟨a, d, tagCons⟩) hout).of_keeps hk hwa
        have cd' := (cd.setCell (c := ⟨a, d, tagCons⟩) hout₂).of_keeps hk₁₂ hwd
        set h' := h₃.setCell i ⟨a, d, tagCons⟩ with hh'
        have hcell : h'.cells i = ⟨a, d, tagCons⟩ := by
          rw [hh', setCell_cells, Function.update_self]
        have hp' : h'.parts i = [a, d] := by
          unfold Heap.parts
          simp [hcell]
        constructor
        · intro m
          cases m with
          | zero => rfl
          | succ m =>
            have hnt : ¬ IsText (⟨a, d, tagCons⟩ : Cell) := not_text_of_cons rfl
            simp only [Heap.view, Word.asCell_cell, hcell, if_neg hnt, if_neg htext, ht, true_or,
              if_true, hp, hp', List.map_cons, List.map_nil, ca'.view m, cd'.view m]
        · intro j hj
          rcases mem_seen_cell.mp hj with rfl | ⟨u, hu, hju⟩
          · refine ⟨hi, ⟨?_, ?_, ?_⟩, ?_, ?_, ?_⟩
            · exact fun hs => hout₂ (hk₃.keeps.supply hs)
            all_goals
              rw [hcell]
              simp [IsText]
          · rw [hp'] at hu
            simp only [List.mem_cons, List.not_mem_nil, or_false] at hu
            rcases hu with rfl | rfl
            · exact ca'.new j hju
            · exact cd'.new j hju

end Interim.Heap
