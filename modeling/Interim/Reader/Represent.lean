import Interim.Reader.Abstract

/-!
# Data in the heap

`Rep h S w d`: in heap `h` the word `w` points to the datum `d`, built from
cells and buffers of the set `S` only. Since `S` is explicit, a representation
survives every change of the heap outside `S` (`Rep.mono`), which is all the
separation the reader's proof needs: finished data live in `S`, the reader
writes elsewhere.
-/

namespace Interim.Reader

open Heap

/-- `w` points to the datum `d`, built from blocks of `S`. A list is a chain of
    `TAG_CONS` cells ended by a nil cell. -/
inductive Rep (h : Heap) (S : Set Block) : Word → Datum → Prop
  | int {i : ℕ} {v : BitVec 64} (hS : .cell i ∈ S) (htag : (h.cells i).tag = tagInt)
      (har : (h.cells i).ar = .int v) : Rep h S (.cell i) (.int v)
  | sym {i b : ℕ} {name rest : List UInt8} (hS : .cell i ∈ S) (hb : .bytes b ∈ S)
      (htag : (h.cells i).tag = tagSym) (har : (h.cells i).ar = .ptr (.bytes b) 0)
      (hbuf : h.bytes b = name ++ 0 :: rest) : Rep h S (.cell i) (.sym name)
  | str {i b : ℕ} {s rest : List UInt8} (hS : .cell i ∈ S) (hb : .bytes b ∈ S)
      (htag : (h.cells i).tag = tagStr) (har : (h.cells i).ar = .ptr (.bytes b) 0)
      (hdr : (h.cells i).dr = .ofNat s.length) (hbuf : h.bytes b = s ++ 0 :: rest) :
      Rep h S (.cell i) (.str s)
  | bytes {i b : ℕ} {s rest : List UInt8} (hS : .cell i ∈ S) (hb : .bytes b ∈ S)
      (htag : (h.cells i).tag = tagBytes) (har : (h.cells i).ar = .ptr (.bytes b) 0)
      (hdr : (h.cells i).dr = .ofNat s.length) (hbuf : h.bytes b = s ++ rest) :
      Rep h S (.cell i) (.bytes s)
  | nil {i : ℕ} (hS : .cell i ∈ S) (hcell : h.cells i = ⟨.null, .null, tagCons⟩) :
      Rep h S (.cell i) (.list [])
  | cons {i : ℕ} {d : Datum} {ds : List Datum} (hS : .cell i ∈ S)
      (htag : (h.cells i).tag = tagCons) (hcar : Rep h S (h.cells i).ar d)
      (hcdr : Rep h S (h.cells i).dr (.list ds)) : Rep h S (.cell i) (.list (d :: ds))

/-- `h'` has the same cells and buffers as `h` on `S`. -/
structure AgreeOn (S : Set Block) (h h' : Heap) : Prop where
  cells : ∀ i, .cell i ∈ S → h'.cells i = h.cells i
  bytes : ∀ b, .bytes b ∈ S → h'.bytes b = h.bytes b

theorem AgreeOn.refl (S : Set Block) (h : Heap) : AgreeOn S h h := ⟨fun _ _ => rfl, fun _ _ => rfl⟩

theorem AgreeOn.trans {S : Set Block} {h h' h'' : Heap} (h₁ : AgreeOn S h h')
    (h₂ : AgreeOn S h' h'') : AgreeOn S h h'' where
  cells := fun i hi => (h₂.cells i hi).trans (h₁.cells i hi)
  bytes := fun b hb => (h₂.bytes b hb).trans (h₁.bytes b hb)

theorem AgreeOn.setCell {S : Set Block} (h : Heap) {i : ℕ} (hi : .cell i ∉ S) (c : Cell) :
    AgreeOn S h (h.setCell i c) where
  cells := fun j hj => Function.update_of_ne (fun hji => hi (by rwa [← hji])) _ _
  bytes := fun _ _ => rfl

theorem AgreeOn.setBytes {S : Set Block} (h : Heap) {b : ℕ} (hb : .bytes b ∉ S)
    (s : List UInt8) : AgreeOn S h (h.setBytes b s) where
  cells := fun _ _ => rfl
  bytes := fun j hj => Function.update_of_ne (fun hji => hb (by rwa [← hji])) _ _

/-- A representation depends on the blocks of `S` only. -/
theorem Rep.mono {h h' : Heap} {S S' : Set Block} {w : Word} {d : Datum} (hr : Rep h S w d)
    (ha : AgreeOn S h h') (hS : S ⊆ S') : Rep h' S' w d := by
  induction hr with
  | int hi htag har =>
    rw [← ha.cells _ hi] at htag har
    exact Rep.int (hS hi) htag har
  | sym hi hb htag har hbuf =>
    rw [← ha.cells _ hi] at htag har
    rw [← ha.bytes _ hb] at hbuf
    exact Rep.sym (hS hi) (hS hb) htag har hbuf
  | str hi hb htag har hdr hbuf =>
    rw [← ha.cells _ hi] at htag har hdr
    rw [← ha.bytes _ hb] at hbuf
    exact Rep.str (hS hi) (hS hb) htag har hdr hbuf
  | bytes hi hb htag har hdr hbuf =>
    rw [← ha.cells _ hi] at htag har hdr
    rw [← ha.bytes _ hb] at hbuf
    exact Rep.bytes (hS hi) (hS hb) htag har hdr hbuf
  | nil hi hcell =>
    rw [← ha.cells _ hi] at hcell
    exact Rep.nil (hS hi) hcell
  | cons hi htag _ _ ih₁ ih₂ =>
    rw [← ha.cells _ hi] at htag ih₁ ih₂
    exact Rep.cons (hS hi) htag ih₁ ih₂

/-- The word of a represented datum is a cell pointer. -/
theorem Rep.isCell {h : Heap} {S : Set Block} {w : Word} {d : Datum} (hr : Rep h S w d) :
    ∃ i, w = .cell i ∧ .cell i ∈ S := by
  cases hr with
  | int hi | sym hi | str hi | bytes hi | nil hi | cons hi => exact ⟨_, rfl, hi⟩

theorem Rep.ne_null {h : Heap} {S : Set Block} {w : Word} {d : Datum} (hr : Rep h S w d) :
    w ≠ .null := by
  obtain ⟨i, rfl, -⟩ := hr.isCell
  simp

theorem Rep.list_cell {h : Heap} {S : Set Block} {w : Word} {ds : List Datum}
    (hr : Rep h S w (.list ds)) : ∃ j, w = .cell j ∧ (h.cells j).tag = tagCons := by
  cases hr with
  | nil _ hcell => exact ⟨_, rfl, by rw [hcell]⟩
  | cons _ htag => exact ⟨_, rfl, htag⟩

/-! ## Open lists -/

/-- The cells `cs` hold the completed elements `ds` of a list, linked in order
    and on to the cell `c` that holds the next element. -/
def LevelOk (h : Heap) (S : Set Block) : List ℕ → List Datum → ℕ → Prop
  | [], [], _ => True
  | k :: cs, d :: ds, c =>
    .cell k ∈ S ∧ (h.cells k).tag = tagCons ∧ (h.cells k).dr = .cell (cs.headD c) ∧
      Rep h S (h.cells k).ar d ∧ LevelOk h S cs ds c
  | _, _, _ => False

theorem LevelOk.mono {h h' : Heap} {S S' : Set Block} (ha : AgreeOn S h h') (hS : S ⊆ S') :
    ∀ {cs : List ℕ} {ds : List Datum} {c : ℕ}, LevelOk h S cs ds c → LevelOk h' S' cs ds c
  | [], [], _, _ => trivial
  | k :: cs, d :: ds, c, ⟨hk, htag, hdr, hrep, hrest⟩ => by
    refine ⟨hS hk, ?_, ?_, ?_, LevelOk.mono ha hS hrest⟩
    · rw [ha.cells k hk]; exact htag
    · rw [ha.cells k hk]; exact hdr
    · rw [ha.cells k hk]; exact hrep.mono ha hS
  | [], _ :: _, _, hf => hf.elim
  | _ :: _, [], _, hf => hf.elim

/-- Completing the element in `c` extends the chain. -/
theorem LevelOk.snoc {h : Heap} {S : Set Block} {c n : ℕ} {d : Datum} (hc : .cell c ∈ S)
    (htag : (h.cells c).tag = tagCons) (hdr : (h.cells c).dr = .cell n)
    (hrep : Rep h S (h.cells c).ar d) :
    ∀ {cs : List ℕ} {ds : List Datum}, LevelOk h S cs ds c →
      LevelOk h S (cs ++ [c]) (ds ++ [d]) n
  | [], [], _ => ⟨hc, htag, hdr, hrep, trivial⟩
  | k :: cs, e :: ds, ⟨hk, hktag, hkdr, hkrep, hrest⟩ => by
    refine ⟨hk, hktag, ?_, hkrep, LevelOk.snoc hc htag hdr hrep hrest⟩
    rw [hkdr]
    cases cs <;> rfl
  | [], _ :: _, hf => hf.elim
  | _ :: _, [], hf => hf.elim

/-- A chain followed by a represented list is a represented list. -/
theorem LevelOk.rep_append {h : Heap} {S : Set Block} {c : ℕ} {es : List Datum}
    (hes : Rep h S (.cell c) (.list es)) :
    ∀ {cs : List ℕ} {ds : List Datum}, LevelOk h S cs ds c →
      Rep h S (.cell (cs.headD c)) (.list (ds ++ es))
  | [], [], _ => hes
  | k :: cs, d :: ds, ⟨hk, htag, hdr, hrep, hrest⟩ => by
    have htail := LevelOk.rep_append hes hrest
    rw [← hdr] at htail
    exact Rep.cons hk htag hrep htail
  | [], _ :: _, hf => hf.elim
  | _ :: _, [], hf => hf.elim

theorem LevelOk.length_eq {h : Heap} {S : Set Block} {c : ℕ} :
    ∀ {cs : List ℕ} {ds : List Datum}, LevelOk h S cs ds c → cs.length = ds.length
  | [], [], _ => rfl
  | _ :: cs, _ :: ds, ⟨_, _, _, _, hrest⟩ => by simp [LevelOk.length_eq hrest]
  | [], _ :: _, hf => hf.elim
  | _ :: _, [], hf => hf.elim

/-- The lists around the innermost open one: each is a chain `cs` of completed
    elements `ds` up to an open cell `c` whose `ar` is the head `hd` of the
    list inside, and `stack_root` holds the open cells. -/
def OuterOk (h : Heap) (S : Set Block) (slots : ℕ → Word) :
    ℕ → List (List ℕ × ℕ) → List (List Datum) → Prop
  | _, [], [] => True
  | hd, (cs, c) :: os, ds :: dss =>
    (h.cells c).tag = tagCons ∧ (h.cells c).ar = .cell hd ∧ LevelOk h S cs ds c ∧
      slots os.length = .cell c ∧ OuterOk h S slots (cs.headD c) os dss
  | _, _, _ => False

theorem OuterOk.mono {h h' : Heap} {S S' : Set Block} {slots slots' : ℕ → Word}
    (ha : AgreeOn S h h') (hS : S ⊆ S') :
    ∀ {hd : ℕ} {os : List (List ℕ × ℕ)} {dss : List (List Datum)},
      (∀ k ∈ os.map Prod.snd, h'.cells k = h.cells k) →
      (∀ k < os.length, slots' k = slots k) →
      OuterOk h S slots hd os dss → OuterOk h' S' slots' hd os dss
  | _, [], [], _, _, _ => trivial
  | hd, (cs, c) :: os, ds :: dss, hk, hs, ⟨htag, har, hlev, hslot, hrest⟩ => by
    have hc : h'.cells c = h.cells c := hk c (by simp)
    refine ⟨by rw [hc]; exact htag, by rw [hc]; exact har, hlev.mono ha hS, ?_, ?_⟩
    · rw [hs os.length (by simp)]; exact hslot
    · exact OuterOk.mono ha hS (fun k hk' => hk k (by simp [List.mem_map] at hk' ⊢; tauto))
        (fun k hk' => hs k (by simp; omega)) hrest
  | _, [], _ :: _, _, _, hf => hf.elim
  | _, _ :: _, [], _, _, hf => hf.elim

theorem OuterOk.length_eq {h : Heap} {S : Set Block} {slots : ℕ → Word} :
    ∀ {hd : ℕ} {os : List (List ℕ × ℕ)} {dss : List (List Datum)},
      OuterOk h S slots hd os dss → os.length = dss.length
  | _, [], [], _ => rfl
  | _, (_, _) :: os, _ :: dss, ⟨_, _, _, _, hrest⟩ => by simp [OuterOk.length_eq hrest]
  | _, [], _ :: _, hf => hf.elim
  | _, _ :: _, [], hf => hf.elim

end Interim.Reader
