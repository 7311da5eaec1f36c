import Interim.Alloc.View

/-!
# Instances of a struct definition

`alloc_struct` fills the fields of an instance with clones of the definition's
values. A clone of a struct shares its array of fields with the original, so
two instances of a definition with a struct among its values write to the same
fields.

A run makes instances of one definition and applies `sput`, `put8` and `put16`
to values seen from them.

* `instances_independent`: when no value of the definition leads, through cons
  cells, to a struct with a field, what is read from an instance is changed by
  operations on its own values only, and every later instance reads as one made
  at the start.
* `instances_shared`: with a struct in a field this fails.
-/

namespace Interim.Heap

open Reach
open Writer (cellAt elemAt)

variable {h h' h₀ : Heap} {w w' : Word} {i j d : ℕ} {E : ℕ}

/-! ## The definition -/

/-- The field values of definition `d`: every second element after its name. -/
def defaults (h : Heap) (d : ℕ) : List Word :=
  match (h.cells d).ar, (h.cells d).dr with
  | .ptr (.elems e) _, .int v =>
    (List.range (v.toNat / 2)).map fun k => (h.elems e).getD (k * 2 + 2) .undef
  | _, _ => []

/-- `d` is a struct definition in use, with all that is seen from its values. -/
structure Definition (h : Heap) (d : ℕ) : Prop where
  cell : d ∉ h.Supply
  tag : (h.cells d).tag = tagStructDef
  array : ∃ e v, (h.cells d).ar = .ptr (.elems e) 0 ∧ (h.cells d).dr = .int v ∧ e < h.elemsUsed
  settled : ∀ u ∈ h.defaults d, Settled h u

/-- No value of the definition leads to a struct with a field. -/
def CopiesAll (h : Heap) (d : ℕ) : Prop := ∀ u ∈ h.defaults d, Copied h u

/-! ## `alloc_struct` -/

/-- Writing an array that is not older than `E` leaves a clone alone. -/
theorem Clones.same_setElem {e k : ℕ} {v : Word} (hc : Clones E h₀ h w' w) (he : E ≤ e)
    (hs : h.setElem e k v = .ok h') : ∀ j ∈ h.seen w', Same h h' j := by
  unfold Heap.setElem at hs
  split at hs
  · obtain rfl := Except.ok.inj hs
    intro j hj
    refine ⟨rfl, fun ht => fields_congr fun e' off har => ?_, fun _ => rfl⟩
    have hlt := (hc.new j hj).array e' off ht har
    exact Function.update_of_ne (by omega) _ _
  · exact absurd hs (by simp)

theorem setElem_elems {e k : ℕ} {v : Word} (hs : h.setElem e k v = .ok h') :
    h'.elems e = (h.elems e).set k v ∧ h'.elemsUsed = h.elemsUsed ∧ h'.cells = h.cells ∧
      h'.Supply = h.Supply ∧ h'.bytesUsed = h.bytesUsed ∧ k < (h.elems e).length := by
  unfold Heap.setElem at hs
  split at hs
  · rename_i hk
    obtain rfl := Except.ok.inj hs
    exact ⟨Function.update_self _ _ _, rfl, rfl, rfl, rfl, hk⟩
  · exact absurd hs (by simp)

theorem Clones.setElem {e k : ℕ} {v : Word} (hc : Clones E h₀ h w' w) (he : E ≤ e)
    (hs : h.setElem e k v = .ok h') : Clones E h₀ h' w' w := by
  have hsame := hc.same_setElem he hs
  obtain ⟨-, e2, e3, e4, e5, -⟩ := setElem_elems hs
  refine ⟨fun m => (view_congr m hsame).trans (hc.view m), ?_⟩
  intro j hj
  rw [seen_congr hsame] at hj
  have hn := hc.new j hj
  refine ⟨hn.fresh, ⟨by rw [e4]; exact hn.inUse.cell, ?_, ?_⟩, ?_, ?_, ?_⟩
  · rw [e3, e2]; exact hn.inUse.array
  · rw [e3, e5]; exact hn.inUse.buffer
  · rw [e3]
    intro ht
    rw [← hn.bare ht]
    exact (hsame j hj).fields ht
  · rw [e3]; exact hn.array
  · rw [e3]; exact hn.buffer

/-- The words of array `e` from index `1` on, `i` of them, are clones of the
    first `i` values in `us`, made of cells of `S`. -/
def ClonedTo (h₀ h : Heap) (S : Set ℕ) (e : ℕ) (us : List Word) (i : ℕ) : Prop :=
  ∀ t, t < i → ∀ u, us[t]? = some u →
    ∃ v, (h.elems e)[t + 1]? = some v ∧ Clones h₀.elemsUsed h₀ h v u ∧ h.seen v ⊆ S

/-- The loop of `alloc_struct`. -/
theorem cloneFields_clones {n e ed : ℕ} {us : List Word} {S : Set ℕ} (hd : ed < h₀.elemsUsed)
    (he : h₀.elemsUsed ≤ e) (hset : ∀ u ∈ us, Settled h₀ u) (hcop : ∀ u ∈ us, Copied h₀ u)
    (hus : ∀ t u, us[t]? = some u → (h₀.elems ed)[t * 2 + 2]? = some u) (k : ℕ) :
    ∀ {i : ℕ} {h h' : Heap}, i + k = us.length → KeepsAll h₀ h → h.Supply ⊆ S → e < h.elemsUsed →
      ClonedTo h₀ h S e us i → cloneFields n e (.ptr (.elems ed) 0) k i h = .ok h' →
      ClonedTo h₀ h' S e us (i + k) ∧ e < h'.elemsUsed ∧
        (h'.elems e).length = (h.elems e).length ∧ (h'.elems e)[0]? = (h.elems e)[0]? ∧
        ∀ c, c ∉ h.Supply → h'.cells c = h.cells c ∧ c ∉ h'.Supply := by
  induction k with
  | zero =>
    intro i h h' _ _ _ hlt hcl ha
    obtain rfl := Except.ok.inj ha
    exact ⟨hcl, hlt, rfl, rfl, fun c hc => ⟨rfl, hc⟩⟩
  | succ k ih =>
    intro i h h' hik hk hS hlt hcl ha
    obtain ⟨u, hu, ha⟩ := bind_ok.mp ha
    obtain ⟨⟨v, h₁⟩, h1, ha⟩ := bind_ok.mp ha
    obtain ⟨h₂, h2, ha⟩ := bind_ok.mp ha
    -- the value is the one the definition had at the start
    have hui : us[i]? = some u := by
      have hi : i < us.length := by omega
      have hget := hus i (us.get ⟨i, hi⟩) (List.getElem?_eq_getElem hi)
      unfold elemAt at hu
      simp only [if_true, hk.elems ed hd, hget] at hu
      rw [← Except.ok.inj hu]
      exact List.getElem?_eq_getElem hi
    have humem : u ∈ us := List.mem_of_getElem? hui
    have hsu := hset u humem
    have hbelow : ArraysBelow h₀.elemsUsed h₀ u := fun j hj e' off ht har =>
      (hsu j hj).array e' off ht har
    have hraw := allocClone_clones n hk.freeListOk (hk.settled hsu) (hk.arraysBelow hsu hbelow)
      (hk.copied (hcop u humem) hsu) h1
    have hclone := hraw.of_keeps hk hsu
    have hk₁ := allocClone_keeps n hk.freeListOk h1
    obtain ⟨e1, e2, e3, e4, -, e5⟩ := setElem_elems h2
    have hk₂ : KeepsAll h₀ h₂ := (hk.trans hk₁).setElem he h2
    have helems : h₁.elems e = h.elems e := hk₁.elems e hlt
    have hcl₂ : ClonedTo h₀ h₂ S e us (i + 1) := by
      intro t ht u' hu'
      by_cases hti : t = i
      · rw [hti] at hu' ⊢
        rw [hui] at hu'
        obtain rfl := Option.some.inj hu'
        refine ⟨v, ?_, hclone.setElem he h2, ?_⟩
        · rw [e1, List.getElem?_set_self (by omega)]
        · rw [seen_congr (hclone.same_setElem he h2)]
          exact fun j hj => hS (hraw.new j hj).fresh
      · obtain ⟨v', hv', hc', hS'⟩ := hcl t (by omega) u' hu'
        refine ⟨v', ?_, (hc'.keeps hk₁).setElem he h2, ?_⟩
        · rw [e1, List.getElem?_set_ne (by omega), helems]
          exact hv'
        · rw [seen_congr ((hc'.keeps hk₁).same_setElem he h2), hk₁.seen hc'.settled]
          exact hS'
    have hlt₂ : e < h₂.elemsUsed := by
      rw [e2]
      exact lt_of_lt_of_le hlt hk₁.elemsUsed
    have hS₂ : h₂.Supply ⊆ S := by
      rw [e4]
      exact hk₁.keeps.supply.trans hS
    obtain ⟨r1, r2, r3, r4, r5⟩ := ih (by omega) hk₂ hS₂ hlt₂ hcl₂ ha
    refine ⟨by rw [show i + (k + 1) = i + 1 + k by omega]; exact r1, r2, ?_, ?_, ?_⟩
    · rw [r3, e1, List.length_set, helems]
    · rw [r4, e1, List.getElem?_set_ne (by omega), helems]
    · intro c hc
      have hc₂ : c ∉ h₂.Supply := by
        rw [e4]
        exact fun hs => hc (hk₁.keeps.supply hs)
      obtain ⟨q1, q2⟩ := r5 c hc₂
      refine ⟨?_, q2⟩
      rw [q1, e3]
      exact hk₁.cell hc

/-- In `h`, cell `c` is an instance that was made of definition `d` in `h₀`. -/
structure Made (h₀ h : Heap) (d c : ℕ) : Prop where
  tag : (h.cells c).tag = tagStruct
  cell : c ∉ h.Supply
  array : ∃ e, (h.cells c).ar = .ptr (.elems e) 0 ∧ h₀.elemsUsed ≤ e ∧ e < h.elemsUsed
  fields : List.Forall₂ (Clones h₀.elemsUsed h₀ h) (h.fields (h.cells c)) (h₀.defaults d)

theorem defaults_eq {e : ℕ} {v : BitVec 64} (har : (h.cells d).ar = .ptr (.elems e) 0)
    (hdr : (h.cells d).dr = .int v) :
    h.defaults d = (List.range (v.toNat / 2)).map fun k => (h.elems e).getD (k * 2 + 2) .undef := by
  unfold defaults
  rw [har, hdr]

/-- Every field of an instance is read from the definition. -/
theorem cloneFields_reads {n e ed : ℕ} (k : ℕ) : ∀ {i : ℕ} {h h' : Heap}, KeepsAll h₀ h →
    h₀.elemsUsed ≤ e → ed < h₀.elemsUsed →
    cloneFields n e (.ptr (.elems ed) 0) k i h = .ok h' →
    ∀ t, i ≤ t → t < i + k → ∃ u, (h₀.elems ed)[t * 2 + 2]? = some u := by
  induction k with
  | zero => intro i h h' _ _ _ _ t h1 h2; omega
  | succ k ih =>
    intro i h h' hk he hd ha t h1 h2
    obtain ⟨u, hu, ha⟩ := bind_ok.mp ha
    obtain ⟨⟨v, h₁⟩, hc, ha⟩ := bind_ok.mp ha
    obtain ⟨h₂, hs, ha⟩ := bind_ok.mp ha
    by_cases ht : t = i
    · rw [ht, ← hk.elems ed hd]
      unfold elemAt at hu
      simp only [if_true] at hu
      cases hget : (h.elems ed)[i * 2 + 2]? with
      | none => rw [hget] at hu; exact absurd hu (by simp)
      | some u' => exact ⟨u', rfl⟩
    · have hk₂ := (hk.trans (allocClone_keeps n hk.freeListOk hc)).setElem he hs
      exact ih hk₂ he hd ha t (by omega) (by omega)

/-- **Instances.** `alloc_struct` on a definition that copies all its values. -/
theorem allocStruct_made {n c : ℕ} (hok : h.FreeListOk) (hd : Definition h d) (hc : CopiesAll h d)
    (ha : h.allocStruct n (.cell d) = .ok (c, h')) : KeepsAll h h' ∧ Made h h' d c := by
  refine ⟨allocStruct_keeps hok ha, ?_⟩
  obtain ⟨ed, v, har, hdr, hlt⟩ := hd.array
  obtain ⟨dc, hdc, ha⟩ := bind_ok.mp ha
  obtain rfl : dc = h.cells d := (Except.ok.inj hdc).symm
  obtain ⟨size, hsize, ha⟩ := bind_ok.mp ha
  obtain rfl : v.toNat = size := by
    rw [hdr] at hsize
    exact Except.ok.inj hsize
  obtain ⟨⟨i, e, h₁⟩, h1, ha⟩ := bind_ok.mp ha
  obtain ⟨h₂, h2, ha⟩ := bind_ok.mp ha
  obtain ⟨h₃, h3, ha⟩ := bind_ok.mp ha
  obtain ⟨rfl, rfl⟩ := Prod.mk.inj (Except.ok.inj ha)
  rw [har] at h3
  obtain ⟨hk₁, hin, hle⟩ := allocArray_keeps hok h1
  -- the new cell and array
  obtain ⟨hcell, hlen, hout, hused⟩ : h₁.cells i = ⟨.ptr (.elems e) 0, .ofNat (v.toNat / 2 + 1), tagVec⟩ ∧
      (h₁.elems e).length = v.toNat / 2 + 1 ∧ i ∉ h₁.Supply ∧ e < h₁.elemsUsed := by
    obtain ⟨⟨j, g⟩, hc', h1⟩ := bind_ok.mp h1
    obtain ⟨rfl, rfl, rfl⟩ : j = i ∧ g.elemsUsed = e ∧ _ = h₁ := by
      simpa only [Except.ok.injEq, Prod.mk.injEq] using h1
    refine ⟨Function.update_self _ _ _, ?_, (cellAlloc_keeps hok hc').2.2, Nat.lt_succ_self _⟩
    change (Function.update g.elems g.elemsUsed _ g.elemsUsed).length = _
    rw [Function.update_self, List.length_replicate]
  obtain ⟨e1, e2, e3, e4, -⟩ := setElem_elems h2
  have hk₂ : KeepsAll h h₂ := hk₁.setElem hle h2
  have hlt₂ : e < h₂.elemsUsed := by rw [e2]; exact hused
  have hdef := defaults_eq har hdr
  have hread : ∀ t u, (h.defaults d)[t]? = some u → (h.elems ed)[t * 2 + 2]? = some u := by
    intro t u hu
    rw [hdef, List.getElem?_map] at hu
    have htlt : t < v.toNat / 2 := by
      by_contra hge
      rw [List.getElem?_eq_none (by rw [List.length_range]; omega)] at hu
      exact absurd hu (by simp)
    rw [List.getElem?_range htlt, Option.map_some, Option.some.injEq] at hu
    obtain ⟨u', hu'⟩ := cloneFields_reads _ hk₂ hle hlt h3 t (Nat.zero_le t) (by omega)
    rw [hu', ← hu, List.getD_eq_getElem?_getD, hu', Option.getD_some]
  have hdlen : (h.defaults d).length = v.toNat / 2 := by rw [hdef]; simp
  obtain ⟨r1, r2, r3, r4, r5⟩ := cloneFields_clones hlt hle hd.settled hc hread (v.toNat / 2)
    (i := 0) (by rw [hdlen]; omega) hk₂ (S := h₂.Supply) subset_rfl hlt₂ (fun t ht => absurd ht (Nat.not_lt_zero t)) h3
  obtain ⟨q1, q2⟩ := r5 i (by rw [e4]; exact hout)
  set h' := h₃.setCell i { h₃.cells i with tag := tagStruct } with hh'
  have hcell' : h'.cells i = ⟨.ptr (.elems e) 0, .ofNat (v.toNat / 2 + 1), tagStruct⟩ := by
    rw [hh', setCell_cells, Function.update_self, q1, e3, hcell]
  refine ⟨by rw [hcell'], q2, ⟨e, by rw [hcell'], hle, r2⟩, ?_⟩
  have hfields : h'.fields (h'.cells i) = (h₃.elems e).drop 1 := by
    rw [hcell']
    simp only [Heap.fields, if_true]
    rfl
  have hlen₃ : (h₃.elems e).length = v.toNat / 2 + 1 := by
    rw [r3, e1, List.length_set, hlen]
  rw [hfields, List.forall₂_iff_get]
  refine ⟨by rw [List.length_drop, hlen₃, hdlen]; omega, ?_⟩
  intro t ht₁ ht₂
  obtain ⟨w, hw, hcl, hS⟩ := r1 t (by omega) _ (List.getElem?_eq_getElem ht₂)
  have hget : ((h₃.elems e).drop 1).get ⟨t, ht₁⟩ = w := by
    rw [Nat.add_comm, List.getElem?_eq_getElem (by omega)] at hw
    rw [List.get_eq_getElem, List.getElem_drop]
    exact Option.some.inj hw
  rw [hget]
  -- the last assignment writes the instance cell only, which no clone contains
  apply hcl.setCell_of_notMem
  intro hi
  have hs := hS hi
  rw [e4] at hs
  exact hout hs

/-! ## What is written through a value -/

/-- Cell `j` is a struct with a field, in array `e`. -/
def HasArray (h : Heap) (j e : ℕ) : Prop :=
  (h.cells j).tag = tagStruct ∧ (h.cells j).ar = .ptr (.elems e) 0 ∧ 1 < (h.elems e).length

/-- Cell `j` is a symbol, string or buffer with its bytes in buffer `b`. -/
def HasBuffer (h : Heap) (j b : ℕ) : Prop :=
  IsText (h.cells j) ∧ ∃ off, (h.cells j).ar = .ptr (.bytes b) off

/-- No array of fields and no buffer is seen from both `w` and `w'`. -/
structure Apart (h : Heap) (w w' : Word) : Prop where
  array : ∀ i ∈ h.seen w, ∀ j ∈ h.seen w', ∀ e, HasArray h i e → ¬ HasArray h j e
  buffer : ∀ i ∈ h.seen w, ∀ j ∈ h.seen w', ∀ b, HasBuffer h i b → ¬ HasBuffer h j b

/-- `w` is apart from the values of definition `d` and has not its array. -/
structure ApartDef (h : Heap) (d : ℕ) (w : Word) : Prop where
  values : ∀ u ∈ h.defaults d, Apart h w u
  array : ∀ i ∈ h.seen w, ∀ e, HasArray h i e → (h.cells d).ar ≠ .ptr (.elems e) 0

theorem HasArray.lt {e : ℕ} (ha : HasArray h j e) (hj : InUse h j) : e < h.elemsUsed :=
  hj.array e 0 ha.1 ha.2.1

theorem HasBuffer.lt {b : ℕ} (hb : HasBuffer h j b) (hj : InUse h j) : b < h.bytesUsed := by
  obtain ⟨ht, off, har⟩ := hb
  exact hj.buffer b off ht har

theorem Apart.symm (ha : Apart h w w') : Apart h w' w :=
  ⟨fun i hi j hj e h1 h2 => ha.array j hj i hi e h2 h1,
    fun i hi j hj b h1 h2 => ha.buffer j hj i hi b h2 h1⟩

/-- A struct has its array in every heap that agrees on the cell and the array. -/
theorem HasArray.of_keeps (hk : KeepsAll h h') (hj : InUse h j) {e : ℕ} (ha : HasArray h' j e) :
    HasArray h j e := by
  obtain ⟨ht, har, hlen⟩ := ha
  rw [hk.cell hj.cell] at ht har
  exact ⟨ht, har, by rw [← hk.elems e (hj.array e 0 ht har)]; exact hlen⟩

theorem HasBuffer.of_keeps (hk : KeepsAll h h') (hj : InUse h j) {b : ℕ} (hb : HasBuffer h' j b) :
    HasBuffer h j b := by
  unfold HasBuffer at hb
  rwa [hk.cell hj.cell] at hb

theorem KeepsAll.apart (hk : KeepsAll h h') (hw : Settled h w) (hw' : Settled h w')
    (ha : Apart h w w') : Apart h' w w' where
  array := by
    rw [hk.seen hw, hk.seen hw']
    intro i hi j hj e h1 h2
    exact ha.array i hi j hj e (h1.of_keeps hk (hw i hi)) (h2.of_keeps hk (hw' j hj))
  buffer := by
    rw [hk.seen hw, hk.seen hw']
    intro i hi j hj b h1 h2
    exact ha.buffer i hi j hj b (h1.of_keeps hk (hw i hi)) (h2.of_keeps hk (hw' j hj))

theorem KeepsAll.defaults (hk : KeepsAll h h') (hd : Definition h d) :
    h'.defaults d = h.defaults d := by
  obtain ⟨e, v, har, hdr, hlt⟩ := hd.array
  have hc := hk.cell hd.cell
  rw [defaults_eq har hdr, defaults_eq (by rw [hc]; exact har) (by rw [hc]; exact hdr),
    hk.elems e hlt]

theorem KeepsAll.definition (hk : KeepsAll h h') (hd : Definition h d) : Definition h' d := by
  have hc := hk.cell hd.cell
  obtain ⟨e, v, har, hdr, hlt⟩ := hd.array
  refine ⟨fun hs => hd.cell (hk.keeps.supply hs), by rw [hc]; exact hd.tag,
    ⟨e, v, by rw [hc]; exact har, by rw [hc]; exact hdr, lt_of_lt_of_le hlt hk.elemsUsed⟩, ?_⟩
  rw [hk.defaults hd]
  exact fun u hu => hk.settled (hd.settled u hu)

theorem KeepsAll.apartDef (hk : KeepsAll h h') (hd : Definition h d) (hw : Settled h w)
    (ha : ApartDef h d w) : ApartDef h' d w where
  values := by
    rw [hk.defaults hd]
    exact fun u hu => hk.apart hw (hd.settled u hu) (ha.values u hu)
  array := by
    rw [hk.seen hw, hk.cell hd.cell]
    exact fun i hi e h1 => ha.array i hi e (h1.of_keeps hk (hw i hi))

/-! ## A new instance -/

section Made

variable {c : ℕ} (hm : Made h h' d c)
include hm

/-- What is seen from a new instance is the instance and what is new in its
    fields. -/
theorem Made.seen_cases (hj : j ∈ h'.seen (.cell c)) :
    j = c ∨ New h.elemsUsed h h' j := by
  rcases mem_seen_cell.mp hj with rfl | ⟨u, hu, hju⟩
  · exact Or.inl rfl
  · right
    rw [parts_struct hm.tag] at hu
    obtain ⟨k, rfl⟩ := List.mem_iff_get.mp hu
    have hlen := hm.fields.length_eq
    have hcl := (List.forall₂_iff_get.mp hm.fields).2 k.1 k.2 (by rw [← hlen]; exact k.2)
    exact hcl.new j hju

theorem Made.settled : Settled h' (.cell c) := by
  intro j hj
  rcases hm.seen_cases hj with rfl | hn
  · obtain ⟨e, har, -, hlt⟩ := hm.array
    refine ⟨hm.cell, fun e' off _ har' => ?_, fun b off ht => absurd hm.tag (not_struct_of_text ht)⟩
    rw [har] at har'
    cases har'
    exact hlt
  · exact hn.inUse

/-- The arrays and buffers of a new instance are new. -/
theorem Made.array_new {e : ℕ} (hj : j ∈ h'.seen (.cell c)) (ha : HasArray h' j e) :
    h.elemsUsed ≤ e := by
  rcases hm.seen_cases hj with rfl | hn
  · obtain ⟨e', har, hle, -⟩ := hm.array
    have har' := ha.2.1
    rw [har] at har'
    cases har'
    exact hle
  · exfalso
    have hb := hn.bare ha.1
    have hlen := ha.2.2
    have hnil : (h'.elems e).drop 1 = [] := by
      simpa [Heap.fields, ha.2.1] using hb
    rw [List.drop_eq_nil_iff] at hnil
    omega

theorem Made.buffer_new {b : ℕ} (hj : j ∈ h'.seen (.cell c)) (hb : HasBuffer h' j b) :
    h.bytesUsed ≤ b := by
  obtain ⟨ht, off, har⟩ := hb
  rcases hm.seen_cases hj with rfl | hn
  · exact absurd hm.tag (not_struct_of_text ht)
  · exact hn.buffer b off ht har

theorem Made.view (m : ℕ) :
    view (m + 1) h' (.cell c) = .node tagStruct ((h.defaults d).map (Heap.view m h)) := by
  have hp := parts_struct hm.tag
  have hnt : ¬ IsText (h'.cells c) := fun ht => absurd hm.tag (not_struct_of_text ht)
  have hmap : (h'.fields (h'.cells c)).map (Heap.view m h') = (h.defaults d).map (Heap.view m h) := by
    rw [← List.forall₂_eq_eq_eq, List.forall₂_map_left_iff, List.forall₂_map_right_iff]
    exact hm.fields.imp fun _ _ hcl => hcl.view m
  simp only [Heap.view, Word.asCell_cell, if_neg hnt, hm.tag, or_true, if_true, hp, hmap]

end Made

/-! ## Operations -/

/-- `sput`, `put8` and `put16` on cell `i`: field number `k`, counted from `1`,
    or byte index `idx`, and the value stored. -/
inductive Op
  | sput (i k : ℕ) (v : Word)
  | put8 (i idx : ℕ) (v : BitVec 64)
  | put16 (i idx : ℕ) (v : BitVec 64)

/-- The cell an operation is applied to. -/
def Op.target : Op → ℕ
  | .sput i _ _ => i
  | .put8 i _ _ => i
  | .put16 i _ _ => i

/-- The value an operation stores in a field. -/
def Op.stored : Op → Word
  | .sput _ _ v => v
  | .put8 _ _ _ => .null
  | .put16 _ _ _ => .null

/-- Store bytes at `ar + idx` of cell `i`; on a cell without a buffer, or
    outside it, this is a fault. -/
def poke (h : Heap) (i idx : ℕ) (data : List UInt8) : Except Stop Heap :=
  match (h.cells i).ar with
  | .ptr (.bytes b) off =>
    if IsText (h.cells i) ∧ 0 ≤ off ∧ off.toNat + idx + data.length ≤ (h.bytes b).length then
      .ok (h.setBytes b ((h.bytes b).take (off.toNat + idx) ++ (data ++
        (h.bytes b).drop (off.toNat + idx + data.length))))
    else .error .fault
  | _ => .error .fault

/-- What the code of `sput`, `put8` and `put16` does to the heap. -/
def Op.exec (h : Heap) : Op → Except Stop Heap
  | .sput i k v =>
    match (h.cells i).ar with
    | .ptr (.elems e) off =>
      if (h.cells i).tag = tagStruct ∧ off = 0 ∧ 0 < k then h.setElem e k v else .error .fault
    | _ => .error .fault
  | .put8 i idx v => h.poke i idx [UInt8.ofNat v.toNat]
  | .put16 i idx v => h.poke i idx [UInt8.ofNat v.toNat, UInt8.ofNat (v.toNat / 256)]

/-- `h'` is `h` with other contents in arrays of `A` and buffers of `B`. -/
structure Writes (A B : Set ℕ) (h h' : Heap) : Prop where
  cells : h'.cells = h.cells
  supply : h'.Supply = h.Supply
  elemsUsed : h'.elemsUsed = h.elemsUsed
  bytesUsed : h'.bytesUsed = h.bytesUsed
  freeListOk : h.FreeListOk → h'.FreeListOk
  length : ∀ e, (h'.elems e).length = (h.elems e).length
  elems : ∀ e ∉ A, h'.elems e = h.elems e
  bytes : ∀ b ∉ B, h'.bytes b = h.bytes b

/-- The fields of a struct after one of the fields of some array was written. -/
theorem mem_fields_setElem {e k : ℕ} {u v : Word} {c : Cell} (hk : 0 < k)
    (hs : h.setElem e k v = .ok h') (hu : u ∈ h'.fields c) : u ∈ h.fields c ∨ u = v := by
  unfold Heap.setElem at hs
  split at hs
  · obtain rfl := Except.ok.inj hs
    unfold Heap.fields at hu ⊢
    split at hu
    · rename_i e' off har
      split at hu
      · rename_i ho
        simp only [if_pos ho]
        dsimp only at hu
        by_cases he : e' = e
        · subst he
          rw [Function.update_self, List.drop_set, if_neg (by omega)] at hu
          exact List.mem_or_eq_of_mem_set hu
        · rw [Function.update_of_ne he] at hu
          exact Or.inl hu
      · exact absurd hu (by simp)
    · exact absurd hu (by simp)
  · exact absurd hs (by simp)

/-- One operation writes the array or the buffer of its target, and adds at most
    one part: the stored value. -/
theorem Op.exec_writes {o : Op} (ha : o.exec h = .ok h') :
    Writes {e | HasArray h o.target e} {b | HasBuffer h o.target b} h h' ∧
      ∀ i j, h'.Sees i j → h.Sees i j ∨ o.stored = .cell j := by
  have hpoke : ∀ {i idx : ℕ} {data : List UInt8}, h.poke i idx data = .ok h' →
      Writes {e | HasArray h i e} {b | HasBuffer h i b} h h' ∧
        ∀ a b, h'.Sees a b → h.Sees a b := by
    intro i idx data hp
    unfold poke at hp
    split at hp
    · rename_i b off har
      split at hp
      · rename_i hfit
        obtain rfl := Except.ok.inj hp
        refine ⟨⟨rfl, rfl, rfl, rfl, fun hok => ⟨hok.nodup, hok.below⟩, fun _ => rfl,
          fun _ _ => rfl, ?_⟩, fun _ _ hs => hs⟩
        intro b' hb'
        refine Function.update_of_ne ?_ _ _
        rintro rfl
        exact hb' ⟨hfit.1, off, har⟩
      · exact absurd hp (by simp)
    · exact absurd hp (by simp)
  cases o with
  | put8 i idx v =>
    obtain ⟨hw, hs⟩ := hpoke ha
    exact ⟨hw, fun a b hab => Or.inl (hs a b hab)⟩
  | put16 i idx v =>
    obtain ⟨hw, hs⟩ := hpoke ha
    exact ⟨hw, fun a b hab => Or.inl (hs a b hab)⟩
  | sput i k v =>
    unfold Op.exec at ha
    dsimp only at ha
    split at ha
    · rename_i e off har
      split at ha
      · rename_i hcond
        obtain ⟨htag, rfl, hk⟩ := hcond
        have hedge : ∀ a b, h'.Sees a b → h.Sees a b ∨ v = .cell b := by
          intro a b hab
          obtain ⟨-, -, hcells, -⟩ := setElem_elems ha
          unfold Sees at hab ⊢
          by_cases hst : (h.cells a).tag = tagStruct
          · rw [parts_struct (by rw [hcells]; exact hst), hcells] at hab
            rw [parts_struct hst]
            rcases mem_fields_setElem hk ha hab with hold | hnew
            · exact Or.inl hold
            · exact Or.inr hnew.symm
          · left
            unfold Heap.parts at hab ⊢
            rw [hcells] at hab
            simpa only [if_neg hst] using hab
        refine ⟨?_, hedge⟩
        unfold Heap.setElem at ha
        split at ha
        · rename_i hlt
          obtain rfl := Except.ok.inj ha
          have harr : HasArray h i e := ⟨htag, har, by omega⟩
          refine ⟨rfl, rfl, rfl, rfl, fun hok => ⟨hok.nodup, hok.below⟩, ?_, ?_, fun _ _ => rfl⟩
          · intro e'
            by_cases he : e' = e
            · rw [he]; simp
            · simp [Function.update_of_ne he]
          · intro e' he'
            refine Function.update_of_ne ?_ _ _
            rintro rfl
            exact he' harr
        · exact absurd ha (by simp)
      · exact absurd ha (by simp)
    · exact absurd ha (by simp)

namespace Writes

variable {A B : Set ℕ}

theorem inUse_iff (hw : Writes A B h h') : InUse h' j ↔ InUse h j := by
  constructor
  · rintro ⟨h1, h2, h3⟩
    rw [hw.cells, hw.elemsUsed] at h2
    rw [hw.cells, hw.bytesUsed] at h3
    exact ⟨by rw [← hw.supply]; exact h1, h2, h3⟩
  · rintro ⟨h1, h2, h3⟩
    refine ⟨by rw [hw.supply]; exact h1, ?_, ?_⟩
    · rw [hw.cells, hw.elemsUsed]; exact h2
    · rw [hw.cells, hw.bytesUsed]; exact h3

theorem hasArray_iff (hw : Writes A B h h') {e : ℕ} : HasArray h' j e ↔ HasArray h j e := by
  unfold HasArray
  rw [hw.cells, hw.length]

theorem hasBuffer_iff (hw : Writes A B h h') {b : ℕ} : HasBuffer h' j b ↔ HasBuffer h j b := by
  unfold HasBuffer
  rw [hw.cells]

/-- A cell whose array and buffer are not written stays the same. An array
    without fields is never written. -/
theorem same (hw : Writes A B h h') (hA : ∀ e, HasArray h j e → e ∉ A)
    (hB : ∀ b, HasBuffer h j b → b ∉ B) : Same h h' j where
  cell := congrFun hw.cells j
  fields := by
    intro ht
    unfold Heap.fields
    split
    · rename_i e off har
      by_cases ho : off = 0
      · subst ho
        by_cases hlen : 1 < (h.elems e).length
        · rw [hw.elems e (hA e ⟨ht, har, hlen⟩)]
        · have hlen' := hw.length e
          rw [List.drop_eq_nil_of_le (by omega), List.drop_eq_nil_of_le (by omega)]
      · rw [if_neg ho, if_neg ho]
    · rfl
  text := by
    intro ht
    refine textOf_congr fun b off har => hw.bytes b (hB b ⟨ht, off, har⟩)

end Writes

/-! ## Runs -/

/-- The heap and the instances of a definition made so far. -/
structure Instances where
  heap : Heap
  made : Set ℕ

/-- A value that may be stored through instance `x`: in use, and apart from the
    other instances and from the definition. -/
structure Own (d : ℕ) (s : Instances) (x : ℕ) (v : Word) : Prop where
  settled : Settled s.heap v
  others : ∀ y ∈ s.made, y ≠ x → Apart s.heap v (.cell y)
  definition : ApartDef s.heap d v

/-- An operation on a value seen from instance `x` that stores a value of its
    own. -/
structure Applies (d : ℕ) (s : Instances) (x : ℕ) (o : Op) (h' : Heap) : Prop where
  made : x ∈ s.made
  target : o.target ∈ s.heap.seen (.cell x)
  stored : Own d s x o.stored
  exec : o.exec s.heap = .ok h'

/-- One step: an allocation, a new instance, or an operation on a value seen
    from an instance. -/
inductive InstStep (d : ℕ) : Instances → Instances → Prop
  | alloc {s : Instances} {h' : Heap} (hk : KeepsAll s.heap h') : InstStep d s ⟨h', s.made⟩
  | new {s : Instances} {n c : ℕ} {h' : Heap} (ha : s.heap.allocStruct n (.cell d) = .ok (c, h')) :
      InstStep d s ⟨h', insert c s.made⟩
  | op {s : Instances} {x : ℕ} {o : Op} {h' : Heap} (ha : Applies d s x o h') :
      InstStep d s ⟨h', s.made⟩

/-- In every run of `d` from `h₀`: an operation on values of one instance
    changes what is read from no other, and a new instance reads as one made at
    the start. -/
def Independent (h₀ : Heap) (d : ℕ) : Prop :=
  ∀ s, Relation.ReflTransGen (InstStep d) ⟨h₀, ∅⟩ s →
    (∀ x o h', Applies d s x o h' → ∀ y ∈ s.made, y ≠ x → ∀ m,
      view m h' (.cell y) = view m s.heap (.cell y)) ∧
    (∀ n c h' n₀ c₀ h₀', s.heap.allocStruct n (.cell d) = .ok (c, h') →
      h₀.allocStruct n₀ (.cell d) = .ok (c₀, h₀') → ∀ m,
        view m h' (.cell c) = view m h₀' (.cell c₀))

/-! ## The invariant -/

/-- What every step keeps, for a definition that copies all its values. -/
structure InstInv (h₀ : Heap) (d : ℕ) (s : Instances) : Prop where
  freeListOk : s.heap.FreeListOk
  definition : Definition s.heap d
  copies : CopiesAll s.heap d
  defaults : s.heap.defaults d = h₀.defaults d
  views : ∀ u ∈ h₀.defaults d, ∀ m, view m s.heap u = view m h₀ u
  settled : ∀ x ∈ s.made, Settled s.heap (.cell x)
  apart : ∀ x ∈ s.made, ∀ y ∈ s.made, x ≠ y → Apart s.heap (.cell x) (.cell y)
  apartDef : ∀ x ∈ s.made, ApartDef s.heap d (.cell x)

namespace InstInv

variable {s s' : Instances}

theorem keeps (hi : InstInv h₀ d s) (hk : KeepsAll s.heap h') : InstInv h₀ d ⟨h', s.made⟩ where
  freeListOk := hk.freeListOk
  definition := hk.definition hi.definition
  copies := by
    intro u hu
    change u ∈ h'.defaults d at hu
    rw [hk.defaults hi.definition] at hu
    exact hk.copied (hi.copies u hu) (hi.definition.settled u hu)
  defaults := (hk.defaults hi.definition).trans hi.defaults
  views := by
    intro u hu m
    rw [← hi.views u hu m]
    rw [← hi.defaults] at hu
    exact hk.view (hi.definition.settled u hu) m
  settled := fun x hx => hk.settled (hi.settled x hx)
  apart := fun x hx y hy hne => hk.apart (hi.settled x hx) (hi.settled y hy) (hi.apart x hx y hy hne)
  apartDef := fun x hx => hk.apartDef hi.definition (hi.settled x hx) (hi.apartDef x hx)

/-- A new instance is apart from everything that was in use. -/
theorem made_apart {c : ℕ} (hm : Made h h' d c) (hk : KeepsAll h h') (hw : Settled h w) :
    Apart h' (.cell c) w where
  array := by
    rw [hk.seen hw]
    intro i hi j hj e h1 h2
    have hle := hm.array_new hi h1
    have hlt := (h2.of_keeps hk (hw j hj)).lt (hw j hj)
    omega
  buffer := by
    rw [hk.seen hw]
    intro i hi j hj b h1 h2
    have hle := hm.buffer_new hi h1
    have hlt := (h2.of_keeps hk (hw j hj)).lt (hw j hj)
    omega

theorem new (hi : InstInv h₀ d s) {n c : ℕ}
    (ha : s.heap.allocStruct n (.cell d) = .ok (c, h')) : InstInv h₀ d ⟨h', insert c s.made⟩ := by
  obtain ⟨hk, hm⟩ := allocStruct_made hi.freeListOk hi.definition hi.copies ha
  have hkeep := hi.keeps hk
  refine ⟨hkeep.freeListOk, hkeep.definition, hkeep.copies, hkeep.defaults, hkeep.views, ?_, ?_, ?_⟩
  · rintro x (rfl | hx)
    · exact hm.settled
    · exact hkeep.settled x hx
  · rintro x (rfl | hx) y (rfl | hy) hne
    · exact absurd rfl hne
    · exact made_apart hm hk (hi.settled y hy)
    · exact (made_apart hm hk (hi.settled x hx)).symm
    · exact hkeep.apart x hx y hy hne
  · rintro x (rfl | hx)
    · constructor
      · intro u hu
        change u ∈ h'.defaults d at hu
        rw [hk.defaults hi.definition] at hu
        exact made_apart hm hk (hi.definition.settled u hu)
      · intro i hi' e harr har
        have hle := hm.array_new hi' harr
        obtain ⟨ed, v, hard, -, hlt⟩ := hi.definition.array
        change (h'.cells d).ar = _ at har
        rw [hk.cell hi.definition.cell, hard] at har
        cases har
        omega
    · exact hkeep.apartDef x hx

/-- An operation on values of `x` leaves a value alone that is apart from `x`. -/
theorem same_of_apart {x : ℕ} {o : Op} (ha : Applies d s x o h')
    (hap : Apart s.heap (.cell x) w) : ∀ j ∈ s.heap.seen w, Same s.heap h' j := by
  intro j hj
  apply (Op.exec_writes ha.exec).1.same
  · intro e he ht
    exact hap.array _ ha.target j hj e ht he
  · intro b hb ht
    exact hap.buffer _ ha.target j hj b ht hb

/-- What is seen from an instance after an operation on values of `x`. -/
theorem seen_subset {x z j : ℕ} {o : Op} (ha : Applies d s x o h') (hj : j ∈ h'.seen (.cell z)) :
    j ∈ s.heap.seen (.cell z) ∨ j ∈ s.heap.seen o.stored := by
  rw [seen_cell] at hj ⊢
  refine reach_subset_union (s.heap.seen_closed o.stored) ?_ z hj
  intro a b hab
  rcases (Op.exec_writes ha.exec).2 a b hab with hold | hnew
  · exact Or.inl hold
  · right
    rw [hnew]
    exact s.heap.mem_seen_self b

theorem op (hi : InstInv h₀ d s) {x : ℕ} {o : Op} (ha : Applies d s x o h') :
    InstInv h₀ d ⟨h', s.made⟩ := by
  have hw := (Op.exec_writes ha.exec).1
  have hdef := hi.apartDef x ha.made
  obtain ⟨ed, v, har, hdr, hlt⟩ := hi.definition.array
  have hcell : h'.cells d = s.heap.cells d := congrFun hw.cells d
  have hdefaults : h'.defaults d = s.heap.defaults d := by
    rw [defaults_eq har hdr, defaults_eq (by rw [hcell]; exact har) (by rw [hcell]; exact hdr),
      hw.elems ed fun he => hdef.array _ ha.target ed he har]
  have hsame : ∀ u ∈ s.heap.defaults d, ∀ j ∈ s.heap.seen u, Same s.heap h' j := fun u hu =>
    same_of_apart ha (hdef.values u hu)
  have hother : ∀ y ∈ s.made, y ≠ x → h'.seen (.cell y) = s.heap.seen (.cell y) := fun y hy hne =>
    seen_congr (same_of_apart ha (hi.apart x ha.made y hy hne.symm))
  have hdefSeen : ∀ u ∈ s.heap.defaults d, h'.seen u = s.heap.seen u := fun u hu =>
    seen_congr (hsame u hu)
  -- whatever is seen from `z` was seen from it, or is seen from the stored value and `z = x`
  have hcases : ∀ z ∈ s.made, ∀ j ∈ h'.seen (.cell z),
      j ∈ s.heap.seen (.cell z) ∨ (z = x ∧ j ∈ s.heap.seen o.stored) := by
    intro z hz j hj
    by_cases hzx : z = x
    · rcases seen_subset ha hj with h1 | h1
      · exact Or.inl h1
      · exact Or.inr ⟨hzx, h1⟩
    · rw [hother z hz hzx] at hj
      exact Or.inl hj
  have hxy : ∀ y ∈ s.made, y ≠ x → Apart h' (.cell x) (.cell y) := by
    intro y hy hne
    have hold := hi.apart x ha.made y hy hne.symm
    have hst := ha.stored.others y hy hne
    constructor
    · intro i hi' j hj e h1 h2
      rw [hother y hy hne] at hj
      rw [hw.hasArray_iff] at h1 h2
      rcases hcases x ha.made i hi' with hx | ⟨-, hx⟩
      · exact hold.array i hx j hj e h1 h2
      · exact hst.array i hx j hj e h1 h2
    · intro i hi' j hj b h1 h2
      rw [hother y hy hne] at hj
      rw [hw.hasBuffer_iff] at h1 h2
      rcases hcases x ha.made i hi' with hx | ⟨-, hx⟩
      · exact hold.buffer i hx j hj b h1 h2
      · exact hst.buffer i hx j hj b h1 h2
  refine ⟨hw.freeListOk hi.freeListOk, ⟨?_, ?_, ?_, ?_⟩, ?_, ?_, ?_, ?_, ?_, ?_⟩
  · rw [hw.supply]; exact hi.definition.cell
  · rw [hcell]; exact hi.definition.tag
  · exact ⟨ed, v, by rw [hcell]; exact har, by rw [hcell]; exact hdr, by rw [hw.elemsUsed]; exact hlt⟩
  · intro u hu j hj
    change u ∈ h'.defaults d at hu
    rw [hdefaults] at hu
    rw [hdefSeen u hu] at hj
    exact hw.inUse_iff.mpr (hi.definition.settled u hu j hj)
  · intro u hu
    change u ∈ h'.defaults d at hu
    rw [hdefaults] at hu
    exact (hi.copies u hu).congr (hsame u hu)
  · exact hdefaults.trans hi.defaults
  · intro u hu m
    rw [← hi.views u hu m]
    rw [← hi.defaults] at hu
    exact view_congr m (hsame u hu)
  · intro z hz j hj
    rcases hcases z hz j hj with h1 | ⟨-, h1⟩
    · exact hw.inUse_iff.mpr (hi.settled z hz j h1)
    · exact hw.inUse_iff.mpr (ha.stored.settled j h1)
  · intro y hy z hz hne
    by_cases hyx : y = x
    · subst hyx
      exact hxy z hz hne.symm
    · by_cases hzx : z = x
      · subst hzx
        exact (hxy y hy hne).symm
      · have hold := hi.apart y hy z hz hne
        constructor
        · intro i hi' j hj e h1 h2
          rw [hother y hy hyx] at hi'
          rw [hother z hz hzx] at hj
          exact hold.array i hi' j hj e (hw.hasArray_iff.mp h1) (hw.hasArray_iff.mp h2)
        · intro i hi' j hj b h1 h2
          rw [hother y hy hyx] at hi'
          rw [hother z hz hzx] at hj
          exact hold.buffer i hi' j hj b (hw.hasBuffer_iff.mp h1) (hw.hasBuffer_iff.mp h2)
  · intro z hz
    constructor
    · intro u hu
      change u ∈ h'.defaults d at hu
      rw [hdefaults] at hu
      have hold := (hi.apartDef z hz).values u hu
      have hst := ha.stored.definition.values u hu
      constructor
      · intro i hi' j hj e h1 h2
        rw [hdefSeen u hu] at hj
        rw [hw.hasArray_iff] at h1 h2
        rcases hcases z hz i hi' with hx | ⟨-, hx⟩
        · exact hold.array i hx j hj e h1 h2
        · exact hst.array i hx j hj e h1 h2
      · intro i hi' j hj b h1 h2
        rw [hdefSeen u hu] at hj
        rw [hw.hasBuffer_iff] at h1 h2
        rcases hcases z hz i hi' with hx | ⟨-, hx⟩
        · exact hold.buffer i hx j hj b h1 h2
        · exact hst.buffer i hx j hj b h1 h2
    · intro i hi' e h1
      change (h'.cells d).ar ≠ _
      rw [hcell]
      rw [hw.hasArray_iff] at h1
      rcases hcases z hz i hi' with hx | ⟨-, hx⟩
      · exact (hi.apartDef z hz).array i hx e h1
      · exact ha.stored.definition.array i hx e h1

theorem step (hi : InstInv h₀ d s) (hst : InstStep d s s') : InstInv h₀ d s' := by
  cases hst with
  | alloc hk => exact hi.keeps hk
  | new ha => exact hi.new ha
  | op ha => exact hi.op ha

theorem run (hok : h₀.FreeListOk) (hd : Definition h₀ d) (hc : CopiesAll h₀ d)
    (hr : Relation.ReflTransGen (InstStep d) ⟨h₀, ∅⟩ s) : InstInv h₀ d s := by
  induction hr with
  | refl =>
    exact ⟨hok, hd, hc, rfl, fun _ _ _ => rfl, fun x hx => absurd hx (Set.notMem_empty x),
      fun x hx => absurd hx (Set.notMem_empty x), fun x hx => absurd hx (Set.notMem_empty x)⟩
  | tail _ hst ih => exact ih.step hst

end InstInv

/-- **Independence.** The instances of a definition none of whose values leads
    to a struct with a field do not influence each other. -/
theorem instances_independent (h₀ : Heap) (d : ℕ) (hok : h₀.FreeListOk) (hd : Definition h₀ d)
    (hc : CopiesAll h₀ d) : Independent h₀ d := by
  intro s hr
  have hi := InstInv.run hok hd hc hr
  constructor
  · intro x o h' ha y hy hne m
    exact view_congr m (InstInv.same_of_apart ha (hi.apart x ha.made y hy hne.symm))
  · intro n c h' n₀ c₀ h₀' ha ha₀ m
    obtain ⟨-, hm⟩ := allocStruct_made hi.freeListOk hi.definition hi.copies ha
    obtain ⟨-, hm₀⟩ := allocStruct_made hok hd hc ha₀
    cases m with
    | zero => rfl
    | succ m =>
      have hviews : (h₀.defaults d).map (view m s.heap) = (h₀.defaults d).map (view m h₀) :=
        List.map_congr_left fun u hu => hi.views u hu m
      rw [hm.view m, hm₀.view m, hi.defaults, hviews]

/-! ## A struct in a field -/

/-- `(struct surface width 5)`, `(struct font surface (surface))` and a spare
    integer: cell `2` is the definition of `surface`, cell `3` the instance that
    the definition of `font`, cell `4`, has as its value. -/
def fontHeap : Heap :=
  { init with
    cells := fun i =>
      if i = 0 then ⟨.ptr (.bytes 0) 0, .int 2, tagSym⟩
      else if i = 1 then ⟨.int 5, .null, tagInt⟩
      else if i = 2 then ⟨.ptr (.elems 0) 0, .int 3, tagStructDef⟩
      else if i = 3 then ⟨.ptr (.elems 1) 0, .int 2, tagStruct⟩
      else if i = 4 then ⟨.ptr (.elems 2) 0, .int 3, tagStructDef⟩
      else if i = 5 then ⟨.int 7, .null, tagInt⟩
      else ⟨.null, .null, tagFreed⟩
    cellsUsed := 6
    bytes := fun b => if b = 0 then [120, 0] else []
    bytesUsed := 1
    elems := fun e =>
      if e = 0 then [.cell 0, .cell 0, .cell 1]
      else if e = 1 then [.cell 2, .cell 1]
      else if e = 2 then [.cell 0, .cell 0, .cell 3]
      else []
    elemsUsed := 3 }

theorem notMem_supply_of_lt {h : Heap} {i : ℕ} (hf : h.freeList = []) (hi : i < h.cellsUsed) :
    i ∉ h.Supply := by
  rintro (hm | hm)
  · rw [hf] at hm
    simp at hm
  · omega

theorem fontHeap_seen_one {j : ℕ} (hj : j ∈ fontHeap.seen (.cell 1)) : j = 1 :=
  seen_of_parts_nil rfl hj

theorem fontHeap_seen_three {j : ℕ} (hj : j ∈ fontHeap.seen (.cell 3)) : j = 3 ∨ j = 1 := by
  rcases mem_seen_cell.mp hj with rfl | ⟨u, hu, hju⟩
  · exact Or.inl rfl
  · have hp : fontHeap.parts 3 = [.cell 1] := rfl
    rw [hp, List.mem_singleton] at hu
    rw [hu] at hju
    exact Or.inr (fontHeap_seen_one hju)

theorem fontHeap_definition : Definition fontHeap 4 where
  cell := notMem_supply_of_lt rfl (by decide)
  tag := rfl
  array := ⟨2, 3, rfl, rfl, by decide⟩
  settled := by
    intro u hu j hj
    have hd : fontHeap.defaults 4 = [.cell 3] := rfl
    rw [hd, List.mem_singleton] at hu
    rw [hu] at hj
    rcases fontHeap_seen_three hj with rfl | rfl
    · refine ⟨notMem_supply_of_lt rfl (by decide), ?_, fun b off ht => ?_⟩
      · intro e off _ har
        cases har
        decide
      · exact absurd ht (by decide)
    · refine ⟨notMem_supply_of_lt rfl (by decide), fun e off ht => ?_, fun b off ht => ?_⟩
      · exact absurd ht (by decide)
      · exact absurd ht (by decide)

theorem fontHeap_freeListOk : fontHeap.FreeListOk := ⟨by simp [fontHeap, init], by simp [fontHeap, init]⟩

/-- The instances of `surface`, whose one value is an integer, are independent. -/
theorem instances_independent_surface : CopiesAll fontHeap 2 ∧ Independent fontHeap 2 := by
  have hd : fontHeap.defaults 2 = [.cell 1] := rfl
  have hone : ∀ u ∈ fontHeap.defaults 2, u = .cell 1 := fun u hu => by
    rw [hd] at hu
    exact List.mem_singleton.mp hu
  have hdef : Definition fontHeap 2 := by
    refine ⟨notMem_supply_of_lt rfl (by decide), rfl, ⟨0, 3, rfl, rfl, by decide⟩, ?_⟩
    intro u hu j hj
    rw [hone u hu] at hj
    rw [fontHeap_seen_one hj]
    refine ⟨notMem_supply_of_lt rfl (by decide), fun e off ht => ?_, fun b off ht => ?_⟩
    · exact absurd ht (by decide)
    · exact absurd ht (by decide)
  have hc : CopiesAll fontHeap 2 := by
    intro u hu
    rw [hone u hu]
    exact .leaf (by decide) (by decide) rfl
  exact ⟨hc, instances_independent fontHeap 2 fontHeap_freeListOk hdef hc⟩

/-- The heap with two instances of `font`: cells `6` and `8`, whose surfaces are
    the cells `7` and `9` with the one array `1`. -/
def twoFonts : Heap :=
  let h := ((fontHeap.allocStruct 2 (.cell 4)).toOption.getD (0, fontHeap)).2
  ((h.allocStruct 2 (.cell 4)).toOption.getD (0, h)).2

theorem twoFonts_run : Relation.ReflTransGen (InstStep 4) ⟨fontHeap, ∅⟩
    ⟨twoFonts, insert 8 (insert 6 ∅)⟩ := by
  refine .tail (.single (InstStep.new (n := 2) (c := 6) rfl)) (InstStep.new (n := 2) (c := 8) ?_)
  rfl

/-- Storing a number in the surface of one font changes the other font. -/
theorem instances_shared : ¬ ∀ h₀ d, h₀.FreeListOk → Definition h₀ d → Independent h₀ d := by
  intro hall
  obtain ⟨hother, -⟩ := hall fontHeap 4 fontHeap_freeListOk fontHeap_definition _ twoFonts_run
  have hfive : ∀ j ∈ twoFonts.seen (.cell 5), j = 5 := fun j hj => seen_of_parts_nil rfl hj
  have hno : ∀ j ∈ twoFonts.seen (.cell 5), ∀ e, ¬ HasArray twoFonts j e := by
    intro j hj e he
    rw [hfive j hj] at he
    exact absurd he.1 (by decide)
  have hnob : ∀ j ∈ twoFonts.seen (.cell 5), ∀ b, ¬ HasBuffer twoFonts j b := by
    intro j hj b hb
    rw [hfive j hj] at hb
    exact absurd hb.1 (by decide)
  have happ : Applies 4 ⟨twoFonts, insert 8 (insert 6 ∅)⟩ 6 (.sput 7 1 (.cell 5))
      { twoFonts with elems := Function.update twoFonts.elems 1 [.cell 2, .cell 5] } := by
    refine ⟨by simp, ?_, ⟨?_, ?_, ?_, ?_⟩, rfl⟩
    · exact mem_seen_cell.mpr (Or.inr ⟨.cell 7, by decide +kernel, twoFonts.mem_seen_self 7⟩)
    · intro j hj
      rw [hfive j hj]
      refine ⟨notMem_supply_of_lt rfl (by decide +kernel), fun e off ht => ?_, fun b off ht => ?_⟩
      · exact absurd ht (by decide)
      · exact absurd ht (by decide)
    · intro y _ _
      exact ⟨fun i hi j _ e h1 => absurd h1 (hno i hi e), fun i hi j _ b h1 => absurd h1 (hnob i hi b)⟩
    · intro u _
      exact ⟨fun i hi j _ e h1 => absurd h1 (hno i hi e), fun i hi j _ b h1 => absurd h1 (hnob i hi b)⟩
    · intro i hi e h1
      exact absurd h1 (hno i hi e)
  have hviews := hother 6 _ _ happ 8 (by simp) (by decide) 3
  have hbefore : view 3 twoFonts (.cell 8) =
      .node tagStruct [.node tagStruct [.leaf ⟨.int 5, .null, tagInt⟩]] := rfl
  have hafter : view 3 { twoFonts with
      elems := Function.update twoFonts.elems 1 [.cell 2, .cell 5] } (.cell 8) =
      .node tagStruct [.node tagStruct [.leaf ⟨.int 7, .null, tagInt⟩]] := rfl
  rw [hbefore, hafter] at hviews
  simp at hviews

end Interim.Heap
