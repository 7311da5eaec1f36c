import Interim.Writer.Model

/-!
# Constructors with contents

Model of the constructors of `sledge/alloc.c` that copy strings, cells or
cell arrays: `alloc_sym` (lines 327–351), `alloc_lambda` (lines 453–459),
`alloc_vector` (lines 466–472), `alloc_struct` (lines 482–500) and
`alloc_clone` (lines 514–548).

All of them only fill cells, buffers and arrays they have just been given, so
they keep everything that was in use (`KeepsAll`).
-/

namespace Interim.Heap

open Writer (cellAt elemAt)

/-- `alloc_sym(str)`: a symbol cell with its own copy of the name. -/
def allocSym (h : Heap) (str : List UInt8) : Except Stop (ℕ × Heap) := do
  let (i, h) ← h.cellAlloc
  let (b, h) ← h.bytesAlloc (toInt32 (str.length + 2))
  if str.length + 1 ≤ (h.bytes b).length then
    .ok (i, (h.setBytes b (str ++ 0 :: (h.bytes b).drop (str.length + 1))).setCell i
      ⟨.ptr (.bytes b) 0, .ofNat (str.length + 1), tagSym⟩)
  else .error .fault

/-- `alloc_lambda(args)`; `dr` keeps its stale contents. -/
def allocLambda (h : Heap) (args : Word) : Except Stop (ℕ × Heap) :=
  h.allocCell fun c => { c with ar := args, tag := tagLambda }

/-- `cell_alloc` and a `malloc`'d array of `size` cell pointers, whose contents
    are undefined: `alloc_vector` and `alloc_struct_def` differ in the tag. -/
def allocArray (h : Heap) (tag size : ℕ) : Except Stop (ℕ × ℕ × Heap) := do
  let (i, h) ← h.cellAlloc
  let e := h.elemsUsed
  .ok (i, e,
    { h with
      elems := Function.update h.elems e (List.replicate size .undef)
      elemsUsed := e + 1 }.setCell i ⟨.ptr (.elems e) 0, .ofNat size, tag⟩)

/-- `elements[k] = w` for array `e`. -/
def setElem (h : Heap) (e k : ℕ) (w : Word) : Except Stop Heap :=
  if k < (h.elems e).length then
    .ok { h with elems := Function.update h.elems e ((h.elems e).set k w) }
  else .error .fault

/-- The number in a `dr.size` field. -/
def sizeOf : Word → Except Stop ℕ
  | .int v => .ok v.toNat
  | _ => .error .fault

/-- `memcpy(clone->ar.addr, orig->ar.addr, size)` into the fresh buffer `b`. -/
def copyBytes (h : Heap) (b : ℕ) (src : Word) (size : ℕ) : Except Stop Heap :=
  match src with
  | .ptr (.bytes b') off =>
    if 0 ≤ off ∧ off.toNat + size ≤ (h.bytes b').length ∧ size ≤ (h.bytes b).length then
      .ok (h.setBytes b
        (((h.bytes b').drop off.toNat).take size ++ (h.bytes b).drop size))
    else .error .fault
  | _ => .error .fault

/-- The branch of `alloc_clone` for symbols, strings and bytes. -/
def cloneBytes (h : Heap) (i : ℕ) (orig : Cell) : Except Stop (Word × Heap) := do
  let size ← sizeOf orig.dr
  let (b, h) ← h.bytesAlloc (toInt32 (size + 1))
  let h ← h.copyBytes b orig.ar size
  .ok (.cell i, h.setCell i ⟨.ptr (.bytes b) 0, orig.dr, orig.tag⟩)

/-- `alloc_clone(orig)`: a deep copy of lists and strings; other cells share
    their contents. -/
def allocClone : ℕ → Heap → Word → Except Stop (Word × Heap)
  | 0, _, _ => .error .fuel
  | n + 1, h, w =>
    if w = .null then .ok (.null, h)
    else do
      let (i, h) ← h.cellAlloc
      let orig ← cellAt h w
      if orig.tag = tagSym ∨ orig.tag = tagStr ∨ orig.tag = tagBytes then
        h.cloneBytes i orig
      else if orig.tag = tagCons then do
        let (a, h) ← allocClone n h orig.ar
        let (d, h) ← allocClone n h orig.dr
        .ok (.cell i, h.setCell i ⟨a, d, tagCons⟩)
      else .ok (.cell i, h.setCell i orig)

/-- The loop of `alloc_struct`: `k` more fields, from field `i` on. -/
def cloneFields (n : ℕ) (e : ℕ) (defElems : Word) : ℕ → ℕ → Heap → Except Stop Heap
  | 0, _, h => .ok h
  | k + 1, i, h => do
    let w ← elemAt h defElems (i * 2 + 2)
    let (w, h) ← allocClone n h w
    let h ← h.setElem e (i + 1) w
    cloneFields n e defElems k (i + 1) h

/-- `alloc_struct(struct_def)`: element 0 is the definition, the others are
    clones of the definition's field values. -/
def allocStruct (n : ℕ) (h : Heap) (structDef : Word) : Except Stop (ℕ × Heap) := do
  let d ← cellAt h structDef
  let size ← sizeOf d.dr
  let (i, e, h) ← h.allocArray tagVec (size / 2 + 1)
  let h ← h.setElem e 0 structDef
  let h ← cloneFields n e d.ar (size / 2) 0 h
  .ok (i, h.setCell i { h.cells i with tag := tagStruct })

/-! ## What the constructors leave alone -/

/-- `h'` is `h` after some allocations: cells handed out, buffers and arrays
    in use are unchanged. -/
structure KeepsAll (h h' : Heap) : Prop where
  keeps : Keeps ∅ ∅ h h'
  elems : ∀ e < h.elemsUsed, h'.elems e = h.elems e
  elemsUsed : h.elemsUsed ≤ h'.elemsUsed

namespace KeepsAll

variable {h h' h'' : Heap}

theorem refl (hok : h.FreeListOk) : KeepsAll h h := ⟨Keeps.refl hok, fun _ _ => rfl, le_rfl⟩

theorem trans (h₁ : KeepsAll h h') (h₂ : KeepsAll h' h'') : KeepsAll h h'' where
  keeps := h₁.keeps.trans h₂.keeps
  elems := fun e he => (h₂.elems e (lt_of_lt_of_le he h₁.elemsUsed)).trans (h₁.elems e he)
  elemsUsed := h₁.elemsUsed.trans h₂.elemsUsed

theorem freeListOk (hk : KeepsAll h h') : h'.FreeListOk := hk.keeps.freeListOk

theorem cell (hk : KeepsAll h h') {i : ℕ} (hi : i ∉ h.Supply) : h'.cells i = h.cells i :=
  hk.keeps.cells i hi (Set.notMem_empty i)

theorem setCell (hk : KeepsAll h h') {i : ℕ} (hi : i ∈ h.Supply) (c : Cell) :
    KeepsAll h (h'.setCell i c) where
  keeps :=
    { cells := by
        intro j hj hX
        rw [setCell_cells, Function.update_of_ne (by rintro rfl; exact hj hi)]
        exact hk.keeps.cells j hj hX
      bytes := hk.keeps.bytes
      supply := hk.keeps.supply
      freeListOk := ⟨hk.freeListOk.nodup, hk.freeListOk.below⟩
      bytesUsed := hk.keeps.bytesUsed }
  elems := hk.elems
  elemsUsed := hk.elemsUsed

theorem setBytes (hk : KeepsAll h h') {b : ℕ} (hb : h.bytesUsed ≤ b) (s : List UInt8) :
    KeepsAll h (h'.setBytes b s) where
  keeps :=
    { cells := hk.keeps.cells
      bytes := by
        intro j hj hY
        rw [setBytes_bytes, Function.update_of_ne (by omega)]
        exact hk.keeps.bytes j hj hY
      supply := hk.keeps.supply
      freeListOk := ⟨hk.freeListOk.nodup, hk.freeListOk.below⟩
      bytesUsed := hk.keeps.bytesUsed }
  elems := hk.elems
  elemsUsed := hk.elemsUsed

theorem setElem (hk : KeepsAll h h') {e k : ℕ} {w : Word} (he : h.elemsUsed ≤ e)
    (hs : h'.setElem e k w = .ok h'') : KeepsAll h h'' := by
  unfold Heap.setElem at hs
  split at hs
  · obtain rfl := Except.ok.inj hs
    refine ⟨⟨hk.keeps.cells, hk.keeps.bytes, hk.keeps.supply,
      ⟨hk.freeListOk.nodup, hk.freeListOk.below⟩, hk.keeps.bytesUsed⟩, ?_, hk.elemsUsed⟩
    intro j hj
    dsimp only
    rw [Function.update_of_ne (by omega)]
    exact hk.elems j hj
  · exact absurd hs (by simp)

end KeepsAll

/-- A `cell_alloc` that returns had a cell left. -/
theorem cellAlloc_room {h h' : Heap} {i : ℕ} (ha : h.cellAlloc = .ok (i, h')) : 0 < h.room := by
  unfold cellAlloc at ha
  unfold room
  split at ha
  · omega
  · split at ha
    · exact absurd ha (by simp)
    · omega

/-- A `cell_alloc` that returns hands out a cell of the supply. -/
theorem cellAlloc_keeps {h h' : Heap} {i : ℕ} (hok : h.FreeListOk) (ha : h.cellAlloc = .ok (i, h')) :
    KeepsAll h h' ∧ i ∈ h.Supply ∧ i ∉ h'.Supply := by
  obtain ⟨j, h₁, hj, hin, hout, hsub, hok', -, hcells, hbytes, hused⟩ :=
    cellAlloc_spec hok (cellAlloc_room ha)
  rw [hj] at ha
  obtain ⟨rfl, rfl⟩ := Prod.mk.inj (Except.ok.inj ha)
  have helems : h₁.elems = h.elems ∧ h₁.elemsUsed = h.elemsUsed := by
    unfold cellAlloc at hj
    split at hj
    · obtain ⟨-, rfl⟩ := Prod.mk.inj (Except.ok.inj hj); exact ⟨rfl, rfl⟩
    · split at hj
      · exact absurd hj (by simp)
      · obtain ⟨-, rfl⟩ := Prod.mk.inj (Except.ok.inj hj); exact ⟨rfl, rfl⟩
  refine ⟨⟨⟨?_, ?_, hsub, hok', hused.ge⟩, ?_, helems.2.ge⟩, hin, hout⟩
  · intro k _ _; rw [hcells]
  · intro b _ _; rw [hbytes]
  · intro e _; rw [helems.1]

theorem allocCell_keeps {h h' : Heap} {f : Cell → Cell} {i : ℕ} (hok : h.FreeListOk)
    (ha : h.allocCell f = .ok (i, h')) : KeepsAll h h' ∧ i ∈ h.Supply ∧ i ∉ h'.Supply := by
  obtain ⟨⟨j, h₁⟩, hc, ha⟩ := bind_ok.mp ha
  obtain ⟨rfl, rfl⟩ := Prod.mk.inj (Except.ok.inj ha)
  obtain ⟨hk, hin, hout⟩ := cellAlloc_keeps hok hc
  exact ⟨hk.setCell hin _, hin, hout⟩

/-- A cell that was handed out is one less to hand out. -/
theorem allocCell_ok {h h' : Heap} {f : Cell → Cell} {i : ℕ} (hok : h.FreeListOk)
    (ha : h.allocCell f = .ok (i, h')) : KeepsAll h h' ∧ h.room = h'.room + 1 := by
  obtain ⟨⟨j, h₁⟩, hc, -⟩ := bind_ok.mp ha
  obtain ⟨j, h₂, hal, -, -, -, -, hrm⟩ := allocCell_spec hok (cellAlloc_room hc) f
  rw [ha] at hal
  obtain ⟨rfl, rfl⟩ := Prod.mk.inj (Except.ok.inj hal)
  exact ⟨(allocCell_keeps hok ha).1, hrm⟩

theorem bytesAlloc_keeps {h h' : Heap} {n : ℤ} {b : ℕ} (hok : h.FreeListOk)
    (ha : h.bytesAlloc n = .ok (b, h')) : KeepsAll h h' ∧ h.bytesUsed ≤ b := by
  unfold bytesAlloc at ha
  split at ha
  · exact absurd ha (by simp)
  · obtain ⟨rfl, rfl⟩ := Prod.mk.inj (Except.ok.inj ha)
    refine ⟨⟨⟨fun _ _ _ => rfl, ?_, subset_rfl, ⟨hok.nodup, hok.below⟩, Nat.le_succ _⟩,
      fun _ _ => rfl, le_rfl⟩, le_rfl⟩
    intro j hj _
    dsimp only
    rw [Function.update_of_ne (by omega)]

theorem allocSym_keeps {h h' : Heap} {str : List UInt8} {i : ℕ} (hok : h.FreeListOk)
    (ha : h.allocSym str = .ok (i, h')) : KeepsAll h h' := by
  obtain ⟨⟨j, h₁⟩, hc, ha⟩ := bind_ok.mp ha
  obtain ⟨⟨b, h₂⟩, hb, ha⟩ := bind_ok.mp ha
  obtain ⟨hk, hin, -⟩ := cellAlloc_keeps hok hc
  obtain ⟨hk₂, hle⟩ := bytesAlloc_keeps hk.freeListOk hb
  dsimp only at ha
  split at ha
  · obtain ⟨rfl, rfl⟩ := Prod.mk.inj (Except.ok.inj ha)
    exact ((hk.trans hk₂).setBytes (hk.keeps.bytesUsed.trans hle) _).setCell hin _
  · exact absurd ha (by simp)

theorem allocArray_keeps {h h' : Heap} {tag size i e : ℕ} (hok : h.FreeListOk)
    (ha : h.allocArray tag size = .ok (i, e, h')) :
    KeepsAll h h' ∧ i ∈ h.Supply ∧ h.elemsUsed ≤ e := by
  obtain ⟨⟨j, h₁⟩, hc, ha⟩ := bind_ok.mp ha
  obtain ⟨hk, hin, -⟩ := cellAlloc_keeps hok hc
  obtain ⟨rfl, rfl, rfl⟩ : j = i ∧ h₁.elemsUsed = e ∧ _ = h' := by
    simpa only [Except.ok.injEq, Prod.mk.injEq] using ha
  have hk₂ : KeepsAll h
      { h₁ with
        elems := Function.update h₁.elems h₁.elemsUsed (List.replicate size .undef)
        elemsUsed := h₁.elemsUsed + 1 } := by
    refine ⟨⟨hk.keeps.cells, hk.keeps.bytes, hk.keeps.supply,
      ⟨hk.freeListOk.nodup, hk.freeListOk.below⟩, hk.keeps.bytesUsed⟩, ?_,
      hk.elemsUsed.trans (Nat.le_succ _)⟩
    intro k hlt
    have hle := hk.elemsUsed
    dsimp only
    rw [Function.update_of_ne (by omega)]
    exact hk.elems k hlt
  exact ⟨hk₂.setCell hin _, hin, hk.elemsUsed⟩

theorem cloneBytes_keeps {h₀ h h' : Heap} {i : ℕ} {orig : Cell} {w : Word} (hk : KeepsAll h₀ h)
    (hi : i ∈ h₀.Supply) (ha : h.cloneBytes i orig = .ok (w, h')) : KeepsAll h₀ h' := by
  obtain ⟨size, -, ha⟩ := bind_ok.mp ha
  obtain ⟨⟨b, h₁⟩, hb, ha⟩ := bind_ok.mp ha
  obtain ⟨h₂, hcp, ha⟩ := bind_ok.mp ha
  obtain ⟨rfl, rfl⟩ := Prod.mk.inj (Except.ok.inj ha)
  obtain ⟨hk₁, hle⟩ := bytesAlloc_keeps hk.freeListOk hb
  have hk₂ : KeepsAll h₀ h₂ := by
    unfold copyBytes at hcp
    split at hcp
    · split at hcp
      · obtain rfl := Except.ok.inj hcp
        exact (hk.trans hk₁).setBytes (hk.keeps.bytesUsed.trans hle) _
      · exact absurd hcp (by simp)
    · exact absurd hcp (by simp)
  exact hk₂.setCell hi _

theorem allocClone_keeps (n : ℕ) : ∀ {h h' : Heap} {w w' : Word}, h.FreeListOk →
    allocClone n h w = .ok (w', h') → KeepsAll h h' := by
  induction n with
  | zero => intro h h' w w' _ ha; exact absurd ha (by simp [allocClone])
  | succ n ih =>
    intro h h' w w' hok ha
    unfold allocClone at ha
    split at ha
    · obtain ⟨-, rfl⟩ := Prod.mk.inj (Except.ok.inj ha); exact .refl hok
    · obtain ⟨⟨i, h₁⟩, hc, ha⟩ := bind_ok.mp ha
      obtain ⟨orig, -, ha⟩ := bind_ok.mp ha
      obtain ⟨hk, hin, -⟩ := cellAlloc_keeps hok hc
      dsimp only at ha
      split at ha
      · exact cloneBytes_keeps hk hin ha
      · split at ha
        · obtain ⟨⟨a, h₂⟩, h2, ha⟩ := bind_ok.mp ha
          obtain ⟨⟨d, h₃⟩, h3, ha⟩ := bind_ok.mp ha
          obtain ⟨-, rfl⟩ := Prod.mk.inj (Except.ok.inj ha)
          have hk₂ := hk.trans (ih hk.freeListOk h2)
          exact (hk₂.trans (ih hk₂.freeListOk h3)).setCell hin _
        · obtain ⟨-, rfl⟩ := Prod.mk.inj (Except.ok.inj ha)
          exact hk.setCell hin _

theorem cloneFields_keeps {h₀ : Heap} {n e : ℕ} {defElems : Word} (he : h₀.elemsUsed ≤ e) (k : ℕ) :
    ∀ {i : ℕ} {h h' : Heap}, KeepsAll h₀ h → cloneFields n e defElems k i h = .ok h' →
      KeepsAll h₀ h' := by
  induction k with
  | zero => intro i h h' hk ha; obtain rfl := Except.ok.inj ha; exact hk
  | succ k ih =>
    intro i h h' hk ha
    obtain ⟨w, -, ha⟩ := bind_ok.mp ha
    obtain ⟨⟨w', h₁⟩, h1, ha⟩ := bind_ok.mp ha
    obtain ⟨h₂, h2, ha⟩ := bind_ok.mp ha
    exact ih ((hk.trans (allocClone_keeps n hk.freeListOk h1)).setElem he h2) ha

theorem allocStruct_keeps {n : ℕ} {h h' : Heap} {structDef : Word} {i : ℕ} (hok : h.FreeListOk)
    (ha : h.allocStruct n structDef = .ok (i, h')) : KeepsAll h h' := by
  obtain ⟨d, -, ha⟩ := bind_ok.mp ha
  obtain ⟨size, -, ha⟩ := bind_ok.mp ha
  obtain ⟨⟨j, e, h₁⟩, h1, ha⟩ := bind_ok.mp ha
  obtain ⟨h₂, h2, ha⟩ := bind_ok.mp ha
  obtain ⟨h₃, h3, ha⟩ := bind_ok.mp ha
  obtain ⟨rfl, rfl⟩ := Prod.mk.inj (Except.ok.inj ha)
  obtain ⟨hk, hin, hle⟩ := allocArray_keeps hok h1
  exact (cloneFields_keeps hle _ (hk.setElem hle h2) h3).setCell hin _

end Interim.Heap
