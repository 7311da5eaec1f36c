import Interim.Minilisp

/-!
# The cell heap and its allocator

Model of the allocating half of `sledge/alloc.c`: `cell_alloc` (lines 53–79),
`bytes_alloc` (lines 81–98), `cell_realloc` (lines 291–297) and the `alloc_*`
constructors the reader, the compiler and compiled code use.

* `free_list[0 .. free_list_avail)` is the list `freeList`, so
  `free_list_avail` is its length; `free_list_consumed` is a field.
* `malloc` is taken to succeed on every non-negative size. A negative `int`
  passed to `bytes_alloc` becomes a huge `size_t`, `malloc` returns `NULL` and
  the `memset` that follows faults.
* `Supply h` is the set of cells `cell_alloc` can still hand out. The
  constructors change no cell outside it (`allocCell_spec`), which is what
  every later framing argument uses.
-/

namespace Interim

/-- `typedef struct Stream` (`stream.h`), as far as the collector and the
    writer read it. -/
structure Stream where
  path : Word
  fs : Word
  id : ℤ
  deriving DecidableEq, Repr

/-- `typedef struct Filesystem` (`stream.h`). -/
structure Filesystem where
  mountPoint : Word
  openFn : Word
  closeFn : Word
  readFn : Word
  writeFn : Word
  deleteFn : Word
  mmapFn : Word
  deriving DecidableEq, Repr

/-- The memory `alloc.c` manages: the cell heap, its free list, and the
    malloc'd blocks cells point to. -/
structure Heap where
  cells : ℕ → Cell
  cellsUsed : ℕ
  freeList : List ℕ
  freeListConsumed : ℕ
  bytes : ℕ → List UInt8
  bytesUsed : ℕ
  elems : ℕ → List Word
  elemsUsed : ℕ
  streams : ℕ → Stream
  filesystems : ℕ → Filesystem

namespace Heap

/-- `MAX_CELLS`. -/
def maxCells : ℕ := 100000

/-- The state `init_allocator` (lines 25–44) sets up: `cell_heap` is zeroed,
    nothing is in use. -/
def init : Heap where
  cells := fun _ => ⟨.null, .null, tagFreed⟩
  cellsUsed := 0
  freeList := []
  freeListConsumed := 0
  bytes := fun _ => []
  bytesUsed := 0
  elems := fun _ => []
  elemsUsed := 0
  streams := fun _ => ⟨.null, .null, 0⟩
  filesystems := fun _ => ⟨.null, .null, .null, .null, .null, .null, .null⟩

/-! ## Field updates -/

/-- `cell_heap[i] = c`. -/
def setCell (h : Heap) (i : ℕ) (c : Cell) : Heap :=
  { h with cells := Function.update h.cells i c }

/-- Replace the contents of buffer `b`. -/
def setBytes (h : Heap) (b : ℕ) (s : List UInt8) : Heap :=
  { h with bytes := Function.update h.bytes b s }

@[simp] theorem setCell_cells (h : Heap) (i : ℕ) (c : Cell) :
    (h.setCell i c).cells = Function.update h.cells i c := rfl

@[simp] theorem setCell_cellsUsed (h : Heap) (i : ℕ) (c : Cell) :
    (h.setCell i c).cellsUsed = h.cellsUsed := rfl

@[simp] theorem setCell_freeList (h : Heap) (i : ℕ) (c : Cell) :
    (h.setCell i c).freeList = h.freeList := rfl

@[simp] theorem setCell_freeListConsumed (h : Heap) (i : ℕ) (c : Cell) :
    (h.setCell i c).freeListConsumed = h.freeListConsumed := rfl

@[simp] theorem setCell_bytes (h : Heap) (i : ℕ) (c : Cell) :
    (h.setCell i c).bytes = h.bytes := rfl

@[simp] theorem setCell_bytesUsed (h : Heap) (i : ℕ) (c : Cell) :
    (h.setCell i c).bytesUsed = h.bytesUsed := rfl

@[simp] theorem setBytes_cells (h : Heap) (b : ℕ) (s : List UInt8) :
    (h.setBytes b s).cells = h.cells := rfl

@[simp] theorem setBytes_cellsUsed (h : Heap) (b : ℕ) (s : List UInt8) :
    (h.setBytes b s).cellsUsed = h.cellsUsed := rfl

@[simp] theorem setBytes_freeList (h : Heap) (b : ℕ) (s : List UInt8) :
    (h.setBytes b s).freeList = h.freeList := rfl

@[simp] theorem setBytes_freeListConsumed (h : Heap) (b : ℕ) (s : List UInt8) :
    (h.setBytes b s).freeListConsumed = h.freeListConsumed := rfl

@[simp] theorem setBytes_bytes (h : Heap) (b : ℕ) (s : List UInt8) :
    (h.setBytes b s).bytes = Function.update h.bytes b s := rfl

@[simp] theorem setBytes_bytesUsed (h : Heap) (b : ℕ) (s : List UInt8) :
    (h.setBytes b s).bytesUsed = h.bytesUsed := rfl

/-! ## `cell_alloc` and `bytes_alloc` -/

/-- `cell_alloc` (lines 53–79): serve from the free list while it lasts, then
    take the next unused cell; `exit(1)` once `MAX_CELLS` are used. The cell's
    old contents stay in place. -/
def cellAlloc (h : Heap) : Except Stop (ℕ × Heap) :=
  if hc : h.freeListConsumed < h.freeList.length then
    .ok (h.freeList.get ⟨h.freeListConsumed, hc⟩,
      { h with freeListConsumed := h.freeListConsumed + 1 })
  else if h.cellsUsed + 1 > maxCells then .error .exit
  else .ok (h.cellsUsed, { h with cellsUsed := h.cellsUsed + 1 })

/-- `cell_alloc` followed by the caller's assignments to the new cell; `f`
    maps the stale contents to the new ones. -/
def allocCell (h : Heap) (f : Cell → Cell) : Except Stop (ℕ × Heap) := do
  let (i, h) ← h.cellAlloc
  .ok (i, h.setCell i (f (h.cells i)))

/-- `bytes_alloc(num_bytes)` (lines 81–86): a zeroed buffer. -/
def bytesAlloc (h : Heap) (numBytes : ℤ) : Except Stop (ℕ × Heap) :=
  if numBytes < 0 then .error .fault
  else .ok (h.bytesUsed,
    { h with
      bytes := Function.update h.bytes h.bytesUsed (List.replicate numBytes.toNat 0)
      bytesUsed := h.bytesUsed + 1 })

/-- Store one byte into buffer `b` at index `idx`; outside the buffer this is
    a fault. -/
def storeByte (h : Heap) (b idx : ℕ) (c : UInt8) : Except Stop Heap :=
  if idx < (h.bytes b).length then .ok (h.setBytes b ((h.bytes b).set idx c))
  else .error .fault

/-- `cell_realloc(old_addr, old_size, num_bytes)` (lines 291–297) on buffer
    `b`: a zeroed buffer of `num_bytes + 1` bytes that starts with the first
    `old_size` bytes of the old one. Sizes arrive as `unsigned int`. -/
def cellRealloc (h : Heap) (b oldSize numBytes : ℕ) : Except Stop (ℕ × Heap) := do
  let old := h.bytes b
  let (b', h) ← h.bytesAlloc (toInt32 (toUInt32 (toUInt32 numBytes + 1)))
  if toUInt32 oldSize ≤ old.length ∧ toUInt32 oldSize ≤ (h.bytes b').length then
    .ok (b', h.setBytes b' (old.take (toUInt32 oldSize) ++
      (h.bytes b').drop (toUInt32 oldSize)))
  else .error .fault

/-! ## The `alloc_*` constructors -/

/-- `alloc_cons(ar, dr)` (lines 307–314). -/
def allocCons (h : Heap) (ar dr : Word) : Except Stop (ℕ × Heap) :=
  h.allocCell fun _ => ⟨ar, dr, tagCons⟩

/-- `alloc_nil()` (lines 462–464): `alloc_cons(0, 0)`. -/
def allocNil (h : Heap) : Except Stop (ℕ × Heap) := h.allocCons .null .null

/-- The word `alloc_int(int i)` stores for the argument register `v`: the low
    32 bits, sign-extended by the assignment to `ar.value`. -/
def boxInt (v : BitVec 64) : BitVec 64 := (v.truncate 32).signExtend 64

/-- `alloc_int(i)` (lines 353–359). `dr` keeps its stale contents. -/
def allocInt (h : Heap) (v : BitVec 64) : Except Stop (ℕ × Heap) :=
  h.allocCell fun c => { c with ar := .int (boxInt v), tag := tagInt }

/-- `alloc_error(code)` (lines 511–517). -/
def allocError (h : Heap) (code : ℕ) : Except Stop (ℕ × Heap) :=
  h.allocCell fun _ => ⟨.ofNat code, .null, tagError⟩

/-- `alloc_num_bytes(num_bytes)` and `alloc_num_string(num_bytes)` (lines
    361–379), which differ in the tag only. -/
def allocBuffer (h : Heap) (tag numBytes : ℕ) : Except Stop (ℕ × Heap) := do
  let (i, h) ← h.cellAlloc
  let (b, h) ← h.bytesAlloc (toInt32 (toUInt32 (toUInt32 numBytes + 1)))
  .ok (i, h.setCell i ⟨.ptr (.bytes b) 0, .ofNat (toUInt32 numBytes), tag⟩)

/-- `alloc_num_bytes`. -/
def allocNumBytes (h : Heap) (numBytes : ℕ) : Except Stop (ℕ × Heap) :=
  h.allocBuffer tagBytes numBytes

/-- `alloc_num_string`. -/
def allocNumString (h : Heap) (numBytes : ℕ) : Except Stop (ℕ × Heap) :=
  h.allocBuffer tagStr numBytes

/-! ## What an allocation changes -/

/-- The cells `cell_alloc` can still hand out: the unconsumed part of the free
    list and everything from `cells_used` on. -/
def Supply (h : Heap) : Set ℕ :=
  {i | i ∈ h.freeList.drop h.freeListConsumed ∨ h.cellsUsed ≤ i}

/-- The number of cells `cell_alloc` can hand out before it calls `exit`. -/
def room (h : Heap) : ℕ :=
  (h.freeList.length - h.freeListConsumed) + (maxCells - h.cellsUsed)

/-- The unconsumed free list has no repetitions and lies below `cells_used`:
    each collection establishes this, and `cell_alloc` needs it to hand out
    every cell at most once. -/
structure FreeListOk (h : Heap) : Prop where
  nodup : (h.freeList.drop h.freeListConsumed).Nodup
  below : ∀ i ∈ h.freeList.drop h.freeListConsumed, i < h.cellsUsed

theorem init_freeListOk : init.FreeListOk where
  nodup := by simp [init]
  below := by simp [init]

/-- One `cell_alloc`: the cell comes out of the supply and leaves it. -/
theorem cellAlloc_spec {h : Heap} (hok : h.FreeListOk) (hroom : 0 < h.room) :
    ∃ i h', h.cellAlloc = .ok (i, h') ∧ i ∈ h.Supply ∧ i ∉ h'.Supply ∧
      h'.Supply ⊆ h.Supply ∧ h'.FreeListOk ∧ h.room = h'.room + 1 ∧
      h'.cells = h.cells ∧ h'.bytes = h.bytes ∧ h'.bytesUsed = h.bytesUsed := by
  unfold cellAlloc
  by_cases hc : h.freeListConsumed < h.freeList.length
  · have hdrop := List.drop_eq_getElem_cons hc
    have hnd := hok.nodup
    have hbl := hok.below
    rw [hdrop] at hnd hbl
    rw [dif_pos hc]
    refine ⟨_, _, rfl, ?_, ?_, ?_, ⟨?_, ?_⟩, ?_, rfl, rfl, rfl⟩
    · left; rw [hdrop]; exact List.mem_cons_self
    · rintro (hm | hm)
      · exact (List.nodup_cons.mp hnd).1 hm
      · exact absurd (hbl _ List.mem_cons_self) (not_lt.mpr hm)
    · rintro j (hm | hm)
      · left; rw [hdrop]; exact List.mem_cons_of_mem _ hm
      · exact Or.inr hm
    · exact (List.nodup_cons.mp hnd).2
    · exact fun j hj => hbl j (List.mem_cons_of_mem _ hj)
    · simp only [room]; omega
  · have hdrop : h.freeList.drop h.freeListConsumed = [] := List.drop_eq_nil_of_le (by omega)
    have hlt : ¬ h.cellsUsed + 1 > maxCells := by simp only [room] at hroom; omega
    rw [dif_neg hc, if_neg hlt]
    refine ⟨_, _, rfl, Or.inr le_rfl, ?_, ?_, ⟨hok.nodup, ?_⟩, ?_, rfl, rfl, rfl⟩
    · rintro (hm | hm)
      · rw [hdrop] at hm; exact absurd hm (by simp)
      · exact absurd hm (by simp)
    · rintro j (hm | hm)
      · exact Or.inl hm
      · exact Or.inr (Nat.le_of_succ_le hm)
    · intro j hj; rw [hdrop] at hj; exact absurd hj (by simp)
    · simp only [room] at hroom ⊢; omega

/-- `h'` differs from `h` only in the cells of `X`, the buffers of `Y`, and
    what was not handed out yet. -/
structure Keeps (X Y : Set ℕ) (h h' : Heap) : Prop where
  cells : ∀ i, i ∉ h.Supply → i ∉ X → h'.cells i = h.cells i
  bytes : ∀ b, b < h.bytesUsed → b ∉ Y → h'.bytes b = h.bytes b
  supply : h'.Supply ⊆ h.Supply
  freeListOk : h'.FreeListOk
  bytesUsed : h.bytesUsed ≤ h'.bytesUsed

namespace Keeps

variable {X X' Y Y' : Set ℕ} {h h' h'' : Heap}

theorem refl (hok : h.FreeListOk) : Keeps X Y h h :=
  ⟨fun _ _ _ => rfl, fun _ _ _ => rfl, subset_rfl, hok, le_rfl⟩

theorem trans (h₁ : Keeps X Y h h') (h₂ : Keeps X Y h' h'') : Keeps X Y h h'' where
  cells := fun i hi hX =>
    (h₂.cells i (fun hs => hi (h₁.supply hs)) hX).trans (h₁.cells i hi hX)
  bytes := fun b hb hY =>
    (h₂.bytes b (lt_of_lt_of_le hb h₁.bytesUsed) hY).trans (h₁.bytes b hb hY)
  supply := h₂.supply.trans h₁.supply
  freeListOk := h₂.freeListOk
  bytesUsed := h₁.bytesUsed.trans h₂.bytesUsed

theorem weaken (hk : Keeps X Y h h') (hX : X ⊆ X') (hY : Y ⊆ Y') : Keeps X' Y' h h' :=
  ⟨fun i hi hm => hk.cells i hi fun hx => hm (hX hx),
    fun b hb hm => hk.bytes b hb fun hy => hm (hY hy), hk.supply, hk.freeListOk, hk.bytesUsed⟩

theorem setCell (hok : h.FreeListOk) {i : ℕ} (hi : i ∈ X) (c : Cell) :
    Keeps X Y h (h.setCell i c) where
  cells := by
    intro j _ hj
    exact Function.update_of_ne (by rintro rfl; exact hj hi) _ _
  bytes := fun _ _ _ => rfl
  supply := subset_rfl
  freeListOk := ⟨hok.nodup, hok.below⟩
  bytesUsed := le_rfl

theorem setBytes (hok : h.FreeListOk) {b : ℕ} (hb : b ∈ Y) (s : List UInt8) :
    Keeps X Y h (h.setBytes b s) where
  cells := fun _ _ _ => rfl
  bytes := by
    intro j _ hj
    exact Function.update_of_ne (by rintro rfl; exact hj hb) _ _
  supply := subset_rfl
  freeListOk := ⟨hok.nodup, hok.below⟩
  bytesUsed := le_rfl

end Keeps

/-- `cell_alloc` and the assignments to the new cell. -/
theorem allocCell_spec {h : Heap} (hok : h.FreeListOk) (hroom : 0 < h.room) (f : Cell → Cell) :
    ∃ i h', h.allocCell f = .ok (i, h') ∧ Keeps ∅ ∅ h h' ∧ i ∈ h.Supply ∧ i ∉ h'.Supply ∧
      h'.cells i = f (h.cells i) ∧ h.room = h'.room + 1 := by
  obtain ⟨i, h', hal, hin, hout, hsub, hok', hrm, hcells, hbytes, hused⟩ := cellAlloc_spec hok hroom
  refine ⟨i, h'.setCell i (f (h'.cells i)), ?_, ⟨?_, ?_, hsub, ⟨hok'.nodup, hok'.below⟩, ?_⟩, hin,
    hout, ?_, hrm⟩
  · unfold allocCell; rw [hal]; rfl
  · intro j hj _
    have hji : j ≠ i := by rintro rfl; exact hj hin
    rw [setCell_cells, Function.update_of_ne hji, hcells]
  · intro b _ _; rw [setCell_bytes, hbytes]
  · rw [setCell_bytesUsed, hused]
  · rw [setCell_cells, Function.update_self, hcells]

/-- `alloc_num_bytes`, `alloc_num_string`: a cell and a zeroed buffer one byte
    longer than its size field says. -/
theorem allocBuffer_spec {h : Heap} (hok : h.FreeListOk) (hroom : 0 < h.room) (tag : ℕ) {n : ℕ}
    (hn : n + 1 < 2 ^ 31) :
    ∃ i b h', h.allocBuffer tag n = .ok (i, h') ∧ Keeps ∅ ∅ h h' ∧ i ∈ h.Supply ∧
      i ∉ h'.Supply ∧ h.bytesUsed ≤ b ∧ b < h'.bytesUsed ∧
      h'.cells i = ⟨.ptr (.bytes b) 0, .ofNat n, tag⟩ ∧ h'.bytes b = List.replicate (n + 1) 0 ∧
      h.room = h'.room + 1 := by
  obtain ⟨i, h₁, hal, hin, hout, hsub, hok', hrm, hcells, hbytes, hused⟩ := cellAlloc_spec hok hroom
  have hsize : toInt32 (toUInt32 (toUInt32 n + 1)) = (n + 1 : ℕ) := by
    rw [toUInt32_of_lt (show n < 2 ^ 32 by omega), toUInt32_of_lt (by omega), toInt32_of_lt hn]
  refine ⟨i, h₁.bytesUsed,
    { h₁ with
      bytes := Function.update h₁.bytes h₁.bytesUsed (List.replicate (n + 1) 0)
      bytesUsed := h₁.bytesUsed + 1 }.setCell i ⟨.ptr (.bytes h₁.bytesUsed) 0, .ofNat n, tag⟩,
    ?_, ⟨?_, ?_, hsub, ⟨hok'.nodup, hok'.below⟩, ?_⟩, hin, hout, hused.ge, ?_,
    Function.update_self _ _ _, ?_, hrm⟩
  · unfold allocBuffer
    rw [hal]
    change (h₁.bytesAlloc (toInt32 (toUInt32 (toUInt32 n + 1))) >>= _) = _
    rw [hsize, bytesAlloc, if_neg (by omega), toUInt32_of_lt (show n < 2 ^ 32 by omega)]
    rfl
  · intro j hj _
    have hji : j ≠ i := by rintro rfl; exact hj hin
    rw [setCell_cells, Function.update_of_ne hji]
    exact congrFun hcells j
  · intro b hb _
    rw [setCell_bytes]
    dsimp only
    rw [Function.update_of_ne (by omega), hbytes]
  · rw [setCell_bytesUsed]; dsimp only; omega
  · rw [setCell_bytesUsed]; exact Nat.lt_succ_self _
  · rw [setCell_bytes]
    exact Function.update_self _ _ _

end Heap

end Interim
