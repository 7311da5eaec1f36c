import Interim.Hosted.Model

/-!
# Allocation inside the hosted file system

What the constructors used by `stream.c` and `posixfs.c` do to the memory, in
the terms of the allocator's runs: a set `U` of cells the program may use, with
the invariant `Heap.Inv`. Each constructor hands out one cell that was waiting,
fills it, and leaves the usable cells and the buffers in use alone (`Grows`).
-/

namespace Interim.Hosted

open Writer (ascii cellAt car cdr cString cStringAt)
open Compiler (allocList)
open Heap

variable {env : List EnvEntry} {fsl : Word} {h h' h'' : Heap} {U U' U'' : Set ℕ} {i n : ℕ}

/-- The allocator's invariant for the usable cells `U`. -/
abbrev Sound (env : List EnvEntry) (fsl : Word) (h : Heap) (U : Set ℕ) : Prop :=
  Heap.Inv ⟨h, env, fsl, U, ∅⟩

namespace Sound

theorem freeListOk (hs : Sound env fsl h U) : h.FreeListOk :=
  ⟨hs.nodup, fun i hi => (hs.free i hi).1⟩

end Sound

/-- The cells of `U`, the buffers in use, the first `n` streams and the file
    systems are the same in `h` and `h'`. -/
structure Agrees (n : ℕ) (U : Set ℕ) (h h' : Heap) : Prop where
  cells : ∀ i ∈ U, h'.cells i = h.cells i
  bytes : ∀ b < h.bytesUsed, h'.bytes b = h.bytes b
  bytesUsed : h.bytesUsed ≤ h'.bytesUsed
  streams : ∀ k < n, h'.streams k = h.streams k
  filesystems : h'.filesystems = h.filesystems

theorem Agrees.trans (h₁ : Agrees n U h h') (h₂ : Agrees n U' h' h'') (hU : U ⊆ U') :
    Agrees n U h h'' where
  cells := fun i hi => (h₂.cells i (hU hi)).trans (h₁.cells i hi)
  bytes := fun b hb => (h₂.bytes b (lt_of_lt_of_le hb h₁.bytesUsed)).trans (h₁.bytes b hb)
  bytesUsed := h₁.bytesUsed.trans h₂.bytesUsed
  streams := fun k hk => (h₂.streams k hk).trans (h₁.streams k hk)
  filesystems := h₂.filesystems.trans h₁.filesystems

/-- `h'` is `h` after some allocations: what was in use is unchanged, and the
    program may now use `U'`. -/
structure Grows (env : List EnvEntry) (fsl : Word) (n : ℕ) (h : Heap) (U : Set ℕ) (h' : Heap)
    (U' : Set ℕ) : Prop extends Agrees n U h h' where
  sound : Sound env fsl h' U'
  usable : U ⊆ U'

namespace Grows

theorem refl (hs : Sound env fsl h U) : Grows env fsl n h U h U :=
  ⟨⟨fun _ _ => rfl, fun _ _ => rfl, le_rfl, fun _ _ => rfl, rfl⟩, hs, subset_rfl⟩

theorem trans (h₁ : Grows env fsl n h U h' U') (h₂ : Grows env fsl n h' U' h'' U'') :
    Grows env fsl n h U h'' U'' :=
  ⟨h₁.toAgrees.trans h₂.toAgrees h₁.usable, h₂.sound, h₁.usable.trans h₂.usable⟩

theorem weaken {m : ℕ} (hg : Grows env fsl n h U h' U') (hm : m ≤ n) :
    Grows env fsl m h U h' U' :=
  ⟨⟨hg.cells, hg.bytes, hg.bytesUsed, fun k hk => hg.streams k (lt_of_lt_of_le hk hm),
    hg.filesystems⟩, hg.sound, hg.usable⟩

end Grows

/-! ## Filling a cell -/

/-- `cell_alloc` changes the counters only. -/
theorem cellAlloc_same {i : ℕ} (ha : h.cellAlloc = .ok (i, h')) :
    h'.cells = h.cells ∧ h'.bytes = h.bytes ∧ h'.bytesUsed = h.bytesUsed ∧
      h'.elems = h.elems ∧ h'.streams = h.streams ∧ h'.filesystems = h.filesystems := by
  unfold cellAlloc at ha
  split at ha
  · obtain ⟨-, rfl⟩ := Prod.mk.inj (Except.ok.inj ha)
    exact ⟨rfl, rfl, rfl, rfl, rfl, rfl⟩
  · split at ha
    · exact absurd ha (by simp)
    · obtain ⟨-, rfl⟩ := Prod.mk.inj (Except.ok.inj ha)
      exact ⟨rfl, rfl, rfl, rfl, rfl, rfl⟩

/-- Writing one usable cell, and any streams and file systems as long as every
    pointer that is not an old one leads to a usable cell. -/
theorem Sound.write (hs : Sound env fsl h U) (h' : Heap) (hi : i ∈ U) (hfl : h'.freeList = h.freeList)
    (hfc : h'.freeListConsumed = h.freeListConsumed) (hcu : h'.cellsUsed = h.cellsUsed)
    (hcells : ∀ a, a ≠ i → h'.cells a = h.cells a) (hum : (h'.cells i).tag &&& tagMark = 0)
    (hedge : ∀ a b, h'.Edge a b → b ∈ U ∨ h.Edge a b) : Sound env fsl h' U := by
  apply hs.update
  refine ⟨hfl, hfc, hcu, rfl, rfl, ?_, ?_, ?_, hs.roots⟩
  · intro a ha
    exact hcells a fun he => ha (he ▸ hi)
  · intro a _
    by_cases ha : a = i
    · rw [ha]; exact hum
    · change (h'.cells a).tag &&& tagMark = 0
      rw [hcells a ha]
      exact hs.unmarked a
  · intro a b hab
    rcases hedge a b hab with hb | hb
    · exact Or.inl hb
    · by_cases ha : a ∈ U
      · exact Or.inl (hs.closed a ha b hb)
      · exact Or.inr ⟨ha, hb⟩

/-- A new stream block whose path is usable. -/
theorem Sound.setStream (hs : Sound env fsl h U) (k : ℕ) (st : Stream) {p : ℕ}
    (hpath : st.path = .cell p) (hp : p ∈ U) :
    Sound env fsl { h with streams := Function.update h.streams k st } U := by
  refine hs.write _ hp rfl rfl rfl (fun _ _ => rfl) (hs.unmarked p) ?_
  rintro a b ⟨ws, hws, hb⟩
  by_cases hst : (h.cells a).tag = tagStream ∧ (h.cells a).ar = .ptr (.stream k) 0
  · left
    unfold children at hws
    simp [hst.1, hst.2, hpath] at hws
    rw [← hws, List.mem_singleton] at hb
    cases hb
    exact hp
  · right
    refine ⟨ws, ?_, hb⟩
    unfold children elements at hws ⊢
    by_cases ht : (h.cells a).tag = tagStream
    · simp only [ht, true_and] at hst
      simp only [ht] at hws ⊢
      rw [← hws]
      simp only [show ¬ tagStream = tagCons by decide, show ¬ tagStream = tagLambda by decide,
        show ¬ tagStream = tagBuiltin by decide, if_false, if_true]
      split
      · rfl
      · rename_i k' off har
        by_cases ho : off = 0
        · have hk : k' ≠ k := by
            rintro rfl
            exact hst (by rw [har, ho])
          rw [Function.update_of_ne hk]
        · simp [ho]
      · rfl
    · simpa [ht] using hws

/-- The cell a `cell_alloc` returns joins the usable cells. -/
theorem Sound.cellAlloc (hs : Sound env fsl h U) (ha : h.cellAlloc = .ok (i, h')) :
    Sound env fsl h' (insert i U) ∧ i ∉ U := by
  have hi := Heap.Inv.alloc hs ha
  have hn := (Heap.Inv.alloc_waiting hs ha).1
  exact ⟨⟨hi.roots, hi.closed, hi.usable_lt, Set.empty_subset _, hi.nodup, hi.free, hi.unused,
    hi.unmarked, hi.edge_lt, hi.consumed_le, hi.length_le, hi.cellsUsed_le⟩, hn⟩

/-- The pointers out of a cell depend on the cell, the arrays, the streams and
    the file systems only. -/
theorem edge_congr {a b : ℕ} (hc : h'.cells a = h.cells a) (he : h'.elems = h.elems)
    (hst : h'.streams = h.streams) (hfs : h'.filesystems = h.filesystems) (hab : h'.Edge a b) :
    h.Edge a b := by
  obtain ⟨ws, hws, hb⟩ := hab
  refine ⟨ws, ?_, hb⟩
  unfold children elements at hws ⊢
  rwa [hc, he, hst, hfs] at hws

/-- The heap after the assignments to cell `i` and to the buffers. -/
def filled (h : Heap) (i : ℕ) (c : Cell) (bytes : ℕ → List UInt8) (bytesUsed : ℕ) : Heap :=
  { h.setCell i c with bytes := bytes, bytesUsed := bytesUsed }

@[simp] theorem filled_cells_self (h : Heap) (i : ℕ) (c : Cell) (bytes : ℕ → List UInt8) (m : ℕ) :
    (filled h i c bytes m).cells i = c :=
  Function.update_self _ _ _

/-- `cell_alloc`, the assignments to the new cell, and changes to buffers that
    were not in use before. -/
theorem Grows.fill (hs : Sound env fsl h U) (ha : h.cellAlloc = .ok (i, h')) {c : Cell}
    {bytes : ℕ → List UInt8} {m : ℕ} (hbytes : ∀ b < h'.bytesUsed, bytes b = h'.bytes b)
    (hm : h'.bytesUsed ≤ m) (hum : c.tag &&& tagMark = 0)
    (hkids : ∀ j, (filled h' i c bytes m).Edge i j → j ∈ insert i U) :
    Grows env fsl n h U (filled h' i c bytes m) (insert i U) := by
  obtain ⟨hs', hi⟩ := hs.cellAlloc ha
  obtain ⟨e1, e2, e3, e4, e5, e6⟩ := cellAlloc_same ha
  have hca : ∀ a, a ≠ i → (filled h' i c bytes m).cells a = h'.cells a :=
    fun a hne => Function.update_of_ne hne _ _
  have hs'' : Sound env fsl (filled h' i c bytes m) (insert i U) := by
    refine hs'.write (filled h' i c bytes m) (Set.mem_insert i U) rfl rfl rfl hca ?_ ?_
    · rw [filled_cells_self]; exact hum
    · intro a b hab
      by_cases hai : a = i
      · rw [hai] at hab
        exact Or.inl (hkids b hab)
      · exact Or.inr (edge_congr (hca a hai) rfl rfl rfl hab)
  refine ⟨⟨?_, ?_, ?_, fun k _ => congrFun e5 k, e6⟩, hs'', Set.subset_insert i U⟩
  · intro a ha'
    rw [hca a fun he => hi (he ▸ ha'), e1]
  · intro b hb
    rw [← e3] at hb
    rw [← e2]
    exact hbytes b hb
  · rw [← e3]; exact hm

/-- A cell whose tag has no outgoing pointers. -/
theorem not_edge_of_leaf {j : ℕ} (ht : (h.cells i).tag = tagStr ∨ (h.cells i).tag = tagBytes ∨
    (h.cells i).tag = tagInt) : ¬ h.Edge i j := by
  rintro ⟨ws, hws, hj⟩
  have hnil : h.children i = .ok [] := by
    unfold children
    rcases ht with ht | ht | ht <;> simp [ht]
  obtain rfl := Except.ok.inj (hnil.symm.trans hws)
  exact absurd hj (by simp)

/-- A cons has its two halves as outgoing pointers. -/
theorem edge_of_cons {j : ℕ} {a d : Word} (hc : h.cells i = ⟨a, d, tagCons⟩) (he : h.Edge i j) :
    a = .cell j ∨ d = .cell j := by
  obtain ⟨ws, hws, hj⟩ := he
  have hk : h.children i = .ok [a, d] := by
    unfold children
    simp [hc]
  obtain rfl := Except.ok.inj (hk.symm.trans hws)
  simpa [eq_comm] using hj

/-! ## The constructors -/

/-- `alloc_cons` of words that are `NULL` or usable. -/
theorem Grows.allocCons (hs : Sound env fsl h U) {a d : Word}
    (hw : ∀ j, a = .cell j ∨ d = .cell j → j ∈ U) (ha : h.allocCons a d = .ok (i, h')) :
    Grows env fsl n h U h' (insert i U) ∧ h'.cells i = ⟨a, d, tagCons⟩ := by
  obtain ⟨⟨j, h₁⟩, h1, ha⟩ := bind_ok.mp ha
  obtain ⟨rfl, rfl⟩ := Prod.mk.inj (Except.ok.inj ha)
  refine ⟨Grows.fill hs h1 (fun _ _ => rfl) le_rfl (show tagCons &&& tagMark = 0 by decide) ?_,
    Function.update_self _ _ _⟩
  intro k hk
  exact Set.mem_insert_of_mem _ (hw k (edge_of_cons (Function.update_self _ _ _) hk))

/-- `alloc_nil`. -/
theorem Grows.allocNil (hs : Sound env fsl h U) (ha : h.allocNil = .ok (i, h')) :
    Grows env fsl n h U h' (insert i U) ∧ h'.cells i = ⟨.null, .null, tagCons⟩ := by
  apply Grows.allocCons hs _ ha
  intro j hj
  simp at hj

/-- `alloc_int`. -/
theorem Grows.allocInt (hs : Sound env fsl h U) {v : BitVec 64} (ha : h.allocInt v = .ok (i, h')) :
    Grows env fsl n h U h' (insert i U) ∧ i ∉ U ∧ h'.elems = h.elems ∧ h'.streams = h.streams := by
  obtain ⟨⟨j, h₁⟩, h1, ha⟩ := bind_ok.mp ha
  obtain ⟨rfl, rfl⟩ := Prod.mk.inj (Except.ok.inj ha)
  obtain ⟨-, -, -, e4, e5, -⟩ := cellAlloc_same h1
  have htag : ((h₁.setCell j { h₁.cells j with
      ar := .int (boxInt v), tag := tagInt }).cells j).tag = tagInt := by
    rw [setCell_cells, Function.update_self]
  refine ⟨Grows.fill hs h1 (fun _ _ => rfl) le_rfl (show tagInt &&& tagMark = 0 by decide) ?_,
    (hs.cellAlloc h1).2, e4, e5⟩
  intro k hk
  exact absurd hk (not_edge_of_leaf (Or.inr (Or.inr htag)))

/-- A buffer cell: `bytes_alloc` of a fresh buffer, then the cell. -/
theorem Grows.buffer (hs : Sound env fsl h U) {h₁ h₂ : Heap} {m : ℤ} {b tag : ℕ} (size : Word)
    (data : List UInt8) (h1 : h.cellAlloc = .ok (i, h₁)) (h2 : h₁.bytesAlloc m = .ok (b, h₂))
    (htag : tag = tagStr ∨ tag = tagBytes) :
    Grows env fsl n h U ((h₂.setBytes b data).setCell i ⟨.ptr (.bytes b) 0, size, tag⟩)
      (insert i U) ∧ b < h₂.bytesUsed ∧ h.bytesUsed ≤ b := by
  unfold bytesAlloc at h2
  split at h2
  · exact absurd h2 (by simp)
  · obtain ⟨rfl, rfl⟩ := Prod.mk.inj (Except.ok.inj h2)
    obtain ⟨-, -, e3, -⟩ := cellAlloc_same h1
    refine ⟨Grows.fill hs h1 ?_ (Nat.le_succ _) ?_ ?_, Nat.lt_succ_self _, e3.ge⟩
    · intro k hk
      show Function.update (Function.update h₁.bytes h₁.bytesUsed _) h₁.bytesUsed data k = _
      rw [Function.update_of_ne (by omega), Function.update_of_ne (by omega)]
    · rcases htag with rfl | rfl
      · exact show tagStr &&& tagMark = 0 by decide
      · exact show tagBytes &&& tagMark = 0 by decide
    · intro j hj
      refine absurd hj (not_edge_of_leaf ?_)
      rw [filled_cells_self]
      rcases htag with ht | ht
      · exact Or.inl ht
      · exact Or.inr (Or.inl ht)

/-! ## Strings -/

/-- Cell `i` is a string with the text `t`, in a buffer in use. -/
def HasText (h : Heap) (i : ℕ) (t : List UInt8) : Prop :=
  ∃ b rest size, h.cells i = ⟨.ptr (.bytes b) 0, size, tagStr⟩ ∧ b < h.bytesUsed ∧
    h.bytes b = t ++ 0 :: rest ∧ 0 ∉ t

/-- `HasText`, and the size field counts the terminator. -/
def IsStr (h : Heap) (i : ℕ) (t : List UInt8) : Prop :=
  HasText h i t ∧ (h.cells i).dr = .ofNat (t.length + 1)

theorem cText_of_notMem {t : List UInt8} (h0 : 0 ∉ t) (rest : List UInt8) :
    cText (t ++ 0 :: rest) = t := by
  unfold cText
  rw [List.takeWhile_append_of_pos]
  · simp
  · intro x hx
    exact decide_eq_true fun he => h0 (he ▸ hx)

theorem notMem_cText (s : List UInt8) : 0 ∉ cText s := by
  intro hm
  unfold cText at hm
  have hp := List.all_eq_true.mp List.all_takeWhile 0 hm
  simp at hp

theorem HasText.cString {t : List UInt8} (hi : HasText h i t) :
    Writer.cString h (h.cells i).ar = .ok t := by
  obtain ⟨b, rest, size, hc, -, hb, h0⟩ := hi
  have hm : (0 : UInt8) ∈ t ++ 0 :: rest := by simp
  have ht : (t ++ 0 :: rest).takeWhile (· ≠ 0) = t := cText_of_notMem h0 rest
  rw [hc]
  simp only [Writer.cString, Writer.cStringAt, Int.toNat_zero, List.drop_zero, hb, le_refl, if_true,
    if_pos hm, ht]

theorem HasText.congr {t : List UInt8} (hi : HasText h i t) (hc : h'.cells i = h.cells i)
    (hb : ∀ b < h.bytesUsed, h'.bytes b = h.bytes b) (hu : h.bytesUsed ≤ h'.bytesUsed) :
    HasText h' i t := by
  obtain ⟨b, rest, size, hcell, hlt, hbytes, h0⟩ := hi
  refine ⟨b, rest, size, ?_, lt_of_lt_of_le hlt hu, ?_, h0⟩
  · rw [hc, hcell]
  · rw [hb b hlt, hbytes]

theorem HasText.agrees {t : List UInt8} (hi : HasText h i t) (hU : i ∈ U)
    (hg : Agrees n U h h') : HasText h' i t :=
  hi.congr (hg.cells i hU) hg.bytes hg.bytesUsed

theorem IsStr.agrees {t : List UInt8} (hi : IsStr h i t) (hU : i ∈ U)
    (hg : Agrees n U h h') : IsStr h' i t := by
  refine ⟨hi.1.agrees hU hg, ?_⟩
  rw [hg.cells i hU]
  exact hi.2

/-- `alloc_string_copy`. -/
theorem Grows.allocStringCopy (hs : Sound env fsl h U) {str : List UInt8} (h0 : 0 ∉ str)
    (ha : Compiler.allocStringCopy h str = .ok (i, h')) :
    Grows env fsl n h U h' (insert i U) ∧ IsStr h' i str := by
  obtain ⟨⟨j, h₁⟩, h1, ha⟩ := bind_ok.mp ha
  obtain ⟨⟨b, h₂⟩, h2, ha⟩ := bind_ok.mp ha
  obtain ⟨rfl, rfl⟩ := Prod.mk.inj (Except.ok.inj ha)
  obtain ⟨hg, hlt, -⟩ := Grows.buffer hs (.ofNat (str.length + 1)) (str ++ [0]) h1 h2
    (Or.inl rfl)
  refine ⟨hg, ⟨b, [], .ofNat (str.length + 1), ?_, hlt, ?_, h0⟩, ?_⟩
  · rw [setCell_cells, Function.update_self]
  · rw [setCell_bytes, setBytes_bytes, Function.update_self]
  · rw [setCell_cells, Function.update_self]

theorem toInt32_lt (m : ℕ) : toInt32 m < 2 ^ 31 := by
  unfold toInt32
  have := @BitVec.toInt_lt 32 (BitVec.ofNat 32 m)
  omega

/-- A buffer that `bytes_alloc` returns is shorter than `2 ^ 31`. -/
theorem bytesAlloc_length {m b : ℕ} (ha : h.bytesAlloc (toInt32 m) = .ok (b, h')) :
    (h'.bytes b).length < 2 ^ 31 := by
  unfold bytesAlloc at ha
  split at ha
  · exact absurd ha (by simp)
  · obtain ⟨rfl, rfl⟩ := Prod.mk.inj (Except.ok.inj ha)
    have := toInt32_lt m
    change (Function.update h.bytes h.bytesUsed _ h.bytesUsed).length < 2 ^ 31
    rw [Function.update_self, List.length_replicate]
    omega

/-- `alloc_concat` of two strings. -/
theorem Grows.allocConcat (hs : Sound env fsl h U) {x y : ℕ} {s1 s2 : List UInt8}
    (hx : IsStr h x s1) (hy : IsStr h y s2) (ha : allocConcat h x y = .ok (i, h')) :
    Grows env fsl n h U h' (insert i U) ∧ IsStr h' i (s1 ++ s2) ∧
      (s1 ++ s2).length + 1 < 2 ^ 64 := by
  obtain ⟨⟨j, h₁⟩, h1, ha⟩ := bind_ok.mp ha
  obtain ⟨e1, e2, e3, -⟩ := cellAlloc_same h1
  -- the strings are read after `cell_alloc`, which leaves them alone
  have hread : ∀ {z : ℕ} {t : List UInt8}, IsStr h z t →
      cString h₁ (h₁.cells z).ar = .ok t := by
    intro z t hz
    exact (hz.1.congr (congrFun e1 z) (fun b _ => congrFun e2 b) e3.ge).cString
  obtain ⟨t1, ht1, ha⟩ := bind_ok.mp ha
  obtain ⟨t2, ht2, ha⟩ := bind_ok.mp ha
  obtain rfl := Except.ok.inj ((hread hx).symm.trans ht1)
  obtain rfl := Except.ok.inj ((hread hy).symm.trans ht2)
  obtain ⟨⟨b, h₂⟩, h2, ha⟩ := bind_ok.mp ha
  have hlen := bytesAlloc_length h2
  dsimp only at ha
  split at ha
  · rename_i hfit
    obtain ⟨rfl, rfl⟩ := Prod.mk.inj (Except.ok.inj ha)
    obtain ⟨hg, hlt, -⟩ := Grows.buffer hs (.ofNat (s1.length + s2.length + 1))
      (s1 ++ s2 ++ [0, 0] ++ (h₂.bytes b).drop (s1.length + s2.length + 2)) h1 h2 (Or.inl rfl)
    have h0 : 0 ∉ s1 ++ s2 := by
      obtain ⟨⟨-, -, -, -, -, -, h1⟩, -⟩ := hx
      obtain ⟨⟨-, -, -, -, -, -, h2⟩, -⟩ := hy
      simp [h1, h2]
    refine ⟨hg, ⟨⟨b, 0 :: (h₂.bytes b).drop (s1.length + s2.length + 2),
      .ofNat (s1.length + s2.length + 1), ?_, hlt, ?_, h0⟩, ?_⟩, ?_⟩
    · rw [setCell_cells, Function.update_self]
    · rw [setCell_bytes, setBytes_bytes, Function.update_self]
      simp
    · rw [setCell_cells, Function.update_self, List.length_append]
    · rw [List.length_append]
      omega
  · exact absurd ha (by simp)

/-! ## Contents -/

/-- Cell `i` has the content `c`, in a buffer in use. -/
structure Shows (h : Heap) (i : ℕ) (c : Content) : Prop where
  content : contentOf h (.cell i) = some c
  inUse : ∀ b off, (h.cells i).ar = .ptr (.bytes b) off → b < h.bytesUsed

theorem dataOf_congr {c : Cell} (hb : ∀ b off, c.ar = .ptr (.bytes b) off → h'.bytes b = h.bytes b) :
    dataOf h' c = dataOf h c := by
  unfold dataOf
  split
  · rename_i b off v har hdr
    rw [hb b off har]
  · rfl

theorem Shows.agrees {c : Content} (hsh : Shows h i c) (hU : i ∈ U)
    (hg : Agrees n U h h') : Shows h' i c where
  content := by
    have hd : dataOf h' (h.cells i) = dataOf h (h.cells i) :=
      dataOf_congr fun b off hb => hg.bytes b (hsh.inUse b off hb)
    rw [← hsh.content]
    simp only [contentOf, Word.asCell_cell, hg.cells i hU, hd]
  inUse := by
    rw [hg.cells i hU]
    exact fun b off hb => lt_of_lt_of_le (hsh.inUse b off hb) hg.bytesUsed

theorem IsStr.shows {t : List UInt8} (hi : IsStr h i t) (hlen : t.length + 1 < 2 ^ 64) :
    Shows h i (.str (t ++ [0])) := by
  obtain ⟨⟨b, rest, size, hc, hlt, hb, h0⟩, hdr⟩ := hi
  rw [hc] at hdr
  obtain rfl : size = .ofNat (t.length + 1) := hdr
  have hsize : (BitVec.ofNat 64 (t.length + 1)).toNat = t.length + 1 := by
    rw [BitVec.toNat_ofNat, Nat.mod_eq_of_lt hlen]
  have htake : (t ++ 0 :: rest).take (t.length + 1) = t ++ [0] := by
    rw [List.take_append, List.take_of_length_le (by omega)]
    simp
  constructor
  · simp [contentOf, dataOf, hc, hb, hsize, htake]
  · intro b' off hb'
    rw [hc] at hb'
    cases hb'
    exact hlt

theorem shows_nil (hc : h.cells i = ⟨.null, .null, tagCons⟩) : Shows h i .nil := by
  constructor
  · simp [contentOf, hc]
  · intro b off hb
    rw [hc] at hb
    cases hb

/-- The listing of a directory. -/
theorem Grows.listEntries {nl : ℕ} (names : List (List UInt8)) :
    ∀ {f : ℕ} {t : List UInt8} {h : Heap} {U : Set ℕ} {f' : ℕ} {h' : Heap}, Sound env fsl h U →
      nl ∈ U → f ∈ U → IsStr h nl [10] → IsStr h f t → t.length + 1 < 2 ^ 64 →
      listEntries nl names f h = .ok (f', h') →
      ∃ U', Grows env fsl n h U h' U' ∧ f' ∈ U' ∧
        Shows h' f' (.str (t ++ names.flatMap (fun n => cText n ++ [10]) ++ [0])) := by
  induction names with
  | nil =>
    intro f t h U f' h' hs _ hf _ ht hlen ha
    obtain ⟨rfl, rfl⟩ := Prod.mk.inj (Except.ok.inj ha)
    refine ⟨U, .refl hs, hf, ?_⟩
    simpa using ht.shows hlen
  | cons name names ih =>
    intro f t h U f' h' hs hnl hf hn ht hlen ha
    obtain ⟨⟨d, h₁⟩, h1, ha⟩ := bind_ok.mp ha
    obtain ⟨⟨l, h₂⟩, h2, ha⟩ := bind_ok.mp ha
    obtain ⟨⟨f₁, h₃⟩, h3, ha⟩ := bind_ok.mp ha
    obtain ⟨g₁, hd⟩ := Grows.allocStringCopy (n := n) hs (notMem_cText name) h1
    have hn₁ := hn.agrees hnl g₁.toAgrees
    obtain ⟨g₂, hl, -⟩ := Grows.allocConcat g₁.sound hd hn₁ h2
    have g₁₂ := g₁.trans g₂
    obtain ⟨g₃, hf₁, hlen₁⟩ := Grows.allocConcat g₂.sound (ht.agrees hf g₁₂.toAgrees) hl h3
    have g := g₁₂.trans g₃
    obtain ⟨U', g', hmem, hsh⟩ := ih g₃.sound (g.usable hnl) (Set.mem_insert _ _)
      (hn.agrees hnl g.toAgrees) hf₁ hlen₁ ha
    refine ⟨U', g.trans g', hmem, ?_⟩
    simpa using hsh

theorem readInto_ok {b : ℕ} {off : ℤ} {data : List UInt8}
    (hc : (h.cells i).ar = .ptr (.bytes b) off) (ha : readInto h i data = .ok h') :
    data.length ≤ (h.bytes b).length ∧
      h' = h.setBytes b (data ++ (h.bytes b).drop data.length) := by
  unfold readInto at ha
  rw [hc] at ha
  dsimp only at ha
  split at ha
  · rename_i hfit
    exact ⟨hfit, (Except.ok.inj ha).symm⟩
  · exact absurd ha (by simp)

/-- `alloc_num_bytes` and the `read` into its buffer. -/
theorem Grows.regular (hs : Sound env fsl h U) {data : List UInt8}
    (ha : (h.allocNumBytes data.length >>= fun p => readInto p.2 p.1 data >>= fun h =>
      Except.ok (p.1, h)) = .ok (i, h')) :
    Grows env fsl n h U h' (insert i U) ∧ Shows h' i (.bytes data) := by
  obtain ⟨⟨j, h₂⟩, h2, ha⟩ := bind_ok.mp ha
  obtain ⟨h₃, h3, ha⟩ := bind_ok.mp ha
  obtain ⟨rfl, rfl⟩ := Prod.mk.inj (Except.ok.inj ha)
  obtain ⟨⟨j', h₁⟩, hc, h2⟩ := bind_ok.mp h2
  obtain ⟨⟨b, hb⟩, hb1, h2⟩ := bind_ok.mp h2
  obtain ⟨rfl, rfl⟩ := Prod.mk.inj (Except.ok.inj h2)
  have hlen := bytesAlloc_length hb1
  obtain ⟨hfit, rfl⟩ := readInto_ok (by rw [setCell_cells, Function.update_self]) h3
  obtain ⟨hg, hlt, -⟩ := Grows.buffer hs (.ofNat (toUInt32 data.length))
    (data ++ (hb.bytes b).drop data.length) hc hb1 (Or.inr rfl)
  refine ⟨hg, ?_, ?_⟩
  · rw [setCell_bytes] at hfit
    have hsize : toUInt32 data.length = data.length := toUInt32_of_lt (by omega)
    have hnat : data.length % 18446744073709551616 = data.length := Nat.mod_eq_of_lt (by omega)
    simp [contentOf, dataOf, hsize, hnat]
  · intro b' off hb'
    simp only [setBytes_cells, setCell_cells, Function.update_self] at hb'
    cases hb'
    exact hlt

/-- Whatever the host has under a name, `posixfs_open` makes a cell of it. -/
theorem Grows.loadFile (hs : Sound env fsl h U) {file : HostFile}
    (ha : loadFile h file = .ok (i, h')) :
    ∃ U', Grows env fsl n h U h' U' ∧ i ∈ U' ∧ Shows h' i file.content := by
  cases file with
  | missing =>
    obtain ⟨hg, hi⟩ := Grows.allocStringCopy hs (by decide) ha
    exact ⟨_, hg, Set.mem_insert _ _, hi.shows (by decide)⟩
  | unreadable =>
    obtain ⟨hg, hi⟩ := Grows.allocStringCopy hs (by decide) ha
    exact ⟨_, hg, Set.mem_insert _ _, hi.shows (by decide)⟩
  | regular data =>
    obtain ⟨hg, hi⟩ := Grows.regular hs ha
    exact ⟨_, hg, Set.mem_insert _ _, hi⟩
  | directory names =>
    obtain ⟨⟨nl, h₁⟩, h1, ha⟩ := bind_ok.mp ha
    obtain ⟨⟨f, h₂⟩, h2, ha⟩ := bind_ok.mp ha
    obtain ⟨g₁, hnl⟩ := Grows.allocStringCopy (n := n) hs (by decide) h1
    obtain ⟨g₂, hf⟩ := Grows.allocStringCopy g₁.sound (by simp) h2
    obtain ⟨U', g', hmem, hsh⟩ := Grows.listEntries names g₂.sound
      (Set.mem_insert_of_mem _ (Set.mem_insert _ _)) (Set.mem_insert _ _)
      (hnl.agrees (Set.mem_insert _ _) g₂.toAgrees) hf (by simp) ha
    exact ⟨U', (g₁.trans g₂).trans g', hmem, hsh⟩

end Interim.Hosted
