import Interim.Reader.Simulation

/-!
# `read_char` follows the abstract reader

`readChar_sim` shows that every character keeps the reader's invariant, for
every state and every character class, and counts the cells allocated. The
token buffers are the delicate part: a buffer is doubled when the next index
would come within one byte of its size (`growWhen_spec`), so a store is always
inside the buffer last grown.

Results:

* `readChars_sim`: whole texts.
* `readString_sim`: what `read_string` returns.
-/

namespace Interim.Reader

open Heap

/-! ## Buffer contents -/

theorem filled_length {s : List UInt8} {k : ℕ} (hs : s.length ≤ 2 ^ k + 1) :
    (filled s k).length = 2 ^ k + 1 := by
  simp [filled]; omega

/-- The terminating zero of a text buffer. -/
theorem filled_eq_append_zero {s : List UInt8} {k : ℕ} (hs : s.length ≤ 2 ^ k) :
    ∃ rest, filled s k = s ++ 0 :: rest := by
  refine ⟨List.replicate (2 ^ k - s.length) 0, ?_⟩
  rw [filled, ← List.replicate_succ]
  congr 2
  omega

/-- Storing the next character. -/
theorem filled_set_append {s : List UInt8} {k : ℕ} (hs : s.length ≤ 2 ^ k) (x : UInt8) :
    (filled s k).set s.length x = filled (s ++ [x]) k := by
  obtain ⟨n, hn⟩ : ∃ n, 2 ^ k + 1 - s.length = n + 1 := ⟨2 ^ k - s.length, by omega⟩
  have hn' : 2 ^ k + 1 - (s ++ [x]).length = n := by simp; omega
  rw [filled, filled, hn, hn', List.set_append_right _ _ le_rfl, Nat.sub_self, List.replicate_succ,
    List.set_cons_zero, List.append_assoc]
  rfl

/-- Changing the last character. -/
theorem filled_set_last (s : List UInt8) (k : ℕ) (x y : UInt8) :
    (filled (s ++ [x]) k).set s.length y = filled (s ++ [y]) k := by
  simp [filled]

theorem filled_getD_last (s : List UInt8) (k : ℕ) (x : UInt8) :
    (filled (s ++ [x]) k).getD s.length 0 = x := by
  simp [filled]

theorem filled_getD_zero {s : List UInt8} {k : ℕ} {x : UInt8} (hs : s.head? = some x) :
    (filled s k).getD 0 0 = x := by
  cases s with
  | nil => cases hs
  | cons y s =>
    obtain rfl : y = x := Option.some.inj hs
    rfl

/-- `cell_realloc` and the `memset` after it, on contents: the text survives
    and everything behind it is zero. -/
theorem filled_grow {s : List UInt8} {k : ℕ} (hs : s.length ≤ 2 ^ k) :
    (filled s k).take (2 ^ k) ++ List.replicate (2 ^ (k + 1) + 1 - 2 ^ k) 0 = filled s (k + 1) := by
  have hpow : 2 ^ (k + 1) = 2 * 2 ^ k := by ring
  rw [filled, filled, List.take_append, List.take_of_length_le hs, List.take_replicate,
    List.append_assoc, ← List.replicate_add]
  congr 2
  omega

theorem filled_memset {s : List UInt8} {k : ℕ} (hs : s.length ≤ 2 ^ k) :
    (filled s (k + 1)).take (2 ^ k) ++ List.replicate (2 ^ k) 0 ++
      (filled s (k + 1)).drop (2 ^ k + 2 ^ k) = filled s (k + 1) := by
  have hpow : 2 ^ (k + 1) = 2 * 2 ^ k := by ring
  have hpos : 0 < 2 ^ k := by positivity
  rw [filled, List.take_append, List.take_of_length_le hs, List.take_replicate, List.drop_append,
    List.drop_eq_nil_of_le (by omega), List.nil_append, List.drop_replicate, List.append_assoc,
    List.append_assoc, ← List.replicate_add, ← List.replicate_add]
  congr 2
  omega

/-! ## Hex digits -/

theorem pack_length : ∀ ns : List ℕ, (pack ns).length = ns.length / 2
  | [] => rfl
  | [_] => by simp [pack]
  | _ :: _ :: ns => by simp only [pack, List.length_cons, pack_length ns]; omega

theorem packAll_length : ∀ ns : List ℕ, (packAll ns).length = (ns.length + 1) / 2
  | [] => rfl
  | [_] => by simp [packAll]
  | _ :: _ :: ns => by simp only [packAll, List.length_cons, packAll_length ns]; omega

/-- The bytes a literal denotes start its buffer. -/
theorem packAll_eq_append : ∀ ns : List ℕ, ∃ rest, packAll ns = pack ns ++ rest
  | [] => ⟨[], rfl⟩
  | [a] => ⟨[UInt8.ofNat (16 * a)], rfl⟩
  | a :: b :: ns => by
    obtain ⟨rest, hrest⟩ := packAll_eq_append ns
    exact ⟨rest, by simp [pack, packAll, hrest]⟩

/-- An even digit starts a byte. -/
theorem packAll_even : ∀ (ns : List ℕ) (n : ℕ), ns.length % 2 = 0 →
    packAll (ns ++ [n]) = packAll ns ++ [UInt8.ofNat (16 * n)]
  | [], _, _ => rfl
  | [_], _, h => absurd h (by simp)
  | a :: b :: ns, n, h => by
    have ih := packAll_even ns n (by simp only [List.length_cons] at h; omega)
    simp [packAll, ih]

/-- An odd digit completes the last byte. -/
theorem packAll_odd : ∀ (ns : List ℕ) (n : ℕ), ns.length % 2 = 1 →
    ∃ (init : List UInt8) (a : ℕ), a ∈ ns ∧ packAll ns = init ++ [UInt8.ofNat (16 * a)] ∧
      packAll (ns ++ [n]) = init ++ [UInt8.ofNat (16 * a + n)]
  | [], _, h => absurd h (by simp)
  | [a], n, _ => ⟨[], a, by simp, rfl, rfl⟩
  | a :: b :: ns, n, h => by
    obtain ⟨init, e, he, h₁, h₂⟩ :=
      packAll_odd ns n (by simp only [List.length_cons] at h; omega)
    exact ⟨UInt8.ofNat (16 * a + b) :: init, e, by simp [he], by simp [packAll, h₁],
      by simp [packAll, h₂]⟩

/-- `|=` adds the low half. -/
theorem or_nibble {a n : ℕ} (ha : a < 16) (hn : n < 16) :
    UInt8.ofNat (16 * a) ||| UInt8.ofNat n = UInt8.ofNat (16 * a + n) := by
  interval_cases a <;> interval_cases n <;> rfl

theorem shift_nibble (n : ℕ) : n <<< 4 = 16 * n := by
  rw [Nat.shiftLeft_eq, Nat.mul_comm]

/-! ## Growing a buffer -/

section Buffer

variable {rs : ReaderState} {h h' : Heap} {a a' : AbsState} {S S' : Set Block} {cs : List ℕ}
  {c v b k tag : ℕ} {os : List (List ℕ × ℕ)} {s : List UInt8} {d : Datum}

theorem toNat_size (hk : k ≤ 30) : (BitVec.ofNat 64 (2 ^ k)).toNat = 2 ^ k := by
  have : 2 ^ k ≤ 2 ^ 30 := Nat.pow_le_pow_right (by omega) hk
  rw [BitVec.toNat_ofNat, Nat.mod_eq_of_lt (by omega)]

theorem two_mul_size (k : ℕ) : 2 * BitVec.ofNat 64 (2 ^ k) = BitVec.ofNat 64 (2 ^ (k + 1)) := by
  rw [pow_succ, Nat.mul_comm, BitVec.ofNat_mul]
  rfl

theorem toNat_size_sub_one (hk : k ≤ 30) : (BitVec.ofNat 64 (2 ^ k) - 1).toNat = 2 ^ k - 1 := by
  have h1 : 2 ^ k ≤ 2 ^ 30 := Nat.pow_le_pow_right (by omega) hk
  have h0 : 0 < 2 ^ k := by positivity
  have := toNat_size hk
  bv_omega

theorem toNat_half_size_sub_one (hl : 5 ≤ k) (hk : k ≤ 30) :
    (BitVec.ofNat 64 (2 ^ k) / 2 - 1).toNat = 2 ^ k / 2 - 1 := by
  have h1 : 2 ^ k ≤ 2 ^ 30 := Nat.pow_le_pow_right (by omega) hk
  have h0 : 2 ^ 5 ≤ 2 ^ k := Nat.pow_le_pow_right (by omega) hl
  have := toNat_size hk
  have hdiv : (BitVec.ofNat 64 (2 ^ k) / 2).toNat = 2 ^ k / 2 := by
    rw [BitVec.toNat_udiv, this]; rfl
  bv_omega

/-- `cell_realloc` of a token buffer and the clearing of its second half. -/
theorem growBuffer_spec (hok : h.FreeListOk) (hB : Buffer h S c os tag v b k s)
    (hs : s.length ≤ 2 ^ k) (hk : k < 30) :
    ∃ b' h', growBuffer h v = .ok h' ∧ Keeps {v} ∅ h h' ∧ h'.room = h.room ∧
      h.bytesUsed ≤ b' ∧ b' < h'.bytesUsed ∧
      h'.cells v = ⟨.ptr (.bytes b') 0, .ofNat (2 ^ (k + 1)), tag⟩ ∧
      h'.bytes b' = filled s (k + 1) := by
  have hpow : 2 ^ (k + 1) = 2 * 2 ^ k := by ring
  have hle : 2 ^ k ≤ 2 ^ 29 := Nat.pow_le_pow_right (by omega) (by omega)
  have hsize : toInt32 (toUInt32 (toUInt32 (2 ^ (k + 1)) + 1)) = (2 ^ (k + 1) + 1 : ℕ) := by
    rw [toUInt32_of_lt (show 2 ^ (k + 1) < 2 ^ 32 by omega), toUInt32_of_lt (by omega),
      toInt32_of_lt (by omega)]
  have hlen : (h.bytes b).length = 2 ^ k + 1 := by rw [hB.contents, filled_length (by omega)]
  set nb := h.bytesUsed with hnb
  -- the heap after `bytes_alloc`
  set h₁ : Heap := { h with
    bytes := Function.update h.bytes nb (List.replicate (2 ^ (k + 1) + 1) 0), bytesUsed := nb + 1 }
    with hh₁
  have halloc : h.bytesAlloc (2 ^ (k + 1) + 1 : ℕ) = .ok (nb, h₁) := by
    rw [bytesAlloc, if_neg (by omega), Int.toNat_natCast]
  have hnew : h₁.bytes nb = List.replicate (2 ^ (k + 1) + 1) 0 := Function.update_self _ _ _
  have hrealloc : h.cellRealloc b (2 ^ k) (2 ^ (k + 1)) =
      .ok (nb, h₁.setBytes nb (filled s (k + 1))) := by
    rw [cellRealloc, hsize, halloc]
    change (if _ then _ else _) = _
    rw [toUInt32_of_lt (show 2 ^ k < 2 ^ 32 by omega), hnew, if_pos (by simp [hlen]; omega),
      hB.contents, List.drop_replicate, filled_grow hs]
  have hmem : memsetZero (h₁.setBytes nb (filled s (k + 1))) nb (2 ^ k) (2 ^ k) =
      .ok ((h₁.setBytes nb (filled s (k + 1))).setBytes nb (filled s (k + 1))) := by
    simp only [memsetZero, setBytes_bytes, Function.update_self]
    rw [if_pos (by rw [filled_length (by omega)]; omega), filled_memset hs]
  set h₂ := (h₁.setBytes nb (filled s (k + 1))).setBytes nb (filled s (k + 1)) with hh₂
  refine ⟨nb, h₂.setCell v ⟨.ptr (.bytes nb) 0, .ofNat (2 ^ (k + 1)), tag⟩, ?_, ?_, rfl, le_rfl,
    Nat.lt_succ_self _, ?_, ?_⟩
  · have hv : h₂.cells v = h.cells v := rfl
    unfold growBuffer
    rw [hB.cell]
    dsimp only
    rw [toNat_size hB.upper, two_mul_size, toNat_size (by omega), hrealloc]
    change (memsetZero _ nb _ _ >>= _) = _
    rw [hmem]
    change Except.ok (h₂.setCell v _) = _
    rw [hv, hB.cell]
  · have hk₂ : Keeps {v} ∅ h h₂ :=
      { cells := fun _ _ _ => rfl
        bytes := by
          intro j hj _
          have hne : j ≠ nb := by omega
          simp [hh₂, hh₁, hne]
        supply := subset_rfl
        freeListOk := ⟨hok.nodup, hok.below⟩
        bytesUsed := Nat.le_succ _ }
    exact hk₂.trans (Keeps.setCell hk₂.freeListOk (Set.mem_singleton v) _)
  · rw [setCell_cells, Function.update_self]
  · rw [setCell_bytes, hh₂, setBytes_bytes, Function.update_self]

/-- Changing the value cell and its buffer keeps the list structure. -/
theorem Core.keepsValue (hc : Core rs h a S cs c os) (hv : Fresh h S c os v)
    (hb : .bytes b ∉ S) (hk : Keeps {v} {b} h h') : Core rs h' a S cs c os := by
  have hcv : c ≠ v := by rintro rfl; exact hv.notOpen (by simp)
  refine hc.keeps hk ?_ (by rintro _ rfl; exact hb) ?_
  · rintro i rfl
    exact ⟨hv.notIn, fun hm => hv.notOpen (by simp [hm])⟩
  · rw [hk.cells c (hc.openFresh c (by simp)).2 hcv]; exact hc.tag

/-- The `grow buffer` blocks: afterwards the cell has a buffer that contains
    the same text, twice as large if it had to grow. -/
theorem Buffer.growWhen (hc : Core rs h a S cs c os) (hB : Buffer h S c os tag v b k s)
    (hs : s.length ≤ 2 ^ k) (need : Bool) (hneed : need = true → k < 30) :
    ∃ b' k' h', growWhen need h v = .ok h' ∧ h'.room = h.room ∧ Core rs h' a S cs c os ∧
      Buffer h' S c os tag v b' k' s ∧ k' = if need then k + 1 else k := by
  cases need with
  | false => exact ⟨b, k, h, rfl, rfl, hc, hB, rfl⟩
  | true =>
    have hk := hneed rfl
    obtain ⟨b', h', hgrow, hkeep, hrm, hbold, hbnew, hcell, hbuf⟩ :=
      growBuffer_spec hc.freeListOk hB hs hk
    have hcv : c ≠ v := by rintro rfl; exact hB.fresh.notOpen (by simp)
    have hcc : h'.cells c = h.cells c := hkeep.cells c (hc.openFresh c (by simp)).2 hcv
    have hb'S : .bytes b' ∉ S := fun hm => absurd (hc.bytesOld b' hm) (by omega)
    refine ⟨b', k + 1, h', hgrow, hrm,
      hc.keepsValue hB.fresh hb'S (hkeep.weaken subset_rfl (Set.empty_subset _)), ?_, rfl⟩
    exact
      { ar := by rw [hcc]; exact hB.ar
        cell := hcell
        fresh := ⟨hB.fresh.notIn, fun hsup => hB.fresh.notSupply (hkeep.supply hsup),
          hB.fresh.notOpen⟩
        old := hbnew
        notIn := hb'S
        lower := by have := hB.lower; omega
        upper := by omega
        contents := hbuf }

/-- A store into the token buffer. -/
theorem Buffer.store (hc : Core rs h a S cs c os) (hB : Buffer h S c os tag v b k s)
    (hs : s.length ≤ 2 ^ k) (idx : ℕ) (hidx : idx ≤ 2 ^ k) (f : UInt8 → UInt8) {s' : List UInt8}
    (hset : (filled s k).set idx (f ((filled s k).getD idx 0)) = filled s' k) :
    ∃ h', storeToken h v idx f = .ok h' ∧ h'.room = h.room ∧ Core rs h' a S cs c os ∧
      Buffer h' S c os tag v b k s' := by
  have hlen : idx < (h.bytes b).length := by rw [hB.contents, filled_length (by omega)]; omega
  refine ⟨h.setBytes b (filled s' k), ?_, rfl, hc.keepsValue hB.fresh hB.notIn
    (Keeps.setBytes hc.freeListOk (Set.mem_singleton b) _), ?_⟩
  · unfold storeToken
    rw [hB.cell]
    dsimp only
    rw [storeByte, if_pos hlen, hB.contents, hset]
  · exact { hB with
      fresh := ⟨hB.fresh.notIn, hB.fresh.notSupply, hB.fresh.notOpen⟩
      contents := by rw [setBytes_bytes, Function.update_self] }

/-- The blocks of a complete token join the finished data. -/
theorem Core.complete (hc : Core rs h a S cs c os) (har : (h.cells c).ar = .cell v)
    (hv : Fresh h S c os v) (hb : b < h.bytesUsed)
    (hrep : Rep h (insert (.cell v) (insert (.bytes b) S)) (.cell v) d) : Complete h S c os d := by
  refine ⟨insert (.cell v) (insert (.bytes b) S),
    (Set.subset_insert _ _).trans (Set.subset_insert _ _), ?_, ?_, by rw [har]; exact hrep⟩
  · rintro i (hm | hm | hm)
    · injection hm with hm
      subst hm
      exact ⟨hv.notSupply, hv.notOpen⟩
    · cases hm
    · exact ⟨hc.cellsOld i hm, fun ho => (hc.openFresh i ho).1 hm⟩
  · rintro i (hm | hm | hm)
    · cases hm
    · injection hm with hm
      subst hm
      exact hb
    · exact hc.bytesOld i hm

theorem IntCell.complete {x : BitVec 64} (hc : Core rs h a S cs c os)
    (hi : IntCell h S c os v x) : Complete h S c os (.int x) := by
  refine ⟨insert (.cell v) S, Set.subset_insert _ _, ?_, hc.insertBytesOld v, ?_⟩
  · rintro i (hm | hm)
    · injection hm with hm
      subst hm
      exact ⟨hi.fresh.notSupply, hi.fresh.notOpen⟩
    · exact ⟨hc.cellsOld i hm, fun ho => (hc.openFresh i ho).1 hm⟩
  · rw [hi.ar]
    exact Rep.int (Set.mem_insert _ _) hi.tag hi.value

theorem Buffer.completeSym (hc : Core rs h a S cs c os) (hB : Buffer h S c os tagSym v b k s)
    (hs : s.length ≤ 2 ^ k) : Complete h S c os (.sym s) := by
  obtain ⟨rest, hrest⟩ := filled_eq_append_zero hs
  refine hc.complete hB.ar hB.fresh hB.old
    (Rep.sym (Set.mem_insert _ _) (by simp) ?_ ?_ (hB.contents.trans hrest))
  · rw [hB.cell]
  · rw [hB.cell]

/-- Setting `dr.size` of the value cell when a string or byte literal ends. -/
theorem Buffer.setSize (hc : Core rs h a S cs c os) (hB : Buffer h S c os tag v b k s) (n : ℕ)
    (hrep : ∀ h' : Heap, h'.cells v = ⟨.ptr (.bytes b) 0, .ofNat n, tag⟩ →
      h'.bytes b = filled s k → Rep h' (insert (.cell v) (insert (.bytes b) S)) (.cell v) d) :
    Core rs (setDr h v (.ofNat n)) a S cs c os ∧ Complete (setDr h v (.ofNat n)) S c os d := by
  have hcv : c ≠ v := by rintro rfl; exact hB.fresh.notOpen (by simp)
  have hk : Keeps {v} {b} h (setDr h v (.ofNat n)) :=
    Keeps.setCell hc.freeListOk (Set.mem_singleton v) _
  have hc' := hc.keepsValue hB.fresh hB.notIn hk
  have hcell : (setDr h v (.ofNat n)).cells v = ⟨.ptr (.bytes b) 0, .ofNat n, tag⟩ := by
    rw [setDr, setCell_cells, Function.update_self, hB.cell]
  have har : ((setDr h v (.ofNat n)).cells c).ar = .cell v := by
    rw [setDr, setCell_cells, Function.update_of_ne hcv, hB.ar]
  exact ⟨hc', hc'.complete har ⟨hB.fresh.notIn, hB.fresh.notSupply, hB.fresh.notOpen⟩ hB.old
    (hrep _ hcell hB.contents)⟩

theorem Buffer.completeStr (hc : Core rs h a S cs c os) (hB : Buffer h S c os tagStr v b k s)
    (hs : s.length ≤ 2 ^ k) : Core rs (setDr h v (.ofNat s.length)) a S cs c os ∧
      Complete (setDr h v (.ofNat s.length)) S c os (.str s) := by
  obtain ⟨rest, hrest⟩ := filled_eq_append_zero hs
  refine hB.setSize hc s.length fun h' hcell hbuf => ?_
  refine Rep.str (Set.mem_insert _ _) (by simp) ?_ ?_ ?_ (hbuf.trans hrest)
  · rw [hcell]
  · rw [hcell]
  · rw [hcell]

theorem Buffer.completeBytes {ns : List ℕ} (hc : Core rs h a S cs c os)
    (hB : Buffer h S c os tagBytes v b k (packAll ns)) :
    Core rs (setDr h v (.ofNat (ns.length / 2))) a S cs c os ∧
      Complete (setDr h v (.ofNat (ns.length / 2))) S c os (.bytes (pack ns)) := by
  obtain ⟨rest, hrest⟩ := packAll_eq_append ns
  refine hB.setSize hc (ns.length / 2) fun h' hcell hbuf => ?_
  have hcontents : h'.bytes b =
      pack ns ++ (rest ++ List.replicate (2 ^ k + 1 - (packAll ns).length) 0) := by
    rw [hbuf, filled, ← List.append_assoc, ← hrest]
  refine Rep.bytes (Set.mem_insert _ _) (by simp) ?_ ?_ ?_ hcontents
  · rw [hcell]
  · rw [hcell]
  · rw [hcell, pack_length]

/-! ## Appending to a token -/

/-- The `append` block of symbols and strings. -/
theorem Buffer.appendChar (hc : Core rs h a S cs c os) (hB : Buffer h S c os tag v b k s)
    (hlen : rs.symLen = s.length) (hs : s.length + 1 < 2 ^ k) (hfit : s.length + 1 ≤ 2 ^ 30 - 2)
    (x : UInt8) :
    ∃ b' k' h', appendChar x c rs h = .ok ({ rs with symLen := s.length + 1 }, h') ∧
      h'.room = h.room ∧ Core rs h' a S cs c os ∧ Buffer h' S c os tag v b' k' (s ++ [x]) ∧
      s.length + 2 < 2 ^ k' ∧ k' = if s.length + 1 ≥ 2 ^ k - 1 then k + 1 else k := by
  have hsize := toNat_size_sub_one hB.upper
  set need : Bool := decide (s.length + 1 ≥ (BitVec.ofNat 64 (2 ^ k) - 1).toNat) with hneed
  have hk : need = true → k < 30 := by
    intro hn
    have hge : s.length + 1 ≥ 2 ^ k - 1 := by rw [← hsize]; exact of_decide_eq_true hn
    by_contra hcon
    have hk30 : k = 30 := by have := hB.upper; omega
    rw [hk30] at hge
    omega
  obtain ⟨b', k', h₁, hgrow, hrm₁, hc₁, hB₁, hk'⟩ := hB.growWhen hc (by omega) need hk
  have hlt : s.length + 2 < 2 ^ k' := by
    cases hn : need with
    | false =>
      have hlt' : ¬ s.length + 1 ≥ 2 ^ k - 1 := by rw [← hsize]; exact of_decide_eq_false hn
      rw [hk', hn, if_neg (by simp)]
      omega
    | true =>
      have h0 : 2 ^ 5 ≤ 2 ^ k := Nat.pow_le_pow_right (by omega) hB.lower
      rw [hk', hn, if_pos rfl, pow_succ]
      omega
  obtain ⟨h₂, hstore, hrm₂, hc₂, hB₂⟩ := hB₁.store hc₁ (by omega) s.length (by omega)
    (fun _ => x) (filled_set_append (by omega) x)
  have hsize' : k' = if s.length + 1 ≥ 2 ^ k - 1 then k + 1 else k := by
    rw [hk', hneed, hsize]
    simp only [decide_eq_true_eq]
  refine ⟨b', k', h₂, ?_, hrm₂.trans hrm₁, hc₂, hB₂, hlt, hsize'⟩
  unfold Reader.appendChar
  rw [hB.ar, hlen, toUInt32_of_lt (by omega)]
  change (sizeOf h v >>= _) = _
  rw [sizeOf, hB.cell]
  change (Reader.growWhen need h v >>= _) = _
  rw [hgrow]
  change (storeToken h₁ v s.length _ >>= _) = _
  rw [hstore]
  rfl

/-- The hex digit block. -/
theorem Buffer.appendNibble {ns : List ℕ} (hc : Core rs h a S cs c os)
    (hB : Buffer h S c os tagBytes v b k (packAll ns)) (hlen : rs.symLen = ns.length)
    (hs : ns.length + 1 < 2 ^ k / 2) (hns : ∀ n ∈ ns, n < 16)
    (hfit : ns.length + 1 ≤ 2 ^ 29 - 2) {x : UInt8} (hx : hexVal x < 16) :
    ∃ b' k' h', appendNibble x c rs h = .ok ({ rs with symLen := ns.length + 1 }, h') ∧
      h'.room = h.room ∧ Core rs h' a S cs c os ∧
      Buffer h' S c os tagBytes v b' k' (packAll (ns ++ [hexVal x])) ∧
      ns.length + 2 < 2 ^ k' / 2 ∧ k' = if ns.length + 1 ≥ 2 ^ k / 2 - 1 then k + 1 else k := by
  have hsize := toNat_half_size_sub_one hB.lower hB.upper
  have h0 : 2 ^ 5 ≤ 2 ^ k := Nat.pow_le_pow_right (by omega) hB.lower
  set need : Bool := decide (ns.length + 1 ≥ (BitVec.ofNat 64 (2 ^ k) / 2 - 1).toNat) with hneed
  have hk : need = true → k < 30 := by
    intro hn
    have hge : ns.length + 1 ≥ 2 ^ k / 2 - 1 := by rw [← hsize]; exact of_decide_eq_true hn
    by_contra hcon
    have hk30 : k = 30 := by have := hB.upper; omega
    rw [hk30] at hge
    omega
  have hpl := packAll_length ns
  obtain ⟨b', k', h₁, hgrow, hrm₁, hc₁, hB₁, hk'⟩ := hB.growWhen hc (by omega) need hk
  have hlt : ns.length + 2 < 2 ^ k' / 2 := by
    cases hn : need with
    | false =>
      have hlt' : ¬ ns.length + 1 ≥ 2 ^ k / 2 - 1 := by rw [← hsize]; exact of_decide_eq_false hn
      rw [hk', hn, if_neg (by simp)]
      omega
    | true =>
      rw [hk', hn, if_pos rfl, pow_succ]
      omega
  have hset : (filled (packAll ns) k').set (ns.length / 2)
      ((fun old => if ns.length % 2 = 0 then UInt8.ofNat (hexVal x <<< 4)
        else old ||| UInt8.ofNat (hexVal x)) ((filled (packAll ns) k').getD (ns.length / 2) 0)) =
      filled (packAll (ns ++ [hexVal x])) k' := by
    dsimp only
    by_cases he : ns.length % 2 = 0
    · have hi : ns.length / 2 = (packAll ns).length := by omega
      rw [if_pos he, hi, shift_nibble, filled_set_append (by omega), packAll_even ns _ he]
    · obtain ⟨init, e, hmem, h₁, h₂⟩ := packAll_odd ns (hexVal x) (by omega)
      have hi : ns.length / 2 = init.length := by
        rw [h₁, List.length_append] at hpl
        simp at hpl
        omega
      rw [if_neg he, h₁, h₂, hi, filled_getD_last, or_nibble (hns e hmem) hx, filled_set_last]
  obtain ⟨h₂, hstore, hrm₂, hc₂, hB₂⟩ := hB₁.store hc₁ (by omega) (ns.length / 2) (by omega)
    (fun old => if ns.length % 2 = 0 then UInt8.ofNat (hexVal x <<< 4)
      else old ||| UInt8.ofNat (hexVal x)) hset
  have hsize' : k' = if ns.length + 1 ≥ 2 ^ k / 2 - 1 then k + 1 else k := by
    rw [hk', hneed, hsize]
    simp only [decide_eq_true_eq]
  refine ⟨b', k', h₂, ?_, hrm₂.trans hrm₁, hc₂, hB₂, hlt, hsize'⟩
  unfold Reader.appendNibble
  rw [hB.ar, hlen, toUInt32_of_lt (by omega)]
  change (sizeOf h v >>= _) = _
  rw [sizeOf, hB.cell]
  change (Reader.growWhen need h v >>= _) = _
  rw [hgrow]
  change (storeToken h₁ v (ns.length / 2) _ >>= _) = _
  rw [hstore]
  rfl

end Buffer

/-! ## One character -/

section Step

variable {rs : ReaderState} {h h' : Heap} {a a' : AbsState} {S : Set Block} {cs : List ℕ}
  {c v b : ℕ} {os : List (List ℕ × ℕ)} {x : UInt8}

/-- A new value cell `v`, perhaps with a buffer `b`, put into the current
    cell. -/
theorem Core.attach (hc : Core rs h a S cs c os) (hv : v ∈ h.Supply) (hb : h.bytesUsed ≤ b)
    (hk : Keeps {c, v} {b} h h') (htag : (h'.cells c).tag = tagCons) :
    Core rs h' a S cs c os := by
  refine hc.keeps hk ?_ ?_ htag
  · rintro i (rfl | rfl)
    · exact ⟨(hc.openFresh i (by simp)).1, (List.nodup_cons.mp hc.nodup).1⟩
    · exact ⟨fun hm => hc.cellsOld i hm hv, fun hm => (hc.openFresh i (by simp [hm])).2 hv⟩
  · rintro i rfl hm
    exact absurd (hc.bytesOld i hm) (by omega)

/-- A digit starts a number. -/
theorem Core.startNum (hc : Core rs h a S cs c os) (hroom : 0 < h.room) (n : ℕ) :
    ∃ v h₁, h.allocInt 0 = .ok (v, h₁) ∧
      Core rs (setAr (setAr h₁ v (.ofNat n)) c (.cell v)) a S cs c os ∧
      IntCell (setAr (setAr h₁ v (.ofNat n)) c (.cell v)) S c os v (BitVec.ofNat 64 n) ∧
      h.room = h₁.room + 1 := by
  obtain ⟨v, h₁, hal, hk₁, hin, hout, hv, hrm⟩ := allocCell_spec hc.freeListOk hroom
    fun c => { c with ar := .int (boxInt 0), tag := tagInt }
  have hcv : c ≠ v := by rintro rfl; exact (hc.openFresh c (by simp)).2 hin
  have hcell : h₁.cells c = h.cells c :=
    hk₁.cells c (hc.openFresh c (by simp)).2 (Set.notMem_empty c)
  have hk₂ : Keeps {c, v} {h.bytesUsed} h₁ (setAr h₁ v (.ofNat n)) :=
    Keeps.setCell hk₁.freeListOk (by simp) _
  have hk : Keeps {c, v} {h.bytesUsed} h (setAr (setAr h₁ v (.ofNat n)) c (.cell v)) :=
    ((hk₁.weaken (Set.empty_subset _) (Set.empty_subset _)).trans hk₂).trans
      (Keeps.setCell hk₂.freeListOk (by simp) _)
  refine ⟨v, h₁, hal, hc.attach hin le_rfl hk ?_, ?_, hrm⟩
  · simp [setAr, hcv, hcell, hc.tag]
  · exact
      { ar := by simp [setAr]
        tag := by simp [setAr, hcv.symm, hv]
        value := by simp [setAr, hcv.symm]
        fresh := hc.fresh hin hout }

/-- A string or byte literal starts with an empty buffer. -/
theorem Core.startBuffer (hc : Core rs h a S cs c os) (hroom : 0 < h.room) (tag : ℕ) :
    ∃ v b h₁, h.allocBuffer tag symInitBufferSize = .ok (v, h₁) ∧
      Core rs (setAr h₁ c (.cell v)) a S cs c os ∧
      Buffer (setAr h₁ c (.cell v)) S c os tag v b 5 [] ∧ h.room = h₁.room + 1 := by
  obtain ⟨v, b, h₁, hal, hk₁, hin, hout, hbold, hbnew, hv, hbuf, hrm⟩ :=
    allocBuffer_spec hc.freeListOk hroom tag (n := symInitBufferSize) (by decide)
  have hcv : c ≠ v := by rintro rfl; exact (hc.openFresh c (by simp)).2 hin
  have hcell : h₁.cells c = h.cells c :=
    hk₁.cells c (hc.openFresh c (by simp)).2 (Set.notMem_empty c)
  have hk : Keeps {c, v} {b} h (setAr h₁ c (.cell v)) :=
    (hk₁.weaken (Set.empty_subset _) (Set.empty_subset _)).trans
      (Keeps.setCell hk₁.freeListOk (by simp) _)
  refine ⟨v, b, h₁, hal, hc.attach hin hbold hk ?_, ?_, hrm⟩
  · simp [setAr, hcell, hc.tag]
  · exact
      { ar := by simp [setAr]
        cell := by simp [setAr, hcv.symm, hv]
        fresh := hc.fresh hin hout
        old := hbnew
        notIn := fun hm => absurd (hc.bytesOld b hm) (by omega)
        lower := le_rfl
        upper := by decide
        contents := hbuf }

/-- Any other character starts a symbol. -/
theorem Core.startSym (hc : Core rs h a S cs c os) (hroom : 0 < h.room) (x : UInt8) :
    ∃ v b h₁ h₂, h.allocNumBytes symInitBufferSize = .ok (v, h₁) ∧
      storeToken (h₁.setCell v { h₁.cells v with tag := tagSym }) v 0 (fun _ => x) = .ok h₂ ∧
      Core rs (setAr (setDr h₂ v (.ofNat symInitBufferSize)) c (.cell v)) a S cs c os ∧
      Buffer (setAr (setDr h₂ v (.ofNat symInitBufferSize)) c (.cell v)) S c os tagSym v b 5 [x] ∧
      h.room = h₂.room + 1 := by
  obtain ⟨v, b, h₁, hal, hk₁, hin, hout, hbold, hbnew, hv, hbuf, hrm⟩ :=
    allocBuffer_spec hc.freeListOk hroom tagBytes (n := symInitBufferSize) (by decide)
  have hcv : c ≠ v := by rintro rfl; exact (hc.openFresh c (by simp)).2 hin
  have hcell : h₁.cells c = h.cells c :=
    hk₁.cells c (hc.openFresh c (by simp)).2 (Set.notMem_empty c)
  set h₁' := h₁.setCell v { h₁.cells v with tag := tagSym } with hh₁'
  have hk₁' : Keeps {c, v} {b} h₁ h₁' := Keeps.setCell hk₁.freeListOk (by simp) _
  have hk₂ : Keeps {c, v} {b} h₁' (h₁'.setBytes b (filled [x] 5)) :=
    Keeps.setBytes hk₁'.freeListOk (by simp) _
  have hk₃ : Keeps {c, v} {b} (h₁'.setBytes b (filled [x] 5))
      (setDr (h₁'.setBytes b (filled [x] 5)) v (.ofNat symInitBufferSize)) :=
    Keeps.setCell hk₂.freeListOk (by simp) _
  have hk : Keeps {c, v} {b} h
      (setAr (setDr (h₁'.setBytes b (filled [x] 5)) v (.ofNat symInitBufferSize)) c (.cell v)) :=
    ((((hk₁.weaken (Set.empty_subset _) (Set.empty_subset _)).trans hk₁').trans hk₂).trans
      hk₃).trans (Keeps.setCell hk₃.freeListOk (by simp) _)
  refine ⟨v, b, h₁, h₁'.setBytes b (filled [x] 5), hal, ?_, hc.attach hin hbold hk ?_, ?_, hrm⟩
  · have hset := filled_set_append (s := []) (k := 5) (by decide) x
    have hb : h₁'.bytes b = filled [] 5 := hbuf
    have har : (h₁'.cells v).ar = .ptr (.bytes b) 0 := by simp [hh₁', hv]
    unfold storeToken
    rw [har]
    change h₁'.storeByte b 0 x = _
    rw [storeByte, hb, if_pos (by decide)]
    exact congrArg (fun s => Except.ok (h₁'.setBytes b s)) hset
  · simp [setAr, setDr, hh₁', hcv, hcell, hc.tag]
  · exact
      { ar := by simp [setAr]
        cell := by simp [setAr, setDr, hh₁', hcv.symm, hv]
        fresh := hc.fresh hin hout
        old := hbnew
        notIn := fun hm => absurd (hc.bytesOld b hm) (by omega)
        lower := le_rfl
        upper := by decide
        contents := by simp [setAr, setDr] }

theorem readAtom_sim (hc : Core rs h a S cs c os) (hst : rs.state = .atom) (he : Empty h c os)
    (htok : a.tok = .idle) (hstep : absAtom a x = some a') (hfit : a'.Fits)
    (hroom : atomCost x ≤ h.room) : Steps (readAtom x c rs h) (h.room - atomCost x) a' := by
  unfold absAtom at hstep
  unfold readAtom
  by_cases hws : isWs x = true
  · rw [if_pos hws] at hstep ⊢
    obtain rfl := Option.some.inj hstep
    exact ⟨c, rs, h, rfl, ⟨S, cs, c, os, { hc with cell := rfl }, by rw [htok]; exact ⟨hst, he⟩⟩,
      Nat.sub_le _ _⟩
  rw [if_neg hws] at hstep ⊢
  by_cases hsemi : x = semicolon
  · rw [if_pos hsemi] at hstep ⊢
    obtain rfl := Option.some.inj hstep
    exact ⟨c, _, h, rfl, ⟨S, cs, c, os, { hc with cell := rfl }, rfl, he⟩, Nat.sub_le _ _⟩
  rw [if_neg hsemi] at hstep ⊢
  have hcost : atomCost x = 1 := by rw [atomCost, if_neg (by simp [hws, hsemi])]
  rw [hcost] at hroom ⊢
  by_cases hdig : isDigit x = true
  · rw [if_pos hdig] at hstep ⊢
    obtain rfl := Option.some.inj hstep
    obtain ⟨v, h₁, hal, hc₁, hi, hrm⟩ := hc.startNum (by omega) (x.toNat - 48)
    rw [hal]
    refine ⟨c, _, _, rfl, ⟨S, cs, c, os, { hc₁ with cell := rfl, hex := ?_ }, rfl, v, hi⟩, ?_⟩
    · simp
    · change h.room - 1 ≤ h₁.room
      omega
  rw [if_neg hdig] at hstep ⊢
  by_cases hlp : x = lparen
  · rw [if_pos hlp] at hstep ⊢
    obtain rfl := Option.some.inj hstep
    have hdeep : os.length < stackSize := by
      have h₁ := hfit.1
      have h₂ := hc.outer.length_eq
      simp only [List.length_cons] at h₁
      omega
    obtain ⟨v, rs', h₁, hal, htop, hvnil, -, -, hc₁, hrm⟩ := hc.openList (by omega) hdeep
    rw [hal]
    change Steps (rs.setTop (.cell c) >>= _) _ _
    rw [htop]
    refine ⟨v, _, _, rfl, ⟨S, [], v, (cs, c) :: os, { hc₁ with cell := rfl }, ?_⟩, ?_⟩
    · rw [htok]
      exact ⟨rfl, by rw [hvnil], fun _ => by rw [hvnil]⟩
    · change h.room - 1 ≤ h₁.room
      omega
  rw [if_neg hlp] at hstep ⊢
  by_cases hrp : x = rparen
  · rw [if_pos hrp] at hstep ⊢
    obtain ⟨c', rs', h', hr, hsim, hrm⟩ :=
      hc.stepEndIdle he hstep (by omega) rs.state rs.cell
    exact ⟨c', rs', h', hr, hsim, hrm⟩
  rw [if_neg hrp] at hstep ⊢
  by_cases hlb : x = lbracket
  · rw [if_pos hlb] at hstep ⊢
    obtain rfl := Option.some.inj hstep
    obtain ⟨v, b, h₁, hal, hc₁, hB, hrm⟩ := hc.startBuffer (by omega) tagBytes
    rw [allocNumBytes, hal]
    refine ⟨c, _, _, rfl, ⟨S, cs, c, os, { hc₁ with cell := rfl }, rfl, v, b, 5, hB, rfl, ?_, ?_⟩,
      ?_⟩
    · decide
    · simp
    · change h.room - 1 ≤ h₁.room
      omega
  rw [if_neg hlb] at hstep ⊢
  by_cases hdq : x = dquote
  · rw [if_pos hdq] at hstep ⊢
    obtain rfl := Option.some.inj hstep
    obtain ⟨v, b, h₁, hal, hc₁, hB, hrm⟩ := hc.startBuffer (by omega) tagStr
    rw [allocNumString, hal]
    refine ⟨c, _, _, rfl, ⟨S, cs, c, os, { hc₁ with cell := rfl }, rfl, v, b, 5, hB, rfl, ?_⟩, ?_⟩
    · decide
    · change h.room - 1 ≤ h₁.room
      omega
  rw [if_neg hdq] at hstep ⊢
  obtain rfl := Option.some.inj hstep
  obtain ⟨v, b, h₁, h₂, hal, hstore, hc₂, hB, hrm⟩ := hc.startSym (by omega) x
  rw [hal]
  change Steps (storeToken _ v 0 _ >>= _) _ _
  rw [hstore]
  refine ⟨c, _, _, rfl, ⟨S, cs, c, os, { hc₂ with cell := rfl }, rfl, by simp, v, b, 5, hB, rfl, ?_⟩,
    ?_⟩
  · simp
  · change h.room - 1 ≤ h₂.room
    omega

/-- A change of an integer token's value cell. -/
theorem IntCell.update {t : ℕ} {y z : BitVec 64} (hc : Core rs h a S cs c os)
    (hi : IntCell h S c os t y) :
    Core rs (setAr h t (.int z)) a S cs c os ∧ IntCell (setAr h t (.int z)) S c os t z := by
  have hct : c ≠ t := by rintro rfl; exact hi.fresh.notOpen (by simp)
  have hb : .bytes h.bytesUsed ∉ S := fun hm => absurd (hc.bytesOld _ hm) (lt_irrefl _)
  have hk : Keeps {t} {h.bytesUsed} h (setAr h t (.int z)) :=
    Keeps.setCell hc.freeListOk (Set.mem_singleton t) _
  refine ⟨hc.keepsValue hi.fresh hb hk, ?_⟩
  exact
    { ar := by rw [setAr, setCell_cells, Function.update_of_ne hct, hi.ar]
      tag := by rw [setAr, setCell_cells, Function.update_self]; exact hi.tag
      value := by rw [setAr, setCell_cells, Function.update_self]
      fresh := ⟨hi.fresh.notIn, hi.fresh.notSupply, hi.fresh.notOpen⟩ }

theorem wordCost_ws (hws : isWs x = true) : wordCost x = 1 := by
  rw [wordCost, if_neg (by rintro rfl; exact absurd hws (by decide)), if_pos hws]

/-- States `PST_NUM` and `PST_NUM_NEG`; `tok` and `add` are the token and the
    operation of the one at hand. -/
theorem readNum_sim {t : ℕ} {y : BitVec 64} {tok : BitVec 64 → Token}
    {add : BitVec 64 → BitVec 64 → BitVec 64} (hc : Core rs h a S cs c os)
    (hi : IntCell h S c os t y) (htok : a.tok = tok y)
    (hok : ∀ (rs' : ReaderState) (h' : Heap) z, rs'.state = rs.state → IntCell h' S c os t z →
      TokOk rs' h' S c os (tok z))
    (hadd : ∀ z mul d, (if rs.state = .numNeg then z * mul - d else z * mul + d) = add (z * mul) d)
    (hstep : absNum a tok add y x = some a') (hroom : wordCost x ≤ h.room) :
    Steps (readNum x c rs h) (h.room - wordCost x) a' := by
  unfold absNum at hstep
  unfold readNum
  have hcond : (isDigit x ∨ (rs.valuestate = vstHex ∧ isLowerHex x)) ↔
      (isDigit x ∨ (a.hex ∧ isLowerHex x)) := by rw [hc.hex]
  by_cases hdig : isDigit x ∨ (a.hex ∧ isLowerHex x)
  · rw [if_pos hdig] at hstep
    rw [if_pos (hcond.mpr hdig)]
    obtain rfl := Option.some.inj hstep
    have hmul : (if rs.valuestate = vstHex then 16 else 10 : BitVec 64) =
        if a.hex then 16 else 10 := if_congr hc.hex rfl rfl
    obtain ⟨hc₁, hi₁⟩ := hi.update hc (z := add (y * if a.hex then 16 else 10) (digitVal x))
    have happ : appendDigit x c rs h =
        .ok (setAr h t (.int (add (y * if a.hex then 16 else 10) (digitVal x)))) := by
      unfold appendDigit
      rw [hi.ar]
      change (valueOf h t >>= _) = _
      rw [valueOf, hi.value]
      change Except.ok _ = _
      rw [hadd, hmul]
      rfl
    rw [happ]
    exact ⟨c, rs, _, rfl, ⟨S, cs, c, os, { hc₁ with cell := rfl }, hok _ _ _ rfl hi₁⟩,
      Nat.sub_le _ _⟩
  rw [if_neg hdig] at hstep
  rw [if_neg (fun hd => hdig (hcond.mp hd))]
  by_cases hws : isWs x = true
  · rw [if_pos hws] at hstep ⊢
    obtain rfl := Option.some.inj hstep
    rw [wordCost_ws hws] at hroom ⊢
    exact hc.stepNext (hi.complete hc) hroom
  rw [if_neg hws] at hstep ⊢
  by_cases hrp : x = rparen
  · rw [if_pos hrp] at hstep ⊢
    rw [wordCost, if_pos hrp] at hroom ⊢
    exact hc.stepEnd (hi.complete hc) hstep hroom
  rw [if_neg hrp] at hstep ⊢
  by_cases hx : x = lowerX
  · rw [if_pos hx] at hstep ⊢
    obtain rfl := Option.some.inj hstep
    refine ⟨c, _, h, rfl, ⟨S, cs, c, os, { hc with cell := rfl, hex := by simp }, ?_⟩,
      Nat.sub_le _ _⟩
    rw [htok]
    exact hok _ _ _ rfl hi
  · rw [if_neg hx] at hstep
    cases hstep

theorem readSym_sim {s : List UInt8} (hc : Core rs h a S cs c os) (htok : a.tok = .sym s)
    (ht : TokOk rs h S c os (.sym s)) (hstep : absStep a x = some a') (hfit : a'.Fits)
    (hroom : wordCost x ≤ h.room) : Steps (readSym x c rs h) (h.room - wordCost x) a' := by
  obtain ⟨hst, hne, v, b, k, hB, hlen, hs⟩ := ht
  have hcomplete : Complete h S c os (.sym s) := hB.completeSym hc (by omega)
  unfold absStep at hstep
  rw [htok] at hstep
  dsimp only at hstep
  unfold readSym
  by_cases hrp : x = rparen
  · rw [if_pos hrp] at hstep ⊢
    rw [wordCost, if_pos hrp] at hroom ⊢
    exact hc.stepEnd hcomplete hstep hroom
  rw [if_neg hrp] at hstep ⊢
  by_cases hws : isWs x = true
  · rw [if_pos hws] at hstep ⊢
    obtain rfl := Option.some.inj hstep
    rw [wordCost_ws hws] at hroom ⊢
    exact hc.stepNext hcomplete hroom
  rw [if_neg hws] at hstep ⊢
  obtain ⟨y, hy⟩ : ∃ y, s.head? = some y := by
    cases s with
    | nil => exact absurd rfl hne
    | cons y s => exact ⟨y, rfl⟩
  have hfirst : (h.bytes b).getD 0 0 = y := by rw [hB.contents, filled_getD_zero hy]
  have hchar : firstChar h v = .ok ((h.bytes b).getD 0 0) := by rw [firstChar, hB.cell]
  rw [hB.ar]
  change Steps (firstChar h v >>= _) _ _
  rw [hchar]
  change Steps (if _ then _ else _) _ _
  have hcond : (isDigit x ∧ (h.bytes b).getD 0 0 = minus) ↔
      (isDigit x ∧ s.head? = some minus) := by
    rw [hfirst, hy, Option.some.injEq]
  by_cases hneg : isDigit x ∧ s.head? = some minus
  · -- the symbol was the sign of a negative number
    rw [if_pos hneg] at hstep
    rw [if_pos (hcond.mpr hneg)]
    obtain rfl := Option.some.inj hstep
    have hcv : c ≠ v := by rintro rfl; exact hB.fresh.notOpen (by simp)
    have hk : Keeps {v} {b} h (h.setCell v
        { h.cells v with tag := tagInt, ar := .int (-BitVec.ofNat 64 (x.toNat - 48)) }) :=
      Keeps.setCell hc.freeListOk (Set.mem_singleton v) _
    have hc₁ := hc.keepsValue hB.fresh hB.notIn hk
    refine ⟨c, _, _, rfl, ⟨S, cs, c, os, { hc₁ with cell := rfl }, rfl, v, ?_⟩, Nat.sub_le _ _⟩
    exact
      { ar := by rw [setCell_cells, Function.update_of_ne hcv, hB.ar]
        tag := by rw [setCell_cells, Function.update_self]
        value := by rw [setCell_cells, Function.update_self]
        fresh := ⟨hB.fresh.notIn, hB.fresh.notSupply, hB.fresh.notOpen⟩ }
  · rw [if_neg hneg] at hstep
    rw [if_neg (fun hd => hneg (hcond.mp hd))]
    obtain rfl := Option.some.inj hstep
    have hfit' : s.length + 1 ≤ 2 ^ 30 - 2 := by simpa [AbsState.Fits] using hfit.2
    obtain ⟨b', k', h', happ, hrm, hc₁, hB₁, hs₁⟩ := hB.appendChar hc hlen hs hfit' x
    rw [happ]
    refine ⟨c, _, h', rfl, ⟨S, cs, c, os, { hc₁ with cell := rfl }, hst, by simp, v, b', k', hB₁,
      ?_, ?_⟩, by omega⟩
    · simp
    · simp only [List.length_append, List.length_singleton]; omega

theorem readStr_sim {s : List UInt8} (hc : Core rs h a S cs c os) (htok : a.tok = .str s)
    (ht : TokOk rs h S c os (.str s)) (hstep : absStep a x = some a') (hfit : a'.Fits)
    (hroom : (if x = dquote then 1 else 0) ≤ h.room) :
    Steps (readStr x c rs h) (h.room - if x = dquote then 1 else 0) a' := by
  obtain ⟨hst, v, b, k, hB, hlen, hs⟩ := ht
  unfold absStep at hstep
  rw [htok] at hstep
  dsimp only at hstep
  unfold readStr
  by_cases hdq : x = dquote
  · rw [if_pos hdq] at hstep hroom ⊢
    rw [if_pos hdq]
    obtain rfl := Option.some.inj hstep
    obtain ⟨hc₁, hcomplete⟩ := hB.completeStr hc (by omega)
    rw [hB.ar, hlen]
    exact hc₁.stepNext hcomplete hroom
  · rw [if_neg hdq] at hstep ⊢
    obtain rfl := Option.some.inj hstep
    have hfit' : s.length + 1 ≤ 2 ^ 30 - 2 := by simpa [AbsState.Fits] using hfit.2
    obtain ⟨b', k', h', happ, hrm, hc₁, hB₁, hs₁⟩ := hB.appendChar hc hlen hs hfit' x
    rw [happ]
    refine ⟨c, _, h', rfl, ⟨S, cs, c, os, { hc₁ with cell := rfl }, hst, v, b', k', hB₁, ?_, ?_⟩,
      by omega⟩
    · simp
    · simp only [List.length_append, List.length_singleton]; omega

theorem hexVal_lt (hx : isDigit x ∨ isLowerHex x ∨ isUpperHex x) : hexVal x < 16 := by
  simp only [isDigit, isLowerHex, isUpperHex, decide_eq_true_eq] at hx
  simp only [hexVal]
  rcases hx with hx | hx | hx <;> split_ifs <;> omega

theorem readBytes_sim {ns : List ℕ} (hc : Core rs h a S cs c os) (htok : a.tok = .bytes ns)
    (ht : TokOk rs h S c os (.bytes ns)) (hstep : absStep a x = some a') (hfit : a'.Fits)
    (hroom : (if x = rbracket then 1 else 0) ≤ h.room) :
    Steps (readBytes x c rs h) (h.room - if x = rbracket then 1 else 0) a' := by
  obtain ⟨hst, v, b, k, hB, hlen, hs, hns⟩ := ht
  unfold absStep at hstep
  rw [htok] at hstep
  dsimp only at hstep
  unfold readBytes
  by_cases hrb : x = rbracket
  · rw [if_pos hrb] at hstep hroom ⊢
    rw [if_pos hrb]
    obtain rfl := Option.some.inj hstep
    obtain ⟨hc₁, hcomplete⟩ := hB.completeBytes hc
    rw [hB.ar, hlen]
    exact hc₁.stepNext hcomplete hroom
  rw [if_neg hrb] at hstep ⊢
  by_cases hhex : isDigit x ∨ isLowerHex x ∨ isUpperHex x
  · rw [if_pos hhex] at hstep ⊢
    obtain rfl := Option.some.inj hstep
    have hfit' : ns.length + 1 ≤ 2 ^ 29 - 2 := by simpa [AbsState.Fits] using hfit.2
    obtain ⟨b', k', h', happ, hrm, hc₁, hB₁, hs₁⟩ :=
      hB.appendNibble hc hlen hs hns hfit' (hexVal_lt hhex)
    rw [happ]
    refine ⟨c, _, h', rfl, ⟨S, cs, c, os, { hc₁ with cell := rfl }, hst, v, b', k', hB₁, ?_, ?_,
      ?_⟩, by omega⟩
    · simp
    · simp only [List.length_append, List.length_singleton]; omega
    · intro n hn
      rcases List.mem_append.mp hn with hn | hn
      · exact hns n hn
      · rw [List.mem_singleton.mp hn]; exact hexVal_lt hhex
  rw [if_neg hhex] at hstep ⊢
  by_cases hws : isWs x = true
  · rw [if_pos hws] at hstep ⊢
    obtain rfl := Option.some.inj hstep
    exact ⟨c, rs, h, rfl, ⟨S, cs, c, os, { hc with cell := rfl },
      by rw [htok]; exact ⟨hst, v, b, k, hB, hlen, hs, hns⟩⟩, by omega⟩
  · rw [if_neg hws] at hstep
    cases hstep

theorem readState_sim (hc : Core rs h a S cs c os) (ht : TokOk rs h S c os a.tok)
    (hstep : absStep a x = some a') (hfit : a'.Fits) (hroom : stepCost a x ≤ h.room) :
    Steps (readState x c rs h) (h.room - stepCost a x) a' := by
  unfold readState
  unfold stepCost at hroom ⊢
  cases htok : a.tok with
  | idle =>
    rw [htok] at ht hroom
    rw [ht.1]
    simp only [absStep, htok] at hstep
    exact readAtom_sim hc ht.1 ht.2 htok hstep hfit hroom
  | comment =>
    rw [htok] at ht hroom
    rw [ht.1]
    simp only [absStep, htok] at hstep
    dsimp only
    by_cases hend : x = lf ∨ x = 0
    · rw [if_pos hend] at hstep ⊢
      obtain rfl := Option.some.inj hstep
      exact ⟨c, _, h, rfl, ⟨S, cs, c, os, { hc with cell := rfl }, rfl, ht.2⟩, by omega⟩
    · rw [if_neg hend] at hstep ⊢
      obtain rfl := Option.some.inj hstep
      exact ⟨c, _, h, rfl, ⟨S, cs, c, os, { hc with cell := rfl }, by rw [htok]; exact ht⟩,
        by omega⟩
  | num y =>
    rw [htok] at ht hroom
    obtain ⟨hst, t, hi⟩ := ht
    rw [hst]
    simp only [absStep, htok] at hstep
    exact readNum_sim hc hi htok (fun rs' h' z hs hz => ⟨hs.trans hst, t, hz⟩) (by simp [hst])
      hstep hroom
  | numNeg y =>
    rw [htok] at ht hroom
    obtain ⟨hst, t, hi⟩ := ht
    rw [hst]
    simp only [absStep, htok] at hstep
    exact readNum_sim hc hi htok (fun rs' h' z hs hz => ⟨hs.trans hst, t, hz⟩) (by simp [hst])
      hstep hroom
  | sym s =>
    rw [htok] at ht hroom
    rw [ht.1]
    exact readSym_sim hc htok ht hstep hfit hroom
  | str s =>
    rw [htok] at ht hroom
    rw [ht.1]
    exact readStr_sim hc htok ht hstep hfit hroom
  | bytes ns =>
    rw [htok] at ht hroom
    rw [ht.1]
    exact readBytes_sim hc htok ht hstep hfit hroom

/-- One character keeps the invariant. -/
theorem readChar_sim (hs : Sim rs h a) (hstep : absStep a x = some a') (hfit : a'.Fits)
    (hroom : stepCost a x ≤ h.room) :
    ∃ rs' h', readChar x rs h = .ok (rs', h') ∧ Sim rs' h' a' ∧
      h.room ≤ h'.room + stepCost a x := by
  obtain ⟨S, cs, c, os, hc, ht⟩ := hs
  obtain ⟨c', rs', h', hr, hsim, hrm⟩ := readState_sim hc ht hstep hfit hroom
  refine ⟨{ rs' with cell := .cell c' }, h', ?_, hsim, by omega⟩
  have hroot : ensureRoot rs h = .ok (rs, h) := by
    rw [ensureRoot, if_neg (by rw [hc.cell]; simp)]
  unfold readChar
  rw [hroot]
  change (cellOf rs.cell >>= _) = _
  rw [hc.cell]
  change (readState x c rs h >>= _) = _
  rw [hr]
  rfl

end Step

/-! ## Whole texts -/

theorem Sim.not_isError {rs : ReaderState} {h : Heap} {a : AbsState} (hs : Sim rs h a) :
    rs.state.isError = false := by
  obtain ⟨S, cs, c, os, -, ht⟩ := hs
  cases htok : a.tok <;> rw [htok] at ht <;> rw [ht.1] <;> rfl

/-- The loop of `read_string` follows the abstract reader. -/
theorem readChars_sim {a a' : AbsState} {xs : List UInt8} {n : ℕ} (hrun : Runs a xs n a') :
    ∀ {rs : ReaderState} {h : Heap}, Sim rs h a → n ≤ h.room →
      ∃ rs' h', readChars xs rs h = .ok (rs', h') ∧ Sim rs' h' a' ∧ h.room ≤ h'.room + n := by
  induction hrun with
  | nil a => exact fun hs _ => ⟨_, _, rfl, hs, by simp⟩
  | @cons a a₁ a₂ x xs n hstep hfit hrest ih =>
    intro rs h hs hroom
    obtain ⟨rs₁, h₁, hr₁, hs₁, hrm₁⟩ := readChar_sim hs hstep hfit (by omega)
    obtain ⟨rs₂, h₂, hr₂, hs₂, hrm₂⟩ := ih hs₁ (by omega)
    refine ⟨rs₂, h₂, ?_, hs₂, by omega⟩
    rw [readChars, hr₁]
    change (if rs₁.state.isError then _ else _) = _
    rw [hs₁.not_isError]
    exact hr₂

/-- The root and its successor (lines 31–36) represent the empty text. -/
theorem ensureRoot_sim {h : Heap} (junk : Junk) (hok : h.FreeListOk) (hroom : 2 ≤ h.room) :
    ∃ rs' h', ensureRoot (.start junk) h = .ok (rs', h') ∧
      Sim rs' h' (.start (junk.valuestate = vstHex)) ∧ rs'.cell ≠ .null ∧
      h.room = h'.room + 2 := by
  obtain ⟨root, h₁, hal₁, hk₁, hin₁, hout₁, hroot₁, hrm₁⟩ :=
    allocCell_spec hok (by omega) fun _ => ⟨.null, .null, tagCons⟩
  obtain ⟨next, h₂, hal₂, hk₂, hin₂, hout₂, hnext, hrm₂⟩ :=
    allocCell_spec hk₁.freeListOk (by omega) fun _ => ⟨.null, .null, tagCons⟩
  have hroot₂ : h₂.cells root = ⟨.null, .null, tagCons⟩ := by
    rw [hk₂.cells root hout₁ (Set.notMem_empty _), hroot₁]
  refine ⟨{ ReaderState.start junk with
      slots := Function.update junk.stackRoot 0 (.cell root), cell := .cell root },
    setDr h₂ root (.cell next), ?_, ⟨∅, [], root, [], ?_, rfl, ?_, ?_⟩, by simp, ?_⟩
  · unfold ensureRoot
    rw [if_pos (show (ReaderState.start junk).cell = .null from rfl)]
    unfold allocNil allocCons
    rw [hal₁]
    change (h₁.allocCell _ >>= _) = _
    rw [hal₂]
    rfl
  · exact
      { freeListOk := ⟨hk₂.freeListOk.nodup, hk₂.freeListOk.below⟩
        cell := rfl
        level := rfl
        stack := rfl
        deep := Nat.zero_le _
        hex := by simp [ReaderState.start, AbsState.start]
        tag := by simp [setDr, hroot₂]
        cur := trivial
        outer := trivial
        nodup := by simp [openCells]
        openFresh := by
          intro k hk
          obtain rfl : k = root := by simpa using hk
          exact ⟨Set.notMem_empty _, fun hs => hout₁ (hk₂.supply hs)⟩
        cellsOld := fun k hk => absurd hk (Set.notMem_empty _)
        bytesOld := fun b hb => absurd hb (Set.notMem_empty _)
        root := ⟨root, rfl, Function.update_self 0 (Word.cell root) junk.stackRoot⟩ }
  · simp [setDr, hroot₂]
  · simp
  · change h.room = h₂.room + 2
    omega

/-- The loop of `read_string` from its start: the first character makes the
    root before it does anything else. -/
theorem readChars_start_sim {junk : Junk} {xs : List UInt8} {h : Heap} {a : AbsState} {n : ℕ}
    (hok : h.FreeListOk) (hne : xs ≠ []) (hrun : Runs (.start (junk.valuestate = vstHex)) xs n a)
    (hroom : n + 2 ≤ h.room) :
    ∃ rs' h', readChars xs (.start junk) h = .ok (rs', h') ∧ Sim rs' h' a ∧
      h.room ≤ h'.room + (n + 2) := by
  obtain ⟨rs₀, h₀, hr₀, hs₀, hcell₀, hrm₀⟩ := ensureRoot_sim junk hok (by omega)
  obtain ⟨rs, h', hr, hs, hrm⟩ := readChars_sim hrun hs₀ (by omega)
  refine ⟨rs, h', ?_, hs, by omega⟩
  cases xs with
  | nil => exact absurd rfl hne
  | cons x xs =>
    have hnext : ensureRoot rs₀ h₀ = .ok (rs₀, h₀) := by rw [ensureRoot, if_neg hcell₀]
    rw [readChars, readChar, hnext] at hr
    rw [readChars, readChar, hr₀]
    exact hr

/-- The elements of a text read so far: the completed ones and the token at
    the end of the text. -/
def AbsState.elements (a : AbsState) : List Datum := a.cur ++ a.tok.datum.toList

theorem LevelOk.rep_get {h : Heap} {S : Set Block} {c r : ℕ} :
    ∀ {cs : List ℕ} {ds : List Datum} {n : ℕ}, LevelOk h S cs ds c → cs[n]? = some r →
      ∃ d, ds[n]? = some d ∧ Rep h S (h.cells r).ar d
  | [], [], _, _, hr => by simp at hr
  | k :: cs, d :: ds, 0, ⟨_, _, _, hrep, _⟩, hr => by
    obtain rfl : k = r := by simpa using hr
    exact ⟨d, rfl, hrep⟩
  | k :: cs, d :: ds, n + 1, ⟨_, _, _, _, hrest⟩, hr => by
    obtain ⟨e, he, hrep⟩ := LevelOk.rep_get hrest (show cs[n]? = some r by simpa using hr)
    exact ⟨e, by simpa using he, hrep⟩
  | [], _ :: _, _, hf, _ => hf.elim
  | _ :: _, [], _, hf, _ => hf.elim

/-- A token that is complete at the end of the text. -/
theorem TokOk.complete {rs : ReaderState} {h : Heap} {a : AbsState} {S : Set Block} {cs : List ℕ}
    {c : ℕ} {os : List (List ℕ × ℕ)} {d : Datum} (hc : Core rs h a S cs c os)
    (ht : TokOk rs h S c os a.tok) (hd : a.tok.datum = some d) : Complete h S c os d := by
  cases htok : a.tok with
  | num x | numNeg x =>
    rw [htok] at ht hd
    obtain ⟨-, t, hi⟩ := ht
    obtain rfl := Option.some.inj hd
    exact hi.complete hc
  | sym s =>
    rw [htok] at ht hd
    obtain ⟨-, -, v, b, k, hB, -, hs⟩ := ht
    obtain rfl := Option.some.inj hd
    exact hB.completeSym hc (by omega)
  | idle | comment | str | bytes => rw [htok] at hd; cases hd

/-- What `read_string` returns: the element at top level that `stack_root[0]`
    selects, in cells that `cell_alloc` will not hand out again. -/
theorem readString_sim {junk : Junk} {xs : List UInt8} {h : Heap} {a : AbsState} {d : Datum} {n : ℕ}
    (hok : h.FreeListOk) (hne : xs ≠ []) (hlen : xs.length < 2 ^ 31)
    (hrun : Runs (.start (junk.valuestate = vstHex)) xs n a) (hout : a.outer = [])
    (hd : a.elements[a.first]? = some d) (hroom : n + 2 ≤ h.room) :
    ∃ w h' S, readString junk xs h = .ok (w, h') ∧ Rep h' S w d ∧
      ∀ i, .cell i ∈ S → i ∉ h'.Supply := by
  obtain ⟨rs, h', hr, hs, -⟩ := readChars_start_sim hok hne hrun hroom
  have htake : xs.take (toInt32 xs.length).toNat = xs := by
    rw [toInt32_of_lt hlen, Int.toNat_natCast, List.take_length]
  have herr := hs.not_isError
  obtain ⟨S, cs, c, os, hc, ht⟩ := hs
  have hos : os = [] := by
    have := hc.outer.length_eq
    rw [hout] at this
    exact List.length_eq_zero_iff.mp this
  subst hos
  obtain ⟨r, hr', hslot⟩ := hc.root
  have hresult : readResult rs h' = .ok ((h'.cells r).ar, h') := by
    unfold readResult
    have hlev : rs.level = 0 := hc.level
    have hst : rs.stack = 0 := hc.stack
    have htop : rs.top = .ok (.cell r) := by
      rw [ReaderState.top, hst, if_pos (by simp), Int.toNat_zero, hslot]
    rw [if_neg (by simp [herr, hlev]), htop]
    rfl
  have hread : readString junk xs h = .ok ((h'.cells r).ar, h') := by
    unfold readString
    rw [htake, hr]
    exact hresult
  rw [topChain] at hr'
  by_cases hlt : a.first < cs.length
  · rw [List.getElem?_append_left hlt] at hr'
    obtain ⟨e, he, hrep⟩ := hc.cur.rep_get hr'
    rw [AbsState.elements, List.getElem?_append_left (by rw [← hc.cur.length_eq]; exact hlt), he]
      at hd
    obtain rfl := Option.some.inj hd
    exact ⟨_, h', S, hread, hrep, hc.cellsOld⟩
  · have hsing := (List.getElem?_append_right (by omega) : (cs ++ [c])[a.first]? = _).symm.trans hr'
    obtain ⟨hidx, rfl⟩ : a.first - cs.length = 0 ∧ c = r := by
      rcases hk : a.first - cs.length with _ | k
      · rw [hk] at hsing; exact ⟨rfl, by simpa using hsing⟩
      · rw [hk] at hsing; simp at hsing
    have hdtok : a.tok.datum = some d := by
      rw [AbsState.elements, List.getElem?_append_right (by rw [← hc.cur.length_eq]; omega),
        ← hc.cur.length_eq, hidx] at hd
      cases htok : a.tok.datum <;> simp_all
    obtain ⟨S', -, hcells, -, hrep⟩ := ht.complete hc hdtok
    exact ⟨_, h', S', hread, hrep, fun i hi => (hcells i hi).1⟩

end Interim.Reader
