import Interim.Reader.Represent

/-!
# The reader's invariant

The invariant between two characters has two halves. `Core` ties the chains of
completed elements, the current cell and `stack_root` to the lists of the
abstract state; `TokOk` ties the token under construction to the value cell
and its buffer. The list helpers keep the invariant: `Core.next` (an element is complete),
`Core.openList` and `Core.pop` (a list starts, a list ends), combined into
what `reader_next_list_cell` and `reader_end_list` do in `Core.stepNext`,
`Core.stepEndIdle` and `Core.stepEnd`.
-/

namespace Interim.Reader

open Heap

/-! ## The list structure -/

/-- The cells of the top-level chain: `cs` and `c` when no list is open, else
    those of the outermost open list. -/
def topChain : List ℕ → ℕ → List (List ℕ × ℕ) → List ℕ
  | cs, c, [] => cs ++ [c]
  | _, _, (cs, c) :: os => topChain cs c os

/-- The cells that are still being filled: the current one and those waiting
    for an inner list. -/
def openCells (c : ℕ) (os : List (List ℕ × ℕ)) : List ℕ := c :: os.map Prod.snd

@[simp] theorem mem_openCells {k c : ℕ} {os : List (List ℕ × ℕ)} :
    k ∈ openCells c os ↔ k = c ∨ k ∈ os.map Prod.snd := by
  simp [openCells]

/-- The list structure the reader has built: chain `cs` up to the current cell
    `c`, inside the open lists `os`, with all finished data in `S`. -/
structure Core (rs : ReaderState) (h : Heap) (a : AbsState) (S : Set Block) (cs : List ℕ)
    (c : ℕ) (os : List (List ℕ × ℕ)) : Prop where
  freeListOk : h.FreeListOk
  cell : rs.cell = .cell c
  level : rs.level = os.length
  stack : rs.stack = os.length
  deep : os.length ≤ stackSize
  hex : rs.valuestate = vstHex ↔ a.hex = true
  tag : (h.cells c).tag = tagCons
  cur : LevelOk h S cs a.cur c
  outer : OuterOk h S rs.slots (cs.headD c) os a.outer
  nodup : (openCells c os).Nodup
  openFresh : ∀ k ∈ openCells c os, .cell k ∉ S ∧ k ∉ h.Supply
  cellsOld : ∀ k, .cell k ∈ S → k ∉ h.Supply
  bytesOld : ∀ b, .bytes b ∈ S → b < h.bytesUsed
  root : ∃ r, (topChain cs c os)[a.first]? = some r ∧ rs.slots 0 = .cell r

section Core

variable {rs : ReaderState} {h h' : Heap} {a : AbsState} {S S' : Set Block} {cs : List ℕ} {c : ℕ}
  {os : List (List ℕ × ℕ)} {X Y : Set ℕ} {d : Datum}

theorem Core.agreeOn (hc : Core rs h a S cs c os) (hk : Keeps X Y h h')
    (hX : ∀ i ∈ X, .cell i ∉ S) (hY : ∀ b ∈ Y, .bytes b ∉ S) : AgreeOn S h h' where
  cells := fun i hi => hk.cells i (hc.cellsOld i hi) fun hx => hX i hx hi
  bytes := fun b hb => hk.bytes b (hc.bytesOld b hb) fun hy => hY b hy hb

/-- Changes outside the finished data and the waiting cells keep the list
    structure. -/
theorem Core.keeps (hc : Core rs h a S cs c os) (hk : Keeps X Y h h')
    (hX : ∀ i ∈ X, .cell i ∉ S ∧ i ∉ os.map Prod.snd) (hY : ∀ b ∈ Y, .bytes b ∉ S)
    (htag : (h'.cells c).tag = tagCons) : Core rs h' a S cs c os := by
  have ha := hc.agreeOn hk (fun i hi => (hX i hi).1) hY
  refine { hc with
    freeListOk := hk.freeListOk
    tag := htag
    cur := hc.cur.mono ha subset_rfl
    outer := hc.outer.mono ha subset_rfl ?_ fun _ _ => rfl
    openFresh := fun k hko => ⟨(hc.openFresh k hko).1, fun hs => (hc.openFresh k hko).2 (hk.supply hs)⟩
    cellsOld := fun k hkS hs => hc.cellsOld k hkS (hk.supply hs)
    bytesOld := fun b hb => lt_of_lt_of_le (hc.bytesOld b hb) hk.bytesUsed }
  intro k hko
  exact hk.cells k (hc.openFresh k (by simp [hko])).2 fun hx => (hX k hx).2 hko

/-- `reader_next_list_cell` once the element in the current cell is complete. -/
theorem Core.next (hc : Core rs h a S cs c os) (hsub : S ⊆ S')
    (hcells : ∀ k, .cell k ∈ S' → k ∉ h.Supply ∧ k ∉ openCells c os)
    (hbytes : ∀ b, .bytes b ∈ S' → b < h.bytesUsed) (hrep : Rep h S' (h.cells c).ar d)
    (hroom : 0 < h.room) :
    ∃ n h', (∀ rs', readerNextListCell c rs' h = .ok (n, { rs' with state := .atom }, h')) ∧
      Core { rs with state := .atom, cell := .cell n } h' (a.push d) (insert (.cell c) S')
        (cs ++ [c]) n os ∧
      h'.cells n = ⟨.null, .null, tagCons⟩ ∧ h.room = h'.room + 1 := by
  obtain ⟨n, h₁, hal, hk₁, hin, hout, hn, hrm⟩ :=
    allocCell_spec hc.freeListOk hroom fun _ => ⟨.null, .null, tagCons⟩
  have hcS' : .cell c ∉ S' := fun hm => (hcells c hm).2 (by simp)
  have hnc : n ≠ c := by rintro rfl; exact (hc.openFresh n (by simp)).2 hin
  have hk : Keeps {c} ∅ h (setDr h₁ c (.cell n)) :=
    (hk₁.weaken (Set.empty_subset _) subset_rfl).trans (Keeps.setCell hk₁.freeListOk (Set.mem_singleton c) _)
  have hcell : h₁.cells c = h.cells c :=
    hk₁.cells c (hc.openFresh c (by simp)).2 (Set.notMem_empty c)
  have hself : (setDr h₁ c (.cell n)).cells c = { h.cells c with dr := .cell n } := by
    rw [setDr, setCell_cells, Function.update_self, hcell]
  have ha' : AgreeOn S' h (setDr h₁ c (.cell n)) :=
    ⟨fun i hi => hk.cells i (hcells i hi).1 (by rintro rfl; exact hcS' hi),
      fun b hb => hk.bytes b (hbytes b hb) (Set.notMem_empty b)⟩
  have hagree : AgreeOn S h (setDr h₁ c (.cell n)) :=
    ⟨fun i hi => ha'.cells i (hsub hi), fun b hb => ha'.bytes b (hsub hb)⟩
  have hins : S ⊆ insert (.cell c) S' := hsub.trans (Set.subset_insert _ _)
  refine ⟨n, setDr h₁ c (.cell n), ?_, ?_, ?_, hrm⟩
  · intro rs'
    unfold readerNextListCell allocNil allocCons
    rw [hal]
    rfl
  · refine
      { freeListOk := hk.freeListOk
        cell := rfl
        level := hc.level
        stack := hc.stack
        deep := hc.deep
        hex := hc.hex
        tag := ?_
        cur := ?_
        outer := ?_
        nodup := ?_
        openFresh := ?_
        cellsOld := ?_
        bytesOld := ?_
        root := ?_ }
    · rw [setDr, setCell_cells, Function.update_of_ne hnc, hn]
    · refine LevelOk.snoc (Set.mem_insert _ _) ?_ ?_ ?_ (hc.cur.mono hagree hins)
      · rw [hself]; exact hc.tag
      · rw [hself]
      · rw [hself]; exact hrep.mono ha' (Set.subset_insert _ _)
    · have hhead : (cs ++ [c]).headD n = cs.headD c := by cases cs <;> rfl
      rw [hhead]
      refine hc.outer.mono hagree hins ?_ fun _ _ => rfl
      intro k hko
      refine hk.cells k (hc.openFresh k (by simp [hko])).2 ?_
      rintro rfl
      exact (List.nodup_cons.mp hc.nodup).1 hko
    · refine List.nodup_cons.mpr ⟨?_, (List.nodup_cons.mp hc.nodup).2⟩
      intro hno
      exact (hc.openFresh n (by simp [hno])).2 hin
    · intro k hko
      rcases mem_openCells.mp hko with rfl | hko
      · refine ⟨?_, hout⟩
        rintro (hm | hm)
        · exact hnc (by injection hm)
        · exact (hcells k hm).1 hin
      · refine ⟨?_, fun hs => (hc.openFresh k (by simp [hko])).2 (hk.supply hs)⟩
        rintro (hm | hm)
        · injection hm with hkc
          exact (List.nodup_cons.mp hc.nodup).1 (hkc ▸ hko)
        · exact (hcells k hm).2 (by simp [hko])
    · rintro k (hm | hm) hs
      · injection hm with hkc
        exact (hc.openFresh c (by simp)).2 (hkc ▸ hk.supply hs)
      · exact (hcells k hm).1 (hk.supply hs)
    · rintro b (hm | hm)
      · cases hm
      · exact lt_of_lt_of_le (hbytes b hm) hk.bytesUsed
    · obtain ⟨r, hr, hslot⟩ := hc.root
      refine ⟨r, ?_, hslot⟩
      cases os with
      | nil =>
        rw [topChain] at hr
        change (cs ++ [c] ++ [n])[a.first]? = some r
        rw [List.getElem?_append_left (List.getElem?_eq_some_iff.mp hr).1]
        exact hr
      | cons o os => exact hr
  · rw [setDr, setCell_cells, Function.update_of_ne hnc, hn]

/-- `(`: the current cell starts to wait for the list in the fresh cell `v`. -/
theorem Core.openList (hc : Core rs h a S cs c os) (hroom : 0 < h.room)
    (hsize : os.length < stackSize) :
    ∃ v rs' h', h.allocNil = .ok (v, h') ∧ rs.setTop (.cell c) = .ok rs' ∧
      (setAr h' c (.cell v)).cells v = ⟨.null, .null, tagCons⟩ ∧
      rs'.stack = rs.stack ∧ rs'.level = rs.level ∧
      Core { rs' with stack := rs'.stack + 1, level := rs'.level + 1, state := .atom,
                      cell := .cell v }
        (setAr h' c (.cell v))
        { a with
          cur := [], outer := a.cur :: a.outer
          first := if a.outer.isEmpty then a.cur.length else a.first }
        S [] v ((cs, c) :: os) ∧ h.room = h'.room + 1 := by
  obtain ⟨v, h₁, hal, hk₁, hin, hout, hv, hrm⟩ :=
    allocCell_spec hc.freeListOk hroom fun _ => ⟨.null, .null, tagCons⟩
  have hvc : v ≠ c := by rintro rfl; exact (hc.openFresh v (by simp)).2 hin
  have hk : Keeps {c} ∅ h (setAr h₁ c (.cell v)) :=
    (hk₁.weaken (Set.empty_subset _) subset_rfl).trans (Keeps.setCell hk₁.freeListOk (Set.mem_singleton c) _)
  have hcell : h₁.cells c = h.cells c :=
    hk₁.cells c (hc.openFresh c (by simp)).2 (Set.notMem_empty c)
  have hself : (setAr h₁ c (.cell v)).cells c = { h.cells c with ar := .cell v } := by
    rw [setAr, setCell_cells, Function.update_self, hcell]
  have hcwait : c ∉ os.map Prod.snd := (List.nodup_cons.mp hc.nodup).1
  have hcS : .cell c ∉ S := (hc.openFresh c (by simp)).1
  have hagree : AgreeOn S h (setAr h₁ c (.cell v)) :=
    hc.agreeOn hk (by rintro i rfl; exact hcS) (by simp)
  have hvnil : (setAr h₁ c (.cell v)).cells v = ⟨.null, .null, tagCons⟩ := by
    rw [setAr, setCell_cells, Function.update_of_ne hvc, hv]
  have htop : rs.setTop (.cell c) =
      .ok { rs with slots := Function.update rs.slots os.length (.cell c) } := by
    rw [ReaderState.setTop, hc.stack, if_pos (by omega), Int.toNat_natCast]
  refine ⟨v, _, h₁, hal, htop, hvnil, rfl, rfl, ?_, hrm⟩
  refine
    { freeListOk := hk.freeListOk
      cell := rfl
      level := by simp [hc.level]
      stack := by simp [hc.stack]
      deep := hsize
      hex := hc.hex
      tag := by rw [hvnil]
      cur := trivial
      outer := ⟨by rw [hself]; exact hc.tag, by rw [hself]; rfl, hc.cur.mono hagree subset_rfl,
        Function.update_self _ _ _, ?_⟩
      nodup := ?_
      openFresh := ?_
      cellsOld := fun k hkS hs => hc.cellsOld k hkS (hk.supply hs)
      bytesOld := fun b hb => lt_of_lt_of_le (hc.bytesOld b hb) hk.bytesUsed
      root := ?_ }
  · refine hc.outer.mono hagree subset_rfl ?_ ?_
    · intro k hko
      exact hk.cells k (hc.openFresh k (by simp [hko])).2 (by rintro rfl; exact hcwait hko)
    · intro k hlt
      exact Function.update_of_ne (by omega) _ _
  · refine List.nodup_cons.mpr ⟨?_, hc.nodup⟩
    intro hvo
    exact (hc.openFresh v hvo).2 hin
  · intro k hko
    rcases mem_openCells.mp hko with rfl | hko
    · exact ⟨fun hm => hc.cellsOld k hm hin, hout⟩
    · have hko' := hc.openFresh k hko
      exact ⟨hko'.1, fun hs => hko'.2 (hk.supply hs)⟩
  · have hlen := hc.outer.length_eq
    cases os with
    | nil =>
      have hnil : a.outer = [] := List.length_eq_zero_iff.mp hlen.symm
      refine ⟨c, ?_, Function.update_self 0 (Word.cell c) rs.slots⟩
      simp [topChain, hnil, ← hc.cur.length_eq]
    | cons o os =>
      obtain ⟨r, hr, hslot⟩ := hc.root
      have hne : a.outer ≠ [] := by intro he; simp [he] at hlen
      refine ⟨r, ?_, ?_⟩
      · simpa [hne, topChain] using hr
      · rw [← hslot]
        exact Function.update_of_ne (Nat.succ_ne_zero os.length).symm (Word.cell c) rs.slots

/-- Leaving an inner list: the waiting cell becomes the current one. -/
theorem Core.pop {cs' : List ℕ} {c' : ℕ} {ds : List Datum} {dss : List (List Datum)}
    (hc : Core rs h a S cs c ((cs', c') :: os)) (ha : a.outer = ds :: dss) :
    Core { rs with level := rs.level - 1, stack := rs.stack - 1, cell := .cell c' } h
      { a with cur := ds, outer := dss } S cs' c' os := by
  have ho := hc.outer
  rw [ha] at ho
  obtain ⟨htag, -, hlev, -, hrest⟩ := ho
  exact
    { freeListOk := hc.freeListOk
      cell := rfl
      level := by simp [hc.level]
      stack := by simp [hc.stack]
      deep := Nat.le_of_succ_le hc.deep
      hex := hc.hex
      tag := htag
      cur := hlev
      outer := hrest
      nodup := (List.nodup_cons.mp hc.nodup).2
      openFresh := fun k hk => hc.openFresh k (List.mem_cons_of_mem _ hk)
      cellsOld := hc.cellsOld
      bytesOld := hc.bytesOld
      root := hc.root }

end Core

/-! ## The token -/

/-- A value cell: outside the finished data, not open, and not to be handed
    out again. -/
structure Fresh (h : Heap) (S : Set Block) (c : ℕ) (os : List (List ℕ × ℕ)) (v : ℕ) : Prop where
  notIn : .cell v ∉ S
  notSupply : v ∉ h.Supply
  notOpen : v ∉ openCells c os

/-- `s` in a token buffer of size field `2 ^ k`: the rest is zero. -/
def filled (s : List UInt8) (k : ℕ) : List UInt8 := s ++ List.replicate (2 ^ k + 1 - s.length) 0

/-- The current cell holds the value cell `v` whose buffer `b` contains `s`. -/
structure Buffer (h : Heap) (S : Set Block) (c : ℕ) (os : List (List ℕ × ℕ)) (tag v b k : ℕ)
    (s : List UInt8) : Prop where
  ar : (h.cells c).ar = .cell v
  cell : h.cells v = ⟨.ptr (.bytes b) 0, .ofNat (2 ^ k), tag⟩
  fresh : Fresh h S c os v
  old : b < h.bytesUsed
  notIn : .bytes b ∉ S
  lower : 5 ≤ k
  upper : k ≤ 30
  contents : h.bytes b = filled s k

/-- The current cell holds the integer cell `t` of value `x`. -/
structure IntCell (h : Heap) (S : Set Block) (c : ℕ) (os : List (List ℕ × ℕ)) (t : ℕ)
    (x : BitVec 64) : Prop where
  ar : (h.cells c).ar = .cell t
  tag : (h.cells t).tag = tagInt
  value : (h.cells t).ar = .int x
  fresh : Fresh h S c os t

/-- The current cell holds nothing yet. Inside a list it is a nil cell; the
    root cell at top level has a `dr`. -/
structure Empty (h : Heap) (c : ℕ) (os : List (List ℕ × ℕ)) : Prop where
  ar : (h.cells c).ar = .null
  dr : os ≠ [] → (h.cells c).dr = .null

/-- The bytes that hold a sequence of hex digits; an odd last digit is in the
    high half. -/
def packAll : List ℕ → List UInt8
  | a :: b :: ns => UInt8.ofNat (16 * a + b) :: packAll ns
  | [a] => [UInt8.ofNat (16 * a)]
  | [] => []

/-- The value cell, its buffer and `sym_len` hold the token. -/
def TokOk (rs : ReaderState) (h : Heap) (S : Set Block) (c : ℕ) (os : List (List ℕ × ℕ)) :
    Token → Prop
  | .idle => rs.state = .atom ∧ Empty h c os
  | .comment => rs.state = .comment ∧ Empty h c os
  | .num x => rs.state = .num ∧ ∃ t, IntCell h S c os t x
  | .numNeg x => rs.state = .numNeg ∧ ∃ t, IntCell h S c os t x
  | .sym s => rs.state = .sym ∧ s ≠ [] ∧ ∃ v b k, Buffer h S c os tagSym v b k s ∧
      rs.symLen = s.length ∧ s.length + 1 < 2 ^ k
  | .str s => rs.state = .str ∧ ∃ v b k, Buffer h S c os tagStr v b k s ∧
      rs.symLen = s.length ∧ s.length + 1 < 2 ^ k
  | .bytes ns => rs.state = .bytes ∧ ∃ v b k, Buffer h S c os tagBytes v b k (packAll ns) ∧
      rs.symLen = ns.length ∧ ns.length + 1 < 2 ^ k / 2 ∧ ∀ n ∈ ns, n < 16

/-- The reader state and the heap represent the abstract state. -/
def Sim (rs : ReaderState) (h : Heap) (a : AbsState) : Prop :=
  ∃ S cs c os, Core rs h a S cs c os ∧ TokOk rs h S c os a.tok

/-- `r` returns a current cell, state and heap that represent `a`, with `m`
    cells still to hand out. -/
def Steps (r : Except Stop (ℕ × ReaderState × Heap)) (m : ℕ) (a : AbsState) : Prop :=
  ∃ c rs h, r = .ok (c, rs, h) ∧ Sim { rs with cell := .cell c } h a ∧ m ≤ h.room

section Tokens

variable {rs : ReaderState} {h h' : Heap} {a a' : AbsState} {S S' : Set Block} {cs : List ℕ}
  {c v : ℕ} {os : List (List ℕ × ℕ)} {d : Datum}

/-- The element in the current cell is the finished datum `d`, built from
    blocks that join the finished data. -/
def Complete (h : Heap) (S : Set Block) (c : ℕ) (os : List (List ℕ × ℕ)) (d : Datum) : Prop :=
  ∃ S', S ⊆ S' ∧ (∀ k, .cell k ∈ S' → k ∉ h.Supply ∧ k ∉ openCells c os) ∧
    (∀ b, .bytes b ∈ S' → b < h.bytesUsed) ∧ Rep h S' (h.cells c).ar d

/-- A cell `cell_alloc` just returned is fresh. -/
theorem Core.fresh (hc : Core rs h a S cs c os) (hin : v ∈ h.Supply) (hout : v ∉ h'.Supply) :
    Fresh h' S c os v where
  notIn := fun hm => hc.cellsOld v hm hin
  notSupply := hout
  notOpen := fun hm => (hc.openFresh v hm).2 hin

/-- The finished data with the current cell added, seen from the list around
    it. -/
theorem Core.insertOld {cs' : List ℕ} {c' : ℕ} (hc : Core rs h a S cs c ((cs', c') :: os)) :
    ∀ k, .cell k ∈ insert (.cell c) S → k ∉ h.Supply ∧ k ∉ openCells c' os := by
  have hnd := List.nodup_cons.mp hc.nodup
  rintro k (hm | hm)
  · injection hm with hkc
    subst hkc
    exact ⟨(hc.openFresh k (by simp)).2, hnd.1⟩
  · exact ⟨hc.cellsOld k hm, fun hko => (hc.openFresh k (List.mem_cons_of_mem _ hko)).1 hm⟩

theorem Core.insertBytesOld (hc : Core rs h a S cs c os) (i : ℕ) :
    ∀ b, .bytes b ∈ insert (.cell i) S → b < h.bytesUsed := by
  rintro b (hm | hm)
  · cases hm
  · exact hc.bytesOld b hm

/-- Completing the element in the current cell, at a space or a closing
    quote. -/
theorem Core.stepNext (hc : Core rs h a S cs c os) (hd : Complete h S c os d)
    (hroom : 0 < h.room) : Steps (readerNextListCell c rs h) (h.room - 1) (a.push d) := by
  obtain ⟨S', hsub, hcells, hbytes, hrep⟩ := hd
  obtain ⟨n, h', hrun, hcore, hn, hrm⟩ := hc.next hsub hcells hbytes hrep hroom
  refine ⟨n, _, h', hrun rs, ⟨_, _, _, _, hcore, rfl, ?_, ?_⟩, by omega⟩
  · rw [hn]
  · intro _; rw [hn]

/-- `)` where a new element could start. Neither `rs->cell` nor `rs->state`
    matters to `reader_end_list`. -/
theorem Core.stepEndIdle (hc : Core rs h a S cs c os) (he : Empty h c os)
    (hclose : a.close = some a') (hroom : 0 < h.room) (st : Pst) (w : Word) :
    Steps (readerEndList c { rs with state := st, cell := w } h) (h.room - 1) a' := by
  unfold AbsState.close at hclose
  cases hout : a.outer with
  | nil => rw [hout] at hclose; cases hclose
  | cons ds dss =>
    rw [hout] at hclose
    obtain rfl := Option.some.inj hclose
    have ho := hc.outer
    rw [hout] at ho
    match os, hc, he, ho with
    | (cs', c') :: os, hc, he, ⟨htag', har', hlev', hslot, hrest⟩ =>
      have hcell : h.cells c = ⟨.null, .null, tagCons⟩ := by
        have h₁ := he.ar
        have h₂ := he.dr (by simp)
        have h₃ := hc.tag
        cases hcc : h.cells c
        simp_all
      -- the inner list is complete: its last cell is the nil cell `c`
      have hrep : Rep h (insert (.cell c) S) (h.cells c').ar (.list a.cur) := by
        rw [har']
        have hnil : Rep h (insert (.cell c) S) (.cell c) (.list []) :=
          Rep.nil (Set.mem_insert _ _) hcell
        have := LevelOk.rep_append hnil
          (hc.cur.mono (AgreeOn.refl S h) (Set.subset_insert (.cell c) S))
        simpa using this
      have hpop := hc.pop hout
      obtain ⟨n, h', hrun, hcore, hn, hrm⟩ := hpop.next (Set.subset_insert (.cell c) S)
        hc.insertOld (hc.insertBytesOld c) hrep hroom
      refine ⟨n,
        { rs with level := rs.level - 1, stack := rs.stack - 1, state := .atom, cell := w }, h', ?_,
        ⟨_, _, _, _, hcore, rfl, ?_, ?_⟩, by omega⟩
      · have hlevel : ¬ rs.level < 1 := by rw [hc.level]; simp
        have hstack : rs.stack - 1 = os.length := by rw [hc.stack]; simp
        have hdeep : os.length < stackSize := hc.deep
        have htop : ReaderState.top { rs with state := st, cell := w, level := rs.level - 1,
                                              stack := rs.stack - 1 } = .ok (.cell c') := by
          simp only [ReaderState.top, hstack]
          rw [if_pos (by omega), Int.toNat_natCast, hslot]
        unfold readerEndList
        rw [if_neg hlevel, terminateList, if_neg (by rw [he.ar]; simp)]
        change (ReaderState.top _ >>= _) = _
        rw [htop]
        exact hrun _
      · rw [hn]
      · intro _; rw [hn]

/-- `)` that also completes the element in the current cell. -/
theorem Core.stepEnd (hc : Core rs h a S cs c os) (hd : Complete h S c os d)
    (hclose : (a.push d).close = some a') (hroom : 2 ≤ h.room) :
    Steps (readerEndList c rs h) (h.room - 2) a' := by
  obtain ⟨S', hsub, hcells, hbytes, hrep⟩ := hd
  obtain ⟨n, h₁, hrun, hcore, hn, hrm⟩ := hc.next hsub hcells hbytes hrep (by omega)
  have hne : (h.cells c).ar ≠ .null := by
    obtain ⟨i, hi, -⟩ := hrep.isCell
    rw [hi]
    simp
  have hempty : Empty h₁ n os := ⟨by rw [hn], fun _ => by rw [hn]⟩
  have hend := hcore.stepEndIdle hempty hclose (by omega) rs.state rs.cell
  have hlink : terminateList c h = .ok h₁ := by
    have hr := hrun rs
    unfold readerNextListCell at hr
    unfold terminateList
    rw [if_pos hne]
    cases hal : h.allocNil with
    | error e => rw [hal] at hr; cases hr
    | ok p =>
      rw [hal] at hr
      injection hr with hr
      simp only [Prod.mk.injEq] at hr
      exact congrArg Except.ok hr.2.2
  have hsame : readerEndList c rs h = readerEndList n rs h₁ := by
    unfold readerEndList
    rw [hlink, terminateList, if_neg (show ¬ (h₁.cells n).ar ≠ .null by rw [hn]; simp)]
    by_cases hl : rs.level < 1
    · exfalso
      have hos : os = [] := List.length_eq_zero_iff.mp (by have := hc.level; omega)
      have := hc.outer.length_eq
      rw [hos] at this
      have hnil : a.outer = [] := List.length_eq_zero_iff.mp this.symm
      simp [AbsState.close, AbsState.push, hnil] at hclose
    · rw [if_neg hl, if_neg hl]
  rw [hsame]
  obtain ⟨c', rs', h', hr, hsim, hrm'⟩ := hend
  exact ⟨c', rs', h', hr, hsim, by omega⟩

end Tokens

end Interim.Reader
