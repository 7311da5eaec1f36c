import Interim.Alloc.Mark

/-!
# `collect_garbage`

Model of `collect_garbage` (`sledge/alloc.c`, lines 182–289): the stack walk
that looks for frame markers, the marking of the global environment and of
`fs_list`, and the sweep that rebuilds the free list.

The stack walk compares words as numbers, so it needs the addresses of the
blocks; `Layout` supplies them.

Main result: `markAndSweep_exact`. On an acyclic heap, when the stack walk finds
no roots, the free list holds exactly the cells in use that are neither
lambdas nor reachable from the environment or `fs_list`, and every other cell
is left as it was.
-/

namespace Interim

/-- `STACK_FRAME_MARKER` of the x64 build (`alloc.h`, line 17). -/
def stackFrameMarker : ℕ := 0xf000000000000001

/-- The addresses of the blocks. -/
structure Layout where
  addr : Block → ℕ

/-- The number a word holds. -/
def Layout.value (L : Layout) : Word → ℕ
  | .int v => v.toNat
  | .ptr b off => ((L.addr b : ℤ) + off).toNat
  | .frame l => L.addr (.cell l) ||| stackFrameMarker
  | .undef => 0

namespace Heap

open Reach

/-! ## The stack walk -/

/-- The walk of lines 200–214 over `n` more words, at address `a` and in state
    `sw` (`sw_state`): the words it passes to `mark_tree`. -/
def walkStack (L : Layout) (stack : ℤ → Word) : ℕ → ℤ → ℕ → List Word
  | 0, _, _ => []
  | n + 1, a, sw =>
    let item := stack a
    let nextItem := stack (a - 1)
    if L.value nextItem = stackFrameMarker then walkStack L stack n (a - 1) 2
    else if sw = 2 then walkStack L stack n (a - 1) 1
    else if sw = 1 then
      if L.value item > L.addr (.cell 0) then item :: walkStack L stack n (a - 1) 1
      else walkStack L stack n (a - 1) 1
    else walkStack L stack n (a - 1) sw

/-- The words `for (a=stack_end; a>=stack_pointer; a--)` passes to
    `mark_tree`. Addresses are in words. -/
def stackRoots (L : Layout) (stack : ℤ → Word) (stackEnd stackPointer : ℤ) : List Word :=
  walkStack L stack (stackEnd - stackPointer + 1).toNat stackEnd 0

/-! ## The sweep -/

/-- `tag & ~TAG_MARK`: the bits of `tag` with those of `TAG_MARK` removed. -/
def clearMark (t : ℕ) : ℕ := t ^^^ (t &&& tagMark)

/-- One iteration of the sweep loop (lines 249–274) on the heap and `gc`. -/
def sweepStep (s : Heap × ℕ) (i : ℕ) : Heap × ℕ :=
  let c := s.1.cells i
  let s :=
    if c.tag &&& tagMark = 0 ∧ c.tag ≠ tagLambda then
      ({ s.1.setCell i { c with tag := tagFreed } with freeList := s.1.freeList ++ [i] }, s.2 + 1)
    else s
  (s.1.setCell i { s.1.cells i with tag := clearMark (s.1.cells i).tag }, s.2)

/-- The sweep (lines 238–274): the free list and the count of freed cells. -/
def sweep (h : Heap) : Heap × ℕ :=
  (List.range h.cellsUsed).foldl sweepStep ({ h with freeList := [], freeListConsumed := 0 }, 0)

/-! ## The collector -/

/-- `collect_garbage` up to the allocation of its result: mark from the stack,
    from every environment entry and from `fs_list`, then sweep. -/
def markAndSweep (n : ℕ) (h : Heap) (env : List EnvEntry) (fsList : Word)
    (stackWords : List Word) : Except Stop (Heap × ℕ) := do
  let h ← stackWords.foldlM (fun h w => markTree n h w) h
  let h ← (env.map EnvEntry.cell).foldlM (fun h w => markTree n h w) h
  let h ← markTree n h fsList
  .ok h.sweep

/-- `collect_garbage(global_env, stack_end, stack_pointer)`. -/
def collectGarbage (n : ℕ) (h : Heap) (env : List EnvEntry) (fsList : Word) (L : Layout)
    (stack : ℤ → Word) (stackEnd stackPointer : ℤ) : Except Stop (ℕ × Heap) := do
  let (h, gc) ← h.markAndSweep n env fsList (stackRoots L stack stackEnd stackPointer)
  h.allocInt (BitVec.ofNat 64 gc)

/-! ## Specification of the sweep -/

theorem clearMark_of_unmarked {t : ℕ} (ht : t &&& tagMark = 0) : clearMark t = t := by
  apply Nat.eq_of_testBit_eq
  intro k
  have hk : (t &&& tagMark).testBit k = false := by rw [ht]; simp
  rw [Nat.testBit_and] at hk
  rw [clearMark, Nat.testBit_xor, Nat.testBit_and]
  revert hk
  cases t.testBit k <;> cases tagMark.testBit k <;> simp

theorem clearMark_or {t : ℕ} (ht : t &&& tagMark = 0) : clearMark (t ||| tagMark) = t := by
  apply Nat.eq_of_testBit_eq
  intro k
  have hk : (t &&& tagMark).testBit k = false := by rw [ht]; simp
  rw [Nat.testBit_and] at hk
  rw [clearMark, Nat.testBit_xor, Nat.testBit_and, Nat.testBit_or]
  revert hk
  cases t.testBit k <;> cases tagMark.testBit k <;> simp

theorem clearMark_freed : clearMark tagFreed = tagFreed := by decide

/-- Cell `i` is put on the free list by a sweep that finds `M` marked. -/
def Garbage (h : Heap) (M : Set ℕ) (i : ℕ) : Prop := i ∉ M ∧ (h.cells i).tag ≠ tagLambda

open Classical in
/-- The heap after the sweep has passed the cells below `k`. -/
noncomputable def sweptTo (h : Heap) (M : Set ℕ) (k : ℕ) : Heap :=
  { h with
    cells := fun i =>
      if i < k then
        if h.Garbage M i then { h.cells i with tag := tagFreed } else h.cells i
      else (h.withMarks M).cells i
    freeList := (List.range k).filter fun i => decide (h.Garbage M i)
    freeListConsumed := 0 }

theorem sweptTo_cells_of_lt (h : Heap) (M : Set ℕ) {k i : ℕ} (hi : i < k) :
    (h.sweptTo M k).cells i =
      open Classical in
      if h.Garbage M i then { h.cells i with tag := tagFreed } else h.cells i := by
  unfold sweptTo
  simp only [if_pos hi]

theorem sweptTo_cells_of_le (h : Heap) (M : Set ℕ) {k i : ℕ} (hi : k ≤ i) :
    (h.sweptTo M k).cells i = (h.withMarks M).cells i := by
  unfold sweptTo
  simp only [if_neg (not_lt.mpr hi)]

/-- The sweep loop, cell by cell. -/
theorem sweepStep_sweptTo {h : Heap} (hum : ∀ i, h.Unmarked i) (M : Set ℕ) (k : ℕ) :
    sweepStep (h.sweptTo M k, (h.sweptTo M k).freeList.length) k =
      (h.sweptTo M (k + 1), (h.sweptTo M (k + 1)).freeList.length) := by
  classical
  have hcells : ∀ c, (if h.Garbage M k then { h.cells k with tag := tagFreed } else h.cells k) = c →
      Function.update (h.sweptTo M k).cells k c = (h.sweptTo M (k + 1)).cells := by
    rintro c rfl
    funext j
    rcases lt_trichotomy j k with hj | rfl | hj
    · rw [Function.update_of_ne hj.ne, sweptTo_cells_of_lt h M hj,
        sweptTo_cells_of_lt h M (Nat.lt_succ_of_lt hj)]
    · rw [Function.update_self, sweptTo_cells_of_lt h M (Nat.lt_succ_self j)]
    · rw [Function.update_of_ne hj.ne', sweptTo_cells_of_le h M hj.le,
        sweptTo_cells_of_le h M hj]
  have hk : (h.sweptTo M k).cells k = (h.withMarks M).cells k := sweptTo_cells_of_le h M le_rfl
  have hlist : (h.sweptTo M (k + 1)).freeList =
      if h.Garbage M k then (h.sweptTo M k).freeList ++ [k] else (h.sweptTo M k).freeList := by
    unfold sweptTo
    rw [List.range_succ, List.filter_append]
    by_cases hg : h.Garbage M k <;> simp [hg]
  have hext : ∀ (cs : ℕ → Cell) (fl : List ℕ), cs = (h.sweptTo M (k + 1)).cells →
      fl = (h.sweptTo M (k + 1)).freeList →
      { h.sweptTo M k with cells := cs, freeList := fl } = h.sweptTo M (k + 1) := by
    rintro _ _ rfl rfl
    rfl
  have htag : clearMark ((h.withMarks M).cells k).tag = (h.cells k).tag := by
    by_cases hM : k ∈ M
    · rw [withMarks_cells_of_mem h hM]; exact clearMark_or (hum k)
    · rw [withMarks_cells_of_notMem h hM]; exact clearMark_of_unmarked (hum k)
  by_cases hg : h.Garbage M k
  · -- unmarked and no lambda: freed
    have hcond : ((h.withMarks M).cells k).tag &&& tagMark = 0 ∧
        ((h.withMarks M).cells k).tag ≠ tagLambda := by
      rw [withMarks_cells_of_notMem h hg.1]; exact ⟨hum k, hg.2⟩
    have hfl : (h.sweptTo M (k + 1)).freeList = (h.sweptTo M k).freeList ++ [k] := by
      rw [hlist, if_pos hg]
    have hheap := hext _ ((h.sweptTo M k).freeList ++ [k])
      (hcells { h.cells k with tag := tagFreed } (if_pos hg)) hfl.symm
    unfold sweepStep
    simp only [hk, if_pos hcond]
    rw [Prod.mk.injEq]
    refine ⟨?_, by rw [hfl]; simp⟩
    rw [← hheap]
    simp [setCell, withMarks_cells_of_notMem h hg.1, clearMark_freed]
  · -- marked, or a lambda: kept
    have hcond : ¬ (((h.withMarks M).cells k).tag &&& tagMark = 0 ∧
        ((h.withMarks M).cells k).tag ≠ tagLambda) := by
      by_cases hM : k ∈ M
      · exact fun hc => ((withMarks_unmarked_iff h M k).mp hc.1).2 hM
      · rw [withMarks_cells_of_notMem h hM]
        exact fun hc => hg ⟨hM, hc.2⟩
    have hfl : (h.sweptTo M (k + 1)).freeList = (h.sweptTo M k).freeList := by
      rw [hlist, if_neg hg]
    have hcell : { (h.withMarks M).cells k with
        tag := clearMark ((h.withMarks M).cells k).tag } = h.cells k := by
      rw [htag]
      by_cases hM : k ∈ M
      · rw [withMarks_cells_of_mem h hM]
      · rw [withMarks_cells_of_notMem h hM]
    have hheap := hext _ (h.sweptTo M k).freeList (hcells (h.cells k) (if_neg hg)) hfl.symm
    unfold sweepStep
    simp only [hk, if_neg hcond]
    rw [Prod.mk.injEq]
    refine ⟨?_, by rw [hfl]⟩
    rw [← hheap, setCell, hcell]

theorem foldl_sweepStep {h : Heap} (hum : ∀ i, h.Unmarked i) (M : Set ℕ) (k : ℕ) :
    (List.range k).foldl sweepStep ({ h.withMarks M with freeList := [], freeListConsumed := 0 }, 0) =
      (h.sweptTo M k, (h.sweptTo M k).freeList.length) := by
  induction k with
  | zero => simp [sweptTo, withMarks]
  | succ k ih =>
    rw [List.range_succ, List.foldl_append, ih, List.foldl_cons, List.foldl_nil,
      sweepStep_sweptTo hum]

theorem sweep_withMarks {h : Heap} (hum : ∀ i, h.Unmarked i) (M : Set ℕ) :
    (h.withMarks M).sweep =
      (h.sweptTo M h.cellsUsed, (h.sweptTo M h.cellsUsed).freeList.length) :=
  foldl_sweepStep hum M h.cellsUsed

/-! ## What a collection keeps and what it frees -/

/-- The cells reachable from the given roots along the pointers `mark_tree`
    follows. -/
def live (h : Heap) (stackWords : List Word) (env : List EnvEntry) (fsList : Word) : Set ℕ :=
  h.reachWords (stackWords ++ env.map EnvEntry.cell ++ [fsList])

theorem reachWords_append (h : Heap) (ws ws' : List Word) :
    h.reachWords (ws ++ ws') = h.reachWords ws ∪ h.reachWords ws' := by
  induction ws with
  | nil => rw [reachWords_nil, List.nil_append, Set.empty_union]
  | cons w ws ih =>
    rw [List.cons_append, reachWords_cons, ih, reachWords_cons, Set.union_assoc]

theorem reachWords_closed (h : Heap) (ws : List Word) : Closed h.Edge (h.reachWords ws) := by
  rintro a ⟨w, hw, ha⟩ b hab
  exact ⟨w, hw, h.reachWord_closed w a ha b hab⟩

theorem live_eq (h : Heap) (stackWords : List Word) (env : List EnvEntry) (fsList : Word) :
    h.live stackWords env fsList = h.reachWords stackWords ∪
      h.reachWords (env.map EnvEntry.cell) ∪ h.reachWord fsList := by
  unfold live
  rw [reachWords_append, reachWords_append, reachWords_cons, reachWords_nil, Set.union_empty]

/-- `collect_garbage` up to the allocation of its result, for any roots the
    stack walk finds. -/
theorem markAndSweep_spec {h : Heap} (hwf : h.WellFormed) (hac : Acyclic h.Edge)
    {env : List EnvEntry} {fsList : Word} (stackWords : List Word)
    (hstack : ∀ w ∈ stackWords, h.ValidRef w) (henv : ∀ e ∈ env, h.ValidRef e.cell)
    (hfs : h.ValidRef fsList) :
    ∃ N, ∀ n ≥ N, h.markAndSweep n env fsList stackWords =
      .ok (h.sweptTo (h.live stackWords env fsList) h.cellsUsed,
        (h.sweptTo (h.live stackWords env fsList) h.cellsUsed).freeList.length) := by
  obtain ⟨N₁, h₁⟩ := foldlM_markTree stackWords fun w hw => markTree_spec hwf hac (hstack w hw)
  obtain ⟨N₂, h₂⟩ := foldlM_markTree (env.map EnvEntry.cell) fun w hw => by
    obtain ⟨e, he, rfl⟩ := List.mem_map.mp hw
    exact markTree_spec hwf hac (henv e he)
  obtain ⟨N₃, h₃⟩ := markTree_spec hwf hac hfs
  refine ⟨max N₁ (max N₂ N₃), fun n hn => ?_⟩
  have hn₁ : n ≥ N₁ := le_trans (le_max_left _ _) hn
  have hn₂ : n ≥ N₂ := le_trans (le_trans (le_max_left _ _) (le_max_right _ _)) hn
  have hn₃ : n ≥ N₃ := le_trans (le_trans (le_max_right _ _) (le_max_right _ _)) hn
  rw [freshEdge_eq hwf.unmarked] at h₁ h₂ h₃
  rw [freshReaches_eq hwf.unmarked] at h₁ h₂
  rw [freshReach_eq hwf.unmarked] at h₃
  have e₁ := h₁ n hn₁ ∅ closed_empty
  rw [withMarks_empty, Set.empty_union] at e₁
  have e₂ := h₂ n hn₂ _ (h.reachWords_closed stackWords)
  have e₃ := h₃ n hn₃ _ ((h.reachWords_closed stackWords).union
    (h.reachWords_closed (env.map EnvEntry.cell)))
  unfold markAndSweep
  rw [e₁]
  change ((env.map EnvEntry.cell).foldlM (fun h w => markTree n h w) _ >>= _) = _
  rw [e₂]
  change (markTree n _ fsList >>= _) = _
  rw [e₃, ← live_eq]
  change Except.ok (h.withMarks (h.live stackWords env fsList)).sweep = _
  rw [sweep_withMarks hwf.unmarked]

/-- A collection that returns has swept with the live cells marked, on any heap
    without marks. -/
theorem markAndSweep_ok {n : ℕ} {h h' : Heap} {k : ℕ} (hum : ∀ i, h.Unmarked i)
    {env : List EnvEntry} {fsList : Word} {stackWords : List Word}
    (hrun : h.markAndSweep n env fsList stackWords = .ok (h', k)) :
    h' = h.sweptTo (h.live stackWords env fsList) h.cellsUsed ∧ k = h'.freeList.length := by
  have hnone : h.NoCycle ∅ := fun j hj => absurd hj (Set.notMem_empty j)
  unfold markAndSweep at hrun
  obtain ⟨h₁, h1, hrun⟩ := bind_ok.mp hrun
  obtain ⟨h₂, h2, hrun⟩ := bind_ok.mp hrun
  obtain ⟨h₃, h3, hrun⟩ := bind_ok.mp hrun
  rw [← h.withMarks_empty] at h1
  obtain ⟨rfl, hc₁⟩ := foldlM_returns (markTree_ok n) stackWords closed_empty hnone h1
  have hcl : ∀ ws, Closed h.FreshEdge (h.freshReaches ws) := by
    intro ws
    rw [freshEdge_eq hum, freshReaches_eq hum]
    exact h.reachWords_closed ws
  rw [Set.empty_union] at h2 hc₁
  obtain ⟨rfl, hc₂⟩ := foldlM_returns (markTree_ok n) _ (hcl stackWords) hc₁ h2
  obtain ⟨rfl, -⟩ := markTree_ok n h3
  rw [withMarks_withMarks, union_freshReach_withMarks ((hcl stackWords).union (hcl _)),
    freshReach_eq hum, freshReaches_eq hum, freshReaches_eq hum] at hrun
  rw [← live_eq, sweep_withMarks hum] at hrun
  obtain ⟨rfl, rfl⟩ := Prod.mk.inj (Except.ok.inj hrun)
  exact ⟨rfl, rfl⟩

theorem mem_sweptTo_freeList (h : Heap) (M : Set ℕ) (k i : ℕ) :
    i ∈ (h.sweptTo M k).freeList ↔ i < k ∧ (h.cells i).tag ≠ tagLambda ∧ i ∉ M := by
  classical
  unfold sweptTo
  rw [List.mem_filter, List.mem_range]
  constructor
  · rintro ⟨hk, hg⟩
    have hg' : h.Garbage M i := of_decide_eq_true hg
    exact ⟨hk, hg'.2, hg'.1⟩
  · rintro ⟨hk, hl, hM⟩
    exact ⟨hk, decide_eq_true (⟨hM, hl⟩ : h.Garbage M i)⟩

/-- The sweep leaves the cells it does not free as they were before marking. -/
theorem sweptTo_cells_of_kept {h : Heap} {M : Set ℕ} (hM : ∀ i ∈ M, i < h.cellsUsed) {i : ℕ}
    (hi : i ∉ (h.sweptTo M h.cellsUsed).freeList) :
    (h.sweptTo M h.cellsUsed).cells i = h.cells i := by
  rw [mem_sweptTo_freeList] at hi
  by_cases hlt : i < h.cellsUsed
  · rw [sweptTo_cells_of_lt h M hlt, if_neg fun hg : h.Garbage M i => hi ⟨hlt, hg.2, hg.1⟩]
  · rw [sweptTo_cells_of_le h M (not_lt.mp hlt),
      withMarks_cells_of_notMem h fun hm => hlt (hM i hm)]

theorem sweptTo_tag_of_freed {h : Heap} {M : Set ℕ} {i : ℕ}
    (hi : i ∈ (h.sweptTo M h.cellsUsed).freeList) :
    ((h.sweptTo M h.cellsUsed).cells i).tag = tagFreed := by
  rw [mem_sweptTo_freeList] at hi
  have hg : h.Garbage M i := ⟨hi.2.2, hi.2.1⟩
  rw [sweptTo_cells_of_lt h M hi.1, if_pos hg]

theorem sweptTo_freeList_length_le (h : Heap) (M : Set ℕ) :
    (h.sweptTo M h.cellsUsed).freeList.length ≤ h.cellsUsed := by
  classical
  have := List.length_filter_le (fun i => decide (h.Garbage M i)) (List.range h.cellsUsed)
  rwa [List.length_range] at this

theorem sweptTo_freeList_nodup (h : Heap) (M : Set ℕ) (k : ℕ) : (h.sweptTo M k).freeList.Nodup := by
  classical
  exact List.nodup_range.filter _

/-- Everything reachable from valid roots is in use. -/
theorem reachWord_lt {h : Heap} (hwf : h.WellFormed) {w : Word} (hw : h.ValidRef w) {i : ℕ}
    (hi : i ∈ h.reachWord w) : i < h.cellsUsed := by
  obtain ⟨k, rfl, hk⟩ := hi
  rcases hw with h0 | ⟨j, hj, hjk⟩
  · cases h0
  · cases hjk
    rcases Relation.ReflTransGen.cases_tail hk with rfl | ⟨m, -, hm⟩
    · exact hj
    · exact hm.lt_cellsUsed hwf

/-- **Exactness of mark and sweep.** On an acyclic heap, when the stack walk
    contributes no roots, `collect_garbage` succeeds with every sufficient
    bound on its recursion depth, and just before it allocates its result cell
    the free list holds, each once and with tag `TAG_FREED`, exactly the cells
    in use that are no lambda and not reachable from an environment entry or
    from `fs_list`; every other cell is unchanged, no cell is marked, and the
    integer it returns is the length of the free list. -/
theorem collectGarbage_exact {h : Heap} (hwf : h.WellFormed) (hac : Acyclic h.Edge)
    (hmax : h.cellsUsed ≤ maxCells) (env : List EnvEntry) (fsList : Word) (L : Layout)
    (stack : ℤ → Word) (stackEnd stackPointer : ℤ) (henv : ∀ e ∈ env, h.ValidRef e.cell)
    (hfs : h.ValidRef fsList) (hstack : stackRoots L stack stackEnd stackPointer = []) :
    ∃ N, ∀ n ≥ N, ∃ h' : Heap,
      h.markAndSweep n env fsList (stackRoots L stack stackEnd stackPointer) =
        .ok (h', h'.freeList.length) ∧
      h.collectGarbage n env fsList L stack stackEnd stackPointer =
        h'.allocInt (BitVec.ofNat 64 h'.freeList.length) ∧
      boxInt (BitVec.ofNat 64 h'.freeList.length) = BitVec.ofNat 64 h'.freeList.length ∧
      (∀ i, i ∈ h'.freeList ↔ i < h.cellsUsed ∧ (h.cells i).tag ≠ tagLambda ∧
        i ∉ h.live [] env fsList) ∧
      h'.freeList.Nodup ∧ h'.freeListConsumed = 0 ∧
      (∀ i ∈ h'.freeList, (h'.cells i).tag = tagFreed) ∧
      (∀ i, i ∉ h'.freeList → h'.cells i = h.cells i) ∧
      (∀ i, (h'.cells i).tag &&& tagMark = 0) := by
  obtain ⟨N, hN⟩ := markAndSweep_spec hwf hac [] (by simp) henv hfs
  set M := h.live [] env fsList with hM
  have hbelow : ∀ i ∈ M, i < h.cellsUsed := by
    rintro i ⟨w, hw, hi⟩
    rw [List.nil_append, List.mem_append, List.mem_singleton] at hw
    rcases hw with hw | rfl
    · obtain ⟨e, he, rfl⟩ := List.mem_map.mp hw
      exact reachWord_lt hwf (henv e he) hi
    · exact reachWord_lt hwf hfs hi
  have hkeep : ∀ i, i ∉ (h.sweptTo M h.cellsUsed).freeList →
      (h.sweptTo M h.cellsUsed).cells i = h.cells i := fun i hi => sweptTo_cells_of_kept hbelow hi
  have hfreed : ∀ i ∈ (h.sweptTo M h.cellsUsed).freeList,
      ((h.sweptTo M h.cellsUsed).cells i).tag = tagFreed := fun i hi => sweptTo_tag_of_freed hi
  have hlen := sweptTo_freeList_length_le h M
  refine ⟨N, fun n hn => ⟨h.sweptTo M h.cellsUsed, ?_, ?_, ?_, ?_, ?_, rfl, hfreed, hkeep, ?_⟩⟩
  · rw [hstack]; exact hN n hn
  · unfold collectGarbage
    rw [hstack, hN n hn]
    rfl
  · unfold boxInt
    have : (h.sweptTo M h.cellsUsed).freeList.length < 2 ^ 31 := by
      unfold maxCells at hmax; omega
    generalize (h.sweptTo M h.cellsUsed).freeList.length = k at this
    apply BitVec.eq_of_toInt_eq
    rw [BitVec.toInt_signExtend_of_le (by norm_num), BitVec.toInt_eq_toNat_of_lt,
      BitVec.toInt_eq_toNat_of_lt] <;> simp <;> omega
  · intro i; exact h.mem_sweptTo_freeList M h.cellsUsed i
  · exact sweptTo_freeList_nodup h M h.cellsUsed
  · intro i
    by_cases hi : i ∈ (h.sweptTo M h.cellsUsed).freeList
    · rw [hfreed i hi]; rfl
    · rw [hkeep i hi]; exact hwf.unmarked i

/-- A five-cell heap: cell `0` is the list `(7)` bound in the environment, cell
    `3` an unbound lambda and cell `4` a cons nothing points to. -/
def fiveCells : Heap :=
  { init with
    cells := fun i =>
      if i = 0 then ⟨.cell 1, .cell 2, tagCons⟩
      else if i = 1 then ⟨.int 7, .null, tagInt⟩
      else if i = 2 then ⟨.null, .null, tagCons⟩
      else if i = 3 then ⟨.cell 2, .null, tagLambda⟩
      else if i = 4 then ⟨.cell 1, .null, tagCons⟩
      else ⟨.null, .null, tagFreed⟩
    cellsUsed := 5 }

theorem fiveCells_cases (i : ℕ) : i = 0 ∨ i = 1 ∨ i = 2 ∨ i = 3 ∨ i = 4 ∨ 5 ≤ i := by omega

theorem fiveCells_children_ge {i : ℕ} (hi : 5 ≤ i) : fiveCells.children i = .ok [] := by
  have hc : fiveCells.cells i = ⟨.null, .null, tagFreed⟩ := by
    simp [fiveCells, show i ≠ 0 by omega, show i ≠ 1 by omega, show i ≠ 2 by omega,
      show i ≠ 3 by omega, show i ≠ 4 by omega]
  simp [children, hc]

theorem fiveCells_wellFormed : fiveCells.WellFormed where
  children := by
    have hv : ∀ k < 5, fiveCells.ValidRef (.cell k) := fun k hk => Or.inr ⟨k, hk, rfl⟩
    intro i
    rcases fiveCells_cases i with rfl | rfl | rfl | rfl | rfl | hi
    · refine ⟨[.cell 1, .cell 2], rfl, ?_⟩
      simp [hv 1 (by norm_num), hv 2 (by norm_num)]
    · exact ⟨[], rfl, by simp⟩
    · refine ⟨[.null, .null], rfl, ?_⟩
      simp [ValidRef]
    · refine ⟨[.cell 2], rfl, ?_⟩
      simp [hv 2 (by norm_num)]
    · refine ⟨[.cell 1, .null], rfl, ?_⟩
      simp only [List.mem_cons, List.not_mem_nil, or_false, forall_eq_or_imp, forall_eq]
      exact ⟨hv 1 (by norm_num), Or.inl rfl⟩
    · exact ⟨[], fiveCells_children_ge hi, by simp⟩
  unused := fun i hi => fiveCells_children_ge hi
  unmarked := by
    intro i
    rcases fiveCells_cases i with rfl | rfl | rfl | rfl | rfl | hi <;> try rfl
    simp [fiveCells, show i ≠ 0 by omega, show i ≠ 1 by omega, show i ≠ 2 by omega,
      show i ≠ 3 by omega, show i ≠ 4 by omega]

/-- All pointers of `fiveCells` lead from cells `0`, `3` and `4` to cells `1`
    and `2`. -/
theorem fiveCells_edge {i j : ℕ} (he : fiveCells.Edge i j) :
    (i = 0 ∨ i = 3 ∨ i = 4) ∧ (j = 1 ∨ j = 2) := by
  obtain ⟨ws, hws, hj⟩ := he
  rcases fiveCells_cases i with rfl | rfl | rfl | rfl | rfl | hi
  · cases hws; simpa [fiveCells] using hj
  · cases hws; simp at hj
  · cases hws; simp [fiveCells] at hj
  · cases hws
    have hj2 : j = 2 := by simpa [fiveCells] using hj
    omega
  · cases hws
    have hj1 : j = 1 := by simpa [fiveCells] using hj
    omega
  · rw [fiveCells_children_ge hi] at hws; cases hws; simp at hj

theorem fiveCells_acyclic : Acyclic fiveCells.Edge := by
  intro i hi
  obtain ⟨j, -, hj⟩ := Relation.TransGen.tail'_iff.mp hi
  obtain ⟨k, hk, -⟩ := Relation.TransGen.head'_iff.mp hi
  have h₁ := (fiveCells_edge hj).2
  have h₂ := (fiveCells_edge hk).1
  omega

/-- In `fiveCells` the unbound cons is collected, the list and the lambda are
    kept. -/
theorem collectGarbage_fiveCells :
    ∃ N, ∀ n ≥ N, ∃ h' : Heap,
      fiveCells.markAndSweep n [⟨.cell 0, [120]⟩] (.cell 2)
        (stackRoots ⟨fun _ => 4096⟩ (fun _ => .int 5) 3 0) = .ok (h', h'.freeList.length) ∧
      4 ∈ h'.freeList ∧ 3 ∉ h'.freeList ∧ 0 ∉ h'.freeList := by
  have hv : ∀ k < 5, fiveCells.ValidRef (.cell k) := fun k hk => Or.inr ⟨k, hk, rfl⟩
  obtain ⟨N, hN⟩ := collectGarbage_exact fiveCells_wellFormed fiveCells_acyclic
    (show 5 ≤ maxCells by decide) [⟨.cell 0, [120]⟩] (.cell 2) ⟨fun _ => 4096⟩ (fun _ => .int 5) 3 0
    (by simpa using hv 0 (by norm_num)) (hv 2 (by norm_num)) (by decide)
  refine ⟨N, fun n hn => ?_⟩
  obtain ⟨h', hrun, -, -, hmem, -⟩ := hN n hn
  have hlive : ∀ j ∈ fiveCells.live [] [⟨.cell 0, [120]⟩] (.cell 2), j = 0 ∨ j = 1 ∨ j = 2 := by
    rintro j ⟨w, hw, k, rfl, hk⟩
    have hk0 : k = 0 ∨ k = 2 := by simpa using hw
    rcases Relation.ReflTransGen.cases_tail hk with rfl | ⟨m, -, hm⟩
    · omega
    · have := (fiveCells_edge hm).2; omega
  have h0 : 0 ∈ fiveCells.live [] [⟨.cell 0, [120]⟩] (.cell 2) :=
    ⟨.cell 0, by simp, 0, rfl, mem_reach_self 0⟩
  refine ⟨h', hrun, (hmem 4).mpr ⟨by decide, by decide, fun h4 => ?_⟩, fun h3 => ?_, fun h00 => ?_⟩
  · have := hlive 4 h4; omega
  · exact ((hmem 3).mp h3).2.1 rfl
  · exact ((hmem 0).mp h00).2.2 h0

end Heap

end Interim
