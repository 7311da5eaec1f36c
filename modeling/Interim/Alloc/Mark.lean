import Interim.Alloc.Heap
import Interim.Library.Reach

/-!
# `mark_tree`

Model of `mark_tree` (`sledge/alloc.c`, lines 100–161). The mark bit lives in
the tag that selects a cell's outgoing pointers, and it is set after the
recursive calls return, so the C function does not return on a cyclic heap;
the model takes an evaluation bound.

A heap may come with marks. `mark_tree` only goes along pointers between
unmarked cells (`FreshEdge`), and

* when it returns, it has marked exactly the cells it can reach along them, and
  none of these lies on a cycle (`markTree_ok`);
* it returns when none of them does (`markTree_fresh`).

`markTree_spec` is the case of an acyclic heap without marks, as
`collect_garbage` finds it.
-/

namespace Interim.Heap

open Reach

/-! ## Model -/

/-- The elements `mark_tree` visits in a vector, struct or struct definition:
    `int sz = c->dr.size; for (i=0; i<sz; i++) mark_tree(elements[i])`. -/
def elements (h : Heap) (c : Cell) : Except Stop (List Word) :=
  match c.dr with
  | .int v =>
    if toInt32 v.toNat ≤ 0 then .ok []
    else match c.ar with
      | .ptr (.elems b) off =>
        if off = 0 ∧ (toInt32 v.toNat).toNat ≤ (h.elems b).length then
          .ok ((h.elems b).take (toInt32 v.toNat).toNat)
        else .error .fault
      | _ => .error .fault
  | _ => .error .fault

/-- The pointers `mark_tree` follows out of cell `i`, in the order it follows
    them. -/
def children (h : Heap) (i : ℕ) : Except Stop (List Word) :=
  let c := h.cells i
  if c.tag = tagCons then .ok [c.ar, c.dr]
  else if c.tag = tagLambda then .ok [c.ar]
  else if c.tag = tagBuiltin then .ok [c.dr]
  else if c.tag = tagStream then
    match c.ar with
    | .int v => if v = 0 then .ok [] else .error .fault
    | .ptr (.stream s) off => if off = 0 then .ok [(h.streams s).path] else .error .fault
    | _ => .error .fault
  else if c.tag = tagFs then
    match c.dr with
    | .int v => if v = 0 then .ok [] else .error .fault
    | .ptr (.filesystem f) off =>
      let fs := h.filesystems f
      if off = 0 then
        .ok [fs.mountPoint, fs.openFn, fs.closeFn, fs.readFn, fs.writeFn, fs.deleteFn, fs.mmapFn]
      else .error .fault
    | _ => .error .fault
  else if c.tag = tagVec ∨ c.tag = tagStruct ∨ c.tag = tagStructDef then h.elements c
  else .ok []

/-- `c->tag |= TAG_MARK`. -/
def orMark (h : Heap) (i : ℕ) : Heap :=
  h.setCell i { h.cells i with tag := (h.cells i).tag ||| tagMark }

/-- `mark_tree(c)`, with recursion depth at most the first argument. -/
def markTree : ℕ → Heap → Word → Except Stop Heap
  | 0, _, _ => .error .fuel
  | n + 1, h, w =>
    match w.asCell with
    | none => .error .fault
    | some none => .ok h
    | some (some i) =>
      if (h.cells i).tag &&& tagMark ≠ 0 then .ok h
      else do
        let ws ← h.children i
        let h ← ws.foldlM (fun h w => markTree n h w) h
        .ok (h.orMark i)

/-! ## The pointer graph -/

/-- Cell `i` has an outgoing pointer to cell `j`. -/
def Edge (h : Heap) (i j : ℕ) : Prop :=
  ∃ ws, h.children i = .ok ws ∧ Word.cell j ∈ ws

/-- `w` is `NULL` or points to a cell in use. -/
def ValidRef (h : Heap) (w : Word) : Prop := w = .null ∨ ∃ i < h.cellsUsed, w = .cell i

/-- Every cell in use has readable outgoing pointers, each `NULL` or to a cell
    in use; unused cells have none, and no cell carries the mark bit. -/
structure WellFormed (h : Heap) : Prop where
  children : ∀ i, ∃ ws, h.children i = .ok ws ∧ ∀ w ∈ ws, h.ValidRef w
  unused : ∀ i, h.cellsUsed ≤ i → h.children i = .ok []
  unmarked : ∀ i, (h.cells i).tag &&& tagMark = 0

theorem Edge.lt_cellsUsed {h : Heap} (hwf : h.WellFormed) {i j : ℕ} (he : h.Edge i j) :
    j < h.cellsUsed := by
  obtain ⟨ws, hws, hj⟩ := he
  obtain ⟨ws', hws', hval⟩ := hwf.children i
  rw [hws] at hws'
  cases hws'
  rcases hval _ hj with h0 | ⟨k, hk, hkj⟩
  · cases h0
  · cases hkj; exact hk

/-! ## Marked heaps -/

open Classical in
/-- `h` with the mark bit set on exactly the cells of `M`. -/
noncomputable def withMarks (h : Heap) (M : Set ℕ) : Heap :=
  { h with
    cells := fun i =>
      if i ∈ M then { h.cells i with tag := (h.cells i).tag ||| tagMark } else h.cells i }

theorem withMarks_empty (h : Heap) : h.withMarks ∅ = h := by
  unfold withMarks; simp

theorem withMarks_cells_of_mem (h : Heap) {M : Set ℕ} {i : ℕ} (hi : i ∈ M) :
    (h.withMarks M).cells i = { h.cells i with tag := (h.cells i).tag ||| tagMark } :=
  if_pos hi

theorem withMarks_cells_of_notMem (h : Heap) {M : Set ℕ} {i : ℕ} (hi : i ∉ M) :
    (h.withMarks M).cells i = h.cells i :=
  if_neg hi

theorem or_tagMark_and_tagMark (t : ℕ) : (t ||| tagMark) &&& tagMark ≠ 0 := by
  intro h0
  have hb : ((t ||| tagMark) &&& tagMark).testBit 16 = true := by
    rw [Nat.testBit_and, Nat.testBit_or, show tagMark.testBit 16 = true by decide]
    simp
  rw [h0] at hb
  simp at hb

/-- The mark bit of cell `i` is clear. -/
def Unmarked (h : Heap) (i : ℕ) : Prop := (h.cells i).tag &&& tagMark = 0

theorem markTree_marked {n : ℕ} {h : Heap} {i : ℕ} (hi : ¬ h.Unmarked i) :
    markTree (n + 1) h (.cell i) = .ok h := if_pos hi

theorem markTree_unmarked {n : ℕ} {h : Heap} {i : ℕ} (hi : h.Unmarked i) :
    markTree (n + 1) h (.cell i) = h.children i >>= fun ws =>
      ws.foldlM (fun h w => markTree n h w) h >>= fun h' => .ok (h'.orMark i) :=
  if_neg (not_not.mpr hi)

/-- The unmarked cells of `h.withMarks M` are those of `h` outside `M`. -/
theorem withMarks_unmarked_iff (h : Heap) (M : Set ℕ) (i : ℕ) :
    (h.withMarks M).Unmarked i ↔ h.Unmarked i ∧ i ∉ M := by
  unfold Unmarked
  by_cases hi : i ∈ M
  · rw [withMarks_cells_of_mem h hi]
    exact iff_of_false (or_tagMark_and_tagMark _) fun hn => hn.2 hi
  · rw [withMarks_cells_of_notMem h hi]
    exact ⟨fun hu => ⟨hu, hi⟩, fun hu => hu.1⟩

theorem withMarks_withMarks (h : Heap) (M M' : Set ℕ) :
    (h.withMarks M).withMarks M' = h.withMarks (M ∪ M') := by
  have hcells : ((h.withMarks M).withMarks M').cells = (h.withMarks (M ∪ M')).cells := by
    funext i
    by_cases hi : i ∈ M'
    · have hU : i ∈ M ∪ M' := Or.inr hi
      rw [withMarks_cells_of_mem _ hi, withMarks_cells_of_mem h hU]
      by_cases hM : i ∈ M
      · rw [withMarks_cells_of_mem h hM, Nat.or_assoc, Nat.or_self]
      · rw [withMarks_cells_of_notMem h hM]
    · rw [withMarks_cells_of_notMem _ hi]
      by_cases hM : i ∈ M
      · have hU : i ∈ M ∪ M' := Or.inl hM
        rw [withMarks_cells_of_mem h hM, withMarks_cells_of_mem h hU]
      · rw [withMarks_cells_of_notMem h hM, withMarks_cells_of_notMem h (by simp [hM, hi])]
  change { h with cells := ((h.withMarks M).withMarks M').cells } =
    { h with cells := (h.withMarks (M ∪ M')).cells }
  rw [hcells]

/-- Marks on other cells do not change the outgoing pointers of `i`. -/
theorem withMarks_children (h : Heap) {M : Set ℕ} {i : ℕ} (hi : i ∉ M) :
    (h.withMarks M).children i = h.children i := by
  unfold children elements
  rw [withMarks_cells_of_notMem h hi]
  rfl

/-- Setting the mark bit of an unmarked cell. -/
theorem withMarks_orMark (h : Heap) {M : Set ℕ} {i : ℕ} (hi : i ∉ M) :
    (h.withMarks M).orMark i = h.withMarks (M ∪ {i}) := by
  have hcells : Function.update (h.withMarks M).cells i
      { h.cells i with tag := (h.cells i).tag ||| tagMark } = (h.withMarks (M ∪ {i})).cells := by
    funext j
    by_cases hj : j = i
    · subst hj
      rw [Function.update_self, withMarks_cells_of_mem h (Or.inr rfl)]
    · rw [Function.update_of_ne hj]
      by_cases hM : j ∈ M
      · rw [withMarks_cells_of_mem h hM, withMarks_cells_of_mem h (Or.inl hM)]
      · rw [withMarks_cells_of_notMem h hM, withMarks_cells_of_notMem h (by simp [hM, hj])]
  unfold orMark setCell
  rw [withMarks_cells_of_notMem h hi, hcells]
  rfl

/-! ## Between unmarked cells -/

/-- A pointer `mark_tree` goes along: between two unmarked cells. -/
def FreshEdge (h : Heap) (i j : ℕ) : Prop := h.Unmarked i ∧ h.Unmarked j ∧ h.Edge i j

/-- The cells reachable from `w` through unmarked cells. -/
def freshReach (h : Heap) (w : Word) : Set ℕ :=
  {j | ∃ i, w = .cell i ∧ h.Unmarked i ∧ j ∈ reach h.FreshEdge i}

/-- The cells reachable from one of the given words through unmarked cells. -/
def freshReaches (h : Heap) (ws : List Word) : Set ℕ := {j | ∃ w ∈ ws, j ∈ h.freshReach w}

/-- Every unmarked cell has readable outgoing pointers, each `NULL` or to a cell
    in use. -/
def Readable (h : Heap) : Prop :=
  ∀ i, h.Unmarked i → ∃ ws, h.children i = .ok ws ∧ ∀ w ∈ ws, h.ValidRef w

theorem freshReach_null (h : Heap) : h.freshReach .null = ∅ := by
  ext j
  constructor
  · rintro ⟨i, hi, -⟩; cases hi
  · exact fun hj => absurd hj (Set.notMem_empty _)

theorem freshReach_marked {h : Heap} {i : ℕ} (hi : ¬ h.Unmarked i) : h.freshReach (.cell i) = ∅ := by
  ext j
  constructor
  · rintro ⟨k, hk, hu, -⟩; cases hk; exact absurd hu hi
  · exact fun hj => absurd hj (Set.notMem_empty _)

theorem freshReach_unmarked {h : Heap} {i : ℕ} (hi : h.Unmarked i) :
    h.freshReach (.cell i) = reach h.FreshEdge i := by
  ext j
  constructor
  · rintro ⟨k, hk, -, hj⟩; cases hk; exact hj
  · exact fun hj => ⟨i, rfl, hi, hj⟩

theorem freshReach_closed (h : Heap) (w : Word) : Closed h.FreshEdge (h.freshReach w) := by
  rintro a ⟨i, rfl, hi, ha⟩ b hab
  exact ⟨i, rfl, hi, reach_closed i a ha b hab⟩

theorem freshReaches_nil (h : Heap) : h.freshReaches [] = ∅ := by
  ext j; simp [freshReaches]

theorem freshReaches_cons (h : Heap) (w : Word) (ws : List Word) :
    h.freshReaches (w :: ws) = h.freshReach w ∪ h.freshReaches ws := by
  ext j; simp [freshReaches]

/-- Marking `M` leaves the pointers outside `M`. -/
theorem withMarks_freshEdge (h : Heap) (M : Set ℕ) :
    (h.withMarks M).FreshEdge = Outside h.FreshEdge M := by
  funext i j
  apply propext
  unfold FreshEdge Outside Edge
  rw [withMarks_unmarked_iff, withMarks_unmarked_iff]
  constructor
  · rintro ⟨hi, hj, ws, hws, hm⟩
    rw [withMarks_children h hi.2] at hws
    exact ⟨⟨hi.1, hj.1, ws, hws, hm⟩, hi.2, hj.2⟩
  · rintro ⟨⟨hi, hj, ws, hws, hm⟩, hiM, hjM⟩
    rw [← withMarks_children h hiM] at hws
    exact ⟨⟨hi, hiM⟩, ⟨hj, hjM⟩, ws, hws, hm⟩

/-- What is left to reach after marking a closed set. -/
theorem union_freshReach_withMarks {h : Heap} {M : Set ℕ} (hM : Closed h.FreshEdge M) (w : Word) :
    M ∪ (h.withMarks M).freshReach w = M ∪ h.freshReach w := by
  rcases h.freshReach w |>.eq_empty_or_nonempty with hempty | ⟨j, i, rfl, hu, -⟩
  · rw [hempty]
    apply Set.Subset.antisymm
    · rintro k (hk | ⟨i, rfl, hu, -⟩)
      · exact Or.inl hk
      · rw [withMarks_unmarked_iff] at hu
        rw [freshReach_unmarked hu.1] at hempty
        exact absurd hempty (Set.Nonempty.ne_empty ⟨i, mem_reach_self i⟩)
    · exact Set.union_subset_union_right M (Set.empty_subset _)
  · rw [freshReach_unmarked hu]
    by_cases hi : i ∈ M
    · rw [freshReach_marked (h := h.withMarks M) (by rw [withMarks_unmarked_iff]; exact fun hn => hn.2 hi),
        Set.union_empty, Set.union_eq_left.mpr (hM.reach_subset hi)]
    · rw [freshReach_unmarked ((withMarks_unmarked_iff h M i).mpr ⟨hu, hi⟩), withMarks_freshEdge]
      exact hM.union_reach_outside hi

/-- The outgoing pointers of an unmarked `i` reach what `i` reaches, `i` apart. -/
theorem freshReaches_children {h : Heap} {i : ℕ} {ws : List Word} (hi : h.Unmarked i)
    (hws : h.children i = .ok ws) : h.freshReaches ws ∪ {i} = reach h.FreshEdge i := by
  rw [reach_eq_insert, Set.union_comm]
  congr 1
  ext j
  constructor
  · rintro ⟨w, hw, k, rfl, hk, hj⟩
    exact ⟨k, ⟨hi, hk, ws, hws, hw⟩, hj⟩
  · rintro ⟨k, ⟨-, hk, ws', hws', hkw⟩, hj⟩
    rw [hws] at hws'
    cases hws'
    exact ⟨_, hkw, k, rfl, hk, hj⟩

/-! ## When `mark_tree` returns -/

/-- No cell of `S` lies on a cycle of unmarked cells. -/
def NoCycle (h : Heap) (S : Set ℕ) : Prop := ∀ j ∈ S, ¬ Relation.TransGen h.FreshEdge j j

/-- Marking a closed set without cycles makes no difference to the others. -/
theorem noCycle_union {h : Heap} {M S : Set ℕ} (hM : Closed h.FreshEdge M) (hMc : h.NoCycle M)
    (hS : (h.withMarks M).NoCycle S) : h.NoCycle (M ∪ S) := by
  intro j hj hcyc
  by_cases hjM : j ∈ M
  · exact hMc j hjM hcyc
  · have hjS : j ∈ S := hj.resolve_left hjM
    have := hS j hjS
    rw [withMarks_freshEdge] at this
    exact this (hM.transGen_outside hcyc hjM)

/-- What a call that returns has done. -/
def Returns (h h' : Heap) (S : Set ℕ) : Prop := h' = h.withMarks S ∧ h.NoCycle S

/-- The loop over several pointers, given what the calls in it do: `M` is
    marked already. -/
theorem foldlM_returns {n : ℕ} {h : Heap}
    (hn : ∀ {h h' : Heap} {w : Word}, markTree n h w = .ok h' → Returns h h' (h.freshReach w)) :
    ∀ (ws : List Word) {M : Set ℕ} {h' : Heap}, Closed h.FreshEdge M → h.NoCycle M →
      ws.foldlM (fun h w => markTree n h w) (h.withMarks M) = .ok h' →
      Returns h h' (M ∪ h.freshReaches ws) := by
  intro ws
  induction ws with
  | nil =>
    intro M h' _ hMc hf
    obtain rfl := Except.ok.inj hf
    rw [freshReaches_nil, Set.union_empty]
    exact ⟨rfl, hMc⟩
  | cons w ws ih =>
    intro M h' hM hMc hf
    rw [List.foldlM_cons] at hf
    obtain ⟨h₁, h1, hf⟩ := bind_ok.mp hf
    obtain ⟨rfl, hc⟩ := hn h1
    rw [withMarks_withMarks, union_freshReach_withMarks hM] at hf
    have hMc' := noCycle_union hM hMc hc
    rw [union_freshReach_withMarks hM] at hMc'
    have hres := ih (hM.union (h.freshReach_closed w)) hMc' hf
    rwa [freshReaches_cons, ← Set.union_assoc]

/-- A call that returns has marked what it can reach, and found no cycle. The
    induction is on the depth. -/
theorem markTree_ok (n : ℕ) : ∀ {h h' : Heap} {w : Word}, markTree n h w = .ok h' →
    Returns h h' (h.freshReach w) := by
  induction n with
  | zero => intro h h' w hr; exact absurd hr (by simp [markTree])
  | succ n ih =>
    intro h h' w hr
    have hnone : h.NoCycle ∅ := fun j hj => absurd hj (Set.notMem_empty j)
    rw [markTree] at hr
    split at hr
    · exact absurd hr (by simp)
    · rename_i hw
      obtain rfl := Except.ok.inj hr
      have hempty : h.freshReach w = ∅ := by
        ext j
        constructor
        · rintro ⟨i, rfl, -⟩; exact absurd hw (by simp)
        · exact fun hj => absurd hj (Set.notMem_empty _)
      rw [hempty]
      exact ⟨h.withMarks_empty.symm, hnone⟩
    · rename_i i hw
      obtain rfl := Word.asCell_eq_some hw
      split at hr
      · rename_i hm
        obtain rfl := Except.ok.inj hr
        rw [freshReach_marked hm]
        exact ⟨h.withMarks_empty.symm, hnone⟩
      · rename_i hm
        have hi : h.Unmarked i := not_not.mp hm
        obtain ⟨ws, hws, hr⟩ := bind_ok.mp hr
        obtain ⟨h₁, hfold, hr⟩ := bind_ok.mp hr
        obtain rfl := Except.ok.inj hr
        rw [← h.withMarks_empty] at hfold
        obtain ⟨rfl, hc⟩ := foldlM_returns ih ws closed_empty hnone hfold
        rw [Set.empty_union] at hc ⊢
        -- a pointer path back to `i` would make `i` itself one of the cells marked below it
        have hcyc : ¬ Relation.TransGen h.FreshEdge i i := by
          intro hcyc
          obtain ⟨k, hik, hki⟩ := Relation.TransGen.head'_iff.mp hcyc
          obtain ⟨-, hk, ws', hws', hkw⟩ := hik
          obtain rfl := Except.ok.inj (hws.symm.trans hws')
          exact hc i ⟨_, hkw, k, rfl, hk, hki⟩ hcyc
        have hnot : i ∉ h.freshReaches ws := by
          rintro ⟨w, hw, k, rfl, hk, hki⟩
          exact hcyc (Relation.TransGen.head' ⟨hi, hk, ws, hws, hw⟩ hki)
        rw [withMarks_orMark h hnot, freshReaches_children hi hws, freshReach_unmarked hi]
        refine ⟨rfl, fun j hj => ?_⟩
        rw [← freshReaches_children hi hws] at hj
        rcases hj with hj | rfl
        · exact hc j hj
        · exact hcyc

/-- Marking succeeds from `w` with every sufficient bound, whatever closed set
    is marked already, and marks exactly what `w` reaches. -/
def Marks (h : Heap) (w : Word) : Prop :=
  ∃ N, ∀ n ≥ N, ∀ M, Closed h.FreshEdge M →
    markTree n (h.withMarks M) w = .ok (h.withMarks (M ∪ h.freshReach w))

theorem marks_null (h : Heap) : h.Marks .null := by
  refine ⟨1, fun n hn M _ => ?_⟩
  obtain ⟨m, rfl⟩ : ∃ m, n = m + 1 := ⟨n - 1, by omega⟩
  rw [freshReach_null, Set.union_empty]
  rfl

theorem marks_marked {h : Heap} {i : ℕ} (hi : ¬ h.Unmarked i) : h.Marks (.cell i) := by
  refine ⟨1, fun n hn M _ => ?_⟩
  obtain ⟨m, rfl⟩ : ∃ m, n = m + 1 := ⟨n - 1, by omega⟩
  have hM : ¬ (h.withMarks M).Unmarked i := fun hu => hi ((withMarks_unmarked_iff h M i).mp hu).1
  rw [markTree_marked hM, freshReach_marked hi, Set.union_empty]

/-- The loop over the outgoing pointers, or over several roots. -/
theorem foldlM_markTree {h : Heap} :
    ∀ ws : List Word, (∀ w ∈ ws, h.Marks w) →
      ∃ N, ∀ n ≥ N, ∀ M, Closed h.FreshEdge M →
        ws.foldlM (fun h w => markTree n h w) (h.withMarks M) =
          .ok (h.withMarks (M ∪ h.freshReaches ws)) := by
  intro ws
  induction ws with
  | nil =>
    intro _
    refine ⟨0, fun n _ M _ => ?_⟩
    rw [freshReaches_nil, Set.union_empty]
    rfl
  | cons w ws ih =>
    intro hws
    obtain ⟨N₁, h₁⟩ := hws w List.mem_cons_self
    obtain ⟨N₂, h₂⟩ := ih fun w' hw' => hws w' (List.mem_cons_of_mem _ hw')
    refine ⟨max N₁ N₂, fun n hn M hM => ?_⟩
    have hn₁ : n ≥ N₁ := le_trans (le_max_left _ _) hn
    have hn₂ : n ≥ N₂ := le_trans (le_max_right _ _) hn
    rw [List.foldlM_cons, h₁ n hn₁ M hM]
    change ws.foldlM (fun h w => markTree n h w) (h.withMarks (M ∪ h.freshReach w)) = _
    rw [h₂ n hn₂ _ (hM.union (h.freshReach_closed w)), freshReaches_cons, Set.union_assoc]

/-- `mark_tree` returns when it meets no cycle. The induction is on the cell,
    along the pointers between unmarked cells that `w` reaches; the marked set
    stays closed because a cell is marked only after everything it points to. -/
theorem markTree_fresh {h : Heap} (hr : h.Readable) {w : Word} (hw : h.ValidRef w)
    (hc : h.NoCycle (h.freshReach w)) : h.Marks w := by
  have hlt : ∀ {i j : ℕ}, h.FreshEdge i j → j < h.cellsUsed := by
    rintro i j ⟨hi, -, ws, hws, hj⟩
    obtain ⟨ws', hws', hval⟩ := hr i hi
    obtain rfl := Except.ok.inj (hws.symm.trans hws')
    rcases hval _ hj with h0 | ⟨k, hk, hkj⟩
    · cases h0
    · cases hkj; exact hk
  have hwf : WellFounded fun j i => h.FreshEdge i j ∧ i ∈ h.freshReach w := by
    refine Acyclic.wellFounded (fun i hi => ?_) (Set.finite_lt_nat h.cellsUsed) fun _ _ he => hlt he.1
    obtain ⟨k, hik, -⟩ := Relation.TransGen.head'_iff.mp hi
    exact hc i hik.2 (Relation.TransGen.mono (fun _ _ (he : _ ∧ _) => he.1) i i hi)
  have hcell : ∀ i, h.Unmarked i → i ∈ h.freshReach w → h.Marks (.cell i) := by
    intro i
    induction i using hwf.induction with
    | _ i ih =>
      intro hi hiw
      obtain ⟨ws, hws, hval⟩ := hr i hi
      have hmarks : ∀ w ∈ ws, h.Marks w := by
        intro w' hw'
        rcases hval w' hw' with rfl | ⟨j, -, rfl⟩
        · exact h.marks_null
        · by_cases hj : h.Unmarked j
          · have hij : h.FreshEdge i j := ⟨hi, hj, ws, hws, hw'⟩
            exact ih j ⟨hij, hiw⟩ hj (h.freshReach_closed w i hiw j hij)
          · exact marks_marked hj
      obtain ⟨N, hN⟩ := foldlM_markTree ws hmarks
      refine ⟨N + 1, fun n hn M hM => ?_⟩
      obtain ⟨m, rfl⟩ : ∃ m, n = m + 1 := ⟨n - 1, by omega⟩
      by_cases hiM : i ∈ M
      · -- already marked: everything below it is marked too
        have hmk : ¬ (h.withMarks M).Unmarked i := fun hu =>
          ((withMarks_unmarked_iff h M i).mp hu).2 hiM
        rw [markTree_marked hmk, freshReach_unmarked hi, Set.union_eq_left.mpr (hM.reach_subset hiM)]
      · have hum : (h.withMarks M).Unmarked i := (withMarks_unmarked_iff h M i).mpr ⟨hi, hiM⟩
        rw [markTree_unmarked hum, withMarks_children h hiM, hws]
        change (ws.foldlM (fun h w => markTree m h w) (h.withMarks M) >>= fun h' =>
          Except.ok (h'.orMark i)) = _
        rw [hN m (by omega) M hM]
        -- the recursion did not come back to `i`
        have hi' : i ∉ M ∪ h.freshReaches ws := by
          rintro (hm | ⟨w', hw', k, rfl, hk, hki⟩)
          · exact hiM hm
          · exact hc i hiw (Relation.TransGen.head' ⟨hi, hk, ws, hws, hw'⟩ hki)
        change Except.ok ((h.withMarks (M ∪ h.freshReaches ws)).orMark i) = _
        rw [withMarks_orMark h hi', Set.union_assoc, freshReaches_children hi hws,
          freshReach_unmarked hi]
  rcases hw with rfl | ⟨i, -, rfl⟩
  · exact h.marks_null
  · by_cases hi : h.Unmarked i
    · exact hcell i hi ⟨i, rfl, hi, mem_reach_self i⟩
    · exact marks_marked hi

/-! ## Heaps without marks -/

/-- The cells reachable from a word. -/
def reachWord (h : Heap) (w : Word) : Set ℕ := {j | ∃ i, w = .cell i ∧ j ∈ reach h.Edge i}

/-- The cells reachable from one of the given words. -/
def reachWords (h : Heap) (ws : List Word) : Set ℕ := {j | ∃ w ∈ ws, j ∈ h.reachWord w}

theorem reachWord_closed (h : Heap) (w : Word) : Closed h.Edge (h.reachWord w) := by
  rintro a ⟨i, rfl, ha⟩ b hab
  exact ⟨i, rfl, reach_closed i a ha b hab⟩

theorem reachWords_nil (h : Heap) : h.reachWords [] = ∅ := by
  ext j; simp [reachWords]

theorem reachWords_cons (h : Heap) (w : Word) (ws : List Word) :
    h.reachWords (w :: ws) = h.reachWord w ∪ h.reachWords ws := by
  ext j; simp [reachWords]

section NoMarks

variable {h : Heap} (hum : ∀ i, h.Unmarked i)

include hum

theorem freshEdge_eq : h.FreshEdge = h.Edge := by
  funext i j
  exact propext ⟨fun he => he.2.2, fun he => ⟨hum i, hum j, he⟩⟩

theorem freshReach_eq (w : Word) : h.freshReach w = h.reachWord w := by
  ext j
  unfold freshReach reachWord
  rw [freshEdge_eq hum]
  exact ⟨fun ⟨i, hi, _, hj⟩ => ⟨i, hi, hj⟩, fun ⟨i, hi, hj⟩ => ⟨i, hi, hum i, hj⟩⟩

theorem freshReaches_eq (ws : List Word) : h.freshReaches ws = h.reachWords ws := by
  ext j
  unfold freshReaches reachWords
  simp only [freshReach_eq hum]

end NoMarks

/-- `mark_tree` on an acyclic heap without marks. -/
theorem markTree_spec {h : Heap} (hwf : h.WellFormed) (hac : Acyclic h.Edge) {w : Word}
    (hw : h.ValidRef w) : h.Marks w := by
  refine markTree_fresh (fun i _ => hwf.children i) hw fun j _ hj => hac j ?_
  rwa [freshEdge_eq hwf.unmarked] at hj

end Interim.Heap
