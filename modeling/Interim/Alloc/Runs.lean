import Interim.Alloc.Collect

/-!
# The allocator over whole runs

Runs of the memory: `cell_alloc`, updates by the program, and
`collect_garbage`, in any order. Besides the memory itself a state records the
cells the program may use: those reachable from the environment or from
`fs_list` at the last collection, and those allocated since. Updates only write
usable cells and only store pointers to usable cells.

Main result: `cellAlloc_fresh`. Every cell `cell_alloc` returns is unreachable
at that moment and was not handed out since the last collection, because the
unconsumed free list and the usable cells stay disjoint (`Inv`).
-/

namespace Interim.Heap

open Reach

/-! ## States and steps -/

/-- The memory of a running program, the cells it may use, and the cells handed
    out since the last collection. -/
structure RunState where
  heap : Heap
  env : List EnvEntry
  fsList : Word
  usable : Set ℕ
  handed : Set ℕ

namespace RunState

/-- The state after `init_allocator`, with an empty environment. -/
def start : RunState := ⟨init, [], .null, ∅, ∅⟩

/-- The words the collector starts from, the stack apart. -/
def roots (s : RunState) : List Word := s.env.map EnvEntry.cell ++ [s.fsList]

/-- The cells reachable from the environment or from `fs_list`. -/
def reached (s : RunState) : Set ℕ := s.heap.reachWords s.roots

end RunState

/-- An update by the program: assignments to cells, arrays, streams and
    environment entries that use only usable cells. -/
structure Update (s s' : RunState) : Prop where
  freeList : s'.heap.freeList = s.heap.freeList
  freeListConsumed : s'.heap.freeListConsumed = s.heap.freeListConsumed
  cellsUsed : s'.heap.cellsUsed = s.heap.cellsUsed
  usable : s'.usable = s.usable
  handed : s'.handed = s.handed
  others : ∀ i ∉ s.usable, s'.heap.cells i = s.heap.cells i
  unmarked : ∀ i ∈ s.usable, s'.heap.Unmarked i
  edges : ∀ i j, s'.heap.Edge i j → j ∈ s.usable ∨ (i ∉ s.usable ∧ s.heap.Edge i j)
  roots : ∀ j, .cell j ∈ s'.roots → j ∈ s.usable

/-- One step of a run. A collection is a step up to the allocation of its
    result, which is an allocation like any other (`collectGarbage_steps`); the
    pointers its stack walk finds are to cells handed out at some time. -/
inductive Step : RunState → RunState → Prop
  | alloc {s : RunState} {i : ℕ} {h' : Heap} (ha : s.heap.cellAlloc = .ok (i, h')) :
      Step s { s with heap := h', usable := insert i s.usable, handed := insert i s.handed }
  | update {s s' : RunState} (hu : Update s s') : Step s s'
  | collect {s : RunState} {n k : ℕ} {h' : Heap} (L : Layout) (stack : ℤ → Word)
      (stackEnd stackPointer : ℤ)
      (hstack : ∀ w ∈ stackRoots L stack stackEnd stackPointer, s.heap.ValidRef w)
      (hc : s.heap.markAndSweep n s.env s.fsList (stackRoots L stack stackEnd stackPointer) =
        .ok (h', k)) :
      Step s { s with heap := h', usable := s.reached, handed := ∅ }

/-- The states a run can get to. -/
def Reachable (s : RunState) : Prop := Relation.ReflTransGen Step .start s

/-! ## The invariant -/

/-- What every step keeps. -/
structure Inv (s : RunState) : Prop where
  roots : ∀ j, .cell j ∈ s.roots → j ∈ s.usable
  closed : Closed s.heap.Edge s.usable
  usable_lt : ∀ i ∈ s.usable, i < s.heap.cellsUsed
  handed : s.handed ⊆ s.usable
  nodup : (s.heap.freeList.drop s.heap.freeListConsumed).Nodup
  free : ∀ i ∈ s.heap.freeList.drop s.heap.freeListConsumed,
    i < s.heap.cellsUsed ∧ i ∉ s.usable ∧ (s.heap.cells i).tag = tagFreed
  unused : ∀ i, s.heap.cellsUsed ≤ i → (s.heap.cells i).tag = tagFreed
  unmarked : ∀ i, s.heap.Unmarked i
  edge_lt : ∀ i j, s.heap.Edge i j → j < s.heap.cellsUsed
  consumed_le : s.heap.freeListConsumed ≤ s.heap.freeList.length
  length_le : s.heap.freeList.length ≤ s.heap.cellsUsed
  cellsUsed_le : s.heap.cellsUsed ≤ maxCells

namespace Inv

variable {s s' : RunState}

/-- Reachable cells are usable. -/
theorem reached_subset (hi : Inv s) : s.reached ⊆ s.usable := by
  rintro j ⟨w, hw, i, rfl, hij⟩
  exact hi.closed.reach_subset (hi.roots i hw) hij

/-- A freed cell has no outgoing pointers. -/
theorem not_edge_of_freed {h : Heap} {i j : ℕ} (ht : (h.cells i).tag = tagFreed) : ¬ h.Edge i j := by
  rintro ⟨ws, hws, hj⟩
  have hnil : h.children i = .ok [] := by
    unfold children
    simp [ht]
  obtain rfl := Except.ok.inj (hnil.symm.trans hws)
  exact absurd hj (by simp)

/-- The cell `cell_alloc` hands out was waiting: not usable, below `MAX_CELLS`,
    with tag `TAG_FREED`. -/
theorem alloc_waiting (hi : Inv s) {i : ℕ} {h' : Heap} (ha : s.heap.cellAlloc = .ok (i, h')) :
    i ∉ s.usable ∧ i < maxCells ∧ (s.heap.cells i).tag = tagFreed := by
  unfold cellAlloc at ha
  split at ha
  · rename_i hc
    obtain ⟨rfl, -⟩ := Prod.mk.inj (Except.ok.inj ha)
    have hm : s.heap.freeList.get ⟨s.heap.freeListConsumed, hc⟩ ∈
        s.heap.freeList.drop s.heap.freeListConsumed := by
      rw [List.drop_eq_getElem_cons hc]
      exact List.mem_cons_self
    obtain ⟨hlt, hu, ht⟩ := hi.free _ hm
    exact ⟨hu, lt_of_lt_of_le hlt hi.cellsUsed_le, ht⟩
  · split at ha
    · exact absurd ha (by simp)
    · rename_i hlt
      obtain ⟨rfl, -⟩ := Prod.mk.inj (Except.ok.inj ha)
      exact ⟨fun hu => absurd (hi.usable_lt _ hu) (lt_irrefl _), by omega, hi.unused _ le_rfl⟩

theorem start : Inv .start where
  roots j hj := by simp [RunState.start, RunState.roots] at hj
  closed := closed_empty
  usable_lt i hi := absurd hi (Set.notMem_empty i)
  handed := subset_rfl
  nodup := by simp [RunState.start, init]
  free i hi := by simp [RunState.start, init] at hi
  unused i _ := rfl
  unmarked i := by
    change 0 &&& tagMark = 0
    rfl
  edge_lt i j he := absurd he (not_edge_of_freed rfl)
  consumed_le := le_rfl
  length_le := le_rfl
  cellsUsed_le := Nat.zero_le _

theorem alloc (hi : Inv s) {i : ℕ} {h' : Heap} (ha : s.heap.cellAlloc = .ok (i, h')) :
    Inv { s with heap := h', usable := insert i s.usable, handed := insert i s.handed } := by
  obtain ⟨hnu, -, hfreed⟩ := hi.alloc_waiting ha
  -- the two branches of `cell_alloc` change the counters only
  obtain ⟨hcells, hkids, hfl, hused, hlt, hmax, hdrop, hcons⟩ : h'.cells = s.heap.cells ∧
      (∀ k, h'.children k = s.heap.children k) ∧ h'.freeList = s.heap.freeList ∧
      s.heap.cellsUsed ≤ h'.cellsUsed ∧ i < h'.cellsUsed ∧ h'.cellsUsed ≤ maxCells ∧
      (∃ l, s.heap.freeList.drop s.heap.freeListConsumed = l ++
        h'.freeList.drop h'.freeListConsumed ∧ (i ∈ l ∨ s.heap.cellsUsed ≤ i)) ∧
      h'.freeListConsumed ≤ h'.freeList.length := by
    unfold cellAlloc at ha
    split at ha
    · rename_i hc
      obtain ⟨rfl, rfl⟩ := Prod.mk.inj (Except.ok.inj ha)
      have hd := List.drop_eq_getElem_cons hc
      have hm := hi.free (s.heap.freeList.get ⟨s.heap.freeListConsumed, hc⟩)
        (by rw [hd]; exact List.mem_cons_self)
      exact ⟨rfl, fun _ => rfl, rfl, le_rfl, hm.1, hi.cellsUsed_le,
        ⟨[_], hd, Or.inl (by simp)⟩, hc⟩
    · split at ha
      · exact absurd ha (by simp)
      · rename_i hle
        obtain ⟨rfl, rfl⟩ := Prod.mk.inj (Except.ok.inj ha)
        have hmax : s.heap.cellsUsed + 1 ≤ maxCells := not_lt.mp hle
        exact ⟨rfl, fun _ => rfl, rfl, Nat.le_succ _, Nat.lt_succ_self _, hmax,
          ⟨[], rfl, Or.inr le_rfl⟩, hi.consumed_le⟩
  obtain ⟨l, hl, hil⟩ := hdrop
  have hedge : ∀ a b, h'.Edge a b ↔ s.heap.Edge a b := by
    intro a b
    unfold Edge
    rw [hkids]
  have hnd := hi.nodup
  rw [hl, List.nodup_append] at hnd
  constructor
  · intro j hj
    exact Set.mem_insert_of_mem _ (hi.roots j hj)
  · rintro a ha b hab
    rw [hedge] at hab
    rcases ha with rfl | ha
    · exact absurd hab (not_edge_of_freed hfreed)
    · exact Set.mem_insert_of_mem _ (hi.closed a ha b hab)
  · rintro a (rfl | ha)
    · exact hlt
    · exact lt_of_lt_of_le (hi.usable_lt a ha) hused
  · exact Set.insert_subset_insert hi.handed
  · exact hnd.2.1
  · intro a ha
    obtain ⟨h1, h2, h3⟩ := hi.free a (by rw [hl]; exact List.mem_append_right _ ha)
    refine ⟨lt_of_lt_of_le h1 hused, ?_, by rw [hcells]; exact h3⟩
    rintro (rfl | hu)
    · rcases hil with hm | hge
      · exact hnd.2.2 a hm a ha rfl
      · omega
    · exact h2 hu
  · intro a ha
    rw [hcells]
    exact hi.unused a (le_trans hused ha)
  · intro a
    unfold Unmarked
    rw [hcells]
    exact hi.unmarked a
  · intro a b hab
    rw [hedge] at hab
    exact lt_of_lt_of_le (hi.edge_lt a b hab) hused
  · exact hcons
  · rw [hfl]
    exact le_trans hi.length_le hused
  · exact hmax

theorem update (hi : Inv s) (hu : Update s s') : Inv s' where
  roots j hj := by
    rw [hu.usable]
    exact hu.roots j hj
  closed := by
    intro a ha b hab
    rw [hu.usable] at ha ⊢
    rcases hu.edges a b hab with hb | ⟨hna, -⟩
    · exact hb
    · exact absurd ha hna
  usable_lt a ha := by
    rw [hu.usable] at ha
    rw [hu.cellsUsed]
    exact hi.usable_lt a ha
  handed := by
    rw [hu.handed, hu.usable]
    exact hi.handed
  nodup := by
    rw [hu.freeList, hu.freeListConsumed]
    exact hi.nodup
  free a ha := by
    rw [hu.freeList, hu.freeListConsumed] at ha
    obtain ⟨h1, h2, h3⟩ := hi.free a ha
    rw [hu.cellsUsed, hu.usable, hu.others a h2]
    exact ⟨h1, h2, h3⟩
  unused a ha := by
    rw [hu.cellsUsed] at ha
    rw [hu.others a fun hn => absurd (hi.usable_lt a hn) (not_lt.mpr ha)]
    exact hi.unused a ha
  unmarked a := by
    by_cases ha : a ∈ s.usable
    · exact hu.unmarked a ha
    · unfold Unmarked
      rw [hu.others a ha]
      exact hi.unmarked a
  edge_lt a b hab := by
    rw [hu.cellsUsed]
    rcases hu.edges a b hab with hb | ⟨-, hb⟩
    · exact hi.usable_lt b hb
    · exact hi.edge_lt a b hb
  consumed_le := by
    rw [hu.freeList, hu.freeListConsumed]
    exact hi.consumed_le
  length_le := by
    rw [hu.freeList, hu.cellsUsed]
    exact hi.length_le
  cellsUsed_le := by
    rw [hu.cellsUsed]
    exact hi.cellsUsed_le

/-- The cells a collection marks are in use. -/
theorem live_lt (hi : Inv s) {stackWords : List Word}
    (hstack : ∀ w ∈ stackWords, s.heap.ValidRef w) :
    ∀ i ∈ s.heap.live stackWords s.env s.fsList, i < s.heap.cellsUsed := by
  rintro i ⟨w, hw, j, rfl, hji⟩
  rcases Relation.ReflTransGen.cases_tail hji with rfl | ⟨m, -, hm⟩
  · rw [List.append_assoc, List.mem_append] at hw
    rcases hw with hw | hw
    · rcases hstack _ hw with h0 | ⟨i', hi', heq⟩
      · cases h0
      · cases heq; exact hi'
    · exact hi.usable_lt _ (hi.roots _ hw)
  · exact hi.edge_lt m i hm

/-- After a collection the program may use any closed set of marked cells that
    holds the roots: the new free list is disjoint from it. -/
theorem collect_into (hi : Inv s) {n k : ℕ} {h' : Heap} {stackWords : List Word}
    (hstack : ∀ w ∈ stackWords, s.heap.ValidRef w)
    (hc : s.heap.markAndSweep n s.env s.fsList stackWords = .ok (h', k)) {V : Set ℕ}
    (hroots : ∀ j, .cell j ∈ s.roots → j ∈ V) (hcl : Closed s.heap.Edge V)
    (hV : V ⊆ s.heap.live stackWords s.env s.fsList) :
    Inv { s with heap := h', usable := V, handed := ∅ } := by
  obtain ⟨rfl, -⟩ := markAndSweep_ok hi.unmarked hc
  have hMlt := hi.live_lt hstack
  set M := s.heap.live stackWords s.env s.fsList with hM
  have hkept : ∀ i ∈ V, i ∉ (s.heap.sweptTo M s.heap.cellsUsed).freeList := by
    intro i hr hf
    exact ((mem_sweptTo_freeList _ _ _ _).mp hf).2.2 (hV hr)
  have hcells : ∀ i, i ∉ (s.heap.sweptTo M s.heap.cellsUsed).freeList →
      (s.heap.sweptTo M s.heap.cellsUsed).cells i = s.heap.cells i :=
    fun i hf => sweptTo_cells_of_kept hMlt hf
  have hedge : ∀ i j, (s.heap.sweptTo M s.heap.cellsUsed).Edge i j → s.heap.Edge i j := by
    rintro i j ⟨ws, hws, hj⟩
    by_cases hf : i ∈ (s.heap.sweptTo M s.heap.cellsUsed).freeList
    · exact absurd ⟨ws, hws, hj⟩ (not_edge_of_freed (sweptTo_tag_of_freed hf))
    · refine ⟨ws, ?_, hj⟩
      unfold children elements at hws ⊢
      rw [hcells i hf] at hws
      exact hws
  constructor
  · exact hroots
  · intro a ha b hab
    exact hcl a ha b (hedge a b hab)
  · intro i hr
    exact hMlt i (hV hr)
  · exact Set.empty_subset _
  · exact (sweptTo_freeList_nodup s.heap M _).sublist (List.drop_sublist _ _)
  · intro i hf
    have hf' := List.mem_of_mem_drop hf
    refine ⟨((mem_sweptTo_freeList _ _ _ _).mp hf').1, fun hr => hkept i hr hf', ?_⟩
    exact sweptTo_tag_of_freed hf'
  · intro i hge
    have hf : i ∉ (s.heap.sweptTo M s.heap.cellsUsed).freeList := fun hf =>
      absurd ((mem_sweptTo_freeList _ _ _ _).mp hf).1 (not_lt.mpr hge)
    change ((s.heap.sweptTo M s.heap.cellsUsed).cells i).tag = tagFreed
    rw [hcells i hf]
    exact hi.unused i hge
  · intro i
    change ((s.heap.sweptTo M s.heap.cellsUsed).cells i).tag &&& tagMark = 0
    by_cases hf : i ∈ (s.heap.sweptTo M s.heap.cellsUsed).freeList
    · rw [sweptTo_tag_of_freed hf]
      rfl
    · rw [hcells i hf]
      exact hi.unmarked i
  · intro i j hij
    exact hi.edge_lt i j (hedge i j hij)
  · exact Nat.zero_le _
  · exact sweptTo_freeList_length_le s.heap M
  · exact hi.cellsUsed_le

theorem reached_subset_live (s : RunState) (stackWords : List Word) :
    s.reached ⊆ s.heap.live stackWords s.env s.fsList := by
  rw [live_eq, Set.union_assoc]
  unfold RunState.reached RunState.roots
  rw [reachWords_append, reachWords_cons, reachWords_nil, Set.union_empty]
  exact Set.subset_union_right

/-- A collection keeps exactly the cells reachable from its roots, and the new
    free list is disjoint from them. -/
theorem collect (hi : Inv s) {n k : ℕ} {h' : Heap} {stackWords : List Word}
    (hstack : ∀ w ∈ stackWords, s.heap.ValidRef w)
    (hc : s.heap.markAndSweep n s.env s.fsList stackWords = .ok (h', k)) :
    Inv { s with heap := h', usable := s.reached, handed := ∅ } := by
  apply hi.collect_into hstack hc
  · intro j hj
    exact ⟨_, hj, j, rfl, mem_reach_self j⟩
  · exact s.heap.reachWords_closed _
  · exact reached_subset_live s stackWords

theorem step (hi : Inv s) (hst : Step s s') : Inv s' := by
  cases hst with
  | alloc ha => exact hi.alloc ha
  | update hu => exact hi.update hu
  | collect L stack stackEnd stackPointer hstack hc => exact hi.collect hstack hc

/-- Every run keeps the invariant. -/
theorem reachable (hr : Reachable s) : Inv s := by
  induction hr with
  | refl => exact Inv.start
  | tail _ hst ih => exact ih.step hst

end Inv

/-! ## Freshness -/

/-- A collection that returns is a step followed by the allocation of its
    result and the assignments of `alloc_int`. -/
theorem collectGarbage_steps {s : RunState} (hi : Inv s) {n i : ℕ} {h' : Heap} {L : Layout}
    {stack : ℤ → Word} {stackEnd stackPointer : ℤ}
    (hstack : ∀ w ∈ stackRoots L stack stackEnd stackPointer, s.heap.ValidRef w)
    (hc : s.heap.collectGarbage n s.env s.fsList L stack stackEnd stackPointer = .ok (i, h')) :
    Relation.ReflTransGen Step s
      { s with heap := h', usable := insert i s.reached, handed := {i} } := by
  unfold collectGarbage at hc
  obtain ⟨⟨h₁, k⟩, h1, hc⟩ := bind_ok.mp hc
  obtain ⟨⟨j, h₂⟩, h2, hc⟩ := bind_ok.mp hc
  obtain ⟨rfl, rfl⟩ := Prod.mk.inj (Except.ok.inj hc)
  have hstep₁ := Step.collect L stack stackEnd stackPointer hstack h1
  have hi₁ := hi.step hstep₁
  have hstep₂ := Step.alloc (s := { s with heap := h₁, usable := s.reached, handed := ∅ }) h2
  have hi₂ := hi₁.step hstep₂
  refine .tail (.tail (.single hstep₁) hstep₂) (.update ?_)
  have hother : ∀ a, a ≠ j → ∀ b, (h₂.setCell j
      { h₂.cells j with ar := .int (boxInt (BitVec.ofNat 64 k)), tag := tagInt }).Edge a b →
      h₂.Edge a b := by
    rintro a ha b ⟨ws, hws, hb⟩
    refine ⟨ws, ?_, hb⟩
    unfold children elements at hws ⊢
    rw [setCell_cells, Function.update_of_ne ha] at hws
    exact hws
  have hself : ∀ b, ¬ (h₂.setCell j
      { h₂.cells j with ar := .int (boxInt (BitVec.ofNat 64 k)), tag := tagInt }).Edge j b := by
    rintro b ⟨ws, hws, hb⟩
    have hnil : (h₂.setCell j { h₂.cells j with
        ar := .int (boxInt (BitVec.ofNat 64 k)), tag := tagInt }).children j = .ok [] := by
      unfold children
      rw [setCell_cells, Function.update_self]
      rfl
    obtain rfl := Except.ok.inj (hnil.symm.trans hws)
    exact absurd hb (by simp)
  refine ⟨rfl, rfl, rfl, rfl, by simp, ?_, ?_, ?_, hi₂.roots⟩
  · intro a ha
    exact Function.update_of_ne (by rintro rfl; exact ha (Set.mem_insert _ _)) _ _
  · intro a ha
    unfold Unmarked
    by_cases haj : a = j
    · subst haj
      rw [setCell_cells, Function.update_self]
      change tagInt &&& tagMark = 0
      decide
    · rw [setCell_cells, Function.update_of_ne haj]
      exact hi₂.unmarked a
  · intro a b hab
    by_cases haj : a = j
    · subst haj
      exact absurd hab (hself b)
    · have hab' := hother a haj b hab
      by_cases hu : a ∈ insert j s.reached
      · exact Or.inl (hi₂.closed a hu b hab')
      · exact Or.inr ⟨hu, hab'⟩

/-- **Freshness.** In every run, the cell `cell_alloc` returns lies in the cell
    heap, is not reachable from the environment or from `fs_list`, and was not
    handed out since the last collection; and the unconsumed free list holds
    distinct, unreachable cells in use with tag `TAG_FREED`. -/
theorem cellAlloc_fresh {s : RunState} (hr : Reachable s) :
    (∀ i h', s.heap.cellAlloc = .ok (i, h') → i < maxCells ∧ i ∉ s.reached ∧ i ∉ s.handed) ∧
    (s.heap.freeList.drop s.heap.freeListConsumed).Nodup ∧
    (∀ i ∈ s.heap.freeList.drop s.heap.freeListConsumed,
      i < s.heap.cellsUsed ∧ i ∉ s.reached ∧ (s.heap.cells i).tag = tagFreed) ∧
    s.heap.freeListConsumed ≤ s.heap.freeList.length ∧
    s.heap.freeList.length ≤ s.heap.cellsUsed := by
  have hi := Inv.reachable hr
  refine ⟨fun i h' ha => ?_, hi.nodup, fun i hf => ?_, hi.consumed_le, hi.length_le⟩
  · obtain ⟨hu, hlt, -⟩ := hi.alloc_waiting ha
    exact ⟨hlt, fun hm => hu (hi.reached_subset hm), fun hm => hu (hi.handed hm)⟩
  · obtain ⟨hlt, hu, ht⟩ := hi.free i hf
    exact ⟨hlt, fun hm => hu (hi.reached_subset hm), ht⟩

/-- One cell is allocated and collected again: the next allocation hands out
    the same cell, which nothing reaches. -/
theorem cellAlloc_fresh_recycled :
    ∃ s, Reachable s ∧ s.heap.freeList = [0] ∧
      ∃ h', s.heap.cellAlloc = .ok (0, h') ∧ 0 ∉ s.reached ∧ 0 ∉ s.handed := by
  let s₁ : RunState := { RunState.start with
    heap := { init with cellsUsed := 1 }, usable := insert 0 ∅, handed := insert 0 ∅ }
  have hstep₁ : Step .start s₁ := Step.alloc (i := 0) rfl
  let h₂ := s₁.heap.sweep.1
  have hc : s₁.heap.markAndSweep 1 s₁.env s₁.fsList
      (stackRoots ⟨fun _ => 4096⟩ (fun _ => .int 5) (-1) 0) = .ok (h₂, s₁.heap.sweep.2) := rfl
  have hfl : h₂.freeList = [0] := by
    simp [h₂, s₁, sweep, sweepStep, init]
  obtain ⟨h', ha⟩ : ∃ h', h₂.cellAlloc = .ok (0, h') := by
    simp [h₂, s₁, RunState.start, sweep, sweepStep, init, cellAlloc]
  have hstack : ∀ w ∈ stackRoots ⟨fun _ => 4096⟩ (fun _ => .int 5) (-1) 0, s₁.heap.ValidRef w := by
    intro w hw
    exact absurd hw (by simp [stackRoots, walkStack])
  have hstep₂ := Step.collect (s := s₁) ⟨fun _ => 4096⟩ (fun _ => .int 5) (-1) 0 hstack hc
  have hr : Reachable { s₁ with heap := h₂, usable := s₁.reached, handed := ∅ } :=
    .tail (.single hstep₁) hstep₂
  exact ⟨_, hr, hfl, h', ha, ((cellAlloc_fresh hr).1 0 h' ha).2⟩

end Interim.Heap
