import Interim.Alloc.Construct
import Interim.Alloc.Collect

/-!
# Termination of `mark_tree`

`mark_tree` sets the mark bit of a cell only after the recursive calls for its
pointers have returned (`sledge/alloc.c`, line 159), so the test at its entry
never stops a recursion that comes back to a cell still being visited. It
returns exactly on the arguments that reach no cycle of unmarked cells, and
`sput` can make one: a struct whose field is the struct itself.
-/

namespace Interim.Heap

open Reach

/-- `mark_tree(w)` returns, for every sufficient bound on the recursion depth,
    having marked exactly the cells reachable through unmarked cells. -/
def MarksReachable (h : Heap) (w : Word) : Prop :=
  ∃ N, ∀ n ≥ N, ∃ h', markTree n h w = .ok h' ∧
    (∀ j, (h.Unmarked j ∧ ¬ h'.Unmarked j) ↔ j ∈ h.freshReach w) ∧
    ∀ j ∉ h.freshReach w, h'.cells j = h.cells j

theorem freshReach_unmarked_of_mem {h : Heap} {w : Word} {j : ℕ} (hj : j ∈ h.freshReach w) :
    h.Unmarked j := by
  obtain ⟨i, rfl, hi, hij⟩ := hj
  rcases Relation.ReflTransGen.cases_tail hij with rfl | ⟨k, -, hk⟩
  · exact hi
  · exact hk.2.1

/-- `mark_tree` returns, and marks what it can reach, exactly when none of the
    cells it can reach through unmarked cells lies on a cycle of them. -/
theorem markTree_returns_iff {h : Heap} (hr : h.Readable) {w : Word} (hw : h.ValidRef w) :
    h.MarksReachable w ↔ h.NoCycle (h.freshReach w) := by
  constructor
  · rintro ⟨N, hN⟩
    obtain ⟨h', hrun, -⟩ := hN N le_rfl
    exact (markTree_ok N hrun).2
  · intro hc
    obtain ⟨N, hN⟩ := markTree_fresh hr hw hc
    refine ⟨N, fun n hn => ⟨h.withMarks (h.freshReach w), ?_, fun j => ?_, fun j hj => ?_⟩⟩
    · have hrun := hN n hn ∅ closed_empty
      rwa [withMarks_empty, Set.empty_union] at hrun
    · rw [withMarks_unmarked_iff]
      constructor
      · rintro ⟨hj, hn⟩
        by_contra hout
        exact hn ⟨hj, hout⟩
      · intro hj
        exact ⟨freshReach_unmarked_of_mem hj, fun hn => hn.2 hj⟩
    · exact withMarks_cells_of_notMem h hj

/-- On `fiveCells` every argument is marked with what it reaches. -/
theorem markTree_fiveCells : fiveCells.MarksReachable (.cell 0) := by
  refine (markTree_returns_iff (fun i _ => fiveCells_wellFormed.children i)
    (Or.inr ⟨0, by decide, rfl⟩)).mpr fun j _ hj => fiveCells_acyclic j ?_
  rwa [freshEdge_eq fiveCells_wellFormed.unmarked] at hj

/-! ## A struct that contains itself -/

/-- The heap after `(struct node next nil)`, `(def n (new node))` and
    `(sput n next n)`, with the cell of `n`. -/
def selfNode : Except Stop (ℕ × Heap) := do
  let (name, h) ← init.allocSym (Writer.ascii "node")
  let (key, h) ← h.allocSym (Writer.ascii "next")
  let (nil, h) ← h.allocNil
  let (structDef, e, h) ← h.allocArray tagStructDef 3
  let h ← h.setElem e 0 (.cell name)
  let h ← h.setElem e 1 (.cell key)
  let h ← h.setElem e 2 (.cell nil)
  let (n, h) ← h.allocStruct 3 (.cell structDef)
  let h ← h.setElem (e + 1) 1 (.cell n)
  .ok (n, h)

/-- In the heap of a struct that contains itself, `mark_tree` of that struct
    returns for no bound on the recursion depth. -/
theorem markTree_selfNode :
    ∃ n h, selfNode = .ok (n, h) ∧ h.ValidRef (.cell n) ∧
      (∀ k h', markTree k h (.cell n) ≠ .ok h') ∧ ¬ h.MarksReachable (.cell n) := by
  obtain ⟨h, hrun, hkids, htag, hused⟩ : ∃ h, selfNode = .ok (4, h) ∧
      h.children 4 = .ok [.cell 3, .cell 4] ∧ (h.cells 4).tag = tagStruct ∧ h.cellsUsed = 6 :=
    ⟨_, rfl, rfl, rfl, rfl⟩
  have hum : h.Unmarked 4 := by
    unfold Unmarked
    rw [htag]
    rfl
  have hloop : h.FreshEdge 4 4 := ⟨hum, hum, _, hkids, by simp⟩
  have hnever : ∀ k h', markTree k h (.cell 4) ≠ .ok h' := by
    intro k h' hk
    exact (markTree_ok k hk).2 4 ⟨4, rfl, hum, mem_reach_self 4⟩ (.single hloop)
  refine ⟨4, h, hrun, Or.inr ⟨4, by omega, rfl⟩, hnever, ?_⟩
  rintro ⟨N, hN⟩
  obtain ⟨h', hk, -⟩ := hN N le_rfl
  exact hnever N h' hk

end Interim.Heap
