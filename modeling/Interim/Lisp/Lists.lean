import Mathlib.Data.List.TakeWhile
import Interim.Alloc.Construct
import Interim.Lisp.Lib

/-!
# `item`, `list-size` and `reverse` of `lib.l`

The three list functions (`sledge/os/lib.l`, lines 9–34), with `car` and `cdr`
as compiled code computes them (`compiler_new.c`, lines 1315–1351). A `while`
whose condition is not an integer loads the first word of the condition's cell
and goes on while it is not zero (lines 1021–1060).

* `list_laws_iff` — `list-size` and `reverse` use the element itself as the
  condition, so they stop at the first element whose cell starts with a zero
  word: the integer 0 and every empty list. They are right exactly for the
  lists without such an element; `item` counts and is right for every list.
-/

namespace Interim.Lisp

open Heap
open Writer (cellAt)

/-! ## `car` and `cdr` -/

/-- The cells whose addresses compiled code holds: `prototype_nil` and
    `consed_type_error`. -/
structure Prototypes where
  nil : Word
  typeError : Word

/-- The type check: the cell itself when it is a cons, else
    `consed_type_error`. -/
def consOf (h : Heap) (p : Prototypes) (w : Word) : Except Stop Cell := do
  let c ← cellAt h w
  if c.tag = tagCons then .ok c else cellAt h p.typeError

/-- The check for a null cell. -/
def orNil (p : Prototypes) (w : Word) : Word := if w = .null then p.nil else w

/-- `(car l)` (lines 1315–1332). -/
def car (h : Heap) (p : Prototypes) (w : Word) : Except Stop Word := do
  let c ← consOf h p w
  .ok (orNil p c.ar)

/-- `(cdr l)` (lines 1333–1351). -/
def cdr (h : Heap) (p : Prototypes) (w : Word) : Except Stop Word := do
  let c ← consOf h p w
  .ok (orNil p c.dr)

/-- The condition `(car l)` of a `while`: the first word of the cell. -/
def carCond (h : Heap) (p : Prototypes) (l : Word) : Except Stop Bool := do
  let w ← car h p l
  let c ← cellAt h w
  .ok (c.ar ≠ .null)

/-! ## The functions -/

/-- The locals that the loops of `item` and `list-size` change. -/
structure Walk where
  i : BitVec 64
  l : Word

/-- Line 21: the condition of the loop of `list-size`. -/
def walkCond (h : Heap) (p : Prototypes) (s : Walk) : Except Stop Bool := carCond h p s.l

/-- Lines 13–14 and 22–23: the body of both loops. -/
def walkBody (h : Heap) (p : Prototypes) (s : Walk) : Except Stop Walk := do
  let l ← cdr h p s.l
  .ok ⟨boxInt (s.i + 1), l⟩

/-- `(item lst idx)` (lines 9–16). -/
def item (fuel : ℕ) (h : Heap) (p : Prototypes) (lst : Word) (idx : BitVec 64) :
    Except Stop Word := do
  let s ← WhileLoop.loop .fuel (fun s => truth (gt idx s.i)) (walkBody h p) fuel ⟨0, lst⟩
  car h p s.l

/-- `(list-size lst)` (lines 18–25). -/
def listSize (fuel : ℕ) (h : Heap) (p : Prototypes) (lst : Word) : Except Stop (BitVec 64) := do
  let s ← WhileLoop.loopM .fuel (walkCond h p) (walkBody h p) fuel ⟨0, lst⟩
  .ok (boxInt s.i)

/-- The locals of `reverse`, and the memory. -/
structure Reverse where
  l : Word
  lst : Word
  heap : Heap

/-- Line 29: the condition of the loop. -/
def reverseCond (p : Prototypes) (s : Reverse) : Except Stop Bool := carCond s.heap p s.lst

/-- Lines 30–31: the body of the loop. -/
def reverseBody (p : Prototypes) (s : Reverse) : Except Stop Reverse := do
  let v ← car s.heap p s.lst
  let (c, h) ← s.heap.allocCons v s.l
  let lst ← cdr h p s.lst
  .ok ⟨.cell c, lst, h⟩

/-- `(reverse lst)` (lines 27–34). -/
def reverse (fuel : ℕ) (h : Heap) (p : Prototypes) (lst : Word) : Except Stop (Word × Heap) := do
  let (l, h) ← h.allocNil
  let s ← WhileLoop.loopM .fuel (reverseCond p) (reverseBody p) fuel ⟨.cell l, lst, h⟩
  .ok (s.l, s.heap)

/-! ## Proper lists -/

/-- Cell `i` is in use and is an empty list. -/
def IsNil (h : Heap) (i : ℕ) : Prop := i ∉ h.Supply ∧ h.cells i = ⟨.null, .null, tagCons⟩

/-- The word `w` is a proper list of the values in the cells `es`. -/
def IsList (h : Heap) : Word → List ℕ → Prop
  | w, [] => ∃ i, w = .cell i ∧ IsNil h i
  | w, e :: es => ∃ i rest, w = .cell i ∧ i ∉ h.Supply ∧ e ∉ h.Supply ∧
      h.cells i = ⟨.cell e, rest, tagCons⟩ ∧ IsList h rest es

/-- `prototype_nil` is an empty list. -/
def Prototypes.Ok (p : Prototypes) (h : Heap) : Prop := ∃ i, p.nil = .cell i ∧ IsNil h i

/-- The first word of the value in cell `e` is not zero. -/
def Truthy (h : Heap) (e : ℕ) : Prop := (h.cells e).ar ≠ .null

instance (h : Heap) (e : ℕ) : Decidable (Truthy h e) := inferInstanceAs (Decidable (_ ≠ _))

section List

variable {h h' : Heap} {p : Prototypes} {w : Word} {e i : ℕ} {es : List ℕ}

theorem IsNil.keeps (hk : KeepsAll h h') (hn : IsNil h i) : IsNil h' i :=
  ⟨fun hs => hn.1 (hk.keeps.supply hs), by rw [hk.cell hn.1]; exact hn.2⟩

theorem Prototypes.Ok.keeps (hk : KeepsAll h h') (hp : p.Ok h) : p.Ok h' := by
  obtain ⟨i, hi, hn⟩ := hp
  exact ⟨i, hi, hn.keeps hk⟩

theorem IsList.keeps (hk : KeepsAll h h') (hl : IsList h w es) : IsList h' w es := by
  induction es generalizing w with
  | nil =>
    obtain ⟨i, hw, hn⟩ := hl
    exact ⟨i, hw, hn.keeps hk⟩
  | cons e es ih =>
    obtain ⟨i, rest, hw, hi, he, hc, hrest⟩ := hl
    exact ⟨i, rest, hw, fun hs => hi (hk.keeps.supply hs), fun hs => he (hk.keeps.supply hs),
      by rw [hk.cell hi]; exact hc, ih hrest⟩

/-- A list starts at a cons cell in use, whose fields are null or cells. -/
theorem IsList.cell (hl : IsList h w es) :
    ∃ i, w = .cell i ∧ i ∉ h.Supply ∧ (h.cells i).tag = tagCons := by
  cases es with
  | nil =>
    obtain ⟨i, hw, hi, hc⟩ := hl
    exact ⟨i, hw, hi, by rw [hc]⟩
  | cons e es =>
    obtain ⟨i, rest, hw, hi, -, hc, -⟩ := hl
    exact ⟨i, hw, hi, by rw [hc]⟩

theorem IsList.ne_null (hl : IsList h w es) : w ≠ .null := by
  obtain ⟨i, rfl, -⟩ := hl.cell
  simp

/-- A word is one list at most. -/
theorem IsList.unique {es' : List ℕ} (hl : IsList h w es) (hl' : IsList h w es') : es = es' := by
  induction es generalizing w es' with
  | nil =>
    obtain ⟨i, rfl, -, hc⟩ := hl
    cases es' with
    | nil => rfl
    | cons e' es' =>
      obtain ⟨i', rest, hw, -, -, hc', -⟩ := hl'
      obtain rfl : i = i' := by simpa using hw
      rw [hc] at hc'
      exact absurd hc' (by simp)
  | cons e es ih =>
    obtain ⟨i, rest, rfl, -, -, hc, hrest⟩ := hl
    cases es' with
    | nil =>
      obtain ⟨i', hw, -, hc'⟩ := hl'
      obtain rfl : i = i' := by simpa using hw
      rw [hc] at hc'
      exact absurd hc' (by simp)
    | cons e' es' =>
      obtain ⟨i', rest', hw, -, -, hc', hrest'⟩ := hl'
      obtain rfl : i = i' := by simpa using hw
      rw [hc] at hc'
      obtain ⟨rfl, rfl⟩ : e = e' ∧ rest = rest' := by simpa using hc'
      rw [ih hrest hrest']

/-- The cons cells of a list: they are distinct, and each starts a list that
    is no longer. -/
theorem IsList.spine (hl : IsList h w es) :
    ∃ cs : List ℕ, cs.Nodup ∧ cs.length = es.length + 1 ∧
      ∀ c ∈ cs, c ∉ h.Supply ∧ ∃ es', IsList h (.cell c) es' ∧ es'.length ≤ es.length := by
  induction es generalizing w with
  | nil =>
    obtain ⟨i, rfl, hi, hc⟩ := hl
    refine ⟨[i], List.nodup_singleton i, rfl, fun c hm => ?_⟩
    obtain rfl := List.mem_singleton.mp hm
    exact ⟨hi, [], ⟨c, rfl, hi, hc⟩, le_rfl⟩
  | cons e es ih =>
    have hw := hl
    obtain ⟨i, rest, rfl, hi, he, hc, hrest⟩ := hl
    obtain ⟨cs, hnd, hlen, hcs⟩ := ih hrest
    have hnotin : i ∉ cs := by
      intro hm
      obtain ⟨-, es', hl', hle⟩ := hcs i hm
      rw [← hw.unique hl'] at hle
      exact absurd hle (by simp)
    refine ⟨i :: cs, List.nodup_cons.mpr ⟨hnotin, hnd⟩, by simp [hlen], fun c hm => ?_⟩
    rcases List.mem_cons.mp hm with rfl | hm
    · exact ⟨hi, _, hw, le_rfl⟩
    · obtain ⟨hcl, es', hl', hle⟩ := hcs c hm
      exact ⟨hcl, es', hl', hle.trans (Nat.le_succ _)⟩

/-- A list has fewer elements than the heap has cells in use. -/
theorem IsList.length_lt (hl : IsList h w es) : es.length < h.cellsUsed := by
  obtain ⟨cs, hnd, hlen, hcs⟩ := hl.spine
  have hsub : cs ⊆ List.range h.cellsUsed := by
    intro c hm
    rw [List.mem_range]
    by_contra hge
    exact (hcs c hm).1 (Or.inr (not_lt.mp hge))
  have hle := (hnd.subperm hsub).length_le
  rw [List.length_range] at hle
  omega

end List

/-! ## `car` and `cdr` of a list -/

section Access

variable {h : Heap} {p : Prototypes} {w : Word} {e : ℕ} {es : List ℕ}

theorem consOf_list {i : ℕ} (ht : (h.cells i).tag = tagCons) :
    consOf h p (.cell i) = .ok (h.cells i) := by
  unfold consOf
  rw [cellAt_cell, ok_bind, if_pos ht]

theorem orNil_cell (i : ℕ) : orNil p (.cell i) = .cell i := if_neg (by simp)

theorem car_cons (hl : IsList h w (e :: es)) : car h p w = .ok (.cell e) := by
  obtain ⟨i, rest, rfl, -, -, hc, -⟩ := hl
  unfold car
  rw [consOf_list (by rw [hc]), ok_bind, hc, orNil_cell]

theorem car_nil (hl : IsList h w []) : car h p w = .ok p.nil := by
  obtain ⟨i, rfl, -, hc⟩ := hl
  unfold car
  rw [consOf_list (by rw [hc]), ok_bind, hc]
  rfl

theorem cdr_cons (hl : IsList h w (e :: es)) : ∃ rest, cdr h p w = .ok rest ∧ IsList h rest es := by
  obtain ⟨i, rest, rfl, -, -, hc, hrest⟩ := hl
  refine ⟨rest, ?_, hrest⟩
  unfold cdr
  rw [consOf_list (by rw [hc]), ok_bind, hc]
  exact congrArg Except.ok (if_neg hrest.ne_null)

/-- The condition of the loops at an element. -/
theorem carCond_cons (hl : IsList h w (e :: es)) : carCond h p w = .ok (decide (Truthy h e)) := by
  unfold carCond
  rw [car_cons hl, ok_bind, cellAt_cell, ok_bind]
  rfl

/-- The condition of the loops at the end of the list. -/
theorem carCond_nil (hp : p.Ok h) (hl : IsList h w []) : carCond h p w = .ok false := by
  obtain ⟨i, hi, -, hc⟩ := hp
  unfold carCond
  rw [car_nil hl, ok_bind, hi, cellAt_cell, ok_bind, hc]
  rfl

end Access

/-! ## `list-size` -/

/-- The elements in front of the first one that starts with a zero word. -/
def counted (h : Heap) (es : List ℕ) : List ℕ := es.takeWhile fun e => Truthy h e

section Counted

variable {h : Heap} {e : ℕ} {es : List ℕ}

theorem counted_cons_pos (ht : Truthy h e) : counted h (e :: es) = e :: counted h es :=
  List.takeWhile_cons_of_pos (by simpa using ht)

theorem counted_cons_neg (ht : ¬ Truthy h e) : counted h (e :: es) = [] :=
  List.takeWhile_cons_of_neg (by simpa using ht)

theorem counted_length_le (h : Heap) (es : List ℕ) : (counted h es).length ≤ es.length :=
  (List.takeWhile_sublist _).length_le

theorem counted_eq_self : counted h es = es ↔ ∀ e ∈ es, Truthy h e := by
  unfold counted
  rw [List.takeWhile_eq_self_iff]
  simp

theorem counted_length_eq (hlen : (counted h es).length = es.length) : ∀ e ∈ es, Truthy h e :=
  counted_eq_self.mp ((List.takeWhile_sublist _).eq_of_length hlen)

end Counted

section Walk

variable {h : Heap} {p : Prototypes} {w : Word} {e k fuel : ℕ} {es : List ℕ}

theorem walkBody_cons (hl : IsList h w (e :: es)) (hk : k + 1 < 2 ^ 31) :
    ∃ rest, walkBody h p ⟨BitVec.ofInt 64 k, w⟩ = .ok ⟨BitVec.ofInt 64 (k + 1 : ℕ), rest⟩ ∧
      IsList h rest es := by
  obtain ⟨rest, hcdr, hrest⟩ := cdr_cons (p := p) hl
  refine ⟨rest, ?_, hrest⟩
  unfold walkBody
  rw [hcdr, ok_bind]
  dsimp only
  rw [show (1 : BitVec 64) = BitVec.ofInt 64 1 from rfl, boxInt_add (by omega) (by omega)]
  rfl

/-- The loop of `list-size` counts the elements up to the first one that
    starts with a zero word. -/
theorem listSize_loop (hp : p.Ok h) (hl : IsList h w es) (hk : k + es.length < 2 ^ 31)
    (hf : es.length < fuel) :
    ∃ w', WhileLoop.loopM Stop.fuel (walkCond h p) (walkBody h p) fuel
      ⟨BitVec.ofInt 64 k, w⟩ = .ok ⟨BitVec.ofInt 64 (k + (counted h es).length : ℕ), w'⟩ := by
  induction es generalizing w k fuel with
  | nil =>
    obtain ⟨f, rfl⟩ := Nat.exists_eq_add_of_lt hf
    exact ⟨w, WhileLoop.loopM_exit _ (carCond_nil hp hl)⟩
  | cons e es ih =>
    rw [List.length_cons] at hk hf
    obtain ⟨f, rfl⟩ : ∃ f, fuel = f + 1 := ⟨fuel - 1, by omega⟩
    have hc : walkCond h p ⟨BitVec.ofInt 64 k, w⟩ = .ok (decide (Truthy h e)) := carCond_cons hl
    by_cases ht : Truthy h e
    · rw [decide_eq_true ht] at hc
      obtain ⟨rest, hb, hrest⟩ := walkBody_cons (p := p) (k := k) hl (by omega)
      obtain ⟨w', hrun⟩ := ih (k := k + 1) hrest (by omega) (show es.length < f by omega)
      refine ⟨w', ?_⟩
      rw [WhileLoop.loopM_round f hc hb, hrun, counted_cons_pos ht, List.length_cons,
        Nat.add_right_comm, Nat.add_assoc]
    · rw [decide_eq_false ht] at hc
      refine ⟨w, ?_⟩
      rw [WhileLoop.loopM_exit f hc, counted_cons_neg ht]
      rfl

theorem listSize_list (hp : p.Ok h) (hl : IsList h w es) (hlen : es.length < 2 ^ 31)
    (hf : es.length < fuel) :
    listSize fuel h p w = .ok (BitVec.ofInt 64 (counted h es).length) := by
  have hle := counted_length_le h es
  obtain ⟨w', hrun⟩ := listSize_loop (k := 0) hp hl (by omega) hf
  unfold listSize
  change (WhileLoop.loopM Stop.fuel _ _ fuel (⟨BitVec.ofInt 64 (0 : ℕ), w⟩ : Walk) >>= _) = _
  rw [hrun, ok_bind, Nat.zero_add, boxInt_ofInt (by omega) (by omega)]

/-- The loop of `item` drops `m` elements. -/
theorem item_loop {m : ℕ} (hl : IsList h w es) (hm : m ≤ es.length)
    (hk : k + es.length < 2 ^ 31) (hf : m < fuel) :
    ∃ w', WhileLoop.loop Stop.fuel (fun s : Walk => truth (gt (BitVec.ofInt 64 (k + m : ℕ)) s.i))
      (walkBody h p) fuel ⟨BitVec.ofInt 64 k, w⟩ = .ok ⟨BitVec.ofInt 64 (k + m : ℕ), w'⟩ ∧
      IsList h w' (es.drop m) := by
  induction m generalizing w k fuel es with
  | zero =>
    obtain ⟨f, rfl⟩ := Nat.exists_eq_add_of_lt hf
    refine ⟨w, WhileLoop.loop_exit _ ?_, hl⟩
    dsimp only
    rw [truth_gt (by omega) (by omega)]
    exact decide_eq_false (by omega)
  | succ m ih =>
    obtain ⟨f, rfl⟩ : ∃ f, fuel = f + 1 := ⟨fuel - 1, by omega⟩
    cases es with
    | nil => exact absurd hm (by simp)
    | cons e es =>
      rw [List.length_cons] at hm hk
      obtain ⟨rest, hb, hrest⟩ := walkBody_cons (p := p) (k := k) hl (by omega)
      obtain ⟨w', hrun, hl'⟩ := ih (k := k + 1) hrest (by omega) (by omega)
        (show m < f by omega)
      refine ⟨w', ?_, hl'⟩
      rw [Nat.add_right_comm, Nat.add_assoc] at hrun
      rw [WhileLoop.loop_round f ?_ hb, hrun]
      dsimp only
      rw [truth_gt (by omega) (by omega)]
      exact decide_eq_true (by omega)

/-- `(item l k)` is the element at index `k`, whatever the elements are. -/
theorem item_list (hl : IsList h w es) (hlen : es.length < 2 ^ 31) (hk : k < es.length)
    (hf : k < fuel) : item fuel h p w (BitVec.ofInt 64 k) = .ok (.cell es[k]) := by
  obtain ⟨w', hrun, hl'⟩ := item_loop (p := p) (k := 0) (m := k) hl hk.le (by omega) hf
  rw [List.drop_eq_getElem_cons hk] at hl'
  unfold item
  rw [Nat.zero_add] at hrun
  change (WhileLoop.loop Stop.fuel _ _ fuel (⟨BitVec.ofInt 64 (0 : ℕ), w⟩ : Walk) >>= _) = _
  rw [hrun, ok_bind, car_cons hl']

end Walk

/-! ## `reverse` -/

section Reverse

variable {h h' : Heap} {p : Prototypes} {w l : Word} {e : ℕ} {es acc : List ℕ}

theorem IsList.elements (hl : IsList h w es) : ∀ e ∈ es, e ∉ h.Supply := by
  induction es generalizing w with
  | nil => simp
  | cons e es ih =>
    obtain ⟨i, rest, -, -, he, -, hrest⟩ := hl
    intro e' hm
    rcases List.mem_cons.mp hm with rfl | hm
    · exact he
    · exact ih hrest e' hm

/-- Allocations leave the values alone. -/
theorem IsList.counted_keeps (hk : KeepsAll h h') (hl : IsList h w es) :
    counted h' es = counted h es := by
  have hlive := hl.elements
  clear hl
  induction es with
  | nil => rfl
  | cons e es ih =>
    have ih := ih fun e' hm => hlive e' (List.mem_cons_of_mem _ hm)
    have he : Truthy h' e ↔ Truthy h e := by
      unfold Truthy
      rw [hk.cell (hlive e List.mem_cons_self)]
    by_cases ht : Truthy h e
    · rw [counted_cons_pos ht, counted_cons_pos (he.mpr ht), ih]
    · rw [counted_cons_neg ht, counted_cons_neg (mt he.mp ht)]

/-- `alloc_cons` of a value and a list is a list. -/
theorem allocCons_list (hok : h.FreeListOk) (hroom : 0 < h.room) (he : e ∉ h.Supply)
    (hl : IsList h l acc) :
    ∃ c h', h.allocCons (.cell e) l = .ok (c, h') ∧ KeepsAll h h' ∧ h.room = h'.room + 1 ∧
      IsList h' (.cell c) (e :: acc) := by
  obtain ⟨c, h', hal, -, -, hout, hcell, hrm⟩ :=
    allocCell_spec hok hroom fun _ => ⟨.cell e, l, tagCons⟩
  obtain ⟨hk, -⟩ := allocCell_keeps hok hal
  exact ⟨c, h', hal, hk, hrm, c, l, rfl, hout, fun hs => he (hk.keeps.supply hs), hcell, hl.keeps hk⟩

theorem allocNil_list (hok : h.FreeListOk) (hroom : 0 < h.room) :
    ∃ c h', h.allocNil = .ok (c, h') ∧ KeepsAll h h' ∧ h.room = h'.room + 1 ∧
      IsList h' (.cell c) [] := by
  obtain ⟨c, h', hal, -, -, hout, hcell, hrm⟩ :=
    allocCell_spec hok hroom fun _ => ⟨.null, .null, tagCons⟩
  obtain ⟨hk, -⟩ := allocCell_keeps hok hal
  exact ⟨c, h', hal, hk, hrm, c, rfl, hout, hcell⟩

/-- One round of `reverse` moves an element from the one list to the other. -/
theorem reverseBody_cons (hok : h.FreeListOk) (hroom : 0 < h.room) (hl : IsList h w (e :: es))
    (ha : IsList h l acc) :
    ∃ c rest h', reverseBody p ⟨l, w, h⟩ = .ok ⟨.cell c, rest, h'⟩ ∧ KeepsAll h h' ∧
      h.room = h'.room + 1 ∧ IsList h' rest es ∧ IsList h' (.cell c) (e :: acc) := by
  obtain ⟨c, h', hal, hk, hrm, hacc⟩ :=
    allocCons_list hok hroom (hl.elements e List.mem_cons_self) ha
  obtain ⟨rest, hcdr, hrest⟩ := cdr_cons (p := p) (hl.keeps hk)
  refine ⟨c, rest, h', ?_, hk, hrm, hrest, hacc⟩
  unfold reverseBody
  dsimp only
  rw [car_cons hl, ok_bind, hal, ok_bind]
  dsimp only
  rw [hcdr, ok_bind]

theorem reverse_loop (hok : h.FreeListOk) (hroom : es.length ≤ h.room) (hp : p.Ok h)
    (hl : IsList h w es) (ha : IsList h l acc) :
    ∃ s', (∀ fuel, es.length < fuel → WhileLoop.loopM Stop.fuel (reverseCond p) (reverseBody p) fuel
        ⟨l, w, h⟩ = .ok s') ∧
      KeepsAll h s'.heap ∧ h.room = s'.heap.room + (counted h es).length ∧
      IsList s'.heap s'.l ((counted h es).reverse ++ acc) := by
  induction es generalizing w l h acc with
  | nil =>
    refine ⟨⟨l, w, h⟩, fun fuel hf => ?_, KeepsAll.refl hok, rfl, ha⟩
    obtain ⟨f, rfl⟩ := Nat.exists_eq_add_of_lt hf
    exact WhileLoop.loopM_exit _ (carCond_nil hp hl)
  | cons e es ih =>
    rw [List.length_cons] at hroom
    have hc : reverseCond p ⟨l, w, h⟩ = .ok (decide (Truthy h e)) := carCond_cons hl
    by_cases ht : Truthy h e
    · rw [decide_eq_true ht] at hc
      obtain ⟨c, rest, h', hb, hk, hrm, hrest, hacc⟩ :=
        reverseBody_cons (p := p) hok (by omega) hl ha
      obtain ⟨s', hrun, hk', hrm', hrev⟩ :=
        ih hk.freeListOk (by omega) (hp.keeps hk) hrest hacc
      have hcount : counted h' es = counted h es := by
        obtain ⟨_, _, _, _, _, _, hes⟩ := hl
        exact hes.counted_keeps hk
      rw [hcount] at hrm' hrev
      refine ⟨s', fun fuel hf => ?_, hk.trans hk', ?_, ?_⟩
      · obtain ⟨f, rfl⟩ : ∃ f, fuel = f + 1 := ⟨fuel - 1, by omega⟩
        rw [WhileLoop.loopM_round f hc hb]
        exact hrun f (by simpa using hf)
      · rw [counted_cons_pos ht, List.length_cons]
        omega
      · rw [counted_cons_pos ht, List.reverse_cons, List.append_assoc]
        exact hrev
    · rw [decide_eq_false ht] at hc
      refine ⟨⟨l, w, h⟩, fun fuel hf => ?_, KeepsAll.refl hok, ?_, ?_⟩
      · obtain ⟨f, rfl⟩ : ∃ f, fuel = f + 1 := ⟨fuel - 1, by omega⟩
        exact WhileLoop.loopM_exit f hc
      · rw [counted_cons_neg ht]
        rfl
      · rw [counted_cons_neg ht]
        exact ha

/-- `(reverse l)` on the word `w` returns the word `w'`; what was in use is
    as before. -/
def Reverses (h : Heap) (p : Prototypes) (w w' : Word) (h' : Heap) : Prop :=
  (∃ N, ∀ fuel, N ≤ fuel → reverse fuel h p w = .ok (w', h')) ∧ KeepsAll h h'

/-- `reverse` reverses what is in front of the first element that starts with
    a zero word. -/
theorem reverse_list (hok : h.FreeListOk) (hroom : es.length + 1 ≤ h.room) (hp : p.Ok h)
    (hl : IsList h w es) :
    ∃ w' h', Reverses h p w w' h' ∧ h.room ≤ h'.room + (es.length + 1) ∧
      IsList h' w' (counted h es).reverse := by
  obtain ⟨c, h₁, hal, hk₁, hrm₁, hnil⟩ := allocNil_list hok (by omega)
  obtain ⟨s', hrun, hk₂, hrm₂, hrev⟩ :=
    reverse_loop hk₁.freeListOk (by omega) (hp.keeps hk₁) (hl.keeps hk₁) hnil
  rw [hl.counted_keeps hk₁] at hrm₂ hrev
  have hle := counted_length_le h es
  rw [List.append_nil] at hrev
  refine ⟨s'.l, s'.heap, ⟨⟨es.length + 1, fun fuel hf => ?_⟩, hk₁.trans hk₂⟩, by omega, hrev⟩
  unfold reverse
  rw [hal, ok_bind]
  dsimp only
  rw [hrun fuel hf, ok_bind]

end Reverse

/-! ## The laws -/

/-- `list-size`, `reverse` and `item` on the list of the values `es` at the
    word `w`. -/
structure ListLaws (h : Heap) (p : Prototypes) (w : Word) (es : List ℕ) : Prop where
  size : ∃ N, ∀ fuel, N ≤ fuel → listSize fuel h p w = .ok (BitVec.ofInt 64 es.length)
  reverse : ∃ w' h', Reverses h p w w' h' ∧ IsList h' w' es.reverse ∧
    ∃ w'' h'', Reverses h' p w' w'' h'' ∧ IsList h'' w'' es
  item : ∀ k (hk : k < es.length), ∃ N, ∀ fuel, N ≤ fuel →
    item fuel h p w (BitVec.ofInt 64 k) = .ok (.cell es[k])

section Laws

variable {h : Heap} {p : Prototypes} {w : Word} {es : List ℕ}

/-- A right `list-size` counts every element. -/
theorem ListLaws.truthy (hlaws : ListLaws h p w es) (hp : p.Ok h) (hl : IsList h w es)
    (hlen : es.length < 2 ^ 31) : ∀ e ∈ es, Truthy h e := by
  have hle := counted_length_le h es
  obtain ⟨N, hN⟩ := hlaws.size
  have hsize := hN (N + es.length + 1) (by omega)
  rw [listSize_list hp hl hlen (by omega)] at hsize
  have heq := (ofInt_inj (by omega) (by omega)).mp (Except.ok.inj hsize)
  exact counted_length_eq (by omega)

/-- The laws hold exactly for the lists all of whose values start with a word
    that is not zero: no integer 0 and no empty list. -/
theorem list_laws_iff (hok : h.FreeListOk) (hused : h.cellsUsed ≤ maxCells) (hp : p.Ok h)
    (hl : IsList h w es) (hroom : 2 * (es.length + 1) ≤ h.room) :
    ListLaws h p w es ↔ ∀ e ∈ es, (h.cells e).ar ≠ .null := by
  have hlen : es.length < 2 ^ 31 := lt_of_lt_of_le hl.length_lt (hused.trans (by decide))
  refine ⟨fun hlaws => hlaws.truthy hp hl hlen, fun htr => ?_⟩
  have hall : counted h es = es := counted_eq_self.mpr htr
  refine ⟨⟨es.length + 1, fun fuel hf => ?_⟩, ?_, fun k hk => ⟨k + 1, fun fuel hf => ?_⟩⟩
  · rw [listSize_list hp hl hlen hf, hall]
  · obtain ⟨w', h', hrun, hrm, hl'⟩ := reverse_list hok (by omega) hp hl
    have hk := hrun.2
    rw [hall] at hl'
    have hall' : counted h' es.reverse = es.reverse := by
      refine counted_eq_self.mpr fun e hm => ?_
      have he := List.mem_reverse.mp hm
      unfold Truthy
      rw [hk.cell (hl.elements e he)]
      exact htr e he
    obtain ⟨w'', h'', hrun', -, hl''⟩ :=
      reverse_list hk.freeListOk (by rw [List.length_reverse]; omega) (hp.keeps hk) hl'
    rw [hall', List.reverse_reverse] at hl''
    exact ⟨w', h', hrun, hl', w'', h'', hrun', hl''⟩
  · exact item_list hl hlen hk hf

end Laws

/-- A heap with `prototype_nil` in cell 0, `consed_type_error` in cell 2, and
    the list of the integer `v` in cell 4. -/
def listHeap (v : BitVec 64) : Heap :=
  { init with
    cells := fun
      | 0 => ⟨.null, .null, tagCons⟩
      | 1 => ⟨.ofNat errInvalidParamType, .null, tagError⟩
      | 2 => ⟨.cell 1, .cell 0, tagCons⟩
      | 3 => ⟨.int v, .null, tagInt⟩
      | 4 => ⟨.cell 3, .cell 0, tagCons⟩
      | i => init.cells i
    cellsUsed := 5 }

section ListHeap

variable (v : BitVec 64)

theorem listHeap_freeListOk : (listHeap v).FreeListOk where
  nodup := by simp [listHeap, init]
  below := by simp [listHeap, init]

theorem listHeap_live {i : ℕ} (hi : i < 5) : i ∉ (listHeap v).Supply := by
  simp [Supply, listHeap, init]
  omega

theorem listHeap_prototypes : Prototypes.Ok ⟨.cell 0, .cell 2⟩ (listHeap v) :=
  ⟨0, rfl, listHeap_live v (by decide), rfl⟩

theorem listHeap_isList : IsList (listHeap v) (.cell 4) [3] :=
  ⟨4, .cell 0, rfl, listHeap_live v (by decide), listHeap_live v (by decide), rfl,
    0, rfl, listHeap_live v (by decide), rfl⟩

end ListHeap

theorem list_laws_seven : ListLaws (listHeap 7) ⟨.cell 0, .cell 2⟩ (.cell 4) [3] ↔
    ∀ e ∈ [3], ((listHeap 7).cells e).ar ≠ .null :=
  list_laws_iff (listHeap_freeListOk 7) (by decide) (listHeap_prototypes 7) (listHeap_isList 7)
    (by decide)

/-- The list `(0)`: its size is 0. -/
theorem list_laws_zero : ¬ ∀ (h : Heap) (p : Prototypes) (w : Word) (es : List ℕ), h.FreeListOk →
    h.cellsUsed ≤ maxCells → p.Ok h → IsList h w es → 2 * (es.length + 1) ≤ h.room →
    ListLaws h p w es := by
  intro hall
  have hlaws := hall (listHeap 0) ⟨.cell 0, .cell 2⟩ (.cell 4) [3] (listHeap_freeListOk 0)
    (by decide) (listHeap_prototypes 0) (listHeap_isList 0) (by decide)
  exact hlaws.truthy (listHeap_prototypes 0) (listHeap_isList 0) (by decide) 3
    List.mem_cons_self rfl

end Interim.Lisp
