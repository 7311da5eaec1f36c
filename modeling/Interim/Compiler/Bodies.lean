import Interim.Compiler.Arguments

/-!
# Labels and bodies

The labels a piece of code defines, the function each instruction is in the
body of, and what it takes for code to be closed: no label defined twice, and
the target of every branch in the same body.

A label's number comes from `label_skip_count`, or is the cell of a lambda. Code
emitted between two states of the compiler defines labels only whose numbers
were drawn, or whose cells were allocated, between these states (`Fresh`), so
that the labels of consecutive pieces are different.
-/

namespace Interim.Compiler

open Writer (ascii natText)
open Heap

/-! ## Branches, labels and bodies -/

/-- The label a branch goes to. -/
def Jit.target : Jit → Option Label
  | .je l | .jne l | .jmp l => some l
  | _ => none

/-- The label `jit_label` defines. -/
def Jit.place : Jit → Option Label
  | .label l => some l
  | _ => none

/-- The labels defined in a piece of code. -/
def labelsOf (code : List Jit) : List Label := code.filterMap Jit.place

/-- The functions whose body comes next, innermost first: a body begins at the
    label `L0_%p` of its lambda and ends at the label `L1_%p`. -/
def enter (fns : List ℕ) : Jit → List ℕ
  | .label (.fn a) => a :: fns
  | .label (.fe _) => fns.tail
  | _ => fns

/-- Each instruction with the functions it is in the body of. -/
def inBodies : List ℕ → List Jit → List (List ℕ × Jit)
  | _, [] => []
  | fns, i :: code => (enter fns i, i) :: inBodies (enter fns i) code

/-- The text `compile_expr` prints for a label; `p` is what `%p` prints for a
    cell's address. -/
def Label.text (p : ℕ → List UInt8) : Label → List UInt8
  | .else_ n => ascii "Lelse_" ++ natText n
  | .endif n => ascii "Lendif_" ++ natText n
  | .loop n => ascii "Lloop_" ++ natText n
  | .skip n => ascii "Lskip_" ++ natText n
  | .skip2 n => ascii "Lskip2_" ++ natText n
  | .ok n => ascii "Lok_" ++ natText n
  | .fn a => ascii "L0_" ++ p a
  | .fe a => ascii "L1_" ++ p a

/-- Neither a branch nor a label. -/
def Jit.isFlat (i : Jit) : Bool := i.target.isNone && i.place.isNone

section Lists

variable {code code' : List Jit} {fns : List ℕ}

theorem labelsOf_append : labelsOf (code ++ code') = labelsOf code ++ labelsOf code' :=
  List.filterMap_append

theorem mem_labelsOf {l : Label} : l ∈ labelsOf code ↔ Jit.label l ∈ code := by
  unfold labelsOf
  rw [List.mem_filterMap]
  constructor
  · rintro ⟨i, hi, hl⟩
    cases i <;> simp [Jit.place] at hl
    exact hl ▸ hi
  · exact fun h => ⟨_, h, rfl⟩

theorem inBodies_append : inBodies fns (code ++ code') =
    inBodies fns code ++ inBodies (code.foldl enter fns) code' := by
  induction code generalizing fns with
  | nil => rfl
  | cons i code ih =>
    rw [List.cons_append, inBodies, inBodies, ih, List.cons_append, List.foldl_cons]

/-- Code without the labels of a function stays in the same body. -/
theorem foldl_enter_of_level (h : ∀ i ∈ code, ∀ fns, enter fns i = fns) :
    code.foldl enter fns = fns := by
  induction code generalizing fns with
  | nil => rfl
  | cons i code ih =>
    rw [List.foldl_cons, h i (List.mem_cons_self ..)]
    exact ih fun j hj => h j (List.mem_cons_of_mem _ hj)

theorem mem_inBodies_of_level (h : ∀ i ∈ code, ∀ fns, enter fns i = fns) {fns' : List ℕ} {i : Jit} :
    (fns', i) ∈ inBodies fns code ↔ fns' = fns ∧ i ∈ code := by
  induction code with
  | nil => simp [inBodies]
  | cons j code ih =>
    rw [inBodies, h j (List.mem_cons_self ..), List.mem_cons, List.mem_cons, Prod.mk.injEq,
      ih fun k hk => h k (List.mem_cons_of_mem _ hk)]
    constructor
    · rintro (⟨rfl, rfl⟩ | ⟨rfl, hm⟩)
      · exact ⟨rfl, Or.inl rfl⟩
      · exact ⟨rfl, Or.inr hm⟩
    · rintro ⟨rfl, rfl | hm⟩
      · exact Or.inl ⟨rfl, rfl⟩
      · exact Or.inr ⟨rfl, hm⟩

theorem Jit.isFlat_target {i : Jit} (h : i.isFlat = true) : i.target = none := by
  rw [Jit.isFlat, Bool.and_eq_true] at h
  exact Option.isNone_iff_eq_none.mp h.1

theorem Jit.isFlat_enter {i : Jit} (h : i.isFlat = true) : enter fns i = fns := by
  cases i with
  | label l => simp [Jit.isFlat, Jit.place] at h
  | _ => rfl

end Lists

/-! ## Fresh labels -/

/-- `s'` comes after `s`: labels were drawn and cells allocated. -/
structure Later (s s' : CState) : Prop where
  count : s.labelSkipCount ≤ s'.labelSkipCount
  heap : KeepsAll s.heap s'.heap

/-- The number of the label was drawn, or its cell allocated, between `s` and
    `s'`. -/
def Fresh (s s' : CState) : Label → Prop
  | .fn a | .fe a => a ∈ s.heap.Supply ∧ a ∉ s'.heap.Supply
  | .else_ n | .endif n | .loop n | .skip n | .skip2 n | .ok n =>
    s.labelSkipCount < n ∧ n ≤ s'.labelSkipCount

section Fresh

variable {s s₁ s₂ s' : CState} {l : Label}

theorem Later.refl (hok : s.heap.FreeListOk) : Later s s := ⟨le_rfl, .refl hok⟩

theorem Later.trans (h : Later s s₁) (h' : Later s₁ s') : Later s s' :=
  ⟨h.count.trans h'.count, h.heap.trans h'.heap⟩

theorem Later.bump (hok : s.heap.FreeListOk) : Later s s.bump := ⟨Nat.le_succ _, .refl hok⟩

theorem Fresh.earlier (h : Fresh s₁ s' l) (hs : Later s s₁) : Fresh s s' l := by
  have hc := hs.count
  have hsup := hs.heap.keeps.supply
  cases l with
  | fn a => exact ⟨hsup h.1, h.2⟩
  | fe a => exact ⟨hsup h.1, h.2⟩
  | _ =>
    obtain ⟨h, h'⟩ := h
    exact ⟨by omega, h'⟩

theorem Fresh.later (h : Fresh s s₁ l) (hs : Later s₁ s') : Fresh s s' l := by
  have hc := hs.count
  have hsup := hs.heap.keeps.supply
  cases l with
  | fn a => exact ⟨h.1, fun ha => h.2 (hsup ha)⟩
  | fe a => exact ⟨h.1, fun ha => h.2 (hsup ha)⟩
  | _ =>
    obtain ⟨h, h'⟩ := h
    exact ⟨h, by omega⟩

/-- A label is not fresh twice. -/
theorem Fresh.disjoint (h : Fresh s s₁ l) (h' : Fresh s₂ s' l) (h₁ : Later s₁ s₂) : False := by
  have hc := h₁.count
  cases l with
  | fn a => exact h.2 (h₁.heap.keeps.supply h'.1)
  | fe a => exact h.2 (h₁.heap.keeps.supply h'.1)
  | _ =>
    obtain ⟨h, h₂⟩ := h
    obtain ⟨h', h₃⟩ := h'
    omega

end Fresh

/-! ## Closed code -/

/-- `code`, emitted between `s` and `s'`, defines fresh labels, each once, ends
    in the body it begins in, and has the label of each branch in the same body. -/
structure Closed (s : CState) (code : List Jit) (s' : CState) : Prop where
  later : Later s s'
  fresh : ∀ l ∈ labelsOf code, Fresh s s' l
  nodup : (labelsOf code).Nodup
  level : ∀ fns, code.foldl enter fns = fns
  resolved : ∀ fns fns' i l, (fns', i) ∈ inBodies fns code → i.target = some l →
    (fns', Jit.label l) ∈ inBodies fns code

section Closed

variable {s s₁ s₂ s₃ s' : CState} {code code' : List Jit}

/-- Code without branches and labels. -/
theorem Closed.flat (hf : code.all Jit.isFlat = true) (h : Later s s') : Closed s code s' := by
  have hflat : ∀ i ∈ code, i.isFlat = true := List.all_eq_true.mp hf
  have hlevel : ∀ i ∈ code, ∀ fns, enter fns i = fns := fun i hi _ =>
    Jit.isFlat_enter (hflat i hi)
  have hnil : labelsOf code = [] := by
    rw [labelsOf, List.filterMap_eq_nil_iff]
    intro i hi
    have := hflat i hi
    rw [Jit.isFlat, Bool.and_eq_true] at this
    exact Option.isNone_iff_eq_none.mp this.2
  refine ⟨h, by simp [hnil], by simp [hnil], fun _ => foldl_enter_of_level hlevel, ?_⟩
  intro fns fns' i l hi ht
  obtain ⟨-, hi⟩ := (mem_inBodies_of_level hlevel).mp hi
  rw [Jit.isFlat_target (hflat i hi)] at ht
  exact absurd ht (by simp)

theorem Closed.append (h : Closed s code s₁) (h' : Closed s₁ code' s') :
    Closed s (code ++ code') s' := by
  refine ⟨h.later.trans h'.later, ?_, ?_, ?_, ?_⟩
  · intro l hl
    rw [labelsOf_append] at hl
    rcases List.mem_append.mp hl with hl | hl
    · exact (h.fresh l hl).later h'.later
    · exact (h'.fresh l hl).earlier h.later
  · rw [labelsOf_append, List.nodup_append']
    refine ⟨h.nodup, h'.nodup, fun l hl hl' => ?_⟩
    exact (h.fresh l hl).disjoint (h'.fresh l hl') (.refl h.later.heap.freeListOk)
  · intro fns
    rw [List.foldl_append, h.level, h'.level]
  · intro fns fns' i l hi ht
    rw [inBodies_append, h.level] at hi ⊢
    rcases List.mem_append.mp hi with hi | hi
    · exact List.mem_append_left _ (h.resolved fns fns' i l hi ht)
    · exact List.mem_append_right _ (h'.resolved fns fns' i l hi ht)

/-- Two pieces of closed code with branches and labels `p₀`, `p₁`, `p₂` around
    and between them; the labels' numbers were drawn in front of the pieces. -/
theorem Closed.enclose {s₀ s₁ s₂ : CState} (p₀ p₁ p₂ : List Jit) (h₁ : Closed s₀ code s₁)
    (h₂ : Closed s₂ code' s') (h₀ : Later s s₀) (h₁₂ : Later s₁ s₂)
    (hlevel : ∀ i ∈ p₀ ++ p₁ ++ p₂, ∀ fns, enter fns i = fns)
    (hown : ∀ l ∈ labelsOf (p₀ ++ p₁ ++ p₂), Fresh s s₀ l ∨ Fresh s₁ s₂ l)
    (hnodup : (labelsOf (p₀ ++ p₁ ++ p₂)).Nodup)
    (htarget : ∀ i ∈ p₀ ++ p₁ ++ p₂, ∀ l, i.target = some l → Jit.label l ∈ p₀ ++ p₁ ++ p₂) :
    Closed s (p₀ ++ (code ++ (p₁ ++ (code' ++ p₂)))) s' := by
  have hfresh₁ : ∀ l ∈ labelsOf code, l ∉ labelsOf (p₀ ++ p₁ ++ p₂) := by
    intro l hl hp
    rcases hown l hp with ho | ho
    · exact ho.disjoint (h₁.fresh l hl) (.refl h₀.heap.freeListOk)
    · exact (h₁.fresh l hl).disjoint ho (.refl h₁.later.heap.freeListOk)
  have hfresh₂ : ∀ l ∈ labelsOf code', l ∉ labelsOf (p₀ ++ p₁ ++ p₂) := by
    intro l hl hp
    rcases hown l hp with ho | ho
    · exact ho.disjoint (h₂.fresh l hl) (h₁.later.trans h₁₂)
    · exact ho.disjoint (h₂.fresh l hl) (.refl h₁₂.heap.freeListOk)
  have hfresh₁₂ : ∀ l ∈ labelsOf code, l ∉ labelsOf code' := fun l hl hl' =>
    (h₁.fresh l hl).disjoint (h₂.fresh l hl') h₁₂
  have hperm : (labelsOf (p₀ ++ (code ++ (p₁ ++ (code' ++ p₂))))).Perm
      (labelsOf (p₀ ++ p₁ ++ p₂) ++ (labelsOf code ++ labelsOf code')) := by
    refine List.perm_iff_count.mpr fun l => ?_
    simp only [labelsOf_append, List.count_append]
    omega
  have hsub : ∀ {i : Jit}, i ∈ p₀ ∨ i ∈ p₁ ∨ i ∈ p₂ ↔ i ∈ p₀ ++ p₁ ++ p₂ := by
    intro i
    rw [List.mem_append, List.mem_append, or_assoc]
  have hl₀ : ∀ i ∈ p₀, ∀ fns, enter fns i = fns := fun i hi => hlevel i (hsub.mp (Or.inl hi))
  have hl₁ : ∀ i ∈ p₁, ∀ fns, enter fns i = fns := fun i hi => hlevel i (hsub.mp (Or.inr (Or.inl hi)))
  have hl₂ : ∀ i ∈ p₂, ∀ fns, enter fns i = fns := fun i hi => hlevel i (hsub.mp (Or.inr (Or.inr hi)))
  have hbodies : ∀ fns fns' i, (fns', i) ∈ inBodies fns (p₀ ++ (code ++ (p₁ ++ (code' ++ p₂)))) ↔
      (fns' = fns ∧ i ∈ p₀ ++ p₁ ++ p₂) ∨ (fns', i) ∈ inBodies fns code ∨
        (fns', i) ∈ inBodies fns code' := by
    intro fns fns' i
    simp only [inBodies_append, foldl_enter_of_level hl₀, foldl_enter_of_level hl₁, h₁.level, h₂.level,
      List.mem_append, mem_inBodies_of_level hl₀, mem_inBodies_of_level hl₁,
      mem_inBodies_of_level hl₂]
    tauto
  have hlast := h₂.later
  refine ⟨(h₀.trans h₁.later).trans (h₁₂.trans hlast), fun l hl => ?_, ?_, fun fns => ?_, ?_⟩
  · rcases List.mem_append.mp (hperm.mem_iff.mp hl) with hl | hl
    · rcases hown l hl with ho | ho
      · exact ho.later (h₁.later.trans (h₁₂.trans hlast))
      · exact (ho.later hlast).earlier (h₀.trans h₁.later)
    · rcases List.mem_append.mp hl with hl | hl
      · exact ((h₁.fresh l hl).later (h₁₂.trans hlast)).earlier h₀
      · exact (h₂.fresh l hl).earlier ((h₀.trans h₁.later).trans h₁₂)
  · rw [hperm.nodup_iff, List.nodup_append', List.nodup_append']
    refine ⟨hnodup, ⟨h₁.nodup, h₂.nodup, hfresh₁₂⟩, fun l hp hl => ?_⟩
    rcases List.mem_append.mp hl with hl | hl
    · exact hfresh₁ l hl hp
    · exact hfresh₂ l hl hp
  · simp only [List.foldl_append, foldl_enter_of_level hl₀, foldl_enter_of_level hl₁,
      foldl_enter_of_level hl₂, h₁.level, h₂.level]
  · intro fns fns' i l hi ht
    rcases (hbodies fns fns' i).mp hi with ⟨hf, hi⟩ | hi | hi
    · exact (hbodies _ _ _).mpr (Or.inl ⟨hf, htarget i hi l ht⟩)
    · exact (hbodies _ _ _).mpr (Or.inr (Or.inl (h₁.resolved fns fns' i l hi ht)))
    · exact (hbodies _ _ _).mpr (Or.inr (Or.inr (h₂.resolved fns fns' i l hi ht)))

theorem labelsOf_fnCode [Port] (a numLets : ℕ) (body : List Jit) :
    labelsOf (fnCode a numLets body) = .fn a :: (labelsOf body ++ [.fe a]) := by
  unfold fnCode
  rw [labelsOf_append, labelsOf_append]
  rfl

/-- The body of a function is one level further in. -/
theorem inBodies_fnCode [Port] {a numLets : ℕ} {body : List Jit} {fns : List ℕ}
    (h : ∀ fns, body.foldl enter fns = fns) :
    inBodies fns (fnCode a numLets body) =
      [(fns, Jit.jmp (.fe a)), (a :: fns, .label (.fn a)), (a :: fns, .movi r2 (.frame a)),
        (a :: fns, .push r2 r2), (a :: fns, .decStack (numLets * ptrsz))] ++
      (inBodies (a :: fns) body ++
        [(a :: fns, .incStack (numLets * ptrsz)), (a :: fns, .incStack ptrsz), (a :: fns, .ret),
          (fns, .label (.fe a)), (fns, .lea r0 (.cell a))]) := by
  unfold fnCode
  rw [inBodies_append, inBodies_append]
  change _ ++ (inBodies (a :: fns) body ++ inBodies (body.foldl enter (a :: fns)) _) = _
  rw [h]
  rfl

/-- A function: `a` is the cell of its lambda, allocated before its body is
    compiled. -/
theorem Closed.fn [Port] {a numLets : ℕ} (h : Closed s₁ code s') (hs : Later s s₁)
    (ha : a ∈ s.heap.Supply) (ha' : a ∉ s₁.heap.Supply) :
    Closed s (fnCode a numLets code) s' := by
  have hout : a ∉ s'.heap.Supply := fun hm => ha' (h.later.heap.keeps.supply hm)
  have hfn : Label.fn a ∉ labelsOf code := fun hl => ha' (h.fresh _ hl).1
  have hfe : Label.fe a ∉ labelsOf code := fun hl => ha' (h.fresh _ hl).1
  refine ⟨hs.trans h.later, fun l hl => ?_, ?_, fun fns => ?_, ?_⟩
  · rw [labelsOf_fnCode] at hl
    rcases List.mem_cons.mp hl with rfl | hl
    · exact ⟨ha, hout⟩
    · rcases List.mem_append.mp hl with hl | hl
      · exact (h.fresh l hl).earlier hs
      · obtain rfl := List.mem_singleton.mp hl
        exact ⟨ha, hout⟩
  · rw [labelsOf_fnCode, List.nodup_cons, List.nodup_append']
    refine ⟨?_, h.nodup, List.nodup_singleton _, ?_⟩
    · simp [hfn]
    · intro l hl hl'
      obtain rfl := List.mem_singleton.mp hl'
      exact hfe hl
  · unfold fnCode
    rw [List.foldl_append, List.foldl_append]
    change (code.foldl enter (a :: fns) |> fun f => List.foldl enter f _) = _
    rw [h.level]
    rfl
  · intro fns fns' i l hi ht
    rw [inBodies_fnCode h.level] at hi ⊢
    rcases List.mem_append.mp hi with hi | hi
    · -- the jump over the body is the only branch in front of it
      simp only [List.mem_cons, Prod.mk.injEq, List.not_mem_nil, or_false] at hi
      rcases hi with ⟨rfl, rfl⟩ | ⟨-, rfl⟩ | ⟨-, rfl⟩ | ⟨-, rfl⟩ | ⟨-, rfl⟩
      · obtain rfl : Label.fe a = l := Option.some.inj ht
        simp
      all_goals exact absurd ht (by simp [Jit.target])
    · rcases List.mem_append.mp hi with hi | hi
      · exact List.mem_append_right _ (List.mem_append_left _ (h.resolved _ _ i l hi ht))
      · simp only [List.mem_cons, Prod.mk.injEq, List.not_mem_nil, or_false] at hi
        rcases hi with ⟨-, rfl⟩ | ⟨-, rfl⟩ | ⟨-, rfl⟩ | ⟨-, rfl⟩ | ⟨-, rfl⟩
        all_goals exact absurd ht (by simp [Jit.target])

end Closed

end Interim.Compiler
