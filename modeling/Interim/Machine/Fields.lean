import Interim.Machine.Operands

/-!
# Reading and writing struct fields

`BUILTIN_SGET` and `BUILTIN_SPUT` (`sledge/compiler_new.c`, lines 1189–1301)
find the field at compile time, in the name/default pairs of the struct
definition, and address it at run time in the instance, which has one element
for the definition and one for each field.

Results:

* `sget_loads` — the code of `(sget s g)` loads the element of `g`.
* `sput_stores` — the code of `(sput s f v)` stores the cell of `v` in the
  element of `f` and nothing else, and leaves `s` in `R0`, when `v` is in a
  place `load_cell` reads without calling C.
* `sput_field` — when `v` is a raw integer local it does not: `load_cell` then
  calls `alloc_int` after the address of the element was put into `R2`.
-/

namespace Interim.Machine

open Compiler Compiler.CompM
open Writer (cellAt cString elemAt)

/-! ## Definitions and instances -/

/-- `structDef` is a struct definition with these field names, in this order:
    a name, then a key and a default for each field. -/
structure HasFields (h : Heap) (structDef : Word) (names : List (List UInt8)) : Prop where
  layout : ∃ d e, structDef = .cell d ∧ (h.cells d).tag = tagStructDef ∧
    (h.cells d).ar = .ptr (.elems e) 0 ∧ (h.cells d).dr = .ofNat (1 + 2 * names.length) ∧
    1 + 2 * names.length < 2 ^ 31 ∧ ∀ i f, names[i]? = some f → ∃ key : ℕ,
      (h.elems e)[1 + i * 2]? = some (.cell key) ∧ cString h (h.cells key).ar = .ok f

/-- Cell `x` is an instance with `n` fields whose elements are array `e`. -/
structure IsInstance (h : Heap) (x e n : ℕ) : Prop where
  tag : (h.cells x).tag = tagStruct
  elements : (h.cells x).ar = .ptr (.elems e) 0
  length : (h.elems e).length = n + 1

/-- The name of a field, as the compiler reads it. -/
def Named (h : Heap) (w : Word) (f : List UInt8) : Prop :=
  ∃ c, cellAt h w = .ok c ∧ cString h c.ar = .ok f

/-! ## Finding a field at compile time -/

/-- A computation that emits nothing and changes nothing. -/
def Silent {α : Type} (p : CompM α) : Prop :=
  ∀ {ctx : Ctx} {s s' : CState} {a : α} {code : List Jit}, Emits p ctx s a code s' →
    code = [] ∧ s' = s

namespace Silent

variable {α β : Type}

theorem pure (a : α) : Silent (Pure.pure a : CompM α) := fun h => (emits_pure.mp h).2

theorem fail (e : CompileError) : Silent (CompM.fail e : CompM α) := fun h => absurd h emits_fail

theorem fault : Silent (CompM.fault : CompM α) := fun h => absurd h emits_fault

theorem fetch (g : Heap → Except Stop α) : Silent (CompM.fetch g) := fun h => (emits_fetch.mp h).2

theorem ctx : Silent CompM.ctx := fun h => (emits_ctx.mp h).2

theorem bind {p : CompM α} {f : α → CompM β} (hp : Silent p) (hf : ∀ a, Silent (f a)) :
    Silent (p >>= f) := by
  intro ctx s s' b code h
  obtain ⟨a, code₁, s₁, code₂, h₁, h₂, rfl⟩ := emits_bind.mp h
  obtain ⟨rfl, rfl⟩ := hp h₁
  obtain ⟨rfl, rfl⟩ := hf a h₂
  exact ⟨rfl, rfl⟩

theorem nameOf (w : Word) : Silent (nameOf w) := bind (fetch _) fun _ => fetch _

theorem envCell (d : Arg) : Silent (envCell d) := by
  refine bind ctx fun c => ?_
  cases d.env with
  | none => exact fault
  | some e => exact pure _

theorem firstElem (w : Word) : Silent (firstElem w) := by
  refine bind (fetch _) fun c => ?_
  split
  · exact fetch _
  · exact fetch _

theorem lookupGlobalSymbol (name : List UInt8) : Silent (lookupGlobalSymbol name) :=
  bind ctx fun _ => pure _

theorem sgetDef (d : Arg) (field : List UInt8) : Silent (sgetDef d field) := by
  unfold Compiler.sgetDef
  split
  · exact bind (envCell d) fun w => firstElem w
  · cases d.typeName with
    | none => exact fail _
    | some typeName => exact bind (lookupGlobalSymbol _) fun e => envCell _

theorem sputDef (d : Arg) : Silent (sputDef d) := by
  unfold Compiler.sputDef
  split
  · exact bind (envCell d) fun w => firstElem w
  · cases d.typeName with
    | none => exact fail _
    | some typeName =>
      refine bind (lookupGlobalSymbol _) fun e => ?_
      cases e with
      | none => exact fail _
      | some e => exact envCell _

end Silent

/-- A computation succeeds in one way only. -/
theorem Emits.unique {α : Type} {p : CompM α} {ctx : Ctx} {s s₁ s₂ : CState} {a b : α}
    {code₁ code₂ : List Jit} (h₁ : Emits p ctx s a code₁ s₁) (h₂ : Emits p ctx s b code₂ s₂) :
    a = b := by
  have h := Except.ok.inj (h₁.symm.trans h₂)
  exact Except.ok.inj (congrArg Prod.fst h)

section Find

variable {ctx : Ctx} {s s' : CState} {names : List (List UInt8)} {f : List UInt8}
  {structDef w : Word} {code : List Jit}

theorem emits_nameOf (h : Emits (nameOf w) ctx s f code s') :
    Named s.heap w f ∧ code = [] ∧ s' = s := by
  unfold nameOf at h
  obtain ⟨c, hc, h⟩ := emits_fetch_bind.mp h
  obtain ⟨hf, hcode, hs⟩ := emits_fetch.mp h
  exact ⟨⟨c, hc, hf⟩, hcode, hs⟩

/-- The field loop finds an index at which the definition has that name. -/
theorem emits_findField {elements : Word} {e : ℕ} (he : elements = .ptr (.elems e) 0)
    (hkeys : ∀ i g, names[i]? = some g → ∃ key : ℕ, (s.heap.elems e)[1 + i * 2]? = some (.cell key) ∧
      cString s.heap (s.heap.cells key).ar = .ok g) (k : ℕ) :
    ∀ {i : ℕ} {r : Option ℕ} {code : List Jit}, i + k ≤ names.length →
      Emits (findField elements f k i) ctx s r code s' →
      code = [] ∧ s' = s ∧ ∀ j, r = some j → names[j]? = some f := by
  induction k with
  | zero =>
    intro i r code _ h
    obtain ⟨rfl, hcode, hs⟩ := emits_pure.mp h
    exact ⟨hcode, hs, fun j hj => absurd hj (by simp)⟩
  | succ k ih =>
    intro i r code hle h
    unfold findField at h
    obtain ⟨key, hkey, h⟩ := emits_fetch_bind.mp h
    obtain ⟨keyName, code₁, s₁, code₂, h₁, h₂, rfl⟩ := emits_bind.mp h
    obtain ⟨⟨c, hc, hname⟩, rfl, rfl⟩ := emits_nameOf h₁
    obtain ⟨key', hkey', hname'⟩ := hkeys i _ (List.getElem?_eq_getElem (by omega))
    have hkeyEq : key = .cell key' := by
      rw [he] at hkey
      simp only [elemAt, hkey', if_true] at hkey
      exact (Except.ok.inj hkey).symm
    subst hkeyEq
    obtain rfl := Except.ok.inj hc
    split at h₂
    · rename_i hf
      obtain ⟨rfl, rfl, rfl⟩ := emits_pure.mp h₂
      refine ⟨rfl, rfl, fun j hj => ?_⟩
      obtain rfl := Option.some.inj hj
      rw [List.getElem?_eq_getElem (by omega), hf, Except.ok.inj (hname'.symm.trans hname)]
    · obtain ⟨rfl, rfl, hj⟩ := ih (by omega) h₂
      exact ⟨rfl, rfl, hj⟩

/-- What the field loop of a struct definition finds. -/
theorem field_index (hfields : HasFields s.heap structDef names) {sd : Cell}
    (hsd : cellAt s.heap structDef = .ok sd) {size : ℕ} (hsize : Heap.sizeOf sd.dr = .ok size)
    {r : Option ℕ} (h : Emits (findField sd.ar f (size / 2) 0) ctx s r code s') :
    code = [] ∧ s' = s ∧ ∀ i, r = some i → names[i]? = some f ∧ i < names.length ∧ i + 1 < 2 ^ 31 := by
  obtain ⟨d, e, rfl, -, har, hdr, hlt, hkeys⟩ := hfields.layout
  obtain rfl := Except.ok.inj hsd
  have hhalf : size / 2 = names.length := by
    rw [hdr] at hsize
    have hnat : (BitVec.ofNat 64 (1 + 2 * names.length)).toNat = size := Except.ok.inj hsize
    rw [← hnat, BitVec.toNat_ofNat]
    omega
  rw [hhalf] at h
  obtain ⟨hcode, hs, hr⟩ := emits_findField har hkeys _ (by omega) h
  refine ⟨hcode, hs, fun i hi => ?_⟩
  have hget := hr i hi
  have hlen : i < names.length := by
    obtain ⟨hlen, -⟩ := List.getElem?_eq_some_iff.mp hget
    exact hlen
  exact ⟨hget, hlen, by omega⟩

end Find

/-! ## Addressing an element -/

section Access

variable {m : State} {x e n i : ℕ} {r : ℕ}

/-- The address `jit_addi` computes from that of the elements. -/
theorem addWord_element (hi : i + 1 < 2 ^ 31) :
    addWord (.ptr (.elems e) 0) (.int (BitVec.ofInt 64 ((i + 1 : ℕ) * ptrsz))) =
      .ptr (.elems e) ((i + 1) * 8 : ℕ) := by
  have hval : ((i + 1 : ℕ) : ℤ) * ptrsz = ((i + 1) * 8 : ℕ) := by
    rw [ptrsz_x64]
    push_cast
    ring
  have hsmall : ((BitVec.ofInt 64 ((i + 1) * 8 : ℕ)).toInt : ℤ) = ((i + 1) * 8 : ℕ) := by
    apply BitVec.toInt_ofInt_eq_self (by decide)
    · omega
    · norm_num
      omega
  rw [hval, addWord, hsmall, zero_add]

theorem loadWord_element : m.loadWord (.ptr (.elems e) ((i + 1) * 8 : ℕ)) = (m.heap.elems e)[i + 1]? := by
  have hoff : (0 : ℤ) ≤ ((i + 1) * 8 : ℕ) ∧ (((i + 1) * 8 : ℕ) : ℤ) % 8 = 0 := by omega
  have hidx : (((i + 1) * 8 : ℕ) : ℤ).toNat / 8 = i + 1 := by omega
  rw [State.loadWord, if_pos hoff, hidx]

/-- The heap with another word in element `k` of array `e`. -/
def withElem (h : Heap) (e k : ℕ) (w : Word) : Heap :=
  { h with elems := Function.update h.elems e ((h.elems e).set k w) }

theorem storeWord_element {w : Word} (hi : i < n) (hx : IsInstance m.heap x e n) :
    m.storeWord w (.ptr (.elems e) ((i + 1) * 8 : ℕ)) =
      some { m with heap := withElem m.heap e (i + 1) w } := by
  have hoff : (0 : ℤ) ≤ ((i + 1) * 8 : ℕ) ∧ (((i + 1) * 8 : ℕ) : ℤ) % 8 = 0 := by omega
  have hidx : (((i + 1) * 8 : ℕ) : ℤ).toNat / 8 = i + 1 := by omega
  have hlt : i + 1 < (m.heap.elems e).length := by
    rw [hx.length]
    omega
  simp only [State.storeWord, if_pos hoff, hidx, Heap.setElem, if_pos hlt]
  rfl

/-- `ldr` and `addi`: from an instance to the address of one of its elements. -/
theorem run_element {rest : List Jit} (hi : i + 1 < 2 ^ 31) (hx : IsInstance m.heap x e n)
    (hr : m.regs r = .cell x) :
    run (.ldr r :: .addi r ((i + 1 : ℕ) * ptrsz) :: rest) m =
      run rest (m.setFlags r (.ptr (.elems e) ((i + 1) * 8 : ℕ))) := by
  rw [run_cons (by simp), step, hr, loadWord_cell, hx.elements, Option.map_some, Option.bind_some,
    run_cons (by simp), step, set_regs, if_pos rfl, addWord_element hi, Option.bind_some,
    State.setFlags, set_set]
  rfl

end Access

/-! ## `sget` -/

section Sget

variable {ctx : Ctx} {s s' : CState} {defs : ℕ → Arg} {names : List (List UInt8)}
  {f : List UInt8} {structDef t : Word} {code c₀ : List Jit} {s₀ : CState} {m : State} {x e : ℕ}

/-- The code of `(sget s g)` loads the element of `g`. -/
theorem sget_loads (h : Emits (compileSget defs) ctx s t code s')
    (hname : Named s.heap (defs 1).cell f)
    (hdef : Emits (sgetDef (defs 0) f) ctx s structDef c₀ s₀)
    (hfields : HasFields s.heap structDef names) (hx : IsInstance m.heap x e names.length)
    (hs : Supplies m s.frame.sp (defs 0) (.cell x)) :
    ∃ i m', names[i]? = some f ∧ run code m = some m' ∧
      (m.heap.elems e)[i + 1]? = some (m'.regs r0) := by
  unfold compileSget at h
  obtain ⟨field, code₁, s₁, code₂, hfield, h₁, rfl⟩ := emits_bind.mp h
  obtain ⟨⟨c, hc, hf⟩, rfl, rfl⟩ := emits_nameOf hfield
  obtain rfl : field = f := by
    obtain ⟨c', hc', hf'⟩ := hname
    obtain rfl := Except.ok.inj (hc.symm.trans hc')
    exact Except.ok.inj (hf.symm.trans hf')
  obtain ⟨sd', code₁, s₂, code₃, hfound, h₂, rfl⟩ := emits_bind.mp h₁
  obtain rfl := Emits.unique hfound hdef
  obtain ⟨rfl, rfl⟩ := Silent.sgetDef _ _ hfound
  obtain ⟨sd, hsd, h₂⟩ := emits_fetch_bind.mp h₂
  split at h₂
  · exact absurd h₂ emits_fail
  obtain ⟨size, hsize, h₂⟩ := emits_fetch_bind.mp h₂
  obtain ⟨r, code₁, s₃, code₄, hindex, h₃, rfl⟩ := emits_bind.mp h₂
  obtain ⟨rfl, rfl, hr⟩ := field_index hfields hsd hsize hindex
  cases r with
  | none =>
    obtain ⟨rest, h₃, -⟩ := emits_emit_bind.mp h₃
    exact absurd h₃ emits_fail
  | some i =>
    obtain ⟨hget, hlen, hlt⟩ := hr i rfl
    obtain ⟨rest, h₄, rfl⟩ := emits_loadCell_bind.mp h₃
    obtain ⟨rest', h₅, rfl⟩ := emits_emit_bind.mp h₄
    -- what follows reads the type of the field and emits nothing
    obtain rfl : rest' = [] := by
      obtain ⟨fieldType, -, h₅⟩ := emits_fetch_bind.mp h₅
      obtain ⟨tag, code₁, s₄, code₅, htag, h₆, rfl⟩ := emits_bind.mp h₅
      obtain ⟨rfl, rfl⟩ := (Silent.bind (Silent.fetch _) fun _ => Silent.pure _) htag
      rw [emits_ctx_bind] at h₆
      exact (emits_pure.mp h₆).2.1
    have hel : i + 1 < (m.heap.elems e).length := by
      rw [hx.length]
      omega
    have hx' : IsInstance (m.set r0 (.cell x)).heap x e names.length := hx
    rw [List.nil_append, List.nil_append, List.nil_append, run_append (run_loadCell hs),
      List.append_nil, run_element hlt hx' (by simp)]
    generalize hm₁ : (m.set r0 (.cell x)).setFlags r0 (.ptr (.elems e) ((i + 1) * 8 : ℕ)) = m₁
    have hreg : m₁.regs r0 = .ptr (.elems e) ((i + 1) * 8 : ℕ) := by
      rw [← hm₁, State.setFlags, flags_regs, set_regs, if_pos rfl]
    have hheap : m₁.heap = m.heap := by
      rw [← hm₁, State.setFlags, flags_heap, set_heap, set_heap]
    have hload : m₁.loadWord (m₁.regs r0) = some ((m.heap.elems e).get ⟨i + 1, hel⟩) := by
      rw [hreg, loadWord_element, hheap, List.getElem?_eq_getElem hel]
      rfl
    refine ⟨i, m₁.set r0 ((m.heap.elems e).get ⟨i + 1, hel⟩), hget, ?_, ?_⟩
    · rw [run_cons (by simp), step, hload]
      rfl
    · rw [set_regs, if_pos rfl, List.getElem?_eq_getElem hel]
      rfl

end Sget

/-! ## `sput` -/

section Sput

variable {ctx : Ctx} {s s' : CState} {defs : ℕ → Arg} {names : List (List UInt8)}
  {f : List UInt8} {structDef t : Word} {code c₀ : List Jit} {s₀ : CState} {m : State} {x e : ℕ}

/-- The emitter calls of `sput`, the field being number `i`. -/
theorem emits_sput (h : Emits (compileSput defs) ctx s t code s')
    (hname : Named s.heap (defs 1).cell f)
    (hdef : Emits (sputDef (defs 0)) ctx s structDef c₀ s₀)
    (hfields : HasFields s.heap structDef names) :
    ∃ i, names[i]? = some f ∧ i < names.length ∧ i + 1 < 2 ^ 31 ∧
      code = cellCode s.frame.sp r2 (defs 0) ++
        (.movr r0 r2 :: .ldr r2 :: .addi r2 ((i + 1 : ℕ) * ptrsz) ::
          (cellCode s.frame.sp r3 (defs 2) ++ [.stra r2])) := by
  unfold compileSput at h
  obtain ⟨field, code₁, s₁, code₂, hfield, h₁, rfl⟩ := emits_bind.mp h
  obtain ⟨⟨c, hc, hf⟩, rfl, rfl⟩ := emits_nameOf hfield
  obtain rfl : field = f := by
    obtain ⟨c', hc', hf'⟩ := hname
    obtain rfl := Except.ok.inj (hc.symm.trans hc')
    exact Except.ok.inj (hf.symm.trans hf')
  obtain ⟨sd', code₁, s₂, code₃, hfound, h₂, rfl⟩ := emits_bind.mp h₁
  obtain rfl := Emits.unique hfound hdef
  obtain ⟨rfl, rfl⟩ := Silent.sputDef _ hfound
  obtain ⟨sd, hsd, h₂⟩ := emits_fetch_bind.mp h₂
  split at h₂
  · exact absurd h₂ emits_fail
  obtain ⟨size, hsize, h₂⟩ := emits_fetch_bind.mp h₂
  obtain ⟨r, code₁, s₃, code₄, hindex, h₃, rfl⟩ := emits_bind.mp h₂
  obtain ⟨rfl, rfl, hr⟩ := field_index hfields hsd hsize hindex
  cases r with
  | none =>
    obtain ⟨rest, h₃, -⟩ := emits_emit_bind.mp h₃
    exact absurd h₃ emits_fail
  | some i =>
    obtain ⟨hget, hlen, hlt⟩ := hr i rfl
    obtain ⟨rest, h₄, rfl⟩ := emits_loadCell_bind.mp h₃
    obtain ⟨rest', h₅, rfl⟩ := emits_emit_bind.mp h₄
    obtain ⟨rest'', h₆, rfl⟩ := emits_loadCell_bind.mp h₅
    obtain ⟨rest, h₇, rfl⟩ := emits_emit_bind.mp h₆
    rw [emits_ctx_bind] at h₇
    obtain ⟨-, rfl, -⟩ := emits_pure.mp h₇
    exact ⟨i, hget, hlen, hlt, by simp⟩

/-- The run up to the value: `R0` is the instance, `R2` the address of the
    element. -/
def addressed (m : State) (x e i : ℕ) : State :=
  ((m.set r2 (.cell x)).set r0 (.cell x)).setFlags r2 (.ptr (.elems e) ((i + 1) * 8 : ℕ))

theorem run_addressed {i n : ℕ} {sp : ℤ} {d : Arg} {rest : List Jit} (hi : i + 1 < 2 ^ 31)
    (hx : IsInstance m.heap x e n) (hs : Supplies m sp d (.cell x)) :
    run (cellCode sp r2 d ++ (.movr r0 r2 :: .ldr r2 :: .addi r2 ((i + 1 : ℕ) * ptrsz) :: rest)) m =
      run rest (addressed m x e i) := by
  have hx' : IsInstance ((m.set r2 (.cell x)).set r0 (.cell x)).heap x e n := hx
  rw [run_append (run_loadCell hs), run_cons (by simp), step, set_regs, if_pos rfl,
    Option.bind_some, run_element hi hx' (by simp)]
  rfl

theorem addressed_same {i : ℕ} : SameOperands m (addressed m x e i) := by
  have h2 : r2 < lbdreg := by decide
  have h0 : r0 < lbdreg := by decide
  unfold addressed State.setFlags
  exact (((SameOperands.set h2).trans (SameOperands.set h0)).trans (SameOperands.set h2)).trans
    SameOperands.flags

/-- What `load_cell` of a raw integer does to `R2`: the call of `alloc_int`
    may change it. -/
theorem boxStackInt_r2 {sp slot : ℤ} {m' : State} (h : run (boxStackInt r3 sp slot) m = some m') :
    m'.regs r2 = .undef := by
  have hcode : boxStackInt r3 sp slot = [.push argr0 argr0, .push r0 r0,
      .ldrStack argr0 (ptrsz * (sp - slot + 2)) (some slot), .call .allocInt, .movr r3 r0,
      .pop r0 r0, .pop argr0 argr0] := rfl
  rw [hcode, run_cons (by simp), step, Option.bind_some, run_cons (by simp), step,
    Option.bind_some, run_cons (by simp)] at h
  obtain ⟨m₁, -, h⟩ := Option.bind_eq_some_iff.mp h
  rw [run_cons (by simp)] at h
  obtain ⟨m₂, hcall, h⟩ := Option.bind_eq_some_iff.mp h
  have hlost : m₂.regs r2 = .undef := by
    simp only [step, call] at hcall
    split at hcall
    · obtain rfl := Option.some.inj hcall
      rfl
    · exact absurd hcall (by simp)
  rw [run_cons (by simp), step, Option.bind_some, run_cons (by simp), step, Option.bind_some,
    run_cons (by simp), step, Option.bind_some, run_nil] at h
  rw [← Option.some.inj h, ← hlost]
  rfl

/-- The value operand `d` of `sput`: a cell where `load_cell` finds it, or a raw
    integer local. -/
def IsValue (m : State) (sp : ℤ) (d : Arg) : Prop :=
  (∃ w, Supplies m sp d w) ∨ d.type = .stackInt ∧ ∃ v, m.slotWord sp d.slot = .int v

/-- Word `w` is the cell of operand `d`: its own, or for a raw integer one made
    for it. -/
def CellOf (m : State) (sp : ℤ) (d : Arg) (m' : State) (w : Word) : Prop :=
  Supplies m sp d w ∨ d.type = .stackInt ∧ ∃ v i, m.slotWord sp d.slot = .int v ∧ w = .cell i ∧
    (m'.heap.cells i).tag = tagInt ∧ (m'.heap.cells i).ar = .int (Heap.boxInt v)

/-- Element `k` of array `e` became `w`, and nothing else changed in the heap
    and the environment. -/
structure Stored (m m' : State) (e k : ℕ) (w : Word) : Prop where
  element : (m'.heap.elems e)[k]? = some w
  others : ∀ j ≠ k, (m'.heap.elems e)[j]? = (m.heap.elems e)[j]?
  arrays : ∀ e' ≠ e, m'.heap.elems e' = m.heap.elems e'
  cells : ∀ j ∉ m.heap.Supply, m'.heap.cells j = m.heap.cells j
  buffers : m'.heap.bytes = m.heap.bytes
  entry : m'.entry = m.entry

/-- In a state with the heap of `m`, the code of `(sget s g)` loads the element
    of `g` of instance `x`, for every field `g`. -/
def SgetLoads (m : State) (names : List (List UInt8)) (x e : ℕ) : Prop :=
  ∀ ⦃ctx : Ctx⦄ ⦃s s' s₀ : CState⦄ ⦃defs : ℕ → Arg⦄ ⦃t structDef : Word⦄ ⦃code c₀ : List Jit⦄
    ⦃g : List UInt8⦄ ⦃j : ℕ⦄ ⦃m₁ : State⦄, m₁.heap = m.heap →
    Emits (compileSget defs) ctx s t code s' → Named s.heap (defs 1).cell g →
    names[j]? = some g → Emits (sgetDef (defs 0) g) ctx s structDef c₀ s₀ →
    HasFields s.heap structDef names → Supplies m₁ s.frame.sp (defs 0) (.cell x) →
    ∃ m₂, run code m₁ = some m₂ ∧ (m.heap.elems e)[j + 1]? = some (m₂.regs r0)

/-- The code of `(sput s f v)` does what it should in state `m`. -/
def SputWorks (m : State) (sp : ℤ) (code : List Jit) (v : Arg) (names : List (List UInt8))
    (f : List UInt8) (x e : ℕ) : Prop :=
  ∃ i m' w, names[i]? = some f ∧ run code m = some m' ∧ CellOf m sp v m' w ∧
    Stored m m' e (i + 1) w ∧ m'.regs r0 = .cell x ∧ SgetLoads m' names x e

theorem IsInstance.sgetLoads (hd : names.Nodup) (hx : IsInstance m.heap x e names.length) :
    SgetLoads m names x e := by
  intro ctx s s' s₀ defs t structDef code c₀ g j m₁ hheap h hname hj hdef hfields hs
  obtain ⟨i, m₂, hi, hrun, hload⟩ := sget_loads h hname hdef hfields (hheap ▸ hx) hs
  obtain ⟨hi', hgi⟩ := List.getElem?_eq_some_iff.mp hi
  obtain ⟨hj', hgj⟩ := List.getElem?_eq_some_iff.mp hj
  obtain rfl := (hd.getElem_inj_iff).mp (hgi.trans hgj.symm)
  exact ⟨m₂, hrun, hheap ▸ hload⟩

/-- `sput` of a value that `load_cell` finds without calling C. -/
theorem sput_stores (h : Emits (compileSput defs) ctx s t code s')
    (hname : Named s.heap (defs 1).cell f)
    (hdef : Emits (sputDef (defs 0)) ctx s structDef c₀ s₀)
    (hfields : HasFields s.heap structDef names) (hd : names.Nodup)
    (hx : IsInstance m.heap x e names.length) (hs : Supplies m s.frame.sp (defs 0) (.cell x))
    {w : Word} (hv : Supplies m s.frame.sp (defs 2) w) :
    SputWorks m s.frame.sp code (defs 2) names f x e := by
  obtain ⟨i, hget, hlen, hlt, rfl⟩ := emits_sput h hname hdef hfields
  have hel : i + 1 < (m.heap.elems e).length := by
    rw [hx.length]
    omega
  have hv' : Supplies (addressed m x e i) s.frame.sp (defs 2) w := hv.same addressed_same
  have hheap : (addressed m x e i).heap = m.heap := by
    rw [addressed, State.setFlags, flags_heap, set_heap, set_heap, set_heap]
  have hr2 : (addressed m x e i).regs r2 = .ptr (.elems e) ((i + 1) * 8 : ℕ) := by
    rw [addressed, State.setFlags, flags_regs, set_regs, if_pos rfl]
  have hr0 : (addressed m x e i).regs r0 = .cell x := by
    rw [addressed, State.setFlags, flags_regs, set_regs, if_neg (by decide), set_regs, if_pos rfl]
  have hentry : (addressed m x e i).entry = m.entry := (addressed_same (m := m)).entry
  have hx' : IsInstance ((addressed m x e i).set r3 w).heap x e names.length := by
    rw [set_heap, hheap]
    exact hx
  refine ⟨i, { (addressed m x e i).set r3 w with heap := withElem m.heap e (i + 1) w }, w, hget,
    ?_, .inl hv, ⟨?_, ?_, ?_, fun _ _ => rfl, rfl, hentry⟩, ?_, ?_⟩
  · rw [run_addressed hlt hx hs, run_append (run_loadCell hv'), run_cons (by simp), step,
      set_regs, set_regs, if_pos rfl, if_neg (by decide), hr2, storeWord_element hlen hx', set_heap,
      hheap]
    rfl
  · simp [withElem, hel]
  · intro j hj
    simp [withElem, List.getElem?_set_ne (Ne.symm hj)]
  · intro e' he'
    exact Function.update_of_ne he' _ _
  · change ((addressed m x e i).set r3 w).regs r0 = .cell x
    rw [set_regs, if_neg (by decide)]
    exact hr0
  · exact IsInstance.sgetLoads hd ⟨hx.tag, hx.elements, by simpa [withElem] using hx.length⟩

/-- `sput` of a raw integer local stores through a register that `alloc_int`
    may have changed. -/
theorem sput_stackInt (h : Emits (compileSput defs) ctx s t code s')
    (hname : Named s.heap (defs 1).cell f)
    (hdef : Emits (sputDef (defs 0)) ctx s structDef c₀ s₀)
    (hfields : HasFields s.heap structDef names) (hx : IsInstance m.heap x e names.length)
    (hs : Supplies m s.frame.sp (defs 0) (.cell x)) (hv : (defs 2).type = .stackInt) :
    run code m = none := by
  obtain ⟨i, -, -, hlt, rfl⟩ := emits_sput h hname hdef hfields
  have hcode : cellCode s.frame.sp r3 (defs 2) = boxStackInt r3 s.frame.sp (defs 2).slot := by
    unfold cellCode
    rw [hv]
  rw [run_addressed hlt hx hs, hcode]
  cases hbox : run (boxStackInt r3 s.frame.sp (defs 2).slot) (addressed m x e i) with
  | none =>
    refine run_append_none ?_ hbox
    simp [boxStackInt, argr0_x64]
  | some m' =>
    rw [run_append hbox, run_cons (by simp), step, boxStackInt_r2 hbox]
    rfl

/-- The code of `(sput s f v)` works exactly when `v` is not a raw integer
    local. -/
theorem sput_field (h : Emits (compileSput defs) ctx s t code s')
    (hname : Named s.heap (defs 1).cell f)
    (hdef : Emits (sputDef (defs 0)) ctx s structDef c₀ s₀)
    (hfields : HasFields s.heap structDef names) (hd : names.Nodup)
    (hx : IsInstance m.heap x e names.length) (hs : Supplies m s.frame.sp (defs 0) (.cell x))
    (hv : IsValue m s.frame.sp (defs 2)) :
    SputWorks m s.frame.sp code (defs 2) names f x e ↔ (defs 2).type ≠ .stackInt := by
  constructor
  · intro hw ht
    obtain ⟨i, m', w, -, hrun, -⟩ := hw
    rw [sput_stackInt h hname hdef hfields hx hs ht] at hrun
    exact absurd hrun (by simp)
  · intro ht
    rcases hv with ⟨w, hv⟩ | ⟨hst, -⟩
    · exact sput_stores h hname hdef hfields hd hx hs hv
    · exact absurd hst ht

end Sput

/-! ## A point -/

/-- `(struct point x 0 y 0)`, one instance of it in cell 5, and the name `y`. -/
def pointHeap : Heap :=
  { Heap.init with
    cells := fun i => match i with
      | 0 => ⟨.ptr (.bytes 0) 0, .null, tagSym⟩
      | 1 => ⟨.ptr (.bytes 1) 0, .null, tagSym⟩
      | 2 => ⟨.ptr (.bytes 2) 0, .null, tagSym⟩
      | 3 => ⟨.int 0, .null, tagInt⟩
      | 4 => ⟨.ptr (.elems 0) 0, .ofNat 5, tagStructDef⟩
      | 5 => ⟨.ptr (.elems 1) 0, .ofNat 3, tagStruct⟩
      | _ => ⟨.null, .null, tagFreed⟩
    cellsUsed := 6
    bytes := fun b => match b with
      | 0 => Writer.ascii "point" ++ [0]
      | 1 => Writer.ascii "x" ++ [0]
      | 2 => Writer.ascii "y" ++ [0]
      | _ => []
    bytesUsed := 3
    elems := fun e => match e with
      | 0 => [.cell 0, .cell 1, .cell 3, .cell 2, .cell 3]
      | 1 => [.cell 4, .cell 3, .cell 3]
      | _ => []
    elemsUsed := 2 }

/-- The global `p` is the instance. -/
def pointCtx : Ctx where
  lookup := fun name => if name = Writer.ascii "p" then some 0 else none
  entry := fun _ => .cell 5
  prototypeNil := 0
  prototypeAny := 0
  prototypeVoid := 0
  prototypeInt := 0
  consedTypeError := 0
  junk := fun _ _ => ⟨.const, .null, none, 0, none, none⟩

def pointState : CState where
  heap := pointHeap
  labelSkipCount := 0
  frame := ⟨none, 0, 0, .null⟩
  calls := 0

/-- The arguments of `(sput p y v)`. -/
def pointDefs (v : Arg) : ℕ → Arg
  | 0 => ⟨.env, .null, some 0, 0, none, none⟩
  | 1 => ⟨.const, .cell 2, none, 0, none, none⟩
  | _ => v

/-- A literal, and a raw integer local. -/
def pointLiteral : Arg := ⟨.const, .cell 3, none, 0, none, none⟩

def pointLocal : Arg := ⟨.stackInt, .null, none, 0, none, none⟩

def pointMachine : State where
  regs := fun _ => .undef
  sp := 0
  stack := fun _ => .int 7
  heap := pointHeap
  entry := fun _ => .cell 5
  sf := none
  zf := none

/-- The code of `(sput p y v)`. -/
def pointCode (v : Arg) : List Jit :=
  [.lea r2 (.ptr (.entry 0) 0), .ldr r2, .movr r0 r2, .ldr r2, .addi r2 16] ++
    (cellCode 0 r3 v ++ [.stra r2])

theorem pointHeap_fields :
    HasFields pointHeap (.cell 4) [Writer.ascii "x", Writer.ascii "y"] where
  layout := by
    refine ⟨4, 0, rfl, rfl, rfl, rfl, by decide, ?_⟩
    intro i f hf
    obtain ⟨hi, rfl⟩ := List.getElem?_eq_some_iff.mp hf
    have hi2 : i < 2 := hi
    interval_cases i
    · exact ⟨1, rfl, rfl⟩
    · exact ⟨2, rfl, rfl⟩

theorem pointMachine_instance : IsInstance pointMachine.heap 5 1 2 := ⟨rfl, rfl, rfl⟩

theorem sput_field_literal :
    SputWorks pointMachine 0 (pointCode pointLiteral) pointLiteral
      [Writer.ascii "x", Writer.ascii "y"] (Writer.ascii "y") 5 1 := by
  have hemit : Emits (compileSput (pointDefs pointLiteral)) pointCtx pointState (.cell 0)
      (pointCode pointLiteral) pointState := rfl
  have hdef : Emits (sputDef (pointDefs pointLiteral 0)) pointCtx pointState (.cell 4) []
      pointState := rfl
  apply (sput_field hemit ⟨_, rfl, rfl⟩ hdef pointHeap_fields (by decide) pointMachine_instance
    ⟨0, rfl, rfl⟩ (.inl ⟨.cell 3, rfl⟩)).mpr
  decide

/-- For a raw integer local the element is not stored. -/
theorem sput_field_local : ¬ ∀ (ctx : Ctx) (s s' s₀ : CState) (defs : ℕ → Arg) (t structDef : Word)
    (code c₀ : List Jit) (names : List (List UInt8)) (f : List UInt8) (m : State) (x e : ℕ),
    Emits (compileSput defs) ctx s t code s' → Named s.heap (defs 1).cell f →
    Emits (sputDef (defs 0)) ctx s structDef c₀ s₀ → HasFields s.heap structDef names →
    names.Nodup → IsInstance m.heap x e names.length →
    Supplies m s.frame.sp (defs 0) (.cell x) → IsValue m s.frame.sp (defs 2) →
    SputWorks m s.frame.sp code (defs 2) names f x e := by
  intro hall
  have hemit : Emits (compileSput (pointDefs pointLocal)) pointCtx pointState (.cell 0)
      (pointCode pointLocal) pointState := rfl
  have hdef : Emits (sputDef (pointDefs pointLocal 0)) pointCtx pointState (.cell 4) [] pointState :=
    rfl
  obtain ⟨i, m', w, -, hrun, -⟩ := hall pointCtx pointState pointState pointState
    (pointDefs pointLocal) (.cell 0) (.cell 4) (pointCode pointLocal) []
    [Writer.ascii "x", Writer.ascii "y"] (Writer.ascii "y") pointMachine 5 1 hemit ⟨_, rfl, rfl⟩
    hdef pointHeap_fields (by decide) pointMachine_instance ⟨0, rfl, rfl⟩
    (.inr ⟨rfl, 7, rfl⟩)
  rw [sput_stackInt hemit ⟨_, rfl, rfl⟩ hdef pointHeap_fields pointMachine_instance ⟨0, rfl, rfl⟩
    rfl] at hrun
  exact absurd hrun (by simp)

end Interim.Machine
