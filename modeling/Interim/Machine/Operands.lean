import Interim.Machine.Model
import Interim.Backend.Integer

/-!
# Operands of running code

What an argument prepared by `compile_expr` stands for while the code runs, and
what `load_int` and `load_cell` do there.

* `Supplies m sp d w` — argument `d` is the cell `w`; `SuppliesInt` — it is the
  integer `v`.
* `run_loadCell`, `run_loadInt` — the load puts the operand into its register
  and changes nothing else.
* `run_boxStackInt` — for a raw integer on the stack `load_cell` calls
  `alloc_int` first; every caller-saved register but the destination, `R0` and
  `ARGR0` is lost.
-/

namespace Interim.Machine

open Compiler Compiler.CompM
open Backend (Operand x64 Target)
open Writer (cellAt)

/-! ## Running code in pieces -/

section Run

variable {m m' : State} {code rest : List Jit} {j : Jit}

@[simp] theorem run_nil : run [] m = some m := rfl

/-- An emitter call that is neither a jump nor a label. -/
theorem run_cons (hj : ∀ l, j ≠ .label l ∧ j ≠ .jmp l ∧ j ≠ .je l ∧ j ≠ .jne l) :
    run (j :: rest) m = (step m j).bind (run rest) := by
  cases j with
  | label l | jmp l | je l | jne l => exact absurd (hj l) (by simp)
  | _ => rfl

@[simp] theorem run_label {l : Label} : run (.label l :: rest) m = run rest m := rfl

@[simp] theorem run_je {l : Label} :
    run (.je l :: rest) m = m.zf.bind fun t => exec (if t then some l else none) rest m := rfl

@[simp] theorem run_jmp {l : Label} : run (.jmp l :: rest) m = exec (some l) rest m := rfl

@[simp] theorem exec_none : exec none code m = run code m := rfl

@[simp] theorem exec_some_cons {l : Label} :
    exec (some l) (j :: rest) m = exec (if isLabel l j then none else some l) rest m := rfl

theorem exec_append (skip : Option Label) :
    ∀ {code : List Jit} {m m' : State}, exec skip code m = some m' →
      exec skip (code ++ rest) m = run rest m' := by
  intro code
  induction code generalizing skip with
  | nil =>
    intro m m' h
    cases skip with
    | none =>
      obtain rfl := Option.some.inj h
      rfl
    | some l => exact absurd h (by simp [exec])
  | cons j code ih =>
    intro m m' h
    cases skip with
    | some l => exact ih _ h
    | none =>
      by_cases hj : ∀ l, j ≠ .label l ∧ j ≠ .jmp l ∧ j ≠ .je l ∧ j ≠ .jne l
      · change run (j :: code) m = some m' at h
        change run (j :: (code ++ rest)) m = run rest m'
        rw [run_cons hj] at h ⊢
        obtain ⟨m₁, h₁, h⟩ := Option.bind_eq_some_iff.mp h
        rw [h₁]
        exact ih none h
      · cases j with
        | label l => exact ih none h
        | jmp l => exact ih (some l) h
        | je l | jne l =>
          obtain ⟨t, ht, h⟩ := Option.bind_eq_some_iff.mp h
          change m.zf.bind _ = _
          rw [ht]
          exact ih _ h
        | _ => exact absurd (by simp) hj

/-- A run of `code` that reaches its end goes on with what follows. -/
theorem run_append (h : run code m = some m') : run (code ++ rest) m = run rest m' :=
  exec_append none h

/-- Code without jumps: a run that ends early ends the whole. -/
theorem run_append_none
    (hp : ∀ j ∈ code, ∀ l, j ≠ .label l ∧ j ≠ .jmp l ∧ j ≠ .je l ∧ j ≠ .jne l)
    (h : run code m = none) : run (code ++ rest) m = none := by
  induction code generalizing m with
  | nil => exact absurd h (by simp)
  | cons j code ih =>
    have hj := hp j List.mem_cons_self
    rw [List.cons_append, run_cons hj]
    rw [run_cons hj] at h
    cases hstep : step m j with
    | none => rfl
    | some m₁ =>
      rw [hstep, Option.bind_some] at h
      exact ih (fun i hi => hp i (List.mem_cons_of_mem _ hi)) h

end Run

/-! ## Registers -/

section Set

variable {m : State} {r r' : ℕ} {w w' : Word}

@[simp] theorem set_regs : (m.set r w).regs r' = if r' = r then w else m.regs r' := by
  simp [State.set, Function.update_apply]

@[simp] theorem set_sp : (m.set r w).sp = m.sp := rfl

@[simp] theorem set_stack : (m.set r w).stack = m.stack := rfl

@[simp] theorem set_heap : (m.set r w).heap = m.heap := rfl

@[simp] theorem set_entry : (m.set r w).entry = m.entry := rfl

@[simp] theorem set_set : (m.set r w).set r w' = m.set r w' := by
  simp [State.set]

@[simp] theorem flags_regs : (m.flags w).regs = m.regs := by
  cases w <;> rfl

@[simp] theorem flags_sp : (m.flags w).sp = m.sp := by
  cases w <;> rfl

@[simp] theorem flags_stack : (m.flags w).stack = m.stack := by
  cases w <;> rfl

@[simp] theorem flags_heap : (m.flags w).heap = m.heap := by
  cases w <;> rfl

@[simp] theorem flags_entry : (m.flags w).entry = m.entry := by
  cases w <;> rfl

end Set

/-! ## What an argument stands for -/

/-- The stack word of a slot, `frame->sp` being `sp`. -/
def State.slotWord (m : State) (sp slot : ℤ) : Word := m.stack (m.sp + (sp - slot))

/-- Argument `d` is the cell `w`: a literal, the value of a global, or a cell
    whose address is in a parameter register or on the stack. -/
def Supplies (m : State) (sp : ℤ) (d : Arg) (w : Word) : Prop :=
  match d.type with
  | .const => d.cell = w
  | .env => ∃ e, d.env = some e ∧ m.entry e = w
  | .reg => ∃ j < argSpillover, d.slot = (lbdreg + j : ℕ) ∧ m.regs (lbdreg + j) = w
  | .stack => m.slotWord sp d.slot = w
  | _ => False

/-- Operand `x` is the integer `v`: a literal, a raw integer on the stack, or
    a cell that holds it. -/
def SuppliesInt (m : State) (sp : ℤ) (x : Operand) (v : BitVec 64) : Prop :=
  match x.arg.type with
  | .const => x.value = .int v
  | .stackInt => m.slotWord sp x.arg.slot = .int v
  | _ => ∃ i, Supplies m sp x.arg (.cell i) ∧ (m.heap.cells i).ar = .int v

/-- The two states agree on what operands are read from: parameter registers,
    the stack and the environment. -/
structure SameOperands (m m' : State) : Prop where
  regs : ∀ j < argSpillover, m'.regs (lbdreg + j) = m.regs (lbdreg + j)
  sp : m'.sp = m.sp
  stack : m'.stack = m.stack
  entry : m'.entry = m.entry

section Supplies

variable {m m' m'' : State} {sp : ℤ} {d : Arg} {x : Operand} {w : Word} {v : BitVec 64} {r : ℕ}

theorem SameOperands.refl : SameOperands m m := ⟨fun _ _ => rfl, rfl, rfl, rfl⟩

theorem SameOperands.trans (h : SameOperands m m') (h' : SameOperands m' m'') :
    SameOperands m m'' where
  regs j hj := (h'.regs j hj).trans (h.regs j hj)
  sp := h'.sp.trans h.sp
  stack := h'.stack.trans h.stack
  entry := h'.entry.trans h.entry

/-- Writing one of the first four registers. -/
theorem SameOperands.set (hr : r < lbdreg) : SameOperands m (m.set r w) where
  regs j _ := by
    have hne : lbdreg + j ≠ r := by
      have hr4 : r < 4 := hr
      show 4 + j ≠ r
      omega
    rw [set_regs, if_neg hne]
  sp := rfl
  stack := rfl
  entry := rfl

theorem SameOperands.flags : SameOperands m (m.flags w) where
  regs _ _ := by rw [flags_regs]
  sp := flags_sp
  stack := flags_stack
  entry := flags_entry

theorem Supplies.same (hs : SameOperands m m') (h : Supplies m sp d w) : Supplies m' sp d w := by
  unfold Supplies at h ⊢
  cases ht : d.type with
  | const =>
    rw [ht] at h
    exact h
  | env =>
    rw [ht] at h
    obtain ⟨e, he, hw⟩ := h
    exact ⟨e, he, by rw [hs.entry]; exact hw⟩
  | reg =>
    rw [ht] at h
    obtain ⟨j, hj, hslot, hw⟩ := h
    exact ⟨j, hj, hslot, (hs.regs j hj).trans hw⟩
  | stack =>
    rw [ht] at h
    dsimp only [State.slotWord] at h ⊢
    rw [hs.sp, hs.stack]
    exact h
  | lambda | regInt | stackInt =>
    rw [ht] at h
    exact h.elim

theorem SuppliesInt.same (hs : SameOperands m m') (hc : m'.heap.cells = m.heap.cells)
    (h : SuppliesInt m sp x v) : SuppliesInt m' sp x v := by
  unfold SuppliesInt at h ⊢
  cases ht : x.arg.type with
  | const =>
    rw [ht] at h
    exact h
  | stackInt =>
    rw [ht] at h
    dsimp only [State.slotWord] at h ⊢
    rw [hs.sp, hs.stack]
    exact h
  | env | lambda | reg | regInt | stack =>
    rw [ht] at h
    obtain ⟨i, hw, hv⟩ := h
    exact ⟨i, hw.same hs, by rw [hc]; exact hv⟩

end Supplies

/-! ## `load_int` and `load_cell` -/

/-- `load_cell(dreg, arg, f)` (lines 147–182) with `f->sp = sp`. -/
def cellCode (sp : ℤ) (dreg : ℕ) (d : Arg) : List Jit :=
  match d.type with
  | .const => [.movi dreg d.cell]
  | .env => [.lea dreg (entryPtr d.env), .ldr dreg]
  | .reg => [.movr dreg d.slot.toNat]
  | .regInt => [.call .allocInt, .movr dreg r0]
  | .stack => [.ldrStack dreg (ptrsz * (sp - d.slot)) (some d.slot)]
  | .stackInt => boxStackInt dreg sp d.slot
  | .lambda => [.movi dreg (.ofNat 0xdeadcafe)]

section Load

variable {ctx : Ctx} {s s' : CState} {m : State} {sp : ℤ} {d : Arg} {x : Operand} {w : Word}
  {v : BitVec 64} {dreg : ℕ} {u : Unit} {code : List Jit}

theorem emits_loadCell :
    Emits (loadCell dreg d) ctx s u code s' ↔ code = cellCode s.frame.sp dreg d ∧ s' = s := by
  unfold loadCell cellCode
  cases d.type with
  | const | env | reg | regInt | lambda => simp
  | stack | stackInt => simp [emits_frame_bind]

theorem emits_loadCell_bind {α : Type} {a : α} {f : Unit → CompM α} :
    Emits (loadCell dreg d >>= f) ctx s a code s' ↔
      ∃ rest, Emits (f ()) ctx s a rest s' ∧ code = cellCode s.frame.sp dreg d ++ rest := by
  rw [emits_bind]
  constructor
  · rintro ⟨a, code₁, s₁, code₂, h₁, h₂, rfl⟩
    obtain ⟨rfl, rfl⟩ := emits_loadCell.mp h₁
    exact ⟨code₂, h₂, rfl⟩
  · rintro ⟨rest, h, rfl⟩
    exact ⟨(), _, s, rest, emits_loadCell.mpr ⟨rfl, rfl⟩, h, rfl⟩

@[simp] theorem loadWord_cell {i : ℕ} : m.loadWord (.cell i) = some (m.heap.cells i).ar := rfl

@[simp] theorem loadWord_entry {e : ℕ} : m.loadWord (.ptr (.entry e) 0) = some (m.entry e) := rfl

/-- `load_cell` puts the operand into its register and changes nothing else. -/
theorem run_loadCell (hw : Supplies m sp d w) :
    run (cellCode sp dreg d) m = some (m.set dreg w) := by
  unfold Supplies at hw
  unfold cellCode
  cases ht : d.type with
  | const =>
    rw [ht] at hw
    simp [run_cons, step, hw]
  | env =>
    rw [ht] at hw
    obtain ⟨e, he, hw⟩ := hw
    simp [run_cons, step, he, entryPtr, hw]
  | reg =>
    rw [ht] at hw
    obtain ⟨j, -, hslot, hw⟩ := hw
    have hnat : d.slot.toNat = lbdreg + j := by omega
    simp [run_cons, step, hnat, hw]
  | stack =>
    rw [ht] at hw
    have hslot : m.stack (m.sp + (sp - d.slot)) = w := hw
    simp [run_cons, step, ptrsz_x64, hslot]
  | lambda | regInt | stackInt =>
    rw [ht] at hw
    exact hw.elim

/-- `load_int` puts the integer into its register and changes nothing else. -/
theorem run_loadInt (hv : SuppliesInt m sp x v) :
    run (x64.loadInt sp dreg x) m = some (m.set dreg (.int v)) := by
  unfold SuppliesInt at hv
  unfold Target.loadInt
  cases ht : x.arg.type with
  | const =>
    rw [ht] at hv
    simp [run_cons, step, hv]
  | stackInt =>
    rw [ht] at hv
    have hslot : m.stack (m.sp + (sp - x.arg.slot)) = .int v := hv
    simp [run_cons, step, hslot, x64]
  | env =>
    rw [ht] at hv
    obtain ⟨i, hw, hv⟩ := hv
    unfold Supplies at hw
    rw [ht] at hw
    obtain ⟨e, he, hw⟩ := hw
    simp [run_cons, step, he, entryPtr, hw, hv]
  | reg =>
    rw [ht] at hv
    obtain ⟨i, hw, hv⟩ := hv
    unfold Supplies at hw
    rw [ht] at hw
    obtain ⟨j, -, hslot, hw⟩ := hw
    have hnat : x.arg.slot.toNat = lbdreg + j := by omega
    simp [run_cons, step, hnat, hw, hv]
  | stack =>
    rw [ht] at hv
    obtain ⟨i, hw, hv⟩ := hv
    unfold Supplies at hw
    rw [ht] at hw
    have hslot : m.stack (m.sp + (sp - x.arg.slot)) = .cell i := hw
    simp [run_cons, step, hslot, hv, x64]
  | lambda | regInt =>
    rw [ht] at hv
    obtain ⟨i, hw, hv⟩ := hv
    unfold Supplies at hw
    rw [ht] at hw
    exact hw.elim

end Load

end Interim.Machine
