import Interim.Machine.Source

/-!
# Raw and boxed integers

An integer form that is an operand of another stays in a register or on the
stack, 64 bits wide. One that becomes the value of a `let`, an argument of a
function or the result of a function is compiled for `prototype_any`:
`alloc_int(int i)` (`alloc.c`, lines 353–359) puts its low half into a cell,
sign-extended. A literal is passed as the cell the reader made, at full width.

* `Transparent e` — no integer context can tell the value of `e` from what
  became of it in a cell.
* `boxing_transparent` — this holds exactly for literals and for forms whose
  value is a 32-bit number.
-/

namespace Interim.Machine

open Compiler Compiler.CompM
open Backend (IntOp)
open Writer (ascii cellAt)

/-! ## Contexts -/

namespace Expr

/-- An expression without symbols; operators have their number of operands. -/
def Closed : Expr → Prop
  | lit _ => True
  | sym _ => False
  | bitnot e => e.Closed
  | bin op e₁ e₂ => op ≠ .bitnot ∧ e₁.Closed ∧ e₂.Closed

/-- The context `k` with `e` for the symbol `x`. -/
def subst (k : Expr) (x : List UInt8) (e : Expr) : Expr :=
  match k with
  | lit v => lit v
  | sym name => if name = x then e else sym name
  | bitnot k => bitnot (k.subst x e)
  | bin op k₁ k₂ => bin op (k₁.subst x e) (k₂.subst x e)

end Expr

section Subst

variable {x : List UInt8} {e : Expr} {ρ : List UInt8 → BitVec 64} {v : BitVec 64}

theorem eval_subst (he : e.eval ρ = some v) :
    ∀ k : Expr, (k.subst x e).eval ρ = k.eval (Function.update ρ x v)
  | .lit _ => rfl
  | .sym name => by
    by_cases h : name = x
    · subst h
      simp [Expr.subst, Expr.eval, he]
    · simp [Expr.subst, Expr.eval, h]
  | .bitnot k => by
    simp only [Expr.subst, Expr.eval]
    rw [eval_subst he k]
  | .bin op k₁ k₂ => by
    simp only [Expr.subst, Expr.eval]
    rw [eval_subst he k₁, eval_subst he k₂]

theorem depth_subst_pos : ∀ {k : Expr}, 0 < k.depth → 0 < (k.subst x e).depth
  | .lit _, h | .sym _, h => absurd h (by simp [Expr.depth])
  | .bitnot _, _ | .bin _ _ _, _ => by simp [Expr.subst, Expr.depth]

theorem Expr.Closed.over : ∀ {e : Expr}, e.Closed → e.Over x
  | .lit _, _ => trivial
  | .sym _, h => h.elim
  | .bitnot e, h => Expr.Closed.over (e := e) h
  | .bin _ e₁ e₂, h => ⟨h.1, Expr.Closed.over (e := e₁) h.2.1, Expr.Closed.over (e := e₂) h.2.2⟩

theorem Expr.Closed.not_mentions {name : List UInt8} : ∀ {e : Expr}, e.Closed → ¬ e.Mentions name
  | .lit _, _, h => h
  | .sym _, hc, _ => hc
  | .bitnot e, hc, h => Expr.Closed.not_mentions (e := e) hc h
  | .bin _ e₁ e₂, hc, h => h.elim (Expr.Closed.not_mentions (e := e₁) hc.2.1)
      (Expr.Closed.not_mentions (e := e₂) hc.2.2)

/-- The value of a closed expression does not depend on the symbols. -/
theorem Expr.Closed.eval : ∀ {e : Expr}, e.Closed → e.eval ρ = e.eval fun _ => 0
  | .lit _, _ => rfl
  | .sym _, h => h.elim
  | .bitnot e, h => by
    simp only [Expr.eval]
    rw [Expr.Closed.eval (e := e) h]
  | .bin _ e₁ e₂, h => by
    simp only [Expr.eval]
    rw [Expr.Closed.eval (e := e₁) h.2.1, Expr.Closed.eval (e := e₂) h.2.2]

end Subst

/-! ## The cell -/

/-- Symbol `x` is bound to a cell that holds `v`: the value of a `let` that
    stores a cell, or a parameter. -/
def SymbolHolds (ctx : Ctx) (fr : Frame) (m : State) (x : List UInt8) (v : BitVec 64) : Prop :=
  match frameEntry fr x with
  | some d => ∃ i : ℕ, Supplies m fr.sp d (.cell i) ∧ (m.heap.cells i).ar = .int v
  | none => ∃ e i : ℕ, ctx.lookup x = some e ∧ m.entry e = .cell i ∧ (m.heap.cells i).ar = .int v

theorem SymbolHolds.symbolIs {ctx : Ctx} {fr : Frame} {m : State} {x : List UInt8} {v : BitVec 64}
    (hfr : fr.Ok) (hsp : 0 ≤ fr.sp) (h : SymbolHolds ctx fr m x v) : SymbolIs ctx fr m x v := by
  unfold SymbolHolds at h
  unfold SymbolIs
  cases hd : frameEntry fr x with
  | none =>
    rw [hd] at h
    exact h
  | some d =>
    rw [hd] at h
    obtain ⟨i, hs, hv⟩ := h
    have hconst := (frameEntry_inUse hfr hsp hd).1
    unfold SuppliesInt
    dsimp only
    cases ht : d.type with
    | const => exact absurd ht hconst
    | stackInt =>
      unfold Supplies at hs
      rw [ht] at hs
      exact hs.elim
    | env | lambda | reg | regInt | stack => exact ⟨i, hs, hv⟩

/-- No context can tell the value of `e` from a cell it went through. `w` is
    `e`; `wNested` is the context `k` with `e` in place of `x`, compiled and run
    from `m`; `wCell` is `k` itself, run in a state where `x` is a cell with what
    `e` leaves in a cell. A literal is still in the heap when the code runs. -/
def Transparent (e : Expr) : Prop :=
  ∀ (k : Expr) (x : List UInt8) (ctx : Ctx) (s : CState) (n : ℕ) (w wNested wCell : Word)
    (ρ : List UInt8 → BitVec 64) (m m' : State) (v u : BitVec 64),
    0 < k.depth → k.depth ≤ n → (k.subst x e).depth ≤ n → e.depth < n →
    Ready ctx s w e → Ready ctx s wNested (k.subst x e) → Ready ctx s wCell k →
    (∀ i : ℕ, e.depth = 0 → w = .cell i → m.heap.cells i = s.heap.cells i) →
    m.heap.FreeListOk → 0 < m.heap.room → m'.heap.FreeListOk → 0 < m'.heap.room →
    Valued ctx s.frame ρ (k.subst x e) m → Gives ctx s n (.cell ctx.prototypeAny) w m v →
    SymbolHolds ctx s.frame m' x v →
    (∀ name, name ≠ x → k.Mentions name → SymbolIs ctx s.frame m' name (ρ name)) →
    (Gives ctx s n (.cell ctx.prototypeInt) wNested m u ↔
      Gives ctx s n (.cell ctx.prototypeInt) wCell m' u)

section Transparent

variable {ctx : Ctx} {s : CState} {n : ℕ} {w : Word} {m : State} {e : Expr} {u v : BitVec 64}

/-- A literal gives the number in its own cell. -/
theorem literal_gives {c : BitVec 64} (hready : Ready ctx s w (.lit c))
    (hkept : ∀ i : ℕ, w = .cell i → m.heap.cells i = s.heap.cells i)
    (h : Gives ctx s (n + 1) (.cell ctx.prototypeAny) w m v) : v = c := by
  obtain ⟨i, rfl, htag, har⟩ := hready.represents
  have hemits : Emits (compileExpr (n + 1) (.cell i) (.cell ctx.prototypeAny)) ctx s
      (.cell ctx.prototypeAny) [.movi r0 (.cell i)] s := by
    unfold compileExpr
    rw [if_neg (cell_ne_null _)]
    refine emits_fetch_bind.mpr ⟨_, cellAt_cell _ _, ?_⟩
    rw [if_pos (by rw [htag]; decide)]
    unfold compileAtom
    refine emits_ctx_bind.mpr ?_
    rw [if_neg (by rw [htag]; decide)]
    exact emits_emit_bind.mpr ⟨[], emits_pure.mpr ⟨rfl, rfl, rfl⟩, rfl⟩
  obtain ⟨ty, code, s', m', hemits', hrun, hyields⟩ := h
  obtain ⟨rfl, rfl⟩ := emits_code_unique hemits hemits'
  have hm' : m' = m.set r0 (.cell i) := (Option.some.inj hrun).symm
  subst hm'
  rcases hyields with ⟨ht, -⟩ | ⟨-, j, hj, -, hv⟩
  · exact absurd ht.symm hready.typed.ne
  · have hij : i = j := by simpa using hj
    subst hij
    rw [set_heap, hkept i rfl, har] at hv
    exact (Word.int.inj hv).symm

/-- What is in the cell of a closed expression: a literal as it is, the low half
    of a form. -/
theorem boxed_value {ρ : List UInt8 → BitVec 64} (hn : e.depth < n) (hready : Ready ctx s w e)
    (hclosed : e.Closed)
    (hkept : ∀ i : ℕ, e.depth = 0 → w = .cell i → m.heap.cells i = s.heap.cells i)
    (hok : m.heap.FreeListOk) (hroom : 0 < m.heap.room)
    (h : Gives ctx s n (.cell ctx.prototypeAny) w m v) :
    (∃ c, e = .lit c ∧ v = c) ∨ (0 < e.depth ∧ ∃ c, e.eval ρ = some c ∧ v = Heap.boxInt c) := by
  rcases Nat.eq_zero_or_pos e.depth with hz | hpos
  · left
    cases e with
    | lit c =>
      obtain ⟨n, rfl⟩ : ∃ n', n = n' + 1 := ⟨n - 1, by omega⟩
      exact ⟨c, rfl, literal_gives hready (fun i => hkept i hz) h⟩
    | sym name => exact hclosed.elim
    | bitnot _ | bin _ _ _ => exact absurd hz (by simp [Expr.depth])
  · right
    refine ⟨hpos, ?_⟩
    have hρ : Valued ctx s.frame ρ e m := fun name hm => (hclosed.not_mentions hm).elim
    have htag : (s.heap.cells ctx.prototypeAny).tag = tagAny := hready.typed.any
    rw [form_gives hpos hn.le hready (cellAt_cell _ _) hρ hok hroom] at h
    obtain ⟨c, hc, hv⟩ := Option.map_eq_some_iff.mp h
    rw [if_pos htag] at hv
    exact ⟨c, hc, hv.symm⟩

/-- `alloc_int` keeps a number exactly when it has 32 bits. -/
theorem boxInt_eq_iff : Heap.boxInt v = v ↔ -2 ^ 31 ≤ v.toInt ∧ v.toInt < 2 ^ 31 := by
  have hbox : (Heap.boxInt v).toInt = (v.toNat : ℤ).bmod (2 ^ 32) := by
    unfold Heap.boxInt
    rw [BitVec.toInt_signExtend_of_le (by decide), BitVec.truncate_eq_setWidth, BitVec.toInt_setWidth]
  have hv : v.toInt = (v.toNat : ℤ).bmod (2 ^ 64) := BitVec.toInt_eq_toNat_bmod v
  have hlt := v.isLt
  rw [← BitVec.toInt_inj, hbox, hv, Int.bmod_def, Int.bmod_def]
  generalize v.toNat = a at hlt
  split
  · split
    · omega
    · omega
  · split
    · omega
    · omega

/-- A context reads the same number from the cell as from the nested form. -/
theorem transparent_of_fits (hclosed : e.Closed)
    (hfits : (∃ c, e = .lit c) ∨ ∀ v, e.eval (fun _ => 0) = some v → Heap.boxInt v = v) :
    Transparent e := by
  intro k x ctx s n w wNested wCell ρ m m' v u hpos hk hke hn hready hnested hcell hkept hok hroom hok'
    hroom' hρ hgives hx hothers
  have hv : e.eval ρ = some v := by
    rcases boxed_value (ρ := ρ) hn hready hclosed hkept hok hroom hgives with
      ⟨c, rfl, rfl⟩ | ⟨hpos, c, hc, rfl⟩
    · rfl
    · rcases hfits with ⟨c', rfl⟩ | hfits
      · exact absurd hpos (by simp [Expr.depth])
      · rw [hclosed.eval] at hc ⊢
        rw [hfits c hc]
        exact hc
  have hρ' : Valued ctx s.frame (Function.update ρ x v) k m' := by
    intro name hm
    by_cases hname : name = x
    · subst hname
      rw [Function.update_self]
      exact hx.symbolIs hcell.frameOk hcell.height
    · rw [Function.update_of_ne hname]
      exact hothers name hname hm
  rw [form_gives_raw (depth_subst_pos hpos) hke hnested hρ hok hroom,
    form_gives_raw hpos hk hcell hρ' hok' hroom', eval_subst hv]

/-- The context that compares with the number in the cell. -/
def probe (v : BitVec 64) : Expr := .bin .eq (.sym (ascii "x")) (.lit (Heap.boxInt v))

/-- What `probe` makes of the nested form, the cell being `x`. -/
theorem probe_subst : (probe v).subst (ascii "x") e = .bin .eq e (.lit (Heap.boxInt v)) := by
  simp [probe, Expr.subst]

/-- Three expressions in one heap. -/
theorem three_ready {e₁ e₂ e₃ : Expr} (h₁ : e₁.Over (ascii "x")) (h₂ : e₂.Over (ascii "x"))
    (h₃ : e₃.Over (ascii "x")) :
    ∃ f w₁ w₂ w₃, Ready sourceCtx (sourceState f) w₁ e₁ ∧ Ready sourceCtx (sourceState f) w₂ e₂ ∧
      Ready sourceCtx (sourceState f) w₃ e₃ := by
  generalize hp₁ : place e₁ sourceCell sourceSize = p₁
  generalize hp₂ : place e₂ p₁.2.1 p₁.2.2 = p₂
  generalize hp₃ : place e₃ p₂.2.1 p₂.2.2 = p₃
  have hb₁ := place_below e₁ sourceCell sourceSize
  have hb₂ := place_below e₂ p₁.2.1 p₁.2.2
  have hb₃ := place_below e₃ p₂.2.1 p₂.2.2
  rw [hp₁] at hb₁
  rw [hp₂] at hb₂
  rw [hp₃] at hb₃
  have hsource := sourceHeap_hasSource p₃.2.1
  have hcells : ∀ j, sourceSize ≤ j → (sourceHeap p₃.2.1).cells j = p₃.2.1 j := fun j hj =>
    if_neg (by omega)
  refine ⟨p₃.2.1, p₁.1, p₂.1, p₃.1, sourceState_ready h₁ ?_, sourceState_ready h₂ ?_,
    sourceState_ready h₃ ?_⟩
  · rw [← hp₁]
    refine place_represents e₁ h₁ hsource (fun j hj hlt => ?_) (le_refl _)
    rw [hp₁] at hlt ⊢
    rw [hcells j hj, hb₃.2 j (by omega), hb₂.2 j hlt]
  · rw [← hp₂]
    refine place_represents e₂ h₂ hsource (fun j hj hlt => ?_) hb₁.1
    rw [hp₂] at hlt ⊢
    rw [hcells j hj, hb₃.2 j hlt]
  · have hrep := place_represents (n := p₂.2.2) (f := p₂.2.1) e₃ h₃ hsource
      (fun j hj _ => by rw [hp₃]; exact hcells j hj) (hb₁.1.trans hb₂.1)
    rwa [hp₃] at hrep

/-- A heap whose cells hold `v`. -/
def cellsHold (v : BitVec 64) : Heap := { Heap.init with cells := fun _ => ⟨.int v, .null, tagInt⟩ }

theorem cellsHold_freeListOk : (cellsHold v).FreeListOk :=
  ⟨Heap.init_freeListOk.nodup, Heap.init_freeListOk.below⟩

theorem cellsHold_room : 0 < (cellsHold v).room := show 0 < Heap.init.room by decide

/-- A form that no context can tell from its cell has a 32-bit value. -/
theorem fits_of_transparent (hclosed : e.Closed) (hpos : 0 < e.depth) (h : Transparent e)
    (hv : e.eval (fun _ => 0) = some v) : Heap.boxInt v = v := by
  have hover : e.Over (ascii "x") := hclosed.over
  have hprobe : (probe v).Over (ascii "x") := ⟨by decide, rfl, trivial⟩
  have hnested : ((probe v).subst (ascii "x") e).Over (ascii "x") := by
    rw [probe_subst]
    exact ⟨by decide, hover, trivial⟩
  have hdepth : ((probe v).subst (ascii "x") e).depth = e.depth + 1 := by
    rw [probe_subst]
    simp [Expr.depth]
  have hprobeDepth : (probe v).depth = 1 := by simp [probe, Expr.depth]
  obtain ⟨f, w, wNested, wCell, hready, hreadyNested, hreadyCell⟩ := three_ready hover hnested hprobe
  -- the form leaves the low half of its value in a cell
  have hvalued : Valued sourceCtx (sourceState f).frame (fun _ => 0) e (sourceMachine (cellsHold 0) 0) :=
    sourceMachine_valued hover rfl
  have htag : ((sourceState f).heap.cells sourceCtx.prototypeAny).tag = tagAny := hready.typed.any
  have hgives : Gives sourceCtx (sourceState f) (e.depth + 1) (.cell sourceCtx.prototypeAny) w
      (sourceMachine (cellsHold 0) 0) (Heap.boxInt v) := by
    refine (form_gives hpos (Nat.le_succ _) hready (cellAt_cell _ _) hvalued cellsHold_freeListOk
      cellsHold_room).mpr ?_
    rw [hv, Option.map_some, if_pos htag]
  have hvaluedNested : Valued sourceCtx (sourceState f).frame (fun _ => 0)
      ((probe v).subst (ascii "x") e) (sourceMachine (cellsHold 0) 0) :=
    sourceMachine_valued hnested rfl
  have hvaluedCell : Valued sourceCtx (sourceState f).frame (fun _ => Heap.boxInt v) (probe v)
      (sourceMachine (cellsHold (Heap.boxInt v)) 0) := sourceMachine_valued hprobe rfl
  have hiff := h (probe v) (ascii "x") sourceCtx (sourceState f) (e.depth + 1) w wNested wCell
    (fun _ => 0) _ (sourceMachine (cellsHold (Heap.boxInt v)) 0) (Heap.boxInt v) 1 (by omega) (by omega)
    hdepth.le (Nat.lt_succ_self _) hready hreadyNested hreadyCell
    (fun _ hz => absurd hz hpos.ne') cellsHold_freeListOk cellsHold_room cellsHold_freeListOk
    cellsHold_room hvaluedNested hgives ⟨14, 0, by decide, rfl, rfl⟩
    (fun name hne hm => absurd (hprobe.mentions hm) hne)
  -- the probe finds that number in the cell, so it has to find it in the nested form
  have hcell : Gives sourceCtx (sourceState f) (e.depth + 1) (.cell sourceCtx.prototypeInt) wCell
      (sourceMachine (cellsHold (Heap.boxInt v)) 0) 1 := by
    refine (form_gives_raw (by omega) (by omega) hreadyCell hvaluedCell cellsHold_freeListOk
      cellsHold_room).mpr ?_
    simp [probe, Expr.eval, opVal]
  have hone := (form_gives_raw (by omega) hdepth.le hreadyNested hvaluedNested cellsHold_freeListOk
    cellsHold_room).mp (hiff.mpr hcell)
  rw [probe_subst, Expr.eval, hv] at hone
  by_contra hne
  simp [Expr.eval, opVal, Ne.symm hne] at hone

/-- Boxing is transparent exactly for literals and for forms whose value, if
    they have one, is a 32-bit number. -/
theorem boxing_transparent (hclosed : e.Closed) : Transparent e ↔
    (∃ c, e = .lit c) ∨
      ∀ v, e.eval (fun _ => 0) = some v → -2 ^ 31 ≤ v.toInt ∧ v.toInt < 2 ^ 31 := by
  constructor
  · intro h
    rcases Nat.eq_zero_or_pos e.depth with hz | hpos
    · left
      cases e with
      | lit c => exact ⟨c, rfl⟩
      | sym name => exact hclosed.elim
      | bitnot _ | bin _ _ _ => exact absurd hz (by simp [Expr.depth])
    · exact Or.inr fun v hv => boxInt_eq_iff.mp (fits_of_transparent hclosed hpos h hv)
  · intro h
    exact transparent_of_fits hclosed (h.imp_right fun hfits v hv => boxInt_eq_iff.mpr (hfits v hv))

end Transparent

/-- `(+ 1 2)` in a cell. -/
theorem boxing_transparent_three : Transparent (.bin .add (.lit 1) (.lit 2)) :=
  (boxing_transparent (e := .bin .add (.lit 1) (.lit 2)) ⟨by decide, trivial, trivial⟩).mpr
    (Or.inr fun v hv => by
      obtain rfl := Option.some.inj hv
      decide)

/-- `(+ 2147483647 1)` is `2147483648` as an operand and `-2147483648` in a
    cell. -/
theorem boxing_not_transparent : ¬ ∀ e : Expr, e.Closed → Transparent e := by
  intro h
  have hclosed : (Expr.bin .add (.lit 2147483647) (.lit 1)).Closed := ⟨by decide, trivial, trivial⟩
  rcases (boxing_transparent hclosed).mp (h _ hclosed) with ⟨c, hc⟩ | hfits
  · exact absurd hc (by simp)
  · exact absurd (hfits _ rfl) (by decide)

end Interim.Machine
