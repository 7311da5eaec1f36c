import Interim.Compiler.Segment

/-!
# Builtins without control flow

Most builtins load their arguments, emit a fixed sequence and return. Their
code is `Tame`, and they change nothing in the compiler's state but by
allocation: `Straight fr m`.
-/

namespace Interim.Compiler

open Writer (cellAt car cdr cString elemAt)
open CompM Heap

/-- In the frame `fr`, `m` emits straight-line code and changes nothing but by
    allocation. -/
def Straight {α : Type} (fr : Frame) (m : CompM α) : Prop :=
  ∀ c s a code s', s.frame = fr → s.heap.FreeListOk → Emits m c s a code s' →
    Tame lbdreg fr.sp code ∧ Silent s s'

namespace Straight

variable {α β : Type} {fr : Frame}

/-! ## Combinators -/

theorem bind {m : CompM α} {f : α → CompM β} (hm : Straight fr m) (hf : ∀ a, Straight fr (f a)) :
    Straight fr (m >>= f) := by
  intro c s b code s' hfr hok h
  obtain ⟨a, code₁, s₁, code₂, h₁, h₂, rfl⟩ := emits_bind.mp h
  obtain ⟨ht₁, hs₁⟩ := hm c s a code₁ s₁ hfr hok h₁
  obtain ⟨ht₂, hs₂⟩ := hf a c s₁ b code₂ s' (hs₁.frame.trans hfr) hs₁.heap.freeListOk h₂
  exact ⟨ht₁.append ht₂, hs₁.trans hs₂⟩

theorem pure (a : α) : Straight fr (Pure.pure a : CompM α) := by
  intro c s x code s' _ hok h
  obtain ⟨-, rfl, rfl⟩ := emits_pure.mp h
  exact ⟨.nil _, .refl hok⟩

theorem fail (e : CompileError) : Straight fr (CompM.fail e : CompM α) :=
  fun _ _ _ _ _ _ _ h => absurd h emits_fail

theorem fault : Straight fr (CompM.fault : CompM α) :=
  fun _ _ _ _ _ _ _ h => absurd h emits_fault

theorem emit {code : List Jit} (hc : Tame lbdreg fr.sp code) : Straight fr (CompM.emit code) := by
  intro c s x code' s' _ hok h
  obtain ⟨rfl, rfl⟩ := emits_emit.mp h
  exact ⟨hc, .refl hok⟩

theorem ctx : Straight fr CompM.ctx := by
  intro c s x code s' _ hok h
  obtain ⟨-, rfl, rfl⟩ := emits_ctx.mp h
  exact ⟨.nil _, .refl hok⟩

theorem fetch (g : Heap → Except Stop α) : Straight fr (CompM.fetch g) := by
  intro c s x code s' _ hok h
  obtain ⟨-, rfl, rfl⟩ := emits_fetch.mp h
  exact ⟨.nil _, .refl hok⟩

theorem inspect (g : Ctx → Heap → Except Stop (Except CompileError α)) :
    Straight fr (CompM.inspect g) := by
  intro c s x code s' _ hok h
  obtain ⟨-, rfl, rfl⟩ := emits_inspect.mp h
  exact ⟨.nil _, .refl hok⟩

theorem nextCall : Straight fr CompM.nextCall := by
  intro c s x code s' _ hok h
  obtain ⟨-, rfl, rfl⟩ := emits_nextCall.mp h
  exact ⟨.nil _, rfl, rfl, .refl hok⟩

/-- Reading the frame gives `fr`. -/
theorem frame {f : Frame → CompM β} (hf : Straight fr (f fr)) :
    Straight fr (CompM.frame >>= f) := by
  intro c s b code s' hfr hok h
  obtain ⟨a, code₁, s₁, code₂, h₁, h₂, rfl⟩ := emits_bind.mp h
  obtain ⟨rfl, rfl, rfl⟩ := emits_frame.mp h₁
  rw [hfr] at h₂
  exact hf c s₁ b code₂ s' hfr hok h₂

theorem alloc {g : Heap → Except Stop (α × Heap)}
    (hg : ∀ h a h', h.FreeListOk → g h = .ok (a, h') → KeepsAll h h') :
    Straight fr (CompM.alloc g) := by
  intro c s a code s' _ hok h
  obtain ⟨h', ha, rfl, rfl⟩ := emits_alloc.mp h
  exact ⟨.nil _, rfl, rfl, hg _ _ _ hok ha⟩

theorem allocCell (f : Cell → Cell) : Straight fr (CompM.alloc fun h => h.allocCell f) :=
  alloc fun _ _ _ hok ha => (allocCell_keeps hok ha).1

/-! ## Helpers -/

theorem tagOf (w : Word) : Straight fr (tagOf w) := bind (fetch _) fun _ => pure _

theorem nameOf (w : Word) : Straight fr (nameOf w) := bind (fetch _) fun _ => fetch _

theorem lookup (name : List UInt8) : Straight fr (lookupGlobalSymbol name) :=
  bind ctx fun _ => pure _

theorem envCell (d : Arg) : Straight fr (envCell d) := by
  refine bind ctx fun c => ?_
  cases d.env with
  | none => exact fault
  | some e => exact pure _

end Straight

/-! ## Loads -/

theorem tame_slot {r d : ℕ} {sp k : ℤ} (hd : d < r) :
    Tame r sp [.ldrStack d (ptrsz * (sp - k)) (some k)] := .slot hd (.nil sp)

/-- The registers `boxStackInt` saves are restored before the result is used. -/
theorem boxStackInt_tame {r dreg : ℕ} (sp slot : ℤ) (hr : lbdreg ≤ r) (hd : dreg < r) :
    Tame r sp (boxStackInt dreg sp slot) := by
  have hbox : ∀ n : ℤ, Tame r (sp + n) [.ldrStack argr0 (ptrsz * (sp - slot + n)) (some slot),
      .call .allocInt, .movr dreg r0] := by
    intro n
    rw [show sp - slot + n = sp + n - slot by ring]
    exact .slot (lt_of_lt_of_le (by decide) hr) (.quiet rfl (.quiet (decide_eq_true hd) (.nil _)))
  unfold boxStackInt
  by_cases h1 : dreg = argr0
  · subst h1
    have h := hbox 1
    exact .nest (a := r0) (b := r0) le_rfl (by decide) h (.nil _)
  · by_cases h0 : dreg = r0
    · subst h0
      have h := hbox 1
      exact .nest (a := argr0) (b := argr0) le_rfl (by decide) h (.nil _)
    · simp only [ne_eq, h1, not_false_eq_true, if_true, h0]
      have h := hbox 2
      rw [show (2 : ℤ) = 1 + 1 by norm_num] at h
      have hin : Tame r (sp + 1) (.push r0 r0 :: (_ ++ .pop r0 r0 :: [])) :=
        .nest le_rfl (by decide) (by rw [← add_assoc] at h; exact h) (.nil _)
      exact .nest (a := argr0) (b := argr0) le_rfl (by decide) hin (.nil _)

namespace Straight

variable {fr : Frame}

theorem loadInt {dreg : ℕ} (hd : dreg < lbdreg) (arg : Arg) : Straight fr (loadInt dreg arg) := by
  have hd' := decide_eq_true hd
  unfold Compiler.loadInt
  cases arg.type with
  | const => exact bind (fetch _) fun c => emit (.quiet hd' (.nil _))
  | env => exact emit (.quiet hd' (.quiet hd' (.quiet hd' (.nil _))))
  | reg => exact emit (.quiet hd' (.quiet hd' (.nil _)))
  | regInt =>
    apply emit
    split
    · exact .quiet hd' (.nil _)
    · exact .nil _
  | stack => exact frame (emit (.slot hd (.quiet hd' (.nil _))))
  | stackInt => exact frame (emit (tame_slot hd))
  | lambda => exact emit (.quiet hd' (.nil _))

theorem loadCell {dreg : ℕ} (hd : dreg < lbdreg) (arg : Arg) : Straight fr (loadCell dreg arg) := by
  have hd' := decide_eq_true hd
  unfold Compiler.loadCell
  cases arg.type with
  | const => exact emit (.quiet hd' (.nil _))
  | env => exact emit (.quiet hd' (.quiet hd' (.nil _)))
  | reg => exact emit (.quiet hd' (.nil _))
  | regInt => exact emit (.quiet rfl (.quiet hd' (.nil _)))
  | stack => exact frame (emit (tame_slot hd))
  | stackInt => exact frame (emit (boxStackInt_tame _ _ le_rfl hd))
  | lambda => exact emit (.quiet hd' (.nil _))

end Straight

/-! ## Saved registers -/

/-- The register entries of a function's frame are its first parameters. -/
theorem FrameOk.frameRegs_eq {numLets numParams locals : ℕ} {f : ℕ → Arg}
    (h : FrameOk numLets numParams f locals) :
    frameRegs (some f) = min numParams argSpillover := by
  have hreg : ∀ i < maxFrame, ((f i).type = .reg ↔ i < min numParams argSpillover) := by
    intro i hi
    constructor
    · intro ht
      by_contra hlt
      rcases Nat.lt_or_ge i numParams with hp | hp
      · have := (h.stack i hp (by omega)).1
        rw [ht] at this
        exact absurd this (by decide)
      · rcases Nat.lt_or_ge i maxArgs with ha | ha
        · rw [(h.unused i hp ha).1] at ht
          exact absurd ht (by decide)
        · rcases Nat.lt_or_ge i (maxArgs + locals) with hl | hl
          · have := (h.local_ (i - maxArgs) (by omega)).1
            rw [Nat.add_sub_cancel' ha, ht] at this
            exact absurd this (by decide)
          · rw [(h.rest i hl).1] at ht
            exact absurd ht (by decide)
    · intro hlt
      exact (h.reg i (by omega) (by omega)).1
  have hle : min numParams argSpillover ≤ maxFrame := le_trans (min_le_right _ _) (by decide)
  unfold frameRegs
  dsimp only
  generalize min numParams argSpillover = k at hreg hle
  have hsplit : List.range maxFrame = List.range k ++ (List.range (maxFrame - k)).map (k + ·) := by
    rw [← List.range_add, Nat.add_sub_cancel' hle]
  rw [hsplit, List.filter_append, List.filter_eq_self.mpr, List.filter_eq_nil_iff.mpr]
  · simp
  · intro i hi
    obtain ⟨j, hj, rfl⟩ := List.mem_map.mp hi
    have hj' := List.mem_range.mp hj
    simp [hreg (k + j) (by omega)]
  · intro i hi
    have hi' := List.mem_range.mp hi
    simp [(hreg i (by omega)).mpr hi']

theorem Frame.Ok.frameRegs_le {fr : Frame} (h : fr.Ok) : frameRegs fr.f ≤ argSpillover := by
  cases hf : fr.f with
  | none => exact Nat.zero_le _
  | some f =>
    obtain ⟨numLets, numParams, hok⟩ := h f hf
    rw [hok.frameRegs_eq]
    exact min_le_right _ _

/-- Code between `push_frame_regs` and `pop_frame_regs`. -/
theorem tame_savedRegs {r p : ℕ} {sp : ℤ} {mid : List Jit} (hp : p ≤ argSpillover)
    (hm : ∀ sp, Tame r sp mid) : Tame r sp (pushRegs p ++ (mid ++ popRegs p)) := by
  unfold pushRegs popRegs
  by_cases h0 : p = 0
  · rw [if_pos h0, if_pos h0, List.nil_append, List.append_nil]
    exact hm sp
  · rw [if_neg h0, if_neg h0]
    have hle : lbdreg + p - 1 < rsp := by
      have : lbdreg + p - 1 ≤ lbdreg + argSpillover := by omega
      exact lt_of_le_of_lt this (by decide)
    exact .nest (by omega) hle (hm _) (.nil sp)

/-! ## The builtins -/

namespace Straight

variable {fr : Frame}

theorem intResult (returnType : Word) : Straight fr (intResult returnType) := by
  refine bind ctx fun c => bind (tagOf _) fun tag => ?_
  split
  · exact bind (emit (.quiet rfl (.nil _))) fun _ => pure _
  · exact bind (emit (.ofQuiet rfl)) fun _ => pure _

theorem compileArith {op : ℕ → ℕ → Jit} (hop : isQuiet lbdreg (op argr0 r2) = true) (returnType : Word)
    (defs : ℕ → Arg) : Straight fr (compileArith op returnType defs) :=
  bind (loadInt (by decide) _) fun _ => bind (loadInt (by decide) _) fun _ =>
    bind (emit (.quiet hop (.nil _))) fun _ => intResult _

theorem compileBitnot (returnType : Word) (defs : ℕ → Arg) :
    Straight fr (compileBitnot returnType defs) :=
  bind (loadInt (by decide) _) fun _ => bind (emit (.ofQuiet rfl)) fun _ =>
    intResult _

theorem compileGt (returnType : Word) (defs : ℕ → Arg) :
    Straight fr (compileGt returnType defs) :=
  bind (loadInt (by decide) _) fun _ => bind (loadInt (by decide) _) fun _ =>
    bind (emit (.ofQuiet rfl)) fun _ => intResult _

theorem compileLt (returnType : Word) (defs : ℕ → Arg) :
    Straight fr (compileLt returnType defs) :=
  bind (loadInt (by decide) _) fun _ => bind (loadInt (by decide) _) fun _ =>
    bind (emit (.ofQuiet rfl)) fun _ => intResult _

theorem compileEq (returnType : Word) (defs : ℕ → Arg) :
    Straight fr (compileEq returnType defs) := by
  refine bind (loadInt (by decide) _) fun _ => bind (loadInt (by decide) _) fun _ =>
    bind (emit (.ofQuiet rfl)) fun _ => bind ctx fun _ => bind (tagOf _) fun _ => ?_
  split
  · exact bind (emit (.ofQuiet rfl)) fun _ => pure _
  · exact pure _

/-- The end of the builtins that return `prototype_any`. -/
theorem anyResult : Straight fr (CompM.ctx >>= fun c => Pure.pure (Word.cell c.prototypeAny)) :=
  bind ctx fun _ => pure _

theorem savedRegs (hfr : fr.Ok) {mid : List Jit} (hm : mid.all (isQuiet lbdreg) = true) :
    Straight fr (CompM.emit (pushFrameRegs fr.f ++ mid ++ popFrameRegs fr.f)) := by
  apply emit
  rw [List.append_assoc]
  exact tame_savedRegs hfr.frameRegs_le fun _ => .ofQuiet hm

theorem compileDef (hfr : fr.Ok) (defs : ℕ → Arg) : Straight fr (compileDef defs) :=
  bind (emit (.ofQuiet rfl)) fun _ => bind (loadCell (by decide) _) fun _ =>
    frame (bind (savedRegs hfr rfl) fun _ => anyResult)

theorem compileNew (n : ℕ) (origOp : Word) (defs : ℕ → Arg) :
    Straight fr (compileNew n origOp defs) := by
  unfold Compiler.compileNew
  apply bind
  · split
    · exact pure _
    · exact envCell _
  · intro arg
    refine bind (tagOf _) fun tag => ?_
    split
    · exact fail _
    · exact bind (emit (.ofQuiet rfl)) fun _ =>
        bind (alloc fun _ _ _ hok ha => allocStruct_keeps hok ha) fun _ => pure _

theorem firstElem (w : Word) : Straight fr (firstElem w) := by
  refine bind (fetch _) fun c => ?_
  split
  · exact fetch _
  · exact fetch _

theorem findField (elements : Word) (name : List UInt8) (k : ℕ) :
    ∀ i, Straight fr (findField elements name k i) := by
  induction k with
  | zero => intro i; exact pure _
  | succ k ih =>
    intro i
    refine bind (fetch _) fun key => bind (nameOf _) fun keyName => ?_
    split
    · exact pure _
    · exact ih _

theorem sgetDef (d : Arg) (field : List UInt8) : Straight fr (sgetDef d field) := by
  unfold Compiler.sgetDef
  split
  · exact bind (envCell _) fun w => firstElem w
  · cases d.typeName with
    | none => exact fail _
    | some typeName => exact bind (lookup _) fun e => envCell _

theorem compileSget (defs : ℕ → Arg) : Straight fr (compileSget defs) := by
  refine bind (nameOf _) fun field => bind (sgetDef _ _) fun structDef => bind (fetch _) fun sd => ?_
  split
  · exact fail _
  · refine bind (fetch _) fun size => bind (findField _ _ _ _) fun found => ?_
    cases found with
    | none => exact bind (emit (.ofQuiet rfl)) fun _ => fail _
    | some i =>
      exact bind (loadCell (by decide) _) fun _ => bind (emit (.ofQuiet rfl)) fun _ =>
        bind (fetch _) fun _ => bind (tagOf _) fun _ => bind ctx fun _ => pure _

theorem sputDef (d : Arg) : Straight fr (sputDef d) := by
  unfold Compiler.sputDef
  split
  · exact bind (envCell _) fun w => firstElem w
  · cases d.typeName with
    | none => exact fail _
    | some typeName =>
      refine bind (lookup _) fun e => ?_
      cases e with
      | none => exact fail _
      | some e => exact envCell _

theorem compileSput (defs : ℕ → Arg) : Straight fr (compileSput defs) := by
  refine bind (nameOf _) fun field => bind (sputDef _) fun structDef => bind (fetch _) fun sd => ?_
  split
  · exact fail _
  · refine bind (fetch _) fun size => bind (findField _ _ _ _) fun found => ?_
    cases found with
    | none => exact bind (emit (.ofQuiet rfl)) fun _ => fail _
    | some i =>
      exact bind (loadCell (by decide) _) fun _ => bind (emit (.ofQuiet rfl)) fun _ =>
        bind (loadCell (by decide) _) fun _ => bind (emit (.ofQuiet rfl)) fun _ => anyResult

theorem compileQuote (origArgs : Word) : Straight fr (compileQuote origArgs) := by
  refine bind (fetch _) fun arg => ?_
  split
  · exact fail _
  · exact bind (emit (.ofQuiet rfl)) fun _ => anyResult

theorem compileCar (defs : ℕ → Arg) : Straight fr (compileCar defs) :=
  bind ctx fun _ => bind (loadCell (by decide) _) fun _ => bind (emit (.ofQuiet rfl)) fun _ =>
    pure _

theorem compileCdr (defs : ℕ → Arg) : Straight fr (compileCdr defs) :=
  bind ctx fun _ => bind (loadCell (by decide) _) fun _ => bind (emit (.ofQuiet rfl)) fun _ =>
    pure _

theorem compileCall1 {call : Jit} (hc : isQuiet lbdreg call = true) (defs : ℕ → Arg) :
    Straight fr (compileCall1 call defs) :=
  bind (loadCell (by decide) _) fun _ => bind (emit (.quiet hc (.nil _))) fun _ => anyResult

theorem compileCall2 {call : Jit} (hc : isQuiet lbdreg call = true) (defs : ℕ → Arg) :
    Straight fr (compileCall2 call defs) :=
  bind (loadCell (by decide) _) fun _ => bind (loadCell (by decide) _) fun _ =>
    bind (emit (.quiet hc (.nil _))) fun _ => anyResult

theorem compileIntCall {f : CFun} (hf : f.reenters = false) (defs : ℕ → Arg) :
    Straight fr (compileIntCall f defs) :=
  bind (loadInt (by decide) _) fun _ =>
    bind (emit (.quiet (by simp [isQuiet, hf]) (.nil _))) fun _ => anyResult

theorem compilePrint (hfr : fr.Ok) (defs : ℕ → Arg) :
    Straight fr (compileSavedCall1 .lispPrint defs) :=
  bind (loadCell (by decide) _) fun _ => frame (bind (savedRegs hfr rfl) fun _ => anyResult)

theorem compileSubstr (defs : ℕ → Arg) : Straight fr (compileSubstr defs) :=
  bind (loadCell (by decide) _) fun _ => bind (loadInt (by decide) _) fun _ =>
    bind (loadInt (by decide) _) fun _ => bind (emit (.ofQuiet rfl)) fun _ => anyResult

theorem compileGet32 (defs : ℕ → Arg) : Straight fr (compileGet32 defs) :=
  bind (loadInt (by decide) _) fun _ => bind (loadCell (by decide) _) fun _ =>
    bind (emit (.ofQuiet rfl)) fun _ => anyResult

theorem compileSize (returnType : Word) (defs : ℕ → Arg) :
    Straight fr (compileSize returnType defs) := by
  refine bind ctx fun _ => bind (loadCell (by decide) _) fun _ =>
    bind (emit (.ofQuiet rfl)) fun _ => bind (tagOf _) fun tag => ?_
  split
  · exact bind (emit (.ofQuiet rfl)) fun _ => pure _
  · split
    · exact bind (emit (.ofQuiet rfl)) fun _ => pure _
    · exact pure _

theorem compileGc (hfr : fr.Ok) : Straight fr compileGc :=
  frame (bind (savedRegs hfr rfl) fun _ => anyResult)

theorem compileSymbols : Straight fr compileSymbols :=
  bind (emit (.ofQuiet rfl)) fun _ => anyResult

theorem compileAtom (expr : Word) (c : Cell) : Straight fr (compileAtom expr c) := by
  refine bind ctx fun x => ?_
  split
  · refine bind (fetch _) fun name => frame ?_
    split
    · exact bind (loadCell (by decide) _) fun _ => pure _
    · refine bind (lookup _) fun e => ?_
      cases e with
      | none => exact bind (emit (.ofQuiet rfl)) fun _ => fail _
      | some e =>
        refine bind (emit (.ofQuiet rfl)) fun _ => ?_
        split
        · exact fail _
        · exact pure _
  · exact bind (emit (.ofQuiet rfl)) fun _ => pure _

end Straight

end Interim.Compiler
