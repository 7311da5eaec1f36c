import Interim.Compiler.Locals

/-!
# Every form emits a segment

The case analysis over the forms of `compile_expr`. `compileExpr_segment` is
the one result the later modules use: what is emitted for an expression is a
`Segment`, and its marks are those of the forms compiled in the same frame.
-/

namespace Interim.Compiler

open Writer (cellAt car cdr cString elemAt)
open CompM Heap

section Emission

variable {counted : Prop} {c : Ctx} {L : Set ℕ} {h₀ : Heap} {rec : Rec} {s s' : CState}
  {code : List Jit}

theorem Straight.segment {α : Type} {m : CompM α} {a : α} (hm : Straight s.frame m)
    (hok : s.heap.FreeListOk) (h : Emits m c s a code s') : Segment counted 0 s code [] s' := by
  obtain ⟨ht, hs⟩ := hm c s a code s' rfl hok h
  exact .tame ht hs

theorem Segment.nil (hok : s.heap.FreeListOk) : Segment counted 0 s [] [] s :=
  .tame (.nil _) (.refl hok)

/-- A straight-line step in front of a segment. -/
theorem Segment.after {t : ℕ} {s₁ : CState} {code₁ : List Jit} {u : List Mark}
    (h₁ : Segment counted 0 s code₁ [] s₁) (h₂ : Segment counted t s₁ code u s') :
    Segment counted t s (code₁ ++ code) u s' := by
  have h := h₁.seq h₂
  rwa [Nat.zero_add, List.nil_append] at h

/-- A straight-line step behind a segment. -/
theorem Segment.before {t : ℕ} {s₁ : CState} {code₁ : List Jit} {u : List Mark}
    (h₁ : Segment counted t s code₁ u s₁) (h₂ : Segment counted 0 s₁ code [] s') :
    Segment counted t s (code₁ ++ code) u s' := by
  have h := h₁.seq h₂
  rwa [Nat.add_zero, List.append_nil] at h

/-! ## `let` -/

theorem getSymFrameIdx_some {name : List UInt8} {f : ℕ → Arg} {i : ℕ}
    (h : getSymFrameIdx name (some f) false = some i) : i < maxFrame ∧ (f i).name = some name := by
  unfold getSymFrameIdx at h
  have hm := List.mem_of_find?_eq_some h
  have hp := List.find?_some h
  exact ⟨List.mem_range.mp hm, by simpa using hp⟩

theorem getSymFrameIdx_none {name : List UInt8} {f : ℕ → Arg}
    (h : getSymFrameIdx name (some f) false = none) : ∀ i < maxFrame, (f i).name ≠ some name := by
  unfold getSymFrameIdx at h
  intro i hi
  have := List.find?_eq_none.mp h i (List.mem_range.mpr hi)
  simpa using this

/-- The entry of a local: one the frame has, or a new one. -/
theorem letEntry_cases {name : List UInt8} {f : ℕ → Arg} {value d : Arg} (hf : s.frame.f = some f)
    (h : Emits (letEntry name f value) c s d code s') :
    code = [] ∧ ((∃ i < maxFrame, (f i).name = some name ∧ d = f i ∧ s' = s) ∨
      ((∀ i < maxFrame, (f i).name ≠ some name) ∧ d.name = some name ∧
        (d.type = .stack ∨ d.type = .stackInt) ∧ d.slot = -s.frame.locals ∧
        maxArgs + s.frame.locals < maxFrame ∧ s' = s.addLocal f d)) := by
  unfold letEntry at h
  split at h
  · rename_i i hi
    obtain ⟨rfl, rfl, rfl⟩ := emits_pure.mp h
    obtain ⟨hlt, hn⟩ := getSymFrameIdx_some hi
    exact ⟨rfl, Or.inl ⟨i, hlt, hn, rfl, rfl⟩⟩
  · rename_i hnone
    simp only [(ReadOnly.letIsInt _).emits_bind, emits_frame_bind] at h
    obtain ⟨isInt, -, h⟩ := h
    obtain ⟨_, code₁, s₁, code₂, h₁, h₂, rfl⟩ := emits_bind.mp h
    unfold setFrameEntry at h₁
    simp only [emits_frame_bind, hf] at h₁
    split at h₁
    · rename_i hlt
      obtain ⟨rfl, rfl⟩ := emits_setFrame.mp h₁
      simp only [emits_frame_bind, emits_setFrame_bind] at h₂
      obtain ⟨rfl, rfl, rfl⟩ := emits_pure.mp h₂
      refine ⟨rfl, Or.inr ⟨getSymFrameIdx_none hnone, rfl, ?_, rfl, hlt, rfl⟩⟩
      cases isInt with
      | false => exact Or.inl rfl
      | true => exact Or.inr rfl
    · exact absurd h₁ emits_fault

theorem Straight.letLoad {fr : Frame} (isInt : Bool) (value : Arg) :
    Straight fr (letLoad isInt value) := by
  refine bind ctx fun _ => ?_
  split
  · exact bind (loadInt (by decide) _) fun _ => pure _
  · exact bind (loadCell (by decide) _) fun _ => pure _

/-- An entry with a name is a parameter or a local. -/
theorem Frame.Ok.named_type {f : ℕ → Arg} {i : ℕ} {name : List UInt8} (hfr : s.frame.Ok)
    (hf : s.frame.f = some f) (hn : (f i).name = some name) :
    (f i).type = .reg ∨ (f i).type = .stack ∨ (f i).type = .stackInt := by
  obtain ⟨numLets, numParams, hok⟩ := hfr f hf
  rcases Nat.lt_or_ge i maxArgs with ha | ha
  · rcases Nat.lt_or_ge i numParams with hp | hp
    · rcases Nat.lt_or_ge i argSpillover with hs | hs
      · exact Or.inl (hok.reg i hp hs).1
      · exact Or.inr (Or.inl (hok.stack i hp hs).1)
    · rw [(hok.unused i hp ha).2] at hn
      exact absurd hn (by simp)
  · rcases Nat.lt_or_ge i (maxArgs + s.frame.locals) with hl | hl
    · have := (hok.local_ (i - maxArgs) (by omega)).1
      rw [Nat.add_sub_cancel' ha] at this
      exact Or.inr this
    · rw [(hok.rest i hl).2] at hn
      exact absurd hn (by simp)

theorem letStore_segment {f : ℕ → Arg} {i : ℕ} {name : List UInt8} {x : Unit} (hfr : s.frame.Ok)
    (hok : s.heap.FreeListOk) (hf : s.frame.f = some f) (hi : i < maxFrame)
    (hn : (f i).name = some name) (h : Emits (letStore (f i)) c s x code s') :
    Segment counted 0 s code [.assign name] s' := by
  unfold letStore at h
  simp only [emits_frame_bind] at h
  split at h
  · rename_i ht
    obtain ⟨rfl, rfl⟩ := emits_emit.mp h
    have hreg : (f i).type = .reg := by
      rcases hfr.named_type hf hn with hr | hr | hr
      · exact hr
      · rw [hr] at ht; exact absurd ht (by decide)
      · rw [hr] at ht; exact absurd ht (by decide)
    exact .storeReg hf hok hi hn hreg
  · rename_i ht
    obtain ⟨rfl, rfl⟩ := emits_emit.mp h
    have hst : (f i).type = .stack ∨ (f i).type = .stackInt := by
      rcases hfr.named_type hf hn with hr | hr
      · exact absurd (Or.inr hr) ht
      · exact hr
    exact .store hf hok hi hn hst

/-- `let` assigns one name. -/
theorem compileLet_segment {returnType ty : Word} {defs : ℕ → Arg} (hfr : s.frame.Ok)
    (hok : s.heap.FreeListOk) (h : Emits (compileLet returnType defs) c s ty code s') :
    ∃ x name u, cellAt s.heap (defs 0).cell = .ok x ∧ cString s.heap x.ar = .ok name ∧
      Segment counted 0 s code u s' ∧ ∀ m, m ∈ u ↔ m = .assign name := by
  unfold compileLet at h
  simp only [emits_frame_bind] at h
  cases hf : s.frame.f with
  | none => rw [hf] at h; exact absurd h emits_fail
  | some f =>
    rw [hf] at h
    simp only [(ReadOnly.nameOf _).emits_bind] at h
    obtain ⟨name, hname, h⟩ := h
    obtain ⟨d, code₁, s₁, code₂, h₁, hk₁, rfl⟩ := emits_bind.mp h
    obtain ⟨lty, code₃, s₂, code₄, h₂, hk₂, rfl⟩ := emits_bind.mp hk₁
    obtain ⟨_, code₅, s₃, code₆, h₃, hk₃, rfl⟩ := emits_bind.mp hk₂
    unfold nameOf at hname
    simp only [emits_fetch_bind, emits_fetch] at hname
    obtain ⟨x, hx, hn, -⟩ := hname
    refine ⟨x, name, ?_⟩
    obtain ⟨rfl, hcases⟩ := letEntry_cases hf h₁
    -- in both cases the entry `d` sits at some index of the frame in `s₁`
    obtain ⟨u₁, f₁, i, hseg₁, hu₁, hf₁, hi, hni, rfl⟩ : ∃ u₁ f₁ i, Segment counted 0 s [] u₁ s₁ ∧
        (∀ m ∈ u₁, m = .assign name) ∧ s₁.frame.f = some f₁ ∧ i < maxFrame ∧
        (f₁ i).name = some name ∧ d = f₁ i := by
      rcases hcases with ⟨i, hi, hni, rfl, rfl⟩ | ⟨hnew, hdn, hdt, hds, hlt, rfl⟩
      · exact ⟨[], f, i, .nil hok, by simp, hf, hi, hni, rfl⟩
      · refine ⟨[.assign name], _, maxArgs + s.frame.locals,
          .newLocal hf hok hlt hdn hnew hdt hds, by simp, rfl, hlt, ?_, ?_⟩
        · rw [Function.update_self]
          exact hdn
        · rw [Function.update_self]
    have hfr₁ := hseg₁.frameOk hfr
    have hok₁ := hseg₁.keeps.freeListOk
    have hload := @Straight.letLoad s₁.frame _ _ _ _ _ _ _ rfl hok₁ h₂
    have hseg₂ : Segment counted 0 s₁ code₃ [] s₂ := .tame hload.1 hload.2
    have hfr₂ : s₂.frame = s₁.frame := hload.2.frame
    have hseg₃ : Segment counted 0 s₂ code₅ [.assign name] s₃ :=
      letStore_segment (by rw [hfr₂]; exact hfr₁) hload.2.heap.freeListOk (by rw [hfr₂]; exact hf₁)
        hi hni h₃
    have hseg₄ : Segment counted 0 s₃ code₆ [] s' := by
      have hst : Straight s₃.frame (do
          let tag ← tagOf lty
          let returnTag ← tagOf returnType
          if tag = tagInt ∧ returnTag = tagAny then do
            emit [.movr argr0 r0, .call .allocInt]
            let c ← ctx
            pure (.cell c.prototypeAny)
          else pure lty) := by
        refine .bind (.tagOf _) fun _ => .bind (.tagOf _) fun _ => ?_
        split
        · exact .bind (.emit (.ofQuiet rfl)) fun _ => .bind .ctx fun _ => .pure _
        · exact .pure _
      exact hst.segment hseg₃.keeps.freeListOk hk₃
    refine ⟨u₁ ++ [.assign name], hx, hn, ?_, ?_⟩
    · exact hseg₁.seq (hseg₂.after (hseg₃.before hseg₄))
    · intro m
      rw [List.mem_append, List.mem_singleton]
      exact ⟨fun hm => hm.elim (hu₁ m) id, Or.inr⟩

/-! ## `fn` -/

theorem ReadOnly.typedParam (x : Cell) : ReadOnly (typedParam x) := by
  refine bind (fetch _) fun typeCell => ?_
  split
  · exact fail _
  · refine bind (tagOf _) fun tag => ?_
    split
    · exact fail _
    · refine bind (nameOf _) fun name => bind (nameOf _) fun typeName =>
        bind (bind ctx fun _ => pure _) fun e => bind ctx fun y => ?_
      cases e with
      | none => exact fail _
      | some e =>
        dsimp only
        split
        · exact fail _
        · refine bind (tagOf _) fun tag => ?_
          split
          · exact fail _
          · exact pure _

theorem ReadOnly.fnParamDecl (cell : Word) : ReadOnly (fnParamDecl cell) := by
  refine bind (fetch _) fun x => bind ctx fun y => ?_
  split
  · exact bind (fetch _) fun _ => pure _
  · split
    · exact typedParam _
    · exact fail _

/-- The parameter loop allocates the signature and fills in the frame. -/
theorem fnParams_spec {numLets : ℕ} {defs : ℕ → Arg} (k : ℕ) :
    ∀ {f : ℕ → Arg} {fnArgs : Word} {r : (ℕ → Arg) × Word} {s s' : CState} {code : List Jit},
      s.heap.FreeListOk → Emits (fnParams numLets defs k f fnArgs) c s r code s' →
      code = [] ∧ Silent s s' ∧ (∀ j, k ≤ j → r.1 j = f j) ∧
        ∀ j < k, (r.1 j).type = (paramLocation numLets j (f j)).type ∧
          (r.1 j).slot = (paramLocation numLets j (f j)).slot := by
  induction k with
  | zero =>
    intro f fnArgs r s s' code hok h
    obtain ⟨rfl, rfl, rfl⟩ := emits_pure.mp h
    exact ⟨rfl, .refl hok, fun _ _ => rfl, fun j hj => absurd hj (Nat.not_lt_zero j)⟩
  | succ k ih =>
    intro f fnArgs r s s' code hok h
    unfold fnParams at h
    simp only [(ReadOnly.fnParamDecl _).emits_bind, emits_alloc_bind] at h
    obtain ⟨⟨name, typeName, prototype⟩, -, sym, h₁, ha₁, arg, h₂, ha₂, l, h₃, ha₃, h⟩ := h
    have hk₁ := allocSym_keeps hok ha₁
    have hk₂ := (allocCell_keeps hk₁.freeListOk ha₂).1
    have hk₃ := (allocCell_keeps hk₂.freeListOk ha₃).1
    obtain ⟨rfl, hsil, hrest, hparams⟩ := ih hk₃.freeListOk h
    have hsil' : Silent s { s with heap := h₃ } := ⟨rfl, rfl, (hk₁.trans hk₂).trans hk₃⟩
    refine ⟨rfl, hsil'.trans hsil, ?_, ?_⟩
    · intro j hj
      rw [hrest j (by omega)]
      exact Function.update_of_ne (by omega) _ _
    · intro j hj
      rcases Nat.lt_or_ge j k with hlt | hge
      · have := hparams j hlt
        rwa [Function.update_of_ne (by omega)] at this
      · obtain rfl : j = k := by omega
        rw [hrest j le_rfl, Function.update_self]
        exact ⟨rfl, rfl⟩

/-- The frame of a new function. -/
theorem fnParams_frameOk {numLets k : ℕ} {f f' : ℕ → Arg} (hk : k ≤ maxArgs)
    (hempty : ∀ j, (f j).type = .const ∧ (f j).name = none) (hrest : ∀ j, k ≤ j → f' j = f j)
    (hparams : ∀ j < k, (f' j).type = (paramLocation numLets j (f j)).type ∧
      (f' j).slot = (paramLocation numLets j (f j)).slot) : FrameOk numLets k f' 0 where
  numParams_le := hk
  locals_le := by decide
  reg j hj hs := by
    have := hparams j hj
    unfold paramLocation at this
    rwa [if_neg (by omega)] at this
  stack j hj hs := by
    have := hparams j hj
    unfold paramLocation at this
    rwa [if_pos hs] at this
  unused j hj _ := by
    rw [hrest j hj]
    exact hempty j
  local_ j hj := absurd hj (Nat.not_lt_zero j)
  rest j hj := by
    rw [hrest j (by omega)]
    exact hempty j

/-- `fn` compiles its body in a frame of its own. -/
theorem compileFn_segment (hrec : RecOk counted c L h₀ rec) (hset : Setting c L h₀)
    (hcounted : counted → Counted c L h₀) {n call : ℕ} {a : Args} {ty : Word}
    (hw : Within L (a.defs (a.argi - 2)).cell) (hargi : a.argi ≤ maxArgs)
    (hk : KeepsAll h₀ s.heap) (h : Emits (compileFn rec n call a) c s ty code s') :
    Segment counted 0 s code [] s' := by
  have hs := hset.settled
  unfold compileFn at h
  split at h
  · exact absurd h emits_fail
  · simp only [emits_ctx_bind, emits_fetch_bind, emits_alloc_bind] at h
    obtain ⟨lets, hlets, nil, hn₁, hnil, h⟩ := h
    obtain ⟨⟨f, fnArgs⟩, code₁, s₁, code₂, h₁, h₂, rfl⟩ := emits_bind.mp h
    have hkn := (allocCell_keeps hk.freeListOk (show s.heap.allocCons .null .null = _ from hnil)).1
    obtain ⟨rfl, hsil, hrest, hparams⟩ := fnParams_spec _ hkn.freeListOk h₁
    have hsil₀ : Silent s { s with heap := hn₁ } := ⟨rfl, rfl, hkn⟩
    have hsil₁ := hsil₀.trans hsil
    unfold clearNext at h₂
    simp only [emits_alloc_bind] at h₂
    obtain ⟨d, hd, hda, lambda, hl, hla, _, hc, hca, h₂⟩ := h₂
    obtain ⟨-, rfl⟩ := Prod.mk.inj (Except.ok.inj hca)
    have hkd := (allocCell_keeps hsil₁.heap.freeListOk hda).1
    obtain ⟨hkl, hin, hout⟩ := allocCell_keeps hkd.freeListOk hla
    simp only [emits_emit_bind, emits_frame_bind, emits_setFrame_bind] at h₂
    obtain ⟨rest, h₃, rfl⟩ := h₂
    obtain ⟨bty, body, s₂, code₄, h₄, h₅, rfl⟩ := emits_bind.mp h₃
    simp only [emits_setFrame_bind, emits_emit_bind, emits_pure] at h₅
    obtain ⟨_, ⟨rfl, rfl, rfl⟩, rfl⟩ := h₅
    -- the state the body is compiled in
    have hkeep : KeepsAll s.heap (hl.setCell lambda { hl.cells lambda with dr := .null }) :=
      ((hsil₁.heap.trans hkd).trans hkl).setCell (hsil₁.heap.keeps.supply (hkd.keeps.supply hin)) _
    have hsilent : Silent s { s₁ with heap := hl.setCell lambda { hl.cells lambda with dr := .null } } :=
      ⟨hsil₁.frame, hsil₁.labels, hkeep⟩
    have hframe : FrameOk lets.length (a.argi - 2) f 0 :=
      fnParams_frameOk (by omega) (fun _ => ⟨rfl, rfl⟩) hrest hparams
    have hframeOk : Frame.Ok
        { f := some f, sp := 0, locals := 0, stackEnd := s₁.frame.stackEnd } := by
      intro f' hf'
      obtain rfl := Option.some.inj hf'
      exact ⟨_, _, hframe⟩
    obtain ⟨u, hseg, hcov⟩ := hrec _ _ _ _ _ _ hw (hk.trans hkeep) hframeOk h₄
    have hloc : counted → s₂.frame.locals ≤ lets.length := by
      intro hc
      have heq := (analyzeFn_keeps hs hk n hw within_null (fun w hw => absurd hw (by simp)) hlets).1
      refine (hseg.localsAdded).locals_le_length rfl rfl (h := h₀) fun name hm => ?_
      exact analyzeFn_ownMark hs (hcounted hc) hw heq
        ((hcov.iff _ (by simp)).mp hm)
    have hfn := Segment.fn (a := lambda) hsilent (hsil₁.heap.keeps.supply (hkd.keeps.supply hin))
      hout hframe hseg hloc
    have hfr : s₁.frame = s.frame := hsil₁.frame
    rw [hfr]
    simpa [fnCode] using hfn

end Emission

end Interim.Compiler
