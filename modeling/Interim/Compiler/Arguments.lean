import Interim.Compiler.Straight
import Interim.Compiler.Forms

/-!
# The argument loop

What the loop of `compile_expr` over a form's arguments (lines 411–551) emits:
nested expressions are compiled in order, each value is pushed, and everything
else is left for the operator to load.
-/

namespace Interim.Compiler

open Writer (cellAt car cdr cString elemAt)
open CompM Heap

/-! ## Computations that only read -/

/-- `m` emits nothing and leaves the state alone. -/
def ReadOnly {α : Type} (m : CompM α) : Prop :=
  ∀ c s a code s', Emits m c s a code s' → code = [] ∧ s' = s

namespace ReadOnly

variable {α β : Type}

theorem bind {m : CompM α} {f : α → CompM β} (hm : ReadOnly m) (hf : ∀ a, ReadOnly (f a)) :
    ReadOnly (m >>= f) := by
  intro c s b code s' h
  obtain ⟨a, code₁, s₁, code₂, h₁, h₂, rfl⟩ := emits_bind.mp h
  obtain ⟨rfl, rfl⟩ := hm c s a code₁ s₁ h₁
  obtain ⟨rfl, rfl⟩ := hf a c s₁ b code₂ s' h₂
  exact ⟨rfl, rfl⟩

theorem pure (a : α) : ReadOnly (Pure.pure a : CompM α) :=
  fun _ _ _ _ _ h => (emits_pure.mp h).2

theorem fail (e : CompileError) : ReadOnly (CompM.fail e : CompM α) :=
  fun _ _ _ _ _ h => absurd h emits_fail

theorem ctx : ReadOnly CompM.ctx := fun _ _ _ _ _ h => (emits_ctx.mp h).2

theorem frame : ReadOnly CompM.frame := fun _ _ _ _ _ h => (emits_frame.mp h).2

theorem fetch (g : Heap → Except Stop α) : ReadOnly (CompM.fetch g) :=
  fun _ _ _ _ _ h => (emits_fetch.mp h).2

theorem tagOf (w : Word) : ReadOnly (tagOf w) := bind (fetch _) fun _ => pure _

theorem nameOf (w : Word) : ReadOnly (nameOf w) := bind (fetch _) fun _ => fetch _

theorem namedArg (argi : ℕ) (sig : Word) : ReadOnly (namedArg argi sig) := by
  unfold Compiler.namedArg
  split
  · exact pure _
  · refine bind (fetch _) fun c => ?_
    split
    · exact bind (fetch _) fun _ => bind (fetch _) fun _ => pure _
    · exact pure _

theorem letSignature (a : Args) (givenTag : ℕ) : ReadOnly (letSignature a givenTag) := by
  refine bind (nameOf _) fun name => bind frame fun fr => bind ctx fun c => ?_
  dsimp only
  split
  · exact pure _
  · exact pure _

theorem argSignature (isLet : Bool) (arg sig : Word) (a : Args) :
    ReadOnly (argSignature isLet arg sig a) := by
  unfold Compiler.argSignature
  split
  · exact bind (tagOf _) fun _ => letSignature _ _
  · exact pure _

theorem structTypeName (ty : Cell) (old : Option (List UInt8)) :
    ReadOnly (structTypeName ty old) := by
  unfold Compiler.structTypeName
  split
  · exact bind (fetch _) fun _ => bind (fetch _) fun _ => bind (fetch _) fun _ =>
      bind (nameOf _) fun _ => pure _
  · exact pure _

theorem symbolArg (arg : Cell) (argName opName : List UInt8) (a : Args) :
    ReadOnly (symbolArg arg argName opName a) := by
  refine bind (fetch _) fun name => bind frame fun fr => ?_
  split
  · exact pure _
  · refine bind (bind ctx fun _ => pure _) fun e => ?_
    cases e with
    | none => exact fail _
    | some e => exact pure _

theorem letIsInt (d : Arg) : ReadOnly (letIsInt d) := by
  unfold Compiler.letIsInt
  split
  · exact pure _
  · exact pure _
  · exact bind (tagOf _) fun _ => pure _
  · exact pure _

end ReadOnly

section

variable {β : Type} {c : Ctx} {s s' : CState} {b : β} {code : List Jit}

theorem emits_tagOf_bind {w : Word} {f : ℕ → CompM β} :
    Emits (tagOf w >>= f) c s b code s' ↔
      ∃ x, cellAt s.heap w = .ok x ∧ Emits (f x.tag) c s b code s' := by
  unfold tagOf
  rw [emits_bind]
  constructor
  · rintro ⟨t, code₁, s₁, code₂, h₁, h₂, rfl⟩
    obtain ⟨x, hx, h₁⟩ := emits_fetch_bind.mp h₁
    obtain ⟨rfl, rfl, rfl⟩ := emits_pure.mp h₁
    exact ⟨x, hx, h₂⟩
  · rintro ⟨x, hx, h⟩
    exact ⟨x.tag, [], s, code, emits_fetch_bind.mpr ⟨x, hx, emits_pure.mpr ⟨rfl, rfl, rfl⟩⟩, h, rfl⟩

/-- A read-only step gives a value and nothing else. -/
theorem ReadOnly.emits_bind {α : Type} {m : CompM α} {f : α → CompM β} (hm : ReadOnly m) :
    Emits (m >>= f) c s b code s' ↔ ∃ a, Emits m c s a [] s ∧ Emits (f a) c s b code s' := by
  rw [Compiler.emits_bind]
  constructor
  · rintro ⟨a, code₁, s₁, code₂, h₁, h₂, rfl⟩
    obtain ⟨rfl, rfl⟩ := hm _ _ _ _ _ h₁
    exact ⟨a, h₁, h₂⟩
  · rintro ⟨a, h₁, h₂⟩
    exact ⟨a, [], s, code, h₁, h₂, rfl⟩

end

/-! ## Setting -/

/-- The setting of a compilation: the cells it reads, the environment, and
    uninitialised `argdefs`, whose `cell` is no cell pointer. -/
structure Setting (c : Ctx) (L : Set ℕ) (h₀ : Heap) : Prop where
  settled : Settled c L h₀
  env : EnvOk c h₀
  junk : ∀ n i, (c.junk n i).cell.asCell = none

/-- What is shown of `compile_expr`, assumed of the recursive calls. -/
def RecOk (counted : Prop) (c : Ctx) (L : Set ℕ) (h₀ : Heap) (rec : Rec) : Prop :=
  ∀ e rt s ty code s', Within L e → KeepsAll h₀ s.heap → s.frame.Ok →
    Emits (rec e rt) c s ty code s' →
    ∃ u, Segment counted 0 s code u s' ∧ Covers u (OwnMark c h₀ e)

section Arguments

variable {counted : Prop} {c : Ctx} {L : Set ℕ} {h₀ : Heap} {rec : Rec}

/-! ## One argument -/

/-- What one iteration of the loop does with `arg`. -/
structure ArgStep (counted : Prop) (c : Ctx) (h₀ : Heap) (lazy sym : Bool) (arg : Word) (a : Args)
    (s : CState) (code : List Jit) (u : List Mark) (a' : Args) (s' : CState) : Prop where
  pushed : a.pushed ≤ a'.pushed
  segment : Segment counted (a'.pushed - a.pushed) s code u s'
  argi : a'.argi = a.argi
  covers : Covers u fun m => lazy = false ∧ OwnMark c h₀ arg m
  cell : lazy = true → (a'.defs a.argi).cell = arg
  symbol : sym = true → (a'.defs a.argi).cell = arg ∨ (a'.defs a.argi).cell = .null
  others : ∀ i, i ≠ a.argi → a'.defs i = a.defs i

/-- An argument that needs no code. -/
theorem ArgStep.silent {lazy sym : Bool} {arg : Word} {a : Args} {s : CState}
    (hok : s.heap.FreeListOk) (d : Arg) (hm : lazy = false → ∀ m, ¬ OwnMark c h₀ arg m)
    (hc : lazy = true ∨ sym = true → d.cell = arg) :
    ArgStep counted c h₀ lazy sym arg a s [] [] (a.set d) s where
  pushed := le_rfl
  segment := by
    rw [show (a.set d).pushed - a.pushed = 0 from Nat.sub_self _]
    exact .tame (.nil _) (.refl hok)
  argi := rfl
  covers := .nil fun m hmm => hm hmm.1 m hmm.2
  cell hl := by
    change (Function.update a.defs a.argi d a.argi).cell = arg
    rw [Function.update_self]
    exact hc (Or.inl hl)
  symbol hs := by
    apply Or.inl
    change (Function.update a.defs a.argi d a.argi).cell = arg
    rw [Function.update_self]
    exact hc (Or.inr hs)
  others i hi := Function.update_of_ne hi _ _

theorem eagerArg_step (hrec : RecOk counted c L h₀ rec) {sym : Bool} {arg sig : Word} {a a' : Args}
    {s s' : CState} {code : List Jit} (hL : Within L arg) (hk : KeepsAll h₀ s.heap) (hfr : s.frame.Ok)
    (h : Emits (eagerArg rec arg sig a) c s a' code s') :
    ∃ u, ArgStep counted c h₀ false sym arg a s code u a' s' := by
  unfold eagerArg at h
  obtain ⟨ty, code₁, s₁, code₂, h₁, h₂, rfl⟩ := emits_bind.mp h
  obtain ⟨u, hseg, hcov⟩ := hrec arg sig s ty code₁ s₁ hL hk hfr h₁
  simp only [emits_fetch_bind, emits_addSp_bind, emits_frame_bind,
    (ReadOnly.structTypeName _ _).emits_bind, emits_emit_bind, emits_pure] at h₂
  obtain ⟨tyc, -, typeName, -, rest, ⟨rfl, rfl, rfl⟩, rfl⟩ := h₂
  refine ⟨u ++ [], ⟨Nat.le_succ _, ?_, rfl, ?_, by simp, fun _ => Or.inr ?_, ?_⟩⟩
  · have hp := hseg.seq (.push s₁ hseg.keeps.freeListOk)
    simpa [CState.addSp] using hp
  · rw [List.append_nil]
    exact hcov.congr fun m => by simp
  · simp [Args.set]
  · intro i hi
    exact Function.update_of_ne hi _ _

theorem symbolArg_set {arg : Cell} {argName opName : List UInt8} {a a' : Args} {s s' : CState}
    {code : List Jit} (h : Emits (symbolArg arg argName opName a) c s a' code s') :
    ∃ d, a' = a.set d := by
  unfold symbolArg at h
  simp only [emits_fetch_bind, emits_frame_bind] at h
  obtain ⟨name, -, h⟩ := h
  split at h
  · exact ⟨_, (emits_pure.mp h).1⟩
  · obtain ⟨e, _, _, _, -, h, -⟩ := emits_bind.mp h
    cases e with
    | none => exact absurd h emits_fail
    | some e => exact ⟨_, (emits_pure.mp h).1⟩

theorem givenArg_step (hrec : RecOk counted c L h₀ rec) (hs : Settled c L h₀)
    {opName argName : List UInt8} {arg sig : Word} {x : Cell} {a a' : Args} {s s' : CState} {code : List Jit} (hL : Within L arg)
    (hk : KeepsAll h₀ s.heap) (hfr : s.frame.Ok) (hsig : cellAt s.heap sig = .ok x)
    (h : Emits (givenArg rec opName argName arg sig false a) c s a' code s') :
    ∃ u, ArgStep counted c h₀ (x.tag = tagLambda) (x.tag = tagSym) arg a s code u a' s' := by
  have hok := hk.freeListOk
  unfold givenArg at h
  simp only [emits_fetch_bind, emits_tagOf_bind, Bool.false_eq_true, if_false] at h
  obtain ⟨ac, hac, y, hy, h⟩ := h
  obtain rfl := Except.ok.inj (hsig.symm.trans hy)
  rw [hs.cellAt_eq hk hL] at hac
  split at h
  · rename_i hl
    obtain ⟨rfl, rfl, rfl⟩ := emits_pure.mp h
    exact ⟨[], .silent hok _ (by simp [hl]) fun _ => rfl⟩
  · rename_i hl
    have hl' : decide (x.tag = tagLambda) = false := by simpa using hl
    rw [hl']
    split at h
    · exact eagerArg_step hrec hL hk hfr h
    · rename_i hcons
      have hno := not_ownMark (c := c) hac hcons
      split at h
      · rename_i hsym
        obtain ⟨rfl, rfl⟩ := ReadOnly.symbolArg _ _ _ _ _ _ _ _ _ h
        obtain ⟨d, rfl⟩ := symbolArg_set h
        exact ⟨[], .silent hok d (fun _ => hno) (by simp [hsym.2])⟩
      · split at h
        · obtain ⟨rfl, rfl, rfl⟩ := emits_pure.mp h
          exact ⟨[], .silent hok _ (fun _ => hno) fun _ => rfl⟩
        · exact absurd h emits_fail

/-! ## The signature -/

theorem cell_ne_null (i : ℕ) : Word.cell i ≠ .null := by simp

theorem PlainSig.within (hs : Settled c L h₀) {w : Word} {j t : ℕ} (h : PlainSig h₀ w j t)
    (hw : Within L w) : j ∈ L ∧ (h₀.cells j).tag = t := by
  cases h with
  | bare ht => exact ⟨hw _ rfl, rfl⟩
  | named ht ha hn hd => exact ⟨hs.dr _ (hw _ rfl) _ hd, rfl⟩

theorem namedArg_plain (hs : Settled c L h₀) {w : Word} {j t argi : ℕ} {s : CState}
    {r : List UInt8 × Word} (hw : Within L w) (hk : KeepsAll h₀ s.heap) (hp : PlainSig h₀ w j t)
    (h : Emits (namedArg argi w) c s r [] s) : r.2 = .cell j := by
  unfold namedArg at h
  cases hp with
  | bare ht =>
    rw [if_neg (cell_ne_null _)] at h
    simp only [emits_fetch_bind, cellAt_cell, Except.ok.injEq, exists_eq_left'] at h
    rw [hs.cells_eq hk (hw _ rfl), if_neg ht] at h
    rw [(emits_pure.mp h).1]
  | named ht ha hn hd =>
    rw [if_neg (cell_ne_null _)] at h
    simp only [emits_fetch_bind, cellAt_cell, Except.ok.injEq, exists_eq_left'] at h
    rw [hs.cells_eq hk (hw _ rfl), if_pos ht] at h
    simp only [emits_fetch_bind] at h
    obtain ⟨_, -, _, -, h⟩ := h
    rw [(emits_pure.mp h).1]
    exact hd

theorem argSignature_cases {isLet : Bool} {arg sig sig' : Word} {a : Args} {s : CState}
    (h : Emits (argSignature isLet arg sig a) c s sig' [] s) :
    (sig' = sig ∧ ¬ (isLet = true ∧ a.argi = 1)) ∨ (isLet = true ∧ a.argi = 1 ∧
      (sig' = .cell c.prototypeInt ∨ sig' = .cell c.prototypeAny)) := by
  unfold argSignature at h
  split at h
  · rename_i hl
    refine Or.inr ⟨hl.1, hl.2, ?_⟩
    simp only [emits_tagOf_bind] at h
    obtain ⟨x, -, h⟩ := h
    unfold letSignature at h
    simp only [(ReadOnly.nameOf _).emits_bind, emits_frame_bind, emits_ctx_bind] at h
    obtain ⟨name, -, h⟩ := h
    split at h
    · exact Or.inl (emits_pure.mp h).1
    · exact Or.inr (emits_pure.mp h).1
  · rename_i hl
    exact Or.inl ⟨(emits_pure.mp h).1, hl⟩

/-- An argument against the signature element `w`. -/
theorem prepareArg_step (hrec : RecOk counted c L h₀ rec) (hset : Setting c L h₀) {isLet : Bool}
    {opName : List UInt8} {args sig w rest : Word} {i j t : ℕ} {a a' : Args} {s s' : CState}
    {code : List Jit} (hargs : Within L args) (hi : i ∈ L) (hsig : sig = .cell i)
    (hcell : h₀.cells i = ⟨w, rest, tagCons⟩) (hp : PlainSig h₀ w j t)
    (hlet : isLet = true → t ≠ tagLambda) (hk : KeepsAll h₀ s.heap) (hfr : s.frame.Ok)
    (h : Emits (prepareArg rec isLet opName args sig a) c s a' code s') :
    ∃ arg u, car h₀ args = .ok arg ∧ arg ≠ .null ∧
      ArgStep counted c h₀ (t = tagLambda) (t = tagSym ∧ ¬ (isLet = true ∧ a.argi = 1)) arg a s code u
        a' s' := by
  have hs := hset.settled
  have hw : Within L w := by
    have := hs.ar i hi
    rwa [hcell] at this
  obtain ⟨hj, htj⟩ := hp.within hs hw
  have hcar : car s.heap sig = .ok w := by
    rw [hsig, hs.car_eq hk (within_cell hi)]
    change Except.ok (h₀.cells i).ar = _
    rw [hcell]
  have hjcell : cellAt s.heap (.cell j) = .ok (h₀.cells j) := by
    rw [cellAt_cell, hs.cells_eq hk hj]
  unfold prepareArg at h
  simp only [emits_fetch_bind, (ReadOnly.namedArg _ _).emits_bind] at h
  obtain ⟨arg, harg, w', hw', ⟨name, sig'⟩, hn, h⟩ := h
  obtain rfl := Except.ok.inj (hcar.symm.trans hw')
  rw [hs.car_eq hk hargs] at harg
  have hsig' : sig' = .cell j := namedArg_plain hs hw hk hp hn
  subst hsig'
  have hL := hs.within_car hargs harg
  dsimp only at h
  split at h
  · rename_i hne
    simp only [(ReadOnly.argSignature _ _ _ _).emits_bind] at h
    obtain ⟨sig₂, hsig₂, h⟩ := h
    have hnull : decide (sig = Word.null) = false := by
      rw [hsig]
      simp
    rw [hnull] at h
    refine ⟨arg, ?_⟩
    rcases argSignature_cases hsig₂ with ⟨rfl, hnl⟩ | ⟨hl, h1, rfl | rfl⟩
    · obtain ⟨u, hu⟩ := givenArg_step hrec hs hL hk hfr hjcell h
      rw [htj] at hu
      simp only [hnl, not_false_eq_true, and_true]
      exact ⟨u, harg, hne.1, hu⟩
    · obtain ⟨u, hu⟩ := givenArg_step hrec hs hL hk hfr
        ((cellAt_cell _ _).trans (congrArg _ (hs.cells_eq hk hs.int))) h
      rw [hset.env.int] at hu
      have ht := hlet hl
      simp only [ht, decide_false, hl, h1, and_self, not_true_eq_false, and_false]
      exact ⟨u, harg, hne.1, by simpa using hu⟩
    · obtain ⟨u, hu⟩ := givenArg_step hrec hs hL hk hfr
        ((cellAt_cell _ _).trans (congrArg _ (hs.cells_eq hk hs.any))) h
      rw [hset.env.any] at hu
      have ht := hlet hl
      simp only [ht, decide_false, hl, h1, and_self, not_true_eq_false, and_false]
      exact ⟨u, harg, hne.1, by simpa using hu⟩
  · rename_i hne
    have hnull : arg = .null := by
      by_contra hx
      exact hne ⟨hx, Or.inr (cell_ne_null j)⟩
    rw [if_pos ⟨hnull, cell_ne_null j⟩] at h
    exact absurd h emits_fail

/-! ## The loop -/

theorem listArg_null {args : Word} (hn : car h₀ args = .ok .null) (k : ℕ) (x : Word) :
    ¬ ListArg h₀ args k x := by
  intro h
  cases h with
  | head ha hne => exact hne (Except.ok.inj (ha.symm.trans hn))
  | tail hx hne _ _ => exact hne (Except.ok.inj (hx.symm.trans hn))

theorem listArg_iff {args arg rest : Word} (ha : car h₀ args = .ok arg) (hne : arg ≠ .null)
    (hr : cdr h₀ args = .ok rest) (k : ℕ) (x : Word) :
    ListArg h₀ args k x ↔ (k = 0 ∧ x = arg) ∨ ∃ k', k = k' + 1 ∧ ListArg h₀ rest k' x := by
  constructor
  · intro h
    cases h with
    | head hx _ => exact Or.inl ⟨rfl, Except.ok.inj (hx.symm.trans ha)⟩
    | @tail _ _ rest' _ k' _ _ hr' h' =>
      obtain rfl := Except.ok.inj (hr'.symm.trans hr)
      exact Or.inr ⟨k', rfl, h'⟩
  · rintro (⟨rfl, rfl⟩ | ⟨k', rfl, h'⟩)
    · exact .head ha hne
    · exact .tail ha hne hr h'

theorem car_null (h : Heap) : car h .null = .ok .null := rfl

/-- What the loop leaves behind for the arguments `args` against the signature
    tags `ts`. -/
structure ArgsDone (counted : Prop) (c : Ctx) (h₀ : Heap) (isLet : Bool) (args : Word) (ts : List ℕ)
    (a : Args) (s : CState) (code : List Jit) (u : List Mark) (a' : Args) (s' : CState) : Prop where
  pushed : a.pushed ≤ a'.pushed
  segment : Segment counted (a'.pushed - a.pushed) s code u s'
  covers : Covers u fun m => ∃ k x, ListArg h₀ args k x ∧ ts[k]? ≠ some tagLambda ∧
    OwnMark c h₀ x m
  length : ∀ k x, ListArg h₀ args k x → k < ts.length
  cell : ∀ k x, ListArg h₀ args k x → ts[k]? = some tagLambda → (a'.defs (a.argi + k)).cell = x
  symbol : ∀ k x, ListArg h₀ args k x → ts[k]? = some tagSym → ¬ (isLet = true ∧ a.argi + k = 1) →
    (a'.defs (a.argi + k)).cell = x ∨ (a'.defs (a.argi + k)).cell = .null
  earlier : ∀ i < a.argi, a'.defs i = a.defs i

/-- The loop ends here: the list has no more elements. -/
theorem ArgsDone.last {isLet : Bool} {args rest arg : Word} {t : ℕ} {ts : List ℕ} {a a' : Args} {s s' : CState}
    {code : List Jit} {u : List Mark} (ha : car h₀ args = .ok arg) (hne : arg ≠ .null)
    (hr : cdr h₀ args = .ok rest) (hrest : ∀ k x, ¬ ListArg h₀ rest k x)
    (hstep : ArgStep counted c h₀ (t = tagLambda) (t = tagSym ∧ ¬ (isLet = true ∧ a.argi = 1)) arg a s
      code u a' s') :
    ArgsDone counted c h₀ isLet args (t :: ts) a s code u { a' with argi := a'.argi + 1 } s' := by
  have hiff : ∀ k x, ListArg h₀ args k x ↔ k = 0 ∧ x = arg := by
    intro k x
    rw [listArg_iff ha hne hr]
    constructor
    · rintro (h | ⟨k', -, h⟩)
      · exact h
      · exact absurd h (hrest k' x)
    · exact Or.inl
  refine ⟨hstep.pushed, hstep.segment, ?_, ?_, ?_, ?_, fun i hi => hstep.others i (by omega)⟩
  · refine hstep.covers.congr fun m => ?_
    constructor
    · rintro ⟨k, x, hx, ht, hm⟩
      obtain ⟨rfl, rfl⟩ := (hiff k x).mp hx
      exact ⟨by simpa using ht, hm⟩
    · rintro ⟨ht, hm⟩
      exact ⟨0, arg, (hiff 0 arg).mpr ⟨rfl, rfl⟩, by simpa using ht, hm⟩
  · intro k x hx
    obtain ⟨rfl, rfl⟩ := (hiff k x).mp hx
    exact Nat.succ_pos _
  · intro k x hx ht
    obtain ⟨rfl, rfl⟩ := (hiff k x).mp hx
    exact hstep.cell (by simpa using ht)
  · intro k x hx ht hnl
    obtain ⟨rfl, rfl⟩ := (hiff k x).mp hx
    have ht' : t = tagSym := by simpa using ht
    exact hstep.symbol (decide_eq_true ⟨ht', hnl⟩)

/-- One argument, then the rest of the loop. -/
theorem ArgsDone.cons {isLet : Bool} {args rest arg : Word} {t : ℕ} {ts : List ℕ} {a a₁ a' : Args}
    {s s₁ s' : CState} {code code' : List Jit} {u u' : List Mark} (ha : car h₀ args = .ok arg)
    (hne : arg ≠ .null) (hr : cdr h₀ args = .ok rest)
    (hstep : ArgStep counted c h₀ (t = tagLambda) (t = tagSym ∧ ¬ (isLet = true ∧ a.argi = 1)) arg a s
      code u a₁ s₁)
    (hdone : ArgsDone counted c h₀ isLet rest ts { a₁ with argi := a₁.argi + 1 } s₁ code' u' a' s') :
    ArgsDone counted c h₀ isLet args (t :: ts) a s (code ++ code') (u ++ u') a' s' := by
  have hiff := listArg_iff ha hne hr
  have hp : a₁.pushed ≤ a'.pushed := hdone.pushed
  refine ⟨hstep.pushed.trans hp, ?_, ?_, ?_, ?_, ?_, ?_⟩
  · have hseg := hstep.segment.seq hdone.segment
    have hadd : a₁.pushed - a.pushed + (a'.pushed - a₁.pushed) = a'.pushed - a.pushed := by
      have := hstep.pushed
      omega
    rwa [hadd] at hseg
  · refine hstep.covers.append hdone.covers fun m => ?_
    constructor
    · rintro ⟨k, x, hx, ht, hm⟩
      rcases (hiff k x).mp hx with ⟨rfl, rfl⟩ | ⟨k', rfl, hx'⟩
      · exact Or.inl ⟨by simpa using ht, hm⟩
      · exact Or.inr ⟨k', x, hx', by simpa using ht, hm⟩
    · rintro (⟨ht, hm⟩ | ⟨k', x, hx', ht, hm⟩)
      · exact ⟨0, arg, (hiff 0 arg).mpr (Or.inl ⟨rfl, rfl⟩), by simpa using ht, hm⟩
      · exact ⟨k' + 1, x, (hiff _ x).mpr (Or.inr ⟨k', rfl, hx'⟩), by simpa using ht, hm⟩
  · intro k x hx
    rcases (hiff k x).mp hx with ⟨rfl, -⟩ | ⟨k', rfl, hx'⟩
    · exact Nat.succ_pos _
    · exact Nat.succ_lt_succ (hdone.length k' x hx')
  · intro k x hx ht
    rcases (hiff k x).mp hx with ⟨rfl, rfl⟩ | ⟨k', rfl, hx'⟩
    · have := hdone.earlier a.argi (show a.argi < a₁.argi + 1 by rw [hstep.argi]; omega)
      change (a'.defs a.argi).cell = x
      rw [this]
      exact hstep.cell (by simpa using ht)
    · have := hdone.cell k' x hx' (by simpa using ht)
      change (a'.defs (a₁.argi + 1 + k')).cell = x at this
      rw [hstep.argi] at this
      rw [← this]
      congr 2
      omega
  · intro k x hx ht hnl
    rcases (hiff k x).mp hx with ⟨rfl, rfl⟩ | ⟨k', rfl, hx'⟩
    · have := hdone.earlier a.argi (show a.argi < a₁.argi + 1 by rw [hstep.argi]; omega)
      have ht' : t = tagSym := by simpa using ht
      change (a'.defs a.argi).cell = x ∨ (a'.defs a.argi).cell = .null
      rw [this]
      exact hstep.symbol (decide_eq_true ⟨ht', hnl⟩)
    · have hidx : a₁.argi + 1 + k' = a.argi + (k' + 1) := by rw [hstep.argi]; omega
      have := hdone.symbol k' x hx' (by simpa using ht)
      dsimp only at this
      rw [hidx] at this
      exact this hnl
  · intro i hi
    have := hdone.earlier i (show i < a₁.argi + 1 by rw [hstep.argi]; omega)
    rw [this]
    exact hstep.others i (by omega)

/-- The end of the signature: no argument may be left. -/
theorem prepareArg_end (hset : Setting c L h₀) {isLet : Bool} {opName : List UInt8}
    {args : Word} {i : ℕ} {a a' : Args} {s s' : CState} {code : List Jit} (hargs : Within L args)
    (hi : i ∈ L) (hcell : h₀.cells i = ⟨.null, .null, tagCons⟩) (hk : KeepsAll h₀ s.heap)
    (h : Emits (prepareArg rec isLet opName args (.cell i) a) c s a' code s') :
    car h₀ args = .ok .null ∧ a' = a ∧ code = [] ∧ s' = s := by
  have hs := hset.settled
  have hcar : car s.heap (.cell i) = .ok .null := by
    rw [hs.car_eq hk (within_cell hi)]
    change Except.ok (h₀.cells i).ar = _
    rw [hcell]
  unfold prepareArg at h
  simp only [emits_fetch_bind, (ReadOnly.namedArg _ _).emits_bind] at h
  obtain ⟨arg, harg, w', hw', ⟨name, sig'⟩, hn, h⟩ := h
  obtain rfl := Except.ok.inj (hcar.symm.trans hw')
  rw [hs.car_eq hk hargs] at harg
  unfold namedArg at hn
  rw [if_pos rfl] at hn
  obtain ⟨rfl, rfl⟩ := Prod.mk.inj (emits_pure.mp hn).1
  dsimp only at h
  rw [if_neg (by simp), if_neg (by simp)] at h
  split at h
  · exact absurd h emits_fail
  · rename_i hnull
    have harg' : arg = .null := by
      by_contra hx
      exact hnull ⟨hx, rfl⟩
    subst harg'
    obtain ⟨rfl, rfl, rfl⟩ := emits_pure.mp h
    exact ⟨harg, rfl, rfl, rfl⟩

/-- The loop over a form whose operator has a signature. -/
theorem argLoop_done (hrec : RecOk counted c L h₀ rec) (hset : Setting c L h₀) {isLet : Bool}
    {opName : List UInt8} (k : ℕ) :
    ∀ {args sig : Word} {ts : List ℕ} {a a' : Args} {s s' : CState} {code : List Jit},
      Within L args → Within L sig → SigList h₀ sig ts → ts.length < k →
      (isLet = true → tagLambda ∉ ts) → KeepsAll h₀ s.heap → s.frame.Ok →
      Emits (argLoop rec isLet opName k args sig a) c s a' code s' →
      ∃ u, ArgsDone counted c h₀ isLet args ts a s code u a' s' := by
  have hs := hset.settled
  induction k with
  | zero => intro args sig ts a a' s s' code _ _ _ hlen; omega
  | succ k ih =>
    intro args sig ts a a' s s' code hargs hsig hts hlen hlet hk hfr h
    unfold argLoop at h
    obtain ⟨a₁, code₁, s₁, code₂, h₁, h₂, rfl⟩ := emits_bind.mp h
    cases hts with
    | @nil i hi =>
      obtain ⟨hnull, rfl, rfl, rfl⟩ :=
        prepareArg_end hset hargs (hsig _ rfl) hi hk h₁
      have hno := listArg_null hnull
      have hend : ∀ b, Emits (pure b : CompM Args) c s₁ a' code₂ s' →
          b = { a₁ with argi := a₁.argi + 1 } →
          ∃ u, ArgsDone counted c h₀ isLet args [] a₁ s₁ ([] ++ code₂) u a' s' := by
        rintro b hb rfl
        obtain ⟨rfl, rfl, rfl⟩ := emits_pure.mp hb
        refine ⟨[], le_rfl, ?_, .nil ?_, ?_, ?_, ?_, fun _ _ => rfl⟩
        · rw [Nat.sub_self]
          exact .tame (.nil _) (.refl hk.freeListOk)
        · rintro m ⟨k, x, hx, -⟩
          exact hno k x hx
        · intro k x hx
          exact absurd hx (hno k x)
        · intro k x hx
          exact absurd hx (hno k x)
        · intro k x hx
          exact absurd hx (hno k x)
      dsimp only at h₂
      split at h₂
      · exact hend _ h₂ rfl
      · simp only [emits_fetch_bind] at h₂
        obtain ⟨rest, hrest, h₂⟩ := h₂
        split at h₂
        · exact hend _ h₂ rfl
        · rw [if_neg (cell_ne_null i)] at h₂
          simp only [emits_fetch_bind] at h₂
          obtain ⟨sig', hsig', h₂⟩ := h₂
          have : sig' = .null := by
            rw [hs.cdr_eq hk (within_cell (hsig _ rfl))] at hsig'
            have hd : cdr h₀ (.cell i) = .ok (h₀.cells i).dr := rfl
            rw [hd, hi] at hsig'
            exact (Except.ok.inj hsig').symm
          rw [if_pos this] at h₂
          exact hend _ h₂ rfl
    | @cons i j t ts w rest hi hp hr =>
      obtain ⟨arg, u, harg, hne, hstep⟩ := prepareArg_step hrec hset hargs (hsig _ rfl) rfl hi hp
        (fun hl ht => hlet hl (by simp [ht])) hk hfr h₁
      have hk₁ := hk.trans hstep.segment.keeps
      have hfr₁ := hstep.segment.frameOk hfr
      have hlen' : ts.length < k := by simpa using hlen
      dsimp only at h₂
      rw [if_neg (by omega)] at h₂
      simp only [emits_fetch_bind] at h₂
      obtain ⟨args', hargs', h₂⟩ := h₂
      rw [hs.cdr_eq hk₁ hargs] at hargs'
      have hw' := hs.within_cdr hargs hargs'
      split at h₂
      · rename_i hnull
        obtain ⟨rfl, rfl, rfl⟩ := emits_pure.mp h₂
        rw [List.append_nil]
        refine ⟨u, .last harg hne hargs' ?_ hstep⟩
        rw [hnull]
        exact listArg_null (car_null h₀)
      · rw [if_neg (cell_ne_null i)] at h₂
        simp only [emits_fetch_bind] at h₂
        obtain ⟨sig', hsig', h₂⟩ := h₂
        have hsig'' : sig' = rest := by
          rw [hs.cdr_eq hk₁ (within_cell (hsig _ rfl))] at hsig'
          have hd : cdr h₀ (.cell i) = .ok (h₀.cells i).dr := rfl
          rw [hd, hi] at hsig'
          exact (Except.ok.inj hsig').symm
        subst hsig''
        have hwr : Within L sig' := by
          have := hs.dr i (hsig _ rfl)
          rwa [hi] at this
        have hnn : sig' ≠ .null := by
          cases hr <;> exact cell_ne_null _
        rw [if_neg hnn] at h₂
        obtain ⟨u', hdone⟩ := ih hw' hwr hr hlen'
          (fun hl ht => hlet hl (List.mem_cons_of_mem _ ht)) hk₁ hfr₁ h₂
        exact ⟨u ++ u', .cons harg hne hargs' hstep hdone⟩

/-! ## Any number of arguments -/

/-- What the loop leaves behind for an operator without a signature: the
    elements themselves. -/
structure ArgsKept (L : Set ℕ) (h₀ : Heap) (args : Word) (k : ℕ) (a a' : Args) : Prop where
  pushed : a'.pushed = a.pushed
  argi_le : a'.argi ≤ a.argi + k
  cell : ∀ j x, Nth h₀ args j x → j < k → (a'.defs (a.argi + j)).cell = x
  gap : ∀ j, (∀ x, ¬ Nth h₀ args j x) → a'.defs (a.argi + j) = a.defs (a.argi + j)
  within : ∀ i, a'.defs i = a.defs i ∨ Within L (a'.defs i).cell
  earlier : ∀ i < a.argi, a'.defs i = a.defs i

theorem prepareArg_any {opName : List UInt8} {args : Word} {a a' : Args} {s s' : CState}
    {code : List Jit} (h : Emits (prepareArg rec false opName args .null a) c s a' code s') :
    code = [] ∧ s' = s ∧ ∃ arg, car s.heap args = .ok arg ∧ ((arg = .null ∧ a' = a) ∨
      (arg ≠ .null ∧ a' = a.set { a.defs a.argi with cell := arg, type := .stack })) := by
  unfold prepareArg at h
  simp only [emits_fetch_bind, (ReadOnly.namedArg _ _).emits_bind] at h
  obtain ⟨arg, harg, sig, hsig, ⟨name, sig'⟩, hn, h⟩ := h
  obtain rfl := Except.ok.inj ((car_null s.heap).symm.trans hsig)
  unfold namedArg at hn
  rw [if_pos rfl] at hn
  obtain ⟨rfl, rfl⟩ := Prod.mk.inj (emits_pure.mp hn).1
  dsimp only at h
  by_cases hnull : arg = .null
  · rw [if_neg (by simp [hnull]), if_neg (by simp), if_neg (by simp [hnull])] at h
    obtain ⟨rfl, rfl, rfl⟩ := emits_pure.mp h
    exact ⟨rfl, rfl, arg, harg, Or.inl ⟨hnull, rfl⟩⟩
  · rw [if_pos ⟨hnull, Or.inl trivial⟩] at h
    unfold argSignature givenArg at h
    rw [if_neg (by simp)] at h
    simp only [emits_pure_bind, emits_fetch_bind, decide_true, if_true, emits_pure] at h
    obtain ⟨_, -, rfl, rfl, rfl⟩ := h
    exact ⟨rfl, rfl, arg, harg, Or.inr ⟨hnull, rfl⟩⟩

theorem nth_null {args : Word} (hn : args = .null) (k : ℕ) (x : Word) : ¬ Nth h₀ args k x := by
  intro h
  induction h with
  | head ha hne =>
    rw [hn] at ha
    exact hne (Except.ok.inj ha).symm
  | tail hr _ ih =>
    rw [hn] at hr
    exact ih (Except.ok.inj hr).symm

/-- The loop stops after the element `arg`. -/
theorem ArgsKept.last {args arg : Word} {k : ℕ} {a a' : Args} (hk : 0 < k)
    (ha : car h₀ args = .ok arg) (hL : Within L arg)
    (hstep : (arg = .null ∧ a' = a) ∨
      (arg ≠ .null ∧ a' = a.set { a.defs a.argi with cell := arg, type := .stack }))
    (hrest : ∀ j x, Nth h₀ args j x → j < k → j = 0) :
    ArgsKept L h₀ args k a { a' with argi := a'.argi + 1 } := by
  have hargi : a'.argi = a.argi := by
    rcases hstep with ⟨-, rfl⟩ | ⟨-, rfl⟩
    · rfl
    · rfl
  have hothers : ∀ i, i ≠ a.argi → a'.defs i = a.defs i := by
    intro i hi
    rcases hstep with ⟨-, rfl⟩ | ⟨-, rfl⟩
    · rfl
    · exact Function.update_of_ne hi _ _
  refine ⟨?_, ?_, ?_, ?_, ?_, fun i hi => hothers i (by omega)⟩
  · rcases hstep with ⟨-, rfl⟩ | ⟨-, rfl⟩
    · rfl
    · rfl
  · change a'.argi + 1 ≤ a.argi + k
    omega
  · intro j x hx hj
    obtain rfl := hrest j x hx hj
    cases hx with
    | head hx' hne =>
      obtain rfl := Except.ok.inj (ha.symm.trans hx')
      rcases hstep with ⟨h0, -⟩ | ⟨-, rfl⟩
      · exact absurd h0 hne
      · simp [Args.set]
  · intro j hgap
    cases j with
    | zero =>
      rcases hstep with ⟨-, rfl⟩ | ⟨hne, -⟩
      · rfl
      · exact absurd (.head ha hne) (hgap arg)
    | succ j => exact hothers _ (by omega)
  · intro i
    by_cases hi : i = a.argi
    · subst hi
      rcases hstep with ⟨-, rfl⟩ | ⟨-, rfl⟩
      · exact Or.inl rfl
      · apply Or.inr
        simpa [Args.set] using hL
    · exact Or.inl (hothers i hi)

/-- One element, then the rest of the loop. -/
theorem ArgsKept.cons {args rest arg : Word} {k : ℕ} {a a₁ a' : Args} (ha : car h₀ args = .ok arg)
    (hr : cdr h₀ args = .ok rest) (hL : Within L arg)
    (hstep : (arg = .null ∧ a₁ = a) ∨
      (arg ≠ .null ∧ a₁ = a.set { a.defs a.argi with cell := arg, type := .stack }))
    (hdone : ArgsKept L h₀ rest k { a₁ with argi := a₁.argi + 1 } a') :
    ArgsKept L h₀ args (k + 1) a a' := by
  have hargi : a₁.argi = a.argi := by
    rcases hstep with ⟨-, rfl⟩ | ⟨-, rfl⟩
    · rfl
    · rfl
  have hidx : ∀ j, a₁.argi + 1 + j = a.argi + (j + 1) := by
    intro j
    omega
  have hfirst : a'.defs a.argi = a₁.defs a.argi := hdone.earlier a.argi (by simp [hargi])
  have hothers : ∀ i, i ≠ a.argi → a₁.defs i = a.defs i := by
    intro i hi
    rcases hstep with ⟨-, rfl⟩ | ⟨-, rfl⟩
    · rfl
    · exact Function.update_of_ne hi _ _
  have hpushed : a₁.pushed = a.pushed := by
    rcases hstep with ⟨-, rfl⟩ | ⟨-, rfl⟩
    · rfl
    · rfl
  refine ⟨hdone.pushed.trans hpushed, ?_, ?_, ?_, ?_, ?_⟩
  · have := hdone.argi_le
    dsimp only at this
    omega
  · intro j x hx hj
    cases hx with
    | head hx' hne' =>
      obtain rfl := Except.ok.inj (ha.symm.trans hx')
      rcases hstep with ⟨h0, -⟩ | ⟨-, rfl⟩
      · exact absurd h0 hne'
      · rw [Nat.add_zero, hfirst]
        simp [Args.set]
    | @tail _ rest' _ j' hr' htail =>
      obtain rfl := Except.ok.inj (hr.symm.trans hr')
      rw [← hidx]
      exact hdone.cell j' x htail (by omega)
  · intro j hgap
    cases j with
    | zero =>
      rcases hstep with ⟨-, rfl⟩ | ⟨hne, -⟩
      · exact hfirst
      · exact absurd (.head ha hne) (hgap arg)
    | succ j =>
      have := hdone.gap j fun x hx => hgap x (.tail hr hx)
      dsimp only at this
      rw [hidx] at this
      rw [this]
      exact hothers _ (by omega)
  · intro i
    rcases hdone.within i with heq | hw
    · rw [heq]
      by_cases hi : i = a.argi
      · subst hi
        rcases hstep with ⟨-, rfl⟩ | ⟨-, rfl⟩
        · exact Or.inl rfl
        · apply Or.inr
          simpa [Args.set] using hL
      · exact Or.inl (hothers i hi)
    · exact Or.inr hw
  · intro i hi
    rw [hdone.earlier i (by simp only [hargi]; omega)]
    exact hothers i (by omega)

/-- The loop over a form whose operator takes any number of arguments. -/
theorem argLoop_any (hs : Settled c L h₀) {opName : List UInt8} (k : ℕ) :
    ∀ {args : Word} {a a' : Args} {s s' : CState} {code : List Jit},
      Within L args → KeepsAll h₀ s.heap →
      Emits (argLoop rec false opName (k + 1) args .null a) c s a' code s' →
      code = [] ∧ s' = s ∧ ArgsKept L h₀ args (k + 1) a a' := by
  induction k with
  | zero =>
    intro args a a' s s' code hargs hk h
    unfold argLoop at h
    obtain ⟨a₁, code₁, s₁, code₂, h₁, h₂, rfl⟩ := emits_bind.mp h
    obtain ⟨rfl, rfl, arg, ha, hstep⟩ := prepareArg_any h₁
    rw [hs.car_eq hk hargs] at ha
    rw [if_pos rfl] at h₂
    obtain ⟨rfl, rfl, rfl⟩ := emits_pure.mp h₂
    exact ⟨rfl, rfl, .last Nat.one_pos ha (hs.within_car hargs ha) hstep
      fun j _ _ hj => Nat.lt_one_iff.mp hj⟩
  | succ k ih =>
    intro args a a' s s' code hargs hk h
    rw [argLoop] at h
    obtain ⟨a₁, code₁, s₁, code₂, h₁, h₂, rfl⟩ := emits_bind.mp h
    obtain ⟨rfl, rfl, arg, ha, hstep⟩ := prepareArg_any h₁
    rw [hs.car_eq hk hargs] at ha
    have hL := hs.within_car hargs ha
    rw [if_neg (Nat.succ_ne_zero k)] at h₂
    simp only [emits_fetch_bind] at h₂
    obtain ⟨rest, hrest, h₂⟩ := h₂
    rw [hs.cdr_eq hk hargs] at hrest
    split at h₂
    · rename_i hnull
      obtain ⟨rfl, rfl, rfl⟩ := emits_pure.mp h₂
      refine ⟨rfl, rfl, .last (Nat.succ_pos _) ha hL hstep ?_⟩
      intro j x hx _
      cases hx with
      | head => rfl
      | tail hr' htail =>
        obtain rfl := Except.ok.inj (hrest.symm.trans hr')
        exact absurd htail (nth_null hnull _ _)
    · rw [if_pos trivial] at h₂
      obtain ⟨rfl, rfl, hdone⟩ := ih (hs.within_cdr hargs hrest) hk h₂
      exact ⟨rfl, rfl, .cons ha hrest hL hstep hdone⟩

end Arguments

end Interim.Compiler
