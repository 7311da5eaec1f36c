import Interim.Compiler.Arguments

/-!
# Counting locals

`BUILTIN_FN` reserves one word for each name `analyze_fn` finds in the body;
`BUILTIN_LET` uses one for each new name it sees. Here: `analyze_fn` finds
every `let` compiled in the body's frame, so the words suffice.

It does so for proper lists and as long as `new` is not rebound to the builtin
`let` (`Counted`): a struct definition in operator position then makes a `let`
that no symbol announces.
-/

namespace Interim.Compiler

open Writer (cellAt car cdr cString elemAt ascii)
open CompM Heap

/-- What `analyze_fn` relies on: the expressions are proper lists, and `new`
    is not rebound to the builtin `let`. -/
structure Counted (c : Ctx) (L : Set ℕ) (h : Heap) : Prop where
  tail : ∀ i ∈ L, (h.cells i).tag = tagCons → ∀ j, (h.cells i).dr = .cell j →
    (h.cells j).tag = tagCons
  new : ∀ e i, c.lookup (ascii "new") = some e → c.entry e = .cell i →
    Builtin.ofWord (h.cells i).ar ≠ some .let_

/-- One of the strings `buf` points to is `name`. -/
def Lists (h : Heap) (buf : List Word) (name : List UInt8) : Prop :=
  ∃ w ∈ buf, cString h w = .ok name

/-! ## `analyze_fn` -/

section Analyze

variable {c : Ctx} {L : Set ℕ} {h : Heap}

theorem knownLocal_true {sym : Word} {name : List UInt8} (hs : cString h sym = .ok name) :
    ∀ {buf : List Word}, knownLocal h sym buf = .ok true → Lists h buf name := by
  intro buf
  induction buf with
  | nil => intro hk; exact absurd hk (by simp [knownLocal])
  | cons known rest ih =>
    intro hk
    unfold knownLocal at hk
    obtain ⟨a, ha, hk⟩ := bind_ok.mp hk
    obtain ⟨b, hb, hk⟩ := bind_ok.mp hk
    obtain rfl := Except.ok.inj (hs.symm.trans hb)
    split at hk
    · rename_i hab
      exact ⟨known, List.mem_cons_self, hab ▸ ha⟩
    · obtain ⟨w, hw, hn⟩ := ih hk
      exact ⟨w, List.mem_cons_of_mem _ hw, hn⟩

theorem analyzeLet_subset {parent : Word} {buf buf' : List Word}
    (ha : analyzeLet h parent buf = .ok buf') : buf ⊆ buf' := by
  unfold analyzeLet at ha
  obtain ⟨rest, -, ha⟩ := bind_ok.mp ha
  obtain ⟨sym, -, ha⟩ := bind_ok.mp ha
  split at ha
  · obtain rfl := Except.ok.inj ha
    exact List.Subset.refl _
  · obtain ⟨x, -, ha⟩ := bind_ok.mp ha
    obtain ⟨existing, -, ha⟩ := bind_ok.mp ha
    split at ha
    · obtain rfl := Except.ok.inj ha
      exact List.Subset.refl _
    · split at ha
      · obtain rfl := Except.ok.inj ha
        exact List.subset_append_left _ _
      · exact absurd ha (by simp)

/-- The symbol after `let` is in the buffer afterwards. -/
theorem analyzeLet_lists {parent rest sym : Word} {x : Cell} {name : List UInt8}
    {buf buf' : List Word} (hr : cdr h parent = .ok rest) (hs : car h rest = .ok sym)
    (hx : cellAt h sym = .ok x) (hn : cString h x.ar = .ok name)
    (ha : analyzeLet h parent buf = .ok buf') : Lists h buf' name := by
  unfold analyzeLet at ha
  obtain ⟨rest', hr', ha⟩ := bind_ok.mp ha
  obtain rfl := Except.ok.inj (hr.symm.trans hr')
  obtain ⟨sym', hs', ha⟩ := bind_ok.mp ha
  obtain rfl := Except.ok.inj (hs.symm.trans hs')
  obtain ⟨i, rfl, -⟩ := cellAt_ok hx
  rw [if_neg (cell_ne_null i)] at ha
  obtain ⟨x', hx', ha⟩ := bind_ok.mp ha
  obtain rfl := Except.ok.inj (hx.symm.trans hx')
  obtain ⟨existing, he, ha⟩ := bind_ok.mp ha
  split at ha
  · rename_i hex
    obtain rfl := Except.ok.inj ha
    rw [hex] at he
    exact knownLocal_true hn he
  · split at ha
    · obtain rfl := Except.ok.inj ha
      exact ⟨x.ar, by simp, hn⟩
    · exact absurd ha (by simp)

/-- `w` is the `car` or the `cdr` of the cons cell `e`. -/
def Inner (h : Heap) (e w : Word) : Prop :=
  ∃ x, cellAt h e = .ok x ∧ x.tag = tagCons ∧ w ≠ .null ∧ (w = x.ar ∨ w = x.dr)

/-- The operator symbol of a `let` form announces it. -/
theorem namesLet_of_form (hc : Counted c L h) {e : Word} {x : Cell} {o : Operator}
    (hf : FormOp c h e x o) (hlet : o.builtin = some .let_) :
    ∃ opsym, cellAt h x.ar = .ok opsym ∧ opsym.tag = tagSym ∧ namesLet c h opsym = .ok true := by
  obtain ⟨ht, hb⟩ : o.op.tag = tagBuiltin ∧ Builtin.ofWord o.op.ar = some .let_ := by
    unfold Operator.builtin at hlet
    split at hlet
    · exact ⟨‹_›, hlet⟩
    · exact absurd hlet (by simp)
  obtain ⟨opsym, opName, hop, hsym, hname, hfind⟩ := hf.op
  refine ⟨opsym, hop, hsym, ?_⟩
  unfold findOperator at hfind
  cases hl : c.lookup opName with
  | none => rw [hl] at hfind; exact absurd hfind (by simp)
  | some e' =>
    rw [hl] at hfind
    dsimp only at hfind
    split at hfind
    · exact absurd hfind (by simp)
    · obtain ⟨op, hcell, hfind⟩ := bind_ok.mp hfind
      have hlet : op.tag = tagBuiltin ∧ Builtin.ofWord op.ar = some .let_ := by
        split at hfind
        · rename_i htag
          obtain rfl := Except.ok.inj (Except.ok.inj hfind)
          exact ⟨htag, hb⟩
        · split at hfind
          · rename_i htag
            obtain ⟨sig, -, hfind⟩ := bind_ok.mp hfind
            obtain rfl := Except.ok.inj (Except.ok.inj hfind)
            exact absurd (htag.symm.trans ht) (by decide)
          · split at hfind
            · cases hnew : c.lookup (ascii "new") with
              | none => rw [hnew] at hfind; exact absurd hfind (by simp)
              | some e'' =>
                rw [hnew] at hfind
                dsimp only at hfind
                obtain ⟨newOp, hn, hfind⟩ := bind_ok.mp hfind
                obtain rfl := Except.ok.inj (Except.ok.inj hfind)
                obtain ⟨i, hi, rfl⟩ := cellAt_ok hn
                exact absurd hb (hc.new e'' i hnew hi)
            · exact absurd hfind (by simp)
      unfold namesLet
      rw [hname]
      dsimp only [bind, Except.bind]
      rw [hl]
      dsimp only
      rw [hcell]
      change Except.ok _ = _
      simp [hlet.1, hlet.2]

theorem analyzeFn_subset (n : ℕ) : ∀ {e parent : Word} {buf buf' : List Word},
    analyzeFn c h n e parent buf = .ok buf' → buf ⊆ buf' := by
  induction n with
  | zero => intro e parent buf buf' ha; exact absurd ha (by simp [analyzeFn])
  | succ n ih =>
    intro e parent buf buf' ha
    unfold analyzeFn at ha
    obtain ⟨x, -, ha⟩ := bind_ok.mp ha
    split at ha
    · obtain ⟨isLet, -, ha⟩ := bind_ok.mp ha
      split at ha
      · exact analyzeLet_subset ha
      · obtain rfl := Except.ok.inj ha
        exact List.Subset.refl _
    · split at ha
      · obtain ⟨buf₁, h₁, ha⟩ := bind_ok.mp ha
        have hsub : buf ⊆ buf₁ := by
          split at h₁
          · obtain rfl := Except.ok.inj h₁
            exact List.Subset.refl _
          · exact ih h₁
        split at ha
        · obtain rfl := Except.ok.inj ha
          exact hsub
        · exact List.Subset.trans hsub (ih ha)
      · obtain rfl := Except.ok.inj ha
        exact List.Subset.refl _

theorem Lists.mono {buf buf' : List Word} {name : List UInt8} (hl : Lists h buf name)
    (hsub : buf ⊆ buf') : Lists h buf' name := by
  obtain ⟨w, hw, hn⟩ := hl
  exact ⟨w, hsub hw, hn⟩

/-- `analyze_fn` finds every `let` below `e`. -/
theorem analyzeFn_lists (hc : Counted c L h) (n : ℕ) :
    ∀ {e w parent : Word} {buf buf' : List Word} {name : List UInt8},
      Relation.ReflTransGen (Inner h) e w → IsLetOf c h w name →
      analyzeFn c h n e parent buf = .ok buf' → Lists h buf' name := by
  induction n with
  | zero => intro e w parent buf buf' name _ _ ha; exact absurd ha (by simp [analyzeFn])
  | succ n ih =>
    intro e w parent buf buf' name hw hlet ha
    obtain ⟨x, o, sym, sc, hf, hb, hsym, hsc, hname⟩ := hlet
    unfold analyzeFn at ha
    obtain ⟨y, hy, ha⟩ := bind_ok.mp ha
    -- an inner form sits below a cons cell, and a form is one itself
    have hcons : y.tag = tagCons := by
      rcases Relation.ReflTransGen.cases_head hw with rfl | ⟨v, ⟨z, hz, hzt, -⟩, -⟩
      · obtain rfl := Except.ok.inj (hy.symm.trans hf.cell)
        exact hf.cons
      · obtain rfl := Except.ok.inj (hy.symm.trans hz)
        exact hzt
    rw [if_neg (by rw [hcons]; decide), if_pos hcons] at ha
    obtain ⟨buf₁, h₁, ha⟩ := bind_ok.mp ha
    have hsub : buf₁ ⊆ buf' := by
      split at ha
      · obtain rfl := Except.ok.inj ha
        exact List.Subset.refl _
      · exact analyzeFn_subset n ha
    rcases Relation.ReflTransGen.cases_head hw with rfl | ⟨v, ⟨z, hz, -, hv, hor⟩, hvw⟩
    · obtain rfl := Except.ok.inj (hy.symm.trans hf.cell)
      obtain ⟨opsym, hop, hopt, hnames⟩ := namesLet_of_form hc hf hb
      obtain ⟨i, hi, -⟩ := cellAt_ok hop
      rw [if_neg (by rw [hi]; exact cell_ne_null i)] at h₁
      refine Lists.mono ?_ hsub
      cases n with
      | zero => exact absurd h₁ (by simp [analyzeFn])
      | succ n =>
        unfold analyzeFn at h₁
        obtain ⟨op', hop', h₁⟩ := bind_ok.mp h₁
        obtain rfl := Except.ok.inj (hop.symm.trans hop')
        rw [if_pos hopt] at h₁
        obtain ⟨isLet, hisLet, h₁⟩ := bind_ok.mp h₁
        obtain rfl := Except.ok.inj (hnames.symm.trans hisLet)
        rw [if_pos rfl] at h₁
        have hcdr : cdr h e = .ok y.dr := by
          obtain ⟨j, rfl, rfl⟩ := cellAt_ok hy
          rfl
        exact analyzeLet_lists hcdr hsym hsc hname h₁
    · obtain rfl := Except.ok.inj (hy.symm.trans hz)
      have hlet' : IsLetOf c h w name := ⟨x, o, sym, sc, hf, hb, hsym, hsc, hname⟩
      rcases hor with rfl | rfl
      · rw [if_neg hv] at h₁
        exact (ih hvw hlet' h₁).mono hsub
      · rw [if_neg hv] at ha
        exact ih hvw hlet' ha

theorem ListArg.nth {args a : Word} {k : ℕ} (hl : ListArg h args k a) : Nth h args k a := by
  induction hl with
  | head ha hne => exact .head ha hne
  | tail _ _ hr _ ih => exact .tail hr ih

theorem Nth.within (hs : Settled c L h) {args a : Word} {k : ℕ} (hn : Nth h args k a) :
    Within L args → Within L a := by
  induction hn with
  | head ha _ =>
    intro hw
    exact hs.within_car hw ha
  | tail hr _ ih =>
    intro hw
    exact ih (hs.within_cdr hw hr)

/-- A list with an element is a cell. -/
theorem Nth.cell {args a : Word} {k : ℕ} (hn : Nth h args k a) : ∃ i, args = .cell i := by
  cases hn with
  | head ha hne =>
    unfold car at ha
    split at ha
    · exact absurd (Except.ok.inj ha).symm hne
    · rename_i i hi
      exact ⟨i, Word.asCell_eq_some hi⟩
    · exact absurd ha (by simp)
  | tail hr htail =>
    unfold cdr at hr
    split at hr
    · exact absurd (Except.ok.inj hr).symm fun h0 => nth_null h0 _ _ htail
    · rename_i i hi
      exact ⟨i, Word.asCell_eq_some hi⟩
    · exact absurd hr (by simp)

/-- The elements of a list lie below its cells. -/
theorem Nth.inner (hs : Settled c L h) (hc : Counted c L h) {args a : Word} {k : ℕ}
    (hn : Nth h args k a) : Within L args → (∀ i, args = .cell i → (h.cells i).tag = tagCons) →
    Relation.ReflTransGen (Inner h) args a := by
  induction hn with
  | head ha hne =>
    intro hw ht
    obtain ⟨i, rfl⟩ := Nth.cell (.head ha hne)
    obtain rfl := Except.ok.inj ha
    exact .single ⟨h.cells i, rfl, ht i rfl, hne, Or.inl rfl⟩
  | tail hr htail ih =>
    intro hw ht
    obtain ⟨i, rfl⟩ := Nth.cell (.tail hr htail)
    obtain rfl := Except.ok.inj hr
    refine .head ⟨h.cells i, rfl, ht i rfl, fun h0 => nth_null h0 _ _ htail, Or.inr rfl⟩ (ih ?_ ?_)
    · exact hs.dr i (hw i rfl)
    · intro j hj
      exact hc.tail i (hw i rfl) (ht i rfl) j hj

theorem Operand.nth {x : Cell} {o : Operator} {a : Word} (ho : Operand h x o a) :
    ∃ k, Nth h x.dr k a := by
  unfold Operand at ho
  split at ho
  · rcases ho with ho | ho
    · exact ⟨_, ho⟩
    · exact ⟨_, ho⟩
  · obtain ⟨k, ho⟩ := ho
    exact ⟨k, ho.nth⟩
  · obtain ⟨k, ho⟩ := ho
    exact ⟨k, ho.nth⟩
  · obtain ⟨fields, k, hf, ho⟩ := ho
    exact ⟨_, .tail hf ho.nth⟩
  · split at ho
    · rcases ho with ho | ho
      · exact ⟨_, ho⟩
      · exact ⟨_, ho⟩
    · obtain ⟨k, ho⟩ := ho
      exact ⟨k, ho.nth⟩
  · obtain ⟨-, k, ho⟩ := ho
    exact ⟨k, ho.nth⟩

theorem OwnSub.inner (hs : Settled c L h) (hc : Counted c L h) {e a : Word} (hw : Within L e)
    (ho : OwnSub c h e a) : Within L a ∧ Relation.ReflTransGen (Inner h) e a := by
  obtain ⟨x, o, hf, hop⟩ := ho
  obtain ⟨k, ha⟩ := hop.nth
  obtain ⟨i, rfl, rfl⟩ := cellAt_ok hf.cell
  have hi := hw i rfl
  refine ⟨ha.within hs (hs.dr i hi), ?_⟩
  exact .head ⟨h.cells i, rfl, hf.cons, fun h0 => nth_null h0 _ _ ha, Or.inr rfl⟩
    (ha.inner hs hc (hs.dr i hi) fun j hj => hc.tail i hi hf.cons j hj)

/-- Every `let` compiled in the frame of `e` has its name in the buffer. -/
theorem analyzeFn_ownMark (hs : Settled c L h) (hc : Counted c L h) {n : ℕ} {e : Word}
    {buf : List Word} {name : List UInt8} (hw : Within L e)
    (ha : analyzeFn c h n e .null [] = .ok buf) (hm : OwnMark c h e (.assign name)) :
    Lists h buf name := by
  obtain ⟨w, ho, hlet⟩ := hm
  have hpath : Within L w ∧ Relation.ReflTransGen (Inner h) e w := by
    clear hlet
    induction ho with
    | refl => exact ⟨hw, .refl⟩
    | tail _ hstep ih =>
      have hlast := hstep.inner hs hc ih.1
      exact ⟨hlast.1, ih.2.trans hlast.2⟩
  exact analyzeFn_lists hc n hpath.2 hlet ha

/-! The walk reads the same before and after allocations. -/

/-- The words of `buf` are names of symbols in `L`. -/
def Names (L : Set ℕ) (h : Heap) (buf : List Word) : Prop := ∀ w ∈ buf, ∃ i ∈ L, w = (h.cells i).ar

variable {h₀ : Heap}

theorem knownLocal_eq (hs : Settled c L h₀) (hk : KeepsAll h₀ h) {i : ℕ} (hi : i ∈ L) :
    ∀ {buf : List Word}, Names L h₀ buf →
      knownLocal h (h₀.cells i).ar buf = knownLocal h₀ (h₀.cells i).ar buf := by
  intro buf
  induction buf with
  | nil => intro _; rfl
  | cons known rest ih =>
    intro hn
    obtain ⟨j, hj, rfl⟩ := hn known List.mem_cons_self
    unfold knownLocal
    rw [hs.cString_eq hk hj, hs.cString_eq hk hi, ih fun w hw => hn w (List.mem_cons_of_mem _ hw)]

theorem analyzeLet_keeps (hs : Settled c L h₀) (hk : KeepsAll h₀ h) {parent : Word}
    {buf buf' : List Word} (hp : Within L parent) (hn : Names L h₀ buf)
    (ha : analyzeLet h parent buf = .ok buf') :
    analyzeLet h₀ parent buf = .ok buf' ∧ Names L h₀ buf' := by
  unfold analyzeLet at ha ⊢
  obtain ⟨rest, hr, ha⟩ := bind_ok.mp ha
  rw [hs.cdr_eq hk hp] at hr
  obtain ⟨sym, hc, ha⟩ := bind_ok.mp ha
  rw [hs.car_eq hk (hs.within_cdr hp hr)] at hc
  have hws := hs.within_car (hs.within_cdr hp hr) hc
  suffices hsuff : _ = Except.ok buf' ∧ Names L h₀ buf' from
    ⟨bind_ok.mpr ⟨rest, hr, bind_ok.mpr ⟨sym, hc, hsuff.1⟩⟩, hsuff.2⟩
  split at ha
  · rename_i hnull
    rw [if_pos hnull]
    exact ⟨ha, Except.ok.inj ha ▸ hn⟩
  · rename_i hnull
    rw [if_neg hnull]
    obtain ⟨x, hx, ha⟩ := bind_ok.mp ha
    rw [hs.cellAt_eq hk hws] at hx
    obtain ⟨i, rfl, rfl⟩ := cellAt_ok hx
    have hi := hws i rfl
    obtain ⟨existing, hex, ha⟩ := bind_ok.mp ha
    rw [knownLocal_eq hs hk hi hn] at hex
    refine ⟨bind_ok.mpr ⟨_, hx, bind_ok.mpr ⟨existing, hex, ha⟩⟩, ?_⟩
    split at ha
    · exact Except.ok.inj ha ▸ hn
    · split at ha
      · rw [← Except.ok.inj ha]
        intro w hw
        rcases List.mem_append.mp hw with hw | hw
        · exact hn w hw
        · exact ⟨i, hi, List.mem_singleton.mp hw⟩
      · exact absurd ha (by simp)

theorem namesLet_eq (hs : Settled c L h₀) (hk : KeepsAll h₀ h) {i : ℕ} (hi : i ∈ L) :
    namesLet c h (h₀.cells i) = namesLet c h₀ (h₀.cells i) := by
  unfold namesLet
  rw [hs.cString_eq hk hi]
  cases cString h₀ (h₀.cells i).ar with
  | error e => rfl
  | ok name =>
    simp only [bind, Except.bind]
    cases c.lookup name with
    | none => rfl
    | some e =>
      dsimp only
      rw [hs.cellAt_eq hk (hs.entry e)]

theorem analyzeFn_keeps (hs : Settled c L h₀) (hk : KeepsAll h₀ h) (n : ℕ) :
    ∀ {e parent : Word} {buf buf' : List Word}, Within L e → Within L parent → Names L h₀ buf →
      analyzeFn c h n e parent buf = .ok buf' →
      analyzeFn c h₀ n e parent buf = .ok buf' ∧ Names L h₀ buf' := by
  induction n with
  | zero =>
    intro e parent buf buf' _ _ _ ha
    exact absurd ha (by simp [analyzeFn])
  | succ n ih =>
    intro e parent buf buf' he hp hn ha
    unfold analyzeFn at ha ⊢
    obtain ⟨x, hx, ha⟩ := bind_ok.mp ha
    rw [hs.cellAt_eq hk he] at hx
    obtain ⟨i, rfl, rfl⟩ := cellAt_ok hx
    have hi := he i rfl
    suffices hsuff : _ = Except.ok buf' ∧ Names L h₀ buf' from
      ⟨bind_ok.mpr ⟨_, hx, hsuff.1⟩, hsuff.2⟩
    split at ha
    · rename_i ht
      rw [if_pos ht]
      obtain ⟨isLet, hlet, ha⟩ := bind_ok.mp ha
      rw [namesLet_eq hs hk hi] at hlet
      cases isLet with
      | false =>
        obtain rfl := Except.ok.inj ha
        exact ⟨bind_ok.mpr ⟨false, hlet, rfl⟩, hn⟩
      | true =>
        obtain ⟨hl, hn'⟩ := analyzeLet_keeps hs hk hp hn ha
        exact ⟨bind_ok.mpr ⟨true, hlet, hl⟩, hn'⟩
    · rename_i ht
      rw [if_neg ht]
      split at ha
      · rename_i hc
        rw [if_pos hc]
        obtain ⟨buf₁, h₁, ha⟩ := bind_ok.mp ha
        have hcar : (if (h₀.cells i).ar = .null then .ok buf
            else analyzeFn c h₀ n (h₀.cells i).ar (.cell i) buf) = .ok buf₁ ∧ Names L h₀ buf₁ := by
          split at h₁
          · rename_i hnull
            rw [if_pos hnull]
            exact ⟨h₁, Except.ok.inj h₁ ▸ hn⟩
          · rename_i hnull
            rw [if_neg hnull]
            exact ih (hs.ar i hi) he hn h₁
        suffices hsuff : _ = Except.ok buf' ∧ Names L h₀ buf' from
          ⟨bind_ok.mpr ⟨buf₁, hcar.1, hsuff.1⟩, hsuff.2⟩
        split at ha
        · rename_i hnull
          rw [if_pos hnull]
          exact ⟨ha, Except.ok.inj ha ▸ hcar.2⟩
        · rename_i hnull
          rw [if_neg hnull]
          exact ih (hs.dr i hi) he hcar.2 ha
      · rename_i hc
        rw [if_neg hc]
        exact ⟨ha, Except.ok.inj ha ▸ hn⟩

end Analyze

/-! ## The locals of a segment -/

/-- From `s` to `s'` the frame only gains locals, each with a name of its own
    that `u` marks as assigned. -/
structure LocalsAdded (s s' : CState) (u : List Mark) : Prop where
  global : s.frame.f = none → s'.frame.f = none
  locals_le : s.frame.locals ≤ s'.frame.locals
  function : ∀ f, s.frame.f = some f → ∃ f', s'.frame.f = some f' ∧
    (∀ i < maxArgs + s.frame.locals, f' i = f i) ∧
    ∀ k, s.frame.locals ≤ k → k < s'.frame.locals → ∃ name, (f' (maxArgs + k)).name = some name ∧
      .assign name ∈ u ∧ ∀ i < maxArgs + k, (f' i).name ≠ some name

namespace LocalsAdded

variable {s s₁ s' : CState} {u u' : List Mark}

/-- A step that leaves the frame's entries alone. -/
theorem same (hf : s'.frame.f = s.frame.f) (hl : s'.frame.locals = s.frame.locals) :
    LocalsAdded s s' u where
  global h := hf.trans h
  locals_le := hl.ge
  function f h := ⟨f, hf.trans h, fun _ _ => rfl, fun k hk hk' => by omega⟩

theorem trans (h : LocalsAdded s s₁ u) (h' : LocalsAdded s₁ s' u') :
    LocalsAdded s s' (u ++ u') where
  global hf := h'.global (h.global hf)
  locals_le := h.locals_le.trans h'.locals_le
  function f hf := by
    obtain ⟨f₁, hf₁, hsame, hnew⟩ := h.function f hf
    obtain ⟨f', hf', hsame', hnew'⟩ := h'.function f₁ hf₁
    have hle := h.locals_le
    refine ⟨f', hf', ?_, ?_⟩
    · intro i hi
      rw [hsame' i (by omega), hsame i hi]
    · intro k hk hk'
      rcases Nat.lt_or_ge k s₁.frame.locals with hlt | hge
      · obtain ⟨name, hn, hm, hother⟩ := hnew k hk hlt
        refine ⟨name, ?_, List.mem_append_left _ hm, ?_⟩
        · rw [hsame' _ (by omega)]
          exact hn
        · intro i hi
          rw [hsame' i (by omega)]
          exact hother i hi
      · obtain ⟨name, hn, hm, hother⟩ := hnew' k hge hk'
        exact ⟨name, hn, List.mem_append_right _ hm, hother⟩

theorem mono (h : LocalsAdded s s' u) (hu : u ⊆ u') : LocalsAdded s s' u' where
  global := h.global
  locals_le := h.locals_le
  function f hf := by
    obtain ⟨f', hf', hsame, hnew⟩ := h.function f hf
    refine ⟨f', hf', hsame, fun k hk hk' => ?_⟩
    obtain ⟨name, hn, hm, hother⟩ := hnew k hk hk'
    exact ⟨name, hn, hu hm, hother⟩

end LocalsAdded

theorem Segment.localsAdded {counted : Prop} {t : ℕ} {s s' : CState} {code : List Jit}
    {u : List Mark} (h : Segment counted t s code u s') : LocalsAdded s s' u := by
  induction h with
  | tame _ hs => exact .same (congrArg _ hs.frame) (congrArg _ hs.frame)
  | seq _ _ ih ih' => exact ih.trans ih'
  | push => exact .same rfl rfl
  | pop _ _ ih => exact ⟨ih.global, ih.locals_le, ih.function⟩
  | drop _ ih => exact ⟨ih.global, ih.locals_le, ih.function⟩
  | @ifElse s s₁ s₂ th el u u' _ _ ih ih' =>
    have h₁ : LocalsAdded s s₁ u := ⟨ih.global, ih.locals_le, ih.function⟩
    exact h₁.trans ⟨ih'.global, ih'.locals_le, ih'.function⟩
  | ifThen _ ih => exact ⟨ih.global, ih.locals_le, ih.function⟩
  | @loop s s₁ s₂ c b u u' boxed _ _ ih ih' =>
    have h₁ : LocalsAdded s s₁ u := ⟨ih.global, ih.locals_le, ih.function⟩
    exact h₁.trans ih'
  | tagCheck => exact .same rfl rfl
  | label => exact .same rfl rfl
  | fn => exact .same rfl rfl
  | @newLocal s f d name hf hok hlt hn hnew ht hslot =>
    refine ⟨fun h => absurd (hf.symm.trans h) (by simp), Nat.le_succ _, fun f₀ hf₀ => ?_⟩
    obtain rfl := Option.some.inj (hf.symm.trans hf₀)
    refine ⟨_, rfl, fun i hi => Function.update_of_ne (by omega) _ _, fun k hk hk' => ?_⟩
    have hk₀ : k < s.frame.locals + 1 := hk'
    obtain rfl : k = s.frame.locals := by omega
    refine ⟨name, ?_, List.mem_cons_self, fun i hi => ?_⟩
    · rw [Function.update_self]
      exact hn
    · rw [Function.update_of_ne (by omega)]
      exact hnew i (by omega)
  | store => exact .same rfl rfl
  | storeReg => exact .same rfl rfl
  | reenter => exact .same rfl rfl
  | saved => exact .same rfl rfl
  | call => exact .same rfl rfl
  | structName => exact .same rfl rfl
  | structField _ ih =>
    have h₁ := ih.mono (List.subset_cons_self .structKey _)
    exact ⟨h₁.global, h₁.locals_le, h₁.function⟩

/-- A function whose assigned names are all in `buf` has at most that many
    locals. -/
theorem LocalsAdded.locals_le_length {s s' : CState} {u : List Mark} {h : Heap} {buf : List Word}
    {f : ℕ → Arg} (ha : LocalsAdded s s' u) (hf : s.frame.f = some f) (h0 : s.frame.locals = 0)
    (hu : ∀ name, .assign name ∈ u → Lists h buf name) : s'.frame.locals ≤ buf.length := by
  obtain ⟨f', -, -, hnew⟩ := ha.function f hf
  let names := (List.range s'.frame.locals).map fun k => (f' (maxArgs + k)).name
  have hnodup : names.Nodup := by
    refine List.Nodup.map_on ?_ List.nodup_range
    intro j hj k hk hjk
    obtain ⟨nj, hnj, -, hoj⟩ := hnew j (by omega) (List.mem_range.mp hj)
    obtain ⟨nk, hnk, -, hok⟩ := hnew k (by omega) (List.mem_range.mp hk)
    rcases Nat.lt_trichotomy j k with hlt | heq | hgt
    · exact absurd (hjk.trans hnk) (hok (maxArgs + j) (by omega))
    · exact heq
    · exact absurd (hjk.symm.trans hnj) (hoj (maxArgs + k) (by omega))
  have hsub : names ⊆ buf.map fun w => (cString h w).toOption := by
    intro n hn
    obtain ⟨k, hk, rfl⟩ := List.mem_map.mp hn
    obtain ⟨name, hname, hm, -⟩ := hnew k (by omega) (List.mem_range.mp hk)
    obtain ⟨w, hw, hs⟩ := hu name hm
    exact List.mem_map.mpr ⟨w, hw, by rw [hs, hname]; rfl⟩
  have hlen := (List.subperm_of_subset hnodup hsub).length_le
  simpa [names] using hlen

end Interim.Compiler
