import Mathlib.Tactic

/-!
# Forward references in one pass

A one-pass assembler writes cells of type `α` into a buffer. A branch whose
label is already placed is encoded at once; any other leaves a hole behind,
which is patched when the label is placed. Names, opcodes and cells are
arbitrary, and so are the formulas of an `Encoding`. With its cells, a piece of
data may store one elsewhere in the buffer, such as a constant behind the code.

* `final_cell`: when the labels are distinct and no store hits a branch, every
  branch whose label is placed ends up as the encoding of its direction says.
* `step_label_code`: placing a label changes the branches that wait for it and
  no other cell.
-/

namespace Backpatch

variable {Name Op α : Type*}

/-- How branches are encoded: `width` cells each. `back` is the encoding when
    the label is known, `hole` when it is not, and `patch` changes a cell of the
    hole; they are given the site, the target and the index of the cell. -/
structure Encoding (Op α : Type*) where
  width : ℕ
  back : Op → ℕ → ℕ → ℕ → α
  hole : Op → ℕ → α
  patch : ℕ → ℕ → ℕ → α → α

/-- What the assembler is asked to do. `data w f` is the `w` cells `f 0`, `f 1`,
    … -/
inductive Item (Name Op α : Type*)
  | data (w : ℕ) (f : ℕ → α) (store : Option (ℕ × α))
  | branch (op : Op) (n : Name)
  | label (n : Name)

/-- The buffer, the labels placed and the branches that wait for a label. -/
structure Buffer (Name α : Type*) where
  code : ℕ → α
  idx : ℕ
  labels : List (Name × ℕ)
  pending : List (Name × ℕ)

/-- The empty buffer. -/
def Buffer.empty (code : ℕ → α) : Buffer Name α := ⟨code, 0, [], []⟩

/-- Write one cell somewhere. -/
def poke (code : ℕ → α) : Option (ℕ × α) → ℕ → α
  | none => code
  | some (a, x) => Function.update code a x

/-- Write `w` cells at `p`. -/
def fill (code : ℕ → α) (p w : ℕ) (f : ℕ → α) : ℕ → α :=
  fun c => if p ≤ c ∧ c < p + w then f (c - p) else code c

namespace Encoding

variable (E : Encoding Op α)

/-- The cells an item takes up. -/
def size : Item Name Op α → ℕ
  | .data w _ _ => w
  | .branch _ _ => E.width
  | .label _ => 0

/-- Patch the hole at `p` for the target `t`. -/
def patchAt (t : ℕ) (code : ℕ → α) (p : ℕ) : ℕ → α :=
  fill code p E.width fun i => E.patch p t i (code (p + i))

/-- A branch at `p` to `t`; `before` says that the label came first. -/
def resolved (before : Prop) [Decidable before] (op : Op) (p t i : ℕ) : α :=
  if before then E.back op p t i else E.patch p t i (E.hole op i)

end Encoding

section Fill

variable {code : ℕ → α} {p w c : ℕ} {f : ℕ → α}

theorem fill_inside {i : ℕ} (hi : i < w) : fill code p w f (p + i) = f i := by
  unfold fill
  rw [if_pos ⟨by omega, by omega⟩, Nat.add_sub_cancel_left]

theorem fill_one : fill code p 1 f = Function.update code p (f 0) := by
  funext c
  unfold fill
  by_cases hc : c = p
  · subst hc
    rw [if_pos ⟨le_rfl, by omega⟩, Nat.sub_self, Function.update_self]
  · rw [if_neg (by omega), Function.update_of_ne hc]

theorem fill_outside (hc : c < p ∨ p + w ≤ c) : fill code p w f c = code c := by
  unfold fill
  rw [if_neg (by omega)]

end Fill

/-! ## Positions -/

variable (E : Encoding Op α)

/-- The cells a list of items takes up. -/
def Encoding.total (xs : List (Item Name Op α)) : ℕ := (xs.map E.size).sum

/-- The position of item `k`. -/
def Encoding.pos (xs : List (Item Name Op α)) (k : ℕ) : ℕ := E.total (xs.take k)

section Positions

variable {E} {xs : List (Item Name Op α)} {x : Item Name Op α} {k : ℕ}

theorem total_append (xs ys : List (Item Name Op α)) :
    E.total (xs ++ ys) = E.total xs + E.total ys := by
  simp [Encoding.total]

theorem total_singleton : E.total [x] = E.size x := by simp [Encoding.total]

theorem pos_snoc (hk : k ≤ xs.length) : E.pos (xs ++ [x]) k = E.pos xs k := by
  rw [Encoding.pos, Encoding.pos, List.take_append_of_le_length hk]

theorem pos_length : E.pos xs xs.length = E.total xs := by
  rw [Encoding.pos, List.take_length]

/-- An item ends where the next one begins. -/
theorem pos_succ (hk : xs[k]? = some x) : E.pos xs (k + 1) = E.pos xs k + E.size x := by
  obtain ⟨hlt, rfl⟩ := List.getElem?_eq_some_iff.mp hk
  rw [Encoding.pos, List.take_succ_eq_append_getElem hlt, total_append, total_singleton,
    Encoding.pos]

theorem pos_mono {m : ℕ} (h : k ≤ m) : E.pos xs k ≤ E.pos xs m := by
  have hsplit : xs.take m = xs.take k ++ (xs.take m).drop k := by
    conv_lhs => rw [← List.take_append_drop k (xs.take m)]
    rw [List.take_take, Nat.min_eq_left h]
  rw [Encoding.pos, Encoding.pos, hsplit, total_append]
  exact Nat.le_add_right _ _

/-- An item lies in front of every later one. -/
theorem pos_add_size_le {m : ℕ} (hk : xs[k]? = some x) (h : k < m) :
    E.pos xs k + E.size x ≤ E.pos xs m := by
  rw [← pos_succ hk]
  exact pos_mono h

theorem pos_add_size_le_total (hk : xs[k]? = some x) : E.pos xs k + E.size x ≤ E.total xs := by
  obtain ⟨hlt, -⟩ := List.getElem?_eq_some_iff.mp hk
  rw [← pos_length]
  exact pos_add_size_le hk hlt

/-- The items of a longer list. -/
theorem getElem?_snoc {y : Item Name Op α} :
    (xs ++ [x])[k]? = some y ↔ xs[k]? = some y ∨ (k = xs.length ∧ x = y) := by
  rcases Nat.lt_trichotomy k xs.length with h | rfl | h
  · rw [List.getElem?_append_left h]
    exact ⟨Or.inl, fun h' => h'.elim id fun h'' => absurd h''.1 (by omega)⟩
  · rw [List.getElem?_append_right le_rfl, Nat.sub_self]
    simp
  · rw [List.getElem?_eq_none (by simp; omega), List.getElem?_eq_none (by omega)]
    simp
    omega

theorem lt_length_of_getElem? {y : Item Name Op α} (h : xs[k]? = some y) : k < xs.length :=
  (List.getElem?_eq_some_iff.mp h).1

theorem getElem?_take_some {k m : ℕ} {y : Item Name Op α} (h : (xs.take k)[m]? = some y) :
    m < k ∧ xs[m]? = some y := by
  have hmk : m < k := by
    have := lt_length_of_getElem? h
    rw [List.length_take] at this
    omega
  exact ⟨hmk, by rwa [List.getElem?_take_of_lt hmk] at h⟩

theorem pos_take {k m : ℕ} (h : m ≤ k) : E.pos (xs.take k) m = E.pos xs m := by
  rw [Encoding.pos, List.take_take, Nat.min_eq_left h]
  rfl

end Positions

/-! ## Patching -/

section Patching

variable {E} {t : ℕ} {code : ℕ → α} {ps : List ℕ} {c : ℕ}

/-- Cells outside the patched sites keep their contents. -/
theorem foldl_patch_outside (h : ∀ p ∈ ps, c < p ∨ p + E.width ≤ c) :
    ps.foldl (E.patchAt t) code c = code c := by
  induction ps generalizing code with
  | nil => rfl
  | cons p ps ih =>
    rw [List.foldl_cons, ih fun q hq => h q (List.mem_cons_of_mem _ hq)]
    exact fill_outside (h p (List.mem_cons_self ..))

/-- Each of several disjoint sites is patched once. -/
theorem foldl_patch_inside {p i : ℕ} (hd : ps.Pairwise fun p q => p + E.width ≤ q)
    (hp : p ∈ ps) (hi : i < E.width) :
    ps.foldl (E.patchAt t) code (p + i) = E.patch p t i (code (p + i)) := by
  induction ps generalizing code with
  | nil => exact absurd hp (by simp)
  | cons q qs ih =>
    obtain ⟨hq, hqs⟩ := List.pairwise_cons.mp hd
    rw [List.foldl_cons]
    rcases List.mem_cons.mp hp with rfl | hmem
    · rw [foldl_patch_outside fun r hr => Or.inl (by have := hq r hr; omega)]
      exact fill_inside hi
    · rw [ih hqs hmem]
      have hle := hq p hmem
      rw [Encoding.patchAt, fill_outside (Or.inr (by omega))]

end Patching

/-! ## The assembler -/

section Assembler

variable [DecidableEq Name]

/-- The position of a label. -/
def Buffer.find (b : Buffer Name α) (n : Name) : Option ℕ :=
  (b.labels.find? fun e => e.1 = n).map Prod.snd

/-- The branches that wait for `n`. -/
def Buffer.waiting (b : Buffer Name α) (n : Name) : List ℕ :=
  (b.pending.filter fun e => e.1 = n).map Prod.snd

/-- One item. -/
def Encoding.step (b : Buffer Name α) : Item Name Op α → Buffer Name α
  | .data w f store => { b with code := fill (poke b.code store) b.idx w f, idx := b.idx + w }
  | .branch op n =>
    match b.find n with
    | some t =>
      { b with code := fill b.code b.idx E.width (E.back op b.idx t), idx := b.idx + E.width }
    | none =>
      { b with
        code := fill b.code b.idx E.width (E.hole op)
        idx := b.idx + E.width
        pending := b.pending ++ [(n, b.idx)] }
  | .label n =>
    { b with
      code := (b.waiting n).foldl (E.patchAt b.idx) b.code
      labels := b.labels ++ [(n, b.idx)]
      pending := b.pending.filter fun e => e.1 ≠ n }

/-- A list of items. -/
def Encoding.run (xs : List (Item Name Op α)) (b : Buffer Name α) : Buffer Name α :=
  xs.foldl E.step b

theorem step_data {b : Buffer Name α} {w : ℕ} {f : ℕ → α} {store : Option (ℕ × α)} :
    E.step b (.data w f store) =
      { b with code := fill (poke b.code store) b.idx w f, idx := b.idx + w } := rfl

theorem step_branch_some {E : Encoding Op α} {b : Buffer Name α} {op : Op} {n : Name} {t : ℕ}
    (hf : b.find n = some t) :
    E.step b (.branch op n) = { b with
      code := fill b.code b.idx E.width (E.back op b.idx t)
      idx := b.idx + E.width } := by
  simp only [Encoding.step, hf]

theorem step_branch_none {E : Encoding Op α} {b : Buffer Name α} {op : Op} {n : Name} (hf : b.find n = none) :
    E.step b (.branch op n) = { b with
      code := fill b.code b.idx E.width (E.hole op)
      idx := b.idx + E.width
      pending := b.pending ++ [(n, b.idx)] } := by
  simp only [Encoding.step, hf]

theorem step_idx {E : Encoding Op α} (b : Buffer Name α) (x : Item Name Op α) :
    (E.step b x).idx = b.idx + E.size x := by
  cases x with
  | branch op n =>
    cases hf : b.find n with
    | some t => rw [step_branch_some hf]; rfl
    | none => rw [step_branch_none hf]; rfl
  | _ => rfl

/-- An item adds nothing to the waiting branches but itself. -/
theorem step_pending {E : Encoding Op α} {b : Buffer Name α} {x : Item Name Op α} {e : Name × ℕ}
    (he : e ∈ (E.step b x).pending) :
    e ∈ b.pending ∨ ∃ op n, x = .branch op n ∧ e = (n, b.idx) := by
  cases x with
  | data w f store => exact Or.inl he
  | branch op n =>
    cases hf : b.find n with
    | some t =>
      rw [step_branch_some hf] at he
      exact Or.inl he
    | none =>
      rw [step_branch_none hf] at he
      exact (List.mem_append.mp he).imp_right fun he => ⟨op, n, rfl, List.mem_singleton.mp he⟩
  | label n => exact Or.inl (List.mem_of_mem_filter he)

/-- Placing a label changes no cell but those of the branches that wait for it. -/
theorem step_label_code {E : Encoding Op α} {b : Buffer Name α} {n : Name} {c : ℕ}
    (h : ∀ p ∈ b.waiting n, c < p ∨ p + E.width ≤ c) :
    (E.step b (.label n)).code c = b.code c :=
  foldl_patch_outside h

end Assembler

/-! ## Runs -/

/-- No label is placed twice. -/
def Distinct (xs : List (Item Name Op α)) : Prop :=
  ∀ (j j' : ℕ) (n : Name), xs[j]? = some (.label n) → xs[j']? = some (.label n) → j = j'

/-- No store hits a branch in front of it. -/
def Encoding.Clear (xs : List (Item Name Op α)) : Prop :=
  ∀ k m op n w f a x, xs[k]? = some (.branch op n) → xs[m]? = some (.data w f (some (a, x))) →
    k < m → a < E.pos xs k ∨ E.pos xs k + E.width ≤ a

/-- What holds after the items `xs`. -/
structure Inv (xs : List (Item Name Op α)) (b : Buffer Name α) : Prop where
  idx : b.idx = E.total xs
  labels : ∀ n t, (n, t) ∈ b.labels ↔ ∃ j, xs[j]? = some (.label n) ∧ E.pos xs j = t
  pending : ∀ n p, (n, p) ∈ b.pending ↔
    (∃ k op, xs[k]? = some (.branch op n) ∧ E.pos xs k = p) ∧ Item.label n ∉ xs
  apart : b.pending.Pairwise fun x y => x.2 + E.width ≤ y.2
  hole : ∀ k op n i, xs[k]? = some (.branch op n) → Item.label n ∉ xs → i < E.width →
    b.code (E.pos xs k + i) = E.hole op i
  closed : ∀ k j op n i, xs[k]? = some (.branch op n) → xs[j]? = some (.label n) → i < E.width →
    b.code (E.pos xs k + i) = E.resolved (j < k) op (E.pos xs k) (E.pos xs j) i

section Runs

variable {E} {xs : List (Item Name Op α)} {x : Item Name Op α} {b : Buffer Name α} {n : Name}

theorem Inv.empty (code : ℕ → α) : Inv E ([] : List (Item Name Op α)) (.empty code) where
  idx := rfl
  labels n t := by simp [Buffer.empty]
  pending n p := by simp [Buffer.empty]
  apart := List.Pairwise.nil
  hole k op n i h := by simp at h
  closed k j op n i h := by simp at h

theorem Distinct.of_snoc (h : Distinct (xs ++ [x])) : Distinct xs := fun j j' n hj hj' =>
  h j j' n (getElem?_snoc.mpr (Or.inl hj)) (getElem?_snoc.mpr (Or.inl hj'))

theorem Clear.of_snoc (h : E.Clear (xs ++ [x])) : E.Clear xs := by
  intro k m op n w f a y hk hm hlt
  have := h k m op n w f a y (getElem?_snoc.mpr (Or.inl hk)) (getElem?_snoc.mpr (Or.inl hm)) hlt
  rwa [pos_snoc (lt_length_of_getElem? hk).le] at this

/-! What the longer list adds, when the new item is no label or no branch. -/

theorem getElem?_snoc_label {j : ℕ} (hx : ∀ n', x ≠ .label n') :
    (xs ++ [x])[j]? = some (.label n) ↔ xs[j]? = some (.label n) := by
  rw [getElem?_snoc]
  exact or_iff_left fun h => hx n h.2

theorem mem_snoc_label (hx : ∀ n', x ≠ .label n') :
    Item.label n ∈ xs ++ [x] ↔ Item.label n ∈ xs := by
  rw [List.mem_append, List.mem_singleton]
  exact or_iff_left fun h => hx n h.symm

theorem getElem?_snoc_branch {k : ℕ} {op : Op} (hx : ∀ op' n', x ≠ .branch op' n') :
    (xs ++ [x])[k]? = some (.branch op n) ↔ xs[k]? = some (.branch op n) := by
  rw [getElem?_snoc]
  exact or_iff_left fun h => hx op n h.2

theorem mem_of_getElem?_label {j : ℕ} (h : xs[j]? = some (.label n)) : Item.label n ∈ xs :=
  List.mem_iff_getElem?.mpr ⟨j, h⟩

/-- The position of an item does not depend on what follows. -/
theorem exists_pos_snoc {P : ℕ → Prop} (hP : ∀ k, P k → k < xs.length) (t : ℕ) :
    (∃ k, P k ∧ E.pos (xs ++ [x]) k = t) ↔ ∃ k, P k ∧ E.pos xs k = t := by
  refine exists_congr fun k => and_congr_right fun hk => ?_
  rw [pos_snoc (hP k hk).le]

theorem Inv.snoc_labels (h : Inv E xs b) (hx : ∀ n', x ≠ .label n') (t : ℕ) :
    (n, t) ∈ b.labels ↔ ∃ j, (xs ++ [x])[j]? = some (.label n) ∧ E.pos (xs ++ [x]) j = t := by
  simp only [getElem?_snoc_label hx]
  rw [h.labels n t, exists_pos_snoc fun j hj => lt_length_of_getElem? hj]

theorem exists_branch_snoc (hx : ∀ op' n', x ≠ .branch op' n') (p : ℕ) :
    (∃ k op, (xs ++ [x])[k]? = some (.branch op n) ∧ E.pos (xs ++ [x]) k = p) ↔
      ∃ k op, xs[k]? = some (.branch op n) ∧ E.pos xs k = p := by
  simp only [getElem?_snoc_branch hx]
  refine exists_congr fun k => exists_congr fun op => and_congr_right fun hk => ?_
  rw [pos_snoc (lt_length_of_getElem? hk).le]

/-- A branch takes up cells in front of the end. -/
theorem branch_end_le {k : ℕ} {op : Op} (hk : xs[k]? = some (.branch op n)) :
    E.pos xs k + E.width ≤ E.total xs :=
  pos_add_size_le_total hk

/-- An item that neither branches nor places a label, and changes no cell of a
    branch. -/
theorem Inv.snoc_data {code : ℕ → α} (h : Inv E xs b) (hb : ∀ op n, x ≠ .branch op n)
    (hl : ∀ n, x ≠ .label n)
    (hcode : ∀ k op n i, xs[k]? = some (.branch op n) → i < E.width →
      code (E.pos xs k + i) = b.code (E.pos xs k + i)) :
    Inv E (xs ++ [x]) { b with code := code, idx := b.idx + E.size x } := by
  constructor
  · rw [total_append, total_singleton, ← h.idx]
  · exact fun n t => h.snoc_labels hl t
  · intro n p
    rw [mem_snoc_label hl, exists_branch_snoc hb]
    exact h.pending n p
  · exact h.apart
  · intro k op n i hk hn hi
    rw [getElem?_snoc_branch hb] at hk
    rw [mem_snoc_label hl] at hn
    rw [pos_snoc (lt_length_of_getElem? hk).le]
    exact (hcode k op n i hk hi).trans (h.hole k op n i hk hn hi)
  · intro k j op n i hk hj hi
    rw [getElem?_snoc_branch hb] at hk
    rw [getElem?_snoc_label hl] at hj
    rw [pos_snoc (lt_length_of_getElem? hk).le, pos_snoc (lt_length_of_getElem? hj).le]
    exact (hcode k op n i hk hi).trans (h.closed k j op n i hk hj hi)

/-- The new branch of a longer list comes last. -/
theorem getElem?_snoc_branch_cases {k : ℕ} {op op' : Op} {n' : Name}
    (hk : (xs ++ [Item.branch op n])[k]? = some (.branch op' n')) :
    (xs[k]? = some (.branch op' n') ∧ E.pos (xs ++ [.branch op n]) k = E.pos xs k) ∨
      (k = xs.length ∧ op' = op ∧ n' = n) := by
  rcases getElem?_snoc.mp hk with hk | ⟨hk, hx⟩
  · exact Or.inl ⟨hk, pos_snoc (lt_length_of_getElem? hk).le⟩
  · obtain ⟨h₁, h₂⟩ := Item.branch.inj hx
    exact Or.inr ⟨hk, h₁.symm, h₂.symm⟩

variable [DecidableEq Name]

/-- A label that is found has been placed. -/
theorem Inv.find_some {t : ℕ} (h : Inv E xs b) (hf : b.find n = some t) :
    ∃ j, xs[j]? = some (.label n) ∧ E.pos xs j = t := by
  unfold Buffer.find at hf
  obtain ⟨⟨n', t'⟩, he, rfl⟩ := Option.map_eq_some_iff.mp hf
  have hn := List.find?_some he
  simp only [decide_eq_true_eq] at hn
  subst hn
  exact (h.labels _ _).mp (List.mem_of_find?_eq_some he)

/-- A label that is not found has not been placed. -/
theorem Inv.find_none (h : Inv E xs b) (hf : b.find n = none) : Item.label n ∉ xs := by
  intro hmem
  obtain ⟨j, hj⟩ := List.mem_iff_getElem?.mp hmem
  unfold Buffer.find at hf
  have hnone := List.find?_eq_none.mp (Option.map_eq_none_iff.mp hf) _
    ((h.labels n _).mpr ⟨j, hj, rfl⟩)
  simp at hnone

/-- The branches that wait for `n`, when it has not been placed. -/
theorem Inv.mem_waiting {p : ℕ} (h : Inv E xs b) : p ∈ b.waiting n ↔
    (∃ k op, xs[k]? = some (.branch op n) ∧ E.pos xs k = p) ∧ Item.label n ∉ xs := by
  unfold Buffer.waiting
  rw [← h.pending n p]
  constructor
  · intro hp
    obtain ⟨⟨n', p'⟩, he, rfl⟩ := List.mem_map.mp hp
    obtain ⟨hmem, hn⟩ := List.mem_filter.mp he
    simp only [decide_eq_true_eq] at hn
    subst hn
    exact hmem
  · intro hp
    exact List.mem_map.mpr ⟨(n, p), List.mem_filter.mpr ⟨hp, by simp⟩, rfl⟩

theorem Inv.waiting_apart (h : Inv E xs b) : (b.waiting n).Pairwise fun p q => p + E.width ≤ q :=
  List.pairwise_map.mpr (h.apart.filter _)

/-- A branch is encoded at once if its label is placed, and waits otherwise. -/
theorem Inv.snoc_branch {op : Op} (h : Inv E xs b) (hd : Distinct xs) :
    Inv E (xs ++ [.branch op n]) (E.step b (.branch op n)) := by
  have hl : ∀ n', Item.branch op n ≠ (.label n' : Item Name Op α) := by simp
  have hidx : b.idx + E.width = E.total (xs ++ [.branch op n]) := by
    rw [total_append, total_singleton, ← h.idx]
    rfl
  have hnew : E.pos (xs ++ [.branch op n]) xs.length = b.idx := by
    rw [pos_snoc le_rfl, pos_length, h.idx]
  have hold : ∀ {k i : ℕ} {op' : Op} {n' : Name} (f : ℕ → α),
      xs[k]? = some (.branch op' n') → i < E.width →
      fill b.code b.idx E.width f (E.pos xs k + i) = b.code (E.pos xs k + i) := by
    intro k i op' n' f hk hi
    have hend : E.pos xs k + E.width ≤ E.total xs := branch_end_le hk
    exact fill_outside (Or.inl (by rw [h.idx]; omega))
  cases hf : b.find n with
  | some t =>
    obtain ⟨j₀, hj₀, ht⟩ := h.find_some hf
    have hplaced := mem_of_getElem?_label hj₀
    rw [step_branch_some hf]
    refine ⟨hidx, fun n' t => h.snoc_labels hl t, ?_, h.apart, ?_, ?_⟩
    · intro n' p
      rw [mem_snoc_label hl]
      refine (h.pending n' p).trans (and_congr_left fun hn' => ?_)
      constructor
      · rintro ⟨k, op', hk, rfl⟩
        exact ⟨k, op', getElem?_snoc.mpr (Or.inl hk), pos_snoc (lt_length_of_getElem? hk).le⟩
      · rintro ⟨k, op', hk, rfl⟩
        rcases getElem?_snoc_branch_cases hk with ⟨hk, hp⟩ | ⟨-, -, rfl⟩
        · exact ⟨k, op', hk, hp.symm⟩
        · exact absurd hplaced hn'
    · intro k op' n' i hk hn' hi
      rw [mem_snoc_label hl] at hn'
      rcases getElem?_snoc_branch_cases hk with ⟨hk, hp⟩ | ⟨-, -, rfl⟩
      · rw [hp]
        exact (hold _ hk hi).trans (h.hole k op' n' i hk hn' hi)
      · exact absurd hplaced hn'
    · intro k j op' n' i hk hj hi
      rw [getElem?_snoc_label hl] at hj
      rw [pos_snoc (lt_length_of_getElem? hj).le]
      rcases getElem?_snoc_branch_cases hk with ⟨hk, hp⟩ | ⟨rfl, rfl, rfl⟩
      · rw [hp]
        exact (hold _ hk hi).trans (h.closed k j op' n' i hk hj hi)
      · -- the label that was found is the only one of this name
        obtain rfl := hd _ _ _ hj₀ hj
        rw [hnew, Encoding.resolved, if_pos (lt_length_of_getElem? hj), ht]
        exact fill_inside hi
  | none =>
    have hno := h.find_none hf
    rw [step_branch_none hf]
    refine ⟨hidx, fun n' t => h.snoc_labels hl t, ?_, ?_, ?_, ?_⟩
    · intro n' p
      rw [mem_snoc_label hl, List.mem_append, List.mem_singleton, Prod.mk.injEq, h.pending n' p]
      constructor
      · rintro (⟨⟨k, op', hk, rfl⟩, hn'⟩ | ⟨rfl, rfl⟩)
        · exact ⟨⟨k, op', getElem?_snoc.mpr (Or.inl hk), pos_snoc (lt_length_of_getElem? hk).le⟩, hn'⟩
        · exact ⟨⟨xs.length, op, getElem?_snoc.mpr (Or.inr ⟨rfl, rfl⟩), hnew⟩, hno⟩
      · rintro ⟨⟨k, op', hk, rfl⟩, hn'⟩
        rcases getElem?_snoc_branch_cases hk with ⟨hk, hp⟩ | ⟨rfl, -, rfl⟩
        · exact Or.inl ⟨⟨k, op', hk, hp.symm⟩, hn'⟩
        · exact Or.inr ⟨rfl, hnew⟩
    · refine List.pairwise_append.mpr ⟨h.apart, List.pairwise_singleton _ _, ?_⟩
      rintro ⟨n', p⟩ hp e he
      obtain rfl := List.mem_singleton.mp he
      obtain ⟨⟨k, op', hk, rfl⟩, -⟩ := (h.pending n' p).mp hp
      rw [h.idx]
      exact branch_end_le hk
    · intro k op' n' i hk hn' hi
      rw [mem_snoc_label hl] at hn'
      rcases getElem?_snoc_branch_cases hk with ⟨hk, hp⟩ | ⟨rfl, rfl, rfl⟩
      · rw [hp]
        exact (hold _ hk hi).trans (h.hole k op' n' i hk hn' hi)
      · rw [hnew]
        exact fill_inside hi
    · intro k j op' n' i hk hj hi
      rw [getElem?_snoc_label hl] at hj
      rw [pos_snoc (lt_length_of_getElem? hj).le]
      rcases getElem?_snoc_branch_cases hk with ⟨hk, hp⟩ | ⟨-, -, rfl⟩
      · rw [hp]
        exact (hold _ hk hi).trans (h.closed k j op' n' i hk hj hi)
      · exact absurd (mem_of_getElem?_label hj) hno

/-- A label closes the branches that wait for it. -/
theorem Inv.snoc_label (h : Inv E xs b) (hno : Item.label n ∉ xs) :
    Inv E (xs ++ [.label n]) (E.step b (.label n)) := by
  have hb : ∀ op' n', Item.label n ≠ (.branch op' n' : Item Name Op α) := by simp
  have hend : E.pos (xs ++ [.label n]) xs.length = b.idx := by
    rw [pos_snoc le_rfl, pos_length, h.idx]
  have hmem : ∀ n', Item.label n' ∈ xs ++ [Item.label n] ↔ Item.label n' ∈ xs ∨ n' = n := by
    intro n'
    simp
  -- a branch to another name is not patched
  have hother : ∀ {k i : ℕ} {op : Op} {n' : Name}, xs[k]? = some (.branch op n') → n' ≠ n →
      i < E.width → (E.step b (.label n)).code (E.pos xs k + i) = b.code (E.pos xs k + i) := by
    intro k i op n' hk hne hi
    refine step_label_code fun p hp => ?_
    obtain ⟨⟨m, op', hm, rfl⟩, -⟩ := h.mem_waiting.mp hp
    rcases Nat.lt_trichotomy k m with hlt | rfl | hlt
    · have hle : E.pos xs k + E.width ≤ E.pos xs m := pos_add_size_le hk hlt
      omega
    · rw [hk] at hm
      exact absurd (Item.branch.inj (Option.some.inj hm)).2 hne
    · have hle : E.pos xs m + E.width ≤ E.pos xs k := pos_add_size_le hm hlt
      omega
  refine ⟨?_, ?_, ?_, ?_, ?_, ?_⟩
  · rw [total_append, total_singleton, ← h.idx]
    rfl
  · intro n' t
    change (n', t) ∈ b.labels ++ [(n, b.idx)] ↔ _
    rw [List.mem_append, List.mem_singleton, Prod.mk.injEq, h.labels n' t]
    constructor
    · rintro (⟨j, hj, rfl⟩ | ⟨rfl, rfl⟩)
      · exact ⟨j, getElem?_snoc.mpr (Or.inl hj), pos_snoc (lt_length_of_getElem? hj).le⟩
      · exact ⟨xs.length, getElem?_snoc.mpr (Or.inr ⟨rfl, rfl⟩), hend⟩
    · rintro ⟨j, hj, rfl⟩
      rcases getElem?_snoc.mp hj with hj | ⟨rfl, hx⟩
      · exact Or.inl ⟨j, hj, (pos_snoc (lt_length_of_getElem? hj).le).symm⟩
      · exact Or.inr ⟨(Item.label.inj hx).symm, hend⟩
  · intro n' p
    change (n', p) ∈ b.pending.filter (fun e => e.1 ≠ n) ↔ _
    rw [List.mem_filter, h.pending n' p, exists_branch_snoc hb, hmem]
    simp only [ne_eq, decide_eq_true_eq, not_or]
    exact and_assoc
  · exact h.apart.filter _
  · intro k op n' i hk hn' hi
    rw [getElem?_snoc_branch hb] at hk
    rw [hmem] at hn'
    rw [pos_snoc (lt_length_of_getElem? hk).le, hother hk (fun he => hn' (Or.inr he)) hi]
    exact h.hole k op n' i hk (fun hm => hn' (Or.inl hm)) hi
  · intro k j op n' i hk hj hi
    rw [getElem?_snoc_branch hb] at hk
    rw [pos_snoc (lt_length_of_getElem? hk).le]
    rcases getElem?_snoc.mp hj with hj' | ⟨rfl, hx⟩
    · have hne : n' ≠ n := by
        rintro rfl
        exact hno (mem_of_getElem?_label hj')
      rw [pos_snoc (lt_length_of_getElem? hj').le, hother hk hne hi]
      exact h.closed k j op n' i hk hj' hi
    · obtain rfl := Item.label.inj hx
      have hw : E.pos xs k ∈ b.waiting n := h.mem_waiting.mpr ⟨⟨k, op, hk, rfl⟩, hno⟩
      have hlt := lt_length_of_getElem? hk
      rw [hend, Encoding.resolved, if_neg (by omega), ← h.hole k op n i hk hno hi]
      exact foldl_patch_inside h.waiting_apart hw hi

/-- One more item. -/
theorem Inv.snoc (h : Inv E xs b) (hd : Distinct (xs ++ [x])) (hc : E.Clear (xs ++ [x])) :
    Inv E (xs ++ [x]) (E.step b x) := by
  cases x with
  | data w f store =>
    refine h.snoc_data (by simp) (by simp) fun k op n i hk hi => ?_
    have hend : E.pos xs k + E.width ≤ E.total xs := branch_end_le hk
    refine (fill_outside (Or.inl (by rw [h.idx]; omega))).trans ?_
    cases store with
    | none => rfl
    | some e =>
      obtain ⟨a, y⟩ := e
      have hlt := lt_length_of_getElem? hk
      have := hc k xs.length op n w f a y (getElem?_snoc.mpr (Or.inl hk))
        (getElem?_snoc.mpr (Or.inr ⟨rfl, rfl⟩)) hlt
      rw [pos_snoc hlt.le] at this
      exact Function.update_of_ne (by omega) _ _
  | branch op n => exact h.snoc_branch hd.of_snoc
  | label n =>
    refine h.snoc_label fun hmem => ?_
    obtain ⟨j, hj⟩ := List.mem_iff_getElem?.mp hmem
    have := hd j xs.length n (getElem?_snoc.mpr (Or.inl hj)) (getElem?_snoc.mpr (Or.inr ⟨rfl, rfl⟩))
    have := lt_length_of_getElem? hj
    omega

/-- The invariant holds after every run. -/
theorem inv_run (xs : List (Item Name Op α)) (code : ℕ → α) (hd : Distinct xs) (hc : E.Clear xs) :
    Inv E xs (E.run xs (.empty code)) := by
  induction xs using List.reverseRecOn with
  | nil => exact .empty code
  | append_singleton xs x ih =>
    have h := ih hd.of_snoc (Clear.of_snoc hc)
    rw [Encoding.run, List.foldl_append]
    exact h.snoc hd hc

/-- After a run, every branch whose label is placed is encoded for the label's
    position: at once when the label came first, else by patching its hole. -/
theorem final_cell {code : ℕ → α} {k j i : ℕ} {op : Op} (hd : Distinct xs) (hc : E.Clear xs)
    (hk : xs[k]? = some (.branch op n)) (hj : xs[j]? = some (.label n)) (hi : i < E.width) :
    (E.run xs (.empty code)).code (E.pos xs k + i) =
      E.resolved (j < k) op (E.pos xs k) (E.pos xs j) i :=
  (inv_run xs code hd hc).closed k j op n i hk hj hi

/-! ## What no condition on the labels is needed for -/

/-- A cell that neither the next item writes nor a waiting branch holds keeps its
    contents. -/
theorem step_code_of_settled {c : ℕ} (hc : c < b.idx ∨ b.idx + E.size x ≤ c)
    (hstore : ∀ w f a y, x = .data w f (some (a, y)) → a ≠ c)
    (hpending : ∀ n, x = .label n → ∀ p ∈ b.waiting n, c < p ∨ p + E.width ≤ c) :
    (E.step b x).code c = b.code c := by
  cases x with
  | data w f store =>
    refine (fill_outside hc).trans ?_
    cases store with
    | none => rfl
    | some e => exact Function.update_of_ne (hstore w f _ _ rfl).symm _ _
  | branch op n =>
    cases hf : b.find n with
    | some t =>
      rw [step_branch_some hf]
      exact fill_outside hc
    | none =>
      rw [step_branch_none hf]
      exact fill_outside hc
  | label n => exact step_label_code (hpending n rfl)

/-- A cell that is neither written by the items to come nor part of a waiting
    branch keeps its contents. -/
theorem run_code_of_settled {ys : List (Item Name Op α)} {c : ℕ}
    (hc : c < b.idx ∨ b.idx + E.total ys ≤ c)
    (hstore : ∀ w f a x, Item.data w f (some (a, x)) ∈ ys → a ≠ c)
    (hpending : ∀ e ∈ b.pending, c < e.2 ∨ e.2 + E.width ≤ c) :
    (E.run ys b).code c = b.code c := by
  induction ys generalizing b with
  | nil => rfl
  | cons y ys ih =>
    have htotal : E.total (y :: ys) = E.size y + E.total ys := List.sum_cons ..
    rw [htotal] at hc
    have hrest : ∀ w f a x, Item.data w f (some (a, x)) ∈ ys → a ≠ c := fun w f a x hm =>
      hstore w f a x (List.mem_cons_of_mem _ hm)
    have hidx := step_idx (E := E) b y
    have hcell : (E.step b y).code c = b.code c := by
      refine step_code_of_settled (by omega) (fun w f a x hy => ?_) fun n _ p hp => ?_
      · exact hstore w f a x (hy ▸ List.mem_cons_self ..)
      · obtain ⟨e, he, rfl⟩ := List.mem_map.mp hp
        exact hpending e (List.mem_of_mem_filter he)
    have hstep : ∀ e ∈ (E.step b y).pending, c < e.2 ∨ e.2 + E.width ≤ c := by
      intro e he
      rcases step_pending he with he | ⟨op, n, rfl, rfl⟩
      · exact hpending e he
      · have hsize : E.size (.branch op n : Item Name Op α) = E.width := rfl
        dsimp only
        omega
    rw [Encoding.run, List.foldl_cons]
    exact (ih (by omega) hrest hstep).trans hcell

theorem run_idx (xs : List (Item Name Op α)) (code : ℕ → α) :
    (E.run xs (.empty code)).idx = E.total xs := by
  induction xs using List.reverseRecOn with
  | nil => rfl
  | append_singleton xs x ih =>
    rw [total_append, total_singleton, ← ih, Encoding.run, List.foldl_append]
    exact step_idx _ x

/-- Only branches wait. -/
theorem run_pending {xs : List (Item Name Op α)} {code : ℕ → α} {e : Name × ℕ}
    (he : e ∈ (E.run xs (.empty code)).pending) :
    ∃ k op, xs[k]? = some (.branch op e.1) ∧ E.pos xs k = e.2 := by
  induction xs using List.reverseRecOn with
  | nil => exact absurd he List.not_mem_nil
  | append_singleton xs x ih =>
    rw [Encoding.run, List.foldl_append] at he
    rcases step_pending he with he | ⟨op, n, rfl, rfl⟩
    · obtain ⟨k, op, hk, hp⟩ := ih he
      exact ⟨k, op, getElem?_snoc.mpr (Or.inl hk),
        (pos_snoc (lt_length_of_getElem? hk).le).trans hp⟩
    · refine ⟨xs.length, op, getElem?_snoc.mpr (Or.inr ⟨rfl, rfl⟩), ?_⟩
      rw [pos_snoc le_rfl, pos_length, ← run_idx xs code]
      rfl

/-- A branch that waits at item `k` of a run lies in front of it. -/
theorem run_waiting {code : ℕ → α} {k p : ℕ}
    (hp : p ∈ (E.run (xs.take k) (.empty code)).waiting n) :
    ∃ m op, m < k ∧ xs[m]? = some (.branch op n) ∧ E.pos xs m = p := by
  obtain ⟨e, he, rfl⟩ := List.mem_map.mp hp
  obtain ⟨he, hn⟩ := List.mem_filter.mp he
  obtain ⟨m, op, hm, hpos⟩ := run_pending he
  obtain ⟨hmk, hm⟩ := getElem?_take_some hm
  rw [pos_take hmk.le] at hpos
  rw [of_decide_eq_true hn] at hm
  exact ⟨m, op, hmk, hm, hpos⟩

/-- A label placed during a run changes no cell but those of the branches to it
    that came before. -/
theorem label_changes {code : ℕ → α} {k c : ℕ}
    (hne : (E.step (E.run (xs.take k) (.empty code)) (.label n)).code c ≠
      (E.run (xs.take k) (.empty code)).code c) :
    ∃ m op, m < k ∧ xs[m]? = some (.branch op n) ∧ E.pos xs m ≤ c ∧ c < E.pos xs m + E.width := by
  by_contra hno
  refine hne (step_label_code fun p hp => ?_)
  obtain ⟨m, op, hmk, hm, rfl⟩ := run_waiting hp
  by_contra hin
  exact hno ⟨m, op, hmk, hm, by omega, by omega⟩

/-- What follows item `k` of a run leaves a cell alone that no later store hits
    and no later item lies at, if no branch in front of it does. -/
theorem run_cell_of_take {code : ℕ → α} {k c : ℕ} (hout : c < E.pos xs k ∨ E.total xs ≤ c)
    (hbranch : ∀ m op n, m < k → xs[m]? = some (.branch op n) →
      c < E.pos xs m ∨ E.pos xs m + E.width ≤ c)
    (hstore : ∀ m w f a y, k ≤ m → xs[m]? = some (.data w f (some (a, y))) → a ≠ c) :
    (E.run xs (.empty code)).code c = (E.run (xs.take k) (.empty code)).code c := by
  have hidx : (E.run (xs.take k) (.empty code)).idx = E.pos xs k := run_idx _ code
  have htotal : E.total xs = E.pos xs k + E.total (xs.drop k) := by
    conv_lhs => rw [← List.take_append_drop k xs]
    rw [total_append]
    rfl
  have hrun : E.run xs (.empty code) = E.run (xs.drop k) (E.run (xs.take k) (.empty code)) := by
    conv_lhs => rw [← List.take_append_drop k xs]
    rw [Encoding.run, List.foldl_append]
    rfl
  rw [hrun]
  refine run_code_of_settled ?_ ?_ ?_
  · rw [hidx, ← htotal]
    exact hout
  · intro w f a y hm
    obtain ⟨m, hm⟩ := List.mem_iff_getElem?.mp hm
    rw [List.getElem?_drop] at hm
    exact hstore _ w f a y (Nat.le_add_right _ _) hm
  · rintro ⟨n, p⟩ he
    obtain ⟨m, op, hm, rfl⟩ := run_pending he
    obtain ⟨hmk, hm⟩ := getElem?_take_some hm
    rw [pos_take hmk.le]
    exact hbranch m op n hmk hm

/-- The state of a run behind item `k`. -/
theorem run_take_succ {code : ℕ → α} {k : ℕ} (hk : xs[k]? = some x) :
    E.run (xs.take (k + 1)) (.empty code) = E.step (E.run (xs.take k) (.empty code)) x := by
  obtain ⟨hlt, rfl⟩ := List.getElem?_eq_some_iff.mp hk
  rw [List.take_succ_eq_append_getElem hlt, Encoding.run, List.foldl_append]
  rfl

/-- After a run, a piece of data is still there, if no later store hits it. -/
theorem data_cell {code : ℕ → α} {k w i : ℕ} {f : ℕ → α} {store : Option (ℕ × α)}
    (hk : xs[k]? = some (.data w f store)) (hi : i < w)
    (hstore : ∀ m w' f' a y, k < m → xs[m]? = some (.data w' f' (some (a, y))) →
      a ≠ E.pos xs k + i) :
    (E.run xs (.empty code)).code (E.pos xs k + i) = f i := by
  have hend : E.pos xs (k + 1) = E.pos xs k + w := pos_succ hk
  rw [run_cell_of_take (k := k + 1)]
  · have hidx : (E.run (xs.take k) (.empty code)).idx = E.pos xs k := run_idx _ code
    rw [run_take_succ hk, ← hidx]
    exact fill_inside hi
  · omega
  · intro m op n hm hb
    right
    rcases Nat.lt_or_ge m k with hmk | hmk
    · have := pos_add_size_le (E := E) hb hmk
      change E.pos xs m + E.width ≤ _ at this
      omega
    · obtain rfl : m = k := by omega
      rw [hk] at hb
      exact absurd (Option.some.inj hb) (by simp)
  · exact fun m w' f' a y hm => hstore m w' f' a y hm

/-- After a run, a stored cell behind the code is still there, if no later store
    hits it. -/
theorem store_cell {code : ℕ → α} {k w a : ℕ} {f : ℕ → α} {y : α}
    (hk : xs[k]? = some (.data w f (some (a, y)))) (hout : E.total xs ≤ a)
    (hstore : ∀ m w' f' a' y', k < m → xs[m]? = some (.data w' f' (some (a', y'))) → a' ≠ a) :
    (E.run xs (.empty code)).code a = y := by
  rw [run_cell_of_take (k := k + 1) (Or.inr hout)]
  · have hidx : (E.run (xs.take k) (.empty code)).idx = E.pos xs k := run_idx _ code
    have hend : E.pos xs k + w ≤ E.total xs := pos_add_size_le_total (E := E) hk
    rw [run_take_succ hk, step_data]
    refine (fill_outside (Or.inr (by omega))).trans ?_
    exact Function.update_self ..
  · intro m op n _ hb
    have : E.pos xs m + E.width ≤ E.total xs := pos_add_size_le_total (E := E) hb
    omega
  · exact fun m w' f' a' y' hm => hstore m w' f' a' y' hm

end Runs

end Backpatch
