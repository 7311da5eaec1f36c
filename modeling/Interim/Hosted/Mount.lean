import Interim.Hosted.Allocation

/-!
# Mounting posixfs

`mount_posixfs` puts a file system with the handlers of `posixfs.c` in front of
`fs_list`; `Mounted` says which cells and blocks it consists of. They are
reachable from `fs_list`, so no collection touches them.

Main result: `mountPosixfs_mounted`.
-/

namespace Interim.Hosted

open Writer (ascii cellAt car cdr cString)
open Compiler (allocList)
open Heap

/-! ## The mounted driver -/

/-- The cells and the block of a mounted file system. -/
structure Mount where
  list : ℕ
  fsCell : ℕ
  fs : ℕ
  path : ℕ
  openCell : ℕ
  readCell : ℕ

/-- The first file system of `fs_list` is posixfs at `/sd`. -/
structure Mounted (h : Heap) (fsl : Word) (m : Mount) : Prop where
  list : fsl = .cell m.list
  head : ∃ rest, h.cells m.list = ⟨.cell m.fsCell, rest, tagCons⟩
  tag : (h.cells m.fsCell).tag = tagFs
  fs : (h.cells m.fsCell).dr = .ptr (.filesystem m.fs) 0
  mountPoint : (h.filesystems m.fs).mountPoint = .cell m.path
  text : HasText h m.path (ascii "/sd")
  openFn : (h.filesystems m.fs).openFn = .cell m.openCell
  opens : (h.cells m.openCell).dr = funcPosixfsOpen
  readFn : (h.filesystems m.fs).readFn = .cell m.readCell
  reads : (h.cells m.readCell).dr = funcPosixfsRead

variable {env : List EnvEntry} {fsl : Word} {h h' : Heap} {U U' : Set ℕ} {i n : ℕ} {m : Mount}

/-- The cells of a mounted file system are reachable from `fs_list`. -/
theorem Mounted.usable (hm : Mounted h fsl m) (hroot : ∀ j, fsl = .cell j → j ∈ U)
    (hcl : Reach.Closed h.Edge U) :
    m.list ∈ U ∧ m.fsCell ∈ U ∧ m.path ∈ U ∧ m.openCell ∈ U ∧ m.readCell ∈ U := by
  obtain ⟨rest, hhead⟩ := hm.head
  have hlist : m.list ∈ U := hroot _ hm.list
  have hkids : h.children m.list = .ok [.cell m.fsCell, rest] := by
    unfold children
    simp [hhead]
  have hfs : m.fsCell ∈ U := hcl _ hlist _ ⟨_, hkids, by simp⟩
  have hkids' : ∃ ws, h.children m.fsCell = .ok ws ∧ Word.cell m.path ∈ ws ∧
      Word.cell m.openCell ∈ ws ∧ Word.cell m.readCell ∈ ws := by
    unfold children
    simp [hm.tag, hm.fs, hm.mountPoint, hm.openFn, hm.readFn]
  obtain ⟨ws, hws, h1, h2, h3⟩ := hkids'
  exact ⟨hlist, hfs, hcl _ hfs _ ⟨ws, hws, h1⟩, hcl _ hfs _ ⟨ws, hws, h2⟩,
    hcl _ hfs _ ⟨ws, hws, h3⟩⟩

theorem Sound.fsl_mem (hs : Sound env fsl h U) : ∀ j, fsl = .cell j → j ∈ U := by
  intro j hj
  apply hs.roots
  simp [RunState.roots, hj]

theorem Mounted.agrees (hm : Mounted h fsl m)
    (hU : m.list ∈ U ∧ m.fsCell ∈ U ∧ m.path ∈ U ∧ m.openCell ∈ U ∧ m.readCell ∈ U)
    (ha : Agrees n U h h') : Mounted h' fsl m where
  list := hm.list
  head := by rw [ha.cells _ hU.1]; exact hm.head
  tag := by rw [ha.cells _ hU.2.1]; exact hm.tag
  fs := by rw [ha.cells _ hU.2.1]; exact hm.fs
  mountPoint := by rw [ha.filesystems]; exact hm.mountPoint
  text := hm.text.agrees hU.2.2.1 ha
  openFn := by rw [ha.filesystems]; exact hm.openFn
  opens := by rw [ha.cells _ hU.2.2.2.1]; exact hm.opens
  readFn := by rw [ha.filesystems]; exact hm.readFn
  reads := by rw [ha.cells _ hU.2.2.2.2]; exact hm.reads

/-! ## `fs_mount_builtin` -/

/-- `wrap_in_lambda`. -/
theorem Grows.wrapInLambda (hs : Sound env fsl h U) {cfunc : Word}
    (ha : wrapInLambda h cfunc = .ok (i, h')) :
    ∃ U', Grows env fsl n h U h' U' ∧ i ∈ U' ∧ (h'.cells i).dr = cfunc := by
  obtain ⟨⟨a, h₁⟩, h1, ha⟩ := bind_ok.mp ha
  obtain ⟨⟨j, h₂⟩, h2, ha⟩ := bind_ok.mp ha
  obtain ⟨rfl, rfl⟩ := Prod.mk.inj (Except.ok.inj ha)
  obtain ⟨⟨j', h₃⟩, h3, h2⟩ := bind_ok.mp h2
  obtain ⟨rfl, rfl⟩ := Prod.mk.inj (Except.ok.inj h2)
  obtain ⟨g₁, -⟩ := Grows.allocNil (n := n) hs h1
  -- the two assignments to the lambda cell are one
  have hcell : ∀ c : Cell, (h₃.setCell j' c).setCell j'
      { (h₃.setCell j' c).cells j' with dr := cfunc } = h₃.setCell j' { c with dr := cfunc } := by
    intro c
    unfold setCell
    simp
  rw [hcell]
  have g₂ : Grows env fsl n h₁ (insert a U) (h₃.setCell j' ⟨.cell a, cfunc, tagLambda⟩)
      (insert j' (insert a U)) := by
    refine Grows.fill g₁.sound h3 (fun _ _ => rfl) le_rfl
      (show tagLambda &&& tagMark = 0 by decide) ?_
    rintro k ⟨ws, hws, hk⟩
    have hkids : (filled h₃ j' ⟨.cell a, cfunc, tagLambda⟩ h₃.bytes h₃.bytesUsed).children j' =
        .ok [.cell a] := by
      unfold children
      rw [filled_cells_self]
      rfl
    obtain rfl := Except.ok.inj (hkids.symm.trans hws)
    rw [List.mem_singleton] at hk
    cases hk
    exact Set.mem_insert_of_mem _ (Set.mem_insert _ _)
  refine ⟨_, g₁.trans g₂, Set.mem_insert _ _, ?_⟩
  rw [setCell_cells, Function.update_self]

/-- Cell `i` starts a list of the given words, all of whose cells are in `U`. -/
def IsList (h : Heap) (U : Set ℕ) (i : ℕ) : List Word → Prop
  | [] => i ∈ U
  | w :: ws => i ∈ U ∧ ∃ l, h.cells i = ⟨w, .cell l, tagCons⟩ ∧ IsList h U l ws

theorem IsList.agrees {ws : List Word} (ha : Agrees n U h h') (hU : U ⊆ U') :
    ∀ {i : ℕ}, IsList h U i ws → IsList h' U' i ws := by
  induction ws with
  | nil => intro i hi; exact hU hi
  | cons w ws ih =>
    intro i hi
    obtain ⟨hiU, l, hc, hl⟩ := hi
    exact ⟨hU hiU, l, by rw [ha.cells i hiU]; exact hc, ih hl⟩

/-- `alloc_list` of usable cells. -/
theorem Grows.allocList {ws : List Word} :
    ∀ {i : ℕ} {h' : Heap}, Sound env fsl h U → (∀ j, .cell j ∈ ws → j ∈ U) →
      allocList h ws = .ok (i, h') →
      ∃ U', Grows env fsl n h U h' U' ∧ IsList h' U' i ws := by
  induction ws with
  | nil =>
    intro i h' hs _ ha
    obtain ⟨g, -⟩ := Grows.allocNil (n := n) hs ha
    exact ⟨_, g, Set.mem_insert _ _⟩
  | cons w ws ih =>
    intro i h' hs hw ha
    obtain ⟨⟨l, h₁⟩, h1, ha⟩ := bind_ok.mp ha
    obtain ⟨U₁, g₁, hl⟩ := ih hs (fun j hj => hw j (List.mem_cons_of_mem _ hj)) h1
    have hlU : l ∈ U₁ := by
      cases ws with
      | nil => exact hl
      | cons _ _ => exact hl.1
    obtain ⟨g₂, hc⟩ := Grows.allocCons (n := n) g₁.sound (a := w) (d := .cell l)
      (by
        intro j hj
        rcases hj with rfl | hj
        · exact g₁.usable (hw j List.mem_cons_self)
        · cases hj
          exact hlU) ha
    exact ⟨_, g₁.trans g₂, Set.mem_insert _ _, l, hc, hl.agrees g₂.toAgrees g₂.usable⟩

theorem car_cell (h : Heap) (i : ℕ) : car h (.cell i) = .ok (h.cells i).ar := rfl

theorem cdr_cell (h : Heap) (i : ℕ) : cdr h (.cell i) = .ok (h.cells i).dr := rfl

/-- The cells a `Filesystem` block points to. -/
def fsWords (f : Filesystem) : List Word :=
  [f.mountPoint, f.openFn, f.closeFn, f.readFn, f.writeFn, f.deleteFn, f.mmapFn]

theorem children_fs {k : ℕ} (ht : (h.cells i).tag = tagFs)
    (hd : (h.cells i).dr = .ptr (.filesystem k) 0) :
    h.children i = .ok (fsWords (h.filesystems k)) := by
  unfold children
  simp [ht, hd, fsWords]

/-- A new `Filesystem` block whose cells are usable. -/
theorem Sound.setFilesystem (hs : Sound env fsl h U) (k : ℕ) (f : Filesystem) {p : ℕ} (hp : p ∈ U)
    (hf : ∀ j, .cell j ∈ fsWords f → j ∈ U) :
    Sound env fsl { h with filesystems := Function.update h.filesystems k f } U := by
  refine hs.write _ hp rfl rfl rfl (fun _ _ => rfl) (hs.unmarked p) ?_
  rintro a b ⟨ws, hws, hb⟩
  by_cases hst : (h.cells a).tag = tagFs ∧ (h.cells a).dr = .ptr (.filesystem k) 0
  · left
    have hkids := children_fs (h := { h with filesystems := Function.update h.filesystems k f })
      hst.1 hst.2
    obtain rfl := Except.ok.inj (hkids.symm.trans hws)
    simp only [Function.update_self] at hb
    exact hf b hb
  · right
    refine ⟨ws, ?_, hb⟩
    unfold children elements at hws ⊢
    by_cases ht : (h.cells a).tag = tagFs
    · simp only [ht, true_and] at hst
      simp only [ht] at hws ⊢
      rw [← hws]
      simp only [show ¬ tagFs = tagCons by decide, show ¬ tagFs = tagLambda by decide,
        show ¬ tagFs = tagBuiltin by decide, show ¬ tagFs = tagStream by decide, if_false, if_true]
      split
      · rfl
      · rename_i k' off hdr
        by_cases ho : off = 0
        · have hk : k' ≠ k := by
            rintro rfl
            exact hst (by rw [hdr, ho])
          rw [Function.update_of_ne hk]
        · simp [ho]
      · rfl
    · simpa [ht] using hws

/-- The new root of `fs_list`. -/
theorem Sound.setFsList (hs : Sound env fsl h U) (hi : i ∈ U) : Sound env (.cell i) h U := by
  refine ⟨?_, hs.closed, hs.usable_lt, hs.handed, hs.nodup, hs.free, hs.unused, hs.unmarked,
    hs.edge_lt, hs.consumed_le, hs.length_le, hs.cellsUsed_le⟩
  intro j hj
  rcases List.mem_append.mp hj with hj | hj
  · exact hs.roots j (List.mem_append_left _ hj)
  · rw [List.mem_singleton] at hj
    cases hj
    exact hi

/-- The cell of a new file system. -/
theorem newFs_spec (hs : Sound env fsl h U) {k : ℕ} {v : BitVec 64} {f : Filesystem} {h₁ : Heap}
    (hf : ∀ j, .cell j ∈ fsWords f → j ∈ U)
    (ha : { h with filesystems := Function.update h.filesystems k f }.allocInt v = .ok (i, h₁))
    {p : ℕ} (hp : p ∈ U) :
    let h₂ := h₁.setCell i { h₁.cells i with dr := .ptr (.filesystem k) 0, tag := tagFs }
    Sound env fsl h₂ (insert i U) ∧ (∀ a ∈ U, h₂.cells a = h.cells a) ∧
      (∀ b < h.bytesUsed, h₂.bytes b = h.bytes b) ∧ h.bytesUsed ≤ h₂.bytesUsed ∧
      (h₂.cells i).tag = tagFs ∧ (h₂.cells i).dr = .ptr (.filesystem k) 0 ∧
      h₂.filesystems k = f := by
  intro h₂
  obtain ⟨g, hi, hel, hst⟩ := Grows.allocInt (n := 0) (hs.setFilesystem k f hp hf) ha
  have hcell : h₂.cells i = { h₁.cells i with dr := .ptr (.filesystem k) 0, tag := tagFs } :=
    Function.update_self _ _ _
  have hother : ∀ a, a ≠ i → h₂.cells a = h₁.cells a := fun a hne => Function.update_of_ne hne _ _
  have hblock : h₂.filesystems k = f := by
    change h₁.filesystems k = f
    rw [g.filesystems]
    exact Function.update_self _ _ _
  have htag : (h₂.cells i).tag = tagFs := by rw [hcell]
  have hdr : (h₂.cells i).dr = .ptr (.filesystem k) 0 := by rw [hcell]
  refine ⟨?_, ?_, g.bytes, g.bytesUsed, htag, hdr, hblock⟩
  · refine g.sound.write h₂ (Set.mem_insert i U) rfl rfl rfl hother ?_ ?_
    · rw [htag]; decide
    · intro a b hab
      by_cases hai : a = i
      · left
        obtain ⟨ws, hws, hb⟩ := hab
        rw [hai, children_fs htag hdr, hblock] at hws
        obtain rfl := Except.ok.inj hws
        exact Set.mem_insert_of_mem _ (hf b hb)
      · right
        exact edge_congr (hother a hai) rfl rfl rfl hab
  · intro a haU
    rw [hother a fun he => hi (he ▸ haU)]
    exact g.cells a haU

/-- `fs_mount` with a list of handlers whose first two are those of posixfs. -/
theorem fsMount_mounted {s s' : FsState} {p l o r : ℕ} {w d c : Word}
    (hs : Sound env s.fsList s.heap U) (hp : p ∈ U) (ht : HasText s.heap p (ascii "/sd"))
    (hl : IsList s.heap U l [.cell o, .cell r, w, d, c])
    (hU : ∀ j, .cell j ∈ [.cell o, .cell r, w, d, c] → j ∈ U)
    (ho : (s.heap.cells o).dr = funcPosixfsOpen) (hr : (s.heap.cells r).dr = funcPosixfsRead)
    (ha : fsMount s (.cell p) (.cell l) = .ok s') :
    ∃ U' m, Sound env s'.fsList s'.heap U' ∧ Mounted s'.heap s'.fsList m := by
  obtain ⟨-, l₁, c₁, -, l₂, c₂, -, l₃, c₃, -, l₄, c₄, -, l₅, c₅, -⟩ := hl
  unfold fsMount at ha
  simp only [car_cell, cdr_cell, ok_bind, c₁, c₂, c₃, c₄, c₅] at ha
  obtain ⟨⟨i, h₁⟩, h1, ha⟩ := bind_ok.mp ha
  obtain ⟨⟨l', h₂⟩, h2, ha⟩ := bind_ok.mp ha
  obtain rfl := Except.ok.inj ha
  have hf : ∀ j, .cell j ∈ fsWords ⟨.cell p, .cell o, .null, .cell r, w, d, c⟩ → j ∈ U := by
    intro j hj
    simp only [fsWords, List.mem_cons, List.not_mem_nil, or_false] at hj hU
    rcases hj with hj | hj | hj | hj | hj | hj | hj
    · cases hj; exact hp
    · exact hU j (Or.inl hj)
    · cases hj
    · exact hU j (Or.inr (Or.inl hj))
    · exact hU j (Or.inr (Or.inr (Or.inl hj)))
    · exact hU j (Or.inr (Or.inr (Or.inr (Or.inl hj))))
    · exact hU j (Or.inr (Or.inr (Or.inr (Or.inr hj))))
  obtain ⟨hs₁, hcells, hbytes, hused, htag, hdr, hblock⟩ := newFs_spec hs hf h1 hp
  obtain ⟨g, hcons⟩ := Grows.allocCons (n := 0) hs₁
    (by
      intro j hj
      rcases hj with hj | hj
      · cases hj
        exact Set.mem_insert _ _
      · exact Set.mem_insert_of_mem _ (hs.fsl_mem j hj)) h2
  have hiU : i ∈ insert i U := Set.mem_insert _ _
  have hoU : o ∈ U := hU o (by simp)
  have hrU : r ∈ U := hU r (by simp)
  have hkeep : ∀ a ∈ U, h₂.cells a = s.heap.cells a := fun a haU =>
    (g.cells a (Set.mem_insert_of_mem _ haU)).trans (hcells a haU)
  have htext : HasText h₂ p (ascii "/sd") :=
    ht.congr (hkeep p hp)
      (fun b hb => (g.bytes b (lt_of_lt_of_le hb hused)).trans (hbytes b hb))
      (hused.trans g.bytesUsed)
  refine ⟨_, ⟨l', i, s.filesystemsUsed, p, o, r⟩, g.sound.setFsList (Set.mem_insert _ _), ?_⟩
  constructor
  · rfl
  · exact ⟨s.fsList, hcons⟩
  · rw [g.cells i hiU]; exact htag
  · rw [g.cells i hiU]; exact hdr
  · rw [g.filesystems, hblock]
  · exact htext
  · rw [g.filesystems, hblock]
  · rw [hkeep o hoU]; exact ho
  · rw [g.filesystems, hblock]
  · rw [hkeep r hrU]; exact hr

/-- **Mounting.** On any memory the allocator's runs can reach, a
    `mount_posixfs` that returns leaves posixfs first in `fs_list`. -/
theorem mountPosixfs_mounted {s s' : FsState} (hs : Sound env s.fsList s.heap U)
    (ha : mountPosixfs s = .ok s') :
    ∃ U' m, Sound env s'.fsList s'.heap U' ∧ Mounted s'.heap s'.fsList m := by
  obtain ⟨⟨o, h₁⟩, h1, ha⟩ := bind_ok.mp ha
  obtain ⟨⟨r, h₂⟩, h2, ha⟩ := bind_ok.mp ha
  obtain ⟨⟨w, h₃⟩, h3, ha⟩ := bind_ok.mp ha
  obtain ⟨⟨d, h₄⟩, h4, ha⟩ := bind_ok.mp ha
  obtain ⟨⟨c, h₅⟩, h5, ha⟩ := bind_ok.mp ha
  obtain ⟨⟨l, h₆⟩, h6, ha⟩ := bind_ok.mp ha
  obtain ⟨⟨p, h₇⟩, h7, ha⟩ := bind_ok.mp ha
  obtain ⟨U₁, g₁, ho, hfo⟩ := Grows.wrapInLambda (n := 0) hs h1
  obtain ⟨U₂, g₂, hr, hfr⟩ := Grows.wrapInLambda (n := 0) g₁.sound h2
  obtain ⟨U₃, g₃, hw, -⟩ := Grows.wrapInLambda (n := 0) g₂.sound h3
  obtain ⟨U₄, g₄, hd, -⟩ := Grows.wrapInLambda (n := 0) g₃.sound h4
  obtain ⟨U₅, g₅, hc, -⟩ := Grows.wrapInLambda (n := 0) g₄.sound h5
  have g₃₅ := (g₃.trans g₄).trans g₅
  have hU₅ : ∀ j, .cell j ∈ [Word.cell o, .cell r, .cell w, .cell d, .cell c] → j ∈ U₅ := by
    intro j hj
    simp only [List.mem_cons, List.not_mem_nil, or_false, Word.ptr.injEq, Block.cell.injEq,
      and_true] at hj
    rcases hj with rfl | rfl | rfl | rfl | rfl
    · exact g₃₅.usable (g₂.usable ho)
    · exact g₃₅.usable hr
    · exact g₅.usable (g₄.usable hw)
    · exact g₅.usable hd
    · exact hc
  obtain ⟨U₆, g₆, hl⟩ := Grows.allocList (n := 0) g₅.sound hU₅ h6
  obtain ⟨g₇, ht⟩ := Grows.allocStringCopy (n := 0) g₆.sound (by decide) h7
  have g₃₇ := (g₃₅.trans g₆).trans g₇
  refine fsMount_mounted (s := { s with heap := h₇ }) g₇.sound (Set.mem_insert _ _) ht.1
    (hl.agrees g₇.toAgrees g₇.usable) (fun j hj => g₇.usable (g₆.usable (hU₅ j hj))) ?_ ?_ ha
  · change (h₇.cells o).dr = _
    rw [g₃₇.cells o (g₂.usable ho), g₂.cells o ho]
    exact hfo
  · change (h₇.cells r).dr = _
    rw [g₃₇.cells r hr]
    exact hfr

end Interim.Hosted
