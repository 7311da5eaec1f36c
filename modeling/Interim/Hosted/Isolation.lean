import Interim.Hosted.Mount

/-!
# Streams of the hosted file system over whole runs

`posixfs_open` parks what it read in the one variable `_file_cell`, and
`posixfs_read` returns that variable for every stream. The parked cell is
replaced by the next open, and since `_file_cell` is no root of the collector,
a `(gc)` frees it unless something else reaches it.

A run of a program keeps its streams in global variables; besides the memory a
`World` records the path each variable's stream was opened with, and the path
whose content is still parked.

* `streamRead_own`: in every run whose reads all meet `Meets`, every read that
  meets it returns the content of the stream's own path.
* `streamRead_foreign`: without that, a read returns the content of another
  path.
-/

namespace Interim.Hosted

open Writer (ascii cellAt car cdr cString)
open Compiler (allocList insertSymbol)
open Heap

/-! ## Runs -/

/-- A running program: the memory and the statics, the global environment, the
    path each global variable's stream was opened with, and the path whose
    content `_file_cell` still holds. -/
structure World where
  fs : FsState
  env : List EnvEntry
  opened : List UInt8 → Option (List UInt8)
  parked : Option (List UInt8)

/-- The value of a global variable. -/
def globalOf (env : List EnvEntry) (name : List UInt8) : Word :=
  ((env.find? fun e => e.name = name).map EnvEntry.cell).getD .null

/-- The cells marked by a collection with the given words on the stack. -/
def World.live (w : World) (stackWords : List Word) : Set ℕ :=
  w.fs.heap.live stackWords w.env w.fs.fsList

open Classical in
/-- What is parked after a collection. -/
noncomputable def World.parkedAfter (w : World) (stackWords : List Word) : Option (List UInt8) :=
  if ∃ j ∈ w.live stackWords, w.fs.fileCell = .cell j then w.parked else none

/-- One step of a program, whose reads all satisfy `ok`.

    * `string`: `(def name "text")`
    * `opened`: `(def name (open path))`, for a path under `/sd` in a global
      variable
    * `received`: `(def name (recv stream))`
    * `collected`: `(gc)` -/
inductive Step (host : Host) (ok : World → List UInt8 → Prop) : World → World → Prop
  | string {w : World} {name text : List UInt8} {i : ℕ} {h' : Heap}
      (hname : name.length < maxSymbolSize) (h0 : 0 ∉ text)
      (ha : Compiler.allocStringCopy w.fs.heap text = .ok (i, h')) :
      Step host ok w
        { w with
          fs := { w.fs with heap := h' }
          env := insertSymbol w.env name (.cell i)
          opened := Function.update w.opened name none }
  | opened {w : World} {name path text : List UInt8} {n p : ℕ} {stream : Word} {s' : FsState}
      (hname : name.length < maxSymbolSize) (hp : globalOf w.env path = .cell p)
      (ht : HasText w.fs.heap p text)
      (hsd : ascii "/sd" <+: text) (ha : fsOpen host n w.fs (.cell p) = .ok (stream, s')) :
      Step host ok w
        { fs := s'
          env := insertSymbol w.env name stream
          opened := Function.update w.opened name (some text)
          parked := some text }
  | received {w : World} {name var text : List UInt8} {r : Word} {s' : FsState}
      (hname : name.length < maxSymbolSize) (ho : w.opened var = some text) (hok : ok w var)
      (ha : streamRead host w.fs (globalOf w.env var) = .ok (r, s')) :
      Step host ok w
        { w with
          fs := s'
          env := insertSymbol w.env name r
          opened := Function.update w.opened name none }
  | collected {w : World} {n i : ℕ} {h' : Heap} (L : Layout) (stack : ℤ → Word)
      (stackEnd stackPointer : ℤ)
      (hstack : ∀ v ∈ stackRoots L stack stackEnd stackPointer, w.fs.heap.ValidRef v)
      (ha : w.fs.heap.collectGarbage n w.env w.fs.fsList L stack stackEnd stackPointer =
        .ok (i, h')) :
      Step host ok w
        { w with
          fs := { w.fs with heap := h' }
          parked := w.parkedAfter (stackRoots L stack stackEnd stackPointer) }

/-- The state `mount_posixfs` leaves behind, on any memory the allocator's runs
    can reach. -/
def Booted (w : World) : Prop :=
  ∃ s U, Sound w.env s.fsList s.heap U ∧ mountPosixfs s = .ok w.fs ∧
    (∀ name, w.opened name = none) ∧ w.parked = none

/-- The states of the runs whose reads all satisfy `ok`. -/
def Reachable (host : Host) (ok : World → List UInt8 → Prop) (w : World) : Prop :=
  ∃ w₀, Booted w₀ ∧ Relation.ReflTransGen (Step host ok) w₀ w

/-- A read of the stream in `var` returns the content of the path it was opened
    with. -/
def ReadsOwn (host : Host) (w : World) (var : List UInt8) : Prop :=
  ∀ p, w.opened var = some p → ∃ r,
    streamRead host w.fs (globalOf w.env var) = .ok (r, w.fs) ∧
      contentOf w.fs.heap r = some (pathContent host p)

/-- What is parked is the content of the path the stream in `var` was opened
    with. -/
def Meets (host : Host) (w : World) (var : List UInt8) : Prop :=
  ∃ p q, w.opened var = some p ∧ w.parked = some q ∧ pathContent host q = pathContent host p

/-! ## Global variables -/

theorem globalOf_insertSymbol_self (env : List EnvEntry) (name : List UInt8) (v : Word) :
    globalOf (insertSymbol env name v) name = v := by
  unfold globalOf insertSymbol
  split
  · rename_i hany
    induction env with
    | nil => simp at hany
    | cons e env ih =>
      by_cases he : e.name = name
      · simp [he]
      · have hrest : (env.any fun e => e.name = name) = true := by simpa [he] using hany
        simpa [he] using ih hrest
  · rename_i hany
    have hnone : env.find? (fun e => decide (e.name = name)) = none := by
      simpa using hany
    rw [List.find?_append, hnone]
    simp

theorem globalOf_insertSymbol_of_ne (env : List EnvEntry) {name other : List UInt8} (v : Word)
    (hne : other ≠ name) : globalOf (insertSymbol env name v) other = globalOf env other := by
  unfold globalOf insertSymbol
  split
  · rename_i hany
    clear hany
    induction env with
    | nil => rfl
    | cons e env ih =>
      by_cases he : e.name = name
      · have hne' : e.name ≠ other := by rw [he]; exact hne.symm
        simpa [he, hne.symm] using ih
      · by_cases ho : e.name = other
        · simp [ho, hne]
        · simpa [he, ho] using ih
  · rw [List.find?_append]
    have hnone : List.find? (fun e : EnvEntry => decide (e.name = other)) [⟨v, name⟩] = none := by
      simp [hne.symm]
    rw [hnone, Option.or_none]

theorem mem_insertSymbol {env : List EnvEntry} {name : List UInt8} {v : Word} {e : EnvEntry}
    (he : e ∈ insertSymbol env name v) : e.cell = v ∨ ∃ e' ∈ env, e.cell = e'.cell := by
  unfold insertSymbol at he
  split at he
  · obtain ⟨e', he', rfl⟩ := List.mem_map.mp he
    split
    · exact Or.inl rfl
    · exact Or.inr ⟨e', he', rfl⟩
  · rcases List.mem_append.mp he with he | he
    · exact Or.inr ⟨e, he, rfl⟩
    · rw [List.mem_singleton] at he
      exact Or.inl (by rw [he])

theorem globalOf_mem {env : List EnvEntry} {name : List UInt8} {i : ℕ}
    (hg : globalOf env name = .cell i) : ∃ e ∈ env, e.cell = .cell i := by
  unfold globalOf at hg
  cases hf : env.find? (fun e => decide (e.name = name)) with
  | none => rw [hf] at hg; simp at hg
  | some e =>
    rw [hf] at hg
    exact ⟨e, List.mem_of_find?_eq_some hf, hg⟩

variable {env : List EnvEntry} {fsl : Word} {h h' : Heap} {U U' : Set ℕ} {i n : ℕ} {m : Mount}
  {host : Host}

/-! ## `fs_open` and `stream_read` on the mounted driver -/

/-- Cell `i` is a stream of the mounted file system, among the first `n`. -/
structure IsStream (h : Heap) (m : Mount) (n i : ℕ) : Prop where
  tag : (h.cells i).tag = tagStream
  stream : ∃ k < n, (h.cells i).ar = .ptr (.stream k) 0 ∧
    (h.streams k).fs = .ptr (.filesystem m.fs) 0

theorem IsStream.agrees (hi : IsStream h m n i) (hU : i ∈ U) (ha : Agrees n U h h') :
    IsStream h' m n i where
  tag := by rw [ha.cells i hU]; exact hi.tag
  stream := by
    obtain ⟨k, hk, har, hfs⟩ := hi.stream
    exact ⟨k, hk, by rw [ha.cells i hU]; exact har, by rw [ha.streams k hk]; exact hfs⟩

theorem IsStream.mono {n' : ℕ} (hi : IsStream h m n i) (hn : n ≤ n') : IsStream h m n' i := by
  obtain ⟨k, hk, hrest⟩ := hi.stream
  exact ⟨hi.tag, k, lt_of_lt_of_le hk hn, hrest⟩

/-- `stream_read` on a stream of posixfs returns `_file_cell`. -/
theorem streamRead_eq {s : FsState} (hm : Mounted s.heap fsl m) (hi : IsStream s.heap m n i) :
    streamRead host s (.cell i) = .ok (s.fileCell, s) := by
  obtain ⟨k, -, har, hfs⟩ := hi.stream
  have hne : Word.cell i ≠ .null := by simp
  unfold streamRead
  rw [if_neg hne]
  simp only [cellAt, Word.asCell_cell, ok_bind, hi.tag, har, streamAt, hfs, filesystemAt, hm.readFn,
    hm.reads, ne_eq, not_true_eq_false, if_false, if_true]
  rfl

/-- `posixfs_open` on a path parks the content of the path. -/
theorem posixfsOpen_spec {s s' : FsState} {p : ℕ} {t : List UInt8} {r : Word}
    (hs : Sound env fsl s.heap U) (hp : p ∈ U) (ht : HasText s.heap p t)
    (ha : posixfsOpen host s (.cell p) = .ok (r, s')) :
    ∃ j U', Grows env fsl n s.heap U s'.heap U' ∧ j ∈ U' ∧
      s' = { s with heap := s'.heap, fileCell := .cell j } ∧
      Shows s'.heap j (pathContent host t) := by
  obtain ⟨⟨i, h₁⟩, h1, ha⟩ := bind_ok.mp ha
  obtain ⟨g₁, hnil⟩ := Grows.allocNil (n := n) hs h1
  have ht₁ := ht.agrees hp g₁.toAgrees
  have htag : (h₁.cells p).tag = tagStr := by
    obtain ⟨b, rest, size, hc, -⟩ := ht₁
    rw [hc]
  have hne : Word.cell p ≠ .null := by simp
  dsimp only at ha
  rw [if_neg hne] at ha
  simp only [cellAt, Word.asCell_cell, ok_bind, htag, ne_eq, not_true_eq_false, if_false,
    ht₁.cString] at ha
  by_cases hsd : t.take 4 = ascii "/sd/"
  · rw [if_pos hsd] at ha
    obtain ⟨⟨f, h₂⟩, h2, ha⟩ := bind_ok.mp ha
    obtain ⟨-, rfl⟩ := Prod.mk.inj (Except.ok.inj ha)
    obtain ⟨U', g₂, hf, hsh⟩ := Grows.loadFile (n := n) g₁.sound h2
    refine ⟨f, U', g₁.trans g₂, hf, rfl, ?_⟩
    rw [pathContent, if_pos hsd]
    exact hsh
  · rw [if_neg hsd] at ha
    obtain ⟨-, rfl⟩ := Prod.mk.inj (Except.ok.inj ha)
    refine ⟨i, _, g₁, Set.mem_insert _ _, rfl, ?_⟩
    rw [pathContent, if_neg hsd]
    exact shows_nil hnil

/-- The new stream of lines 31–43 of `fs_open`. -/
theorem newStream_spec (hs : Sound env fsl h U) {p k : ℕ} {fs : Word} {id : ℤ} {v : BitVec 64}
    {h₁ : Heap} (hp : p ∈ U)
    (ha : { h with streams := Function.update h.streams k ⟨.cell p, fs, id⟩ }.allocInt v =
      .ok (i, h₁)) (hfs : fs = .ptr (.filesystem m.fs) 0) :
    let h₂ := h₁.setCell i { h₁.cells i with ar := .ptr (.stream k) 0, tag := tagStream }
    Grows env fsl k h U h₂ (insert i U) ∧ IsStream h₂ m (k + 1) i := by
  intro h₂
  have hs₀ := hs.setStream k ⟨.cell p, fs, id⟩ rfl hp
  obtain ⟨g, hi, hel, hst⟩ := Grows.allocInt (n := k) hs₀ ha
  have hcell : h₂.cells i = { h₁.cells i with ar := .ptr (.stream k) 0, tag := tagStream } :=
    Function.update_self _ _ _
  have hother : ∀ a, a ≠ i → h₂.cells a = h₁.cells a := fun a hne => Function.update_of_ne hne _ _
  have hstream : h₂.streams k = ⟨.cell p, fs, id⟩ := by
    change h₁.streams k = _
    rw [hst]
    exact Function.update_self _ _ _
  have hsound : Sound env fsl h₂ (insert i U) := by
    refine g.sound.write h₂ (Set.mem_insert i U) rfl rfl rfl hother ?_ ?_
    · rw [hcell]
      exact show tagStream &&& tagMark = 0 by decide
    · intro a b hab
      by_cases hai : a = i
      · left
        obtain ⟨ws, hws, hb⟩ := hab
        have hk : h₂.children i = .ok [.cell p] := by
          unfold children
          simp [hcell, hstream]
        rw [hai, hk] at hws
        obtain rfl := Except.ok.inj hws
        rw [List.mem_singleton] at hb
        cases hb
        exact Set.mem_insert_of_mem _ hp
      · right
        exact edge_congr (hother a hai) rfl rfl rfl hab
  refine ⟨⟨⟨?_, g.bytes, g.bytesUsed, ?_, g.filesystems⟩, hsound, g.usable⟩, ?_, k,
    Nat.lt_succ_self k, ?_, ?_⟩
  · intro a haU
    rw [hother a fun he => hi (he ▸ haU)]
    exact g.cells a haU
  · intro k' hk'
    change h₁.streams k' = _
    rw [hst]
    exact Function.update_of_ne hk'.ne _ _
  · rw [hcell]
  · rw [hcell]
  · rw [hstream]
    exact hfs

/-- `fs_open` of a path under `/sd`: a new stream, and its content parked. -/
theorem fsOpen_spec {s s' : FsState} {p : ℕ} {t : List UInt8} {st : Word}
    (hs : Sound env s.fsList s.heap U) (hm : Mounted s.heap s.fsList m) (hp : p ∈ U)
    (ht : HasText s.heap p t) (hsd : ascii "/sd" <+: t)
    (ha : fsOpen host n s (.cell p) = .ok (st, s')) :
    ∃ i j U', Grows env s.fsList s.streamsUsed s.heap U s'.heap U' ∧ st = .cell i ∧ i ∈ U' ∧
      IsStream s'.heap m s'.streamsUsed i ∧ s'.fileCell = .cell j ∧ j ∈ U' ∧
      Shows s'.heap j (pathContent host t) ∧ s'.fsList = s.fsList ∧
      s'.streamsUsed = s.streamsUsed + 1 := by
  have hU := hm.usable hs.fsl_mem hs.closed
  have hne : ∀ a, Word.cell a ≠ .null := by simp
  obtain ⟨htag, har⟩ : (s.heap.cells p).tag = tagStr ∧ (s.heap.cells p).ar ≠ .null := by
    obtain ⟨b, rest, size, hc, -⟩ := ht
    rw [hc]
    simp
  unfold fsOpen at ha
  rw [if_neg (hne p)] at ha
  have hor : ¬ ((s.heap.cells p).tag ≠ tagStr ∨ (s.heap.cells p).ar = .null) := by
    simp [htag, har]
  simp only [cellAt, Word.asCell_cell, ok_bind, if_neg hor, ht.cString] at ha
  -- the first entry of `fs_list` matches
  cases n with
  | zero => exact absurd ha (by simp [openFrom])
  | succ n =>
    obtain ⟨rest, hhead⟩ := hm.head
    unfold openFrom at ha
    have hcar : car s.heap s.fsList = .ok (.cell m.fsCell) := by
      rw [hm.list]
      simp [car, hhead]
    rw [hcar, ok_bind, if_neg (hne _)] at ha
    simp only [cellAt, Word.asCell_cell, ok_bind, hm.fs, filesystemAt, if_true, hm.mountPoint,
      hm.text.cString, if_pos hsd] at ha
    obtain ⟨⟨i, h₁⟩, h1, ha⟩ := bind_ok.mp ha
    obtain ⟨g, hstream⟩ := newStream_spec (m := m) hs hp h1 rfl
    dsimp only at ha
    set h₂ := h₁.setCell i
      { h₁.cells i with ar := .ptr (.stream s.streamsUsed) 0, tag := tagStream } with hh₂
    have hm₂ : Mounted h₂ s.fsList m := hm.agrees hU g.toAgrees
    simp only [filesystemAt, if_true, ok_bind, hm₂.openFn, if_neg (hne _), cellAt,
      Word.asCell_cell, hm₂.opens, callHandler] at ha
    rw [if_neg (by simp)] at ha
    obtain ⟨⟨r, s₃⟩, h3, ha⟩ := bind_ok.mp ha
    obtain ⟨rfl, rfl⟩ := Prod.mk.inj (Except.ok.inj ha)
    obtain ⟨j, U', g₃, hj, hs₃, hsh⟩ := posixfsOpen_spec (n := s.streamsUsed + 1) g.sound
      (g.usable hp) (ht.agrees hp g.toAgrees) h3
    have e1 := congrArg FsState.fileCell hs₃
    have e2 := congrArg FsState.fsList hs₃
    have e3 := congrArg FsState.streamsUsed hs₃
    refine ⟨i, j, U', g.trans (g₃.weaken (Nat.le_succ _)), rfl, g₃.usable (Set.mem_insert _ _), ?_,
      e1, hj, hsh, e2, e3⟩
    rw [e3]
    exact hstream.agrees (Set.mem_insert _ _) g₃.toAgrees

/-! ## The invariant -/

/-- What every step keeps: the memory is sound and posixfs mounted, every
    variable with an opened path holds a stream of it, and what is parked is
    there. -/
structure Good (host : Host) (w : World) (U : Set ℕ) (m : Mount) : Prop where
  sound : Sound w.env w.fs.fsList w.fs.heap U
  mounted : Mounted w.fs.heap w.fs.fsList m
  streams : ∀ name p, w.opened name = some p →
    ∃ i, globalOf w.env name = .cell i ∧ IsStream w.fs.heap m w.fs.streamsUsed i
  parked : ∀ p, w.parked = some p →
    ∃ j ∈ U, w.fs.fileCell = .cell j ∧ Shows w.fs.heap j (pathContent host p)

/-- `(def name value)` of a usable cell. -/
theorem Sound.insertSymbol (hs : Sound env fsl h U) (name : List UInt8) (hi : i ∈ U) :
    Sound (insertSymbol env name (.cell i)) fsl h U := by
  refine ⟨?_, hs.closed, hs.usable_lt, hs.handed, hs.nodup, hs.free, hs.unused, hs.unmarked,
    hs.edge_lt, hs.consumed_le, hs.length_le, hs.cellsUsed_le⟩
  intro j hj
  rcases List.mem_append.mp hj with hj | hj
  · obtain ⟨e, he, hej⟩ := List.mem_map.mp hj
    rcases mem_insertSymbol he with hv | ⟨e', he', hv⟩
    · rw [hv] at hej
      cases hej
      exact hi
    · rw [hv] at hej
      apply hs.roots
      exact List.mem_append_left _ (List.mem_map.mpr ⟨e', he', hej⟩)
  · exact hs.roots j (List.mem_append_right _ hj)

theorem Sound.global_mem (hs : Sound env fsl h U) {name : List UInt8}
    (hg : globalOf env name = .cell i) : i ∈ U := by
  obtain ⟨e, he, hi⟩ := globalOf_mem hg
  exact hs.roots i (List.mem_append_left _ (List.mem_map.mpr ⟨e, he, hi⟩))

namespace Good

variable {w w' : World}

/-- A step that allocates and binds a usable cell to a global variable. -/
theorem bind (hg : Good host w U m) {name : List UInt8} {o : Option (List UInt8)}
    (henv : w'.env = insertSymbol w.env name (.cell i))
    (hop : w'.opened = Function.update w.opened name o) (hfsl : w'.fs.fsList = w.fs.fsList)
    (hused : w.fs.streamsUsed ≤ w'.fs.streamsUsed)
    (g : Grows w.env w.fs.fsList w.fs.streamsUsed w.fs.heap U w'.fs.heap U') (hi : i ∈ U')
    (ho : ∀ p, o = some p → IsStream w'.fs.heap m w'.fs.streamsUsed i)
    (hpark : ∀ p, w'.parked = some p →
      ∃ j ∈ U', w'.fs.fileCell = .cell j ∧ Shows w'.fs.heap j (pathContent host p)) :
    Good host w' U' m where
  sound := by
    rw [henv, hfsl]
    exact g.sound.insertSymbol name hi
  mounted := by
    rw [hfsl]
    exact hg.mounted.agrees (hg.mounted.usable hg.sound.fsl_mem hg.sound.closed) g.toAgrees
  streams := by
    intro name' p hp
    rw [hop] at hp
    rw [henv]
    by_cases hn : name' = name
    · rw [hn, Function.update_self] at hp
      rw [hn]
      exact ⟨i, globalOf_insertSymbol_self _ _ _, ho p hp⟩
    · rw [Function.update_of_ne hn] at hp
      obtain ⟨k, hk, hst⟩ := hg.streams name' p hp
      refine ⟨k, ?_, (hst.agrees (hg.sound.global_mem hk) g.toAgrees).mono hused⟩
      rw [globalOf_insertSymbol_of_ne _ _ hn]
      exact hk
  parked := hpark

/-- What was parked is still there after allocations. -/
theorem parked_grows (hg : Good host w U m)
    (g : Grows w.env w.fs.fsList n w.fs.heap U h' U') (p : List UInt8) (hp : w.parked = some p) :
    ∃ j ∈ U', w.fs.fileCell = .cell j ∧ Shows h' j (pathContent host p) := by
  obtain ⟨j, hj, hfc, hsh⟩ := hg.parked p hp
  exact ⟨j, g.usable hj, hfc, hsh.agrees hj g.toAgrees⟩

/-- A collection: what the roots reach stays, and the parked cell stays when
    something reaches it. -/
theorem collected (hg : Good host w U m) {L : Layout} {stack : ℤ → Word}
    {stackEnd stackPointer : ℤ}
    (hstack : ∀ v ∈ stackRoots L stack stackEnd stackPointer, w.fs.heap.ValidRef v)
    (ha : w.fs.heap.collectGarbage n w.env w.fs.fsList L stack stackEnd stackPointer =
      .ok (i, h')) :
    ∃ U', Good host
      { w with
        fs := { w.fs with heap := h' }
        parked := w.parkedAfter (stackRoots L stack stackEnd stackPointer) } U' m := by
  unfold collectGarbage at ha
  obtain ⟨⟨h₁, k⟩, h1, ha⟩ := bind_ok.mp ha
  set ws := stackRoots L stack stackEnd stackPointer with hws
  set M := w.live ws with hM
  have hroots : ∀ j, .cell j ∈ (⟨w.fs.heap, w.env, w.fs.fsList, U, ∅⟩ : RunState).roots →
      j ∈ M := by
    intro j hj
    apply Inv.reached_subset_live ⟨w.fs.heap, w.env, w.fs.fsList, U, ∅⟩ ws
    exact ⟨_, hj, j, rfl, Reach.mem_reach_self j⟩
  have hs₁ : Sound w.env w.fs.fsList h₁ M :=
    Inv.collect_into hg.sound hstack h1 hroots (w.fs.heap.reachWords_closed _) subset_rfl
  have hlt := Inv.live_lt hg.sound hstack
  obtain ⟨rfl, -⟩ := markAndSweep_ok hg.sound.unmarked h1
  have hagree : Agrees w.fs.streamsUsed M w.fs.heap (w.fs.heap.sweptTo M w.fs.heap.cellsUsed) := by
    refine ⟨?_, fun _ _ => rfl, le_rfl, fun _ _ => rfl, rfl⟩
    intro j hj
    apply sweptTo_cells_of_kept hlt
    rw [mem_sweptTo_freeList]
    exact fun hf => hf.2.2 hj
  obtain ⟨g, -⟩ := Grows.allocInt (n := w.fs.streamsUsed) hs₁ ha
  have hall := hagree.trans g.toAgrees subset_rfl
  refine ⟨_, g.sound, ?_, ?_, ?_⟩
  · have hcl : Reach.Closed w.fs.heap.Edge M := w.fs.heap.reachWords_closed _
    refine hg.mounted.agrees (hg.mounted.usable ?_ hcl) hall
    intro j hj
    apply hroots
    simp [RunState.roots, hj]
  · intro name p hp
    obtain ⟨j, hj, hst⟩ := hg.streams name p hp
    refine ⟨j, hj, hst.agrees ?_ hall⟩
    obtain ⟨e, he, hej⟩ := globalOf_mem hj
    exact hroots j (List.mem_append_left _ (List.mem_map.mpr ⟨e, he, hej⟩))
  · intro p hp
    change w.parkedAfter ws = some p at hp
    unfold World.parkedAfter at hp
    split at hp
    · rename_i hlive
      obtain ⟨j, hj, hfc⟩ := hlive
      obtain ⟨j', -, hfc', hsh⟩ := hg.parked p hp
      obtain rfl : j = j' := by
        rw [hfc] at hfc'
        cases hfc'
        rfl
      exact ⟨j, Set.mem_insert_of_mem _ hj, hfc, hsh.agrees hj hall⟩
    · exact absurd hp (by simp)

/-- A read that meets the condition returns the parked cell, which holds the
    content of the stream's own path. -/
theorem read (hg : Good host w U m) {var p : List UInt8} (ho : w.opened var = some p)
    (hm : Meets host w var) :
    ∃ j ∈ U, streamRead host w.fs (globalOf w.env var) = .ok (.cell j, w.fs) ∧
      contentOf w.fs.heap (.cell j) = some (pathContent host p) := by
  obtain ⟨p', q, hp', hq, hpq⟩ := hm
  obtain rfl : p = p' := by
    rw [ho] at hp'
    exact Option.some.inj hp'
  obtain ⟨i, hi, hst⟩ := hg.streams var p ho
  obtain ⟨j, hj, hfc, hsh⟩ := hg.parked q hq
  refine ⟨j, hj, ?_, ?_⟩
  · rw [hi, streamRead_eq hg.mounted hst, hfc]
  · rw [hsh.content, hpq]

/-- One step of a run whose reads meet the condition. -/
theorem step (hg : Good host w U m) (hst : Step host (Meets host) w w') :
    ∃ U', Good host w' U' m := by
  cases hst with
  | string hname h0 ha =>
    obtain ⟨g, -⟩ := Grows.allocStringCopy (n := w.fs.streamsUsed) hg.sound h0 ha
    refine ⟨_, hg.bind rfl rfl rfl le_rfl g (Set.mem_insert _ _) ?_ (hg.parked_grows g)⟩
    intro p hp
    exact absurd hp (by simp)
  | opened hname hp ht hsd ha =>
    obtain ⟨i, j, U', g, rfl, hi, hs, hfc, hj, hsh, hfsl, hused⟩ := fsOpen_spec hg.sound hg.mounted
      (hg.sound.global_mem hp) ht hsd ha
    refine ⟨U', hg.bind rfl rfl hfsl (by rw [hused]; exact Nat.le_succ _) g hi (fun _ _ => hs) ?_⟩
    intro p hp
    obtain rfl := Option.some.inj hp
    exact ⟨j, hj, hfc, hsh⟩
  | received hname ho hok ha =>
    obtain ⟨j, hj, hr, -⟩ := hg.read ho hok
    rw [hr] at ha
    obtain ⟨rfl, rfl⟩ := Prod.mk.inj (Except.ok.inj ha)
    refine ⟨U, hg.bind rfl rfl rfl le_rfl (.refl hg.sound) hj ?_ hg.parked⟩
    intro p hp
    exact absurd hp (by simp)
  | collected L stack stackEnd stackPointer hstack ha => exact hg.collected hstack ha

/-- Every run whose reads meet the condition. -/
theorem reachable (hr : Reachable host (Meets host) w) : ∃ U m, Good host w U m := by
  obtain ⟨w₀, ⟨s, U, hs, hmount, hop, hpark⟩, hrun⟩ := hr
  induction hrun with
  | refl =>
    obtain ⟨U', m, hs', hm⟩ := mountPosixfs_mounted hs hmount
    refine ⟨U', m, hs', hm, ?_, ?_⟩
    · intro name p hp
      rw [hop name] at hp
      exact absurd hp (by simp)
    · intro p hp
      rw [hpark] at hp
      exact absurd hp (by simp)
  | tail _ hst ih =>
    obtain ⟨U', m, hg⟩ := ih
    obtain ⟨U'', hg'⟩ := hg.step hst
    exact ⟨U'', m, hg'⟩

end Good

/-! ## Reading one's own content -/

/-- **Isolation under the parking condition.** In every run whose reads all find
    the content of their own path parked, every read that does returns that
    content. -/
theorem streamRead_own (host : Host) (w : World) (hr : Reachable host (Meets host) w)
    (var : List UInt8) (hm : Meets host w var) : ReadsOwn host w var := by
  obtain ⟨U, m, hg⟩ := Good.reachable hr
  intro p hp
  obtain ⟨j, -, hread, hc⟩ := hg.read hp hm
  exact ⟨.cell j, hread, hc⟩

/-! ## Two files -/

/-- `filesystems_init` on the memory `init_allocator` leaves. -/
def started : FsState :=
  ⟨(init.allocNil.toOption.getD (0, init)).2, .cell 0, 0, 0, 0, 0, .null⟩

/-- The world after `mount_posixfs`, with an empty environment. -/
def mounted : World :=
  ⟨(mountPosixfs started).toOption.getD started, [], fun _ => none, none⟩

theorem mounted_booted : Booted mounted := by
  obtain ⟨g, -⟩ := Grows.allocNil (n := 0) (h := init) (i := 0) Inv.start rfl
  exact ⟨started, _, g.sound.setFsList (Set.mem_insert _ _), rfl, fun _ => rfl, rfl⟩

/-- The world after `(def name "text")`. -/
def defString (w : World) (name text : List UInt8) : World :=
  let r := (Compiler.allocStringCopy w.fs.heap text).toOption.getD (0, w.fs.heap)
  { w with
    fs := { w.fs with heap := r.2 }
    env := insertSymbol w.env name (.cell r.1)
    opened := Function.update w.opened name none }

/-- The world after `(def name (open path))`. -/
def defOpen (host : Host) (w : World) (name path text : List UInt8) : World :=
  let r := (fsOpen host 1 w.fs (globalOf w.env path)).toOption.getD (.null, w.fs)
  { fs := r.2
    env := insertSymbol w.env name r.1
    opened := Function.update w.opened name (some text)
    parked := some text }

/-- A host with the file `a` and some other files. -/
def twoFiles : Host := fun name => if name = ascii "a" then .regular [1] else .regular [2]

/-- `(def p "/sd/a")`, `(def s (open p))`. -/
def openedA : World :=
  defOpen twoFiles (defString mounted (ascii "p") (ascii "/sd/a")) (ascii "s") (ascii "p")
    (ascii "/sd/a")

/-- And then `(def q "/sd/b")`, `(def t (open q))`. -/
def openedB : World :=
  defOpen twoFiles (defString openedA (ascii "q") (ascii "/sd/b")) (ascii "t") (ascii "q")
    (ascii "/sd/b")

theorem eq_ok_getD {α : Type} {x : Except Stop α} (d : α) (hx : x.isOk = true) :
    x = .ok (x.toOption.getD d) := by
  cases x with
  | error e => simp [Except.isOk, Except.toBool] at hx
  | ok a => rfl

theorem step_defString {ok : World → List UInt8 → Prop} {w : World} {name text : List UInt8}
    (hname : name.length < maxSymbolSize) (h0 : 0 ∉ text)
    (hok : (Compiler.allocStringCopy w.fs.heap text).isOk = true) :
    Step host ok w (defString w name text) :=
  Step.string hname h0 (eq_ok_getD _ hok)

theorem step_defOpen {ok : World → List UInt8 → Prop} {w : World} {name path text : List UInt8}
    {p : ℕ} (hname : name.length < maxSymbolSize) (hp : globalOf w.env path = .cell p)
    (ht : HasText w.fs.heap p text) (hsd : ascii "/sd" <+: text)
    (hok : (fsOpen host 1 w.fs (globalOf w.env path)).isOk = true) :
    Step host ok w (defOpen host w name path text) := by
  refine Step.opened hname hp ht hsd (n := 1) ?_
  rw [← hp]
  exact eq_ok_getD _ hok

theorem openedA_reachable (ok : World → List UInt8 → Prop) : Reachable twoFiles ok openedA := by
  have h1 : Step twoFiles ok mounted (defString mounted (ascii "p") (ascii "/sd/a")) :=
    step_defString (by decide) (by decide) (by decide +kernel)
  have h2 : Step twoFiles ok (defString mounted (ascii "p") (ascii "/sd/a")) openedA :=
    step_defOpen (p := 20) (by decide) (by decide +kernel)
      ⟨1, [], .ofNat 6, by decide +kernel, by decide +kernel, by decide +kernel, by decide⟩
      (by decide) (by decide +kernel)
  exact ⟨mounted, mounted_booted, .tail (.single h1) h2⟩

theorem openedB_reachable (ok : World → List UInt8 → Prop) : Reachable twoFiles ok openedB := by
  obtain ⟨w₀, hb, hrun⟩ := openedA_reachable ok
  have h1 : Step twoFiles ok openedA (defString openedA (ascii "q") (ascii "/sd/b")) :=
    step_defString (by decide) (by decide) (by decide +kernel)
  have h2 : Step twoFiles ok (defString openedA (ascii "q") (ascii "/sd/b")) openedB :=
    step_defOpen (p := 24) (by decide) (by decide +kernel)
      ⟨3, [], .ofNat 6, by decide +kernel, by decide +kernel, by decide +kernel, by decide⟩
      (by decide) (by decide +kernel)
  exact ⟨w₀, hb, (hrun.tail h1).tail h2⟩

/-- Right after its own open, the stream in `s` reads the content of `/sd/a`. -/
theorem streamRead_own_openedA :
    Meets twoFiles openedA (ascii "s") ∧ ReadsOwn twoFiles openedA (ascii "s") := by
  have hm : Meets twoFiles openedA (ascii "s") :=
    ⟨ascii "/sd/a", ascii "/sd/a", by decide +kernel, by decide +kernel, rfl⟩
  exact ⟨hm, streamRead_own twoFiles openedA (openedA_reachable _) (ascii "s") hm⟩

/-- After another open, the stream in `s` reads the content of `/sd/b`. -/
theorem streamRead_foreign : ¬ ∀ (host : Host) (w : World), Reachable host (fun _ _ => True) w →
    ∀ var, ReadsOwn host w var := by
  intro hall
  obtain ⟨r, hread, hc⟩ := hall twoFiles openedB (openedB_reachable _) (ascii "s") (ascii "/sd/a")
    (by decide +kernel)
  have hother : (streamRead twoFiles openedB.fs (globalOf openedB.env (ascii "s"))).toOption.map
      (fun r => contentOf r.2.heap r.1) = some (some (.bytes [2])) := by decide +kernel
  have hown : pathContent twoFiles (ascii "/sd/a") = .bytes [1] := by decide
  rw [hread] at hother
  have hboth : some (Content.bytes [2]) = some (Content.bytes [1]) := by
    rw [← hown, ← hc]
    exact (Option.some.inj hother).symm
  exact absurd hboth (by decide)

end Interim.Hosted
