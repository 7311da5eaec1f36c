import Interim.Library.Backpatch
import Interim.Minilisp

/-!
# The code buffer and its label tables

The part `sledge/jit_arm_raw.c` (lines 27–67 and 341–426) and
`sledge/jit_x86.c` (lines 39–115 and 369–412) have in common: the buffer, the
tables `jit_labels` and `jit_labels_unres`, and what `jit_emit_branch` and
`jit_label` do to them. The cells of the buffer are words on ARM and bytes on
x86; the patch of a forward branch is a parameter.

Neither file compares an index with the size of what it indexes. Here a write
outside a table or the buffer stops with an `Overrun`.

`jitLabel_buffer` connects the tables with the one-pass assembler of
`Backpatch`: the loop over `find_unresolved_label` patches the waiting branches.
-/

namespace Interim.Backend

/-- `JIT_MAX_LABELS`. -/
abbrev jitMaxLabels : ℕ := 32

/-- What a write misses: `jit_labels`, `jit_labels_unres` or `code`. -/
inductive Overrun
  | labels
  | unres
  | code
  deriving DecidableEq, Repr

/-- The static variables of the emitters: `code`, of `size` cells, `code_idx`,
    and the entries in use of both tables. An entry of `jit_labels_unres` whose
    name is `NULL` has been resolved. -/
structure Code (Name α : Type) where
  size : ℕ
  code : ℕ → α
  codeIdx : ℕ
  labels : List (Name × ℕ)
  unres : List (Option Name × ℕ)

section Bind

variable {α β : Type} {x : Except Overrun α} {f : α → Except Overrun β}

theorem bind_eq_ok {b : β} : x >>= f = .ok b ↔ ∃ a, x = .ok a ∧ f a = .ok b := by
  cases x with
  | error e => simp [bind, Except.bind]
  | ok a => simp [bind, Except.bind]

theorem bind_eq_error {e : Overrun} :
    x >>= f = .error e ↔ x = .error e ∨ ∃ a, x = .ok a ∧ f a = .error e := by
  cases x with
  | error e => simp [bind, Except.bind]
  | ok a => simp [bind, Except.bind]

end Bind

/-- What a sequence of emitter calls does to the tables. -/
inductive Event (Name : Type)
  | branch (l : Name)
  | label (l : Name)

section Events

variable {Name : Type}

/-- The labels a sequence places. -/
def labelCount : List (Event Name) → ℕ
  | [] => 0
  | .branch _ :: es => labelCount es
  | .label _ :: es => labelCount es + 1

/-- The branches in a sequence to a label not placed before, `placed` being the
    labels placed in front of the sequence. -/
def forwardCount [DecidableEq Name] : List Name → List (Event Name) → ℕ
  | _, [] => 0
  | placed, .branch l :: es => (if l ∈ placed then 0 else 1) + forwardCount placed es
  | placed, .label l :: es => forwardCount (l :: placed) es

/-- The names of the labels a sequence places. -/
def labelNames : List (Event Name) → List Name
  | [] => []
  | .branch _ :: es => labelNames es
  | .label l :: es => l :: labelNames es

/-- The labels one call places. -/
def Event.names : Option (Event Name) → List Name
  | some (.label l) => [l]
  | _ => []

/-- The entries of `jit_labels_unres` one call makes. -/
def Event.forward [DecidableEq Name] (placed : List Name) : Option (Event Name) → ℕ
  | some (.branch l) => if l ∈ placed then 0 else 1
  | _ => 0

theorem forwardCount_congr [DecidableEq Name] {placed placed' : List Name}
    (h : ∀ l, l ∈ placed ↔ l ∈ placed') (es : List (Event Name)) :
    forwardCount placed es = forwardCount placed' es := by
  induction es generalizing placed placed' with
  | nil => rfl
  | cons e es ih =>
    cases e with
    | branch l => simp only [forwardCount, h l, ih h]
    | label l =>
      simp only [forwardCount]
      exact ih fun l' => by rw [List.mem_cons, List.mem_cons, h l']

theorem mem_labelNames {l : Name} {es : List (Event Name)} :
    l ∈ labelNames es ↔ Event.label l ∈ es := by
  induction es with
  | nil => simp [labelNames]
  | cons e es ih =>
    cases e with
    | branch l' => simp [labelNames, ih]
    | label l' => simp [labelNames, ih]

theorem labelNames_append (es es' : List (Event Name)) :
    labelNames (es ++ es') = labelNames es ++ labelNames es' := by
  induction es with
  | nil => rfl
  | cons e es ih =>
    cases e with
    | branch l => exact ih
    | label l => exact congrArg (l :: ·) ih

theorem labelCount_cons (o : Option (Event Name)) (es : List (Event Name)) :
    labelCount (o.toList ++ es) = (Event.names o).length + labelCount es := by
  match o with
  | some (.label l) => exact Nat.add_comm _ _
  | some (.branch l) => exact (Nat.zero_add _).symm
  | none => exact (Nat.zero_add _).symm

theorem forwardCount_cons [DecidableEq Name] (placed : List Name) (o : Option (Event Name))
    (es : List (Event Name)) : forwardCount placed (o.toList ++ es) =
      Event.forward placed o + forwardCount (placed ++ Event.names o) es := by
  match o with
  | some (.label l) =>
    change forwardCount (l :: placed) es = 0 + forwardCount (placed ++ [l]) es
    rw [Nat.zero_add]
    exact forwardCount_congr (fun l' => by simp [or_comm]) _
  | some (.branch l) =>
    change _ = _ + forwardCount (placed ++ []) es
    rw [List.append_nil]
    rfl
  | none =>
    change _ = 0 + forwardCount (placed ++ []) es
    rw [List.append_nil, Nat.zero_add]
    rfl

end Events

/-! ## Sequences of calls -/

/-- A back end as far as its tables go: what a call does, the indices in a state,
    and what a call needs of each. `consts` counts the cells stored behind the
    code. -/
structure Emitter (S P Name : Type) where
  emit : S → P → Except Overrun S
  event : P → Option (Event Name)
  cells : P → ℕ
  consts : P → ℕ
  names : S → List Name
  unres : S → ℕ
  codeIdx : S → ℕ
  poolIdx : S → ℕ
  size : S → ℕ

namespace Emitter

variable {S P Name : Type} (E : Emitter S P Name)

/-- A sequence of emitter calls. -/
def run : List P → S → Except Overrun S
  | [], s => .ok s
  | p :: ps, s => do run ps (← E.emit s p)

/-- What a sequence of calls does to the label tables. -/
def events (ps : List P) : List (Event Name) := ps.flatMap fun p => (E.event p).toList

/-- The cells of code of a sequence of calls. -/
def cellsOf (ps : List P) : ℕ := (ps.map E.cells).sum

/-- The constants of a sequence of calls. -/
def constsOf (ps : List P) : ℕ := (ps.map E.consts).sum

/-- A sequence of calls is its first part and the rest. -/
theorem run_append (ps qs : List P) (s : S) : E.run (ps ++ qs) s = E.run ps s >>= E.run qs := by
  induction ps generalizing s with
  | nil => rfl
  | cons p ps ih =>
    rw [List.cons_append, run, run]
    cases E.emit s p with
    | error e => rfl
    | ok s₁ => exact ih s₁

theorem events_cons (p : P) (ps : List P) :
    E.events (p :: ps) = (E.event p).toList ++ E.events ps := List.flatMap_cons

theorem cellsOf_cons (p : P) (ps : List P) :
    E.cellsOf (p :: ps) = E.cells p + E.cellsOf ps := List.sum_cons ..

theorem constsOf_cons (p : P) (ps : List P) :
    E.constsOf (p :: ps) = E.consts p + E.constsOf ps := List.sum_cons ..

theorem mem_events {p : P} {e : Event Name} {ps : List P} {k : ℕ} (hk : ps[k]? = some p)
    (he : E.event p = some e) : e ∈ E.events ps :=
  List.mem_flatMap.mpr ⟨p, List.mem_of_getElem? hk, by rw [he]; exact List.mem_singleton.mpr rfl⟩

/-- No two calls place the same label when the names differ. -/
theorem label_unique {ps : List P} (h : (labelNames (E.events ps)).Nodup) {j j' : ℕ} {p p' : P}
    {l : Name} (hj : ps[j]? = some p) (hp : E.event p = some (.label l))
    (hj' : ps[j']? = some p') (hp' : E.event p' = some (.label l)) : j = j' := by
  induction ps generalizing j j' with
  | nil => simp at hj
  | cons q ps ih =>
    rw [events_cons, labelNames_append, List.nodup_append'] at h
    obtain ⟨-, hrest, hdisj⟩ := h
    have hnot : ∀ {i : ℕ} {q' : P}, q = p ∨ q = p' → ps[i]? = some q' →
        E.event q' ≠ some (.label l) := by
      intro i q' hq hi hq'
      have he : E.event q = some (.label l) := by
        rcases hq with rfl | rfl
        · exact hp
        · exact hp'
      exact hdisj (by rw [he]; exact List.mem_singleton.mpr rfl)
        (mem_labelNames.mpr (E.mem_events hi hq'))
    cases j with
    | zero =>
      obtain rfl : q = p := by simpa using hj
      cases j' with
      | zero => rfl
      | succ j' => exact absurd hp' (hnot (Or.inl rfl) hj')
    | succ j =>
      cases j' with
      | zero =>
        obtain rfl : q = p' := by simpa using hj'
        exact absurd hp (hnot (Or.inr rfl) hj)
      | succ j' => rw [ih hrest hj hj']

/-- The indices are within the tables and the buffer. -/
structure Within (s : S) : Prop where
  labels : (E.names s).length ≤ jitMaxLabels
  unres : E.unres s ≤ jitMaxLabels
  code : E.codeIdx s ≤ E.size s
  pool : E.poolIdx s ≤ E.size s

variable [DecidableEq Name]

/-- The tables and the buffer have room for the calls. -/
structure Room (s : S) (ps : List P) : Prop where
  labels : (E.names s).length + labelCount (E.events ps) ≤ jitMaxLabels
  unres : E.unres s + forwardCount (E.names s) (E.events ps) ≤ jitMaxLabels
  code : E.codeIdx s + E.cellsOf ps ≤ E.size s
  pool : E.poolIdx s + E.constsOf ps ≤ E.size s

/-- What one call takes of the room. -/
structure Took (s : S) (p : P) (s' : S) : Prop where
  names : E.names s' = E.names s ++ Event.names (E.event p)
  unres : E.unres s' = E.unres s + Event.forward (E.names s) (E.event p)
  codeIdx : E.codeIdx s' = E.codeIdx s + E.cells p
  poolIdx : E.poolIdx s' = E.poolIdx s + E.consts p
  size : E.size s' = E.size s
  within : E.Within s → E.Within s'

/-- What a sequence of calls takes of the room. -/
structure TookAll (s : S) (ps : List P) (s' : S) : Prop where
  labels : (E.names s').length = (E.names s).length + labelCount (E.events ps)
  unres : E.unres s' = E.unres s + forwardCount (E.names s) (E.events ps)
  codeIdx : E.codeIdx s' = E.codeIdx s + E.cellsOf ps
  poolIdx : E.poolIdx s' = E.poolIdx s + E.constsOf ps
  size : E.size s' = E.size s
  within : E.Within s → E.Within s'

/-- What is full when calls that need this much fail with `e`. -/
def Full (s : S) (e : Overrun) (labels forward cells consts : ℕ) : Prop :=
  (e = .labels ∧ jitMaxLabels < (E.names s).length + labels) ∨
  (e = .unres ∧ jitMaxLabels < E.unres s + forward) ∨
  (e = .code ∧ (E.size s < E.codeIdx s + cells ∨ E.size s < E.poolIdx s + consts))

/-- The calls keep the invariant `I`, take their share of the room, and fail
    only when there is none. -/
structure Lawful (I : S → Prop) : Prop where
  keeps : ∀ {s p s'}, I s → E.emit s p = .ok s' → I s'
  took : ∀ {s p s'}, I s → E.emit s p = .ok s' → E.Took s p s'
  full : ∀ {s p e}, I s → E.emit s p = .error e →
    E.Full s e (Event.names (E.event p)).length (Event.forward (E.names s) (E.event p))
      (E.cells p) (E.consts p)

variable {E} {I : S → Prop} {s s' : S} {ps : List P}

theorem Lawful.run_keeps (hE : E.Lawful I) (hs : I s) (h : E.run ps s = .ok s') : I s' := by
  induction ps generalizing s with
  | nil =>
    obtain rfl := Except.ok.inj h
    exact hs
  | cons p ps ih =>
    obtain ⟨s₁, h₁, h₂⟩ := bind_eq_ok.mp h
    exact ih (hE.keeps hs h₁) h₂

theorem Lawful.run_took (hE : E.Lawful I) (hs : I s) (h : E.run ps s = .ok s') :
    E.TookAll s ps s' := by
  induction ps generalizing s with
  | nil =>
    obtain rfl := Except.ok.inj h
    exact ⟨rfl, rfl, rfl, rfl, rfl, id⟩
  | cons p ps ih =>
    obtain ⟨s₁, h₁, h₂⟩ := bind_eq_ok.mp h
    have ht := hE.took hs h₁
    have hr := ih (hE.keeps hs h₁) h₂
    constructor
    · rw [hr.labels, ht.names, List.length_append, events_cons, labelCount_cons, Nat.add_assoc]
    · rw [hr.unres, ht.unres, ht.names, events_cons, forwardCount_cons, Nat.add_assoc]
    · rw [hr.codeIdx, ht.codeIdx, cellsOf_cons, Nat.add_assoc]
    · rw [hr.poolIdx, ht.poolIdx, constsOf_cons, Nat.add_assoc]
    · rw [hr.size, ht.size]
    · exact fun hw => hr.within (ht.within hw)

/-- A sequence that fails has no room. -/
theorem Lawful.run_full (hE : E.Lawful I) (hs : I s) {e : Overrun} (h : E.run ps s = .error e) :
    E.Full s e (labelCount (E.events ps)) (forwardCount (E.names s) (E.events ps)) (E.cellsOf ps)
      (E.constsOf ps) := by
  induction ps generalizing s with
  | nil => exact absurd h (by simp [run])
  | cons p ps ih =>
    rw [events_cons, labelCount_cons, forwardCount_cons, cellsOf_cons, constsOf_cons]
    rcases bind_eq_error.mp h with h₁ | ⟨s₁, h₁, h₂⟩
    · rcases hE.full hs h₁ with ⟨rfl, hlt⟩ | ⟨rfl, hlt⟩ | ⟨rfl, hlt⟩
      · exact Or.inl ⟨rfl, by omega⟩
      · exact Or.inr (Or.inl ⟨rfl, by omega⟩)
      · exact Or.inr (Or.inr ⟨rfl, by omega⟩)
    · have ht := hE.took hs h₁
      have hr := ih (hE.keeps hs h₁) h₂
      rw [Full, ht.unres, ht.codeIdx, ht.poolIdx, ht.size, ht.names, List.length_append] at hr
      rcases hr with ⟨rfl, hlt⟩ | ⟨rfl, hlt⟩ | ⟨rfl, hlt⟩
      · exact Or.inl ⟨rfl, by omega⟩
      · exact Or.inr (Or.inl ⟨rfl, by omega⟩)
      · exact Or.inr (Or.inr ⟨rfl, by omega⟩)

/-- The calls stay within the tables and the buffer exactly when there is room
    for all of them. -/
theorem Lawful.run_ok_iff (hE : E.Lawful I) (hs : I s) (hw : E.Within s) :
    (∃ s', E.run ps s = .ok s') ↔ E.Room s ps := by
  constructor
  · rintro ⟨s', h⟩
    have ht := hE.run_took hs h
    obtain ⟨h₁, h₂, h₃, h₄⟩ := ht.within hw
    rw [ht.labels] at h₁
    rw [ht.unres] at h₂
    rw [ht.codeIdx, ht.size] at h₃
    rw [ht.poolIdx, ht.size] at h₄
    exact ⟨h₁, h₂, h₃, h₄⟩
  · intro hroom
    cases h : E.run ps s with
    | ok s' => exact ⟨s', rfl⟩
    | error e =>
      obtain ⟨h₁, h₂, h₃, h₄⟩ := hroom
      rcases hE.run_full hs h with ⟨-, hlt⟩ | ⟨-, hlt⟩ | ⟨-, hlt⟩
      · omega
      · omega
      · omega

end Emitter

namespace Code

variable {Name α : Type}

/-- `jit_init`. -/
def init (size : ℕ) (code : ℕ → α) : Code Name α := ⟨size, code, 0, [], []⟩

/-- `code[code_idx++] = x`. -/
def put (x : α) (s : Code Name α) : Except Overrun (Code Name α) :=
  if s.codeIdx < s.size then
    .ok { s with code := Function.update s.code s.codeIdx x, codeIdx := s.codeIdx + 1 }
  else .error .code

/-- Several cells, one after another. -/
def puts : List α → Code Name α → Except Overrun (Code Name α)
  | [], s => .ok s
  | x :: xs, s => do puts xs (← s.put x)

/-- Enter a branch to `l` into `jit_labels_unres`. -/
def addUnresolved (l : Name) (s : Code Name α) : Except Overrun (Code Name α) :=
  if s.unres.length < jitMaxLabels then .ok { s with unres := s.unres ++ [(some l, s.codeIdx)] }
  else .error .unres

variable [DecidableEq Name]

/-- `find_label(label)`: its `idx`. -/
def findLabel (l : Name) (s : Code Name α) : Option ℕ :=
  (s.labels.find? fun e => e.1 = l).map Prod.snd

/-- `find_unresolved_label(label)`: the index of the entry. -/
def findUnresolvedLabel (l : Name) (s : Code Name α) : Option ℕ :=
  s.unres.findIdx? fun e => e.1 = some l

/-- The loop of `jit_label`: patch the entry that is found and clear it. Each
    round clears one, so as many rounds as there are entries are enough. -/
def resolve (patch : ℕ → (ℕ → α) → ℕ → ℕ → α) (l : Name) : ℕ → Code Name α → Code Name α
  | 0, s => s
  | n + 1, s =>
    match s.findUnresolvedLabel l with
    | none => s
    | some i =>
      match s.unres[i]? with
      | none => s
      | some e => resolve patch l n
          { s with code := patch s.codeIdx s.code e.2, unres := s.unres.set i (none, 0) }

/-- `jit_label(label)`. -/
def jitLabel (patch : ℕ → (ℕ → α) → ℕ → ℕ → α) (l : Name) (s : Code Name α) :
    Except Overrun (Code Name α) :=
  if s.labels.length < jitMaxLabels then
    let s' := s.resolve patch l s.unres.length
    .ok { s' with labels := s.labels ++ [(l, s.codeIdx)] }
  else .error .labels

end Code

/-! ## The tables as lists of labels and waiting branches -/

section Buffer

open Backpatch

variable {Name Op α : Type}

/-- The entries with a name. -/
def pendingOf (unres : List (Option Name × ℕ)) : List (Name × ℕ) :=
  unres.filterMap fun e => e.1.map fun n => (n, e.2)

/-- The buffer of the one-pass assembler. -/
def Code.buffer (s : Code Name α) : Buffer Name α :=
  ⟨s.code, s.codeIdx, s.labels, pendingOf s.unres⟩

@[simp] theorem pendingOf_append (u v : List (Option Name × ℕ)) :
    pendingOf (u ++ v) = pendingOf u ++ pendingOf v := List.filterMap_append ..

@[simp] theorem pendingOf_some (n : Name) (p : ℕ) (u : List (Option Name × ℕ)) :
    pendingOf ((some n, p) :: u) = (n, p) :: pendingOf u := rfl

@[simp] theorem pendingOf_none (p : ℕ) (u : List (Option Name × ℕ)) :
    pendingOf ((none, p) :: u) = pendingOf u := rfl

@[simp] theorem pendingOf_nil : pendingOf ([] : List (Option Name × ℕ)) = [] := rfl

theorem pendingOf_length (u : List (Option Name × ℕ)) : (pendingOf u).length ≤ u.length :=
  List.length_filterMap_le ..

variable {s s' : Code Name α} {l : Name}

theorem put_ok {x : α} (h : s.put x = .ok s') : s.codeIdx < s.size ∧
    s' = { s with code := Function.update s.code s.codeIdx x, codeIdx := s.codeIdx + 1 } := by
  unfold Code.put at h
  split at h
  · rename_i hlt
    exact ⟨hlt, (Except.ok.inj h).symm⟩
  · exact absurd h (by simp)

theorem put_error {x : α} {e : Overrun} (h : s.put x = .error e) :
    e = .code ∧ s.size ≤ s.codeIdx := by
  unfold Code.put at h
  split at h
  · exact absurd h (by simp)
  · rename_i hlt
    exact ⟨(Except.error.inj h).symm, Nat.le_of_not_lt hlt⟩

theorem addUnresolved_ok (h : s.addUnresolved l = .ok s') : s.unres.length < jitMaxLabels ∧
    s' = { s with unres := s.unres ++ [(some l, s.codeIdx)] } := by
  unfold Code.addUnresolved at h
  split at h
  · rename_i hlt
    exact ⟨hlt, (Except.ok.inj h).symm⟩
  · exact absurd h (by simp)

theorem addUnresolved_error {e : Overrun} (h : s.addUnresolved l = .error e) :
    e = .unres ∧ jitMaxLabels ≤ s.unres.length := by
  unfold Code.addUnresolved at h
  split at h
  · exact absurd h (by simp)
  · rename_i hlt
    exact ⟨(Except.error.inj h).symm, Nat.le_of_not_lt hlt⟩

theorem addUnresolved_buffer (h : s.addUnresolved l = .ok s') :
    s'.buffer = { s.buffer with pending := s.buffer.pending ++ [(l, s.codeIdx)] } := by
  obtain ⟨-, rfl⟩ := addUnresolved_ok h
  simp [Code.buffer]

variable [DecidableEq Name]

theorem findLabel_buffer : s.findLabel l = s.buffer.find l := rfl

theorem findLabel_eq_none : s.findLabel l = none ↔ l ∉ s.labels.map Prod.fst := by
  unfold Code.findLabel
  rw [Option.map_eq_none_iff, List.find?_eq_none]
  simp only [decide_eq_true_eq, List.mem_map, not_exists, not_and]

/-- Labels are placed in front of `code_idx`. -/
def Code.LabelsBehind (s : Code Name α) : Prop := ∀ e ∈ s.labels, e.2 ≤ s.codeIdx

omit [DecidableEq Name] in
theorem labelsBehind_init (size : ℕ) (code : ℕ → α) :
    (Code.init size code : Code Name α).LabelsBehind := fun _ he => absurd he List.not_mem_nil

theorem Code.LabelsBehind.findLabel {t : ℕ} (h : s.LabelsBehind) (hf : s.findLabel l = some t) :
    t ≤ s.codeIdx := by
  unfold Code.findLabel at hf
  obtain ⟨e, he, rfl⟩ := Option.map_eq_some_iff.mp hf
  exact h e (List.mem_of_find?_eq_some he)

/-- A label that is found needs no entry for a branch to it. -/
theorem forward_of_some {t : ℕ} (hf : s.findLabel l = some t) :
    Event.forward (s.labels.map Prod.fst) (some (.branch l)) = 0 := by
  refine if_pos (by_contra fun hl => ?_)
  rw [findLabel_eq_none.mpr hl] at hf
  exact absurd hf (by simp)

theorem forward_of_none (hf : s.findLabel l = none) :
    Event.forward (s.labels.map Prod.fst) (some (.branch l)) = 1 :=
  if_neg (findLabel_eq_none.mp hf)

/-- Where `find_unresolved_label` stops: no entry in front of it has the name. -/
theorem findUnresolvedLabel_some {i : ℕ} (h : s.findUnresolvedLabel l = some i) :
    ∃ u p v, s.unres = u ++ (some l, p) :: v ∧ u.length = i ∧ ∀ e ∈ u, e.1 ≠ some l := by
  obtain ⟨hi, hp, hlt⟩ := List.findIdx?_eq_some_iff_getElem.mp h
  simp only [decide_eq_true_eq] at hp hlt
  refine ⟨s.unres.take i, s.unres[i].2, s.unres.drop (i + 1), ?_, ?_, ?_⟩
  · rw [← hp]
    simp
  · simp [hi.le]
  · intro e he
    obtain ⟨j, hj, rfl⟩ := List.mem_take_iff_getElem.mp he
    exact hlt j (by omega)

theorem findUnresolvedLabel_none (h : s.findUnresolvedLabel l = none) :
    ∀ e ∈ s.unres, e.1 ≠ some l := by
  intro e he
  have := List.findIdx?_eq_none_iff.mp h e he
  simpa using this

theorem pendingOf_filter_of_ne {u : List (Option Name × ℕ)} (h : ∀ e ∈ u, e.1 ≠ some l) :
    (pendingOf u).filter (fun e => e.1 = l) = [] ∧
      (pendingOf u).filter (fun e => e.1 ≠ l) = pendingOf u := by
  have hne : ∀ e ∈ pendingOf u, e.1 ≠ l := by
    intro e he hl
    obtain ⟨⟨o, p⟩, hmem, ho⟩ := List.mem_filterMap.mp he
    obtain ⟨n, rfl, rfl⟩ := Option.map_eq_some_iff.mp ho
    exact h _ hmem (by rw [← hl])
  constructor
  · rw [List.filter_eq_nil_iff]
    simpa using hne
  · rw [List.filter_eq_self]
    simpa using hne

/-- The loop patches the waiting branches in the order of the table, and clears
    their entries. -/
theorem resolve_buffer (patch : ℕ → (ℕ → α) → ℕ → ℕ → α) (n : ℕ) {s : Code Name α}
    (hn : ((pendingOf s.unres).filter fun e => e.1 = l).length ≤ n) :
    (s.resolve patch l n).buffer = { s.buffer with
      code := (s.buffer.waiting l).foldl (patch s.codeIdx) s.code
      pending := s.buffer.pending.filter fun e => e.1 ≠ l } := by
  induction n generalizing s with
  | zero =>
    have hnil := List.eq_nil_of_length_eq_zero (Nat.le_zero.mp hn)
    have hself : (pendingOf s.unres).filter (fun e => e.1 ≠ l) = pendingOf s.unres := by
      rw [List.filter_eq_self]
      simpa using List.filter_eq_nil_iff.mp hnil
    simp only [Code.resolve, Code.buffer, Buffer.waiting, hnil, hself, List.map_nil, List.foldl_nil]
  | succ n ih =>
    unfold Code.resolve
    cases hf : s.findUnresolvedLabel l with
    | none =>
      obtain ⟨hnil, hself⟩ := pendingOf_filter_of_ne (findUnresolvedLabel_none hf)
      simp only [Code.buffer, Buffer.waiting, hnil, hself, List.map_nil, List.foldl_nil]
    | some i =>
      obtain ⟨u, p, v, hu, rfl, hne⟩ := findUnresolvedLabel_some hf
      obtain ⟨hnil, hself⟩ := pendingOf_filter_of_ne hne
      have hget : s.unres[u.length]? = some (some l, p) := by rw [hu]; simp
      have hset : s.unres.set u.length (none, 0) = u ++ (none, 0) :: v := by rw [hu]; simp
      have hwait : (pendingOf s.unres).filter (fun e => e.1 = l) =
          (l, p) :: (pendingOf v).filter fun e => e.1 = l := by
        rw [hu, pendingOf_append, pendingOf_some, List.filter_append, hnil]
        simp
      have hrest : (pendingOf s.unres).filter (fun e => e.1 ≠ l) =
          pendingOf u ++ (pendingOf v).filter fun e => e.1 ≠ l := by
        rw [hu, pendingOf_append, pendingOf_some, List.filter_append, hself]
        simp
      simp only [hget, hset]
      rw [ih]
      · simp only [Code.buffer, Buffer.waiting, pendingOf_append, pendingOf_none,
          List.filter_append, hnil, hself, hwait, hrest, List.nil_append, List.map_cons,
          List.foldl_cons]
      · rw [hwait, List.length_cons] at hn
        simp only [pendingOf_append, pendingOf_none, List.filter_append, hnil, List.nil_append]
        omega

theorem resolve_rest (patch : ℕ → (ℕ → α) → ℕ → ℕ → α) (n : ℕ) {s : Code Name α} :
    (s.resolve patch l n).size = s.size ∧ (s.resolve patch l n).unres.length = s.unres.length := by
  induction n generalizing s with
  | zero => exact ⟨rfl, rfl⟩
  | succ n ih =>
    unfold Code.resolve
    split
    · exact ⟨rfl, rfl⟩
    · split
      · exact ⟨rfl, rfl⟩
      · obtain ⟨h₁, h₂⟩ := @ih { s with
          code := patch s.codeIdx s.code _, unres := s.unres.set _ (none, 0) }
        exact ⟨h₁, h₂.trans (List.length_set ..)⟩

theorem jitLabel_ok {patch : ℕ → (ℕ → α) → ℕ → ℕ → α} (h : s.jitLabel patch l = .ok s') :
    s.labels.length < jitMaxLabels ∧ s'.labels = s.labels ++ [(l, s.codeIdx)] ∧
      s'.unres.length = s.unres.length := by
  unfold Code.jitLabel at h
  split at h
  · rename_i hlt
    obtain rfl := Except.ok.inj h
    exact ⟨hlt, rfl, (resolve_rest _ _).2⟩
  · exact absurd h (by simp)

theorem jitLabel_error {patch : ℕ → (ℕ → α) → ℕ → ℕ → α} {e : Overrun}
    (h : s.jitLabel patch l = .error e) : e = .labels ∧ jitMaxLabels ≤ s.labels.length := by
  unfold Code.jitLabel at h
  split at h
  · exact absurd h (by simp)
  · rename_i hlt
    exact ⟨(Except.error.inj h).symm, Nat.le_of_not_lt hlt⟩

/-- `jit_label` places the label and patches the branches that wait for it. -/
theorem jitLabel_buffer {E : Encoding Op α} (h : s.jitLabel E.patchAt l = .ok s') :
    s'.buffer = E.step s.buffer (.label l) ∧ s'.size = s.size := by
  unfold Code.jitLabel at h
  split at h
  · obtain rfl := Except.ok.inj h
    have hb := resolve_buffer (l := l) E.patchAt s.unres.length (s := s)
      (le_trans (List.length_filter_le ..) (pendingOf_length _))
    obtain ⟨hc, hi, -, hp⟩ := Buffer.mk.inj hb
    refine ⟨?_, (resolve_rest _ _).1⟩
    simp only [Code.buffer]
    rw [hc, hi, hp]
    rfl
  · exact absurd h (by simp)

end Buffer

end Interim.Backend
