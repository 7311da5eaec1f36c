import Interim.Reader.Reading
import Interim.Reader.Same
import Interim.Alloc.Strings

/-!
# Uninitialised locals

`read_string` leaves `stack_root`, `rs.valuestate` and `rs.sym_len`
uninitialised. `sym_len` is written before every read. `stack_root[0]` is
written by the first character, so it is read unwritten where there is none.
`valuestate` is written by the first digit of a number without sign, and read
by every number: a text that has a `-` number before the first other number
depends on it.

* `Returns.same_iff` — results are structurally equal exactly when the readings
  are equal.
* `junk_irrelevant_iff` — the texts that read the same whatever the locals
  hold.
-/

namespace Interim.Reader

open Heap

/-- Structural equality of two results; a program that stops has no
    result. -/
inductive SameResult : Except Stop (Word × Heap) → Except Stop (Word × Heap) → Prop
  | ok {w w' : Word} {h h' : Heap} (hs : Same h h' w w') : SameResult (.ok (w, h)) (.ok (w', h'))
  | stop (e : Stop) : SameResult (.error e) (.error e)

/-! ## Regular readings -/

/-- The symbols of a state are C strings. -/
structure AbsState.Regular (a : AbsState) : Prop where
  fits : a.Fits
  cur : Datum.AtomsAll Reader.Regular a.cur
  outer : ∀ ds ∈ a.outer, Datum.AtomsAll Reader.Regular ds
  sym : ∀ s, a.tok = .sym s → 0 ∉ s

/-- `Regular` for a reading. -/
def Reading.Regular : Reading → Prop
  | .datum d => d.Atoms Reader.Regular
  | _ => True

section Regular

variable {a a' : AbsState} {d : Datum} {x : UInt8} {ds es : List Datum} {t : List UInt8}

theorem AbsState.Regular.push (ha : a.Regular) (hd : d.Atoms Reader.Regular) : (a.push d).Regular where
  fits := ha.fits.push d
  cur := ha.cur.append ⟨hd, trivial⟩
  outer := ha.outer
  sym := fun _ hs => by cases hs

theorem AbsState.Regular.close (ha : a.Regular) (hclose : a.close = some a') : a'.Regular := by
  have hfit := ha.fits.close hclose
  unfold AbsState.close at hclose
  cases hout : a.outer with
  | nil => rw [hout] at hclose; cases hclose
  | cons ds dss =>
    rw [hout] at hclose
    obtain rfl := Option.some.inj hclose
    have hall := ha.outer
    rw [hout] at hall
    have hlist : (Datum.list a.cur).Atoms Reader.Regular := by
      rw [Datum.Atoms]
      exact ha.cur
    exact
      { fits := hfit
        cur := (hall ds (by simp)).append ⟨hlist, trivial⟩
        outer := fun es hes => hall es (List.mem_cons_of_mem _ hes)
        sym := fun _ hs => by cases hs }

/-- A step that changes the token only. -/
theorem AbsState.Regular.retok (ha : a.Regular) (hfit : a'.Fits) (hcur : a'.cur = a.cur)
    (hout : a'.outer = a.outer) (hsym : ∀ s, a'.tok = .sym s → 0 ∉ s) : a'.Regular where
  fits := hfit
  cur := by rw [hcur]; exact ha.cur
  outer := by rw [hout]; exact ha.outer
  sym := hsym

theorem absAtom_regular (ha : a.Regular) (htok : a.tok = .idle) (hx : x ≠ 0)
    (hstep : absAtom a x = some a') (hfit : a'.Fits) : a'.Regular := by
  unfold absAtom at hstep
  split at hstep
  · obtain rfl := Option.some.inj hstep
    exact ha
  split at hstep
  · obtain rfl := Option.some.inj hstep
    exact ha.retok hfit rfl rfl fun _ hs => by cases hs
  split at hstep
  · obtain rfl := Option.some.inj hstep
    exact ha.retok hfit rfl rfl fun _ hs => by cases hs
  split at hstep
  · obtain rfl := Option.some.inj hstep
    refine ⟨hfit, trivial, ?_, fun s hs => ?_⟩
    · intro ds hds
      rcases List.mem_cons.mp hds with rfl | hds
      · exact ha.cur
      · exact ha.outer ds hds
    · rw [show a.tok = .sym s from hs] at htok
      cases htok
  split at hstep
  · exact ha.close hstep
  split at hstep
  · obtain rfl := Option.some.inj hstep
    exact ha.retok hfit rfl rfl fun _ hs => by cases hs
  split at hstep
  · obtain rfl := Option.some.inj hstep
    exact ha.retok hfit rfl rfl fun _ hs => by cases hs
  · obtain rfl := Option.some.inj hstep
    refine ha.retok hfit rfl rfl fun s hs => ?_
    obtain rfl := Token.sym.inj hs
    simpa using hx.symm

theorem absNum_regular {y : BitVec 64} {tok : BitVec 64 → Token}
    {add : BitVec 64 → BitVec 64 → BitVec 64} (ha : a.Regular)
    (hstep : absNum a tok add y x = some a') (hfit : a'.Fits) (hnum : ∀ z s, tok z ≠ .sym s)
    (htok : a.tok = tok y) : a'.Regular := by
  have hint : (Datum.int y).Atoms Reader.Regular := trivial
  unfold absNum at hstep
  split at hstep
  · obtain rfl := Option.some.inj hstep
    exact ha.retok hfit rfl rfl fun s hs => absurd hs (hnum _ s)
  split at hstep
  · obtain rfl := Option.some.inj hstep
    exact ha.push hint
  split at hstep
  · exact (ha.push hint).close hstep
  split at hstep
  · obtain rfl := Option.some.inj hstep
    exact ha.retok hfit rfl rfl fun s hs => absurd (htok.symm.trans hs) (hnum y s)
  · cases hstep

/-- One character of a C string keeps the symbols regular. -/
theorem absStep_regular (ha : a.Regular) (hx : x ≠ 0) (hstep : absStep a x = some a')
    (hfit : a'.Fits) : a'.Regular := by
  have hsize := ha.fits.2
  cases htok : a.tok with
  | idle =>
    simp only [absStep, htok] at hstep
    exact absAtom_regular ha htok hx hstep hfit
  | comment =>
    simp only [absStep, htok] at hstep
    obtain rfl := Option.some.inj hstep
    split
    · exact ha.retok (Fits.of_idle ha.fits.1 rfl) rfl rfl fun _ hs => by cases hs
    · exact ha
  | num y | numNeg y =>
    simp only [absStep, htok] at hstep
    exact absNum_regular ha hstep hfit (fun _ _ hs => by cases hs) htok
  | sym s =>
    have hs : (Datum.sym s).Atoms Reader.Regular := ha.sym s htok
    simp only [absStep, htok] at hstep
    split at hstep
    · exact (ha.push hs).close hstep
    split at hstep
    · obtain rfl := Option.some.inj hstep
      exact ha.push hs
    split at hstep
    · obtain rfl := Option.some.inj hstep
      exact ha.retok hfit rfl rfl fun _ hs => by cases hs
    · obtain rfl := Option.some.inj hstep
      refine ha.retok hfit rfl rfl fun s' hs' => ?_
      obtain rfl := Token.sym.inj hs'
      rw [List.mem_append, List.mem_singleton, not_or]
      exact ⟨ha.sym s htok, hx.symm⟩
  | str s =>
    rw [htok] at hsize
    have hs : (Datum.str s).Atoms Reader.Regular := lt_of_le_of_lt hsize (by omega)
    simp only [absStep, htok] at hstep
    split at hstep
    · obtain rfl := Option.some.inj hstep
      exact ha.push hs
    · obtain rfl := Option.some.inj hstep
      exact ha.retok hfit rfl rfl fun _ hs => by cases hs
  | bytes ns =>
    rw [htok] at hsize
    have hs : (Datum.bytes (pack ns)).Atoms Reader.Regular := by
      have hle : ns.length ≤ 2 ^ 29 - 2 := hsize
      change (pack ns).length < 2 ^ 64
      rw [pack_length]
      omega
    simp only [absStep, htok] at hstep
    split at hstep
    · obtain rfl := Option.some.inj hstep
      exact ha.push hs
    split at hstep
    · obtain rfl := Option.some.inj hstep
      exact ha.retok hfit rfl rfl fun _ hs => by cases hs
    split at hstep
    · obtain rfl := Option.some.inj hstep
      exact ha
    · cases hstep

/-- A buffer is at most four times as large as its contents, or new. -/
theorem bufferSize_le {limit : ℕ → ℕ} (hlim : ∀ size, size ≤ 2 * limit size + 3) :
    ∀ n, bufferSize limit n ≤ 4 * n + 32
  | 0 => le_rfl
  | n + 1 => by
    have ih := bufferSize_le hlim n
    have hs := hlim (bufferSize limit n)
    rw [bufferSize]
    split <;> omega

theorem strSize_le (n : ℕ) : strSize n ≤ 4 * n + 32 := bufferSize_le (fun size => by omega) n

theorem bytesSize_le (n : ℕ) : bytesSize n ≤ 4 * n + 32 := bufferSize_le (fun size => by omega) n

theorem padded_length_le (size : ℕ) (s : List UInt8) :
    (padded size s).length ≤ size + s.length := by
  rw [padded, List.length_append, List.length_replicate]
  omega

/-- What the current cell holds at the end of the text. -/
theorem AbsState.Regular.final (ha : a.Regular) (hd : a.tok.final = some d) :
    d.Atoms Reader.Regular := by
  have hsize := ha.fits.2
  cases htok : a.tok with
  | idle | comment => rw [htok] at hd; cases hd
  | num y | numNeg y =>
    rw [htok] at hd
    obtain rfl := Option.some.inj hd
    trivial
  | sym s =>
    rw [htok] at hd
    obtain rfl := Option.some.inj hd
    exact ha.sym s htok
  | str s =>
    rw [htok] at hd hsize
    obtain rfl := Option.some.inj hd
    have hle : s.length ≤ 2 ^ 30 - 2 := hsize
    have h₁ := strSize_le s.length
    have h₂ := padded_length_le (strSize s.length) s
    change (padded (strSize s.length) s).length < 2 ^ 64
    omega
  | bytes ns =>
    rw [htok] at hd hsize
    obtain rfl := Option.some.inj hd
    have hle : ns.length ≤ 2 ^ 29 - 2 := hsize
    have h₁ := bytesSize_le ns.length
    have h₂ := padded_length_le (bytesSize ns.length) (packAll ns)
    have h₃ := packAll_length ns
    change (padded (bytesSize ns.length) (packAll ns)).length < 2 ^ 64
    omega

theorem AbsState.Regular.reading (ha : a.Regular) : a.reading.Regular := by
  have hall : Datum.AtomsAll Reader.Regular (a.cur ++ a.tok.final.toList) := by
    refine ha.cur.append ?_
    cases hf : a.tok.final with
    | none => trivial
    | some d => exact ⟨ha.final hf, trivial⟩
  unfold AbsState.reading
  split
  · split
    · rename_i d hd
      exact hall.mem (List.mem_of_getElem? hd)
    · trivial
  · trivial

/-- Texts without NUL have regular readings. -/
theorem absRead_regular : ∀ {t : List UInt8} {a : AbsState}, a.Regular → 0 ∉ t →
    (absRead a t).Regular
  | [], _, ha, _ => ha.reading
  | x :: t, a, ha, hnul => by
    rw [List.mem_cons, not_or] at hnul
    rw [absRead]
    cases hstep : absStep a x with
    | none => trivial
    | some a' =>
      dsimp only
      split
      · rename_i hfit
        exact absRead_regular (absStep_regular ha (fun h0 => hnul.1 h0.symm) hstep hfit) hnul.2
      · trivial

theorem AbsState.Regular.start (hex : Bool) : (AbsState.start hex).Regular where
  fits := Fits.of_idle (Nat.zero_le _) rfl
  cur := trivial
  outer := fun _ hds => by cases hds
  sym := fun _ hs => by cases hs

end Regular

/-! ## Two runs -/

section Results

variable {r r' : Except Stop (Word × Heap)} {o o' : Reading}

theorem Rep.tag_ne_error {h : Heap} {S : Set Block} {i : ℕ} {d : Datum}
    (hr : Rep h S (.cell i) d) : (h.cells i).tag ≠ tagError := by
  cases hr with
  | int _ htag | sym _ _ htag | str _ _ htag | bytes _ _ htag | cons _ htag => rw [htag]; decide
  | nil _ hcell => rw [hcell]; decide

/-- One reading, structurally equal results. -/
theorem Returns.same (hr : Returns r o) (hr' : Returns r' o) (hreg : o.Regular) :
    SameResult r r' := by
  cases hr with
  | datum hrep =>
    cases hr' with
    | datum hrep' => exact .ok (Same.of_rep hrep hrep' hreg)
  | nothing =>
    cases hr' with
    | nothing => exact .ok .null
  | syntaxError hcell =>
    cases hr' with
    | syntaxError hcell' =>
      exact .ok (.error (by rw [hcell]) (by rw [hcell']) (by rw [hcell, hcell']))
  | fault =>
    cases hr'
    exact .stop .fault

/-- An error cell equals no datum. -/
theorem Same.error_left {h h' : Heap} {S : Set Block} {e : ℕ} {w : Word} {d : Datum}
    (htag : (h.cells e).tag = tagError) (hrep : Rep h' S w d) : ¬ Same h h' (.cell e) w := by
  intro hs
  cases hs with
  | atom hi => rw [atomAt_of_tag (.inr htag)] at hi; cases hi
  | cons hi => rw [htag] at hi; exact absurd hi (by decide)
  | error _ hj => exact hrep.tag_ne_error hj

theorem Same.error_right {h h' : Heap} {S : Set Block} {e : ℕ} {w : Word} {d : Datum}
    (htag : (h'.cells e).tag = tagError) (hrep : Rep h S w d) : ¬ Same h h' w (.cell e) := by
  intro hs
  cases hs with
  | atom _ hj => rw [atomAt_of_tag (.inr htag)] at hj; cases hj
  | cons _ hj => rw [htag] at hj; exact absurd hj (by decide)
  | error hi => exact hrep.tag_ne_error hi

/-- Structurally equal results, one reading. -/
theorem Returns.eq_of_same (hr : Returns r o) (hr' : Returns r' o') (hreg : o.Regular)
    (hreg' : o'.Regular) (hs : SameResult r r') : o = o' := by
  cases hs with
  | ok hs =>
    cases hr with
    | datum hrep =>
      cases hr' with
      | datum hrep' => rw [Same.datum_eq hrep hrep' hs hreg hreg']
      | nothing => exact absurd hs.null_right hrep.ne_null
      | syntaxError hcell => exact absurd hs (Same.error_right (by rw [hcell]) hrep)
    | nothing =>
      cases hr' with
      | datum hrep' => exact absurd hs.null_left hrep'.ne_null
      | nothing => rfl
      | syntaxError => exact absurd hs.null_left (by simp)
    | syntaxError hcell =>
      cases hr' with
      | datum hrep' => exact absurd hs (Same.error_left (by rw [hcell]) hrep')
      | nothing => exact absurd hs.null_right (by simp)
      | syntaxError => rfl
  | stop e =>
    cases hr
    cases hr'
    rfl

theorem Returns.same_iff (hr : Returns r o) (hr' : Returns r' o') (hreg : o.Regular)
    (hreg' : o'.Regular) : SameResult r r' ↔ o = o' := by
  constructor
  · exact hr.eq_of_same hr' hreg hreg'
  · rintro rfl
    exact hr.same hr' hreg

end Results

/-- A text that reads the same whatever the uninitialised locals hold: it is
    not empty, and its reading does not depend on the radix at its start. -/
def Determined (t : List UInt8) : Prop :=
  t ≠ [] ∧ absRead (.start false) t = absRead (.start true) t

section Junk

variable {h : Heap} {input : List UInt8}

/-- Without a character the uninitialised `stack_root[0]` is returned. -/
theorem readString_empty (junk : Junk) (hempty : effective input = []) :
    readString junk input h = readResult (.start junk) h := by
  unfold readString
  rw [show input.take _ = [] from hempty]
  rfl

theorem readResult_start (junk : Junk) :
    readResult (.start junk) h =
      if junk.stackRoot 0 ≠ .null then
        cellOf (junk.stackRoot 0) >>= fun r => .ok ((h.cells r).ar, h)
      else h.allocError errSyntax >>= fun r => .ok (Word.cell r.1, r.2) := by
  unfold readResult
  rw [if_neg (by simp [ReaderState.start, Pst.isError])]
  rfl

theorem readString_junk_iff (hok : h.FreeListOk) (hnul : 0 ∉ input)
    (hroom : 2 * input.length + 3 ≤ h.room) :
    (∀ junk junk', SameResult (readString junk input h) (readString junk' input h)) ↔
      Determined (effective input) := by
  have hle : (effective input).length ≤ input.length := by
    rw [effective, List.length_take]
    exact Nat.min_le_right _ _
  have hnul' : 0 ∉ effective input := fun h0 => hnul (List.mem_of_mem_take h0)
  have hreg : ∀ hex, (absRead (.start hex) (effective input)).Regular :=
    fun hex => absRead_regular (.start hex) hnul'
  by_cases hempty : effective input = []
  · -- a null pointer is an error cell, anything else is taken for a cell
    refine iff_of_false (fun hall => ?_) fun hdet => hdet.1 hempty
    have hsame := hall ⟨fun _ => .null, 0, 0⟩ ⟨fun _ => .int 1, 0, 0⟩
    rw [readString_empty _ hempty, readString_empty _ hempty] at hsame
    obtain ⟨e, h', hal, -⟩ := allocCell_spec hok (by omega)
      fun _ => ⟨.ofNat errSyntax, .null, tagError⟩
    rw [readResult_start, readResult_start, if_neg (by simp), if_pos (by simp), allocError, hal]
      at hsame
    cases hsame
  · have hret : ∀ junk : Junk, Returns (readString junk input h)
        (absRead (.start (junk.valuestate = vstHex)) (effective input)) :=
      fun junk => readString_reading hok hempty (by omega)
    constructor
    · intro hall
      refine ⟨hempty, ?_⟩
      exact (hret ⟨fun _ => .null, 0, 0⟩).eq_of_same (hret ⟨fun _ => .null, 1, 0⟩) (hreg _) (hreg _)
        (hall _ _)
    · rintro ⟨-, heq⟩ junk junk'
      refine (hret junk).same_iff (hret junk') (hreg _) (hreg _) |>.mpr ?_
      cases decide (junk.valuestate = vstHex) <;> cases decide (junk'.valuestate = vstHex)
      · rfl
      · exact heq
      · exact heq.symm
      · rfl

end Junk

/-! ## `read_string_cell` -/

/-- The C string that `read_string_cell(in)` passes to `read_string`, and the
    heap after `str[in->dr.size] = 0` (lines 250–253); none where it returns
    `alloc_nil()`. -/
def cellText (w : Word) (h : Heap) : Except Stop (Option (List UInt8 × Heap)) := do
  if w = .null then .ok none
  else
    let i ← cellOf w
    match (h.cells i).dr with
    | .int size =>
      if size = 0 then .ok none
      else
        match (h.cells i).ar with
        | .ptr (.bytes b) off => do
          let h ← h.storeByte b (off.toNat + size.toNat) 0
          .ok (some (content ((h.bytes b).drop off.toNat), h))
        | _ => .error .fault
    | _ => .error .fault

/-- `read_string_cell(in)` (lines 247–256). -/
def readStringCell (junk : Junk) (w : Word) (h : Heap) : Except Stop (Word × Heap) := do
  match ← cellText w h with
  | none =>
    let (n, h) ← h.allocNil
    .ok (.cell n, h)
  | some (t, h) => readString junk t h

section Cells

variable {h h' : Heap} {w : Word} {t : List UInt8}

theorem cellText_ok (hc : cellText w h = .ok (some (t, h'))) :
    0 ∉ t ∧ ∃ b s, h' = h.setBytes b s := by
  unfold cellText at hc
  split at hc
  · cases hc
  obtain ⟨i, -, hc⟩ := bind_ok.mp hc
  split at hc
  · split at hc
    · cases hc
    split at hc
    · rename_i b off _
      obtain ⟨h₁, hst, hc⟩ := bind_ok.mp hc
      obtain ⟨rfl, rfl⟩ := Prod.mk.inj (Option.some.inj (Except.ok.inj hc))
      refine ⟨zero_notMem_content _, b, ?_⟩
      unfold storeByte at hst
      split at hst
      · exact ⟨_, (Except.ok.inj hst).symm⟩
      · cases hst
    · cases hc
  · cases hc

/-- A nil cell is structurally equal to itself. -/
theorem allocNil_same (h : Heap) :
    SameResult (h.allocNil >>= fun r => .ok (Word.cell r.1, r.2))
      (h.allocNil >>= fun r => .ok (Word.cell r.1, r.2)) := by
  unfold allocNil allocCons allocCell
  cases h.cellAlloc with
  | error e => exact .stop e
  | ok p =>
    have hnil : (p.2.setCell p.1 ⟨.null, .null, tagCons⟩).cells p.1 = ⟨.null, .null, tagCons⟩ :=
      Function.update_self _ _ _
    refine .ok (.cons (by rw [hnil]) (by rw [hnil]) ?_ ?_)
    · rw [hnil]
      exact .null
    · rw [hnil]
      exact .null

theorem readStringCell_junk_iff (hok : h.FreeListOk)
    (hroom : ∀ t h', cellText w h = .ok (some (t, h')) → 2 * t.length + 3 ≤ h.room) :
    (∀ junk junk', SameResult (readStringCell junk w h) (readStringCell junk' w h)) ↔
      ∀ t h', cellText w h = .ok (some (t, h')) → Determined (effective t) := by
  unfold readStringCell
  cases hc : cellText w h with
  | error e => exact iff_of_true (fun _ _ => .stop e) fun _ _ heq => by cases heq
  | ok o =>
    cases o with
    | none => exact iff_of_true (fun _ _ => allocNil_same h) fun _ _ heq => by cases heq
    | some p =>
      obtain ⟨t, h'⟩ := p
      have hroom' := hroom t h' hc
      obtain ⟨hnul, b, s, rfl⟩ := cellText_ok hc
      have hiff := @readString_junk_iff (h.setBytes b s) t ⟨hok.nodup, hok.below⟩ hnul hroom'
      constructor
      · intro hall t' h'' heq
        obtain ⟨rfl, -⟩ := Prod.mk.inj (Option.some.inj (Except.ok.inj heq))
        exact hiff.mp hall
      · intro hdet
        exact hiff.mpr (hdet t _ rfl)

end Cells

/-- Two runs of `read_string`, or of `read_string_cell`, that differ in the
    uninitialised locals only: their results are structurally equal exactly
    when the text is not empty and its reading does not depend on the radix it
    starts with. -/
theorem junk_irrelevant_iff (h : Heap) (hok : h.FreeListOk) :
    (∀ input, 0 ∉ input → 2 * input.length + 3 ≤ h.room →
      ((∀ junk junk', SameResult (readString junk input h) (readString junk' input h)) ↔
        Determined (effective input))) ∧
    ∀ w, (∀ t h', cellText w h = .ok (some (t, h')) → 2 * t.length + 3 ≤ h.room) →
      ((∀ junk junk', SameResult (readStringCell junk w h) (readStringCell junk' w h)) ↔
        ∀ t h', cellText w h = .ok (some (t, h')) → Determined (effective t)) :=
  ⟨fun _ hnul hroom => readString_junk_iff hok hnul hroom,
    fun _ hroom => readStringCell_junk_iff hok hroom⟩

/-- The text `5`. -/
theorem junk_irrelevant_five :
    SameResult (readString ⟨fun _ => .null, 0, 0⟩ [53] Heap.init)
      (readString ⟨fun _ => .int 7, 1, 9⟩ [53] Heap.init) :=
  ((junk_irrelevant_iff Heap.init init_freeListOk).1 [53] (by decide) (by decide)).mpr
    ⟨by decide, rfl⟩ _ _

/-- The value of an integer reading. -/
def Reading.intValue : Reading → Option (BitVec 64)
  | .datum (.int v) => some v
  | _ => none

/-- The empty text returns what `stack_root[0]` happens to hold, and `-12`
    reads as `-12` or `-18`. -/
theorem junk_decides :
    ¬ SameResult (readString ⟨fun _ => .null, 0, 0⟩ [] Heap.init)
        (readString ⟨fun _ => .int 1, 0, 0⟩ [] Heap.init) ∧
      ¬ SameResult (readString ⟨fun _ => .null, 0, 0⟩ [45, 49, 50] Heap.init)
        (readString ⟨fun _ => .null, 1, 0⟩ [45, 49, 50] Heap.init) := by
  constructor
  · intro hsame
    rw [readString_empty _ rfl, readString_empty _ rfl, readResult_start, readResult_start,
      if_neg (by simp), if_pos (by simp)] at hsame
    obtain ⟨e, h', hal, -⟩ := allocCell_spec init_freeListOk (by decide)
      fun _ => ⟨.ofNat errSyntax, .null, tagError⟩
    rw [allocError, hal] at hsame
    cases hsame
  · intro hsame
    have hret : ∀ junk : Junk, Returns (readString junk [45, 49, 50] Heap.init)
        (absRead (.start (junk.valuestate = vstHex)) (effective [45, 49, 50])) :=
      fun junk => readString_reading init_freeListOk (by decide) (by decide)
    have hreg : ∀ hex, (absRead (.start hex) (effective [45, 49, 50])).Regular :=
      fun hex => absRead_regular (.start hex) (by decide)
    have heq := (hret _).eq_of_same (hret _) (hreg _) (hreg _) hsame
    exact absurd (congrArg Reading.intValue heq) (by decide)

end Interim.Reader
