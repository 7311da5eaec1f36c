import Interim.Alloc.Sizes

/-!
# The USB keyboard

Model of `devices/rpi2/usbkeys.c`: the handler that USPi calls for each key
(lines 13–32), `usbkeys_open` (lines 34–45) and `usbkeys_read` (lines 47–61).
The write index `ki` is also the number of unread keys. It is reset to 0 when
it reaches `KBUFSZ`, so a fifth unread key makes the buffer look empty.

* `shiftDown_eq` — the loop of `usbkeys_read` drops the first key.
* `keys_fifo` — as long as at most `KBUFSZ - 1` keys are unread and no key code
  is 0, the reads of a run return the keys in the order pressed.
-/

namespace Interim.Devices

open Heap
open Writer (cellAt)

/-! ## Model -/

/-- `KBUFSZ` (line 9). -/
abbrev kbufsz : ℕ := 5

/-- `usb_key_in` and `ki` (lines 10–11). -/
structure Keys where
  usbKeyIn : List UInt8
  ki : ℕ
  length_eq : usbKeyIn.length = kbufsz
  ki_lt : ki < kbufsz

/-- Lines 17–27: the key code of the string that USPi passes. `str[2]` of a
    string of two characters is its NUL. -/
def keyCode (str : List UInt8) : UInt8 :=
  let k := str.getD 0 0
  if str.length > 1 then
    let k := if k = 27 then str.getD 2 0 else k
    let k := if k = 68 then 19 else k
    let k := if k = 67 then 20 else k
    let k := if k = 65 then 17 else k
    if k = 66 then 18 else k
  else k

/-- Lines 30–31: `ki++; if (ki>=KBUFSZ) ki = 0`. -/
def nextKi (ki : ℕ) : ℕ := if ki + 1 ≥ kbufsz then 0 else ki + 1

theorem nextKi_lt (ki : ℕ) : nextKi ki < kbufsz := by
  unfold nextKi
  split_ifs with hwrap
  · decide
  · omega

/-- `uspi_keypress_handler(str)`. -/
def uspiKeypressHandler (s : Keys) (str : List UInt8) : Keys where
  usbKeyIn := s.usbKeyIn.set s.ki (keyCode str)
  ki := nextKi s.ki
  length_eq := by rw [List.length_set, s.length_eq]
  ki_lt := nextKi_lt s.ki

/-- Lines 39–42: all slots cleared. -/
def cleared : Keys := ⟨List.replicate kbufsz 0, 0, rfl, by decide⟩

/-- `usbkeys_open(cpath)`. -/
def usbkeysOpen (s : Keys) (h : Heap) (cpath : Word) : Except Stop (ℕ × Keys × Heap) :=
  if cpath = .null then do
    let (i, h) ← h.allocNil
    .ok (i, s, h)
  else do
    let c ← cellAt h cpath
    if c.tag ≠ tagStr then do
      let (i, h) ← h.allocNil
      .ok (i, s, h)
    else do
      let (i, h) ← h.allocInt 1
      .ok (i, cleared, h)

/-- Lines 53–55: `usb_key_in[i] = usb_key_in[i+1]` for `n` indices from `i`
    on. -/
def shiftDown : ℕ → ℕ → List UInt8 → List UInt8
  | _, 0, a => a
  | i, n + 1, a => shiftDown (i + 1) n (a.set i (a.getD (i + 1) 0))

theorem shiftDown_length (n : ℕ) : ∀ (i : ℕ) (a : List UInt8),
    (shiftDown i n a).length = a.length := by
  induction n with
  | zero => exact fun _ _ => rfl
  | succ n ih =>
    intro i a
    rw [shiftDown, ih, List.length_set]

/-- Lines 48–56: the key to return and the buffer after it. -/
def takeKey (s : Keys) : UInt8 × Keys :=
  if s.ki > 0 then
    (s.usbKeyIn.getD 0 0,
      ⟨shiftDown 0 (kbufsz - 1) s.usbKeyIn, s.ki - 1, by rw [shiftDown_length, s.length_eq],
        by have := s.ki_lt; omega⟩)
  else (0, s)

/-- `usbkeys_read(stream)`: a string of one character, the key. -/
def usbkeysRead (s : Keys) (h : Heap) : Except Stop (ℕ × Keys × Heap) := do
  let (c, s) := takeKey s
  let (i, h) ← h.allocStringCopy [32]
  match (h.cells i).ar with
  | .ptr (.bytes b) off => do
    let h ← h.storeAt b off.toNat [c]
    .ok (i, s, h)
  | _ => .error .fault

/-! ## Runs -/

/-- What happens after `usbkeys_open`. -/
inductive KeyEvent
  | press (str : List UInt8)
  | read
  deriving DecidableEq, Repr

/-- The first byte of a string cell. -/
def firstByte (h : Heap) (i : ℕ) : Except Stop UInt8 :=
  match (h.cells i).ar with
  | .ptr (.bytes b) off =>
    match (h.bytes b)[off.toNat]? with
    | some c => .ok c
    | none => .error .fault
  | _ => .error .fault

/-- The keys that the reads of a run return. -/
def runKeys : List KeyEvent → Keys → Heap → Except Stop (List UInt8)
  | [], _, _ => .ok []
  | .press str :: es, s, h => runKeys es (uspiKeypressHandler s str) h
  | .read :: es, s, h => do
    let (i, s, h) ← usbkeysRead s h
    let c ← firstByte h i
    let cs ← runKeys es s h
    .ok (c :: cs)

/-! ## The queue -/

/-- The unread keys after a press. -/
def KeyEvent.next (q : List UInt8) : KeyEvent → List UInt8
  | .press str => q ++ [keyCode str]
  | .read => q.tail

/-- What the reads of a run return from a queue that holds `q`. -/
def answers : List KeyEvent → List UInt8 → List (Option UInt8)
  | [], _ => []
  | .press str :: es, q => answers es (KeyEvent.next q (.press str))
  | .read :: es, q => q.head? :: answers es (KeyEvent.next q .read)

/-- The number of unread keys never exceeds `n`. -/
def Unread (n : ℕ) : List KeyEvent → List UInt8 → Prop
  | [], q => q.length ≤ n
  | e :: es, q => q.length ≤ n ∧ Unread n es (e.next q)

/-- A byte is the key the queue has in front, and 0 only if it has none. -/
def Answers (a : Option UInt8) (c : UInt8) : Prop := c = a.getD 0 ∧ (c = 0 → a = none)

/-- The reads of a run return the unread keys in order, none lost and none
    twice, and 0 only where no key is unread. -/
def InOrder (es : List KeyEvent) (h : Heap) : Prop :=
  ∃ cs, runKeys es cleared h = .ok cs ∧ List.Forall₂ Answers (answers es []) cs

/-- The number of reads of a run. -/
def reads (es : List KeyEvent) : ℕ := es.count .read

section Queue

variable {s : Keys} {q : List UInt8} {h : Heap}

/-- The first `ki` slots are the unread keys. -/
def Keys.Holds (s : Keys) (q : List UInt8) : Prop := s.usbKeyIn.take s.ki = q

theorem Keys.Holds.length (hs : s.Holds q) : q.length = s.ki := by
  rw [← hs, List.length_take, s.length_eq]
  exact Nat.min_eq_left s.ki_lt.le

theorem cleared_holds : cleared.Holds [] := rfl

/-- A key is appended as long as one slot stays free. -/
theorem Keys.Holds.press (hs : s.Holds q) (str : List UInt8) (hfree : q.length + 1 < kbufsz) :
    (uspiKeypressHandler s str).Holds (q ++ [keyCode str]) := by
  have hlen := hs.length
  have hnext : nextKi s.ki = s.ki + 1 := by
    unfold nextKi
    rw [if_neg (by omega)]
  have hlt : s.ki < s.usbKeyIn.length := by rw [s.length_eq]; exact s.ki_lt
  show (s.usbKeyIn.set s.ki (keyCode str)).take (nextKi s.ki) = q ++ [keyCode str]
  rw [hnext, List.take_succ_eq_append_getElem (by rwa [List.length_set]),
    List.take_set_of_le le_rfl, List.getElem_set_self, hs]

/-- The loop moves the rest of the buffer down; the last slot keeps its key. -/
theorem shiftDown_eq (n : ℕ) : ∀ (i : ℕ) (a : List UInt8), i + n < a.length →
    shiftDown i n a = a.take i ++ ((a.drop (i + 1)).take n ++ a.drop (i + n)) := by
  induction n with
  | zero =>
    intro i a _
    rw [shiftDown, List.take_zero, List.nil_append, Nat.add_zero, List.take_append_drop]
  | succ n ih =>
    intro i a hlt
    have hget : a.getD (i + 1) 0 = a.get ⟨i + 1, by omega⟩ := by
      simp [List.getD, show i + 1 < a.length by omega]
    have hdrop : a.drop (i + 1) = a.get ⟨i + 1, by omega⟩ :: a.drop (i + 2) :=
      List.drop_eq_getElem_cons (by omega)
    rw [shiftDown, ih _ _ (by rw [List.length_set]; omega), hget,
      List.take_succ_eq_append_getElem (by rw [List.length_set]; omega),
      List.take_set_of_le le_rfl, List.getElem_set_self, hdrop, List.take_succ_cons,
      List.drop_set_of_lt (by omega), List.drop_set_of_lt (by omega)]
    simp only [List.append_assoc, List.cons_append, List.nil_append]
    rw [show i + 1 + n = i + (n + 1) by omega]

/-- A read takes the first unread key. -/
theorem Keys.Holds.takeKey {k : UInt8} (hs : s.Holds (k :: q)) :
    (takeKey s).1 = k ∧ (takeKey s).2.Holds q := by
  have hlen := hs.length
  have hki := s.ki_lt
  rw [List.length_cons] at hlen
  obtain ⟨b, bs, hbuf⟩ : ∃ b bs, s.usbKeyIn = b :: bs :=
    List.exists_cons_of_length_eq_add_one s.length_eq
  have htake : s.usbKeyIn.take s.ki = b :: bs.take q.length := by
    rw [hbuf, ← hlen, List.take_succ_cons]
  rw [Keys.Holds, htake] at hs
  obtain ⟨rfl, hq⟩ := List.cons.inj hs
  unfold Devices.takeKey
  rw [if_pos (by omega)]
  refine ⟨by simp [hbuf], ?_⟩
  show (shiftDown 0 (kbufsz - 1) s.usbKeyIn).take (s.ki - 1) = q
  rw [shiftDown_eq _ _ _ (by rw [s.length_eq]; decide), List.take_zero, List.nil_append, hbuf,
    List.drop_succ_cons, List.drop_zero, ← hlen, Nat.add_sub_cancel, List.take_append_of_le_length,
    List.take_take, Nat.min_eq_left (by omega), hq]
  have hbs : bs.length = kbufsz - 1 := by
    have := s.length_eq
    rw [hbuf, List.length_cons] at this
    omega
  rw [List.length_take, hbs]
  omega

theorem Keys.Holds.takeKey_nil (hs : s.Holds []) : Devices.takeKey s = (0, s) := by
  have hlen := hs.length
  unfold Devices.takeKey
  rw [if_neg (by simpa using hlen.symm)]

/-- `usbkeys_read` returns a new string that starts with the key. -/
theorem usbkeysRead_spec (hok : h.FreeListOk) (hroom : 0 < h.room) :
    ∃ i h', usbkeysRead s h = .ok (i, (Devices.takeKey s).2, h') ∧
      firstByte h' i = .ok (Devices.takeKey s).1 ∧ h'.FreeListOk ∧ h.room = h'.room + 1 := by
  obtain ⟨i, h₁, hal, hnew⟩ := allocStringCopy_spec (s := [32]) hok hroom (by decide)
  obtain ⟨b, -, hb, hcell, hbuf⟩ := hnew.buffer
  unfold usbkeysRead
  obtain ⟨c, s'⟩ := Devices.takeKey s
  have hfit : 0 + [c].length ≤ (h₁.bytes b).length := by
    rw [hbuf]
    exact Nat.le_succ 1
  refine ⟨i, h₁.setBytes b (c :: [0]), ?_, ?_, ?_, ?_⟩
  · dsimp only
    rw [hal, ok_bind]
    dsimp only
    rw [hcell]
    dsimp only
    rw [Int.toNat_zero, storeAt_ok hfit, ok_bind, hbuf]
    rfl
  · unfold firstByte
    rw [setBytes_cells, hcell, setBytes_bytes]
    dsimp only
    rw [Function.update_self]
    rfl
  · exact ⟨hnew.keeps.freeListOk.nodup, hnew.keeps.freeListOk.below⟩
  · exact hnew.room

end Queue

/-! ## Runs of the code -/

/-- Every run in which at most `KBUFSZ - 1` keys are unread and no key code is
    0 returns the keys in order. -/
theorem runKeys_holds (es : List KeyEvent) : ∀ (s : Keys) (q : List UInt8) (h : Heap),
    s.Holds q → h.FreeListOk → reads es ≤ h.room → Unread (kbufsz - 1) es q → 0 ∉ q →
    (∀ str, .press str ∈ es → keyCode str ≠ 0) →
    ∃ cs, runKeys es s h = .ok cs ∧ List.Forall₂ Answers (answers es q) cs := by
  induction es with
  | nil => exact fun _ _ _ _ _ _ _ _ _ => ⟨[], rfl, .nil⟩
  | cons e es ih =>
    intro s q h hs hok hroom hun hz hkeys
    have hkeys' : ∀ str, .press str ∈ es → keyCode str ≠ 0 :=
      fun str hm => hkeys str (List.mem_cons_of_mem _ hm)
    cases e with
    | press str =>
      obtain ⟨-, hrest⟩ := hun
      have hfree : q.length + 1 < kbufsz := by
        have hlen : (q ++ [keyCode str]).length ≤ kbufsz - 1 := by
          cases es with
          | nil => exact hrest
          | cons => exact hrest.1
        rw [List.length_append, List.length_singleton] at hlen
        omega
      have hz' : 0 ∉ q ++ [keyCode str] := by
        have := hkeys str (by simp)
        simp [hz, this.symm]
      exact ih _ _ h (hs.press str hfree) hok (by simpa [reads] using hroom) hrest hz' hkeys'
    | read =>
      obtain ⟨-, hrest⟩ := hun
      have hreads : reads es + 1 ≤ h.room := by simpa [reads] using hroom
      obtain ⟨i, h', hread, hbyte, hok', hrm⟩ := usbkeysRead_spec (s := s) hok (by omega)
      have hstep : (takeKey s).2.Holds q.tail ∧ Answers q.head? (takeKey s).1 := by
        cases q with
        | nil =>
          rw [hs.takeKey_nil]
          exact ⟨hs, rfl, fun _ => rfl⟩
        | cons k q =>
          obtain ⟨hk, hq⟩ := hs.takeKey
          refine ⟨hq, by rw [hk]; rfl, fun h0 => ?_⟩
          rw [hk] at h0
          exact absurd h0.symm (fun hk0 => hz (by simp [hk0]))
      obtain ⟨cs, hrun, hall⟩ := ih _ _ h' hstep.1 hok' (by omega) hrest
        (fun hm => hz (List.mem_of_mem_tail hm)) hkeys'
      refine ⟨(takeKey s).1 :: cs, ?_, .cons hstep.2 hall⟩
      rw [runKeys, hread, ok_bind]
      dsimp only
      rw [hbyte, ok_bind, hrun, ok_bind]

/-- The reads after `usbkeys_open` return the keys in order as long as at most
    `KBUFSZ - 1` keys are unread and no key code is 0. -/
theorem keys_fifo {es : List KeyEvent} {h : Heap} (hok : h.FreeListOk) (hroom : reads es ≤ h.room)
    (hun : Unread (kbufsz - 1) es []) (hkeys : ∀ str, .press str ∈ es → keyCode str ≠ 0) :
    InOrder es h :=
  runKeys_holds es cleared [] h cleared_holds hok hroom hun List.not_mem_nil hkeys

/-- Two keys are pressed and read, and one more read finds none. -/
theorem keys_fifo_twoKeys : InOrder [.press [97], .press [98], .read, .read, .read] Heap.init := by
  apply keys_fifo init_freeListOk (by decide)
  · simp [Unread, KeyEvent.next]
  · simp [keyCode]

/-- Five keys are pressed, and the next read returns 0. -/
theorem keys_lost_full : ¬ ∀ (es : List KeyEvent) (h : Heap), h.FreeListOk → reads es ≤ h.room →
    Unread kbufsz es [] → (∀ str, .press str ∈ es → keyCode str ≠ 0) → InOrder es h := by
  intro hall
  obtain ⟨cs, hrun, hans⟩ := hall
    [.press [97], .press [98], .press [99], .press [100], .press [101], .read] Heap.init
    init_freeListOk (by decide) (by simp [Unread, KeyEvent.next, kbufsz]) (by simp [keyCode])
  have hread : runKeys
      [.press [97], .press [98], .press [99], .press [100], .press [101], .read] cleared
      Heap.init = .ok [0] := rfl
  rw [hread] at hrun
  obtain rfl := Except.ok.inj hrun
  obtain ⟨⟨hbyte, -⟩, -⟩ := List.forall₂_cons.mp hans
  exact absurd hbyte (by decide)

end Interim.Devices
