import Interim.Machine.Operands

/-!
# Reading and writing buffers

`BUILTIN_GET8` … `BUILTIN_PUT32` (`sledge/compiler_new.c`, lines 1371–1562) on
the machine: the six sequences pass the buffer, the index and the value
through fixed registers.

Results:

* `run_put`, `run_get` — the 8- and 16-bit sequences store and load at the
  index in bytes, for operands in any place.
* `run_put32`, `run_get32` — `put32` stores through whatever cell `R0` holds
  when it starts, at the index in bytes; `get32` loads from the buffer at four
  times the index, and its result is boxed, so read as signed.
* `buffer_roundtrip` — what was put is read back, exactly when these agree.
-/

namespace Interim.Machine

open Compiler Compiler.CompM
open Backend (Operand x64 emits_loadInt_bind)
open Writer (cellAt)

/-! ## The builtins by width -/

/-- The widths of buffer accesses. -/
inductive Width
  | w8 | w16 | w32
  deriving DecidableEq, Repr

/-- Width in bytes. -/
def Width.bytes : Width → ℕ
  | .w8 => 1
  | .w16 => 2
  | .w32 => 4

/-- The offset `get` reads at for an index: only `get32` scales it. -/
def Width.offset : Width → ℕ → ℕ
  | .w32, i => 4 * i
  | _, i => i

/-- `BUILTIN_PUT8`, `BUILTIN_PUT16`, `BUILTIN_PUT32`. -/
def Width.put : Width → (ℕ → Arg) → CompM Word
  | .w8 => compilePut (.strb r1)
  | .w16 => compilePut (.strs r1)
  | .w32 => compilePut32

/-- `BUILTIN_GET8`, `BUILTIN_GET16`, `BUILTIN_GET32`. -/
def Width.get : Width → Word → (ℕ → Arg) → CompM Word
  | .w8 => compileGet (.ldrb r1)
  | .w16 => compileGet (.ldrs r1)
  | .w32 => fun _ => compileGet32

/-! ## Bytes of a buffer -/

section Splice

variable {bs data : List UInt8} {off n : ℕ}

theorem splice_length (h : off + data.length ≤ bs.length) :
    (splice bs off data).length = bs.length := by
  simp [splice]
  omega

/-- The written range. -/
theorem splice_slice (h : off + data.length ≤ bs.length) :
    ((splice bs off data).drop off).take data.length = data := by
  have hlen : (bs.take off).length = off := by
    rw [List.length_take]
    omega
  rw [splice, List.drop_left' hlen, List.take_left]

/-- A byte outside the written range. -/
theorem splice_getElem? {k : ℕ} (h : off + data.length ≤ bs.length)
    (hk : k < off ∨ off + data.length ≤ k) : (splice bs off data)[k]? = bs[k]? := by
  have hlen : (bs.take off).length = off := by
    rw [List.length_take]
    omega
  rcases hk with hk | hk
  · rw [splice, List.getElem?_append_left (by omega), List.getElem?_take_of_lt hk]
  · rw [splice, List.getElem?_append_right (by omega), hlen,
      List.getElem?_append_right (by omega), List.getElem?_drop]
    congr 1
    omega

/-- A byte of the written range. -/
theorem splice_getElem?_in {k : ℕ} (h : off + data.length ≤ bs.length) (hk : k < data.length) :
    (splice bs off data)[off + k]? = data[k]? := by
  have hlen : (bs.take off).length = off := by
    rw [List.length_take]
    omega
  rw [splice, List.getElem?_append_right (by omega), hlen, Nat.add_sub_cancel_left,
    List.getElem?_append_left hk]

theorem leBytes_mod (n v : ℕ) : leBytes n (v % 2 ^ (8 * n)) = leBytes n v := by
  have h := leBytes_ofLe (leBytes n v)
  rw [leBytes_length, ofLe_leBytes] at h
  exact h

end Splice

/-! ## Boxed and raw results -/

/-- What a boxed integer reads as: the low half, as a signed number. -/
theorem toInt_boxInt {a : ℕ} (ha : a < 2 ^ 32) :
    (Heap.boxInt (BitVec.ofNat 64 a)).toInt = if a < 2 ^ 31 then (a : ℤ) else a - 2 ^ 32 := by
  have hlow : (BitVec.ofNat 64 a).truncate 32 = BitVec.ofNat 32 a := by
    apply BitVec.eq_of_toNat_eq
    simp only [BitVec.toNat_setWidth, BitVec.toNat_ofNat]
    omega
  rw [Heap.boxInt, BitVec.toInt_signExtend_of_le (by decide), hlow, BitVec.toInt_eq_toNat_cond,
    BitVec.toNat_ofNat, Nat.mod_eq_of_lt ha]
  split
  · rw [if_pos (by omega)]
  · rw [if_neg (by omega)]
    push_cast
    rfl

theorem toInt_ofNat {a : ℕ} (ha : a < 2 ^ 32) : (BitVec.ofNat 64 a).toInt = a := by
  rw [BitVec.toInt_eq_toNat_cond, BitVec.toNat_ofNat, Nat.mod_eq_of_lt (by omega),
    if_pos (by omega)]

theorem boxInt_ofNat {a : ℕ} (ha : a < 2 ^ 31) :
    Heap.boxInt (BitVec.ofNat 64 a) = BitVec.ofNat 64 a := by
  apply BitVec.eq_of_toInt_eq
  rw [toInt_boxInt (by omega), toInt_ofNat (by omega), if_pos ha]

/-- A 32-bit number survives boxing only if it is not read as negative. -/
theorem boxInt_eq_ofNat {a c : ℕ} (ha : a < 2 ^ 32) (hc : c < 2 ^ 32)
    (h : Heap.boxInt (BitVec.ofNat 64 a) = BitVec.ofNat 64 c) : a = c ∧ c < 2 ^ 31 := by
  have hint := congrArg BitVec.toInt h
  rw [toInt_boxInt ha, toInt_ofNat hc] at hint
  split at hint
  · omega
  · omega

/-- Compiled code whose type is `t` left the number `u` in `R0`, raw or in a
    cell. -/
def Yields (ctx : Ctx) (t : Word) (m : State) (u : BitVec 64) : Prop :=
  (t = .cell ctx.prototypeInt ∧ m.regs r0 = .int u) ∨
    (t = .cell ctx.prototypeAny ∧ ∃ c : ℕ, m.regs r0 = .cell c ∧ (m.heap.cells c).tag = tagInt ∧
      (m.heap.cells c).ar = .int u)

/-- A call of `alloc_int` while there are cells left. -/
theorem run_allocInt {m : State} {v : BitVec 64} (hok : m.heap.FreeListOk) (hroom : 0 < m.heap.room)
    (hr : m.regs argr0 = .int v) :
    ∃ (c : ℕ) (m' : State), run [.call .allocInt] m = some m' ∧ m'.regs r0 = .cell c ∧
      (m'.heap.cells c).tag = tagInt ∧ (m'.heap.cells c).ar = .int (Heap.boxInt v) := by
  obtain ⟨i, h', hal, -, -, -, hcell, -⟩ := Heap.allocCell_spec hok hroom
    fun c => { c with ar := .int (Heap.boxInt v), tag := tagInt }
  refine ⟨i, returned { m with heap := h' } (.cell i), ?_, rfl, ?_, ?_⟩
  · rw [run_cons (by simp), step, call, hr, allocIntWord, Heap.allocInt, hal]
    rfl
  · change (h'.cells i).tag = tagInt
    rw [hcell]
  · change (h'.cells i).ar = _
    rw [hcell]

/-! ## The emitted code -/

/-- Argument `d` is the integer `v`, `h` being the heap at compile time. -/
def IntArg (h : Heap) (m : State) (sp : ℤ) (d : Arg) (v : BitVec 64) : Prop :=
  ∃ value, Operand.Read h ⟨d, value⟩ ∧ SuppliesInt m sp ⟨d, value⟩ v

/-- Cell `x` is a byte buffer or a string with its bytes in buffer `b`;
    `bytes_alloc` takes an `int`. -/
structure IsBuffer (h : Heap) (x b : ℕ) : Prop where
  tag : (h.cells x).tag = tagBytes ∨ (h.cells x).tag = tagStr
  address : (h.cells x).ar = .ptr (.bytes b) 0
  size : (h.bytes b).length < 2 ^ 31

section Run

variable {ctx : Ctx} {s s' : CState} {defs : ℕ → Arg} {t returnType : Word} {code rest : List Jit}
  {m : State} {x b i : ℕ} {v : BitVec 64}

theorem IntArg.same {m' : State} {h : Heap} {sp : ℤ} {d : Arg} (hs : SameOperands m m')
    (hc : m'.heap.cells = m.heap.cells) (ha : IntArg h m sp d v) : IntArg h m' sp d v := by
  obtain ⟨value, hr, hv⟩ := ha
  exact ⟨value, hr, hv.same hs hc⟩

/-- `ldr` and `addr`: from a buffer's cell to an address in it. -/
theorem run_address {r ri : ℕ} (hx : IsBuffer m.heap x b) (hr : m.regs r = .cell x) (hne : r ≠ ri)
    (hi : m.regs ri = .int (BitVec.ofNat 64 i)) (hlt : i < 2 ^ 32) :
    run (.ldr r :: .addr r ri :: rest) m = run rest (m.setFlags r (.ptr (.bytes b) i)) := by
  rw [run_cons (by simp), step, hr, loadWord_cell, hx.address, Option.map_some, Option.bind_some,
    run_cons (by simp), step, set_regs, if_pos rfl, set_regs, if_neg hne.symm, hi, addWord,
    toInt_ofNat hlt, zero_add, Option.bind_some, State.setFlags, set_set]
  rfl

theorem setFlags_regs {r r' : ℕ} {w : Word} :
    (m.setFlags r w).regs r' = if r' = r then w else m.regs r' := by
  rw [State.setFlags, flags_regs, set_regs]

@[simp] theorem setFlags_heap {r : ℕ} {w : Word} : (m.setFlags r w).heap = m.heap := by
  rw [State.setFlags, flags_heap, set_heap]

theorem SameOperands.setFlags {r : ℕ} {w : Word} (hr : r < lbdreg) :
    SameOperands m (m.setFlags r w) := (SameOperands.set hr).trans SameOperands.flags

/-- The part `put8` and `put16` share: the address in `R1`, the value in `R3`. -/
theorem run_putPrefix {store : Jit}
    (hplain : ∀ l, store ≠ .label l ∧ store ≠ .jmp l ∧ store ≠ .je l ∧ store ≠ .jne l)
    (h : Emits (compilePut store defs) ctx s t code s') (hx : IsBuffer m.heap x b)
    (hb : Supplies m s.frame.sp (defs 0) (.cell x))
    (hi : IntArg s.heap m s.frame.sp (defs 1) (BitVec.ofNat 64 i)) (hlt : i < 2 ^ 32)
    (hv : IntArg s.heap m s.frame.sp (defs 2) v) :
    ∃ m₁, SameOperands m m₁ ∧ m₁.heap = m.heap ∧ m₁.regs r1 = .ptr (.bytes b) i ∧
      m₁.regs r3 = .int v ∧ run code m = step m₁ store := by
  obtain ⟨vi, hri, hvi⟩ := hi
  obtain ⟨vv, hrv, hvv⟩ := hv
  unfold compilePut at h
  rw [emits_nextLabel_bind] at h
  generalize hs₁ : ({ s with labelSkipCount := s.labelSkipCount + 1 } : CState) = s₁ at h
  have hheap₁ : s₁.heap = s.heap := by rw [← hs₁]
  have hsp₁ : s₁.frame.sp = s.frame.sp := by rw [← hs₁]
  rw [← hheap₁] at hri hrv
  rw [← hsp₁] at hb hvi hvv
  obtain ⟨c₁, h₁, rfl⟩ := emits_loadCell_bind.mp h
  obtain ⟨c₂, h₂, rfl⟩ := (emits_loadInt_bind (x := ⟨defs 1, vi⟩) hri).mp h₁
  obtain ⟨c₃, h₃, rfl⟩ := (emits_loadInt_bind (x := ⟨defs 2, vv⟩) hrv).mp h₂
  obtain ⟨c₄, h₄, rfl⟩ := emits_emit_bind.mp h₃
  obtain ⟨c₅, h₅, rfl⟩ := emits_emit_bind.mp h₄
  rw [emits_ctx_bind] at h₅
  obtain ⟨-, rfl, -⟩ := emits_pure.mp h₅
  have h0 : r0 < lbdreg := by decide
  have h1 : r1 < lbdreg := by decide
  have h2 : r2 < lbdreg := by decide
  have h3 : r3 < lbdreg := by decide
  have hvi' := hvi.same (SameOperands.set (w := .cell x) h0) rfl
  have hvv' := (hvv.same (SameOperands.set (w := .cell x) h0) rfl).same
    (SameOperands.set (w := .int (BitVec.ofNat 64 i)) h2) rfl
  generalize hm : ((m.set r0 (.cell x)).set r2 (.int (BitVec.ofNat 64 i))).set r3 (.int v) = mL
  have hheap : mL.heap = m.heap := by rw [← hm]; rfl
  have hsame : SameOperands m mL := by
    rw [← hm]
    exact ((SameOperands.set h0).trans (SameOperands.set h2)).trans (SameOperands.set h3)
  have hx' : IsBuffer (mL.set r1 (.cell x)).heap x b := by
    rw [set_heap, hheap]
    exact hx
  refine ⟨(mL.set r1 (.cell x)).setFlags r1 (.ptr (.bytes b) i), ?_, ?_, ?_, ?_, ?_⟩
  · exact (hsame.trans (SameOperands.set h1)).trans (SameOperands.setFlags h1)
  · rw [setFlags_heap, set_heap, hheap]
  · rw [setFlags_regs, if_pos rfl]
  · rw [setFlags_regs, if_neg (by decide), set_regs, if_neg (by decide), ← hm, set_regs, if_pos rfl]
  · rw [run_append (run_loadCell hb), run_append (run_loadInt hvi'), run_append (run_loadInt hvv'),
      hm]
    have hr0 : mL.regs r0 = .cell x := by
      rw [← hm]
      rfl
    have hr2 : mL.regs r2 = .int (BitVec.ofNat 64 i) := by
      rw [← hm]
      rfl
    rw [List.append_nil, List.cons_append, run_cons (by simp), step, hr0, Option.bind_some,
      List.cons_append, List.cons_append, run_address hx' (by simp) (by decide) (by simpa using hr2)
      hlt, List.cons_append, run_cons hplain]
    cases step ((mL.set r1 (.cell x)).setFlags r1 (.ptr (.bytes b) i)) store with
    | none => rfl
    | some m₂ => rfl

/-- `put32`: the value is in `R3`, but the address comes from the cell in `R0`. -/
theorem run_put32 (h : Emits (compilePut32 defs) ctx s t code s')
    (hb : Supplies m s.frame.sp (defs 0) (.cell x))
    (hi : IntArg s.heap m s.frame.sp (defs 1) (BitVec.ofNat 64 i))
    (hv : IntArg s.heap m s.frame.sp (defs 2) v) :
    ∃ m₁, SameOperands m m₁ ∧ m₁.heap = m.heap ∧
      run code m = (m.loadWord (m.regs r0)).bind fun p =>
        ((m₁.setFlags r1 (addWord p (.int (BitVec.ofNat 64 i)))).storeBytes 4 (.int v)
          (addWord p (.int (BitVec.ofNat 64 i)))).bind (run [.movr r0 r1, .call .allocInt]) := by
  obtain ⟨vi, hri, hvi⟩ := hi
  obtain ⟨vv, hrv, hvv⟩ := hv
  unfold compilePut32 at h
  rw [emits_nextLabel_bind] at h
  generalize hs₁ : ({ s with labelSkipCount := s.labelSkipCount + 1 } : CState) = s₁ at h
  have hheap₁ : s₁.heap = s.heap := by rw [← hs₁]
  have hsp₁ : s₁.frame.sp = s.frame.sp := by rw [← hs₁]
  rw [← hheap₁] at hri hrv
  rw [← hsp₁] at hb hvi hvv
  obtain ⟨c₁, h₁, rfl⟩ := emits_loadCell_bind.mp h
  obtain ⟨c₂, h₂, rfl⟩ := (emits_loadInt_bind (x := ⟨defs 1, vi⟩) hri).mp h₁
  obtain ⟨c₃, h₃, rfl⟩ := (emits_loadInt_bind (x := ⟨defs 2, vv⟩) hrv).mp h₂
  obtain ⟨c₄, h₄, rfl⟩ := emits_emit_bind.mp h₃
  obtain ⟨c₅, h₅, rfl⟩ := emits_emit_bind.mp h₄
  obtain ⟨c₆, h₆, rfl⟩ := emits_emit_bind.mp h₅
  rw [emits_ctx_bind] at h₆
  obtain ⟨-, rfl, -⟩ := emits_pure.mp h₆
  have h1 : r1 < lbdreg := by decide
  have h2 : r2 < lbdreg := by decide
  have h3 : r3 < lbdreg := by decide
  have hvi' := hvi.same (SameOperands.set (w := .cell x) h1) rfl
  have hvv' := (hvv.same (SameOperands.set (w := .cell x) h1) rfl).same
    (SameOperands.set (w := .int (BitVec.ofNat 64 i)) h2) rfl
  generalize hm : ((m.set r1 (.cell x)).set r2 (.int (BitVec.ofNat 64 i))).set r3 (.int v) = mL
  have hheap : mL.heap = m.heap := by rw [← hm]; rfl
  have hentry : mL.entry = m.entry := by rw [← hm]; rfl
  have hr0 : mL.regs r0 = m.regs r0 := by rw [← hm]; rfl
  have hr2 : mL.regs r2 = .int (BitVec.ofNat 64 i) := by rw [← hm]; rfl
  have hr3 : mL.regs r3 = .int v := by rw [← hm]; rfl
  have hload : ∀ w, (mL.set r1 (m.regs r0)).loadWord w = m.loadWord w := by
    intro w
    unfold State.loadWord
    rw [set_heap, set_entry, hheap, hentry]
  have hsame : SameOperands m mL := by
    rw [← hm]
    exact ((SameOperands.set h1).trans (SameOperands.set h2)).trans (SameOperands.set h3)
  refine ⟨mL, hsame, hheap, ?_⟩
  rw [run_append (run_loadCell hb), run_append (run_loadInt hvi'), run_append (run_loadInt hvv'),
    hm, List.append_nil, List.cons_append, run_cons (by simp), step, hr0, Option.bind_some,
    List.cons_append, run_cons (by simp), step, set_regs, if_pos rfl, hload]
  cases m.loadWord (m.regs r0) with
  | none => rfl
  | some p =>
    rw [Option.map_some, Option.bind_some, Option.bind_some, set_set, List.cons_append,
      run_cons (by simp), step, set_regs, if_pos rfl, set_regs, if_neg (by decide), hr2,
      Option.bind_some, List.cons_append, run_cons (by simp), step, State.setFlags, set_set,
      ← State.setFlags, setFlags_regs, setFlags_regs, if_pos rfl, if_neg (by decide), hr3]
    rfl

/-- The type check and the load of `get8` and `get16`. -/
def getBody (n : ℕ) (load : Jit) : List Jit :=
  [.cmpi r1 tagBytes, .je (.ok n), .cmpi r1 tagStr, .je (.ok n), .movi r3 (.int 0),
    .jmp (.skip n), .label (.ok n), .movr r1 r0, .movr r1 r0, .ldr r1, .addr r1 r2,
    .movi r3 (.int 0), load, .label (.skip n)]

/-- From the label on: the address is computed and the load executed. -/
theorem run_getLoad (n : ℕ) (rest : List Jit) {load : Jit}
    (hplain : ∀ l, load ≠ .label l ∧ load ≠ .jmp l ∧ load ≠ .je l ∧ load ≠ .jne l)
    (hx : IsBuffer m.heap x b) (hr0 : m.regs r0 = .cell x)
    (hr2 : m.regs r2 = .int (BitVec.ofNat 64 i)) (hlt : i < 2 ^ 32) :
    ∃ m₁, SameOperands m m₁ ∧ m₁.heap = m.heap ∧ m₁.regs r1 = .ptr (.bytes b) i ∧
      run ([.movr r1 r0, .movr r1 r0, .ldr r1, .addr r1 r2, .movi r3 (.int 0), load,
        .label (.skip n)] ++ rest) m = (step m₁ load).bind (run rest) := by
  have h1 : r1 < lbdreg := by decide
  have h3 : r3 < lbdreg := by decide
  have hx' : IsBuffer (m.set r1 (.cell x)).heap x b := hx
  refine ⟨((m.set r1 (.cell x)).setFlags r1 (.ptr (.bytes b) i)).set r3 (.int 0), ?_, ?_, ?_, ?_⟩
  · exact ((SameOperands.set h1).trans (SameOperands.setFlags h1)).trans (SameOperands.set h3)
  · rw [set_heap, setFlags_heap, set_heap]
  · rw [set_regs, if_neg (by decide), setFlags_regs, if_pos rfl]
  · rw [List.cons_append, run_cons (by simp), step, hr0, Option.bind_some, List.cons_append,
      run_cons (by simp), step, set_regs, if_neg (by decide), hr0, set_set, Option.bind_some,
      List.cons_append, List.cons_append, run_address hx' (by simp) (by decide)
      (by simpa using hr2) hlt, List.cons_append, run_cons (by simp), step, Option.bind_some,
      List.cons_append, run_cons hplain]
    rfl

theorem run_getBody (n : ℕ) (rest : List Jit) {tag : ℕ} {load : Jit}
    (hplain : ∀ l, load ≠ .label l ∧ load ≠ .jmp l ∧ load ≠ .je l ∧ load ≠ .jne l)
    (hx : IsBuffer m.heap x b) (htag : tag = tagBytes ∨ tag = tagStr)
    (hr1 : m.regs r1 = .ofNat tag) (hr0 : m.regs r0 = .cell x)
    (hr2 : m.regs r2 = .int (BitVec.ofNat 64 i)) (hlt : i < 2 ^ 32) :
    ∃ m₁, SameOperands m m₁ ∧ m₁.heap = m.heap ∧ m₁.regs r1 = .ptr (.bytes b) i ∧
      run (getBody n load ++ rest) m = (step m₁ load).bind (run rest) := by
  -- the comparison leaves a state that differs in the flags only
  obtain ⟨mF, hsame, hheap, hregs, hrun⟩ : ∃ mF, SameOperands m mF ∧ mF.heap = m.heap ∧
      mF.regs = m.regs ∧ run (getBody n load ++ rest) m = run ([.movr r1 r0, .movr r1 r0, .ldr r1,
        .addr r1 r2, .movi r3 (.int 0), load, .label (.skip n)] ++ rest) mF := by
    have hskip : ∀ (mF : State) (is : List Jit), mF.zf = some true →
        run (.je (.ok n) :: is) mF = exec (some (.ok n)) is mF := by
      intro mF is hz
      rw [run_je, hz]
      rfl
    rcases htag with rfl | rfl
    · refine ⟨m.flags (.int 0), SameOperands.flags, flags_heap, flags_regs, ?_⟩
      simp only [getBody, List.cons_append]
      rw [run_cons (by simp), step, hr1, Option.bind_some]
      refine (hskip _ _ rfl).trans ?_
      simp [isLabel]
      rfl
    · refine ⟨(m.flags (.int (-1))).flags (.int 0), SameOperands.flags.trans SameOperands.flags,
        flags_heap.trans flags_heap, flags_regs.trans flags_regs, ?_⟩
      simp only [getBody, List.cons_append]
      rw [run_cons (by simp), step, hr1, Option.bind_some, run_je]
      change run _ (m.flags (.int (-1))) = _
      rw [run_cons (by simp), step, flags_regs, hr1, Option.bind_some]
      refine (hskip _ _ rfl).trans ?_
      simp [isLabel]
      rfl
  obtain ⟨m₁, hs₁, hh₁, hr₁, hrun₁⟩ := run_getLoad n rest hplain
    (hheap ▸ hx) (hregs ▸ hr0) (hregs ▸ hr2) hlt
  exact ⟨m₁, hsame.trans hs₁, hh₁.trans hheap, hr₁, hrun.trans hrun₁⟩

/-- The number the `n` bytes at offset `off` of buffer `b` make. -/
def bytesAt (h : Heap) (b off n : ℕ) : ℕ := ofLe (((h.bytes b).drop off).take n)

theorem bytesAt_lt {h : Heap} {off n : ℕ} (hin : off + n ≤ (h.bytes b).length) :
    bytesAt h b off n < 2 ^ (8 * n) := by
  have hlen : (((h.bytes b).drop off).take n).length = n := by
    rw [List.length_take, List.length_drop]
    omega
  have hlt := ofLe_lt (((h.bytes b).drop off).take n)
  rw [hlen] at hlt
  exact hlt

theorem loadBytes_buffer {n : ℕ} (hin : i + n ≤ (m.heap.bytes b).length) :
    m.loadBytes n (.ptr (.bytes b) i) = some (BitVec.ofNat 64 (bytesAt m.heap b i n)) := by
  rw [State.loadBytes, if_pos ⟨by omega, by rw [Int.toNat_natCast]; exact hin⟩, Int.toNat_natCast]
  rfl

/-- `load` reads `n` bytes at the address in `R1` into `R3`. -/
def Loads (n : ℕ) (load : Jit) : Prop :=
  ∀ (m : State) (v : BitVec 64), m.loadBytes n (m.regs r1) = some v →
    ∃ m', step m load = some m' ∧ m'.regs r3 = .int v ∧ m'.heap = m.heap

theorem loads_ldrb : Loads 1 (.ldrb r1) := by
  intro m v hv
  refine ⟨((m.set r3 (.int v)).set r1 (.int v)).flags (.int v), ?_, ?_, ?_⟩
  · rw [step, loadNarrow, hv]
    rfl
  · rw [flags_regs]
    rfl
  · rw [flags_heap]
    rfl

theorem loads_ldrs : Loads 2 (.ldrs r1) := by
  intro m v hv
  refine ⟨((m.set r3 (.int v)).set r1 (.int v)).flags (.int v), ?_, ?_, ?_⟩
  · rw [step, loadNarrow, hv]
    rfl
  · rw [flags_regs]
    rfl
  · rw [flags_heap]
    rfl

/-- How an integer builtin ends. -/
theorem emits_intResult (h : Emits (intResult returnType) ctx s t code s') :
    (t = .cell ctx.prototypeAny ∧ code = [.call .allocInt]) ∨
      (t = .cell ctx.prototypeInt ∧ code = [.movr r0 argr0]) := by
  unfold intResult tagOf at h
  rw [emits_ctx_bind, emits_bind] at h
  obtain ⟨tag, code₁, s₁, code₂, h₁, h₂, rfl⟩ := h
  obtain ⟨c, -, h₁⟩ := emits_fetch_bind.mp h₁
  obtain ⟨-, rfl, -⟩ := emits_pure.mp h₁
  split at h₂
  · obtain ⟨rest, h₃, rfl⟩ := emits_emit_bind.mp h₂
    obtain ⟨rfl, rfl, -⟩ := emits_pure.mp h₃
    exact .inl ⟨rfl, rfl⟩
  · obtain ⟨rest, h₃, rfl⟩ := emits_emit_bind.mp h₂
    obtain ⟨rfl, rfl, -⟩ := emits_pure.mp h₃
    exact .inr ⟨rfl, rfl⟩

/-- The result of an integer builtin, raw or boxed. -/
theorem run_intResult (h : Emits (intResult returnType) ctx s t code s')
    (hok : m.heap.FreeListOk) (hroom : 0 < m.heap.room) (hr : m.regs argr0 = .int v)
    (hbox : Heap.boxInt v = v) : ∃ m', run code m = some m' ∧ Yields ctx t m' v := by
  rcases emits_intResult h with ⟨ht, rfl⟩ | ⟨ht, rfl⟩
  · obtain ⟨c, m', hrun, h0, htag, har⟩ := run_allocInt hok hroom hr
    exact ⟨m', hrun, .inr ⟨ht, c, h0, htag, by rw [har, hbox]⟩⟩
  · refine ⟨m.set r0 (.int v), ?_, .inl ⟨ht, by simp⟩⟩
    rw [run_cons (by simp), step, hr]
    rfl

/-- `get8` and `get16` read at the index. -/
theorem run_get {load : Jit} {n : ℕ} (hn : n ≤ 2)
    (hplain : ∀ l, load ≠ .label l ∧ load ≠ .jmp l ∧ load ≠ .je l ∧ load ≠ .jne l)
    (hload : Loads n load) (h : Emits (compileGet load returnType defs) ctx s t code s')
    (hx : IsBuffer m.heap x b) (hb : Supplies m s.frame.sp (defs 0) (.cell x))
    (hi : IntArg s.heap m s.frame.sp (defs 1) (BitVec.ofNat 64 i))
    (hin : i + n ≤ (m.heap.bytes b).length) (hok : m.heap.FreeListOk) (hroom : 0 < m.heap.room) :
    ∃ m', run code m = some m' ∧ Yields ctx t m' (BitVec.ofNat 64 (bytesAt m.heap b i n)) := by
  have hlt : i < 2 ^ 32 := by
    have := hx.size
    omega
  obtain ⟨vi, hri, hvi⟩ := hi
  unfold compileGet at h
  rw [emits_nextLabel_bind] at h
  generalize hs₁ : ({ s with labelSkipCount := s.labelSkipCount + 1 } : CState) = s₁ at h
  have hheap₁ : s₁.heap = s.heap := by rw [← hs₁]
  have hsp₁ : s₁.frame.sp = s.frame.sp := by rw [← hs₁]
  rw [← hheap₁] at hri
  rw [← hsp₁] at hb hvi
  obtain ⟨c₁, h₁, rfl⟩ := emits_loadCell_bind.mp h
  obtain ⟨c₂, h₂, rfl⟩ := (emits_loadInt_bind (x := ⟨defs 1, vi⟩) hri).mp h₁
  obtain ⟨c₃, h₃, rfl⟩ := emits_emit_bind.mp h₂
  obtain ⟨c₄, h₄, rfl⟩ := emits_emit_bind.mp h₃
  obtain ⟨c₅, h₅, rfl⟩ := emits_emit_bind.mp h₄
  have h0 : r0 < lbdreg := by decide
  have h1 : r1 < lbdreg := by decide
  have hvi' := hvi.same (SameOperands.set (w := .cell x) h1) rfl
  -- the tag is in `R1` when the comparisons start
  generalize hm : (((m.set r1 (.cell x)).set r2 (.int (BitVec.ofNat 64 i))).set r0
    (.cell x)).setFlags r1 (.ptr (.cell x) 16) = mA
  have hheap : (mA.set r1 (.ofNat (m.heap.cells x).tag)).heap = m.heap := by
    rw [set_heap, ← hm, setFlags_heap]
    rfl
  obtain ⟨m₁, -, hh₁, hr₁, hrun⟩ := run_getBody (s.labelSkipCount + 1) (.movr argr0 r3 :: c₅)
    (m := mA.set r1 (.ofNat (m.heap.cells x).tag)) hplain (hheap.symm ▸ hx) hx.tag
    (by simp) (by rw [set_regs, if_neg (by decide), ← hm, setFlags_regs]; rfl)
    (by rw [set_regs, if_neg (by decide), ← hm, setFlags_regs]; rfl) hlt
  have hin₁ : i + n ≤ (m₁.heap.bytes b).length := by
    rw [hh₁, hheap]
    exact hin
  obtain ⟨m₂, hstep, hr3, hh₂⟩ := hload m₁ _ (by rw [hr₁]; exact loadBytes_buffer hin₁)
  rw [hh₁, hheap] at hr3
  have hheap₂ : (m₂.set argr0 (.int (BitVec.ofNat 64 (bytesAt m.heap b i n)))).heap = m.heap := by
    rw [set_heap, hh₂, hh₁, hheap]
  have hsmall : bytesAt m.heap b i n < 2 ^ 31 := by
    have hlow := bytesAt_lt hin
    have hpow : 2 ^ (8 * n) ≤ 2 ^ 16 := Nat.pow_le_pow_right (by decide) (by omega)
    omega
  obtain ⟨m', hfinal, hyield⟩ := run_intResult h₅ (hheap₂.symm ▸ hok) (hheap₂.symm ▸ hroom)
    (by simp) (boxInt_ofNat hsmall)
  refine ⟨m', ?_, hyield⟩
  rw [run_append (run_loadCell hb), run_append (run_loadInt hvi'), List.cons_append,
    run_cons (by simp), step, set_regs, if_neg (by decide), set_regs, if_pos rfl, Option.bind_some,
    List.cons_append, run_cons (by simp), step, set_regs, if_neg (by decide), set_regs,
    if_neg (by decide), set_regs, if_pos rfl, Option.bind_some]
  have haddr : addWord (.cell x) (.int (BitVec.ofInt 64 (2 * ptrsz))) = .ptr (.cell x) 16 := rfl
  have hmA : mA.regs r1 = .ptr (.cell x) 16 := by
    rw [← hm, setFlags_regs, if_pos rfl]
  have htag : mA.loadWord (.ptr (.cell x) 16) = some (.ofNat (m.heap.cells x).tag) := by
    have hA : mA.heap = m.heap := hheap
    simp [State.loadWord, hA]
  rw [haddr, hm, List.cons_append, run_cons (by simp), step, hmA, htag, Option.map_some,
    Option.bind_some]
  change run (getBody (s.labelSkipCount + 1) load ++ .movr argr0 r3 :: c₅) _ = _
  rw [hrun, hstep, Option.bind_some, run_cons (by simp), step, hr3, Option.bind_some, hfinal]

/-- `get32` reads at four times the index and boxes what it read. -/
theorem run_get32 (h : Emits (compileGet32 defs) ctx s t code s')
    (hx : IsBuffer m.heap x b) (hb : Supplies m s.frame.sp (defs 0) (.cell x))
    (hi : IntArg s.heap m s.frame.sp (defs 1) (BitVec.ofNat 64 i))
    (hin : 4 * i + 4 ≤ (m.heap.bytes b).length) (hok : m.heap.FreeListOk)
    (hroom : 0 < m.heap.room) :
    t = .cell ctx.prototypeAny ∧ ∃ (c : ℕ) (m' : State), run code m = some m' ∧ m'.regs r0 = .cell c ∧
      (m'.heap.cells c).tag = tagInt ∧
      (m'.heap.cells c).ar = .int (Heap.boxInt (BitVec.ofNat 64 (bytesAt m.heap b (4 * i) 4))) := by
  have hlt : 4 * i < 2 ^ 32 := by
    have := hx.size
    omega
  obtain ⟨vi, hri, hvi⟩ := hi
  unfold compileGet32 at h
  obtain ⟨c₁, h₁, rfl⟩ := (emits_loadInt_bind (x := ⟨defs 1, vi⟩) hri).mp h
  obtain ⟨c₂, h₂, rfl⟩ := emits_loadCell_bind.mp h₁
  obtain ⟨c₃, h₃, rfl⟩ := emits_emit_bind.mp h₂
  rw [emits_ctx_bind] at h₃
  obtain ⟨rfl, rfl, -⟩ := emits_pure.mp h₃
  have h2 : r2 < lbdreg := by decide
  have hb' := hb.same (SameOperands.set (w := .int (BitVec.ofNat 64 i)) h2)
  have hshift : BitVec.ofNat 64 i <<< ((2 : BitVec 64).toNat % 64) = BitVec.ofNat 64 (4 * i) := by
    apply BitVec.eq_of_toNat_eq
    have h64 : (2 : BitVec 64).toNat % 64 = 2 := rfl
    rw [h64, BitVec.toNat_shiftLeft, BitVec.toNat_ofNat, BitVec.toNat_ofNat, Nat.shiftLeft_eq,
      Nat.mod_eq_of_lt (show i < 2 ^ 64 by omega), Nat.mul_comm]
  generalize hm : (m.set r2 (.int (BitVec.ofNat 64 i))).set r3 (.cell x) = mL
  have hheap : mL.heap = m.heap := by rw [← hm]; rfl
  have hr2 : mL.regs r2 = .int (BitVec.ofNat 64 i) := by rw [← hm]; rfl
  have hr3 : mL.regs r3 = .cell x := by rw [← hm]; rfl
  -- after the shift
  generalize hm₁ : ((mL.set r3 (.ptr (.bytes b) 0)).set r1 (.int 2)).setFlags r2
    (.int (BitVec.ofNat 64 (4 * i))) = m₁
  have hshl : shift ((mL.set r3 (.ptr (.bytes b) 0)).set r1 (.int 2)) r2 r1 (fun a n => a <<< n) =
      m₁ := by
    have ha : ((mL.set r3 (.ptr (.bytes b) 0)).set r1 (.int 2)).regs r2 =
        .int (BitVec.ofNat 64 i) := by
      rw [set_regs, if_neg (by decide), set_regs, if_neg (by decide), hr2]
    have hc : ((mL.set r3 (.ptr (.bytes b) 0)).set r1 (.int 2)).regs r1 = .int 2 := by
      rw [set_regs, if_pos rfl]
    rw [shift, ha, hc]
    dsimp only
    rw [if_neg (by decide), hshift, hm₁]
  have hheap₁ : m₁.heap = m.heap := by
    rw [← hm₁, setFlags_heap, set_heap, set_heap, hheap]
  have haddr : addWord (m₁.regs r3) (m₁.regs r2) = .ptr (.bytes b) (4 * i : ℕ) := by
    rw [← hm₁, setFlags_regs, setFlags_regs, if_neg (by decide), if_pos rfl, set_regs,
      if_neg (by decide), set_regs, if_pos rfl, addWord, toInt_ofNat hlt, zero_add]
  -- after the load
  generalize hm₂ : m₁.setFlags r3 (.ptr (.bytes b) (4 * i : ℕ)) = m₂
  have hheap₂ : m₂.heap = m.heap := by
    rw [← hm₂, setFlags_heap, hheap₁]
  have haddr₂ : m₂.regs r3 = .ptr (.bytes b) (4 * i : ℕ) := by
    rw [← hm₂, setFlags_regs, if_pos rfl]
  have hload : loadNarrow m₂ 4 r3 =
      some (m₂.set r3 (.int (BitVec.ofNat 64 (bytesAt m.heap b (4 * i) 4)))) := by
    rw [loadNarrow, haddr₂, loadBytes_buffer (by rw [hheap₂]; exact hin), hheap₂, Option.map_some,
      set_set]
  generalize BitVec.ofNat 64 (bytesAt m.heap b (4 * i) 4) = u at hload ⊢
  have hheap₃ : ((m₂.set r3 (.int u)).set argr0 (.int u)).heap = m.heap := hheap₂
  obtain ⟨c, m', hrun, h0, htag, har⟩ := run_allocInt (hheap₃.symm ▸ hok) (hheap₃.symm ▸ hroom)
    (v := u) (by simp)
  refine ⟨rfl, c, m', ?_, h0, htag, har⟩
  rw [run_append (run_loadInt hvi), run_append (run_loadCell hb'), hm, List.append_nil,
    run_cons (by simp), step, hr3, loadWord_cell, hheap, hx.address, Option.map_some,
    Option.bind_some, run_cons (by simp), step, Option.bind_some, run_cons (by simp), step, hshl,
    Option.bind_some, run_cons (by simp), step, haddr, hm₂, Option.bind_some, run_cons (by simp),
    step, hload, Option.bind_some, run_cons (by simp), step, set_regs, if_pos rfl,
    Option.bind_some, hrun]

end Run

/-! ## The round trip -/

/-- `m` with other contents in buffer `b`. -/
def State.withBytes (m : State) (b : ℕ) (bs : List UInt8) : State :=
  { m with heap := m.heap.setBytes b bs }

/-- `m'` differs from `m` in `n` bytes of buffer `b`, and in cells that were
    not in use. -/
structure PutChanges (n : ℕ) (m m' : State) (b : ℕ) : Prop where
  bytes : ∃ off data, data.length = n ∧ off + n ≤ (m.heap.bytes b).length ∧
    m'.heap.bytes b = splice (m.heap.bytes b) off data
  buffers : ∀ b' ≠ b, m'.heap.bytes b' = m.heap.bytes b'
  cells : ∀ j ∉ m.heap.Supply, m'.heap.cells j = m.heap.cells j
  arrays : m'.heap.elems = m.heap.elems
  entry : m'.entry = m.entry
  stack : m'.stack = m.stack

/-- In a state with the heap of `m`, the code of `(get buf i)` yields `u`,
    wherever its operands are. -/
def GetYields (w : Width) (m : State) (x i : ℕ) (u : BitVec 64) : Prop :=
  ∀ ⦃ctx : Ctx⦄ ⦃s s' : CState⦄ ⦃defs : ℕ → Arg⦄ ⦃t returnType : Word⦄ ⦃code : List Jit⦄
    ⦃m₁ : State⦄, m₁.heap = m.heap → Emits (w.get returnType defs) ctx s t code s' →
    Supplies m₁ s.frame.sp (defs 0) (.cell x) →
    IntArg s.heap m₁ s.frame.sp (defs 1) (BitVec.ofNat 64 i) →
    ∃ m₂, run code m₁ = some m₂ ∧ Yields ctx t m₂ u

/-- Running the code of `(put buf i v)` and then that of `(get buf i)` yields
    `v` modulo the width, and the put changes only that many bytes. -/
def RoundTrips (w : Width) (m : State) (code : List Jit) (x b i : ℕ) (v : BitVec 64) : Prop :=
  ∃ m', run code m = some m' ∧ PutChanges w.bytes m m' b ∧
    GetYields w m' x i (BitVec.ofNat 64 (v.toNat % 2 ^ (8 * w.bytes)))

section RoundTrip

variable {ctx : Ctx} {s s' : CState} {defs : ℕ → Arg} {t : Word} {code : List Jit} {m m' : State}
  {x b i n : ℕ} {v : BitVec 64} {w : Width}

theorem setBytes_room {h : Heap} {bs : List UInt8} : (h.setBytes b bs).room = h.room := rfl

theorem setBytes_freeListOk {h : Heap} {bs : List UInt8} (hok : h.FreeListOk) :
    (h.setBytes b bs).FreeListOk := ⟨hok.nodup, hok.below⟩

/-- The number written is the number read. -/
theorem bytesAt_splice {h : Heap} {bs : List UInt8} {off : ℕ} {u : ℕ}
    (hb : h.bytes b = splice bs off (leBytes n u)) (hin : off + n ≤ bs.length) :
    bytesAt h b off n = u % 2 ^ (8 * n) := by
  have hslice : ((splice bs off (leBytes n u)).drop off).take (leBytes n u).length = leBytes n u :=
    splice_slice (by simpa using hin)
  rw [leBytes_length] at hslice
  rw [bytesAt, hb, hslice, ofLe_leBytes]

theorem IsBuffer.of_splice {h : Heap} {off : ℕ} {data : List UInt8} (hx : IsBuffer m.heap x b)
    (hc : h.cells x = m.heap.cells x) (hb : h.bytes b = splice (m.heap.bytes b) off data)
    (hin : off + data.length ≤ (m.heap.bytes b).length) : IsBuffer h x b where
  tag := by rw [hc]; exact hx.tag
  address := by rw [hc]; exact hx.address
  size := by rw [hb, splice_length hin]; exact hx.size

/-- `put8` and `put16` with the matching `get`. -/
theorem roundTrips_narrow {store load : Jit} (hn : n ≤ 2)
    (hstore : ∀ l, store ≠ .label l ∧ store ≠ .jmp l ∧ store ≠ .je l ∧ store ≠ .jne l)
    (hload : ∀ l, load ≠ .label l ∧ load ≠ .jmp l ∧ load ≠ .je l ∧ load ≠ .jne l)
    (hstep : ∀ m, step m store = m.storeBytes n (m.regs r3) (m.regs r1)) (hloads : Loads n load)
    (hget : w.get = compileGet load) (hw : w.bytes = n)
    (h : Emits (compilePut store defs) ctx s t code s') (hx : IsBuffer m.heap x b)
    (hb : Supplies m s.frame.sp (defs 0) (.cell x))
    (hi : IntArg s.heap m s.frame.sp (defs 1) (BitVec.ofNat 64 i))
    (hv : IntArg s.heap m s.frame.sp (defs 2) v) (hin : i + n ≤ (m.heap.bytes b).length)
    (hok : m.heap.FreeListOk) (hroom : 0 < m.heap.room) : RoundTrips w m code x b i v := by
  have hlt : i < 2 ^ 32 := by
    have := hx.size
    omega
  obtain ⟨m₁, hsame, hheap, hr1, hr3, hrun⟩ := run_putPrefix hstore h hx hb hi hlt hv
  have hput : step m₁ store = some (m₁.withBytes b (splice (m.heap.bytes b) i
      (leBytes n v.toNat))) := by
    rw [hstep, hr1, hr3, State.storeBytes, hheap, if_pos ⟨by omega, by simpa using hin⟩,
      Int.toNat_natCast, State.withBytes, hheap]
  have hbytes : (m₁.withBytes b (splice (m.heap.bytes b) i (leBytes n v.toNat))).heap.bytes b =
      splice (m.heap.bytes b) i (leBytes n v.toNat) := by
    simp [State.withBytes]
  have hx' : IsBuffer (m₁.withBytes b (splice (m.heap.bytes b) i (leBytes n v.toNat))).heap x b := by
    refine hx.of_splice ?_ hbytes (by simpa using hin)
    change m₁.heap.cells x = _
    rw [hheap]
  refine ⟨_, hrun.trans hput, ⟨?_, ?_, ?_, ?_, hsame.entry, hsame.stack⟩, ?_⟩
  · exact ⟨i, leBytes n v.toNat, by rw [leBytes_length, hw], by rw [hw]; exact hin, hbytes⟩
  · intro b' hb'
    rw [← hheap]
    exact Function.update_of_ne hb' _ _
  · intro j _
    change m₁.heap.cells j = _
    rw [hheap]
  · change m₁.heap.elems = _
    rw [hheap]
  · intro ctx s s' defs t returnType code m₂ hm₂ hemit hb₂ hi₂
    rw [hget] at hemit
    rw [← hm₂] at hx' hbytes
    have hin₂ : i + n ≤ (m₂.heap.bytes b).length := by
      rw [hbytes, splice_length (by simpa using hin)]
      exact hin
    have hok₂ : m₂.heap.FreeListOk := by
      rw [hm₂]
      apply setBytes_freeListOk
      rw [hheap]
      exact hok
    have hroom₂ : 0 < m₂.heap.room := by
      rw [hm₂, State.withBytes, setBytes_room, hheap]
      exact hroom
    obtain ⟨m₃, hrun₃, hyield⟩ := run_get hn hload hloads hemit hx' hb₂ hi₂ hin₂ hok₂ hroom₂
    rw [bytesAt_splice hbytes hin] at hyield
    rw [hw]
    exact ⟨m₃, hrun₃, hyield⟩

/-- `cell_alloc` changes neither buffers nor arrays. -/
theorem allocCell_memory {h h' : Heap} {f : Cell → Cell} {c : ℕ}
    (ha : h.allocCell f = .ok (c, h')) : h'.bytes = h.bytes ∧ h'.elems = h.elems := by
  unfold Heap.allocCell Heap.cellAlloc at ha
  obtain ⟨⟨j, h₁⟩, h₂, ha⟩ := bind_ok.mp ha
  obtain ⟨-, rfl⟩ := Prod.mk.inj (Except.ok.inj ha)
  split at h₂
  · obtain ⟨-, rfl⟩ := Prod.mk.inj (Except.ok.inj h₂)
    exact ⟨rfl, rfl⟩
  · split at h₂
    · exact absurd h₂ (by simp)
    · obtain ⟨-, rfl⟩ := Prod.mk.inj (Except.ok.inj h₂)
      exact ⟨rfl, rfl⟩

/-- The end of `put32`, if it is reached: a cell is made from the address. -/
theorem run_put32_end (h : run [.movr r0 r1, .call .allocInt] m = some m') :
    m'.heap.bytes = m.heap.bytes ∧ m'.heap.elems = m.heap.elems ∧ m'.entry = m.entry ∧
      m'.stack = m.stack := by
  rw [run_cons (by simp), step, Option.bind_some, run_cons (by simp), step, call] at h
  split at h
  · rename_i c h' hal
    obtain rfl := Option.some.inj h
    have hmem : h'.bytes = m.heap.bytes ∧ h'.elems = m.heap.elems := by
      unfold allocIntWord at hal
      split at hal
      · exact allocCell_memory hal
      · exact allocCell_memory hal
    exact ⟨hmem.1, hmem.2, rfl, rfl⟩
  · exact absurd h (by simp)

/-- The end of `put32` after a store to a buffer. -/
theorem run_put32_alloc {off : ℤ} (hok : m.heap.FreeListOk) (hroom : 2 ≤ m.heap.room)
    (hr : m.regs r1 = .ptr (.bytes b) off) :
    ∃ m', run [.movr r0 r1, .call .allocInt] m = some m' ∧
      (∀ j ∉ m.heap.Supply, m'.heap.cells j = m.heap.cells j) ∧ m'.heap.FreeListOk ∧
      0 < m'.heap.room := by
  obtain ⟨c, h', hal, hkeeps, -, -, -, hrm⟩ := Heap.allocCell_spec hok (by omega)
    fun c => { c with ar := .undef, tag := tagInt }
  refine ⟨returned { m.set r0 (.ptr (.bytes b) off) with heap := h' } (.cell c), ?_, ?_, ?_, ?_⟩
  · have hr1 : (m.set r0 (.ptr (.bytes b) off)).regs argr0 = .ptr (.bytes b) off := by
      rw [set_regs, if_neg (by decide)]
      exact hr
    rw [run_cons (by simp), step, hr, Option.bind_some, run_cons (by simp), step, call, hr1,
      allocIntWord, set_heap, hal]
    · rfl
    · simp
  · exact fun j hj => hkeeps.cells j hj (by simp)
  · exact hkeeps.freeListOk
  · change 0 < h'.room
    omega

/-- `put32` and `get32` when the cell in `R0` leads to the right place. -/
theorem roundTrips_w32 (h : Emits (compilePut32 defs) ctx s t code s') (hx : IsBuffer m.heap x b)
    (hb : Supplies m s.frame.sp (defs 0) (.cell x))
    (hi : IntArg s.heap m s.frame.sp (defs 1) (BitVec.ofNat 64 i))
    (hv : IntArg s.heap m s.frame.sp (defs 2) v)
    (hin : 4 * i + 4 ≤ (m.heap.bytes b).length) (hlive : x ∉ m.heap.Supply)
    (hok : m.heap.FreeListOk) (hroom : 2 ≤ m.heap.room)
    (hr0 : m.loadWord (m.regs r0) = some (.ptr (.bytes b) (3 * i : ℕ)))
    (hsmall : v.toNat % 2 ^ 32 < 2 ^ 31) : RoundTrips .w32 m code x b i v := by
  have hlt : i < 2 ^ 32 := by
    have := hx.size
    omega
  have haddr : addWord (.ptr (.bytes b) (3 * i : ℕ)) (.int (BitVec.ofNat 64 i)) =
      .ptr (.bytes b) (4 * i : ℕ) := by
    rw [addWord, toInt_ofNat hlt]
    congr 1
    push_cast
    ring
  obtain ⟨m₁, hsame, hheap, hrun⟩ := run_put32 h hb hi hv
  rw [hr0, Option.bind_some, haddr] at hrun
  generalize hm₂ : m₁.setFlags r1 (.ptr (.bytes b) (4 * i : ℕ)) = m₂ at hrun
  have hheap₂ : m₂.heap = m.heap := by
    rw [← hm₂, setFlags_heap, hheap]
  have hr1₂ : m₂.regs r1 = .ptr (.bytes b) (4 * i : ℕ) := by
    rw [← hm₂, setFlags_regs, if_pos rfl]
  have hput : m₂.storeBytes 4 (.int v) (.ptr (.bytes b) (4 * i : ℕ)) =
      some (m₂.withBytes b (splice (m.heap.bytes b) (4 * i) (leBytes 4 v.toNat))) := by
    rw [State.storeBytes, hheap₂, if_pos ⟨by omega, by rw [Int.toNat_natCast]; exact hin⟩,
      Int.toNat_natCast, State.withBytes, hheap₂]
  rw [hput, Option.bind_some] at hrun
  have hok₃ : (m₂.withBytes b (splice (m.heap.bytes b) (4 * i) (leBytes 4 v.toNat))).heap.FreeListOk := by
    apply setBytes_freeListOk
    rw [hheap₂]
    exact hok
  have hroom₃ : 2 ≤ (m₂.withBytes b
      (splice (m.heap.bytes b) (4 * i) (leBytes 4 v.toNat))).heap.room := by
    rw [State.withBytes, setBytes_room, hheap₂]
    exact hroom
  obtain ⟨m', hend, hcells, hok', hroom'⟩ := run_put32_alloc hok₃ hroom₃ hr1₂
  obtain ⟨hbytes', helems', hentry', hstack'⟩ := run_put32_end hend
  have hbytes : m'.heap.bytes b = splice (m.heap.bytes b) (4 * i) (leBytes 4 v.toNat) := by
    rw [hbytes']
    simp [State.withBytes]
  have hcells₃ : ∀ j ∉ m.heap.Supply, m'.heap.cells j = m.heap.cells j := by
    intro j hj
    have hsup : j ∉ (m₂.withBytes b (splice (m.heap.bytes b) (4 * i)
        (leBytes 4 v.toNat))).heap.Supply := by
      change j ∉ m₂.heap.Supply
      rw [hheap₂]
      exact hj
    rw [hcells j hsup]
    change m₂.heap.cells j = _
    rw [hheap₂]
  have hsame₂ : SameOperands m m₂ := by
    rw [← hm₂]
    exact hsame.trans (SameOperands.setFlags (by decide))
  refine ⟨m', hrun.trans hend, ⟨?_, ?_, hcells₃, ?_, ?_, ?_⟩, ?_⟩
  · exact ⟨4 * i, leBytes 4 v.toNat, leBytes_length _ _, hin, hbytes⟩
  · intro b' hb'
    rw [hbytes', ← hheap₂]
    exact Function.update_of_ne hb' _ _
  · rw [helems', ← hheap₂]
    rfl
  · rw [hentry']
    exact hsame₂.entry
  · rw [hstack']
    exact hsame₂.stack
  · intro ctx s s' defs t returnType code m₃ hm₃ hemit hb₃ hi₃
    have hx₃ : IsBuffer m₃.heap x b := by
      rw [hm₃]
      exact hx.of_splice (hcells₃ x hlive) hbytes (by simpa using hin)
    have hin₃ : 4 * i + 4 ≤ (m₃.heap.bytes b).length := by
      rw [hm₃, hbytes, splice_length (by simpa using hin)]
      exact hin
    obtain ⟨ht, c, m₄, hrun₄, h0, htag, har⟩ := run_get32 hemit hx₃ hb₃ hi₃ hin₃
      (hm₃ ▸ hok') (hm₃ ▸ hroom')
    refine ⟨m₄, hrun₄, .inr ⟨ht, c, h0, htag, ?_⟩⟩
    rw [har, hm₃, bytesAt_splice hbytes hin]
    exact congrArg Word.int (boxInt_ofNat hsmall)

/-- A store that succeeds goes to a buffer. -/
theorem storeBytes_some {a : Word} (h : m.storeBytes n (.int v) a = some m') :
    ∃ b' off, a = .ptr (.bytes b') off ∧ 0 ≤ off ∧ off.toNat + n ≤ (m.heap.bytes b').length ∧
      m' = m.withBytes b' (splice (m.heap.bytes b') off.toNat (leBytes n v.toNat)) := by
  unfold State.storeBytes at h
  split at h
  · rename_i u b' off hu
    split at h
    · rename_i hoff
      obtain rfl := Option.some.inj h
      cases hu
      exact ⟨b', off, rfl, hoff.1, hoff.2, rfl⟩
    · exact absurd h (by simp)
  · exact absurd h (by simp)

theorem addWord_int_eq_ptr {p : Word} {u : BitVec 64} {blk : Block} {off : ℤ}
    (h : addWord p (.int u) = .ptr blk off) : p = .ptr blk (off - u.toInt) := by
  cases p with
  | ptr blk' o =>
    obtain ⟨rfl, rfl⟩ := Word.ptr.inj h
    congr 1
    ring
  | int a => exact absurd h (by simp [addWord])
  | frame l => exact absurd h (by simp [addWord])
  | undef => exact absurd h (by simp [addWord])

/-- A pointer is not read out of a buffer. -/
theorem loadWord_withBytes {bs : List UInt8} {w : Word} {blk : Block} {off : ℤ} :
    (m.withBytes b bs).loadWord w = some (.ptr blk off) ↔ m.loadWord w = some (.ptr blk off) := by
  unfold State.loadWord
  split
  · exact Iff.rfl
  · exact Iff.rfl
  · exact Iff.rfl
  · constructor
    · intro h
      split at h
      · exact absurd (Option.some.inj h) (by simp)
      · exact absurd h (by simp)
    · intro h
      split at h
      · exact absurd (Option.some.inj h) (by simp)
      · exact absurd h (by simp)
  · exact Iff.rfl

/-- Some `get32` after a `put32` that works: it reads the bytes of the value,
    and the value is not read as negative. -/
theorem GetYields.slice {u : ℕ} (hg : GetYields .w32 m x i (BitVec.ofNat 64 (u % 2 ^ 32)))
    (hx : IsBuffer m.heap x b) (hin : 4 * i + 4 ≤ (m.heap.bytes b).length)
    (hok : m.heap.FreeListOk) (hroom : 0 < m.heap.room) (ctx : Ctx) (s : CState) :
    ((m.heap.bytes b).drop (4 * i)).take 4 = leBytes 4 u ∧ u % 2 ^ 32 < 2 ^ 31 := by
  -- the buffer as a literal, the index as a raw integer on the stack
  let defs : ℕ → Arg := fun k => if k = 0 then ⟨.const, .cell x, none, 0, none, none⟩
    else ⟨.stackInt, .null, none, 0, none, none⟩
  let m₁ : State := { m with stack := fun _ => .int (BitVec.ofNat 64 i) }
  have hi : IntArg s.heap m₁ s.frame.sp (defs 1) (BitVec.ofNat 64 i) :=
    ⟨.null, fun ht => absurd ht (by simp [defs]), rfl⟩
  obtain ⟨code, hemit⟩ : ∃ code, Emits (compileGet32 defs) ctx s (.cell ctx.prototypeAny) code s := by
    unfold compileGet32
    exact ⟨_, (emits_loadInt_bind (x := ⟨defs 1, .null⟩) (fun ht => absurd ht (by simp [defs]))).mpr
      ⟨_, emits_loadCell_bind.mpr ⟨_, emits_emit_bind.mpr
        ⟨_, emits_ctx_bind.mpr (emits_pure.mpr ⟨rfl, rfl, rfl⟩), rfl⟩, rfl⟩, rfl⟩⟩
  have hemit' : Emits (Width.w32.get .null defs) ctx s (.cell ctx.prototypeAny) code s := hemit
  obtain ⟨m₂, hrun, hyield⟩ := hg (show m₁.heap = m.heap from rfl) hemit' rfl hi
  obtain ⟨-, c, m₂', hrun', h0, -, har⟩ := run_get32 (m := m₁) hemit hx rfl hi hin hok hroom
  obtain rfl := Option.some.inj (hrun.symm.trans hrun')
  have hbox : Heap.boxInt (BitVec.ofNat 64 (bytesAt m.heap b (4 * i) 4)) =
      BitVec.ofNat 64 (u % 2 ^ 32) := by
    rcases hyield with ⟨-, hraw⟩ | ⟨-, c', h0', -, har'⟩
    · rw [h0] at hraw
      exact absurd hraw (by simp)
    · rw [h0] at h0'
      cases h0'
      exact Word.int.inj (har.symm.trans har')
  obtain ⟨hval, hsmall⟩ := boxInt_eq_ofNat (bytesAt_lt hin) (Nat.mod_lt _ (by decide)) hbox
  refine ⟨?_, hsmall⟩
  have hlen : (((m.heap.bytes b).drop (4 * i)).take 4).length = 4 := by
    rw [List.length_take, List.length_drop]
    omega
  have hback := leBytes_ofLe (((m.heap.bytes b).drop (4 * i)).take 4)
  rw [hlen] at hback
  rw [← hback]
  change leBytes 4 (bytesAt m.heap b (4 * i) 4) = _
  rw [hval]
  exact leBytes_mod 4 u

/-- The contents against which a misplaced `put32` shows: every byte that
    `get32` reads differs from the byte of the value. -/
def contrary (bs : List UInt8) (i : ℕ) (v : BitVec 64) : List UInt8 :=
  splice bs (4 * i) ((leBytes 4 v.toNat).map (· + 1))

theorem contrary_length {bs : List UInt8} (hin : 4 * i + 4 ≤ bs.length) :
    (contrary bs i v).length = bs.length := splice_length (by simpa using hin)

theorem contrary_getElem? {bs : List UInt8} {k : ℕ} (hin : 4 * i + 4 ≤ bs.length) (hk : k < 4) :
    (contrary bs i v)[4 * i + k]? ≠ (leBytes 4 v.toNat)[k]? := by
  have hkl : k < (leBytes 4 v.toNat).length := by
    rw [leBytes_length]
    exact hk
  rw [contrary, splice_getElem?_in (by simpa using hin) (by simpa using hk), List.getElem?_map,
    List.getElem?_eq_getElem hkl]
  intro h
  have hsucc := Option.some.inj h
  have hnat := congrArg UInt8.toNat hsucc
  rw [UInt8.toNat_add] at hnat
  have hlt := ((leBytes 4 v.toNat).get ⟨k, hkl⟩).toNat_lt
  simp at hnat hlt
  omega

/-- A `put32` that works against these contents stored where `get32` reads. -/
theorem roundTrips_w32_place (h : Emits (compilePut32 defs) ctx s t code s')
    (hx : IsBuffer m.heap x b) (hb : Supplies m s.frame.sp (defs 0) (.cell x))
    (hi : IntArg s.heap m s.frame.sp (defs 1) (BitVec.ofNat 64 i))
    (hv : IntArg s.heap m s.frame.sp (defs 2) v)
    (hin : 4 * i + 4 ≤ (m.heap.bytes b).length) (hlive : x ∉ m.heap.Supply)
    (hok : m.heap.FreeListOk) (hroom : 2 ≤ m.heap.room)
    (hrt : RoundTrips .w32 (m.withBytes b (contrary (m.heap.bytes b) i v)) code x b i v) :
    m.loadWord (m.regs r0) = some (.ptr (.bytes b) (3 * i : ℕ)) ∧
      v.toNat % 2 ^ 32 < 2 ^ 31 := by
  have hsame : SameOperands m (m.withBytes b (contrary (m.heap.bytes b) i v)) :=
    ⟨fun _ _ => rfl, rfl, rfl, rfl⟩
  have hlen := contrary_length (v := v) hin
  have hbytesB : (m.withBytes b (contrary (m.heap.bytes b) i v)).heap.bytes b =
      contrary (m.heap.bytes b) i v := by
    simp [State.withBytes]
  obtain ⟨m', hrun, -, hget⟩ := hrt
  obtain ⟨m₁, -, hheap, hcode⟩ := run_put32 h (hb.same hsame) (hi.same hsame rfl) (hv.same hsame rfl)
  rw [hcode] at hrun
  obtain ⟨p, hp, hrun⟩ := Option.bind_eq_some_iff.mp hrun
  obtain ⟨m₂, hstore, hend⟩ := Option.bind_eq_some_iff.mp hrun
  obtain ⟨b', off, haddr, hoff, hle, rfl⟩ := storeBytes_some hstore
  rw [haddr] at hend hle
  rw [setFlags_heap, hheap] at hend hle
  generalize hmS : m₁.setFlags r1 (.ptr (.bytes b') off) = mS at hend
  have hheapS : mS.heap = (m.withBytes b (contrary (m.heap.bytes b) i v)).heap := by
    rw [← hmS, setFlags_heap, hheap]
  have hr1 : mS.regs r1 = .ptr (.bytes b') off := by
    rw [← hmS, setFlags_regs, if_pos rfl]
  -- what the allocation at the end leaves
  obtain ⟨m'', hend', hcells, hok', hroom'⟩ := run_put32_alloc
    (m := mS.withBytes b' (splice ((m.withBytes b (contrary (m.heap.bytes b) i v)).heap.bytes b')
      off.toNat (leBytes 4 v.toNat)))
    (setBytes_freeListOk (hheapS ▸ setBytes_freeListOk hok))
    (by rw [State.withBytes, setBytes_room, hheapS]; exact hroom) hr1
  obtain rfl := Option.some.inj (hend.symm.trans hend')
  obtain ⟨hbytes', -⟩ := run_put32_end hend
  have hcases : (b' = b ∧ off.toNat + 4 ≤ (contrary (m.heap.bytes b) i v).length ∧
      m'.heap.bytes b = splice (contrary (m.heap.bytes b) i v) off.toNat (leBytes 4 v.toNat)) ∨
      m'.heap.bytes b = contrary (m.heap.bytes b) i v := by
    rw [hbytes']
    by_cases hbb : b' = b
    · subst hbb
      rw [hbytesB] at hle ⊢
      exact .inl ⟨rfl, hle, by simp [State.withBytes]⟩
    · right
      change Function.update mS.heap.bytes b' _ b = _
      rw [Function.update_of_ne (Ne.symm hbb), hheapS, hbytesB]
  have hlen' : (m'.heap.bytes b).length = (m.heap.bytes b).length := by
    rcases hcases with ⟨-, hle', heq⟩ | heq
    · rw [heq, splice_length (by simpa using hle'), hlen]
    · rw [heq, hlen]
  have hcellx : m'.heap.cells x = m.heap.cells x := by
    rw [hcells x (by change x ∉ mS.heap.Supply; rw [hheapS]; exact hlive)]
    change mS.heap.cells x = _
    rw [hheapS]
    rfl
  have hx' : IsBuffer m'.heap x b := by
    refine ⟨?_, ?_, ?_⟩
    · rw [hcellx]
      exact hx.tag
    · rw [hcellx]
      exact hx.address
    · rw [hlen']
      exact hx.size
  obtain ⟨hslice, hsmall⟩ := GetYields.slice hget hx' (by rw [hlen']; exact hin) hok' hroom' ctx s
  have hbyte : ∀ k < 4, (m'.heap.bytes b)[4 * i + k]? = (leBytes 4 v.toNat)[k]? := by
    intro k hk
    rw [← hslice, List.getElem?_take_of_lt hk, List.getElem?_drop]
  refine ⟨?_, hsmall⟩
  rcases hcases with ⟨rfl, hle', heq⟩ | heq
  · -- a byte read but not written is the contrary one
    have hplace : off.toNat = 4 * i := by
      by_contra hne
      obtain ⟨k, hk, hout⟩ : ∃ k < 4, 4 * i + k < off.toNat ∨ off.toNat + 4 ≤ 4 * i + k := by
        by_cases hlt : off.toNat < 4 * i
        · exact ⟨3, by omega, by omega⟩
        · exact ⟨0, by omega, by omega⟩
      have hk' := hbyte k hk
      rw [heq, splice_getElem? (by simpa using hle') (by simpa using hout)] at hk'
      exact contrary_getElem? hin hk hk'
    have hlt : i < 2 ^ 32 := by
      have := hx.size
      omega
    have hptr := addWord_int_eq_ptr haddr
    rw [toInt_ofNat hlt] at hptr
    have hoff3 : off - (i : ℤ) = (3 * i : ℕ) := by omega
    rw [hptr, hoff3] at hp
    exact loadWord_withBytes.mp hp
  · have h0 := hbyte 0 (by omega)
    rw [heq] at h0
    exact absurd h0 (contrary_getElem? hin (by omega))

/-- What `put` stored at an index `get` reads back, for every contents of the
    buffer: always for 8 and 16 bits; for 32 bits exactly when `R0` happens to
    hold, before the `put`, a cell whose first word is the address of the buffer
    plus three times the index, and the value has no 32nd bit. -/
theorem buffer_roundtrip (h : Emits (w.put defs) ctx s t code s') (hx : IsBuffer m.heap x b)
    (hb : Supplies m s.frame.sp (defs 0) (.cell x))
    (hi : IntArg s.heap m s.frame.sp (defs 1) (BitVec.ofNat 64 i))
    (hv : IntArg s.heap m s.frame.sp (defs 2) v)
    (hin : w.offset i + w.bytes ≤ (m.heap.bytes b).length) (hlive : x ∉ m.heap.Supply)
    (hok : m.heap.FreeListOk) (hroom : 2 ≤ m.heap.room) :
    (∀ bs, bs.length = (m.heap.bytes b).length →
        RoundTrips w (m.withBytes b bs) code x b i v) ↔
      (w = .w32 → m.loadWord (m.regs r0) = some (.ptr (.bytes b) (3 * i : ℕ)) ∧
        v.toNat % 2 ^ 32 < 2 ^ 31) := by
  -- other contents move no operand
  have hsame : ∀ bs, SameOperands m (m.withBytes b bs) := fun _ => ⟨fun _ _ => rfl, rfl, rfl, rfl⟩
  have hbytes : ∀ bs, (m.withBytes b bs).heap.bytes b = bs := by
    intro bs
    simp [State.withBytes]
  have hbuf : ∀ bs : List UInt8, bs.length = (m.heap.bytes b).length →
      IsBuffer (m.withBytes b bs).heap x b := by
    intro bs hlen
    exact ⟨hx.tag, hx.address, by rw [hbytes, hlen]; exact hx.size⟩
  have hok' : ∀ bs, (m.withBytes b bs).heap.FreeListOk := fun _ => setBytes_freeListOk hok
  cases w with
  | w8 =>
    refine iff_of_true (fun bs hlen => ?_) (fun hw => absurd hw (by decide))
    exact roundTrips_narrow (by decide) (by simp) (by simp) (fun _ => rfl) loads_ldrb rfl rfl h
      (hbuf bs hlen) (hb.same (hsame bs)) (hi.same (hsame bs) rfl) (hv.same (hsame bs) rfl)
      (by rw [hbytes, hlen]; exact hin) (hok' bs) (by change 0 < m.heap.room; omega)
  | w16 =>
    refine iff_of_true (fun bs hlen => ?_) (fun hw => absurd hw (by decide))
    exact roundTrips_narrow (by decide) (by simp) (by simp) (fun _ => rfl) loads_ldrs rfl rfl h
      (hbuf bs hlen) (hb.same (hsame bs)) (hi.same (hsame bs) rfl) (hv.same (hsame bs) rfl)
      (by rw [hbytes, hlen]; exact hin) (hok' bs) (by change 0 < m.heap.room; omega)
  | w32 =>
    constructor
    · intro hall _
      exact roundTrips_w32_place h hx hb hi hv hin hlive hok hroom
        (hall _ (contrary_length hin))
    · intro hcond bs hlen
      obtain ⟨hr0, hsmall⟩ := hcond rfl
      exact roundTrips_w32 h (hbuf bs hlen) (hb.same (hsame bs)) (hi.same (hsame bs) rfl)
        (hv.same (hsame bs) rfl) (by rw [hbytes, hlen]; exact hin) hlive (hok' bs) hroom
        (loadWord_withBytes.mpr hr0) hsmall

end RoundTrip

/-! ## A buffer of eight bytes -/

/-- The global `buf` in cell 0, and the literals 0 and 5. -/
def bufHeap : Heap :=
  { Heap.init with
    cells := fun i => match i with
      | 0 => ⟨.ptr (.bytes 0) 0, .ofNat 8, tagBytes⟩
      | 1 => ⟨.int 0, .null, tagInt⟩
      | 2 => ⟨.int 5, .null, tagInt⟩
      | _ => ⟨.null, .null, tagFreed⟩
    cellsUsed := 3
    bytes := fun b => match b with
      | 0 => List.replicate 9 0
      | _ => []
    bytesUsed := 1 }

def bufCtx : Ctx where
  lookup := fun name => if name = Writer.ascii "buf" then some 0 else none
  entry := fun _ => .cell 0
  prototypeNil := 0
  prototypeAny := 0
  prototypeVoid := 0
  prototypeInt := 0
  consedTypeError := 0
  junk := fun _ _ => ⟨.const, .null, none, 0, none, none⟩

def bufState : CState where
  heap := bufHeap
  labelSkipCount := 0
  frame := ⟨none, 0, 0, .null⟩
  calls := 0

/-- The arguments of `(put buf 0 5)`. -/
def bufDefs : ℕ → Arg
  | 0 => ⟨.env, .null, some 0, 0, none, none⟩
  | 1 => ⟨.const, .cell 1, none, 0, none, none⟩
  | _ => ⟨.const, .cell 2, none, 0, none, none⟩

/-- The machine with `r` in `R0`. -/
def bufMachine (r : Word) : State where
  regs := fun _ => r
  sp := 0
  stack := fun _ => .undef
  heap := bufHeap
  entry := fun _ => .cell 0
  sf := none
  zf := none

theorem bufHeap_live : 0 ∉ bufHeap.Supply := by
  rintro (hm | hm)
  · exact absurd hm (by simp [bufHeap, Heap.init])
  · exact absurd hm (by simp [bufHeap])

theorem bufHeap_freeListOk : bufHeap.FreeListOk :=
  ⟨by simp [bufHeap, Heap.init], by simp [bufHeap, Heap.init]⟩

/-- The code of `(put32 buf 0 5)`. -/
def bufCode : List Jit :=
  [.lea r1 (.ptr (.entry 0) 0), .ldr r1, .movi r2 (.int 0), .movi r3 (.int 5), .movr r1 r0,
    .ldr r1, .addr r1 r2, .strw r1, .label (.skip 1), .movr r0 r1, .call .allocInt]

theorem bufCode_emits : Emits (Width.w32.put bufDefs) bufCtx bufState (.cell 0) bufCode
    { bufState with labelSkipCount := 1 } := rfl

theorem bufMachine_buffer (r : Word) : IsBuffer (bufMachine r).heap 0 0 :=
  ⟨.inl rfl, rfl, by simp [bufMachine, bufHeap]⟩

theorem bufMachine_supplies (r : Word) : Supplies (bufMachine r) 0 (bufDefs 0) (.cell 0) :=
  ⟨0, rfl, rfl⟩

theorem bufMachine_index (r : Word) : IntArg bufHeap (bufMachine r) 0 (bufDefs 1) 0 :=
  ⟨.int 0, fun _ => ⟨_, rfl, rfl⟩, rfl⟩

theorem bufMachine_value (r : Word) : IntArg bufHeap (bufMachine r) 0 (bufDefs 2) 5 :=
  ⟨.int 5, fun _ => ⟨_, rfl, rfl⟩, rfl⟩

/-- `(put32 buf 0 5)` with the cell of `buf` in `R0`, the buffer zeroed. -/
theorem buffer_roundtrip_first :
    RoundTrips .w32 ((bufMachine (.cell 0)).withBytes 0 (List.replicate 9 0)) bufCode 0 0 0 5 := by
  have hiff := buffer_roundtrip bufCode_emits (bufMachine_buffer (.cell 0)) (bufMachine_supplies _)
    (bufMachine_index _) (bufMachine_value _) (by decide) bufHeap_live bufHeap_freeListOk
    (by decide)
  have hall := hiff.mpr fun _ => ⟨rfl, by decide⟩
  exact hall (List.replicate 9 0) (by simp [bufMachine, bufHeap])

/-- With another cell in `R0`, `(put32 buf 0 5)` stores nothing in `buf`. -/
theorem buffer_roundtrip_fails : ¬ ∀ (w : Width) (ctx : Ctx) (s s' : CState) (defs : ℕ → Arg)
    (t : Word) (code : List Jit) (m : State) (x b i : ℕ) (v : BitVec 64),
    Emits (w.put defs) ctx s t code s' → IsBuffer m.heap x b →
    Supplies m s.frame.sp (defs 0) (.cell x) →
    IntArg s.heap m s.frame.sp (defs 1) (BitVec.ofNat 64 i) →
    IntArg s.heap m s.frame.sp (defs 2) v →
    w.offset i + w.bytes ≤ (m.heap.bytes b).length → x ∉ m.heap.Supply → m.heap.FreeListOk →
    2 ≤ m.heap.room → RoundTrips w m code x b i v := by
  intro hall
  obtain ⟨m', hrun, -⟩ := hall .w32 bufCtx bufState { bufState with labelSkipCount := 1 } bufDefs
    (.cell 0) bufCode (bufMachine (.cell 1)) 0 0 0 5 bufCode_emits (bufMachine_buffer _)
    (bufMachine_supplies _) (bufMachine_index _) (bufMachine_value _) (by decide) bufHeap_live
    bufHeap_freeListOk (by decide)
  -- the first word of the cell in `R0` is the number 0, no address
  have hnone : run bufCode (bufMachine (.cell 1)) = none := rfl
  rw [hnone] at hrun
  exact absurd hrun (by simp)

end Interim.Machine
