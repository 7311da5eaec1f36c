import Interim.Compiler.Model

/-!
# Running the emitted code on x64

A machine for the code `compile_expr` emits with `sledge/jit_x64.c`. Registers,
the stack and the heap hold the symbolic words of the compiler model, so that
memory can be spoken of in the terms of the heap; `Backend.Machines` has the
bit-level machine for the integer builtins.

* A register is its index into `regnames`; `rsp` is kept apart, as the index of
  a stack word.
* Each emitter call is executed as the instructions it prints. Of the C
  functions only `alloc_int` and `inline_mod` are here. A C function may change
  every caller-saved register; what it leaves there is `undef`, and so is what
  arithmetic makes of an address that the model does not have.
* An access outside a block, or through a word that is no address, ends the
  run.
* Jumps are taken forward: a jump skips what stands before its label. The
  builtins this machine runs have no others.
-/

namespace Interim.Machine

open Compiler

/-! ## Little-endian bytes -/

/-- The lowest `n` bytes of a number, lowest first. -/
def leBytes : ℕ → ℕ → List UInt8
  | 0, _ => []
  | n + 1, v => UInt8.ofNat v :: leBytes n (v / 256)

/-- The number whose bytes these are. -/
def ofLe : List UInt8 → ℕ
  | [] => 0
  | b :: bs => b.toNat + 256 * ofLe bs

@[simp] theorem leBytes_length (n v : ℕ) : (leBytes n v).length = n := by
  induction n generalizing v with
  | zero => rfl
  | succ n ih => simp [leBytes, ih]

/-- Reading back what was written. -/
theorem ofLe_leBytes (n v : ℕ) : ofLe (leBytes n v) = v % 2 ^ (8 * n) := by
  induction n generalizing v with
  | zero => simp [leBytes, ofLe, Nat.mod_one]
  | succ n ih =>
    have hpow : 2 ^ (8 * (n + 1)) = 256 * 2 ^ (8 * n) := by
      rw [Nat.mul_add, Nat.pow_add]
      ring
    rw [leBytes, ofLe, ih, hpow, Nat.mod_mul]
    simp

theorem ofLe_lt (bs : List UInt8) : ofLe bs < 2 ^ (8 * bs.length) := by
  induction bs with
  | nil => simp [ofLe]
  | cons b bs ih =>
    have hb := b.toNat_lt
    have hpow : 2 ^ (8 * (bs.length + 1)) = 256 * 2 ^ (8 * bs.length) := by
      rw [Nat.mul_add, Nat.pow_add]
      ring
    rw [ofLe, List.length_cons, hpow]
    omega

/-- The bytes of a number determine it. -/
theorem leBytes_ofLe (bs : List UInt8) : leBytes bs.length (ofLe bs) = bs := by
  induction bs with
  | nil => rfl
  | cons b bs ih =>
    have hb := b.toNat_lt
    rw [List.length_cons, leBytes, ofLe]
    have hdiv : (b.toNat + 256 * ofLe bs) / 256 = ofLe bs := by omega
    rw [hdiv, ih]
    congr 1
    apply UInt8.toNat_inj.mp
    rw [UInt8.toNat_ofNat']
    omega

/-- `data` written over `bs` from `off` on. -/
def splice (bs : List UInt8) (off : ℕ) (data : List UInt8) : List UInt8 :=
  bs.take off ++ (data ++ bs.drop (off + data.length))

/-! ## States -/

/-- Registers, the word index of `rsp` and the words of the stack, the heap,
    the cells of the global environment, and the sign and zero flags. -/
structure State where
  regs : ℕ → Word
  sp : ℤ
  stack : ℤ → Word
  heap : Heap
  entry : ℕ → Word
  sf : Option Bool
  zf : Option Bool

namespace State

/-- Write a register. -/
def set (m : State) (d : ℕ) (w : Word) : State := { m with regs := Function.update m.regs d w }

/-- The flags of a result; those of an address are not known. -/
def flags (m : State) (w : Word) : State :=
  match w with
  | .int v => { m with sf := some v.msb, zf := some (v == 0) }
  | _ => { m with sf := none, zf := none }

/-- Write a register and set the flags of the result. -/
def setFlags (m : State) (d : ℕ) (w : Word) : State := (m.set d w).flags w

/-! ### Memory -/

/-- The eight bytes at an address. -/
def loadWord (m : State) : Word → Option Word
  | .ptr (.cell i) off =>
    if off = 0 then some (m.heap.cells i).ar
    else if off = 8 then some (m.heap.cells i).dr
    else if off = 16 then some (.ofNat (m.heap.cells i).tag)
    else none
  | .ptr (.elems e) off => if 0 ≤ off ∧ off % 8 = 0 then (m.heap.elems e)[off.toNat / 8]? else none
  | .ptr (.entry e) off => if off = 0 then some (m.entry e) else none
  | .ptr (.bytes b) off =>
    if 0 ≤ off ∧ off.toNat + 8 ≤ (m.heap.bytes b).length then
      some (.ofNat (ofLe (((m.heap.bytes b).drop off.toNat).take 8)))
    else none
  | _ => none

/-- Store eight bytes at an address. -/
def storeWord (m : State) (w : Word) : Word → Option State
  | .ptr (.cell i) off =>
    if off = 0 then some { m with heap := m.heap.setCell i { m.heap.cells i with ar := w } }
    else if off = 8 then some { m with heap := m.heap.setCell i { m.heap.cells i with dr := w } }
    else none
  | .ptr (.elems e) off =>
    if 0 ≤ off ∧ off % 8 = 0 then
      match m.heap.setElem e (off.toNat / 8) w with
      | .ok h => some { m with heap := h }
      | .error _ => none
    else none
  | .ptr (.entry e) off =>
    if off = 0 then some { m with entry := Function.update m.entry e w } else none
  | _ => none

/-- The `n` bytes at an address, as a number. -/
def loadBytes (m : State) (n : ℕ) : Word → Option (BitVec 64)
  | .ptr (.bytes b) off =>
    if 0 ≤ off ∧ off.toNat + n ≤ (m.heap.bytes b).length then
      some (BitVec.ofNat 64 (ofLe (((m.heap.bytes b).drop off.toNat).take n)))
    else none
  | _ => none

/-- Store the lowest `n` bytes of a word at an address. -/
def storeBytes (m : State) (n : ℕ) : Word → Word → Option State
  | .int v, .ptr (.bytes b) off =>
    if 0 ≤ off ∧ off.toNat + n ≤ (m.heap.bytes b).length then
      some { m with heap :=
        m.heap.setBytes b (splice (m.heap.bytes b) off.toNat (leBytes n v.toNat)) }
    else none
  | _, _ => none

end State

/-! ## Arithmetic -/

/-- `addq`: numbers are added, and a number moves an address. -/
def addWord : Word → Word → Word
  | .int a, .int b => .int (a + b)
  | .ptr blk off, .int b => .ptr blk (off + b.toInt)
  | .int a, .ptr blk off => .ptr blk (off + a.toInt)
  | _, _ => Word.undef

/-- An operation on two numbers. -/
def onInts (f : BitVec 64 → BitVec 64 → BitVec 64) : Word → Word → Word
  | .int a, .int b => .int (f a b)
  | _, _ => Word.undef

/-! ## C functions -/

/-- The registers of `regnames` that a C function must preserve: `r12` … `r15`
    and `rsp`. -/
def calleeSaved (r : ℕ) : Prop := 4 ≤ r ∧ r ≤ 7 ∨ 12 ≤ r

instance (r : ℕ) : Decidable (calleeSaved r) := inferInstanceAs (Decidable (_ ∨ _))

/-- The state after a C function returned `w` in `rax`. -/
def returned (m : State) (w : Word) : State :=
  { m with
    regs := Function.update (fun r => if calleeSaved r then m.regs r else .undef) r0 w
    sf := none
    zf := none }

/-- `alloc_int(int i)` with the argument register `w`; the low half of an
    address is not known. -/
def allocIntWord (h : Heap) : Word → Except Stop (ℕ × Heap)
  | .int v => h.allocInt v
  | _ => h.allocCell fun c => { c with ar := .undef, tag := tagInt }

/-- A call of a C function. -/
def call (m : State) : CFun → Option State
  | .allocInt =>
    match allocIntWord m.heap (m.regs argr0) with
    | .ok (i, h) => some (returned { m with heap := h } (.cell i))
    | .error _ => none
  | _ => none

/-- `inline_mod(int64_t a, int64_t b)`: an `int32_t`, moved to `eax`, which
    clears the upper half of `rax`. -/
def inlineMod (m : State) : Option State :=
  match m.regs argr0, m.regs argr1 with
  | .int a, .int b =>
    if b = 0 ∨ (a.toInt = -2 ^ 63 ∧ b.toInt = -1) then none
    else some (returned m
      (.int ((BitVec.ofInt 32 (a.toInt.tmod b.toInt)).setWidth 64)))
  | _, _ => none

/-! ## Instructions -/

/-- `push` of one register. -/
def push (m : State) (r : ℕ) : State :=
  { m with sp := m.sp - 1, stack := Function.update m.stack (m.sp - 1) (m.regs r) }

/-- `pop` into one register. -/
def pop (m : State) (r : ℕ) : State := { m.set r (m.stack m.sp) with sp := m.sp + 1 }

/-- `jit_movneg`, `jit_movne`, `jit_moveq`: nothing is emitted for equal
    registers. -/
def cmov (m : State) (dreg sreg : ℕ) (flag : Option Bool) : Option State :=
  if dreg = sreg then some m
  else flag.map fun t => if t then m.set dreg (m.regs sreg) else m

/-- A shift: `mov sreg, %rcx` and a shift by `%cl`, whose count the processor
    masks to six bits; a zero count leaves the flags. -/
def shift (m : State) (dreg sreg : ℕ) (f : BitVec 64 → ℕ → BitVec 64) : State :=
  match m.regs dreg, m.regs sreg with
  | .int a, .int b =>
    if b.toNat % 64 = 0 then m else m.setFlags dreg (.int (f a (b.toNat % 64)))
  | _, _ => m.setFlags dreg Word.undef

/-- `jit_divr` (lines 186–191): `mov dreg, %rax`, `cqto`, `idivq sreg`,
    `mov %rax, dreg`. -/
def divr (m : State) (dreg sreg : ℕ) : Option State :=
  match m.regs dreg with
  | .int a =>
    let m := (m.set r0 (.int a)).set r3 (.int (if a.msb then BitVec.allOnes 64 else 0))
    match m.regs sreg with
    | .int b =>
      let q := a.toInt.tdiv b.toInt
      if b = 0 ∨ 2 ^ 63 ≤ q then none
      else
        let m := (m.set r0 (.int (BitVec.ofInt 64 q))).set r3
          (.int (BitVec.ofInt 64 (a.toInt.tmod b.toInt)))
        some { m.set dreg (m.regs r0) with sf := none, zf := none }
    | _ => none
  | _ => none

/-- A load through `rdx` (lines 98–124): `mov (reg)` into a part of `rdx`, a
    mask, and a copy. -/
def loadNarrow (m : State) (n reg : ℕ) : Option State :=
  (m.loadBytes n (m.regs reg)).map fun v => (m.set r3 (.int v)).set reg (.int v)

/-- One emitter call other than a jump or a label. -/
def step (m : State) : Jit → Option State
  | .movi reg imm => some (m.set reg imm)
  | .movr dreg sreg => some (m.set dreg (m.regs sreg))
  | .movneg dreg sreg => cmov m dreg sreg m.sf
  | .movne dreg sreg => cmov m dreg sreg (m.zf.map not)
  | .moveq dreg sreg => cmov m dreg sreg m.zf
  | .lea reg addr => some (m.set reg addr)
  | .ldr reg => (m.loadWord (m.regs reg)).map (m.set reg)
  | .ldrStack dreg offset _ =>
    if offset % 8 = 0 then some (m.set dreg (m.stack (m.sp + offset / 8))) else none
  | .strStack sreg offset _ =>
    if offset % 8 = 0 then
      some { m with stack := Function.update m.stack (m.sp + offset / 8) (m.regs sreg) }
    else none
  | .incStack offset =>
    if offset = 0 then some m
    else if offset % 8 = 0 then some { m with sp := m.sp + offset / 8, sf := none, zf := none }
    else none
  | .decStack offset =>
    if offset = 0 then some m
    else if offset % 8 = 0 then some { m with sp := m.sp - offset / 8, sf := none, zf := none }
    else none
  -- `andq` sets the flags; `movl` does not
  | .ldrb reg => (loadNarrow m 1 reg).map fun m' => m'.flags (m'.regs r3)
  | .ldrs reg => (loadNarrow m 2 reg).map fun m' => m'.flags (m'.regs r3)
  | .ldrw reg => loadNarrow m 4 reg
  | .strb reg => m.storeBytes 1 (m.regs r3) (m.regs reg)
  | .strs reg => m.storeBytes 2 (m.regs r3) (m.regs reg)
  | .strw reg => m.storeBytes 4 (m.regs r3) (m.regs reg)
  | .stra reg => m.storeWord (m.regs r3) (m.regs reg)
  | .addr dreg sreg => some (m.setFlags dreg (addWord (m.regs dreg) (m.regs sreg)))
  | .addi dreg imm => some (m.setFlags dreg (addWord (m.regs dreg) (.int (BitVec.ofInt 64 imm))))
  | .andr dreg sreg => some (m.setFlags dreg (onInts (· &&& ·) (m.regs dreg) (m.regs sreg)))
  | .notr dreg => some (m.set dreg (onInts (fun a _ => ~~~ a) (m.regs dreg) (m.regs dreg)))
  | .orr dreg sreg => some (m.setFlags dreg (onInts (· ||| ·) (m.regs dreg) (m.regs sreg)))
  | .xorr dreg sreg => some (m.setFlags dreg (onInts (· ^^^ ·) (m.regs dreg) (m.regs sreg)))
  | .shrr dreg sreg => some (shift m dreg sreg fun a n => a >>> n)
  | .shlr dreg sreg => some (shift m dreg sreg fun a n => a <<< n)
  | .subr dreg sreg => some (m.setFlags dreg (onInts (· - ·) (m.regs dreg) (m.regs sreg)))
  | .mulr dreg sreg =>
    some { m.set dreg (onInts (· * ·) (m.regs dreg) (m.regs sreg)) with sf := none, zf := none }
  | .divr dreg sreg => divr m dreg sreg
  | .modr dreg sreg =>
    let m := m.set argr0 (m.regs dreg)
    (inlineMod (m.set argr1 (m.regs sreg))).map fun m => m.set dreg (m.regs r0)
  | .call f => call m f
  | .cmpi sreg imm => some (m.flags (onInts (· - ·) (m.regs sreg) (.int (BitVec.ofInt 64 imm))))
  | .cmpr sreg dreg => some (m.flags (onInts (· - ·) (m.regs sreg) (m.regs dreg)))
  | .push a b => some ((List.range' a (b + 1 - a)).foldl push m)
  | .pop a b => some ((List.range' a (b + 1 - a)).reverse.foldl pop m)
  | _ => none

/-- Whether an emitter call places the label. -/
def isLabel (l : Label) : Jit → Bool
  | .label l' => l = l'
  | _ => false

/-- Run code from the top, or, with `skip`, from that label on. -/
def exec : Option Label → List Jit → State → Option State
  | none, [], m => some m
  | some _, [], _ => none
  | some l, j :: rest, m => exec (if isLabel l j then none else some l) rest m
  | none, j :: rest, m =>
    match j with
    | .label _ => exec none rest m
    | .jmp l => exec (some l) rest m
    | .je l => m.zf.bind fun t => exec (if t then some l else none) rest m
    | .jne l => m.zf.bind fun t => exec (if t then none else some l) rest m
    | j => (step m j).bind (exec none rest)

/-- Run code from its first instruction to its end. -/
def run (code : List Jit) (m : State) : Option State := exec none code m

end Interim.Machine
