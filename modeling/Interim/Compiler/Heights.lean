import Interim.Compiler.Accesses
import Interim.Compiler.Bodies

/-!
# Heights of the stack

How many words the code of an expression has on the stack. `Piece` is a grammar
of the code by its heights: a piece never goes below `lo`, and if `exact`, every
access to a slot is at the height the compiler counts in `frame->sp`.

`compileExpr_level`: the code of every expression is a piece that ends at the
height it begins at. The count is exact where no `struct` form is compiled: in
one, `frame->sp` misses the struct's name, and each key while its value is
compiled, and is one lower behind the form than in front of it.
-/

namespace Interim.Compiler

open CompM

/-! ## Pieces -/

/-- Neither a branch nor a label, and the stack is not touched. -/
def Jit.isPlain : Jit → Bool
  | .ldrStack .. | .strStack .. | .incStack _ | .decStack _ | .push .. | .pop .. => false
  | .je _ | .jne _ | .jmp _ | .label _ | .ret => false
  | _ => true

/-- The stack is not touched, and the instruction is no border of a function. -/
def Jit.isStill : Jit → Bool
  | .ldrStack .. | .strStack .. | .incStack _ | .decStack _ | .push .. | .pop .. => false
  | .label (.fn _) | .label (.fe _) | .ret => false
  | _ => true

theorem Jit.isPlain_isStill {i : Jit} (h : i.isPlain = true) : i.isStill = true := by
  cases i with
  | label l => exact absurd h (by simp [Jit.isPlain])
  | je l | jne l | jmp l => rfl
  | _ => exact h

/-- What a form puts around its parts: each branch goes to one of the labels. -/
structure Joins (code : List Jit) : Prop where
  still : ∀ i ∈ code, i.isStill = true
  target : ∀ i ∈ code, ∀ l, i.target = some l → Jit.label l ∈ code

theorem joins_while (boxed : Bool) (n : ℕ) : Joins ([Jit.label (.loop n)] ++
    [.cmpi r0 0, .je (.skip n)] ++ ([.jmp (.loop n), .label (.skip n)] ++ whileTail boxed n)) := by
  cases boxed with
  | false =>
    refine ⟨fun i hi => ?_, fun i hi l hl => ?_⟩
    all_goals simp only [whileTail, Bool.false_eq_true, if_false, List.cons_append, List.nil_append,
      List.mem_cons, List.not_mem_nil, or_false] at hi
    · rcases hi with rfl | rfl | rfl | rfl | rfl <;> rfl
    · rcases hi with rfl | rfl | rfl | rfl | rfl
      all_goals simp only [Jit.target, Option.some.injEq, reduceCtorEq] at hl
      all_goals subst hl
      all_goals simp
  | true =>
    refine ⟨fun i hi => ?_, fun i hi l hl => ?_⟩
    all_goals simp only [whileTail, if_true, List.cons_append, List.nil_append, List.mem_cons,
      List.not_mem_nil, or_false] at hi
    · rcases hi with rfl | rfl | rfl | rfl | rfl | rfl | rfl | rfl | rfl <;> rfl
    · rcases hi with rfl | rfl | rfl | rfl | rfl | rfl | rfl | rfl | rfl
      all_goals simp only [Jit.target, Option.some.injEq, reduceCtorEq] at hl
      all_goals subst hl
      all_goals simp [whileTail]

/-- The call only `struct` forms make. -/
abbrev structCall : Jit := .call .allocStructDef

variable [Port]

/-- `code` begins at height `h` and ends at height `h'`, as far as the frame it
    is in is concerned: a function body begins at 0. -/
inductive Piece (exact : Prop) : ℤ → ℤ → List Jit → ℤ → Prop
  | nil {lo h : ℤ} (hlo : lo ≤ h) : Piece exact lo h [] h
  | plain {lo h : ℤ} {i : Jit} (hi : i.isPlain = true) (hlo : lo ≤ h) : Piece exact lo h [i] h
  | access {lo h off : ℤ} {slot : Option ℤ} {i : Jit} (hi : i.access = some (off, slot))
      (he : exact → ∀ k, slot = some k → off = ptrsz * (h - k)) (hlo : lo ≤ h) :
      Piece exact lo h [i] h
  | push {lo h : ℤ} (a b : ℕ) (hlo : lo ≤ h) : Piece exact lo h [.push a b] (h + (b + 1 - a : ℕ))
  | pop {lo h : ℤ} (a b : ℕ) (hlo : lo ≤ h) : Piece exact lo (h + (b + 1 - a : ℕ)) [.pop a b] h
  | drop {lo h : ℤ} (n : ℕ) (hlo : lo ≤ h) : Piece exact lo (h + n) [.incStack (n * ptrsz)] h
  | seq {lo h h₁ h' : ℤ} {code code' : List Jit} (hc : Piece exact lo h code h₁)
      (hc' : Piece exact lo h₁ code' h') : Piece exact lo h (code ++ code') h'
  | join {lo h : ℤ} {p₀ p₁ p₂ code code' : List Jit} (hj : Joins (p₀ ++ p₁ ++ p₂))
      (hc : Piece exact lo h code h) (hc' : Piece exact lo h code' h) :
      Piece exact lo h (p₀ ++ (code ++ (p₁ ++ (code' ++ p₂)))) h
  | fn {lo h : ℤ} {body : List Jit} (a n : ℕ) (hb : Piece exact 0 0 body 0) (hlo : lo ≤ h) :
      Piece exact lo h (fnCode a n body) h

namespace Piece

variable {exact : Prop} {lo h h' : ℤ} {code : List Jit}

theorem ofPlain (hc : code.all Jit.isPlain = true) (hlo : lo ≤ h) : Piece exact lo h code h := by
  induction code with
  | nil => exact .nil hlo
  | cons i code ih =>
    rw [List.all_cons, Bool.and_eq_true] at hc
    exact .seq (.plain hc.1 hlo) (ih hc.2)

/-- Branches and labels around one part. -/
theorem around {p₀ p₁ : List Jit} (hj : Joins (p₀ ++ p₁)) (hlo : lo ≤ h)
    (hc : Piece exact lo h code h) : Piece exact lo h (p₀ ++ (code ++ p₁)) h := by
  have hp : Piece exact lo h (p₀ ++ (code ++ (p₁ ++ ([] ++ [])))) h :=
    .join (by rwa [List.append_nil]) hc (.nil hlo)
  rwa [List.nil_append, List.append_nil] at hp

theorem ifElse {th el : List Jit} (n m : ℕ) (ht : Piece exact lo h th h)
    (he : Piece exact lo h el h) : Piece exact lo h (ifElseCode n m th el) h := by
  refine .join ⟨fun i hi => ?_, fun i hi l hl => ?_⟩ ht he
  all_goals simp only [List.cons_append, List.nil_append, List.mem_cons, List.not_mem_nil,
    or_false] at hi
  · rcases hi with rfl | rfl | rfl | rfl | rfl <;> rfl
  · rcases hi with rfl | rfl | rfl | rfl | rfl
    all_goals simp only [Jit.target, Option.some.injEq, reduceCtorEq] at hl
    all_goals subst hl
    all_goals simp

theorem ifThen {th : List Jit} (n : ℕ) (hlo : lo ≤ h) (ht : Piece exact lo h th h) :
    Piece exact lo h (ifThenCode n th) h := by
  refine around ⟨fun i hi => ?_, fun i hi l hl => ?_⟩ hlo ht
  all_goals simp only [List.cons_append, List.nil_append, List.mem_cons, List.not_mem_nil,
    or_false] at hi
  · rcases hi with rfl | rfl | rfl <;> rfl
  · rcases hi with rfl | rfl | rfl
    all_goals simp only [Jit.target, Option.some.injEq, reduceCtorEq] at hl
    all_goals subst hl
    all_goals simp

theorem loop {c b : List Jit} (boxed : Bool) (n : ℕ) (hc : Piece exact lo h c h)
    (hb : Piece exact lo h b h) : Piece exact lo h (whileCode boxed n c b) h :=
  .join (joins_while boxed n) hc hb

theorem tagCheck (n : ℕ) (hlo : lo ≤ h) (hc : Piece exact lo h code h) :
    Piece exact lo h (tagCheckCode n code) h := by
  refine around ⟨fun i hi => ?_, fun i hi l hl => ?_⟩ hlo hc
  all_goals simp only [List.cons_append, List.nil_append, List.mem_cons, List.not_mem_nil,
    or_false] at hi
  · rcases hi with rfl | rfl | rfl | rfl | rfl | rfl | rfl | rfl <;> rfl
  · rcases hi with rfl | rfl | rfl | rfl | rfl | rfl | rfl | rfl
    all_goals simp only [Jit.target, Option.some.injEq, reduceCtorEq] at hl
    all_goals subst hl
    all_goals simp

theorem label (n : ℕ) (hlo : lo ≤ h) : Piece exact lo h [.label (.skip n)] h := by
  have hj : Joins ([Jit.label (.skip n)] ++ []) := by
    refine ⟨fun i hi => ?_, fun i hi l hl => ?_⟩
    all_goals obtain rfl := List.mem_singleton.mp hi
    · rfl
    · exact absurd hl (by simp [Jit.target])
  exact around hj hlo (.nil hlo)

/-- Code between a push and a pop of the same registers. -/
theorem nest {a b : ℕ} (hlo : lo ≤ h) (hc : Piece exact lo (h + (b + 1 - a : ℕ)) code
    (h + (b + 1 - a : ℕ))) : Piece exact lo h ([.push a b] ++ (code ++ [.pop a b])) h :=
  (push a b hlo).seq (hc.seq (pop a b hlo))

theorem pushRegs (n : ℕ) (hlo : lo ≤ h) : Piece exact lo h (pushRegs n) (h + n) := by
  unfold Compiler.pushRegs
  split
  · rename_i hn
    rw [hn, Nat.cast_zero, add_zero]
    exact .nil hlo
  · have hlen : lbdreg + n - 1 + 1 - lbdreg = n := by omega
    have hp : Piece exact lo h _ _ := push lbdreg (lbdreg + n - 1) hlo
    rwa [hlen] at hp

theorem popRegs (n : ℕ) (hlo : lo ≤ h) : Piece exact lo (h + n) (popRegs n) h := by
  unfold Compiler.popRegs
  split
  · rename_i hn
    rw [hn, Nat.cast_zero, add_zero]
    exact .nil hlo
  · have hlen : lbdreg + n - 1 + 1 - lbdreg = n := by omega
    have hp : Piece exact lo _ _ h := pop lbdreg (lbdreg + n - 1) hlo
    rwa [hlen] at hp

/-- Code between `push_frame_regs` and `pop_frame_regs`. -/
theorem savedRegs (f : Option (ℕ → Arg)) {mid : List Jit} (hm : mid.all Jit.isPlain = true)
    (hlo : lo ≤ h) : Piece exact lo h (pushFrameRegs f ++ mid ++ popFrameRegs f) h :=
  ((pushRegs _ hlo).seq (ofPlain hm (by omega))).seq (popRegs _ hlo)

end Piece

/-! ## Computations -/

/-- The code is a piece between the heights, and `frame->sp` follows it, if no
    `struct` form is compiled. -/
def Moves (s : CState) (code : List Jit) (s' : CState) (n : ℤ) : Prop :=
  ∀ (exact : Prop) (lo h : ℤ), (exact → structCall ∉ code) → lo ≤ h → lo ≤ h + n →
    (exact → s.frame.sp = h) →
    Piece exact lo h code (h + n) ∧ (exact → s'.frame.sp = h + n)

theorem Moves.seq {s s₁ s' : CState} {code code' : List Jit} {n m k : ℤ}
    (h₁ : Moves s code s₁ n) (h₂ : Moves s₁ code' s' m) (hk : k = n + m) (hmid : 0 ≤ n ∨ m ≤ 0) :
    Moves s (code ++ code') s' k := by
  subst hk
  intro exact lo h hs hlo hlo' hsp
  have hleft : exact → structCall ∉ code := fun he hm => hs he (List.mem_append_left _ hm)
  have hright : exact → structCall ∉ code' := fun he hm => hs he (List.mem_append_right _ hm)
  obtain ⟨hp₁, hsp₁⟩ := h₁ exact lo h hleft hlo (by omega) hsp
  obtain ⟨hp₂, hsp₂⟩ := h₂ exact lo (h + n) hright (by omega) (by omega) hsp₁
  rw [add_assoc] at hp₂ hsp₂
  exact ⟨hp₁.seq hp₂, hsp₂⟩

/-- The code `m` emits ends at the height it begins at. -/
def Level {α : Type} (m : CompM α) : Prop :=
  ∀ c s a code s', Emits m c s a code s' → Moves s code s' 0

/-- The code `m` emits pushes what `p` counts, beyond `n`. -/
def Grows {α : Type} (p : α → ℕ) (n : ℕ) (m : CompM α) : Prop :=
  ∀ c s a code s', Emits m c s a code s' → n ≤ p a ∧ Moves s code s' (p a - n)

/-- The code `m` emits pops `n` words. -/
def Falls {α : Type} (n : ℕ) (m : CompM α) : Prop :=
  ∀ c s a code s', Emits m c s a code s' → Moves s code s' (-n)

theorem Moves.same {s s' : CState} {code : List Jit} (hsp : s'.frame.sp = s.frame.sp)
    (hp : ∀ (exact : Prop) (lo h : ℤ), lo ≤ h → (exact → s.frame.sp = h) →
      Piece exact lo h code h) : Moves s code s' 0 := by
  intro exact lo h _ hlo _ hs
  rw [add_zero]
  exact ⟨hp exact lo h hlo hs, fun he => hsp.trans (hs he)⟩

theorem Moves.silent {s s' : CState} (hsp : s'.frame.sp = s.frame.sp) : Moves s [] s' 0 :=
  .same hsp fun _ _ _ hlo _ => .nil hlo

/-- Keep a value, with the adjustment of `frame->sp`. -/
theorem Moves.push {s s' : CState} (a : ℕ) (hsp : s'.frame.sp = s.frame.sp + 1) :
    Moves s [.push a a] s' 1 := by
  intro exact lo h _ hlo _ hs
  have hp : Piece exact lo h _ _ := .push a a hlo
  rw [Nat.add_sub_cancel_left] at hp
  exact ⟨hp, fun he => by rw [hsp, hs he]⟩

theorem Moves.pop {s s' : CState} (a : ℕ) (hsp : s'.frame.sp = s.frame.sp - 1) :
    Moves s [.pop a a] s' (-1) := by
  intro exact lo h _ hlo hlo' hs
  have hp : Piece exact lo _ _ (h + -1) := .pop a a hlo'
  rw [Nat.add_sub_cancel_left, Nat.cast_one, neg_add_cancel_right] at hp
  exact ⟨hp, fun he => by rw [hsp, hs he]; rfl⟩

theorem Moves.drop {s s' : CState} (n : ℕ) (hsp : s'.frame.sp = s.frame.sp - n) :
    Moves s [.incStack (n * ptrsz)] s' (-n) := by
  intro exact lo h _ hlo hlo' hs
  have hp : Piece exact lo _ _ (h + -n) := .drop n hlo'
  rw [neg_add_cancel_right] at hp
  exact ⟨hp, fun he => by rw [hsp, hs he]; rfl⟩

namespace Level

variable {α β : Type}

theorem bind {m : CompM α} {f : α → CompM β} (hm : Level m) (hf : ∀ a, Level (f a)) :
    Level (m >>= f) := by
  intro c s b code s' h
  obtain ⟨a, code₁, s₁, code₂, h₁, h₂, rfl⟩ := emits_bind.mp h
  exact (hm c s a code₁ s₁ h₁).seq (hf a c s₁ b code₂ s' h₂) rfl (Or.inl le_rfl)

theorem pure (a : α) : Level (Pure.pure a : CompM α) := by
  intro c s x code s' h
  obtain ⟨-, rfl, rfl⟩ := emits_pure.mp h
  exact .silent rfl

theorem fail (e : CompileError) : Level (CompM.fail e : CompM α) :=
  fun _ _ _ _ _ h => absurd h emits_fail

theorem fault : Level (CompM.fault : CompM α) := fun _ _ _ _ _ h => absurd h emits_fault

theorem outOfFuel : Level (CompM.outOfFuel : CompM α) :=
  fun _ _ _ _ _ h => absurd h emits_outOfFuel

theorem ctx : Level CompM.ctx := by
  intro c s x code s' h
  obtain ⟨-, rfl, rfl⟩ := emits_ctx.mp h
  exact .silent rfl

theorem frame : Level CompM.frame := by
  intro c s x code s' h
  obtain ⟨-, rfl, rfl⟩ := emits_frame.mp h
  exact .silent rfl

theorem nextLabel : Level CompM.nextLabel := by
  intro c s x code s' h
  obtain ⟨-, rfl, rfl⟩ := emits_nextLabel.mp h
  exact .silent rfl

theorem nextCall : Level CompM.nextCall := by
  intro c s x code s' h
  obtain ⟨-, rfl, rfl⟩ := emits_nextCall.mp h
  exact .silent rfl

theorem fetch (g : Heap → Except Stop α) : Level (CompM.fetch g) := by
  intro c s x code s' h
  obtain ⟨-, rfl, rfl⟩ := emits_fetch.mp h
  exact .silent rfl

theorem inspect (g : Ctx → Heap → Except Stop (Except CompileError α)) :
    Level (CompM.inspect g) := by
  intro c s x code s' h
  obtain ⟨-, rfl, rfl⟩ := emits_inspect.mp h
  exact .silent rfl

theorem alloc (g : Heap → Except Stop (α × Heap)) : Level (CompM.alloc g) := by
  intro c s x code s' h
  obtain ⟨_, -, rfl, rfl⟩ := emits_alloc.mp h
  exact .silent rfl

/-- Reading the frame and emitting code for its `sp`. -/
theorem frameEmit {code : Frame → List Jit}
    (hp : ∀ (fr : Frame) (exact : Prop) (lo h : ℤ), lo ≤ h → (exact → fr.sp = h) →
      Piece exact lo h (code fr) h) : Level (CompM.frame >>= fun fr => CompM.emit (code fr)) := by
  intro c s x code' s' h
  rw [emits_frame_bind] at h
  obtain ⟨rfl, rfl⟩ := emits_emit.mp h
  exact .same rfl (hp _)

theorem emit {code : List Jit} (hc : code.all Jit.isPlain = true) : Level (CompM.emit code) := by
  intro c s x code' s' h
  obtain ⟨rfl, rfl⟩ := emits_emit.mp h
  exact .same rfl fun _ _ _ hlo _ => .ofPlain hc hlo

theorem emitPiece {code : List Jit}
    (hp : ∀ (exact : Prop) (lo h : ℤ), lo ≤ h → Piece exact lo h code h) :
    Level (CompM.emit code) := by
  intro c s x code' s' h
  obtain ⟨rfl, rfl⟩ := emits_emit.mp h
  exact .same rfl fun exact lo h hlo _ => hp exact lo h hlo

/-- A change of the frame that leaves `sp` alone. -/
theorem modifyFrame {g : Frame → Frame} {k : CompM β} (hg : ∀ fr, (g fr).sp = fr.sp)
    (hk : Level k) : Level (CompM.frame >>= fun fr => setFrame (g fr) >>= fun _ => k) := by
  intro c s x code s' h
  rw [emits_frame_bind, emits_setFrame_bind] at h
  intro exact lo h₀ hs hlo hlo' hsp
  exact hk c _ x code s' h exact lo h₀ hs hlo hlo' fun he => (hg _).trans (hsp he)

end Level

namespace Grows

variable {α β : Type} {p : α → ℕ} {n : ℕ}

theorem bind {m : CompM α} {f : α → CompM β} {q : β → ℕ} (hm : Grows p n m)
    (hf : ∀ a, Grows q (p a) (f a)) : Grows q n (m >>= f) := by
  intro c s b code s' h
  obtain ⟨a, code₁, s₁, code₂, h₁, h₂, rfl⟩ := emits_bind.mp h
  obtain ⟨hle, hm₁⟩ := hm c s a code₁ s₁ h₁
  obtain ⟨hle', hm₂⟩ := hf a c s₁ b code₂ s' h₂
  exact ⟨hle.trans hle', hm₁.seq hm₂ (by omega) (Or.inl (by omega))⟩

theorem after {m : CompM β} {f : β → CompM α} (hm : Level m) (hf : ∀ b, Grows p n (f b)) :
    Grows p n (m >>= f) := by
  intro c s a code s' h
  obtain ⟨b, code₁, s₁, code₂, h₁, h₂, rfl⟩ := emits_bind.mp h
  obtain ⟨hle, hm₂⟩ := hf b c s₁ a code₂ s' h₂
  exact ⟨hle, (hm c s b code₁ s₁ h₁).seq hm₂ (zero_add _).symm (Or.inl le_rfl)⟩

theorem pure {a : α} (h : p a = n) : Grows p n (Pure.pure a : CompM α) := by
  intro c s x code s' he
  obtain ⟨rfl, rfl, rfl⟩ := emits_pure.mp he
  rw [h, sub_self]
  exact ⟨le_rfl, .silent rfl⟩

theorem fail (e : CompileError) : Grows p n (CompM.fail e : CompM α) :=
  fun _ _ _ _ _ h => absurd h emits_fail

theorem outOfFuel : Grows p n (CompM.outOfFuel : CompM α) :=
  fun _ _ _ _ _ h => absurd h emits_outOfFuel

/-- Keep a value and go on. -/
theorem push {a : ℕ} {m : CompM α} (hm : Grows p (n + 1) m) :
    Grows p n (CompM.emit [.push a a] >>= fun _ => addSp 1 >>= fun _ => m) := by
  intro c s x code s' h
  rw [emits_emit_bind] at h
  obtain ⟨rest, h, rfl⟩ := h
  rw [emits_addSp_bind] at h
  obtain ⟨hle, hm₁⟩ := hm c _ x rest s' h
  have hp : Moves s [.push a a] (s.addSp 1) 1 := .push a rfl
  exact ⟨by omega, hp.seq hm₁ (by push_cast; ring) (Or.inl (by norm_num))⟩

/-- Counting from elsewhere. -/
theorem congr {m : CompM α} {q : α → ℕ} {n' : ℕ} (hm : Grows p n m)
    (hq : ∀ a, (q a : ℤ) - n' = p a - n) : Grows q n' m := by
  intro c s x code s' h
  obtain ⟨hle, hm₁⟩ := hm c s x code s' h
  have heq := hq x
  rw [heq]
  exact ⟨by omega, hm₁⟩

end Grows

namespace Falls

variable {α β : Type} {n : ℕ}

theorem after {m : CompM β} {f : β → CompM α} (hm : Level m) (hf : ∀ b, Falls n (f b)) :
    Falls n (m >>= f) := by
  intro c s a code s' h
  obtain ⟨b, code₁, s₁, code₂, h₁, h₂, rfl⟩ := emits_bind.mp h
  exact (hm c s b code₁ s₁ h₁).seq (hf b c s₁ a code₂ s' h₂) (zero_add _).symm (Or.inl le_rfl)

theorem pure (a : α) : Falls 0 (Pure.pure a : CompM α) := by
  intro c s x code s' he
  obtain ⟨-, rfl, rfl⟩ := emits_pure.mp he
  exact .silent rfl

theorem pop {a : ℕ} {m : CompM α} (hm : Falls n m) :
    Falls (n + 1) (CompM.emit [.pop a a] >>= fun _ => addSp (-1) >>= fun _ => m) := by
  intro c s x code s' h
  rw [emits_emit_bind] at h
  obtain ⟨rest, h, rfl⟩ := h
  rw [emits_addSp_bind] at h
  have hp : Moves s [.pop a a] (s.addSp (-1)) (-1) := .pop a rfl
  exact hp.seq (hm c _ x rest s' h) (by push_cast; ring) (Or.inr (by omega))

end Falls

namespace Falls

variable {α β : Type} {n : ℕ}

theorem before {m : CompM α} {f : α → CompM β} (hm : Falls n m) (hf : ∀ a, Level (f a)) :
    Falls n (m >>= f) := by
  intro c s b code s' h
  obtain ⟨a, code₁, s₁, code₂, h₁, h₂, rfl⟩ := emits_bind.mp h
  exact (hm c s a code₁ s₁ h₁).seq (hf a c s₁ b code₂ s' h₂) (add_zero _).symm (Or.inr le_rfl)

end Falls

/-- What was pushed is popped. -/
theorem Level.unwind {α β : Type} {p : α → ℕ} {m : CompM α} {f : α → CompM β} (hm : Grows p 0 m)
    (hf : ∀ a, Falls (p a) (f a)) : Level (m >>= f) := by
  intro c s b code s' h
  obtain ⟨a, code₁, s₁, code₂, h₁, h₂, rfl⟩ := emits_bind.mp h
  exact (hm c s a code₁ s₁ h₁).2.seq (hf a c s₁ b code₂ s' h₂) (by push_cast; ring)
    (Or.inl (by omega))

/-! ## Helpers -/

namespace Level

theorem tagOf (w : Word) : Level (tagOf w) := bind (fetch _) fun _ => pure _

theorem nameOf (w : Word) : Level (nameOf w) := bind (fetch _) fun _ => fetch _

theorem lookup (name : List UInt8) : Level (lookupGlobalSymbol name) := bind ctx fun _ => pure _

theorem envCell (d : Arg) : Level (envCell d) := by
  refine bind ctx fun _ => ?_
  cases d.env with
  | none => exact fault
  | some e => exact pure _

theorem namedArg (argi : ℕ) (sig : Word) : Level (namedArg argi sig) := by
  unfold Compiler.namedArg
  split
  · exact pure _
  · refine bind (fetch _) fun c => ?_
    split
    · exact bind (fetch _) fun _ => bind (fetch _) fun _ => pure _
    · exact pure _

theorem letSignature (a : Args) (givenTag : ℕ) : Level (letSignature a givenTag) := by
  refine bind (nameOf _) fun _ => bind frame fun _ => bind ctx fun _ => ?_
  dsimp only
  split
  · exact pure _
  · exact pure _

theorem argSignature (isLet : Bool) (arg sig : Word) (a : Args) :
    Level (argSignature isLet arg sig a) := by
  unfold Compiler.argSignature
  split
  · exact bind (tagOf _) fun _ => letSignature _ _
  · exact pure _

theorem structTypeName (ty : Cell) (old : Option (List UInt8)) :
    Level (structTypeName ty old) := by
  unfold Compiler.structTypeName
  split
  · exact bind (fetch _) fun _ => bind (fetch _) fun _ => bind (fetch _) fun _ =>
      bind (nameOf _) fun _ => pure _
  · exact pure _

theorem firstElem (w : Word) : Level (firstElem w) := by
  refine bind (fetch _) fun x => ?_
  split
  · exact fetch _
  · exact fetch _

theorem findField (elements : Word) (name : List UInt8) (k : ℕ) :
    ∀ i, Level (findField elements name k i) := by
  induction k with
  | zero => exact fun _ => pure _
  | succ k ih =>
    intro i
    refine bind (fetch _) fun _ => bind (nameOf _) fun _ => ?_
    split
    · exact pure _
    · exact ih _

theorem sgetDef (d : Arg) (field : List UInt8) : Level (sgetDef d field) := by
  unfold Compiler.sgetDef
  split
  · exact bind (envCell _) fun _ => firstElem _
  · split
    · exact fail _
    · exact bind (lookup _) fun _ => envCell _

theorem sputDef (d : Arg) : Level (sputDef d) := by
  unfold Compiler.sputDef
  split
  · exact bind (envCell _) fun _ => firstElem _
  · split
    · exact fail _
    · refine bind (lookup _) fun e => ?_
      cases e with
      | none => exact fail _
      | some e => exact envCell _

theorem typedParam (x : Cell) : Level (typedParam x) := by
  refine bind (fetch _) fun typeCell => ?_
  split
  · exact fail _
  · refine bind (tagOf _) fun tag => ?_
    split
    · exact fail _
    · refine bind (nameOf _) fun _ => bind (nameOf _) fun _ => bind (lookup _) fun e =>
        bind ctx fun _ => ?_
      cases e with
      | none => exact fail _
      | some e =>
        dsimp only
        split
        · exact fail _
        · refine bind (tagOf _) fun tag => ?_
          split
          · exact fail _
          · exact pure _

theorem fnParamDecl (cell : Word) : Level (fnParamDecl cell) := by
  refine bind (fetch _) fun x => bind ctx fun _ => ?_
  split
  · exact bind (fetch _) fun _ => pure _
  · split
    · exact typedParam _
    · exact fail _

theorem fnParams (numLets : ℕ) (defs : ℕ → Arg) (k : ℕ) :
    ∀ f fnArgs, Level (fnParams numLets defs k f fnArgs) := by
  induction k with
  | zero => exact fun _ _ => pure _
  | succ k ih =>
    intro f fnArgs
    exact bind (fnParamDecl _) fun _ => bind (alloc _) fun _ => bind (alloc _) fun _ =>
      bind (alloc _) fun _ => ih _ _

/-- The end of most builtins. -/
theorem anyResult : Level (CompM.ctx >>= fun c => Pure.pure (Word.cell c.prototypeAny)) :=
  bind ctx fun _ => pure _

/-! ## Loads -/

/-- A load from a slot, at the height the compiler counts. -/
theorem slotLoad {exact : Prop} {lo h sp : ℤ} (dreg : ℕ) (slot : ℤ) (hlo : lo ≤ h)
    (hsp : exact → sp = h) :
    Piece exact lo h [.ldrStack dreg (ptrsz * (sp - slot)) (some slot)] h := by
  refine .access rfl (fun he k hk => ?_) hlo
  rw [hsp he, Option.some.inj hk]

theorem loadInt (dreg : ℕ) (d : Arg) : Level (loadInt dreg d) := by
  unfold Compiler.loadInt
  cases d.type with
  | const => exact bind (fetch _) fun _ => emit rfl
  | env => exact emit rfl
  | reg => exact emit rfl
  | regInt =>
    dsimp only
    split
    · exact emit rfl
    · exact emit rfl
  | stack =>
    exact frameEmit fun fr exact lo h hlo hsp =>
      .seq (slotLoad dreg d.slot hlo hsp) (.plain rfl hlo)
  | stackInt => exact frameEmit fun fr exact lo h hlo hsp => slotLoad dreg d.slot hlo hsp
  | lambda => exact emit rfl

/-- The boxing sequence, where the offset allows for what was pushed. -/
theorem boxStackInt {exact : Prop} {lo h sp : ℤ} (dreg : ℕ) (slot : ℤ) (hlo : lo ≤ h)
    (hsp : exact → sp = h) : Piece exact lo h (boxStackInt dreg sp slot) h := by
  have hbox : ∀ n : ℤ, 0 ≤ n → Piece exact lo (h + n) [.ldrStack argr0 (ptrsz * (sp - slot + n))
      (some slot), .call .allocInt, .movr dreg r0] (h + n) := by
    intro n hn
    rw [show sp - slot + n = sp + n - slot by ring]
    exact .seq (slotLoad argr0 slot (by omega) fun he => by rw [hsp he]) (.ofPlain rfl (by omega))
  have hsave : ∀ {n : ℤ} {code : List Jit} (r : ℕ), 0 ≤ n →
      Piece exact lo (h + (n + 1)) code (h + (n + 1)) →
      Piece exact lo (h + n) ([.push r r] ++ (code ++ [.pop r r])) (h + n) := by
    intro n code r hn hc
    refine .nest (by omega) ?_
    rw [Nat.add_sub_cancel_left, Nat.cast_one, add_assoc]
    exact hc
  unfold Compiler.boxStackInt
  by_cases h1 : dreg = argr0
  · have h1' : ¬ dreg ≠ argr0 := not_not.mpr h1
    by_cases h0 : dreg = r0
    · have h0' : ¬ dreg ≠ r0 := not_not.mpr h0
      have hb := hbox 0 le_rfl
      rw [add_zero] at hb
      simpa only [if_neg h1', if_neg h0', List.nil_append, List.append_nil, List.length_nil,
        Nat.cast_zero, add_zero] using hb
    · have hb := hsave r0 le_rfl (hbox (0 + 1) (by norm_num))
      rw [add_zero] at hb
      simpa only [if_neg h1', if_pos (show dreg ≠ r0 from h0), List.nil_append, List.append_nil,
        List.append_assoc, List.length_nil, List.length_singleton, Nat.cast_zero, Nat.cast_one]
        using hb
  · by_cases h0 : dreg = r0
    · have h0' : ¬ dreg ≠ r0 := not_not.mpr h0
      have hb := hsave argr0 le_rfl (hbox (0 + 1) (by norm_num))
      rw [add_zero, zero_add] at hb
      simpa only [if_pos (show dreg ≠ argr0 from h1), if_neg h0', List.nil_append, List.append_nil,
        List.append_assoc, List.length_nil, List.length_singleton, Nat.cast_zero, Nat.cast_one,
        add_zero] using hb
    · have hin := hsave r0 (show (0 : ℤ) ≤ 0 + 1 by norm_num) (hbox (0 + 1 + 1) (by norm_num))
      have hb := hsave argr0 le_rfl hin
      rw [add_zero, zero_add] at hb
      simpa only [if_pos (show dreg ≠ argr0 from h1), if_pos (show dreg ≠ r0 from h0),
        List.append_assoc, List.length_singleton, Nat.cast_one] using hb

theorem loadCell (dreg : ℕ) (d : Arg) : Level (loadCell dreg d) := by
  unfold Compiler.loadCell
  cases d.type with
  | stack => exact frameEmit fun fr exact lo h hlo hsp => slotLoad dreg d.slot hlo hsp
  | stackInt => exact frameEmit fun fr exact lo h hlo hsp => boxStackInt dreg d.slot hlo hsp
  | _ => exact emit rfl

/-! ## Arguments -/

theorem symbolArg (arg : Cell) (argName opName : List UInt8) (a : Args) :
    Grows Args.pushed a.pushed (symbolArg arg argName opName a) := by
  refine .after (fetch _) fun name => .after frame fun fr => ?_
  split
  · exact .pure rfl
  · refine .after (lookup _) fun e => ?_
    cases e with
    | none => exact .fail _
    | some e => exact .pure rfl

/-- What a recursive call has to satisfy. -/
abbrev RecLevel (rec : Rec) : Prop := ∀ expr returnType, Level (rec expr returnType)

variable {rec : Rec}

theorem eagerArg (hrec : RecLevel rec) (arg sig : Word) (a : Args) :
    Grows Args.pushed a.pushed (eagerArg rec arg sig a) := by
  refine .after (hrec _ _) fun consType => .after (fetch _) fun ty => ?_
  intro c s a' code s' h
  simp only [emits_addSp_bind, emits_frame_bind, (ReadOnly.structTypeName _ _).emits_bind,
    emits_emit_bind, emits_pure] at h
  obtain ⟨typeName, -, rest, ⟨rfl, rfl, rfl⟩, rfl⟩ := h
  refine ⟨Nat.le_succ _, ?_⟩
  have hone : ((a.pushed + 1 : ℕ) : ℤ) - a.pushed = 1 := by push_cast; ring
  change Moves s _ _ (((a.pushed + 1 : ℕ) : ℤ) - a.pushed)
  rw [hone]
  exact .push r0 rfl

theorem givenArg (hrec : RecLevel rec) (opName argName : List UInt8) (arg sig : Word)
    (anyNumber : Bool) (a : Args) :
    Grows Args.pushed a.pushed (givenArg rec opName argName arg sig anyNumber a) := by
  refine .after (fetch _) fun x => ?_
  split
  · exact .pure rfl
  · refine .after (tagOf _) fun sigTag => ?_
    split
    · exact .pure rfl
    · split
      · exact eagerArg hrec _ _ _
      · split
        · exact symbolArg _ _ _ _
        · split
          · exact .pure rfl
          · exact .fail _

theorem prepareArg (hrec : RecLevel rec) (isLet : Bool) (opName : List UInt8)
    (args signatureArgs : Word) (a : Args) :
    Grows Args.pushed a.pushed (prepareArg rec isLet opName args signatureArgs a) := by
  refine .after (fetch _) fun arg => .after (fetch _) fun sig => .after (namedArg _ _) fun named => ?_
  dsimp only
  split
  · exact .after (argSignature _ _ _ _) fun _ => givenArg hrec _ _ _ _ _ _
  · split
    · exact .fail _
    · split
      · exact .fail _
      · exact .pure rfl

theorem argLoop (hrec : RecLevel rec) (isLet : Bool) (opName : List UInt8) (k : ℕ) :
    ∀ (args signatureArgs : Word) (a : Args),
      Grows Args.pushed a.pushed (argLoop rec isLet opName k args signatureArgs a) := by
  induction k with
  | zero => exact fun _ _ _ => .pure rfl
  | succ k ih =>
    intro args signatureArgs a
    refine .bind (prepareArg hrec _ _ _ _ _) fun b => ?_
    dsimp only
    split
    · exact .pure rfl
    · refine .after (fetch _) fun args => ?_
      split
      · exact .pure rfl
      · split
        · exact ih _ _ _
        · refine .after (fetch _) fun signatureArgs => ?_
          split
          · exact .pure rfl
          · exact ih _ _ _

theorem cleanReturn (n : ℕ) (ty : Word) : Falls n (cleanReturn n ty) := by
  unfold Compiler.cleanReturn
  split
  · rename_i hn
    rw [hn]
    exact .pure _
  · intro c s x code s' h
    simp only [emits_emit_bind, emits_addSp_bind, emits_pure] at h
    obtain ⟨rest, ⟨rfl, rfl, rfl⟩, rfl⟩ := h
    exact .drop n rfl

/-! ## Builtins -/

theorem intResult (returnType : Word) : Level (intResult returnType) := by
  refine bind ctx fun _ => bind (tagOf _) fun tag => ?_
  split
  · exact bind (emit rfl) fun _ => pure _
  · exact bind (emit rfl) fun _ => pure _

theorem compileArith {op : ℕ → ℕ → Jit} (hop : (op argr0 r2).isPlain = true) (returnType : Word)
    (defs : ℕ → Arg) : Level (compileArith op returnType defs) :=
  bind (loadInt _ _) fun _ => bind (loadInt _ _) fun _ =>
    bind (emit (by rw [List.all_cons, hop]; rfl)) fun _ => intResult _

theorem compileEq (returnType : Word) (defs : ℕ → Arg) : Level (compileEq returnType defs) := by
  refine bind (loadInt _ _) fun _ => bind (loadInt _ _) fun _ => bind (emit rfl) fun _ =>
    bind ctx fun _ => bind (tagOf _) fun tag => ?_
  split
  · exact bind (emit rfl) fun _ => pure _
  · exact pure _

theorem emitSaved (f : Option (ℕ → Arg)) {mid : List Jit} (hm : mid.all Jit.isPlain = true) :
    Level (CompM.emit (pushFrameRegs f ++ mid ++ popFrameRegs f)) :=
  emitPiece fun _ _ _ hlo => .savedRegs f hm hlo

theorem compileDef (defs : ℕ → Arg) : Level (compileDef defs) :=
  bind (emit rfl) fun _ => bind (loadCell _ _) fun _ => bind frame fun _ =>
    bind (emitSaved _ rfl) fun _ => anyResult

theorem letIsInt (d : Arg) : Level (letIsInt d) := by
  unfold Compiler.letIsInt
  split
  · exact pure _
  · exact pure _
  · exact bind (tagOf _) fun _ => pure _
  · exact pure _

theorem setFrameEntry (i : ℕ) (d : Arg) : Level (setFrameEntry i d) := by
  intro c s x code s' h
  unfold Compiler.setFrameEntry at h
  rw [emits_frame_bind] at h
  split at h
  · exact absurd h emits_fault
  · split at h
    · obtain ⟨rfl, rfl⟩ := emits_setFrame.mp h
      exact .silent rfl
    · exact absurd h emits_fault

theorem letEntry (name : List UInt8) (f : ℕ → Arg) (value : Arg) :
    Level (letEntry name f value) := by
  unfold Compiler.letEntry
  split
  · exact pure _
  · exact bind (letIsInt _) fun _ => bind frame fun _ => bind (setFrameEntry _ _) fun _ =>
      modifyFrame (fun _ => rfl) (pure _)

theorem letLoad (isInt : Bool) (value : Arg) : Level (letLoad isInt value) := by
  refine bind ctx fun _ => ?_
  split
  · exact bind (loadInt _ _) fun _ => pure _
  · exact bind (loadCell _ _) fun _ => pure _

theorem letStore (d : Arg) : Level (letStore d) := by
  unfold Compiler.letStore
  by_cases ht : d.type = .regInt ∨ d.type = .reg
  · simp only [if_pos ht]
    exact bind frame fun _ => emit rfl
  · simp only [if_neg ht]
    refine frameEmit fun fr exact lo h hlo hsp => .access rfl (fun he k hk => ?_) hlo
    rw [hsp he, Option.some.inj hk]

theorem compileLet (returnType : Word) (defs : ℕ → Arg) : Level (compileLet returnType defs) := by
  refine bind frame fun fr => ?_
  split
  · exact fail _
  · refine bind (nameOf _) fun _ => bind (letEntry _ _ _) fun _ => bind (letLoad _ _) fun _ =>
      bind (letStore _) fun _ => bind (tagOf _) fun _ => bind (tagOf _) fun _ => ?_
    split
    · exact bind (emit rfl) fun _ => anyResult
    · exact pure _

theorem compileNew (n : ℕ) (origOp : Word) (defs : ℕ → Arg) :
    Level (compileNew n origOp defs) := by
  unfold Compiler.compileNew
  apply bind
  · split
    · exact pure _
    · exact envCell _
  · intro arg
    refine bind (tagOf _) fun _ => ?_
    split
    · exact fail _
    · exact bind (emit rfl) fun _ => bind (alloc _) fun _ => pure _

theorem compileSget (defs : ℕ → Arg) : Level (compileSget defs) := by
  refine bind (nameOf _) fun _ => bind (sgetDef _ _) fun _ => bind (fetch _) fun _ => ?_
  split
  · exact fail _
  · refine bind (fetch _) fun _ => bind (findField _ _ _ _) fun found => ?_
    cases found with
    | none => exact bind (emit rfl) fun _ => fail _
    | some i =>
      exact bind (loadCell _ _) fun _ => bind (emit rfl) fun _ => bind (fetch _) fun _ =>
        bind (tagOf _) fun _ => bind ctx fun _ => pure _

theorem compileSput (defs : ℕ → Arg) : Level (compileSput defs) := by
  refine bind (nameOf _) fun _ => bind (sputDef _) fun _ => bind (fetch _) fun _ => ?_
  split
  · exact fail _
  · refine bind (fetch _) fun _ => bind (findField _ _ _ _) fun found => ?_
    cases found with
    | none => exact bind (emit rfl) fun _ => fail _
    | some i =>
      exact bind (loadCell _ _) fun _ => bind (emit rfl) fun _ => bind (loadCell _ _) fun _ =>
        bind (emit rfl) fun _ => anyResult

theorem compileQuote (origArgs : Word) : Level (compileQuote origArgs) := by
  refine bind (fetch _) fun _ => ?_
  split
  · exact fail _
  · exact bind (emit rfl) fun _ => anyResult

theorem compileCall1 {call : Jit} (hc : call.isPlain = true) (defs : ℕ → Arg) :
    Level (compileCall1 call defs) :=
  bind (loadCell _ _) fun _ => bind (emit (by rw [List.all_cons, hc]; rfl)) fun _ => anyResult

theorem compileCall2 {call : Jit} (hc : call.isPlain = true) (defs : ℕ → Arg) :
    Level (compileCall2 call defs) :=
  bind (loadCell _ _) fun _ => bind (loadCell _ _) fun _ =>
    bind (emit (by rw [List.all_cons, hc]; rfl)) fun _ => anyResult

theorem compileSavedCall1 (f : CFun) (defs : ℕ → Arg) : Level (compileSavedCall1 f defs) :=
  bind (loadCell _ _) fun _ => bind frame fun _ => bind (emitSaved _ rfl) fun _ => anyResult

theorem compileSend (defs : ℕ → Arg) : Level (compileSend defs) :=
  bind (loadCell _ _) fun _ => bind (loadCell _ _) fun _ => bind frame fun _ =>
    bind (emitSaved _ rfl) fun _ => anyResult

theorem compileGet {load : Jit} (hl : load.isPlain = true) (returnType : Word) (defs : ℕ → Arg) :
    Level (compileGet load returnType defs) := by
  refine bind nextLabel fun n => bind (loadCell _ _) fun _ => bind (loadInt _ _) fun _ =>
    bind (emit rfl) fun _ => bind ?_ fun _ => bind (emit rfl) fun _ => intResult _
  refine emitPiece fun exact lo h hlo => ?_
  have hc : ([Jit.movr r1 r0, .movr r1 r0, .ldr r1, .addr r1 r2, .movi r3 (.int 0), load]).all
      Jit.isPlain = true := by
    simp only [List.all_cons, hl]
    rfl
  exact Piece.tagCheck n hlo (.ofPlain hc hlo)

theorem compilePut {store : Jit} (hs : store.isPlain = true) (defs : ℕ → Arg) :
    Level (compilePut store defs) :=
  bind nextLabel fun n => bind (loadCell _ _) fun _ => bind (loadInt _ _) fun _ =>
    bind (loadInt _ _) fun _ => bind (emit (by simp only [List.all_cons, hs]; rfl)) fun _ =>
      bind (emitPiece fun _ _ _ hlo => .label n hlo) fun _ => anyResult

theorem compilePut32 (defs : ℕ → Arg) : Level (compilePut32 defs) :=
  bind nextLabel fun n => bind (loadCell _ _) fun _ => bind (loadInt _ _) fun _ =>
    bind (loadInt _ _) fun _ => bind (emit rfl) fun _ =>
      bind (emitPiece fun _ _ _ hlo => .label n hlo) fun _ => bind (emit rfl) fun _ => anyResult

theorem compileSize (returnType : Word) (defs : ℕ → Arg) : Level (compileSize returnType defs) := by
  refine bind ctx fun _ => bind (loadCell _ _) fun _ => bind (emit rfl) fun _ =>
    bind (tagOf _) fun _ => ?_
  split
  · exact bind (emit rfl) fun _ => pure _
  · split
    · exact bind (emit rfl) fun _ => pure _
    · exact pure _

/-! ## Control -/

theorem compileElse {s₀ s₁ s' : CState} {c : Ctx} {th code : List Jit} {x : Unit} (hrec : RecLevel rec)
    {skip : ℕ} {thenType returnType elseCell : Word} (hth : Moves s₀ th s₁ 0)
    (h : Emits (compileElse rec skip thenType returnType elseCell) c s₁ x code s') :
    Moves s₀ ([.cmpi r0 0, .je (.else_ skip)] ++ (th ++ code)) s' 0 := by
  unfold Compiler.compileElse at h
  split at h
  · rw [emits_nextLabel_bind, emits_emit_bind] at h
    obtain ⟨_, k₁, rfl⟩ := h
    obtain ⟨elseType, el, s₂, _, hel, k₂, rfl⟩ := emits_bind.mp k₁
    simp only [emits_emit_bind, (ReadOnly.tagOf _).emits_bind] at k₂
    obtain ⟨rest, ⟨returnTag, -, thenTag, -, elseTag, -, k₃⟩, rfl⟩ := k₂
    have hrest : rest = [] ∧ s' = s₂ := by
      split at k₃
      · exact absurd k₃ emits_fail
      · exact (emits_pure.mp k₃).2
    obtain ⟨rfl, rfl⟩ := hrest
    have hel := hrec _ _ _ _ _ _ _ hel
    intro exact lo h hs hlo hlo' hsp
    obtain ⟨hp₁, hsp₁⟩ := hth exact lo h (fun he hm => hs he (by simp [hm])) hlo hlo' hsp
    rw [add_zero] at hp₁ hsp₁
    obtain ⟨hp₂, hsp₂⟩ := hel exact lo h (fun he hm => hs he (by simp [hm])) hlo hlo' hsp₁
    rw [add_zero] at hp₂ hsp₂ ⊢
    exact ⟨by simpa [ifElseCode] using Piece.ifElse skip (s₁.labelSkipCount + 1) hp₁ hp₂, hsp₂⟩
  · obtain ⟨rfl, rfl⟩ := emits_emit.mp h
    intro exact lo h hs hlo hlo' hsp
    obtain ⟨hp₁, hsp₁⟩ := hth exact lo h (fun he hm => hs he (by simp [hm])) hlo hlo' hsp
    rw [add_zero] at hp₁ hsp₁ ⊢
    exact ⟨.ifThen skip hlo hp₁, hsp₁⟩

theorem compileIf (hrec : RecLevel rec) (returnType : Word) (defs : ℕ → Arg) :
    Level (compileIf rec returnType defs) := by
  refine bind nextLabel fun skip => bind (loadInt _ _) fun _ => ?_
  intro c s ty code s' h
  rw [emits_emit_bind] at h
  obtain ⟨_, h, rfl⟩ := h
  obtain ⟨thenType, th, s₁, _, hth, k₁, rfl⟩ := emits_bind.mp h
  obtain ⟨_, el, s₂, _, hel, k₂, rfl⟩ := emits_bind.mp k₁
  rw [emits_ctx_bind] at k₂
  obtain ⟨-, rfl, rfl⟩ := emits_pure.mp k₂
  rw [List.append_nil]
  exact compileElse hrec (hrec _ _ _ _ _ _ _ hth) hel

theorem compileWhile (hrec : RecLevel rec) (returnType : Word) (defs : ℕ → Arg) :
    Level (compileWhile rec returnType defs) := by
  refine bind nextLabel fun n => bind ctx fun _ => ?_
  intro c s ty code s' h
  rw [emits_emit_bind] at h
  obtain ⟨_, k₁, rfl⟩ := h
  obtain ⟨condType, cc, s₁, _, hc, k₂, rfl⟩ := emits_bind.mp k₁
  simp only [(ReadOnly.tagOf _).emits_bind, emits_emit_bind] at k₂
  obtain ⟨condTag, -, _, ⟨_, k₃, rfl⟩, rfl⟩ := k₂
  obtain ⟨bodyType, bc, s₂, _, hb, k₄, rfl⟩ := emits_bind.mp k₃
  simp only [(ReadOnly.tagOf _).emits_bind, emits_emit_bind, emits_pure] at k₄
  obtain ⟨_, ⟨returnTag, -, _, ⟨-, rfl, rfl⟩, rfl⟩, rfl⟩ := k₄
  have hcc := hrec _ _ _ _ _ _ _ hc
  have hbc := hrec _ _ _ _ _ _ _ hb
  have hldr : (if condTag ≠ tagInt then [Jit.ldr r0] else []).all Jit.isPlain = true := by
    split <;> rfl
  intro exact lo h hs hlo hlo' hsp
  obtain ⟨hp₁, hsp₁⟩ := hcc exact lo h (fun he hm => hs he (by simp [hm])) hlo hlo' hsp
  rw [add_zero] at hp₁ hsp₁
  obtain ⟨hp₂, hsp₂⟩ := hbc exact lo h (fun he hm => hs he (by simp [hm])) hlo hlo' hsp₁
  rw [add_zero] at hp₂ hsp₂ ⊢
  have hw := Piece.loop (decide (returnTag = tagAny)) n (hp₁.seq (.ofPlain hldr hlo)) hp₂
  exact ⟨by simpa [whileCode, whileTail] using hw, hsp₂⟩

theorem doLoop (hrec : RecLevel rec) (returnType : Word) (n : ℕ) :
    ∀ args, Level (doLoop rec returnType n args) := by
  induction n with
  | zero => exact fun _ => outOfFuel
  | succ n ih =>
    intro args
    refine bind (fetch _) fun _ => ?_
    split
    · exact pure _
    · exact bind ctx fun _ => bind (fetch _) fun _ => bind (fetch _) fun _ =>
        bind (hrec _ _) fun _ => ih _

theorem compileDo (hrec : RecLevel rec) (n : ℕ) (returnType origArgs : Word) :
    Level (compileDo rec n returnType origArgs) := by
  refine bind (fetch _) fun _ => ?_
  split
  · exact fail _
  · exact bind (doLoop hrec _ _ _) fun _ => anyResult

/-! ## Lists -/

theorem listLoop (hrec : RecLevel rec) (n : ℕ) : ∀ args, Grows id 0 (listLoop rec n args) := by
  induction n with
  | zero => exact fun _ => .outOfFuel
  | succ n ih =>
    intro args
    refine .after (fetch _) fun _ => ?_
    split
    · exact .pure rfl
    · refine .after ctx fun _ => .after (hrec _ _) fun _ => .push (.after (fetch _) fun rest => ?_)
      have hrest : Grows (· + 1) 1 (Compiler.listLoop rec n rest) :=
        (ih rest).congr fun k => by push_cast [id]; ring
      exact .bind hrest fun _ => .pure rfl

theorem listPops (n : ℕ) : Falls n (listPops n) := by
  induction n with
  | zero => exact .pure _
  | succ n ih => exact .pop (.after (emit rfl) fun _ => ih)

theorem compileList (hrec : RecLevel rec) (n : ℕ) (origArgs : Word) :
    Level (compileList rec n origArgs) :=
  .unwind (listLoop hrec _ _) fun _ => .after (emit rfl) fun _ => .before (listPops _) fun _ =>
    anyResult

/-! ## Structs -/

theorem structLoop_piece {c : Ctx} (hrec : RecLevel rec) (n : ℕ) {args : Word} {s s' : CState} {k : ℕ}
    {code : List Jit} (h : Emits (structLoop rec n args) c s k code s') {lo h₀ : ℤ} (hlo : lo ≤ h₀) :
    Piece False lo h₀ code (h₀ + k) := by
  induction n generalizing args s s' k code h₀ with
  | zero => exact absurd h emits_outOfFuel
  | succ n ih =>
    unfold structLoop at h
    rw [emits_fetch_bind] at h
    obtain ⟨key, -, h⟩ := h
    split at h
    · obtain ⟨rfl, rfl, rfl⟩ := emits_pure.mp h
      rw [Nat.cast_zero, add_zero]
      exact .nil hlo
    · rw [(ReadOnly.tagOf _).emits_bind] at h
      obtain ⟨keyTag, -, h⟩ := h
      split at h
      · exact absurd h emits_fail
      · simp only [emits_emit_bind, emits_fetch_bind] at h
        obtain ⟨_, ⟨rest, -, arg, -, h⟩, rfl⟩ := h
        split at h
        · exact absurd h emits_fail
        · simp only [emits_fetch_bind, emits_ctx_bind] at h
          obtain ⟨args', -, h⟩ := h
          obtain ⟨_, code₁, s₁, _, h₁, h₂, rfl⟩ := emits_bind.mp h
          simp only [emits_emit_bind, emits_addSp_bind] at h₂
          obtain ⟨_, h₂, rfl⟩ := h₂
          obtain ⟨m, code₂, s₂, _, h₂, h₃, rfl⟩ := emits_bind.mp h₂
          obtain ⟨rfl, rfl, rfl⟩ := emits_pure.mp h₃
          have hone : ∀ x : ℤ, x + ((r0 + 1 - r0 : ℕ) : ℤ) = x + 1 := fun x => rfl
          have hkey : Piece False lo h₀ ([.lea r0 key] ++ [.push r0 r0]) _ :=
            .seq (.plain rfl hlo) (.push r0 r0 hlo)
          rw [hone] at hkey
          have hvalue := (hrec _ _ _ _ _ _ _ h₁ False lo (h₀ + 1) False.elim (by omega) (by omega)
            False.elim).1
          rw [add_zero] at hvalue
          have hpush : Piece False lo (h₀ + 1) _ _ := .push r0 r0 (by omega)
          rw [hone] at hpush
          have hrest := ih h₂ (show lo ≤ h₀ + 1 + 1 by omega)
          have hall := hkey.seq (hvalue.seq (hpush.seq hrest))
          rw [show h₀ + ((m + 2 : ℕ) : ℤ) = h₀ + 1 + 1 + m by push_cast; ring]
          simpa using hall

theorem structPops_piece {c : Ctx} (n : ℕ) {s s' : CState} {x : Unit} {code : List Jit}
    (h : Emits (structPops n) c s x code s') {lo h₀ : ℤ} (hlo : lo ≤ h₀) :
    Piece False lo (h₀ + n) code h₀ := by
  induction n generalizing s s' code with
  | zero =>
    obtain ⟨-, rfl, rfl⟩ := emits_pure.mp h
    rw [Nat.cast_zero, add_zero]
    exact .nil hlo
  | succ n ih =>
    unfold structPops at h
    simp only [emits_emit_bind, emits_addSp_bind] at h
    obtain ⟨_, ⟨rest, h, rfl⟩, rfl⟩ := h
    have hpop : Piece False lo _ _ (h₀ + n) := .pop r3 r3 (by omega)
    rw [show h₀ + n + ((r3 + 1 - r3 : ℕ) : ℤ) = h₀ + ((n + 1 : ℕ) : ℤ) by push_cast; ring] at hpop
    have hfirst : Piece False lo _ ([.addi r1 (-ptrsz)] ++ [.pop r3 r3]) _ :=
      .seq (.plain rfl (by omega)) hpop
    have hlast : Piece False lo (h₀ + n) ([.stra r1] ++ rest) h₀ :=
      .seq (.plain rfl (by omega)) (ih h)
    have hall := hfirst.seq hlast
    simpa using hall

/-- A `struct` form ends at the height it begins at, but `frame->sp` does not. -/
theorem compileStruct (hrec : RecLevel rec) (n : ℕ) (origArgs : Word) :
    Level (compileStruct rec n origArgs) := by
  intro c s ty code s' h
  unfold Compiler.compileStruct at h
  simp only [emits_fetch_bind, emits_emit_bind] at h
  obtain ⟨fields, -, nameSym, -, _, h, rfl⟩ := h
  obtain ⟨k, code₁, s₁, _, h₁, k₁, rfl⟩ := emits_bind.mp h
  rw [emits_emit_bind] at k₁
  obtain ⟨_, k₂, rfl⟩ := k₁
  obtain ⟨_, code₂, s₂, _, h₂, k₃, rfl⟩ := emits_bind.mp k₂
  simp only [emits_frame_bind, emits_emit_bind, emits_ctx_bind, emits_pure] at k₃
  obtain ⟨_, ⟨-, rfl, rfl⟩, rfl⟩ := k₃
  intro exact lo h hs hlo _ _
  have hno : ¬ exact := fun he => hs he (by simp)
  refine ⟨?_, fun he => absurd he hno⟩
  obtain rfl : exact = False := eq_false hno
  have hone : ∀ x : ℤ, x + ((r0 + 1 - r0 : ℕ) : ℤ) = x + 1 := fun x => rfl
  have hname : Piece False lo h ([.lea r0 nameSym] ++ [.push r0 r0]) _ :=
    .seq (.plain rfl hlo) (.push r0 r0 hlo)
  rw [hone] at hname
  have hfields := structLoop_piece hrec _ h₁ (show lo ≤ h + 1 by omega)
  have hmid : Piece False lo (h + 1 + k) [.movi argr0 (.ofNat (k + 1)), .call .allocStructDef,
      .movr r1 r0, .ldr r1, .addi r1 ((k + 1 : ℕ) * ptrsz)] (h + 1 + k) :=
    .ofPlain rfl (by omega)
  have hpops := structPops_piece _ h₂ hlo
  rw [show h + ((k + 1 : ℕ) : ℤ) = h + 1 + k by push_cast; ring] at hpops
  have hlast : Piece False lo h ([.push r0 r0] ++ (([.movr argr1 r0, .lea argr0 nameSym] ++
      (pushFrameRegs s'.frame.f ++ [.call .insertGlobalSymbol] ++ popFrameRegs s'.frame.f)) ++
      [.pop r0 r0])) h := by
    refine .nest hlo ?_
    rw [hone]
    exact (Piece.ofPlain rfl (by omega)).seq (.savedRegs _ rfl (by omega))
  have hall := hname.seq (hfields.seq (hmid.seq (hpops.seq hlast)))
  rw [add_zero]
  simpa using hall

/-! ## Functions and calls -/

theorem compileFn (hrec : RecLevel rec) (n call : ℕ) (a : Args) : Level (compileFn rec n call a) := by
  unfold Compiler.compileFn
  split
  · exact fail _
  · refine bind ctx fun _ => bind (fetch _) fun lets => bind (alloc _) fun _ =>
      bind (fnParams _ _ _ _ _) fun fa => bind (alloc _) fun _ => bind (alloc _) fun lambda =>
        bind (alloc _) fun _ => ?_
    intro c s ty code s' h
    simp only [emits_emit_bind, emits_frame_bind, emits_setFrame_bind] at h
    obtain ⟨_, h, rfl⟩ := h
    obtain ⟨bodyType, body, s₁, _, hb, k, rfl⟩ := emits_bind.mp h
    simp only [emits_setFrame_bind, emits_emit_bind, emits_pure] at k
    obtain ⟨_, ⟨-, rfl, rfl⟩, rfl⟩ := k
    intro exact lo h hs hlo _ hsp
    have hbody := (hrec _ _ _ _ _ _ _ hb exact 0 0 (fun he hm => hs he (by simp [hm])) le_rfl le_rfl
      fun _ => rfl).1
    rw [add_zero] at hbody ⊢
    refine ⟨?_, hsp⟩
    have hfn := Piece.fn lambda lets.length hbody hlo
    simpa [fnCode] using hfn

theorem passInReg (pushed spo j : ℕ) (d : Arg) : Level (passInReg pushed spo j d) := by
  unfold Compiler.passInReg
  split
  · exact emitPiece fun exact lo h hlo =>
      .access rfl (fun _ k hk => absurd hk (by simp)) hlo
  · exact loadCell _ _

theorem passArgs (pushed : ℕ) (defs : ℕ → Arg) (j : ℕ) :
    ∀ spo, Grows id spo (passArgs pushed defs j spo) := by
  induction j with
  | zero => exact fun _ => .pure rfl
  | succ j ih =>
    intro spo
    unfold Compiler.passArgs
    split
    · exact .after (loadCell _ _) fun _ => .push (ih _)
    · exact .after (passInReg _ _ _ _) fun _ => ih _

theorem dropSpilled (spo : ℕ) : Falls spo (dropSpilled spo) := by
  unfold Compiler.dropSpilled
  split
  · rename_i hn
    rw [hn]
    exact .pure _
  · intro c s x code s' h
    rw [emits_emit_bind] at h
    obtain ⟨rest, h, rfl⟩ := h
    obtain ⟨rfl, rfl⟩ := emits_addSp.mp h
    exact .drop spo rfl

theorem compileCall (e : ℕ) (a : Args) : Level (compileCall e a) := by
  intro c s ty code s' h
  unfold Compiler.compileCall at h
  simp only [emits_frame_bind, emits_emit_bind, emits_addSp_bind] at h
  obtain ⟨_, h, rfl⟩ := h
  obtain ⟨spo, code₁, s₁, _, h₁, k₁, rfl⟩ := emits_bind.mp h
  rw [emits_emit_bind] at k₁
  obtain ⟨_, k₂, rfl⟩ := k₁
  obtain ⟨_, code₂, s₂, _, h₂, k₃, rfl⟩ := emits_bind.mp k₂
  simp only [emits_emit_bind, emits_addSp_bind, emits_ctx_bind, emits_pure] at k₃
  obtain ⟨_, ⟨-, rfl, rfl⟩, rfl⟩ := k₃
  have hargs := (passArgs _ _ _ 0 _ _ _ _ _ h₁).2
  have hdrop := dropSpilled _ _ _ _ _ _ h₂
  intro exact lo h hs hlo _ hsp
  have hlo₁ : lo ≤ h + (frameRegs s.frame.f : ℤ) := by omega
  have hspo : ((id spo : ℕ) : ℤ) - (0 : ℕ) = spo := by push_cast [id]; ring
  rw [hspo] at hargs
  obtain ⟨hp₁, hsp₁⟩ := hargs exact lo (h + frameRegs s.frame.f) (fun he hm => hs he (by simp [hm]))
    hlo₁ (by omega) fun he => by rw [← hsp he]
  obtain ⟨hp₂, hsp₂⟩ := hdrop exact lo (h + frameRegs s.frame.f + spo)
    (fun he hm => hs he (by simp [hm])) (by omega) (by omega) hsp₁
  rw [add_neg_cancel_right] at hp₂ hsp₂
  have hcall : Piece exact lo (h + frameRegs s.frame.f + spo) [.lea r0 (.ptr (.entry e) 0), .ldr r0,
      .addi r0 ptrsz, .ldr r0, .callr r0 (a.argi - 1)] (h + frameRegs s.frame.f + spo) :=
    .ofPlain rfl (by omega)
  have hall := (Piece.pushRegs _ hlo).seq (hp₁.seq (hcall.seq (hp₂.seq (.popRegs _ hlo))))
  rw [add_zero]
  refine ⟨by simpa [pushFrameRegs, popFrameRegs] using hall, fun he => ?_⟩
  change s₂.frame.sp + -(frameRegs s.frame.f : ℤ) = h
  rw [hsp₂ he]
  ring

/-! ## The switch and the recursion -/

theorem compileAtom (expr : Word) (x : Cell) : Level (compileAtom expr x) := by
  refine bind ctx fun _ => ?_
  split
  · refine bind (fetch _) fun name => bind frame fun fr => ?_
    split
    · exact bind (loadCell _ _) fun _ => pure _
    · refine bind (lookup _) fun e => ?_
      cases e with
      | none => exact bind (emit rfl) fun _ => fail _
      | some e =>
        refine bind (emit rfl) fun _ => ?_
        split
        · exact fail _
        · exact pure _
  · exact bind (emit rfl) fun _ => pure _

theorem compileBuiltin (hrec : RecLevel rec) (n call : ℕ) (returnType origArgs origOp : Word)
    (a : Args) (b : Builtin) :
    Level (compileBuiltin rec n call returnType origArgs origOp a b) := by
  cases b with
  | add | sub | mul | div | mod | bitand | bitor | bitxor | shl | shr => exact compileArith rfl _ _
  | bitnot => exact bind (loadInt _ _) fun _ => bind (emit rfl) fun _ => intResult _
  | gt | lt =>
    exact bind (loadInt _ _) fun _ => bind (loadInt _ _) fun _ => bind (emit rfl) fun _ =>
      intResult _
  | eq => exact compileEq _ _
  | def_ => exact compileDef _
  | let_ => exact compileLet _ _
  | fn => exact compileFn hrec _ _ _
  | if_ => exact compileIf hrec _ _
  | while_ => exact compileWhile hrec _ _
  | do_ => exact compileDo hrec _ _ _
  | list => exact compileList hrec _ _
  | struct => exact compileStruct hrec _ _
  | new => exact compileNew _ _ _
  | sget => exact compileSget _
  | sput => exact compileSput _
  | quote => exact compileQuote _
  | car | cdr =>
    exact bind ctx fun _ => bind (loadCell _ _) fun _ => bind (emit rfl) fun _ => pure _
  | cons | concat | write | mount => exact compileCall2 rfl _
  | substr =>
    exact bind (loadCell _ _) fun _ => bind (loadInt _ _) fun _ => bind (loadInt _ _) fun _ =>
      bind (emit rfl) fun _ => anyResult
  | get8 | get16 => exact compileGet rfl _ _
  | put8 | put16 => exact compilePut rfl _
  | get32 =>
    exact bind (loadInt _ _) fun _ => bind (loadCell _ _) fun _ => bind (emit rfl) fun _ => anyResult
  | put32 => exact compilePut32 _
  | alloc | allocStr => exact bind (loadInt _ _) fun _ => bind (emit rfl) fun _ => anyResult
  | bytesToStr | read | eval | mmap => exact compileCall1 rfl _
  | size => exact compileSize _ _
  | gc => exact bind frame fun _ => bind (emitSaved _ rfl) fun _ => anyResult
  | symbols => exact bind (emit rfl) fun _ => anyResult
  | print | open_ | recv => exact compileSavedCall1 _ _
  | send => exact compileSend _
  | _ => exact anyResult

theorem compileOperator (hrec : RecLevel rec) (n call : ℕ) (returnType origArgs : Word)
    (o : Operator) (a : Args) : Level (compileOperator rec n call returnType origArgs o a) := by
  unfold Compiler.compileOperator
  split
  · split
    · exact compileBuiltin hrec _ _ _ _ _ _ _
    · exact anyResult
  · exact compileCall _ _

theorem compileForm (hrec : RecLevel rec) (n : ℕ) (returnType : Word) (x : Cell) :
    Level (compileForm rec n returnType x) := by
  unfold Compiler.compileForm
  split
  · exact fail _
  · refine bind (fetch _) fun opsym => ?_
    split
    · exact fail _
    · exact bind (fetch _) fun _ => bind (inspect _) fun _ => bind nextCall fun _ => bind ctx fun _ =>
        .unwind (argLoop hrec _ _ _ _ _ ⟨0, _, 0⟩) fun _ =>
          .after (compileOperator hrec _ _ _ _ _ _) fun _ => cleanReturn _ _

end Level

/-- The code of every expression ends at the height it begins at. -/
theorem compileExpr_level (n : ℕ) : Level.RecLevel (compileExpr n) := by
  induction n with
  | zero => exact fun _ _ => .outOfFuel
  | succ n ih =>
    intro expr returnType
    unfold compileExpr
    split
    · exact .fail _
    · refine .bind (.fetch _) fun x => ?_
      split
      · exact .compileAtom _ _
      · exact .compileForm ih _ _ _

end Interim.Compiler
