import Interim.Backend.Branches
import Interim.Backend.Tables
import Interim.Compiler.Labels

/-!
# From an expression to machine code

The compiler and a back end together. What `compile_expr` emits for an expression
names each label once and branches to labels it places (`compileExpr_sound`); a
back end resolves such branches when its tables suffice (`Branches`, `Pool`).

* `X86.jumps_linked`: the bytes of every branch decode to the position of its label.
* `Arm.words_linked`: so do the words of every branch whose label does not directly
  follow it, and every `jit_movi` loads its own constant.

`(if 1 (debug))` has a branch with its label directly behind it, since `debug`
emits nothing.
-/

namespace Interim.Backend

open Compiler
open Writer (ascii)

/-! ## Events and calls -/

theorem labelNames_events (code : List Compiler.Jit) : labelNames (events code) = labelsOf code := by
  induction code with
  | nil => rfl
  | cons i code ih =>
    rw [events, List.flatMap_cons, labelNames_append]
    cases i with
    | label l => exact congrArg (l :: ·) ih
    | _ => exact ih

theorem event_branch {i : Compiler.Jit} {l : Label} (h : event i = some (.branch l)) :
    i.target = some l := by
  cases i with
  | je l' | jne l' | jmp l' => exact congrArg some (Event.branch.inj (Option.some.inj h))
  | _ => exact absurd h (by simp [event])

theorem mem_inBodies {fns : List ℕ} {code : List Compiler.Jit} {i : Compiler.Jit} (h : i ∈ code) :
    ∃ fns', (fns', i) ∈ inBodies fns code := by
  induction code generalizing fns with
  | nil => exact absurd h List.not_mem_nil
  | cons j code ih =>
    rw [inBodies]
    rcases List.mem_cons.mp h with rfl | h
    · exact ⟨_, List.mem_cons_self ..⟩
    · obtain ⟨fns', hm⟩ := ih h
      exact ⟨fns', List.mem_cons_of_mem _ hm⟩

theorem mem_of_inBodies {fns fns' : List ℕ} {code : List Compiler.Jit} {i : Compiler.Jit}
    (h : (fns', i) ∈ inBodies fns code) : i ∈ code := by
  induction code generalizing fns with
  | nil => exact absurd h List.not_mem_nil
  | cons j code ih =>
    rw [inBodies] at h
    rcases List.mem_cons.mp h with h | h
    · obtain ⟨-, rfl⟩ := Prod.mk.inj h
      exact List.mem_cons_self ..
    · exact List.mem_cons_of_mem _ (ih h)

/-- The emitter call that has an event. -/
theorem exists_call {S P : Type} {E : Emitter S P Label} {ps : List P} {e : Event Label}
    (h : e ∈ E.events ps) : ∃ (k : ℕ) (p : P), ps[k]? = some p ∧ E.event p = some e := by
  obtain ⟨p, hp, he⟩ := List.mem_flatMap.mp h
  obtain ⟨k, hk⟩ := List.mem_iff_getElem?.mp hp
  exact ⟨k, p, hk, Option.mem_toList.mp he⟩

/-! ## The labels of an expression -/

section Labels

variable [Port] {n : ℕ} {expr returnType ty : Word} {c : Ctx} {s s' : CState}
  {code : List Compiler.Jit}

/-- The label names of an expression differ. -/
theorem labelNames_nodup (hok : s.heap.FreeListOk)
    (h : Emits (compileExpr n expr returnType) c s ty code s') :
    (labelNames (events (code ++ [.ret]))).Nodup := by
  rw [events_ret, labelNames_events]
  exact (compileExpr_sound n expr returnType c s ty code s' hok h).nodup

/-- The label a branch of an expression names is placed by the expression. -/
theorem label_placed (hok : s.heap.FreeListOk)
    (h : Emits (compileExpr n expr returnType) c s ty code s') {l : Label}
    (hl : Event.branch l ∈ events (code ++ [.ret])) : Event.label l ∈ events (code ++ [.ret]) := by
  rw [events_ret] at hl ⊢
  obtain ⟨i, hi, he⟩ := List.mem_flatMap.mp hl
  have ht : i.target = some l := event_branch (Option.mem_toList.mp he)
  have hin : ∃ fns, (fns, i) ∈ inBodies [] code := mem_inBodies hi
  obtain ⟨fns, hm⟩ := hin
  have hplaced := (compileExpr_sound n expr returnType c s ty code s' hok h).resolved [] fns i l hm ht
  exact List.mem_flatMap.mpr ⟨.label l, mem_of_inBodies hplaced, List.mem_singleton.mpr rfl⟩

end Labels

/-! ## x86 -/

namespace X86

theorem event_label {p : Prim Label} {l : Label} (h : p.event = some (.label l)) :
    p = .label l := by
  cases p with
  | label l' => rw [Event.label.inj (Option.some.inj h)]
  | branch b l' => exact absurd (Option.some.inj h) (by simp)
  | bytes bs => exact absurd h (by simp [Prim.event])

/-- In the buffer `m` the branches of `ps` go to their labels, which are all
    there. -/
def Linked (ps : List (Prim Label)) (m : Code Label (BitVec 8)) : Prop :=
  ∀ (k : ℕ) (b : Branch) (l : Label), ps[k]? = some (.branch b l) →
    ∃ j : ℕ, ps[j]? = some (.label l) ∧
      decodeBranch m.code (position ps k) = some (b.cond, (position ps j : ℤ))

/-- From the empty buffer to the end of an expression that fits, all jumps are
    resolved. -/
theorem jumps_linked (a : Addresses) (mem : ℕ → BitVec 8) {n : ℕ} {expr returnType ty : Word} {c : Ctx}
    {s s' : CState} {code : List Compiler.Jit} (hok : s.heap.FreeListOk)
    (h : Emits (@compileExpr Port.x86 n expr returnType) c s ty code s') (hfit : TablesFit code)
    (hsize : size (program a code) < codeBytes) :
    ∃ m, emitter.run (program a (code ++ [.ret])) (jitInit mem) = .ok m ∧
      Linked (program a (code ++ [.ret])) m := by
  have hevents := events_program a (code ++ [.ret])
  have hadm : Admissible (program a (code ++ [.ret])) := by
    refine ⟨?_, ?_, ?_, ?_⟩
    · rw [hevents, events_ret]
      exact hfit.labels
    · rw [hevents, events_ret]
      exact hfit.forward
    · rw [size_ret]
      exact hsize
    · rw [hevents]
      exact @labelNames_nodup Port.x86 _ _ _ _ _ _ _ _ hok h
  obtain ⟨m, hm⟩ := hadm.run_ok mem
  refine ⟨m, hm, fun k b l hk => ?_⟩
  have hbranch : Event.branch l ∈ emitter.events (program a (code ++ [.ret])) :=
    Emitter.mem_events _ hk rfl
  rw [hevents] at hbranch
  have hlabel := @label_placed Port.x86 _ _ _ _ _ _ _ _ hok h _ hbranch
  rw [← hevents] at hlabel
  obtain ⟨j, p, hj, hp⟩ := exists_call hlabel
  obtain rfl : p = .label l := event_label hp
  exact ⟨j, hj, hadm.decode hm hk hj⟩

theorem jumps_linked_loop : ∃ t ty code s' m, readText zeroed loopText = .ok t ∧
    Emits (@compileExpr Port.x86 20 t.expr (.cell t.ctx.prototypeAny)) t.ctx t.state ty code s' ∧
    emitter.run (program .zero (code ++ [.ret])) (jitInit fun _ => 0) = .ok m ∧
    Linked (program .zero (code ++ [.ret])) m := by
  obtain ⟨t, ty, code, s', ht, hc, hs⟩ := loop_x86
  obtain ⟨m, hm⟩ := jumps_linked .zero (fun _ => 0) hs.freeListOk hc hs.fit hs.size
  exact ⟨t, ty, code, s', m, ht, hc, hm⟩

end X86

/-! ## ARM -/

namespace Arm

theorem event_label {p : Prim Label} {l : Label} (h : p.event = some (.label l)) :
    p = .label l := by
  cases p with
  | label l' => rw [Event.label.inj (Option.some.inj h)]
  | branch b l' => exact absurd (Option.some.inj h) (by simp)
  | word w => exact absurd h (by simp [Prim.event])
  | movi rd imm => exact absurd h (by simp [Prim.event])

/-- The load of a `jit_movi` decodes to one of its own pool word. -/
theorem BelowPool.load_decodes {ps : List (Prim Label)} {mem : ℕ → BitVec 32} (h : BelowPool ps)
    {m : Jit Label} (hm : emitter.run ps (jitInit mem poolStart) = .ok m) {k : ℕ} {rd : Fin 16}
    {imm : BitVec 32} (hk : ps[k]? = some (.movi rd imm)) :
    ∃ off : ℕ, position ps k * 4 + 8 + off = poolPosition poolStart ps k * 4 ∧
      decode (m.buf.code (position ps k)) = some (.al, .ldr rd 15 off) := by
  obtain ⟨hlo, hhi⟩ := offset_bounds (h.movi k rd imm hk)
  refine ⟨(poolPosition poolStart ps k - position ps k - 2) * 4, by omega, ?_⟩
  have hd : (poolPosition poolStart ps k : ℤ) - position ps k - 2 =
      ((poolPosition poolStart ps k - position ps k - 2) * 4 / 4 : ℕ) := by omega
  rw [h.load_cell hm hk, hd]
  exact decode_moviWord rd (by omega) (by omega)

/-- With `jit_ret` behind it, code that ends in front of the pool leaves the
    distance `jit_movi` needs. -/
theorem belowPool_ret (a : Addresses) {code : List Compiler.Jit}
    (h : words (program a code) < poolStart) : BelowPool (program a (code ++ [.ret])) := by
  refine ⟨(words_ret a code).trans_le h, fun k rd imm hk => ?_⟩
  have happend : program a (code ++ [.ret]) = program a code ++ program a [.ret] :=
    List.flatMap_append
  rw [happend] at hk ⊢
  rcases Nat.lt_or_ge k (program a code).length with hlt | hge
  · rw [List.getElem?_append_left hlt] at hk
    have hpos := position_lt_words hk rfl
    have htake : position (program a code ++ program a [.ret]) k = position (program a code) k := by
      rw [position, position, List.take_append_of_le_length hlt.le]
    have hp : poolStart = 1024 := rfl
    omega
  · rw [List.getElem?_append_right hge] at hk
    have hmem := List.mem_of_getElem? hk
    simp [program, prims] at hmem

/-- In the buffer `m` the labels of all branches of `ps` are there, a branch goes
    to its label unless that directly follows, and each `jit_movi` loads its own
    constant. -/
structure Linked (ps : List (Prim Label)) (m : Jit Label) : Prop where
  branches : ∀ (k : ℕ) (b : Branch) (l : Label), ps[k]? = some (.branch b l) →
    ∃ j : ℕ, ps[j]? = some (.label l) ∧
      (decodeBranch (position ps k) (m.buf.code (position ps k)) =
          some (b.cond, (position ps j : ℤ)) ↔
        ¬ (k < j ∧ position ps j = position ps k + 1))
  constants : ∀ (k : ℕ) (rd : Fin 16) (imm base : BitVec 32) (st : State),
    ps[k]? = some (.movi rd imm) → st.regs 15 = base + BitVec.ofNat 32 (position ps k * 4 + 8) →
      (∀ w < codeWords, st.mem (base + BitVec.ofNat 32 (w * 4)) = m.buf.code w) →
        stepWord st (m.buf.code (position ps k)) = some (st.set rd imm)

/-- From the empty buffer to the end of an expression that fits, all branches but
    those directly in front of their labels are resolved, and all constants are
    read. -/
theorem words_linked (a : Addresses) (mem : ℕ → BitVec 32) {n : ℕ} {expr returnType ty : Word} {c : Ctx}
    {s s' : CState} {code : List Compiler.Jit} (hok : s.heap.FreeListOk)
    (h : Emits (@compileExpr Port.arm n expr returnType) c s ty code s') (hfit : TablesFit code)
    (hwords : words (program a code) < poolStart) :
    ∃ m, emitter.run (program a (code ++ [.ret])) (jitInit mem poolStart) = .ok m ∧
      Linked (program a (code ++ [.ret])) m := by
  have hevents := events_program a (code ++ [.ret])
  have hw : words (program a (code ++ [.ret])) ≤ poolStart := by
    rw [words_ret]
    exact hwords
  have hadm : Admissible poolStart (program a (code ++ [.ret])) := by
    refine ⟨?_, ?_, hw.trans (by decide), ?_, ?_, apart_of_le hw⟩
    · rw [hevents, events_ret]
      exact hfit.labels
    · rw [hevents, events_ret]
      exact hfit.forward
    · exact (Nat.add_le_add_left ((consts_le_words _).trans hw) poolStart).trans (by decide)
    · rw [hevents]
      exact @labelNames_nodup Port.arm _ _ _ _ _ _ _ _ hok h
  have hbelow := belowPool_ret a hwords
  obtain ⟨m, hm⟩ := hadm.run_ok mem
  refine ⟨m, hm, fun k b l hk => ?_, fun k rd imm base st hk hpc hmem => ?_⟩
  · have hbranch : Event.branch l ∈ emitter.events (program a (code ++ [.ret])) :=
      Emitter.mem_events _ hk rfl
    rw [hevents] at hbranch
    have hlabel := @label_placed Port.arm _ _ _ _ _ _ _ _ hok h _ hbranch
    rw [← hevents] at hlabel
    obtain ⟨j, p, hj, hp⟩ := exists_call hlabel
    obtain rfl : p = .label l := event_label hp
    exact ⟨j, hj, hadm.decode_iff hm hk hj⟩
  · obtain ⟨off, hoff, hdec⟩ := hbelow.load_decodes hm hk
    refine step_load hdec hoff hpc ?_
    rw [hmem _ (hbelow.poolPosition_lt_codeWords k)]
    exact hbelow.pool_cell hm hk

theorem words_linked_loop : ∃ t ty code s' m, readText zeroed loopText = .ok t ∧
    Emits (@compileExpr Port.arm 20 t.expr (.cell t.ctx.prototypeAny)) t.ctx t.state ty code s' ∧
    emitter.run (program .zero (code ++ [.ret])) (jitInit (fun _ => 0) poolStart) = .ok m ∧
    Linked (program .zero (code ++ [.ret])) m := by
  obtain ⟨t, ty, code, s', ht, hc, hs⟩ := loop_arm
  obtain ⟨m, hm⟩ := words_linked .zero (fun _ => 0) hs.freeListOk hc hs.fit hs.words
  exact ⟨t, ty, code, s', m, ht, hc, hm⟩

end Arm

end Interim.Backend
