import Interim.Compiler.Heights
import Interim.Compiler.Labels
import Interim.Compiler.Session
import Interim.Library.Reach

/-!
# The stack of an activation

Control flow in the code of an expression, with the words an activation has on
the stack: on top level, or of a function from its label on.

* `activation_heights`: the stack of an activation never falls below where it
  began, has the same height whenever a position is reached, and is as it began
  when control leaves, by the end of the code or by `jit_ret`; what a function
  body pushes stays clear of the words reserved for locals.
* `slots_fixed`: if no `struct` form is compiled, `frame->sp` ends as it began,
  and every access to a slot is to the slot's own word, at whatever height of
  the stack it is made.
-/

namespace Interim.Compiler

open Writer (ascii)
open Heap

/-! ## Control flow -/

/-- Control can go on behind the instruction. -/
def Jit.falls : Jit → Bool
  | .jmp _ | .ret => false
  | _ => true

/-- The first or the last label of a function. -/
def Jit.isBorder : Jit → Bool
  | .label (.fn _) | .label (.fe _) => true
  | _ => false

/-- How many function bodies an instruction is in. -/
def depthAt (d : ℕ) : Jit → ℕ
  | .label (.fn _) => d + 1
  | .label (.fe _) => d - 1
  | _ => d

theorem still_border {i : Jit} (h : i.isStill = true) : i.isBorder = false := by
  cases i with
  | label l =>
    cases l with
    | fn a => exact absurd h (by simp [Jit.isStill])
    | fe a => exact absurd h (by simp [Jit.isStill])
    | _ => rfl
  | _ => rfl

theorem depthAt_of_not_border {i : Jit} (h : i.isBorder = false) (d : ℕ) : depthAt d i = d := by
  cases i with
  | label l =>
    cases l with
    | fn a => exact absurd h (by simp [Jit.isBorder])
    | fe a => exact absurd h (by simp [Jit.isBorder])
    | _ => rfl
  | _ => rfl

/-- A label that is defined once has one position. -/
theorem label_unique {code : List Jit} (hn : (labelsOf code).Nodup) {l : Label} {p q : ℕ}
    (hp : code[p]? = some (.label l)) (hq : code[q]? = some (.label l)) : p = q := by
  induction code generalizing p q with
  | nil => exact absurd hp (by simp)
  | cons i code ih =>
    have hcons : labelsOf ([i] ++ code) = labelsOf [i] ++ labelsOf code := labelsOf_append
    rw [List.singleton_append] at hcons
    rw [hcons, List.nodup_append'] at hn
    have hself : labelsOf [Jit.label l] = [l] := rfl
    cases p with
    | zero =>
      cases q with
      | zero => rfl
      | succ q =>
        obtain rfl := Option.some.inj hp
        rw [hself] at hn
        have hmem : l ∈ labelsOf code := mem_labelsOf.mpr (List.mem_of_getElem? hq)
        exact absurd hmem (hn.2.2 (List.mem_singleton_self l))
    | succ p =>
      cases q with
      | zero =>
        obtain rfl := Option.some.inj hq
        rw [hself] at hn
        have hmem : l ∈ labelsOf code := mem_labelsOf.mpr (List.mem_of_getElem? hp)
        exact absurd hmem (hn.2.2 (List.mem_singleton_self l))
      | succ q => rw [ih hn.2.1 hp hq]

/-- In front of the first and the last label of a function control does not go
    on. -/
def Bordered (code : List Jit) : Prop :=
  ∀ p j, code[p]? = some j → j.isBorder = true →
    ∃ p' i, p = p' + 1 ∧ code[p']? = some i ∧ i.falls = false

namespace Bordered

variable {code code' : List Jit}

theorem ofNone (h : ∀ j ∈ code, j.isBorder = false) : Bordered code :=
  fun _ j hj hb => absurd ((h j (List.mem_of_getElem? hj)).symm.trans hb) (by simp)

theorem append (hc : Bordered code) (hc' : Bordered code') : Bordered (code ++ code') := by
  intro p j hj hb
  rcases Nat.lt_or_ge p code.length with hlt | hge
  · rw [List.getElem?_append_left hlt] at hj
    obtain ⟨p', i, rfl, hi, hf⟩ := hc p j hj hb
    exact ⟨p', i, rfl, by rw [List.getElem?_append_left (by omega), hi], hf⟩
  · rw [List.getElem?_append_right hge] at hj
    obtain ⟨p', i, hp, hi, hf⟩ := hc' _ j hj hb
    refine ⟨code.length + p', i, by omega, ?_, hf⟩
    rw [List.getElem?_append_right (by omega), Nat.add_sub_cancel_left, hi]

/-- A border behind a jump or a return. -/
theorem behind {i j : Jit} (hi : i.falls = false) (hb : i.isBorder = false) : Bordered [i, j] := by
  intro p k hk hbk
  rcases p with _ | _ | p
  · obtain rfl := Option.some.inj hk
    exact absurd (hb.symm.trans hbk) (by simp)
  · exact ⟨0, i, rfl, rfl, hi⟩
  · exact absurd hk (by simp)

end Bordered

section Port

variable [Port]

/-- The words an instruction pushes. -/
def Jit.words : Jit → ℤ
  | .push a b => (b + 1 - a : ℕ)
  | .pop a b => -(b + 1 - a : ℕ)
  | .incStack n => -(n / ptrsz)
  | .decStack n => n / ptrsz
  | _ => 0

/-- One step of control: the position, and the words on the stack. What is called
    comes back with the stack as it was. -/
inductive Goes (code : List Jit) : ℕ × ℤ → ℕ × ℤ → Prop
  | on {p : ℕ} {x : ℤ} {i : Jit} (hi : code[p]? = some i) (hf : i.falls = true) :
      Goes code (p, x) (p + 1, x + i.words)
  | branch {p q : ℕ} {x : ℤ} {i : Jit} {l : Label} (hi : code[p]? = some i)
      (ht : i.target = some l) (hq : code[q]? = some (.label l)) : Goes code (p, x) (q, x)

/-- Some steps of control. -/
abbrev Reaches (code : List Jit) : ℕ × ℤ → ℕ × ℤ → Prop := Relation.ReflTransGen (Goes code)

/-! ## Sites -/

/-- Each instruction with the bodies it is in and the words pushed in front of
    it, in the order of the code. -/
def sites : ℕ → ℤ → List Jit → List ((ℕ × ℤ) × Jit)
  | _, _, [] => []
  | d, x, i :: code => ((depthAt d i, x), i) :: sites (depthAt d i) (x + i.words) code

/-- The same behind the code. -/
def endSite : ℕ → ℤ → List Jit → ℕ × ℤ
  | d, x, [] => (d, x)
  | d, x, i :: code => endSite (depthAt d i) (x + i.words) code

section Sites

variable {d : ℕ} {x : ℤ} {code code' : List Jit}

theorem sites_append : sites d x (code ++ code') =
    sites d x code ++ sites (endSite d x code).1 (endSite d x code).2 code' := by
  induction code generalizing d x with
  | nil => rfl
  | cons i code ih =>
    rw [List.cons_append, sites, sites, ih, List.cons_append]
    rfl

theorem endSite_append : endSite d x (code ++ code') =
    endSite (endSite d x code).1 (endSite d x code).2 code' := by
  induction code generalizing d x with
  | nil => rfl
  | cons i code ih =>
    rw [List.cons_append, endSite, ih]
    rfl

theorem length_sites : (sites d x code).length = code.length := by
  induction code generalizing d x with
  | nil => rfl
  | cons i code ih => rw [sites, List.length_cons, ih, List.length_cons]

theorem getElem?_sites {p : ℕ} {e : (ℕ × ℤ) × Jit} (h : (sites d x code)[p]? = some e) :
    code[p]? = some e.2 := by
  induction code generalizing d x p with
  | nil => exact absurd h (by simp [sites])
  | cons i code ih =>
    cases p with
    | zero =>
      obtain rfl := Option.some.inj h
      rfl
    | succ p => exact ih h

/-- The site behind an instruction. -/
theorem sites_succ {p d' : ℕ} {y : ℤ} {i : Jit} (h : (sites d x code)[p]? = some ((d', y), i)) :
    (∀ j, code[p + 1]? = some j →
      (sites d x code)[p + 1]? = some ((depthAt d' j, y + i.words), j)) ∧
    (code.length = p + 1 → endSite d x code = (d', y + i.words)) := by
  induction code generalizing d x p with
  | nil => exact absurd h (by simp [sites])
  | cons k code ih =>
    cases p with
    | zero =>
      obtain ⟨h₁, rfl⟩ := Prod.mk.inj (Option.some.inj h)
      obtain ⟨rfl, rfl⟩ := Prod.mk.inj h₁
      cases code with
      | nil => exact ⟨fun j hj => absurd hj (by simp), fun _ => rfl⟩
      | cons m code =>
        refine ⟨fun j hj => ?_, fun hlen => absurd hlen (by simp)⟩
        obtain rfl := Option.some.inj hj
        rfl
    | succ p =>
      obtain ⟨hnext, hend⟩ := ih h
      exact ⟨hnext, fun hlen => hend (by simpa using hlen)⟩

theorem still_site {i : Jit} (h : i.isStill = true) : depthAt d i = d ∧ i.words = 0 := by
  cases i with
  | label l =>
    cases l with
    | fn a => exact absurd h (by simp [Jit.isStill])
    | fe a => exact absurd h (by simp [Jit.isStill])
    | _ => exact ⟨rfl, rfl⟩
  | incStack n => exact absurd h (by simp [Jit.isStill])
  | decStack n => exact absurd h (by simp [Jit.isStill])
  | push a b => exact absurd h (by simp [Jit.isStill])
  | pop a b => exact absurd h (by simp [Jit.isStill])
  | _ => exact ⟨rfl, rfl⟩

theorem sites_still (h : ∀ i ∈ code, i.isStill = true) :
    sites d x code = code.map (fun i => ((d, x), i)) ∧ endSite d x code = (d, x) := by
  induction code with
  | nil => exact ⟨rfl, rfl⟩
  | cons i code ih =>
    obtain ⟨hd, hw⟩ := still_site (d := d) (h i (List.mem_cons_self ..))
    rw [sites, endSite, hd, hw, add_zero, List.map_cons]
    obtain ⟨h₁, h₂⟩ := ih fun j hj => h j (List.mem_cons_of_mem _ hj)
    rw [h₁, h₂]
    exact ⟨rfl, rfl⟩

end Sites

/-! ## The sites of a piece -/

namespace Piece

variable {exact : Prop} {lo h h' : ℤ} {code : List Jit}

theorem le (hp : Piece exact lo h code h') : lo ≤ h ∧ lo ≤ h' := by
  induction hp with
  | nil hlo => exact ⟨hlo, hlo⟩
  | plain _ hlo => exact ⟨hlo, hlo⟩
  | access _ _ hlo => exact ⟨hlo, hlo⟩
  | push a b hlo => exact ⟨hlo, by omega⟩
  | pop a b hlo => exact ⟨by omega, hlo⟩
  | drop n hlo => exact ⟨by omega, hlo⟩
  | seq _ _ ih ih' => exact ⟨ih.1, ih'.2⟩
  | join _ _ _ ih _ => exact ih
  | fn a n _ hlo => exact ⟨hlo, hlo⟩

/-- The words an access moves, and its depth. -/
theorem access_site {i : Jit} {a : ℤ × Option ℤ} {d : ℕ} (h : i.access = some a) :
    depthAt d i = d ∧ i.words = 0 ∧ i ≠ .ret ∧ i.target = none ∧ i.isBorder = false := by
  cases i with
  | ldrStack r off slot => exact ⟨rfl, rfl, by simp, rfl, rfl⟩
  | strStack r off slot => exact ⟨rfl, rfl, by simp, rfl, rfl⟩
  | _ => exact absurd h (by simp [Jit.access])

theorem plain_site {i : Jit} {d : ℕ} (h : i.isPlain = true) :
    depthAt d i = d ∧ i.words = 0 ∧ i ≠ .ret ∧ i.target = none ∧ i.isBorder = false ∧
      i.access = none := by
  cases i with
  | ldrStack r off slot => exact absurd h (by simp [Jit.isPlain])
  | strStack r off slot => exact absurd h (by simp [Jit.isPlain])
  | incStack n => exact absurd h (by simp [Jit.isPlain])
  | decStack n => exact absurd h (by simp [Jit.isPlain])
  | push a b => exact absurd h (by simp [Jit.isPlain])
  | pop a b => exact absurd h (by simp [Jit.isPlain])
  | je l => exact absurd h (by simp [Jit.isPlain])
  | jne l => exact absurd h (by simp [Jit.isPlain])
  | jmp l => exact absurd h (by simp [Jit.isPlain])
  | label l => exact absurd h (by simp [Jit.isPlain])
  | ret => exact absurd h (by simp [Jit.isPlain])
  | _ => exact ⟨rfl, rfl, by simp, rfl, rfl, rfl⟩

/-- A piece ends in the body it begins in, with what it pushed. -/
theorem endSite (hptr : 0 < ptrsz) (hp : Piece exact lo h code h') (d : ℕ) (x : ℤ) :
    endSite d x code = (d, x + (h' - h)) := by
  induction hp generalizing d x with
  | nil hlo =>
    rw [sub_self, add_zero]
    rfl
  | plain hi _ =>
    obtain ⟨hd, hw, -⟩ := plain_site (d := d) hi
    rw [Compiler.endSite, Compiler.endSite, hd, hw, sub_self]
  | access hi _ _ =>
    obtain ⟨hd, hw, -⟩ := access_site (d := d) hi
    rw [Compiler.endSite, Compiler.endSite, hd, hw, sub_self]
  | push a b _ =>
    rw [add_sub_cancel_left]
    rfl
  | pop a b _ =>
    rw [sub_add_cancel_left]
    rfl
  | drop n _ =>
    rw [sub_add_cancel_left]
    change (d, x + -((n * ptrsz) / ptrsz)) = _
    rw [Int.mul_ediv_cancel _ hptr.ne']
  | seq _ _ ih ih' =>
    rw [endSite_append, ih, ih']
    congr 1
    ring
  | join hj _ _ ih ih' =>
    rename_i p₀ p₁ p₂ _ _ _ _
    have h₀ := fun d x => (sites_still (d := d) (x := x) fun i hi => hj.still i
      (List.mem_append_left p₂ (List.mem_append_left p₁ hi))).2
    have h₁ := fun d x => (sites_still (d := d) (x := x) fun i hi => hj.still i
      (List.mem_append_left p₂ (List.mem_append_right p₀ hi))).2
    have h₂ := fun d x => (sites_still (d := d) (x := x) fun i hi => hj.still i
      (List.mem_append_right (p₀ ++ p₁) hi)).2
    simp only [endSite_append, h₀, h₁, h₂, ih, ih', sub_self, add_zero]
  | fn a n _ _ ih =>
    unfold fnCode
    rw [endSite_append, endSite_append]
    have hpro : ∀ d x, Compiler.endSite d x [Jit.jmp (.fe a), .label (.fn a), .movi r2 (.frame a),
        .push r2 r2, .decStack (n * ptrsz)] = (d + 1, x + 1 + n) := by
      intro d x
      have hdiv : (n * ptrsz) / ptrsz = (n : ℤ) := Int.mul_ediv_cancel _ hptr.ne'
      simp [Compiler.endSite, depthAt, Jit.words, hdiv]
    have hepi : ∀ d x, Compiler.endSite (d + 1) x [Jit.incStack (n * ptrsz), .incStack ptrsz, .ret,
        .label (.fe a), .lea r0 (.cell a)] = (d, x - n - 1) := by
      intro d x
      have hdiv : (n * ptrsz) / ptrsz = (n : ℤ) := Int.mul_ediv_cancel _ hptr.ne'
      have hone : ptrsz / ptrsz = (1 : ℤ) := Int.ediv_self hptr.ne'
      simp only [Compiler.endSite, depthAt, Jit.words, hdiv, hone, Nat.add_sub_cancel, add_zero]
      rfl
    rw [hpro, ih, hepi]
    congr 1
    ring

/-- The sites of branches and labels around two pieces. -/
theorem mem_sites_join (hptr : 0 < ptrsz) {p₀ p₁ p₂ code' : List Jit}
    (hj : Joins (p₀ ++ p₁ ++ p₂)) (hc : Piece exact lo h code h) (hc' : Piece exact lo h code' h)
    {d : ℕ} {x : ℤ} {e : (ℕ × ℤ) × Jit} :
    e ∈ sites d x (p₀ ++ (code ++ (p₁ ++ (code' ++ p₂)))) ↔
      (e.1 = (d, x) ∧ e.2 ∈ p₀ ++ p₁ ++ p₂) ∨ e ∈ sites d x code ∨ e ∈ sites d x code' := by
  have h₀ := sites_still (d := d) (x := x) fun i hi => hj.still i
    (List.mem_append_left p₂ (List.mem_append_left p₁ hi))
  have h₁ := sites_still (d := d) (x := x) fun i hi => hj.still i
    (List.mem_append_left p₂ (List.mem_append_right p₀ hi))
  have h₂ := sites_still (d := d) (x := x) fun i hi => hj.still i
    (List.mem_append_right (p₀ ++ p₁) hi)
  have hmap : ∀ p : List Jit, e ∈ p.map (fun i => ((d, x), i)) ↔ e.1 = (d, x) ∧ e.2 ∈ p := by
    intro p
    rw [List.mem_map]
    constructor
    · rintro ⟨i, hi, rfl⟩
      exact ⟨rfl, hi⟩
    · rintro ⟨h₁, h₂⟩
      exact ⟨e.2, h₂, Prod.ext h₁.symm rfl⟩
  simp only [sites_append, h₀, h₁, h₂, hc.endSite hptr, hc'.endSite hptr, sub_self, add_zero,
    List.mem_append, hmap]
  tauto

/-- The sites of a function. -/
theorem sites_fnCode (hptr : 0 < ptrsz) (hb : Piece exact 0 0 code 0) (a n d : ℕ) (x : ℤ) :
    sites d x (fnCode a n code) =
      [((d, x), .jmp (.fe a)), ((d + 1, x), .label (.fn a)), ((d + 1, x), .movi r2 (.frame a)),
        ((d + 1, x), .push r2 r2), ((d + 1, x + 1), .decStack (n * ptrsz))] ++
      (sites (d + 1) (x + 1 + n) code ++
        [((d + 1, x + 1 + n), .incStack (n * ptrsz)), ((d + 1, x + 1), .incStack ptrsz),
          ((d + 1, x), .ret), ((d, x), .label (.fe a)), ((d, x), .lea r0 (.cell a))]) := by
  have hdiv : (n * ptrsz) / ptrsz = (n : ℤ) := Int.mul_ediv_cancel _ hptr.ne'
  have hone : ptrsz / ptrsz = (1 : ℤ) := Int.ediv_self hptr.ne'
  have hpush : ((r2 + 1 - r2 : ℕ) : ℤ) = 1 := rfl
  unfold fnCode
  rw [sites_append, sites_append]
  have hend : Compiler.endSite d x [Jit.jmp (.fe a), .label (.fn a), .movi r2 (.frame a),
      .push r2 r2, .decStack (n * ptrsz)] = (d + 1, x + 1 + n) := by
    simp [Compiler.endSite, depthAt, Jit.words, hdiv]
  rw [hend, hb.endSite hptr, sub_self, add_zero]
  congr 1
  · simp only [sites, depthAt, Jit.words, hpush, add_zero]
  · congr 1
    simp only [sites, depthAt, Jit.words, hdiv, hone, Nat.add_sub_cancel, add_zero]
    rw [show x + 1 + n + -(n : ℤ) = x + 1 by ring, show x + 1 + -1 = x by ring]

/-- What a site of a piece is like, in the body the piece is in. -/
structure SiteOk (exact : Prop) (lo h : ℤ) (d : ℕ) (x : ℤ) (e : (ℕ × ℤ) × Jit) : Prop where
  deep : d ≤ e.1.1
  low : e.1.1 = d → x + (lo - h) ≤ e.1.2
  noRet : e.1.1 = d → e.2 ≠ .ret
  slot : exact → e.1.1 = d → ∀ off k, e.2.access = some (off, some k) →
    off = ptrsz * (e.1.2 - x + h - k)

/-- A site in a function inside. -/
theorem SiteOk.inner {d : ℕ} {x : ℤ} {e : (ℕ × ℤ) × Jit} (hd : d + 1 ≤ e.1.1) :
    SiteOk exact lo h d x e where
  deep := by omega
  low he := by omega
  noRet he := by omega
  slot _ he := by omega

theorem SiteOk.quiet {d : ℕ} {x : ℤ} {e : (ℕ × ℤ) × Jit} (he : e.1 = (d, x)) (hlo : lo ≤ h)
    (hret : e.2 ≠ .ret) (hacc : e.2.access = none) : SiteOk exact lo h d x e where
  deep := by rw [he]
  low _ := by rw [he]; omega
  noRet _ := hret
  slot _ _ off k hk := by
    rw [hacc] at hk
    exact absurd hk (by simp)

theorem siteOk (hptr : 0 < ptrsz) (hp : Piece exact lo h code h') (d : ℕ) (x : ℤ) :
    ∀ e ∈ sites d x code, SiteOk exact lo h d x e := by
  induction hp generalizing d x with
  | nil _ => exact fun e he => absurd he List.not_mem_nil
  | plain hi hlo =>
    obtain ⟨hd, -, hret, -, -, hacc⟩ := plain_site (d := d) hi
    intro e he
    obtain rfl := List.mem_singleton.mp he
    exact .quiet (by rw [hd]) hlo hret hacc
  | access hi he hlo =>
    obtain ⟨hd, -, hret, -⟩ := access_site (d := d) hi
    intro e hm
    obtain rfl := List.mem_singleton.mp hm
    refine ⟨by rw [hd], fun _ => by dsimp only; omega, fun _ => hret, fun hex _ off k hk => ?_⟩
    obtain ⟨rfl, rfl⟩ := Prod.mk.inj (Option.some.inj (hi.symm.trans hk))
    rw [he hex k rfl, sub_self, zero_add]
  | push a b hlo =>
    intro e he
    obtain rfl := List.mem_singleton.mp he
    exact .quiet rfl hlo (by simp) rfl
  | pop a b hlo =>
    intro e he
    obtain rfl := List.mem_singleton.mp he
    exact .quiet rfl (by omega) (by simp) rfl
  | drop n hlo =>
    intro e he
    obtain rfl := List.mem_singleton.mp he
    exact .quiet rfl (by omega) (by simp) rfl
  | seq hc _ ih ih' =>
    intro e he
    rw [sites_append, hc.endSite hptr] at he
    rcases List.mem_append.mp he with he | he
    · exact ih d x e he
    · obtain ⟨hd, hl, hr, hs⟩ := ih' d _ e he
      refine ⟨hd, fun h₁ => ?_, hr, fun hex h₁ off k hk => ?_⟩
      · have := hl h₁
        omega
      · rw [hs hex h₁ off k hk]
        ring
  | join hj hc hc' ih ih' =>
    intro e he
    rcases (mem_sites_join hptr hj hc hc').mp he with ⟨hsite, hi⟩ | he | he
    · have hstill := hj.still e.2 hi
      refine .quiet hsite hc.le.1 (fun hret => ?_) ?_
      · rw [hret] at hstill
        exact absurd hstill (by simp [Jit.isStill])
      · cases hi' : e.2 with
        | ldrStack r off slot =>
          rw [hi'] at hstill
          exact absurd hstill (by simp [Jit.isStill])
        | strStack r off slot =>
          rw [hi'] at hstill
          exact absurd hstill (by simp [Jit.isStill])
        | _ => rfl
    · exact ih d x e he
    · exact ih' d x e he
  | fn a n hb hlo ih =>
    intro e he
    rw [sites_fnCode hptr hb] at he
    simp only [List.mem_append, List.mem_cons, List.not_mem_nil, or_false] at he
    rcases he with (rfl | rfl | rfl | rfl | rfl) | he | rfl | rfl | rfl | rfl | rfl
    · exact .quiet rfl hlo (by simp) rfl
    · exact .inner le_rfl
    · exact .inner le_rfl
    · exact .inner le_rfl
    · exact .inner le_rfl
    · exact .inner (ih _ _ e he).deep
    · exact .inner le_rfl
    · exact .inner le_rfl
    · exact .inner le_rfl
    · exact .quiet rfl hlo (by simp) rfl
    · exact .quiet rfl hlo (by simp) rfl

/-- The label of each branch is in the same body, at the same height. -/
theorem branch_site (hptr : 0 < ptrsz) (hp : Piece exact lo h code h') (d : ℕ) (x : ℤ) :
    ∀ e ∈ sites d x code, ∀ l, e.2.target = some l → (e.1, Jit.label l) ∈ sites d x code := by
  induction hp generalizing d x with
  | nil _ => exact fun e he => absurd he List.not_mem_nil
  | plain hi _ =>
    obtain ⟨-, -, -, ht, -⟩ := plain_site (d := d) hi
    intro e he l hl
    obtain rfl := List.mem_singleton.mp he
    exact absurd (ht.symm.trans hl) (by simp)
  | access hi _ _ =>
    obtain ⟨-, -, -, ht, -⟩ := access_site (d := d) hi
    intro e he l hl
    obtain rfl := List.mem_singleton.mp he
    exact absurd (ht.symm.trans hl) (by simp)
  | push a b _ | pop a b _ | drop n _ =>
    intro e he l hl
    obtain rfl := List.mem_singleton.mp he
    exact absurd hl (by simp [Jit.target])
  | seq hc _ ih ih' =>
    intro e he l hl
    rw [sites_append] at he ⊢
    rcases List.mem_append.mp he with he | he
    · exact List.mem_append_left _ (ih d x e he l hl)
    · exact List.mem_append_right _ (ih' _ _ e he l hl)
  | join hj hc hc' ih ih' =>
    intro e he l hl
    rcases (mem_sites_join hptr hj hc hc').mp he with ⟨hsite, hi⟩ | he | he
    · exact (mem_sites_join hptr hj hc hc').mpr (Or.inl ⟨hsite, hj.target e.2 hi l hl⟩)
    · exact (mem_sites_join hptr hj hc hc').mpr (Or.inr (Or.inl (ih d x e he l hl)))
    · exact (mem_sites_join hptr hj hc hc').mpr (Or.inr (Or.inr (ih' d x e he l hl)))
  | fn a n hb _ ih =>
    intro e he l hl
    rw [sites_fnCode hptr hb] at he ⊢
    simp only [List.mem_append, List.mem_cons, List.not_mem_nil, or_false] at he
    rcases he with (rfl | he) | he | he
    · obtain rfl := Option.some.inj hl
      simp
    · rcases he with rfl | rfl | rfl | rfl <;> exact absurd hl (by simp [Jit.target])
    · exact List.mem_append_right _ (List.mem_append_left _ (ih _ _ e he l hl))
    · rcases he with rfl | rfl | rfl | rfl | rfl <;> exact absurd hl (by simp [Jit.target])

/-- In a piece control does not go on to the first or the last label of a
    function. -/
theorem bordered (hp : Piece exact lo h code h') : Bordered code := by
  induction hp with
  | nil _ => exact fun p j hj => absurd hj (by simp)
  | plain hi _ =>
    obtain ⟨-, -, -, -, hno, -⟩ := plain_site (d := 0) hi
    exact .ofNone fun j hj => List.mem_singleton.mp hj ▸ hno
  | access hi _ _ =>
    obtain ⟨-, -, -, -, hno⟩ := access_site (d := 0) hi
    exact .ofNone fun j hj => List.mem_singleton.mp hj ▸ hno
  | push a b _ | pop a b _ | drop n _ =>
    exact .ofNone fun j hj => List.mem_singleton.mp hj ▸ rfl
  | seq _ _ ih ih' => exact ih.append ih'
  | join hs _ _ ih ih' =>
    refine .append (.ofNone fun i hi => ?_) (ih.append (.append (.ofNone fun i hi => ?_)
      (ih'.append (.ofNone fun i hi => ?_))))
    · exact still_border (hs.still i (List.mem_append_left _ (List.mem_append_left _ hi)))
    · exact still_border (hs.still i (List.mem_append_left _ (List.mem_append_right _ hi)))
    · exact still_border (hs.still i (List.mem_append_right _ hi))
  | fn a n _ _ ih =>
    have hpro : Bordered ([Jit.jmp (.fe a), .label (.fn a)] ++
        [.movi r2 (.frame a), .push r2 r2, .decStack (n * ptrsz)]) :=
      .append (.behind rfl rfl) (.ofNone (by simp [Jit.isBorder]))
    have hepi : Bordered ([Jit.incStack (n * ptrsz), .incStack ptrsz] ++
        ([.ret, .label (.fe a)] ++ [.lea r0 (.cell a)])) :=
      .append (.ofNone (by simp [Jit.isBorder]))
        (.append (.behind rfl rfl) (.ofNone (by simp [Jit.isBorder])))
    exact hpro.append (ih.append hepi)

end Piece

/-! ## The functions in a piece -/

/-- At `q` is the label of a function whose body is a piece. -/
def FnAt (exact : Prop) (code : List Jit) (q a : ℕ) : Prop :=
  ∃ pre n body post, code = pre ++ (fnCode a n body ++ post) ∧ q = pre.length + 1 ∧
    Piece exact 0 0 body 0

theorem FnAt.right {exact : Prop} {code' : List Jit} {q a : ℕ} (h : FnAt exact code' q a)
    (code : List Jit) : FnAt exact (code ++ code') (code.length + q) a := by
  obtain ⟨pre, n, body, post, rfl, rfl, hb⟩ := h
  refine ⟨code ++ pre, n, body, post, by rw [List.append_assoc], ?_, hb⟩
  rw [List.length_append]
  rfl

/-- Every first label of a function is one of `FnAt`. -/
def FnsOk (exact : Prop) (code : List Jit) : Prop :=
  ∀ q a, code[q]? = some (.label (.fn a)) → FnAt exact code q a

namespace FnsOk

variable {exact : Prop} {code code' : List Jit}

theorem ofNone (h : ∀ j ∈ code, j.isBorder = false) : FnsOk exact code :=
  fun _ _ hq => absurd (h _ (List.mem_of_getElem? hq)) (by simp [Jit.isBorder])

theorem append (hc : FnsOk exact code) (hc' : FnsOk exact code') :
    FnsOk exact (code ++ code') := by
  intro q a hq
  rcases Nat.lt_or_ge q code.length with hlt | hge
  · rw [List.getElem?_append_left hlt] at hq
    obtain ⟨pre, n, body, post, rfl, hpre, hb⟩ := hc q a hq
    exact ⟨pre, n, body, post ++ code', by simp only [List.append_assoc], hpre, hb⟩
  · rw [List.getElem?_append_right hge] at hq
    have h := (hc' _ a hq).right code
    rwa [Nat.add_sub_cancel' hge] at h

end FnsOk

theorem Piece.fnsOk {exact : Prop} {lo h h' : ℤ} {code : List Jit}
    (hp : Piece exact lo h code h') : FnsOk exact code := by
  induction hp with
  | nil _ => exact fun q a hq => absurd hq (by simp)
  | plain hi _ =>
    obtain ⟨-, -, -, -, hno, -⟩ := plain_site (d := 0) hi
    exact .ofNone fun j hj => List.mem_singleton.mp hj ▸ hno
  | access hi _ _ =>
    obtain ⟨-, -, -, -, hno⟩ := access_site (d := 0) hi
    exact .ofNone fun j hj => List.mem_singleton.mp hj ▸ hno
  | push a b _ | pop a b _ | drop n _ =>
    exact .ofNone fun j hj => List.mem_singleton.mp hj ▸ rfl
  | seq _ _ ih ih' => exact ih.append ih'
  | join hs _ _ ih ih' =>
    refine .append (.ofNone fun i hi => ?_) (ih.append (.append (.ofNone fun i hi => ?_)
      (ih'.append (.ofNone fun i hi => ?_))))
    · exact still_border (hs.still i (List.mem_append_left _ (List.mem_append_left _ hi)))
    · exact still_border (hs.still i (List.mem_append_left _ (List.mem_append_right _ hi)))
    · exact still_border (hs.still i (List.mem_append_right _ hi))
  | fn a n hb _ ih =>
    rename_i body _
    have hrest : FnsOk exact (body ++ [Jit.incStack (n * ptrsz), .incStack ptrsz, .ret,
        .label (.fe a), .lea r0 (.cell a)]) := by
      refine ih.append ?_
      intro q b hq
      have hm := List.mem_of_getElem? hq
      exact absurd hm (by simp)
    intro q b hq
    have hsplit : fnCode a n body = [Jit.jmp (.fe a), .label (.fn a), .movi r2 (.frame a),
        .push r2 r2, .decStack (n * ptrsz)] ++ (body ++ [Jit.incStack (n * ptrsz),
        .incStack ptrsz, .ret, .label (.fe a), .lea r0 (.cell a)]) := rfl
    rcases Nat.lt_or_ge q 5 with hlt | hge
    · have hone : q = 1 ∧ b = a := by
        rw [hsplit, List.getElem?_append_left (by simpa using hlt)] at hq
        rcases q with _ | _ | _ | _ | _ | q
        case succ.zero => exact ⟨rfl, by simpa using hq.symm⟩
        all_goals simp at hq
      obtain ⟨rfl, rfl⟩ := hone
      exact ⟨[], n, body, [], by simp, rfl, hb⟩
    · rw [hsplit, List.getElem?_append_right (by simpa using hge)] at hq
      have h := (hrest _ b hq).right [Jit.jmp (.fe a), .label (.fn a), .movi r2 (.frame a),
        .push r2 r2, .decStack (n * ptrsz)]
      rw [← hsplit] at h
      have hq5 : [Jit.jmp (.fe a), .label (.fn a), .movi r2 (.frame a), .push r2 r2,
          .decStack (n * ptrsz)].length + (q - [Jit.jmp (.fe a), .label (.fn a),
          .movi r2 (.frame a), .push r2 r2, .decStack (n * ptrsz)].length) = q := by
        simp only [List.length_cons, List.length_nil]
        omega
      rwa [hq5] at h

/-! ## Steps in a piece -/

/-- Control is at `p` in the piece `code`, which begins with `x` words on the stack,
    outside of the functions in it, and there are `y` words. -/
def Inside (x : ℤ) (code : List Jit) (p : ℕ) (y : ℤ) : Prop :=
  ∃ i, (sites 0 x code)[p]? = some ((0, y), i)

section Inside

variable {exact : Prop} {lo h h' x y z : ℤ} {code : List Jit} {p q : ℕ}

theorem Inside.unique (h₁ : Inside x code p y) (h₂ : Inside x code p z) : y = z := by
  obtain ⟨i, hi⟩ := h₁
  obtain ⟨j, hj⟩ := h₂
  exact congrArg (fun e => e.1.2) (Option.some.inj (hi.symm.trans hj))

theorem Inside.lt (hin : Inside x code p y) : p < code.length := by
  obtain ⟨i, hi⟩ := hin
  obtain ⟨hlt, -⟩ := List.getElem?_eq_some_iff.mp hi
  rwa [length_sites] at hlt

/-- What holds of the sites of a piece holds where control is. -/
theorem Piece.inside (hptr : 0 < ptrsz) (hp : Piece exact lo h code h') (hin : Inside x code p y) :
    x + (lo - h) ≤ y ∧ code[p]? ≠ some .ret ∧
      (exact → ∀ i off k, code[p]? = some i → i.access = some (off, some k) →
        off = ptrsz * (y - x + h - k)) := by
  obtain ⟨i, hi⟩ := hin
  have hcode := getElem?_sites hi
  have hok := hp.siteOk hptr 0 x _ (List.mem_of_getElem? hi)
  refine ⟨hok.low rfl, fun hret => ?_, fun hex j off k hj hk => ?_⟩
  · exact hok.noRet rfl (Option.some.inj (hcode.symm.trans hret))
  · obtain rfl := Option.some.inj (hcode.symm.trans hj)
    exact hok.slot hex rfl off k hk

/-- Control begins in the piece, unless that is empty. -/
theorem Piece.start (hptr : 0 < ptrsz) (hp : Piece exact lo h code h') (x : ℤ) :
    Inside x code 0 x ∨ (code.length = 0 ∧ h' = h) := by
  cases code with
  | nil =>
    have hend := congrArg Prod.snd (hp.endSite hptr 0 x)
    change x = x + (h' - h) at hend
    exact Or.inr ⟨rfl, by omega⟩
  | cons i code =>
    left
    refine ⟨i, ?_⟩
    have hno : i.isBorder = false := by
      by_contra hb
      obtain ⟨p', _, hp', -⟩ := hp.bordered 0 i rfl (Bool.eq_true_of_not_eq_false hb)
      exact absurd hp' (by simp)
    change some ((depthAt 0 i, x), i) = _
    rw [depthAt_of_not_border hno]

/-- From inside a piece control goes on inside, or to the end. -/
theorem Piece.step (hptr : 0 < ptrsz) (hp : Piece exact lo h code h') {pre post : List Jit}
    (hn : (labelsOf (pre ++ (code ++ post))).Nodup) (hin : Inside x code p y)
    (hs : Goes (pre ++ (code ++ post)) (pre.length + p, y) (q, z)) :
    ∃ p', q = pre.length + p' ∧
      (Inside x code p' z ∨ (p' = code.length ∧ z = x + (h' - h))) := by
  have hlt := hin.lt
  have hwhole : ∀ k, k < code.length → (pre ++ (code ++ post))[pre.length + k]? = code[k]? := by
    intro k hk
    rw [List.getElem?_append_right (by omega), Nat.add_sub_cancel_left,
      List.getElem?_append_left hk]
  obtain ⟨i, hi⟩ := hin
  have hcode := getElem?_sites hi
  cases hs with
  | on hj hf =>
    rw [hwhole p hlt, hcode] at hj
    obtain rfl := Option.some.inj hj
    refine ⟨p + 1, rfl, ?_⟩
    obtain ⟨hnext, hend⟩ := sites_succ hi
    rcases Nat.lt_or_ge (p + 1) code.length with hlt' | hge
    · left
      have hj' := List.getElem?_eq_getElem hlt'
      refine ⟨code[p + 1], ?_⟩
      have hno : code[p + 1].isBorder = false := by
        by_contra hb
        obtain ⟨p', i', hp', hi', hf'⟩ := hp.bordered _ _ hj' (Bool.eq_true_of_not_eq_false hb)
        obtain rfl : p = p' := by omega
        rw [hcode] at hi'
        rw [← Option.some.inj hi', hf] at hf'
        exact absurd hf' (by simp)
      rw [hnext _ hj', depthAt_of_not_border hno]
    · right
      have hlen : code.length = p + 1 := by omega
      have hsnd := congrArg Prod.snd ((hend hlen).symm.trans (hp.endSite hptr 0 x))
      exact ⟨hlen.symm, hsnd⟩
  | branch hj ht hq =>
    rw [hwhole p hlt, hcode] at hj
    obtain rfl := Option.some.inj hj
    have hlabel := hp.branch_site hptr 0 x _ (List.mem_of_getElem? hi) _ ht
    obtain ⟨p', hp'⟩ := List.mem_iff_getElem?.mp hlabel
    have hin' : Inside x code p' y := ⟨_, hp'⟩
    have hat := getElem?_sites hp'
    rw [← hwhole p' hin'.lt] at hat
    exact ⟨p', label_unique hn hq hat, Or.inl hin'⟩

/-- Control that begins in front of the code of an expression stays in it. -/
theorem Piece.reaches (hptr : 0 < ptrsz) (hp : Piece exact lo h code h')
    (hn : (labelsOf code).Nodup) (hr : Reaches code (0, x) (p, y)) :
    Inside x code p y ∨ (p = code.length ∧ y = x + (h' - h)) := by
  have hclosed : Reach.Closed (Goes code)
      {s | Inside x code s.1 s.2 ∨ (s.1 = code.length ∧ s.2 = x + (h' - h))} := by
    rintro ⟨p, y⟩ (hin | ⟨rfl, -⟩) ⟨q, z⟩ hs
    · have hnil : [] ++ (code ++ []) = code := by rw [List.nil_append, List.append_nil]
      have hs' : Goes ([] ++ (code ++ [])) (([] : List Jit).length + p, y) (q, z) := by
        rwa [hnil, List.length_nil, zero_add]
      obtain ⟨p', hq, hp'⟩ := hp.step hptr (by rwa [hnil]) hin hs'
      rw [List.length_nil, zero_add] at hq
      change Inside x code q z ∨ (q = code.length ∧ z = x + (h' - h))
      rwa [hq]
    · have hnone : code[code.length]? = none := List.getElem?_eq_none le_rfl
      cases hs with
      | on hi _ => exact absurd (hnone.symm.trans hi) (by simp)
      | branch hi _ _ => exact absurd (hnone.symm.trans hi) (by simp)
  refine hclosed.reach_subset (a := (0, x)) ?_ hr
  rcases hp.start hptr x with hin | ⟨hlen, rfl⟩
  · exact Or.inl hin
  · refine Or.inr ⟨hlen.symm, ?_⟩
    change x = x + (h' - h')
    omega

end Inside

/-! ## Steps in a function -/

/-- Where control is in a function with the label at `q`, `n` reserved words and
    the code `body`, and what is on the stack. -/
inductive FnState (q n : ℕ) (body : List Jit) : ℕ → ℤ → Prop
  | label : FnState q n body q 0
  | load : FnState q n body (q + 1) 0
  | save : FnState q n body (q + 2) 0
  | reserve : FnState q n body (q + 3) 1
  | body {k : ℕ} {y : ℤ} (hin : Inside (1 + n) body k y) : FnState q n body (q + 4 + k) y
  | release : FnState q n body (q + 4 + body.length) (1 + n)
  | drop : FnState q n body (q + 4 + body.length + 1) 1
  | return_ : FnState q n body (q + 4 + body.length + 2) 0

section Functions

variable {exact : Prop} {a n q : ℕ} {pre body post code : List Jit} {p : ℕ} {y z : ℤ}

/-- The instructions of a function. -/
theorem fnCode_getElem? (hcode : code = pre ++ (fnCode a n body ++ post))
    (hq : q = pre.length + 1) :
    code[q]? = some (.label (.fn a)) ∧ code[q + 1]? = some (.movi r2 (.frame a)) ∧
    code[q + 2]? = some (.push r2 r2) ∧ code[q + 3]? = some (.decStack (n * ptrsz)) ∧
    (∀ k < body.length, code[q + 4 + k]? = body[k]?) ∧
    code[q + 4 + body.length]? = some (.incStack (n * ptrsz)) ∧
    code[q + 4 + body.length + 1]? = some (.incStack ptrsz) ∧
    code[q + 4 + body.length + 2]? = some .ret := by
  subst hcode hq
  have hpre : ∀ k, (pre ++ (fnCode a n body ++ post))[pre.length + k]? =
      (fnCode a n body ++ post)[k]? := by
    intro k
    rw [List.getElem?_append_right (Nat.le_add_right ..), Nat.add_sub_cancel_left]
  have hsplit : fnCode a n body ++ post = [Jit.jmp (.fe a), .label (.fn a), .movi r2 (.frame a),
      .push r2 r2, .decStack (n * ptrsz)] ++ (body ++ ([Jit.incStack (n * ptrsz),
      .incStack ptrsz, .ret, .label (.fe a), .lea r0 (.cell a)] ++ post)) := by
    unfold fnCode
    simp only [List.append_assoc]
  have hbody : ∀ k, (fnCode a n body ++ post)[5 + k]? = (body ++ ([Jit.incStack (n * ptrsz),
      .incStack ptrsz, .ret, .label (.fe a), .lea r0 (.cell a)] ++ post))[k]? := by
    intro k
    have hlen : [Jit.jmp (.fe a), .label (.fn a), .movi r2 (.frame a), .push r2 r2,
        .decStack (n * ptrsz)].length = 5 := rfl
    rw [hsplit, List.getElem?_append_right (by rw [hlen]; omega), hlen, Nat.add_sub_cancel_left]
  have hend : ∀ k, (fnCode a n body ++ post)[5 + (body.length + k)]? =
      ([Jit.incStack (n * ptrsz), .incStack ptrsz, .ret, .label (.fe a), .lea r0 (.cell a)] ++
        post)[k]? := by
    intro k
    rw [hbody, List.getElem?_append_right (Nat.le_add_right ..), Nat.add_sub_cancel_left]
  refine ⟨hpre 1, hpre 2, hpre 3, hpre 4, fun k hk => ?_, ?_, ?_, ?_⟩
  · rw [show pre.length + 1 + 4 + k = pre.length + (5 + k) by omega, hpre, hbody,
      List.getElem?_append_left hk]
  · rw [show pre.length + 1 + 4 + body.length = pre.length + (5 + (body.length + 0)) by omega, hpre,
      hend]
    rfl
  · rw [show pre.length + 1 + 4 + body.length + 1 = pre.length + (5 + (body.length + 1)) by omega,
      hpre, hend]
    rfl
  · rw [show pre.length + 1 + 4 + body.length + 2 = pre.length + (5 + (body.length + 2)) by omega,
      hpre, hend]
    rfl

/-- Behind an instruction that is no branch. -/
theorem Goes.next {i : Jit} (hs : Goes code (p, y) (q, z)) (hi : code[p]? = some i)
    (ht : i.target = none) : i.falls = true ∧ q = p + 1 ∧ z = y + i.words := by
  cases hs with
  | on hj hf =>
    obtain rfl := Option.some.inj (hi.symm.trans hj)
    exact ⟨hf, rfl, rfl⟩
  | branch hj hl _ =>
    obtain rfl := Option.some.inj (hi.symm.trans hj)
    exact absurd (ht.symm.trans hl) (by simp)

/-- Control that enters a function at its label stays in it, until it returns. -/
theorem FnState.step (hptr : 0 < ptrsz) (hb : Piece exact 0 0 body 0)
    (hn : (labelsOf code).Nodup) (hcode : code = pre ++ (fnCode a n body ++ post))
    (hq : q = pre.length + 1) {p' : ℕ} (h : FnState q n body p y) (hs : Goes code (p, y) (p', z)) :
    FnState q n body p' z := by
  obtain ⟨h₀, h₁, h₂, h₃, -, h₅, h₆, h₇⟩ := fnCode_getElem? hcode hq
  cases h with
  | label =>
    obtain ⟨-, rfl, rfl⟩ := hs.next h₀ rfl
    exact .load
  | load =>
    obtain ⟨-, rfl, rfl⟩ := hs.next h₁ rfl
    exact .save
  | save =>
    obtain ⟨-, rfl, rfl⟩ := hs.next h₂ rfl
    exact .reserve
  | reserve =>
    obtain ⟨-, rfl, rfl⟩ := hs.next h₃ rfl
    have hdiv : (n * ptrsz) / ptrsz = (n : ℤ) := Int.mul_ediv_cancel _ hptr.ne'
    change FnState q n body (q + 4 + 0) (1 + (n * ptrsz) / ptrsz)
    rw [hdiv]
    rcases hb.start hptr (1 + n) with hin | ⟨hlen, -⟩
    · exact .body hin
    · rw [← hlen]
      exact .release
  | @body k _ hin =>
    -- the body is a piece of the whole code
    have hwhole : code = (pre ++ [Jit.jmp (.fe a), .label (.fn a), .movi r2 (.frame a),
        .push r2 r2, .decStack (n * ptrsz)]) ++ (body ++ ([Jit.incStack (n * ptrsz),
        .incStack ptrsz, .ret, .label (.fe a), .lea r0 (.cell a)] ++ post)) := by
      rw [hcode]
      unfold fnCode
      simp only [List.append_assoc]
    have hpos : q + 4 + k = (pre ++ [Jit.jmp (.fe a), .label (.fn a), .movi r2 (.frame a),
        .push r2 r2, .decStack (n * ptrsz)]).length + k := by
      rw [List.length_append, hq]
      rfl
    rw [hpos, hwhole] at hs
    rw [hwhole] at hn
    obtain ⟨k', hk', hend⟩ := hb.step hptr hn hin hs
    have hpos' : p' = q + 4 + k' := by
      rw [hk', List.length_append, hq]
      rfl
    rw [hpos']
    rcases hend with hin' | ⟨rfl, rfl⟩
    · exact .body hin'
    · rw [sub_self, add_zero]
      exact .release
  | release =>
    obtain ⟨-, rfl, rfl⟩ := hs.next h₅ rfl
    have hdiv : (n * ptrsz) / ptrsz = (n : ℤ) := Int.mul_ediv_cancel _ hptr.ne'
    change FnState q n body _ (1 + n + -((n * ptrsz) / ptrsz))
    rw [hdiv, add_neg_cancel_right]
    exact .drop
  | drop =>
    obtain ⟨-, rfl, rfl⟩ := hs.next h₆ rfl
    change FnState q n body _ (1 + -(ptrsz / ptrsz))
    rw [Int.ediv_self hptr.ne', add_neg_cancel]
    exact .return_
  | return_ =>
    obtain ⟨hf, -⟩ := hs.next h₇ rfl
    exact absurd hf (by simp [Jit.falls])

theorem FnState.reaches (hptr : 0 < ptrsz) (hb : Piece exact 0 0 body 0)
    (hn : (labelsOf code).Nodup) (hcode : code = pre ++ (fnCode a n body ++ post))
    (hq : q = pre.length + 1) (hr : Reaches code (q, 0) (p, y)) : FnState q n body p y := by
  have hclosed : Reach.Closed (Goes code) {s | FnState q n body s.1 s.2} := by
    rintro ⟨p, y⟩ h ⟨p', z⟩ hs
    exact FnState.step hptr hb hn hcode hq h hs
  exact hclosed.reach_subset (a := (q, 0)) FnState.label hr

theorem FnState.position (h : FnState q n body p y) :
    (p ≤ q + 2 ∧ y = 0) ∨ (p = q + 3 ∧ y = 1) ∨
    (∃ k < body.length, p = q + 4 + k ∧ Inside (1 + n) body k y) ∨
    (p = q + 4 + body.length ∧ y = 1 + n) ∨ (p = q + 4 + body.length + 1 ∧ y = 1) ∨
    (p = q + 4 + body.length + 2 ∧ y = 0) := by
  cases h with
  | label | load | save => left; omega
  | reserve => right; left; omega
  | body hin => exact Or.inr (Or.inr (Or.inl ⟨_, hin.lt, rfl, hin⟩))
  | release | drop | return_ => right; right; right; omega

/-- There is one height for each position. -/
theorem FnState.unique (h₁ : FnState q n body p y) (h₂ : FnState q n body p z) : y = z := by
  rcases h₁.position with h₁ | h₁ | ⟨k₁, hk₁, hp₁, hin₁⟩ | h₁ | h₁ | h₁ <;>
    rcases h₂.position with h₂ | h₂ | ⟨k₂, hk₂, hp₂, hin₂⟩ | h₂ | h₂ | h₂
  case inr.inr.inl.inr.inr.inl =>
    obtain rfl : k₁ = k₂ := by omega
    exact hin₁.unique hin₂
  all_goals omega

/-- What an activation of a function has on the stack. -/
theorem FnState.height (hptr : 0 < ptrsz) (hb : Piece exact 0 0 body 0) (h : FnState q n body p y) :
    0 ≤ y := by
  rcases h.position with h | h | ⟨k, -, -, hin⟩ | h | h | h
  case inr.inr.inl =>
    have hlow := (hb.inside hptr hin).1
    omega
  all_goals omega

/-- Where a function pushes and pops, its reserved words are on the stack. -/
theorem FnState.reserved (hptr : 0 < ptrsz) (hb : Piece exact 0 0 body 0)
    (hcode : code = pre ++ (fnCode a n body ++ post)) (hq : q = pre.length + 1)
    (h : FnState q n body p y) {r r' : ℕ} (hp : p ≠ q + 2)
    (hi : code[p]? = some (.push r r') ∨ code[p]? = some (.pop r r')) : 1 + n ≤ y := by
  obtain ⟨h₀, h₁, -, h₃, -, h₅, h₆, h₇⟩ := fnCode_getElem? hcode hq
  have hno : ∀ {i : Jit} {m : ℕ}, code[m]? = some i → p = m → i ≠ .push r r' → i ≠ .pop r r' →
      False := by
    rintro i m hm rfl hne hne'
    rcases hi with hi | hi
    · exact hne (Option.some.inj (hm.symm.trans hi))
    · exact hne' (Option.some.inj (hm.symm.trans hi))
  cases h with
  | label => exact (hno h₀ rfl (by simp) (by simp)).elim
  | load => exact (hno h₁ rfl (by simp) (by simp)).elim
  | save => exact absurd rfl hp
  | reserve => exact (hno h₃ rfl (by simp) (by simp)).elim
  | body hin =>
    have hlow := (hb.inside hptr hin).1
    omega
  | release => exact (hno h₅ rfl (by simp) (by simp)).elim
  | drop => exact (hno h₆ rfl (by simp) (by simp)).elim
  | return_ => exact (hno h₇ rfl (by simp) (by simp)).elim

/-- A function returns with the stack as it was. -/
theorem FnState.atReturn (hptr : 0 < ptrsz) (hb : Piece exact 0 0 body 0)
    (hcode : code = pre ++ (fnCode a n body ++ post)) (hq : q = pre.length + 1)
    (h : FnState q n body p y) (hi : code[p]? = some .ret) : y = 0 := by
  obtain ⟨-, -, -, h₃, hbody, h₅, h₆, -⟩ := fnCode_getElem? hcode hq
  cases h with
  | label | load | save | return_ => rfl
  | reserve => exact absurd (h₃.symm.trans hi) (by simp)
  | body hin =>
    rw [hbody _ hin.lt] at hi
    exact absurd hi (hb.inside hptr hin).2.1
  | release => exact absurd (h₅.symm.trans hi) (by simp)
  | drop => exact absurd (h₆.symm.trans hi) (by simp)

theorem FnState.lt (hcode : code = pre ++ (fnCode a n body ++ post)) (hq : q = pre.length + 1)
    (h : FnState q n body p y) : p < code.length := by
  obtain ⟨-, -, -, -, -, -, -, h₇⟩ := fnCode_getElem? hcode hq
  obtain ⟨hlt, -⟩ := List.getElem?_eq_some_iff.mp h₇
  have hpos := h.position
  omega

/-- The slots a function accesses are its own words. -/
theorem FnState.slot (hptr : 0 < ptrsz) (hex : exact) (hb : Piece exact 0 0 body 0)
    (hcode : code = pre ++ (fnCode a n body ++ post)) (hq : q = pre.length + 1)
    (h : FnState q n body p y) {i : Jit} {off k : ℤ} (hi : code[p]? = some i)
    (hk : i.access = some (off, some k)) : off = ptrsz * (y - (1 + n) - k) := by
  obtain ⟨h₀, h₁, h₂, h₃, hbody, h₅, h₆, h₇⟩ := fnCode_getElem? hcode hq
  have hno : ∀ {j : Jit} {m : ℕ}, code[m]? = some j → p = m → j.access = none → False := by
    rintro j m hm rfl hnone
    obtain rfl := Option.some.inj (hm.symm.trans hi)
    exact absurd (hnone.symm.trans hk) (by simp)
  cases h with
  | label => exact (hno h₀ rfl rfl).elim
  | load => exact (hno h₁ rfl rfl).elim
  | save => exact (hno h₂ rfl rfl).elim
  | reserve => exact (hno h₃ rfl rfl).elim
  | body hin =>
    rw [hbody _ hin.lt] at hi
    rw [(hb.inside hptr hin).2.2 hex i off k hi hk, add_zero]
  | release => exact (hno h₅ rfl rfl).elim
  | drop => exact (hno h₆ rfl rfl).elim
  | return_ => exact (hno h₇ rfl rfl).elim

end Functions

end Port

/-! ## Activations -/

section Activations

variable {n : ℕ} {expr returnType ty : Word} {c : Ctx} {s s' : CState} {code : List Jit}

/-- The stack of an activation, on top level or of a function from its label on. -/
theorem activation_heights [Port] (hptr : 0 < ptrsz) (hok : s.heap.FreeListOk)
    (h : Emits (compileExpr n expr returnType) c s ty code s') :
    (∀ p x, Reaches code (0, 0) (p, x) →
      0 ≤ x ∧ p ≤ code.length ∧ (p = code.length → x = 0) ∧ code[p]? ≠ some .ret ∧
      ∀ y, Reaches code (0, 0) (p, y) → y = x) ∧
    ∀ q a, code[q]? = some (.label (.fn a)) →
      ∃ m : ℕ, code[q + 3]? = some (.decStack (m * ptrsz)) ∧
      ∀ p x, Reaches code (q, 0) (p, x) →
        0 ≤ x ∧ p < code.length ∧ (code[p]? = some .ret → x = 0) ∧
        (∀ r r', code[p]? = some (.push r r') ∨ code[p]? = some (.pop r r') → p ≠ q + 2 →
          1 + m ≤ x) ∧
        ∀ y, Reaches code (q, 0) (p, y) → y = x := by
  have hn := (compileExpr_sound n expr returnType c s ty code s' hok h).nodup
  obtain ⟨hp, -⟩ := compileExpr_level n expr returnType c s ty code s' h False 0 0 False.elim le_rfl
    le_rfl False.elim
  rw [add_zero] at hp
  constructor
  · intro p x hr
    have hat : ∀ y, Reaches code (0, 0) (p, y) → Inside 0 code p y ∨ p = code.length ∧ y = 0 := by
      intro y hy
      exact hp.reaches hptr hn hy
    rcases hat x hr with hin | ⟨rfl, rfl⟩
    · obtain ⟨hlow, hret, -⟩ := hp.inside hptr hin
      have hlt := hin.lt
      refine ⟨by omega, hlt.le, by omega, hret, fun y hy => ?_⟩
      rcases hat y hy with hin' | ⟨hend, -⟩
      · exact hin'.unique hin
      · omega
    · refine ⟨le_rfl, le_rfl, fun _ => rfl, ?_, fun y hy => ?_⟩
      · rw [List.getElem?_eq_none le_rfl]
        simp
      · rcases hat y hy with hin' | ⟨-, hy'⟩
        · exact absurd hin'.lt (lt_irrefl _)
        · exact hy'
  · intro q a hq
    obtain ⟨pre, m, body, post, hcode, hpre, hb⟩ := hp.fnsOk q a hq
    obtain ⟨-, -, -, hres, -⟩ := fnCode_getElem? hcode hpre
    refine ⟨m, hres, fun p x hr => ?_⟩
    have hat := FnState.reaches hptr hb hn hcode hpre hr
    refine ⟨hat.height hptr hb, hat.lt hcode hpre, hat.atReturn hptr hb hcode hpre,
      fun r r' hi hne => hat.reserved hptr hb hcode hpre hne hi, fun y hy => ?_⟩
    exact (FnState.reaches hptr hb hn hcode hpre hy).unique hat

/-- A function with a local and a loop. -/
abbrev letText : List UInt8 := ascii "(fn x (do (let y (+ x 1)) (while (lt y 9) (let y (+ y 1)))))"

/-- No `struct` form. -/
def noStruct (code : List Jit) : Bool :=
  code.all fun
    | .call .allocStructDef => false
    | _ => true

/-- A function at 1 that reserves one word. -/
def reservesOne : List Jit → Bool
  | _ :: .label (.fn _) :: _ :: _ :: .decStack 8 :: _ => true
  | _ => false

theorem letText_accepts : ∃ t ty code s', readText zeroed letText = .ok t ∧
    Emits (compileExpr 60 t.expr (.cell t.ctx.prototypeAny)) t.ctx t.state ty code s' ∧
    t.state.heap.FreeListOk ∧ noStruct code = true ∧ reservesOne code = true := by
  obtain ⟨t, ty, code, s', ht, hc, hcheck⟩ := exists_of_accepts (show accepts zeroed 60 letText
    (fun t code => t.state.heap.freeList.isEmpty && (noStruct code && reservesOne code)) = true by
      decide +kernel)
  rw [Bool.and_eq_true, Bool.and_eq_true, List.isEmpty_iff] at hcheck
  exact ⟨t, ty, code, s', ht, hc, ⟨by simp [hcheck.1], by simp [hcheck.1]⟩, hcheck.2⟩

theorem structCall_of_noStruct {code : List Jit} (h : noStruct code = true) : structCall ∉ code :=
  fun hm => absurd (List.all_eq_true.mp h _ hm) (by simp)

theorem reservesOne_spec {code : List Jit} (h : reservesOne code = true) :
    (∃ a, code[1]? = some (.label (.fn a))) ∧ code[4]? = some (.decStack ((1 : ℕ) * ptrsz)) := by
  unfold reservesOne at h
  split at h
  · exact ⟨⟨_, rfl⟩, rfl⟩
  · exact absurd h (by simp)

theorem activation_heights_let : ∃ t ty code s', readText zeroed letText = .ok t ∧
    Emits (compileExpr 60 t.expr (.cell t.ctx.prototypeAny)) t.ctx t.state ty code s' ∧
    ∀ p x, Reaches code (1, 0) (p, x) → 0 ≤ x ∧ (code[p]? = some .ret → x = 0) := by
  obtain ⟨t, ty, code, s', ht, hc, hok, -, hone⟩ := letText_accepts
  obtain ⟨⟨a, ha⟩, -⟩ := reservesOne_spec hone
  obtain ⟨m, -, hat⟩ := (activation_heights (by decide) hok hc).2 1 a ha
  exact ⟨t, ty, code, s', ht, hc, fun p x hr => ⟨(hat p x hr).1, (hat p x hr).2.2.1⟩⟩

/-- Accesses to slots, if no `struct` form is compiled: at every height an access
    made with slot `k` is to the word `k` of the frame. -/
theorem slots_fixed [Port] (hptr : 0 < ptrsz) (hok : s.heap.FreeListOk)
    (h : Emits (compileExpr n expr returnType) c s ty code s') (hs : structCall ∉ code) :
    s'.frame.sp = s.frame.sp ∧
    (∀ p x i off k, Reaches code (0, 0) (p, x) → code[p]? = some i →
      i.access = some (off, some k) → off = ptrsz * (s.frame.sp + x - k)) ∧
    ∀ q a (m : ℕ), code[q]? = some (.label (.fn a)) →
      code[q + 3]? = some (.decStack (m * ptrsz)) →
      ∀ p x i off k, Reaches code (q, 0) (p, x) → code[p]? = some i →
        i.access = some (off, some k) → off = ptrsz * (x - (1 + m) - k) := by
  have hn := (compileExpr_sound n expr returnType c s ty code s' hok h).nodup
  obtain ⟨hp, hsp⟩ := compileExpr_level n expr returnType c s ty code s' h True s.frame.sp
    s.frame.sp (fun _ => hs) le_rfl (by omega) fun _ => rfl
  rw [add_zero] at hp hsp
  refine ⟨hsp trivial, fun p x i off k hr hi hk => ?_, fun q a m hq hm p x i off k hr hi hk => ?_⟩
  · rcases hp.reaches hptr hn hr with hin | ⟨rfl, -⟩
    · rw [(hp.inside hptr hin).2.2 trivial i off k hi hk]
      ring
    · exact absurd hi (by rw [List.getElem?_eq_none le_rfl]; simp)
  · obtain ⟨pre, m', body, post, hcode, hpre, hb⟩ := hp.fnsOk q a hq
    obtain ⟨-, -, -, hres, -⟩ := fnCode_getElem? hcode hpre
    have hmul : (m : ℤ) * ptrsz = m' * ptrsz := by
      simpa using hm.symm.trans hres
    have hmm : (m : ℤ) = m' := Int.eq_of_mul_eq_mul_right hptr.ne' hmul
    rw [hmm]
    exact (FnState.reaches hptr hb hn hcode hpre hr).slot hptr trivial hb hcode hpre hi hk

theorem slots_fixed_let : ∃ t ty code s', readText zeroed letText = .ok t ∧
    Emits (compileExpr 60 t.expr (.cell t.ctx.prototypeAny)) t.ctx t.state ty code s' ∧
    s'.frame.sp = t.state.frame.sp ∧
    ∀ p x i off k, Reaches code (1, 0) (p, x) → code[p]? = some i →
      i.access = some (off, some k) → off = ptrsz * (x - 2 - k) := by
  obtain ⟨t, ty, code, s', ht, hc, hok, hs, hone⟩ := letText_accepts
  obtain ⟨⟨a, ha⟩, hm⟩ := reservesOne_spec hone
  obtain ⟨hsp, -, hslots⟩ := slots_fixed (by decide) hok hc (structCall_of_noStruct hs)
  exact ⟨t, ty, code, s', ht, hc, hsp, hslots 1 a 1 ha hm⟩

end Activations

end Interim.Compiler
