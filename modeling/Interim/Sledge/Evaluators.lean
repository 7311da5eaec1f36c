import Interim.Alloc.Construct

/-!
# The two evaluators

Models of `platform_eval`, which compiles and runs the forms of a list, in the
hosted build (`sledge/sledge.c`, lines 167–199) and on the Raspberry Pi
(`devices/rpi2/main_rpi2.c`, lines 221–281). Compiling and running one form is
a parameter, the same for both; what they print is left out.

The loop of the second one declares its own `res` (line 243), so the value of a
form never reaches the `res` that is returned.

* `hostedEval_eq` — the hosted build returns the value of the last form run.
* `rpi2Eval_eq` — the other one runs the same forms and returns a nil cell.
* `evaluators_agree_iff` — when the results are the same.
-/

namespace Interim.Sledge

open Heap
open Writer (car cdr cellAt)

/-- The cells, and whatever else a form may change. -/
structure EvalState (ε : Type) where
  heap : Heap
  rest : ε

/-- Compile a form and run it: its value, or `none` if it does not compile. -/
abbrev RunForm (ε : Type) := Word → EvalState ε → Except Stop (Option Word × EvalState ε)

/-- What a call of `platform_eval` does: the cell it returns, the forms it
    compiles, and the state it leaves. -/
structure Evaluated (ε : Type) where
  res : Word
  compiled : List Word
  state : EvalState ε

section Evaluators

variable {ε : Type} (run : RunForm ε)

/-! ## The hosted build -/

/-- The loop of lines 179–195. -/
def hostedLoop : ℕ → Word → Word → List Word → EvalState ε → Except Stop (Evaluated ε)
  | 0, _, _, _, _ => .error .fuel
  | fuel + 1, expr, res, compiled, s =>
    if expr = .null then .ok ⟨res, compiled, s⟩
    else do
      let c ← car s.heap expr
      if c = .null then .ok ⟨res, compiled, s⟩
      else do
        let (tag, s) ← run c s
        match tag with
        | some v => do
          let next ← cdr s.heap expr
          hostedLoop fuel next v (compiled ++ [c]) s
        | none => .ok ⟨res, compiled ++ [c], s⟩

/-- `platform_eval(expr)` of the hosted build. The nil cell is made before the
    argument is checked. -/
def hostedEval (fuel : ℕ) (expr : Word) (s : EvalState ε) : Except Stop (Evaluated ε) := do
  let (i, h) ← s.heap.allocNil
  let s : EvalState ε := { s with heap := h }
  if expr = .null then .ok ⟨.null, [], s⟩
  else do
    let c ← cellAt h expr
    if c.tag ≠ tagCons then .ok ⟨.null, [], s⟩ else hostedLoop run fuel expr (.cell i) [] s

/-! ## The Raspberry Pi -/

/-- The loop of lines 231–277. `res` is the outer variable, which the loop
    does not change. -/
def rpi2Loop : ℕ → Word → Word → List Word → EvalState ε → Except Stop (Evaluated ε)
  | 0, _, _, _, _ => .error .fuel
  | fuel + 1, expr, res, compiled, s => do
    let c ← car s.heap expr
    if c = .null then .ok ⟨res, compiled, s⟩
    else do
      let (tag, s) ← run c s
      match tag with
      | some _ => do
        let next ← cdr s.heap expr
        rpi2Loop fuel next res (compiled ++ [c]) s
      | none => .ok ⟨res, compiled ++ [c], s⟩

/-- `platform_eval(expr)` on the Raspberry Pi. -/
def rpi2Eval (fuel : ℕ) (expr : Word) (s : EvalState ε) : Except Stop (Evaluated ε) :=
  if expr = .null then .ok ⟨.null, [], s⟩
  else do
    let c ← cellAt s.heap expr
    if c.tag ≠ tagCons then .ok ⟨.null, [], s⟩
    else do
      let (i, h) ← s.heap.allocNil
      rpi2Loop run fuel expr (.cell i) [] { s with heap := h }

/-! ## The forms of a list -/

/-- The forms of a list up to the first one that does not compile, each with
    its value, and the state after them. -/
structure Forms (ε : Type) where
  run : List (Word × Option Word)
  state : EvalState ε

/-- Compile and run the forms of a list in order, up to the first one that
    does not compile. -/
def runForms : ℕ → Word → EvalState ε → Except Stop (Forms ε)
  | 0, _, _ => .error .fuel
  | fuel + 1, expr, s => do
    let c ← car s.heap expr
    if c = .null then .ok ⟨[], s⟩
    else do
      let (tag, s) ← run c s
      match tag with
      | some v => do
        let next ← cdr s.heap expr
        let rest ← runForms fuel next s
        .ok ⟨(c, some v) :: rest.run, rest.state⟩
      | none => .ok ⟨[(c, none)], s⟩

/-- The value of the last form that ran, `res` if there is none. -/
def lastValue (res : Word) : List (Word × Option Word) → Word
  | [] => res
  | (_, some v) :: fs => lastValue v fs
  | (_, none) :: fs => lastValue res fs

/-- What `platform_eval` is for, on a list. -/
def evalList (fuel : ℕ) (expr : Word) (s : EvalState ε) : Except Stop (Evaluated ε) := do
  let (i, h) ← s.heap.allocNil
  let fs ← runForms run fuel expr { s with heap := h }
  .ok ⟨lastValue (.cell i) fs.run, fs.run.map Prod.fst, fs.state⟩

variable {run}

/-- The hosted loop runs the forms and returns the last value. -/
theorem hostedLoop_eq (fuel : ℕ) : ∀ (expr res : Word) (compiled : List Word) (s : EvalState ε),
    hostedLoop run fuel expr res compiled s = (runForms run fuel expr s >>= fun fs =>
      .ok ⟨lastValue res fs.run, compiled ++ fs.run.map Prod.fst, fs.state⟩) := by
  induction fuel with
  | zero => exact fun _ _ _ _ => rfl
  | succ fuel ih =>
    intro expr res compiled s
    rw [hostedLoop, runForms]
    by_cases hexpr : expr = .null
    · subst hexpr
      simp [car, ok_bind, lastValue]
    · rw [if_neg hexpr, bind_assoc]
      congr 1
      funext c
      by_cases hc : c = .null
      · simp [hc, ok_bind, lastValue]
      · rw [if_neg hc, if_neg hc, bind_assoc]
        congr 1
        funext r
        obtain ⟨tag, s'⟩ := r
        cases tag with
        | none => simp [ok_bind, lastValue]
        | some v =>
          dsimp only
          rw [bind_assoc]
          congr 1
          funext next
          rw [ih, bind_assoc]
          congr 1
          funext fs
          simp [ok_bind, lastValue]

/-- The other loop runs the same forms and returns what it started with. -/
theorem rpi2Loop_eq (fuel : ℕ) : ∀ (expr res : Word) (compiled : List Word) (s : EvalState ε),
    rpi2Loop run fuel expr res compiled s = (runForms run fuel expr s >>= fun fs =>
      .ok ⟨res, compiled ++ fs.run.map Prod.fst, fs.state⟩) := by
  induction fuel with
  | zero => exact fun _ _ _ _ => rfl
  | succ fuel ih =>
    intro expr res compiled s
    rw [rpi2Loop, runForms, bind_assoc]
    congr 1
    funext c
    by_cases hc : c = .null
    · simp [hc, ok_bind]
    · rw [if_neg hc, if_neg hc, bind_assoc]
      congr 1
      funext r
      obtain ⟨tag, s'⟩ := r
      cases tag with
      | none => simp [ok_bind]
      | some v =>
        dsimp only
        rw [bind_assoc]
        congr 1
        funext next
        rw [ih, bind_assoc]
        congr 1
        funext fs
        simp [ok_bind]

section List

variable {s : EvalState ε} {x : ℕ}

/-- On a list cell in use, the hosted build does what `platform_eval` is
    for. -/
theorem hostedEval_eq (hok : s.heap.FreeListOk) (hlive : x ∉ s.heap.Supply)
    (htag : (s.heap.cells x).tag = tagCons) (fuel : ℕ) :
    hostedEval run fuel (.cell x) s = evalList run fuel (.cell x) s := by
  unfold hostedEval evalList
  cases hal : s.heap.allocNil with
  | error e => rfl
  | ok r =>
    obtain ⟨i, h⟩ := r
    have hcons : s.heap.allocCell (fun _ => ⟨.null, .null, tagCons⟩) = .ok (i, h) := hal
    have hcell : h.cells x = s.heap.cells x := (allocCell_keeps hok hcons).1.cell hlive
    have hget : cellAt h (.cell x) = .ok (s.heap.cells x) := by
      rw [← hcell]
      rfl
    rw [ok_bind, ok_bind]
    dsimp only
    rw [if_neg (by simp), hget, ok_bind, if_neg (by simp [htag]), hostedLoop_eq]
    rfl

/-- The other build compiles and runs the same forms, and returns a nil
    cell. -/
theorem rpi2Eval_eq (htag : (s.heap.cells x).tag = tagCons) (fuel : ℕ) :
    rpi2Eval run fuel (.cell x) s = (s.heap.allocNil >>= fun r =>
      runForms run fuel (.cell x) { s with heap := r.2 } >>= fun fs =>
        .ok ⟨.cell r.1, fs.run.map Prod.fst, fs.state⟩) := by
  have hget : cellAt s.heap (.cell x) = .ok (s.heap.cells x) := rfl
  unfold rpi2Eval
  rw [if_neg (by simp), hget, ok_bind, if_neg (by simp [htag])]
  congr 1
  funext r
  obtain ⟨i, h⟩ := r
  dsimp only
  rw [rpi2Loop_eq]
  rfl

/-- Both evaluators compile and run the forms up to the first one that does
    not compile, and return the value of the last one that ran. -/
def EvaluatorsAgree (run : RunForm ε) (fuel : ℕ) (expr : Word) (s : EvalState ε) : Prop :=
  hostedEval run fuel expr s = evalList run fuel expr s ∧
    rpi2Eval run fuel expr s = evalList run fuel expr s

/-- The evaluators agree exactly if no form runs, or the last one that runs
    has the nil cell for its value that was made before it. -/
theorem evaluators_agree_iff (hok : s.heap.FreeListOk) (hlive : x ∉ s.heap.Supply)
    (htag : (s.heap.cells x).tag = tagCons) (fuel : ℕ) :
    EvaluatorsAgree run fuel (.cell x) s ↔ ∀ i h fs, s.heap.allocNil = .ok (i, h) →
      runForms run fuel (.cell x) { s with heap := h } = .ok fs →
      lastValue (.cell i) fs.run = .cell i := by
  rw [EvaluatorsAgree, and_iff_right (hostedEval_eq hok hlive htag fuel), rpi2Eval_eq htag]
  unfold evalList
  constructor
  · intro heq i h fs hal hforms
    rw [hal, ok_bind, ok_bind] at heq
    dsimp only at heq
    rw [hforms, ok_bind, ok_bind] at heq
    have hres := congrArg Evaluated.res (Except.ok.inj heq)
    exact hres.symm
  · intro hlast
    cases hal : s.heap.allocNil with
    | error e => rfl
    | ok r =>
      obtain ⟨i, h⟩ := r
      rw [ok_bind, ok_bind]
      dsimp only
      cases hforms : runForms run fuel (.cell x) { s with heap := h } with
      | error e => rfl
      | ok fs => rw [ok_bind, ok_bind, hlast i h fs hal hforms]

end List

end Evaluators

/-- One form in an empty environment: a symbol or a list does not compile, any
    other cell is its own value. -/
def runAtom : RunForm Unit := fun c s => do
  let cell ← cellAt s.heap c
  .ok (if cell.tag = tagSym ∨ cell.tag = tagCons then none else some c, s)

/-- A list of one cell with the given tag. -/
def oneForm (tag : ℕ) : EvalState Unit where
  heap :=
    { Heap.init with
      cells := fun i =>
        if i = 0 then ⟨.cell 1, .null, tagCons⟩
        else if i = 1 then ⟨.int 5, .null, tag⟩
        else ⟨.null, .null, 0⟩
      cellsUsed := 2 }
  rest := ()

theorem oneForm_freeListOk (tag : ℕ) : (oneForm tag).heap.FreeListOk where
  nodup := by simp [oneForm, Heap.init]
  below := by simp [oneForm, Heap.init]

theorem oneForm_live (tag : ℕ) : 0 ∉ (oneForm tag).heap.Supply := by
  simp [Heap.Supply, oneForm, Heap.init]

/-- An undefined symbol: no form runs. -/
theorem evaluators_agree_symbol : EvaluatorsAgree runAtom 3 (.cell 0) (oneForm tagSym) := by
  refine (evaluators_agree_iff (oneForm_freeListOk _) (oneForm_live _) rfl 3).mpr ?_
  intro i h fs hal hforms
  obtain ⟨rfl, rfl⟩ := Prod.mk.inj (Except.ok.inj hal)
  obtain rfl := Except.ok.inj hforms
  rfl

/-- The integer `5`: the hosted build returns its cell, the other one nil. -/
theorem evaluators_disagree_int : ¬ ∀ (ε : Type) (run : RunForm ε) (s : EvalState ε) (x fuel : ℕ),
    s.heap.FreeListOk → x ∉ s.heap.Supply → (s.heap.cells x).tag = tagCons →
    EvaluatorsAgree run fuel (.cell x) s := by
  intro hall
  obtain ⟨-, hrpi⟩ := hall Unit runAtom (oneForm tagInt) 0 3 (oneForm_freeListOk _)
    (oneForm_live _) rfl
  have hres := congrArg (fun r : Except Stop (Evaluated Unit) => r.toOption.map Evaluated.res) hrpi
  exact absurd hres (by decide)

end Interim.Sledge
