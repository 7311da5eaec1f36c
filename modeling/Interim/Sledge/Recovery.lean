import Interim.Sledge.Accumulator

/-!
# The input loop after a malformed line

The loop of `main` (`sledge/sledge.c`, lines 94–143) resets `in_offset` when it
hands `in_buffer` to `read_string`, but never `parens`. A `)` too many stays in
the count for the rest of the session.

* `feedInput_parens` — `parens` is the number of `(` less the `)` of all lines
  so far.
* `recovers_iff` — when the loop is back in its first state after each call of
  `read_string`.
-/

namespace Interim.Sledge

open Reader

/-! ## Sessions -/

/-- What `fgets` delivers: a line, or the end of the file. At the end of a file
    without a final LF both happen in one iteration. -/
inductive Input
  | line (text : List UInt8)
  | endOfFile
  deriving DecidableEq, Repr

/-- One iteration of the loop. Lines 133–142: the end of a file resets
    `in_offset`. -/
def feedInput (s : LoopState) : Input → Except Stop (LoopState × Option (List UInt8))
  | .line text => feedLine s text
  | .endOfFile => .ok (⟨[], s.parens⟩, none)

/-- The state after the inputs. -/
def stateAfter : LoopState → List Input → Except Stop LoopState
  | s, [] => .ok s
  | s, i :: is => do
    let (s, _) ← feedInput s i
    stateAfter s is

/-- The calls of `read_string` for the inputs. -/
def session : LoopState → List Input → Except Stop (List (Option (List UInt8)))
  | _, [] => .ok []
  | s, i :: is => do
    let (s, call) ← feedInput s i
    let calls ← session s is
    .ok (call :: calls)

/-! ## Recovery -/

/-- After every input on which `read_string` is called, `in_offset` and
    `parens` are 0, and later inputs are treated as in a new session. -/
def RecoversFrom (s₀ : LoopState) (inputs : List Input) : Prop :=
  ∀ pre i post, inputs = pre ++ i :: post → ∀ s s' text, stateAfter s₀ pre = .ok s →
    feedInput s i = .ok (s', some text) →
    s' = .start ∧ ∀ later, session s' later = session .start later

/-- The `(` less the `)` that the loop counts in an input. -/
def Input.balance : Input → ℤ
  | .line text => Sledge.balance (cut text)
  | .endOfFile => 0

/-- A line that may end with a call of `read_string`: one of more than one
    character. -/
def Input.isLong : Input → Bool
  | .line text => 1 < text.length
  | .endOfFile => false

/-- At the end of each line of more than one character, the loop has seen no
    more `)` than `(`, as far as it gets; `s` is the state before. -/
def NotBelow : LoopState → List Input → Prop
  | _, [] => True
  | s, i :: is => ∀ s' call, feedInput s i = .ok (s', call) →
    (i.isLong = true → 0 ≤ s.parens + i.balance) ∧ NotBelow s' is

section Recovery

variable {s s' : LoopState} {i : Input} {is : List Input} {call : Option (List UInt8)}

/-- The count goes on from line to line. -/
theorem feedInput_parens (hf : feedInput s i = .ok (s', call)) :
    s'.parens = s.parens + i.balance := by
  cases i with
  | endOfFile =>
    obtain ⟨rfl, -⟩ := Prod.mk.inj (Except.ok.inj hf)
    exact (add_zero _).symm
  | line text =>
    rw [feedInput, feedLine_eq] at hf
    split_ifs at hf
    · obtain ⟨rfl, -⟩ := Prod.mk.inj (Except.ok.inj hf)
      rfl
    · obtain ⟨rfl, -⟩ := Prod.mk.inj (Except.ok.inj hf)
      rfl
    · obtain ⟨rfl, -⟩ := Prod.mk.inj (Except.ok.inj hf)
      rfl

/-- `read_string` is called at the end of a long line when no parenthesis is
    missing, and `in_offset` is then 0. -/
theorem feedInput_call (hf : feedInput s i = .ok (s', call)) :
    (∃ text, call = some text) ↔ i.isLong = true ∧ s.parens + i.balance ≤ 0 := by
  cases i with
  | endOfFile =>
    obtain ⟨-, rfl⟩ := Prod.mk.inj (Except.ok.inj hf)
    simp [Input.isLong]
  | line text =>
    rw [feedInput, feedLine_eq] at hf
    simp only [Input.isLong, Input.balance, decide_eq_true_eq]
    split_ifs at hf with hfit hpos hlen
    · obtain ⟨-, rfl⟩ := Prod.mk.inj (Except.ok.inj hf)
      simp
      omega
    · obtain ⟨-, rfl⟩ := Prod.mk.inj (Except.ok.inj hf)
      simp
      omega
    · obtain ⟨-, rfl⟩ := Prod.mk.inj (Except.ok.inj hf)
      simp
      omega

theorem feedInput_buffer {text : List UInt8} (hf : feedInput s i = .ok (s', some text)) :
    s'.buffer = [] := by
  cases i with
  | endOfFile => cases hf
  | line text =>
    rw [feedInput, feedLine_eq] at hf
    split_ifs at hf
    · cases hf
    · obtain ⟨rfl, -⟩ := Prod.mk.inj (Except.ok.inj hf)
      rfl
    · cases hf

/-- The state after a call is the first one exactly if the count is not
    negative. -/
theorem eq_start_iff {text : List UInt8} (hf : feedInput s i = .ok (s', some text)) :
    s' = .start ↔ 0 ≤ s.parens + i.balance := by
  obtain ⟨-, hle⟩ := (feedInput_call hf).mp ⟨text, rfl⟩
  have hparens := feedInput_parens hf
  have hbuf := feedInput_buffer hf
  constructor
  · rintro rfl
    have hzero : (0 : ℤ) = s.parens + i.balance := hparens
    omega
  · intro hge
    obtain ⟨buffer, parens⟩ := s'
    have hbuffer : buffer = [] := hbuf
    have hcount : parens = s.parens + i.balance := hparens
    rw [hbuffer, hcount, LoopState.start, show s.parens + i.balance = 0 by omega]

theorem recoversFrom_cons : RecoversFrom s (i :: is) ↔ ∀ s' call, feedInput s i = .ok (s', call) →
    ((∃ text, call = some text) → s' = .start) ∧ RecoversFrom s' is := by
  constructor
  · intro hr s' call hf
    constructor
    · rintro ⟨text, rfl⟩
      exact (hr [] i is rfl s s' text rfl hf).1
    · intro pre j post hsplit s₁ s₂ text hpre hj
      refine hr (i :: pre) j post (by rw [hsplit]; rfl) s₁ s₂ text ?_ hj
      rw [stateAfter, hf, ok_bind]
      exact hpre
  · intro hr pre j post hsplit s₁ s₂ text hpre hj
    cases pre with
    | nil =>
      obtain ⟨rfl, rfl⟩ := List.cons.inj hsplit
      obtain rfl := Except.ok.inj hpre
      obtain ⟨hstart, -⟩ := hr s₂ _ hj
      obtain rfl := hstart ⟨text, rfl⟩
      exact ⟨rfl, fun _ => rfl⟩
    | cons p pre =>
      obtain ⟨rfl, rfl⟩ := List.cons.inj hsplit
      rw [stateAfter] at hpre
      obtain ⟨⟨s', call⟩, hf, hpre⟩ := bind_ok.mp hpre
      exact (hr s' call hf).2 pre j post rfl s₁ s₂ text hpre hj

/-- By induction on the inputs, from any state. -/
theorem recoversFrom_iff (is : List Input) : ∀ s, RecoversFrom s is ↔ NotBelow s is := by
  induction is with
  | nil =>
    intro s
    refine iff_of_true ?_ trivial
    intro pre i post hsplit
    exact absurd hsplit (by simp)
  | cons i is ih =>
    intro s
    rw [recoversFrom_cons, NotBelow]
    apply forall_congr'
    intro s'
    apply forall_congr'
    intro call
    apply imp_congr_right
    intro hf
    rw [ih s']
    apply and_congr_left'
    constructor
    · intro hstart hlong
      by_cases hpos : 0 < s.parens + i.balance
      · exact hpos.le
      · obtain ⟨text, rfl⟩ := (feedInput_call hf).mpr ⟨hlong, not_lt.mp hpos⟩
        exact (eq_start_iff hf).mp (hstart ⟨text, rfl⟩)
    · rintro hge ⟨text, rfl⟩
      exact (eq_start_iff hf).mpr (hge ((feedInput_call hf).mp ⟨text, rfl⟩).1)

end Recovery

/-- The loop recovers after every call of `read_string` exactly if at the end
    of no line of more than one character more `)` than `(` have been seen. -/
theorem recovers_iff (inputs : List Input) :
    RecoversFrom .start inputs ↔ NotBelow .start inputs :=
  recoversFrom_iff inputs .start

/-- After the line `)` the count is -1. -/
theorem recovers_not_paren : ¬ ∀ inputs, RecoversFrom .start inputs := by
  intro hall
  obtain ⟨hstart, -⟩ := hall [.line [rparen, lf]] [] (.line [rparen, lf]) [] rfl .start ⟨[], -1⟩
    [rparen, lf, lf] rfl rfl
  exact absurd hstart (by decide)

end Interim.Sledge
