import Mathlib.Tactic

/-!
# While loops

A `while` loop over a state type `σ` whose body may fail, run with a bound on
the number of rounds. `loop_total` is the rule of total correctness: with an
invariant, and a measure that each round decreases, every large enough bound
gives a result, the same one. `loop_never` shows that a loop does not return.
`loopM` is the loop whose condition may fail too.
-/

namespace WhileLoop

variable {σ ε : Type*}

/-- `while (cond) body`, at most `fuel` tests; `limit` is the error when they
    do not suffice. -/
def loop (limit : ε) (cond : σ → Bool) (body : σ → Except ε σ) : ℕ → σ → Except ε σ
  | 0, _ => .error limit
  | fuel + 1, s =>
    if cond s then
      match body s with
      | .ok s' => loop limit cond body fuel s'
      | .error e => .error e
    else .ok s

variable {limit : ε} {cond : σ → Bool} {body : σ → Except ε σ} {s s' : σ}

theorem loop_exit (fuel : ℕ) (hc : cond s = false) :
    loop limit cond body (fuel + 1) s = .ok s := by
  rw [loop, if_neg (by simp [hc])]

theorem loop_round (fuel : ℕ) (hc : cond s = true) (hb : body s = .ok s') :
    loop limit cond body (fuel + 1) s = loop limit cond body fuel s' := by
  rw [loop, if_pos hc, hb]

theorem loop_error {e : ε} (fuel : ℕ) (hc : cond s = true) (hb : body s = .error e) :
    loop limit cond body (fuel + 1) s = .error e := by
  rw [loop, if_pos hc, hb]

/-- `n` rounds through known states. -/
theorem loop_rounds (f : ℕ → σ) {n : ℕ}
    (hstep : ∀ t < n, cond (f t) = true ∧ body (f t) = .ok (f (t + 1))) (fuel : ℕ) :
    loop limit cond body (n + fuel) (f 0) = loop limit cond body fuel (f n) := by
  induction n generalizing fuel with
  | zero => rw [Nat.zero_add]
  | succ n ih =>
    obtain ⟨hc, hb⟩ := hstep n (by omega)
    rw [Nat.add_right_comm, Nat.add_assoc, ih (fun t ht => hstep t (by omega)), loop_round _ hc hb]

/-- Total correctness: an invariant that every round keeps, with a measure
    that every round decreases. -/
theorem loop_total (limit : ε) {Inv : σ → Prop} {measure : σ → ℕ}
    (hstep : ∀ s, Inv s → cond s = true →
      ∃ s', body s = .ok s' ∧ Inv s' ∧ measure s' < measure s) :
    ∀ {s : σ}, Inv s → ∃ s', Inv s' ∧ cond s' = false ∧
      ∀ fuel, measure s < fuel → loop limit cond body fuel s = .ok s' := by
  intro s
  induction hm : measure s using Nat.strong_induction_on generalizing s with
  | _ m ih =>
    intro hs
    cases hc : cond s with
    | false =>
      refine ⟨s, hs, hc, fun fuel hf => ?_⟩
      obtain ⟨k, rfl⟩ := Nat.exists_eq_add_of_lt hf
      exact loop_exit _ hc
    | true =>
      obtain ⟨s₁, hb, hs₁, hlt⟩ := hstep s hs hc
      obtain ⟨s', hs', hc', hrun⟩ := ih _ (hm ▸ hlt) rfl hs₁
      refine ⟨s', hs', hc', fun fuel hf => ?_⟩
      obtain ⟨k, rfl⟩ := Nat.exists_eq_add_of_lt hf
      rw [loop_round _ hc hb]
      exact hrun _ (by omega)

/-- A loop whose invariant keeps the condition true does not return. -/
theorem loop_never {Inv : σ → Prop}
    (hstep : ∀ s, Inv s → cond s = true ∧ ∀ s', body s = .ok s' → Inv s') (fuel : ℕ) :
    ∀ {s : σ}, Inv s → ∀ s', loop limit cond body fuel s ≠ .ok s' := by
  induction fuel with
  | zero => intro s _ s' h; exact absurd h (by simp [loop])
  | succ fuel ih =>
    intro s hs s'
    obtain ⟨hc, hnext⟩ := hstep s hs
    cases hb : body s with
    | error e =>
      rw [loop_error fuel hc hb]
      simp
    | ok s₁ =>
      rw [loop_round fuel hc hb]
      exact ih (hnext s₁ hb) s'

/-! ## Conditions that may fail -/

/-- `while (cond) body`, at most `fuel` tests, where the test may fail. -/
def loopM (limit : ε) (cond : σ → Except ε Bool) (body : σ → Except ε σ) : ℕ → σ → Except ε σ
  | 0, _ => .error limit
  | fuel + 1, s =>
    match cond s with
    | .error e => .error e
    | .ok false => .ok s
    | .ok true =>
      match body s with
      | .ok s' => loopM limit cond body fuel s'
      | .error e => .error e

section Test

variable {test : σ → Except ε Bool}

theorem loopM_exit (fuel : ℕ) (hc : test s = .ok false) :
    loopM limit test body (fuel + 1) s = .ok s := by
  rw [loopM, hc]

theorem loopM_round (fuel : ℕ) (hc : test s = .ok true) (hb : body s = .ok s') :
    loopM limit test body (fuel + 1) s = loopM limit test body fuel s' := by
  rw [loopM, hc]
  dsimp only
  rw [hb]

end Test

end WhileLoop
