import Mathlib.Data.List.TakeWhile
import Interim.Writer.Tree

/-!
# The writer stays in its buffers

* `write_puts`: a call of `write_` on a tree is one store of a NUL-free text of
  `width t inList s` characters and its NUL, or a fault if a temporary buffer
  of the call is too small (`Tidy t s` fails).
-/

namespace Interim.Writer

open Heap

/-! ## Stores -/

section Stores

variable {buf a c d text : List UInt8} {pos : ℕ}

theorem store_fault (h : buf.length < pos + text.length) : store buf pos text = .error .fault := by
  rw [store, if_neg (by omega)]

/-- A store into a buffer that is cut at the two ends of the stored text. -/
theorem store_split {pre mid post : List UInt8} (hpos : pre.length = pos)
    (hmid : mid.length = text.length) :
    store (pre ++ (mid ++ post)) pos text = .ok (pre ++ (text ++ post)) := by
  subst hpos
  rw [store, if_pos (by simp only [List.length_append]; omega), List.take_left' rfl,
    ← List.append_assoc pre mid post, List.drop_left' (by simp [hmid])]

theorem exists_split {l : List UInt8} {n : ℕ} (h : n ≤ l.length) :
    ∃ pre post, l = pre ++ post ∧ pre.length = n :=
  ⟨l.take n, l.drop n, (List.take_append_drop n l).symm, List.length_take_of_le h⟩

/-- A store right behind a stored text, over what is left of that store. -/
theorem store_store (hc : c.length ≤ d.length) :
    (store buf pos (a ++ c) >>= fun b => store b (pos + a.length) d) = store buf pos (a ++ d) := by
  by_cases hfit : pos + (a ++ d).length ≤ buf.length
  · simp only [List.length_append] at hfit
    obtain ⟨pre, buf, rfl, hpre⟩ := exists_split (show pos ≤ buf.length by omega)
    simp only [List.length_append] at hfit
    obtain ⟨m₁, buf, rfl, h₁⟩ := exists_split (show a.length ≤ buf.length by omega)
    simp only [List.length_append] at hfit
    obtain ⟨m₂, buf, rfl, h₂⟩ := exists_split (show c.length ≤ buf.length by omega)
    simp only [List.length_append] at hfit
    obtain ⟨m₃, post, rfl, h₃⟩ := exists_split (show d.length - c.length ≤ buf.length by omega)
    have hfirst : store (pre ++ (m₁ ++ (m₂ ++ (m₃ ++ post)))) pos (a ++ c) =
        .ok (pre ++ (a ++ (c ++ (m₃ ++ post)))) := by
      have := @store_split (a ++ c) pos pre (m₁ ++ m₂) (m₃ ++ post) hpre (by simp [h₁, h₂])
      simpa only [List.append_assoc] using this
    have hsecond : store (pre ++ (a ++ (c ++ (m₃ ++ post)))) (pos + a.length) d =
        .ok (pre ++ (a ++ (d ++ post))) := by
      have := @store_split d (pos + a.length) (pre ++ a) (c ++ m₃) post (by simp [hpre])
        (by simp only [List.length_append]; omega)
      simpa only [List.append_assoc] using this
    have hboth : store (pre ++ (m₁ ++ (m₂ ++ (m₃ ++ post)))) pos (a ++ d) =
        .ok (pre ++ (a ++ (d ++ post))) := by
      have := @store_split (a ++ d) pos pre (m₁ ++ (m₂ ++ m₃)) post hpre
        (by simp only [List.length_append]; omega)
      simpa only [List.append_assoc] using this
    rw [hfirst, hboth]
    exact hsecond
  · have hboth : store buf pos (a ++ d) = .error .fault := store_fault (by omega)
    rw [hboth]
    by_cases hfirst : pos + (a ++ c).length ≤ buf.length
    · rw [store, if_pos hfirst]
      apply store_fault
      simp only [List.length_append, List.length_take, List.length_drop] at hfit hfirst ⊢
      omega
    · have hnone : store buf pos (a ++ c) = .error .fault := store_fault (by omega)
      rw [hnone]
      rfl

theorem store_store_bind {α : Type} (hc : c.length ≤ d.length)
    (f : List UInt8 → Except Stop α) :
    (store buf pos (a ++ c) >>= fun b => store b (pos + a.length) d >>= f) =
      (store buf pos (a ++ d) >>= f) := by
  rw [← store_store hc, bind_assoc]

/-- `buffer[0] = 0` before a store of a text and its NUL. -/
theorem store_nul_store : (store buf pos [0] >>= fun b => store b pos (text ++ [0])) =
    store buf pos (text ++ [0]) :=
  store_store (a := []) (c := [0]) (d := text ++ [0]) (by simp)

/-- A stored C string is read back. -/
theorem cStringAt_store {b : List UInt8} (h : store buf pos (a ++ (text ++ [0])) = .ok b)
    (hz : 0 ∉ text) : cStringAt b (pos + a.length) = .ok text := by
  unfold store at h
  split_ifs at h with hfit
  injection h with h
  subst h
  have hpre : (buf.take pos).length = pos := List.length_take_of_le (by omega)
  generalize buf.take pos = pre at hpre
  generalize buf.drop (pos + (a ++ (text ++ [0])).length) = post
  have hdrop : (pre ++ (a ++ (text ++ [0]) ++ post)).drop (pos + a.length) =
      text ++ 0 :: post := by
    rw [List.append_assoc, ← List.append_assoc pre, List.drop_left' (by simp [hpre]),
      List.append_assoc]
    rfl
  have hread := @cStringAt_append text post hz
  rw [cStringAt, List.drop_zero] at hread
  rw [cStringAt, hdrop]
  exact hread

/-- `buffer[0] = 0` and then `snprintf`. -/
theorem nul_snprintf (size : ℤ) : (store buf pos [0] >>= fun b => snprintf b pos size text) =
    store buf pos (text.take (toSizeT size - 1) ++ [0]) := by
  by_cases hsize : toSizeT size = 0
  · simp only [snprintf, hsize, if_true]
    simp only [Nat.zero_sub, List.take_zero, List.nil_append]
    exact bind_pure _
  · simp only [snprintf, hsize, if_false]
    exact store_nul_store

/-- A fault after a store is a fault, whether or not the store is one. -/
theorem store_bind_fault {α : Type} :
    (store buf pos text >>= fun _ => (.error .fault : Except Stop α)) = .error .fault := by
  unfold store
  split_ifs <;> rfl

/-- `strlen` and `%s` of a text that was just stored. -/
theorem store_cStringAt {α : Type} (hz : 0 ∉ text)
    (f : List UInt8 → List UInt8 → Except Stop α) :
    (store buf pos (a ++ (text ++ [0])) >>= fun b =>
        cStringAt b (pos + a.length) >>= fun s => f s b) =
      (store buf pos (a ++ (text ++ [0])) >>= fun b => f text b) := by
  cases hstore : store buf pos (a ++ (text ++ [0])) with
  | error => rfl
  | ok b =>
    show (cStringAt b (pos + a.length) >>= fun s => f s b) = f text b
    rw [cStringAt_store hstore hz]
    rfl

end Stores

/-! ## One store for a call -/

/-- What a call of `write_` does, as a function of its buffer and position: one
    store of a NUL-free text of `width` characters and its NUL if its temporary
    buffers are large enough, a fault otherwise. -/
structure Puts (r : List UInt8 → ℕ → Except Stop (List UInt8)) (tidy : Prop) (width : ℕ) :
    Prop where
  stores : tidy → ∃ text, 0 ∉ text ∧ text.length = width ∧
    ∀ buf pos, r buf pos = store buf pos (text ++ [0])
  faults : ¬ tidy → ∀ buf pos, r buf pos = .error .fault

theorem Puts.of_store {r : List UInt8 → ℕ → Except Stop (List UInt8)} {tidy : Prop} {n : ℕ}
    (htidy : tidy) (text : List UInt8) (hz : 0 ∉ text) (hlen : text.length = n)
    (hr : ∀ buf pos, r buf pos = store buf pos (text ++ [0])) : Puts r tidy n :=
  ⟨fun _ => ⟨text, hz, hlen, hr⟩, fun hnot => absurd htidy hnot⟩

theorem zero_notMem_take {text : List UInt8} (hz : 0 ∉ text) (n : ℕ) : 0 ∉ text.take n :=
  fun h => hz (List.mem_of_mem_take h)

/-- The branches that end in one `snprintf`. -/
theorem puts_snprintf {text : List UInt8} {tidy : Prop} (htidy : tidy) (hz : 0 ∉ text) (s : ℕ) :
    Puts (fun buf pos => store buf pos [0] >>= fun b => snprintf b pos ((s : ℤ) - 1) text) tidy
      (cut s text.length) := by
  apply Puts.of_store htidy (text.take (toSizeT ((s : ℤ) - 1) - 1)) (zero_notMem_take hz _)
  · rw [List.length_take, cut, Nat.min_comm]
  · intro buf pos
    exact nul_snprintf _

/-! ## Texts without NUL -/

theorem zero_notMem_cString {h : Heap} {w : Word} {s : List UInt8} (hs : cString h w = .ok s) :
    0 ∉ s := by
  have hread : ∀ {l : List UInt8} {pos : ℕ}, cStringAt l pos = .ok s → 0 ∉ s := by
    intro l pos hl
    unfold cStringAt at hl
    split_ifs at hl
    injection hl with hl
    subst hl
    intro hmem
    have hne := List.mem_takeWhile_imp hmem
    simp at hne
  unfold cString at hs
  split at hs
  · split_ifs at hs
    exact hread hs
  · cases hs

theorem zero_notMem_intText (v : ℤ) : 0 ∉ intText v := by
  rw [intText]
  split_ifs
  · simp [zero_notMem_natText]
  · exact zero_notMem_natText _

theorem zero_notMem_append {a b : List UInt8} (ha : 0 ∉ a) (hb : 0 ∉ b) : 0 ∉ a ++ b := by
  simp [ha, hb]

theorem zero_notMem_errorText (v : BitVec 64) : 0 ∉ errorText v := by
  unfold errorText
  split_ifs
  · decide
  · decide
  · decide
  · decide
  · decide
  · decide
  · exact zero_notMem_append (by decide)
      (zero_notMem_append (zero_notMem_intText _) (by decide))

theorem zero_notMem_streamText {h : Heap} {c : Cell} {s : List UInt8}
    (hs : streamText h c = .ok s) : 0 ∉ s := by
  unfold streamText at hs
  split at hs
  · split_ifs at hs
    injection hs with hs
    subst hs
    decide
  · split_ifs at hs
    split at hs
    · obtain ⟨p, -, hs⟩ := bind_ok.mp hs
      obtain ⟨path, hpath, hs⟩ := bind_ok.mp hs
      obtain ⟨m, -, hs⟩ := bind_ok.mp hs
      obtain ⟨mount, hmount, hs⟩ := bind_ok.mp hs
      split_ifs at hs
      injection hs with hs
      subst hs
      have hp := zero_notMem_cString hpath
      have hm := zero_notMem_cString hmount
      have hi := zero_notMem_intText
      have ha : (0 : UInt8) ∉ ascii "<stream:" ∧ (0 : UInt8) ∉ ascii ":" ∧ (0 : UInt8) ∉ ascii ">" := by
        decide
      simp [hp, hm, hi, ha]
    · cases hs
  · cases hs

theorem zero_notMem_plain {h : Heap} {w : Word} {text : List UInt8} (hp : Plain h w text) :
    0 ∉ text := by
  cases hp with
  | null => decide
  | int => exact zero_notMem_intText _
  | name _ har => exact zero_notMem_cString har
  | builtin =>
    exact zero_notMem_append (by decide)
      (zero_notMem_append (zero_notMem_intText _) (by decide))
  | error => exact zero_notMem_errorText _
  | stream _ har => exact zero_notMem_streamText har
  | other =>
    exact zero_notMem_append (by decide)
      (zero_notMem_append (zero_notMem_natText _) (by decide))

theorem zero_notMem_vecHead {h : Heap} {c : Cell} {head : List UInt8} {first : ℕ}
    (hh : vecHead h c = .ok (head, first)) : 0 ∉ head := by
  have hempty : (.ok ([], 0) : Except Stop (List UInt8 × ℕ)) = .ok (head, first) → 0 ∉ head := by
    intro he
    injection he with he
    injection he with he
    simp [← he]
  unfold vecHead at hh
  split_ifs at hh with hvec hstruct hnull
  · injection hh with hh
    injection hh with hh
    subst hh
    decide
  · exact hempty hh
  · obtain ⟨d, -, hh⟩ := bind_ok.mp hh
    split_ifs at hh
    · exact hempty hh
    · obtain ⟨c₁, -, hh⟩ := bind_ok.mp hh
      obtain ⟨e, -, hh⟩ := bind_ok.mp hh
      obtain ⟨c₂, -, hh⟩ := bind_ok.mp hh
      obtain ⟨name, hname, hh⟩ := bind_ok.mp hh
      injection hh with hh
      injection hh with hh
      subst hh
      exact zero_notMem_append (zero_notMem_cString hname) (by decide)
  · injection hh with hh
    injection hh with hh
    subst hh
    decide

/-! ## The branches of `write_` -/

section Branches

variable {junk : ℕ → UInt8} {h : Heap} {fuel s : ℕ} {inList : Bool} {w : Word}

/-- `write_` on a cell: `buffer[0] = 0`, then the dispatch on the tag. -/
theorem write_cell_eq (i : ℕ) (n : ℤ) (buf : List UInt8) (pos : ℕ) :
    write junk h (fuel + 1) (.cell i) buf pos inList n = (store buf pos [0] >>= fun b =>
      writeCell junk h fuel (write junk h fuel) (h.cells i) b pos inList (n - 1)) := rfl

theorem Puts.congr {r r' : List UInt8 → ℕ → Except Stop (List UInt8)} {tidy : Prop} {n : ℕ}
    (hr : ∀ buf pos, r buf pos = r' buf pos) (hp : Puts r' tidy n) : Puts r tidy n := by
  have : r = r' := by
    funext buf pos
    exact hr buf pos
  rwa [this]

theorem writeCell_plain {i : ℕ} {text : List UInt8} {rec : Rec} {b : List UInt8} {pos : ℕ} {n : ℤ}
    (hp : Plain h (.cell i) text) :
    writeCell junk h fuel rec (h.cells i) b pos inList n = snprintf b pos n text := by
  cases hp with
  | int htag har => simp [writeCell, htag, har, intOf, ok_bind]
  | name htag har =>
    obtain htag | htag := htag
    · simp [writeCell, htag, har, ok_bind]
    · simp [writeCell, htag, har, ok_bind]
  | builtin htag har => simp [writeCell, htag, har, intOf, ok_bind]
  | error htag har => simp [writeCell, htag, har, intOf, ok_bind]
  | stream htag har => simp [writeCell, htag, har, ok_bind]
  | other htag =>
    simp only [List.mem_cons, List.not_mem_nil, or_false, not_or] at htag
    simp [writeCell, htag]

theorem plain_cases {text : List UInt8} (hp : Plain h w text) :
    (w = .null ∧ text = ascii "null") ∨ ∃ i, w = .cell i := by
  cases hp with
  | null => exact Or.inl ⟨rfl, rfl⟩
  | int | name | builtin | error | stream | other => exact Or.inr ⟨_, rfl⟩

theorem puts_plain {text : List UInt8} (hp : Plain h w text) :
    Puts (fun buf pos => write junk h (fuel + 1) w buf pos inList s) True (cut s text.length) := by
  refine Puts.congr ?_ (puts_snprintf trivial (zero_notMem_plain hp) s)
  intro buf pos
  obtain ⟨rfl, rfl⟩ | ⟨i, rfl⟩ := plain_cases hp
  · rfl
  · rw [write_cell_eq]
    congr 1
    funext b
    exact writeCell_plain hp

/-- `TAG_CONS` with both fields `NULL`. -/
theorem puts_nil {i : ℕ} (hi : h.cells i = ⟨.null, .null, tagCons⟩) :
    Puts (fun buf pos => write junk h (fuel + 1) (.cell i) buf pos inList s) True
      (if inList then 0 else cut s 3) := by
  have hcell : ∀ (b : List UInt8) (pos : ℕ) (n : ℤ),
      writeCell junk h fuel (write junk h fuel) (h.cells i) b pos inList n =
        if inList then .ok b else snprintf b pos n (ascii "nil") := by
    intro b pos n
    simp [writeCell, writeCons, hi]
  cases inList with
  | true =>
    apply Puts.of_store trivial [] List.not_mem_nil rfl
    intro buf pos
    rw [write_cell_eq]
    simp only [hcell, if_true]
    exact bind_pure _
  | false =>
    refine Puts.congr ?_ (@puts_snprintf (ascii "nil") True trivial (by decide) s)
    intro buf pos
    rw [write_cell_eq]
    simp only [hcell]
    rfl

/-- A temporary buffer filled by a recursive call and read as a C string. -/
theorem writeTmp_puts {rec : Rec} {tidy : Prop} {n : ℕ} (b : Bool)
    (hp : Puts (fun buf pos => rec w buf pos b tmpBufSize) tidy n) :
    (tidy ∧ n < tmpBufSize → ∃ text, 0 ∉ text ∧ text.length = n ∧
        writeTmp junk rec w b = .ok text) ∧
      (¬ (tidy ∧ n < tmpBufSize) → writeTmp junk rec w b = .error .fault) := by
  have hjunk : ((List.range tmpBufSize).map junk).length = tmpBufSize := by simp
  constructor
  · rintro ⟨htidy, hn⟩
    obtain ⟨text, hz, hlen, hstore⟩ := hp.stores htidy
    refine ⟨text, hz, hlen, ?_⟩
    obtain ⟨b, hb, hread⟩ := store_zero (by rw [hjunk]; omega) hz
    rw [writeTmp, hstore, hb]
    exact hread
  · intro hnot
    rw [writeTmp]
    by_cases htidy : tidy
    · obtain ⟨text, hz, hlen, hstore⟩ := hp.stores htidy
      have hover : ¬ n < tmpBufSize := fun hn => hnot ⟨htidy, hn⟩
      rw [hstore, store_fault (by rw [hjunk, List.length_append, hlen, List.length_singleton]; omega)]
      rfl
    · rw [hp.faults htidy]
      rfl

theorem isConsPtr_shows {d : Tree} (hd : Shows h d w) : isConsPtr h w = .ok d.isCons := by
  cases d with
  | plain text =>
    rw [Shows] at hd
    obtain ⟨rfl, -⟩ | ⟨i, rfl⟩ := plain_cases hd
    · rfl
    · have htag : (h.cells i).tag ≠ tagCons := by
        intro htag
        cases hd with
        | int h' | builtin h' | error h' | stream h' => rw [htag] at h'; cases h'
        | name h' => rw [htag] at h'; obtain h' | h' := h' <;> cases h'
        | other h' => exact h' (by simp [htag])
      simp [isConsPtr, cellAt, Word.asCell, htag, Tree.isCons, ok_bind]
  | nil =>
    rw [Shows] at hd
    obtain ⟨i, rfl, hi⟩ := hd
    simp [isConsPtr, cellAt, Word.asCell, hi, Tree.isCons, ok_bind]
  | cons a d =>
    rw [Shows] at hd
    obtain ⟨i, rfl, htag, -⟩ := hd
    simp [isConsPtr, cellAt, Word.asCell, htag, Tree.isCons, ok_bind]
  | str text size =>
    rw [Shows] at hd
    obtain ⟨i, rfl, htag, -⟩ := hd
    simp [isConsPtr, cellAt, Word.asCell, htag, Tree.isCons, ok_bind]
  | bytes content =>
    rw [Shows] at hd
    obtain ⟨i, b, off, rest, rfl, htag, -⟩ := hd
    simp [isConsPtr, cellAt, Word.asCell, htag, Tree.isCons, ok_bind]
  | lambda params body =>
    rw [Shows] at hd
    obtain ⟨i, args, code, rfl, htag, -⟩ := hd
    simp [isConsPtr, cellAt, Word.asCell, htag, Tree.isCons, ok_bind]
  | vec head elements =>
    rw [Shows] at hd
    obtain ⟨i, size, first, rfl, htag, -⟩ := hd
    obtain htag | htag | htag := htag
    all_goals simp [isConsPtr, cellAt, Word.asCell, htag, Tree.isCons, ok_bind]

/-- What the two `snprintf` of a cons cell print, from the texts of its fields. -/
def consText (proper inList : Bool) (l r : List UInt8) : List UInt8 :=
  if proper then
    if inList then
      if r ≠ [] then l ++ (ascii " " ++ r) else l
    else ascii "(" ++ (l ++ (ascii " " ++ (r ++ ascii ")")))
  else ascii "(" ++ (l ++ (ascii " . " ++ (r ++ ascii ")")))

theorem zero_notMem_consText {l r : List UInt8} (proper : Bool) (hl : 0 ∉ l) (hr : 0 ∉ r) :
    0 ∉ consText proper inList l r := by
  have ha : (0 : UInt8) ∉ ascii "(" ∧ (0 : UInt8) ∉ ascii " " ∧ (0 : UInt8) ∉ ascii " . " ∧
      (0 : UInt8) ∉ ascii ")" := by decide
  unfold consText
  split_ifs
  all_goals simp [ha, hl, hr]

theorem length_consText {l r : List UInt8} (proper : Bool) :
    (consText proper inList l r).length =
      if proper then
        if inList then if r.length ≠ 0 then l.length + (1 + r.length) else l.length
        else l.length + r.length + 3
      else l.length + r.length + 5 := by
  unfold consText
  cases proper
  · simp [ascii]
    omega
  · cases inList
    · simp [ascii]
      omega
    · by_cases hr : r = []
      · simp [hr]
      · simp [hr, ascii]
        omega

/-- `TAG_CONS`, both fields through their temporary buffers. -/
theorem puts_cons {i : ℕ} {d : Tree} {tidyA tidyD : Prop} {m n : ℕ}
    (htag : (h.cells i).tag = tagCons)
    (hne : ¬ ((h.cells i).ar = .null ∧ (h.cells i).dr = .null))
    (hproper : isConsPtr h (h.cells i).dr = .ok d.isCons)
    (ha : Puts (fun buf pos => write junk h fuel (h.cells i).ar buf pos false tmpBufSize) tidyA m)
    (hd : Puts (fun buf pos => write junk h fuel (h.cells i).dr buf pos d.isCons tmpBufSize)
      tidyD n) :
    Puts (fun buf pos => write junk h (fuel + 1) (.cell i) buf pos inList s)
      ((tidyA ∧ m < tmpBufSize) ∧ tidyD ∧ n < tmpBufSize)
      (cut s (if d.isCons then if inList then if n ≠ 0 then m + (1 + n) else m else m + n + 3
        else m + n + 5)) := by
  have hcell : ∀ (b : List UInt8) (pos : ℕ) (k : ℤ),
      writeCell junk h fuel (write junk h fuel) (h.cells i) b pos inList k =
        (writeTmp junk (write junk h fuel) (h.cells i).ar false >>= fun l =>
          writeTmp junk (write junk h fuel) (h.cells i).dr d.isCons >>= fun r =>
            snprintf b pos k (consText d.isCons inList l r)) := by
    intro b pos k
    simp only [writeCell, htag, writeCons, if_neg hne, hproper, ok_bind, consText]
    rfl
  obtain ⟨haOk, haFault⟩ := @writeTmp_puts junk _ _ _ _ false ha
  obtain ⟨hdOk, hdFault⟩ := @writeTmp_puts junk _ _ _ _ d.isCons hd
  by_cases htidyA : tidyA ∧ m < tmpBufSize
  · obtain ⟨l, hlz, hl, hlOk⟩ := haOk htidyA
    by_cases htidyD : tidyD ∧ n < tmpBufSize
    · obtain ⟨r, hrz, hr, hrOk⟩ := hdOk htidyD
      have hp := @puts_snprintf (consText d.isCons inList l r)
        ((tidyA ∧ m < tmpBufSize) ∧ tidyD ∧ n < tmpBufSize) ⟨htidyA, htidyD⟩
        (zero_notMem_consText d.isCons hlz hrz) s
      rw [length_consText, hl, hr] at hp
      refine Puts.congr ?_ hp
      intro buf pos
      rw [write_cell_eq]
      simp only [hcell, hlOk, hrOk, ok_bind]
    · refine ⟨fun hall => absurd hall.2 htidyD, fun _ buf pos => ?_⟩
      rw [write_cell_eq]
      simp only [hcell, hlOk, hdFault htidyD, ok_bind]
      exact store_bind_fault
  · refine ⟨fun hall => absurd hall.1 htidyA, fun _ buf pos => ?_⟩
    rw [write_cell_eq]
    simp only [hcell, haFault htidyA]
    exact store_bind_fault

theorem toSizeT_of_lt {n : ℕ} (hn : n < 2 ^ 64) : toSizeT (n : ℤ) = n := by
  rw [toSizeT, Int.emod_eq_of_lt (by omega) (by omega), Int.toNat_natCast]

/-- `TAG_STR`. -/
theorem puts_str {i : ℕ} {text : List UInt8} {size : BitVec 64} (htag : (h.cells i).tag = tagStr)
    (har : cString h (h.cells i).ar = .ok text) (hdr : (h.cells i).dr = .int size) :
    Puts (fun buf pos => write junk h (fuel + 1) (.cell i) buf pos inList s) True
      (min (text.length + 2) (min (toSizeT ((s : ℤ) - 2)) (size + 3).toNat - 1)) := by
  have hcell : ∀ (b : List UInt8) (pos : ℕ),
      writeCell junk h fuel (write junk h fuel) (h.cells i) b pos inList ((s : ℤ) - 1) =
        snprintf b pos (min (toSizeT ((s : ℤ) - 2)) (size + 3).toNat : ℕ)
          (ascii "\"" ++ (text ++ ascii "\"")) := by
    intro b pos
    have hs : (s : ℤ) - 1 - 1 = s - 2 := by omega
    simp [writeCell, htag, writeStr, har, hdr, intOf, ok_bind, hs]
  have hbound : min (toSizeT ((s : ℤ) - 2)) (size + 3).toNat < 2 ^ 64 :=
    lt_of_le_of_lt (Nat.min_le_right _ _) (size + 3).isLt
  have hz : 0 ∉ ascii "\"" ++ (text ++ ascii "\"") :=
    zero_notMem_append (by decide)
      (zero_notMem_append (zero_notMem_cString har) (by decide))
  generalize hm : min (toSizeT ((s : ℤ) - 2)) (size + 3).toNat = m at hcell hbound
  apply Puts.of_store trivial ((ascii "\"" ++ (text ++ ascii "\"")).take (m - 1))
    (zero_notMem_take hz _)
  · rw [List.length_take, Nat.min_comm]
    simp [ascii]
  · intro buf pos
    rw [write_cell_eq]
    simp only [hcell]
    rw [nul_snprintf, toSizeT_of_lt hbound]

/-- The loop of the `TAG_BYTES` branch and the bracket after it, behind the text
    that is stored already. -/
theorem writeHex_close {b : ℕ} {off : ℤ} (hoff : 0 ≤ off) (content : List UInt8) :
    ∀ (buf acc c todo : List UInt8) (pos i : ℕ),
      (h.bytes b).drop (off.toNat + i) = content ++ todo → acc.length = 1 + 2 * i →
      c.length ≤ 1 →
      (store buf pos (acc ++ c) >>= fun b₁ =>
          writeHex h (.ptr (.bytes b) off) pos i content.length b₁ >>= fun b₂ =>
            store b₂ (pos + (i + content.length) * 2 + 1) (ascii "]" ++ [0])) =
        store buf pos (acc ++ (content.flatMap hexByte ++ (ascii "]" ++ [0]))) := by
  induction content with
  | nil =>
    intro buf acc c todo pos i _ hacc hc
    have hpos : pos + (i + 0) * 2 + 1 = pos + acc.length := by omega
    simp only [List.length_nil, writeHex, ok_bind, hpos]
    exact store_store (by simp [ascii]; omega)
  | cons x content ih =>
    intro buf acc c todo pos i hs hacc hc
    have hget : (h.bytes b).getD (off.toNat + i) 0 = x := by
      have := congrArg (fun l => l.getD 0 0) hs
      simpa using this
    have hi : off.toNat + i < (h.bytes b).length := by
      by_contra hge
      rw [List.drop_eq_nil_of_le (by omega)] at hs
      cases hs
    have hnext : (h.bytes b).drop (off.toNat + (i + 1)) = content ++ todo := by
      have := congrArg (fun l => l.drop 1) hs
      simpa [Nat.add_assoc] using this
    have hlen : (acc ++ hexByte x).length = 1 + 2 * (i + 1) := by
      simp only [List.length_append, hacc, hexByte, List.length_cons, List.length_nil]
      omega
    have hrest := ih buf (acc ++ hexByte x) [0] todo pos (i + 1) hnext hlen le_rfl
    have hpos : pos + 1 + i * 2 = pos + acc.length := by omega
    have hend : i + (content.length + 1) = i + 1 + content.length := by omega
    simp only [List.length_cons, writeHex, if_pos (And.intro hoff hi), hget, hpos, hend, bind_assoc]
    rw [store_store_bind (by simp [hexByte]; omega), ← List.append_assoc, hrest,
      List.flatMap_cons, List.append_assoc, List.append_assoc]

theorem bytes_maxBytes {len : ℕ} (hlen : len < 2 ^ 31) (h6 : 6 < s) (hs : s < 2 ^ 31) :
    ((((min (BitVec.ofNat 64 len * 2 + 3).toNat (toSizeT ((s : ℤ) - 1)) : ℕ) : ℤ) - 3).tdiv 2
      % 2 ^ 32).toNat = min len ((s - 4) / 2) := by
  have hsize : (BitVec.ofNat 64 len * 2 + 3).toNat = len * 2 + 3 := by
    have : (BitVec.ofNat 64 len).toNat = len := by
      rw [BitVec.toNat_ofNat, Nat.mod_eq_of_lt (by omega)]
    bv_omega
  have hbuf : toSizeT ((s : ℤ) - 1) = s - 1 := by
    rw [← Nat.cast_one, ← Nat.cast_sub (by omega), toSizeT_of_lt (by omega)]
  rw [hsize, hbuf]
  have hsub : ((min (len * 2 + 3) (s - 1) : ℕ) : ℤ) - 3 = ((min (len * 2) (s - 4) : ℕ) : ℤ) := by
    omega
  rw [hsub, Int.tdiv_eq_ediv_of_nonneg (by omega)]
  omega

/-- `TAG_BYTES`. -/
theorem puts_bytes {i b : ℕ} {off : ℤ} {content rest : List UInt8}
    (htag : (h.cells i).tag = tagBytes) (har : (h.cells i).ar = .ptr (.bytes b) off)
    (hoff : 0 ≤ off) (hb : (h.bytes b).drop off.toNat = content ++ rest)
    (hlen : content.length < 2 ^ 31) (hdr : (h.cells i).dr = .ofNat content.length)
    (hs : s < 2 ^ 31) :
    Puts (fun buf pos => write junk h (fuel + 1) (.cell i) buf pos inList s) True
      (if 6 < s then 2 * min content.length ((s - 4) / 2) + 2 else 0) := by
  by_cases h6 : 6 < s
  · rw [if_pos h6]
    generalize hm : min content.length ((s - 4) / 2) = m
    have hmax := bytes_maxBytes hlen h6 hs
    rw [hm] at hmax
    have htake : (content.take m).length = m := List.length_take_of_le (by omega)
    have hdrop : (h.bytes b).drop (off.toNat + 0) = content.take m ++ (content.drop m ++ rest) := by
      rw [Nat.add_zero, hb, ← List.append_assoc, List.take_append_drop]
    apply Puts.of_store trivial (ascii "[" ++ ((content.take m).flatMap hexByte ++ ascii "]"))
    · exact zero_notMem_append (by decide)
        (zero_notMem_append (zero_notMem_hex _) (by decide))
    · have hhex : ((content.take m).flatMap hexByte).length = m * 2 := by
        simp only [List.length_flatMap, hexByte, List.length_cons, List.length_nil, List.map_const',
          List.sum_replicate, htake]
        rfl
      simp only [List.length_append, hhex]
      show 1 + (m * 2 + 1) = 2 * m + 2
      omega
    · intro buf pos
      have hloop := writeHex_close hoff (content.take m) buf (ascii "[") [] _ pos 0 hdrop rfl (by simp)
      rw [htake, Nat.zero_add] at hloop
      have hcell : ∀ b₀ : List UInt8,
          writeCell junk h fuel (write junk h fuel) (h.cells i) b₀ pos inList ((s : ℤ) - 1) =
            (store b₀ (pos + 0) (ascii "[") >>= fun b₁ =>
              writeHex h (.ptr (.bytes b) off) pos 0 m b₁ >>= fun b₂ =>
                store b₂ (pos + m * 2 + 1) (ascii "]" ++ [0])) := by
        intro b₀
        have h5 : (s : ℤ) - 1 > 5 := by omega
        have hbranch : writeCell junk h fuel (write junk h fuel) (h.cells i) b₀ pos inList
            ((s : ℤ) - 1) = writeBytes h (h.cells i) b₀ pos ((s : ℤ) - 1) := by
          simp [writeCell, htag]
        rw [hbranch, writeBytes, hdr, har]
        simp only [intOf, ok_bind, hmax, if_pos h5, Nat.add_zero]
      rw [write_cell_eq]
      simp only [hcell]
      rw [List.append_assoc, List.append_assoc, ← hloop]
      exact store_store_bind (a := []) (c := [0]) (d := ascii "[") le_rfl _
  · rw [if_neg h6]
    apply Puts.of_store trivial [] List.not_mem_nil rfl
    intro buf pos
    have hcell : ∀ b₀ : List UInt8,
        writeCell junk h fuel (write junk h fuel) (h.cells i) b₀ pos inList ((s : ℤ) - 1) =
          .ok b₀ := by
      intro b₀
      have h5 : ¬ (s : ℤ) - 1 > 5 := by omega
      simp [writeCell, htag, writeBytes, hdr, intOf, ok_bind, h5]
    rw [write_cell_eq]
    simp only [hcell]
    exact bind_pure _

/-! ### Lambdas -/

/-- `tmp_args` holds the beginning of the text `acc`. -/
def HoldsArgs (tmp acc tmpArgs : List UInt8) : Prop :=
  store tmp 0 (acc.take (tmpBufSize - 1) ++ [0]) = .ok tmpArgs

theorem HoldsArgs.read {tmp acc tmpArgs : List UInt8} (ha : HoldsArgs tmp acc tmpArgs)
    (hz : 0 ∉ acc) : cStringAt tmpArgs 0 = .ok (acc.take (tmpBufSize - 1)) :=
  cStringAt_store (a := []) ha (zero_notMem_take hz _)

/-- One parameter is appended, cut at the end of `tmp_args`. -/
theorem HoldsArgs.append {tmp acc tmpArgs : List UInt8} (ha : HoldsArgs tmp acc tmpArgs)
    (htmp : tmp.length = tmpBufSize) (hacc : acc.length ≤ tmpBufSize) (text : List UInt8) :
    ∃ next, snprintf tmpArgs acc.length ((tmpBufSize : ℤ) - acc.length) text = .ok next ∧
      HoldsArgs tmp (acc ++ text) next := by
  have hsize : toSizeT ((tmpBufSize : ℤ) - acc.length) = tmpBufSize - acc.length := by
    rw [← Nat.cast_sub hacc, toSizeT_of_lt (by unfold tmpBufSize; omega)]
  by_cases hfull : acc.length = tmpBufSize
  · refine ⟨tmpArgs, ?_, ?_⟩
    · rw [snprintf, hsize, if_pos (by omega)]
    · rw [HoldsArgs, List.take_append_of_le_length (by omega)]
      exact ha
  · have hlt : acc.length < tmpBufSize := by omega
    have htake : (acc ++ text).take (tmpBufSize - 1) =
        acc ++ text.take (tmpBufSize - acc.length - 1) := by
      rw [List.take_append, List.take_of_length_le (by omega)]
      congr 2
      omega
    have hboth : store tmp 0 (acc ++ (text.take (tmpBufSize - acc.length - 1) ++ [0])) =
        snprintf tmpArgs acc.length ((tmpBufSize : ℤ) - acc.length) text := by
      rw [HoldsArgs, List.take_of_length_le (by omega)] at ha
      have hc : [(0 : UInt8)].length ≤
          (text.take (tmpBufSize - acc.length - 1) ++ [0]).length := by simp
      rw [← store_store hc, ha, ok_bind, Nat.zero_add, snprintf, hsize, if_neg (by omega)]
    have hfit : 0 + (acc ++ (text.take (tmpBufSize - acc.length - 1) ++ [0])).length ≤
        tmp.length := by
      simp only [List.length_append, List.length_take, List.length_singleton, htmp]
      omega
    refine ⟨tmp.take 0 ++ ((acc ++ (text.take (tmpBufSize - acc.length - 1) ++ [0])) ++
      tmp.drop (0 + (acc ++ (text.take (tmpBufSize - acc.length - 1) ++ [0])).length)), ?_, ?_⟩
    · rw [← hboth, store, if_pos hfit]
    · rw [HoldsArgs, htake, List.append_assoc, store, if_pos hfit]

/-- A parameter that starts behind `tmp_args`: the remaining size is negative. -/
theorem snprintf_args_fault {tmpArgs text : List UInt8} {ai : ℕ}
    (hlen : tmpArgs.length = tmpBufSize) (hai : tmpBufSize < ai) (hint : ai < 2 ^ 31) :
    snprintf tmpArgs ai ((tmpBufSize : ℤ) - ai) text = .error .fault := by
  have hsize : toSizeT ((tmpBufSize : ℤ) - ai) ≠ 0 := by
    unfold toSizeT tmpBufSize at *
    omega
  rw [snprintf, if_neg hsize]
  apply store_fault
  simp only [List.length_append, List.length_singleton]
  omega

theorem le_paramsEnd (ps : List Param) : ∀ ai, ai ≤ paramsEnd ps ai := by
  induction ps with
  | nil => exact fun ai => le_rfl
  | cons p ps ih =>
    intro ai
    rw [paramsEnd]
    exact le_trans (by omega) (ih _)

/-- One round of the loop over the parameters. -/
theorem writeParams_succ {p : Param} {ps : List Param} {args : Word} {tmpArgs : List UInt8} {ai : ℕ}
    (hps : ShowsParams h (p :: ps) args) :
    ∃ rest, ShowsParams h ps rest ∧ writeParams h (fuel + 1) args tmpArgs ai =
      (snprintf tmpArgs ai ((tmpBufSize : ℤ) - ai) (if ai ≠ 0 then ascii " " ++ p.text else p.text)
        >>= fun tmp => writeParams h fuel rest tmp
          (ai + (if ai ≠ 0 then ascii " " ++ p.text else p.text).length)) := by
  rw [ShowsParams] at hps
  obtain ⟨i, j, rfl, hcar, hp, hrest⟩ := hps
  refine ⟨(h.cells i).dr, hrest, ?_⟩
  have hargs : car h (.cell i) = .ok (h.cells i).ar := rfl
  have hcell : cellAt h (.cell j) = .ok (h.cells j) := rfl
  have hnull : ¬ ((Word.cell i = .null) ∨ Word.cell j = .null) := by simp
  have hcdr : cdr h (.cell i) = .ok (h.cells i).dr := rfl
  cases p with
  | untyped name =>
    rw [ShowsParam] at hp
    obtain ⟨htag, hname⟩ := hp
    simp only [writeParams, hargs, hcar, ok_bind, if_neg hnull, hcell, if_neg htag, hname, hcdr,
      Param.text]
  | typed name type =>
    rw [ShowsParam] at hp
    obtain ⟨htag, n, w, t, hn, hname, hw, ht, htype⟩ := hp
    have hcarj : car h (.cell j) = .ok (h.cells j).ar := rfl
    have hcdrj : cdr h (.cell j) = .ok (h.cells j).dr := rfl
    simp only [writeParams, hargs, hcar, ok_bind, if_neg hnull, hcell, if_pos htag, hcarj, hn,
      hname, hcdrj, hw, ht, htype, hcdr, Param.text]

theorem zero_notMem_param {p : Param} {c : Cell} (hp : ShowsParam h p c) : 0 ∉ p.text := by
  cases p with
  | untyped name =>
    rw [ShowsParam] at hp
    exact zero_notMem_cString hp.2
  | typed name type =>
    rw [ShowsParam] at hp
    obtain ⟨-, n, w, t, -, hname, -, -, htype⟩ := hp
    have ha : (0 : UInt8) ∉ ascii "(" ∧ (0 : UInt8) ∉ ascii " " ∧ (0 : UInt8) ∉ ascii ")" := by
      decide
    simp [Param.text, ha, zero_notMem_cString hname, zero_notMem_cString htype]

/-- The loop over the parameters fills `tmp_args`, or runs behind it. -/
theorem writeParams_spec {tmp : List UInt8} (htmp : tmp.length = tmpBufSize) (ps : List Param) :
    ∀ (fuel : ℕ) (args : Word) (acc tmpArgs : List UInt8), ShowsParams h ps args →
      ps.length < fuel → paramsEnd ps acc.length < 2 ^ 31 → 0 ∉ acc → HoldsArgs tmp acc tmpArgs →
      (TidyParams ps acc.length → ∃ full next, 0 ∉ full ∧
        full.length = paramsEnd ps acc.length ∧ HoldsArgs tmp full next ∧
        writeParams h fuel args tmpArgs acc.length = .ok next) ∧
      (¬ TidyParams ps acc.length →
        writeParams h fuel args tmpArgs acc.length = .error .fault) := by
  induction ps with
  | nil =>
    intro fuel args acc tmpArgs hps hfuel _ hz ha
    obtain ⟨fuel, rfl⟩ : ∃ k, fuel = k + 1 := ⟨fuel - 1, by simp at hfuel; omega⟩
    rw [ShowsParams] at hps
    obtain ⟨a, hargs, hcar⟩ := hps
    refine ⟨fun _ => ⟨acc, tmpArgs, hz, rfl, ha, ?_⟩, fun hnot => absurd trivial hnot⟩
    simp [writeParams, hargs, hcar, ok_bind]
  | cons p ps ih =>
    intro fuel args acc tmpArgs hps hfuel hint hz ha
    obtain ⟨fuel, rfl⟩ : ∃ k, fuel = k + 1 := ⟨fuel - 1, by simp at hfuel; omega⟩
    have hpz : 0 ∉ p.text := by
      rw [ShowsParams] at hps
      obtain ⟨i, j, -, -, hp, -⟩ := hps
      exact zero_notMem_param hp
    obtain ⟨rest, hrest, hstep⟩ := @writeParams_succ h fuel p ps args tmpArgs acc.length hps
    rw [paramsEnd] at hint
    rw [hstep, TidyParams, paramsEnd]
    generalize htext : (if acc.length ≠ 0 then ascii " " ++ p.text else p.text) = text
    have hlen : text.length = (if acc.length ≠ 0 then 1 else 0) + p.text.length := by
      rw [← htext]
      split_ifs
      · simp [ascii]
        omega
      · simp
    have htz : 0 ∉ text := by
      rw [← htext]
      split_ifs
      · exact zero_notMem_append (by decide) hpz
      · exact hpz
    rw [← hlen] at hint ⊢
    by_cases hacc : acc.length ≤ tmpBufSize
    · obtain ⟨next, hnext, hholds⟩ := ha.append htmp hacc text
      rw [hnext, ok_bind, ← List.length_append]
      rw [← List.length_append] at hint
      have hih := ih fuel rest (acc ++ text) next hrest (by simp at hfuel; omega) hint
        (zero_notMem_append hz htz) hholds
      exact ⟨fun htidy => hih.1 htidy.2, fun hnot => hih.2 fun htidy => hnot ⟨hacc, htidy⟩⟩
    · refine ⟨fun htidy => absurd htidy.1 hacc, fun _ => ?_⟩
      have hargs : tmpArgs.length = tmpBufSize := (store_length ha).trans htmp
      have hbound : acc.length + text.length < 2 ^ 31 := lt_of_le_of_lt (le_paramsEnd _ _) hint
      rw [snprintf_args_fault hargs (by omega) (by omega)]
      rfl

/-- `TAG_LAMBDA`. -/
theorem puts_lambda {i : ℕ} {params : List Param} {args code : Word} {tidy : Prop} {n : ℕ}
    (htag : (h.cells i).tag = tagLambda) (hcar : car h (h.cells i).ar = .ok args)
    (hps : ShowsParams h params args) (hint : paramsEnd params 0 < 2 ^ 31)
    (hcdr : cdr h (h.cells i).ar = .ok code) (hfuel : params.length < fuel)
    (hb : Puts (fun buf pos => write junk h fuel code buf pos false tmpBufSize) tidy n) :
    Puts (fun buf pos => write junk h (fuel + 1) (.cell i) buf pos inList s)
      (TidyParams params 0 ∧ tidy ∧ n < tmpBufSize * 2)
      (cut s (min (paramsEnd params 0) (tmpBufSize - 1) + n + 6)) := by
  have htmp : ((List.range tmpBufSize).map junk).length = tmpBufSize := by simp
  have hbody : ((List.range (tmpBufSize * 2)).map junk).length = tmpBufSize * 2 := by simp
  obtain ⟨tmpArgs, hargs, -⟩ := @store_zero ((List.range tmpBufSize).map junk) []
    (by rw [htmp]; decide) List.not_mem_nil
  have hcell : ∀ (b : List UInt8) (pos : ℕ) (k : ℤ),
      writeCell junk h fuel (write junk h fuel) (h.cells i) b pos inList k =
        (writeParams h fuel args tmpArgs 0 >>= fun tmpArgs =>
          write junk h fuel code ((List.range (tmpBufSize * 2)).map junk) 0 false tmpBufSize >>=
            fun tmpBody => cStringAt tmpArgs 0 >>= fun a => cStringAt tmpBody 0 >>= fun t =>
              snprintf b pos k (ascii "(fn " ++ (a ++ (ascii " " ++ (t ++ ascii ")"))))) := by
    intro b pos k
    have hbranch : writeCell junk h fuel (write junk h fuel) (h.cells i) b pos inList k =
        writeLambda junk h fuel (write junk h fuel) (h.cells i) b pos k := by
      simp [writeCell, htag]
    rw [List.nil_append] at hargs
    rw [hbranch, writeLambda, hargs]
    simp only [ok_bind, hcar, hcdr]
  obtain ⟨hok, hfault⟩ := writeParams_spec htmp params fuel args [] tmpArgs hps hfuel hint
    List.not_mem_nil hargs
  by_cases hparams : TidyParams params 0
  · obtain ⟨full, next, hz, hlen, hholds, hrun⟩ := hok hparams
    by_cases htidy : tidy ∧ n < tmpBufSize * 2
    · obtain ⟨text, htz, htlen, hstore⟩ := hb.stores htidy.1
      obtain ⟨b, hbOk, hread⟩ := @store_zero ((List.range (tmpBufSize * 2)).map junk) text
        (by rw [hbody]; omega) htz
      have hbodyRun := hstore ((List.range (tmpBufSize * 2)).map junk) 0
      rw [hbOk] at hbodyRun
      have htake := zero_notMem_take hz (tmpBufSize - 1)
      have hp := @puts_snprintf
        (ascii "(fn " ++ (full.take (tmpBufSize - 1) ++ (ascii " " ++ (text ++ ascii ")"))))
        (TidyParams params 0 ∧ tidy ∧ n < tmpBufSize * 2) ⟨hparams, htidy⟩
        (zero_notMem_append (by decide) (zero_notMem_append htake
          (zero_notMem_append (by decide) (zero_notMem_append htz (by decide))))) s
      have hwidth : (ascii "(fn " ++ (full.take (tmpBufSize - 1) ++
          (ascii " " ++ (text ++ ascii ")")))).length =
          min (paramsEnd params 0) (tmpBufSize - 1) + n + 6 := by
        simp only [List.length_append, List.length_take, hlen, htlen, List.length_nil]
        show 4 + (_ + (1 + (n + 1))) = _
        omega
      rw [hwidth] at hp
      refine Puts.congr ?_ hp
      intro buf pos
      rw [write_cell_eq]
      simp only [List.length_nil] at hrun
      simp only [hcell, hrun, ok_bind, hbodyRun, hholds.read hz, hread]
    · refine ⟨fun hall => absurd hall.2 htidy, fun _ buf pos => ?_⟩
      have hbodyFault : write junk h fuel code ((List.range (tmpBufSize * 2)).map junk) 0 false
          tmpBufSize = .error .fault := by
        by_cases ht : tidy
        · obtain ⟨text, -, htlen, hstore⟩ := hb.stores ht
          have hover : ¬ n < tmpBufSize * 2 := fun hn => htidy ⟨ht, hn⟩
          rw [hstore]
          apply store_fault
          simp only [hbody, List.length_append, htlen, List.length_singleton]
          omega
        · exact hb.faults ht _ _
      rw [write_cell_eq]
      simp only [List.length_nil] at hrun
      simp only [hcell, hrun, ok_bind, hbodyFault]
      exact store_bind_fault
  · refine ⟨fun hall => absurd hall.1 hparams, fun _ buf pos => ?_⟩
    rw [write_cell_eq]
    simp only [List.length_nil] at hfault
    simp only [hcell, hfault hparams]
    exact store_bind_fault

/-! ### Vectors, structs and struct definitions -/

/-- The loop over the elements, which still have to be printed, and the closing
    parenthesis, behind the text `acc` that is stored already. -/
def putElems (junk : ℕ → UInt8) (h : Heap) (fuel loop : ℕ) (vec : Word) (elements : ℤ)
    (bufsize i : ℕ) (acc c buf : List UInt8) (start : ℕ) : Except Stop (List UInt8) :=
  store buf start (acc ++ c) >>= fun b =>
    writeElems h (write junk h fuel) vec start elements bufsize loop i acc.length b >>= fun r =>
      store r.2 (start + r.1) (ascii ")" ++ [0])

theorem putElems_stop {loop : ℕ} {vec : Word} {elements : ℤ} {bufsize i : ℕ} {acc c : List UInt8}
    (hstop : ¬ ((i : ℤ) < elements ∧ acc.length + 1 < bufsize)) (hc : c.length ≤ 1)
    (hz : 0 ∉ acc) {tidy : Prop} (htidy : tidy) :
    Puts (putElems junk h fuel (loop + 1) vec elements bufsize i acc c) tidy (acc.length + 1) := by
  apply Puts.of_store htidy (acc ++ ascii ")") (zero_notMem_append hz (by decide))
  · rw [List.length_append]
    rfl
  · intro buf start
    have hcond : ¬ ((i : ℤ) < elements ∧ (acc.length : ℤ) < (bufsize : ℤ) - 1) := by
      intro hgo
      exact hstop ⟨hgo.1, by omega⟩
    simp only [putElems, writeElems, if_neg hcond, ok_bind]
    rw [List.append_assoc]
    apply store_store
    simp [ascii]
    omega

/-- One element: it is printed behind `acc`, and a space after it. -/
theorem putElems_next {loop : ℕ} {vec : Word} {elements : ℤ} {bufsize i : ℕ} {acc c text : List UInt8}
    {start : ℕ} {buf : List UInt8} {w : Word}
    (hgo : (i : ℤ) < elements ∧ acc.length + 1 < bufsize) (hc : c.length ≤ 1) (hz : 0 ∉ text)
    (hw : elemAt h vec i = .ok w)
    (hstore : ∀ b pos, write junk h fuel w b pos false ((bufsize - acc.length : ℕ) : ℤ) =
      store b pos (text ++ [0])) :
    putElems junk h fuel (loop + 1) vec elements bufsize i acc c buf start =
      putElems junk h fuel loop vec elements bufsize (i + 1) (acc ++ (text ++ ascii " ")) [] buf
        start := by
  have hcond : (i : ℤ) < elements ∧ (acc.length : ℤ) < (bufsize : ℤ) - 1 :=
    ⟨hgo.1, by omega⟩
  have hsize : (bufsize : ℤ) - acc.length = ((bufsize - acc.length : ℕ) : ℤ) := by omega
  have hpos : start + (acc.length + text.length) = start + (acc ++ text).length := by
    rw [List.length_append]
  have hnext : acc.length + text.length + 1 = (acc ++ (text ++ ascii " ")).length := by
    simp only [List.length_append]
    show _ = _ + (_ + 1)
    omega
  simp only [putElems, writeElems, if_pos hcond, hw, ok_bind, hsize, hstore, bind_assoc]
  rw [store_store_bind (by simp; omega)]
  rw [store_cStringAt hz]
  simp only [hpos, hnext, ← List.append_assoc]
  rw [store_store_bind (by simp [ascii])]
  simp only [List.append_assoc, List.append_nil]

/-- The part of the branch before the loop. -/
theorem puts_vec {i first : ℕ} {size : BitVec 64} {head : List UInt8} {tidy : Prop} {n : ℕ}
    (htag : (h.cells i).tag = tagVec ∨ (h.cells i).tag = tagStruct ∨
      (h.cells i).tag = tagStructDef) (hdr : (h.cells i).dr = .int size)
    (hhead : vecHead h (h.cells i) = .ok (head, first))
    (hloop : ∀ c : List UInt8, c.length ≤ 1 → Puts (putElems junk h fuel fuel (h.cells i).ar
      (toInt32 size.toNat) (s - 1) first (ascii "(" ++ head) c) tidy n) :
    Puts (fun buf pos => write junk h (fuel + 1) (.cell i) buf pos inList s) (13 < s → tidy)
      (if 13 < s then n else 0) := by
  have hbranch : ∀ (b : List UInt8) (pos : ℕ) (k : ℤ),
      writeCell junk h fuel (write junk h fuel) (h.cells i) b pos inList k =
        writeVec h fuel (write junk h fuel) (h.cells i) b pos k := by
    intro b pos k
    obtain htag | htag | htag := htag
    all_goals simp [writeCell, htag]
  by_cases h13 : 13 < s
  · have hsize : (s : ℤ) - 1 = ((s - 1 : ℕ) : ℤ) := by omega
    have hlen : 1 + head.length = (ascii "(" ++ head).length := by
      rw [List.length_append]
      rfl
    have heq : ∃ c : List UInt8, c.length ≤ 1 ∧ ∀ buf pos,
        write junk h (fuel + 1) (.cell i) buf pos inList s =
          putElems junk h fuel fuel (h.cells i).ar (toInt32 size.toNat) (s - 1) first
            (ascii "(" ++ head) c buf pos := by
      have h12 : ((s - 1 : ℕ) : ℤ) > 12 := by omega
      by_cases hnil : head = []
      · refine ⟨[], by simp, fun buf pos => ?_⟩
        rw [write_cell_eq, putElems]
        simp only [hbranch, writeVec, hdr, intOf, ok_bind, hsize, if_pos h12, hhead, hlen,
          if_pos hnil]
        rw [hnil]
        exact store_store_bind (a := []) (c := [0]) (d := ascii "(") le_rfl _
      · refine ⟨[0], by simp, fun buf pos => ?_⟩
        rw [write_cell_eq, putElems]
        simp only [hbranch, writeVec, hdr, intOf, ok_bind, hsize, if_pos h12, hhead, hlen,
          if_neg hnil]
        have hopen : ∀ f : List UInt8 → Except Stop (List UInt8),
            (store buf pos [0] >>= fun b => store b pos (ascii "(") >>= f) =
              (store buf pos (ascii "(") >>= f) :=
          store_store_bind (a := []) (c := [0]) (d := ascii "(") le_rfl
        rw [hopen, List.append_assoc]
        exact store_store_bind (a := ascii "(") (c := []) (by simp) _
    obtain ⟨c, hc, heq⟩ := heq
    have hp := Puts.congr heq (hloop c hc)
    rw [if_pos h13]
    exact ⟨fun ht => hp.stores (ht h13), fun hnot => hp.faults fun ht => hnot fun _ => ht⟩
  · rw [if_neg h13]
    apply Puts.of_store (fun h => absurd h h13) [] List.not_mem_nil rfl
    intro buf pos
    have h12 : ¬ (s : ℤ) - 1 > 12 := by omega
    rw [write_cell_eq]
    simp only [hbranch, writeVec, hdr, intOf, ok_bind, if_neg h12]
    exact bind_pure _

/-! ## Every tree -/

theorem length_le_depthAll (ts : List Tree) : ts.length ≤ depthAll ts := by
  induction ts with
  | nil => exact Nat.zero_le _
  | cons t ts ih =>
    rw [depthAll, List.length_cons]
    omega

mutual

/-- **A call of `write_` is one store.** On the cells of a tree it stores a
    NUL-free text of the tree's width and its NUL, or faults because of a
    temporary buffer. -/
theorem write_puts : ∀ (t : Tree) {w : Word} {fuel s : ℕ} {inList : Bool}, Shows h t w →
    depth t ≤ fuel → s < 2 ^ 31 →
    Puts (fun buf pos => write junk h fuel w buf pos inList s) (Tidy t s) (width t inList s)
  | .plain text, w, fuel, s, inList, hw, hf, _ => by
    rw [depth] at hf
    obtain ⟨fuel, rfl⟩ : ∃ k, fuel = k + 1 := ⟨fuel - 1, by omega⟩
    rw [Shows] at hw
    rw [Tidy, width]
    exact puts_plain hw
  | .nil, w, fuel, s, inList, hw, hf, _ => by
    rw [depth] at hf
    obtain ⟨fuel, rfl⟩ : ∃ k, fuel = k + 1 := ⟨fuel - 1, by omega⟩
    rw [Shows] at hw
    obtain ⟨i, rfl, hi⟩ := hw
    rw [Tidy, width]
    exact puts_nil hi
  | .cons a d, w, fuel, s, inList, hw, hf, _ => by
    rw [depth] at hf
    obtain ⟨fuel, rfl⟩ : ∃ k, fuel = k + 1 := ⟨fuel - 1, by omega⟩
    rw [Shows] at hw
    obtain ⟨i, rfl, htag, hne, ha, hd⟩ := hw
    rw [Tidy, width]
    exact puts_cons htag hne (isConsPtr_shows hd) (write_puts a ha (by omega) (by decide))
      (write_puts d hd (by omega) (by decide))
  | .str text size, w, fuel, s, inList, hw, hf, _ => by
    rw [depth] at hf
    obtain ⟨fuel, rfl⟩ : ∃ k, fuel = k + 1 := ⟨fuel - 1, by omega⟩
    rw [Shows] at hw
    obtain ⟨i, rfl, htag, har, hdr, -⟩ := hw
    rw [Tidy, width]
    exact puts_str htag har hdr
  | .bytes content, w, fuel, s, inList, hw, hf, hs => by
    rw [depth] at hf
    obtain ⟨fuel, rfl⟩ : ∃ k, fuel = k + 1 := ⟨fuel - 1, by omega⟩
    rw [Shows] at hw
    obtain ⟨i, b, off, rest, rfl, htag, har, hoff, hb, hlen, hdr⟩ := hw
    rw [Tidy, width]
    exact puts_bytes htag har hoff hb hlen hdr hs
  | .lambda params body, w, fuel, s, inList, hw, hf, _ => by
    rw [depth] at hf
    obtain ⟨fuel, rfl⟩ : ∃ k, fuel = k + 1 := ⟨fuel - 1, by omega⟩
    rw [Shows] at hw
    obtain ⟨i, args, code, rfl, htag, hcar, hps, hint, hcdr, hbody⟩ := hw
    rw [Tidy, width]
    exact puts_lambda htag hcar hps hint hcdr (by omega)
      (write_puts body hbody (by omega) (by decide))
  | .vec head elements, w, fuel, s, inList, hw, hf, hs => by
    rw [depth] at hf
    obtain ⟨fuel, rfl⟩ : ∃ k, fuel = k + 1 := ⟨fuel - 1, by omega⟩
    rw [Shows] at hw
    obtain ⟨i, size, first, rfl, htag, hdr, hhead, hlen, hall⟩ := hw
    rw [Tidy, width]
    have hacc : 1 + head.length = (ascii "(" ++ head).length := by
      rw [List.length_append]
      rfl
    have hz : 0 ∉ ascii "(" ++ head := zero_notMem_append (by decide) (zero_notMem_vecHead hhead)
    apply puts_vec htag hdr hhead
    intro c hc
    rw [hacc]
    exact putElems_puts elements hall (by omega) (by have := length_le_depthAll elements; omega)
      hlen (by omega) hc hz

/-- The same for the rest of the elements of a vector. -/
theorem putElems_puts : ∀ (ts : List Tree) {vec : Word} {fuel loop : ℕ} {elements : ℤ}
    {bufsize i : ℕ} {acc c : List UInt8}, ShowsAll h ts vec i → depthAll ts ≤ fuel →
    ts.length < loop → ts.length = (elements - i).toNat → bufsize < 2 ^ 31 → c.length ≤ 1 →
    0 ∉ acc →
    Puts (putElems junk h fuel loop vec elements bufsize i acc c) (TidyAll ts bufsize acc.length)
      (widthAll ts bufsize acc.length + 1)
  | [], vec, fuel, loop, elements, bufsize, i, acc, c, _, _, hloop, hlen, _, hc, hz => by
    obtain ⟨loop, rfl⟩ : ∃ k, loop = k + 1 := ⟨loop - 1, by omega⟩
    simp only [List.length_nil] at hlen
    rw [TidyAll, widthAll]
    exact putElems_stop (fun hgo => by omega) hc hz trivial
  | t :: ts, vec, fuel, loop, elements, bufsize, i, acc, c, hall, hf, hloop, hlen, hbuf, hc, hz => by
    obtain ⟨loop, rfl⟩ : ∃ k, loop = k + 1 := ⟨loop - 1, by omega⟩
    rw [ShowsAll] at hall
    obtain ⟨w, hw, ht, hts⟩ := hall
    rw [depthAll] at hf
    simp only [List.length_cons] at hlen hloop
    rw [TidyAll, widthAll]
    by_cases hroom : acc.length + 1 < bufsize
    · have hp : Puts (fun buf pos => write junk h fuel w buf pos false
          ((bufsize - acc.length : ℕ) : ℤ)) (Tidy t (bufsize - acc.length))
          (width t false (bufsize - acc.length)) := write_puts t ht (by omega) (by omega)
      rw [if_pos hroom]
      by_cases htidy : Tidy t (bufsize - acc.length)
      · obtain ⟨text, htz, htlen, hstore⟩ := hp.stores htidy
        have hih : Puts (putElems junk h fuel loop vec elements bufsize (i + 1)
            (acc ++ (text ++ ascii " ")) []) _ _ :=
          putElems_puts ts hts (by omega) (by omega) (by omega) hbuf (by simp)
            (zero_notMem_append hz (zero_notMem_append htz (by decide)))
        have hnext : (acc ++ (text ++ ascii " ")).length =
            acc.length + width t false (bufsize - acc.length) + 1 := by
          simp only [List.length_append, htlen]
          show _ + (_ + 1) = _
          omega
        rw [hnext] at hih
        have hp' := Puts.congr (fun buf start => putElems_next ⟨by omega, hroom⟩ hc htz hw hstore) hih
        exact ⟨fun hall => hp'.stores (hall hroom).2,
          fun hnot => hp'.faults fun hts => hnot fun _ => ⟨htidy, hts⟩⟩
      · refine ⟨fun hall => absurd (hall hroom).1 htidy, fun _ buf start => ?_⟩
        have hcond : (i : ℤ) < elements ∧ (acc.length : ℤ) < (bufsize : ℤ) - 1 :=
          ⟨by omega, by omega⟩
        have hsize : (bufsize : ℤ) - acc.length = ((bufsize - acc.length : ℕ) : ℤ) := by omega
        have hfault := hp.faults htidy
        simp only [putElems, writeElems, if_pos hcond, hw, ok_bind, hsize, hfault]
        exact store_bind_fault
    · rw [if_neg hroom]
      exact putElems_stop (fun hgo => hroom hgo.2) hc hz fun hgo => absurd hgo hroom

end

end Branches

/-! ## `lisp_write_to_cell` -/

/-- A string or bytes cell as the allocators make it: size `n`, and storage of
    `n + 1` bytes, which `bytes_alloc` takes as an `int`. -/
structure BufferCell (h : Heap) (bufferCell : Word) (b n : ℕ) : Prop where
  cell : ∃ i, bufferCell = .cell i ∧
    ((h.cells i).tag = tagStr ∨ (h.cells i).tag = tagBytes) ∧
    (h.cells i).ar = .ptr (.bytes b) 0 ∧ (h.cells i).dr = .ofNat n
  storage : (h.bytes b).length = n + 1
  int : n + 1 < 2 ^ 31

/-- The call returns, so that no store left its buffer; it changed nothing but
    the `n + 1` bytes of the storage, and there is a NUL among them. -/
def WritesInside (junk : ℕ → UInt8) (h : Heap) (w bufferCell : Word) (b n : ℕ) : Prop :=
  ∃ fuel₀, ∀ fuel, fuel₀ ≤ fuel → ∃ out, out.length = n + 1 ∧ 0 ∈ out ∧
    lispWriteToCell junk h fuel w bufferCell = .ok (h.setBytes b out)

section WriteToCell

variable {junk : ℕ → UInt8} {h : Heap} {w bufferCell : Word} {b n : ℕ}

theorem lispWriteToCell_eq (hbuf : BufferCell h bufferCell b n) (fuel : ℕ) :
    lispWriteToCell junk h fuel w bufferCell =
      (write junk h fuel w (h.bytes b) 0 false n >>= fun out => .ok (h.setBytes b out)) := by
  obtain ⟨i, rfl, htag, har, hdr⟩ := hbuf.cell
  have hint := hbuf.int
  have hcell : cellAt h (.cell i) = .ok (h.cells i) := rfl
  have hsize : toInt32 (BitVec.ofNat 64 n).toNat = n := by
    rw [BitVec.toNat_ofNat, Nat.mod_eq_of_lt (by omega), toInt32_of_lt (by omega)]
  simp only [lispWriteToCell, hcell, ok_bind, if_pos htag, har, if_true, hdr, intOf, hsize, lispWrite]

theorem cut_le_iff (hn : n < 2 ^ 31) (len : ℕ) : cut n len ≤ n ↔ (n = 0 → len = 0) := by
  unfold cut toSizeT
  omega

theorem width_le_iff_fits {t : Tree} (ht : Shows h t w) (hn : n < 2 ^ 31) :
    width t false n ≤ n ↔ Fits t n := by
  cases t with
  | plain text =>
    rw [width, Fits, cut_le_iff hn, List.length_eq_zero_iff]
  | nil =>
    rw [width, Fits]
    simp [cut_le_iff hn]
  | cons a d =>
    rw [width, Fits, cut_le_iff hn]
    split_ifs <;> simp_all
  | str text size =>
    rw [Shows] at ht
    obtain ⟨i, -, -, -, -, hsize⟩ := ht
    have h3 : (size + 3).toNat = size.toNat + 3 := by bv_omega
    rw [width, Fits, h3]
    unfold toSizeT
    omega
  | bytes content =>
    rw [width, Fits]
    split_ifs
    · simp only [iff_true]
      omega
    · simp
  | lambda params body =>
    rw [width, Fits, cut_le_iff hn]
    simp
  | vec head elements =>
    rw [width, Fits]
    split_ifs with h13
    · simp only [h13, true_imp_iff]
      omega
    · simp [h13]

/-- **When the writer stays in its buffers.** For a tree whose texts lie outside
    the storage of the buffer cell, `lisp_write_to_cell` writes only inside that
    storage and inside its temporary buffers exactly when the temporary buffers
    are large enough and the text fits. -/
theorem lispWriteToCell_bounded_iff (junk : ℕ → UInt8) (h : Heap) (t : Tree) (w bufferCell : Word)
    (b n : ℕ) (hbuf : BufferCell h bufferCell b n)
    (hshows : ∀ out, Shows (h.setBytes b out) t w) :
    WritesInside junk h w bufferCell b n ↔ Tidy t n ∧ Fits t n := by
  have hint := hbuf.int
  have hself : h.setBytes b (h.bytes b) = h := by
    simp [Heap.setBytes]
  have ht : Shows h t w := by
    have := hshows (h.bytes b)
    rwa [hself] at this
  have hputs : ∀ fuel, depth t ≤ fuel →
      Puts (fun buf pos => write junk h fuel w buf pos false n) (Tidy t n) (width t false n) :=
    fun fuel hf => write_puts t ht hf (by omega)
  rw [← width_le_iff_fits ht (by omega)]
  constructor
  · rintro ⟨fuel₀, hrun⟩
    obtain ⟨out, -, -, hok⟩ := hrun (max fuel₀ (depth t)) (Nat.le_max_left _ _)
    have hp := hputs (max fuel₀ (depth t)) (Nat.le_max_right _ _)
    rw [lispWriteToCell_eq hbuf] at hok
    obtain ⟨buf', hwrite, -⟩ := bind_ok.mp hok
    have htidy : Tidy t n := by
      by_contra hnot
      have hfault := hp.faults hnot (h.bytes b) 0
      rw [hwrite] at hfault
      cases hfault
    refine ⟨htidy, ?_⟩
    obtain ⟨text, -, hlen, hstore⟩ := hp.stores htidy
    by_contra hover
    have hfault : store (h.bytes b) 0 (text ++ [0]) = .error .fault := by
      apply store_fault
      rw [hbuf.storage, List.length_append, hlen, List.length_singleton]
      omega
    have hwrite' := hstore (h.bytes b) 0
    rw [hwrite, hfault] at hwrite'
    cases hwrite'
  · rintro ⟨htidy, hwidth⟩
    refine ⟨depth t, fun fuel hf => ?_⟩
    obtain ⟨text, -, hlen, hstore⟩ := (hputs fuel hf).stores htidy
    have hfit : 0 + (text ++ [0]).length ≤ (h.bytes b).length := by
      rw [hbuf.storage, List.length_append, hlen, List.length_singleton]
      omega
    have hrun := hstore (h.bytes b) 0
    obtain ⟨out, hout⟩ : ∃ out, store (h.bytes b) 0 (text ++ [0]) = .ok out := by
      rw [store, if_pos hfit]
      exact ⟨_, rfl⟩
    refine ⟨out, ?_, ?_, ?_⟩
    · rw [store_length hout, hbuf.storage]
    · rw [store, if_pos hfit] at hout
      injection hout with hout
      simp [← hout]
    · rw [lispWriteToCell_eq hbuf, hrun, hout]
      rfl

/-- Cell 0 is the number 5, cell 1 a string of size `n` with `n + 1` bytes. -/
def fiveHeap (n : ℕ) : Heap :=
  ((Heap.init.setCell 0 ⟨.int 5, .null, tagInt⟩).setCell 1
    ⟨.ptr (.bytes 0) 0, .ofNat n, tagStr⟩).setBytes 0 (List.replicate (n + 1) 0)

theorem fiveHeap_bufferCell {n : ℕ} (hn : n + 1 < 2 ^ 31) :
    BufferCell (fiveHeap n) (.cell 1) 0 n where
  cell := ⟨1, rfl, Or.inl rfl, rfl, rfl⟩
  storage := by simp [fiveHeap]
  int := hn

theorem fiveHeap_shows (n : ℕ) (out : List UInt8) :
    Shows ((fiveHeap n).setBytes 0 out) (.plain (intText (5 : BitVec 64).toInt)) (.cell 0) := by
  rw [Shows]
  exact Plain.int rfl rfl

theorem lispWriteToCell_bounded_five :
    WritesInside (fun _ => 255) (fiveHeap 20) (.cell 0) (.cell 1) 0 20 := by
  apply (lispWriteToCell_bounded_iff (fun _ => 255) (fiveHeap 20)
    (.plain (intText (5 : BitVec 64).toInt)) (.cell 0) (.cell 1) 0 20
    (fiveHeap_bufferCell (by norm_num)) (fiveHeap_shows 20)).mpr
  rw [Tidy, Fits]
  exact ⟨trivial, fun h => absurd h (by norm_num)⟩

/-- The number 5 printed into a buffer cell of size 0: the limit `bufsize - 1`
    is the largest `size_t`. -/
theorem lispWriteToCell_overruns_empty :
    BufferCell (fiveHeap 0) (.cell 1) 0 0 ∧
      (∀ out, Shows ((fiveHeap 0).setBytes 0 out) (.plain (intText (5 : BitVec 64).toInt)) (.cell 0)) ∧
      ¬ WritesInside (fun _ => 255) (fiveHeap 0) (.cell 0) (.cell 1) 0 0 := by
  refine ⟨fiveHeap_bufferCell (by norm_num), fiveHeap_shows 0, ?_⟩
  rintro ⟨fuel₀, hrun⟩
  obtain ⟨out, -, -, hok⟩ := hrun (fuel₀ + 1) (Nat.le_succ _)
  have hfault : write (fun _ => 255) (fiveHeap 0) (fuel₀ + 1) (.cell 0) ((fiveHeap 0).bytes 0) 0
      false 0 = .error .fault := by
    have hplain : Plain (fiveHeap 0) (.cell 0) (intText (5 : BitVec 64).toInt) := Plain.int rfl rfl
    have hpos : 0 < (intText (5 : BitVec 64).toInt).length :=
      List.length_pos_of_ne_nil (intText_ne_nil _)
    rw [write_cell_eq]
    simp only [writeCell_plain hplain]
    rw [nul_snprintf]
    apply store_fault
    have hlimit : toSizeT (0 - 1) = 2 ^ 64 - 1 := rfl
    rw [hlimit, List.length_append, List.length_take, (fiveHeap_bufferCell (by norm_num)).storage]
    simp only [List.length_singleton]
    omega
  rw [lispWriteToCell_eq (fiveHeap_bufferCell (by norm_num)), Nat.cast_zero, hfault] at hok
  cases hok

end WriteToCell

end Interim.Writer
