import Mathlib.Tactic
import Mathlib.Data.List.Perm.Basic
import Mathlib.Data.Finset.Card

/-!
# Hash tables with chains

A table is a list of chains, and a key belongs to the chain its hash selects. A
chain is searched from its front and grows at its end.

* `get_put`: a table is a finite map.
* `mem_entries`, `keys_nodup`: going through the chains meets every binding once.
* `get_puts`, `card_puts`: after any sequence of insertions a key has its last
  value, and there are as many entries as different keys.
-/

namespace Chains

variable {K V : Type}

/-! ## Chains -/

section Chain

variable [DecidableEq K]

/-- The value of the first entry for `k`. -/
def find (k : K) (chain : List (K × V)) : Option V :=
  (chain.find? fun e => e.1 = k).map Prod.snd

/-- Overwrite the first entry for `k`, or append one. -/
def store (k : K) (v : V) : List (K × V) → List (K × V)
  | [] => [(k, v)]
  | e :: chain => if e.1 = k then (k, v) :: chain else e :: store k v chain

variable {k k' : K} {v : V} {chain : List (K × V)} {e : K × V}

@[simp] theorem find_nil : find k ([] : List (K × V)) = none := rfl

theorem find_cons : find k (e :: chain) = if e.1 = k then some e.2 else find k chain := by
  by_cases h : e.1 = k
  · simp [find, h]
  · simp [find, h]

/-- A chain without a key has no value for it. -/
theorem find_eq_none_iff : find k chain = none ↔ k ∉ chain.map Prod.fst := by
  induction chain with
  | nil => simp
  | cons e chain ih =>
    rw [find_cons, List.map_cons, List.mem_cons, not_or, ← ih]
    by_cases h : e.1 = k
    · simp [h]
    · simp [h, Ne.symm h]

theorem find_store : find k' (store k v chain) = if k' = k then some v else find k' chain := by
  induction chain with
  | nil =>
    rw [store, find_cons]
    by_cases h : k' = k
    · rw [if_pos h, if_pos h.symm]
    · rw [if_neg h, if_neg (Ne.symm h)]
  | cons e chain ih =>
    rw [store]
    by_cases he : e.1 = k
    · rw [if_pos he, find_cons, find_cons, he]
      by_cases h : k' = k
      · rw [if_pos h, if_pos h.symm]
      · rw [if_neg (Ne.symm h), if_neg h, if_neg (Ne.symm h)]
    · rw [if_neg he, find_cons, find_cons, ih]
      by_cases h : k' = k
      · rw [if_pos h, if_pos h, if_neg (by rw [h]; exact he)]
      · rw [if_neg h, if_neg h]

/-- Storing a value changes no key but `k`. -/
theorem keys_store : (store k v chain).map Prod.fst =
    if k ∈ chain.map Prod.fst then chain.map Prod.fst else chain.map Prod.fst ++ [k] := by
  induction chain with
  | nil => simp [store]
  | cons e chain ih =>
    rw [store]
    by_cases he : e.1 = k
    · simp [he]
    · rw [if_neg he, List.map_cons, ih, List.map_cons]
      by_cases hk : k ∈ chain.map Prod.fst
      · rw [if_pos hk, if_pos (List.mem_cons_of_mem _ hk)]
      · rw [if_neg hk, if_neg (by simp only [List.mem_cons, not_or]; exact ⟨Ne.symm he, hk⟩)]
        rfl

theorem nodup_store (h : (chain.map Prod.fst).Nodup) : ((store k v chain).map Prod.fst).Nodup := by
  rw [keys_store]
  split
  · exact h
  · rename_i hk
    rw [List.nodup_append']
    exact ⟨h, List.nodup_singleton k, List.disjoint_singleton.mpr hk⟩

/-- In a chain with each key once, the entries are what is found. -/
theorem mem_iff_find (h : (chain.map Prod.fst).Nodup) : (k, v) ∈ chain ↔ find k chain = some v := by
  induction chain with
  | nil => simp
  | cons e chain ih =>
    rw [List.map_cons, List.nodup_cons] at h
    rw [List.mem_cons, find_cons, ih h.2]
    by_cases he : e.1 = k
    · have hnone : find k chain = none := find_eq_none_iff.mpr (he ▸ h.1)
      rw [if_pos he, hnone, ← he]
      constructor
      · rintro (heq | heq)
        · rw [← heq]
        · exact absurd heq (by simp)
      · intro heq
        exact Or.inl (Prod.ext rfl (Option.some.inj heq).symm)
    · rw [if_neg he]
      exact or_iff_right fun heq => he (by rw [← heq])

end Chain

/-! ## Tables -/

variable (hash : K → ℕ)

/-- The chain of `k`. -/
def index (t : List (List (K × V))) (k : K) : ℕ := hash k % t.length

/-- All entries, chain by chain. -/
def entries (t : List (List (K × V))) : List (K × V) := t.flatten

/-- Every entry is in the chain of its key, and each key is there once. -/
structure WellFormed (t : List (List (K × V))) : Prop where
  nonempty : 0 < t.length
  placed : ∀ (i : ℕ) (chain : List (K × V)), t[i]? = some chain →
    ∀ k ∈ chain.map Prod.fst, index hash t k = i
  nodup : ∀ chain ∈ t, (chain.map Prod.fst).Nodup

section Table

variable {hash} {t : List (List (K × V))}

theorem wellFormed_replicate {n : ℕ} (hn : 0 < n) :
    WellFormed hash (List.replicate n ([] : List (K × V))) := by
  refine ⟨by rwa [List.length_replicate], fun i chain hi k hk => ?_, fun chain hc => ?_⟩
  · rw [List.eq_of_mem_replicate (List.mem_of_getElem? hi)] at hk
    exact absurd hk (by simp)
  · rw [List.eq_of_mem_replicate hc]
    exact List.nodup_nil

theorem index_lt (h : WellFormed hash t) (k : K) : index hash t k < t.length :=
  Nat.mod_lt _ h.nonempty

/-- Each key has one entry. -/
theorem keys_nodup (h : WellFormed hash t) : ((entries t).map Prod.fst).Nodup := by
  rw [entries, List.map_flatten, List.nodup_flatten]
  refine ⟨fun keys hkeys => ?_, ?_⟩
  · obtain ⟨chain, hc, rfl⟩ := List.mem_map.mp hkeys
    exact h.nodup chain hc
  · rw [List.pairwise_iff_getElem]
    intro i j hi hj hij k hki hkj
    rw [List.getElem_map] at hki hkj
    rw [List.length_map] at hi hj
    have h₁ := h.placed i t[i] (List.getElem?_eq_getElem hi) k hki
    have h₂ := h.placed j t[j] (List.getElem?_eq_getElem hj) k hkj
    omega

end Table

variable [DecidableEq K]

def get (t : List (List (K × V))) (k : K) : Option V := (t[index hash t k]?).bind (find k)

def put (t : List (List (K × V))) (k : K) (v : V) : List (List (K × V)) :=
  t.modify (index hash t k) (store k v)

variable {hash} {t : List (List (K × V))} {k k' : K} {v : V}

theorem length_put : (put hash t k v).length = t.length := List.length_modify ..

theorem index_put : index hash (put hash t k v) k' = index hash t k' := by
  rw [index, length_put, index]

theorem getElem?_put (i : ℕ) : (put hash t k v)[i]? =
    if index hash t k = i then t[i]?.map (store k v) else t[i]? := by
  rw [put, List.getElem?_modify]
  split
  · rfl
  · exact Option.map_id'

theorem WellFormed.put (h : WellFormed hash t) (k : K) (v : V) :
    WellFormed hash (put hash t k v) := by
  refine ⟨h.nonempty.trans_eq length_put.symm, fun i chain hi k' hk' => ?_, fun chain hc => ?_⟩
  · rw [index_put]
    rw [getElem?_put] at hi
    split at hi
    · rename_i hki
      obtain ⟨old, hold, rfl⟩ := Option.map_eq_some_iff.mp hi
      rw [keys_store] at hk'
      split at hk'
      · exact h.placed i old hold k' hk'
      · rcases List.mem_append.mp hk' with hk' | hk'
        · exact h.placed i old hold k' hk'
        · rw [List.mem_singleton.mp hk', hki]
    · exact h.placed i chain hi k' hk'
  · obtain ⟨i, hi⟩ := List.mem_iff_getElem?.mp hc
    rw [getElem?_put] at hi
    split at hi
    · obtain ⟨old, hold, rfl⟩ := Option.map_eq_some_iff.mp hi
      exact nodup_store (h.nodup old (List.mem_of_getElem? hold))
    · exact h.nodup chain (List.mem_of_getElem? hi)

/-- A table is a finite map. -/
theorem get_put (h : WellFormed hash t) :
    get hash (put hash t k v) k' = if k' = k then some v else get hash t k' := by
  rw [get, index_put, getElem?_put]
  have hlt := index_lt h k'
  rw [get, List.getElem?_eq_getElem hlt]
  by_cases hi : index hash t k = index hash t k'
  · rw [if_pos hi, Option.map_some, Option.bind_some, Option.bind_some, find_store]
  · rw [if_neg hi, if_neg fun heq => hi (by rw [heq])]

/-- The bindings of a table are its entries. -/
theorem mem_entries (h : WellFormed hash t) : (k, v) ∈ entries t ↔ get hash t k = some v := by
  have hlt := index_lt h k
  rw [entries, List.mem_flatten, get, List.getElem?_eq_getElem hlt, Option.bind_some]
  have hchain := h.nodup _ (List.getElem_mem hlt)
  rw [← mem_iff_find hchain]
  constructor
  · rintro ⟨chain, hc, hk⟩
    obtain ⟨i, hi⟩ := List.mem_iff_getElem?.mp hc
    have hplace := h.placed i chain hi k (List.mem_map.mpr ⟨(k, v), hk, rfl⟩)
    rw [← hplace, List.getElem?_eq_getElem hlt, Option.some.injEq] at hi
    rwa [hi]
  · exact fun hk => ⟨_, List.getElem_mem hlt, hk⟩

/-! ## Sequences of insertions -/

variable (hash) in
/-- One insertion after another. -/
def puts (ops : List (K × V)) (t : List (List (K × V))) : List (List (K × V)) :=
  ops.foldl (fun t op => put hash t op.1 op.2) t

/-- The last value for `k` among the insertions. -/
def lastFor (k : K) (ops : List (K × V)) : Option V := find k ops.reverse

theorem lastFor_append (ops later : List (K × V)) :
    lastFor k (ops ++ later) = (lastFor k later).or (lastFor k ops) := by
  rw [lastFor, List.reverse_append, find, List.find?_append, Option.map_or]
  rfl

theorem lastFor_cons (op : K × V) (ops : List (K × V)) : lastFor k (op :: ops) =
    (lastFor k ops).or (if op.1 = k then some op.2 else none) := by
  change lastFor k ([op] ++ ops) = _
  rw [lastFor_append]
  congr 1
  exact find_cons

theorem WellFormed.puts (h : WellFormed hash t) (ops : List (K × V)) :
    WellFormed hash (puts hash ops t) := by
  induction ops generalizing t with
  | nil => exact h
  | cons op ops ih => exact ih (h.put op.1 op.2)

theorem get_puts (h : WellFormed hash t) (ops : List (K × V)) :
    get hash (puts hash ops t) k = (lastFor k ops).or (get hash t k) := by
  induction ops generalizing t with
  | nil => rfl
  | cons op ops ih =>
    change get hash (puts hash ops (put hash t op.1 op.2)) k = _
    rw [ih (h.put op.1 op.2), get_put h, lastFor_cons, Option.or_assoc]
    congr 1
    by_cases hk : k = op.1
    · rw [if_pos hk, if_pos hk.symm, Option.some_or]
    · rw [if_neg hk, if_neg (Ne.symm hk), Option.none_or]

theorem get_replicate (n : ℕ) : get hash (List.replicate n ([] : List (K × V))) k = none := by
  rw [get, List.getElem?_replicate]
  split
  · rfl
  · rfl

theorem lastFor_eq_none_iff (ops : List (K × V)) : lastFor k ops = none ↔ k ∉ ops.map Prod.fst := by
  rw [lastFor, find_eq_none_iff, List.map_reverse, List.mem_reverse]

/-- As many entries as different keys. -/
theorem card_puts {n : ℕ} (hn : 0 < n) (ops : List (K × V)) :
    (entries (puts hash ops (List.replicate n []))).length = (ops.map Prod.fst).toFinset.card := by
  have hempty : WellFormed hash (List.replicate n ([] : List (K × V))) := wellFormed_replicate hn
  have hw := hempty.puts ops
  rw [← List.length_map Prod.fst, ← List.toFinset_card_of_nodup (keys_nodup hw)]
  congr 1
  ext k
  rw [List.mem_toFinset, List.mem_toFinset]
  constructor
  · intro hk
    obtain ⟨⟨k', v⟩, he, rfl⟩ := List.mem_map.mp hk
    rw [mem_entries hw, get_puts (wellFormed_replicate hn), get_replicate, Option.or_none] at he
    by_contra hno
    rw [(lastFor_eq_none_iff ops).mpr hno] at he
    exact absurd he (by simp)
  · intro hk
    obtain ⟨v, hv⟩ : ∃ v, lastFor k ops = some v := by
      rw [← Option.isSome_iff_exists, Option.isSome_iff_ne_none]
      exact fun hnone => (lastFor_eq_none_iff ops).mp hnone hk
    refine List.mem_map.mpr ⟨(k, v), (mem_entries hw).mpr ?_, rfl⟩
    rw [get_puts (wellFormed_replicate hn), hv, Option.some_or]

end Chains
