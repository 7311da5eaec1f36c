import Mathlib.Tactic
import Mathlib.Logic.Relation
import Mathlib.Order.WellFoundedSet

/-!
# Reachability and closed sets

Facts about an arbitrary edge relation `E` on a type `α`, as a tracing
collector uses them: the set reached from a node, sets closed under the edges,
and well-founded descent along the edges of a finite acyclic graph.
-/

namespace Reach

variable {α : Type*} {E : α → α → Prop}

/-- Everything reachable from `a`, `a` included. -/
def reach (E : α → α → Prop) (a : α) : Set α := {b | Relation.ReflTransGen E a b}

/-- `S` contains the successors of its elements. -/
def Closed (E : α → α → Prop) (S : Set α) : Prop := ∀ a ∈ S, ∀ b, E a b → b ∈ S

theorem mem_reach_self (a : α) : a ∈ reach E a := Relation.ReflTransGen.refl

theorem reach_closed (a : α) : Closed E (reach E a) := fun _ hb _ hc => hb.tail hc

theorem Closed.union {S T : Set α} (hS : Closed E S) (hT : Closed E T) : Closed E (S ∪ T) := by
  rintro a (ha | ha) b hab
  · exact Or.inl (hS a ha b hab)
  · exact Or.inr (hT a ha b hab)

theorem closed_empty : Closed E ∅ := fun _ h => absurd h (Set.notMem_empty _)

/-- A closed set contains all that is reachable from its elements. -/
theorem Closed.reach_subset {S : Set α} (hS : Closed E S) {a : α} (ha : a ∈ S) :
    reach E a ⊆ S := by
  intro b hb
  induction hb with
  | refl => exact ha
  | tail _ hcd ih => exact hS _ ih _ hcd

theorem reach_subset_of_edge {a b : α} (hab : E a b) : reach E b ⊆ reach E a :=
  fun _ hc => Relation.ReflTransGen.head hab hc

/-- What is reachable from `a` is `a` itself and what is reachable from a
    successor. -/
theorem reach_eq_insert (a : α) : reach E a = {a} ∪ {c | ∃ b, E a b ∧ c ∈ reach E b} := by
  ext c
  constructor
  · intro hc
    rcases Relation.ReflTransGen.cases_head hc with rfl | ⟨b, hab, hbc⟩
    · exact Or.inl rfl
    · exact Or.inr ⟨b, hab, hbc⟩
  · rintro (rfl | ⟨b, hab, hbc⟩)
    · exact mem_reach_self _
    · exact Relation.ReflTransGen.head hab hbc

/-! ## Changing the edges -/

/-- Edges out of nodes that are not reached do not matter. -/
theorem reach_congr {E' : α → α → Prop} {a : α} (h : ∀ b ∈ reach E a, ∀ c, E' b c ↔ E b c) :
    reach E' a = reach E a := by
  apply Set.Subset.antisymm
  · intro b hb
    induction hb with
    | refl => exact mem_reach_self a
    | tail _ hbc ih => exact reach_closed a _ ih _ ((h _ ih _).mp hbc)
  · intro b hb
    induction hb with
    | refl => exact mem_reach_self a
    | @tail b c hab hbc ih => exact Relation.ReflTransGen.tail ih ((h b hab c).mpr hbc)

/-- New edges into a closed set reach nothing but the set. -/
theorem reach_subset_union {E' : α → α → Prop} {S : Set α} (hS : Closed E S)
    (h : ∀ b c, E' b c → E b c ∨ c ∈ S) (a : α) : reach E' a ⊆ reach E a ∪ S := by
  have hcl : Closed E' (reach E a ∪ S) := by
    intro b hb c hbc
    rcases h b c hbc with he | hc
    · exact (reach_closed a).union hS b hb c he
    · exact Or.inr hc
  exact hcl.reach_subset (Or.inl (mem_reach_self a))

/-! ## Leaving out a closed set -/

/-- The edges between nodes outside `M`. -/
def Outside (E : α → α → Prop) (M : Set α) (a b : α) : Prop := E a b ∧ a ∉ M ∧ b ∉ M

theorem reach_outside_subset {M : Set α} (a : α) : reach (Outside E M) a ⊆ reach E a :=
  Relation.ReflTransGen.mono (fun _ _ (h : Outside E M _ _) => h.1) a

/-- Leaving out a closed set loses nothing but what it contains. -/
theorem Closed.union_reach_outside {M : Set α} (hM : Closed E M) {a : α} (ha : a ∉ M) :
    M ∪ reach (Outside E M) a = M ∪ reach E a := by
  apply Set.Subset.antisymm
  · exact Set.union_subset_union_right M (reach_outside_subset a)
  · rintro b (hb | hb)
    · exact Or.inl hb
    · induction hb with
      | refl => exact Or.inr (mem_reach_self a)
      | @tail c d _ hcd ih =>
        rcases ih with hc | hc
        · exact Or.inl (hM c hc d hcd)
        · by_cases hd : d ∈ M
          · exact Or.inl hd
          · have hc' : c ∉ M := by
              rcases Relation.ReflTransGen.cases_tail hc with rfl | ⟨e, -, he⟩
              · exact ha
              · exact he.2.2
            exact Or.inr (Relation.ReflTransGen.tail hc ⟨hcd, hc', hd⟩)

/-- A path that ends outside a closed set lies outside it. -/
theorem Closed.transGen_outside {M : Set α} (hM : Closed E M) {a b : α}
    (hab : Relation.TransGen E a b) (hb : b ∉ M) : Relation.TransGen (Outside E M) a b := by
  induction hab using Relation.TransGen.head_induction_on with
  | @single a h => exact .single ⟨h, fun ha => hb (hM _ ha _ h), hb⟩
  | @head a c h hcb ih =>
    have hc : c ∉ M := fun hc => hb (hM.reach_subset hc hcb.to_reflTransGen)
    exact .head ⟨h, fun ha => hc (hM _ ha _ h), hc⟩ ih

/-- No node lies on a cycle. -/
def Acyclic (E : α → α → Prop) : Prop := ∀ a, ¬ Relation.TransGen E a a

/-- Descent along the edges is well founded when the graph is acyclic and all
    edges stay inside a finite set. -/
theorem Acyclic.wellFounded (hE : Acyclic E) {s : Set α} (hs : s.Finite)
    (hin : ∀ a b, E a b → b ∈ s) : WellFounded (fun b a => E a b) := by
  have hstrict : IsStrictOrder α (fun b a => Relation.TransGen E a b) :=
    { irrefl := hE
      trans := fun _ _ _ hab hbc => Relation.TransGen.trans hbc hab }
  have hwf := hs.wellFoundedOn (r := fun b a => Relation.TransGen E a b)
  have hacc : ∀ a ∈ s, Acc (fun b a => E a b) a := by
    intro a ha
    refine Set.WellFoundedOn.induction hwf ha ?_
    intro x _ ih
    exact Acc.intro x fun y hxy => ih y (hin x y hxy) (Relation.TransGen.single hxy)
  exact ⟨fun a => Acc.intro a fun b hab => hacc b (hin a b hab)⟩

end Reach
