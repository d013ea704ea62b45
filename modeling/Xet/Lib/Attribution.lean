import Mathlib.Algebra.BigOperators.Group.Finset.Basic
import Mathlib.Data.Finset.Union

/-! Weights attributed to owners. Every owner refers to a finite set of items and is charged for
some of them; an item is its own if no other owner refers to it, and common otherwise. -/
namespace Attribution
open Finset

variable {ι κ : Type} [DecidableEq ι] [DecidableEq κ] (owners : Finset ι) (refs held : ι → Finset κ)

def own (i : ι) : Finset κ := (held i).filter fun p => ∀ j ∈ owners, j ≠ i → p ∉ refs j

/-- The items an owner is charged for that an other owner refers to as well. -/
def common (i : ι) : Finset κ := (held i).filter fun p => ∃ j ∈ owners, j ≠ i ∧ p ∈ refs j

variable {owners refs held}

theorem mem_own {i : ι} {p : κ} : p ∈ own owners refs held i ↔ p ∈ held i ∧ ∀ j ∈ owners, j ≠ i → p ∉ refs j :=
  mem_filter

theorem mem_common {i : ι} {p : κ} : p ∈ common owners refs held i ↔ p ∈ held i ∧ ∃ j ∈ owners, j ≠ i ∧ p ∈ refs j :=
  mem_filter

theorem not_own {i : ι} {p : κ} (charged : p ∈ held i) :
    p ∉ own owners refs held i ↔ p ∈ common owners refs held i := by
  rw [mem_own, mem_common, not_and, and_iff_right charged]
  push Not
  exact ⟨fun h => h charged, fun h _ => h⟩

theorem own_disjoint (within : ∀ i, held i ⊆ refs i) : (owners : Set ι).PairwiseDisjoint (own owners refs held) := by
  intro i hi j _ other
  rw [Function.onFun, disjoint_left]
  intro p mine theirs
  exact (mem_own.mp theirs).2 i hi other (within i (mem_own.mp mine).1)

theorem own_common_disjoint (within : ∀ i, held i ⊆ refs i) :
    Disjoint (owners.biUnion (own owners refs held)) (owners.biUnion (common owners refs held)) := by
  rw [disjoint_left]
  intro p mine theirs
  obtain ⟨i, hi, mine⟩ := mem_biUnion.mp mine
  obtain ⟨j, hj, theirs⟩ := mem_biUnion.mp theirs
  obtain ⟨charged, k, hk, other, refers⟩ := mem_common.mp theirs
  obtain ⟨-, alone⟩ := mem_own.mp mine
  by_cases same : k = i
  · subst same
    exact alone j hj other.symm (within j charged)
  · exact alone k hk same refers

theorem own_union_common :
    owners.biUnion (own owners refs held) ∪ owners.biUnion (common owners refs held) = owners.biUnion held := by
  ext p
  simp only [mem_union, mem_biUnion]
  constructor
  · rintro (⟨i, hi, mine⟩ | ⟨i, hi, theirs⟩)
    · exact ⟨i, hi, (mem_own.mp mine).1⟩
    · exact ⟨i, hi, (mem_common.mp theirs).1⟩
  · rintro ⟨i, hi, charged⟩
    by_cases mine : p ∈ own owners refs held i
    · exact .inl ⟨i, hi, mine⟩
    · exact .inr ⟨i, hi, (not_own charged).mp mine⟩

/-- The own weights of all owners and the weight of the common items, counted once, make up the
weight of all items that anyone is charged for. -/
theorem sum_own_add_common {M : Type} [AddCommMonoid M] (within : ∀ i, held i ⊆ refs i) (weight : κ → M) :
    ∑ i ∈ owners, ∑ p ∈ own owners refs held i, weight p +
      ∑ p ∈ owners.biUnion (common owners refs held), weight p = ∑ p ∈ owners.biUnion held, weight p := by
  rw [← sum_biUnion (own_disjoint within), ← sum_union (own_common_disjoint within), own_union_common]

end Attribution
