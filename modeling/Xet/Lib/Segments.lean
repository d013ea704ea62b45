import Mathlib.Algebra.BigOperators.Group.List.Basic
import Mathlib.Algebra.GroupWithZero.Nat
import Mathlib.Data.List.Forall2

/-! Consecutive segments and the table of their end positions. A segmented list is cut by
its table alone, and the table determines the segment sizes. -/
namespace Segments
open List Nat

/-- The end positions of consecutive segments of the given sizes, the first starting at `start`. -/
def ends : Nat → List Nat → List Nat
  | _, [] => []
  | start, n :: rest => (start + n) :: ends (start + n) rest

@[simp] theorem ends_length (start : Nat) (sizes : List Nat) : (ends start sizes).length = sizes.length := by
  induction sizes generalizing start with
  | nil => rfl
  | cons n rest ih => simp only [ends, length_cons, ih]

theorem ends_append (start : Nat) (xs ys : List Nat) :
    ends start (xs ++ ys) = ends start xs ++ ends (start + xs.sum) ys := by
  induction xs generalizing start with
  | nil => simp [ends]
  | cons n rest ih => simp [ends, ih, add_assoc]

theorem ends_concat (start : Nat) (xs : List Nat) (n : Nat) :
    ends start (xs ++ [n]) = ends start xs ++ [start + xs.sum + n] := ends_append start xs [n]

theorem ends_getLast? (start : Nat) (sizes : List Nat) (nonempty : sizes ≠ []) :
    (ends start sizes).getLast? = some (start + sizes.sum) := by
  induction sizes generalizing start with
  | nil => exact absurd rfl nonempty
  | cons n rest ih =>
    cases rest with
    | nil => simp [ends]
    | cons m rest =>
      have last := ih (start + n) (cons_ne_nil m rest)
      simp only [ends, getLast?_cons_cons, sum_cons, add_assoc] at last ⊢
      exact last

theorem ends_getD (start : Nat) {sizes : List Nat} {i : Nat} (bound : i < sizes.length) (default : Nat) :
    (ends start sizes).getD i default = start + (sizes.take (i + 1)).sum := by
  induction sizes generalizing start i with
  | nil => cases bound
  | cons n rest ih =>
    cases i with
    | zero => simp [ends]
    | succ i =>
      simp only [ends, getD_cons_succ, take_succ_cons, sum_cons]
      rw [ih (start + n) (by simpa using bound), add_assoc]

theorem le_of_mem_ends {start n : Nat} {sizes : List Nat} (h : n ∈ ends start sizes) : n ≤ start + sizes.sum := by
  induction sizes generalizing start with
  | nil => cases h
  | cons m rest ih =>
    rw [sum_cons]
    rcases mem_cons.mp h with rfl | h
    · omega
    · have := ih h
      omega

theorem forall₂_replace {α β : Type} {R : α → List β → Prop} {keys : List α} {groups : List (List β)} {x : β}
    {new before after : List β} (all : List.Forall₂ R keys groups) (shape : groups.flatten = before ++ x :: after)
    (keeps : ∀ key pre post, R key (pre ++ x :: post) → R key (pre ++ (new ++ post))) :
    ∃ groups' : List (List β), groups'.flatten = before ++ (new ++ after) ∧ List.Forall₂ R keys groups' := by
  induction all generalizing before with
  | nil => simp at shape
  | @cons key group keys groups here rest ih =>
    rw [flatten_cons] at shape
    rcases append_eq_append_iff.mp shape with ⟨mid, rfl, tail⟩ | ⟨mid, rfl, tail⟩
    · obtain ⟨others, flat, all⟩ := ih tail
      exact ⟨group :: others, by simp [flat], .cons here all⟩
    · cases mid with
      | nil =>
        have start : groups.flatten = [] ++ x :: after := tail.symm
        obtain ⟨others, flat, all⟩ := ih start
        exact ⟨before :: others, by simpa using flat, .cons (by simpa using here) all⟩
      | cons y mid =>
        obtain ⟨rfl, rfl⟩ := List.cons.inj tail
        exact ⟨(before ++ (new ++ mid)) :: groups, by simp, .cons (keeps key before mid here) rest⟩

/-- Consecutive non-empty intervals from `low` to `high`, each given by its start and its stop. -/
def Tiles : Nat → Nat → List (Nat × Nat) → Prop
  | low, high, [] => low = high
  | low, high, part :: rest => part.1 = low ∧ part.1 < part.2 ∧ Tiles part.2 high rest

variable {parts : List (Nat × Nat)}

section
variable {low high : Nat} (tiles : Tiles low high parts)
include tiles

theorem Tiles.le : low ≤ high := by
  induction parts generalizing low with
  | nil => exact Nat.le_of_eq tiles
  | cons part rest ih =>
    obtain ⟨first, proper, later⟩ := tiles
    have := ih later
    omega

theorem Tiles.within {part : Nat × Nat} (member : part ∈ parts) : low ≤ part.1 ∧ part.1 < part.2 ∧ part.2 ≤ high := by
  induction parts generalizing low with
  | nil => cases member
  | cons head rest ih =>
    obtain ⟨first, proper, later⟩ := tiles
    cases member with
    | head => exact ⟨Nat.le_of_eq first.symm, proper, later.le⟩
    | tail _ member =>
      have := ih later member
      omega

theorem Tiles.existsUnique {n : Nat} (least : low ≤ n) (less : n < high) :
    ∃! part, part ∈ parts ∧ part.1 ≤ n ∧ n < part.2 := by
  induction parts generalizing low with
  | nil =>
    have : low = high := tiles
    omega
  | cons head rest ih =>
    obtain ⟨first, proper, later⟩ := tiles
    by_cases here : n < head.2
    · refine ⟨head, ⟨mem_cons_self, by omega, here⟩, ?_⟩
      rintro part ⟨member, from', -⟩
      cases member with
      | head => rfl
      | tail _ member =>
        have := (later.within member).1
        omega
    · obtain ⟨part, ⟨member, inside⟩, only⟩ := ih later (by omega)
      refine ⟨part, ⟨mem_cons_of_mem _ member, inside⟩, ?_⟩
      rintro other ⟨member', inside'⟩
      cases member' with
      | head => omega
      | tail _ member' => exact only other ⟨member', inside'⟩

end

end Segments
