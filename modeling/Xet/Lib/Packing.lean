import Mathlib.Data.List.Chain
import Mathlib.Data.List.Infix

/-! Packing a list into consecutive groups. A group is packed greedily when it is closed only because the next element
does not fit any more. If every part of an admissible group is admissible, no other way of cutting the list into
admissible groups needs fewer of them. -/
namespace Packing
open List

section
variable {α : Type*} (ok : List α → Prop)

/-- No group could take the first element of the group behind it. -/
def Tight (groups : List (List α)) : Prop :=
  groups.IsChain fun g next => ∀ x ∈ next.head?, ¬ ok (g ++ [x])

structure Packed (items : List α) (groups : List (List α)) : Prop where
  flat : groups.flatten = items
  nonempty : ∀ g ∈ groups, g ≠ []
  fits : ∀ g ∈ groups, ok g
  tight : Tight ok groups

/-- The loop of a greedy packing after `items`: finished groups and the one that is being filled. -/
structure Filling (items : List α) (done : List (List α)) (current : List α) : Prop where
  opened : current ≠ []
  packed : Packed ok items (done ++ [current])

end

section
variable {α : Type*} {ok : List α → Prop} {items : List α} {done groups : List (List α)} {current : List α}

theorem tight_concat {g : List α} : Tight ok (groups ++ [g]) ↔
    Tight ok groups ∧ ∀ h ∈ groups.getLast?, ∀ x ∈ g.head?, ¬ ok (h ++ [x]) := by
  rw [Tight, isChain_append]
  constructor
  · rintro ⟨tight, _, last⟩
    exact ⟨tight, fun h closed => last h closed g rfl⟩
  · rintro ⟨tight, last⟩
    refine ⟨tight, isChain_singleton g, ?_⟩
    intro h closed next first
    cases first
    exact last h closed

theorem Packed.empty : Packed ok [] [] := ⟨rfl, nofun, nofun, isChain_nil⟩

theorem Filling.first {x : α} (single : ok [x]) : Filling ok [x] [] [x] := by
  refine ⟨cons_ne_nil x [], rfl, ?_, ?_, isChain_singleton [x]⟩
  · exact forall_mem_singleton.mpr (cons_ne_nil x [])
  · exact forall_mem_singleton.mpr single

theorem Filling.add {x : α} (filling : Filling ok items done current) (fits : ok (current ++ [x])) :
    Filling ok (items ++ [x]) done (current ++ [x]) := by
  obtain ⟨before, last⟩ := tight_concat.mp filling.packed.tight
  refine ⟨append_ne_nil_of_right_ne_nil current (cons_ne_nil x []), ?_, ?_, ?_, ?_⟩
  · rw [← filling.packed.flat]
    simp
  · rw [forall_mem_append, forall_mem_singleton]
    refine ⟨(forall_mem_append.mp filling.packed.nonempty).1, ?_⟩
    exact append_ne_nil_of_right_ne_nil current (cons_ne_nil x [])
  · rw [forall_mem_append, forall_mem_singleton]
    exact ⟨(forall_mem_append.mp filling.packed.fits).1, fits⟩
  · apply tight_concat.mpr ⟨before, ?_⟩
    rw [head?_append_of_ne_nil current filling.opened]
    exact last

theorem Filling.close {x : α} (filling : Filling ok items done current) (full : ¬ ok (current ++ [x]))
    (single : ok [x]) : Filling ok (items ++ [x]) (done ++ [current]) [x] := by
  refine ⟨cons_ne_nil x [], ?_, ?_, ?_, ?_⟩
  · rw [flatten_append, filling.packed.flat]
    rfl
  · rw [forall_mem_append, forall_mem_singleton]
    exact ⟨filling.packed.nonempty, cons_ne_nil x []⟩
  · rw [forall_mem_append, forall_mem_singleton]
    exact ⟨filling.packed.fits, single⟩
  · apply tight_concat.mpr ⟨filling.packed.tight, ?_⟩
    intro h closed y first
    rw [getLast?_concat] at closed
    cases closed
    cases first
    exact full

/-- The groups of a tight packing that lie within the last elements of another grouping are not more than its groups.
The induction is over the other grouping: one of its groups cannot reach into a third group of the tight one, since
it would hold a whole group and the first element behind it. -/
theorem Tight.fewest (parts : ∀ g h : List α, ok h → g <:+: h → ok g) {others : List (List α)}
    (tight : Tight ok groups) (nonempty : ∀ g ∈ groups, g ≠ []) (fits : ∀ h ∈ others, ok h)
    (within : groups.flatten <:+ others.flatten) : groups.length ≤ others.length := by
  induction others generalizing groups with
  | nil =>
    cases groups with
    | nil => exact Nat.le_refl 0
    | cons g rest =>
      have none : g ++ rest.flatten = [] := suffix_nil.mp within
      exact absurd (append_eq_nil_iff.mp none).1 (nonempty g mem_cons_self)
  | cons h others ih =>
    cases groups with
    | nil => exact Nat.zero_le _
    | cons g rest =>
      have later : Tight ok rest := List.IsChain.tail tight
      apply Nat.succ_le_succ
      apply ih later (fun g' member => nonempty g' (mem_cons_of_mem g member))
        (fun h' member => fits h' (mem_cons_of_mem h member))
      rw [flatten_cons, flatten_cons] at within
      have behind : rest.flatten <:+ h ++ others.flatten := (suffix_append g _).trans within
      rcases suffix_or_suffix_of_suffix behind (suffix_append h others.flatten) with here | beyond
      · exact here
      · obtain ⟨t, cut⟩ := beyond
        cases t with
        | nil =>
          rw [nil_append] at cut
          rw [cut]
        | cons x t =>
          exfalso
          obtain ⟨p, whole⟩ := within
          have same : p ++ (g ++ (x :: t)) = h := by
            rw [← cut, ← append_assoc g, ← append_assoc p] at whole
            exact append_cancel_right whole
          cases rest with
          | nil => cases cut
          | cons next rest =>
            have first : next.head? = some x := by
              cases next with
              | nil => exact absurd rfl (nonempty [] (by simp))
              | cons y next =>
                rw [flatten_cons, cons_append, cons_append] at cut
                rw [head?_cons, (List.cons.inj cut).1]
            have full := (isChain_cons_cons.mp tight).1 x first
            apply full (parts (g ++ [x]) h (fits h mem_cons_self) ⟨p, t, ?_⟩)
            rw [← same]
            simp

theorem Packed.fewest (parts : ∀ g h : List α, ok h → g <:+: h → ok g) {others : List (List α)}
    (packed : Packed ok items groups) (flat : others.flatten = items) (fits : ∀ h ∈ others, ok h) :
    groups.length ≤ others.length := by
  apply packed.tight.fewest parts packed.nonempty fits
  rw [packed.flat, flat]

end

end Packing
