import Mathlib.Data.List.Basic
import Mathlib.Data.List.Infix
import Mathlib.Data.Nat.Find

/-! Searching a text for a separator, from its start. -/
namespace Text
open List Option

def ascii (s : String) : List UInt8 := s.toList.map fun c => UInt8.ofNat c.toNat

section
variable {α : Type}

def At (sep s : List α) (i : Nat) : Prop := sep <+: s.drop i

variable {sep s : List α} {c : α}

variable {i : Nat}

theorem at_succ : At sep (c :: s) (i + 1) ↔ At sep s i := Iff.rfl

theorem At.split (found : At sep s i) : s = s.take i ++ (sep ++ s.drop (i + sep.length)) := by
  obtain ⟨rest, shape⟩ := found
  have after : s.drop (i + sep.length) = rest := by
    rw [← drop_drop, ← shape, drop_left]
  rw [after, shape, take_append_drop]

theorem at_append (a b : List α) : At sep (a ++ (sep ++ b)) a.length := by
  rw [At, drop_left]
  exact prefix_append sep b

theorem At.le_length (found : At sep s i) (nonempty : sep ≠ []) : i + sep.length ≤ s.length := by
  have short := found.length_le
  have := length_pos_iff.mpr nonempty
  rw [length_drop] at short
  omega

theorem at_letter : At [c] s i ↔ s[i]? = some c := by
  rw [At, ← head?_drop]
  cases s.drop i with
  | nil => simp
  | cons d rest => simp [eq_comm]

end

variable {α : Type} [DecidableEq α] {sep s a b : List α} {c : α}

instance (sep s : List α) (i : Nat) : Decidable (At sep s i) :=
  decidable_of_iff (sep.isPrefixOf (s.drop i) = true) List.isPrefixOf_iff_prefix

def index (sep : List α) : List α → Option Nat
  | [] => if sep.isPrefixOf [] then some 0 else none
  | c :: s => if sep.isPrefixOf (c :: s) then some 0 else (index sep s).map (· + 1)

def cut (sep s : List α) : Option (List α × List α) :=
  (index sep s).map fun i => (s.take i, s.drop (i + sep.length))

def cutPrefix (lead s : List α) : Option (List α) := if lead.isPrefixOf s then some (s.drop lead.length) else none

def splitN (c : α) : Nat → List α → List (List α)
  | 0, _ => []
  | 1, s => [s]
  | n + 2, s =>
    match cut [c] s with
    | some (a, b) => a :: splitN c (n + 1) b
    | none => [s]

theorem at_zero : At sep s 0 ↔ sep.isPrefixOf s = true := isPrefixOf_iff_prefix.symm

theorem at_nil {i : Nat} : At sep [] i ↔ sep.isPrefixOf [] = true := by
  rw [At, drop_nil]
  exact isPrefixOf_iff_prefix.symm

theorem first_at_zero {i : Nat} (here : sep.isPrefixOf s = true) : some 0 = some i ↔ At sep s i ∧ ∀ j < i, ¬ At sep s j := by
  constructor
  · rintro ⟨⟩
    exact ⟨at_zero.mpr here, nofun⟩
  · rintro ⟨-, first⟩
    cases i with
    | zero => rfl
    | succ i => exact absurd (at_zero.mpr here) (first 0 (Nat.succ_pos i))

theorem index_eq_some {i : Nat} : index sep s = some i ↔ At sep s i ∧ ∀ j < i, ¬ At sep s j := by
  induction s generalizing i with
  | nil =>
    rw [index]
    split
    · rename_i empty
      exact first_at_zero empty
    · rename_i other
      exact ⟨nofun, fun found => absurd (at_nil.mp found.1) other⟩
  | cons c s ih =>
    rw [index]
    split
    · rename_i here
      exact first_at_zero here
    · rename_i other
      rw [map_eq_some_iff]
      constructor
      · rintro ⟨i, found, rfl⟩
        obtain ⟨there, first⟩ := ih.mp found
        refine ⟨at_succ.mpr there, fun j less => ?_⟩
        cases j with
        | zero => exact fun h => other (at_zero.mp h)
        | succ j => exact fun h => first j (by omega) (at_succ.mp h)
      · rintro ⟨there, first⟩
        cases i with
        | zero => exact absurd (at_zero.mp there) other
        | succ i => exact ⟨i, ih.mpr ⟨at_succ.mp there, fun j less h => first (j + 1) (by omega) (at_succ.mpr h)⟩, rfl⟩

theorem index_eq_none : index sep s = none ↔ ∀ i, ¬ At sep s i := by
  constructor
  · intro missing i there
    have found : index sep s = some (Nat.find ⟨i, there⟩) :=
      index_eq_some.mpr ⟨Nat.find_spec ⟨i, there⟩, fun j less => Nat.find_min ⟨i, there⟩ less⟩
    cases missing.symm.trans found
  · intro never
    cases found : index sep s with
    | none => rfl
    | some i => exact absurd (index_eq_some.mp found).1 (never i)

theorem cut_eq_some (nonempty : sep ≠ []) :
    cut sep s = some (a, b) ↔ s = a ++ (sep ++ b) ∧ ∀ j < a.length, ¬ At sep s j := by
  rw [cut, map_eq_some_iff]
  constructor
  · rintro ⟨i, found, pair⟩
    obtain ⟨there, first⟩ := index_eq_some.mp found
    have inside := there.le_length nonempty
    cases pair
    rw [length_take, Nat.min_eq_left (by omega)]
    exact ⟨there.split, first⟩
  · rintro ⟨rfl, first⟩
    refine ⟨a.length, index_eq_some.mpr ⟨at_append a b, first⟩, ?_⟩
    rw [take_left, ← drop_drop, drop_left, drop_left]

theorem cut_eq_none : cut sep s = none ↔ ∀ i, ¬ At sep s i := by
  rw [cut, map_eq_none_iff, index_eq_none]

theorem cut_letter : cut [c] s = some (a, b) ↔ s = a ++ c :: b ∧ c ∉ a := by
  rw [cut_eq_some (cons_ne_nil c [])]
  refine and_congr_right fun shape => ?_
  subst shape
  simp only [at_letter]
  constructor
  · intro first member
    obtain ⟨i, there⟩ := mem_iff_getElem?.mp member
    have less := (List.getElem?_eq_some_iff.mp there).1
    exact first i less (by rw [getElem?_append_left less, there])
  · intro other i less there
    rw [getElem?_append_left less] at there
    exact other (mem_of_getElem? there)

theorem cut_letter_eq_none : cut [c] s = none ↔ c ∉ s := by
  rw [cut_eq_none]
  simp only [at_letter, mem_iff_getElem?, not_exists]

theorem splitN_ne_nil {n : Nat} : splitN c (n + 1) s ≠ [] := by
  cases n with
  | zero => exact cons_ne_nil s []
  | succ n =>
    rw [splitN]
    split
    · exact cons_ne_nil _ _
    · exact cons_ne_nil _ _

theorem splitN_eq_two {n : Nat} : splitN c (n + 3) s = [a, b] ↔ s = a ++ c :: b ∧ c ∉ a ∧ c ∉ b := by
  rw [splitN]
  constructor
  · intro pieces
    split at pieces
    · rename_i first rest found
      obtain ⟨rfl, plain⟩ := cut_letter.mp found
      obtain ⟨rfl, others⟩ := List.cons.inj pieces
      rw [splitN] at others
      split at others
      · exact absurd (List.cons.inj others).2 splitN_ne_nil
      · rename_i missing
        cases others
        exact ⟨rfl, plain, cut_letter_eq_none.mp missing⟩
    · cases pieces
  · rintro ⟨shape, plain, plain'⟩
    have found : cut [c] s = some (a, b) := cut_letter.mpr ⟨shape, plain⟩
    have missing : cut [c] b = none := cut_letter_eq_none.mpr plain'
    simp only [found, splitN, missing]

end Text
