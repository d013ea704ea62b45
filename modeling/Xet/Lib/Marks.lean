import Mathlib.Data.Finset.Filter
import Mathlib.Data.List.Nodup

/-! Passes that mark what they meet. Owners with numbers come one after another, and every item that
an owner has gets the mark of its number. A pass meets an item with an owner unless the item has that
mark already, from an earlier owner with the same mark. -/
namespace Marks
open List

variable {κ μ : Type} [DecidableEq κ] [DecidableEq μ]

/-- The numbers, from `e` on, of the owners that have an item. -/
def holders (e : Nat) (sets : List (Finset κ)) (p : κ) : List Nat :=
  ((sets.zipIdx e).filter fun x => p ∈ x.1).map Prod.snd

def changes : μ → List μ → Nat
  | _, [] => 0
  | m, x :: rest => (if m = x then 0 else 1) + changes x rest

/-- The items that a pass meets with each owner. -/
def met (mark : Nat → μ) : Nat → (κ → μ) → List (Finset κ) → List (Finset κ)
  | _, _, [] => []
  | e, last, s :: rest =>
    s.filter (fun p => last p ≠ mark e) :: met mark (e + 1) (fun p => if p ∈ s then mark e else last p) rest

section
variable {e : Nat} {s : Finset κ} {sets : List (Finset κ)} {p : κ}

theorem holders_cons_of_mem (inside : p ∈ s) : holders e (s :: sets) p = e :: holders (e + 1) sets p := by
  simp [holders, inside]

theorem holders_cons_of_notMem (outside : p ∉ s) : holders e (s :: sets) p = holders (e + 1) sets p := by
  simp [holders, outside]

theorem holders_length (e : Nat) (sets : List (Finset κ)) (p : κ) :
    (holders e sets p).length = sets.countP fun s => p ∈ s := by
  induction sets generalizing e with
  | nil => rfl
  | cons s rest ih =>
    by_cases inside : p ∈ s
    · rw [holders_cons_of_mem inside, length_cons, ih, countP_cons_of_pos (by simpa using inside)]
    · rw [holders_cons_of_notMem inside, ih, countP_cons_of_neg (by simpa using inside)]

theorem mem_holders {i : Nat} : i ∈ holders 0 sets p ↔ ∃ s, sets[i]? = some s ∧ p ∈ s := by
  simp only [holders, mem_map, mem_filter, decide_eq_true_eq]
  constructor
  · rintro ⟨⟨s, j⟩, ⟨there, inside⟩, rfl⟩
    exact ⟨s, mem_zipIdx_iff_getElem?.mp there, inside⟩
  · rintro ⟨s, there, inside⟩
    exact ⟨(s, i), ⟨mem_zipIdx_iff_getElem?.mpr there, inside⟩, rfl⟩

theorem holders_sorted (e : Nat) (sets : List (Finset κ)) (p : κ) : (holders e sets p).Pairwise (· < ·) := by
  have numbers : (holders e sets p).Sublist ((sets.zipIdx e).map Prod.snd) := List.filter_sublist.map _
  rw [zipIdx_map_snd] at numbers
  exact (pairwise_lt_range' 1).sublist numbers

end

section
variable {m : μ} {marks : List μ}

theorem changes_le (m : μ) (marks : List μ) : changes m marks ≤ marks.length := by
  induction marks generalizing m with
  | nil => exact le_rfl
  | cons x rest ih =>
    have := ih x
    rw [changes, length_cons]
    split <;> omega

theorem changes_of_chain (chain : IsChain (· ≠ ·) (m :: marks)) : changes m marks = marks.length := by
  induction marks generalizing m with
  | nil => rfl
  | cons x rest ih =>
    obtain ⟨other, tail⟩ := isChain_cons_cons.mp chain
    rw [changes, if_neg other, ih tail, length_cons, Nat.add_comm]

end

variable {mark : Nat → μ} {e : Nat} {last : κ → μ} {sets : List (Finset κ)}

theorem met_length (mark : Nat → μ) (e : Nat) (last : κ → μ) (sets : List (Finset κ)) :
    (met mark e last sets).length = sets.length := by
  induction sets generalizing e last with
  | nil => rfl
  | cons s rest ih => rw [met, length_cons, length_cons, ih]

theorem met_subset {i : Nat} {chunks : Finset κ} (there : (met mark e last sets)[i]? = some chunks) :
    ∃ s, sets[i]? = some s ∧ chunks ⊆ s := by
  induction sets generalizing e last i with
  | nil => cases there
  | cons s rest ih =>
    cases i with
    | zero =>
      cases there
      exact ⟨s, rfl, Finset.filter_subset _ s⟩
    | succ i => exact ih there

/-- A pass meets every item with every owner that has it if and only if successive owners of an item
have different marks. -/
theorem met_eq_iff (mark : Nat → μ) (e : Nat) (last : κ → μ) (sets : List (Finset κ)) :
    met mark e last sets = sets ↔ ∀ p, IsChain (· ≠ ·) (last p :: (holders e sets p).map mark) := by
  induction sets generalizing e last with
  | nil => exact iff_of_true rfl fun p => .singleton _
  | cons s rest ih =>
    rw [met, cons.injEq, ih, Finset.filter_eq_self, ← forall_and]
    refine forall_congr' fun p => ?_
    by_cases inside : p ∈ s
    · rw [holders_cons_of_mem inside, map_cons, isChain_cons_cons, if_pos inside]
      exact and_congr_left fun _ => ⟨fun fresh => fresh inside, fun fresh _ => fresh⟩
    · rw [holders_cons_of_notMem inside, if_neg inside]
      exact and_iff_right fun there => absurd there inside

end Marks
