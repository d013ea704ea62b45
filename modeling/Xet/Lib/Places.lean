import Mathlib.Data.List.Nodup
import Mathlib.Data.List.Perm.Basic
import Mathlib.Logic.Function.Basic

/-! Tokens that move between places. Each token has a stage, and a place is a list of exactly the tokens
whose stage says so. A step that changes the stage of one token moves that token only. -/
namespace Places
open List Function

variable {ι σ : Type}

/-- The list holds the tokens with a property, each once. -/
structure Tracks (l : List ι) (P : ι → Prop) : Prop where
  nodup : l.Nodup
  mem : ∀ x, x ∈ l ↔ P x

theorem Tracks.perm {l l' : List ι} {P : ι → Prop} (t : Tracks l P) (same : l.Perm l') : Tracks l' P :=
  ⟨same.nodup_iff.mp t.nodup, fun x => same.mem_iff.symm.trans (t.mem x)⟩

variable [DecidableEq ι] {l l' : List ι} {stage : ι → σ} {Q : σ → Prop} {x : ι} {new : σ}

theorem Tracks.stay (t : Tracks l (Q ∘ stage)) (same : Q (stage x) ↔ Q new) :
    Tracks l (Q ∘ update stage x new) := by
  refine ⟨t.nodup, fun y => ?_⟩
  rw [t.mem, comp, comp]
  by_cases here : y = x
  · rw [here, update_self, same]
  · rw [update_of_ne here]

theorem Tracks.enter (t : Tracks l (Q ∘ stage)) (outside : ¬ Q (stage x)) (inside : Q new) (added : (x :: l).Perm l') :
    Tracks l' (Q ∘ update stage x new) := by
  have absent : x ∉ l := fun member => outside ((t.mem x).mp member)
  apply Tracks.perm _ added
  refine ⟨nodup_cons.mpr ⟨absent, t.nodup⟩, fun y => ?_⟩
  rw [mem_cons, t.mem, comp, comp]
  by_cases here : y = x
  · rw [here, update_self]
    simp [inside]
  · rw [update_of_ne here]
    simp [here]

theorem Tracks.leave (t : Tracks l (Q ∘ stage)) (outside : ¬ Q new) (removed : l.Perm (x :: l')) :
    Tracks l' (Q ∘ update stage x new) := by
  have before := t.perm removed
  obtain ⟨absent, nodup⟩ := nodup_cons.mp before.nodup
  refine ⟨nodup, fun y => ?_⟩
  by_cases here : y = x
  · rw [here, comp, update_self]
    simp [absent, outside]
  · rw [comp, update_of_ne here]
    have moved := before.mem y
    rw [mem_cons, or_iff_right here] at moved
    exact moved

end Places
