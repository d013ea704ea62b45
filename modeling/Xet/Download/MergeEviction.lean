import Xet.Download.Compaction

/-! Eviction during a compaction. The merged entry is written while its sources are still there, and
the entries that nobody uses make room for it. -/
namespace Xet.Download
open Wire File Calls List Prog

/-- Whenever the manager looks, the tracked bytes, with the sources and the merged entry, are below
the capacity. -/
def Roomy (env : MergeEnv) : MergeCall → Cache → Prop
  | .write r, s => ∀ u ∈ mergeLooks env r s, u.manager.capacity ≤ 0 ∨ u.manager.total < u.manager.capacity
  | _, _ => True

instance (env : MergeEnv) : ∀ c s, Decidable (Roomy env c s)
  | .write r, s => inferInstanceAs (Decidable (∀ u ∈ mergeLooks env r s, _))
  | .list _, _ => inferInstanceAs (Decidable True)
  | .forget _, _ => inferInstanceAs (Decidable True)
  | .note _, _ => inferInstanceAs (Decidable True)

theorem Roomy.spared {env : MergeEnv} {c : MergeCall} {s : Cache} (roomy : Roomy env c s) : Spared env c s := by
  cases c with
  | write r =>
    intro u look f member _ _
    rw [evaluate, if_pos (roomy u look)]
    exact .inl member
  | list hash => trivial
  | forget path => trivial
  | note hash => trivial

def elsewhere : CachedFile :=
  ⟨⟨[98, 98, 98, 98, 98], cacheFileName ⟨0, 1⟩ ⟨0, 100⟩⟩, false, sealedFile (chunksIn sampleChunk ⟨0, 1⟩), false, 0⟩

end Xet.Download
