import Xet.Download.MergePass

/-! A compaction pass over the directory of an xorb. -/
namespace Xet.Download
open Wire File Calls List Prog

variable {xorb : Nat → Bytes} {hash : Bytes} {s t : Cache}

variable {f : CachedFile} {c : MergeCandidate}

theorem asMergeCandidate_eq_some : asMergeCandidate f = some c ↔
    c.path = f.path ∧ f.path.name.head? ≠ some dot ∧ f.ranges = some (c.range, c.bytes) ∧ Accepted c.range f.content := by
  rw [asMergeCandidate]
  by_cases hidden : f.path.name.head? = some dot
  · simp [hidden]
  rw [if_neg hidden]
  cases named : f.ranges with
  | none => simp
  | some p =>
    obtain ⟨r, b⟩ := p
    dsimp only
    constructor
    · intro found
      split at found
      · cases found
        exact ⟨rfl, hidden, rfl, ‹_›⟩
      · cases found
    · rintro ⟨path, -, same, accepted⟩
      cases same
      rw [if_pos accepted, ← path]

variable {files : List CachedFile}

theorem Directory.candidate (dir : Directory xorb hash files) (member : f ∈ files) (same : f.path.hash = hash)
    (found : asMergeCandidate f = some c) : c.path = f.path ∧ SealedEntry xorb c.range f ∧ Named hash c := by
  obtain ⟨path, visible, named, accepted⟩ := asMergeCandidate_eq_some.mp found
  have entry := dir.sealed_of_accepted member same visible named accepted
  obtain ⟨b, first, order, last, name⟩ := entry.name
  have most := entry.valid.2
  rw [maxChunksPerXorb] at most
  have bytes : c.bytes = b := by
    rw [CachedFile.ranges, entry.file, if_neg Bool.false_ne_true, name,
      parse_cacheFileName entry.valid.1.le (by omega) first order last] at named
    cases named
    rfl
  refine ⟨path, entry, path ▸ same, ?_, entry.valid, ?_, ?_, ?_⟩
  · rw [path, name, bytes]
  · rw [bytes]
    exact first
  · rw [bytes]
    exact order
  · rw [bytes]
    exact last

theorem SealedEntry.candidate {ρ : ChunkRange} (entry : SealedEntry xorb ρ f) :
    ∃ c, asMergeCandidate f = some c ∧ c.path = f.path := by
  obtain ⟨b, named⟩ := entry.ranges
  obtain ⟨b', -, -, -, name⟩ := entry.name
  refine ⟨⟨f.path, ρ, b⟩, asMergeCandidate_eq_some.mpr ⟨rfl, ?_, named, entry.accepted⟩, rfl⟩
  rw [name]
  exact head_cacheFileName ρ b'

def planned (byRange : ByRange) (files : List CachedFile) (hash : Bytes) : List MergeRun :=
  Cover.runs (fun c : MergeCandidate => c.range.start) (fun c => c.range.stop) (byRange.sort (mergeCandidates files hash))

section
variable (byRange : ByRange) (dir : Directory xorb hash s.files) (distinct : (s.files.map CachedFile.path).Nodup)
include dir distinct

end

structure SameChunks (c c' : OpenedRange) : Prop where
  count : c'.metas.length = c.metas.length
  chunk : ∀ i, c'.readChunk i Xorb.chunkBufSize = c.readChunk i Xorb.chunkBufSize

theorem HoldsRange.outOfRange {c : OpenedRange} {start stop i : Nat} (holds : HoldsRange xorb start stop c)
    (beyond : stop - start ≤ i) (len : Nat) : c.readChunk i len = .error (.outOfRange i (stop - start)) := by
  have absent : c.metas[i]? = none := getElem?_eq_none (holds.count ▸ beyond)
  rw [OpenedRange.readChunk, absent, holds.count]
  rfl

theorem HoldsRange.same {c c' : OpenedRange} {start stop : Nat} (holds : HoldsRange xorb start stop c)
    (holds' : HoldsRange xorb start stop c')
    (fits : ∀ k, start ≤ k → k < stop → (xorb k).length ≤ Xorb.chunkBufSize) : SameChunks c c' where
  count := holds'.count.trans holds.count.symm
  chunk i := by
    by_cases inside : i < stop - start
    · have room := fits (start + i) (by omega) (by omega)
      rw [holds.chunk i inside _ room, holds'.chunk i inside _ room]
    · rw [holds.outOfRange (Nat.not_lt.mp inside), holds'.outOfRange (Nat.not_lt.mp inside)]

end Xet.Download
