import Xet.Shard.Format

/-! The chunks of a shard that a deduplication probe may ask for. -/
namespace Xet.Shard
open Wire List

/-- The first chunk of a file, a flagged entry, or a hash that the sampling rule picks. -/
def isChunkGlobalDedupEligible (chunkHash : ChunkHash) (isFirstChunk : Bool) (flags : UInt32) : Bool :=
  isFirstChunk || flags &&& chunkGlobalDedupEligible != 0 ||
    uint64 (chunkHash.bytes.drop 24) % 1024 == 0

structure ChunkLocation where
  xorbHash : XorbHash
  chunkIndex : UInt32
  deriving DecidableEq

structure LocatedChunk where
  hash : ChunkHash
  location : ChunkLocation
  deriving DecidableEq

def fileStarts (s : Shard) : List ChunkLocation :=
  s.files.filterMap fun fb => fb.entries.head?.map fun e => ⟨e.casHash, e.chunkIndexStart⟩

def eligibleFrom (starts : List ChunkLocation) (cb : CASBlock) :
    Nat → List CASChunkSequenceEntry → List LocatedChunk
  | _, [] => []
  | i, chunk :: rest =>
    let loc : ChunkLocation := ⟨cb.casHash, UInt32.ofNat i⟩
    if isChunkGlobalDedupEligible chunk.chunkHash (decide (loc ∈ starts)) chunk.flags then
      ⟨chunk.chunkHash, loc⟩ :: eligibleFrom starts cb (i + 1) rest
    else eligibleFrom starts cb (i + 1) rest

def firstLocations : List ChunkHash → List LocatedChunk → List LocatedChunk
  | _, [] => []
  | seen, c :: rest =>
    if c.hash ∈ seen then firstLocations seen rest
    else c :: firstLocations (c.hash :: seen) rest

def globalDedupEligibleChunks (s : Shard) : List LocatedChunk :=
  firstLocations [] (s.casInfos.flatMap fun cb => eligibleFrom s.fileStarts cb 0 cb.chunks)

def ContainsChunk (s : Shard) (hash : ChunkHash) : Prop :=
  ∃ cb ∈ s.casInfos, ∃ c ∈ cb.chunks, c.chunkHash = hash

variable {e : LocatedChunk}

theorem eligibleFrom_mem {starts : List ChunkLocation} {cb : CASBlock} {i : Nat} {chunks : List CASChunkSequenceEntry}
    (h : e ∈ eligibleFrom starts cb i chunks) : ∃ c ∈ chunks, c.chunkHash = e.hash := by
  induction chunks generalizing i with
  | nil => cases h
  | cons chunk rest ih =>
    have later : e ∈ eligibleFrom starts cb (i + 1) rest → ∃ c ∈ chunk :: rest, c.chunkHash = e.hash := by
      intro found
      obtain ⟨c, member, same⟩ := ih found
      exact ⟨c, mem_cons_of_mem _ member, same⟩
    simp only [eligibleFrom] at h
    split at h
    · cases h with
      | head => exact ⟨chunk, mem_cons_self, rfl⟩
      | tail _ found => exact later found
    · exact later h

theorem firstLocations_mem {seen : List ChunkHash} {cs : List LocatedChunk} (h : e ∈ firstLocations seen cs) :
    e ∈ cs := by
  induction cs generalizing seen with
  | nil => cases h
  | cons c rest ih =>
    simp only [firstLocations] at h
    split at h
    · exact mem_cons_of_mem _ (ih h)
    · cases h with
      | head => exact mem_cons_self
      | tail _ found => exact mem_cons_of_mem _ (ih found)

theorem eligible_contained {s : Shard} (h : e ∈ s.globalDedupEligibleChunks) : s.ContainsChunk e.hash := by
  obtain ⟨cb, block, found⟩ := mem_flatMap.mp (firstLocations_mem h)
  obtain ⟨c, member, same⟩ := eligibleFrom_mem found
  exact ⟨cb, block, c, member, same⟩

end Xet.Shard
