import Mathlib.Data.List.AList
import Xet.Download.Range
import Xet.Xorb.Footer

/-! Building a reconstruction response: the terms that hold bytes of the requested range, and for
each of their xorbs the chunk ranges to fetch. -/
namespace Xet.Download
open Wire Shard

structure ChunkRange where
  start : Nat
  stop : Nat
  deriving DecidableEq

structure Term where
  hash : Bytes
  unpackedLength : Nat
  range : ChunkRange
  deriving DecidableEq

abbrev URL := Bytes

structure FetchInfoEntry where
  range : ChunkRange
  url : URL
  urlRange : ByteRange
  deriving DecidableEq

structure XorbRangeDescriptor where
  chunks : ChunkRange
  bytes : ByteRange
  deriving DecidableEq

structure XorbMultiRangeFetch where
  url : URL
  ranges : List XorbRangeDescriptor
  deriving DecidableEq

structure ReconstructionResponseV1 where
  offsetIntoFirstRange : Int
  terms : List Term
  fetchInfo : AList fun _ : Bytes => List FetchInfoEntry

structure ReconstructionResponseV2 where
  offsetIntoFirstRange : Int
  terms : List Term
  xorbs : AList fun _ : Bytes => List XorbMultiRangeFetch

structure StorageAdapter (ε : Type) where
  getXorbURL : XorbHash → Except ε URL
  getXorbChunkOffsets : XorbHash → Except ε (List Nat)

inductive BuildError (ε : Type) where
  | fileNotFound
  | offsets (e : ε)
  | range (e : Xorb.RangeError)
  | url (e : ε)
  deriving DecidableEq

/-- Of the ranges that start at the same chunk only the longest is kept. -/
def keepLongest {α : Type} (range : α → ChunkRange) (new : α) : List α → List α
  | [] => [new]
  | old :: rest =>
    if (range old).start = (range new).start then
      if (range old).stop < (range new).stop then new :: rest else old :: rest
    else old :: keepLongest range new rest

def entryRange (e : FileDataSequenceEntry) : ChunkRange :=
  ⟨e.chunkIndexStart.toNat, e.chunkIndexEnd.toNat⟩

def entryTerm (e : FileDataSequenceEntry) : Term :=
  ⟨formatHash e.casHash, e.unpackedSegBytes.toNat, entryRange e⟩

/-- The loop over the terms of the file, from `pos` on; `add` is what differs between the versions.
The accumulator holds the terms so far, the offset into the first of them, and what `add` built. -/
def buildTerms {ε σ : Type} (sh : Shard) (rng : ByteRange)
    (add : FileDataSequenceEntry → σ → Except ε σ) :
    List FileDataSequenceEntry → Int → List Term × Int × σ → Except ε (List Term × Int × σ)
  | [], _, acc => .ok acc
  | seg :: rest, pos, (terms, offset, built) =>
    let termEnd := pos + seg.unpackedSegBytes.toNat
    if termEnd ≤ rng.start then buildTerms sh rng add rest termEnd (terms, offset, built)
    else if rng.last < pos then .ok (terms, offset, built)
    else do
      let (entry, skipped) := trimSegment sh seg pos rng
      let termStart := pos + skipped
      let offset := if terms = [] ∧ termStart < rng.start then rng.start - termStart else offset
      let built ← add entry built
      buildTerms sh rng add rest termEnd (terms ++ [entryTerm entry], offset, built)

section
variable {ε : Type} (storage : StorageAdapter ε)

def packedRange (e : FileDataSequenceEntry) : Except (BuildError ε) ByteRange := do
  let offsets ← (storage.getXorbChunkOffsets e.casHash).mapError .offsets
  let (first, last) ← (Xorb.chunkDataRangeFromOffsets offsets e.chunkIndexStart.toNat
    e.chunkIndexEnd.toNat).mapError .range
  return ⟨first, last⟩

def addFetchInfo (e : FileDataSequenceEntry) (m : AList fun _ : Bytes => List FetchInfoEntry) :
    Except (BuildError ε) (AList fun _ : Bytes => List FetchInfoEntry) := do
  let bytes ← packedRange storage e
  let url ← (storage.getXorbURL e.casHash).mapError .url
  let entries := (m.lookup (formatHash e.casHash)).getD []
  return m.insert (formatHash e.casHash) (keepLongest (·.range) ⟨entryRange e, url, bytes⟩ entries)

def addFetchRange (e : FileDataSequenceEntry) (m : AList fun _ : Bytes => List XorbRangeDescriptor) :
    Except (BuildError ε) (AList fun _ : Bytes => List XorbRangeDescriptor) := do
  let bytes ← packedRange storage e
  let ranges := (m.lookup (formatHash e.casHash)).getD []
  return m.insert (formatHash e.casHash) (keepLongest (·.chunks) ⟨entryRange e, bytes⟩ ranges)

def attachURLs : List (Sigma fun _ : Bytes => List XorbRangeDescriptor) →
    Except (BuildError ε) (AList fun _ : Bytes => List XorbMultiRangeFetch)
  | [] => .ok ∅
  | ⟨hash, ranges⟩ :: rest => do
    let url ← (storage.getXorbURL ((parseHash hash).toOption.getD Hash.zero)).mapError .url
    let others ← attachURLs rest
    return others.insert hash [⟨url, ranges⟩]

def buildReconstructionResponseV1 (sh : Shard) (fileHash : FileHash) (rng : ByteRange) :
    Except (BuildError ε) ReconstructionResponseV1 :=
  match sh.file fileHash with
  | none => .error .fileNotFound
  | some fb => do
    let (terms, offset, fetchInfo) ← buildTerms sh rng (addFetchInfo storage) fb.entries 0 ([], 0, ∅)
    return ⟨offset, terms, fetchInfo⟩

def buildReconstructionResponseV2 (sh : Shard) (fileHash : FileHash) (rng : ByteRange) :
    Except (BuildError ε) ReconstructionResponseV2 :=
  match sh.file fileHash with
  | none => .error .fileNotFound
  | some fb => do
    let (terms, offset, ranges) ← buildTerms sh rng (addFetchRange storage) fb.entries 0 ([], 0, ∅)
    let xorbs ← attachURLs storage ranges.entries
    return ⟨offset, terms, xorbs⟩

end

end Xet.Download
