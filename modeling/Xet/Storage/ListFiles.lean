import Mathlib.Data.List.AList
import Xet.Lib.Cover
import Xet.Shard.Format
import Xet.Storage.Store
import Xet.Xorb.Footer

/-! The listing of the stored files: one entry for every content, with the bytes that only this
entry refers to and the bytes that it shares with others. -/
namespace Xet.Storage
open Wire Shard

inductive LookupError (ε : Type) where
  | notExist
  | other (e : ε)

structure StorageReads (ε : Type) where
  walkFileIndex : Except ε (AList fun _ : FileHash => ShardHash)
  getShardByHash : ShardHash → Except (LookupError ε) Shard
  getXorbChunkOffsets : XorbHash → Except (LookupError ε) (List Nat)

inductive ListError (ε : Type) where
  | walk (e : ε)
  | shard (e : ε)
  | offsets (hash : XorbHash) (e : ε)
  | storedSize (hash : XorbHash) (chunkStart chunkEnd : Nat) (e : Xorb.RangeError)

/-- One reconstruction term: chunks `start` up to `stop` of one xorb, at least one. -/
structure ChunkTerm where
  hash : XorbHash
  start : Nat
  stop : Nat
  order : start < stop
  deriving DecidableEq

structure FileListEntry where
  sha256 : Option SHA256Hash
  fileHashes : List FileHash
  originalSize : UInt64
  uniqueSize : UInt64
  sharedSize : UInt64
  missing : Bool
  deriving DecidableEq

structure ResolvedFile where
  fileHash : FileHash
  sha : Option SHA256Hash
  size : UInt64
  terms : List ChunkTerm
  missing : Bool
  blank : missing = true → sha = none ∧ size = 0 ∧ terms = []
  deriving DecidableEq

def ResolvedFile.lost (fileHash : FileHash) : ResolvedFile := ⟨fileHash, none, 0, [], true, fun _ => ⟨rfl, rfl, rfl⟩⟩

/-- The size and the terms of a file; none if a chunk index is out of bounds. -/
def resolveTerms : List FileDataSequenceEntry → UInt64 → List ChunkTerm → Option (UInt64 × List ChunkTerm)
  | [], size, terms => some (size, terms)
  | entry :: rest, size, terms =>
    if maxChunksPerXorb < entry.chunkIndexEnd.toNat then none
    else resolveTerms rest (size + entry.unpackedSegBytes.toUInt64)
      (if order : entry.chunkIndexStart < entry.chunkIndexEnd then
        terms ++ [⟨entry.casHash, entry.chunkIndexStart.toNat, entry.chunkIndexEnd.toNat, UInt32.lt_iff_toNat_lt.mp order⟩]
      else terms)

/-- The block of a file in a shard; of several blocks of one file the map keeps the last. -/
def fileBlock (sh : Option Shard) (fileHash : FileHash) : Option FileBlock :=
  sh.bind fun sh => sh.files.reverse.find? fun fb => fb.fileHash = fileHash

def resolveFile (sh : Option Shard) (fileHash : FileHash) : ResolvedFile :=
  match fileBlock sh fileHash with
  | none => .lost fileHash
  | some file =>
    match resolveTerms file.entries 0 [] with
    | none => .lost fileHash
    | some (size, terms) => ⟨fileHash, file.metadataExt.filter (· ≠ Hash.zero), size, terms, false, nofun⟩

variable {ε : Type}

/-- A shard that is gone is not an error: its files are missing. -/
def resolveShardFiles (st : StorageReads ε) (shardHash : ShardHash) (fileHashes : List FileHash) :
    Except ε (List ResolvedFile) :=
  match st.getShardByHash shardHash with
  | .ok sh => .ok (fileHashes.map (resolveFile (some sh)))
  | .error .notExist => .ok (fileHashes.map (resolveFile none))
  | .error (.other e) => .error e

structure Shuffle (α : Type) where
  order : List α → List α
  perm : ∀ xs, (order xs).Perm xs

def Shuffle.id (α : Type) : Shuffle α := ⟨fun xs => xs, fun _ => .refl _⟩

def sha256Text (sha : Option SHA256Hash) : Bytes :=
  (sha.map fun digest => digest.bytes.flatMap fun b => [digitByte (b.toNat / 16), digitByte (b.toNat % 16)]).getD []

def FileListEntry.firstHash (x : FileListEntry) : Bytes := (x.fileHashes.head?.map formatHash).getD []

/-- Larger entries come first, then the digests and the first file hashes decide. -/
def FileListEntry.Precedes (a b : FileListEntry) : Prop :=
  b.originalSize < a.originalSize ∨ b.originalSize = a.originalSize ∧
    (sha256Text a.sha256 < sha256Text b.sha256 ∨
      sha256Text a.sha256 = sha256Text b.sha256 ∧ a.firstHash ≤ b.firstHash)

/-- The orders that the code leaves open: of the index walk, of the map of shards, of the loads of
shards and of offset tables as they end, of the map of usages, and of the sorts between equals. -/
structure Delivery where
  walk : Shuffle (Sigma fun _ : FileHash => ShardHash)
  shards : Shuffle ShardHash
  loads : Shuffle Nat
  tables : Shuffle XorbHash
  usages : Shuffle XorbHash
  byHash : Cover.Sorter fun a b : FileHash => formatHash a ≤ formatHash b
  byEntry : Cover.Sorter FileListEntry.Precedes

def groupByShard (walk : List (Sigma fun _ : FileHash => ShardHash)) : AList fun _ : ShardHash => List FileHash :=
  walk.foldl (fun byShard file => byShard.insert file.2 ((byShard.lookup file.2).getD [] ++ [file.1])) ∅

/-- The loads write their results to their own places, in the order in which they end. -/
def loadShards (st : StorageReads ε) (byShard : AList fun _ : ShardHash => List FileHash) (shardHashes : List ShardHash) :
    List Nat → List (List ResolvedFile) → Except ε (List (List ResolvedFile))
  | [], resolved => .ok resolved
  | i :: rest, resolved =>
    match shardHashes[i]? with
    | none => loadShards st byShard shardHashes rest resolved
    | some shardHash => do
      let files ← resolveShardFiles st shardHash ((byShard.lookup shardHash).getD [])
      loadShards st byShard shardHashes rest (resolved.set i files)

/-- The entries, the terms of every entry, and the entry of every digest. -/
structure Groups where
  entries : List FileListEntry
  entryTerms : List (List ChunkTerm)
  bySHA256 : AList fun _ : SHA256Hash => Nat

def Groups.empty : Groups := ⟨[], [], ∅⟩

def Groups.append (g : Groups) (entry : FileListEntry) (terms : List ChunkTerm) : Groups :=
  { g with entries := g.entries ++ [entry], entryTerms := g.entryTerms ++ [terms] }

def Groups.add (g : Groups) (rf : ResolvedFile) : Groups :=
  if rf.missing then g.append ⟨none, [rf.fileHash], 0, 0, 0, true⟩ []
  else
    match rf.sha with
    | none => g.append ⟨none, [rf.fileHash], rf.size, 0, 0, false⟩ rf.terms
    | some sha =>
      match g.bySHA256.lookup sha with
      | some i =>
        { g with
          entries := g.entries.modify i fun x => { x with fileHashes := x.fileHashes ++ [rf.fileHash] }
          entryTerms := g.entryTerms.modify i fun terms => terms ++ rf.terms }
      | none =>
        { g.append ⟨some sha, [rf.fileHash], rf.size, 0, 0, false⟩ rf.terms with
          bySHA256 := g.bySHA256.insert sha g.entries.length }

/-- For every chunk of one xorb, how many entries refer to it and the last entry counted. -/
structure XorbUsage where
  distinct : List UInt32
  last : List Int32
  same : distinct.length = last.length

namespace XorbUsage

def empty : XorbUsage := ⟨[], [], rfl⟩

def grow (u : XorbUsage) (n : Nat) : XorbUsage :=
  ⟨u.distinct ++ List.replicate (n - u.last.length) 0, u.last ++ List.replicate (n - u.last.length) (-1),
    by simp [u.same]⟩

def lastAt (u : XorbUsage) (k : Nat) : Int32 := u.last.getD k (-1)

def distinctAt (u : XorbUsage) (k : Nat) : UInt32 := u.distinct.getD k 0

def setLast (u : XorbUsage) (k : Nat) (e : Int32) : XorbUsage := ⟨u.distinct, u.last.set k e, by simp [u.same]⟩

def setDistinct (u : XorbUsage) (k : Nat) (n : UInt32) : XorbUsage := ⟨u.distinct.set k n, u.last, by simp [u.same]⟩

def reset (u : XorbUsage) : XorbUsage := ⟨u.distinct, u.last.map fun _ => -1, by simp [u.same]⟩

def count (e : Int32) : Nat → Nat → XorbUsage → XorbUsage
  | 0, _, u => u
  | n + 1, k, u =>
    count e n (k + 1) (if u.lastAt k ≠ e then (u.setLast k e).setDistinct k (u.distinctAt k + 1) else u)

/-- Extend a run of chunks that are not counted yet and are all shared or all unique. -/
def markRun (e : Int32) (sharedRun : Bool) : Nat → Nat → XorbUsage → Nat × XorbUsage
  | 0, runEnd, u => (runEnd, u)
  | n + 1, runEnd, u =>
    if u.lastAt runEnd ≠ e ∧ decide (1 < u.distinctAt runEnd) = sharedRun then
      markRun e sharedRun n (runEnd + 1) (u.setLast runEnd e)
    else (runEnd, u)

end XorbUsage

abbrev Usage := AList fun _ : XorbHash => XorbUsage

abbrev Tables := AList fun _ : XorbHash => List Nat

def countTerm (e : Int32) (usage : Usage) (term : ChunkTerm) : Usage :=
  let u := ((usage.lookup term.hash).getD .empty).grow term.stop
  usage.insert term.hash (u.count e (term.stop - term.start) term.start)

def countUsage : Nat → List (List ChunkTerm) → Usage → Usage
  | _, [], usage => usage
  | e, terms :: rest, usage => countUsage (e + 1) rest (terms.foldl (countTerm (Int32.ofNat e)) usage)

/-- A xorb that has vanished gets no table. -/
def loadOffsets (st : StorageReads ε) : List XorbHash → Tables → Except (ListError ε) Tables
  | [], offsets => .ok offsets
  | hash :: rest, offsets =>
    match st.getXorbChunkOffsets hash with
    | .ok offs => loadOffsets st rest (offsets.insert hash offs)
    | .error .notExist => loadOffsets st rest offsets
    | .error (.other e) => .error (.offsets hash e)

def resetUsage (usage : Usage) (hashes : List XorbHash) : Usage :=
  hashes.foldl (fun usage hash =>
    match usage.lookup hash with
    | none => usage
    | some u => usage.insert hash u.reset) usage

structure Sizes where
  unique : UInt64
  shared : UInt64

def Sizes.add (s : Sizes) (sharedRun : Bool) (n : UInt64) : Sizes :=
  if sharedRun then { s with shared := s.shared + n } else { s with unique := s.unique + n }

/-- Charge the entry for the chunks from `k` up to `stop` that it is not charged for yet. -/
def sizeChunks (hash : XorbHash) (offs : List Nat) (e : Int32) (stop : Nat) :
    Nat → Nat → XorbUsage → Sizes → Except (ListError ε) (XorbUsage × Sizes)
  | 0, _, u, s => .ok (u, s)
  | fuel + 1, k, u, s =>
    if stop ≤ k then .ok (u, s)
    else if u.lastAt k = e then sizeChunks hash offs e stop fuel (k + 1) u s
    else
      let sharedRun := decide (1 < u.distinctAt k)
      let run := u.markRun e sharedRun (stop - k) k
      match Xorb.chunkDataRangeFromOffsets offs k run.1 with
      | .error err => .error (.storedSize hash k run.1 err)
      | .ok (start, last) =>
        sizeChunks hash offs e stop fuel run.1 run.2 (s.add sharedRun (UInt64.ofInt (last - start + 1)))

def sizeTerm (offsets : Tables) (e : Int32) (state : Usage × Sizes) (term : ChunkTerm) :
    Except (ListError ε) (Usage × Sizes) :=
  let offs := (offsets.lookup term.hash).getD []
  -- the stored xorb cannot satisfy the term
  if offs.length < term.stop then .ok state
  else do
    let u := (state.1.lookup term.hash).getD .empty
    let (u', s) ← sizeChunks term.hash offs e term.stop (term.stop - term.start) term.start u state.2
    return (state.1.insert term.hash u', s)

def sizeEntries (offsets : Tables) : Nat → Usage → List FileListEntry → List (List ChunkTerm) →
    Except (ListError ε) (List FileListEntry)
  | e, usage, entry :: entries, terms :: rest => do
    let (usage', s) ← terms.foldlM (sizeTerm offsets (Int32.ofNat e)) (usage, ⟨0, 0⟩)
    let sized ← sizeEntries offsets (e + 1) usage' entries rest
    return { entry with uniqueSize := s.unique, sharedSize := s.shared } :: sized
  | _, _, entries, _ => .ok entries

def computeStoredSizes (d : Delivery) (st : StorageReads ε) (entries : List FileListEntry)
    (entryTerms : List (List ChunkTerm)) : Except (ListError ε) (List FileListEntry) := do
  let usage := countUsage 0 entryTerms ∅
  let offsets ← loadOffsets st (d.tables.order usage.keys) ∅
  sizeEntries offsets 0 (resetUsage usage (d.usages.order usage.keys)) entries entryTerms

def listFiles (d : Delivery) (st : StorageReads ε) : Except (ListError ε) (List FileListEntry) := do
  let index ← st.walkFileIndex.mapError .walk
  let byShard := groupByShard (d.walk.order index.entries)
  let shardHashes := d.shards.order byShard.keys
  let resolved ← (loadShards st byShard shardHashes (d.loads.order (List.range shardHashes.length))
    (List.replicate shardHashes.length [])).mapError .shard
  let groups := resolved.flatten.foldl Groups.add .empty
  let sized ← computeStoredSizes d st groups.entries groups.entryTerms
  return d.byEntry.sort (sized.map fun x => { x with fileHashes := d.byHash.sort x.fileHashes })

end Xet.Storage
