import Xet.Download.CacheOpen

/-! Compaction of the cache. Entries of an xorb that touch or overlap are rewritten as one entry, and
then removed one by one. -/
namespace Xet.Download
open Wire File Calls

structure MergeCandidate where
  path : Path
  range : ChunkRange
  bytes : ByteRange
  deriving DecidableEq

def asMergeCandidate (f : CachedFile) : Option MergeCandidate :=
  if f.path.name.head? = some dot then none
  else
    match f.ranges with
    | none => none
    | some (r, b) => if Accepted r f.content then some ⟨f.path, r, b⟩ else none

def mergeCandidates (files : List CachedFile) (hash : Bytes) : List MergeCandidate :=
  (files.filter (·.path.hash = hash)).filterMap asMergeCandidate

/-- By their starts, and of those that start together the longest first. -/
abbrev ByRange := Cover.Sorter fun c d : MergeCandidate =>
  c.range.start < d.range.start ∨ c.range.start = d.range.start ∧ d.range.stop ≤ c.range.stop

inductive Fate where
  | written
  | notLocked
  | notTruncated
  /-- Some bytes of the placeholder are there. -/
  | noHeader (count : Nat)
  | notLoaded
  deriving DecidableEq

inductive MergeError where
  | invalidRange (hash : Bytes)
  | lock
  | truncate
  | header
  | load
  | write (e : CacheError ChunkError)
  deriving DecidableEq

structure MergeEnv extends Surroundings where
  byStart : ByStart
  byRange : ByRange
  fate : Path → Fate

def CacheRange.path (r : CacheRange) : Path := ⟨r.hash, cacheFileName r.chunks r.bytes⟩

def Cache.update (s : Cache) (path : Path) (g : CachedFile → CachedFile) : Cache :=
  { s with files := s.files.map fun f => if f.path = path then g f else f }

def Cache.setContent (s : Cache) (path : Path) (content : Bytes) : Cache :=
  s.update path fun f => { f with content := content }

def Cache.setLocked (s : Cache) (path : Path) (locked : Bool) : Cache := s.update path fun f => { f with locked := locked }

/-- The file is created if it is not there. Its lock is waited for, so that nothing more happens here
while someone else has it. -/
def lockChunkCache (env : MergeEnv) (r : CacheRange) (path : Path) (s : Cache) : Except MergeError Bytes × Cache :=
  if ¬ r.Valid then (.error (.invalidRange r.hash), s)
  else if env.fate path = .notLocked then (.error .lock, s)
  else
    match s.files.find? (·.path = path) with
    | some f => if f.isDir ∨ f.locked then (.error .lock, s) else (.ok f.content, s.setLocked path true)
    | none => (.ok [], { s with files := s.files ++ [⟨path, false, [], true, env.clock s.manager.looks⟩] })

def closeRange (env : MergeEnv) (paths : List Path) (s : Cache) : Cache :=
  evaluate env.toSurroundings (paths.foldl Cache.release s)

def cachedReads (source : OpenedRange) (count : Nat) : List (Decoded ChunkError) :=
  (List.range count).map (fun i =>
    match source.readChunk i Xorb.chunkBufSize with
    | .ok b => .data b
    | .error e => .failed e) ++ [.eof]

def publish (env : MergeEnv) (hash : Bytes) (path : Path) (size : Nat) (s : Cache) : Cache :=
  let s := { s with manager := (s.manager.acquire path size).markVerified path }
  let s := evaluate env.toSurroundings s
  { s with manager := s.manager.noteMergeCandidate hash }

inductive MergeCall where
  | list (hash : Bytes)
  | write (r : CacheRange)
  | forget (path : Path)
  | note (hash : Bytes)

end Xet.Download
