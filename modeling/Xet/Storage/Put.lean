import Xet.Shard.Dedup
import Xet.Shard.RoundTrip
import Xet.Storage.Prepare

/-! Storing xorbs and shards. A shard object is written before the index entries that point at it,
and the entry of a file last. -/
namespace Xet.Storage
open Wire Calls Shard ShardReader

inductive StoredShardError where
  | readHeader (e : ReadError)
  | decode (e : Shard.DecodeError Empty)

/-- Stored shards are decoded in the footer mode that their header announces. -/
def decodeStoredShard (b : Bytes) : Except StoredShardError Shard := do
  let (header, _) ← (readFull 48 b).mapError .readHeader
  let (s, _) ← (Shard.decode b (decide (uint64 (header.drop 40) ≠ 0))).mapError .decode
  return s

def encodeShard (s : Shard) : Bytes := s.encodedBytes false 0

def unixSeconds (t : Int) : UInt64 := UInt64.ofInt (t / 1000000000)

inductive LoadError where
  | notExist
  | unreadable (e : StoredShardError)
  | failed

/-- A shard without a footer gets one that carries the time of its object. -/
def loadShard (h : ShardHash) : ExceptT LoadError StoreProg Shard := do
  match ← getObject .shards h with
  | none => throw .notExist
  | some obj =>
    match decodeStoredShard obj.data with
    | .error e => throw (.unreadable e)
    | .ok s => pure { s with footer := some (s.footer.getD (s.newFooter (unixSeconds obj.modTime))) }

section
variable (env : Env)

def putXorb (hash : XorbHash) (r : Bytes) (now : Int) :
    ExceptT Xorb.ValidateError StoreProg Bool := do
  match ← getObject .xorbs hash with
  | some _ => pure false
  | none =>
    let (_, rest) ← ofExcept (Xorb.validate env.blake3 env.lz4 r hash)
    putObject .xorbs hash (r.take (r.length - rest.length)) now

def putEntries (i : Index) (shard : ShardHash) : List Hash → StoreProg Unit
  | [] => pure ()
  | name :: rest => do
    putEntry i name shard
    putEntries i shard rest

/-- A prepared file always has a digest. -/
def putShardIndexes (s : Shard) (shard : ShardHash) : StoreProg Unit := do
  putEntries .chunks shard (s.globalDedupEligibleChunks.map (·.hash))
  putEntries .sha256 shard (s.files.filterMap (·.metadataExt))
  putEntries .files shard (s.files.map (·.fileHash))

def allIndexed : List FileHash → StoreProg Bool
  | [] => pure true
  | name :: rest => do
    match ← getEntry .files name with
    | none => pure false
    | some _ => allIndexed rest

/-- Only a shard whose every file is indexed already is left alone. -/
def putShard (s : Shard) (now : Int) : ExceptT PrepareError StoreProg Bool := do
  let indexed ← allIndexed (s.files.map (·.fileHash))
  if s.files ≠ [] ∧ indexed then pure false
  else
    let s ← prepareShard env s
    let encoded := encodeShard s
    let inserted ← putObject .shards (env.sha256 encoded) encoded now
    putShardIndexes s (env.sha256 encoded)
    pure inserted

end

theorem encodeShard_drained (s : Shard) (now : UInt64) {lens : List Nat}
    (ended : EncodeResult.eof ∈ ((s.encode false now).reads lens).1) :
    received ((s.encode false now).reads lens).1 = encodeShard s := by
  have start := streams_start s false now
  rw [reads_received start, List.take_of_length_le (reads_eof start ended)]
  rfl

theorem decodeStoredShard_encode {s : Shard} (encodable : s.Encodable) :
    decodeStoredShard (encodeShard s) = .ok ⟨0, s.files, s.casInfos, none⟩ := by
  have footerless : false = true → (s.finalFooter 0).version = 1 := fun h => Bool.noConfusion h
  have decoded := decode_encodedBytes encodable footerless []
  rw [List.append_nil] at decoded
  have header : readFull 48 (encodeShard s) =
      .ok (buildHeader 0, s.fileInfoSection ++ s.casInfoSection) := by
    simp only [encodeShard, encodedBytes, Bool.false_eq_true, if_false, sections_flatten]
    exact readFull_append (buildHeader_length 0) _
  have mode : decide (uint64 ((buildHeader 0).drop 40) ≠ 0) = false := by decide +kernel
  simp only [decodeStoredShard, header, Except.mapError, ok_bind, mode]
  simp only [encodeShard, decoded, Bool.false_eq_true, if_false, ok_bind]
  rfl

end Xet.Storage
