import Xet.Hash

/-! Shards: file reconstructions and xorb contents. Every record of the format but the footer
has 48 bytes: a hash and four 32-bit words. -/
namespace Xet
open Wire

namespace Shard

abbrev SHA256Hash := Hash

structure FileDataSequenceEntry where
  casHash : XorbHash
  casFlags : UInt32
  unpackedSegBytes : UInt32
  chunkIndexStart : UInt32
  chunkIndexEnd : UInt32
  deriving DecidableEq

structure FileBlock where
  fileHash : FileHash
  flags : UInt32
  entries : List FileDataSequenceEntry
  verification : List VerificationHash
  metadataExt : Option SHA256Hash
  deriving DecidableEq

structure CASChunkSequenceEntry where
  chunkHash : ChunkHash
  byteRangeStart : UInt32
  unpackedSegBytes : UInt32
  flags : UInt32
  deriving DecidableEq

structure CASBlock where
  casHash : XorbHash
  casFlags : UInt32
  chunks : List CASChunkSequenceEntry
  numBytesInCAS : UInt32
  numBytesOnDisk : UInt32
  deriving DecidableEq

@[ext] structure Reserved where
  bytes : Bytes
  size : bytes.length = 48
  deriving DecidableEq

structure Footer where
  version : UInt64
  fileInfoOffset : UInt64
  casInfoOffset : UInt64
  fileLookupOffset : UInt64
  fileLookupNumEntries : UInt64
  casLookupOffset : UInt64
  casLookupNumEntries : UInt64
  chunkLookupOffset : UInt64
  chunkLookupNumEntries : UInt64
  chunkHashKey : Hash
  shardCreationTimestamp : UInt64
  shardKeyExpiry : UInt64
  reserved : Reserved
  storedBytesOnDisk : UInt64
  materializedBytes : UInt64
  storedBytes : UInt64
  footerOffset : UInt64
  deriving DecidableEq

end Shard

structure Shard where
  footerSize : UInt64
  files : List Shard.FileBlock
  casInfos : List Shard.CASBlock
  footer : Option Shard.Footer
  deriving DecidableEq

namespace Shard

def fileWithVerification : UInt32 := 0x80000000
def fileWithMetadataExt : UInt32 := 0x40000000
def chunkGlobalDedupEligible : UInt32 := 0x80000000

def shardMagicSequence : Bytes := [0x55, 0x69, 0x67, 0x45, 0x6a, 0x7b, 0x81, 0x57,
  0x83, 0xa5, 0xbd, 0xd9, 0x5c, 0xcd, 0xd1, 0x4a, 0xa9]

def hfApplicationID : Bytes := [0x48, 0x46, 0x52, 0x65, 0x70, 0x6f, 0x4d, 0x65,
  0x74, 0x61, 0x44, 0x61, 0x74, 0x61]

def FileBlock.unpackedSize (fb : FileBlock) : Nat :=
  (fb.entries.map fun e => e.unpackedSegBytes.toNat).sum

def file (s : Shard) (hash : FileHash) : Option FileBlock :=
  s.files.find? fun fb => fb.fileHash = hash

def FileBlock.encodedSize (fb : FileBlock) : Nat :=
  48 + fb.entries.length * 48 +
    (if fb.flags &&& fileWithVerification ≠ 0 then fb.verification.length * 48 else 0) +
    (if fb.flags &&& fileWithMetadataExt ≠ 0 then 48 else 0)

def CASBlock.encodedSize (cb : CASBlock) : Nat := 48 + cb.chunks.length * 48

def encodedSize (s : Shard) (withFooter : Bool) : Nat :=
  48 + (s.files.map FileBlock.encodedSize).sum + 48 + (s.casInfos.map CASBlock.encodedSize).sum +
    48 + if withFooter then 200 else 0

inductive ValidateError where
  | duplicateCAS (block : Nat) (hash : XorbHash)
  | casFlags (block : Nat) (flags : UInt32)
  | chunkFlags (block chunk : Nat) (flags : UInt32)
  | byteRangeStart (block chunk : Nat) (got expected : UInt32)
  | numBytesInCAS (block : Nat) (got sum : UInt32)
  | fileFlags (block : Nat) (flags : UInt32)
  | verificationCount (block verification entries : Nat)
  | verificationWithoutFlag (block : Nat)
  | metadataMissing (block : Nat)
  | metadataWithoutFlag (block : Nat)
  | entryFlags (block entry : Nat) (flags : UInt32)
  | chunkRange (block entry : Nat) (first last : UInt32)
  | chunkIndexEnd (block entry : Nat) (last : UInt32) (chunks : Nat)
  | unpackedSegBytes (block entry : Nat) (got sum : UInt32)
  deriving DecidableEq

/-- No two CAS blocks share a hash; `seen` are those of the blocks before. -/
def checkDistinct : Nat → List XorbHash → List CASBlock → Except ValidateError Unit
  | _, _, [] => .ok ()
  | i, seen, cb :: rest => do
    require (cb.casHash ∉ seen) (.duplicateCAS i cb.casHash)
    checkDistinct (i + 1) (cb.casHash :: seen) rest

/-- The chunk loop of a CAS block, which returns the final `byteOffset`. -/
def checkChunks (block : Nat) : Nat → UInt32 → List CASChunkSequenceEntry →
    Except ValidateError UInt32
  | _, byteOffset, [] => .ok byteOffset
  | j, byteOffset, chunk :: rest => do
    require (chunk.flags &&& ~~~ chunkGlobalDedupEligible = 0) (.chunkFlags block j chunk.flags)
    require (chunk.byteRangeStart = byteOffset) (.byteRangeStart block j chunk.byteRangeStart byteOffset)
    checkChunks block (j + 1) (byteOffset + chunk.unpackedSegBytes) rest

def checkCASBlock (i : Nat) (cb : CASBlock) : Except ValidateError Unit := do
  require (cb.casFlags = 0) (.casFlags i cb.casFlags)
  let byteOffset ← checkChunks i 0 0 cb.chunks
  require (byteOffset = cb.numBytesInCAS) (.numBytesInCAS i cb.numBytesInCAS byteOffset)

/-- The unpacked bytes of a run of chunks, with the wrap of the code's counter. -/
def termBytes (chunks : List CASChunkSequenceEntry) : UInt32 :=
  chunks.foldl (fun acc c => acc + c.unpackedSegBytes) 0

def casBlock (s : Shard) (hash : XorbHash) : Option CASBlock :=
  s.casInfos.find? fun cb => cb.casHash = hash

def checkEntry (s : Shard) (i j : Nat) (entry : FileDataSequenceEntry) : Except ValidateError Unit := do
  require (entry.casFlags = 0) (.entryFlags i j entry.casFlags)
  require (entry.chunkIndexStart < entry.chunkIndexEnd)
    (.chunkRange i j entry.chunkIndexStart entry.chunkIndexEnd)
  match s.casBlock entry.casHash with
  | none => .ok ()
  | some cb => do
    require (entry.chunkIndexEnd ≤ UInt32.ofNat cb.chunks.length)
      (.chunkIndexEnd i j entry.chunkIndexEnd cb.chunks.length)
    let run := (cb.chunks.drop entry.chunkIndexStart.toNat).take
      (entry.chunkIndexEnd.toNat - entry.chunkIndexStart.toNat)
    require (termBytes run = entry.unpackedSegBytes)
      (.unpackedSegBytes i j entry.unpackedSegBytes (termBytes run))

def checkVerification (i : Nat) (fb : FileBlock) : Except ValidateError Unit :=
  if fb.flags &&& fileWithVerification ≠ 0 then
    require (fb.verification.length = fb.entries.length)
      (.verificationCount i fb.verification.length fb.entries.length)
  else require (fb.verification.length = 0) (.verificationWithoutFlag i)

def checkMetadataExt (i : Nat) (fb : FileBlock) : Except ValidateError Unit :=
  if fb.flags &&& fileWithMetadataExt ≠ 0 then
    require (fb.metadataExt.isSome) (.metadataMissing i)
  else require (fb.metadataExt = none) (.metadataWithoutFlag i)

def checkFile (s : Shard) (i : Nat) (fb : FileBlock) : Except ValidateError Unit := do
  require (fb.flags &&& ~~~ (fileWithVerification ||| fileWithMetadataExt) = 0)
    (.fileFlags i fb.flags)
  checkVerification i fb
  checkMetadataExt i fb
  forIndexed (checkEntry s i) 0 fb.entries

def validate (s : Shard) : Except ValidateError Unit := do
  checkDistinct 0 [] s.casInfos
  forIndexed checkCASBlock 0 s.casInfos
  forIndexed (checkFile s) 0 s.files

/-- The optional parts of the block are there exactly as its flags say. -/
structure FileBlock.Regular (fb : FileBlock) : Prop where
  verification : fb.flags &&& fileWithVerification ≠ 0 → fb.verification.length = fb.entries.length
  noVerification : fb.flags &&& fileWithVerification = 0 → fb.verification = []
  metadata : fb.flags &&& fileWithMetadataExt ≠ 0 → fb.metadataExt.isSome
  noMetadata : fb.flags &&& fileWithMetadataExt = 0 → fb.metadataExt = none

theorem checkFile_regular {s : Shard} {i : Nat} {fb : FileBlock} (accepted : checkFile s i fb = .ok ()) :
    fb.Regular := by
  simp only [checkFile, bind_eq_ok] at accepted
  obtain ⟨⟨⟩, -, ⟨⟩, verification, ⟨⟩, metadata, -⟩ := accepted
  unfold checkVerification at verification
  unfold checkMetadataExt at metadata
  constructor
  · intro flagged
    rw [if_pos flagged] at verification
    exact require_eq_ok.mp verification
  · intro unset
    rw [if_neg (not_not_intro unset)] at verification
    exact List.length_eq_zero_iff.mp (require_eq_ok.mp verification)
  · intro flagged
    rw [if_pos flagged] at metadata
    exact require_eq_ok.mp metadata
  · intro unset
    rw [if_neg (not_not_intro unset)] at metadata
    exact require_eq_ok.mp metadata

theorem validate_regular {s : Shard} (accepted : s.validate = .ok ()) : ∀ fb ∈ s.files, fb.Regular := by
  simp only [validate, bind_eq_ok, forIndexed_eq_ok] at accepted
  obtain ⟨⟨⟩, -, ⟨⟩, -, files⟩ := accepted
  intro fb member
  obtain ⟨i, found⟩ := List.mem_iff_getElem?.mp member
  exact checkFile_regular (files i fb found)

end Shard

end Xet
