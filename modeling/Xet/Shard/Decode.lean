import Xet.Shard.Encode

/-! The streaming shard decoder. Counts in the headers are not trusted: records are collected as
they arrive, and a section ends at its bookend. -/
namespace Xet.Shard
open Wire

inductive FooterField where
  | version | fileInfoOffset | casInfoOffset | fileLookupOffset | fileLookupNumEntries
  | casLookupOffset | casLookupNumEntries | chunkLookupOffset | chunkLookupNumEntries
  | chunkHashKey | shardCreationTimestamp | shardKeyExpiry | reserved | storedBytesOnDisk
  | materializedBytes | storedBytes | footerOffset
  deriving DecidableEq

/-- `ε` is the type of the errors of the CAS block callback. -/
inductive DecodeError (ε : Type) where
  | header (e : ReadError)
  | magic
  | version (got : UInt64)
  | footerExpected
  | footerUnexpected (size : UInt64)
  | fileSection (e : ReadError)
  | fileEntry (i : Nat) (e : ReadError)
  | verificationEntry (i : Nat) (e : ReadError)
  | metadataExt (e : ReadError)
  | casSection (e : ReadError)
  | chunkEntry (i : Nat) (e : ReadError)
  | processCASBlock (block : Nat) (e : ε)
  | footerTooSmall (size : UInt64)
  | footerField (field : FooterField) (e : ReadError)
  | footerVersion (got : UInt64)
  | drainFooter (e : ReadError)
  deriving DecidableEq

section
variable {ε : Type}

def readRecord (fail : ReadError → DecodeError ε) (r : Bytes) :
    Except (DecodeError ε) (Record × Bytes) := do
  let (buf, r) ← (readFull 48 r).mapError fail
  .ok (Record.decode buf, r)

def readRecords {α : Type} (fail : Nat → ReadError → DecodeError ε) (ofRecord : Record → α) :
    Nat → Nat → Bytes → Except (DecodeError ε) (List α × Bytes)
  | 0, _, r => .ok ([], r)
  | n + 1, i, r => do
    let (record, r) ← readRecord (fail i) r
    let (others, r) ← readRecords fail ofRecord n (i + 1) r
    .ok (ofRecord record :: others, r)

def FileDataSequenceEntry.ofRecord (r : Record) : FileDataSequenceEntry :=
  ⟨r.hash, r.a, r.b, r.c, r.d⟩

def CASChunkSequenceEntry.ofRecord (r : Record) : CASChunkSequenceEntry :=
  ⟨r.hash, r.a, r.b, r.c⟩

def decodeVerification (flags : UInt32) (numEntries : Nat) (r : Bytes) :
    Except (DecodeError ε) (List VerificationHash × Bytes) :=
  if flags &&& fileWithVerification ≠ 0 then
    readRecords .verificationEntry Record.hash numEntries 0 r
  else .ok ([], r)

def decodeMetadataExt (flags : UInt32) (r : Bytes) :
    Except (DecodeError ε) (Option SHA256Hash × Bytes) :=
  if flags &&& fileWithMetadataExt ≠ 0 then do
    let (record, r) ← readRecord .metadataExt r
    .ok (some (transformSHA256ByteOrder record.hash), r)
  else .ok (none, r)

def decodeFileBlock (header : Record) (r : Bytes) :
    Except (DecodeError ε) (FileBlock × Bytes) := do
  let numEntries := header.b.toNat
  let (entries, r) ← readRecords .fileEntry FileDataSequenceEntry.ofRecord numEntries 0 r
  let (verification, r) ← decodeVerification header.a numEntries r
  let (metadataExt, r) ← decodeMetadataExt header.a r
  .ok (⟨header.hash, header.a, entries, verification, metadataExt⟩, r)

/-- File blocks until the bookend. A block takes at least 48 bytes, so a fuel above the length of
the stream is never used up. -/
def decodeFiles : Nat → Bytes → Except (DecodeError ε) (List FileBlock × Bytes)
  | 0, _ => .error (.fileSection .eof)
  | fuel + 1, r => do
    let (header, r) ← readRecord .fileSection r
    if header = bookend then .ok ([], r)
    else
      let (fb, r) ← decodeFileBlock header r
      let (others, r) ← decodeFiles fuel r
      .ok (fb :: others, r)

def decodeCASBlock (header : Record) (r : Bytes) :
    Except (DecodeError ε) (CASBlock × Bytes) := do
  let (chunks, r) ← readRecords .chunkEntry CASChunkSequenceEntry.ofRecord header.b.toNat 0 r
  .ok (⟨header.hash, header.a, chunks, header.c, header.d⟩, r)

/-- CAS blocks, numbered from `i`, until the bookend; each is handed to the callback. -/
def decodeCASInfos (onCASBlock : CASBlock → Except ε Unit) :
    Nat → Nat → Bytes → Except (DecodeError ε) (List CASBlock × Bytes)
  | 0, _, _ => .error (.casSection .eof)
  | fuel + 1, i, r => do
    let (header, r) ← readRecord .casSection r
    if header = bookend then .ok ([], r)
    else
      let (cb, r) ← decodeCASBlock header r
      (onCASBlock cb).mapError (.processCASBlock i)
      let (others, r) ← decodeCASInfos onCASBlock fuel (i + 1) r
      .ok (cb :: others, r)

def readUint64 (field : FooterField) (r : Bytes) : Except (DecodeError ε) (UInt64 × Bytes) := do
  let (buf, r) ← (readFull 8 r).mapError (.footerField field)
  .ok (uint64 buf, r)

def Reserved.ofBytes (b : Bytes) : Reserved := ⟨b.takeD 48 0, List.takeD_length 48 b 0⟩

def decodeFooter (r : Bytes) : Except (DecodeError ε) (Footer × Bytes) := do
  let (version, r) ← readUint64 .version r
  require (version = 1) (.footerVersion version)
  let (fileInfoOffset, r) ← readUint64 .fileInfoOffset r
  let (casInfoOffset, r) ← readUint64 .casInfoOffset r
  let (fileLookupOffset, r) ← readUint64 .fileLookupOffset r
  let (fileLookupNumEntries, r) ← readUint64 .fileLookupNumEntries r
  let (casLookupOffset, r) ← readUint64 .casLookupOffset r
  let (casLookupNumEntries, r) ← readUint64 .casLookupNumEntries r
  let (chunkLookupOffset, r) ← readUint64 .chunkLookupOffset r
  let (chunkLookupNumEntries, r) ← readUint64 .chunkLookupNumEntries r
  let (chunkHashKey, r) ← (readFull 32 r).mapError (.footerField .chunkHashKey)
  let (shardCreationTimestamp, r) ← readUint64 .shardCreationTimestamp r
  let (shardKeyExpiry, r) ← readUint64 .shardKeyExpiry r
  let (reserved, r) ← (readFull 48 r).mapError (.footerField .reserved)
  let (storedBytesOnDisk, r) ← readUint64 .storedBytesOnDisk r
  let (materializedBytes, r) ← readUint64 .materializedBytes r
  let (storedBytes, r) ← readUint64 .storedBytes r
  let (footerOffset, r) ← readUint64 .footerOffset r
  .ok ({ version, fileInfoOffset, casInfoOffset, fileLookupOffset, fileLookupNumEntries
         casLookupOffset, casLookupNumEntries, chunkLookupOffset, chunkLookupNumEntries
         chunkHashKey := Hash.ofBytes chunkHashKey, shardCreationTimestamp, shardKeyExpiry
         reserved := Reserved.ofBytes reserved, storedBytesOnDisk, materializedBytes, storedBytes
         footerOffset }, r)

/-- `io.CopyN` to nowhere: a count that is not positive as an `int64` skips nothing. -/
def drainFooter (size : UInt64) (r : Bytes) : Except (DecodeError ε) Bytes :=
  let n := (size - 200).toBitVec.toInt
  if size ≤ 200 ∨ n ≤ 0 then .ok r
  else if r.length < n.toNat then .error (.drainFooter .eof)
  else .ok (r.drop n.toNat)

def decodeFooterSection (size : UInt64) (r : Bytes) :
    Except (DecodeError ε) (Option Footer × Bytes) := do
  if size = 0 then .ok (none, r)
  else
    require (200 ≤ size) (.footerTooSmall size)
    let (footer, r) ← decodeFooter r
    let r ← drainFooter size r
    .ok (some footer, r)

def decodeHeader (withFooter : Bool) (r : Bytes) : Except (DecodeError ε) (UInt64 × Bytes) := do
  let (buf, r) ← (readFull 48 r).mapError .header
  require ((buf.drop 15).take 17 = shardMagicSequence) .magic
  let version := uint64 (buf.drop 32)
  require (version = 2) (.version version)
  let footerSize := uint64 (buf.drop 40)
  require (¬ (withFooter = true ∧ footerSize = 0)) .footerExpected
  require (¬ (withFooter = false ∧ footerSize ≠ 0)) (.footerUnexpected footerSize)
  .ok (footerSize, r)

/-- Decode into an empty shard; what follows the shard stays unread. -/
def decodeWithCASBlockCallback (r : Bytes) (withFooter : Bool) (onCASBlock : CASBlock → Except ε Unit) :
    Except (DecodeError ε) (Shard × Bytes) := do
  let (footerSize, r) ← decodeHeader withFooter r
  let (files, r) ← decodeFiles (r.length + 1) r
  let (casInfos, r) ← decodeCASInfos onCASBlock (r.length + 1) 0 r
  let (footer, r) ← decodeFooterSection footerSize r
  .ok (⟨footerSize, files, casInfos, footer⟩, r)

end

def decode (r : Bytes) (withFooter : Bool) : Except (DecodeError Empty) (Shard × Bytes) :=
  decodeWithCASBlockCallback r withFooter fun _ => .ok ()

end Xet.Shard
