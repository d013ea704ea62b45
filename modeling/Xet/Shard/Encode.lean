import Mathlib.Data.UInt
import Xet.Shard.Format

/-! The streaming shard encoder. It is a state machine over sections that a caller drains with
buffers of any sizes; the offsets in the footer are recorded as the sections go by. -/
namespace Xet.Shard
open Wire List Nat

@[ext] structure Record where
  hash : Hash
  a : UInt32
  b : UInt32
  c : UInt32
  d : UInt32
  deriving DecidableEq

namespace Record

def encode (r : Record) : Bytes :=
  r.hash.bytes ++ (putUint32 r.a ++ (putUint32 r.b ++ (putUint32 r.c ++ putUint32 r.d)))

def decode (buf : Bytes) : Record :=
  ⟨Hash.ofBytes buf, uint32 (buf.drop 32), uint32 (buf.drop 36), uint32 (buf.drop 40),
    uint32 (buf.drop 44)⟩

@[simp] theorem encode_length (r : Record) : r.encode.length = 48 := by
  simp [encode, r.hash.size]

@[simp] theorem decode_encode (r : Record) : decode r.encode = r := by
  have field : ∀ (w x y z : UInt32) (front : Bytes) (n : Nat), front.length = n →
      uint32 ((front ++ (putUint32 w ++ (putUint32 x ++ (putUint32 y ++ putUint32 z)))).drop n) = w := by
    intro w x y z front n len
    rw [drop_left' len, uint32_putUint32]
  have hash : Hash.ofBytes r.encode = r.hash := Hash.ofBytes_bytes r.hash _
  have first : uint32 (r.encode.drop 32) = r.a := field r.a r.b r.c r.d r.hash.bytes 32 r.hash.size
  have shift : ∀ n, r.encode.drop (32 + n) =
      (putUint32 r.a ++ (putUint32 r.b ++ (putUint32 r.c ++ putUint32 r.d))).drop n := by
    intro n
    rw [← drop_drop, encode, drop_left' r.hash.size]
  have second : uint32 (r.encode.drop 36) = r.b := by
    rw [shift 4, drop_left' (putUint32_length _), uint32_putUint32]
  have third : uint32 (r.encode.drop 40) = r.c := by
    rw [shift 8, ← append_assoc, drop_left' (by simp), uint32_putUint32]
  have fourth : uint32 (r.encode.drop 44) = r.d := by
    rw [shift 12, ← append_assoc, ← append_assoc, drop_left' (by simp)]
    simpa using uint32_putUint32 r.d []
  simp only [decode, hash, first, second, third, fourth]

end Record

/-- Thirty-two bytes 0xFF and sixteen zeros. -/
def bookend : Record := ⟨⟨replicate 32 0xFF, rfl⟩, 0, 0, 0, 0⟩

def FileBlock.header (fb : FileBlock) : Record :=
  ⟨fb.fileHash, fb.flags, UInt32.ofNat fb.entries.length, 0, 0⟩

def FileDataSequenceEntry.record (e : FileDataSequenceEntry) : Record :=
  ⟨e.casHash, e.casFlags, e.unpackedSegBytes, e.chunkIndexStart, e.chunkIndexEnd⟩

def hashRecord (h : Hash) : Record := ⟨h, 0, 0, 0, 0⟩

def CASBlock.header (cb : CASBlock) : Record :=
  ⟨cb.casHash, cb.casFlags, UInt32.ofNat cb.chunks.length, cb.numBytesInCAS, cb.numBytesOnDisk⟩

def CASChunkSequenceEntry.record (c : CASChunkSequenceEntry) : Record :=
  ⟨c.chunkHash, c.byteRangeStart, c.unpackedSegBytes, c.flags, 0⟩

def transformSHA256ByteOrder (h : SHA256Hash) : SHA256Hash :=
  ⟨(range 4).flatMap fun seg => ((h.bytes.drop (seg * 8)).take 8).reverse, by
    simp [range_succ, h.size]⟩

def buildHeader (footerSize : UInt64) : Bytes :=
  hfApplicationID ++ ([0] ++ (shardMagicSequence ++ (putUint64 2 ++ putUint64 footerSize)))

def buildVerification (fb : FileBlock) : Bytes :=
  if fb.flags &&& fileWithVerification ≠ 0 then
    fb.verification.flatMap fun v => (hashRecord v).encode
  else []

/-- A flag without an extension writes nothing. -/
def buildMetadataExt (fb : FileBlock) : Bytes :=
  if fb.flags &&& fileWithMetadataExt ≠ 0 then
    match fb.metadataExt with
    | some sha => (hashRecord (transformSHA256ByteOrder sha)).encode
    | none => []
  else []

def buildFileBlock (fb : FileBlock) : Bytes :=
  fb.header.encode ++ (fb.entries.flatMap (fun e => e.record.encode) ++
    (buildVerification fb ++ buildMetadataExt fb))

def buildCASBlock (cb : CASBlock) : Bytes :=
  cb.header.encode ++ cb.chunks.flatMap fun c => c.record.encode

def buildBookend : Bytes := bookend.encode

namespace Footer

def encode (f : Footer) : Bytes :=
  putUint64 f.version ++ (putUint64 f.fileInfoOffset ++ (putUint64 f.casInfoOffset ++
    (putUint64 f.fileLookupOffset ++ (putUint64 f.fileLookupNumEntries ++
    (putUint64 f.casLookupOffset ++ (putUint64 f.casLookupNumEntries ++
    (putUint64 f.chunkLookupOffset ++ (putUint64 f.chunkLookupNumEntries ++
    (f.chunkHashKey.bytes ++ (putUint64 f.shardCreationTimestamp ++ (putUint64 f.shardKeyExpiry ++
    (f.reserved.bytes ++ (putUint64 f.storedBytesOnDisk ++ (putUint64 f.materializedBytes ++
    (putUint64 f.storedBytes ++ putUint64 f.footerOffset)))))))))))))))

@[simp] theorem encode_length (f : Footer) : f.encode.length = 200 := by
  simp [encode, f.chunkHashKey.size, f.reserved.size]

/-- The footer with the recorded section offsets. This encoder writes no lookup tables; the
range of an empty one starts at the footer. -/
def withOffsets (f : Footer) (fileInfo casInfo footer : UInt64) : Footer :=
  { f with
    fileInfoOffset := fileInfo
    casInfoOffset := casInfo
    footerOffset := footer
    fileLookupOffset := if f.fileLookupNumEntries = 0 then footer else f.fileLookupOffset
    casLookupOffset := if f.casLookupNumEntries = 0 then footer else f.casLookupOffset
    chunkLookupOffset := if f.chunkLookupNumEntries = 0 then footer else f.chunkLookupOffset }

end Footer

def newFooter (s : Shard) (now : UInt64) : Footer :=
  { version := 1, fileInfoOffset := 0, casInfoOffset := 0, fileLookupOffset := 0
    fileLookupNumEntries := 0, casLookupOffset := 0, casLookupNumEntries := 0
    chunkLookupOffset := 0, chunkLookupNumEntries := 0, chunkHashKey := Hash.zero
    shardCreationTimestamp := now, shardKeyExpiry := ~~~ 0
    reserved := ⟨replicate 48 0, rfl⟩
    storedBytesOnDisk := (s.casInfos.map fun cb => cb.numBytesOnDisk.toUInt64).sum
    materializedBytes :=
      (s.files.map fun fb => (fb.entries.map fun e => e.unpackedSegBytes.toUInt64).sum).sum
    storedBytes := (s.casInfos.map fun cb => cb.numBytesInCAS.toUInt64).sum
    footerOffset := 0 }

structure ShardReader where
  shard : Shard
  withFooter : Bool
  footer : Footer
  footerSize : UInt64
  sectionIdx : Nat
  buffer : Bytes
  bufOffset : Nat
  footerWritten : Bool
  bytesWritten : Nat
  fileInfoOffset : UInt64
  casInfoOffset : UInt64
  footerOffset : UInt64

def encode (s : Shard) (withFooter : Bool) (now : UInt64) : ShardReader :=
  { shard := s, withFooter := withFooter, footer := s.footer.getD (s.newFooter now)
    footerSize := if withFooter then 200 else 0
    sectionIdx := 0, buffer := [], bufOffset := 0, footerWritten := false, bytesWritten := 0
    fileInfoOffset := 0, casInfoOffset := 0, footerOffset := 0 }

inductive EncodeResult where
  | data (b : Bytes)
  | eof
  | invalidSection (idx : Nat)
  deriving DecidableEq

namespace ShardReader

def numFiles (r : ShardReader) : Nat := r.shard.files.length
def numCAS (r : ShardReader) : Nat := r.shard.casInfos.length
def totalSections (r : ShardReader) : Nat := r.numFiles + r.numCAS + 3

def loadSection (r : ShardReader) (idx : Nat) : Option Bytes :=
  let casBookendIdx := r.numFiles + r.numCAS + 2
  if idx = 0 then some (buildHeader r.footerSize)
  else if 1 ≤ idx ∧ idx ≤ r.numFiles then r.shard.files[idx - 1]?.map buildFileBlock
  else if idx = r.numFiles + 1 then some buildBookend
  else if r.numFiles + 2 ≤ idx ∧ idx < casBookendIdx then
    r.shard.casInfos[idx - r.numFiles - 2]?.map buildCASBlock
  else if idx = casBookendIdx then some buildBookend
  else none

def load (r : ShardReader) : Option ShardReader :=
  if r.buffer.length ≤ r.bufOffset then
    (r.loadSection r.sectionIdx).map fun b => { r with buffer := b, bufOffset := 0 }
  else some r

def copyOut (r : ShardReader) (room : Nat) : Bytes × ShardReader :=
  let copied := (r.buffer.drop r.bufOffset).take room
  (copied, { r with
    bufOffset := r.bufOffset + copied.length
    bytesWritten := r.bytesWritten + copied.length })

/-- The section has been copied: record its end where the footer needs it and go on. -/
def finishSection (r : ShardReader) : ShardReader :=
  let here := UInt64.ofNat r.bytesWritten
  { r with
    fileInfoOffset := if r.sectionIdx = 0 then here else r.fileInfoOffset
    casInfoOffset := if r.sectionIdx = r.numFiles + 1 then here else r.casInfoOffset
    footerOffset := if r.sectionIdx = r.numFiles + r.numCAS + 2 then here else r.footerOffset
    sectionIdx := r.sectionIdx + 1
    buffer := []
    bufOffset := 0 }

def buildFooterBuffer (r : ShardReader) : ShardReader :=
  let f := r.footer.withOffsets r.fileInfoOffset r.casInfoOffset r.footerOffset
  { r with footer := f, buffer := f.encode, bufOffset := 0, footerWritten := true }

def finish (out : Bytes) (r : ShardReader) : EncodeResult × ShardReader :=
  if out.length > 0 then (.data out, r) else (.eof, r)

/-- The loop of `Read` with a buffer of `len` bytes, of which `out` have been filled. Every turn
copies a byte, ends a section or returns. -/
def readLoop (len : Nat) : Nat → ShardReader → Bytes → EncodeResult × ShardReader
  | 0, r, out => (.data out, r)
  | fuel + 1, r, out =>
    if out.length < len then
      if r.sectionIdx < r.totalSections then
        match r.load with
        | none => (.invalidSection r.sectionIdx, r)
        | some r =>
          let (copied, r) := r.copyOut (len - out.length)
          let r := if r.buffer.length ≤ r.bufOffset then r.finishSection else r
          readLoop len fuel r (out ++ copied)
      else if r.withFooter then
        let r := if r.footerWritten then r else r.buildFooterBuffer
        if r.bufOffset < r.buffer.length then
          let (copied, r) := r.copyOut (len - out.length)
          if r.bufOffset < r.buffer.length then readLoop len fuel r (out ++ copied)
          else finish (out ++ copied) r
        else finish out r
      else finish out r
    else (.data out, r)

def read (r : ShardReader) (len : Nat) : EncodeResult × ShardReader :=
  readLoop len (len + r.totalSections + 2) r []

def reads : List Nat → ShardReader → List EncodeResult × ShardReader
  | [], r => ([], r)
  | len :: rest, r =>
    let (first, r) := r.read len
    let (others, r) := reads rest r
    (first :: others, r)

end ShardReader

def sections (s : Shard) (footerSize : UInt64) : List Bytes :=
  buildHeader footerSize :: (s.files.map buildFileBlock ++
    (buildBookend :: (s.casInfos.map buildCASBlock ++ [buildBookend])))

def sectionEnd (s : Shard) (footerSize : UInt64) (k : Nat) : Nat :=
  ((s.sections footerSize).take k).flatten.length

def finalFooter (s : Shard) (now : UInt64) : Footer :=
  (s.footer.getD (s.newFooter now)).withOffsets (UInt64.ofNat (s.sectionEnd 200 1))
    (UInt64.ofNat (s.sectionEnd 200 (s.files.length + 2)))
    (UInt64.ofNat (s.sectionEnd 200 (s.files.length + s.casInfos.length + 3)))

def encodedBytes (s : Shard) (withFooter : Bool) (now : UInt64) : Bytes :=
  if withFooter then (s.sections 200).flatten ++ (s.finalFooter now).encode
  else (s.sections 0).flatten

theorem sections_length (s : Shard) (footerSize : UInt64) :
    (s.sections footerSize).length = s.files.length + s.casInfos.length + 3 := by
  simp only [sections, length_cons, length_append, length_map, length_nil]
  omega

theorem sectionEnd_succ (s : Shard) (footerSize : UInt64) {k : Nat} {b : Bytes}
    (here : (s.sections footerSize)[k]? = some b) :
    s.sectionEnd footerSize (k + 1) = s.sectionEnd footerSize k + b.length := by
  simp only [sectionEnd, take_add_one, here, Option.toList_some, flatten_append, flatten_singleton, length_append]

theorem sections_ne_nil {s : Shard} {footerSize : UInt64} {k : Nat} {b : Bytes}
    (here : (s.sections footerSize)[k]? = some b) : b ≠ [] := by
  have member := mem_of_getElem? here
  have record : ∀ (r : Record) (rest : Bytes), r.encode ++ rest ≠ [] := by
    intro r rest empty
    have len := congrArg length empty
    simp at len
  simp only [sections, mem_cons, mem_append, mem_map, not_mem_nil, or_false] at member
  rcases member with rfl | ⟨fb, -, rfl⟩ | rfl | ⟨cb, -, rfl⟩ | rfl
  · simp [buildHeader, hfApplicationID]
  · exact record _ _
  · simpa [buildBookend] using record bookend []
  · exact record _ _
  · simpa [buildBookend] using record bookend []

namespace ShardReader

theorem loadSection_eq (r : ShardReader) {idx : Nat} (bound : idx < r.totalSections) :
    r.loadSection idx = (r.shard.sections r.footerSize)[idx]? := by
  have files : r.numFiles = r.shard.files.length := rfl
  have blocks : r.numCAS = r.shard.casInfos.length := rfl
  have total : r.totalSections = r.numFiles + r.numCAS + 3 := rfl
  simp only [loadSection, sections]
  rcases idx with _ | idx
  · simp
  · rw [if_neg (by omega), getElem?_cons_succ]
    by_cases inFiles : idx < r.shard.files.length
    · rw [if_pos (by omega), getElem?_append_left (by simpa using inFiles)]
      simp
    · rw [if_neg (by omega), getElem?_append_right (by simpa using inFiles)]
      simp only [length_map]
      rcases rest : idx - r.shard.files.length with _ | k
      · rw [if_pos (by omega)]; simp
      · rw [if_neg (by omega), getElem?_cons_succ]
        by_cases inCAS : k < r.shard.casInfos.length
        · rw [if_pos (by omega), getElem?_append_left (by simpa using inCAS),
            show idx + 1 - r.numFiles - 2 = k by omega]
          simp
        · rw [if_neg (by omega), if_pos (by omega), getElem?_append_right (by simpa using inCAS),
            length_map, show k - r.shard.casInfos.length = 0 by omega]
          simp

def footerSizeOf (withFooter : Bool) : UInt64 := if withFooter then 200 else 0

def tailBytes (s : Shard) (withFooter : Bool) (now : UInt64) : Bytes :=
  if withFooter then (s.finalFooter now).encode else []

/-- The reader stands in the sections and `rest` is still to come. Offsets are known for the
sections that are behind it. -/
structure InSections (s : Shard) (withFooter : Bool) (now : UInt64) (r : ShardReader)
    (rest : Bytes) : Prop where
  shard : r.shard = s
  mode : r.withFooter = withFooter
  size : r.footerSize = footerSizeOf withFooter
  footer : r.footer = s.footer.getD (s.newFooter now)
  unwritten : r.footerWritten = false
  bound : r.sectionIdx ≤ s.files.length + s.casInfos.length + 3
  position : r.bytesWritten = s.sectionEnd (footerSizeOf withFooter) r.sectionIdx + r.bufOffset
  fileInfo : 0 < r.sectionIdx →
    r.fileInfoOffset = UInt64.ofNat (s.sectionEnd (footerSizeOf withFooter) 1)
  casInfo : s.files.length + 1 < r.sectionIdx → r.casInfoOffset =
    UInt64.ofNat (s.sectionEnd (footerSizeOf withFooter) (s.files.length + 2))
  footerAt : s.files.length + s.casInfos.length + 2 < r.sectionIdx → r.footerOffset =
    UInt64.ofNat (s.sectionEnd (footerSizeOf withFooter) (s.files.length + s.casInfos.length + 3))
  buffered : (r.buffer = [] ∧ r.bufOffset = 0) ∨
    ((s.sections (footerSizeOf withFooter))[r.sectionIdx]? = some r.buffer ∧
      r.bufOffset < r.buffer.length)
  rest_eq : rest = (((s.sections (footerSizeOf withFooter)).drop r.sectionIdx).flatten).drop
    r.bufOffset ++ tailBytes s withFooter now

section
variable {s : Shard} {withFooter : Bool} {now : UInt64} {r : ShardReader} {rest : Bytes}

theorem InSections.start : InSections s withFooter now (s.encode withFooter now)
    ((s.sections (footerSizeOf withFooter)).flatten ++ tailBytes s withFooter now) where
  shard := rfl
  mode := rfl
  size := rfl
  footer := rfl
  unwritten := rfl
  bound := zero_le _
  position := rfl
  fileInfo := fun h => absurd h (lt_irrefl 0)
  casInfo := fun h => absurd h (not_lt_zero _)
  footerAt := fun h => absurd h (not_lt_zero _)
  buffered := .inl ⟨rfl, rfl⟩
  rest_eq := rfl

theorem InSections.load (inv : InSections s withFooter now r rest)
    (more : r.sectionIdx < s.files.length + s.casInfos.length + 3) :
    ∃ r', r.load = some r' ∧ InSections s withFooter now r' rest ∧
      (s.sections (footerSizeOf withFooter))[r'.sectionIdx]? = some r'.buffer ∧
      r'.bufOffset < r'.buffer.length ∧ r'.sectionIdx = r.sectionIdx := by
  rcases inv.buffered with ⟨empty, zero⟩ | ⟨here, left⟩
  · have inside : r.sectionIdx < (s.sections (footerSizeOf withFooter)).length := by
      rw [sections_length]; exact more
    have found : (s.sections (footerSizeOf withFooter))[r.sectionIdx]? =
        some (s.sections (footerSizeOf withFooter))[r.sectionIdx] := getElem?_eq_getElem inside
    have loaded : r.loadSection r.sectionIdx = (s.sections (footerSizeOf withFooter))[r.sectionIdx]? := by
      rw [loadSection_eq r (by simpa [totalSections, numFiles, numCAS, inv.shard] using more),
        inv.shard, inv.size]
    have drained : r.buffer.length ≤ r.bufOffset := by rw [empty, zero]; exact le_refl 0
    have positive := length_pos_iff.mpr (sections_ne_nil found)
    refine ⟨{ r with buffer := _, bufOffset := 0 }, ?_, ?_, found, positive, rfl⟩
    · rw [ShardReader.load, if_pos drained, loaded, found, Option.map_some]
    · exact { inv with
        position := by have := inv.position; rw [zero] at this; exact this
        buffered := .inr ⟨found, positive⟩
        rest_eq := by have := inv.rest_eq; rw [zero] at this; exact this }
  · exact ⟨r, by rw [ShardReader.load, if_neg (not_le.mpr left)], inv, here, left, rfl⟩

theorem copyOut_length (r : ShardReader) (room : Nat) :
    (r.copyOut room).1.length = min room (r.buffer.length - r.bufOffset) := by
  simp only [copyOut, length_take, length_drop]

theorem copyOut_cut (r : ShardReader) (room : Nat) :
    r.buffer.drop r.bufOffset =
      (r.copyOut room).1 ++ r.buffer.drop (r.bufOffset + (r.copyOut room).1.length) := by
  have front : (r.copyOut room).1 = (r.buffer.drop r.bufOffset).take (r.copyOut room).1.length := by
    rw [copyOut_length, ← length_drop]
    simp only [copyOut]
    rw [take_eq_take_iff]
    omega
  have bound := copyOut_length r room
  conv_rhs => rw [front, ← drop_drop]
  rw [length_take_of_le (by rw [length_drop]; omega), take_append_drop]

/-- Copying delivers the next bytes; when the section is through, its end is recorded. -/
theorem InSections.copy (inv : InSections s withFooter now r rest)
    (here : (s.sections (footerSizeOf withFooter))[r.sectionIdx]? = some r.buffer)
    (left : r.bufOffset < r.buffer.length) {room : Nat} (positive : 0 < room) :
    let c := r.copyOut room
    c.1 ≠ [] ∧ c.1.length ≤ room ∧ ∃ rest', rest = c.1 ++ rest' ∧
      InSections s withFooter now
        (if c.2.buffer.length ≤ c.2.bufOffset then c.2.finishSection else c.2) rest' := by
  intro c
  have inside : r.sectionIdx < s.files.length + s.casInfos.length + 3 := by
    rw [← sections_length s (footerSizeOf withFooter)]
    exact (List.getElem?_eq_some_iff.mp here).1
  have length : c.1.length = min room (r.buffer.length - r.bufOffset) := copyOut_length r room
  have cut : r.buffer.drop r.bufOffset = c.1 ++ r.buffer.drop (r.bufOffset + c.1.length) :=
    copyOut_cut r room
  have split : (s.sections (footerSizeOf withFooter)).drop r.sectionIdx =
      r.buffer :: (s.sections (footerSizeOf withFooter)).drop (r.sectionIdx + 1) := by
    obtain ⟨bound, value⟩ := List.getElem?_eq_some_iff.mp here
    rw [← value]
    exact drop_eq_getElem_cons bound
  have stream : rest = c.1 ++ (r.buffer.drop (r.bufOffset + c.1.length) ++
      (((s.sections (footerSizeOf withFooter)).drop (r.sectionIdx + 1)).flatten ++
        tailBytes s withFooter now)) := by
    rw [inv.rest_eq, split, flatten_cons, drop_append_of_le_length (le_of_lt left), cut]
    simp only [append_assoc]
  refine ⟨length_pos_iff.mp (by omega), by omega, _, stream, ?_⟩
  have written : c.2.bytesWritten = s.sectionEnd (footerSizeOf withFooter) r.sectionIdx +
      (r.bufOffset + c.1.length) := by
    have := inv.position
    simp only [c, copyOut] at *
    omega
  by_cases through : c.2.buffer.length ≤ c.2.bufOffset
  · have ends : r.bufOffset + c.1.length = r.buffer.length := by
      have : r.buffer.length ≤ r.bufOffset + c.1.length := through
      omega
    have next := s.sectionEnd_succ (footerSizeOf withFooter) here
    have position : c.2.bytesWritten = s.sectionEnd (footerSizeOf withFooter) (r.sectionIdx + 1) := by
      rw [written, ends, next]
    have files : c.2.numFiles = s.files.length := by
      show r.shard.files.length = _
      rw [inv.shard]
    have blocks : c.2.numCAS = s.casInfos.length := by
      show r.shard.casInfos.length = _
      rw [inv.shard]
    have index : c.2.sectionIdx = r.sectionIdx := rfl
    rw [if_pos through, ends, drop_length, nil_append]
    exact {
      shard := inv.shard
      mode := inv.mode
      size := inv.size
      footer := inv.footer
      unwritten := inv.unwritten
      bound := inside
      position := position
      fileInfo := by
        intro _
        simp only [finishSection, index]
        by_cases now' : r.sectionIdx = 0
        · rw [if_pos now', position, now']
        · rw [if_neg now']
          exact inv.fileInfo (by omega)
      casInfo := by
        intro bound
        simp only [finishSection, index, files] at bound ⊢
        by_cases now' : r.sectionIdx = s.files.length + 1
        · rw [if_pos now', position, now']
        · rw [if_neg now']
          exact inv.casInfo (by omega)
      footerAt := by
        intro bound
        simp only [finishSection, index, files, blocks] at bound ⊢
        by_cases now' : r.sectionIdx = s.files.length + s.casInfos.length + 2
        · rw [if_pos now', position, now']
        · rw [if_neg now']
          exact inv.footerAt (by omega)
      buffered := .inl ⟨rfl, rfl⟩
      rest_eq := rfl }
  · have short : r.bufOffset + c.1.length < r.buffer.length := not_le.mp through
    rw [if_neg through]
    exact {
      shard := inv.shard
      mode := inv.mode
      size := inv.size
      footer := inv.footer
      unwritten := inv.unwritten
      bound := inv.bound
      position := written
      fileInfo := inv.fileInfo
      casInfo := inv.casInfo
      footerAt := inv.footerAt
      buffered := .inr ⟨here, short⟩
      rest_eq := by
        show _ = ((s.sections (footerSizeOf withFooter)).drop r.sectionIdx).flatten.drop
          (r.bufOffset + c.1.length) ++ _
        rw [split, flatten_cons, drop_append_of_le_length (le_of_lt short), append_assoc] }

/-- The reader stands in the footer and `rest` of it is still to come. -/
structure InFooter (s : Shard) (now : UInt64) (r : ShardReader) (rest : Bytes) : Prop where
  shard : r.shard = s
  mode : r.withFooter = true
  through : r.sectionIdx = s.files.length + s.casInfos.length + 3
  written : r.footerWritten = true
  buffer : r.buffer = (s.finalFooter now).encode
  rest_eq : rest = r.buffer.drop r.bufOffset

def Streams (s : Shard) (withFooter : Bool) (now : UInt64) (r : ShardReader) (rest : Bytes) : Prop :=
  InSections s withFooter now r rest ∨ (withFooter = true ∧ InFooter s now r rest)

theorem InSections.buildFooter (inv : InSections s true now r rest)
    (last : r.sectionIdx = s.files.length + s.casInfos.length + 3) : InFooter s now r.buildFooterBuffer rest := by
  have content : r.footer.withOffsets r.fileInfoOffset r.casInfoOffset r.footerOffset =
      s.finalFooter now := by
    rw [inv.footer, inv.fileInfo (by omega), inv.casInfo (by omega), inv.footerAt (by omega)]
    rfl
  refine ⟨inv.shard, inv.mode, last, rfl, ?_, ?_⟩
  · simp only [buildFooterBuffer, content]
  · have none_left : (s.sections (footerSizeOf true)).drop r.sectionIdx = [] := by
      apply drop_eq_nil_of_le
      rw [sections_length, last]
    simp only [buildFooterBuffer, content, inv.rest_eq, none_left, flatten_nil, drop_nil,
      nil_append, drop_zero, tailBytes, if_true]

theorem InFooter.copy (inv : InFooter s now r rest) (left : r.bufOffset < r.buffer.length)
    {room : Nat} (positive : 0 < room) :
    let c := r.copyOut room
    c.1 ≠ [] ∧ c.1.length ≤ room ∧ ∃ rest', rest = c.1 ++ rest' ∧ InFooter s now c.2 rest' := by
  intro c
  have length : c.1.length = min room (r.buffer.length - r.bufOffset) := copyOut_length r room
  have cut : rest = c.1 ++ r.buffer.drop (r.bufOffset + c.1.length) :=
    inv.rest_eq.trans (copyOut_cut r room)
  exact ⟨length_pos_iff.mp (by omega), by omega, _, cut, inv.shard, inv.mode, inv.through,
    inv.written, inv.buffer, rfl⟩

/-- The outcome of a read that may deliver `out`: the end only when there is room and nothing. -/
def outcome (len : Nat) (out : Bytes) : EncodeResult :=
  if 0 < len ∧ out = [] then .eof else .data out

variable {len : Nat} {out : Bytes}

theorem outcome_data (h : len = 0 ∨ out ≠ []) : outcome len out = .data out := by
  apply if_neg
  rintro ⟨positive, empty⟩
  rcases h with rfl | h
  · exact lt_irrefl 0 positive
  · exact h empty

theorem finish_eq (positive : 0 < len) (out : Bytes) (r : ShardReader) : finish out r = (outcome len out, r) := by
  unfold finish outcome
  by_cases empty : out = []
  · rw [if_neg (by simp [empty]), if_pos ⟨positive, empty⟩]
  · rw [if_pos (length_pos_iff.mpr empty), if_neg (fun h => empty h.2)]

/-- What a loop must deliver that starts with `out` in the buffer and `rest` to come. -/
def Delivers (s : Shard) (withFooter : Bool) (now : UInt64) (len : Nat) (out rest : Bytes)
    (result : EncodeResult × ShardReader) : Prop :=
  result.1 = outcome len (out ++ rest.take (len - out.length)) ∧
    Streams s withFooter now result.2 (rest.drop (len - out.length))

theorem Delivers.copied {copied rest' : Bytes} {result : EncodeResult × ShardReader}
    (fits : copied.length ≤ len - out.length) (h : Delivers s withFooter now len (out ++ copied) rest' result) :
    Delivers s withFooter now len out (copied ++ rest') result := by
  have left : len - (out ++ copied).length = len - out.length - copied.length := by
    rw [length_append]; omega
  obtain ⟨value, state⟩ := h
  rw [left] at value state
  constructor
  · rw [value, take_append, take_of_length_le fits, append_assoc]
  · rw [drop_append, drop_eq_nil_of_le fits]
    exact state

theorem Delivers.finish (positive : 0 < len) (inv : Streams s withFooter now r []) :
    Delivers s withFooter now len out [] (finish out r) := by
  rw [finish_eq positive]
  constructor
  · simp
  · simpa using inv

theorem readLoop_spec {fuel : Nat} (inv : Streams s withFooter now r rest) (room : out.length ≤ len)
    (enough : len < out.length + fuel) : Delivers s withFooter now len out rest (readLoop len fuel r out) := by
  induction fuel generalizing r rest out with
  | zero => omega
  | succ fuel ih =>
    unfold readLoop
    by_cases more : out.length < len
    · rw [if_pos more]
      have positive : 0 < len := by omega
      -- A turn that copies leaves the rest to the induction hypothesis.
      have turn : ∀ {r' : ShardReader} {copied rest' : Bytes}, copied ≠ [] →
          copied.length ≤ len - out.length → Streams s withFooter now r' rest' →
          Delivers s withFooter now len out (copied ++ rest') (readLoop len fuel r' (out ++ copied)) := by
        intro r' copied rest' nonempty fits inv'
        have := length_pos_iff.mpr nonempty
        apply Delivers.copied fits
        apply ih inv' <;> rw [length_append] <;> omega
      have footer : ∀ {r' : ShardReader}, InFooter s now r' rest → withFooter = true →
          Delivers s withFooter now len out rest
            (if r'.bufOffset < r'.buffer.length then
              let (copied, r) := r'.copyOut (len - out.length)
              if r.bufOffset < r.buffer.length then readLoop len fuel r (out ++ copied)
              else ShardReader.finish (out ++ copied) r
            else ShardReader.finish out r') := by
        intro r' inv' mode
        by_cases left : r'.bufOffset < r'.buffer.length
        · rw [if_pos left]
          obtain ⟨nonempty, fits, rest', shape, next⟩ :=
            inv'.copy left (show 0 < len - out.length by omega)
          rw [shape]
          dsimp only
          split
          · exact turn nonempty fits (.inr ⟨mode, next⟩)
          · rename_i drained
            have nothing : rest' = [] := by
              rw [next.rest_eq]
              exact drop_eq_nil_of_le (not_lt.mp drained)
            subst nothing
            exact (Delivers.finish positive (.inr ⟨mode, next⟩)).copied fits
        · rw [if_neg left]
          have nothing : rest = [] := by
            rw [inv'.rest_eq]
            exact drop_eq_nil_of_le (not_lt.mp left)
          subst nothing
          exact Delivers.finish positive (.inr ⟨mode, inv'⟩)
      rcases inv with inv | ⟨mode, inv⟩
      · have total : r.totalSections = s.files.length + s.casInfos.length + 3 := by
          rw [totalSections, numFiles, numCAS, inv.shard]
        by_cases inside : r.sectionIdx < s.files.length + s.casInfos.length + 3
        · obtain ⟨r', loaded, inv', here, left, -⟩ := inv.load inside
          rw [if_pos (total ▸ inside), loaded]
          obtain ⟨nonempty, fits, rest', shape, next⟩ :=
            inv'.copy here left (show 0 < len - out.length by omega)
          rw [shape]
          exact turn nonempty fits (.inl next)
        · have last := le_antisymm inv.bound (not_lt.mp inside)
          rw [if_neg (total ▸ inside), inv.mode]
          cases withFooter with
          | true =>
            have fresh : ¬ r.footerWritten = true := by simp [inv.unwritten]
            simp only [if_true, if_neg fresh]
            exact footer (inv.buildFooter last) rfl
          | false =>
            have nothing : rest = [] := by
              have past : (s.sections (footerSizeOf false)).drop r.sectionIdx = [] :=
                drop_eq_nil_of_le (by rw [sections_length, last])
              simp [inv.rest_eq, past, tailBytes]
            subst nothing
            exact Delivers.finish positive (.inl inv)
      · have total : r.totalSections = s.files.length + s.casInfos.length + 3 := by
          rw [totalSections, numFiles, numCAS, inv.shard]
        rw [if_neg (by rw [total, inv.through]; exact lt_irrefl _), if_pos inv.mode,
          if_pos inv.written]
        exact footer inv mode
    · rw [if_neg more]
      have full : len - out.length = 0 := by omega
      constructor
      · rw [full, take_zero, append_nil]
        refine (outcome_data ?_).symm
        rcases Nat.eq_zero_or_pos len with zero | positive
        · exact .inl zero
        · exact .inr (length_pos_iff.mp (by omega))
      · rw [full, drop_zero]
        exact inv

theorem read_spec (inv : Streams s withFooter now r rest) (len : Nat) :
    (r.read len).1 = outcome len (rest.take len) ∧
      Streams s withFooter now (r.read len).2 (rest.drop len) := by
  have enough : len < ([] : Bytes).length + (len + r.totalSections + 2) := by
    simp only [length_nil]; omega
  obtain ⟨value, state⟩ := readLoop_spec inv (zero_le len) enough
  exact ⟨value, state⟩

end

end ShardReader

def received (results : List EncodeResult) : Bytes :=
  results.flatMap fun
    | .data b => b
    | .eof => []
    | .invalidSection _ => []

theorem received_outcome (len : Nat) (out : Bytes) (others : List EncodeResult) :
    received (ShardReader.outcome len out :: others) = out ++ received others := by
  rw [ShardReader.outcome]
  split
  · rename_i ended
    rw [ended.2]
    rfl
  · rfl

namespace ShardReader
variable {s : Shard} {withFooter : Bool} {now : UInt64} {r : ShardReader} {rest : Bytes}

theorem reads_cons (r : ShardReader) (len : Nat) (lens : List Nat) :
    (r.reads (len :: lens)).1 = (r.read len).1 :: ((r.read len).2.reads lens).1 := rfl

section
variable (inv : Streams s withFooter now r rest)
include inv

theorem reads_state (lens : List Nat) : Streams s withFooter now (r.reads lens).2 (rest.drop lens.sum) := by
  induction lens generalizing r rest with
  | nil => exact inv
  | cons len lens ih =>
    have := ih (read_spec inv len).2
    rw [drop_drop] at this
    exact this

theorem reads_received (lens : List Nat) : received (r.reads lens).1 = rest.take lens.sum := by
  induction lens generalizing r rest with
  | nil => rfl
  | cons len lens ih =>
    obtain ⟨value, state⟩ := read_spec inv len
    calc received (r.reads (len :: lens)).1
        = rest.take len ++ (rest.drop len).take lens.sum := by
          rw [reads_cons, value, received_outcome, ih state]
      _ = rest.take (len :: lens).sum := by rw [sum_cons, take_add]

theorem reads_valid (lens : List Nat) (idx : Nat) : EncodeResult.invalidSection idx ∉ (r.reads lens).1 := by
  induction lens generalizing r rest with
  | nil => exact not_mem_nil
  | cons len lens ih =>
    obtain ⟨value, state⟩ := read_spec inv len
    rw [reads_cons, value, mem_cons, not_or]
    constructor
    · unfold outcome
      split <;> exact nofun
    · exact ih state

theorem reads_eof {lens : List Nat} (ended : EncodeResult.eof ∈ (r.reads lens).1) : rest.length ≤ lens.sum := by
  induction lens generalizing r rest with
  | nil => cases ended
  | cons len lens ih =>
    obtain ⟨value, state⟩ := read_spec inv len
    rw [sum_cons]
    rw [reads_cons, value] at ended
    rcases mem_cons.mp ended with here | later
    · rw [outcome] at here
      split at here
      · rename_i last
        have short := congrArg length last.2
        simp only [length_take, length_nil] at short
        omega
      · cases here
    · have short := ih state later
      rw [length_drop] at short
      omega

end

end ShardReader

def fileInfoSection (s : Shard) : Bytes := s.files.flatMap buildFileBlock ++ buildBookend
def casInfoSection (s : Shard) : Bytes := s.casInfos.flatMap buildCASBlock ++ buildBookend

theorem sections_flatten (s : Shard) (footerSize : UInt64) :
    (s.sections footerSize).flatten =
      buildHeader footerSize ++ (s.fileInfoSection ++ s.casInfoSection) := by
  simp only [sections, fileInfoSection, casInfoSection, flatten_cons, flatten_append,
    flatten_nil, append_nil, flatMap, append_assoc]

theorem sectionEnd_header (s : Shard) (footerSize : UInt64) :
    s.sectionEnd footerSize 1 = (buildHeader footerSize).length := by
  simp only [sectionEnd, sections, take_succ_cons, take_zero, flatten_singleton]

theorem sectionEnd_files (s : Shard) (footerSize : UInt64) :
    s.sectionEnd footerSize (s.files.length + 2) =
      (buildHeader footerSize ++ s.fileInfoSection).length := by
  have behind : (s.sections footerSize).take (s.files.length + 2) =
      buildHeader footerSize :: (s.files.map buildFileBlock ++ [buildBookend]) := by
    rw [sections, take_succ_cons, take_append, length_map, take_of_length_le (by simp), Nat.add_sub_cancel_left]
    rfl
  simp only [sectionEnd, behind, fileInfoSection, flatten_cons, flatten_append, flatten_nil, append_nil, flatMap]

theorem sectionEnd_all (s : Shard) (footerSize : UInt64) :
    s.sectionEnd footerSize (s.files.length + s.casInfos.length + 3) =
      (buildHeader footerSize ++ (s.fileInfoSection ++ s.casInfoSection)).length := by
  rw [sectionEnd, take_of_length_le (by rw [sections_length]), sections_flatten]

@[simp] theorem buildHeader_length (footerSize : UInt64) : (buildHeader footerSize).length = 48 := by
  simp [buildHeader, hfApplicationID, shardMagicSequence]

@[simp] theorem buildBookend_length : buildBookend.length = 48 := Record.encode_length _

theorem flatMap_records {α : Type} (f : α → Record) (xs : List α) :
    (xs.flatMap fun x => (f x).encode).length = xs.length * 48 := by
  rw [length_flatMap]
  simp only [Record.encode_length, map_const', sum_replicate_nat]

theorem buildCASBlock_length (cb : CASBlock) : (buildCASBlock cb).length = cb.encodedSize := by
  rw [buildCASBlock, length_append, flatMap_records, Record.encode_length, CASBlock.encodedSize]

theorem buildVerification_length (fb : FileBlock) : (buildVerification fb).length =
    if fb.flags &&& fileWithVerification ≠ 0 then fb.verification.length * 48 else 0 := by
  unfold buildVerification
  split
  · exact flatMap_records hashRecord _
  · rfl

theorem buildMetadataExt_length {fb : FileBlock} (regular : fb.Regular) :
    (buildMetadataExt fb).length = if fb.flags &&& fileWithMetadataExt ≠ 0 then 48 else 0 := by
  unfold buildMetadataExt
  split
  · rename_i flagged
    obtain ⟨sha, present⟩ := Option.isSome_iff_exists.mp (regular.metadata flagged)
    rw [present]
    exact Record.encode_length _
  · rfl

theorem buildFileBlock_length {fb : FileBlock} (regular : fb.Regular) :
    (buildFileBlock fb).length = fb.encodedSize := by
  simp only [buildFileBlock, FileBlock.encodedSize, length_append, Record.encode_length,
    flatMap_records, buildVerification_length, buildMetadataExt_length regular]
  omega

theorem encodedBytes_length {s : Shard} (regular : ∀ fb ∈ s.files, fb.Regular) (withFooter : Bool)
    (now : UInt64) : (s.encodedBytes withFooter now).length = s.encodedSize withFooter := by
  have files : (s.files.flatMap buildFileBlock).length = (s.files.map FileBlock.encodedSize).sum := by
    rw [length_flatMap]
    exact congrArg sum (map_congr_left fun fb member => buildFileBlock_length (regular fb member))
  have blocks : (s.casInfos.flatMap buildCASBlock).length =
      (s.casInfos.map CASBlock.encodedSize).sum := by
    rw [length_flatMap]
    exact congrArg sum (map_congr_left fun cb _ => buildCASBlock_length cb)
  have body : ∀ footerSize, ((s.sections footerSize).flatten).length =
      48 + ((s.files.map FileBlock.encodedSize).sum + 48 +
        ((s.casInfos.map CASBlock.encodedSize).sum + 48)) := by
    intro footerSize
    rw [sections_flatten, fileInfoSection, casInfoSection, length_append, length_append,
      length_append, length_append, files, blocks, buildHeader_length, buildBookend_length]
  cases withFooter with
  | true =>
    simp only [encodedBytes, encodedSize, if_true, length_append, body, Footer.encode_length]
    omega
  | false =>
    simp only [encodedBytes, encodedSize, Bool.false_eq_true, if_false, body]
    omega

theorem streams_start (s : Shard) (withFooter : Bool) (now : UInt64) :
    ShardReader.Streams s withFooter now (s.encode withFooter now) (s.encodedBytes withFooter now) := by
  have start : ShardReader.InSections s withFooter now (s.encode withFooter now) _ := .start
  cases withFooter with
  | true => exact .inl start
  | false =>
    refine .inl ?_
    simpa [ShardReader.tailBytes, ShardReader.footerSizeOf, encodedBytes] using start

end Xet.Shard
