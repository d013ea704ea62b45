import Xet.Shard.Format
import Xet.Xorb.Footer

/-! What the fetcher of a reconstructed file reads for a term: the packed frames of its chunks, and how
reading ends. -/
namespace Xet.Pipeline
open Wire Shard

def frameBufSize : Nat := maxChunkSize + Xorb.chunkHeaderSize

/-- What a reader delivers from some position on, before it ends or fails. -/
structure Stream (ε : Type) where
  bytes : Bytes
  failed : Option ε

/-- The storage as the fetcher sees it: the chunk ends of a xorb, and its bytes from a position on. -/
structure XorbSource (ε : Type) where
  getXorbChunkOffsets : XorbHash → Except ε (List Nat)
  getXorbReadSeekCloser : XorbHash → Except ε (Int → Except ε (Stream ε))

inductive FetchError (ε : Type) where
  | locate (hash : XorbHash) (e : ε)
  | locateRange (hash : XorbHash) (e : Xorb.RangeError)
  | invalidByteRange (hash : XorbHash) (start last : Int)
  | openXorb (hash : XorbHash) (e : ε)
  | seekXorb (hash : XorbHash) (start : Int) (e : ε)
  | packedSize (hash : XorbHash) (index : Nat) (packed : Int)
  | unexpectedEOF (hash : XorbHash) (index : Nat)
  | read (hash : XorbHash) (index : Nat) (e : ε)
  | header (hash : XorbHash) (index : Nat) (e : Xorb.ChunkError)
  | frameSize (hash : XorbHash) (index compressedSize packed : Nat)
  | tooLong (hash : XorbHash) (index expected : Nat)
  | termSize (hash : XorbHash) (unpacked expected : Nat)
  deriving DecidableEq

structure Fetched where
  hash : XorbHash
  index : Nat
  header : Xorb.ChunkHeader
  packed : Bytes
  deriving DecidableEq

/-- How reading a term ends: well; with an error while the fetcher has no frame; with an error and a
frame without a buffer; or with an error and a frame whose buffer got some bytes. -/
inductive FetchEnd (ε : Type) where
  | done
  | idle (e : FetchError ε)
  | taken (e : FetchError ε)
  | buffered (bytes : Bytes) (e : FetchError ε)
  deriving DecidableEq

def FetchEnd.error {ε : Type} : FetchEnd ε → Option (FetchError ε)
  | .done => none
  | .idle e => some e
  | .taken e => some e
  | .buffered _ e => some e

structure TermFetch (ε : Type) where
  chunks : List Fetched
  stop : FetchEnd ε

section
variable {ε : Type}

/-- The bytes from `start` to `last` of a stored xorb. A short xorb ends early. -/
def openXorbRange (source : XorbSource ε) (hash : XorbHash) (start last : Int) : Except (FetchError ε) (Stream ε) := do
  require (0 ≤ start ∧ start ≤ last) (.invalidByteRange hash start last)
  let seek ← (source.getXorbReadSeekCloser hash).mapError (.openXorb hash)
  let stream ← (seek start).mapError (.seekXorb hash start)
  let limit := (last - start + 1).toNat
  return if limit ≤ stream.bytes.length then ⟨stream.bytes.take limit, none⟩ else stream

def readFrame (hash : XorbHash) (index size : Nat) (s : Stream ε) : Except (FetchError ε) (Bytes × Stream ε) :=
  if size ≤ s.bytes.length then .ok (s.bytes.take size, { s with bytes := s.bytes.drop size })
  else match s.failed with
    | none => .error (.unexpectedEOF hash index)
    | some e => .error (.read hash index e)

/-- The header of a frame, and the checks of its sizes against the frame and the term. -/
def checkFrame (hash : XorbHash) (index expected unpacked : Nat) (frame : Bytes) :
    Except (FetchError ε) Xorb.ChunkHeader := do
  let h ← (Xorb.parseChunkHeader (frame.take Xorb.chunkHeaderSize)).mapError (.header hash index)
  require (h.compressedSize + Xorb.chunkHeaderSize = frame.length) (.frameSize hash index h.compressedSize frame.length)
  require (unpacked + h.uncompressedSize ≤ expected) (.tooLong hash index expected)
  return h

/-- The `n` chunks from `index` on, the first of them at `start` in the xorb, behind chunks of the term
that unpack to `unpacked` bytes. -/
def fetchChunks (hash : XorbHash) (expected : Nat) (offsets : List Nat) :
    Nat → Nat → Int → Nat → Stream ε → TermFetch ε
  | 0, _, _, unpacked, _ =>
    ⟨[], if unpacked = expected then .done else .idle (.termSize hash unpacked expected)⟩
  | n + 1, index, start, unpacked, s =>
    let stop : Int := offsets.getD index 0
    let packed := stop - start
    if packed < Xorb.chunkHeaderSize ∨ frameBufSize < packed then ⟨[], .taken (.packedSize hash index packed)⟩
    else match readFrame hash index packed.toNat s with
      | .error e => ⟨[], .buffered s.bytes e⟩
      | .ok (frame, s) =>
        match checkFrame hash index expected unpacked frame with
        | .error e => ⟨[], .buffered frame e⟩
        | .ok h =>
          let rest := fetchChunks hash expected offsets n (index + 1) stop (unpacked + h.uncompressedSize) s
          ⟨⟨hash, index, h, frame⟩ :: rest.chunks, rest.stop⟩

def locateTerm (source : XorbSource ε) (term : FileDataSequenceEntry) :
    Except (FetchError ε) (List Nat × Int × Stream ε) := do
  let offsets ← (source.getXorbChunkOffsets term.casHash).mapError (.locate term.casHash)
  let (start, last) ← (Xorb.chunkDataRangeFromOffsets offsets term.chunkIndexStart.toNat
    term.chunkIndexEnd.toNat).mapError (.locateRange term.casHash)
  let stream ← openXorbRange source term.casHash start last
  return (offsets, start, stream)

def fetchTerm (source : XorbSource ε) (term : FileDataSequenceEntry) : TermFetch ε :=
  match locateTerm source term with
  | .error e => ⟨[], .taken e⟩
  | .ok (offsets, start, stream) =>
    fetchChunks term.casHash term.unpackedSegBytes.toNat offsets (term.chunkIndexEnd.toNat - term.chunkIndexStart.toNat)
      term.chunkIndexStart.toNat start 0 stream

/-- The fetcher passes over empty terms. -/
def fetchTerms (source : XorbSource ε) (terms : List FileDataSequenceEntry) : List (TermFetch ε) :=
  (terms.filter fun t => t.unpackedSegBytes ≠ 0).map (fetchTerm source)

def allChunks : List (TermFetch ε) → List Fetched × Option (FetchError ε)
  | [] => ([], none)
  | t :: rest =>
    match t.stop.error with
    | some e => (t.chunks, some e)
    | none => (t.chunks ++ (allChunks rest).1, (allChunks rest).2)

/-- Decoding a frame. A stored chunk stays in the frame, the others go to a buffer of their own. -/
def Fetched.decode (lz4 : Xorb.Lz4) (f : Fetched) : Except Xorb.ChunkError Bytes :=
  let body := f.packed.drop Xorb.chunkHeaderSize
  if f.header.compression = Xorb.compressionNone then Xorb.decodeChunk lz4 0 0 f.header body
  else Xorb.decodeChunk lz4 frameBufSize frameBufSize f.header body

end

end Xet.Pipeline
