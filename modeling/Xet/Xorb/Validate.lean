import Xet.Merkle
import Xet.Xorb.Footer

/-! The forward check of an uploaded xorb. Its loop is characterised once: what it accepts is a
sequence of decodable frames within the limits, alone or followed by a footer of the same chunks. -/
namespace Xet.Xorb
open Wire List Nat

inductive ValidateError where
  | readHeader (e : ReadError)
  | header (e : ChunkError)
  | compressedSize (size : Nat)
  | chunkCount
  | rawPayload
  | readBody (e : ReadError)
  | decompress (e : ChunkError)
  | hashMismatch (claimed computed : XorbHash)
  | footer (e : FooterError)
  deriving DecidableEq

/-- The variables of the loop. `packedEnds` are the values `packedEndOffset` takes after each
chunk; the code keeps the last one only. -/
structure ValidateState where
  chunks : List ChunkMeta
  packedEnds : List Nat
  unpackedEnd : Nat

def ValidateState.packedEnd (s : ValidateState) : Nat := s.packedEnds.getLastD 0

section
variable (blake3 : Keyed) (lz4 : Lz4)

def checkXorbHash (claimed : XorbHash) (chunks : List ChunkMeta) : Except ValidateError Unit :=
  require (computeXorbHash blake3 chunks = claimed)
    (.hashMismatch claimed (computeXorbHash blake3 chunks))

/-- The loop over the stream, with its variables and what is left of the stream when the code
returns nil. Every turn consumes a header. -/
def validateLoop (xorbHash : XorbHash) :
    Nat → ValidateState → Bytes → Except ValidateError (ValidateState × Bytes)
  | 0, _, _ => .error (.readHeader .unexpectedEOF)
  | fuel + 1, s, r =>
    match readFull chunkHeaderSize r with
    | .error .eof => do
      checkXorbHash blake3 xorbHash s.chunks
      return (s, [])
    | .error .unexpectedEOF => .error (.readHeader .unexpectedEOF)
    | .ok (header, r) =>
      if header.take 7 = xorbIdentifier then do
        checkXorbHash blake3 xorbHash s.chunks
        let rest ← (validateWithFooter header xorbHash (s.chunks.map Prod.fst) r).mapError .footer
        return (s, rest)
      else do
        let h ← (parseChunkHeader header).mapError .header
        require (h.compressedSize ≤ chunkBufSize) (.compressedSize h.compressedSize)
        require (s.chunks.length < maxChunksPerXorb) .chunkCount
        require (¬ (maxXorbSize < s.unpackedEnd ∨ maxXorbSize - s.unpackedEnd < h.uncompressedSize))
          .rawPayload
        let (body, r) ← (readFull h.compressedSize r).mapError .readBody
        let data ← (decodeChunk lz4 chunkBufSize chunkBufSize h body).mapError .decompress
        validateLoop xorbHash fuel
          ⟨s.chunks ++ [(computeChunkHash blake3 data, UInt64.ofNat h.uncompressedSize)],
            s.packedEnds ++ [s.packedEnd + (8 + h.compressedSize)],
            s.unpackedEnd + h.uncompressedSize⟩ r

def validate (b : Bytes) (xorbHash : XorbHash) : Except ValidateError (List Nat × Bytes) := do
  let (s, rest) ← validateLoop blake3 lz4 xorbHash (b.length + 1) ⟨[], [], 0⟩ b
  return (s.packedEnds, rest)

/-- The chunk hashes and sizes that `Validate` has collected when it accepts. -/
def validateChunks (b : Bytes) (xorbHash : XorbHash) : Except ValidateError (List ChunkMeta) := do
  let (s, _) ← validateLoop blake3 lz4 xorbHash (b.length + 1) ⟨[], [], 0⟩ b
  return s.chunks

end

/-- A chunk as it stands in the stream, with the data it decodes to. -/
structure Frame (lz4 : Lz4) where
  header : ChunkHeader
  body : Bytes
  data : Bytes
  fits : header.compressedSize ≤ chunkBufSize
  decoded : decodeChunk lz4 chunkBufSize chunkBufSize header body = .ok data

namespace Frame
variable {lz4 : Lz4} (f : Frame lz4)

def bytes : Bytes := f.header.encode ++ f.body

def chunk (blake3 : Keyed) : ChunkMeta :=
  (computeChunkHash blake3 f.data, UInt64.ofNat f.header.uncompressedSize)

theorem body_length : f.body.length = f.header.compressedSize := (decodeChunk_sizes f.decoded).1

theorem data_length : f.data.length = f.header.uncompressedSize := (decodeChunk_sizes f.decoded).2.1

@[simp] theorem bytes_length : f.bytes.length = 8 + f.header.compressedSize := by
  rw [bytes, length_append, f.header.encode_length, f.body_length]

theorem parse_header : parseChunkHeader f.header.encode = .ok f.header := by
  rw [parseChunkHeader_eq_ok f.header.encode_length]
  exact ⟨rfl, lt_of_le_of_lt f.fits (by decide), (decodeChunk_sizes f.decoded).2.2⟩

theorem header_ne_identifier : f.header.encode.take 7 ≠ xorbIdentifier := by
  intro same
  have head := congrArg (fun x : Bytes => x.getD 0 0) same
  exact absurd head (by simp [ChunkHeader.encode, xorbIdentifier])

end Frame

structure Payload (lz4 : Lz4) where
  frames : List (Frame lz4)
  count : frames.length ≤ maxChunksPerXorb
  raw : (frames.map fun f => f.data.length).sum ≤ maxXorbSize

namespace Payload
variable {lz4 : Lz4} (p : Payload lz4)

def bytes : Bytes := p.frames.flatMap Frame.bytes

def chunks (blake3 : Keyed) : List ChunkMeta := p.frames.map fun f => f.chunk blake3

def packedEnds : List Nat := Segments.ends 0 (p.frames.map fun f => f.bytes.length)

end Payload

section
variable {blake3 : Keyed} {lz4 : Lz4} {xorbHash : XorbHash}

def ValidateState.push (blake3 : Keyed) (s : ValidateState) (f : Frame lz4) : ValidateState :=
  ⟨s.chunks ++ [f.chunk blake3], s.packedEnds ++ [s.packedEnd + (8 + f.header.compressedSize)],
    s.unpackedEnd + f.header.uncompressedSize⟩

open ValidateState

@[simp] theorem ValidateState.push_packedEnd (s : ValidateState) (f : Frame lz4) :
    (s.push blake3 f).packedEnd = s.packedEnd + f.bytes.length := by
  simp [push, ValidateState.packedEnd]

theorem ValidateState.foldl_push (fs : List (Frame lz4)) (s : ValidateState) :
    (fs.foldl (push blake3) s).packedEnds = s.packedEnds ++ Segments.ends s.packedEnd (fs.map (·.bytes.length)) ∧
      (fs.foldl (push blake3) s).chunks = s.chunks ++ fs.map fun f => f.chunk blake3 := by
  induction fs generalizing s with
  | nil => simp [Segments.ends]
  | cons f fs ih =>
    rw [foldl_cons, (ih _).1, (ih _).2, push_packedEnd]
    simp [push, Segments.ends]

/-- An accepting run from a state over the rest of the stream. -/
inductive Accepts (blake3 : Keyed) (lz4 : Lz4) (xorbHash : XorbHash) :
    ValidateState → Bytes → ValidateState → Bytes → Prop
  | chunkOnly (s : ValidateState) (root : computeXorbHash blake3 s.chunks = xorbHash) :
      Accepts blake3 lz4 xorbHash s [] s []
  | footered (s : ValidateState) (f : Footer) (rest : Bytes)
      (root : computeXorbHash blake3 s.chunks = xorbHash) (hash : f.hash = xorbHash)
      (hashes : f.hashes = s.chunks.map Prod.fst) (small : f.hashes.length ≤ maxChunksPerXorb) :
      Accepts blake3 lz4 xorbHash s (f.encode ++ rest) s rest
  | frame (s : ValidateState) (f : Frame lz4) (r : Bytes) (final : ValidateState) (rest : Bytes)
      (count : s.chunks.length < maxChunksPerXorb)
      (raw : s.unpackedEnd + f.header.uncompressedSize ≤ maxXorbSize)
      (next : Accepts blake3 lz4 xorbHash (s.push blake3 f) r final rest) :
      Accepts blake3 lz4 xorbHash s (f.bytes ++ r) final rest

variable {s : ValidateState}

theorem validateLoop_accepts {fuel : Nat} {r rest : Bytes} {final : ValidateState}
    (accepted : validateLoop blake3 lz4 xorbHash fuel s r = .ok (final, rest)) :
    Accepts blake3 lz4 xorbHash s r final rest := by
  induction fuel generalizing s r with
  | zero => cases accepted
  | succ fuel ih =>
    unfold validateLoop at accepted
    cases read : readFull chunkHeaderSize r with
    | error e =>
      cases e with
      | unexpectedEOF => rw [read] at accepted; cases accepted
      | eof =>
        simp only [read, checkXorbHash, bind_eq_ok, require_eq_ok, exists_const] at accepted
        obtain ⟨root, value⟩ := accepted
        cases value
        rw [readFull_eof read]
        exact .chunkOnly _ root
    | ok split =>
      obtain ⟨header, r'⟩ := split
      obtain ⟨rfl, len⟩ := readFull_eq_ok.mp read
      simp only [read] at accepted
      split at accepted
      · rename_i ident
        simp only [checkXorbHash, bind_eq_ok, require_eq_ok, exists_const, mapError_eq_ok] at accepted
        obtain ⟨root, rest', footer, value⟩ := accepted
        cases value
        obtain ⟨f, hash, hashes, small, shape⟩ := validateWithFooter_ok ident len footer
        rw [shape]
        exact .footered _ f rest root hash hashes (by rw [hashes]; exact small)
      · simp only [bind_eq_ok, require_eq_ok, exists_const, mapError_eq_ok] at accepted
        obtain ⟨h, parsed, fits, count, raw, ⟨body, r₂⟩, readBody, data, decoded, next⟩ := accepted
        obtain ⟨rfl, -, -⟩ := (parseChunkHeader_eq_ok len).mp parsed
        obtain ⟨rfl, -⟩ := readFull_eq_ok.mp readBody
        let f : Frame lz4 := ⟨h, body, data, fits, decoded⟩
        have shape : h.encode ++ (body ++ r₂) = f.bytes ++ r₂ := by simp [Frame.bytes, f]
        rw [shape]
        exact .frame s f r₂ final rest count (by simp only [f]; omega) (ih next)

theorem accepts_validateLoop {fuel : Nat} {r rest : Bytes} {final : ValidateState}
    (run : Accepts blake3 lz4 xorbHash s r final rest) (enough : r.length < fuel) :
    validateLoop blake3 lz4 xorbHash fuel s r = .ok (final, rest) := by
  induction run generalizing fuel with
  | chunkOnly s root =>
    obtain ⟨fuel, rfl⟩ : ∃ k, fuel = k + 1 := ⟨fuel - 1, by omega⟩
    simp only [validateLoop, readFull_nil (show 0 < chunkHeaderSize by decide), checkXorbHash,
      require_true root, ok_bind]
    rfl
  | footered s f rest root hash hashes small =>
    obtain ⟨fuel, rfl⟩ : ∃ k, fuel = k + 1 := ⟨fuel - 1, by omega⟩
    have checked := validateWithFooter_encode f small rest
    rw [hash, hashes] at checked
    simp only [validateLoop, f.readFull_encode rest, take_left' (show xorbIdentifier.length = 7 from rfl), if_true,
      checkXorbHash, require_true root, ok_bind, checked, Except.mapError]
    rfl
  | frame s f r final rest count raw next ih =>
    obtain ⟨fuel, rfl⟩ : ∃ k, fuel = k + 1 := ⟨fuel - 1, by omega⟩
    have read : readFull chunkHeaderSize (f.bytes ++ r) = .ok (f.header.encode, f.body ++ r) := by
      rw [Frame.bytes, append_assoc]
      exact readFull_append f.header.encode_length _
    have room : ¬ (maxXorbSize < s.unpackedEnd ∨ maxXorbSize - s.unpackedEnd < f.header.uncompressedSize) := by omega
    rw [length_append, f.bytes_length] at enough
    simp only [validateLoop, read, f.header_ne_identifier, if_false, f.parse_header, Except.mapError,
      ok_bind, require_true f.fits, require_true count, require_true room,
      readFull_append f.body_length, f.decoded]
    exact ih (by omega)

def Tail (xorbHash : XorbHash) (hashes : List ChunkHash) (tail rest : Bytes) : Prop :=
  (tail = [] ∧ rest = []) ∨
    ∃ f : Footer, f.hash = xorbHash ∧ f.hashes = hashes ∧ f.hashes.length ≤ maxChunksPerXorb ∧
      tail = f.encode ++ rest

theorem Accepts.frames {r rest : Bytes} {final : ValidateState} (run : Accepts blake3 lz4 xorbHash s r final rest)
    (count : s.chunks.length ≤ maxChunksPerXorb) (raw : s.unpackedEnd ≤ maxXorbSize) :
    ∃ (fs : List (Frame lz4)) (tail : Bytes), s.chunks.length + fs.length ≤ maxChunksPerXorb ∧
      s.unpackedEnd + (fs.map (·.data.length)).sum ≤ maxXorbSize ∧ final = fs.foldl (push blake3) s ∧
      computeXorbHash blake3 final.chunks = xorbHash ∧ r = fs.flatMap Frame.bytes ++ tail ∧
      Tail xorbHash (final.chunks.map Prod.fst) tail rest := by
  induction run with
  | chunkOnly s root => exact ⟨[], [], count, raw, rfl, root, rfl, .inl ⟨rfl, rfl⟩⟩
  | footered s f rest root hash hashes small =>
    exact ⟨[], f.encode ++ rest, count, raw, rfl, root, rfl, .inr ⟨f, hash, hashes, small, rfl⟩⟩
  | frame s f r final rest room fits next ih =>
    obtain ⟨fs, tail, count', raw', final_eq, root, shape, last⟩ := ih
      (by simp only [push, length_append, length_singleton]; omega) fits
    refine ⟨f :: fs, tail, ?_, ?_, final_eq, root, ?_, last⟩
    · simp only [push, length_append, length_singleton] at count'
      simp only [length_cons]
      omega
    · simp only [push] at raw'
      simp only [map_cons, sum_cons, f.data_length]
      omega
    · rw [flatMap_cons, append_assoc, ← shape]

theorem accepts_frames (fs : List (Frame lz4)) {tail rest : Bytes}
    (count : s.chunks.length + fs.length ≤ maxChunksPerXorb)
    (raw : s.unpackedEnd + (fs.map (·.data.length)).sum ≤ maxXorbSize)
    (root : computeXorbHash blake3 (fs.foldl (push blake3) s).chunks = xorbHash)
    (last : Tail xorbHash ((fs.foldl (push blake3) s).chunks.map Prod.fst) tail rest) :
    Accepts blake3 lz4 xorbHash s (fs.flatMap Frame.bytes ++ tail) (fs.foldl (push blake3) s) rest := by
  induction fs generalizing s with
  | nil =>
    rw [flatMap_nil, nil_append]
    rcases last with ⟨rfl, rfl⟩ | ⟨f, hash, hashes, small, rfl⟩
    · exact .chunkOnly s root
    · exact .footered s f rest root hash hashes small
  | cons f fs ih =>
    simp only [length_cons, map_cons, sum_cons, f.data_length] at count raw
    have next := ih (s := s.push blake3 f)
      (by simp only [push, length_append, length_singleton]; omega) (by simp only [push]; omega) root last
    rw [flatMap_cons, append_assoc]
    exact .frame s f _ _ rest (by omega) (by omega) next

/-- The loop accepts exactly the payloads whose root is the claimed hash, alone or followed by
a footer of that hash and those chunks. It stops behind the footer. -/
theorem validateLoop_eq_ok {b rest : Bytes} {final : ValidateState} :
    validateLoop blake3 lz4 xorbHash (b.length + 1) ⟨[], [], 0⟩ b = .ok (final, rest) ↔
      ∃ (p : Payload lz4) (tail : Bytes), b = p.bytes ++ tail ∧ final = p.frames.foldl (push blake3) ⟨[], [], 0⟩ ∧
        computeXorbHash blake3 (p.chunks blake3) = xorbHash ∧ Tail xorbHash ((p.chunks blake3).map Prod.fst) tail rest := by
  have chunks : ∀ fs : List (Frame lz4), (fs.foldl (push blake3) ⟨[], [], 0⟩).chunks = fs.map fun f => f.chunk blake3 :=
    fun fs => (foldl_push fs _).2
  constructor
  · intro accepted
    obtain ⟨fs, tail, count, raw, rfl, root, shape, last⟩ :=
      (validateLoop_accepts accepted).frames (zero_le _) (zero_le _)
    rw [chunks] at root last
    exact ⟨⟨fs, by simpa using count, by simpa using raw⟩, tail, shape, rfl, root, last⟩
  · rintro ⟨p, tail, rfl, rfl, root, last⟩
    rw [Payload.chunks, ← chunks] at root last
    exact accepts_validateLoop (accepts_frames p.frames (by simpa using p.count) (by simpa using p.raw) root last)
      (lt_succ_self _)

theorem validate_eq_ok {b rest : Bytes} {ends : List Nat} :
    validate blake3 lz4 b xorbHash = .ok (ends, rest) ↔
      ∃ (p : Payload lz4) (tail : Bytes), b = p.bytes ++ tail ∧ ends = p.packedEnds ∧
        computeXorbHash blake3 (p.chunks blake3) = xorbHash ∧
        Tail xorbHash ((p.chunks blake3).map Prod.fst) tail rest := by
  have ended : ∀ p : Payload lz4, (p.frames.foldl (push blake3) ⟨[], [], 0⟩).packedEnds = p.packedEnds :=
    fun p => (foldl_push p.frames _).1
  rw [validate, bind_eq_ok]
  constructor
  · rintro ⟨⟨final, rest⟩, accepted, value⟩
    cases value
    obtain ⟨p, tail, shape, rfl, root, last⟩ := validateLoop_eq_ok.mp accepted
    exact ⟨p, tail, shape, ended p, root, last⟩
  · rintro ⟨p, tail, shape, rfl, root, last⟩
    exact ⟨_, validateLoop_eq_ok.mpr ⟨p, tail, shape, rfl, root, last⟩,
      congrArg (fun ends => Except.ok (ends, rest)) (ended p)⟩

theorem validateChunks_payload {b tail rest : Bytes} (p : Payload lz4) (shape : b = p.bytes ++ tail)
    (root : computeXorbHash blake3 (p.chunks blake3) = xorbHash)
    (last : Tail xorbHash ((p.chunks blake3).map Prod.fst) tail rest) :
    validateChunks blake3 lz4 b xorbHash = .ok (p.chunks blake3) := by
  rw [validateChunks, validateLoop_eq_ok.mpr ⟨p, tail, shape, rfl, root, last⟩]
  exact congrArg Except.ok (foldl_push p.frames _).2

end

end Xet.Xorb
