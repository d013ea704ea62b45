import Xet.Pipeline.Faithful

/-! Which chunks of an accepted xorb can be served: the fetcher's buffers and the decoder behind the file
hashes are smaller than the buffers of the upload check. -/
namespace Xet.Pipeline
open Wire Xorb List Decoder

section
variable {lz4 : Lz4}

/-- A decoder of chunks alone that has read the frames `earlier`. -/
def decoderBehind (blake3 : Keyed) (earlier : List (Xorb.Frame lz4)) (r : Bytes) : Decoder :=
  { Decoder.new r false with
    chunks := earlier.map fun f => f.chunk blake3
    rawSize := (earlier.map fun f => f.data.length).sum }

/-- The frame `f` behind the frames `before` of a xorb with the given chunk ends can be fetched for a
term that still has room for it, and read with the buffer of `ComputeFileHashes`. -/
structure Servable (blake3 : Keyed) (ends : List Nat) (before : List (Xorb.Frame lz4)) (f : Xorb.Frame lz4) : Prop where
  fetched : ∀ (ε : Type) (hash : XorbHash) (n expected unpacked : Nat) (s : Stream ε),
    unpacked + f.header.uncompressedSize ≤ expected → f.bytes <+: s.bytes →
    (fetchChunks hash expected ends (n + 1) before.length (before.flatMap Frame.bytes).length unpacked s).chunks.head? =
      some ⟨hash, before.length, f.header, f.bytes⟩
  decoded : ∀ hash : XorbHash, Fetched.decode lz4 ⟨hash, before.length, f.header, f.bytes⟩ = .ok f.data
  read : ∀ (earlier : List (Xorb.Frame lz4)) (r : Bytes), earlier <:+ before →
    ((decoderBehind blake3 earlier (f.bytes ++ r)).read blake3 lz4 maxChunkSize).1 = .data f.data

theorem Payload.packedEnds_getD (p : Payload lz4) {before after : List (Xorb.Frame lz4)} {f : Xorb.Frame lz4}
    (shape : p.frames = before ++ f :: after) :
    p.packedEnds.getD before.length 0 = (before.flatMap Frame.bytes).length + f.bytes.length := by
  have past : (Segments.ends 0 (before.map (·.bytes.length))).length = before.length := by
    rw [Segments.ends_length, length_map]
  rw [Payload.packedEnds, shape, map_append, Segments.ends_append, getD_append_right _ _ _ _ past.le, past,
    Nat.sub_self, map_cons, Segments.ends, getD_cons_zero, Nat.zero_add, length_flatMap]

section
variable {p : Payload lz4} {before after : List (Xorb.Frame lz4)} {f : Xorb.Frame lz4}

theorem fetchChunks_small (shape : p.frames = before ++ f :: after) (small : f.header.compressedSize ≤ maxChunkSize)
    {ε : Type} (hash : XorbHash) (n : Nat) {expected unpacked : Nat} {s : Stream ε}
    (room : unpacked + f.header.uncompressedSize ≤ expected) (here : f.bytes <+: s.bytes) :
    (fetchChunks hash expected p.packedEnds (n + 1) before.length (before.flatMap Xorb.Frame.bytes).length
      unpacked s).chunks.head? =
      some ⟨hash, before.length, f.header, f.bytes⟩ := by
  obtain ⟨rest, bytes⟩ := here
  obtain ⟨stream, failed⟩ := s
  have size : ((p.packedEnds.getD before.length 0 : Nat) : Int) -
      (before.flatMap Xorb.Frame.bytes).length = f.bytes.length := by
    rw [Payload.packedEnds_getD p shape]
    omega
  have fits : ¬ ((f.bytes.length : Int) < chunkHeaderSize ∨ (frameBufSize : Int) < f.bytes.length) := by
    rw [f.bytes_length, frameBufSize, show chunkHeaderSize = 8 from rfl]
    omega
  have full : unpacked + f.data.length ≤ expected := by
    rw [f.data_length]
    exact room
  obtain rfl : f.bytes ++ rest = stream := bytes
  simp only [fetchChunks, size, if_neg fits, Int.toNat_natCast, readFrame_front, checkFrame_stored, if_pos full,
    head?_cons]

theorem fetchChunks_large (shape : p.frames = before ++ f :: after) (large : maxChunkSize < f.header.compressedSize)
    {ε : Type} (hash : XorbHash) (n expected unpacked : Nat) (s : Stream ε) :
    fetchChunks hash expected p.packedEnds (n + 1) before.length (before.flatMap Xorb.Frame.bytes).length unpacked s =
      ⟨[], .taken (.packedSize hash before.length (8 + f.header.compressedSize))⟩ := by
  have size : ((p.packedEnds.getD before.length 0 : Nat) : Int) - (before.flatMap Xorb.Frame.bytes).length =
      8 + f.header.compressedSize := by
    rw [Payload.packedEnds_getD p shape, f.bytes_length]
    omega
  have over_size : (8 + f.header.compressedSize : Int) < chunkHeaderSize ∨
      (frameBufSize : Int) < 8 + f.header.compressedSize := by
    rw [frameBufSize, show chunkHeaderSize = 8 from rfl]
    omega
  simp only [fetchChunks, size, if_pos over_size]

theorem decoder_reads (blake3 : Keyed) (shape : p.frames = before ++ f :: after)
    (small : f.header.compressedSize ≤ maxChunkSize) {earlier : List (Xorb.Frame lz4)} (suffix : earlier <:+ before)
    (r : Bytes) : ((decoderBehind blake3 earlier (f.bytes ++ r)).read blake3 lz4 maxChunkSize).1 = .data f.data := by
  obtain ⟨first, rfl⟩ := suffix
  have count := p.count
  have raw := p.raw
  rw [shape] at count raw
  simp only [length_append, length_cons, map_append, sum_append, map_cons, sum_cons] at count raw
  have output : f.data.length ≤ maxChunkSize := by
    rw [f.data_length]
    exact (decodeChunk_sizes f.decoded).2.2
  have live : (decoderBehind blake3 earlier (f.bytes ++ r)).Live := ⟨rfl, rfl, rfl⟩
  rw [read_frame live rfl small output]
  · simp only [decoderBehind, length_map]
    omega
  · rw [← f.data_length]
    simp only [decoderBehind]
    omega

theorem servable_iff (blake3 : Keyed) (shape : p.frames = before ++ f :: after) :
    Servable blake3 p.packedEnds before f ↔ f.header.compressedSize ≤ maxChunkSize := by
  constructor
  · intro servable
    by_contra large
    have found := servable.fetched Unit .zero 0 f.header.uncompressedSize 0 ⟨f.bytes, none⟩ (Nat.zero_add _).le
      prefix_rfl
    rw [fetchChunks_large shape (Nat.not_le.mp large)] at found
    cases found
  · intro small
    constructor
    case fetched => exact fun ε hash n expected unpacked s room here => fetchChunks_small shape small hash n room here
    case decoded => exact fun hash => decode_fetched hash _ f
    case read => exact fun earlier r suffix => decoder_reads blake3 shape small suffix r

end

theorem read_large (blake3 : Keyed) {f : Xorb.Frame lz4} (large : maxChunkSize < f.header.compressedSize) (r : Bytes) :
    ((new (f.bytes ++ r) false).read blake3 lz4 maxChunkSize).1 =
      .failed (.inputBuffer f.header.compressedSize maxChunkSize) := by
  have header : readFull chunkHeaderSize (f.bytes ++ r) = .ok (f.header.encode, f.body ++ r) := by
    rw [Xorb.Frame.bytes, append_assoc]
    exact readFull_append f.header.encode_length _
  simp only [Decoder.read, new, Bool.false_eq_true, if_false, header, f.header_ne_identifier,
    readChunk, f.parse_header, if_pos large, fail]

def single (f : Xorb.Frame lz4) (small : f.data.length ≤ maxXorbSize) : Payload lz4 :=
  ⟨[f], Nat.le_of_ble_eq_true rfl, by simpa using small⟩

theorem single_frames {f : Xorb.Frame lz4} (small : f.data.length ≤ maxXorbSize) :
    (single f small).frames = [] ++ f :: [] := rfl

theorem single_packedEnds {f : Xorb.Frame lz4} (small : f.data.length ≤ maxXorbSize) :
    (single f small).packedEnds = [f.bytes.length] := by
  simp only [single, Payload.packedEnds, Segments.ends, map_cons, map_nil, Nat.zero_add]

theorem validate_single (blake3 : Keyed) {f : Xorb.Frame lz4} (small : f.data.length ≤ maxXorbSize) :
    validate blake3 lz4 f.bytes (computeXorbHash blake3 [f.chunk blake3]) = .ok ([f.bytes.length], []) := by
  refine validate_eq_ok.mpr ⟨single f small, [], ?_, (single_packedEnds small).symm, rfl, .inl ⟨rfl, rfl⟩⟩
  simp only [single, Payload.bytes, flatMap_cons, flatMap_nil, append_nil]

/-- An accepted xorb is made of frames, and a frame can be served exactly when its compressed body is
no longer than the largest chunk. -/
theorem accepted_servable_iff (blake3 : Keyed) (lz4 : Lz4) (b : Bytes) (h : XorbHash) (ends : List Nat) (rest : Bytes)
    (accepted : validate blake3 lz4 b h = .ok (ends, rest)) :
    ∃ (p : Payload lz4) (tail : Bytes), b = p.bytes ++ tail ∧ ends = p.packedEnds ∧
      (∀ before f after, p.frames = before ++ f :: after →
        (Servable blake3 ends before f ↔ f.header.compressedSize ≤ maxChunkSize)) ∧
      ((∀ before f after, p.frames = before ++ f :: after → Servable blake3 ends before f) ↔
        ∀ f ∈ p.frames, f.header.compressedSize ≤ maxChunkSize) := by
  obtain ⟨p, tail, shape, rfl, -, -⟩ := validate_eq_ok.mp accepted
  refine ⟨p, tail, shape, rfl, fun before f after frames => servable_iff blake3 frames, ?_⟩
  constructor
  · intro all f member
    obtain ⟨before, after, frames⟩ := append_of_mem member
    exact (servable_iff blake3 frames).mp (all before f after frames)
  · intro small before f after frames
    refine (servable_iff blake3 frames).mpr (small f ?_)
    rw [frames]
    exact mem_append_right _ mem_cons_self

end

/-- Both letters can be served. -/
theorem letters_servable : ∃ p : Payload unusedLz4, p.bytes = letterFrames ∧
    ∀ before f after, p.frames = before ++ f :: after → Servable letterHash [9, 18] before f := by
  have accepted : validate letterHash unusedLz4 letterFrames rootAB = .ok ([9, 18], []) := by decide +kernel
  obtain ⟨p, tail, shape, ends, -, all⟩ := accepted_servable_iff letterHash unusedLz4 letterFrames rootAB [9, 18] [] accepted
  have whole : letterFrames.length = p.bytes.length + tail.length := by rw [shape, length_append]
  have lengths : ([9, 18] : List Nat) = Segments.ends 0 (p.frames.map fun f => f.bytes.length) := ends
  have two := congrArg length lengths
  rw [Segments.ends_length, length_map] at two
  obtain ⟨f, g, frames⟩ := length_eq_two.mp two.symm
  simp only [frames, map_cons, map_nil, Segments.ends, Nat.zero_add, cons.injEq, and_true] at lengths
  have total : letterFrames.length = 18 := rfl
  have empty : tail = [] := by
    apply length_eq_zero_iff.mp
    simp only [Payload.bytes, frames, flatMap_cons, flatMap_nil, append_nil, length_append] at whole
    omega
  refine ⟨p, by rw [shape, empty, append_nil], all.mpr ?_⟩
  rw [f.bytes_length, g.bytes_length] at lengths
  have max : maxChunkSize = 131072 := rfl
  intro k member
  rw [frames] at member
  rcases mem_cons.mp member with rfl | last
  · omega
  · cases mem_singleton.mp last
    omega

/-- A chunk that the upload check accepts, whatever the hash function: no term can fetch it, and the
decoder of `ComputeFileHashes` does not return it. -/
theorem oversized_chunk_not_servable :
    (∀ blake3 : Keyed, validate blake3 longLz4 longFrame.bytes (computeXorbHash blake3 [longFrame.chunk blake3]) =
      .ok ([131085], [])) ∧
    (∀ (hash : XorbHash) (n expected unpacked : Nat) (s : Stream Unit),
      fetchChunks hash expected [131085] (n + 1) 0 0 unpacked s = ⟨[], .taken (.packedSize hash 0 131085)⟩) ∧
    ∀ (blake3 : Keyed) (r : Bytes), ((Decoder.new (longFrame.bytes ++ r) false).read blake3 longLz4 maxChunkSize).1 =
      .failed (.inputBuffer 131077 131072) := by
  have small : longFrame.data.length ≤ maxXorbSize := longData_length.le.trans (by decide)
  have large : maxChunkSize < longFrame.header.compressedSize := by decide
  refine ⟨fun blake3 => ?_, fun hash n expected unpacked s => ?_, fun blake3 r => read_large blake3 large r⟩
  · rw [validate_single blake3 small, longFrame_length]
  · have refused := fetchChunks_large (single_frames small) large hash n expected unpacked s
    rw [single_packedEnds, longFrame_length] at refused
    exact refused

end Xet.Pipeline
