import Xet.Xorb.Validate

/-! The xorb encoder. A chunk is compressed into a pooled buffer behind room for its header, and
the frame is the front of that buffer; whatever the buffer held before is part of the model. -/
namespace Xet.Xorb
open Wire List

structure ChunkBuf where
  bytes : Bytes
  size : bytes.length = chunkBufSize

/-- Append `data` at `p` in place when the buffer has room; otherwise the result is a new slice
and the buffer keeps its content. -/
def appendAt (buf : Bytes) (p : Nat) (data : Bytes) : Bytes :=
  if p + data.length ≤ buf.length then buf.take p ++ data ++ buf.drop (p + data.length) else buf

inductive EncodeError where
  | finalized
  | chunkSize (size : Nat)
  | chunkCount
  | rawPayload
  /-- Slicing past the pooled buffer, which panics. -/
  | sliceBounds (size : Nat)
  deriving DecidableEq

structure Encoder where
  out : Bytes
  withFooter : Bool
  uniquenessNonce : Nonce
  chunks : List ChunkMeta
  chunkOffsets : List Nat
  unpackedOffsets : List Nat
  packedPos : Nat
  unpackedPos : Nat
  finalized : Bool
  xorbHash : Option XorbHash
  err : Option EncodeError

def Encoder.new (withFooter : Bool) : Encoder :=
  { out := [], withFooter := withFooter, uniquenessNonce := ⟨[0, 0, 0, 0], rfl⟩, chunks := []
    chunkOffsets := [], unpackedOffsets := [], packedPos := 0, unpackedPos := 0
    finalized := false, xorbHash := none, err := none }

namespace Encoder

def fail {α : Type} (e : Encoder) (err : EncodeError) : Except EncodeError α × Encoder :=
  (.error err, { e with err := some err })

def setUniquenessNonce (e : Encoder) (nonce : Nonce) : Except EncodeError Unit × Encoder :=
  match e.err with
  | some err => (.error err, e)
  | none =>
    if e.finalized then (.error .finalized, e)
    else (.ok (), { e with uniquenessNonce := nonce })

section
variable (blake3 : Keyed) (lz4 : Lz4)

def write (tmp : ChunkBuf) (e : Encoder) (chunk : Bytes) : Except EncodeError Nat × Encoder :=
  match e.err with
  | some err => (.error err, e)
  | none =>
    if e.finalized then e.fail .finalized
    else if maxChunkSize < chunk.length then e.fail (.chunkSize chunk.length)
    else if maxChunksPerXorb ≤ e.chunks.length then e.fail .chunkCount
    else if maxXorbSize < e.unpackedPos ∨ maxXorbSize - e.unpackedPos < chunk.length then
      e.fail .rawPayload
    else
      let (compressed, compressionType) := selectBestCompression lz4 chunk
      let buf := appendAt tmp.bytes 8 compressed
      let compressedSize := compressed.length
      let header : ChunkHeader := ⟨compressedSize, chunk.length, compressionType⟩
      if chunkBufSize < 8 + compressedSize then e.fail (.sliceBounds (8 + compressedSize))
      else
        let packedPos := e.packedPos + (8 + compressedSize)
        let unpackedPos := e.unpackedPos + chunk.length
        (.ok chunk.length,
          { e with
            out := e.out ++ (header.encode ++ buf.drop 8).take (8 + compressedSize)
            packedPos := packedPos
            unpackedPos := unpackedPos
            chunks := e.chunks ++ [(computeChunkHash blake3 chunk, UInt64.ofNat chunk.length)]
            chunkOffsets := if e.withFooter then e.chunkOffsets ++ [packedPos] else e.chunkOffsets
            unpackedOffsets :=
              if e.withFooter then e.unpackedOffsets ++ [unpackedPos] else e.unpackedOffsets })

def summoryHash (e : Encoder) : XorbHash × Encoder :=
  match e.xorbHash with
  | some hash => (hash, e)
  | none => (computeXorbHash blake3 e.chunks, { e with xorbHash := some (computeXorbHash blake3 e.chunks) })

def footerSections (e : Encoder) (hash : XorbHash) : Bytes :=
  let numChunks := e.chunks.length
  xorbIdentifier ++ [1] ++ hash.bytes ++
    hashSectionIdent ++ [0] ++ leBytes 4 numChunks ++ (e.chunks.map Prod.fst).flatMap Hash.bytes ++
    boundarySectionIdent ++ [1] ++ leBytes 4 numChunks ++
    e.chunkOffsets.flatMap (leBytes 4) ++ e.unpackedOffsets.flatMap (leBytes 4)

def footerBytes (e : Encoder) (hash : XorbHash) : Bytes :=
  let numChunks := e.chunks.length
  let buf := e.footerSections hash
  let footerEndPos := buf.length + 4 + 4 + 4 + 16
  let hashOffsetFromEnd := footerEndPos - 40
  let boundarySectionStart := 40 + 8 + 4 + numChunks * 32
  let boundaryOffsetFromEnd := footerEndPos - boundarySectionStart
  let buf := buf ++ (leBytes 4 numChunks ++ leBytes 4 hashOffsetFromEnd ++
    leBytes 4 boundaryOffsetFromEnd ++ e.uniquenessNonce.bytes ++ List.replicate 12 0)
  buf ++ leBytes 4 buf.length

def close (e : Encoder) : Except EncodeError Unit × Encoder :=
  match e.err with
  | some err => (.error err, e)
  | none =>
    if e.finalized then (.ok (), e)
    else
      let e := { e with finalized := true }
      if e.withFooter then
        let (hash, e) := e.summoryHash blake3
        (.ok (), { e with out := e.out ++ e.footerBytes hash })
      else (.ok (), e)

end

end Encoder

inductive EncoderOp where
  | setNonce (nonce : Nonce)
  | write (chunk : Bytes)

def written : List EncoderOp → List Bytes
  | [] => []
  | .setNonce _ :: rest => written rest
  | .write chunk :: rest => chunk :: written rest

section
variable (blake3 : Keyed) (lz4 : Lz4)

def Encoder.step (tmp : ChunkBuf) (e : Encoder) (op : EncoderOp) : Except EncodeError Encoder :=
  match op with
  | .setNonce nonce => (e.setUniquenessNonce nonce).1.map fun _ => (e.setUniquenessNonce nonce).2
  | .write chunk => (e.write blake3 lz4 tmp chunk).1.map fun _ => (e.write blake3 lz4 tmp chunk).2

/-- The calls in order, each handed the next buffer of the pool, up to the first that fails. -/
def Encoder.runOps (pool : Nat → ChunkBuf) : Nat → Encoder → List EncoderOp →
    Except EncodeError Encoder
  | _, e, [] => .ok e
  | i, e, op :: rest => do
    let e ← e.step blake3 lz4 (pool i) op
    Encoder.runOps pool (i + 1) e rest

def encodeXorb (pool : Nat → ChunkBuf) (withFooter : Bool) (ops : List EncoderOp) :
    Except EncodeError Encoder := do
  let e ← Encoder.runOps blake3 lz4 pool 0 (Encoder.new withFooter) ops
  (e.close blake3).1.map fun _ => (e.close blake3).2

end

def encodeFrame (lz4 : Lz4) (chunk : Bytes) : Bytes :=
  ChunkHeader.encode ⟨(selectBestCompression lz4 chunk).1.length, chunk.length,
    (selectBestCompression lz4 chunk).2⟩ ++ (selectBestCompression lz4 chunk).1

def chunkMeta (blake3 : Keyed) (chunk : Bytes) : ChunkMeta :=
  (computeChunkHash blake3 chunk, UInt64.ofNat chunk.length)

structure WithinLimits (chunks : List Bytes) : Prop where
  size : ∀ c ∈ chunks, c.length ≤ maxChunkSize
  count : chunks.length ≤ maxChunksPerXorb
  raw : (chunks.map List.length).sum ≤ maxXorbSize

theorem WithinLimits.of_append {xs ys : List Bytes} (within : WithinLimits (xs ++ ys)) :
    WithinLimits xs where
  size := fun c hc => within.size c (mem_append_left ys hc)
  count := by
    have := within.count
    rw [length_append] at this
    omega
  raw := by
    have := within.raw
    rw [map_append, sum_append_nat] at this
    omega

section
variable {blake3 : Keyed} {lz4 : Lz4}

@[simp] theorem encodeFrame_length (chunk : Bytes) :
    (encodeFrame lz4 chunk).length = 8 + (selectBestCompression lz4 chunk).1.length := by
  rw [encodeFrame, length_append, ChunkHeader.encode_length]

structure Holds (blake3 : Keyed) (lz4 : Lz4) (withFooter : Bool) (e : Encoder)
    (chunks : List Bytes) : Prop where
  out : e.out = chunks.flatMap (encodeFrame lz4)
  mode : e.withFooter = withFooter
  metas : e.chunks = chunks.map (chunkMeta blake3)
  packed : e.packedPos = (chunks.map fun c => (encodeFrame lz4 c).length).sum
  unpacked : e.unpackedPos = (chunks.map List.length).sum
  offsets : withFooter = true →
    e.chunkOffsets = Segments.ends 0 (chunks.map fun c => (encodeFrame lz4 c).length) ∧
    e.unpackedOffsets = Segments.ends 0 (chunks.map List.length)
  live : e.finalized = false ∧ e.xorbHash = none ∧ e.err = none

theorem Holds.new (withFooter : Bool) : Holds blake3 lz4 withFooter (Encoder.new withFooter) [] :=
  ⟨rfl, rfl, rfl, rfl, rfl, fun _ => ⟨rfl, rfl⟩, rfl, rfl, rfl⟩

theorem appendAt_frame (tmp : ChunkBuf) (h : ChunkHeader) {body : Bytes}
    (fits : 8 + body.length ≤ chunkBufSize) :
    (h.encode ++ (appendAt tmp.bytes 8 body).drop 8).take (8 + body.length) = h.encode ++ body := by
  have room : 8 + body.length ≤ tmp.bytes.length := by rw [tmp.size]; exact fits
  have front : (tmp.bytes.take 8).length = 8 := by rw [length_take]; omega
  rw [appendAt, if_pos room, append_assoc, drop_left' front, ← append_assoc]
  exact take_left' (by rw [length_append, h.encode_length])

variable {e : Encoder} {withFooter : Bool}

section
variable {chunks : List Bytes} (holds : Holds blake3 lz4 withFooter e chunks)
include holds

theorem Holds.write {c : Bytes} (within : WithinLimits (chunks ++ [c])) (tmp : ChunkBuf) :
    (e.write blake3 lz4 tmp c).1 = .ok c.length ∧
      Holds blake3 lz4 withFooter (e.write blake3 lz4 tmp c).2 (chunks ++ [c]) := by
  obtain ⟨open_, fresh, healthy⟩ := holds.live
  have size := within.size c (by simp)
  have count := within.count
  have raw := within.raw
  rw [length_append, length_singleton] at count
  rw [map_append, sum_append_nat, map_singleton, sum_singleton] at raw
  have body : (selectBestCompression lz4 c).1.length ≤ c.length := selectBestCompression_le c
  have fits : 8 + (selectBestCompression lz4 c).1.length ≤ chunkBufSize := by
    have : maxChunkSize + 8 = chunkBufSize := rfl
    omega
  have metas_len : e.chunks.length = chunks.length := by rw [holds.metas, length_map]
  have room : ¬ (maxXorbSize < e.unpackedPos ∨ maxXorbSize - e.unpackedPos < c.length) := by
    rw [holds.unpacked]; omega
  have frame := appendAt_frame tmp ⟨(selectBestCompression lz4 c).1.length, c.length,
    (selectBestCompression lz4 c).2⟩ fits
  unfold Encoder.write
  simp only [healthy, open_, Bool.false_eq_true, if_false, if_neg (Nat.not_lt.mpr size),
    if_neg (show ¬ maxChunksPerXorb ≤ e.chunks.length by omega), if_neg room,
    if_neg (Nat.not_lt.mpr fits), frame, true_and]
  refine ⟨?_, holds.mode, ?_, ?_, ?_, ?_, rfl, fresh, rfl⟩
  · simp only [holds.out, flatMap_append, flatMap_singleton, encodeFrame]
  · simp only [holds.metas, map_append, map_singleton, chunkMeta]
  · simp only [holds.packed, map_append, map_singleton, sum_append_nat, sum_singleton, encodeFrame_length]
  · simp only [holds.unpacked, map_append, map_singleton, sum_append_nat, sum_singleton]
  · intro footered
    obtain ⟨packed, unpacked⟩ := holds.offsets footered
    simp only [holds.mode, footered, if_true, map_append, map_singleton,
      Segments.ends_concat, Nat.zero_add, packed, unpacked, holds.packed, holds.unpacked,
      encodeFrame_length, and_self]

theorem Holds.setNonce (nonce : Nonce) :
    (e.setUniquenessNonce nonce).1 = .ok () ∧
      Holds blake3 lz4 withFooter (e.setUniquenessNonce nonce).2 chunks := by
  obtain ⟨open_, fresh, healthy⟩ := holds.live
  simp only [Encoder.setUniquenessNonce, healthy, open_, Bool.false_eq_true, if_false, true_and]
  exact ⟨holds.out, holds.mode, holds.metas, holds.packed, holds.unpacked, holds.offsets, rfl, fresh, rfl⟩

theorem Holds.runOps {ops : List EncoderOp} (within : WithinLimits (chunks ++ written ops)) (pool : Nat → ChunkBuf)
    (i : Nat) :
    ∃ e', Encoder.runOps blake3 lz4 pool i e ops = .ok e' ∧
      Holds blake3 lz4 withFooter e' (chunks ++ written ops) := by
  induction ops generalizing e chunks i with
  | nil => exact ⟨e, rfl, by simpa [written] using holds⟩
  | cons op rest ih =>
    cases op with
    | setNonce nonce =>
      obtain ⟨ok, next⟩ := holds.setNonce nonce
      obtain ⟨e', run, final⟩ := ih next within (i + 1)
      refine ⟨e', ?_, final⟩
      simp only [Encoder.runOps, Encoder.step, ok, Except.map, ok_bind, run]
    | write c =>
      have shape : chunks ++ written (.write c :: rest) = (chunks ++ [c]) ++ written rest := by
        simp [written]
      rw [shape] at within ⊢
      obtain ⟨ok, next⟩ := holds.write within.of_append (pool i)
      obtain ⟨e', run, final⟩ := ih next within (i + 1)
      refine ⟨e', ?_, final⟩
      simp only [Encoder.runOps, Encoder.step, ok, Except.map, ok_bind, run]

end

def encodedFooter (blake3 : Keyed) (lz4 : Lz4) (nonce : Nonce) (chunks : List Bytes) : Footer :=
  { hash := computeXorbHash blake3 (chunks.map (chunkMeta blake3))
    hashes := chunks.map (computeChunkHash blake3)
    packed := (Segments.ends 0 (chunks.map fun c => (encodeFrame lz4 c).length)).map UInt32.ofNat
    unpacked := (Segments.ends 0 (chunks.map List.length)).map UInt32.ofNat
    hashOffset := UInt32.ofNat (chunks.length * 40 + 52)
    boundaryOffset := UInt32.ofNat (chunks.length * 8 + 40)
    nonce := nonce
    packed_length := by simp
    unpacked_length := by simp }

theorem flatMap_putUint32_ofNat (ns : List Nat) : (ns.map UInt32.ofNat).flatMap putUint32 = ns.flatMap (leBytes 4) := by
  rw [flatMap_map]
  exact congrArg (fun f => ns.flatMap f) (funext putUint32_ofNat)

theorem Holds.footerBytes {chunks : List Bytes} (holds : Holds blake3 lz4 true e chunks) :
    e.footerBytes (computeXorbHash blake3 e.chunks) =
      (encodedFooter blake3 lz4 e.uniquenessNonce chunks).encode := by
  obtain ⟨packed, unpacked⟩ := holds.offsets rfl
  have hashes : (e.chunks.map Prod.fst) = chunks.map (computeChunkHash blake3) := by
    rw [holds.metas, map_map]; rfl
  have count : e.chunks.length = chunks.length := by rw [holds.metas, length_map]
  have words : ∀ ns : List Nat, (ns.flatMap (leBytes 4)).length = 4 * ns.length := by
    intro ns
    rw [← flatMap_putUint32_ofNat, putUint32s_length, length_map]
  have root : computeXorbHash blake3 e.chunks =
      computeXorbHash blake3 (chunks.map (chunkMeta blake3)) := by rw [holds.metas]
  have length : (e.footerSections (computeXorbHash blake3 e.chunks)).length =
      chunks.length * 40 + 64 := by
    simp only [Encoder.footerSections, count, hashes, packed, unpacked, length_append,
      (computeXorbHash blake3 e.chunks).size, hashBytes_length, words, leBytes_length,
      Segments.ends_length, length_map]
    simp only [xorbIdentifier, hashSectionIdent, boundarySectionIdent, length_cons, length_nil]
    omega
  have hashOffset : chunks.length * 40 + 64 + 4 + 4 + 4 + 16 - 40 = chunks.length * 40 + 52 := by omega
  have boundaryOffset : chunks.length * 40 + 64 + 4 + 4 + 4 + 16 -
      (40 + 8 + 4 + chunks.length * 32) = chunks.length * 8 + 40 := by omega
  have total : chunks.length * 40 + 64 + (4 + 4 + 4 + 4 + 12) = chunks.length * 40 + 92 := by omega
  simp only [Encoder.footerBytes, length_append, length, count, leBytes_length,
    e.uniquenessNonce.size, length_replicate, hashOffset, boundaryOffset, total]
  simp only [Encoder.footerSections, root, hashes, count, packed, unpacked, Footer.encode,
    Footer.fixed, Footer.remaining, Footer.boundary, Footer.trailer, Footer.count, encodedFooter,
    flatMap_putUint32_ofNat, putUint32_ofNat, append_assoc, length_map]

def encodedTail (blake3 : Keyed) (lz4 : Lz4) (withFooter : Bool) (nonce : Nonce)
    (chunks : List Bytes) : Bytes :=
  if withFooter then (encodedFooter blake3 lz4 nonce chunks).encode else []

/-- A closed encoder holds the frames of its chunks, the footer when asked for, and a hash that
depends on the chunks alone. -/
theorem encodeXorb_spec (pool : Nat → ChunkBuf) (withFooter : Bool) {ops : List EncoderOp}
    (within : WithinLimits (written ops)) :
    ∃ e nonce, encodeXorb blake3 lz4 pool withFooter ops = .ok e ∧
      (e.summoryHash blake3).1 = computeXorbHash blake3 ((written ops).map (chunkMeta blake3)) ∧
      e.out = (written ops).flatMap (encodeFrame lz4) ++
        encodedTail blake3 lz4 withFooter nonce (written ops) := by
  obtain ⟨e, run, holds⟩ := (Holds.new withFooter : Holds blake3 lz4 withFooter _ []).runOps
    within pool 0
  obtain ⟨open_, fresh, healthy⟩ := holds.live
  refine ⟨(e.close blake3).2, e.uniquenessNonce, ?_, ?_⟩
  · have closed : (e.close blake3).1 = .ok () := by
      simp only [Encoder.close, healthy, open_, Bool.false_eq_true, if_false]
      split <;> rfl
    simp only [encodeXorb, run, ok_bind, closed, Except.map]
  · have root : computeXorbHash blake3 e.chunks =
        computeXorbHash blake3 ((written ops).map (chunkMeta blake3)) := by
      rw [holds.metas]; rfl
    cases withFooter with
    | false =>
      simp only [Encoder.close, healthy, open_, Bool.false_eq_true, if_false, holds.mode,
        Encoder.summoryHash, fresh, root, true_and, encodedTail, append_nil, holds.out]
      rfl
    | true =>
      have bytes := holds.footerBytes
      simp only [Encoder.close, healthy, open_, Bool.false_eq_true, if_false, holds.mode, if_true,
        Encoder.summoryHash, fresh, root, true_and, encodedTail]
      simp only [root] at bytes
      exact congrArg₂ (· ++ ·) holds.out bytes

end

end Xet.Xorb
