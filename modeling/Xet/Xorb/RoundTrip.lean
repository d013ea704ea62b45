import Mathlib.Algebra.Group.Action.Defs
import Mathlib.Algebra.Order.BigOperators.Group.List
import Xet.Xorb.Decoder
import Xet.Xorb.Encoder
import Xet.Xorb.Offsets

/-! What the encoder writes is a payload of frames that decode to its chunks, so acceptance,
decoding and the offset readers all follow from their characterisations on frames. -/
namespace Xet.Xorb
open Wire List Nat

section
variable {blake3 : Keyed} {lz4 : Lz4}

def frameOf (inverts : lz4.Inverts) (c : Bytes) (small : c.length ≤ maxChunkSize) : Frame lz4 where
  header := ⟨(selectBestCompression lz4 c).1.length, c.length, (selectBestCompression lz4 c).2⟩
  body := (selectBestCompression lz4 c).1
  data := c
  fits := Nat.le_trans (selectBestCompression_le c) (Nat.le_trans small (by decide))
  decoded := decode_selected inverts small (by decide) (by decide)

def framesOf (inverts : lz4.Inverts) {chunks : List Bytes} (within : WithinLimits chunks) :
    List (Frame lz4) :=
  chunks.pmap (frameOf inverts) within.size

theorem map_framesOf {β : Type} (inverts : lz4.Inverts) {chunks : List Bytes}
    (within : WithinLimits chunks) (f : Frame lz4 → β) (g : Bytes → β)
    (same : ∀ c small, f (frameOf inverts c small) = g c) : (framesOf inverts within).map f = chunks.map g := by
  rw [framesOf, map_pmap, ← pmap_eq_map (p := fun c : Bytes => c.length ≤ maxChunkSize) within.size]
  exact pmap_congr_left chunks fun c _ h _ => same c h

theorem framesOf_bytes (inverts : lz4.Inverts) {chunks : List Bytes} (within : WithinLimits chunks) :
    (framesOf inverts within).flatMap Frame.bytes = chunks.flatMap (encodeFrame lz4) := by
  rw [flatMap_def, flatMap_def, map_framesOf inverts within _ (encodeFrame lz4) fun _ _ => rfl]

def payloadOf (inverts : lz4.Inverts) {chunks : List Bytes} (within : WithinLimits chunks) :
    Payload lz4 where
  frames := framesOf inverts within
  count := by
    rw [framesOf, length_pmap]
    exact within.count
  raw := by
    rw [map_framesOf inverts within _ length fun _ _ => rfl]
    exact within.raw

theorem payloadOf_chunks (inverts : lz4.Inverts) {chunks : List Bytes}
    (within : WithinLimits chunks) : (payloadOf inverts within).chunks blake3 = chunks.map (chunkMeta blake3) :=
  map_framesOf inverts within _ _ fun _ _ => rfl

theorem payloadOf_packedEnds (inverts : lz4.Inverts) {chunks : List Bytes}
    (within : WithinLimits chunks) : (payloadOf inverts within).packedEnds =
      Segments.ends 0 (chunks.map fun c => (encodeFrame lz4 c).length) :=
  congrArg (Segments.ends 0) (map_framesOf inverts within _ _ fun _ _ => rfl)

theorem packed_total_small {chunks : List Bytes} (within : WithinLimits chunks) :
    (chunks.map fun c => (encodeFrame lz4 c).length).sum < 2 ^ 32 := by
  have each : ∀ n ∈ chunks.map fun c => (encodeFrame lz4 c).length, n ≤ chunkBufSize := by
    intro n hn
    obtain ⟨c, hc, rfl⟩ := mem_map.mp hn
    have size := within.size c hc
    have body : (selectBestCompression lz4 c).1.length ≤ c.length := selectBestCompression_le c
    rw [encodeFrame_length]
    have : maxChunkSize + 8 = chunkBufSize := rfl
    omega
  have total := sum_le_card_nsmul _ _ each
  have limit : maxChunksPerXorb * chunkBufSize < 2 ^ 32 := by decide
  rw [length_map, smul_eq_mul] at total
  have := mul_le_mul_right chunkBufSize within.count
  omega

theorem stepsByHeader_ends {start : Nat} {sizes : List Nat} (large : ∀ n ∈ sizes, 8 ≤ n) :
    stepsByHeader start (Segments.ends start sizes) = true := by
  induction sizes generalizing start with
  | nil => rfl
  | cons n rest ih =>
    have step : start + 8 ≤ start + n := Nat.add_le_add_left (large n mem_cons_self) start
    simp only [Segments.ends, stepsByHeader, decide_eq_true step, Bool.true_and]
    exact ih fun m hm => large m (mem_cons_of_mem _ hm)

section
variable {chunks : List Bytes} (within : WithinLimits chunks)
include within

theorem encoded_table (nonce : Nonce) :
    (encodedFooter blake3 lz4 nonce chunks).packed.map UInt32.toNat =
      Segments.ends 0 (chunks.map fun c => (encodeFrame lz4 c).length) := by
  have total : (chunks.map fun c => (encodeFrame lz4 c).length).sum < 2 ^ 32 :=
    packed_total_small within
  simp only [encodedFooter, map_map]
  conv_rhs => rw [← map_id (Segments.ends 0 _)]
  apply map_congr_left
  intro n hn
  have small := Segments.le_of_mem_ends hn
  simp only [Function.comp, UInt32.toNat_ofNat', id]
  exact mod_eq_of_lt (by omega)

theorem readChunkOffsets_encoded (nonce : Nonce) :
    readChunkOffsets (chunks.flatMap (encodeFrame lz4) ++ (encodedFooter blake3 lz4 nonce chunks).encode) =
        .ok (Segments.ends 0 (chunks.map fun c => (encodeFrame lz4 c).length)) := by
  have small : (encodedFooter blake3 lz4 nonce chunks).hashes.length ≤ maxChunksPerXorb := by
    simpa [encodedFooter] using within.count
  have region : (chunks.flatMap (encodeFrame lz4)).length =
      (chunks.map fun c => (encodeFrame lz4 c).length).sum := length_flatMap
  have fitting : Plausible (chunks.flatMap (encodeFrame lz4)).length
      (Segments.ends 0 (chunks.map fun c => (encodeFrame lz4 c).length)) := by
    constructor
    · apply stepsByHeader_ends
      intro n hn
      obtain ⟨c, -, rfl⟩ := mem_map.mp hn
      rw [encodeFrame_length]
      omega
    · intro nonempty
      have more : chunks.map (fun c => (encodeFrame lz4 c).length) ≠ [] := by
        intro empty
        rw [empty] at nonempty
        exact nonempty rfl
      rw [Segments.ends_getLast? 0 _ more, zero_add, region]
  simp only [readChunkOffsets, footerTable_encode _ _ small, encoded_table within, ok_bind, require_true fitting]
  rfl

theorem encodedTail_tail (withFooter : Bool) (nonce : Nonce) :
    Tail (computeXorbHash blake3 (chunks.map (chunkMeta blake3)))
      ((chunks.map (chunkMeta blake3)).map Prod.fst) (encodedTail blake3 lz4 withFooter nonce chunks)
      [] := by
  cases withFooter with
  | false => exact .inl ⟨rfl, rfl⟩
  | true =>
    refine .inr ⟨encodedFooter blake3 lz4 nonce chunks, rfl, ?_, ?_, (append_nil _).symm⟩
    · rw [map_map]; rfl
    · simpa [encodedFooter] using within.count

end

theorem decoder_reads_encoded (inverts : lz4.Inverts) {chunks : List Bytes}
    (within : WithinLimits chunks) (withFooter : Bool) (nonce : Nonce) {mode : Bool}
    (matching : mode = withFooter ∨ mode = false) {lens : List Nat}
    (buffers : ∀ len ∈ lens, maxChunkSize ≤ len) :
    let d := Decoder.new (chunks.flatMap (encodeFrame lz4) ++ encodedTail blake3 lz4 withFooter nonce chunks) mode
    (d.reads blake3 lz4 lens).1 = (chunks.map ReadResult.data ++
      replicate lens.length ReadResult.eof).take lens.length ∧
    (chunks.length < lens.length → ((d.reads blake3 lz4 lens).2.summoryHash blake3).1 =
      computeXorbHash blake3 (chunks.map (chunkMeta blake3))) := by
  intro d
  have metas : ∀ blake3, (framesOf inverts within).map (fun f => f.chunk blake3) =
      chunks.map (chunkMeta blake3) := fun blake3 => map_framesOf inverts within _ _ fun _ _ => rfl
  have datas : (framesOf inverts within).map (fun f => ReadResult.data f.data) =
      chunks.map ReadResult.data := map_framesOf inverts within _ _ fun _ _ => rfl
  have count : (framesOf inverts within).length = chunks.length := by
    rw [framesOf, length_pmap]
  have fits : ∀ f ∈ framesOf inverts within, ∀ len ∈ lens,
      f.header.compressedSize ≤ len ∧ f.data.length ≤ len := by
    intro f hf len hl
    obtain ⟨c, hc, rfl⟩ := mem_pmap.mp hf
    have size := within.size c hc
    have body : (selectBestCompression lz4 c).1.length ≤ c.length := selectBestCompression_le c
    have room := buffers len hl
    exact ⟨le_trans body (le_trans size room), le_trans size room⟩
  have ends : Decoder.Ends blake3 { d with chunks := chunks.map (chunkMeta blake3) }
      (encodedTail blake3 lz4 withFooter nonce chunks) := by
    rcases encodedTail_tail within withFooter nonce with ⟨empty, -⟩ | ⟨f, hash, hashes, small, shape⟩
    · refine .inl ⟨?_, empty⟩
      cases withFooter with
      | false => exact matching.elim id id
      | true =>
        have length := congrArg length empty
        rw [encodedTail, if_pos rfl, Footer.encode_length] at length
        exact absurd length (by simp)
    · exact .inr ⟨f, hash, hashes, small, by rw [shape, append_nil]⟩
  have run : (d.reads blake3 lz4 lens).1 = _ ∧ _ := Decoder.reads_frames ⟨rfl, rfl, rfl⟩
    (framesOf inverts within) (by rw [framesOf_bytes]; rfl) fits
    (show 0 + (framesOf inverts within).length ≤ maxChunksPerXorb by
      have := within.count
      omega)
    (show 0 + ((framesOf inverts within).map (·.data.length)).sum ≤ maxXorbSize by
      rw [zero_add]
      exact (payloadOf inverts within).raw)
    (by rw [metas]; exact ends)
  rw [metas, datas, count] at run
  exact run

end

/-- Chunks within the limits survive the round trip: the encoder takes them, its output passes
`Validate` under its own hash, decoders return them in order and then the end with the same hash,
which no nonce changes, and both offset readers find the frame ends in a footered output. -/
theorem xorb_round_trip (blake3 : Keyed) (lz4 : Lz4) (inverts : lz4.Inverts) (pool : Nat → ChunkBuf)
    (withFooter : Bool) (ops : List EncoderOp) (within : WithinLimits (written ops)) :
    ∃ e ends, encodeXorb blake3 lz4 pool withFooter ops = .ok e ∧
      ends = Segments.ends 0 ((written ops).map fun c => (encodeFrame lz4 c).length) ∧
      (∃ tail, e.out = (written ops).flatMap (encodeFrame lz4) ++ tail) ∧
      validate blake3 lz4 e.out (e.summoryHash blake3).1 = .ok (ends, []) ∧
      (∀ mode, mode = withFooter ∨ mode = false → ∀ lens : List Nat,
        (∀ len ∈ lens, maxChunkSize ≤ len) →
        ((Decoder.new e.out mode).reads blake3 lz4 lens).1 = ((written ops).map ReadResult.data ++
          replicate lens.length ReadResult.eof).take lens.length ∧
        ((written ops).length < lens.length →
          (((Decoder.new e.out mode).reads blake3 lz4 lens).2.summoryHash blake3).1 =
            (e.summoryHash blake3).1)) ∧
      (∀ pool' ops' e', written ops' = written ops →
        encodeXorb blake3 lz4 pool' withFooter ops' = .ok e' →
        (e'.summoryHash blake3).1 = (e.summoryHash blake3).1) ∧
      (withFooter = true → readChunkOffsets e.out = .ok ends ∧ scanChunkOffsets e.out = .ok ends) := by
  obtain ⟨e, nonce, ran, hash, out⟩ := encodeXorb_spec pool withFooter within
  have last : Tail (computeXorbHash blake3 _) _ (encodedTail blake3 lz4 withFooter nonce _) [] :=
    encodedTail_tail within withFooter nonce
  refine ⟨e, _, ran, rfl, ⟨_, out⟩, ?_, ?_, ?_, ?_⟩
  · rw [hash, validate_eq_ok]
    refine ⟨payloadOf inverts within, encodedTail blake3 lz4 withFooter nonce (written ops), ?_,
      (payloadOf_packedEnds inverts within).symm, ?_, ?_⟩
    · rw [out, Payload.bytes]
      exact congrArg (· ++ _) (framesOf_bytes inverts within).symm
    · rw [payloadOf_chunks]
    · rw [payloadOf_chunks]
      exact last
  · intro mode matching lens buffers
    rw [out, hash]
    exact decoder_reads_encoded inverts within withFooter nonce matching buffers
  · intro pool' ops' e' same ran'
    obtain ⟨e₂, -, ran₂, hash₂, -⟩ : ∃ e nonce, encodeXorb blake3 lz4 pool' withFooter ops' = .ok e ∧ _ :=
      encodeXorb_spec pool' withFooter (by rw [same]; exact within)
    cases Except.ok.inj (ran'.symm.trans ran₂)
    rw [hash₂, hash, same]
  · rintro rfl
    rw [out]
    refine ⟨readChunkOffsets_encoded within nonce, ?_⟩
    have scanned : scanLoop (_ + 1) 0 0 _ = _ := scanLoop_frames (framesOf inverts within) last
      (Nat.lt_succ_self _) (by simpa [framesOf] using within.count)
    rw [framesOf_bytes, map_framesOf inverts within _ (fun c => (encodeFrame lz4 c).length)
      fun _ _ => rfl] at scanned
    exact scanned

/- One chunk of three bytes. Its LZ4 frame stores them uncompressed and is longer than they are. -/
def sampleChunk : Bytes := [1, 2, 3]

def sampleFrame : Bytes := [0x04, 0x22, 0x4d, 0x18, 0x60, 0x40, 0x82, 0x03, 0x00, 0x00, 0x80, 1, 2, 3,
  0, 0, 0, 0]

def sampleLz4 : Lz4 where
  compress := fun _ data => if data = sampleChunk then some sampleFrame else none
  decode := fun frame => if frame = sampleFrame then ⟨sampleChunk, false⟩ else ⟨[], true⟩

def sampleHashBytes : Bytes := [0xeb, 0x59, 0x38, 0x1f, 0x16, 0x86, 0xfe, 0xf2,
  0xd0, 0xc8, 0xe4, 0xab, 0x7e, 0x6a, 0x7c, 0x9f, 0x94, 0x80, 0x46, 0x9e, 0x97, 0xac, 0x3c, 0x8a,
  0x75, 0x62, 0xd8, 0x92, 0x44, 0x99, 0xaf, 0xb7]

def sampleHash : Keyed := fun _ _ => ⟨sampleHashBytes, rfl⟩

def zeroBuf : ChunkBuf := ⟨replicate chunkBufSize 0, length_replicate⟩

/- Of 64 zeros LZ4 makes one literal, a match and the five literals that end every block. -/
def zeroChunk : Bytes := replicate 64 0

def zeroFrame : Bytes := [0x04, 0x22, 0x4d, 0x18, 0x60, 0x40, 0x82, 0x0b, 0x00, 0x00, 0x00, 0x1f, 0x00, 0x01, 0x00,
  0x27, 0x50, 0, 0, 0, 0, 0, 0, 0, 0, 0]

def mixedLz4 : Lz4 where
  compress := fun block data => if data = zeroChunk then some zeroFrame else sampleLz4.compress block data
  decode := fun frame => if frame = zeroFrame then ⟨zeroChunk, false⟩ else sampleLz4.decode frame

theorem mixedLz4_inverts : mixedLz4.Inverts := by
  intro block data frame compressed
  simp only [mixedLz4, sampleLz4] at compressed ⊢
  split at compressed
  · rename_i same
    cases compressed
    rw [if_pos rfl, same]
  · split at compressed
    · rename_i same
      cases compressed
      rw [if_neg (by decide), if_pos rfl, same]
    · cases compressed

/-- Four chunks, of which the second one gets shorter. -/
def mixedChunks : List Bytes := [sampleChunk, zeroChunk, [65], sampleChunk]

theorem sample_round_trip :
    WithinLimits mixedChunks ∧ ∃ e, encodeXorb sampleHash mixedLz4 (fun _ => zeroBuf) true
        (.setNonce ⟨[7, 7, 7, 7], rfl⟩ :: mixedChunks.map .write) = .ok e ∧
      validate sampleHash mixedLz4 e.out (e.summoryHash sampleHash).1 = .ok ([11, 45, 54, 65], []) ∧
      ((Decoder.new e.out true).reads sampleHash mixedLz4 (replicate 5 maxChunkSize)).1 =
        mixedChunks.map .data ++ [.eof] ∧
      readChunkOffsets e.out = .ok [11, 45, 54, 65] := by
  have within : WithinLimits mixedChunks := ⟨by decide, by decide, by decide⟩
  obtain ⟨e, ends, ran, rfl, -, accepted, decoded, -, offsets⟩ := xorb_round_trip sampleHash mixedLz4
    mixedLz4_inverts (fun _ => zeroBuf) true (.setNonce ⟨[7, 7, 7, 7], rfl⟩ :: mixedChunks.map .write) within
  have reads := (decoded true (.inl rfl) (replicate 5 maxChunkSize) fun len member =>
    (eq_of_mem_replicate member).ge).1
  exact ⟨within, e, ran, accepted, reads, (offsets rfl).1⟩

end Xet.Xorb
