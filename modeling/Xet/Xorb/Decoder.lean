import Xet.Xorb.Validate

/-! The xorb decoder: one chunk for each call, then the end of the stream for good.
Errors are sticky. -/
namespace Xet.Xorb
open Wire List Nat

inductive DecodeError where
  | expectedFooter
  | readData (e : ReadError)
  | footer (e : FooterError)
  | header (e : ChunkError)
  | inputBuffer (need got : Nat)
  | chunkCount
  | rawPayload
  | readBody (e : ReadError)
  | decompress (e : ChunkError)
  | outputBuffer (need : Nat)
  deriving DecidableEq

structure Decoder where
  r : Bytes
  withFooter : Bool
  chunks : List ChunkMeta
  rawSize : Nat
  done : Bool
  xorbHash : Option XorbHash
  err : Option DecodeError

inductive ReadResult where
  | data (b : Bytes)
  | eof
  | failed (e : DecodeError)
  deriving DecidableEq

def Decoder.new (r : Bytes) (withFooter : Bool) : Decoder :=
  { r := r, withFooter := withFooter, chunks := [], rawSize := 0, done := false, xorbHash := none
    err := none }

namespace Decoder

def fail (d : Decoder) (e : DecodeError) : ReadResult × Decoder := (.failed e, { d with err := some e })

section
variable (blake3 : Keyed) (lz4 : Lz4)

def summoryHash (d : Decoder) : XorbHash × Decoder :=
  match d.xorbHash with
  | some hash => (hash, d)
  | none => (computeXorbHash blake3 d.chunks, { d with xorbHash := some (computeXorbHash blake3 d.chunks) })

/-- The footer identifier was read: check the footer when one is expected. -/
def readFooter (d : Decoder) (header : Bytes) : ReadResult × Decoder :=
  if d.withFooter = false then (.eof, { d with done := true })
  else
    let (hash, d) := d.summoryHash blake3
    match validateWithFooter header hash (d.chunks.map Prod.fst) d.r with
    | .error e => d.fail (.footer e)
    | .ok r => (.eof, { d with r := r, done := true })

/-- A chunk header was read: decode its body through a buffer of `len` bytes. -/
def readChunk (len : Nat) (d : Decoder) (header : Bytes) : ReadResult × Decoder :=
  match parseChunkHeader header with
  | .error e => d.fail (.header e)
  | .ok h =>
    if len < h.compressedSize then d.fail (.inputBuffer h.compressedSize len)
    else if maxChunksPerXorb ≤ d.chunks.length then d.fail .chunkCount
    else if maxXorbSize < d.rawSize ∨ maxXorbSize - d.rawSize < h.uncompressedSize then
      d.fail .rawPayload
    else
      match readFull h.compressedSize d.r with
      | .error e => { d with r := [] }.fail (.readBody e)
      | .ok (body, r) =>
        let d := { d with r := r }
        match decodeChunk lz4 chunkBufSize chunkBufSize h body with
        | .error e => d.fail (.decompress e)
        | .ok data =>
          let d := { d with
            chunks := d.chunks ++ [(computeChunkHash blake3 data, UInt64.ofNat h.uncompressedSize)]
            rawSize := d.rawSize + h.uncompressedSize }
          if len < data.length then d.fail (.outputBuffer data.length) else (.data data, d)

def read (len : Nat) (d : Decoder) : ReadResult × Decoder :=
  match d.err with
  | some e => (.failed e, d)
  | none =>
    if d.done then (.eof, d)
    else
      match readFull chunkHeaderSize d.r with
      | .error e =>
        let d := { d with r := [] }
        if d.withFooter then
          match e with
          | .eof => d.fail .expectedFooter
          | .unexpectedEOF => d.fail (.readData .unexpectedEOF)
        else (.eof, { d with done := true })
      | .ok (header, r) =>
        let d := { d with r := r }
        if header.take 7 = xorbIdentifier then d.readFooter blake3 header
        else d.readChunk blake3 lz4 len header

def reads : List Nat → Decoder → List ReadResult × Decoder
  | [], d => ([], d)
  | len :: rest, d =>
    let (first, d) := d.read blake3 lz4 len
    let (others, d) := reads rest d
    (first :: others, d)

/-- Read chunk by chunk with a buffer of `len` bytes up to the end of the stream. Every chunk takes
at least its header, so a fuel above the length of the stream is never used up. -/
def copyLoop (len : Nat) : Nat → Decoder → Except DecodeError Bytes × Decoder
  | 0, d => (.ok [], d)
  | fuel + 1, d =>
    match d.read blake3 lz4 len with
    | (.data b, d) =>
      let (rest, d) := copyLoop len fuel d
      (rest.map (b ++ ·), d)
    | (.eof, d) => (.ok [], d)
    | (.failed e, d) => (.error e, d)

def copyAll (len : Nat) (d : Decoder) : Except DecodeError Bytes × Decoder :=
  d.copyLoop blake3 lz4 len (d.r.length + 1)

end

end Decoder

section
variable {blake3 : Keyed} {lz4 : Lz4}

/-- A decoder that has failed neither nor ended, and whose hash has not been asked for. -/
structure Decoder.Live (d : Decoder) : Prop where
  healthy : d.err = none
  reading : d.done = false
  fresh : d.xorbHash = none

def Decoder.push (blake3 : Keyed) (d : Decoder) (f : Frame lz4) (r : Bytes) : Decoder :=
  { d with
    r := r
    chunks := d.chunks ++ [f.chunk blake3]
    rawSize := d.rawSize + f.header.uncompressedSize }

variable {d : Decoder}

theorem Decoder.read_frame (live : d.Live) {f : Frame lz4} {r : Bytes} {len : Nat} (here : d.r = f.bytes ++ r)
    (input : f.header.compressedSize ≤ len) (output : f.data.length ≤ len)
    (count : d.chunks.length < maxChunksPerXorb) (raw : d.rawSize + f.header.uncompressedSize ≤ maxXorbSize) :
    d.read blake3 lz4 len = (.data f.data, d.push blake3 f r) := by
  have header : readFull chunkHeaderSize d.r = .ok (f.header.encode, f.body ++ r) := by
    rw [here, Frame.bytes, append_assoc]
    exact readFull_append f.header.encode_length _
  have room : ¬ (maxXorbSize < d.rawSize ∨ maxXorbSize - d.rawSize < f.header.uncompressedSize) := by
    omega
  simp only [Decoder.read, live.healthy, live.reading, Bool.false_eq_true, if_false, header,
    f.header_ne_identifier, Decoder.readChunk, f.parse_header, if_neg (not_lt.mpr input),
    if_neg (not_le.mpr count), if_neg room, readFull_append f.body_length, f.decoded,
    if_neg (not_lt.mpr output), Decoder.push, Frame.chunk]

def Decoder.Ends (blake3 : Keyed) (d : Decoder) (tail : Bytes) : Prop :=
  (d.withFooter = false ∧ tail = []) ∨
    ∃ f : Footer, f.hash = computeXorbHash blake3 d.chunks ∧ f.hashes = d.chunks.map Prod.fst ∧
      f.hashes.length ≤ maxChunksPerXorb ∧ tail = f.encode

/-- A read that ends the stream cleanly. -/
def Decoder.Stops (blake3 : Keyed) (lz4 : Lz4) (d : Decoder) (len : Nat) : Prop :=
  (d.read blake3 lz4 len).1 = .eof ∧ (d.read blake3 lz4 len).2.err = none ∧
    (d.read blake3 lz4 len).2.done = true ∧
    ((d.read blake3 lz4 len).2.summoryHash blake3).1 = computeXorbHash blake3 d.chunks

theorem Decoder.stops_empty (live : d.Live) (mode : d.withFooter = false) (empty : d.r = []) (len : Nat) :
    d.Stops blake3 lz4 len := by
  have header : readFull chunkHeaderSize d.r = .error .eof := by
    rw [empty]
    exact readFull_nil (by decide)
  simp only [Decoder.Stops, Decoder.read, live.healthy, live.reading, Bool.false_eq_true, if_false, header, mode,
    Decoder.summoryHash, live.fresh, and_self]

theorem Decoder.stops_footer (live : d.Live) {f : Footer} {rest : Bytes} (hash : f.hash = computeXorbHash blake3 d.chunks)
    (hashes : f.hashes = d.chunks.map Prod.fst) (small : f.hashes.length ≤ maxChunksPerXorb)
    (shape : d.r = f.encode ++ rest) (len : Nat) : d.Stops blake3 lz4 len := by
  have header := f.readFull_encode rest
  rw [← shape] at header
  have checked := validateWithFooter_encode f small rest
  rw [hash, hashes] at checked
  cases mode : d.withFooter with
  | false =>
    simp only [Decoder.Stops, Decoder.read, live.healthy, live.reading, Bool.false_eq_true, if_false, header,
      take_left' (show xorbIdentifier.length = 7 from rfl), if_true, Decoder.readFooter, mode,
      Decoder.summoryHash, live.fresh, and_self]
  | true =>
    simp only [Decoder.Stops, Decoder.read, live.healthy, live.reading, Bool.false_eq_true, if_false, header,
      take_left' (show xorbIdentifier.length = 7 from rfl), if_true, Decoder.readFooter, mode,
      Decoder.summoryHash, live.fresh, checked, and_self, Bool.true_eq_false]

theorem Decoder.read_end (live : d.Live) (ends : d.Ends blake3 d.r) (len : Nat) : d.Stops blake3 lz4 len := by
  rcases ends with ⟨mode, empty⟩ | ⟨f, hash, hashes, small, shape⟩
  · exact stops_empty live mode empty len
  · exact stops_footer live hash hashes small (shape.trans (append_nil _).symm) len

theorem Decoder.reads_done (healthy : d.err = none) (done : d.done = true) (lens : List Nat) :
    d.reads blake3 lz4 lens = (List.replicate lens.length .eof, d) := by
  induction lens with
  | nil => rfl
  | cons len rest ih =>
    have step : d.read blake3 lz4 len = (.eof, d) := by
      simp only [Decoder.read, healthy, done, if_true]
    simp only [Decoder.reads, step, ih, length_cons, replicate_succ]

theorem Decoder.reads_frames (live : d.Live) (fs : List (Frame lz4)) {tail : Bytes} {lens : List Nat}
    (here : d.r = fs.flatMap Frame.bytes ++ tail)
    (buffers : ∀ f ∈ fs, ∀ len ∈ lens, f.header.compressedSize ≤ len ∧ f.data.length ≤ len)
    (count : d.chunks.length + fs.length ≤ maxChunksPerXorb)
    (raw : d.rawSize + (fs.map (·.data.length)).sum ≤ maxXorbSize)
    (ends : Decoder.Ends blake3 { d with chunks := d.chunks ++ fs.map fun f => f.chunk blake3 } tail) :
    (d.reads blake3 lz4 lens).1 = (fs.map (fun f : Frame lz4 => ReadResult.data f.data) ++
      List.replicate lens.length ReadResult.eof).take lens.length ∧
    (fs.length < lens.length → ((d.reads blake3 lz4 lens).2.summoryHash blake3).1 =
      computeXorbHash blake3 (d.chunks ++ fs.map fun f => f.chunk blake3)) := by
  induction lens generalizing d fs with
  | nil => exact ⟨rfl, fun more => absurd more (Nat.not_lt_zero _)⟩
  | cons len rest ih =>
    cases fs with
    | nil =>
      simp only [map_nil, append_nil, flatMap_nil, nil_append] at here ends ⊢
      have stop : (d.read blake3 lz4 len).1 = .eof ∧ _ :=
        Decoder.read_end live (by rw [here]; exact ends) len
      rcases step : d.read blake3 lz4 len with ⟨result, d'⟩
      rw [step] at stop
      obtain ⟨rfl, healthy, done, hash⟩ := stop
      simp only [Decoder.reads, step, Decoder.reads_done healthy done, hash]
      simp [replicate_succ]
    | cons f fs =>
      rw [flatMap_cons, append_assoc] at here
      simp only [length_cons, map_cons, sum_cons, f.data_length] at count raw
      obtain ⟨input, output⟩ := buffers f mem_cons_self len mem_cons_self
      have step : d.read blake3 lz4 len = _ :=
        Decoder.read_frame live here input output (by omega) (by omega)
      have next := ih (d := d.push blake3 f (fs.flatMap Frame.bytes ++ tail))
        ⟨live.healthy, live.reading, live.fresh⟩ fs rfl
        (fun g hg l hl => buffers g (mem_cons_of_mem _ hg) l (mem_cons_of_mem _ hl))
        (by simp only [Decoder.push, length_append, length_singleton]; omega)
        (by simp only [Decoder.push]; omega)
        (by simpa [Decoder.push, Decoder.Ends] using ends)
      simp only [Decoder.reads, step, map_cons, length_cons, cons_append,
        take_succ_cons, next.1, take_padding, true_and]
      intro more
      have hash := next.2 (by omega)
      simpa [Decoder.push] using hash

end

end Xet.Xorb
