import Xet.Xorb.Decoder
import Xet.Xorb.Offsets

/-! The check of an upload and the decoder agree on what a xorb is. -/
namespace Xet.Xorb
open Wire List Decoder

section
variable (blake3 : Keyed) (lz4 : Lz4)

/-- A drained decoder: reads with a buffer of `len` bytes give the chunks, then the end of the stream. -/
inductive Drains (len : Nat) : Decoder → List Bytes → Decoder → Prop
  | eof (d d' : Decoder) (read : d.read blake3 lz4 len = (.eof, d')) : Drains len d [] d'
  | data (d d₁ d' : Decoder) (x : Bytes) (xs : List Bytes) (read : d.read blake3 lz4 len = (.data x, d₁))
      (rest : Drains len d₁ xs d') : Drains len d (x :: xs) d'

end

/-- Behind its chunk frames the stream has the identifier of a footer. -/
inductive FooterFollows : Bytes → Prop
  | here (r : Bytes) (ident : r.take 7 = xorbIdentifier) : FooterFollows r
  | frame (header body r : Bytes) (h : ChunkHeader) (size : header.length = chunkHeaderSize)
      (parsed : parseChunkHeader header = .ok h) (length : body.length = h.compressedSize)
      (rest : FooterFollows r) : FooterFollows (header ++ (body ++ r))

section
variable {blake3 : Keyed} {lz4 : Lz4} {d d' : Decoder}

theorem Decoder.Live.push (live : d.Live) (f : Frame lz4) (r : Bytes) : (d.push blake3 f r).Live :=
  ⟨live.healthy, live.reading, live.fresh⟩

theorem Decoder.read_data {x : Bytes} (live : d.Live)
    (read : d.read blake3 lz4 chunkBufSize = (.data x, d')) :
    ∃ (f : Frame lz4) (r : Bytes), d.r = f.bytes ++ r ∧ x = f.data ∧ d' = d.push blake3 f r ∧
      d.chunks.length < maxChunksPerXorb ∧ d.rawSize + f.header.uncompressedSize ≤ maxXorbSize := by
  obtain ⟨stream, withFooter, chunks, rawSize, done, xorbHash, err⟩ := d
  obtain ⟨rfl, rfl, rfl⟩ := live
  simp only [Decoder.read, Bool.false_eq_true, if_false] at read
  split at read
  · rename_i e _
    split at read
    · cases e <;> cases read
    · cases read
  · rename_i header r headerRead
    obtain ⟨shape, size⟩ := readFull_eq_ok.mp headerRead
    split at read
    · unfold readFooter at read
      dsimp only at read
      split at read
      · cases read
      · split at read <;> cases read
    · unfold readChunk at read
      split at read
      · cases read
      · rename_i h parsed
        obtain ⟨rfl, -, -⟩ := (parseChunkHeader_eq_ok size).mp parsed
        split_ifs at read with fits count raw
        · cases read
        · cases read
        · cases read
        · split at read
          · cases read
          · rename_i body r' bodyRead
            obtain ⟨rfl, -⟩ := readFull_eq_ok.mp bodyRead
            dsimp only at read
            split at read
            · cases read
            · rename_i data decoded
              split_ifs at read
              · cases read
              · obtain ⟨given, rfl⟩ := Prod.mk.inj read
                cases given
                let f : Frame lz4 := ⟨h, body, x, Nat.not_lt.mp fits, decoded⟩
                refine ⟨f, r', ?_, rfl, rfl, Nat.not_le.mp count, by simp only [f] at raw ⊢; omega⟩
                exact shape.trans (append_assoc _ _ _).symm

/-- Where the decoder stops: at the end of the stream, or at a footer. With a footer expected it has
been checked. -/
theorem Decoder.read_eof (live : d.Live) {len : Nat} (read : d.read blake3 lz4 len = (.eof, d')) :
    d'.chunks = d.chunks ∧ (d'.summoryHash blake3).1 = computeXorbHash blake3 d.chunks ∧
      (d.withFooter = true → ∃ (f : Footer) (rest : Bytes), f.hash = computeXorbHash blake3 d.chunks ∧
        f.hashes = d.chunks.map Prod.fst ∧ f.hashes.length ≤ maxChunksPerXorb ∧ d.r = f.encode ++ rest) := by
  simp only [Decoder.read, live.healthy, live.reading, Bool.false_eq_true, if_false] at read
  split at read
  · rename_i e _
    split at read
    · cases e <;> cases read
    · rename_i mode
      obtain ⟨-, rfl⟩ := Prod.mk.inj read
      exact ⟨rfl, by simp only [summoryHash, live.fresh], fun footer => absurd footer mode⟩
  · rename_i header r headerRead
    obtain ⟨shape, size⟩ := readFull_eq_ok.mp headerRead
    split at read
    · rename_i ident
      simp only [readFooter, summoryHash, live.fresh] at read
      split at read
      · rename_i mode
        obtain ⟨-, rfl⟩ := Prod.mk.inj read
        refine ⟨rfl, by simp only [summoryHash], fun footer => ?_⟩
        cases mode.symm.trans footer
      · split at read
        · cases read
        · rename_i rest checked
          obtain ⟨-, rfl⟩ := Prod.mk.inj read
          refine ⟨rfl, rfl, fun _ => ?_⟩
          obtain ⟨f, hash, hashes, small, footer⟩ := validateWithFooter_ok ident size checked
          exact ⟨f, rest, hash, hashes, hashes ▸ small, shape.trans footer⟩
    · unfold readChunk at read
      split at read
      · cases read
      · split_ifs at read
        · cases read
        · cases read
        · cases read
        · split at read
          · cases read
          · dsimp only at read
            split at read
            · cases read
            · split_ifs at read <;> cases read

theorem Drains.frames {datas : List Bytes} (drains : Drains blake3 lz4 chunkBufSize d datas d') (live : d.Live)
    (count : d.chunks.length ≤ maxChunksPerXorb) (raw : d.rawSize ≤ maxXorbSize) :
    ∃ (fs : List (Frame lz4)) (tail : Bytes), d.r = fs.flatMap Frame.bytes ++ tail ∧
      d.chunks.length + fs.length ≤ maxChunksPerXorb ∧
      d.rawSize + (fs.map (·.data.length)).sum ≤ maxXorbSize ∧
      (d'.summoryHash blake3).1 = computeXorbHash blake3 (d.chunks ++ fs.map fun f => f.chunk blake3) ∧
      (d.withFooter = true → ∃ (f : Footer) (rest : Bytes),
        f.hash = computeXorbHash blake3 (d.chunks ++ fs.map fun f => f.chunk blake3) ∧
        f.hashes = (d.chunks ++ fs.map fun f => f.chunk blake3).map Prod.fst ∧
        f.hashes.length ≤ maxChunksPerXorb ∧ tail = f.encode ++ rest) := by
  induction drains with
  | eof d d' read =>
    obtain ⟨-, hash, footer⟩ := read_eof live read
    exact ⟨[], d.r, rfl, count, raw, by simpa using hash, by simpa using footer⟩
  | data d d₁ d' x xs read rest ih =>
    obtain ⟨f, r, shape, -, rfl, room, fits⟩ := read_data live read
    obtain ⟨fs, tail, shape', count', raw', hash, footer⟩ := ih (live.push f r)
      (by simp only [push, length_append, length_singleton]; omega) fits
    refine ⟨f :: fs, tail, ?_, ?_, ?_, ?_, ?_⟩
    · rw [flatMap_cons, append_assoc, ← shape', shape]
      rfl
    · simp only [push, length_append, length_singleton] at count'
      simp only [length_cons]
      omega
    · simp only [push] at raw'
      simp only [map_cons, sum_cons, f.data_length]
      omega
    · simpa [push] using hash
    · simpa [push] using footer

theorem Decoder.exists_eof (live : d.Live) {tail rest : Bytes} (len : Nat) (here : d.r = tail)
    (last : Tail (computeXorbHash blake3 d.chunks) (d.chunks.map Prod.fst) tail rest)
    (mode : d.withFooter = true → tail ≠ []) : ∃ d', d.read blake3 lz4 len = (.eof, d') := by
  subst here
  have stops : d.Stops blake3 lz4 len := by
    rcases last with ⟨empty, -⟩ | ⟨f, hash, hashes, small, shape⟩
    · exact stops_empty live (Bool.eq_false_iff.mpr fun footer => mode footer empty) empty len
    · exact stops_footer live hash hashes small shape len
  exact ⟨_, Prod.ext stops.1 rfl⟩

theorem Drains.of_frames (live : d.Live) (fs : List (Frame lz4)) {tail rest : Bytes}
    (here : d.r = fs.flatMap Frame.bytes ++ tail) (count : d.chunks.length + fs.length ≤ maxChunksPerXorb)
    (raw : d.rawSize + (fs.map (·.data.length)).sum ≤ maxXorbSize)
    (last : Tail (computeXorbHash blake3 (d.chunks ++ fs.map fun f => f.chunk blake3))
      ((d.chunks ++ fs.map fun f => f.chunk blake3).map Prod.fst) tail rest)
    (mode : d.withFooter = true → tail ≠ []) :
    ∃ datas d', Drains blake3 lz4 chunkBufSize d datas d' ∧
      d'.chunks = d.chunks ++ fs.map (fun f => f.chunk blake3) ∧
      (d'.summoryHash blake3).1 = computeXorbHash blake3 (d.chunks ++ fs.map fun f => f.chunk blake3) := by
  induction fs generalizing d with
  | nil =>
    simp only [flatMap_nil, nil_append, map_nil, append_nil] at here last ⊢
    obtain ⟨d', read⟩ : ∃ d', d.read blake3 lz4 chunkBufSize = (.eof, d') :=
      exists_eof live chunkBufSize here last mode
    obtain ⟨chunks, hash, -⟩ := read_eof live read
    exact ⟨[], d', .eof d d' read, chunks, hash⟩
  | cons f fs ih =>
    rw [flatMap_cons, append_assoc] at here
    simp only [length_cons, map_cons, sum_cons, f.data_length] at count raw
    have output : f.data.length ≤ chunkBufSize := by
      have small := (decodeChunk_sizes f.decoded).2.2
      rw [f.data_length]
      exact Nat.le_trans small (by decide)
    have read : d.read blake3 lz4 chunkBufSize = _ :=
      read_frame live here f.fits output (by omega) (by omega)
    obtain ⟨datas, d', drains, chunks, hash⟩ := ih (d := d.push blake3 f (fs.flatMap Frame.bytes ++ tail))
      (live.push f _) rfl (by simp only [push, length_append, length_singleton]; omega)
      (by simp only [push]; omega) (by simpa [push] using last) mode
    refine ⟨f.data :: datas, d', .data d _ d' f.data datas read drains, ?_, ?_⟩
    · simpa [push] using chunks
    · simpa [push] using hash

theorem Drains.unique {len : Nat} {datas datas' : List Bytes} {d'' : Decoder}
    (first : Drains blake3 lz4 len d datas d') (second : Drains blake3 lz4 len d datas' d'') : d' = d'' := by
  induction first generalizing datas' d'' with
  | eof d d' read =>
    cases second with
    | eof _ _ read' =>
      obtain ⟨-, rfl⟩ := Prod.mk.inj (read.symm.trans read')
      rfl
    | data _ _ _ _ _ read' => cases read.symm.trans read'
  | data d d₁ d' x xs read rest ih =>
    cases second with
    | eof _ _ read' => cases read.symm.trans read'
    | data _ _ _ _ _ read' rest' =>
      obtain ⟨-, rfl⟩ := Prod.mk.inj (read.symm.trans read')
      exact ih rest'

end

section
variable {lz4 : Lz4}

theorem FooterFollows.behind {f : Frame lz4} {r : Bytes} (follows : FooterFollows (f.bytes ++ r)) :
    FooterFollows r := by
  have size := f.header.encode_length
  generalize stream : f.bytes ++ r = b at follows
  cases follows with
  | here _ ident =>
    rw [← stream, Frame.bytes, append_assoc, take_append_of_le_length (by rw [size]; decide)] at ident
    exact absurd ident f.header_ne_identifier
  | frame header body r' h headerSize parsed length rest =>
    rw [Frame.bytes, append_assoc] at stream
    obtain ⟨rfl, bodies⟩ := append_inj stream (size.trans headerSize.symm)
    cases f.parse_header.symm.trans parsed
    obtain ⟨-, rfl⟩ := append_inj bodies (f.body_length.trans length.symm)
    exact rest

theorem footerFollows_frames_iff (fs : List (Frame lz4)) (tail : Bytes) :
    FooterFollows (fs.flatMap Frame.bytes ++ tail) ↔ FooterFollows tail := by
  induction fs with
  | nil => rfl
  | cons f fs ih =>
    rw [flatMap_cons, append_assoc]
    constructor
    · exact fun follows => ih.mp follows.behind
    · intro follows
      rw [Frame.bytes, append_assoc]
      exact .frame _ _ _ f.header f.header.encode_length f.parse_header f.body_length (ih.mpr follows)

theorem not_footerFollows_nil : ¬ FooterFollows [] := by
  intro follows
  generalize stream : ([] : Bytes) = b at follows
  cases follows with
  | here _ ident =>
    rw [← stream] at ident
    cases ident
  | frame header body r h size =>
    have empty : header = [] := (append_eq_nil_iff.mp stream.symm).1
    rw [empty] at size
    cases size

theorem footerFollows_footer (f : Footer) (rest : Bytes) : FooterFollows (f.encode ++ rest) := by
  apply FooterFollows.here
  rw [Footer.encode, append_assoc, append_assoc, append_assoc]
  exact take_left' rfl

/-- `Validate` accepts a stream with a footer exactly when a decoder that expects a footer can be
drained and has the claimed hash. What it accepts, with or without footer, is drained by a decoder
that expects none. A drained decoder has collected what `Validate` has. -/
theorem validate_decoder_agree (blake3 : Keyed) (lz4 : Lz4) (b : Bytes) (h : XorbHash) :
    let accepted := ∃ result, validate blake3 lz4 b h = .ok result
    (accepted ∧ FooterFollows b ↔ ∃ datas d, Drains blake3 lz4 chunkBufSize (new b true) datas d ∧
      (d.summoryHash blake3).1 = h) ∧
    (accepted → ∃ datas d, Drains blake3 lz4 chunkBufSize (new b false) datas d ∧
      (d.summoryHash blake3).1 = h) ∧
    (accepted → ∃ chunks, validateChunks blake3 lz4 b h = .ok chunks ∧ ∀ withFooter datas d,
      Drains blake3 lz4 chunkBufSize (new b withFooter) datas d → d.chunks = chunks) := by
  intro accepted
  have drained : ∀ (p : Payload lz4) (tail rest : Bytes) (withFooter : Bool), b = p.bytes ++ tail →
      computeXorbHash blake3 (p.chunks blake3) = h → Tail h ((p.chunks blake3).map Prod.fst) tail rest →
      (withFooter = true → tail ≠ []) → ∃ datas d,
        Drains blake3 lz4 chunkBufSize (new b withFooter) datas d ∧ d.chunks = p.chunks blake3 ∧
        (d.summoryHash blake3).1 = h := by
    rintro p tail rest withFooter rfl rfl last mode
    exact Drains.of_frames (d := new _ withFooter) ⟨rfl, rfl, rfl⟩ p.frames rfl
      (by simpa [new] using p.count) (by simpa [new] using p.raw) last mode
  refine ⟨⟨?_, ?_⟩, ?_, ?_⟩
  · rintro ⟨⟨⟨ends, rest⟩, ok⟩, follows⟩
    obtain ⟨p, tail, shape, -, root, last⟩ := validate_eq_ok.mp ok
    have footed : tail ≠ [] := by
      rintro rfl
      rw [shape, Payload.bytes, footerFollows_frames_iff] at follows
      exact not_footerFollows_nil follows
    obtain ⟨datas, d, drains, -, hash⟩ := drained p tail rest true shape root last fun _ => footed
    exact ⟨datas, d, drains, hash⟩
  · rintro ⟨datas, d, drains, rfl⟩
    obtain ⟨fs, tail, shape, count, raw, hash, footer⟩ :=
      drains.frames ⟨rfl, rfl, rfl⟩ (Nat.zero_le _) (Nat.zero_le _)
    obtain ⟨f, rest, root, hashes, small, rfl⟩ := footer rfl
    let p : Payload lz4 := ⟨fs, by simpa [new] using count, by simpa [new] using raw⟩
    have stream : b = p.bytes ++ (f.encode ++ rest) := shape
    refine ⟨⟨(p.packedEnds, rest), validate_eq_ok.mpr ⟨p, _, stream, rfl, hash.symm, .inr ⟨f, ?_, hashes, small, rfl⟩⟩⟩, ?_⟩
    · exact root.trans hash.symm
    · rw [stream, Payload.bytes, footerFollows_frames_iff]
      exact footerFollows_footer f rest
  · rintro ⟨⟨ends, rest⟩, ok⟩
    obtain ⟨p, tail, shape, -, root, last⟩ := validate_eq_ok.mp ok
    obtain ⟨datas, d, drains, -, hash⟩ := drained p tail rest false shape root last nofun
    exact ⟨datas, d, drains, hash⟩
  · rintro ⟨⟨ends, rest⟩, ok⟩
    obtain ⟨p, tail, shape, -, root, last⟩ := validate_eq_ok.mp ok
    refine ⟨_, validateChunks_payload p shape root last, fun withFooter datas d drains => ?_⟩
    have mode : withFooter = true → tail ≠ [] := by
      rintro rfl rfl
      obtain ⟨fs, tail', shape', -, -, -, footer⟩ := drains.frames ⟨rfl, rfl, rfl⟩ (Nat.zero_le _) (Nat.zero_le _)
      obtain ⟨f, rest, -, -, -, rfl⟩ := footer rfl
      have stream : b = fs.flatMap Frame.bytes ++ (f.encode ++ rest) := shape'
      have follows : FooterFollows b := by
        rw [stream, footerFollows_frames_iff]
        exact footerFollows_footer f rest
      rw [shape, Payload.bytes, footerFollows_frames_iff] at follows
      exact not_footerFollows_nil follows
    obtain ⟨datas', d', drains', chunks, -⟩ := drained p tail rest withFooter shape root last mode
    rw [drains.unique drains', chunks]

end

/-- The xorb of two letters with its footer. -/
theorem letters_agree :
    let b := letterFrames ++ (letterFooter 9).encode
    validate letterHash unusedLz4 b rootAB = .ok ([9, 18], []) ∧ FooterFollows b ∧
      ∃ datas d, Drains letterHash unusedLz4 chunkBufSize (new b true) datas d ∧
        (d.summoryHash letterHash).1 = rootAB ∧ validateChunks letterHash unusedLz4 b rootAB = .ok d.chunks := by
  intro b
  have ok : validate letterHash unusedLz4 b rootAB = .ok ([9, 18], []) := by decide +kernel
  have follows : FooterFollows b := by
    apply FooterFollows.frame [0, 1, 0, 0, 0, 1, 0, 0] [65] _ ⟨1, 1, 0⟩ rfl (by decide) rfl
    apply FooterFollows.frame [0, 1, 0, 0, 0, 1, 0, 0] [66] _ ⟨1, 1, 0⟩ rfl (by decide) rfl
    exact footerFollows_footer (letterFooter 9) []
  have agree := validate_decoder_agree letterHash unusedLz4 b rootAB
  obtain ⟨datas, d, drains, hash⟩ := agree.1.mp ⟨⟨_, ok⟩, follows⟩
  obtain ⟨chunks, seen, same⟩ := agree.2.2 ⟨_, ok⟩
  exact ⟨ok, follows, datas, d, drains, hash, by rw [seen, same true datas d drains]⟩

end Xet.Xorb
