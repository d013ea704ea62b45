import Xet.Xorb.Validate

/-! The forward check against the backward reader. `Validate` never compares the boundary table
of a footer with the frames it decoded, and a chunk-only stream may end in bytes that read
as a footer, so the offsets served for an accepted xorb are those of its frames
exactly when the trailing bytes do not claim otherwise. -/
namespace Xet.Xorb
open Wire List

/-- The end positions of the frames at the head of `b`, from their headers alone. -/
def headerEnds : Nat → Nat → Bytes → List Nat
  | 0, _, _ => []
  | fuel + 1, offset, b =>
    if b.length < 8 ∨ b.take 7 = xorbIdentifier then []
    else
      let next := 8 + leNat (slice b 1 3)
      (offset + next) :: headerEnds fuel (offset + next) (b.drop next)

def frameEnds (b : Bytes) : List Nat := headerEnds b.length 0 b

/-- The bytes at the end of `b` do not read as a footer with a fitting table, or its table
lists the ends of the frames. -/
def TruthfulTail (b : Bytes) : Prop :=
  ∀ start table, footerTable b = .ok (start, table) → Plausible start table → table = frameEnds b

/-- The offsets served for `b` are `ends`, and so every range served for a run of chunks starts
and stops at one of them. -/
def ServesOn (b : Bytes) (ends : List Nat) : Prop :=
  readXorbChunkOffsets b = .ok ends ∧
    ∀ offsets chunkStart chunkEnd first last, readXorbChunkOffsets b = .ok offsets →
      chunkDataRangeFromOffsets offsets chunkStart chunkEnd = .ok (first, last) →
      (first = 0 ∨ ∃ n ∈ ends, first = (n : Int)) ∧ ∃ n ∈ ends, last + 1 = (n : Int)

section
variable {lz4 : Lz4} {xorbHash : XorbHash} {hashes : List ChunkHash}

theorem Tail.stops {tail : Bytes} (last : Tail xorbHash hashes tail []) :
    readFull chunkHeaderSize tail = .error .eof ∨
      ∃ rest, readFull chunkHeaderSize tail = .ok (xorbIdentifier ++ [1], rest) ∧
        tail.take 7 = xorbIdentifier := by
  rcases last with ⟨rfl, -⟩ | ⟨f, -, -, -, rfl⟩
  · exact .inl (readFull_nil (by decide))
  · right
    refine ⟨_, f.readFull_encode [], ?_⟩
    rw [append_nil, Footer.encode, append_assoc]
    exact take_left' rfl

theorem Frame.size_field (f : Frame lz4) (rest : Bytes) :
    leNat (slice (f.header.encode ++ rest) 1 3) = f.header.compressedSize := by
  have field : slice (f.header.encode ++ rest) 1 3 = leBytes 3 f.header.compressedSize :=
    slice_eq (a := [0]) (c := [f.header.compression] ++ leBytes 3 f.header.uncompressedSize ++ rest)
      (by simp [ChunkHeader.encode]) rfl (leBytes_length 3 _)
  rw [field, leNat_leBytes_of_lt (Nat.lt_of_le_of_lt f.fits (by decide))]

theorem scanLoop_frames (fs : List (Frame lz4)) {tail : Bytes}
    (last : Tail xorbHash hashes tail []) {fuel count offset : Nat}
    (enough : (fs.flatMap Frame.bytes ++ tail).length < fuel)
    (small : count + fs.length ≤ maxChunksPerXorb) :
    scanLoop fuel count offset (fs.flatMap Frame.bytes ++ tail) =
      .ok (Segments.ends offset (fs.map (·.bytes.length))) := by
  induction fs generalizing fuel count offset with
  | nil =>
    obtain ⟨fuel, rfl⟩ : ∃ k, fuel = k + 1 := ⟨fuel - 1, by omega⟩
    simp only [flatMap_nil, nil_append, scanLoop]
    rcases last.stops with stop | ⟨rest, stop, -⟩
    · simp only [stop, map_nil, Segments.ends]
    · simp only [stop, take_left' (show xorbIdentifier.length = 7 from rfl), if_true, map_nil, Segments.ends]
  | cons f fs ih =>
    obtain ⟨fuel, rfl⟩ : ∃ k, fuel = k + 1 := ⟨fuel - 1, by omega⟩
    have shape : (f :: fs).flatMap Frame.bytes ++ tail =
        f.header.encode ++ (f.body ++ (fs.flatMap Frame.bytes ++ tail)) := by
      simp [Frame.bytes]
    have read := readFull_append f.header.encode_length (f.body ++ (fs.flatMap Frame.bytes ++ tail))
    have size := f.size_field []
    rw [append_nil] at size
    simp only [length_cons] at small
    simp only [flatMap_cons, length_append, f.bytes_length] at enough
    have next : scanLoop fuel (count + 1) (offset + (8 + f.header.compressedSize))
        (fs.flatMap Frame.bytes ++ tail) = _ :=
      ih (by simp only [length_append]; omega) (by omega)
    rw [shape]
    simp only [scanLoop, chunkHeaderSize, read, f.header_ne_identifier, if_false,
      require_true (show count < maxChunksPerXorb by omega), ok_bind, size,
      drop_left' f.body_length, next, map_cons, Segments.ends, f.bytes_length]
    rfl

theorem headerEnds_frames (fs : List (Frame lz4)) {tail : Bytes}
    (last : Tail xorbHash hashes tail []) {fuel offset : Nat}
    (enough : (fs.flatMap Frame.bytes ++ tail).length ≤ fuel) :
    headerEnds fuel offset (fs.flatMap Frame.bytes ++ tail) =
      Segments.ends offset (fs.map (·.bytes.length)) := by
  induction fs generalizing fuel offset with
  | nil =>
    have stop : tail.length < 8 ∨ tail.take 7 = xorbIdentifier := by
      rcases last.stops with stop | ⟨rest, -, ident⟩
      · exact .inl (by rw [readFull_eof stop]; decide)
      · exact .inr ident
    cases fuel with
    | zero => rfl
    | succ fuel => simp only [flatMap_nil, nil_append, headerEnds, if_pos stop, map_nil, Segments.ends]
  | cons f fs ih =>
    simp only [flatMap_cons, length_append, f.bytes_length] at enough
    obtain ⟨fuel, rfl⟩ : ∃ k, fuel = k + 1 := ⟨fuel - 1, by omega⟩
    have shape : (f :: fs).flatMap Frame.bytes ++ tail =
        f.bytes ++ (fs.flatMap Frame.bytes ++ tail) := by
      simp
    have go : ¬ ((f.bytes ++ (fs.flatMap Frame.bytes ++ tail)).length < 8 ∨
        (f.bytes ++ (fs.flatMap Frame.bytes ++ tail)).take 7 = xorbIdentifier) := by
      rintro (short | ident)
      · simp only [length_append, f.bytes_length] at short
        omega
      · rw [Frame.bytes, append_assoc, take_append_of_le_length (by rw [f.header.encode_length]; decide)] at ident
        exact f.header_ne_identifier ident
    have size : leNat (slice (f.bytes ++ (fs.flatMap Frame.bytes ++ tail)) 1 3) =
        f.header.compressedSize := by
      rw [Frame.bytes, append_assoc]
      exact f.size_field _
    have next : headerEnds fuel (offset + (8 + f.header.compressedSize))
        (fs.flatMap Frame.bytes ++ tail) = _ := ih (by simp only [length_append]; omega)
    rw [shape]
    simp only [headerEnds, if_neg go, size, drop_left' f.bytes_length, next, map_cons, Segments.ends, f.bytes_length]

end

theorem footerTable_noFooter (b : Bytes) : OnlyError .noFooter (footerTable b) := by
  unfold footerTable
  exact .bind (.require _ _) fun _ => .bind (.require _ _) fun _ => .bind (.require _ _) fun _ =>
    .bind (.require _ _) fun _ => .bind (.require _ _) fun _ => .bind (.require _ _) fun _ =>
    .bind (.require _ _) fun _ => .bind (.require _ _) fun _ => .pure _ _

theorem readChunkOffsets_cases (b : Bytes) :
    (readChunkOffsets b = .error .noFooter ∧
      ∀ start table, footerTable b = .ok (start, table) → ¬ Plausible start table) ∨
    ∃ start table, footerTable b = .ok (start, table) ∧ Plausible start table ∧
      readChunkOffsets b = .ok table := by
  unfold readChunkOffsets
  cases found : footerTable b with
  | error e =>
    rw [footerTable_noFooter b e found]
    exact .inl ⟨rfl, fun _ _ h => nomatch h⟩
  | ok pair =>
    obtain ⟨start, table⟩ := pair
    by_cases fitting : Plausible start table
    · exact .inr ⟨start, table, rfl, fitting, by simp only [ok_bind, require_true fitting]; rfl⟩
    · refine .inl ⟨by simp only [ok_bind, require_false fitting, error_bind], ?_⟩
      intro start' table' same
      cases same
      exact fitting

theorem getD_mem {xs : List Nat} {i : Nat} (bound : i < xs.length) : xs.getD i 0 ∈ xs := by
  rw [getD_eq_getElem _ _ bound]
  exact getElem_mem bound

theorem range_on_table {offsets : List Nat} {chunkStart chunkEnd : Nat} {first last : Int}
    (served : chunkDataRangeFromOffsets offsets chunkStart chunkEnd = .ok (first, last)) :
    (first = 0 ∨ ∃ n ∈ offsets, first = (n : Int)) ∧ ∃ n ∈ offsets, last + 1 = (n : Int) := by
  simp only [chunkDataRangeFromOffsets, bind_eq_ok, require_eq_ok, exists_const] at served
  obtain ⟨order, bound, value⟩ := served
  cases value
  constructor
  · by_cases inner : 0 < chunkStart
    · exact .inr ⟨_, getD_mem (show chunkStart - 1 < offsets.length by omega), by rw [if_pos inner]⟩
    · exact .inl (by rw [if_neg inner]; rfl)
  · exact ⟨_, getD_mem (show chunkEnd - 1 < offsets.length by omega), by omega⟩

/-- For every accepted and wholly consumed stream the served offsets are the ends of the decoded
frames if and only if the trailing bytes do not claim a different, fitting table. -/
theorem served_offsets_truthful_iff (blake3 : Keyed) (lz4 : Lz4) (b : Bytes) (xorbHash : XorbHash)
    (ends : List Nat) (accepted : validate blake3 lz4 b xorbHash = .ok (ends, [])) :
    ServesOn b ends ↔ TruthfulTail b := by
  obtain ⟨p, tail, rfl, rfl, -, last⟩ := validate_eq_ok.mp accepted
  have scanned : scanChunkOffsets (p.bytes ++ tail) = .ok p.packedEnds :=
    scanLoop_frames p.frames last (Nat.lt_succ_self _) (by simpa using p.count)
  have walked : frameEnds (p.bytes ++ tail) = p.packedEnds :=
    headerEnds_frames p.frames last (Nat.le_refl _)
  have enough : readXorbChunkOffsets (p.bytes ++ tail) = .ok p.packedEnds →
      ServesOn (p.bytes ++ tail) p.packedEnds := by
    intro served
    refine ⟨served, fun offsets chunkStart chunkEnd first last' same range => ?_⟩
    cases Except.ok.inj (served.symm.trans same)
    exact range_on_table range
  rcases readChunkOffsets_cases (p.bytes ++ tail) with ⟨none, refused⟩ |
    ⟨start, table, found, fitting, read⟩
  · have served : readXorbChunkOffsets (p.bytes ++ tail) = .ok p.packedEnds := by
      simp only [readXorbChunkOffsets, none, scanned]
    exact ⟨fun _ start table found h => absurd h (refused start table found),
      fun _ => enough served⟩
  · have served : readXorbChunkOffsets (p.bytes ++ tail) = .ok table := by
      simp only [readXorbChunkOffsets, read]
    constructor
    · rintro ⟨truthful, -⟩ start' table' found' -
      cases Except.ok.inj (found.symm.trans found')
      rw [walked]
      exact Except.ok.inj (served.symm.trans truthful)
    · intro truthful
      apply enough
      rw [served, truthful start table found fitting, walked]

/- Two one-byte chunks, "A" and "B", with their keyed hashes and their root. Neither body is
compressed, so no frame ever reaches the LZ4 decoder. -/
def hashA : Hash := ⟨[0xb2, 0x36, 0xbf, 0xf4, 0xfe, 0x1b, 0x99, 0xe1,
  0x31, 0x35, 0x35, 0x71, 0xd7, 0x0c, 0x49, 0x1f, 0x94, 0xee, 0x3e, 0x82, 0x33, 0x58, 0x40, 0x8c,
  0x4d, 0x0d, 0x35, 0xe5, 0x18, 0x31, 0xc0, 0x1a], rfl⟩

def hashB : Hash := ⟨[0xe0, 0xd6, 0x8c, 0x40, 0xa9, 0x94, 0xf0, 0x87,
  0x82, 0x75, 0x30, 0xcc, 0x01, 0x35, 0xf0, 0x79, 0xed, 0x4a, 0x69, 0x7a, 0xad, 0x63, 0x9b, 0xb2,
  0x4c, 0x55, 0x04, 0x43, 0xc6, 0x16, 0xe0, 0x6b], rfl⟩

def rootAB : Hash := ⟨[0xcb, 0x24, 0x4f, 0x77, 0x02, 0x56, 0x6e, 0x3e,
  0x28, 0xd3, 0x9a, 0x40, 0xf0, 0x22, 0xf0, 0x9c, 0x62, 0xbc, 0x69, 0x1e, 0x14, 0x7a, 0xdd, 0x4a,
  0x42, 0x65, 0xdf, 0x3c, 0xc4, 0x3c, 0x64, 0xa4], rfl⟩

def letterHash : Keyed := fun key data =>
  if key = internalNodeKey then rootAB else if data = [65] then hashA else hashB

def unusedLz4 : Lz4 := ⟨fun _ _ => none, fun _ => ⟨[], true⟩⟩

def letterFrames : Bytes := [0, 1, 0, 0, 0, 1, 0, 0, 65] ++ [0, 1, 0, 0, 0, 1, 0, 0, 66]

theorem letterNonce_length : ([0, 0, 0, 0] : Bytes).length = 4 := rfl

/-- A footer of the two chunks whose first packed end is `first`; the true one is 9. -/
def letterFooter (first : UInt32) : Footer :=
  { hash := rootAB, hashes := [hashA, hashB], packed := [first, 18], unpacked := [1, 2]
    hashOffset := 132, boundaryOffset := 56, nonce := ⟨[0, 0, 0, 0], letterNonce_length⟩
    packed_length := rfl, unpacked_length := rfl }

theorem letters_truthful :
    validate letterHash unusedLz4 (letterFrames ++ (letterFooter 9).encode) rootAB =
      .ok ([9, 18], []) ∧
    TruthfulTail (letterFrames ++ (letterFooter 9).encode) ∧
    ServesOn (letterFrames ++ (letterFooter 9).encode) [9, 18] := by
  have accepted : validate letterHash unusedLz4 (letterFrames ++ (letterFooter 9).encode) rootAB =
      .ok ([9, 18], []) := by decide +kernel
  have table : footerTable (letterFrames ++ (letterFooter 9).encode) = .ok (18, [9, 18]) := by
    decide +kernel
  have walked : frameEnds (letterFrames ++ (letterFooter 9).encode) = [9, 18] := by decide +kernel
  have truthful : TruthfulTail (letterFrames ++ (letterFooter 9).encode) := by
    intro start offsets found _
    cases Except.ok.inj (table.symm.trans found)
    exact walked.symm
  exact ⟨accepted, truthful, (served_offsets_truthful_iff letterHash unusedLz4 _ rootAB [9, 18] accepted).mpr truthful⟩

/-- A footer that puts the first boundary at 10 is accepted and served. -/
theorem forged_table_served :
    validate letterHash unusedLz4 (letterFrames ++ (letterFooter 10).encode) rootAB =
      .ok ([9, 18], []) ∧
    readXorbChunkOffsets (letterFrames ++ (letterFooter 10).encode) = .ok [10, 18] ∧
    ¬ ServesOn (letterFrames ++ (letterFooter 10).encode) [9, 18] := by
  have served : readXorbChunkOffsets (letterFrames ++ (letterFooter 10).encode) = .ok [10, 18] := by
    decide +kernel
  refine ⟨by decide +kernel, served, fun claim => ?_⟩
  have same := Except.ok.inj (served.symm.trans claim.1)
  exact absurd same (by decide)

end Xet.Xorb
