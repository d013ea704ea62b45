import Xet.Shard.Decode

/-! Decoding inverts encoding: one lemma for each part of the stream, each with an arbitrary
rest behind it, put together in the layout of the encoder. -/
namespace Xet.Shard
open Wire List UInt64

section
variable {ε : Type}

theorem readRecord_encode (fail : ReadError → DecodeError ε) (record : Record) (rest : Bytes) :
    readRecord fail (record.encode ++ rest) = .ok (record, rest) := by
  simp only [readRecord, readFull_append record.encode_length, Except.mapError, ok_bind, Record.decode_encode]

theorem readRecords_encode {α : Type} (fail : Nat → ReadError → DecodeError ε)
    {toRecord : α → Record} {ofRecord : Record → α} (inverse : ∀ x, ofRecord (toRecord x) = x)
    (xs : List α) (i : Nat) (rest : Bytes) :
    readRecords fail ofRecord xs.length i ((xs.flatMap fun x => (toRecord x).encode) ++ rest) =
      .ok (xs, rest) := by
  induction xs generalizing i with
  | nil => rfl
  | cons x xs ih =>
    simp only [flatMap_cons, append_assoc, length_cons, readRecords, readRecord_encode, ok_bind, ih, inverse]

theorem reverse_segments {a b c d : Bytes} (la : a.length = 8) (lb : b.length = 8)
    (lc : c.length = 8) (ld : d.length = 8) :
    ((List.range 4).flatMap fun seg => (((a ++ (b ++ (c ++ d))).drop (seg * 8)).take 8).reverse) =
      a.reverse ++ (b.reverse ++ (c.reverse ++ d.reverse)) := by
  simp [range_succ, drop_append, take_append, la, lb, lc, ld, take_of_length_le, drop_eq_nil_of_le]

theorem transformSHA256ByteOrder_involutive (h : SHA256Hash) :
    transformSHA256ByteOrder (transformSHA256ByteOrder h) = h := by
  have split : ∃ a b c d : Bytes, h.bytes = a ++ (b ++ (c ++ d)) ∧ a.length = 8 ∧ b.length = 8 ∧
      c.length = 8 ∧ d.length = 8 := by
    refine ⟨h.bytes.take 8, (h.bytes.drop 8).take 8, (h.bytes.drop 16).take 8, h.bytes.drop 24, ?_, ?_, ?_, ?_, ?_⟩
    · have tail : ∀ n, (h.bytes.drop n).take 8 ++ h.bytes.drop (n + 8) = h.bytes.drop n := by
        intro n
        rw [← drop_drop, take_append_drop]
      rw [tail 16, tail 8, take_append_drop]
    all_goals simp [h.size]
  obtain ⟨a, b, c, d, shape, la, lb, lc, ld⟩ := split
  apply Hash.ext
  simp only [transformSHA256ByteOrder, shape, reverse_segments la lb lc ld]
  rw [reverse_segments (by simpa using la) (by simpa using lb) (by simpa using lc) (by simpa using ld)]
  simp only [reverse_reverse]

/-- What the format can carry: counts of 32 bits, and no header that looks like a bookend. -/
structure FileBlock.Encodable (fb : FileBlock) : Prop where
  regular : fb.Regular
  count : fb.entries.length < 2 ^ 32
  noBookend : fb.header ≠ bookend

structure CASBlock.Encodable (cb : CASBlock) : Prop where
  count : cb.chunks.length < 2 ^ 32
  noBookend : cb.header ≠ bookend

theorem count_toNat {n : Nat} (small : n < 2 ^ 32) : (UInt32.ofNat n).toNat = n :=
  UInt32.toNat_ofNat_of_lt' small

variable {fb : FileBlock}

theorem decodeVerification_build (regular : fb.Regular) (rest : Bytes) :
    (decodeVerification fb.flags fb.entries.length (buildVerification fb ++ rest) :
      Except (DecodeError ε) _) = .ok (fb.verification, rest) := by
  unfold decodeVerification buildVerification
  by_cases flagged : fb.flags &&& fileWithVerification ≠ 0
  · rw [if_pos flagged, if_pos flagged, ← regular.verification flagged]
    exact readRecords_encode _ (fun _ => rfl) fb.verification 0 rest
  · rw [if_neg flagged, if_neg flagged, regular.noVerification (not_not.mp flagged)]
    rfl

theorem decodeMetadataExt_build (regular : fb.Regular) (rest : Bytes) :
    (decodeMetadataExt fb.flags (buildMetadataExt fb ++ rest) : Except (DecodeError ε) _) =
      .ok (fb.metadataExt, rest) := by
  unfold decodeMetadataExt buildMetadataExt
  by_cases flagged : fb.flags &&& fileWithMetadataExt ≠ 0
  · obtain ⟨sha, present⟩ := Option.isSome_iff_exists.mp (regular.metadata flagged)
    simp only [if_pos flagged, present, readRecord_encode, ok_bind, hashRecord, transformSHA256ByteOrder_involutive]
  · rw [if_neg flagged, if_neg flagged, regular.noMetadata (not_not.mp flagged)]
    rfl

theorem decodeFileBlock_build (encodable : fb.Encodable) (rest : Bytes) :
    ∃ body, buildFileBlock fb = fb.header.encode ++ body ∧
      (decodeFileBlock fb.header (body ++ rest) : Except (DecodeError ε) _) = .ok (fb, rest) := by
  refine ⟨_, rfl, ?_⟩
  have count : fb.header.b.toNat = fb.entries.length := count_toNat encodable.count
  have flags : fb.header.a = fb.flags := rfl
  have entries : ∀ rest, (readRecords .fileEntry FileDataSequenceEntry.ofRecord fb.entries.length 0
      ((fb.entries.flatMap (·.record.encode)) ++ rest) : Except (DecodeError ε) _) =
        .ok (fb.entries, rest) :=
    readRecords_encode _ (fun _ => rfl) fb.entries 0
  simp only [decodeFileBlock, append_assoc, count, flags, entries, ok_bind,
    decodeVerification_build encodable.regular, decodeMetadataExt_build encodable.regular]
  rfl

theorem decodeFiles_build {files : List FileBlock} (encodable : ∀ fb ∈ files, fb.Encodable)
    {fuel : Nat} (enough : files.length < fuel) (rest : Bytes) :
    (decodeFiles fuel (files.flatMap buildFileBlock ++ (buildBookend ++ rest)) :
      Except (DecodeError ε) _) = .ok (files, rest) := by
  induction files generalizing fuel with
  | nil =>
    obtain ⟨fuel, rfl⟩ := Nat.exists_eq_add_of_lt enough
    simp [decodeFiles, buildBookend, readRecord_encode]
  | cons fb files ih =>
    obtain ⟨fuel, rfl⟩ := Nat.exists_eq_succ_of_ne_zero (Nat.ne_of_gt (Nat.zero_lt_of_lt enough))
    have here := encodable fb mem_cons_self
    obtain ⟨body, shape, decoded⟩ := decodeFileBlock_build (ε := ε) here
      (files.flatMap buildFileBlock ++ (buildBookend ++ rest))
    have others := ih (fun fb member => encodable fb (mem_cons_of_mem _ member))
      (Nat.lt_of_succ_lt_succ enough)
    simp only [flatMap_cons, shape, append_assoc, decodeFiles, readRecord_encode,
      ok_bind, if_neg here.noBookend, decoded, others]

theorem decodeCASBlock_build {cb : CASBlock} (encodable : cb.Encodable) (rest : Bytes) :
    ∃ body, buildCASBlock cb = cb.header.encode ++ body ∧
      (decodeCASBlock cb.header (body ++ rest) : Except (DecodeError ε) _) = .ok (cb, rest) := by
  refine ⟨_, rfl, ?_⟩
  have count : cb.header.b.toNat = cb.chunks.length := count_toNat encodable.count
  have chunks : (readRecords .chunkEntry CASChunkSequenceEntry.ofRecord cb.chunks.length 0
      ((cb.chunks.flatMap (·.record.encode)) ++ rest) : Except (DecodeError ε) _) =
        .ok (cb.chunks, rest) :=
    readRecords_encode _ (fun _ => rfl) cb.chunks 0 rest
  simp only [decodeCASBlock, count, chunks, ok_bind]
  rfl

theorem decodeCASInfos_build {blocks : List CASBlock} (encodable : ∀ cb ∈ blocks, cb.Encodable)
    {onCASBlock : CASBlock → Except ε Unit} (passed : ∀ cb ∈ blocks, onCASBlock cb = .ok ())
    {fuel : Nat} (enough : blocks.length < fuel) (i : Nat) (rest : Bytes) :
    decodeCASInfos onCASBlock fuel i (blocks.flatMap buildCASBlock ++ (buildBookend ++ rest)) =
      .ok (blocks, rest) := by
  induction blocks generalizing fuel i with
  | nil =>
    obtain ⟨fuel, rfl⟩ := Nat.exists_eq_add_of_lt enough
    simp [decodeCASInfos, buildBookend, readRecord_encode]
  | cons cb blocks ih =>
    obtain ⟨fuel, rfl⟩ := Nat.exists_eq_succ_of_ne_zero (Nat.ne_of_gt (Nat.zero_lt_of_lt enough))
    have here := encodable cb mem_cons_self
    obtain ⟨body, shape, decoded⟩ := decodeCASBlock_build (ε := ε) here
      (blocks.flatMap buildCASBlock ++ (buildBookend ++ rest))
    have others := ih (fun cb member => encodable cb (mem_cons_of_mem _ member))
      (fun cb member => passed cb (mem_cons_of_mem _ member))
      (Nat.lt_of_succ_lt_succ enough) (i + 1)
    simp only [flatMap_cons, shape, append_assoc, decodeCASInfos, readRecord_encode,
      ok_bind, if_neg here.noBookend, decoded, passed cb mem_cons_self, Except.mapError, others]

theorem readUint64_put (field : FooterField) (x : UInt64) (rest : Bytes) :
    (readUint64 field (putUint64 x ++ rest) : Except (DecodeError ε) _) = .ok (x, rest) := by
  have value := uint64_putUint64 x []
  rw [append_nil] at value
  simp only [readUint64, readFull_append (putUint64_length x), Except.mapError, ok_bind, value]

theorem decodeFooter_encode {f : Footer} (supported : f.version = 1) (rest : Bytes) :
    (decodeFooter (f.encode ++ rest) : Except (DecodeError ε) _) = .ok (f, rest) := by
  have key : Hash.ofBytes f.chunkHashKey.bytes = f.chunkHashKey := by
    have := Hash.ofBytes_bytes f.chunkHashKey []
    rwa [append_nil] at this
  have reserved : Reserved.ofBytes f.reserved.bytes = f.reserved := by
    apply Reserved.ext
    have whole : (f.reserved.bytes ++ []).takeD 48 0 = f.reserved.bytes :=
      takeD_left' f.reserved.size
    rwa [append_nil] at whole
  simp only [decodeFooter, Footer.encode, append_assoc, readUint64_put, ok_bind, supported,
    require_true, readFull_append f.chunkHashKey.size, readFull_append f.reserved.size,
    Except.mapError, key, reserved]
  rw [← supported]

theorem decodeHeader_build {withFooter : Bool} {footerSize : UInt64} (rest : Bytes)
    (mode : withFooter = true ↔ footerSize ≠ 0) :
    (decodeHeader withFooter (buildHeader footerSize ++ rest) : Except (DecodeError ε) _) =
      .ok (footerSize, rest) := by
  have magic : ((buildHeader footerSize).drop 15).take 17 = shardMagicSequence := rfl
  have tail : ∀ n, (buildHeader footerSize).drop (32 + n) =
      (putUint64 2 ++ putUint64 footerSize).drop n := by
    intro n
    rw [← drop_drop]
    rfl
  have version : uint64 ((buildHeader footerSize).drop 32) = 2 := by
    rw [tail 0, drop_zero, uint64_putUint64]
  have size : uint64 ((buildHeader footerSize).drop 40) = footerSize := by
    rw [tail 8, drop_left' (putUint64_length 2)]
    simpa using uint64_putUint64 footerSize []
  have expected : ¬ (withFooter = true ∧ footerSize = 0) := fun h => mode.mp h.1 h.2
  have unexpected : ¬ (withFooter = false ∧ footerSize ≠ 0) := by
    rintro ⟨off, nonzero⟩
    rw [mode.mpr nonzero] at off
    cases off
  simp only [decodeHeader, readFull_append (buildHeader_length footerSize), Except.mapError, ok_bind,
    magic, version, size, require_true, expected, unexpected, not_false_eq_true]

theorem le_length_flatMap {α : Type} {f : α → Bytes} (nonempty : ∀ x, f x ≠ []) (xs : List α) :
    xs.length ≤ (xs.flatMap f).length := by
  induction xs with
  | nil => exact Nat.zero_le _
  | cons x xs ih =>
    have := length_pos_iff.mpr (nonempty x)
    rw [flatMap_cons, length_append, length_cons]
    omega

theorem buildFileBlock_ne_nil (fb : FileBlock) : buildFileBlock fb ≠ [] := by
  apply ne_nil_of_length_pos
  rw [buildFileBlock, length_append, Record.encode_length]
  omega

theorem buildCASBlock_ne_nil (cb : CASBlock) : buildCASBlock cb ≠ [] := by
  apply ne_nil_of_length_pos
  rw [buildCASBlock, length_append, Record.encode_length]
  omega

structure Encodable (s : Shard) : Prop where
  files : ∀ fb ∈ s.files, fb.Encodable
  casInfos : ∀ cb ∈ s.casInfos, cb.Encodable

theorem decodeWithCASBlockCallback_sections {s : Shard} (encodable : s.Encodable) {withFooter : Bool}
    {footerSize : UInt64} (mode : withFooter = true ↔ footerSize ≠ 0)
    {onCASBlock : CASBlock → Except ε Unit} (passed : ∀ cb ∈ s.casInfos, onCASBlock cb = .ok ())
    (tail : Bytes) :
    decodeWithCASBlockCallback ((s.sections footerSize).flatten ++ tail) withFooter onCASBlock = (do
      let (footer, r) ← decodeFooterSection footerSize tail
      .ok (⟨footerSize, s.files, s.casInfos, footer⟩, r)) := by
  have files : ∀ rest, (decodeFiles ((s.fileInfoSection ++ rest).length + 1)
      (s.fileInfoSection ++ rest) : Except (DecodeError ε) _) = .ok (s.files, rest) := by
    intro rest
    have enough := le_length_flatMap buildFileBlock_ne_nil s.files
    rw [fileInfoSection, append_assoc]
    apply decodeFiles_build encodable.files
    rw [length_append]
    omega
  have blocks : ∀ rest, decodeCASInfos onCASBlock ((s.casInfoSection ++ rest).length + 1) 0
      (s.casInfoSection ++ rest) = .ok (s.casInfos, rest) := by
    intro rest
    have enough := le_length_flatMap buildCASBlock_ne_nil s.casInfos
    rw [casInfoSection, append_assoc]
    apply decodeCASInfos_build encodable.casInfos passed
    rw [length_append]
    omega
  simp only [decodeWithCASBlockCallback, sections_flatten, append_assoc, decodeHeader_build _ mode,
    ok_bind, files, blocks]

end

theorem decode_encodedBytes {s : Shard} (encodable : s.Encodable) {withFooter : Bool} {now : UInt64}
    (supported : withFooter = true → (s.finalFooter now).version = 1) (rest : Bytes) :
    decode (s.encodedBytes withFooter now ++ rest) withFooter =
      .ok (⟨if withFooter then 200 else 0, s.files, s.casInfos,
        if withFooter then some (s.finalFooter now) else none⟩, rest) := by
  cases withFooter with
  | true =>
    have footer : (decodeFooterSection 200 ((s.finalFooter now).encode ++ rest) :
        Except (DecodeError Empty) _) = .ok (some (s.finalFooter now), rest) := by
      have large : (200 : UInt64) ≤ 200 := by decide
      simp only [decodeFooterSection, decodeFooter_encode (supported rfl), drainFooter, large,
        require_true, ok_bind, true_or, if_true]
      rfl
    simp only [decode, encodedBytes, if_true, append_assoc,
      decodeWithCASBlockCallback_sections encodable (show true = true ↔ (200 : UInt64) ≠ 0 by decide)
        (fun _ _ => rfl), footer, ok_bind]
  | false =>
    simp only [decode, encodedBytes, Bool.false_eq_true, if_false,
      decodeWithCASBlockCallback_sections encodable (show false = true ↔ (0 : UInt64) ≠ 0 by decide)
        (fun _ _ => rfl)]
    rfl

/-- The footer of an encoded shard: the given one with the true positions of the sections, as
the 64-bit counters of the encoder hold them. The range of an empty table starts at the footer. -/
theorem finalFooter_eq (s : Shard) (now : UInt64) (f : Footer) (given : s.footer.getD (s.newFooter now) = f) :
    let footerAt := ofNat (buildHeader 200 ++ (s.fileInfoSection ++ s.casInfoSection)).length
    s.finalFooter now = { f with
      fileInfoOffset := ofNat (buildHeader 200).length
      casInfoOffset := ofNat (buildHeader 200 ++ s.fileInfoSection).length
      footerOffset := footerAt
      fileLookupOffset := if f.fileLookupNumEntries = 0 then footerAt else f.fileLookupOffset
      casLookupOffset := if f.casLookupNumEntries = 0 then footerAt else f.casLookupOffset
      chunkLookupOffset := if f.chunkLookupNumEntries = 0 then footerAt else f.chunkLookupOffset } := by
  simp only [finalFooter, given, Footer.withOffsets, sectionEnd_header, sectionEnd_files, sectionEnd_all]

/-- Any sequence of reads drains the encoder of the same bytes, as many as announced, and these
decode to the shard, with the true section positions in its footer. -/
theorem shard_round_trip (s : Shard) (withFooter : Bool) (now : UInt64)
    (accepted : s.validate = .ok ())
    (fileHeaders : ∀ fb ∈ s.files, fb.header ≠ bookend ∧ fb.entries.length < 2 ^ 32)
    (casHeaders : ∀ cb ∈ s.casInfos, cb.header ≠ bookend ∧ cb.chunks.length < 2 ^ 32)
    (supported : withFooter = true → ∀ f, s.footer = some f → f.version = 1) :
    ∃ bytes : Bytes, bytes.length = s.encodedSize withFooter ∧
      (∀ lens : List Nat, let results := ((s.encode withFooter now).reads lens).1
        received results = bytes.take lens.sum ∧
        (EncodeResult.eof ∈ results → received results = bytes) ∧
        ∀ idx, EncodeResult.invalidSection idx ∉ results) ∧
      (∀ lens len, bytes.length ≤ List.sum lens → 0 < len →
        (((s.encode withFooter now).reads lens).2.read len).1 = .eof) ∧
      ∃ decoded, decode bytes withFooter = .ok (decoded, []) ∧
        decoded.files = s.files ∧ decoded.casInfos = s.casInfos ∧
        (withFooter = false → decoded.footer = none) ∧
        (withFooter = true → ∀ f, s.footer.getD (s.newFooter now) = f →
          let header := buildHeader 200
          let footerAt := UInt64.ofNat (header ++ (s.fileInfoSection ++ s.casInfoSection)).length
          ∃ f', decoded.footer = some f' ∧
            bytes = header ++ (s.fileInfoSection ++ s.casInfoSection) ++ f'.encode ∧
            f' = { f with
              fileInfoOffset := UInt64.ofNat header.length
              casInfoOffset := UInt64.ofNat (header ++ s.fileInfoSection).length
              footerOffset := footerAt
              fileLookupOffset := if f.fileLookupNumEntries = 0 then footerAt else f.fileLookupOffset
              casLookupOffset := if f.casLookupNumEntries = 0 then footerAt else f.casLookupOffset
              chunkLookupOffset :=
                if f.chunkLookupNumEntries = 0 then footerAt else f.chunkLookupOffset }) := by
  have regular := validate_regular accepted
  have encodable : s.Encodable :=
    ⟨fun fb member => ⟨regular fb member, (fileHeaders fb member).2, (fileHeaders fb member).1⟩,
      fun cb member => ⟨(casHeaders cb member).2, (casHeaders cb member).1⟩⟩
  have version : withFooter = true → (s.finalFooter now).version = 1 := by
    intro mode
    cases carried : s.footer with
    | none => simp only [finalFooter, carried, Option.getD_none, Footer.withOffsets, newFooter]
    | some f => simpa only [finalFooter, carried, Option.getD_some, Footer.withOffsets] using
        supported mode f carried
  have start := streams_start s withFooter now
  have decoded := decode_encodedBytes encodable version []
  rw [List.append_nil] at decoded
  refine ⟨s.encodedBytes withFooter now, encodedBytes_length regular withFooter now, ?_, ?_,
    _, decoded, rfl, rfl, ?_, ?_⟩
  · intro lens
    have all := ShardReader.reads_received start lens
    refine ⟨all, ?_, ShardReader.reads_valid start lens⟩
    intro ended
    exact all.trans (List.take_of_length_le (ShardReader.reads_eof start ended))
  · intro lens len drained positive
    obtain ⟨value, -⟩ := ShardReader.read_spec (ShardReader.reads_state start lens) len
    rw [value, List.drop_eq_nil_of_le drained, List.take_nil]
    exact if_pos ⟨positive, rfl⟩
  · intro mode
    simp only [mode, Bool.false_eq_true, if_false]
  · intro mode f given
    refine ⟨s.finalFooter now, by simp only [mode, if_true], ?_, finalFooter_eq s now f given⟩
    simp only [mode, encodedBytes, if_true, sections_flatten]

def emptyShard : Shard := ⟨0, [], [], none⟩

/-- Two chunks of one xorb and a file of both, with all optional parts. -/
def sampleShard : Shard where
  footerSize := 0
  files := [⟨dataKey, fileWithVerification ||| fileWithMetadataExt, [⟨Hash.zero, 0, 7, 0, 2⟩],
    [dataKey], some dataKey⟩]
  casInfos := [⟨Hash.zero, 0, [⟨dataKey, 0, 3, chunkGlobalDedupEligible⟩, ⟨Hash.zero, 3, 4, 0⟩], 7, 23⟩]
  footer := some { emptyShard.newFooter 5 with fileLookupOffset := 9, fileLookupNumEntries := 1 }

theorem sampleShard_round_trip :
    let results := ((sampleShard.encode true 0).reads [50, 0, 1, 1000, 1]).1
    sampleShard.validate = .ok () ∧ ∃ decoded, decode (received results) true = .ok (decoded, []) ∧
      decoded.files = sampleShard.files ∧ decoded.casInfos = sampleShard.casInfos := by
  have accepted : sampleShard.validate = .ok () := by decide +kernel
  have version : true = true → ∀ f, sampleShard.footer = some f → f.version = 1 := by
    rintro - f ⟨⟩
    rfl
  obtain ⟨bytes, -, drains, -, decoded, ok, files, casInfos, -⟩ :=
    shard_round_trip sampleShard true 0 accepted (by decide +kernel) (by decide +kernel) version
  have ended := (drains [50, 0, 1, 1000, 1]).2.1 (by decide +kernel)
  exact ⟨accepted, decoded, by rw [ended]; exact ok, files, casInfos⟩

/-- Validation does not look at the footer, and the decoder knows version 1 only. -/
theorem unsupported_footer_not_decoded :
    let s := { emptyShard with footer := some { emptyShard.newFooter 0 with version := 2 } }
    let results := ((s.encode true 0).reads [1000, 1]).1
    s.validate = .ok () ∧ EncodeResult.eof ∈ results ∧
      decode (received results) true = .error (.footerVersion 2) := by
  decide +kernel

end Xet.Shard
