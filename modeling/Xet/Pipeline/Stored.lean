import Xet.Download.Selection
import Xet.Pipeline.File

/-! What the fetcher reads of stored xorbs: for each term the front of its frames, and all of them
exactly when every frame fits a buffer and the term declares what its chunks hold. -/
namespace Xet.Pipeline
open Wire Shard Download List Nat

variable {ε : Type} {lz4 : Xorb.Lz4}

def fetchedFrom (hash : XorbHash) : Nat → List (Xorb.Frame lz4) → List Fetched
  | _, [] => []
  | index, f :: rest => ⟨hash, index, f.header, f.bytes⟩ :: fetchedFrom hash (index + 1) rest

def dataOf (frames : List (Xorb.Frame lz4)) : List Bytes := frames.map fun f => f.data

def Fit (frames : List (Xorb.Frame lz4)) : Prop := ∀ f ∈ frames, f.bytes.length ≤ frameBufSize

theorem decode_fetched (hash : XorbHash) (index : Nat) (f : Xorb.Frame lz4) :
    Fetched.decode lz4 ⟨hash, index, f.header, f.bytes⟩ = .ok f.data := by
  have body : f.bytes.drop Xorb.chunkHeaderSize = f.body := drop_left' f.header.encode_length
  have decoded := f.decoded
  simp only [Fetched.decode, body]
  split
  · rename_i stored
    simp only [Xorb.decodeChunk, stored, if_true, bind_eq_ok, require_eq_ok, exists_const] at decoded ⊢
    simpa using decoded
  · exact decoded

theorem decode_fetchedFrom (hash : XorbHash) (index : Nat) (frames : List (Xorb.Frame lz4)) :
    Forall₂ (fun c d => c.decode lz4 = .ok d) (fetchedFrom hash index frames) (dataOf frames) := by
  induction frames generalizing index with
  | nil => exact .nil
  | cons f rest ih => exact .cons (decode_fetched hash index f) (ih (index + 1))

/-- What reading frames gives: a front of them, within the declared size. -/
structure Reads (hash : XorbHash) (index expected unpacked : Nat) (frames : List (Xorb.Frame lz4)) (t : TermFetch ε)
    (count : Nat) : Prop where
  chunks : t.chunks = fetchedFrom hash index (frames.take count)
  within : unpacked + (dataOf (frames.take count)).flatten.length ≤ expected
  done : t.stop.error = none → count = frames.length
  all : t.stop.error = none ↔ Fit frames ∧ unpacked + (dataOf frames).flatten.length = expected

theorem readFrame_front (hash : XorbHash) (index : Nat) (front rest : Bytes) (failed : Option ε) :
    readFrame hash index front.length ⟨front ++ rest, failed⟩ = .ok (front, ⟨rest, failed⟩) := by
  simp [readFrame]

theorem checkFrame_stored (hash : XorbHash) (index expected unpacked : Nat) (f : Xorb.Frame lz4) :
    checkFrame (ε := ε) hash index expected unpacked f.bytes =
      if unpacked + f.data.length ≤ expected then .ok f.header else .error (.tooLong hash index expected) := by
  have header : f.bytes.take Xorb.chunkHeaderSize = f.header.encode := take_left' f.header.encode_length
  have size : f.header.compressedSize + Xorb.chunkHeaderSize = f.bytes.length := by
    rw [f.bytes_length]
    exact Nat.add_comm ..
  rw [checkFrame, header, f.parse_header, f.data_length]
  simp only [Except.mapError, ok_bind, require_true size]
  split
  · rename_i room
    rw [require_true room]
    rfl
  · rename_i full
    rw [require_false full]
    rfl

theorem fetchChunks_reads (hash : XorbHash) (expected : Nat) (offsets : List Nat) (frames : List (Xorb.Frame lz4))
    (index start unpacked : Nat) (s : Stream ε) (room : unpacked ≤ expected)
    (ends : ∀ i < frames.length, offsets.getD (index + i) 0 = start + ((frames.take (i + 1)).flatMap Xorb.Frame.bytes).length)
    (bytes : s.bytes = frames.flatMap Xorb.Frame.bytes) :
    ∃ count, Reads hash index expected unpacked frames
      (fetchChunks hash expected offsets frames.length index start unpacked s) count := by
  induction frames generalizing index start unpacked s with
  | nil =>
    refine ⟨0, rfl, room, fun _ => rfl, ?_⟩
    by_cases exact_size : unpacked = expected <;> simp [fetchChunks, exact_size, FetchEnd.error, Fit, dataOf]
  | cons f rest ih =>
    have first : offsets.getD index 0 = start + f.bytes.length := by simpa using ends 0 (by simp)
    have packed : (offsets.getD index 0 : Int) - start = f.bytes.length := by omega
    have least : ¬ (f.bytes.length : Int) < Xorb.chunkHeaderSize := by
      rw [f.bytes_length]
      have : Xorb.chunkHeaderSize = 8 := rfl
      omega
    obtain ⟨_, failed⟩ := s
    subst bytes
    simp only [length_cons, fetchChunks, packed, least, false_or, Int.toNat_natCast, flatMap_cons,
      readFrame_front, checkFrame_stored, cast_lt]
    by_cases large : frameBufSize < f.bytes.length
    · rw [if_pos large]
      refine ⟨0, rfl, room, (nomatch ·), (nomatch ·), ?_⟩
      rintro ⟨fit, -⟩
      exact absurd (fit f mem_cons_self) (not_le.mpr large)
    rw [if_neg large]
    by_cases full : unpacked + f.data.length ≤ expected
    · simp only [if_pos full, ← f.data_length]
      have ends' : ∀ i < rest.length, offsets.getD (index + 1 + i) 0 =
          offsets.getD index 0 + ((rest.take (i + 1)).flatMap Xorb.Frame.bytes).length := by
        intro i low
        have next := ends (i + 1) (by simpa using low)
        rw [take_succ_cons, flatMap_cons, length_append] at next
        rw [add_assoc, Nat.add_comm 1 i, next, first, add_assoc]
      obtain ⟨count, reads⟩ := ih (index + 1) (offsets.getD index 0) (unpacked + f.data.length)
        ⟨rest.flatMap Xorb.Frame.bytes, failed⟩ full ends' rfl
      refine ⟨count + 1, ?_, ?_, fun finished => by simpa using reads.done finished, ?_⟩
      · simp only [reads.chunks, take_succ_cons, fetchedFrom]
      · have within := reads.within
        simp only [take_succ_cons, dataOf, map_cons, flatten_cons, length_append] at within ⊢
        omega
      · have split : unpacked + f.data.length + (dataOf rest).flatten.length =
            unpacked + (dataOf (f :: rest)).flatten.length := by
          simp only [dataOf, map_cons, flatten_cons, length_append]
          omega
        rw [reads.all, split, Fit, Fit, forall_mem_cons, and_iff_right (Nat.not_lt.mp large)]
    · rw [if_neg full]
      refine ⟨0, rfl, room, (nomatch ·), (nomatch ·), ?_⟩
      rintro ⟨-, same⟩
      simp only [dataOf, map_cons, flatten_cons, length_append] at same
      omega

theorem flatten_prefix {l l' : List Bytes} (front : l <+: l') : l.flatten <+: l'.flatten := by
  obtain ⟨rest, rfl⟩ := front
  exact ⟨rest.flatten, flatten_append.symm⟩

/-- The storage has the xorbs, with true offset tables, and no others. -/
structure Stores (xorbs : XorbHash → Option (StoredXorb lz4)) (source : XorbSource ε) : Prop where
  offsets : ∀ hash x, xorbs hash = some x → source.getXorbChunkOffsets hash = .ok x.payload.packedEnds
  bytes : ∀ hash x, xorbs hash = some x → ∃ seek, source.getXorbReadSeekCloser hash = .ok seek ∧
    ∀ start : Nat, seek start = .ok ⟨x.data.drop start, none⟩
  missing : ∀ hash, xorbs hash = none → ∃ e, source.getXorbChunkOffsets hash = .error e

section
variable (xorbs : XorbHash → Option (StoredXorb lz4))

/-- The stored chunks of a term are there and hold the bytes it declares. -/
structure AddsUp (t : FileDataSequenceEntry) : Prop where
  stored : ∃ x, xorbs t.casHash = some x ∧ t.chunkIndexEnd.toNat ≤ x.payload.frames.length
  length : (entryChunks xorbs t).flatten.length = t.unpackedSegBytes.toNat

def Fits (t : FileDataSequenceEntry) : Prop := ∀ x, xorbs t.casHash = some x → Fit (x.framesIn (entryRange t))

/-- What fetching a term gives, decoded: the front of its stored chunks, within the declared size. -/
structure TermRead (t : FileDataSequenceEntry) (fetch : TermFetch ε) (datas : List Bytes) : Prop where
  decodes : Forall₂ (fun c d => c.decode lz4 = .ok d) fetch.chunks datas
  front : datas.flatten <+: (entryChunks xorbs t).flatten
  within : datas.flatten.length ≤ t.unpackedSegBytes.toNat
  done : fetch.stop.error = none → datas.flatten = (entryChunks xorbs t).flatten
  all : fetch.stop.error = none ↔ AddsUp xorbs t ∧ Fits xorbs t

end

variable {xorbs : XorbHash → Option (StoredXorb lz4)} {source : XorbSource ε} {t : FileDataSequenceEntry}

section
variable (stores : Stores xorbs source)
include stores

theorem openXorbRange_stored {x : StoredXorb lz4} {hash : XorbHash} {r : ChunkRange} (stored : xorbs hash = some x)
    (valid : x.Valid r) :
    openXorbRange source hash (x.span r).start (x.span r).last =
      .ok ⟨(x.framesIn r).flatMap Xorb.Frame.bytes, none⟩ := by
  obtain ⟨seek, opened, bytes⟩ := stores.bytes _ _ stored
  have low : 0 ≤ (x.span r).start ∧ (x.span r).start ≤ (x.span r).last := by
    have := valid.packedStart_lt
    simp only [StoredXorb.span]
    omega
  have limit : ((x.span r).last - (x.span r).start + 1).toNat ≤ (x.data.drop (x.packedStart r.start)).length := by
    have := valid.last_lt
    have := valid.packedStart_lt
    simp only [StoredXorb.span, length_drop] at *
    omega
  have seeks : seek (x.span r).start = .ok ⟨x.data.drop (x.packedStart r.start), none⟩ := bytes _
  simp only [openXorbRange, require_true low, opened, seeks, Except.mapError, ok_bind, if_pos limit]
  exact congrArg (fun b => Except.ok (Stream.mk b none)) valid.slice_span

theorem locateTerm_stored {x : StoredXorb lz4} (stored : xorbs t.casHash = some x) (valid : x.Valid (entryRange t)) :
    locateTerm source t =
      .ok (x.payload.packedEnds, x.packedStart t.chunkIndexStart.toNat,
        ⟨(x.framesIn (entryRange t)).flatMap Xorb.Frame.bytes, none⟩) := by
  have range : Xorb.chunkDataRangeFromOffsets x.payload.packedEnds t.chunkIndexStart.toNat t.chunkIndexEnd.toNat =
    .ok ((x.span (entryRange t)).start, (x.span (entryRange t)).last) := valid.range
  simp only [locateTerm, stores.offsets _ _ stored, range, Except.mapError, ok_bind, openXorbRange_stored stores stored valid]
  rfl

theorem locateTerm_missing (missing : ∀ x, xorbs t.casHash = some x → ¬ x.Valid (entryRange t)) :
    ∃ e, locateTerm source t = .error e := by
  cases stored : xorbs t.casHash with
  | none =>
    obtain ⟨e, refused⟩ := stores.missing _ stored
    exact ⟨.locate t.casHash e, by rw [locateTerm, refused]; rfl⟩
  | some x =>
    cases range : Xorb.chunkDataRangeFromOffsets x.payload.packedEnds t.chunkIndexStart.toNat t.chunkIndexEnd.toNat with
    | ok bytes => exact absurd (x.valid_of_range range) (missing x stored)
    | error e => exact ⟨.locateRange t.casHash e, by simp [locateTerm, stores.offsets _ _ stored, range, Except.mapError]⟩

theorem fetchTerm_read (t : FileDataSequenceEntry) (some_bytes : t.unpackedSegBytes ≠ 0) :
    ∃ datas, TermRead xorbs t (fetchTerm source t) datas := by
  have size : t.unpackedSegBytes.toNat ≠ 0 := fun zero => some_bytes (UInt32.toNat_inj.mp zero)
  by_cases found : ∃ x, xorbs t.casHash = some x ∧ x.Valid (entryRange t)
  · obtain ⟨x, stored, valid⟩ := found
    have chunks : entryChunks xorbs t = dataOf (x.framesIn (entryRange t)) := by
      rw [entryChunks, stored]
      rfl
    have count : t.chunkIndexEnd.toNat - t.chunkIndexStart.toNat = (x.framesIn (entryRange t)).length :=
      valid.framesIn_length.symm
    have ends : ∀ i < (x.framesIn (entryRange t)).length, x.payload.packedEnds.getD (t.chunkIndexStart.toNat + i) 0 =
        x.packedStart t.chunkIndexStart.toNat +
          (((x.framesIn (entryRange t)).take (i + 1)).flatMap Xorb.Frame.bytes).length := by
      intro i low
      have bound := valid.bound
      have index : t.chunkIndexStart.toNat + i + 1 - 1 = t.chunkIndexStart.toNat + i := rfl
      have last : t.chunkIndexStart.toNat + i + 1 ≤ x.payload.frames.length := by
        simp only [entryRange] at bound
        omega
      have get := x.getD_packedEnds (succ_pos _) last
      have part := StoredXorb.packedStart_stop (x := x)
        (r := ⟨t.chunkIndexStart.toNat, t.chunkIndexStart.toNat + i + 1⟩) (le_add_right _ (i + 1))
      rw [index] at get
      rw [get, part]
      simp only [StoredXorb.framesIn, entryRange, take_take]
      congr 4
      omega
    obtain ⟨n, reads⟩ := fetchChunks_reads (ε := ε) t.casHash t.unpackedSegBytes.toNat x.payload.packedEnds
      (x.framesIn (entryRange t)) t.chunkIndexStart.toNat (x.packedStart t.chunkIndexStart.toNat) 0
      ⟨(x.framesIn (entryRange t)).flatMap Xorb.Frame.bytes, none⟩ (zero_le _) ends rfl
    rw [fetchTerm, locateTerm_stored stores stored valid]
    simp only [count]
    refine ⟨dataOf ((x.framesIn (entryRange t)).take n), ?_, ?_, ?_, ?_, ?_⟩
    · rw [reads.chunks]
      exact decode_fetchedFrom ..
    · rw [chunks, dataOf, map_take]
      exact flatten_prefix ( take_prefix ..)
    · exact (zero_add _).symm.trans_le reads.within
    · intro finished
      rw [reads.done finished, take_length, chunks]
    · rw [reads.all, zero_add, ← chunks]
      constructor
      · rintro ⟨fit, length⟩
        refine ⟨⟨⟨x, stored, valid.bound⟩, length⟩, fun y there => ?_⟩
        cases stored.symm.trans there
        exact fit
      · rintro ⟨adds, fits⟩
        exact ⟨fits x stored, adds.length⟩
  · have missing : ∀ x, xorbs t.casHash = some x → ¬ x.Valid (entryRange t) := fun x stored valid => found ⟨x, stored, valid⟩
    obtain ⟨e, refused⟩ := locateTerm_missing stores missing
    rw [fetchTerm, refused]
    refine ⟨[], .nil, nil_prefix, zero_le _, by simp [FetchEnd.error], by simp [FetchEnd.error], ?_⟩
    -- Chunks that hold bytes are a valid range.
    rintro ⟨⟨⟨x, stored, bound⟩, length⟩, -⟩
    refine absurd ⟨?_, bound⟩ (missing x stored)
    by_contra order
    have none : t.chunkIndexEnd.toNat - t.chunkIndexStart.toNat = 0 := by
      simp only [entryRange] at order
      omega
    rw [entryChunks_eq stored, none] at length
    exact size length.symm

end

inductive HoldsAt (xorbs : XorbHash → Option (StoredXorb lz4)) : List FileDataSequenceEntry → Nat → UInt8 → Prop
  | here (t : FileDataSequenceEntry) (rest : List FileDataSequenceEntry) (q : Nat) (b : UInt8)
      (low : q < t.unpackedSegBytes.toNat) (byte : (entryChunks xorbs t).flatten[q]? = some b) :
      HoldsAt xorbs (t :: rest) q b
  | later (t : FileDataSequenceEntry) (rest : List FileDataSequenceEntry) (q : Nat) (b : UInt8)
      (there : HoldsAt xorbs rest q b) : HoldsAt xorbs (t :: rest) (t.unpackedSegBytes.toNat + q) b

def fetchedTerms (entries : List FileDataSequenceEntry) : List FileDataSequenceEntry :=
  entries.filter fun t => t.unpackedSegBytes ≠ 0

theorem fetchedTerms_skip (rest : List FileDataSequenceEntry) (empty : t.unpackedSegBytes = 0) :
    fetchedTerms (t :: rest) = fetchedTerms rest := by
  simp [fetchedTerms, empty]

theorem fetchedTerms_keep (rest : List FileDataSequenceEntry) (some_bytes : t.unpackedSegBytes ≠ 0) :
    fetchedTerms (t :: rest) = t :: fetchedTerms rest := by
  simp [fetchedTerms, some_bytes]

structure Sound (xorbs : XorbHash → Option (StoredXorb lz4)) (t : FileDataSequenceEntry) : Prop where
  adds : AddsUp xorbs t
  fits : Fits xorbs t

/-- How the decoded chunks of a pipeline lie in the file that starts with its first term. -/
structure Layout (xorbs : XorbHash → Option (StoredXorb lz4)) (entries : List FileDataSequenceEntry)
    (datas : List Bytes) (stop : Option (FetchError ε)) : Prop where
  bytes : ∀ q b, datas.flatten[q]? = some b → HoldsAt xorbs entries q b
  bound : ∀ before t after, entries = before ++ t :: after → t.unpackedSegBytes ≠ 0 → ¬ Sound xorbs t →
    datas.flatten.length ≤ declared (before ++ [t]) ∧ stop ≠ none
  done : stop = none → datas.flatten = content xorbs (fetchedTerms entries) ∧ datas.flatten.length = declared entries
  all : (∀ t ∈ fetchedTerms entries, Sound xorbs t) → stop = none

theorem declared_cons (t : FileDataSequenceEntry) (rest : List FileDataSequenceEntry) :
    declared (t :: rest) = t.unpackedSegBytes.toNat + declared rest := by
  simp [declared]

theorem Layout.nil : Layout (ε := ε) xorbs [] [] none := by
  refine ⟨fun q b some => by simp at some, ?_, fun _ => ⟨rfl, rfl⟩, fun _ => rfl⟩
  intro before t after shape
  simp at shape

variable {rest : List FileDataSequenceEntry}

theorem Layout.skip {datas : List Bytes} {stop : Option (FetchError ε)} (layout : Layout xorbs rest datas stop)
    (empty : t.unpackedSegBytes = 0) : Layout xorbs (t :: rest) datas stop := by
  have zero : t.unpackedSegBytes.toNat = 0 := by rw [empty]; rfl
  have same := fetchedTerms_skip rest empty
  constructor
  case bytes =>
    intro q b byte
    have later := HoldsAt.later t rest q b (layout.bytes q b byte)
    rwa [zero, zero_add] at later
  case bound =>
    intro before u after shape some_bytes wrong
    cases before with
    | nil =>
      obtain ⟨rfl, -⟩ := cons.inj shape
      exact absurd empty some_bytes
    | cons v before =>
      obtain ⟨rfl, others⟩ := cons.inj shape
      have bound := layout.bound before u after others some_bytes wrong
      rwa [cons_append, declared_cons, zero, zero_add]
  case done =>
    rw [same, declared_cons, zero, zero_add]
    exact layout.done
  case all =>
    rw [same]
    exact layout.all

theorem Layout.fail {fetch : TermFetch ε} {datas : List Bytes} {e : FetchError ε}
    (read : TermRead xorbs t fetch datas) (some_bytes : t.unpackedSegBytes ≠ 0) (stop : fetch.stop.error = some e) :
    Layout xorbs (t :: rest) datas (some e) := by
  constructor
  case bytes =>
    intro q b byte
    obtain ⟨low, -⟩ := List.getElem?_eq_some_iff.mp byte
    obtain ⟨more, front⟩ := read.front
    refine .here t rest q b (low.trans_le read.within) ?_
    rw [← front, getElem?_append_left low, byte]
  case bound =>
    intro before u after shape _ _
    refine ⟨?_, by simp⟩
    cases before with
    | nil =>
      obtain ⟨rfl, -⟩ := cons.inj shape
      exact (declared_cons t []).symm ▸ read.within
    | cons v before =>
      obtain ⟨rfl, -⟩ := cons.inj shape
      rw [cons_append, declared_cons]
      exact le_add_right_of_le read.within
  case done => exact (nomatch ·)
  case all =>
    intro sound
    obtain ⟨adds, fits⟩ := sound t (fetchedTerms_keep rest some_bytes ▸ mem_cons_self)
    exact absurd (read.all.mpr ⟨adds, fits⟩) (by simp [stop])

theorem Layout.next {fetch : TermFetch ε} {first datas : List Bytes} {stop : Option (FetchError ε)}
    (read : TermRead xorbs t fetch first) (some_bytes : t.unpackedSegBytes ≠ 0) (finished : fetch.stop.error = none)
    (layout : Layout xorbs rest datas stop) : Layout xorbs (t :: rest) (first ++ datas) stop := by
  obtain ⟨adds, fits⟩ := read.all.mp finished
  have whole := read.done finished
  have length : first.flatten.length = t.unpackedSegBytes.toNat := whole ▸ adds.length
  have same := fetchedTerms_keep rest some_bytes
  constructor
  case bytes =>
    intro q b byte
    rw [flatten_append, getElem?_append] at byte
    split at byte
    · rename_i low
      exact .here t rest q b (length ▸ low) (whole ▸ byte)
    · rename_i high
      obtain ⟨k, rfl⟩ := Nat.exists_eq_add_of_le (Nat.not_lt.mp high)
      rw [Nat.add_sub_cancel_left] at byte
      exact length ▸ .later t rest k b (layout.bytes k b byte)
  case bound =>
    intro before u after shape nonempty wrong
    cases before with
    | nil =>
      obtain ⟨rfl, -⟩ := cons.inj shape
      exact absurd ⟨adds, fits⟩ wrong
    | cons v before =>
      obtain ⟨rfl, others⟩ := cons.inj shape
      obtain ⟨bound, failed⟩ := layout.bound before u after others nonempty wrong
      refine ⟨?_, failed⟩
      rw [flatten_append, length_append, length, cons_append, declared_cons]
      exact Nat.add_le_add_left bound _
  case done =>
    intro none
    obtain ⟨bytes, count⟩ := layout.done none
    rw [flatten_append, same, content_cons, whole, bytes, declared_cons, length_append, ← bytes, count, adds.length]
    exact ⟨rfl, rfl⟩
  case all =>
    rw [same]
    exact fun sound => layout.all fun u member => sound u (mem_cons_of_mem _ member)

theorem fetchTerms_layout (stores : Stores xorbs source) (entries : List FileDataSequenceEntry) :
    ∃ datas, Forall₂ (fun c d => c.decode lz4 = .ok d) (allChunks (fetchTerms source entries)).1 datas ∧
      Layout xorbs entries datas (allChunks (fetchTerms source entries)).2 := by
  induction entries with
  | nil => exact ⟨[], .nil, .nil⟩
  | cons t rest ih =>
    obtain ⟨datas, decodes, layout⟩ := ih
    by_cases empty : t.unpackedSegBytes = 0
    · have same : fetchTerms source (t :: rest) = fetchTerms source rest := by simp [fetchTerms, empty]
      rw [same]
      exact ⟨datas, decodes, layout.skip empty⟩
    · have split : fetchTerms source (t :: rest) = fetchTerm source t :: fetchTerms source rest := by
        simp [fetchTerms, empty]
      obtain ⟨first, read⟩ := fetchTerm_read stores t empty
      rw [split, allChunks]
      cases stop : (fetchTerm source t).stop.error with
      | some e => exact ⟨first, read.decodes, .fail read empty stop⟩
      | none => exact ⟨first ++ datas, rel_append read.decodes decodes, .next read empty stop layout⟩

end Xet.Pipeline
