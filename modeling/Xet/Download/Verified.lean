import Xet.Download.Answer
import Xet.Download.WriteTo
import Xet.Xorb.Encoder

/-! Readers with an expected file hash. Whatever the server and the cache hold, a clean end comes
only behind bytes whose own chunk hashes and sizes give the expected hash. -/
namespace Xet.Download
open Wire List Xorb.Decoder Reader

inductive Call where
  | read (len : Nat)
  | writeTo (w : Nat → Write)

inductive Status (ε : Type) where
  /-- A read that filled its buffer or ended before an error. -/
  | more
  /-- The end of the file from a read, or a write of the whole rest. -/
  | clean
  | failed (e : ReaderError ε)
  | unwritten (e : WriteError)
  deriving DecidableEq

structure CallResult (ε : Type) where
  data : Bytes
  status : Status ε
  deriving DecidableEq

def Stop.status {ε : Type} : Option (Stop ε) → Status ε
  | none => .more
  | some .eof => .clean
  | some (.failed e) => .failed e

def WriteStop.status {ε : Type} : Option (WriteStop ε) → Status ε
  | none => .clean
  | some (.reader e) => .failed e
  | some (.writer e) => .unwritten e

namespace Reader
variable (blake3 : Keyed) (lz4 : Xorb.Lz4) {ε : Type} (client : Client ε)

def call (r : Reader ε) : Call → CallResult ε × Reader ε
  | .read len =>
    let (result, r) := r.read blake3 lz4 client len
    (⟨result.data, Stop.status result.err⟩, r)
  | .writeTo w =>
    let (result, r) := r.writeTo blake3 lz4 client w
    (⟨result.data, WriteStop.status result.err⟩, r)

def calls : List Call → Reader ε → List (CallResult ε) × Reader ε
  | [], r => ([], r)
  | c :: rest, r =>
    let (first, r) := r.call blake3 lz4 client c
    let (others, r) := calls rest r
    (first :: others, r)

end Reader

section
variable {blake3 : Keyed} {lz4 : Xorb.Lz4} {ε : Type} {client : Client ε}

/-- A chunk comes without a hash, or with its own. -/
def TrueHashes (blake3 : Keyed) (cache : ChunkCache) : Prop :=
  ∀ c ∈ cache.chunks, c.hash = none ∨ c.hash = some (computeChunkHash blake3 c.data)

variable {d d' : Xorb.Decoder}

theorem readFooter_ne_data {header b : Bytes} : d.readFooter blake3 header ≠ (.data b, d') := by
  intro run
  unfold readFooter at run
  split at run
  · cases run
  · dsimp only at run
    split at run <;> cases run

theorem readChunk_records {len : Nat} {header b : Bytes}
    (run : d.readChunk blake3 lz4 len header = (.data b, d')) :
    ∃ size, d'.chunks = d.chunks ++ [(computeChunkHash blake3 b, size)] := by
  unfold Xorb.Decoder.readChunk at run
  split at run
  · cases run
  rename_i h _
  split_ifs at run
  · cases run
  · cases run
  · cases run
  split at run
  · cases run
  dsimp only at run
  split at run
  · cases run
  split at run
  · cases run
  · cases run
    exact ⟨_, rfl⟩

theorem read_records {len : Nat} {b : Bytes} (run : d.read blake3 lz4 len = (.data b, d')) :
    ∃ size, d'.chunks = d.chunks ++ [(computeChunkHash blake3 b, size)] := by
  unfold Xorb.Decoder.read at run
  split at run
  · cases run
  split at run
  · cases run
  split at run
  · dsimp only at run
    split at run
    · split at run <;> cases run
    · cases run
  · dsimp only at run
    split at run
    · exact absurd run readFooter_ne_data
    · obtain ⟨size, recorded⟩ := readChunk_records run
      exact ⟨size, recorded⟩

theorem loadChunks_hashes (stored left : Nat) (d : Xorb.Decoder) :
    ∀ c ∈ (loadChunks blake3 lz4 stored left d).1, c.hash = none ∨ c.hash = some (computeChunkHash blake3 c.data) := by
  induction left generalizing stored d with
  | zero =>
    simp only [loadChunks]
    split <;> simp
  | succ left ih =>
    rw [loadChunks]
    rcases run : d.read blake3 lz4 Xorb.chunkBufSize with ⟨result, d'⟩
    cases result with
    | eof => simp
    | failed e => simp
    | data b =>
      intro c member
      rcases mem_cons.mp member with rfl | member
      · obtain ⟨size, recorded⟩ := read_records run
        dsimp only
        split
        · rename_i aligned
          rw [recorded, length_append, length_singleton] at aligned
          right
          rw [recorded, getElem?_append_right (by omega)]
          simp [show stored - d.chunks.length = 0 by omega]
        · exact .inl rfl
      · exact ih _ _ c member

variable {cache : ChunkCache}

theorem runJob_hashes {task : FetchTask} (run : runJob blake3 lz4 client task = .ok cache) :
    TrueHashes blake3 cache := by
  unfold runJob at run
  split at run
  · cases run
    intro c member
    obtain ⟨data, -, rfl⟩ := mem_map.mp member
    exact .inl rfl
  · simp only [bind_eq_ok, require_eq_ok, exists_const, mapError_eq_ok] at run
    obtain ⟨-, body, -, run⟩ := run
    have hashes : ∀ c ∈ (loadChunks blake3 lz4 0 _ _).1, _ :=
      loadChunks_hashes 0 (task.chunks.stop - task.chunks.start) (new body false)
    rcases load : loadChunks blake3 lz4 0 (task.chunks.stop - task.chunks.start) (new body false) with
      ⟨chunks, outcome⟩
    rw [load] at run hashes
    dsimp only at run
    split at run
    · split at run <;> cases run
      exact hashes
    · cases run
      exact hashes

theorem prefetched_hashes {tasks : List FetchTask} {key : FetchKey}
    (run : prefetched blake3 lz4 client tasks key = .ok cache) : TrueHashes blake3 cache := by
  unfold prefetched at run
  split at run
  · cases run
  · exact runJob_hashes run

/-- A reader between terms has no cache with hashes. -/
theorem own_of_idle {r : Reader ε} (idle : r.current = none) :
    ∀ key cache stop, r.current = some (key, cache, stop) → TrueHashes blake3 cache := by
  simp [idle]

/-- The reader is fine, its verifier has the hashes and sizes of `chunks`, and these are the bytes
delivered and the rest of the last of them. -/
structure Tracks (blake3 : Keyed) (h : FileHash) (r : Reader ε) (delivered : Bytes) (chunks : List Bytes) : Prop where
  healthy : r.err = none
  whole : r.skipBytes = 0
  verifier : r.verifier = some ⟨h, chunks.map (Xorb.chunkMeta blake3)⟩
  bytes : chunks.flatten = delivered ++ r.chunk
  hashes : ∀ key cache stop, r.current = some (key, cache, stop) → TrueHashes blake3 cache

variable {h : FileHash} {r : Reader ε} {delivered : Bytes} {chunks : List Bytes}

theorem Tracks.accept {c : CachedChunk} (t : Tracks blake3 h r delivered chunks) (drained : r.chunk = [])
    (own : c.hash = none ∨ c.hash = some (computeChunkHash blake3 c.data)) :
    Tracks blake3 h (r.accept blake3 c) delivered (chunks ++ [c.data]) := by
  have hash : c.hash.getD (computeChunkHash blake3 c.data) = computeChunkHash blake3 c.data := by
    rcases own with none | some
    · rw [none, Option.getD_none]
    · rw [some, Option.getD_some]
  have nothing : ¬ (r.termIdx = 0 ∧ 0 < r.skipBytes) := by
    rw [t.whole]
    exact fun both => absurd both.2 (Int.lt_irrefl 0)
  constructor
  case healthy => exact t.healthy
  case whole => simp [Reader.accept, t.whole]
  case verifier => simp [Reader.accept, t.verifier, hash, Xorb.chunkMeta]
  case bytes => simp [Reader.accept, nothing, t.bytes, drained]
  case hashes => exact t.hashes

/-- How a fill ends: in bytes to deliver, at an end that was checked, or in an error that sticks. -/
def Ends (blake3 : Keyed) (h : FileHash) (delivered : Bytes) : Option (Stop ε) × Reader ε → Prop
  | (none, r) => ∃ chunks, Tracks blake3 h r delivered chunks
  | (some .eof, r) => ∃ chunks, Tracks blake3 h r delivered chunks ∧ r.chunk = [] ∧
      computeFileHashOf blake3 (chunks.map (Xorb.chunkMeta blake3)) = h
  | (some (.failed e), r) => r.err = some e

theorem finish_ends (t : Tracks blake3 h r delivered chunks) (drained : r.chunk = []) :
    Ends blake3 h delivered (r.finish blake3) := by
  simp only [Reader.finish, t.verifier]
  split
  · rename_i same
    refine ⟨chunks, ⟨t.healthy, t.whole, t.verifier, ?_, own_of_idle rfl⟩, rfl, same⟩
    rw [t.bytes, drained]
    rfl
  · rfl

theorem loadTerm_tracks {term : Term} {selected : SelectedFetch} {key : FetchKey} {stop : Nat} {r' : Reader ε}
    (t : Tracks blake3 h r delivered chunks)
    (load : r.loadTerm blake3 lz4 client term selected = .ok ((key, cache, stop), r')) :
    TrueHashes blake3 cache ∧ r'.chunk = r.chunk ∧ Tracks blake3 h r' delivered chunks := by
  cases loaded : r.current with
  | some current =>
    rw [loadTerm, loaded] at load
    cases load
    exact ⟨t.hashes _ _ _ loaded, rfl, t⟩
  | none =>
    simp only [loadTerm, loaded, bind_eq_ok] at load
    obtain ⟨fetched, run, value⟩ := load
    cases value
    have own := prefetched_hashes run
    refine ⟨own, rfl, t.healthy, t.whole, t.verifier, t.bytes, ?_⟩
    intro key' cache' stop' same
    cases same
    exact own

theorem tracks_rule : FillRule blake3 lz4 client
    (fun _ r => r.chunk = [] ∧ ∃ chunks, Tracks blake3 h r delivered chunks)
    (fun _ _ cache _ r => r.chunk = [] ∧ TrueHashes blake3 cache ∧ ∃ chunks, Tracks blake3 h r delivered chunks)
    (Ends blake3 h delivered) where
  finish := by
    rintro r ⟨drained, chunks, t⟩
    exact finish_ends t drained
  load := by
    rintro p ps r key cache stop r' ⟨drained, chunks, t⟩ load
    obtain ⟨own, same, t'⟩ := loadTerm_tracks t load
    exact ⟨same.trans drained, own, chunks, t'⟩
  loadFailed := fun _ _ => rfl
  read := by
    rintro ps key cache left r c ⟨drained, own, chunks, t⟩ chunkRead
    have next := t.accept drained (own c (mem_of_getElem? (readChunk_eq_ok chunkRead)))
    split
    · rename_i more
      exact ⟨more, own, _, next⟩
    · exact ⟨_, next⟩
  readFailed := fun _ _ => rfl
  leave := by
    rintro ps key cache r ⟨drained, -, chunks, t⟩
    exact ⟨drained, chunks, t.healthy, t.whole, t.verifier, t.bytes, own_of_idle rfl⟩

theorem Tracks.fill (t : Tracks blake3 h r delivered chunks) : Ends blake3 h delivered (r.fill blake3 lz4 client) :=
  tracks_rule.fill (fun drained => ⟨drained, chunks, t⟩) fun _ => ⟨chunks, t⟩

theorem Tracks.take (t : Tracks blake3 h r delivered chunks) (n : Nat) :
    Tracks blake3 h { r with chunk := r.chunk.drop n } (delivered ++ r.chunk.take n) chunks where
  healthy := t.healthy
  whole := t.whole
  verifier := t.verifier
  bytes := by rw [t.bytes, append_assoc, take_append_drop]
  hashes := t.hashes

theorem readLoop_ends (fuel want : Nat) {r : Reader ε} {delivered : Bytes} {chunks : List Bytes}
    (t : Tracks blake3 h r delivered chunks) :
    Ends blake3 h (delivered ++ (r.readLoop blake3 lz4 client fuel want).1.data)
      ((r.readLoop blake3 lz4 client fuel want).1.err, (r.readLoop blake3 lz4 client fuel want).2) := by
  have stays : Ends blake3 h (delivered ++ []) (none, r) := ⟨chunks, by rwa [append_nil]⟩
  induction fuel generalizing want r delivered chunks with
  | zero => exact stays
  | succ fuel ih =>
    rw [readLoop]
    split
    · exact stays
    · have filled : Ends blake3 h delivered (r.fill blake3 lz4 client) := t.fill
      rcases run : r.fill blake3 lz4 client with ⟨_ | stop, r'⟩
      · rw [run] at filled
        obtain ⟨chunks', t'⟩ := filled
        have rest := ih (want - (r'.chunk.take want).length) (t'.take want)
          ⟨chunks', by rw [append_nil]; exact t'.take want⟩
        rw [append_assoc] at rest
        exact rest
      · rw [run] at filled
        simpa using filled

def Written (blake3 : Keyed) (h : FileHash) (delivered : Bytes) : WriteResult ε × Reader ε → Prop
  | (⟨data, none⟩, r) => Ends blake3 h (delivered ++ data) (some .eof, r)
  | (⟨_, some (.reader e)⟩, r) => r.err = some e
  | (⟨data, some (.writer _)⟩, r) => ∃ chunks, Tracks blake3 h r (delivered ++ data) chunks

theorem Written.cons {lead : Bytes} {out : WriteResult ε × Reader ε}
    (written : Written blake3 h (delivered ++ lead) out) :
    Written blake3 h delivered (⟨lead ++ out.1.data, out.1.err⟩, out.2) := by
  obtain ⟨⟨data, _ | _ | _⟩, r⟩ := out
  · simpa only [Written, append_assoc] using written
  · exact written
  · simpa only [Written, append_assoc] using written

theorem writeLoop_written (w : Nat → Write) (i : Nat) (r : Reader ε) {delivered : Bytes} {chunks : List Bytes}
    (t : Tracks blake3 h r delivered chunks) : Written blake3 h delivered (r.writeLoop blake3 lz4 client w i) := by
  induction i, r using writeLoop.induct blake3 lz4 client w generalizing delivered chunks with
  | case1 i r r' run =>
    have filled : Ends blake3 h delivered (r.fill blake3 lz4 client) := t.fill
    rw [run] at filled
    rw [writeLoop, run]
    simpa only [Written, append_nil] using filled
  | case2 i r e r' run =>
    have filled : Ends blake3 h delivered (r.fill blake3 lz4 client) := t.fill
    rw [run] at filled
    rw [writeLoop, run]
    exact filled
  | case3 i r r' run n e written =>
    have filled : Ends blake3 h delivered (r.fill blake3 lz4 client) := t.fill
    rw [run] at filled
    obtain ⟨chunks', t'⟩ := filled
    rw [writeLoop, run]
    dsimp only
    rw [written]
    exact ⟨chunks', t'.take n⟩
  | case4 i r r' run n written _ _ _ ih =>
    have filled : Ends blake3 h delivered (r.fill blake3 lz4 client) := t.fill
    rw [run] at filled
    obtain ⟨chunks', t'⟩ := filled
    rw [writeLoop, run]
    dsimp only
    rw [written]
    exact (ih (t'.take n)).cons

/-- Between two calls: the verifier is up to date, or the reader has failed. -/
def Between (blake3 : Keyed) (h : FileHash) (r : Reader ε) (delivered : Bytes) : Prop :=
  (∃ chunks, Tracks blake3 h r delivered chunks) ∨ ∃ e, r.err = some e

def Verified (blake3 : Keyed) (h : FileHash) (delivered : Bytes) : Prop :=
  ∃ chunks : List Bytes, delivered = chunks.flatten ∧
    computeFileHashOf blake3 (chunks.map (Xorb.chunkMeta blake3)) = h

structure Sound (blake3 : Keyed) (h : FileHash) (delivered : Bytes) (out : CallResult ε × Reader ε) : Prop where
  between : Between blake3 h out.2 (delivered ++ out.1.data)
  clean : out.1.status = .clean → Verified blake3 h (delivered ++ out.1.data)
  failed : ∀ e, out.1.status = .failed e → out.2.err = some e

theorem call_failed {e : ReaderError ε} (failed : r.err = some e) (c : Call) :
    r.call blake3 lz4 client c = (⟨[], .failed e⟩, r) := by
  cases c with
  | read len => simp only [Reader.call, Reader.read, failed, Stop.status]
  | writeTo w => simp only [Reader.call, Reader.writeTo, failed, WriteStop.status]

theorem Ends.verified (e : Ends blake3 h delivered (some .eof, r)) : Verified blake3 h delivered := by
  obtain ⟨chunks, t, drained, hash⟩ := e
  refine ⟨chunks, ?_, hash⟩
  rw [t.bytes, drained, append_nil]

theorem Tracks.read (t : Tracks blake3 h r delivered chunks) (len : Nat) :
    Sound blake3 h delivered (r.call blake3 lz4 client (.read len)) := by
  have ends : Ends blake3 h (delivered ++ (r.readLoop blake3 lz4 client len len).1.data) _ := readLoop_ends len len t
  simp only [Reader.call, Reader.read, t.healthy]
  rcases run : r.readLoop blake3 lz4 client len len with ⟨⟨data, err⟩, r'⟩
  rw [run] at ends
  rcases err with _ | _ | e
  · exact ⟨.inl ends, by simp [Stop.status], by simp [Stop.status]⟩
  · have verified := Ends.verified ends
    obtain ⟨chunks', t', -⟩ := ends
    exact ⟨.inl ⟨chunks', t'⟩, fun _ => verified, by simp [Stop.status]⟩
  · -- The error sticks, also when the bytes read before it are returned first.
    dsimp only
    split
    · exact ⟨.inr ⟨e, ends⟩, by simp [Stop.status], fun e' same => by cases same; exact ends⟩
    · exact ⟨.inr ⟨e, ends⟩, by simp [Stop.status], by simp [Stop.status]⟩

theorem Tracks.writeTo (t : Tracks blake3 h r delivered chunks) (w : Nat → Write) :
    Sound blake3 h delivered (r.call blake3 lz4 client (.writeTo w)) := by
  have written : Written blake3 h delivered (r.writeLoop blake3 lz4 client w 0) := writeLoop_written w 0 r t
  simp only [Reader.call, Reader.writeTo, t.healthy]
  rcases run : r.writeLoop blake3 lz4 client w 0 with ⟨⟨data, err⟩, r'⟩
  rw [run] at written
  rcases err with _ | e | e
  · have verified := Ends.verified written
    obtain ⟨chunks', t', -⟩ := written
    exact ⟨.inl ⟨chunks', t'⟩, fun _ => verified, nofun⟩
  · exact ⟨.inr ⟨e, written⟩, nofun, fun e' same => by cases same; exact written⟩
  · exact ⟨.inl written, nofun, nofun⟩

theorem Between.call (b : Between blake3 h r delivered) (c : Call) :
    Sound blake3 h delivered (r.call blake3 lz4 client c) := by
  rcases b with ⟨chunks, t⟩ | ⟨e, failed⟩
  · cases c with
    | read len => exact t.read len
    | writeTo w => exact t.writeTo w
  · rw [call_failed failed]
    refine ⟨.inr ⟨e, failed⟩, nofun, ?_⟩
    rintro e' ⟨⟩
    exact failed

theorem calls_failed {e : ReaderError ε} (failed : r.err = some e) (cs : List Call) :
    ∀ x ∈ (r.calls blake3 lz4 client cs).1, x = ⟨[], .failed e⟩ := by
  induction cs with
  | nil => nofun
  | cons c rest ih =>
    intro x member
    rw [Reader.calls, call_failed failed] at member
    rcases mem_cons.mp member with rfl | member
    · rfl
    · exact ih x member

theorem calls_sound (cs : List Call) {r : Reader ε} {delivered : Bytes} (b : Between blake3 h r delivered)
    {before after : List (CallResult ε)} {result : CallResult ε}
    (run : (r.calls blake3 lz4 client cs).1 = before ++ result :: after) :
    (result.status = .clean → Verified blake3 h (delivered ++ ((before ++ [result]).map (·.data)).flatten)) ∧
    (∀ e, result.status = .failed e → ∀ x ∈ after, x = ⟨[], .failed e⟩) := by
  induction cs generalizing r delivered before with
  | nil => simp [Reader.calls] at run
  | cons c rest ih =>
    have sound : Sound blake3 h delivered (r.call blake3 lz4 client c) := b.call c
    rw [Reader.calls] at run
    dsimp only at run
    cases before with
    | nil =>
      obtain ⟨rfl, tail⟩ := List.cons.inj run
      refine ⟨fun clean => by simpa using sound.clean clean, fun e failed x member => ?_⟩
      rw [← tail] at member
      exact calls_failed (sound.failed e failed) rest x member
    | cons first before =>
      obtain ⟨rfl, tail⟩ := List.cons.inj run
      obtain ⟨clean, sticks⟩ := ih sound.between tail
      refine ⟨fun ended => ?_, sticks⟩
      have verified := clean ended
      rwa [append_assoc] at verified

/-- Verification can not be switched off: a reader with an expected hash starts at the first byte
and checks all chunks. -/
theorem newReader_tracks {plan : Except PlanError (List SelectedFetch × List FetchTask)} {offset : Int}
    {terms : List Term} (opened : newReader plan offset terms (some h) = .ok r) : Tracks blake3 h r [] [] := by
  simp only [newReader, newFileVerifier, bind_eq_ok, require_eq_ok, exists_const, Prod.exists] at opened
  obtain ⟨verifier, ⟨start, same⟩, selected, tasks, -, value⟩ := opened
  cases same
  cases value
  exact ⟨rfl, start, rfl, rfl, own_of_idle rfl⟩

end

/-- For every response, every answer of the server, every content of the cache and every sequence of
reads and writes: a clean end comes only behind bytes that are verified, an error stays, and the
hashes that a fetch passes on are those of its chunks. -/
theorem verified_download (blake3 : Keyed) (lz4 : Xorb.Lz4) {ε : Type} (client : Client ε) (h : FileHash) (r : Reader ε)
    (opened : (∃ response, newReaderV1 response (some h) = .ok r) ∨ ∃ response, newReaderV2 response (some h) = .ok r)
    (cs : List Call) (before after : List (CallResult ε)) (result : CallResult ε)
    (run : (r.calls blake3 lz4 client cs).1 = before ++ result :: after) :
    (result.status = .clean → Verified blake3 h ((before ++ [result]).map (·.data)).flatten) ∧
    (∀ e, result.status = .failed e → ∀ x ∈ after, x = ⟨[], .failed e⟩) ∧
    ∀ task cache, runJob blake3 lz4 client task = .ok cache → TrueHashes blake3 cache := by
  have start : Between blake3 h r [] := by
    rcases opened with ⟨response, opened⟩ | ⟨response, opened⟩
    · exact .inl ⟨[], newReader_tracks opened⟩
    · exact .inl ⟨[], newReader_tracks opened⟩
  obtain ⟨clean, sticks⟩ := calls_sound cs start run
  exact ⟨clean, sticks, fun task cache => runJob_hashes⟩

def sampleRoot : Hash := ⟨[0x12, 0x13, 0xaa, 0xf8, 0xf3, 0x88, 0x9a, 0x5c, 0xab, 0x63, 0xc8,
  0x5b, 0xc2, 0x31, 0x1f, 0xe9, 0x7c, 0x3a, 0xf3, 0x6f, 0xc7, 0x41,
  0x08, 0x0a, 0xcd, 0x08, 0x96, 0xca, 0xde, 0x99, 0xd8, 0xcc], rfl⟩

/-- The hashes of the chunks of the sample file, of the node above them and of the file. -/
def sampleHashes : Keyed := fun key data =>
  if key = zeroKey then sampleFile
  else if key = dataKey then (if data = [1, 2, 3] then sampleFirst else sampleSecond)
  else sampleRoot

def sampleWhole : ReconstructionResponseV1 where
  offsetIntoFirstRange := 0
  terms := [⟨formatHash sampleXorb, 5, ⟨0, 2⟩⟩, ⟨formatHash sampleXorb, 2, ⟨1, 2⟩⟩]
  fetchInfo := AList.insert (formatHash sampleXorb) [⟨⟨0, 2⟩, [120], ⟨0, 20⟩⟩, ⟨⟨1, 2⟩, [120], ⟨11, 20⟩⟩] ∅

theorem sample_verified :
    ∃ r, newReaderV1 sampleWhole (some sampleFile) = .ok r ∧
      (r.calls sampleHashes storedLz4 sampleClient [.read 4, .read 4]).1 =
        [⟨[1, 2, 3, 4], .more⟩] ++ ⟨[5, 4, 5], .clean⟩ :: [] ∧
      Verified sampleHashes sampleFile [1, 2, 3, 4, 5, 4, 5] := by
  have runs : (newReaderV1 sampleWhole (some sampleFile)).toOption.map (fun r : Reader Unit =>
      (r.calls sampleHashes storedLz4 sampleClient [.read 4, .read 4]).1) =
        some ([⟨[1, 2, 3, 4], .more⟩] ++ ⟨[5, 4, 5], .clean⟩ :: []) := by decide +kernel
  cases opened : (newReaderV1 sampleWhole (some sampleFile) : Except (ReaderError Unit) (Reader Unit)) with
  | error e =>
    rw [opened] at runs
    cases runs
  | ok r =>
    rw [opened] at runs
    have run := Option.some.inj runs
    exact ⟨r, rfl, run, (verified_download sampleHashes storedLz4 sampleClient sampleFile r (.inl ⟨_, opened⟩)
      _ _ _ _ run).1 rfl⟩

end Xet.Download
