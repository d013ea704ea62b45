import Xet.Download.Build
import Xet.Xorb.Decoder

/-! Reading a reconstruction response: which range is fetched for each term, what the fetched body
decodes to, and the reader that delivers the chunks of the terms. The readers of both versions
differ in how they look up a range only. -/
namespace Xet.Download
open Wire

structure FetchKey where
  hash : Bytes
  start : Int
  last : Int
  deriving DecidableEq

structure FetchTask where
  key : FetchKey
  url : URL
  chunks : ChunkRange
  deriving DecidableEq

structure SelectedFetch where
  key : FetchKey
  chunks : ChunkRange
  deriving DecidableEq

inductive PlanError where
  | noFetchInfo (hash : Bytes)
  | noMatchingFetchInfo (range : ChunkRange)
  | noMatchingRangeDescriptor (range : ChunkRange)
  | invalidRange (range : ChunkRange) (hash : Bytes)
  deriving DecidableEq

def better (term : Term) (best : Option FetchInfoEntry) (new : FetchInfoEntry) : Option FetchInfoEntry :=
  if new.range.start ≤ term.range.start ∧ term.range.stop ≤ new.range.stop then
    match best with
    | none => some new
    | some old =>
      if new.urlRange.last - new.urlRange.start < old.urlRange.last - old.urlRange.start then some new
      else some old
  else best

def selectFetchInfoV1 (r : ReconstructionResponseV1) (term : Term) : Except PlanError FetchInfoEntry :=
  match (r.fetchInfo.lookup term.hash).getD [] with
  | [] => .error (.noFetchInfo term.hash)
  | entries =>
    match entries.foldl (better term) none with
    | none => .error (.noMatchingFetchInfo term.range)
    | some entry => .ok entry

def selectFetchInfoV2 (r : ReconstructionResponseV2) (term : Term) : Except PlanError FetchInfoEntry :=
  match (r.xorbs.lookup term.hash).getD [] with
  | [] => .error (.noFetchInfo term.hash)
  | fetches =>
    let selected := fetches.foldl (fun best fetch => fetch.ranges.foldl (fun best rg =>
      better term best ⟨rg.chunks, fetch.url, rg.bytes⟩) best) none
    match selected with
    | none => .error (.noMatchingRangeDescriptor term.range)
    | some entry => .ok entry

def validChunkRange (r : ChunkRange) : Prop := r.start < r.stop ∧ r.stop ≤ maxChunksPerXorb

instance (r : ChunkRange) : Decidable (validChunkRange r) := inferInstanceAs (Decidable (_ ∧ _))

def checkFetchRange (term : Term) (chunks : ChunkRange) (span : ByteRange) : Except PlanError Unit :=
  require (term.range.start < term.range.stop ∧ validChunkRange chunks ∧ 0 ≤ span.start ∧
    span.start ≤ span.last) (.invalidRange term.range term.hash)

def planTerm (select : Term → Except PlanError FetchInfoEntry) (term : Term) :
    Except PlanError (SelectedFetch × FetchTask) := do
  let entry ← select term
  checkFetchRange term entry.range entry.urlRange
  let key : FetchKey := ⟨term.hash, entry.urlRange.start, entry.urlRange.last⟩
  return (⟨key, entry.range⟩, ⟨key, entry.url, entry.range⟩)

def planReader (select : Term → Except PlanError FetchInfoEntry) (terms : List Term) :
    Except PlanError (List SelectedFetch × List FetchTask) := do
  let planned ← terms.mapM (planTerm select)
  return (planned.map Prod.fst, planned.map Prod.snd)

def planReaderV1 (r : ReconstructionResponseV1) : Except PlanError (List SelectedFetch × List FetchTask) :=
  planReader (selectFetchInfoV1 r) r.terms

def planReaderV2 (r : ReconstructionResponseV2) : Except PlanError (List SelectedFetch × List FetchTask) :=
  planReader (selectFetchInfoV2 r) r.terms

inductive LoadError where
  | decode (e : Xorb.DecodeError)
  | extraChunk (decoded expected : Nat)
  deriving DecidableEq

inductive ReaderError (ε : Type) where
  | taskNotFound (key : FetchKey)
  | invalidCacheRange (hash : Bytes)
  | download (e : ε)
  | load (e : LoadError)
  | loadChunk (index : Nat) (e : LoadError)
  | outOfRange (index total : Nat)
  | fileClosed (index : Nat)
  | hashMismatch (expected got : FileHash)
  | cannotVerify (offset : Int)
  | plan (e : PlanError)
  deriving DecidableEq

/-- What the reader meets outside itself: the body that answers the range request of a fetch (a key
is fetched once, so two requests may differ), the sealed files of the local chunk cache, and for a body that fails
late whether its file is closed before chunk `i` of it is read. -/
structure Client (ε : Type) where
  download : FetchKey → URL → Except ε Bytes
  cached : Bytes → ChunkRange → Option (List Bytes)
  closes : FetchKey → Nat → Bool

structure CachedChunk where
  data : Bytes
  hash : Option ChunkHash
  deriving DecidableEq

inductive LoadOutcome where
  | complete
  | short
  | failed (e : LoadError)
  deriving DecidableEq

structure ChunkCache where
  chunks : List CachedChunk
  outcome : LoadOutcome
  deriving DecidableEq

section
variable (blake3 : Keyed) (lz4 : Xorb.Lz4)

/-- Decode a body chunk by chunk: `stored` chunks are there, `left` are still expected. Behind the
last one the body has to end. -/
def loadChunks (stored : Nat) : Nat → Xorb.Decoder → List CachedChunk × LoadOutcome
  | 0, d =>
    match (d.read blake3 lz4 Xorb.chunkBufSize).1 with
    | .eof => ([], .complete)
    | .data _ => ([], .failed (.extraChunk (stored + 1) stored))
    | .failed e => ([], .failed (.decode e))
  | left + 1, d =>
    match d.read blake3 lz4 Xorb.chunkBufSize with
    | (.eof, _) => ([], .short)
    | (.failed e, _) => ([], .failed (.decode e))
    | (.data b, d) =>
      let hash := if d.chunks.length = stored + 1 then d.chunks[stored]?.map Prod.fst else none
      let (rest, outcome) := loadChunks (stored + 1) left d
      (⟨b, hash⟩ :: rest, outcome)

def minCacheHashLen : Nat := 5

variable {ε : Type} (client : Client ε)

/-- What a fetch task publishes. Its consumers wait for the first chunk, so an error up to there
is the result. -/
def runJob (task : FetchTask) : Except (ReaderError ε) ChunkCache :=
  match client.cached task.key.hash task.chunks with
  | some datas => .ok ⟨datas.map (⟨·, none⟩), .complete⟩
  | none => do
    require (minCacheHashLen ≤ task.key.hash.length ∧ validChunkRange task.chunks ∧ 0 ≤ task.key.start ∧
      task.key.start ≤ task.key.last) (.invalidCacheRange task.key.hash)
    let body ← (client.download task.key task.url).mapError .download
    let expected := task.chunks.stop - task.chunks.start
    let (chunks, outcome) := loadChunks blake3 lz4 0 expected (Xorb.Decoder.new body false)
    match outcome with
    | .failed e => if chunks = [] ∨ expected = 1 then .error (.load e) else .ok ⟨chunks, outcome⟩
    | _ => .ok ⟨chunks, outcome⟩

/-- The first task of a key is the one that runs. -/
def prefetched (tasks : List FetchTask) (key : FetchKey) : Except (ReaderError ε) ChunkCache :=
  match tasks.find? (·.key = key) with
  | none => .error (.taskNotFound key)
  | some task => runJob blake3 lz4 client task

def readChunk (key : FetchKey) (cache : ChunkCache) (i : Nat) : Except (ReaderError ε) CachedChunk :=
  match cache.chunks[i]? with
  | some chunk =>
    if cache.outcome ≠ .complete ∧ client.closes key i then .error (.fileClosed i) else .ok chunk
  | none =>
    match cache.outcome with
    | .failed e => .error (.loadChunk i e)
    | _ => .error (.outOfRange i cache.chunks.length)

end

structure FileVerifier where
  expected : FileHash
  chunks : List ChunkMeta
  deriving DecidableEq

inductive Stop (ε : Type) where
  | eof
  | failed (e : ReaderError ε)
  deriving DecidableEq

/-- The state between two calls. `pending` are the terms from number `termIdx` on, each with the
fetch that was selected for it. -/
structure Reader (ε : Type) where
  pending : List (Term × SelectedFetch)
  tasks : List FetchTask
  verifier : Option FileVerifier
  skipBytes : Int
  termIdx : Nat
  chunkIdx : Nat
  /-- The bytes of the last chunk that were not delivered yet. -/
  chunk : Bytes
  /-- The key and the cache of the loaded term, and where its chunks end in the cache. -/
  current : Option (FetchKey × ChunkCache × Nat)
  err : Option (ReaderError ε)

structure ReadResult (ε : Type) where
  data : Bytes
  err : Option (Stop ε)
  deriving DecidableEq

namespace Reader
variable (blake3 : Keyed) (lz4 : Xorb.Lz4) {ε : Type} (client : Client ε)

def cleanup (r : Reader ε) : Reader ε := { r with chunk := [], current := none }

def fail (r : Reader ε) (e : ReaderError ε) : Reader ε := { r with err := some e }.cleanup

def loadTerm (r : Reader ε) (term : Term) (selected : SelectedFetch) :
    Except (ReaderError ε) ((FetchKey × ChunkCache × Nat) × Reader ε) :=
  match r.current with
  | some current => .ok (current, r)
  | none => do
    let cache ← prefetched blake3 lz4 client r.tasks selected.key
    let current := (selected.key, cache, term.range.stop - selected.chunks.start)
    return (current, { r with current := some current, chunkIdx := term.range.start - selected.chunks.start })

/-- A chunk was read: what the offset into the first term leaves of it is to be delivered. -/
def accept (r : Reader ε) (c : CachedChunk) : Reader ε :=
  let skip := if r.termIdx = 0 ∧ 0 < r.skipBytes then min r.skipBytes c.data.length else 0
  { r with
    chunkIdx := r.chunkIdx + 1
    verifier := r.verifier.map fun v =>
      { v with chunks := v.chunks ++ [(c.hash.getD (computeChunkHash blake3 c.data), UInt64.ofNat c.data.length)] }
    skipBytes := r.skipBytes - skip
    chunk := c.data.drop skip.toNat }

/-- The chunks left of the loaded term, up to one that has bytes to deliver. -/
def fillChunks (key : FetchKey) (cache : ChunkCache) : Nat → Reader ε → Option (Option (Stop ε)) × Reader ε
  | 0, r => (none, { r with current := none, termIdx := r.termIdx + 1, pending := r.pending.tail })
  | left + 1, r =>
    match readChunk client key cache r.chunkIdx with
    | .error e => (some (some (.failed e)), r.fail e)
    | .ok c =>
      let r := r.accept blake3 c
      if r.chunk = [] then fillChunks key cache left r else (some none, r)

def finish (r : Reader ε) : Option (Stop ε) × Reader ε :=
  match r.verifier with
  | none => (some .eof, r.cleanup)
  | some v =>
    let got := computeFileHashOf blake3 v.chunks
    if got = v.expected then (some .eof, r.cleanup)
    else (some (.failed (.hashMismatch v.expected got)), r.fail (.hashMismatch v.expected got))

def fillTerms : List (Term × SelectedFetch) → Reader ε → Option (Stop ε) × Reader ε
  | [], r => r.finish blake3
  | (term, selected) :: rest, r =>
    match r.loadTerm blake3 lz4 client term selected with
    | .error e => (some (.failed e), r.fail e)
    | .ok ((key, cache, stop), r) =>
      match r.fillChunks blake3 client key cache (stop - r.chunkIdx) with
      | (some outcome, r) => (outcome, r)
      | (none, r) => fillTerms rest r

def fill (r : Reader ε) : Option (Stop ε) × Reader ε :=
  if r.chunk = [] then r.fillTerms blake3 lz4 client r.pending else (none, r)

def readLoop : Nat → Nat → Reader ε → ReadResult ε × Reader ε
  | 0, _, r => (⟨[], none⟩, r)
  | fuel + 1, want, r =>
    if want = 0 then (⟨[], none⟩, r)
    else
      match r.fill blake3 lz4 client with
      | (some stop, r) => (⟨[], some stop⟩, r)
      | (none, r) =>
        let copied := r.chunk.take want
        let (more, r) := readLoop fuel (want - copied.length) { r with chunk := r.chunk.drop want }
        (⟨copied ++ more.data, more.err⟩, r)

/-- One call with a buffer of `len` bytes. An error behind some bytes is reported by the next call. -/
def read (len : Nat) (r : Reader ε) : ReadResult ε × Reader ε :=
  match r.err with
  | some e => (⟨[], some (.failed e)⟩, r)
  | none =>
    let (result, r) := r.readLoop blake3 lz4 client len len
    match result.err with
    | some (.failed _) => if result.data = [] then (result, r) else (⟨result.data, none⟩, r)
    | _ => (result, r)

def reads : List Nat → Reader ε → List (ReadResult ε) × Reader ε
  | [], r => ([], r)
  | len :: rest, r =>
    let (first, r) := r.read blake3 lz4 client len
    let (others, r) := reads rest r
    (first :: others, r)

end Reader

section
variable {ε : Type}

def newFileVerifier (expectedHash : Option FileHash) (offset : Int) :
    Except (ReaderError ε) (Option FileVerifier) :=
  match expectedHash with
  | none => .ok none
  | some hash => do
    require (offset = 0) (.cannotVerify offset)
    return some ⟨hash, []⟩

def newReader (plan : Except PlanError (List SelectedFetch × List FetchTask)) (offset : Int)
    (terms : List Term) (expectedHash : Option FileHash) : Except (ReaderError ε) (Reader ε) := do
  let verifier ← newFileVerifier expectedHash offset
  let (termFetches, tasks) ← plan.mapError .plan
  return {
    pending := terms.zip termFetches
    tasks := tasks
    verifier := verifier
    skipBytes := offset
    termIdx := 0
    chunkIdx := 0
    chunk := []
    current := none
    err := none }

def newReaderV1 (r : ReconstructionResponseV1) (expectedHash : Option FileHash) :
    Except (ReaderError ε) (Reader ε) :=
  newReader (planReaderV1 r) r.offsetIntoFirstRange r.terms expectedHash

def newReaderV2 (r : ReconstructionResponseV2) (expectedHash : Option FileHash) :
    Except (ReaderError ε) (Reader ε) :=
  newReader (planReaderV2 r) r.offsetIntoFirstRange r.terms expectedHash

end

section
variable {blake3 : Keyed} {lz4 : Xorb.Lz4} {ε : Type} {client : Client ε}

theorem readChunk_eq_ok {key : FetchKey} {cache : ChunkCache} {i : Nat} {c : CachedChunk}
    (read : readChunk client key cache i = .ok c) : cache.chunks[i]? = some c := by
  rw [readChunk] at read
  split at read
  · rename_i found
    split at read
    · cases read
    · cases read
      exact found
  · split at read <;> cases read

/-- What leads a fill to its outcome: `At` holds before the terms that are left, `In` in a loaded term with so many
chunks to read. -/
structure FillRule (blake3 : Keyed) (lz4 : Xorb.Lz4) (client : Client ε)
    (At : List (Term × SelectedFetch) → Reader ε → Prop)
    (In : List (Term × SelectedFetch) → FetchKey → ChunkCache → Nat → Reader ε → Prop)
    (Out : Option (Stop ε) × Reader ε → Prop) : Prop where
  finish : ∀ {r}, At [] r → Out (r.finish blake3)
  load : ∀ {p ps r key cache stop r'}, At (p :: ps) r →
    r.loadTerm blake3 lz4 client p.1 p.2 = .ok ((key, cache, stop), r') → In ps key cache (stop - r'.chunkIdx) r'
  loadFailed : ∀ {p ps r e}, At (p :: ps) r → r.loadTerm blake3 lz4 client p.1 p.2 = .error e →
    Out (some (.failed e), r.fail e)
  read : ∀ {ps key cache left r c}, In ps key cache (left + 1) r → readChunk client key cache r.chunkIdx = .ok c →
    if (r.accept blake3 c).chunk = [] then In ps key cache left (r.accept blake3 c) else Out (none, r.accept blake3 c)
  readFailed : ∀ {ps key cache left r e}, In ps key cache (left + 1) r →
    readChunk client key cache r.chunkIdx = .error e → Out (some (.failed e), r.fail e)
  leave : ∀ {ps key cache r}, In ps key cache 0 r →
    At ps { r with current := none, termIdx := r.termIdx + 1, pending := r.pending.tail }

variable {At : List (Term × SelectedFetch) → Reader ε → Prop}
  {In : List (Term × SelectedFetch) → FetchKey → ChunkCache → Nat → Reader ε → Prop}
  {Out : Option (Stop ε) × Reader ε → Prop}

theorem FillRule.fillChunks (rule : FillRule blake3 lz4 client At In Out) {ps : List (Term × SelectedFetch)}
    {key : FetchKey} {cache : ChunkCache} (left : Nat) {r : Reader ε} (inside : In ps key cache left r) :
    match r.fillChunks blake3 client key cache left with
    | (none, r') => At ps r'
    | (some outcome, r') => Out (outcome, r') := by
  induction left generalizing r with
  | zero => exact rule.leave inside
  | succ left ih =>
    rw [Reader.fillChunks]
    cases chunkRead : readChunk client key cache r.chunkIdx with
    | error e => exact rule.readFailed inside chunkRead
    | ok c =>
      have next := rule.read inside chunkRead
      dsimp only
      by_cases more : (r.accept blake3 c).chunk = []
      · rw [if_pos more] at next ⊢
        exact ih next
      · rw [if_neg more] at next ⊢
        exact next

theorem FillRule.fillTerms (rule : FillRule blake3 lz4 client At In Out) (ps : List (Term × SelectedFetch))
    {r : Reader ε} (start : At ps r) : Out (r.fillTerms blake3 lz4 client ps) := by
  induction ps generalizing r with
  | nil => exact rule.finish start
  | cons p ps ih =>
    obtain ⟨term, selected⟩ := p
    rw [Reader.fillTerms]
    cases load : r.loadTerm blake3 lz4 client term selected with
    | error e => exact rule.loadFailed start load
    | ok out =>
      obtain ⟨⟨key, cache, stop⟩, r'⟩ := out
      have turn := rule.fillChunks _ (rule.load start load)
      dsimp only
      rcases run : r'.fillChunks blake3 client key cache (stop - r'.chunkIdx) with ⟨_ | outcome, s⟩
      · rw [run] at turn
        exact ih turn
      · rw [run] at turn
        exact turn

theorem FillRule.fill (rule : FillRule blake3 lz4 client At In Out) {r : Reader ε}
    (drained : r.chunk = [] → At r.pending r) (ready : r.chunk ≠ [] → Out (none, r)) :
    Out (r.fill blake3 lz4 client) := by
  rw [Reader.fill]
  split
  · rename_i empty
    exact rule.fillTerms r.pending (drained empty)
  · rename_i some
    exact ready some

end

end Xet.Download
