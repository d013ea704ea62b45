import Xet.Download.CacheManager

/-! Chunks that are served from the cache. The entries in the directory of an xorb may overlap and
some may be unfinished; a reader puts a range together from those that are sealed. -/
namespace Xet.Download
open Wire File List CacheManager Nat Cover

structure Candidate where
  file : CachedFile
  range : ChunkRange

def dot : UInt8 := 46

/-- A file whose name is that of an entry with some chunks of the request. -/
def asCandidate (start stop : Nat) (f : CachedFile) : Option Candidate :=
  if f.path.name.head? = some dot then none
  else
    match f.ranges with
    | none => none
    | some (r, _) => if r.stop ≤ start ∨ stop ≤ r.start then none else some ⟨f, r⟩

def candidates (files : List CachedFile) (hash : Bytes) (start stop : Nat) : List Candidate :=
  (files.filter (·.path.hash = hash)).filterMap (asCandidate start stop)

structure Segment where
  path : Path
  file : Bytes
  metas : List ChunkRef
  deriving DecidableEq

/-- An entry that must be removed, and whether its checksum was right. -/
structure Corrupt where
  path : Path
  checked : Bool
  deriving DecidableEq

/-- The checksum of an entry is looked at when it is opened for the first time. -/
def checkEntry (verified : List Path) (c : Candidate) (layout : CacheFileLayout) : Except Corrupt Unit :=
  if c.file.path ∈ verified then .ok ()
  else (verifyCacheFileCRC c.file.content layout).mapError fun _ => ⟨c.file.path, false⟩

def openSegment (verified : List Path) (c : Candidate) (needStart needEnd : Nat) : Except Corrupt (Option Segment) :=
  match readCacheFileLayout c.file.content c.range c.file.content.length with
  | .error _ => .ok none
  | .ok layout => do
    checkEntry verified c layout
    let metas ← (readCacheFileMetas c.file.content layout c.range.start needStart needEnd).mapError fun _ =>
      ⟨c.file.path, true⟩
    return some ⟨c.file.path, c.file.content, metas⟩

/-- The cache that a reader gets: the place of every chunk, with the number of its file. -/
structure OpenedRange where
  metas : List (ChunkRef × Nat)
  files : List Bytes
  refPaths : List Path

/-- The places of the chunks of all segments, whose files are numbered from `n` on. -/
def allMetas : List Segment → Nat → List (ChunkRef × Nat)
  | [], _ => []
  | seg :: rest, n => seg.metas.map (·, n) ++ allMetas rest (n + 1)

abbrev ByStart := Cover.Sorter fun c d : Candidate => c.range.start ≤ d.range.start

def Cache.acquire (s : Cache) (seg : Segment) : Cache :=
  { s with manager := (s.manager.markVerified seg.path).acquire seg.path seg.file.length }

def Cache.release (s : Cache) (path : Path) : Cache := { s with manager := s.manager.release path }

/-- The entries are in use until the range is closed. For a request that is not empty. -/
def openCachedRange (byStart : ByStart) (s : Cache) (hash : Bytes) (start stop : Nat) : Option OpenedRange × Cache :=
  if hash.length < minCacheHashLen then (none, s)
  else
    let found := candidates s.files hash start stop
    if found.isEmpty then (none, s)
    else
      let (segments, covered) := Cover.scan (fun c : Candidate => c.range.start) (fun c => c.range.stop)
        (openSegment s.manager.verified) stop (byStart.sort found) start
      let opened := segments.foldl Cache.acquire s
      let acquired := segments.map Segment.path
      match covered with
      | .error corrupt =>
        let closed := acquired.foldl Cache.release opened
        let m := if corrupt.checked then closed.manager.markVerified corrupt.path else closed.manager
        (none, ⟨(removeCacheEntry closed.files corrupt.path).2, m⟩)
      | .ok covered =>
        if covered < stop then (none, acquired.foldl Cache.release opened)
        else
          let noted :=
            if 1 < segments.length then { opened with manager := opened.manager.noteMergeCandidate hash } else opened
          (some ⟨allMetas segments 0, segments.map Segment.file, acquired⟩, noted)

inductive ChunkError where
  | outOfRange (idx total : Nat)
  | closed (idx : Nat)
  | bufferTooSmall (need : Nat)
  | read
  deriving DecidableEq

def OpenedRange.readChunk (c : OpenedRange) (idx len : Nat) : Except ChunkError Bytes := do
  match c.metas[idx]? with
  | none => throw (.outOfRange idx c.metas.length)
  | some (ref, fileIdx) =>
    match c.files[fileIdx]? with
    | none => throw (.closed idx)
    | some f =>
      require (ref.size ≤ len) (.bufferTooSmall ref.size)
      match readAt f ref.offset ref.size with
      | none => throw .read
      | some b => return b

def chunksIn (xorb : Nat → Bytes) (r : ChunkRange) : List Bytes := (List.range' r.start (r.stop - r.start)).map xorb

structure SealedEntry (xorb : Nat → Bytes) (r : ChunkRange) (f : CachedFile) : Prop where
  file : f.isDir = false
  valid : validChunkRange r
  name : ∃ b : ByteRange, 0 ≤ b.start ∧ b.start ≤ b.last ∧ b.last < 2 ^ 63 ∧ f.path.name = cacheFileName r b
  content : f.content = sealedFile (chunksIn xorb r)
  fits : ∀ c ∈ chunksIn xorb r, c.length ≤ Xorb.chunkBufSize

inductive EntryKind (xorb : Nat → Bytes) (f : CachedFile) : Prop
  | complete (r : ChunkRange) (entry : SealedEntry xorb r f)
  | incomplete (r : ChunkRange) (b : ByteRange) (named : f.ranges = some (r, b)) (rejected : ¬ Accepted r f.content)
  | foreign (unnamed : f.ranges = none ∨ f.path.name.head? = some dot)

section
variable {xorb : Nat → Bytes} {r : ChunkRange} {f : CachedFile}

theorem chunksIn_length (xorb : Nat → Bytes) (r : ChunkRange) : (chunksIn xorb r).length = r.stop - r.start := by
  rw [chunksIn, length_map, length_range']

theorem chunksIn_getD {j : Nat} (bound : j < r.stop - r.start) : (chunksIn xorb r).getD j [] = xorb (r.start + j) := by
  rw [getD_eq_getElem _ _ (by rwa [chunksIn_length])]
  simp [chunksIn]

theorem head_cacheFileName (r : ChunkRange) (b : ByteRange) : (cacheFileName r b).head? ≠ some dot := by
  intro first
  have digits := decimal_digits (n := r.start)
  rw [cacheFileName] at first
  cases shape : decimal r.start with
  | nil =>
    rw [shape] at first
    cases first
  | cons c rest =>
    rw [shape] at first
    cases first
    exact absurd (digits dot (shape ▸ mem_cons_self)) (by decide)

theorem SealedEntry.ranges (entry : SealedEntry xorb r f) : ∃ b, f.ranges = some (r, b) := by
  obtain ⟨b, first, order, last, name⟩ := entry.name
  have most := entry.valid.2
  rw [maxChunksPerXorb] at most
  refine ⟨b, ?_⟩
  rw [CachedFile.ranges, entry.file, name]
  exact parse_cacheFileName entry.valid.1.le (by omega) first order last

theorem SealedEntry.small (entry : SealedEntry xorb r f) : (chunksIn xorb r).flatten.length < 2 ^ 32 :=
  flatten_length_lt rfl entry.valid (chunksIn_length xorb r).le entry.fits

theorem SealedEntry.layout (entry : SealedEntry xorb r f) :
    readCacheFileLayout f.content r f.content.length = .ok (sealedLayout (chunksIn xorb r)) := by
  rw [entry.content]
  exact sealedFile_layout (chunksIn_length xorb r).symm entry.valid entry.small

structure HasChunks (xorb : Nat → Bytes) (seg : Segment) (a b : Nat) : Prop where
  count : seg.metas.length = b - a
  chunk : ∀ i ref, seg.metas[i]? = some ref →
    ref.size = (xorb (a + i)).length ∧ readAt seg.file ref.offset ref.size = some (xorb (a + i))

variable {c : Candidate}

theorem openSegment_sealed (entry : SealedEntry xorb c.range c.file) (verified : List Path) {a b : Nat}
    (first : c.range.start ≤ a) (order : a < b) (last : b ≤ c.range.stop) :
    openSegment verified c a b = .ok (some ⟨c.file.path, c.file.content,
      (List.range (b - a)).map fun i => sealedRef (chunksIn xorb c.range) (a - c.range.start + i)⟩) := by
  have size := chunksIn_length xorb c.range
  have metas := metas_sealedFile entry.small first order.le (by omega)
  have checked : checkEntry verified c (sealedLayout (chunksIn xorb c.range)) = .ok () := by
    rw [checkEntry, entry.content, verify_sealedFile]
    split <;> rfl
  rw [openSegment, entry.layout]
  dsimp only
  rw [checked, entry.content, metas]
  rfl

theorem hasChunks_sealed (entry : SealedEntry xorb r f) {a b : Nat} (first : r.start ≤ a) (last : b ≤ r.stop) :
    HasChunks xorb ⟨f.path, f.content, (List.range (b - a)).map fun i => sealedRef (chunksIn xorb r) (a - r.start + i)⟩
      a b where
  count := by rw [length_map, length_range]
  chunk i ref place := by
    obtain ⟨inside, rfl⟩ := List.getElem?_eq_some_iff.mp place
    rw [length_map, length_range] at inside
    have bound : a - r.start + i < r.stop - r.start := by omega
    have same : r.start + (a - r.start + i) = a + i := by omega
    have whole := read_sealedRef (j := a - r.start + i) (by rwa [chunksIn_length xorb r])
    rw [getElem_map, getElem_range, entry.content, whole, sealedRef, chunksIn_getD bound, same]
    exact ⟨rfl, rfl⟩

theorem openSegment_rejected (rejected : ¬ Accepted c.range c.file.content) (verified : List Path) (a b : Nat) :
    openSegment verified c a b = .ok none := by
  rw [openSegment]
  cases layout : readCacheFileLayout c.file.content c.range c.file.content.length with
  | error e => rfl
  | ok l => exact absurd (by rw [Accepted, layout]; rfl) rejected

/-- A directory has only entries of the xorb, leftovers and foreign files. -/
def Directory (xorb : Nat → Bytes) (hash : Bytes) (files : List CachedFile) : Prop :=
  ∀ f ∈ files, f.path.hash = hash → EntryKind xorb f

def Stored (xorb : Nat → Bytes) (hash : Bytes) (files : List CachedFile) (k : Nat) : Prop :=
  ∃ f ∈ files, f.path.hash = hash ∧ ∃ r, SealedEntry xorb r f ∧ r.start ≤ k ∧ k < r.stop

variable {hash : Bytes} {files : List CachedFile} {start stop : Nat}

theorem asCandidate_eq_some {f : CachedFile} : asCandidate start stop f = some c ↔
    c.file = f ∧ f.path.name.head? ≠ some dot ∧ (∃ b, f.ranges = some (c.range, b)) ∧ start < c.range.stop ∧
      c.range.start < stop := by
  rw [asCandidate]
  by_cases hidden : f.path.name.head? = some dot
  · simp [hidden]
  rw [if_neg hidden]
  cases named : f.ranges with
  | none => simp
  | some p =>
    obtain ⟨r, b⟩ := p
    dsimp only
    constructor
    · intro found
      split at found
      · cases found
      · cases found
        exact ⟨rfl, hidden, ⟨b, rfl⟩, by dsimp only; omega, by dsimp only; omega⟩
    · rintro ⟨rfl, -, ⟨b, same⟩, last, first⟩
      cases same
      rw [if_neg (by omega)]

theorem mem_candidates : c ∈ candidates files hash start stop ↔
    c.file ∈ files ∧ c.file.path.hash = hash ∧ c.file.path.name.head? ≠ some dot ∧
      (∃ b, c.file.ranges = some (c.range, b)) ∧ start < c.range.stop ∧ c.range.start < stop := by
  simp only [candidates, mem_filterMap, mem_filter, decide_eq_true_eq, asCandidate_eq_some]
  constructor
  · rintro ⟨f, ⟨member, same⟩, rfl, rest⟩
    exact ⟨member, same, rest⟩
  · rintro ⟨member, same, rest⟩
    exact ⟨c.file, ⟨member, same⟩, rfl, rest⟩

theorem candidates_tries (dir : Directory xorb hash files) (verified : List Path)
    (member : c ∈ candidates files hash start stop) :
    Cover.Tries (fun c : Candidate => c.range.start) (·.range.stop) (openSegment verified)
      (fun c => SealedEntry xorb c.range c.file) (HasChunks xorb) c := by
  obtain ⟨here, same, visible, ⟨b, named⟩, -⟩ := mem_candidates.mp member
  constructor
  · intro entry a b first order last
    exact ⟨_, openSegment_sealed entry verified first order last, hasChunks_sealed entry first last⟩
  · intro unsealed a b' first order last
    apply openSegment_rejected
    cases dir c.file here same with
    | complete r entry =>
      obtain ⟨b, parsed⟩ := entry.ranges
      cases parsed.symm.trans named
      exact absurd entry unsealed
    | incomplete r b parsed rejected =>
      cases parsed.symm.trans named
      exact rejected
    | foreign unnamed =>
      rcases unnamed with unnamed | hidden
      · cases unnamed.symm.trans named
      · exact absurd hidden visible

theorem covered_iff_stored (byStart : ByStart) {k : Nat} (low : start ≤ k) (high : k < stop) :
    Cover.Covered (fun c : Candidate => c.range.start) (·.range.stop)
      (fun c => SealedEntry xorb c.range c.file) (byStart.sort (candidates files hash start stop)) k ↔
      Stored xorb hash files k := by
  constructor
  · rintro ⟨c, member, entry, first, last⟩
    obtain ⟨here, same, -⟩ := mem_candidates.mp (byStart.mem_iff.mp member)
    exact ⟨c.file, here, same, c.range, entry, first, last⟩
  · rintro ⟨f, here, same, r, entry, first, last⟩
    obtain ⟨b, -, -, -, name⟩ := entry.name
    have visible : f.path.name.head? ≠ some dot := name ▸ head_cacheFileName r b
    have member : (⟨f, r⟩ : Candidate) ∈ candidates files hash start stop :=
      mem_candidates.mpr ⟨here, same, visible, entry.ranges, by dsimp only; omega, by dsimp only; omega⟩
    exact ⟨⟨f, r⟩, byStart.mem_iff.mpr member, entry, first, last⟩

theorem scan_candidates (dir : Directory xorb hash files) (byStart : ByStart) (verified : List Path)
    (order : start < stop) :
    ∃ segments last, scan (fun c : Candidate => c.range.start) (·.range.stop) (openSegment verified) stop
        (byStart.sort (candidates files hash start stop)) start = (segments, .ok last) ∧
      Cover.Chain (HasChunks xorb) start last segments ∧ last ≤ stop ∧
      (stop ≤ last ↔ ∀ k, start ≤ k → k < stop → Stored xorb hash files k) := by
  obtain ⟨segments, last, run, chain, bound, exactly⟩ := scan_spec stop _ (byStart.sorted _)
    (fun c member => candidates_tries dir verified (byStart.mem_iff.mp member)) start
  refine ⟨segments, last, run, chain, by omega, exactly.trans (forall₃_congr fun k low high => ?_)⟩
  exact covered_iff_stored byStart low high

/-- The chunks of the xorb from `start` to `stop`, with their lengths. -/
structure HoldsRange (xorb : Nat → Bytes) (start stop : Nat) (c : OpenedRange) : Prop where
  count : c.metas.length = stop - start
  size : ∀ k ref i, c.metas[k]? = some (ref, i) → ref.size = (xorb (start + k)).length
  chunk : ∀ k < stop - start, ∀ len, (xorb (start + k)).length ≤ len →
    c.readChunk k len = .ok (xorb (start + k))

variable {segments : List Segment}

section
variable {a b : Nat} (chain : Cover.Chain (HasChunks xorb) a b segments)
include chain

theorem Chain.le : a ≤ b := by
  induction chain with
  | nil a => exact le_rfl
  | cons order first rest ih => exact order.le.trans ih

theorem allMetas_length (n : Nat) : (allMetas segments n).length = b - a := by
  induction chain generalizing n with
  | nil a => rw [Nat.sub_self]; rfl
  | cons order first rest ih =>
    have := Chain.le rest
    rw [allMetas, length_append, length_map, first.count, ih]
    omega

theorem allMetas_get (n : Nat) {k i : Nat} {ref : ChunkRef} (place : (allMetas segments n)[k]? = some (ref, i)) :
    ref.size = (xorb (a + k)).length ∧ ∃ seg, n ≤ i ∧ segments[i - n]? = some seg ∧
      readAt seg.file ref.offset ref.size = some (xorb (a + k)) := by
  induction chain generalizing n k with
  | nil a => cases place
  | @cons seg a m c rest order first chain ih =>
    have count : (seg.metas.map (·, n)).length = m - a := (length_map _).trans first.count
    rw [allMetas] at place
    by_cases inside : k < m - a
    · rw [getElem?_append_left (count.symm ▸ inside), getElem?_map, Option.map_eq_some_iff] at place
      obtain ⟨ref, here, same⟩ := place
      cases same
      obtain ⟨size, read⟩ := first.chunk k _ here
      exact ⟨size, seg, le_rfl, by rw [Nat.sub_self]; rfl, read⟩
    · rw [getElem?_append_right (by omega), count] at place
      obtain ⟨size, found, later, here, read⟩ := ih (n + 1) place
      have same : m + (k - (m - a)) = a + k := by omega
      rw [same] at size read
      have next : i - n = (i - (n + 1)) + 1 := by omega
      exact ⟨size, found, by omega, by rw [next, getElem?_cons_succ, here], read⟩

end

theorem holds_of_chain (chain : Cover.Chain (HasChunks xorb) start stop segments) (acquired : List Path) :
    HoldsRange xorb start stop ⟨allMetas segments 0, segments.map Segment.file, acquired⟩ where
  count := allMetas_length chain 0
  size k ref i place := (allMetas_get chain 0 place).1
  chunk k bound len room := by
    obtain ⟨⟨ref, i⟩, place⟩ : ∃ p, (allMetas segments 0)[k]? = some p :=
      ⟨_, getElem?_eq_getElem (by rwa [allMetas_length chain 0])⟩
    obtain ⟨size, seg, -, here, read⟩ := allMetas_get chain 0 place
    rw [Nat.sub_zero] at here
    simp only [OpenedRange.readChunk, place, getElem?_map, here, Option.map_some]
    rw [require_true (size ▸ room), ok_bind, read]
    rfl

theorem openCachedRange_eq {s : Cache} {byStart : ByStart} {last : Nat} (long : minCacheHashLen ≤ hash.length)
    (order : start < stop)
    (run : scan (fun c : Candidate => c.range.start) (·.range.stop) (openSegment s.manager.verified) stop
      (byStart.sort (candidates s.files hash start stop)) start = (segments, .ok last)) :
    openCachedRange byStart s hash start stop =
      if last < stop then (none, (segments.map Segment.path).foldl Cache.release (segments.foldl Cache.acquire s))
      else (some ⟨allMetas segments 0, segments.map Segment.file, segments.map Segment.path⟩,
        if 1 < segments.length then
          { segments.foldl Cache.acquire s with
            manager := (segments.foldl Cache.acquire s).manager.noteMergeCandidate hash }
        else segments.foldl Cache.acquire s) := by
  rw [openCachedRange, if_neg (not_lt.mpr long)]
  cases found : candidates s.files hash start stop with
  | nil =>
    rw [found, (byStart.perm []).eq_nil] at run
    cases run
    rw [if_pos order]
    rfl
  | cons c rest =>
    rw [found] at run
    dsimp only [isEmpty_cons]
    rw [run, if_neg Bool.false_ne_true]

theorem release_all (paths : List Path) (s : Cache) :
    (paths.foldl Cache.release s).files = s.files ∧
    ∀ {hash n}, s.manager.Uses hash n →
      (paths.foldl Cache.release s).manager.Uses hash fun q => n q - paths.count q := by
  induction paths generalizing s with
  | nil => exact ⟨rfl, fun uses => uses⟩
  | cons path rest ih =>
    obtain ⟨files, later⟩ := ih (s.release path)
    refine ⟨files, fun {hash n} uses p member same => ?_⟩
    have one : (s.release path).manager.Uses hash fun q => n q - if q = path then 1 else 0 :=
      CacheManager.Uses.release (m := s.manager) uses path
    refine (later one p member same).trans ?_
    simp only [count_cons, beq_iff_eq, eq_comm (a := path)]
    omega

theorem openCachedRange_cases {s : Cache} (long : minCacheHashLen ≤ hash.length)
    (dir : Directory xorb hash s.files) (byStart : ByStart) (order : start < stop) :
    ((∀ k, start ≤ k → k < stop → Stored xorb hash s.files k) ∧
      ∃ c, (openCachedRange byStart s hash start stop).1 = some c ∧ HoldsRange xorb start stop c) ∨
    (¬ (∀ k, start ≤ k → k < stop → Stored xorb hash s.files k) ∧
      (openCachedRange byStart s hash start stop).1 = none) := by
  obtain ⟨segments, last, run, chain, bound, exactly⟩ := scan_candidates dir byStart s.manager.verified order
  rw [openCachedRange_eq long order run]
  by_cases reached : last < stop
  · rw [if_pos reached]
    exact .inr ⟨fun stored => absurd (exactly.mpr stored) (not_le.mpr reached), rfl⟩
  · obtain rfl : last = stop := le_antisymm bound (not_lt.mp reached)
    rw [if_neg reached]
    exact .inl ⟨exactly.mp le_rfl, _, rfl, holds_of_chain chain _⟩

/-- A range is served if and only if the sealed entries have all its chunks, and then with exactly
these chunks, whatever else is in the directory. -/
theorem cached_range_exact (xorb : Nat → Bytes) (hash : Bytes) (long : minCacheHashLen ≤ hash.length) (s : Cache)
    (dir : Directory xorb hash s.files) (byStart : ByStart) (start stop : Nat) (order : start < stop) :
    ((openCachedRange byStart s hash start stop).1.isSome = true ↔
      ∀ k, start ≤ k → k < stop → Stored xorb hash s.files k) ∧
    ∀ c, (openCachedRange byStart s hash start stop).1 = some c → HoldsRange xorb start stop c := by
  rcases openCachedRange_cases long dir byStart order with ⟨stored, c, found, holds⟩ | ⟨missing, absent⟩
  · rw [found]
    exact ⟨iff_of_true rfl stored, fun c' same => Option.some.inj same ▸ holds⟩
  · rw [absent]
    exact ⟨iff_of_false Bool.false_ne_true missing, fun c' same => nomatch same⟩

end

def sampleHash : Bytes := [97, 97, 97, 97, 97]

def sampleChunk (k : Nat) : Bytes := List.replicate (k + 1) (UInt8.ofNat k)

def sampleSealed (r : ChunkRange) : CachedFile :=
  ⟨⟨sampleHash, cacheFileName r ⟨0, 100⟩⟩, false, sealedFile (chunksIn sampleChunk r), false, 0⟩

def emptyManager (capacity : Int) : CacheManager := ⟨capacity, [], 0, none, none, [], [], 0⟩

/-- Two entries that overlap, one of them twice, with a leftover and a foreign file. -/
def sampleCache : Cache :=
  ⟨[sampleSealed ⟨1, 3⟩, ⟨⟨sampleHash, cacheFileName ⟨2, 5⟩ ⟨0, 100⟩⟩, false, [], false, 0⟩, sampleSealed ⟨0, 2⟩,
    ⟨⟨sampleHash, [120]⟩, false, [1, 2, 3], false, 0⟩, sampleSealed ⟨0, 2⟩], emptyManager 0⟩

theorem sampleSealed_entry {r : ChunkRange} (valid : validChunkRange r) (few : r.stop ≤ 10) :
    SealedEntry sampleChunk r (sampleSealed r) where
  file := rfl
  valid := valid
  name := ⟨⟨0, 100⟩, by decide, by decide, by decide, rfl⟩
  content := rfl
  fits c member := by
    obtain ⟨k, inside, rfl⟩ := mem_map.mp member
    rw [mem_range'_1] at inside
    rw [sampleChunk, length_replicate, Xorb.chunkBufSize]
    have := valid.1
    omega

theorem sampleCache_directory : Directory sampleChunk sampleHash sampleCache.files := by
  intro f member _
  simp only [sampleCache, mem_cons, not_mem_nil, or_false] at member
  rcases member with rfl | rfl | rfl | rfl | rfl
  · exact .complete _ (sampleSealed_entry (by decide) (by decide))
  · exact .incomplete ⟨2, 5⟩ ⟨0, 100⟩ (parse_cacheFileName (by decide) (by decide) (by decide) (by decide) (by decide))
      (by decide)
  · exact .complete _ (sampleSealed_entry (by decide) (by decide))
  · exact .foreign (.inl (by decide))
  · exact .complete _ (sampleSealed_entry (by decide) (by decide))

theorem sample_range_served :
    (openCachedRange (.insertion _) sampleCache sampleHash 0 3).1.isSome = true ∧
    (openCachedRange (.insertion _) sampleCache sampleHash 0 4).1.isSome = false := by
  have exactly := cached_range_exact sampleChunk sampleHash (by decide) sampleCache sampleCache_directory (.insertion _)
  constructor
  · rw [(exactly 0 3 (by decide)).1]
    intro k low high
    by_cases first : k < 2
    · exact ⟨sampleSealed ⟨0, 2⟩, by simp [sampleCache], rfl, _, sampleSealed_entry (by decide) (by decide), low, first⟩
    · exact ⟨sampleSealed ⟨1, 3⟩, by simp [sampleCache], rfl, _, sampleSealed_entry (by decide) (by decide),
        by dsimp only; omega, high⟩
  · decide +kernel

end Xet.Download
