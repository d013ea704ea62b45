import Mathlib.Algebra.Order.BigOperators.Group.List
import Xet.Download.Delivery

/-! The stored xorbs behind a response: the packed bytes of their chunk ranges, and what a reader
gets by fetching them. -/
namespace Xet.Download
open Wire Shard List Xorb.Decoder Xorb Nat Xorb.Payload

structure StoredXorb (lz4 : Lz4) where
  payload : Payload lz4
  tail : Bytes

namespace StoredXorb
variable {lz4 : Lz4} (x : StoredXorb lz4)

def data : Bytes := x.payload.bytes ++ x.tail

def framesIn (r : ChunkRange) : List (Frame lz4) := (x.payload.frames.drop r.start).take (r.stop - r.start)

def chunksIn (r : ChunkRange) : List Bytes := (x.framesIn r).map fun f => f.data

def packedStart (i : Nat) : Nat := ((x.payload.frames.take i).flatMap Frame.bytes).length

def span (r : ChunkRange) : ByteRange := ⟨x.packedStart r.start, (x.packedStart r.stop : Int) - 1⟩

structure Valid (r : ChunkRange) : Prop where
  order : r.start < r.stop
  bound : r.stop ≤ x.payload.frames.length

variable {x} {r : ChunkRange}

theorem Valid.framesIn_length (valid : x.Valid r) : (x.framesIn r).length = r.stop - r.start := by
  have := valid.bound
  rw [framesIn, length_take, length_drop]
  omega

theorem Valid.chunksIn_length (valid : x.Valid r) : (x.chunksIn r).length = r.stop - r.start := by
  rw [chunksIn, length_map, valid.framesIn_length]

theorem chunksIn_sub {s : ChunkRange} (first : r.start ≤ s.start) (order : s.start ≤ s.stop) (last : s.stop ≤ r.stop) :
    ((x.chunksIn r).drop (s.start - r.start)).take (s.stop - r.start - (s.start - r.start)) = x.chunksIn s := by
  have offset : r.start + (s.start - r.start) = s.start := by omega
  have count : min (s.stop - r.start - (s.start - r.start)) (r.stop - r.start - (s.start - r.start)) =
    s.stop - s.start := by omega
  simp only [chunksIn, framesIn, ← map_drop, ← map_take, drop_take, take_take, drop_drop, offset, count]

theorem packedStart_stop (order : r.start ≤ r.stop) :
    x.packedStart r.stop = x.packedStart r.start + ((x.framesIn r).flatMap Frame.bytes).length := by
  have split : r.stop = r.start + (r.stop - r.start) := by omega
  rw [packedStart, split, take_add, flatMap_append, length_append, packedStart, framesIn]

theorem Valid.packedStart_lt (valid : x.Valid r) : x.packedStart r.start < x.packedStart r.stop := by
  have count := valid.framesIn_length
  have order := valid.order
  rw [packedStart_stop order.le]
  cases frames : x.framesIn r with
  | nil =>
    rw [frames, length_nil] at count
    omega
  | cons f rest =>
    rw [flatMap_cons, length_append, f.bytes_length]
    omega

theorem span_inj {r s : ChunkRange} (valid : x.Valid r) (other : x.Valid s) (same : x.span r = x.span s) : r = s := by
  have starts : x.packedStart r.start = x.packedStart s.start := by
    have := congrArg ByteRange.start same
    simpa only [span, Nat.cast_inj] using this
  have stops : x.packedStart r.stop = x.packedStart s.stop := by
    have := congrArg ByteRange.last same
    simp only [span] at this
    omega
  have injective : ∀ i j, i ≤ x.payload.frames.length → j ≤ x.payload.frames.length →
      x.packedStart i = x.packedStart j → i = j := by
    intro i j hi hj equal
    rcases lt_trichotomy i j with less | rfl | less
    · have := Valid.packedStart_lt (x := x) (r := ⟨i, j⟩) ⟨less, hj⟩
      dsimp only at this
      omega
    · rfl
    · have := Valid.packedStart_lt (x := x) (r := ⟨j, i⟩) ⟨less, hi⟩
      dsimp only at this
      omega
  have within : r.start ≤ x.payload.frames.length ∧ s.start ≤ x.payload.frames.length :=
    ⟨valid.order.le.trans valid.bound, other.order.le.trans other.bound⟩
  cases r
  cases s
  exact ChunkRange.mk.injEq .. ▸
    ⟨injective _ _ within.1 within.2 starts, injective _ _ valid.bound other.bound stops⟩

theorem getD_packedEnds (x : StoredXorb lz4) {i : Nat} (positive : 0 < i) (bound : i ≤ x.payload.frames.length) :
    x.payload.packedEnds.getD (i - 1) 0 = x.packedStart i := by
  have index : i - 1 + 1 = i := by omega
  rw [packedEnds, Segments.ends_getD 0 (by rw [length_map]; omega), index, packedStart,
    length_flatMap, ← map_take, zero_add]

theorem Valid.range (valid : x.Valid r) :
    chunkDataRangeFromOffsets x.payload.packedEnds r.start r.stop = .ok ((x.span r).start, (x.span r).last) := by
  have edge := valid.order.le.trans valid.bound
  have bound : r.stop ≤ x.payload.packedEnds.length := by
    simpa [packedEnds] using valid.bound
  have start : (if 0 < r.start then x.payload.packedEnds.getD (r.start - 1) 0 else 0) = x.packedStart r.start := by
    by_cases inner : 0 < r.start
    · rw [if_pos inner, x.getD_packedEnds inner edge]
    · obtain zero : r.start = 0 := by omega
      rw [if_neg inner, zero]
      rfl
  rw [chunkDataRangeFromOffsets, require_true valid.order, require_true bound, start,
    x.getD_packedEnds (zero_lt_of_lt valid.order) valid.bound]
  rfl

theorem valid_of_range (x : StoredXorb lz4) {start stop : Nat} {bytes : Int × Int}
    (served : chunkDataRangeFromOffsets x.payload.packedEnds start stop = .ok bytes) : x.Valid ⟨start, stop⟩ := by
  simp only [chunkDataRangeFromOffsets, bind_eq_ok, require_eq_ok, exists_const] at served
  exact ⟨served.1, by simpa [packedEnds] using served.2.1⟩

theorem Valid.bytes_split (valid : x.Valid r) :
    x.payload.bytes = (x.payload.frames.take r.start).flatMap Frame.bytes ++
      ((x.framesIn r).flatMap Frame.bytes ++ (x.payload.frames.drop r.stop).flatMap Frame.bytes) := by
  have order := valid.order
  have behind : x.payload.frames.drop r.stop = (x.payload.frames.drop r.start).drop (r.stop - r.start) := by
    rw [drop_drop]
    congr 1
    omega
  rw [Payload.bytes, ← flatMap_append, ← flatMap_append, framesIn, behind, take_append_drop, take_append_drop]

theorem Valid.span_length (valid : x.Valid r) :
    ((x.span r).last - (x.span r).start + 1).toNat = ((x.framesIn r).flatMap Frame.bytes).length := by
  have stop := packedStart_stop (x := x) valid.order.le
  simp only [span]
  omega

theorem Valid.last_lt (valid : x.Valid r) : (x.span r).last < x.data.length := by
  have stop := packedStart_stop (x := x) valid.order.le
  have size := congrArg List.length valid.bytes_split
  simp only [length_append] at size
  simp only [span, data, length_append, packedStart] at stop ⊢
  omega

theorem Valid.slice_span (valid : x.Valid r) :
    slice x.data (x.span r).start.toNat ((x.span r).last - (x.span r).start + 1).toNat =
      (x.framesIn r).flatMap Frame.bytes := by
  rw [valid.span_length]
  apply slice_eq (a := (x.payload.frames.take r.start).flatMap Frame.bytes) _ (Int.toNat_natCast _).symm rfl
  · exact (x.payload.frames.drop r.stop).flatMap Frame.bytes ++ x.tail
  · rw [data, valid.bytes_split, append_assoc, append_assoc]

end StoredXorb

/-- The storage and the client serve the stored xorbs: offset tables are true, the address of a xorb
serves the requested part of it, and what the client has in its cache is part of it too. -/
structure Serves {lz4 : Lz4} {ε : Type} (xorbs : XorbHash → Option (StoredXorb lz4))
    (storage : StorageAdapter ε) (client : Client ε) : Prop where
  offsets : ∀ hash x table, xorbs hash = some x → storage.getXorbChunkOffsets hash = .ok table →
    table = x.payload.packedEnds
  body : ∀ hash x url, xorbs hash = some x → storage.getXorbURL hash = .ok url →
    ∀ key : FetchKey, 0 ≤ key.start → key.start ≤ key.last → key.last < x.data.length →
      client.download key url = .ok (slice x.data key.start.toNat (key.last - key.start + 1).toNat)
  cached : ∀ hash x r datas, xorbs hash = some x → client.cached (formatHash hash) r = some datas →
    datas = x.chunksIn r

section
variable {blake3 : Keyed} {lz4 : Lz4} {ε : Type} {xorbs : XorbHash → Option (StoredXorb lz4)}
variable {storage : StorageAdapter ε} {client : Client ε} {x : StoredXorb lz4}

theorem packedRange_eq_ok {e : FileDataSequenceEntry} {bytes : ByteRange} (serves : Serves xorbs storage client)
    (stored : xorbs e.casHash = some x) (built : packedRange storage e = .ok bytes) :
    x.Valid (entryRange e) ∧ bytes = x.span (entryRange e) := by
  simp only [packedRange, bind_eq_ok, mapError_eq_ok, Prod.exists] at built
  obtain ⟨table, served, first, last, range, value⟩ := built
  cases value
  obtain rfl := serves.offsets _ _ _ stored served
  have valid : x.Valid (entryRange e) := x.valid_of_range range
  cases range.symm.trans valid.range
  exact ⟨valid, rfl⟩

theorem loadChunks_frames (fs : List (Frame lz4)) {d : Decoder} (live : d.Live)
    (mode : d.withFooter = false) (here : d.r = fs.flatMap Frame.bytes)
    (count : d.chunks.length + fs.length ≤ maxChunksPerXorb)
    (raw : d.rawSize + (fs.map (·.data.length)).sum ≤ maxXorbSize) (stored : Nat) :
    ∃ chunks, loadChunks blake3 lz4 stored fs.length d = (chunks, .complete) ∧
      chunks.map (·.data) = fs.map (·.data) := by
  induction fs generalizing d stored with
  | nil =>
    have ended : (d.read blake3 lz4 chunkBufSize).1 = .eof :=
      (read_end live (.inl ⟨mode, here⟩) chunkBufSize).1
    exact ⟨[], by simp only [loadChunks, length_nil, ended], rfl⟩
  | cons f rest ih =>
    rw [flatMap_cons] at here
    simp only [length_cons, map_cons, sum_cons, f.data_length] at count raw
    have small : f.data.length ≤ chunkBufSize := by
      have := (decodeChunk_sizes f.decoded).2.2
      rw [f.data_length]
      exact this.trans (by decide)
    have step : d.read blake3 lz4 chunkBufSize = (.data f.data, d.push blake3 f (rest.flatMap Frame.bytes)) :=
      read_frame live here f.fits small (by omega) (by omega)
    obtain ⟨chunks, run, datas⟩ := ih (d := d.push blake3 f (rest.flatMap Frame.bytes))
      ⟨live.healthy, live.reading, live.fresh⟩ mode rfl
      (by simp only [push, length_append, length_singleton]; omega)
      (by simp only [push]; omega) (stored + 1)
    simp only [length_cons, loadChunks, step, run]
    exact ⟨_, rfl, by rw [map_cons, map_cons, datas]⟩

structure TrueTask (xorbs : XorbHash → Option (StoredXorb lz4)) (storage : StorageAdapter ε) (hash : XorbHash)
    (x : StoredXorb lz4) (task : FetchTask) : Prop where
  stored : xorbs hash = some x
  name : task.key.hash = formatHash hash
  valid : x.Valid task.chunks
  bytes : (⟨task.key.start, task.key.last⟩ : ByteRange) = x.span task.chunks
  url : storage.getXorbURL hash = .ok task.url

theorem framesIn_raw (x : StoredXorb lz4) (r : ChunkRange) :
    ((x.framesIn r).map (·.data.length)).sum ≤ maxXorbSize := by
  have sub : (x.framesIn r).Sublist x.payload.frames := (take_sublist ..).trans (drop_sublist ..)
  exact (List.Sublist.sum_le_sum (sub.map _) fun _ _ => zero_le _).trans x.payload.raw

theorem TrueTask.run {hash : XorbHash} {task : FetchTask} (serves : Serves xorbs storage client)
    (fetch : TrueTask xorbs storage hash x task) :
    ∃ cache, runJob blake3 lz4 client task = .ok cache ∧ cache.outcome = .complete ∧
      cache.chunks.map (·.data) = x.chunksIn task.chunks := by
  cases hit : client.cached task.key.hash task.chunks with
  | some datas =>
    refine ⟨⟨datas.map (⟨·, none⟩), .complete⟩, by rw [runJob, hit], rfl, ?_⟩
    rw [serves.cached hash x task.chunks datas fetch.stored (fetch.name ▸ hit), map_map]
    exact map_id _
  | none =>
    obtain ⟨starts, lasts⟩ := ByteRange.mk.inj fetch.bytes
    have order := fetch.valid.packedStart_lt
    have small := fetch.valid.bound.trans x.payload.count
    have accepted : minCacheHashLen ≤ task.key.hash.length ∧ validChunkRange task.chunks ∧ 0 ≤ task.key.start ∧
        task.key.start ≤ task.key.last := by
      refine ⟨?_, ⟨fetch.valid.order, small⟩, by omega, by omega⟩
      rw [fetch.name, formatHash_length]
      decide
    have served : client.download task.key task.url = .ok ((x.framesIn task.chunks).flatMap Frame.bytes) := by
      rw [← fetch.valid.slice_span, ← fetch.bytes]
      exact serves.body hash x task.url fetch.stored fetch.url task.key (by omega) (by omega)
        (lasts ▸ fetch.valid.last_lt)
    have count := fetch.valid.framesIn_length
    have loaded : ∃ chunks, loadChunks blake3 lz4 0 (x.framesIn task.chunks).length
        (new ((x.framesIn task.chunks).flatMap Frame.bytes) false) = (chunks, .complete) ∧ _ :=
      loadChunks_frames (x.framesIn task.chunks) ⟨rfl, rfl, rfl⟩ rfl rfl
        (by simp only [new, length_nil]; omega)
        (by simpa only [new, zero_add] using framesIn_raw x task.chunks) 0
    obtain ⟨chunks, run, datas⟩ := loaded
    rw [count] at run
    refine ⟨⟨chunks, .complete⟩, ?_, rfl, datas⟩
    simp only [runJob, hit, require_true accepted, served, ok_bind, Except.mapError, run]

/-- The packed bytes of a chunk range, under an address of the xorb. -/
structure TrueFetch (xorbs : XorbHash → Option (StoredXorb lz4)) (storage : StorageAdapter ε) (hash : XorbHash)
    (x : StoredXorb lz4) (f : FetchInfoEntry) : Prop where
  stored : xorbs hash = some x
  valid : x.Valid f.range
  bytes : f.urlRange = x.span f.range
  url : storage.getXorbURL hash = .ok f.url

def Covers (f : FetchInfoEntry) (t : Term) : Prop :=
  f.range.start ≤ t.range.start ∧ t.range.stop ≤ f.range.stop

/-- A fetch of the packed bytes of some chunks, those of the term among them, is selected for the
term. -/
structure Selects (xorbs : XorbHash → Option (StoredXorb lz4)) (storage : StorageAdapter ε)
    (select : Term → Except PlanError FetchInfoEntry) (t : Term) (hash : XorbHash) (x : StoredXorb lz4)
    (f : FetchInfoEntry) : Prop where
  selected : select t = .ok f
  name : t.hash = formatHash hash
  order : t.range.start < t.range.stop
  fetch : TrueFetch xorbs storage hash x f
  covers : Covers f t

def termChunks (xorbs : XorbHash → Option (StoredXorb lz4)) (t : Term) : List Bytes :=
  match (parseHash t.hash).toOption.bind xorbs with
  | none => []
  | some x => x.chunksIn t.range

theorem termChunks_eq {t : Term} {hash : XorbHash} (name : t.hash = formatHash hash) (stored : xorbs hash = some x) :
    termChunks xorbs t = x.chunksIn t.range := by
  simp only [termChunks, name, parseHash_formatHash, Except.toOption, Option.bind_some, stored]

def plannedFetch (t : Term) (f : FetchInfoEntry) : SelectedFetch × FetchTask :=
  let key : FetchKey := ⟨t.hash, f.urlRange.start, f.urlRange.last⟩
  (⟨key, f.range⟩, ⟨key, f.url, f.range⟩)

section
variable {select : Term → Except PlanError FetchInfoEntry} {t : Term} {hash : XorbHash} {f : FetchInfoEntry}

theorem Selects.plan (s : Selects xorbs storage select t hash x f) : planTerm select t = .ok (plannedFetch t f) := by
  have order := s.fetch.valid.packedStart_lt
  have small := s.fetch.valid.bound.trans x.payload.count
  have checked : t.range.start < t.range.stop ∧ validChunkRange f.range ∧ 0 ≤ f.urlRange.start ∧
      f.urlRange.start ≤ f.urlRange.last := by
    rw [s.fetch.bytes]
    refine ⟨s.order, ⟨s.fetch.valid.order, small⟩, ?_, ?_⟩ <;> simp only [StoredXorb.span] <;> omega
  simp only [planTerm, s.selected, ok_bind, checkFetchRange, require_true checked]
  rfl

theorem Selects.task (s : Selects xorbs storage select t hash x f) :
    TrueTask xorbs storage hash x (plannedFetch t f).2 :=
  ⟨s.fetch.stored, s.name, s.fetch.valid, s.fetch.bytes, s.fetch.url⟩

/-- The chunks of a term are found in the fetch that was selected for it, whichever task of the
same key has run. -/
theorem Selects.holds {tasks : List FetchTask} (serves : Serves xorbs storage client)
    (s : Selects xorbs storage select t hash x f) (planned : (plannedFetch t f).2 ∈ tasks)
    (every : ∀ task ∈ tasks, ∃ hash x, TrueTask xorbs storage hash x task) :
    Holds blake3 lz4 client tasks (t, (plannedFetch t f).1) (termChunks xorbs t) := by
  obtain ⟨task, found⟩ : ∃ task, tasks.find? (·.key = (plannedFetch t f).1.key) = some task := by
    apply Option.isSome_iff_exists.mp
    exact find?_isSome.mpr ⟨_, planned, by simp [plannedFetch]⟩
  have sameKey : task.key = (plannedFetch t f).1.key := by simpa using find?_some found
  obtain ⟨hash', x', fetch⟩ := every task (mem_of_find?_eq_some found)
  obtain rfl : hash' = hash := formatHash_inj (by rw [← fetch.name, sameKey, ← s.name]; rfl)
  obtain rfl : x' = x := Option.some.inj (fetch.stored.symm.trans s.fetch.stored)
  obtain sameChunks : task.chunks = f.range := by
    apply StoredXorb.span_inj fetch.valid s.fetch.valid
    rw [← fetch.bytes, sameKey, ← s.fetch.bytes]
    rfl
  obtain ⟨cache, run, complete, datas⟩ : ∃ cache, runJob blake3 lz4 client task = .ok cache ∧ _ := fetch.run serves
  rw [sameChunks] at datas
  have size := congrArg List.length datas
  rw [length_map, s.fetch.valid.chunksIn_length] at size
  obtain ⟨first, last⟩ := s.covers
  refine ⟨cache, by simp only [prefetched, found, run], complete, ?_, ?_⟩
  · simp only [plannedFetch]
    omega
  · simp only [plannedFetch, map_take, map_drop, datas]
    rw [termChunks_eq s.name s.fetch.stored, StoredXorb.chunksIn_sub first s.order.le last]

end

def AllPlanned (xorbs : XorbHash → Option (StoredXorb lz4)) (storage : StorageAdapter ε)
    (select : Term → Except PlanError FetchInfoEntry) : List Term → List (SelectedFetch × FetchTask) → Prop :=
  List.Forall₂ fun t p => ∃ hash x f, Selects xorbs storage select t hash x f ∧ p = plannedFetch t f

theorem AllPlanned.tasks {select : Term → Except PlanError FetchInfoEntry} {terms : List Term}
    {planned : List (SelectedFetch × FetchTask)} (all : AllPlanned xorbs storage select terms planned) :
    ∀ task ∈ planned.map Prod.snd, ∃ hash x, TrueTask xorbs storage hash x task := by
  induction all with
  | nil => nofun
  | cons here _ ih =>
    obtain ⟨hash, x, f, s, rfl⟩ := here
    intro task member
    rcases mem_cons.mp member with rfl | member
    · exact ⟨hash, x, s.task⟩
    · exact ih task member

theorem AllPlanned.holds {select : Term → Except PlanError FetchInfoEntry} {terms : List Term}
    {planned : List (SelectedFetch × FetchTask)} {tasks : List FetchTask} (serves : Serves xorbs storage client)
    (all : AllPlanned xorbs storage select terms planned) (inside : planned.map Prod.snd ⊆ tasks)
    (every : ∀ task ∈ tasks, ∃ hash x, TrueTask xorbs storage hash x task) :
    List.Forall₂ (Holds blake3 lz4 client tasks) (terms.zip (planned.map Prod.fst)) (terms.map (termChunks xorbs)) := by
  induction all with
  | nil => exact .nil
  | cons here _ ih =>
    obtain ⟨hash, x, f, s, rfl⟩ := here
    rw [map_cons, cons_subset] at inside
    exact .cons (s.holds serves inside.1 every) (ih inside.2)

theorem planReader_reads (blake3 : Keyed) {select : Term → Except PlanError FetchInfoEntry} {terms : List Term}
    (serves : Serves xorbs storage client)
    (each : ∀ t ∈ terms, ∃ hash x f, Selects xorbs storage select t hash x f) {offset : Int}
    (skip : offset.toNat ≤ ((terms.map (termChunks xorbs)).headD []).flatten.length) :
    ∃ selected tasks, planReader select terms = .ok (selected, tasks) ∧
      (∀ task ∈ tasks, ∃ hash x, TrueTask xorbs storage hash x task) ∧
      ∃ r, newReader (planReader select terms) offset terms none = .ok r ∧
        ∀ lens, (r.reads blake3 lz4 client lens).1 =
          inMemory ((terms.map (termChunks xorbs)).flatten.flatten.drop offset.toNat) lens := by
  obtain ⟨planned, values, all⟩ : ∃ planned, terms.mapM (planTerm select) = .ok planned ∧
      AllPlanned xorbs storage select terms planned := by
    apply exists_mapM_ok
    intro t member
    obtain ⟨hash, x, f, s⟩ := each t member
    exact ⟨_, s.plan, hash, x, f, s, rfl⟩
  have plan : planReader select terms = .ok (planned.map Prod.fst, planned.map Prod.snd) := by
    simp only [planReader, values, ok_bind]
    rfl
  have holds : List.Forall₂ (Holds blake3 lz4 client (planned.map Prod.snd)) _ _ :=
    all.holds serves (List.Subset.refl _) all.tasks
  obtain ⟨r, opened, delivers⟩ := newReader_delivers plan holds skip
  exact ⟨_, _, plan, all.tasks, r, opened, fun lens => reads_spec lens delivers⟩

end

end Xet.Download
