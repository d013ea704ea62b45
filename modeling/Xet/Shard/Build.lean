import Mathlib.Data.List.AList
import Mathlib.Data.List.Sort
import Mathlib.Data.List.SplitBy
import Xet.Shard.Dedup

/-! Building a shard from files over a table of chunks. The chunks of a file become terms over xorbs, and the new chunks
of the table the contents of the xorbs that they were packed into. -/
namespace Xet.Shard
open Wire List Nat CASBlock

def verificationKey : Hash := ⟨[0x7f, 0x18, 0x57, 0xd6, 0xce, 0x56, 0xed, 0x66,
  0x12, 0x7f, 0xf9, 0x13, 0xe7, 0xa5, 0xc3, 0xf3, 0xa4, 0xcd, 0x26, 0xd5, 0xb5, 0xdb, 0x49, 0xe6,
  0x41, 0x24, 0x98, 0x7f, 0x28, 0xfb, 0x94, 0xc3], rfl⟩

def computeVerificationHash (blake3 : Keyed) (chunkHashes : List ChunkHash) : VerificationHash :=
  blake3 verificationKey (chunkHashes.flatMap Hash.bytes)

/-- A zero digest is one that is not available. -/
structure FileInfo where
  hash : FileHash
  sha256 : SHA256Hash
  chunkIndices : List Nat

structure ChunkInfo where
  hash : ChunkHash
  size : UInt32
  isNew : Bool
  xorbHash : XorbHash
  chunkIndex : UInt32
  deriving DecidableEq

/-- A run of chunks of a file; `endIndex` is the chunk index that would continue it. -/
structure BuildTerm where
  xorbHash : XorbHash
  startIndex : UInt32
  endIndex : UInt32
  bytes : UInt32
  chunkStart : Nat
  chunkEnd : Nat

def BuildTerm.first (i : Nat) (chunk : ChunkInfo) : BuildTerm :=
  ⟨chunk.xorbHash, chunk.chunkIndex, chunk.chunkIndex + 1, chunk.size, i, 0⟩

/-- The loop from chunk `i` of the file on, with the term `cur` open. -/
def coalesce : BuildTerm → Nat → List ChunkInfo → List BuildTerm
  | cur, i, [] => [{ cur with chunkEnd := i }]
  | cur, i, chunk :: rest =>
    if chunk.xorbHash ≠ cur.xorbHash ∨ chunk.chunkIndex ≠ cur.endIndex then
      { cur with chunkEnd := i } :: coalesce (.first i chunk) (i + 1) rest
    else coalesce { cur with endIndex := cur.endIndex + 1, bytes := cur.bytes + chunk.size } (i + 1) rest

def fileTerms : List ChunkInfo → List BuildTerm
  | [] => []
  | chunk :: rest => coalesce (.first 0 chunk) 1 rest

def BuildTerm.entry (t : BuildTerm) : FileDataSequenceEntry := ⟨t.xorbHash, 0, t.bytes, t.startIndex, t.endIndex⟩

def fileBlock (blake3 : Keyed) (file : FileInfo) (chunks : List ChunkInfo) : FileBlock where
  fileHash := file.hash
  flags := if file.sha256 = Hash.zero then fileWithVerification else fileWithVerification ||| fileWithMetadataExt
  entries := (fileTerms chunks).map BuildTerm.entry
  verification := (fileTerms chunks).map fun t =>
    computeVerificationHash blake3 (((chunks.map ChunkInfo.hash).take t.chunkEnd).drop t.chunkStart)
  metadataExt := if file.sha256 = Hash.zero then none else some file.sha256

/-- The chunks that the loop over the table does not pass over. -/
def firstNew : List ChunkHash → List ChunkInfo → List ChunkInfo
  | _, [] => []
  | seen, chunk :: rest =>
    if !chunk.isNew ∨ chunk.hash ∈ seen then firstNew seen rest
    else chunk :: firstNew (chunk.hash :: seen) rest

def CASBlock.extend (firstFileChunks : List ChunkHash) (cb : CASBlock) (chunk : ChunkInfo) : CASBlock :=
  let flags := if isChunkGlobalDedupEligible chunk.hash (chunk.hash ∈ firstFileChunks) 0 then chunkGlobalDedupEligible else 0
  { cb with
    chunks := cb.chunks ++ [⟨chunk.hash, cb.numBytesInCAS, chunk.size, flags⟩]
    numBytesInCAS := cb.numBytesInCAS + chunk.size }

def addChunk (firstFileChunks : List ChunkHash) (casBlocks : AList fun _ : XorbHash => CASBlock) (chunk : ChunkInfo) :
    AList fun _ : XorbHash => CASBlock :=
  let cb := (casBlocks.lookup chunk.xorbHash).getD ⟨chunk.xorbHash, 0, [], 0, 0⟩
  casBlocks.insert chunk.xorbHash (cb.extend firstFileChunks chunk)

def casBlocks (firstFileChunks : List ChunkHash) (chunks : List ChunkInfo) : List CASBlock :=
  (chunks.foldl (addChunk firstFileChunks) ∅).entries.map Sigma.snd

/-- The hashes of the blocks differ, so the order in which the map is walked does not matter. -/
def sortBlocks (blocks : List CASBlock) : List CASBlock :=
  blocks.insertionSort fun a b => formatHash a.casHash ≤ formatHash b.casHash

/-- An index beyond the table is a panic of the code. -/
def chunkAt (chunks : List ChunkInfo) (i : Nat) : Except Nat ChunkInfo :=
  match chunks[i]? with
  | some chunk => .ok chunk
  | none => .error i

def buildShard (blake3 : Keyed) (files : List FileInfo) (chunks : List ChunkInfo) : Except Nat Shard := do
  let resolved ← files.mapM fun file => do return (file, ← file.chunkIndices.mapM (chunkAt chunks))
  let firstFileChunks := resolved.filterMap fun r => r.2.head?.map ChunkInfo.hash
  return ⟨0, resolved.map fun r => fileBlock blake3 r.1 r.2,
    sortBlocks (casBlocks firstFileChunks (firstNew [] chunks)), none⟩

/-- The second chunk continues a term that ends with the first. -/
def follows (a b : ChunkInfo) : Bool := b.xorbHash = a.xorbHash ∧ b.chunkIndex = a.chunkIndex + 1

def runBytes (run : List ChunkInfo) : UInt32 := run.foldl (fun bytes chunk => bytes + chunk.size) 0

def ChunkInfo.place (chunk : ChunkInfo) : XorbHash × Nat := (chunk.xorbHash, chunk.chunkIndex.toNat)

def ChunkInfo.Bounded (chunk : ChunkInfo) : Prop := chunk.chunkIndex.toNat + 1 < 2 ^ 32

theorem ChunkInfo.Bounded.next {chunk : ChunkInfo} (bounded : chunk.Bounded) :
    (chunk.chunkIndex + 1).toNat = chunk.chunkIndex.toNat + 1 := by
  rw [UInt32.toNat_add]
  exact mod_eq_of_lt bounded

/-- What a term says of its run of chunks. -/
structure BuildTerm.Covers (run : List ChunkInfo) (t : BuildTerm) : Prop where
  chain : run.IsChain fun a b => follows a b
  last : ∃ c ∈ run.getLast?, t.xorbHash = c.xorbHash ∧ t.endIndex = c.chunkIndex + 1
  ends : t.endIndex.toNat = t.startIndex.toNat + run.length
  places : run.map ChunkInfo.place = (range' t.startIndex.toNat run.length).map (t.xorbHash, ·)
  bytes : t.bytes = runBytes run

/-- The term stands for its run, and its hashes are those of the run in the file. -/
def BuildTerm.Stands (all run : List ChunkInfo) (t : BuildTerm) : Prop :=
  t.Covers run ∧ (all.take t.chunkEnd).drop t.chunkStart = run

open BuildTerm

variable {cur : BuildTerm} {all before run rest : List ChunkInfo} {chunk : ChunkInfo}

theorem BuildTerm.Stands.mem (stands : cur.Stands all run) : ∀ c ∈ run, c ∈ all :=
  fun _ member => mem_of_mem_take (mem_of_mem_drop (stands.2 ▸ member))

theorem BuildTerm.covers_first (i : Nat) (bounded : chunk.Bounded) : (BuildTerm.first i chunk).Covers [chunk] := by
  refine ⟨isChain_singleton chunk, ⟨chunk, rfl, rfl, rfl⟩, bounded.next, rfl, ?_⟩
  simp [first, runBytes]

theorem BuildTerm.Covers.extend (covers : cur.Covers run) (bounded : chunk.Bounded) (same : chunk.xorbHash = cur.xorbHash)
    (next : chunk.chunkIndex = cur.endIndex) :
    Covers (run ++ [chunk]) { cur with endIndex := cur.endIndex + 1, bytes := cur.bytes + chunk.size } := by
  obtain ⟨a, last, xorb, ends⟩ := covers.last
  have place : chunk.place = (cur.xorbHash, cur.startIndex.toNat + run.length) := by
    rw [ChunkInfo.place, same, next, covers.ends]
  refine ⟨?_, ⟨chunk, by simp, same.symm, by rw [next]⟩, ?_, ?_, ?_⟩
  · refine isChain_append.mpr ⟨covers.chain, isChain_singleton chunk, ?_⟩
    intro x isLast y first
    cases Option.mem_unique isLast last
    cases first
    simp [follows, same, next, xorb, ends]
  · rw [← next, bounded.next, next, covers.ends, length_append]
    rfl
  · rw [map_append, covers.places, length_append, length_singleton, range'_concat, map_append, map_singleton, place,
      one_mul]
    rfl
  · rw [runBytes, foldl_append, ← runBytes, ← covers.bytes]
    rfl

theorem BuildTerm.Covers.close (covers : cur.Covers run) (start : cur.chunkStart = before.length)
    (whole : all = before ++ (run ++ rest)) :
    Stands all run { cur with chunkEnd := before.length + run.length } := by
  refine ⟨⟨covers.chain, covers.last, covers.ends, covers.places, covers.bytes⟩, ?_⟩
  rw [whole, start, ← append_assoc, ← length_append, take_left, drop_left]

theorem coalesce_stands (bounded : ∀ c ∈ rest, c.Bounded) (covers : cur.Covers run)
    (start : cur.chunkStart = before.length) (whole : all = before ++ (run ++ rest)) :
    Forall₂ (Stands all) ((run ++ rest).splitBy follows) (coalesce cur (before.length + run.length) rest) := by
  induction rest generalizing run cur before with
  | nil =>
    obtain ⟨a, last, -⟩ := covers.last
    rw [append_nil, splitBy_of_isChain (ne_nil_of_mem (mem_of_mem_getLast? last)) covers.chain]
    exact .cons (covers.close start whole) .nil
  | cons chunk rest ih =>
    obtain ⟨here, later⟩ := forall_mem_cons.mp bounded
    obtain ⟨a, last, xorb, ends⟩ := covers.last
    have single := splitBy_of_isChain (ne_nil_of_mem (mem_of_mem_getLast? last)) covers.chain
    rw [coalesce]
    split
    · rename_i other
      have apart : ∀ x ∈ run.getLast?, follows x chunk = false := by
        intro x isLast
        cases Option.mem_unique isLast last
        rw [xorb, ends] at other
        simpa [follows, imp_iff_not_or] using other
      have next := ih later (covers_first _ here) (length_append.symm : _ = (before ++ run).length)
        (by rw [whole, append_assoc]; rfl)
      rw [length_append] at next
      rw [splitBy_append_cons rest apart, single]
      exact .cons (covers.close start whole) next
    · rename_i same
      simp only [not_or, not_not] at same
      have next := ih later (covers.extend here same.1 same.2) start (by rw [whole, append_assoc]; rfl)
      rw [length_append, append_assoc] at next
      exact next

/-- The terms of a file are the longest runs in which each chunk continues the one before. -/
theorem fileTerms_stand (bounded : ∀ c ∈ all, c.Bounded) :
    Forall₂ (Stands all) (all.splitBy follows) (fileTerms all) := by
  cases all with
  | nil => exact .nil
  | cons chunk rest =>
    obtain ⟨here, later⟩ := forall_mem_cons.mp bounded
    exact coalesce_stands later (covers_first 0 here) (length_nil.symm : _ = length []) rfl

theorem fileTerms_map {γ : Type} {f : List ChunkInfo → γ} {g : BuildTerm → γ} (bounded : ∀ c ∈ all, c.Bounded)
    (same : ∀ run t, t.Stands all run → f run = g t) : (fileTerms all).map g = (all.splitBy follows).map f := by
  refine Eq.symm ?_
  rw [← forall₂_eq_eq_eq, forall₂_map_left_iff, forall₂_map_right_iff]
  exact (fileTerms_stand bounded).imp same

theorem entry_stands (blake3 : Keyed) (file : FileInfo) (bounded : ∀ c ∈ all, c.Bounded) {e : FileDataSequenceEntry}
    (member : e ∈ (fileBlock blake3 file all).entries) :
    ∃ (t : BuildTerm) (run : List ChunkInfo), t.Stands all run ∧ t.entry = e := by
  obtain ⟨t, there, same⟩ := mem_map.mp member
  obtain ⟨run, -, stands⟩ := forall₂_mem_right (fileTerms_stand bounded) there
  exact ⟨t, run, stands, same⟩

/-- The chunks that a term names. -/
def FileDataSequenceEntry.places (e : FileDataSequenceEntry) : List (XorbHash × Nat) :=
  (range' e.chunkIndexStart.toNat (e.chunkIndexEnd.toNat - e.chunkIndexStart.toNat)).map (e.casHash, ·)

theorem terms_resolve (blake3 : Keyed) (file : FileInfo) (bounded : ∀ c ∈ all, c.Bounded) :
    (fileBlock blake3 file all).entries.flatMap FileDataSequenceEntry.places = all.map ChunkInfo.place ∧
    (fileBlock blake3 file all).entries.map (·.unpackedSegBytes) = (all.splitBy follows).map runBytes ∧
    (fileBlock blake3 file all).verification =
      (all.splitBy follows).map fun run => computeVerificationHash blake3 (run.map ChunkInfo.hash) := by
  simp only [fileBlock, flatMap_map, map_map]
  refine ⟨?_, fileTerms_map bounded fun run t stands => stands.1.bytes.symm, fileTerms_map bounded fun run t stands => ?_⟩
  · rw [flatMap_def, fileTerms_map bounded fun run t stands => ?_, ← map_flatten, flatten_splitBy]
    rw [stands.1.places, FileDataSequenceEntry.places, BuildTerm.entry, stands.1.ends, Nat.add_sub_cancel_left]
  · rw [← map_take, ← map_drop, stands.2]

def twoChunks : List ChunkInfo := [⟨Hash.zero, 3, true, dataKey, 0⟩, ⟨dataKey, 2, true, dataKey, 1⟩]

theorem two_chunks_resolve : (fileBlock (fun key _ => key) ⟨.zero, .zero, [0, 1]⟩ twoChunks).entries.flatMap
    FileDataSequenceEntry.places = [(dataKey, 0), (dataKey, 1)] :=
  (terms_resolve _ _ (by simp [twoChunks, ChunkInfo.Bounded])).1

variable {chunks : List ChunkInfo} {x : XorbHash} {cb : CASBlock}

theorem checkChunks_concat {i j : Nat} {offset bytes : UInt32} {listed : List CASChunkSequenceEntry}
    {c : CASChunkSequenceEntry} (checked : checkChunks i j offset listed = .ok bytes)
    (flags : c.flags &&& ~~~ chunkGlobalDedupEligible = 0) (start : c.byteRangeStart = bytes) :
    checkChunks i j offset (listed ++ [c]) = .ok (bytes + c.unpackedSegBytes) := by
  induction listed generalizing j offset with
  | nil =>
    cases checked
    simp [checkChunks, require, flags, start]
  | cons x listed ih =>
    simp only [cons_append, checkChunks, bind_eq_ok, require_eq_ok, exists_const] at checked ⊢
    exact ⟨checked.1, checked.2.1, ih checked.2.2⟩

/-- A block of the xorb that `Validate` accepts, with the sizes of the chunks in their order. -/
structure CASBlock.Describes (x : XorbHash) (chunks : List ChunkInfo) (cb : CASBlock) : Prop where
  name : cb.casHash = x
  checked : ∀ i, checkCASBlock i cb = .ok ()
  sizes : cb.chunks.map (·.unpackedSegBytes) = chunks.map ChunkInfo.size

theorem CASBlock.Describes.extend (describes : cb.Describes x chunks) (firsts : List ChunkHash) (chunk : ChunkInfo) :
    (cb.extend firsts chunk).Describes x (chunks ++ [chunk]) where
  name := describes.name
  checked := by
    intro i
    have checked := describes.checked i
    simp only [checkCASBlock, bind_eq_ok, require_eq_ok, exists_const] at checked ⊢
    obtain ⟨flags, bytes, sum, rfl⟩ := checked
    refine ⟨flags, _, checkChunks_concat sum ?_ rfl, rfl⟩
    dsimp only
    split <;> decide
  sizes := by
    rw [map_append, ← describes.sizes]
    exact map_append

/-- The map has a block for the xorbs of the chunks, and it describes those of its xorb. -/
theorem blocks_describe (firsts : List ChunkHash) (chunks : List ChunkInfo) (x : XorbHash) :
    CASBlock.Describes x (chunks.filter (·.xorbHash = x))
      (((chunks.foldl (addChunk firsts) ∅).lookup x).getD ⟨x, 0, [], 0, 0⟩) ∧
    (x ∈ chunks.foldl (addChunk firsts) ∅ → chunks.filter (·.xorbHash = x) ≠ []) := by
  induction chunks using List.reverseRecOn with
  | nil => exact ⟨⟨rfl, fun _ => rfl, rfl⟩, fun known => absurd known (AList.notMem_empty x)⟩
  | append_singleton chunks chunk ih =>
    rw [foldl_append, foldl_cons, foldl_nil, addChunk, AList.mem_insert, filter_append]
    by_cases same : x = chunk.xorbHash
    · subst same
      have here : [chunk].filter (·.xorbHash = chunk.xorbHash) = [chunk] := by simp
      rw [AList.lookup_insert, here]
      exact ⟨ih.1.extend firsts chunk, fun _ => by simp⟩
    · rw [AList.lookup_insert_ne same]
      simpa [same, Ne.symm same] using ih

theorem describes_of_entry {firsts : List ChunkHash} {entry : Sigma fun _ : XorbHash => CASBlock}
    (member : entry ∈ (chunks.foldl (addChunk firsts) ∅).entries) :
    entry.2.Describes entry.1 (chunks.filter (·.xorbHash = entry.1)) ∧ chunks.filter (·.xorbHash = entry.1) ≠ [] := by
  have found := AList.mem_lookup_iff.mpr member
  obtain ⟨describes, something⟩ := blocks_describe firsts chunks entry.1
  rw [Option.mem_def.mp found] at describes
  exact ⟨describes, something (AList.lookup_isSome.mp (Option.isSome_of_mem found))⟩

/-- The chunks of a xorb that the shard lists, in the order of the table. -/
def packed (chunks : List ChunkInfo) (x : XorbHash) : List ChunkInfo := (firstNew [] chunks).filter (·.xorbHash = x)

/-- A term cuts its run out of a list that has the chunks of the run at their indices. -/
theorem BuildTerm.Covers.slice_eq {α : Type} {list : List α} {f : ChunkInfo → α} (covers : cur.Covers run)
    (placed : ∀ c ∈ run, c.xorbHash = cur.xorbHash → list[c.chunkIndex.toNat]? = some (f c)) :
    (list.drop cur.startIndex.toNat).take run.length = run.map f := by
  apply ext_getElem?
  intro j
  rw [getElem?_take, getElem?_map]
  split
  · rename_i inside
    have place := congrArg (·[j]?) covers.places
    simp only [getElem?_map, getElem?_eq_getElem inside, getElem?_range' inside, Option.map_some, Option.some.injEq,
      ChunkInfo.place, Prod.mk.injEq, one_mul] at place
    rw [getElem?_drop, ← place.2, placed run[j] (getElem_mem inside) place.1, getElem?_eq_getElem inside]
    rfl
  · rename_i outside
    rw [getElem?_eq_none (not_lt.mp outside)]
    rfl

theorem casBlocks_distinct (firsts : List ChunkHash) (chunks : List ChunkInfo) :
    ((casBlocks firsts chunks).map casHash).Nodup := by
  have keys : (casBlocks firsts chunks).map casHash =
      (chunks.foldl (addChunk firsts) ∅).keys := by
    rw [casBlocks, map_map]
    exact map_congr_left fun entry member => (describes_of_entry member).1.name
  exact keys ▸ AList.keys_nodup _

theorem checkDistinct_ok {blocks : List CASBlock} (distinct : (blocks.map casHash).Nodup) (i : Nat) {seen : List XorbHash}
    (unseen : ∀ cb ∈ blocks, cb.casHash ∉ seen) : checkDistinct i seen blocks = .ok () := by
  induction blocks generalizing i seen with
  | nil => rfl
  | cons cb rest ih =>
    simp only [map_cons, nodup_cons, mem_map, not_exists, not_and, forall_mem_cons] at distinct unseen
    rw [checkDistinct, require_true unseen.1]
    exact ih distinct.2 _ fun b member => by simp [distinct.1 b member, unseen.2 b member]

theorem firstNew_sublist (seen : List ChunkHash) (chunks : List ChunkInfo) : (firstNew seen chunks).Sublist chunks := by
  induction chunks generalizing seen with
  | nil => exact .slnil
  | cons chunk rest ih =>
    rw [firstNew]
    split
    · exact (ih seen).cons chunk
    · exact (ih _).cons_cons chunk

theorem mem_of_packed (member : chunk ∈ packed chunks x) : chunk ∈ chunks :=
  (firstNew_sublist [] chunks).mem (mem_of_mem_filter member)

/-- The chunks of the file are those of the table at its indices. -/
def FileInfo.Lists (file : FileInfo) (chunks all : List ChunkInfo) : Prop :=
  Forall₂ (fun i c => chunks[i]? = some c) file.chunkIndices all

theorem FileInfo.Lists.mem {file : FileInfo} (lists : file.Lists chunks all) : ∀ c ∈ all, c ∈ chunks := by
  intro c member
  obtain ⟨i, -, here⟩ := forall₂_mem_right lists member
  exact mem_of_getElem? here

theorem buildShard_ok (blake3 : Keyed) {files : List FileInfo} {chunks : List ChunkInfo}
    (inside : ∀ file ∈ files, ∀ i ∈ file.chunkIndices, i < chunks.length) :
    ∃ (resolved : List (FileInfo × List ChunkInfo)) (firsts : List ChunkHash),
      Forall₂ (fun file r => r.1 = file ∧ file.Lists chunks r.2) files resolved ∧
      buildShard blake3 files chunks = .ok
        ⟨0, resolved.map fun r => fileBlock blake3 r.1 r.2, sortBlocks (casBlocks firsts (firstNew [] chunks)), none⟩ := by
  have resolves : ∀ file ∈ files, ∃ r : FileInfo × List ChunkInfo,
      (do return (file, ← file.chunkIndices.mapM (chunkAt chunks))) = Except.ok r ∧ r.1 = file ∧ file.Lists chunks r.2 := by
    intro file member
    have each : ∀ i ∈ file.chunkIndices, ∃ c, chunkAt chunks i = .ok c ∧ chunks[i]? = some c := by
      intro i index
      have low := inside file member i index
      exact ⟨chunks[i], by simp [chunkAt, low], getElem?_eq_getElem low⟩
    obtain ⟨all, run, lists⟩ := exists_mapM_ok each
    exact ⟨(file, all), by rw [run]; rfl, rfl, lists⟩
  obtain ⟨resolved, run, related⟩ := exists_mapM_ok resolves
  exact ⟨resolved, _, related, by rw [buildShard, run]; rfl⟩

theorem sortBlocks_perm (blocks : List CASBlock) : (sortBlocks blocks).Perm blocks := perm_insertionSort _ blocks

end Xet.Shard
