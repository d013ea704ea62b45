import Xet.Download.Answer
import Xet.Shard.Build
import Xet.Shard.Exact

/-! A shard that was built from chunks in stored xorbs tells the truth about the xorbs, and its terms name the bytes of
the files. -/
namespace Xet.Download
open Wire Shard List

section
variable {lz4 : Xorb.Lz4} {xorbs : XorbHash → Option (StoredXorb lz4)} {data : ChunkInfo → Bytes}
  {chunks all run : List ChunkInfo} {t : BuildTerm} {s : Shard} {firsts : List ChunkHash}

/-- The xorbs hold the data of the chunks at their indices, and those that the shard lists hold the listed chunks. -/
structure Uploaded (xorbs : XorbHash → Option (StoredXorb lz4)) (data : ChunkInfo → Bytes) (chunks : List ChunkInfo) :
    Prop where
  sized : ∀ c ∈ chunks, c.size.toNat = (data c).length
  stored : ∀ c ∈ chunks, ∃ x, xorbs c.xorbHash = some x ∧
    (x.payload.frames.map fun f => f.data)[c.chunkIndex.toNat]? = some (data c) ∧
    (packed chunks c.xorbHash = [] ∨ (x.payload.frames.map fun f => f.data) = (packed chunks c.xorbHash).map data)

theorem runBytes_mod (sized : ∀ c ∈ run, c.size.toNat = (data c).length) :
    (runBytes run).toNat = (run.map data).flatten.length % 2 ^ 32 := by
  induction run using List.reverseRecOn with
  | nil => rfl
  | append_singleton run c ih =>
    obtain ⟨before, here⟩ := forall_mem_append.mp sized
    rw [runBytes, foldl_append, ← runBytes, foldl_cons, foldl_nil, UInt32.toNat_add, ih before, here c mem_cons_self,
      Nat.mod_add_mod, map_append, flatten_append, length_append, map_singleton, flatten_singleton]

/-- `Validate` accepts a term that agrees with the stored xorbs. -/
theorem Agrees.checkEntry_ok {entries : List FileDataSequenceEntry} (agrees : Agrees s xorbs entries)
    {e : FileDataSequenceEntry} (member : e ∈ entries) (flags : e.casFlags = 0)
    (order : e.chunkIndexStart < e.chunkIndexEnd) (i j : Nat) : s.checkEntry i j e = .ok () := by
  simp only [Shard.checkEntry, bind_eq_ok, require_eq_ok, exists_const]
  refine ⟨flags, order, ?_⟩
  cases found : s.casBlock e.casHash with
  | none => rfl
  | some cb =>
    have name : cb.casHash = e.casHash := by simpa using find?_some found
    obtain ⟨x, known, sizes⟩ := agrees.blocks cb (mem_of_find?_eq_some found)
    obtain ⟨y, stored, below⟩ := agrees.stored e member
    rw [name, stored] at known
    cases known
    have count : cb.chunks.length = x.payload.frames.length := by simpa using congrArg List.length sizes
    have few := (count.trans_le x.payload.count).trans_lt (by decide : _ < 2 ^ 32)
    have sum : Shard.unpackedSum (runOf cb e) = e.unpackedSegBytes.toNat := by
      rw [← agrees.length e member, entryChunks, stored, length_flatten, Shard.unpackedSum, runOf, map_take, map_drop, sizes,
        ← map_drop, ← map_take]
      exact congrArg sum map_map.symm
    simp only [bind_eq_ok, require_eq_ok, exists_const]
    refine ⟨?_, UInt32.toNat_inj.mp ?_⟩
    · rwa [UInt32.le_iff_toNat_le, UInt32.toNat_ofNat_of_lt' few, count]
    · rw [← runOf, termBytes_mod, sum, Nat.mod_eq_of_lt (UInt32.toNat_lt _)]

theorem Uploaded.block (uploaded : Uploaded xorbs data chunks) {cb : CASBlock}
    (listed : cb ∈ casBlocks firsts (firstNew [] chunks)) : ∃ x, xorbs cb.casHash = some x ∧
      (cb.chunks.map fun c => c.unpackedSegBytes.toNat) = x.payload.frames.map fun f => f.data.length := by
  obtain ⟨entry, member, rfl⟩ := mem_map.mp listed
  obtain ⟨describes, something⟩ := describes_of_entry member
  rw [← packed] at describes something
  obtain ⟨c, first⟩ := exists_mem_of_ne_nil _ something
  obtain ⟨x, found, -, whole⟩ := uploaded.stored c (mem_of_packed first)
  have name : c.xorbHash = entry.1 := by simpa using of_mem_filter first
  rw [name] at found whole
  have sizes := congrArg (map UInt32.toNat) describes.sizes
  have lengths := congrArg (map length) (whole.resolve_left something)
  rw [map_map, map_map] at sizes lengths
  refine ⟨x, describes.name ▸ found, sizes.trans (Eq.trans ?_ lengths.symm)⟩
  exact map_congr_left fun c member => uploaded.sized c (mem_of_packed member)

section
variable (uploaded : Uploaded xorbs data chunks) (sub : ∀ c ∈ all, c ∈ chunks)
include uploaded sub

theorem Uploaded.bounded : ∀ c ∈ all, c.Bounded := by
  intro c member
  obtain ⟨x, -, here, -⟩ := uploaded.stored c (sub c member)
  have below := (List.getElem?_eq_some_iff.mp here).1
  have count : x.payload.frames.length ≤ 8192 := x.payload.count
  rw [length_map] at below
  rw [ChunkInfo.Bounded]
  omega

/-- The term of a run names the data of its chunks, and declares its length. -/
theorem Uploaded.run_stored (stands : t.Stands all run) :
    ∃ x, xorbs t.entry.casHash = some x ∧ t.endIndex.toNat ≤ x.payload.frames.length ∧
      entryChunks xorbs t.entry = run.map data ∧ (run.map data).flatten.length = t.bytes.toNat := by
  have covers := stands.1
  replace sub : ∀ c ∈ run, c ∈ chunks := fun c member => sub c (stands.mem c member)
  obtain ⟨c, last, xorb, ends⟩ := covers.last
  replace last := mem_of_mem_getLast? last
  obtain ⟨x, found, here, -⟩ := uploaded.stored c (sub c last)
  rw [← xorb] at found
  have slice : ((x.payload.frames.map (·.data)).drop t.startIndex.toNat).take run.length = run.map data := by
    refine covers.slice_eq fun c member same => ?_
    obtain ⟨y, known, there, -⟩ := uploaded.stored c (sub c member)
    rw [same, found] at known
    cases known
    exact there
  have datas : x.chunksIn (entryRange t.entry) = run.map data := by
    rw [← slice, ← Nat.sub_eq_of_eq_add' covers.ends, ← map_drop, ← map_take]
    rfl
  have within : (run.map data).flatten.length ≤ maxXorbSize := by
    rw [← datas, StoredXorb.chunksIn, length_flatten, map_map]
    exact framesIn_raw x _
  refine ⟨x, found, ?_, ?_, ?_⟩
  · rw [ends, (uploaded.bounded sub c last).next, Nat.succ_le_iff]
    simpa using (List.getElem?_eq_some_iff.mp here).1
  · rw [entryChunks, BuildTerm.entry, found]
    exact datas
  · rw [covers.bytes, runBytes_mod fun c member => uploaded.sized c (sub c member),
      Nat.mod_eq_of_lt (within.trans_lt (by decide))]

variable (blake3 : Keyed) (file : FileInfo)

theorem Uploaded.content : content xorbs (fileBlock blake3 file all).entries = all.flatMap data := by
  simp only [Download.content, fileBlock, map_map]
  rw [fileTerms_map (uploaded.bounded sub) fun run t stands => ?_, ← map_flatten, flatten_splitBy, flatMap_def]
  obtain ⟨x, -, -, datas, -⟩ := uploaded.run_stored sub stands
  exact datas.symm

theorem Uploaded.agrees (listed : ∀ cb ∈ s.casInfos, cb ∈ casBlocks firsts (firstNew [] chunks)) :
    Agrees s xorbs (fileBlock blake3 file all).entries := by
  refine ⟨fun cb member => uploaded.block (listed cb member), fun e member => ?_, fun e member => ?_⟩
  all_goals
    obtain ⟨t, run, stands, rfl⟩ := entry_stands blake3 file (uploaded.bounded sub) member
    obtain ⟨x, found, below, datas, length⟩ := uploaded.run_stored sub stands
  · exact ⟨x, found, below⟩
  · rw [datas, length]
    rfl

theorem Uploaded.checkFile_ok (listed : ∀ cb ∈ s.casInfos, cb ∈ casBlocks firsts (firstNew [] chunks)) (i : Nat) :
    s.checkFile i (fileBlock blake3 file all) = .ok () := by
  have entries : forIndexed (s.checkEntry i) 0 (fileBlock blake3 file all).entries = .ok () := by
    rw [forIndexed_eq_ok]
    intro j e there
    have member := mem_of_getElem? there
    obtain ⟨t, run, stands, rfl⟩ := entry_stands blake3 file (uploaded.bounded sub) member
    obtain ⟨c, last, -⟩ := stands.1.last
    have some := length_pos_of_mem (mem_of_mem_getLast? last)
    refine (uploaded.agrees sub blake3 file listed).checkEntry_ok member rfl (UInt32.lt_iff_toNat_lt.mpr ?_) i (0 + j)
    exact (Nat.lt_add_of_pos_right some).trans_eq stands.1.ends.symm
  have counted : (fileBlock blake3 file all).verification.length = (fileBlock blake3 file all).entries.length := by
    simp only [fileBlock, length_map]
  simp only [checkFile, checkVerification, checkMetadataExt, entries, counted]
  simp only [fileBlock]
  split <;> rfl

end

theorem built_shard_agrees (blake3 : Keyed) (uploaded : Uploaded xorbs data chunks) (files : List FileInfo)
    (inside : ∀ file ∈ files, ∀ i ∈ file.chunkIndices, i < chunks.length) :
    ∃ s, buildShard blake3 files chunks = .ok s ∧ s.validate = .ok () ∧ Forall₂ (fun file fb => fb.fileHash = file.hash ∧
      Agrees s xorbs fb.entries ∧ ∃ all, file.Lists chunks all ∧ content xorbs fb.entries = all.flatMap data)
      files s.files := by
  obtain ⟨resolved, firsts, related, built⟩ := buildShard_ok blake3 inside
  have sorted := sortBlocks_perm (casBlocks firsts (firstNew [] chunks))
  refine ⟨_, built, ?_, forall₂_map_right_iff.mpr (related.imp fun file r => ?_)⟩
  · simp only [validate, bind_eq_ok]
    refine ⟨(), checkDistinct_ok ((sorted.map _).nodup_iff.mpr (casBlocks_distinct _ _)) 0 fun _ _ => not_mem_nil, (),
      forIndexed_eq_ok.mpr fun i cb there => ?_, forIndexed_eq_ok.mpr fun i fb there => ?_⟩
    · obtain ⟨entry, member, rfl⟩ := mem_map.mp (sorted.mem_iff.mp (mem_of_getElem? there))
      exact (describes_of_entry member).1.checked _
    · obtain ⟨r, member, rfl⟩ := mem_map.mp (mem_of_getElem? there)
      obtain ⟨file, -, -, lists⟩ := forall₂_mem_right related member
      exact uploaded.checkFile_ok lists.mem blake3 r.1 (fun cb => sorted.mem_iff.mp) _
  · rintro ⟨rfl, lists⟩
    exact ⟨rfl, uploaded.agrees lists.mem blake3 r.1 fun cb => sorted.mem_iff.mp, r.2, lists,
      uploaded.content lists.mem blake3 r.1⟩

end

theorem two_chunks_stored : ∃ s, buildShard sampleKeyed [⟨sampleFile, .zero, [0, 1, 1]⟩] twoChunks = .ok s ∧
    ∀ fb ∈ s.files, Agrees s (fun _ => some sampleStored) fb.entries := by
  have uploaded : Uploaded (fun _ => some sampleStored) (fun c => if c.size = 3 then [1, 2, 3] else [4, 5]) twoChunks :=
    ⟨by decide, by decide⟩
  obtain ⟨s, built, -, related⟩ := built_shard_agrees sampleKeyed uploaded [⟨sampleFile, .zero, [0, 1, 1]⟩] (by decide)
  refine ⟨s, built, fun fb member => ?_⟩
  obtain ⟨file, -, -, agrees, -⟩ := forall₂_mem_right related member
  exact agrees

end Xet.Download
