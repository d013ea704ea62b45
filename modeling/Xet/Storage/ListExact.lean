import Mathlib.Algebra.BigOperators.Ring.Finset
import Mathlib.Algebra.Order.BigOperators.Group.Finset
import Xet.Storage.Listing

/-! Listed sizes are exact if and only if the marks, which are 32 bits wide, tell the entries of every
chunk apart and the counts tell which chunks are shared. -/
namespace Xet.Storage
open Wire Attribution List StorageReads UInt64 Nat Segments ResolvedFile Marks FileListEntry

variable {ε : Type} {st : StorageReads ε} {d d' : Delivery} {files : List ResolvedFile} {g : Groups}

def StorageReads.fileTerms (st : StorageReads ε) (name : FileHash) : List ChunkTerm :=
  match st.walkFileIndex with
  | .error _ => []
  | .ok index => ((index.lookup name).map fun hash => (resolveFile (st.shard hash) name).terms).getD []

namespace FileListEntry

def terms (st : StorageReads ε) (x : FileListEntry) : List ChunkTerm := x.fileHashes.flatMap st.fileTerms

def refs (st : StorageReads ε) (x : FileListEntry) : Finset ChunkAt := chunksOf (x.terms st)

def held (st : StorageReads ε) (x : FileListEntry) : Finset ChunkAt := chunksOf (st.satisfiable (x.terms st))

end FileListEntry

/-- The tables of the storage are the ends of the packed chunks of its xorbs. -/
def TrueTables (packed : XorbHash → List Nat) (st : StorageReads ε) : Prop :=
  ∀ hash offs, st.getXorbChunkOffsets hash = .ok offs → offs = Segments.ends 0 (packed hash)

def SizedByDigest (st : StorageReads ε) : Prop :=
  ∀ index, st.walkFileIndex = .ok index → ∀ f ∈ index.entries, ∀ f' ∈ index.entries,
    (st.fileOf f).sha ≠ none → (st.fileOf f).sha = (st.fileOf f').sha → (st.fileOf f).size = (st.fileOf f').size

def bytesOf (packed : XorbHash → List Nat) (chunks : Finset ChunkAt) : Nat := ∑ p ∈ chunks, (packed p.1).getD p.2 0

/-- The sizes of all entries are exact. The sizes are 64-bit words, so the sums are taken as such; they
are the sums themselves if all chunks together have fewer than `2 ^ 64` bytes. -/
structure Exact (packed : XorbHash → List Nat) (st : StorageReads ε) (entries : List FileListEntry) : Prop where
  unique : ∀ x ∈ entries, x.uniqueSize =
    UInt64.ofNat (bytesOf packed (own entries.toFinset (refs st) (held st) x))
  shared : ∀ x ∈ entries, x.sharedSize =
    UInt64.ofNat (bytesOf packed (common entries.toFinset (refs st) (held st) x))
  whole : bytesOf packed (entries.toFinset.biUnion (held st)) < 2 ^ 64 → ∀ x ∈ entries,
    x.uniqueSize.toNat = bytesOf packed (own entries.toFinset (refs st) (held st) x) ∧
    x.sharedSize.toNat = bytesOf packed (common entries.toFinset (refs st) (held st) x)
  total : bytesOf packed (entries.toFinset.biUnion (held st)) < 2 ^ 64 →
    (entries.map fun x => x.uniqueSize.toNat).sum +
        bytesOf packed (entries.toFinset.biUnion (common entries.toFinset (refs st) (held st))) =
      bytesOf packed (entries.toFinset.biUnion (held st))

theorem ofInt_natCast (n : Nat) : ofInt (n : Int) = ofNat n := by
  have value : ((n : Int) % 2 ^ 64).toNat = n % 2 ^ 64 := by omega
  rw [ofInt, value]
  apply UInt64.toNat_inj.mp
  rw [UInt64.toNat_ofNat', UInt64.toNat_ofNat', mod_mod]

theorem packed_eq {packed : XorbHash → List Nat} (tables : TrueTables packed st) {p : ChunkAt} {terms : List ChunkTerm}
    (inside : p ∈ chunksOf (st.satisfiable terms)) :
    p.2 < (packed p.1).length ∧ st.packed p = ((packed p.1).getD p.2 0 : Nat) := by
  obtain ⟨t, there, chunk⟩ := mem_chunksOf.mp inside
  obtain ⟨hash, -, high⟩ := ChunkTerm.mem_chunks.mp chunk
  have long : t.stop ≤ (st.table t.hash).length := of_decide_eq_true (mem_filter.mp there).2
  have table : st.table p.1 = Segments.ends 0 (packed p.1) := by
    rw [← hash] at long
    rw [StorageReads.table] at long ⊢
    cases read : st.getXorbChunkOffsets p.1 with
    | ok offs => exact tables _ _ read
    | error e =>
      rw [read] at long
      exact absurd long (not_le.mpr (zero_lt_of_lt high))
  have bound : p.2 < (packed p.1).length := by
    rw [← hash, table, ends_length] at long
    omega
  have start : startOf (Segments.ends 0 (packed p.1)) p.2 = ((packed p.1).take p.2).sum := by
    rw [startOf]
    cases first : p.2 with
    | zero => simp
    | succ k => rw [if_pos (Nat.succ_pos k), Nat.add_sub_cancel, ends_getD 0 (by omega), Nat.zero_add]
  refine ⟨bound, ?_⟩
  rw [StorageReads.packed, packedAt, table, start, ends_getD 0 bound, sum_take_succ _ _ bound,
    getD_eq_getElem _ _ bound]
  push_cast
  ring

section
variable (known : ∀ f ∈ files, st.fileTerms f.fileHash = f.terms)
include known

section
variable {r : ResolvedFile} {x : FileListEntry} (named : x.fileHashes = d.byHash.sort ((groupOf files r).map fileHash))
include named

theorem mem_terms {t : ChunkTerm} : t ∈ x.terms st ↔ t ∈ termsOf files r := by
  simp only [FileListEntry.terms, named, mem_flatMap, d.byHash.mem_iff, mem_map, termsOf]
  constructor
  · rintro ⟨name, ⟨f, there, rfl⟩, inside⟩
    exact ⟨f, there, known f (mem_groupOf.mp there).1 ▸ inside⟩
  · rintro ⟨f, there, inside⟩
    exact ⟨f.fileHash, ⟨f, there, rfl⟩, (known f (mem_groupOf.mp there).1).symm ▸ inside⟩

theorem refs_eq : x.refs st = chunksOf (termsOf files r) := by
  ext p
  simp only [refs, mem_chunksOf, mem_terms known named]

theorem held_eq : x.held st = chunksOf (st.satisfiable (termsOf files r)) := by
  ext p
  simp only [held, mem_chunksOf, satisfiable, mem_filter, mem_terms known named]

end

variable (distinct : (files.map ResolvedFile.fileHash).Nodup) (grouped : Grouped files g (heads files))
  {F : ResolvedFile → FileListEntry} (named : ∀ r, (F r).fileHashes = d.byHash.sort ((groupOf files r).map fileHash))
  {r : ResolvedFile} (first : r ∈ heads files)
include distinct grouped named first

theorem elsewhere_iff (p : ChunkAt) :
    (∃ y ∈ ((heads files).map F).toFinset, y ≠ F r ∧ p ∈ y.refs st) ↔ Elsewhere files r p := by
  constructor
  · rintro ⟨y, member, other, refers⟩
    obtain ⟨r', first', rfl⟩ := mem_map.mp (mem_toFinset.mp member)
    rw [refs_eq known (named r')] at refers
    obtain ⟨f, there, same, inside⟩ := mem_chunksOf_termsOf.mp refers
    refine ⟨f, there, fun same' => other ?_, inside⟩
    obtain ⟨i, place⟩ := mem_iff_getElem?.mp first
    obtain ⟨j, place'⟩ := mem_iff_getElem?.mp first'
    cases grouped.others place place' (same'.trans same.symm)
    rw [Option.some.inj (place'.symm.trans place)]
  · rintro ⟨f, there, other, inside⟩
    obtain ⟨r', first', same⟩ := grouped.all f there
    refine ⟨F r', mem_toFinset.mpr (mem_map_of_mem first'), fun eq => other ?_, ?_⟩
    · have names := congrArg fileHashes eq
      rw [named, named] at names
      exact (same_of_names distinct (grouped.within r first) names).symm.trans same
    · rw [refs_eq known (named r')]
      exact mem_chunksOf_termsOf.mpr ⟨f, there, same, inside⟩

theorem own_eq : own ((heads files).map F).toFinset (refs st) (held st) (F r) =
    (chunksOf (st.satisfiable (termsOf files r))).filter fun p => decide (Elsewhere files r p) = false := by
  ext p
  rw [mem_own, held_eq known (named r), Finset.mem_filter, decide_eq_false_iff_not,
    ← elsewhere_iff known distinct grouped named first]
  push Not
  rfl

theorem common_eq : common ((heads files).map F).toFinset (refs st) (held st) (F r) =
    (chunksOf (st.satisfiable (termsOf files r))).filter fun p => decide (Elsewhere files r p) = true := by
  ext p
  rw [mem_common, held_eq known (named r), Finset.mem_filter, decide_eq_true_eq,
    elsewhere_iff known distinct grouped named first]

end

theorem bytes_cast {packed : XorbHash → List Nat} (tables : TrueTables packed st) {terms : List ChunkTerm}
    {chunks : Finset ChunkAt} (within : chunks ⊆ chunksOf (st.satisfiable terms)) :
    ∑ p ∈ chunks, st.packed p = (bytesOf packed chunks : Nat) := by
  rw [bytesOf, cast_sum]
  exact Finset.sum_congr rfl fun p member => (packed_eq tables (within member)).2

theorem bytesOf_mono (packed : XorbHash → List Nat) {chunks more : Finset ChunkAt} (within : chunks ⊆ more) :
    bytesOf packed chunks ≤ bytesOf packed more :=
  Finset.sum_le_sum_of_subset within

theorem held_subset_refs (st : StorageReads ε) (x : FileListEntry) : x.held st ⊆ x.refs st := satisfiable_subset _

theorem exact_listed {packed : XorbHash → List Nat} (tables : TrueTables packed st)
    (known : ∀ f ∈ files, st.fileTerms f.fileHash = f.terms) (distinct : (files.map fileHash).Nodup)
    (grouped : Grouped files g (heads files)) : Exact packed st (d.byEntry.sort ((heads files).map (listedEntry d st files))) := by
  have perm := d.byEntry.perm ((heads files).map (listedEntry d st files))
  have owners := toFinset_eq_of_perm _ _ perm
  have nodup : (d.byEntry.sort ((heads files).map (listedEntry d st files))).Nodup := by
    refine perm.nodup_iff.mpr (pairwise_map.mpr (grouped.apart.imp_of_mem fun {a b} _ hb other eq => other ?_))
    exact same_of_names distinct (grouped.within b hb) (congrArg fileHashes eq)
  have unique : ∀ x ∈ d.byEntry.sort ((heads files).map (listedEntry d st files)), x.uniqueSize = ofNat (bytesOf packed
      (own (d.byEntry.sort ((heads files).map (listedEntry d st files))).toFinset (refs st)
        (held st) x)) := by
    intro x member
    obtain ⟨r, first, rfl⟩ := mem_map.mp (perm.mem_iff.mp member)
    rw [owners, own_eq known distinct grouped (fun _ => rfl) first, ← ofInt_natCast,
      ← bytes_cast tables (Finset.filter_subset _ _)]
    rfl
  have shared : ∀ x ∈ d.byEntry.sort ((heads files).map (listedEntry d st files)), x.sharedSize = ofNat (bytesOf packed
      (common (d.byEntry.sort ((heads files).map (listedEntry d st files))).toFinset (refs st)
        (held st) x)) := by
    intro x member
    obtain ⟨r, first, rfl⟩ := mem_map.mp (perm.mem_iff.mp member)
    rw [owners, common_eq known distinct grouped (fun _ => rfl) first, ← ofInt_natCast,
      ← bytes_cast tables (Finset.filter_subset _ _)]
    rfl
  generalize d.byEntry.sort ((heads files).map (listedEntry d st files)) = entries at nodup unique shared
  have part : ∀ x ∈ entries, ∀ chunks, chunks ⊆ x.held st →
      bytesOf packed chunks ≤ bytesOf packed (entries.toFinset.biUnion (held st)) := fun x member chunks within =>
    bytesOf_mono packed (within.trans (Finset.subset_biUnion_of_mem (held st) (mem_toFinset.mpr member)))
  have whole : bytesOf packed (entries.toFinset.biUnion (held st)) < 2 ^ 64 → ∀ x ∈ entries,
      x.uniqueSize.toNat = bytesOf packed (own entries.toFinset (refs st) (held st) x) ∧
      x.sharedSize.toNat = bytesOf packed (common entries.toFinset (refs st) (held st) x) := by
    intro small x member
    constructor
    · rw [unique x member]
      exact toNat_ofNat_of_lt' (lt_of_le_of_lt (part x member _ (Finset.filter_subset _ _)) small)
    · rw [shared x member]
      exact toNat_ofNat_of_lt' (lt_of_le_of_lt (part x member _ (Finset.filter_subset _ _)) small)
  refine ⟨unique, shared, whole, fun small => ?_⟩
  have sizes : (entries.map (·.uniqueSize.toNat)).sum = ∑ x ∈ entries.toFinset,
      bytesOf packed (own entries.toFinset (refs st) (held st) x) := by
    rw [sum_toFinset _ nodup]
    exact congrArg List.sum (map_congr_left fun x member => (whole small x member).1)
  rw [sizes]
  exact sum_own_add_common (held_subset_refs st) fun p => (packed p.1).getD p.2 0

theorem resolveFile_fileHash (sh : Option Shard) (name : FileHash) : (resolveFile sh name).fileHash = name := by
  rw [resolveFile]
  split
  · rfl
  · split <;> rfl

section
variable {index : AList fun _ : FileHash => ShardHash}

theorem fileHashes_nodup (perm : files.Perm (index.entries.map st.fileOf)) : (files.map fileHash).Nodup := by
  have names : (index.entries.map st.fileOf).map fileHash = index.keys := by
    rw [map_map]
    exact map_congr_left fun f _ => resolveFile_fileHash _ _
  exact (perm.map _).nodup_iff.mpr (names ▸ index.keys_nodup)

theorem fileTerms_eq (walked : st.walkFileIndex = .ok index) (perm : files.Perm (index.entries.map st.fileOf))
    {f : ResolvedFile} (member : f ∈ files) : st.fileTerms f.fileHash = f.terms := by
  obtain ⟨⟨name, hash⟩, there, rfl⟩ := mem_map.mp (perm.mem_iff.mp member)
  have found : index.lookup name = some hash := AList.mem_lookup_iff.mpr there
  rw [fileTerms, walked, fileOf, resolveFile_fileHash]
  dsimp only
  rw [found]
  rfl

end

theorem listing_fails {f : ResolvedFile} {t : ChunkTerm} (distinct : files.Nodup) (member : f ∈ files)
    (inside : t ∈ f.terms) (fails : st.Fails t.hash) (entries : List FileListEntry) : listing d st files ≠ .ok entries := by
  intro done
  rw [listing] at done
  obtain ⟨sized, sizes, -⟩ := bind_eq_ok.mp done
  have grouped := grouped_heads distinct
  obtain ⟨r, first, same⟩ := grouped.all f member
  have entry : t ∈ (files.foldl Groups.add .empty).entryTerms.flatten := by
    rw [grouped.terms]
    exact mem_flatten_of_mem (mem_map_of_mem first)
      (mem_flatMap.mpr ⟨f, mem_groupOf.mpr ⟨member, same⟩, inside⟩)
  exact computeStoredSizes_fails entry fails sized sizes

/-- The index, the shards and the tables can be read, or are gone. -/
structure Readable (st : StorageReads ε) (index : AList fun _ : FileHash => ShardHash) : Prop where
  walked : st.walkFileIndex = .ok index
  shards : ∀ f ∈ index.entries, ¬ st.FailsShard f.2
  tables : ∀ f ∈ index.entries, ∀ t ∈ (st.fileOf f).terms, ¬ st.Fails t.hash

theorem readable_of_listed {entries : List FileListEntry} (listed : listFiles d st = .ok entries) :
    ∃ index, Readable st index := by
  cases walked : st.walkFileIndex with
  | error e =>
    rw [listFiles, walked] at listed
    cases listed
  | ok index =>
    have fine : ∀ f ∈ index.entries, ¬ st.FailsShard f.2 := fun f member fails =>
      listFiles_fails walked member fails entries listed
    have perm := delivered_perm st d index
    rw [listFiles_eq walked fine d] at listed
    refine ⟨index, walked, fine, fun f member t inside fails => ?_⟩
    exact listing_fails (fileHashes_nodup perm).of_map (perm.mem_iff.mpr (mem_map_of_mem member)) inside fails entries listed

section
variable {index : AList fun _ : FileHash => ShardHash}

theorem delivered_grouped (d : Delivery) (st : StorageReads ε) (index : AList fun _ : FileHash => ShardHash) :
    Grouped (delivered d st index) ((delivered d st index).foldl Groups.add .empty) (heads (delivered d st index)) :=
  grouped_heads (fileHashes_nodup (delivered_perm st d index)).of_map

theorem Readable.listFiles_eq (readable : Readable st index) (d : Delivery) :
    listFiles d st = .ok (d.byEntry.sort (List.zipWith (chargedEntry d st (delivered d st index))
      (heads (delivered d st index)) (chargedSets (heldSets st (delivered d st index))))) := by
  rw [Xet.Storage.listFiles_eq readable.walked readable.shards d]
  refine listing_ok d (delivered_grouped d st index) fun f member t inside => ?_
  obtain ⟨f', there, rfl⟩ := mem_map.mp ((delivered_perm st d index).mem_iff.mp member)
  exact readable.tables f' there t inside

end

theorem zipWith_eq_map {α β γ : Type} [DecidableEq α] (f : α → β → γ) {xs : List α} {ys : List β} (distinct : xs.Nodup)
    (same : xs.length = ys.length) (y : β) : List.zipWith f xs ys = xs.map fun x => f x (ys.getD (xs.idxOf x) y) := by
  refine ext_getElem (by simp [same]) fun i low high => ?_
  have inside : i < ys.length := by simpa [same] using high
  rw [getElem_zipWith, getElem_map, distinct.idxOf_getElem, getD_eq_getElem _ _ inside]

section
variable {packed : XorbHash → List Nat} {chunks more : Finset ChunkAt}

theorem bytes_split (packed : XorbHash → List Nat) (chunks : Finset ChunkAt) (P : ChunkAt → Prop) [DecidablePred P] :
    bytesOf packed (chunks.filter fun p => decide (P p) = false) +
      bytesOf packed (chunks.filter fun p => decide (P p) = true) = bytesOf packed chunks := by
  have parts := Finset.sum_filter_add_sum_filter_not chunks P fun p => (packed p.1).getD p.2 0
  simp only [decide_eq_true_eq, decide_eq_false_iff_not]
  rw [Nat.add_comm]
  exact parts

theorem eq_of_bytes (within : chunks ⊆ more) (positive : ∀ p ∈ more, 0 < (packed p.1).getD p.2 0)
    (same : bytesOf packed chunks = bytesOf packed more) : chunks = more := by
  refine within.antisymm fun p there => ?_
  by_contra absent
  have parts := Finset.sum_sdiff within (f := fun p : ChunkAt => (packed p.1).getD p.2 0)
  have extra : (packed p.1).getD p.2 0 ≤ bytesOf packed (more \ chunks) :=
    Finset.single_le_sum (f := fun p : ChunkAt => (packed p.1).getD p.2 0) (fun _ _ => Nat.zero_le _)
      (Finset.mem_sdiff.mpr ⟨there, absent⟩)
  have : bytesOf packed (more \ chunks) + bytesOf packed chunks = bytesOf packed more := parts
  have := positive p there
  omega

theorem eq_of_ofNat {a b : Nat} (ha : a < 2 ^ 64) (hb : b < 2 ^ 64) (same : ofNat a = ofNat b) : a = b := by
  rw [← toNat_ofNat_of_lt' ha, same, toNat_ofNat_of_lt' hb]

variable (tables : TrueTables packed st) (positive : ∀ hash, ∀ n ∈ packed hash, 0 < n)
  (known : ∀ f ∈ files, st.fileTerms f.fileHash = f.terms) (distinct : (files.map fileHash).Nodup)
include tables positive known distinct

/-- An exact size leaves no chunk out, and takes no shared chunk for a unique one. -/
theorem charged_of_exact {charged : ResolvedFile → Finset ChunkAt} {r : ResolvedFile} (first : r ∈ heads files)
    (within : charged r ⊆ chunksOf (st.satisfiable (termsOf files r)))
    (small : bytesOf packed (chunksOf (st.satisfiable (termsOf files r))) < 2 ^ 64)
    (exactly : Exact packed st (d.byEntry.sort ((heads files).map fun r => chargedEntry d st files r (charged r)))) :
    charged r = chunksOf (st.satisfiable (termsOf files r)) ∧
    ∀ p ∈ charged r, Elsewhere files r p → 1 < countOf (refSets files) p := by
  have grouped := grouped_heads distinct.of_map
  have perm := d.byEntry.perm ((heads files).map fun r => chargedEntry d st files r (charged r))
  have owners := toFinset_eq_of_perm _ _ perm
  have member := perm.mem_iff.mpr (mem_map_of_mem (f := fun r => chargedEntry d st files r (charged r)) first)
  have pos : ∀ p ∈ chunksOf (st.satisfiable (termsOf files r)), 0 < (packed p.1).getD p.2 0 := by
    intro p held
    have bound := (packed_eq tables held).1
    rw [getD_eq_getElem _ _ bound]
    exact positive _ _ (getElem_mem bound)
  have less : ∀ part, part ⊆ chunksOf (st.satisfiable (termsOf files r)) → bytesOf packed part < 2 ^ 64 :=
    fun part inside => (bytesOf_mono packed inside).trans_lt small
  have sizes : ∀ shared, ofInt (chargedBytes st (refSets files) shared (charged r)) =
      ofNat (bytesOf packed ((charged r).filter fun p => decide (1 < countOf (refSets files) p) = shared)) := fun shared => by
    rw [chargedBytes, bytes_cast tables ((Finset.filter_subset _ _).trans within), ofInt_natCast]
  have unique := (sizes false).symm.trans (exactly.unique _ member)
  have shared := (sizes true).symm.trans (exactly.shared _ member)
  rw [owners, own_eq known distinct grouped (fun _ => rfl) first] at unique
  rw [owners, common_eq known distinct grouped (fun _ => rfl) first] at shared
  have unique := eq_of_ofNat (less _ ((Finset.filter_subset _ _).trans within)) (less _ (Finset.filter_subset _ _)) unique
  have shared := eq_of_ofNat (less _ ((Finset.filter_subset _ _).trans within)) (less _ (Finset.filter_subset _ _)) shared
  have all : charged r = chunksOf (st.satisfiable (termsOf files r)) := by
    refine eq_of_bytes within pos ?_
    rw [← bytes_split packed (charged r) fun p => 1 < countOf (refSets files) p, unique, shared,
      bytes_split packed _ fun p => Elsewhere files r p]
  refine ⟨all, fun p held elsewhere => ?_⟩
  rw [all] at shared held
  -- what is counted more than once is elsewhere, so equal sums make these the same chunks
  have counted := eq_of_bytes (Finset.monotone_filter_right _ fun p held counted => ?_)
    (fun p there => pos p (Finset.mem_filter.mp there).1) shared
  · have there : p ∈ (chunksOf (st.satisfiable (termsOf files r))).filter fun p => decide (Elsewhere files r p) = true :=
      Finset.mem_filter.mpr ⟨held, decide_eq_true elsewhere⟩
    rw [← counted] at there
    exact of_decide_eq_true (Finset.mem_filter.mp there).2
  · exact decide_eq_true ((elsewhere_of_refs grouped first (satisfiable_subset _ held)).mp
      (one_lt_holders (of_decide_eq_true counted)))

theorem toldApart_of_exact (small : ∀ r ∈ heads files, bytesOf packed (chunksOf (st.satisfiable (termsOf files r))) < 2 ^ 64)
    (exactly : Exact packed st (d.byEntry.sort
      (List.zipWith (chargedEntry d st files) (heads files) (chargedSets (heldSets st files))))) : ToldApart st files := by
  have grouped := grouped_heads distinct.of_map
  have same : (heads files).length = (chargedSets (heldSets st files)).length := by
    rw [chargedSets, met_length, heldSets, length_map]
  rw [zipWith_eq_map _ grouped.nodup same ∅] at exactly
  have place : ∀ {i : Nat} {r}, (heads files)[i]? = some r → (heldSets st files)[i]? =
      some (chunksOf (st.satisfiable (termsOf files r))) := fun there => by rw [heldSets, getElem?_map, there]; rfl
  have charged : ∀ {i : Nat} {r}, (heads files)[i]? = some r → (chargedSets (heldSets st files))[i]? =
      some ((chargedSets (heldSets st files)).getD ((heads files).idxOf r) ∅) := by
    intro i r there
    obtain ⟨low, rfl⟩ := List.getElem?_eq_some_iff.mp there
    rw [grouped.nodup.idxOf_getElem, getD_eq_getElem _ _ (same ▸ low)]
    exact getElem?_eq_getElem _
  have each : ∀ {i : Nat} {r}, (heads files)[i]? = some r →
      (chargedSets (heldSets st files)).getD ((heads files).idxOf r) ∅ = chunksOf (st.satisfiable (termsOf files r)) ∧
      ∀ p ∈ chunksOf (st.satisfiable (termsOf files r)), Elsewhere files r p → 1 < countOf (refSets files) p := by
    intro i r there
    have first := mem_of_getElem? there
    obtain ⟨s, here, within⟩ := met_subset (charged there)
    cases (place there).symm.trans here
    obtain ⟨all, counts⟩ := charged_of_exact tables positive known distinct first within (small r first) exactly
    exact ⟨all, all ▸ counts⟩
  constructor
  · refine (met_eq_iff _ _ _ _).mp (ext_getElem? fun i => ?_)
    cases there : (heads files)[i]? with
    | none =>
      have beyond := getElem?_eq_none_iff.mp there
      rw [getElem?_eq_none (by rw [← chargedSets, ← same]; exact beyond),
        getElem?_eq_none (by rw [heldSets, length_map]; exact beyond)]
    | some r => rw [← chargedSets, charged there, (each there).1, place there]
  · intro p held many
    obtain ⟨i, member⟩ := exists_mem_of_ne_nil _ held
    obtain ⟨s, there, inside⟩ := mem_holders.mp member
    rw [heldSets, getElem?_map] at there
    obtain ⟨r, here, rfl⟩ := Option.map_eq_some_iff.mp there
    exact (each here).2 p inside
      ((elsewhere_of_refs grouped (mem_of_getElem? here) (satisfiable_subset _ inside)).mp many)

end

end Xet.Storage
