import Xet.Storage.ListExact

/-! When listings are exact. The marks are the numbers of the entries in 32 bits, so those of fewer
than `2 ^ 32` entries are different; the entry of number `2 ^ 32 - 1` has the mark of no entry. -/
namespace Xet.Storage
open Wire List Int32 Nat Marks

variable {ε : Type}

theorem Precedes.total (a b : FileListEntry) : a.Precedes b ∨ b.Precedes a := by
  by_cases larger : b.originalSize < a.originalSize
  · exact .inl (.inl larger)
  by_cases smaller : a.originalSize < b.originalSize
  · exact .inr (.inl smaller)
  have size : b.originalSize = a.originalSize := UInt64.le_antisymm (UInt64.not_lt.mp smaller) (UInt64.not_lt.mp larger)
  by_cases before : sha256Text a.sha256 < sha256Text b.sha256
  · exact .inl (.inr ⟨size, .inl before⟩)
  by_cases after : sha256Text b.sha256 < sha256Text a.sha256
  · exact .inr (.inr ⟨size.symm, .inl after⟩)
  have text : sha256Text a.sha256 = sha256Text b.sha256 :=
    List.le_antisymm (List.not_lt.mp after) (List.not_lt.mp before)
  rcases List.le_total a.firstHash b.firstHash with le | ge
  · exact .inl (.inr ⟨size, .inr ⟨text, le⟩⟩)
  · exact .inr (.inr ⟨size.symm, .inr ⟨text.symm, ge⟩⟩)

theorem Precedes.trans {a b c : FileListEntry} (first : a.Precedes b) (second : b.Precedes c) : a.Precedes c := by
  rcases first with larger | ⟨size, first⟩
  · rcases second with larger' | ⟨size', -⟩
    · exact .inl (UInt64.lt_trans larger' larger)
    · exact .inl (size' ▸ larger)
  · rcases second with larger' | ⟨size', second⟩
    · exact .inl (size ▸ larger')
    · refine .inr ⟨size'.trans size, ?_⟩
      rcases first with before | ⟨text, le⟩
      · rcases second with before' | ⟨text', -⟩
        · exact .inl (List.lt_trans before before')
        · exact .inl (text' ▸ before)
      · rcases second with before' | ⟨text', le'⟩
        · exact .inl (text ▸ before')
        · exact .inr ⟨text.trans text', List.le_trans le le'⟩

instance (a b : FileListEntry) : Decidable (a.Precedes b) := inferInstanceAs (Decidable (_ ∨ _ ∧ (_ ∨ _ ∧ _)))

def Delivery.plain : Delivery where
  walk := .id _
  shards := .id _
  loads := .id _
  tables := .id _
  usages := .id _
  byHash :=
    { sort := insertionSort fun a b => formatHash a ≤ formatHash b
      perm := perm_insertionSort _
      sorted :=
        have : Std.Total fun a b : FileHash => formatHash a ≤ formatHash b := ⟨fun _ _ => List.le_total _ _⟩
        have : IsTrans FileHash fun a b => formatHash a ≤ formatHash b := ⟨fun _ _ _ => List.le_trans⟩
        pairwise_insertionSort _ }
  byEntry :=
    { sort := insertionSort FileListEntry.Precedes
      perm := perm_insertionSort _
      sorted :=
        have : Std.Total FileListEntry.Precedes := ⟨Precedes.total⟩
        have : IsTrans FileListEntry FileListEntry.Precedes := ⟨fun _ _ _ => Precedes.trans⟩
        pairwise_insertionSort _ }

section
variable {packed : XorbHash → List Nat} {st : StorageReads ε} {index : AList fun _ : FileHash => ShardHash}
  {files : List ResolvedFile}

/-- In every order of delivery the sizes are exact, and every order gives the same list. -/
def ListsExactly (packed : XorbHash → List Nat) (st : StorageReads ε) : Prop :=
  ∀ d entries, listFiles d st = .ok entries →
    Exact packed st entries ∧ (SizedByDigest st → ∀ d', listFiles d' st = .ok entries)

def indexChunks (st : StorageReads ε) (index : AList fun _ : FileHash => ShardHash) : Finset ChunkAt :=
  chunksOf (st.satisfiable (index.entries.flatMap fun f => (st.fileOf f).terms))

theorem held_subset (perm : files.Perm (index.entries.map st.fileOf)) (r : ResolvedFile) :
    chunksOf (st.satisfiable (termsOf files r)) ⊆ indexChunks st index := by
  refine chunksOf_mono (filter_subset _ fun t member => ?_)
  obtain ⟨f, there, inside⟩ := mem_flatMap.mp member
  obtain ⟨f', member, rfl⟩ := mem_map.mp (perm.mem_iff.mp (mem_groupOf.mp there).1)
  exact mem_flatMap.mpr ⟨f', member, inside⟩

theorem lists_of_toldApart (tables : TrueTables packed st)
    (apart : ∀ index, Readable st index → ∀ d, ToldApart st (delivered d st index)) : ListsExactly packed st := by
  intro d entries listed
  obtain ⟨index, readable⟩ := readable_of_listed listed
  have apart := apart index readable
  have perm := delivered_perm st d index
  have distinct := fileHashes_nodup perm
  have grouped := delivered_grouped d st index
  rw [readable.listFiles_eq d, (apart d).entries_eq grouped d] at listed
  cases listed
  constructor
  · exact exact_listed tables (fun f member => fileTerms_eq readable.walked perm member) distinct grouped
  · intro sized d'
    have sizes : ∀ a ∈ delivered d st index, ∀ b ∈ delivered d st index, a.Same b → a.size = b.size := by
      intro a ha b hb group
      rcases group with rfl | ⟨digest, eq⟩
      · rfl
      · obtain ⟨f, there, rfl⟩ := mem_map.mp (perm.mem_iff.mp ha)
        obtain ⟨f', there', rfl⟩ := mem_map.mp (perm.mem_iff.mp hb)
        exact sized index readable.walked f there f' there' digest eq
    rw [readable.listFiles_eq d', (apart d').entries_eq (delivered_grouped d' st index) d',
      listing_same distinct (perm.trans (delivered_perm st d' index).symm) sizes grouped (delivered_grouped d' st index)]

theorem toldApart_of_lists (tables : TrueTables packed st) (readable : Readable st index)
    (positive : ∀ hash, ∀ n ∈ packed hash, 0 < n) (small : bytesOf packed (indexChunks st index) < 2 ^ 64)
    (lists : ListsExactly packed st) (d : Delivery) : ToldApart st (delivered d st index) := by
  have perm := delivered_perm st d index
  exact toldApart_of_exact tables positive (fun f member => fileTerms_eq readable.walked perm member) (fileHashes_nodup perm)
    (fun r _ => (bytesOf_mono packed (held_subset perm r)).trans_lt small) (lists d _ (readable.listFiles_eq d)).1

end

section
variable {files : List ResolvedFile} {st : StorageReads ε}

theorem int32_ofNat_inj {a b : Nat} (ha : a < 2 ^ 32) (hb : b < 2 ^ 32) (same : ofNat a = ofNat b) : a = b := by
  have bits : BitVec.ofNat 32 a = BitVec.ofNat 32 b := congrArg toBitVec same
  have values := congrArg BitVec.toNat bits
  rwa [BitVec.toNat_ofNat, BitVec.toNat_ofNat, mod_eq_of_lt ha, mod_eq_of_lt hb] at values

theorem int32_ofNat_ne_neg_one {a : Nat} (bound : a + 1 < 2 ^ 32) : (-1 : Int32) ≠ ofNat a := by
  intro same
  have : 2 ^ 32 - 1 = a := int32_ofNat_inj (by omega) (by omega) same
  omega

theorem marks_differ {sets : List (Finset ChunkAt)} (few : sets.length < 2 ^ 32) (p : ChunkAt) :
    IsChain (· ≠ ·) ((-1 : Int32) :: (holders 0 sets p).map ofNat) := by
  have below : ∀ i ∈ holders 0 sets p, i < sets.length := by
    intro i member
    obtain ⟨s, there, -⟩ := mem_holders.mp member
    exact (List.getElem?_eq_some_iff.mp there).1
  refine Pairwise.isChain (pairwise_cons.mpr ⟨fun m member => ?_, ?_⟩)
  · obtain ⟨i, there, rfl⟩ := mem_map.mp member
    have := below i there
    exact int32_ofNat_ne_neg_one (by omega)
  · refine pairwise_map.mpr ((holders_sorted 0 sets p).imp_of_mem fun {i j} hi hj less same => ?_)
    have := int32_ofNat_inj ((below i hi).trans few) ((below j hj).trans few) same
    omega

theorem toldApart_of_few (few : (heads files).length < 2 ^ 32) : ToldApart st files where
  marks := marks_differ (by rwa [heldSets, length_map])
  counts p _ many := by
    have refs : (refSets files).length < 2 ^ 32 := by rwa [refSets, length_map]
    have count : changes (-1) ((holders 0 (refSets files) p).map ofNat) = (holders 0 (refSets files) p).length := by
      rw [changes_of_chain (marks_differ refs p), length_map]
    have bound : (holders 0 (refSets files) p).length < 2 ^ 32 := by
      rw [holders_length]
      exact Nat.lt_of_le_of_lt countP_le_length refs
    rw [countOf, count, UInt32.lt_iff_toNat_lt, UInt32.toNat_ofNat_of_lt' bound]
    exact many

theorem toldApart_of_no_terms (none : ∀ f ∈ files, f.terms = []) : ToldApart st files := by
  have blank : ∀ r, termsOf files r = [] := fun r => by
    refine flatMap_eq_nil_iff.mpr fun f member => none f (mem_groupOf.mp member).1
  have unheld : ∀ p, holders 0 (heldSets st files) p = [] := by
    intro p
    refine eq_nil_iff_forall_not_mem.mpr fun i member => ?_
    obtain ⟨s, there, inside⟩ := mem_holders.mp member
    rw [heldSets, getElem?_map] at there
    obtain ⟨r, -, rfl⟩ := Option.map_eq_some_iff.mp there
    rw [blank r] at inside
    exact absurd inside (Finset.notMem_empty p)
  refine ⟨fun p => ?_, fun p held => absurd (unheld p) held⟩
  rw [unheld]
  exact .singleton _

theorem heads_length_le (distinct : files.Nodup) : (heads files).length ≤ files.length := by
  have grouped := grouped_heads distinct
  exact (subperm_of_subset grouped.nodup grouped.within).length_le

theorem heads_of_plain (distinct : files.Nodup) (plain : ∀ f ∈ files, f.sha = none) : heads files = files := by
  induction files using reverseRecOn with
  | nil => rfl
  | append_singleton files rf ih =>
    obtain ⟨front, -, apart⟩ := nodup_append.mp distinct
    have before : heads files = files := ih front fun f member => plain f (mem_append_left _ member)
    have alone : ¬ ∃ r ∈ files, r.Same rf := by
      rintro ⟨r, member, rfl | ⟨digest, -⟩⟩
      · exact apart r member r mem_cons_self rfl
      · exact digest (plain r (mem_append_left _ member))
    rw [heads, foldl_append, ← heads, before, foldl_cons, if_neg alone]
    rfl

end

def numberedName (i : Nat) : FileHash := ⟨leBytes 32 i, leBytes_length 32 i⟩

theorem numberedName_inj {i j : Nat} (hi : i < 256 ^ 32) (hj : j < 256 ^ 32) (same : numberedName i = numberedName j) :
    i = j := by
  have bytes : leBytes 32 i = leBytes 32 j := congrArg Hash.bytes same
  rw [← leNat_leBytes_of_lt hi, bytes, leNat_leBytes_of_lt hj]

section
variable {n : Nat}

def longIndex (bound : n < 256 ^ 32) : AList fun _ : FileHash => ShardHash where
  entries := (range (n + 1)).map fun i => ⟨numberedName i, Hash.zero⟩
  nodupKeys := by
    rw [NodupKeys, keys, map_map]
    refine pairwise_map.mpr (nodup_range.imp_of_mem fun {i j} hi hj other same => other ?_)
    exact numberedName_inj (by have := mem_range.mp hi; omega) (by have := mem_range.mp hj; omega) same

def smallXorb : XorbHash := Hash.ofBytes [1]

def smallTerm : ChunkTerm := ⟨smallXorb, 0, 1, by decide⟩

def lastShard (n : Nat) : Shard :=
  ⟨0, [⟨numberedName n, 0, [⟨smallXorb, 0, 5, 0, 1⟩], [], none⟩], [], none⟩

def longStore (bound : n < 256 ^ 32) : StorageReads ε where
  walkFileIndex := .ok (longIndex bound)
  getShardByHash _ := .ok (lastShard n)
  getXorbChunkOffsets _ := .ok [9]

def lastFile (n : Nat) : ResolvedFile := ⟨numberedName n, none, 5, [smallTerm], false, nofun⟩

def longFiles (n : Nat) : List ResolvedFile := (range n).map (fun i => .lost (numberedName i)) ++ [lastFile n]

theorem resolve_last : resolveFile (some (lastShard n)) (numberedName n) = lastFile n := by
  have block : fileBlock (some (lastShard n)) (numberedName n) =
      some ⟨numberedName n, 0, [⟨smallXorb, 0, 5, 0, 1⟩], [], none⟩ := by
    simp [fileBlock, lastShard]
  rw [resolveFile, block]
  rfl

section
variable (bound : n < 256 ^ 32)
include bound

theorem resolve_lost {i : Nat} (early : i < n) :
    resolveFile (some (lastShard n)) (numberedName i) = .lost (numberedName i) := by
  have other : numberedName n ≠ numberedName i := fun same => by
    have := numberedName_inj bound (by omega) same
    omega
  have block : fileBlock (some (lastShard n)) (numberedName i) = none := by
    simp [fileBlock, lastShard, other]
  rw [resolveFile, block]

theorem longIndex_files : (longIndex bound).entries.map (longStore (ε := ε) bound).fileOf = longFiles n := by
  have front : (range n).map (fun i => resolveFile (some (lastShard n)) (numberedName i)) =
      (range n).map fun i => .lost (numberedName i) :=
    map_congr_left fun i member => resolve_lost bound (mem_range.mp member)
  rw [longIndex, map_map, range_succ, map_append, longFiles, ← front, ← resolve_last]
  rfl

theorem longIndex_shards : (groupByShard (longIndex bound).entries).keys = [Hash.zero] := by
  rw [← perm_singleton, perm_ext_iff_of_nodup (AList.keys_nodup _) (nodup_singleton _)]
  intro hash
  rw [← AList.mem_keys, mem_groupByShard, mem_singleton]
  constructor
  · rintro ⟨f, member, rfl⟩
    obtain ⟨i, -, rfl⟩ := mem_map.mp member
    rfl
  · rintro rfl
    exact ⟨⟨numberedName 0, Hash.zero⟩, mem_map.mpr ⟨0, by simp, rfl⟩, rfl⟩

theorem delivered_longStore : delivered .plain (longStore (ε := ε) bound) (longIndex bound) = longFiles n := by
  have names : ((groupByShard (longIndex bound).entries).lookup Hash.zero).getD [] =
      (longIndex bound).entries.map Sigma.fst := by
    rw [groupByShard_names]
    congr 1
    refine filter_eq_self.mpr fun f member => ?_
    obtain ⟨i, -, rfl⟩ := mem_map.mp member
    rfl
  have walkOrder : ∀ xs, Delivery.plain.walk.order xs = xs := fun _ => rfl
  have shardOrder : ∀ xs, Delivery.plain.shards.order xs = xs := fun _ => rfl
  rw [delivered, walkOrder, shardOrder, longIndex_shards bound, map_singleton, flatten_singleton, shardFiles, names,
    ← longIndex_files (ε := ε) bound, map_map]
  rfl

end

theorem longFiles_sha {f : ResolvedFile} (member : f ∈ longFiles n) : f.sha = none := by
  rcases mem_append.mp member with early | last
  · obtain ⟨i, -, rfl⟩ := mem_map.mp early
    rfl
  · rw [mem_singleton.mp last]
    rfl

section
variable (bound : n < 256 ^ 32)
include bound

theorem longStore_readable : Readable (longStore (ε := ε) bound) (longIndex bound) where
  walked := rfl
  shards _ _ := nofun
  tables _ _ _ _ := nofun

theorem longFiles_nodup : (longFiles n).Nodup := by
  have perm : (longFiles n).Perm ((longIndex bound).entries.map (longStore (ε := Unit) bound).fileOf) :=
    longIndex_files (ε := Unit) bound ▸ .refl _
  exact (fileHashes_nodup perm).of_map

theorem longFiles_heads : heads (longFiles n) = longFiles n :=
  heads_of_plain (longFiles_nodup bound) fun _ member => longFiles_sha member

theorem longStore_tables : TrueTables (fun _ => [9]) (longStore (ε := ε) bound) := by
  intro hash offs read
  cases read
  rfl

theorem last_held : (smallXorb, 0) ∈ chunksOf ((longStore (ε := ε) bound).satisfiable (termsOf (longFiles n) (lastFile n))) := by
  have term : smallTerm ∈ termsOf (longFiles n) (lastFile n) :=
    mem_flatMap.mpr ⟨lastFile n, mem_groupOf.mpr ⟨mem_append_right _ mem_cons_self, .refl _⟩, mem_cons_self⟩
  exact mem_chunksOf.mpr ⟨smallTerm, mem_filter.mpr ⟨term, rfl⟩, by decide⟩

theorem only_last_held {i : Nat} {r : ResolvedFile} (there : (longFiles n)[i]? = some r) {p : ChunkAt}
    (held : p ∈ chunksOf ((longStore (ε := ε) bound).satisfiable (termsOf (longFiles n) r))) :
    i = n ∧ p = (smallXorb, 0) := by
  obtain ⟨t, term, inside⟩ := mem_chunksOf.mp (satisfiable_subset _ held)
  obtain ⟨f, member, own⟩ := mem_flatMap.mp term
  obtain rfl : r = f := by
    rcases (mem_groupOf.mp member).2 with same | ⟨digest, -⟩
    · exact same
    · exact absurd (longFiles_sha (mem_of_getElem? there)) digest
  by_cases early : i < n
  · rw [longFiles, getElem?_append_left (by simpa using early), getElem?_map, getElem?_range early] at there
    cases there
    cases own
  · have size : i < (longFiles n).length := (List.getElem?_eq_some_iff.mp there).1
    obtain rfl : i = n := by
      simp only [longFiles, length_append, length_map, length_range, length_singleton] at size
      omega
    rw [longFiles, getElem?_append_right (by simp), length_map, length_range, Nat.sub_self] at there
    cases there
    cases mem_singleton.mp own
    obtain ⟨hash, low, high⟩ := ChunkTerm.mem_chunks.mp inside
    have first : p.2 = 0 := Nat.lt_one_iff.mp high
    exact ⟨rfl, Prod.ext hash first⟩

theorem longStore_not_toldApart (mark : ofNat n = -1) : ¬ ToldApart (longStore (ε := ε) bound) (longFiles n) := by
  intro apart
  have place : ∀ i r, (longFiles n)[i]? = some r → (heldSets (longStore (ε := ε) bound) (longFiles n))[i]? =
      some (chunksOf ((longStore (ε := ε) bound).satisfiable (termsOf (longFiles n) r))) := fun i r there => by
    rw [heldSets, longFiles_heads bound, getElem?_map, there]
    rfl
  have only : ∀ i ∈ holders 0 (heldSets (longStore (ε := ε) bound) (longFiles n)) (smallXorb, 0), i = n := by
    intro i member
    obtain ⟨s, there, held⟩ := mem_holders.mp member
    rw [heldSets, longFiles_heads bound, getElem?_map] at there
    obtain ⟨r, here, rfl⟩ := Option.map_eq_some_iff.mp there
    exact (only_last_held bound here held).1
  have last : n ∈ holders 0 (heldSets (longStore (ε := ε) bound) (longFiles n)) (smallXorb, 0) :=
    mem_holders.mpr ⟨_, place n (lastFile n) (by rw [longFiles, getElem?_append_right (by simp)]; simp), last_held bound⟩
  have chain := apart.marks (smallXorb, 0)
  cases shape : holders 0 (heldSets (longStore (ε := ε) bound) (longFiles n)) (smallXorb, 0) with
  | nil =>
    rw [shape] at last
    cases last
  | cons i rest =>
    obtain rfl := only i (shape ▸ mem_cons_self)
    rw [shape, map_cons, isChain_cons_cons] at chain
    exact chain.1 mark.symm

theorem longStore_inexact (mark : ofNat n = -1) (d : Delivery) : ¬ Exact (fun _ => [9]) (longStore (ε := ε) bound)
    (d.byEntry.sort (zipWith (chargedEntry d (longStore (ε := ε) bound) (longFiles n)) (heads (longFiles n))
      (chargedSets (heldSets (longStore (ε := ε) bound) (longFiles n))))) := by
  intro exactly
  have perm : (longFiles n).Perm ((longIndex bound).entries.map (longStore (ε := ε) bound).fileOf) :=
    longIndex_files (ε := ε) bound ▸ .refl _
  refine longStore_not_toldApart (ε := ε) bound mark (toldApart_of_exact (longStore_tables bound) (fun _ => by decide)
    (fun f member => fileTerms_eq rfl perm member) (fileHashes_nodup perm) (fun r first => ?_) exactly)
  rw [longFiles_heads bound] at first
  obtain ⟨i, there⟩ := mem_iff_getElem?.mp first
  have within : chunksOf ((longStore (ε := ε) bound).satisfiable (termsOf (longFiles n) r)) ⊆ {(smallXorb, 0)} :=
    fun p held => Finset.mem_singleton.mpr (only_last_held bound there held).2
  refine (bytesOf_mono _ within).trans_lt ?_
  rw [bytesOf, Finset.sum_singleton]
  decide

end

end

def overlapIndex : AList fun _ : FileHash => ShardHash :=
  ⟨[⟨numberedName 2, Hash.zero⟩, ⟨numberedName 1, Hash.zero⟩], show Nodup [numberedName 2, numberedName 1] by decide⟩

def overlapStore : StorageReads Unit where
  walkFileIndex := .ok overlapIndex
  getShardByHash _ := .ok ⟨0, [⟨numberedName 1, 0, [⟨smallXorb, 0, 5, 0, 2⟩, ⟨smallXorb, 0, 5, 0, 1⟩], [], none⟩,
    ⟨numberedName 2, 0, [⟨smallXorb, 0, 5, 1, 3⟩], [], none⟩], [], none⟩
  getXorbChunkOffsets _ := .ok [9, 19, 30]

def overlapEntries : List FileListEntry :=
  [⟨none, [numberedName 1], 10, 9, 10, false⟩, ⟨none, [numberedName 2], 5, 11, 10, false⟩]

/-- More files than marks, and all of them missing. -/
def missingStore (n : Nat) (bound : n < 256 ^ 32) : StorageReads Unit where
  walkFileIndex := .ok (longIndex bound)
  getShardByHash _ := .error .notExist
  getXorbChunkOffsets _ := .error .notExist

/-- The listing of a store is exact, and the same in every order of delivery, if in every order the
marks tell the entries of every chunk apart and the counts tell which chunks are shared; and only
then, where the packed chunks have bytes and their sum is a 64-bit number. -/
theorem listing_exact_iff {packed : XorbHash → List Nat} {st : StorageReads ε} (tables : TrueTables packed st) :
    ((∀ index, Readable st index → ∀ d, ToldApart st (delivered d st index)) → ListsExactly packed st) ∧
    ((∀ hash, ∀ n ∈ packed hash, 0 < n) →
      (∀ index, Readable st index → bytesOf packed (indexChunks st index) < 2 ^ 64) →
      (ListsExactly packed st ↔ ∀ index, Readable st index → ∀ d, ToldApart st (delivered d st index))) :=
  ⟨lists_of_toldApart tables, fun positive small =>
    ⟨fun lists index readable => toldApart_of_lists tables readable positive (small index readable) lists,
      lists_of_toldApart tables⟩⟩

theorem overlap_exact :
    (listFiles .plain overlapStore = .ok overlapEntries ∧ Exact (fun _ => [9, 10, 11]) overlapStore overlapEntries) ∧
    (ListsExactly (fun _ => [9, 10, 11]) overlapStore ↔
      ∀ index, Readable overlapStore index → ∀ d, ToldApart overlapStore (delivered d overlapStore index)) ∧
    ListsExactly (fun _ => []) (missingStore (2 ^ 32) (by decide)) := by
  have listed : listFiles .plain overlapStore = .ok overlapEntries := by rfl
  have tables : TrueTables (fun _ => [9, 10, 11]) overlapStore := by
    intro hash offs read
    cases read
    rfl
  have apart : ∀ index, Readable overlapStore index → ∀ d, ToldApart overlapStore (delivered d overlapStore index) := by
    intro index readable d
    cases readable.walked
    have perm := delivered_perm overlapStore d overlapIndex
    have files : (delivered d overlapStore overlapIndex).length = 2 := perm.length_eq
    have entries := heads_length_le (fileHashes_nodup perm).of_map
    exact toldApart_of_few (by omega)
  have small : ∀ index, Readable overlapStore index →
      bytesOf (fun _ => [9, 10, 11]) (indexChunks overlapStore index) < 2 ^ 64 := by
    intro index readable
    cases readable.walked
    decide
  have blank : TrueTables (fun _ => []) (missingStore (2 ^ 32) (by decide)) := fun _ _ => nofun
  have unmarked : ∀ index, Readable (missingStore (2 ^ 32) (by decide)) index →
      ∀ d, ToldApart (missingStore (2 ^ 32) (by decide)) (delivered d (missingStore (2 ^ 32) (by decide)) index) := by
    intro index readable d
    refine toldApart_of_no_terms fun f member => ?_
    obtain ⟨f', -, rfl⟩ := mem_map.mp ((delivered_perm _ d _).mem_iff.mp member)
    rfl
  have both := listing_exact_iff tables
  exact ⟨⟨listed, (both.1 apart .plain overlapEntries listed).1⟩, both.2 (fun _ => by decide) small,
    (listing_exact_iff blank).1 unmarked⟩

/-- With `2 ^ 32` entries the last one is charged for nothing, though it has a chunk of its own. -/
theorem last_of_many_uncharged : ∃ (st : StorageReads Unit) (entries : List FileListEntry), entries.length = 2 ^ 32 ∧
    listFiles .plain st = .ok entries ∧ TrueTables (fun _ => [9]) st ∧ ¬ Exact (fun _ => [9]) st entries := by
  have mark : ofNat (2 ^ 32 - 1) = -1 := by decide
  have bound : 2 ^ 32 - 1 < 256 ^ 32 := by decide
  have listed := (longStore_readable (ε := Unit) bound).listFiles_eq .plain
  rw [delivered_longStore bound] at listed
  refine ⟨longStore bound, _, ?_, listed, longStore_tables bound, longStore_inexact bound mark .plain⟩
  rw [(Delivery.plain.byEntry.perm _).length_eq, length_zipWith, chargedSets, met_length, heldSets, length_map,
    longFiles_heads bound, Nat.min_self, longFiles, length_append, length_map, length_range, length_singleton]
  omega

end Xet.Storage
