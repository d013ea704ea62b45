import Xet.Lib.Attribution
import Xet.Storage.ListOrder

/-! What a listing says: the sizes are those of the chunks that an entry has for itself and that it
has in common with others, in every order of delivery. -/
namespace Xet.Storage
open Wire List Groups ResolvedFile Marks

variable {ε : Type} {st : StorageReads ε} {d d' : Delivery} {files files' firsts firsts' : List ResolvedFile} {g g' : Groups}

def Elsewhere (files : List ResolvedFile) (r : ResolvedFile) (p : ChunkAt) : Prop :=
  ∃ f ∈ files, ¬ r.Same f ∧ p ∈ chunksOf f.terms

instance (files : List ResolvedFile) (r : ResolvedFile) (p : ChunkAt) : Decidable (Elsewhere files r p) :=
  inferInstanceAs (Decidable (∃ f ∈ files, _ ∧ _))

def groupBytes (st : StorageReads ε) (files : List ResolvedFile) (shared : Bool) (r : ResolvedFile) : Int :=
  ∑ p ∈ chunksOf (st.satisfiable (termsOf files r)) with decide (Elsewhere files r p) = shared, st.packed p

def listedEntry (d : Delivery) (st : StorageReads ε) (files : List ResolvedFile) (r : ResolvedFile) : FileListEntry :=
  ⟨r.sha, d.byHash.sort ((groupOf files r).map ResolvedFile.fileHash), r.size,
    UInt64.ofInt (groupBytes st files false r), UInt64.ofInt (groupBytes st files true r), r.missing⟩

variable {r : ResolvedFile}

theorem mem_groupOf {f : ResolvedFile} : f ∈ groupOf files r ↔ f ∈ files ∧ r.Same f := by
  rw [groupOf, mem_filter, decide_eq_true_eq]

theorem mem_chunksOf_termsOf {p : ChunkAt} :
    p ∈ chunksOf (termsOf files r) ↔ ∃ f ∈ files, r.Same f ∧ p ∈ chunksOf f.terms := by
  simp only [mem_chunksOf, termsOf, mem_flatMap, mem_groupOf]
  constructor
  · rintro ⟨t, ⟨f, ⟨member, same⟩, there⟩, inside⟩
    exact ⟨f, member, same, t, there, inside⟩
  · rintro ⟨f, member, same, t, there, inside⟩
    exact ⟨t, ⟨f, ⟨member, same⟩, there⟩, inside⟩

theorem chunksOf_mono {terms terms' : List ChunkTerm} (within : terms ⊆ terms') : chunksOf terms ⊆ chunksOf terms' := by
  intro p member
  obtain ⟨t, there, inside⟩ := mem_chunksOf.mp member
  exact mem_chunksOf.mpr ⟨t, within there, inside⟩

theorem satisfiable_subset (terms : List ChunkTerm) : chunksOf (st.satisfiable terms) ⊆ chunksOf terms :=
  chunksOf_mono fun _ member => mem_of_mem_filter member

theorem Grouped.nodup (grouped : Grouped files g firsts) : firsts.Nodup := by
  refine grouped.apart.imp ?_
  rintro a b other rfl
  exact other (.refl a)

theorem one_lt_countP {α : Type} [DecidableEq α] {p : α → Prop} [DecidablePred p] {xs : List α} (distinct : xs.Nodup) {x : α}
    (member : x ∈ xs) (here : p x) : 1 < xs.countP (fun y => p y) ↔ ∃ y ∈ xs, y ≠ x ∧ p y := by
  have erased := countP_erase (fun y => decide (p y)) xs x
  have pos : 0 < xs.countP (fun y => p y) := countP_pos_iff.mpr ⟨x, member, by simpa using here⟩
  rw [if_pos ⟨member, by simpa using here⟩] at erased
  rw [show 1 < xs.countP (fun y => p y) ↔ 0 < (xs.erase x).countP (fun y => p y) by omega, countP_pos_iff]
  simp only [distinct.mem_erase_iff, decide_eq_true_eq]
  exact ⟨fun ⟨y, ⟨other, there⟩, holds⟩ => ⟨y, there, other, holds⟩, fun ⟨y, there, other, holds⟩ => ⟨y, ⟨other, there⟩, holds⟩⟩

/-- The chunks that the entries refer to, and those that the tables satisfy, in the order of the
entries. -/
def refSets (files : List ResolvedFile) : List (Finset ChunkAt) :=
  (heads files).map fun r => chunksOf (termsOf files r)

def heldSets (st : StorageReads ε) (files : List ResolvedFile) : List (Finset ChunkAt) :=
  (heads files).map fun r => chunksOf (st.satisfiable (termsOf files r))

def chargedEntry (d : Delivery) (st : StorageReads ε) (files : List ResolvedFile) (r : ResolvedFile)
    (chunks : Finset ChunkAt) : FileListEntry :=
  ⟨r.sha, d.byHash.sort ((groupOf files r).map ResolvedFile.fileHash), r.size,
    UInt64.ofInt (chargedBytes st (refSets files) false chunks), UInt64.ofInt (chargedBytes st (refSets files) true chunks),
    r.missing⟩

theorem listing_ok (d : Delivery) (grouped : Grouped files (files.foldl add .empty) (heads files))
    (fine : ∀ f ∈ files, ∀ t ∈ f.terms, ¬ st.Fails t.hash) :
    listing d st files = .ok (d.byEntry.sort
      (zipWith (chargedEntry d st files) (heads files) (chargedSets (heldSets st files)))) := by
  have fineTerms : ∀ t ∈ (files.foldl add .empty).entryTerms.flatten, ¬ st.Fails t.hash := by
    intro t member
    rw [grouped.terms] at member
    obtain ⟨terms, entry, inside⟩ := mem_flatten.mp member
    obtain ⟨r, -, rfl⟩ := mem_map.mp entry
    obtain ⟨f, there, inside⟩ := mem_flatMap.mp inside
    exact fine f (mem_groupOf.mp there).1 t inside
  have parallel : (files.foldl add .empty).entries.length = (files.foldl add .empty).entryTerms.length := by
    rw [grouped.entries, grouped.terms]
    simp
  have sizes := computeStoredSizes_ok (d := d) parallel fineTerms
  rw [listing, sizes, ok_bind, grouped.entries, grouped.terms, map_map, map_map, zipWith_map_left, map_zipWith]
  rfl

/-- Successive entries with a chunk have different marks, the first of them not that of no entry, and
a chunk that more than one entry refers to is counted so. -/
structure ToldApart (st : StorageReads ε) (files : List ResolvedFile) : Prop where
  marks : ∀ p, IsChain (· ≠ ·) ((-1 : Int32) :: (holders 0 (heldSets st files) p).map Int32.ofNat)
  counts : ∀ p, holders 0 (heldSets st files) p ≠ [] → 1 < (holders 0 (refSets files) p).length →
    1 < countOf (refSets files) p

theorem one_lt_holders {refs : List (Finset ChunkAt)} {p : ChunkAt} (counted : 1 < countOf refs p) :
    1 < (holders 0 refs p).length := by
  rw [countOf, UInt32.lt_iff_toNat_lt, UInt32.toNat_ofNat'] at counted
  have := Nat.mod_le (changes (-1) ((holders 0 refs p).map Int32.ofNat)) (2 ^ 32)
  have := changes_le (-1) ((holders 0 refs p).map Int32.ofNat)
  rw [length_map] at this
  exact lt_of_lt_of_le counted (by omega)

theorem holders_of_held (first : r ∈ heads files) {p : ChunkAt}
    (held : p ∈ chunksOf (st.satisfiable (termsOf files r))) : holders 0 (heldSets st files) p ≠ [] := by
  obtain ⟨i, there⟩ := mem_iff_getElem?.mp first
  exact ne_nil_of_mem (mem_holders.mpr ⟨_, by rw [heldSets, getElem?_map, there]; rfl, held⟩)

section
variable (grouped : Grouped files g (heads files)) (first : r ∈ heads files) {p : ChunkAt}
include grouped first

theorem elsewhere_of_refs (inside : p ∈ chunksOf (termsOf files r)) :
    1 < (holders 0 (refSets files) p).length ↔ Elsewhere files r p := by
  have count : (holders 0 (refSets files) p).length = (heads files).countP fun f => p ∈ chunksOf (termsOf files f) := by
    rw [holders_length, refSets, countP_map]
    rfl
  rw [count, one_lt_countP (p := fun f => p ∈ chunksOf (termsOf files f)) grouped.nodup first inside]
  constructor
  · rintro ⟨r', first', other, there⟩
    obtain ⟨f, member, same, refers⟩ := mem_chunksOf_termsOf.mp there
    refine ⟨f, member, fun same' => other ?_, refers⟩
    obtain ⟨i, at'⟩ := mem_iff_getElem?.mp first
    obtain ⟨j, at''⟩ := mem_iff_getElem?.mp first'
    have := grouped.others at' at'' (same'.trans same.symm)
    subst this
    exact Option.some.inj (at''.symm.trans at')
  · rintro ⟨f, member, other, refers⟩
    obtain ⟨r', first', same⟩ := grouped.all f member
    exact ⟨r', first', fun eq => other (eq ▸ same), mem_chunksOf_termsOf.mpr ⟨f, member, same, refers⟩⟩

theorem ToldApart.counted_iff (apart : ToldApart st files) (held : p ∈ chunksOf (st.satisfiable (termsOf files r))) :
    1 < countOf (refSets files) p ↔ Elsewhere files r p := by
  rw [← elsewhere_of_refs grouped first (satisfiable_subset _ held)]
  exact ⟨one_lt_holders, apart.counts p (holders_of_held first held)⟩

theorem ToldApart.entry_eq (apart : ToldApart st files) (d : Delivery) :
    chargedEntry d st files r (chunksOf (st.satisfiable (termsOf files r))) = listedEntry d st files r := by
  have bytes : ∀ shared, chargedBytes st (refSets files) shared (chunksOf (st.satisfiable (termsOf files r))) =
      groupBytes st files shared r := by
    intro shared
    rw [chargedBytes, groupBytes]
    refine Finset.sum_congr (Finset.filter_congr fun p held => ?_) fun _ _ => rfl
    simp only [apart.counted_iff grouped first held]
  rw [chargedEntry, bytes, bytes, listedEntry]

end

theorem ToldApart.entries_eq (grouped : Grouped files g (heads files)) (apart : ToldApart st files) (d : Delivery) :
    zipWith (chargedEntry d st files) (heads files) (chargedSets (heldSets st files)) =
      (heads files).map (listedEntry d st files) := by
  rw [chargedSets, (met_eq_iff _ _ _ _).mpr apart.marks, heldSets, zipWith_map_right, zipWith_self]
  exact map_congr_left fun r first => apart.entry_eq grouped first d

theorem sort_hashes (d d' : Delivery) {names names' : List FileHash} (perm : names.Perm names') :
    d.byHash.sort names = d'.byHash.sort names' := by
  refine Perm.eq_of_pairwise ?_ (d.byHash.sorted names) (d'.byHash.sorted names')
    (((d.byHash.perm names).trans perm).trans (d'.byHash.perm names').symm)
  intro a b _ _ le ge
  exact formatHash_inj (List.le_antisymm le ge)

theorem listedEntry_perm (d d' : Delivery) (perm : files.Perm files') (r : ResolvedFile) :
    listedEntry d st files r = listedEntry d' st files' r := by
  have group : (groupOf files r).Perm (groupOf files' r) := perm.filter _
  have elsewhere : ∀ p, Elsewhere files r p ↔ Elsewhere files' r p := fun p => by
    simp only [Elsewhere, perm.mem_iff]
  have chunks : chunksOf (st.satisfiable (termsOf files r)) = chunksOf (st.satisfiable (termsOf files' r)) := by
    ext p
    have same : (st.satisfiable (termsOf files r)).Perm (st.satisfiable (termsOf files' r)) :=
      (group.flatMap_right _).filter _
    simp only [mem_chunksOf, same.mem_iff]
  have bytes : ∀ shared, groupBytes st files shared r = groupBytes st files' shared r := fun shared => by
    rw [groupBytes, groupBytes, chunks]
    simp only [elsewhere]
  rw [listedEntry, listedEntry, sort_hashes d d' (group.map _), bytes, bytes]

theorem Grouped.map_perm (grouped : Grouped files g firsts) (grouped' : Grouped files' g' firsts')
    (perm : files.Perm files') {β : Type} (f : ResolvedFile → β)
    (same : ∀ a ∈ files, ∀ b ∈ files, f a = f b ↔ a.Same b) : (firsts.map f).Perm (firsts'.map f) := by
  have distinct : ∀ {files g firsts}, Grouped files g firsts → (∀ a ∈ files, ∀ b ∈ files, f a = f b ↔ a.Same b) →
      (firsts.map f).Nodup := by
    intro files g firsts grouped same
    refine pairwise_map.mpr (grouped.apart.imp_of_mem fun {a b} ha hb other eq => other ?_)
    exact (same a (grouped.within a ha) b (grouped.within b hb)).mp eq
  have members : ∀ {files g firsts}, Grouped files g firsts → (∀ a ∈ files, ∀ b ∈ files, f a = f b ↔ a.Same b) →
      ∀ x, x ∈ firsts.map f ↔ ∃ a ∈ files, f a = x := by
    intro files g firsts grouped same x
    rw [mem_map]
    constructor
    · rintro ⟨r, first, rfl⟩
      exact ⟨r, grouped.within r first, rfl⟩
    · rintro ⟨a, member, rfl⟩
      obtain ⟨r, first, group⟩ := grouped.all a member
      exact ⟨r, first, (same r (grouped.within r first) a member).mpr group⟩
  have same' : ∀ a ∈ files', ∀ b ∈ files', f a = f b ↔ a.Same b := fun a ha b hb =>
    same a (perm.mem_iff.mpr ha) b (perm.mem_iff.mpr hb)
  rw [perm_ext_iff_of_nodup (distinct grouped same) (distinct grouped' same')]
  intro x
  rw [members grouped same, members grouped' same']
  simp only [perm.mem_iff]

theorem listedEntry_head (d : Delivery) (st : StorageReads ε) (member : r ∈ files) : ∃ f ∈ files, r.Same f ∧
    (listedEntry d st files r).firstHash = formatHash f.fileHash := by
  have mine : r.fileHash ∈ (listedEntry d st files r).fileHashes :=
    d.byHash.mem_iff.mpr (mem_map_of_mem (mem_groupOf.mpr ⟨member, .refl r⟩))
  cases names : (listedEntry d st files r).fileHashes with
  | nil => exact absurd (names ▸ mine) not_mem_nil
  | cons name rest =>
    have first : name ∈ d.byHash.sort ((groupOf files r).map fileHash) := by
      change name ∈ (listedEntry d st files r).fileHashes
      rw [names]
      exact mem_cons_self
    obtain ⟨f, there, rfl⟩ := mem_map.mp (d.byHash.mem_iff.mp first)
    obtain ⟨there, same⟩ := mem_groupOf.mp there
    exact ⟨f, there, same, by rw [FileListEntry.firstHash, names]; rfl⟩

section
variable (distinct : (files.map ResolvedFile.fileHash).Nodup)
include distinct

theorem eq_of_fileHash {a b : ResolvedFile} (ha : a ∈ files) (hb : b ∈ files) (same : a.fileHash = b.fileHash) : a = b :=
  inj_on_of_nodup_map distinct ha hb same

theorem same_of_names {a b : ResolvedFile} (hb : b ∈ files)
    (eq : d.byHash.sort ((groupOf files a).map fileHash) = d.byHash.sort ((groupOf files b).map fileHash)) :
    a.Same b := by
  have mine : b.fileHash ∈ d.byHash.sort ((groupOf files b).map fileHash) :=
    d.byHash.mem_iff.mpr (mem_map_of_mem (mem_groupOf.mpr ⟨hb, .refl b⟩))
  rw [← eq] at mine
  obtain ⟨f, there, name⟩ := mem_map.mp (d.byHash.mem_iff.mp mine)
  obtain ⟨there, same⟩ := mem_groupOf.mp there
  exact eq_of_fileHash distinct there hb name ▸ same

theorem listedEntry_eq_iff (sizes : ∀ a ∈ files, ∀ b ∈ files, a.Same b → a.size = b.size) {a b : ResolvedFile}
    (ha : a ∈ files) (hb : b ∈ files) : listedEntry d st files a = listedEntry d st files b ↔ a.Same b := by
  refine ⟨fun eq => same_of_names distinct hb (congrArg FileListEntry.fileHashes eq), fun same => ?_⟩
  have alike : ∀ f, a.Same f ↔ b.Same f := fun f => ⟨same.symm.trans, same.trans⟩
  have group : groupOf files a = groupOf files b := by simp only [groupOf, alike]
  have elsewhere : ∀ p, Elsewhere files a p ↔ Elsewhere files b p := fun p => by simp only [Elsewhere, alike]
  have bytes : ∀ shared, groupBytes st files shared a = groupBytes st files shared b := fun shared => by
    simp only [groupBytes, termsOf, group, elsewhere]
  rw [listedEntry, listedEntry, group, bytes, bytes, same.sha_eq, same.missing_eq, sizes a ha b hb same]

theorem listedEntry_antisymm (sizes : ∀ a ∈ files, ∀ b ∈ files, a.Same b → a.size = b.size) {a b : ResolvedFile}
    (ha : a ∈ files) (hb : b ∈ files) (le : (listedEntry d st files a).Precedes (listedEntry d st files b))
    (ge : (listedEntry d st files b).Precedes (listedEntry d st files a)) :
    listedEntry d st files a = listedEntry d st files b := by
  have heads : (listedEntry d st files a).firstHash = (listedEntry d st files b).firstHash := by
    rcases le with larger | ⟨size, first | ⟨text, le⟩⟩
    · rcases ge with larger' | ⟨size', -⟩
      · exact absurd larger' (UInt64.lt_asymm larger)
      · exact absurd (size' ▸ larger) (UInt64.lt_irrefl _)
    · rcases ge with larger' | ⟨-, first' | ⟨text', -⟩⟩
      · exact absurd (size ▸ larger') (UInt64.lt_irrefl _)
      · exact absurd (List.lt_trans first first') (List.lt_irrefl _)
      · exact absurd (text' ▸ first) (List.lt_irrefl _)
    · rcases ge with larger' | ⟨-, first' | ⟨-, ge⟩⟩
      · exact absurd (size ▸ larger') (UInt64.lt_irrefl _)
      · exact absurd (text ▸ first') (List.lt_irrefl _)
      · exact List.le_antisymm le ge
  obtain ⟨f, hf, same, head⟩ := listedEntry_head d st ha
  obtain ⟨f', hf', same', head'⟩ := listedEntry_head d st hb
  have name := formatHash_inj (head.symm.trans (heads.trans head'))
  cases eq_of_fileHash distinct hf hf' name
  exact (listedEntry_eq_iff distinct sizes ha hb).mpr (same.trans same'.symm)

end

theorem listing_same (distinct : (files.map fileHash).Nodup) (perm : files.Perm files')
    (sizes : ∀ a ∈ files, ∀ b ∈ files, a.Same b → a.size = b.size)
    (grouped : Grouped files g firsts) (grouped' : Grouped files' g' firsts') :
    d.byEntry.sort (firsts.map (listedEntry d st files)) = d'.byEntry.sort (firsts'.map (listedEntry d' st files')) := by
  have same : firsts'.map (listedEntry d' st files') = firsts'.map (listedEntry d st files) :=
    map_congr_left fun r _ => (listedEntry_perm d d' perm r).symm
  have entries := grouped.map_perm grouped' perm (listedEntry d st files) fun a ha b hb =>
    listedEntry_eq_iff distinct sizes ha hb
  rw [same]
  refine Perm.eq_of_pairwise ?_ (d.byEntry.sorted _) (d'.byEntry.sorted _)
    (((d.byEntry.perm _).trans entries).trans (d'.byEntry.perm _).symm)
  intro x y hx hy le ge
  obtain ⟨a, first, rfl⟩ := mem_map.mp (d.byEntry.mem_iff.mp hx)
  obtain ⟨b, first', rfl⟩ := mem_map.mp (d'.byEntry.mem_iff.mp hy)
  exact listedEntry_antisymm distinct sizes (grouped.within a first) (perm.mem_iff.mpr (grouped'.within b first')) le ge

end Xet.Storage
