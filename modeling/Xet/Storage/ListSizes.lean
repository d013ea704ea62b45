import Xet.Storage.ListPasses

/-! The sizes of the entries of a listing, from the tables of the storage: they do not depend on the
order in which the tables are loaded. -/
namespace Xet.Storage
open Wire List Marks

variable {ε : Type} (st : StorageReads ε)

namespace StorageReads

def table (hash : XorbHash) : List Nat :=
  match st.getXorbChunkOffsets hash with
  | .ok offs => offs
  | .error _ => []

def Fails (hash : XorbHash) : Prop := ∃ e, st.getXorbChunkOffsets hash = .error (.other e)

def satisfiable (terms : List ChunkTerm) : List ChunkTerm := terms.filter fun t => t.stop ≤ (st.table t.hash).length

def packed (p : ChunkAt) : Int := packedAt (st.table p.1) p.2

end StorageReads

variable {st}

theorem table_insert (offsets : Tables) (hash other : XorbHash) (offs : List Nat) :
    Tables.table (offsets.insert hash offs) other = if other = hash then offs else offsets.table other := by
  rw [Tables.table]
  by_cases here : other = hash
  · subst here
    rw [AList.lookup_insert, if_pos rfl]
    rfl
  · rw [AList.lookup_insert_ne here, if_neg here]
    rfl

theorem loadOffsets_ok {hashes : List XorbHash} {offsets : Tables} (fine : ∀ hash ∈ hashes, ¬ st.Fails hash)
    (sound : ∀ hash, offsets.table hash = [] ∨ offsets.table hash = st.table hash) :
    ∃ tables, loadOffsets st hashes offsets = .ok tables ∧
      ∀ hash, tables.table hash = if hash ∈ hashes then st.table hash else offsets.table hash := by
  induction hashes generalizing offsets with
  | nil => exact ⟨offsets, rfl, fun hash => by simp⟩
  | cons first rest ih =>
    have fineRest : ∀ hash ∈ rest, ¬ st.Fails hash := fun hash member => fine hash (mem_cons_of_mem _ member)
    rw [loadOffsets]
    cases read : st.getXorbChunkOffsets first with
    | ok offs =>
      have here : st.table first = offs := by rw [StorageReads.table, read]
      have sound' : ∀ hash, Tables.table (offsets.insert first offs) hash = [] ∨
          Tables.table (offsets.insert first offs) hash = st.table hash := by
        intro hash
        rw [table_insert]
        split
        · rename_i same
          exact .inr (same ▸ here.symm)
        · exact sound hash
      obtain ⟨tables, loaded, all⟩ := ih fineRest sound'
      refine ⟨tables, loaded, fun hash => ?_⟩
      rw [all, table_insert]
      by_cases same : hash = first
      · subst same
        simp [here]
      · simp [same]
    | error err =>
      cases err with
      | other e => exact absurd ⟨e, read⟩ (fine first mem_cons_self)
      | notExist =>
        have here : st.table first = [] := by rw [StorageReads.table, read]
        obtain ⟨tables, loaded, all⟩ := ih fineRest sound
        refine ⟨tables, loaded, fun hash => ?_⟩
        rw [all]
        by_cases same : hash = first
        · subst same
          have none : offsets.table hash = [] := by
            rcases sound hash with none | same
            · exact none
            · exact same.trans here
          simp [here, none]
        · simp [same]

theorem loadOffsets_fails {hashes : List XorbHash} {hash : XorbHash} (member : hash ∈ hashes) (fails : st.Fails hash)
    (offsets tables : Tables) : loadOffsets st hashes offsets ≠ .ok tables := by
  induction hashes generalizing offsets with
  | nil => cases member
  | cons first rest ih =>
    rw [loadOffsets]
    cases read : st.getXorbChunkOffsets first with
    | ok offs =>
      cases member with
      | head =>
        obtain ⟨e, failed⟩ := fails
        cases read.symm.trans failed
      | tail _ member => exact ih member _
    | error err =>
      cases err with
      | other e => exact nofun
      | notExist =>
        cases member with
        | head =>
          obtain ⟨e, failed⟩ := fails
          cases read.symm.trans failed
        | tail _ member => exact ih member _

/-- The count of a chunk after the first pass: the mark of no entry is -1. -/
def countOf (refs : List (Finset ChunkAt)) (p : ChunkAt) : UInt32 :=
  UInt32.ofNat (changes (-1) ((holders 0 refs p).map Int32.ofNat))

/-- The chunks that the second pass charges the entries for. -/
def chargedSets (held : List (Finset ChunkAt)) : List (Finset ChunkAt) := met Int32.ofNat 0 (fun _ => -1) held

def chargedBytes (st : StorageReads ε) (refs : List (Finset ChunkAt)) (shared : Bool) (chunks : Finset ChunkAt) : Int :=
  ∑ p ∈ chunks with decide (1 < countOf refs p) = shared, st.packed p

def sized (st : StorageReads ε) (refs : List (Finset ChunkAt)) (entry : FileListEntry) (chunks : Finset ChunkAt) :
    FileListEntry :=
  { entry with
    uniqueSize := UInt64.ofInt (chargedBytes st refs false chunks)
    sharedSize := UInt64.ofInt (chargedBytes st refs true chunks) }

section
variable {d : Delivery} {entries : List FileListEntry} {entryTerms : List (List ChunkTerm)}

theorem withSizes_eq {tables : Tables} {usage : Usage} {refs : List (Finset ChunkAt)} {terms : List ChunkTerm}
    (loaded : ∀ t ∈ terms, tables.table t.hash = st.table t.hash) (counts : ∀ p, usage.distinctAt p = countOf refs p)
    {chunks : Finset ChunkAt} (within : chunks ⊆ chunksOf (st.satisfiable terms)) (entry : FileListEntry) :
    withSizes tables usage entry chunks = sized st refs entry chunks := by
  have bytes : ∀ shared, storedBytes tables usage shared chunks = chargedBytes st refs shared chunks := by
    intro shared
    rw [storedBytes, chargedBytes]
    simp only [counts]
    refine Finset.sum_congr rfl fun p member => ?_
    obtain ⟨t, there, inside⟩ := mem_chunksOf.mp (within (Finset.mem_filter.mp member).1)
    have known := loaded t (mem_of_mem_filter there)
    rw [Tables.packed, StorageReads.packed, (ChunkTerm.mem_chunks.mp inside).1, known]
  rw [withSizes, sized, bytes, bytes]

theorem computeStoredSizes_ok (same : entries.length = entryTerms.length)
    (fine : ∀ t ∈ entryTerms.flatten, ¬ st.Fails t.hash) :
    computeStoredSizes d st entries entryTerms = .ok (List.zipWith (sized st (entryTerms.map chunksOf)) entries
      (chargedSets (entryTerms.map fun terms => chunksOf (st.satisfiable terms)))) := by
  have keys : ∀ hash, hash ∈ (countUsage 0 entryTerms ∅).keys ↔ ∃ t ∈ entryTerms.flatten, t.hash = hash := fun hash => by
    have := mem_countUsage entryTerms 0 ∅ hash
    simpa [AList.mem_keys] using this
  have fineKeys : ∀ hash ∈ d.tables.order (countUsage 0 entryTerms ∅).keys, ¬ st.Fails hash := by
    intro hash member
    obtain ⟨t, inside, rfl⟩ := (keys hash).mp ((d.tables.perm _).mem_iff.mp member)
    exact fine t inside
  have blank : ∀ hash, Tables.table ∅ hash = [] ∨ Tables.table ∅ hash = st.table hash := fun _ => .inl rfl
  obtain ⟨tables, loaded, all⟩ := loadOffsets_ok fineKeys blank
  have known : ∀ terms ∈ entryTerms, ∀ t ∈ terms, tables.table t.hash = st.table t.hash := fun terms entry t member => by
    rw [all, if_pos ((d.tables.perm _).mem_iff.mpr ((keys _).mpr ⟨t, mem_flatten_of_mem entry member, rfl⟩))]
  have satisfiable : (entryTerms.map fun terms => chunksOf (tables.satisfiable terms)) =
      entryTerms.map fun terms => chunksOf (st.satisfiable terms) :=
    map_congr_left fun terms entry => congrArg chunksOf (filter_congr fun t member => by rw [known terms entry t member])
  obtain ⟨last, distinct, room⟩ := resetUsage_spec (d.usages.order (countUsage 0 entryTerms ∅).keys)
    (countUsage 0 entryTerms ∅)
  have unmarked : (resetUsage (countUsage 0 entryTerms ∅)
      (d.usages.order (countUsage 0 entryTerms ∅).keys)).lastAt = fun _ => -1 := by
    funext p
    rw [last]
    split
    · rfl
    · rename_i absent
      exact lastAt_of_notMem fun there => absent ((d.usages.perm _).mem_iff.mpr (AList.mem_keys.mp there))
  have counts : ∀ p, (resetUsage (countUsage 0 entryTerms ∅)
      (d.usages.order (countUsage 0 entryTerms ∅).keys)).distinctAt p = countOf (entryTerms.map chunksOf) p := by
    intro p
    rw [distinct, countUsage_distinct]
    exact UInt32.zero_add _
  rw [computeStoredSizes, loaded, ok_bind, sizeEntries_ok entries entryTerms 0 same
    fun terms member t inside => by rw [room]; exact countUsage_room member inside 0 ∅]
  rw [unmarked, satisfiable]
  refine congrArg Except.ok (ext_getElem? fun i => ?_)
  rw [getElem?_zipWith, getElem?_zipWith, ← chargedSets]
  cases charged : (chargedSets (entryTerms.map fun terms => chunksOf (st.satisfiable terms)))[i]? with
  | none => cases entries[i]? <;> rfl
  | some chunks =>
    obtain ⟨s, there, within⟩ := met_subset charged
    rw [getElem?_map] at there
    obtain ⟨terms, place, rfl⟩ := Option.map_eq_some_iff.mp there
    cases entries[i]? with
    | none => rfl
    | some entry => exact congrArg some (withSizes_eq (known terms (mem_of_getElem? place)) counts within entry)

theorem computeStoredSizes_fails {t : ChunkTerm} (member : t ∈ entryTerms.flatten) (fails : st.Fails t.hash)
    (result : List FileListEntry) : computeStoredSizes d st entries entryTerms ≠ .ok result := by
  intro done
  rw [computeStoredSizes] at done
  obtain ⟨tables, loaded, -⟩ := bind_eq_ok.mp done
  have key := (mem_countUsage entryTerms 0 ∅ t.hash).mpr (.inr ⟨t, member, rfl⟩)
  exact loadOffsets_fails ((d.tables.perm _).mem_iff.mpr (AList.mem_keys.mp key)) fails _ _ loaded

end

end Xet.Storage
