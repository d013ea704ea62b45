import Xet.Storage.GC

/-! Referential integrity, and what each single write or delete needs in order to keep it. -/
namespace Xet.Storage
open Wire Calls Shard List Store

def Store.shard (st : Store) (h : ShardHash) : Option Shard :=
  (st.object .shards h).bind fun obj => (decodeStoredShard obj.data).toOption

def indexNames (s : Shard) : Index → List Hash
  | .chunks => s.globalDedupEligibleChunks.map (·.hash)
  | .sha256 => s.files.filterMap (·.metadataExt)
  | .files => s.files.map (·.fileHash)

theorem putShardIndexes_eq (s : Shard) (shard : ShardHash) : putShardIndexes s shard = (do
    putEntries .chunks shard (indexNames s .chunks)
    putEntries .sha256 shard (indexNames s .sha256)
    putEntries .files shard (indexNames s .files)) := rfl

/-- Entries point at stored shards that hold what they name, and shards reference stored xorbs. -/
structure Integrity (st : Store) : Prop where
  files : ∀ name h, st.entry .files name = some h →
    ∃ s, st.shard h = some s ∧ ∃ fb ∈ s.files, fb.fileHash = name
  sha256 : ∀ name h, st.entry .sha256 name = some h →
    ∃ s, st.shard h = some s ∧ ∃ fb ∈ s.files, fb.metadataExt = some name
  chunks : ∀ name h, st.entry .chunks name = some h → ∃ s, st.shard h = some s ∧ s.ContainsChunk name
  xorbs : ∀ h s, st.shard h = some s → ∀ x ∈ shardXorbs s, (st.object .xorbs x).isSome

/-- The content of the file can be read, and it has the hash and the digest of the block. -/
def Reconstructable (env : Env) (lastWriter : Bool) (st : Store) (fb : FileBlock) : Prop :=
  ∃ digest, fb.metadataExt = some digest ∧
    (Prog.run (perform lastWriter) (computeFileHashes env fb) st).1 = .ok (digest, fb.fileHash)

structure Sound (env : Env) (lastWriter : Bool) (st : Store) : Prop where
  entries : ∀ i name h, st.entry i name = some h → ∃ s, st.shard h = some s ∧ name ∈ indexNames s i
  readable : ∀ h obj, st.object .shards h = some obj → (st.shard h).isSome
  xorbs : ∀ h s, st.shard h = some s → ∀ x ∈ shardXorbs s, (st.object .xorbs x).isSome
  content : ∀ h s, st.shard h = some s → ∀ fb ∈ s.files, Reconstructable env lastWriter st fb
  valid : ∀ x obj, st.object .xorbs x = some obj →
    ∃ ends, Xorb.validate env.blake3 env.lz4 obj.data x = .ok (ends, [])

section
variable {env : Env} {lastWriter : Bool} {st : Store}

theorem entry_xorb_mem {s : Shard} {fb : FileBlock} (file : fb ∈ s.files) {e : FileDataSequenceEntry}
    (entry : e ∈ fb.entries) : e.casHash ∈ shardXorbs s :=
  mem_append_left _ (mem_flatMap.mpr ⟨fb, file, mem_map_of_mem entry⟩)

theorem Reconstructable.congr {fb : FileBlock} {st' : Store}
    (h : Reconstructable env lastWriter st fb)
    (agree : ∀ e ∈ fb.entries, st.object .xorbs e.casHash = st'.object .xorbs e.casHash) :
    Reconstructable env lastWriter st' fb := by
  obtain ⟨digest, carried, found⟩ := h
  exact ⟨digest, carried, (computeFileHashes_congr agree).symm.trans found⟩

theorem Sound.empty : Sound env lastWriter empty where
  entries := fun _ _ _ h => nomatch h
  readable := fun _ _ h => nomatch h
  xorbs := fun _ _ h => nomatch h
  content := fun _ _ h => nomatch h
  valid := fun _ _ h => nomatch h

theorem Sound.integrity (inv : Sound env lastWriter st) : Integrity st where
  files := by
    intro name h found
    obtain ⟨s, stored, member⟩ := inv.entries .files name h found
    exact ⟨s, stored, mem_map.mp member⟩
  sha256 := by
    intro name h found
    obtain ⟨s, stored, member⟩ := inv.entries .sha256 name h found
    exact ⟨s, stored, mem_filterMap.mp member⟩
  chunks := by
    intro name h found
    obtain ⟨s, stored, member⟩ := inv.entries .chunks name h found
    obtain ⟨e, eligible, rfl⟩ := mem_map.mp member
    exact ⟨s, stored, eligible_contained eligible⟩
  xorbs := inv.xorbs

theorem Sound.eraseEntry (inv : Sound env lastWriter st) (i : Index) (name : Hash) :
    Sound env lastWriter (st.eraseEntry i name) where
  entries := by
    intro j other h found
    rw [entry_eraseEntry] at found
    split at found
    · cases found
    · exact inv.entries j other h found
  readable := inv.readable
  xorbs := inv.xorbs
  content := fun h s stored fb file => (inv.content h s stored fb file).congr fun _ _ => rfl
  valid := inv.valid

theorem Sound.insertEntry (inv : Sound env lastWriter st) {i : Index} {name : Hash} {h : ShardHash}
    {s : Shard} (stored : st.shard h = some s) (listed : name ∈ indexNames s i) :
    Sound env lastWriter (st.insertEntry i name h) where
  entries := by
    intro j other h' found
    rw [entry_insertEntry] at found
    split at found
    · rename_i here
      obtain ⟨rfl, rfl⟩ := here
      cases found
      exact ⟨s, stored, listed⟩
    · exact inv.entries j other h' found
  readable := inv.readable
  xorbs := inv.xorbs
  content := fun h s stored fb file => (inv.content h s stored fb file).congr fun _ _ => rfl
  valid := inv.valid

theorem shard_erase_xorb (x : XorbHash) (h : ShardHash) : (st.erase .xorbs x).shard h = st.shard h := by
  simp [Store.shard]

theorem shard_insert (name h : ShardHash) (obj : Object) : (st.insert .shards name obj).shard h =
    if h = name then (decodeStoredShard obj.data).toOption else st.shard h := by
  by_cases same : h = name <;> simp [Store.shard, same]

theorem shard_erase (name h : ShardHash) : (st.erase .shards name).shard h = if h = name then none else st.shard h := by
  by_cases same : h = name <;> simp [Store.shard, same]

section
variable (inv : Sound env lastWriter st)
include inv

/-- A change of the xorbs that leaves those the shards name as they are. -/
theorem Sound.changeXorbs {st' : Store} (entries : ∀ i name, st'.entry i name = st.entry i name)
    (shards : ∀ h, st'.object .shards h = st.object .shards h)
    (kept : ∀ h s, st.shard h = some s → ∀ y ∈ shardXorbs s, st'.object .xorbs y = st.object .xorbs y)
    (valid : ∀ y o, st'.object .xorbs y = some o → ∃ ends, Xorb.validate env.blake3 env.lz4 o.data y = .ok (ends, [])) :
    Sound env lastWriter st' := by
  have shard (h : ShardHash) : st'.shard h = st.shard h := by
    rw [Store.shard, Store.shard, shards]
  constructor
  · intro i name h found
    obtain ⟨s, stored, listed⟩ := inv.entries i name h ((entries i name).symm.trans found)
    exact ⟨s, (shard h).trans stored, listed⟩
  · intro h o found
    rw [shard]
    exact inv.readable h o ((shards h).symm.trans found)
  · intro h s stored y member
    rw [shard] at stored
    rw [kept h s stored y member]
    exact inv.xorbs h s stored y member
  · intro h s stored fb file
    rw [shard] at stored
    refine (inv.content h s stored fb file).congr fun e entry => ?_
    exact (kept h s stored _ (entry_xorb_mem file entry)).symm
  · exact valid

theorem Sound.insertXorb {x : XorbHash} {obj : Object} (absent : st.object .xorbs x = none)
    (accepted : ∃ ends, Xorb.validate env.blake3 env.lz4 obj.data x = .ok (ends, [])) :
    Sound env lastWriter (st.insert .xorbs x obj) := by
  refine inv.changeXorbs (fun _ _ => rfl) (by simp) ?_ ?_
  · -- A xorb that is stored already is not the new one.
    intro h s stored y member
    have present := inv.xorbs h s stored y member
    rw [object_insert, if_neg]
    rintro ⟨-, rfl⟩
    rw [absent] at present
    cases present
  · intro y o found
    rw [object_insert] at found
    split at found
    · rename_i here
      cases found
      rw [here.2]
      exact accepted
    · exact inv.valid y o found

theorem Sound.eraseXorb {x : XorbHash} (unreferenced : ∀ h s, st.shard h = some s → x ∉ shardXorbs s) :
    Sound env lastWriter (st.erase .xorbs x) := by
  refine inv.changeXorbs (fun _ _ => rfl) (by simp) ?_ ?_
  · intro h s stored y member
    rw [object_erase, if_neg]
    rintro ⟨-, rfl⟩
    exact unreferenced h s stored member
  · intro y o found
    rw [object_erase] at found
    split at found
    · cases found
    · exact inv.valid y o found

theorem Sound.insertShard {name : ShardHash} {obj : Object} {s : Shard} (absent : st.object .shards name = none)
    (decoded : decodeStoredShard obj.data = .ok s) (xorbs : ∀ x ∈ shardXorbs s, (st.object .xorbs x).isSome)
    (content : ∀ fb ∈ s.files, Reconstructable env lastWriter st fb) :
    Sound env lastWriter (st.insert .shards name obj) := by
  have fresh : ∀ h t, st.shard h = some t → h ≠ name := by
    rintro h t stored rfl
    rw [Store.shard, absent] at stored
    cases stored
  have cases_ : ∀ h t, (st.insert .shards name obj).shard h = some t →
      t = s ∨ st.shard h = some t := by
    intro h t stored
    rw [shard_insert] at stored
    split at stored
    · rw [decoded] at stored
      cases stored
      exact .inl rfl
    · exact .inr stored
  have xorb : ∀ y, (st.insert .shards name obj).object .xorbs y = st.object .xorbs y := by
    intro y
    simp
  constructor
  · intro i other h found
    obtain ⟨t, stored, listed⟩ := inv.entries i other h found
    refine ⟨t, ?_, listed⟩
    rw [shard_insert, if_neg (fresh h t stored)]
    exact stored
  · intro h o found
    rw [shard_insert]
    by_cases same : h = name
    · rw [if_pos same, decoded]
      rfl
    · rw [if_neg same]
      exact inv.readable h o (by simpa [same] using found)
  · intro h t stored y member
    rw [xorb]
    rcases cases_ h t stored with rfl | before
    · exact xorbs y member
    · exact inv.xorbs h t before y member
  · intro h t stored fb file
    rcases cases_ h t stored with rfl | before
    · exact (content fb file).congr fun e _ => (xorb _).symm
    · exact (inv.content h t before fb file).congr fun e _ => (xorb _).symm
  · intro y o found
    rw [xorb] at found
    exact inv.valid y o found

theorem Sound.eraseShard {name : ShardHash} (unreferenced : ∀ i other, st.entry i other ≠ some name) :
    Sound env lastWriter (st.erase .shards name) := by
  have before : ∀ h t, (st.erase .shards name).shard h = some t → st.shard h = some t := by
    intro h t stored
    rw [shard_erase] at stored
    split at stored
    · cases stored
    · exact stored
  have xorb : ∀ y, (st.erase .shards name).object .xorbs y = st.object .xorbs y := by
    intro y
    simp
  constructor
  · intro i other h found
    obtain ⟨t, stored, listed⟩ := inv.entries i other h found
    refine ⟨t, ?_, listed⟩
    rw [shard_erase, if_neg]
    · exact stored
    · rintro rfl
      exact unreferenced i other found
  · intro h o found
    have kept : h ≠ name := by
      rintro rfl
      simp at found
    rw [shard_erase, if_neg kept]
    exact inv.readable h o (by simpa [kept] using found)
  · intro h t stored y member
    rw [xorb]
    exact inv.xorbs h t (before h t stored) y member
  · intro h t stored fb file
    exact (inv.content h t (before h t stored) fb file).congr fun e _ => (xorb _).symm
  · intro y o found
    rw [xorb] at found
    exact inv.valid y o found

end

end

end Xet.Storage
