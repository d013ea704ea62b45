import Xet.Storage.ListGroups

/-! The files of a listing. The walk, the map of shards and the loads deliver them in some order, and
every order is a permutation of the index. -/
namespace Xet.Storage
open Wire List AList

variable {ε : Type} {st : StorageReads ε}

namespace StorageReads

def shard (st : StorageReads ε) (hash : ShardHash) : Option Shard :=
  match st.getShardByHash hash with
  | .ok sh => some sh
  | .error _ => none

def FailsShard (st : StorageReads ε) (hash : ShardHash) : Prop := ∃ e, st.getShardByHash hash = .error (.other e)

def fileOf (st : StorageReads ε) (f : Sigma fun _ : FileHash => ShardHash) : ResolvedFile :=
  resolveFile (st.shard f.2) f.1

end StorageReads

theorem resolveShardFiles_ok {hash : ShardHash} (fine : ¬ st.FailsShard hash) (names : List FileHash) :
    resolveShardFiles st hash names = .ok (names.map (resolveFile (st.shard hash))) := by
  rw [resolveShardFiles, StorageReads.shard]
  cases read : st.getShardByHash hash with
  | ok sh => rfl
  | error err =>
    cases err with
    | notExist => rfl
    | other e => exact absurd ⟨e, read⟩ fine

theorem resolveShardFiles_fails {hash : ShardHash} (fails : st.FailsShard hash) (names : List FileHash)
    (files : List ResolvedFile) : resolveShardFiles st hash names ≠ .ok files := by
  obtain ⟨e, failed⟩ := fails
  rw [resolveShardFiles, failed]
  exact nofun

section
variable {byShard : AList fun _ : ShardHash => List FileHash} {hashes : List ShardHash}

def shardFiles (st : StorageReads ε) (byShard : AList fun _ : ShardHash => List FileHash) (hash : ShardHash) :
    List ResolvedFile :=
  ((byShard.lookup hash).getD []).map (resolveFile (st.shard hash))

theorem loadShards_ok (byShard : AList fun _ : ShardHash => List FileHash) (fine : ∀ hash ∈ hashes, ¬ st.FailsShard hash)
    (places : List Nat)
    (resolved : List (List ResolvedFile)) (size : resolved.length = hashes.length) :
    ∃ loaded, loadShards st byShard hashes places resolved = .ok loaded ∧ loaded.length = hashes.length ∧
      ∀ i, loaded[i]? = if i ∈ places then hashes[i]?.map (shardFiles st byShard) else resolved[i]? := by
  induction places generalizing resolved with
  | nil => exact ⟨resolved, rfl, size, fun i => by simp⟩
  | cons place rest ih =>
    rw [loadShards]
    cases found : hashes[place]? with
    | none =>
      obtain ⟨loaded, eq, length, all⟩ := ih resolved size
      refine ⟨loaded, eq, length, fun i => ?_⟩
      rw [all]
      by_cases here : i = place
      · subst here
        have out : resolved[i]? = none := by
          rw [getElem?_eq_none_iff] at found ⊢
          omega
        simp [found, out]
      · simp [here]
    | some hash =>
      have readable := fine hash (mem_of_getElem? found)
      obtain ⟨loaded, eq, length, all⟩ := ih (resolved.set place (shardFiles st byShard hash)) (by simpa using size)
      refine ⟨loaded, ?_, length, fun i => ?_⟩
      · dsimp only
        rw [resolveShardFiles_ok readable, ok_bind]
        exact eq
      · rw [all, getElem?_set]
        by_cases here : i = place
        · subst here
          have inside : i < resolved.length := size ▸ (List.getElem?_eq_some_iff.mp found).1
          simp [found, inside]
        · simp [here, Ne.symm here]

theorem loadShards_fails {i : Nat} {hash : ShardHash} {places : List Nat} (member : i ∈ places)
    (found : hashes[i]? = some hash) (fails : st.FailsShard hash) (resolved loaded : List (List ResolvedFile)) :
    loadShards st byShard hashes places resolved ≠ .ok loaded := by
  induction places generalizing resolved with
  | nil => cases member
  | cons place rest ih =>
    rw [loadShards]
    cases member with
    | head =>
      rw [found]
      intro done
      obtain ⟨files, resolves, -⟩ := bind_eq_ok.mp done
      exact resolveShardFiles_fails fails _ _ resolves
    | tail _ member =>
      split
      · exact ih member _
      · intro done
        obtain ⟨files, -, rest⟩ := bind_eq_ok.mp done
        exact ih member _ rest

end

section
variable (walk : List (Sigma fun _ : FileHash => ShardHash))

theorem groupByShard_concat (f : Sigma fun _ : FileHash => ShardHash) : groupByShard (walk ++ [f]) =
    (groupByShard walk).insert f.2 (((groupByShard walk).lookup f.2).getD [] ++ [f.1]) := by
  rw [groupByShard, foldl_append]
  rfl

theorem groupByShard_names (hash : ShardHash) :
    ((groupByShard walk).lookup hash).getD [] = (walk.filter fun f => f.2 = hash).map Sigma.fst := by
  induction walk using reverseRecOn with
  | nil => rfl
  | append_singleton walk f ih =>
    rw [groupByShard_concat, filter_append, map_append, ← ih]
    by_cases here : hash = f.2
    · subst here
      rw [lookup_insert]
      simp
    · rw [lookup_insert_ne here]
      simp [Ne.symm here]

theorem mem_groupByShard (hash : ShardHash) : hash ∈ groupByShard walk ↔ ∃ f ∈ walk, f.2 = hash := by
  induction walk using reverseRecOn with
  | nil => simp [groupByShard]
  | append_singleton walk f ih =>
    rw [groupByShard_concat, mem_insert, ih]
    constructor
    · rintro (rfl | ⟨g, member, rfl⟩)
      · exact ⟨f, by simp, rfl⟩
      · exact ⟨g, mem_append_left _ member, rfl⟩
    · rintro ⟨g, member, rfl⟩
      rcases mem_append.mp member with member | member
      · exact .inr ⟨g, member, rfl⟩
      · exact .inl (by rw [mem_singleton.mp member])

end

theorem classes_perm {α κ : Type} [DecidableEq κ] (key : α → κ) {keys : List κ} (distinct : keys.Nodup) {xs : List α}
    (all : ∀ x ∈ xs, key x ∈ keys) : (keys.flatMap fun k => xs.filter fun x => key x = k).Perm xs := by
  induction keys generalizing xs with
  | nil =>
    cases xs with
    | nil => exact .nil
    | cons x rest => exact absurd (all x mem_cons_self) (not_mem_nil)
  | cons k keys ih =>
    obtain ⟨fresh, distinct⟩ := nodup_cons.mp distinct
    have known : ∀ x ∈ xs.filter (fun x => ¬ key x = k), key x ∈ keys := fun x member => by
      obtain ⟨there, other⟩ := mem_filter.mp member
      exact (mem_cons.mp (all x there)).resolve_left (of_decide_eq_true other)
    have others := ih distinct known
    have rest : (keys.flatMap fun k' => xs.filter fun x => key x = k') =
        keys.flatMap fun k' => (xs.filter fun x => ¬ key x = k).filter fun x => key x = k' := by
      refine flatMap_congr fun k' member => ?_
      rw [filter_filter]
      refine filter_congr fun x _ => ?_
      by_cases here : key x = k'
      · have : k' ≠ k := fun same => fresh (same ▸ member)
        simp [here, this]
      · simp [here]
    rw [flatMap_cons, rest]
    refine (Perm.append_left _ others).trans ?_
    simpa using filter_append_perm (fun x => decide (key x = k)) xs

section
variable {d : Delivery} {index : AList fun _ : FileHash => ShardHash}

def listing (d : Delivery) (st : StorageReads ε) (files : List ResolvedFile) : Except (ListError ε) (List FileListEntry) := do
  let groups := files.foldl Groups.add .empty
  let sized ← computeStoredSizes d st groups.entries groups.entryTerms
  return d.byEntry.sort (sized.map fun x => { x with fileHashes := d.byHash.sort x.fileHashes })

/-- The files in the order in which they come: by shards, and within a shard as the walk found them. -/
def delivered (d : Delivery) (st : StorageReads ε) (index : AList fun _ : FileHash => ShardHash) : List ResolvedFile :=
  ((d.shards.order (groupByShard (d.walk.order index.entries)).keys).map
    (shardFiles st (groupByShard (d.walk.order index.entries)))).flatten

theorem delivered_perm (st : StorageReads ε) (d : Delivery) (index : AList fun _ : FileHash => ShardHash) :
    (delivered d st index).Perm (index.entries.map st.fileOf) := by
  rw [delivered]
  have walked := d.walk.perm index.entries
  generalize d.walk.order index.entries = walk at walked ⊢
  have ordered := d.shards.perm (groupByShard walk).keys
  have distinct := (groupByShard walk).keys_nodup
  have files : ∀ hash, shardFiles st (groupByShard walk) hash = (walk.filter fun f => f.2 = hash).map st.fileOf := by
    intro hash
    rw [shardFiles, groupByShard_names, map_map]
    refine map_congr_left fun f member => ?_
    rw [Function.comp_apply, StorageReads.fileOf, of_decide_eq_true (mem_filter.mp member).2]
  have all : ∀ f ∈ walk, f.2 ∈ (groupByShard walk).keys := fun f member =>
    mem_keys.mp ((mem_groupByShard walk f.2).mpr ⟨f, member, rfl⟩)
  have flat : ((groupByShard walk).keys.map (shardFiles st (groupByShard walk))).flatten =
      ((groupByShard walk).keys.flatMap fun hash => walk.filter fun f => f.2 = hash).map st.fileOf := by
    rw [map_flatMap, flatMap_def, funext files]
  exact ((ordered.map _).flatten.trans (flat ▸ .refl _)).trans
    (((classes_perm (fun f : Sigma fun _ : FileHash => ShardHash => f.2) distinct all).trans walked).map _)

theorem listFiles_eq (walked : st.walkFileIndex = .ok index) (fine : ∀ f ∈ index.entries, ¬ st.FailsShard f.2)
    (d : Delivery) : listFiles d st = listing d st (delivered d st index) := by
  have fineKeys : ∀ hash ∈ d.shards.order (groupByShard (d.walk.order index.entries)).keys, ¬ st.FailsShard hash := by
    intro hash member
    obtain ⟨f, there, rfl⟩ := (mem_groupByShard _ hash).mp (mem_keys.mpr ((d.shards.perm _).mem_iff.mp member))
    exact fine f ((d.walk.perm _).mem_iff.mp there)
  rw [delivered]
  generalize hashes : d.shards.order (groupByShard (d.walk.order index.entries)).keys = shardHashes at fineKeys ⊢
  obtain ⟨loaded, eq, length, all⟩ := loadShards_ok (groupByShard (d.walk.order index.entries)) fineKeys
    (d.loads.order (range shardHashes.length)) (replicate shardHashes.length []) (by simp)
  have every : loaded = shardHashes.map (shardFiles st (groupByShard (d.walk.order index.entries))) := by
    refine ext_getElem? fun i => ?_
    rw [all, getElem?_map]
    by_cases inside : i < shardHashes.length
    · rw [if_pos ((d.loads.perm _).mem_iff.mpr (mem_range.mpr inside))]
    · rw [if_neg fun member => inside (mem_range.mp ((d.loads.perm _).mem_iff.mp member)),
        getElem?_eq_none (by simpa using inside), getElem?_eq_none (Nat.not_lt.mp inside)]
      rfl
  rw [listFiles, walked, ← every]
  simp only [Except.mapError, ok_bind, hashes, eq]
  rfl

theorem listFiles_fails (walked : st.walkFileIndex = .ok index) {f : Sigma fun _ : FileHash => ShardHash}
    (member : f ∈ index.entries) (fails : st.FailsShard f.2) (entries : List FileListEntry) :
    listFiles d st ≠ .ok entries := by
  intro done
  rw [listFiles, walked] at done
  simp only [Except.mapError, ok_bind] at done
  obtain ⟨loaded, loads, -⟩ := bind_eq_ok.mp done
  have loads := mapError_eq_ok.mp loads
  have key : f.2 ∈ d.shards.order (groupByShard (d.walk.order index.entries)).keys :=
    (d.shards.perm _).mem_iff.mpr (mem_keys.mp ((mem_groupByShard _ _).mpr
      ⟨f, (d.walk.perm _).mem_iff.mpr member, rfl⟩))
  obtain ⟨i, found⟩ := mem_iff_getElem?.mp key
  have place : i ∈ d.loads.order (range (d.shards.order (groupByShard (d.walk.order index.entries)).keys).length) :=
    (d.loads.perm _).mem_iff.mpr (mem_range.mpr (List.getElem?_eq_some_iff.mp found).1)
  exact loadShards_fails place found fails _ _ loads

end

end Xet.Storage
