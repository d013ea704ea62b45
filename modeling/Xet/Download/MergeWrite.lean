import Xet.Download.CacheMerge

/-! The entry that a merge writes. On the way the manager looks three times for entries to evict: when
the entry is published, and when the writer is done with it and with its sources. -/
namespace Xet.Download
open Wire File Calls List CacheManager

variable {xorb : Nat → Bytes} {hash : Bytes} {path : Path} {s t u : Cache}

structure Touches (path : Path) (s t : Cache) : Prop where
  others : ∀ f, f.path ≠ path → (f ∈ t.files ↔ f ∈ s.files)
  distinct : (s.files.map CachedFile.path).Nodup → (t.files.map CachedFile.path).Nodup

theorem Touches.trans (first : Touches path s t) (second : Touches path t u) : Touches path s u :=
  ⟨fun f other => (second.others f other).trans (first.others f other), fun nodup => second.distinct (first.distinct nodup)⟩

theorem Touches.remove (path : Path) (s : Cache) :
    Touches path s { s with files := s.files.filter (·.path ≠ path) } where
  others f other := by simp [other]
  distinct nodup := nodup.sublist (List.filter_sublist.map _)

theorem Touches.append {f : CachedFile} (named : f.path = path) (absent : ∀ g ∈ s.files, g.path ≠ path) :
    Touches path s { s with files := s.files ++ [f] } where
  others g other := by
    have : g ≠ f := fun same => other (same ▸ named)
    simp [this]
  distinct nodup := by
    rw [map_append, map_singleton, named, nodup_append]
    refine ⟨nodup, nodup_singleton _, fun p member q single => ?_⟩
    obtain ⟨g, here, rfl⟩ := mem_map.mp member
    rw [mem_singleton.mp single]
    exact absent g here

section
variable {g : CachedFile → CachedFile}

theorem update_paths (path : Path) (s : Cache) (keeps : ∀ f, (g f).path = f.path) :
    (s.update path g).files.map CachedFile.path = s.files.map CachedFile.path := by
  rw [Cache.update, map_map]
  apply map_congr_left
  intro f _
  dsimp only [Function.comp]
  split
  · exact keeps f
  · rfl

theorem Touches.update (path : Path) (s : Cache) (keeps : ∀ f, (g f).path = f.path) :
    Touches path s (s.update path g) where
  others f other := by
    simp only [Cache.update, mem_map]
    constructor
    · rintro ⟨f', member, same⟩
      by_cases here : f'.path = path
      · rw [if_pos here] at same
        exact absurd (by rw [← same, keeps, here]) other
      · rw [if_neg here] at same
        exact same ▸ member
    · intro member
      exact ⟨f, member, if_neg other⟩
  distinct nodup := by rwa [update_paths path s keeps]

theorem Touches.setContent (path : Path) (s : Cache) (c : Bytes) : Touches path s (s.setContent path c) :=
  Touches.update path s fun _ => rfl

theorem Touches.setLocked (path : Path) (s : Cache) (locked : Bool) : Touches path s (s.setLocked path locked) :=
  Touches.update path s fun _ => rfl

theorem setContent_paths (path : Path) (s : Cache) (c : Bytes) :
    (s.setContent path c).files.map CachedFile.path = s.files.map CachedFile.path := update_paths path s fun _ => rfl

theorem setLocked_paths (path : Path) (s : Cache) (locked : Bool) :
    (s.setLocked path locked).files.map CachedFile.path = s.files.map CachedFile.path := update_paths path s fun _ => rfl

def AllAt (path : Path) (P : CachedFile → Prop) (s : Cache) : Prop := ∀ f ∈ s.files, f.path = path → P f

theorem AllAt.update {P Q : CachedFile → Prop} (here : AllAt path P s) (becomes : ∀ f, P f → Q (g f)) :
    AllAt path Q (s.update path g) := by
  intro f' member' named
  obtain ⟨f, member, rfl⟩ := mem_map.mp member'
  by_cases same : f.path = path
  · rw [if_pos same]
    exact becomes f (here f member same)
  · rw [if_neg same] at named
    exact absurd named same

theorem AllAt.less {P : CachedFile → Prop} (here : AllAt path P s) (less : t.files ⊆ s.files) : AllAt path P t :=
  fun f member => here f (less member)

end

def Denied (env : MergeEnv) (r : CacheRange) (path : Path) (s : Cache) : Prop :=
  ¬ r.Valid ∨ env.fate path = .notLocked ∨ ∃ f ∈ s.files, f.path = path ∧ (f.isDir = true ∨ f.locked = true)

section
variable {source : OpenedRange} {r : ChunkRange}

theorem Stored.fits {files : List CachedFile} {k : Nat} (stored : Stored xorb hash files k) :
    (xorb k).length ≤ Xorb.chunkBufSize := by
  obtain ⟨f, -, -, ρ, entry, first, last⟩ := stored
  apply entry.fits
  exact mem_map.mpr ⟨k, mem_range'_1.mpr ⟨first, by omega⟩, rfl⟩

end

theorem Directory.sealed_of_accepted {files : List CachedFile} (dir : Directory xorb hash files) {f : CachedFile}
    {r : ChunkRange} {b : ByteRange} (member : f ∈ files) (same : f.path.hash = hash)
    (visible : f.path.name.head? ≠ some dot) (named : f.ranges = some (r, b)) (accepted : Accepted r f.content) :
    SealedEntry xorb r f := by
  cases dir f member same with
  | complete ρ entry =>
    obtain ⟨b', parsed⟩ := entry.ranges
    cases parsed.symm.trans named
    exact entry
  | incomplete ρ b' parsed rejected =>
    cases parsed.symm.trans named
    exact absurd accepted rejected
  | foreign unnamed =>
    rcases unnamed with unnamed | hidden
    · cases unnamed.symm.trans named
    · exact absurd hidden visible

/-- The states in which the manager looks for entries to evict while a merged entry is copied. -/
def copyLooks (env : MergeEnv) (r : CacheRange) (path : Path) (old : Bytes) (s : Cache) : List Cache :=
  match openCachedRange env.byStart s r.hash r.chunks.start r.chunks.stop with
  | (none, _) => []
  | (some source, s) =>
    let count := r.chunks.stop - r.chunks.start
    let closing (s : Cache) : Cache := source.refPaths.foldl Cache.release s
    match env.fate path with
    | .notTruncated => [closing s]
    | .noHeader n => [closing (s.setContent path ((placeholder (count + 1)).take n))]
    | .notLoaded => [closing ((s.setContent path []).setLocked path false)]
    | _ =>
      let (result, content) := (writeEntry .atOnce r (cachedReads source count)).run perform old
      let s := (s.setContent path content).setLocked path false
      match result with
      | .error _ => [closing s]
      | .ok () =>
        let published := publish env r.hash path content.length s
        [{ s with manager := (s.manager.acquire path content.length).markVerified path }, published.release path,
          closing (closeRange env [path] published)]

def mergeLooks (env : MergeEnv) (r : CacheRange) (s : Cache) : List Cache :=
  match lockChunkCache env r r.path s with
  | (.error _, _) => []
  | (.ok old, s) => if Accepted r.chunks old then [] else copyLooks env r r.path old s

def CachedFile.within (f : CachedFile) (r : ChunkRange) : Bool :=
  f.ranges.any fun p => decide (r.start ≤ p.1.start ∧ p.1.stop ≤ r.stop)

/-- From one state to a later one, a complete entry of the directory is gone only if the merged entry
has its chunks and is still there. -/
def Spares (r : CacheRange) (s t : Cache) : Prop :=
  ∀ f ∈ s.files, f.path.hash = r.hash → f.complete = true →
    f ∈ t.files ∨ f.within r.chunks = true ∧ ∃ m ∈ t.files, m.path = r.path ∧ m.complete = true

instance (r : CacheRange) (s t : Cache) : Decidable (Spares r s t) :=
  inferInstanceAs (Decidable (∀ f ∈ s.files, _))

/-- Each time it looks while the entry is written, the manager spares the directory. -/
def WriteSpares (env : MergeEnv) (r : CacheRange) (s : Cache) : Prop :=
  ∀ u ∈ mergeLooks env r s, Spares r u (evaluate env.toSurroundings u)

instance (env : MergeEnv) (r : CacheRange) (s : Cache) : Decidable (WriteSpares env r s) :=
  inferInstanceAs (Decidable (∀ u ∈ mergeLooks env r s, _))

section
variable {r : CacheRange} {old : Bytes}

structure Settles (r : CacheRange) (s t : Cache) : Prop where
  less : t.files.Sublist s.files
  spares : Spares r s t

theorem Settles.trans (first : Settles r s t) (second : Settles r t u) : Settles r s u where
  less := second.less.trans first.less
  spares f member same complete := by
    rcases first.spares f member same complete with there | ⟨within, m, there, path, whole⟩
    · exact second.spares f there same complete
    · rcases second.spares m there (congrArg Path.hash path) whole with stays | ⟨-, m', stays⟩
      · exact .inr ⟨within, m, stays, path, whole⟩
      · exact .inr ⟨within, m', stays⟩

variable {env : MergeEnv} {paths : List Path} {n : Path → Nat}

theorem Settles.evaluate (files : u.files = s.files) (spares : Spares r u (evaluate env.toSurroundings u)) :
    Settles r s (evaluate env.toSurroundings u) where
  less := files ▸ evaluate_sublist env.toSurroundings u
  spares f member := spares f (files.symm ▸ member)

theorem closeRange_settles (paths : List Path) (spares : Spares r (paths.foldl Cache.release s) (closeRange env paths s)) :
    Settles r s (closeRange env paths s) := .evaluate (release_all paths s).1 spares

theorem closeRange_uses (uses : s.manager.Uses hash fun q => n q + paths.count q) :
    (closeRange env paths s).manager.Uses hash n :=
  evaluate_uses _ (by simpa only [Nat.add_sub_cancel] using (release_all paths s).2 uses)

theorem publish_uses (size : Nat) (uses : s.manager.Uses hash n) :
    (publish env r.hash path size s).manager.Uses hash fun q => n q + [path].count q := by
  have acquired : ((s.manager.acquire path size).markVerified path).Uses hash fun q => n q + [path].count q := by
    intro p member same
    refine (uses.acquire path size p member same).trans ?_
    simp only [count_singleton, beq_iff_eq, eq_comm (a := path), le_refl]
  exact (evaluate_uses (s := ⟨s.files, _⟩) env.toSurroundings acquired).note r.hash

variable {f : CachedFile} {ρ : ChunkRange}

theorem SealedEntry.accepted (entry : SealedEntry xorb ρ f) : Accepted ρ f.content := by
  rw [Accepted, entry.layout]
  rfl

theorem SealedEntry.complete (entry : SealedEntry xorb ρ f) : f.complete = true := by
  obtain ⟨b, named⟩ := entry.ranges
  rw [CachedFile.complete, named]
  exact decide_eq_true entry.accepted

theorem SealedEntry.within (entry : SealedEntry xorb ρ f) {σ : ChunkRange} (inside : f.within σ = true) :
    σ.start ≤ ρ.start ∧ ρ.stop ≤ σ.stop := by
  obtain ⟨b, named⟩ := entry.ranges
  rw [CachedFile.within, named] at inside
  exact of_decide_eq_true inside

section
variable (valid : r.Valid) (last : r.bytes.last < 2 ^ 63) (file : f.isDir = false)
include valid last file

theorem ranges_of_name (named : f.path.name = cacheFileName r.chunks r.bytes) : f.ranges = some (r.chunks, r.bytes) := by
  obtain ⟨-, range, first, order⟩ := valid
  have most := range.2
  rw [maxChunksPerXorb] at most
  rw [CachedFile.ranges, file, named]
  exact parse_cacheFileName range.1.le (by omega) first order last

theorem accepted_of_complete (named : f.path = r.path) (complete : f.complete = true) : Accepted r.chunks f.content := by
  rw [CachedFile.complete, ranges_of_name valid last file (congrArg Path.name named)] at complete
  exact of_decide_eq_true complete

theorem sealed_of_content (named : f.path.name = cacheFileName r.chunks r.bytes)
    (content : f.content = sealedFile (chunksIn xorb r.chunks))
    (fits : ∀ k, r.chunks.start ≤ k → k < r.chunks.stop → (xorb k).length ≤ Xorb.chunkBufSize) :
    SealedEntry xorb r.chunks f where
  file := file
  valid := valid.2.1
  name := ⟨r.bytes, valid.2.2.1, valid.2.2.2, last, named⟩
  content := content
  fits c member := by
    obtain ⟨k, inside, rfl⟩ := mem_map.mp member
    rw [mem_range'_1] at inside
    have := valid.2.1.1
    exact fits k inside.1 (by omega)

end

def Unlocked (xorb : Nat → Bytes) (r : ChunkRange) (f : CachedFile) : Prop :=
  f.isDir = false ∧ f.locked = false ∧ (¬ Accepted r f.content ∨ SealedEntry xorb r f)

def HasSealed (xorb : Nat → Bytes) (r : CacheRange) (t : Cache) : Prop :=
  ∃ f ∈ t.files, f.path = r.path ∧ SealedEntry xorb r.chunks f

theorem setContent_spec (here : AllAt path (fun f => f.isDir = false ∧ f.content = old) s) (c : Bytes) :
    Touches path s (s.setContent path c) ∧ AllAt path (fun f => f.isDir = false ∧ f.content = c) (s.setContent path c) :=
  ⟨.setContent path s c, here.update fun _ before => ⟨before.1, rfl⟩⟩

theorem unlock_spec (here : AllAt path (fun f => f.isDir = false ∧ f.content = old) s) :
    Touches path s (s.setLocked path false) ∧
    AllAt path (fun f => f.isDir = false ∧ f.locked = false ∧ f.content = old) (s.setLocked path false) :=
  ⟨.setLocked path s false, here.update fun _ before => ⟨before.1, rfl, before.2⟩⟩

/-- Of the files at other paths none is new, and the complete ones of the directory are spared. The
merged entry is there if that is reported, and it is reported if the range is in the cache and the
file can be written. -/
structure Copied (xorb : Nat → Bytes) (env : MergeEnv) (r : CacheRange) (s : Cache)
    (result : Except MergeError (Option Path) × Cache) : Prop where
  others : ∀ f ∈ result.2.files, f.path ≠ r.path → f ∈ s.files
  distinct : (s.files.map CachedFile.path).Nodup → (result.2.files.map CachedFile.path).Nodup
  kept : ∀ f ∈ s.files, f.path ≠ r.path → f.path.hash = r.hash → f.complete = true →
    f ∈ result.2.files ∨ f.within r.chunks = true ∧ HasSealed xorb r result.2
  unlocked : AllAt r.path (Unlocked xorb r.chunks) result.2
  uses : ∀ n, s.manager.Uses r.hash n → result.2.manager.Uses r.hash n
  covering : ∀ p, result.1 = .ok (some p) → p = r.path ∧ HasSealed xorb r result.2
  succeeds : env.fate r.path = .written →
    (∀ k, r.chunks.start ≤ k → k < r.chunks.stop → Stored xorb r.hash s.files k) → result.1 = .ok (some r.path)

section
variable {source : OpenedRange} (valid : r.Valid) (last : r.bytes.last < 2 ^ 63) (files : t.files = s.files)
  (uses : ∀ n, s.manager.Uses r.hash n → t.manager.Uses r.hash fun q => n q + source.refPaths.count q)
include valid last files uses

theorem Copied.failed {v : Cache} {e : MergeError} {c : Bytes} (fate : env.fate r.path ≠ .written)
    (rejected : ¬ Accepted r.chunks c) (touches : Touches r.path t u) (manager : u.manager = t.manager)
    (here : AllAt r.path (fun f => f.isDir = false ∧ f.content = c) u)
    (spares : Spares r (source.refPaths.foldl Cache.release u) (closeRange env source.refPaths u))
    (after : Touches r.path (closeRange env source.refPaths u) v)
    (manager' : v.manager = (closeRange env source.refPaths u).manager)
    (unlocked : AllAt r.path (fun f => f.isDir = false ∧ f.locked = false ∧ f.content = c) v) :
    Copied xorb env r s (.error e, v) := by
  have settles := closeRange_settles _ spares
  constructor
  case others =>
    intro f member other
    have before := settles.less.subset ((after.others f other).mp member)
    exact files ▸ (touches.others f other).mp before
  case distinct =>
    intro nodup
    exact after.distinct ((touches.distinct (files ▸ nodup)).sublist (settles.less.map _))
  case kept =>
    intro f member other same complete
    rcases settles.spares f ((touches.others f other).mpr (files ▸ member)) same complete with
      stays | ⟨-, m, there, path, whole⟩
    · exact .inl ((after.others f other).mpr stays)
    · obtain ⟨file, content⟩ := here m (settles.less.subset there) path
      exact absurd (content ▸ accepted_of_complete valid last file path whole) rejected
  case unlocked =>
    intro f member same
    obtain ⟨file, unlocked, content⟩ := unlocked f member same
    exact ⟨file, unlocked, .inl (content ▸ rejected)⟩
  case uses =>
    intro n before
    exact manager' ▸ closeRange_uses (manager ▸ uses n before)
  case covering => exact nofun
  case succeeds => exact fun written => absurd written fate

theorem Copied.written (env : MergeEnv) (present : r.path ∈ t.files.map CachedFile.path)
    (here : AllAt r.path (fun f => f.isDir = false ∧ f.content = old) t)
    (fits : ∀ k, r.chunks.start ≤ k → k < r.chunks.stop → (xorb k).length ≤ Xorb.chunkBufSize)
    {content : Bytes} (whole : content = sealedFile (chunksIn xorb r.chunks)) {v w : Cache}
    (stored : (t.setContent r.path content).setLocked r.path false = v)
    (published : publish env r.hash r.path content.length v = w)
    (first : Spares r ⟨v.files, (v.manager.acquire r.path content.length).markVerified r.path⟩ w)
    (second : Spares r (w.release r.path) (closeRange env [r.path] w))
    (third : Spares r (source.refPaths.foldl Cache.release (closeRange env [r.path] w))
      (closeRange env source.refPaths (closeRange env [r.path] w))) :
    Copied xorb env r s (.ok (some r.path), closeRange env source.refPaths (closeRange env [r.path] w)) := by
  obtain ⟨touches, here⟩ := setContent_spec here content
  obtain ⟨touches', here⟩ := unlock_spec here
  rw [stored] at touches' here
  have same : w.files.Sublist v.files := published ▸ evaluate_sublist env.toSurroundings ⟨v.files, _⟩
  have settles : Settles r v (closeRange env source.refPaths (closeRange env [r.path] w)) :=
    (Settles.trans ⟨same, first⟩ (closeRange_settles [r.path] second)).trans (closeRange_settles _ third)
  have sealed' : AllAt r.path (SealedEntry xorb r.chunks) v := by
    intro f member at'
    obtain ⟨file, -, same⟩ := here f member at'
    exact sealed_of_content valid last file (congrArg Path.name at') (same.trans whole) fits
  have there : HasSealed xorb r (closeRange env source.refPaths (closeRange env [r.path] w)) := by
    have paths : r.path ∈ v.files.map CachedFile.path := by
      rwa [← stored, setLocked_paths, setContent_paths]
    obtain ⟨f, member, at'⟩ := mem_map.mp paths
    rcases settles.spares f member (congrArg Path.hash at') (sealed' f member at').complete with
      stays | ⟨-, m, stays, path, -⟩
    · exact ⟨f, stays, at', sealed' f member at'⟩
    · exact ⟨m, stays, path, sealed' m (settles.less.subset stays) path⟩
  have others := (touches.trans touches').others
  constructor
  case others =>
    intro f member other
    exact files ▸ (others f other).mp (settles.less.subset member)
  case distinct =>
    intro nodup
    exact ((touches.trans touches').distinct (files ▸ nodup)).sublist (settles.less.map _)
  case kept =>
    intro f member other same complete
    exact (settles.spares f ((others f other).mpr (files ▸ member)) same complete).imp_right
      fun inside => ⟨inside.1, there⟩
  case unlocked =>
    intro f member at'
    have before := settles.less.subset member
    obtain ⟨file, unlocked, -⟩ := here f before at'
    exact ⟨file, unlocked, .inr (sealed' f before at')⟩
  case uses =>
    intro n before
    have used : v.manager.Uses r.hash fun q => n q + source.refPaths.count q := stored ▸ uses n before
    exact closeRange_uses (closeRange_uses (published ▸ publish_uses content.length used))
  case covering =>
    intro p reported
    cases reported
    exact ⟨rfl, there⟩
  case succeeds => exact fun _ _ => rfl

end

theorem Directory.touch (dir : Directory xorb hash s.files)
    (others : ∀ f ∈ t.files, f.path ≠ path → f ∈ s.files) (here : AllAt path (EntryKind xorb) t) :
    Directory xorb hash t.files := by
  intro f member same
  by_cases at' : f.path = path
  · exact here f member at'
  · exact dir f (others f member at') same

/-- What writing a merged entry leaves: nothing new but the entry, and every sealed entry of the
directory or the merged one in its place. -/
structure Merged (xorb : Nat → Bytes) (env : MergeEnv) (r : CacheRange) (s : Cache)
    (result : Except MergeError (Option Path) × Cache) : Prop where
  others : ∀ f ∈ result.2.files, f.path ≠ r.path → f ∈ s.files
  distinct : (result.2.files.map CachedFile.path).Nodup
  kinds : ∀ f ∈ result.2.files, f.path = r.path → f ∈ s.files ∨ r.Valid ∧ Unlocked xorb r.chunks f
  kept : ∀ f ∈ s.files, f.path.hash = r.hash → ∀ ρ, SealedEntry xorb ρ f →
    f ∈ result.2.files ∨ (r.chunks.start ≤ ρ.start ∧ ρ.stop ≤ r.chunks.stop) ∧ HasSealed xorb r result.2
  uses : ∀ n, s.manager.Uses r.hash n → result.2.manager.Uses r.hash n
  covering : ∀ p, result.1 = .ok (some p) → p = r.path ∧ HasSealed xorb r result.2
  succeeds : ¬ Denied env r r.path s → env.fate r.path = .written →
    (∀ k, r.chunks.start ≤ k → k < r.chunks.stop → Stored xorb r.hash s.files k) → result.1 = .ok (some r.path)

end

end Xet.Download
