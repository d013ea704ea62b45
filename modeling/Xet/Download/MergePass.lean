import Xet.Download.MergeWrite

/-! Compaction loses no chunk as long as the directory is spared, and leaves no two entries that touch. -/
namespace Xet.Download
open Wire File Calls List Prog

variable {xorb : Nat → Bytes} {hash : Bytes}

structure Named (hash : Bytes) (c : MergeCandidate) : Prop where
  hash : c.path.hash = hash
  name : c.path.name = cacheFileName c.range c.bytes
  valid : validChunkRange c.range
  first : 0 ≤ c.bytes.start
  order : c.bytes.start ≤ c.bytes.last
  last : c.bytes.last < 2 ^ 63

theorem Named.range_eq {c : MergeCandidate} (named : Named hash c) {f : CachedFile} {ρ : ChunkRange}
    (entry : SealedEntry xorb ρ f) (same : f.path = c.path) : ρ = c.range := by
  obtain ⟨b, parsed⟩ := entry.ranges
  have most := named.valid.2
  rw [maxChunksPerXorb] at most
  rw [CachedFile.ranges, entry.file, same, named.name, if_neg Bool.false_ne_true,
    parse_cacheFileName named.valid.1.le (by omega) named.first named.order named.last] at parsed
  cases parsed
  rfl

abbrev MergeRun := Cover.Run MergeCandidate

def spanOf (g : MergeRun) : ChunkRange := ⟨g.first.range.start, g.last⟩

structure Plan (hash : Bytes) (gs : List MergeRun) : Prop where
  joined : ∀ g ∈ gs, Cover.Joined (fun c : MergeCandidate => c.range.start) (fun c => c.range.stop) g
  apart : gs.Pairwise fun g h => g.last < h.first.range.start
  distinct : ((gs.flatMap Cover.Run.members).map MergeCandidate.path).Nodup
  named : ∀ g ∈ gs, ∀ c ∈ g.members, Named hash c

section
variable {g : MergeRun} {gs : List MergeRun}

section
variable (plan : Plan hash (g :: gs))
include plan

theorem Plan.tail : Plan hash gs where
  joined h member := plan.joined h (mem_cons_of_mem g member)
  apart := (pairwise_cons.mp plan.apart).2
  distinct := by
    have whole := plan.distinct
    rw [flatMap_cons, map_append] at whole
    exact (nodup_append.mp whole).2.1
  named h member := plan.named h (mem_cons_of_mem g member)

theorem Plan.other {c d : MergeCandidate} (member : c ∈ g.members) {h : MergeRun} (later : h ∈ gs)
    (there : d ∈ h.members) : d.path ≠ c.path := by
  have whole := plan.distinct
  rw [flatMap_cons, map_append] at whole
  intro same
  exact (nodup_append.mp whole).2.2 _ (mem_map_of_mem member) _
    (mem_map_of_mem (mem_flatMap.mpr ⟨h, later, there⟩)) same.symm

end

def Listed (gs : List MergeRun) (path : Path) : Prop := ∃ g ∈ gs, ∃ c ∈ g.members, c.path = path

structure Passing (xorb : Nat → Bytes) (hash : Bytes) (before : List CachedFile) (gs : List MergeRun) (t : Cache) :
    Prop where
  dir : Directory xorb hash t.files
  distinct : (t.files.map CachedFile.path).Nodup
  stored : ∀ k, Stored xorb hash before k → Stored xorb hash t.files k
  present : ∀ g ∈ gs, ∀ c ∈ g.members, ∃ f ∈ t.files, f.path = c.path ∧ SealedEntry xorb c.range f
  known : ∀ f ∈ t.files, f.path.hash = hash → ∀ ρ, SealedEntry xorb ρ f →
    Listed gs f.path ∨ ∀ g ∈ gs, ρ.stop < g.first.range.start

variable {before : List CachedFile} {s t : Cache}

variable {f : CachedFile} {ρ : ChunkRange}

theorem Plan.later (plan : Plan hash (g :: gs)) (inside : ρ.stop ≤ g.last) : ∀ h ∈ gs, ρ.stop < h.first.range.start :=
  fun h member => inside.trans_lt ((pairwise_cons.mp plan.apart).1 h member)

theorem Passing.known_tail (passing : Passing xorb hash before (g :: gs) t) (plan : Plan hash (g :: gs))
    (member : f ∈ t.files) (same : f.path.hash = hash) (entry : SealedEntry xorb ρ f) :
    Listed gs f.path ∨ ∀ h ∈ gs, ρ.stop < h.first.range.start := by
  rcases passing.known f member same ρ entry with ⟨h, there, c, own, path⟩ | early
  · rcases mem_cons.mp there with rfl | later
    · have range := (plan.named h there c own).range_eq entry path.symm
      have inside := (plan.joined h there).inside c own
      exact .inr (plan.later (range ▸ inside.2))
    · exact .inl ⟨h, later, c, own, path⟩
  · exact .inr fun h there => early h (mem_cons_of_mem g there)

theorem Passing.skip (passing : Passing xorb hash before (g :: gs) t) (plan : Plan hash (g :: gs)) :
    Passing xorb hash before gs t where
  dir := passing.dir
  distinct := passing.distinct
  stored := passing.stored
  present h member := passing.present h (mem_cons_of_mem g member)
  known _ member same _ entry := passing.known_tail plan member same entry

variable {r : CacheRange}

theorem range_of_path (valid : r.Valid) (last : r.bytes.last < 2 ^ 63) (here : f.path = r.path)
    (entry : SealedEntry xorb ρ f) : ρ = r.chunks := by
  obtain ⟨b, named⟩ := entry.ranges
  cases named.symm.trans (ranges_of_name valid last entry.file (congrArg Path.name here))
  rfl

variable {env : MergeEnv} {result : Except MergeError (Option Path) × Cache}

theorem Passing.wrote {b : ByteRange} (passing : Passing xorb hash before (g :: gs) t) (plan : Plan hash (g :: gs))
    (valid : (CacheRange.mk hash (spanOf g) b).Valid) (last : b.last < 2 ^ 63)
    (merged : Merged xorb env ⟨hash, spanOf g, b⟩ t result) : Passing xorb hash before gs result.2 := by
  constructor
  case dir =>
    refine passing.dir.touch merged.others fun f member here => ?_
    rcases merged.kinds f member here with old | ⟨-, file, -, rejected | entry⟩
    · exact passing.dir f old (congrArg Path.hash here)
    · exact .incomplete _ _ (ranges_of_name valid last file (congrArg Path.name here)) rejected
    · exact .complete _ entry
  case distinct => exact merged.distinct
  case stored =>
    intro k there
    obtain ⟨f, member, same, ρ, entry, first, final⟩ := passing.stored k there
    rcases merged.kept f member same ρ entry with stays | ⟨inside, m, stays, path, whole⟩
    · exact ⟨f, stays, same, ρ, entry, first, final⟩
    · exact ⟨m, stays, congrArg Path.hash path, spanOf g, whole, inside.1.trans first, final.trans_le inside.2⟩
  case present =>
    intro h later c own
    obtain ⟨f, member, path, entry⟩ := passing.present h (mem_cons_of_mem g later) c own
    have named := plan.named h (mem_cons_of_mem g later) c own
    rcases merged.kept f member (path ▸ named.hash) _ entry with stays | ⟨inside, -⟩
    · exact ⟨f, stays, path, entry⟩
    · have apart := (pairwise_cons.mp plan.apart).1 h later
      have behind := ((plan.joined h (mem_cons_of_mem g later)).inside c own).1
      have order := named.valid.1
      have within : c.range.stop ≤ g.last := inside.2
      omega
  case known =>
    intro f member same ρ entry
    by_cases here : f.path = CacheRange.path ⟨hash, spanOf g, b⟩
    · rw [range_of_path valid last here entry]
      exact .inr (plan.later le_rfl)
    · exact passing.known_tail plan (merged.others f member here) same entry

variable {path : Path}

theorem mem_of_mem_forget (member : f ∈ (forgetIfIdle t path).2.files) : f ∈ t.files := by
  rcases forgetIfIdle_files t path with ⟨same, -⟩ | same
  · exact same ▸ member
  · rw [same] at member
    exact (mem_filter.mp member).1

theorem mem_forget (member : f ∈ t.files) (other : f.path ≠ path) : f ∈ (forgetIfIdle t path).2.files := by
  rcases forgetIfIdle_files t path with ⟨same, -⟩ | same
  · exact same.symm ▸ member
  · rw [same]
    exact mem_filter.mpr ⟨member, by simpa using other⟩

def CoversRun (xorb : Nat → Bytes) (g : MergeRun) (covering : Path) (t : Cache) : Prop :=
  ∃ f ∈ t.files, f.path = covering ∧ SealedEntry xorb (spanOf g) f

variable {covering : Path}

theorem Passing.forget {c : MergeCandidate} (passing : Passing xorb hash before gs t) (plan : Plan hash (g :: gs))
    (covers : CoversRun xorb g covering t) (same : covering.hash = hash) (member : c ∈ g.members)
    (other : c.path ≠ covering) :
    Passing xorb hash before gs (forgetIfIdle t c.path).2 where
  dir f there := passing.dir f (mem_of_mem_forget there)
  distinct := by
    rcases forgetIfIdle_files t c.path with ⟨files, -⟩ | files
    · rw [files]
      exact passing.distinct
    · rw [files]
      exact passing.distinct.sublist (List.filter_sublist.map _)
  stored k there := by
    obtain ⟨f, here, own, ρ, entry, first, last⟩ := passing.stored k there
    by_cases gone : f.path = c.path
    · obtain ⟨cover, kept, path, whole⟩ := covers
      have range := (plan.named g mem_cons_self c member).range_eq entry gone
      have inside := (plan.joined g mem_cons_self).inside c member
      subst range
      refine ⟨cover, mem_forget kept (path ▸ Ne.symm other), path ▸ same, spanOf g, whole, ?_, ?_⟩
      · exact inside.1.trans first
      · exact last.trans_le inside.2
    · exact ⟨f, mem_forget here gone, own, ρ, entry, first, last⟩
  present h later d own := by
    obtain ⟨f, here, path, entry⟩ := passing.present h later d own
    exact ⟨f, mem_forget here (path ▸ plan.other member later own), path, entry⟩
  known f there := passing.known f (mem_of_mem_forget there)

theorem CoversRun.forget (covers : CoversRun xorb g covering t) (other : path ≠ covering) :
    CoversRun xorb g covering (forgetIfIdle t path).2 := by
  obtain ⟨f, member, here, entry⟩ := covers
  exact ⟨f, mem_forget member (here ▸ Ne.symm other), here, entry⟩

structure Idle (hash : Bytes) (t : Cache) : Prop where
  uses : t.manager.Uses hash fun _ => 0
  files : ∀ f ∈ t.files, f.path.hash = hash → f.isDir = false ∧ f.locked = false

theorem Idle.forget (idle : Idle hash t) (path : Path) : Idle hash (forgetIfIdle t path).2 where
  uses p member := idle.uses p (forgetIfIdle_lru t path p member)
  files f member := idle.files f (mem_of_mem_forget member)

theorem Idle.gone (idle : Idle hash t) (same : path.hash = hash) :
    ∀ f ∈ (forgetIfIdle t path).2.files, f.path ≠ path := by
  intro f member
  rcases forgetIfIdle_files t path with ⟨-, ⟨e, tracked, used⟩ | ⟨g, there, here, busy⟩⟩ | files
  · exact absurd (idle.uses _ tracked same) (Nat.not_le.mpr used)
  · have := idle.files g there (here ▸ same)
    simp [this.1, this.2] at busy
  · rw [files] at member
    simpa using (mem_filter.mp member).2

/-- Of a run and what was before it, only one entry is left and those that lie before the run. -/
def Cleared (xorb : Nat → Bytes) (hash : Bytes) (g : MergeRun) (gs : List MergeRun) (t u : Cache) : Prop :=
  ∃ covering, ∀ f ∈ u.files, f.path.hash = hash → ∀ ρ, SealedEntry xorb ρ f →
    Listed gs f.path ∨ (f ∈ t.files ∧ ρ.stop < g.first.range.start ∧ ¬ Listed (g :: gs) f.path) ∨
    (f.path = covering ∧ ρ = spanOf g)

theorem Passing.cleared {u v : Cache} (passing : Passing xorb hash before (g :: gs) t)
    (range : ∀ f : CachedFile, f.path = covering → ∀ ρ, SealedEntry xorb ρ f → ρ = spanOf g)
    (others : ∀ f : CachedFile, f.path ≠ covering → f ∈ u.files → f ∈ t.files) (less : ∀ f ∈ v.files, f ∈ u.files)
    (gone : ∀ c ∈ g.members, c.path ≠ covering → ∀ f ∈ v.files, f.path ≠ c.path) : Cleared xorb hash g gs t v := by
  refine ⟨covering, fun f member same ρ entry => ?_⟩
  by_cases here : f.path = covering
  · exact .inr (.inr ⟨here, range f here ρ entry⟩)
  have old := others f here (less f member)
  by_cases known : Listed (g :: gs) f.path
  · obtain ⟨h, there, c, own, path⟩ := known
    rcases mem_cons.mp there with rfl | later
    · exact absurd path.symm (gone c own (path ▸ here) f member)
    · exact .inl ⟨h, later, c, own, path⟩
  · refine .inr (.inl ⟨old, ?_, known⟩)
    rcases passing.known f old same ρ entry with member | early
    · exact absurd member known
    · exact early g mem_cons_self

theorem Idle.wrote (idle : Idle r.hash t) (merged : Merged xorb env r t result) : Idle r.hash result.2 where
  uses := merged.uses _ idle.uses
  files f member same := by
    by_cases here : f.path = r.path
    · rcases merged.kinds f member here with old | ⟨-, file, unlocked, -⟩
      · exact idle.files f old same
      · exact ⟨file, unlocked⟩
    · exact idle.files f (merged.others f member here) same

theorem Idle.allowed (idle : Idle r.hash t) (valid : r.Valid) (fate : env.fate r.path = .written) :
    ¬ Denied env r r.path t := by
  rintro (invalid | unlocked | ⟨f, member, here, busy⟩)
  · exact invalid valid
  · rw [fate] at unlocked
    cases unlocked
  · have := idle.files f member (congrArg Path.hash here)
    simp [this.1, this.2] at busy

/-- A merged entry is written only where that spares the directory. -/
def Spared (env : MergeEnv) : MergeCall → Cache → Prop
  | .write r, s => WriteSpares env r s
  | _, _ => True

instance (env : MergeEnv) : ∀ c s, Decidable (Spared env c s)
  | .write r, s => inferInstanceAs (Decidable (WriteSpares env r s))
  | .list _, _ => inferInstanceAs (Decidable True)
  | .forget _, _ => inferInstanceAs (Decidable True)
  | .note _, _ => inferInstanceAs (Decidable True)

def Tidy (xorb : Nat → Bytes) (hash : Bytes) (gs : List MergeRun) (t : Cache) : Prop :=
  ∀ f ∈ t.files, ∀ f' ∈ t.files, f.path.hash = hash → f'.path.hash = hash → f.path ≠ f'.path →
    ¬ Listed gs f.path → ¬ Listed gs f'.path → ∀ ρ ρ', SealedEntry xorb ρ f → SealedEntry xorb ρ' f' →
      ρ.stop < ρ'.start ∨ ρ'.stop < ρ.start

theorem Tidy.step {u : Cache} (tidy : Tidy xorb hash (g :: gs) t) (cleared : Cleared xorb hash g gs t u) :
    Tidy xorb hash gs u := by
  intro f member f' member' same same' other free free' ρ ρ' entry entry'
  obtain ⟨covering, each⟩ := cleared
  rcases each f member same ρ entry with listed | ⟨old, early, unlisted⟩ | ⟨path, rfl⟩
  · exact absurd listed free
  · rcases each f' member' same' ρ' entry' with listed | ⟨old', -, unlisted'⟩ | ⟨-, rfl⟩
    · exact absurd listed free'
    · exact tidy f old f' old' same same' other unlisted unlisted' ρ ρ' entry entry'
    · exact .inl early
  · rcases each f' member' same' ρ' entry' with listed | ⟨-, early, -⟩ | ⟨path', rfl⟩
    · exact absurd listed free'
    · exact .inr early
    · exact absurd (path.trans path'.symm) other

end

end Xet.Download
