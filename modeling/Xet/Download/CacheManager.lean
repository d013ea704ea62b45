import Xet.Download.CacheEntry
import Xet.Lib.Cover
import Xet.Lib.Lru

/-! The manager of a cache directory. It counts the users of the entries and, over capacity, removes
the entries that were used least recently and that nobody uses. -/
namespace Xet.Download
open Wire File List Lru

structure Path where
  hash : Bytes
  name : Bytes
  deriving DecidableEq

structure CachedFile where
  path : Path
  isDir : Bool
  content : Bytes
  /-- Someone else has the lock. -/
  locked : Bool
  modTime : Nat
  deriving DecidableEq

structure Tracked where
  size : Nat
  refs : Nat
  deriving DecidableEq

structure CacheManager where
  capacity : Int
  lru : List (Path × Tracked)
  total : Int
  lastReconcile : Option Nat
  lastEvictFailed : Option Nat
  verified : List Path
  pendingMerge : List Bytes
  /-- How often the clock was read. -/
  looks : Nat

structure Cache where
  files : List CachedFile
  manager : CacheManager

namespace CacheManager

def acquire (m : CacheManager) (path : Path) (size : Nat) : CacheManager :=
  match Lru.find m.lru path with
  | some e => { m with lru := Lru.put m.lru path ⟨size, e.refs + 1⟩, total := m.total + (size - e.size) }
  | none => { m with lru := Lru.put m.lru path ⟨size, 1⟩, total := m.total + size }

/-- The pause of eviction ends when nobody uses the entry any more. -/
def release (m : CacheManager) (path : Path) : CacheManager :=
  match Lru.find m.lru path with
  | none => m
  | some e =>
    { m with
      lru := Lru.put m.lru path ⟨e.size, e.refs - 1⟩
      lastEvictFailed := if e.refs = 1 then none else m.lastEvictFailed }

def markVerified (m : CacheManager) (path : Path) : CacheManager := { m with verified := path :: m.verified }

def forgetVerified (m : CacheManager) (path : Path) : CacheManager :=
  { m with verified := m.verified.filter (· ≠ path) }

def noteMergeCandidate (m : CacheManager) (hash : Bytes) : CacheManager :=
  if hash.length < minCacheHashLen then m else { m with pendingMerge := m.pendingMerge.filter (· ≠ hash) ++ [hash] }

end CacheManager

/-- A name that is gone already counts as removed. -/
def removeCacheEntry (files : List CachedFile) (path : Path) : Bool × List CachedFile :=
  match files.find? (·.path = path) with
  | none => (true, files)
  | some f => if f.isDir ∨ f.locked then (false, files) else (true, files.filter (·.path ≠ path))

def CachedFile.ranges (f : CachedFile) : Option (ChunkRange × ByteRange) :=
  if f.isDir then none else parseCacheFileName f.path.name

def CachedFile.complete (f : CachedFile) : Bool :=
  match f.ranges with
  | none => false
  | some (r, _) => decide (Accepted r f.content)

def CachedFile.leftover (f : CachedFile) : Bool := f.ranges.isSome && !f.complete && !f.locked

def reconcileInterval : Nat := 60 * 10 ^ 9

def evictBackoff : Nat := 10 ^ 9

/-- What the manager knows from outside: the time at each look at the clock, and an order of files by
their times. -/
structure Surroundings where
  clock : Nat → Nat
  byTime : Cover.Sorter fun f g : CachedFile => f.modTime ≤ g.modTime

/-- The loop over the entries from the oldest one on. Those that cannot be removed come to the end. -/
def evictLoop (capacity : Int) : List (Path × Tracked) → List (Path × Tracked) → Cache → Cache
  | [], skipped, s => { s with manager.lru := skipped }
  | (path, e) :: rest, skipped, s =>
    if s.manager.total ≤ capacity then { s with manager.lru := (path, e) :: rest ++ skipped }
    else if 0 < e.refs then evictLoop capacity rest (skipped ++ [(path, e)]) s
    else
      match removeCacheEntry s.files path with
      | (false, _) => evictLoop capacity rest (skipped ++ [(path, e)]) s
      | (true, files) =>
        let m := s.manager.forgetVerified path
        evictLoop capacity rest skipped ⟨files, { m with total := m.total - e.size }⟩

def evictLocked (env : Surroundings) (s : Cache) : Cache :=
  if s.manager.capacity ≤ 0 then s
  else
    let s := evictLoop s.manager.capacity s.manager.lru [] s
    if s.manager.capacity < s.manager.total then
      { s with manager.lastEvictFailed := some (env.clock s.manager.looks), manager.looks := s.manager.looks + 1 }
    else { s with manager.lastEvictFailed := none }

/-- The tracked entries are those in the directory. -/
def reconcileLocked (env : Surroundings) (s : Cache) : Cache :=
  let m := s.manager
  let files := s.files.filter fun f => !f.leftover
  let found := files.filter CachedFile.complete
  let size path := (found.find? (·.path = path)).map fun f => f.content.length
  let tracked := m.lru.filterMap fun (path, e) => (size path).map fun n => (path, { e with size := n })
  let kept := tracked.map Prod.fst
  let adopted := ((env.byTime.sort found).filter (·.path ∉ kept)).map fun f => (f.path, ⟨f.content.length, 0⟩)
  let lru := tracked ++ adopted
  ⟨files, { m with
    lru := lru
    total := (lru.map fun p => p.2.size).sum
    lastReconcile := some (env.clock m.looks)
    verified := m.verified.filter fun path => (size path).isSome ∨ Lru.find m.lru path = none
    looks := m.looks + 1 }⟩

def due (now : Nat) (interval : Nat) : Option Nat → Bool
  | none => true
  | some t => decide (interval ≤ now - t)

def evaluate (env : Surroundings) (s : Cache) : Cache :=
  if s.manager.capacity ≤ 0 ∨ s.manager.total < s.manager.capacity then s
  else if !due (env.clock s.manager.looks) evictBackoff s.manager.lastEvictFailed then
    { s with manager.looks := s.manager.looks + 1 }
  else
    let s := { s with manager.looks := s.manager.looks + 1 }
    let reconcile := due (env.clock s.manager.looks) reconcileInterval s.manager.lastReconcile
    let s := { s with manager.looks := s.manager.looks + 1 }
    evictLocked env (if reconcile then reconcileLocked env s else s)

def forgetIfIdle (s : Cache) (path : Path) : Bool × Cache :=
  let touched : Cache :=
    match Lru.find s.manager.lru path with
    | none => s
    | some e => { s with manager.lru := Lru.put s.manager.lru path e }
  match Lru.find s.manager.lru path with
  | some ⟨_, _ + 1⟩ => (false, touched)
  | tracked =>
    match removeCacheEntry touched.files path with
    | (false, _) => (false, touched)
    | (true, files) =>
      let m := touched.manager.forgetVerified path
      let size := tracked.elim 0 Tracked.size
      (true, ⟨files, { m with lru := Lru.remove m.lru path, total := m.total - size }⟩)

/-- The entries of the directory have no more users than `n` says. -/
def CacheManager.Uses (m : CacheManager) (hash : Bytes) (n : Path → Nat) : Prop :=
  ∀ p ∈ m.lru, p.1.hash = hash → p.2.refs ≤ n p.1

section
variable {m : CacheManager} {hash : Bytes} {n : Path → Nat}

theorem CacheManager.Uses.acquire (uses : m.Uses hash n) (path : Path) (size : Nat) :
    (m.acquire path size).Uses hash fun q => n q + if q = path then 1 else 0 := by
  intro p member same
  rw [CacheManager.acquire] at member
  cases tracked : find m.lru path with
  | none =>
    rw [tracked] at member
    rcases mem_put.mp member with ⟨old, -⟩ | rfl
    · exact (uses p old same).trans (Nat.le_add_right _ _)
    · simp
  | some e =>
    rw [tracked] at member
    rcases mem_put.mp member with ⟨old, -⟩ | rfl
    · exact (uses p old same).trans (Nat.le_add_right _ _)
    · simpa using uses _ (mem_of_find tracked) same

theorem CacheManager.Uses.release (uses : m.Uses hash n) (path : Path) :
    (m.release path).Uses hash fun q => n q - if q = path then 1 else 0 := by
  intro p member same
  rw [CacheManager.release] at member
  cases tracked : find m.lru path with
  | none =>
    rw [tracked] at member
    have other : p.1 ≠ path := fun here => find_eq_none.mp tracked (here ▸ mem_map_of_mem member)
    simpa [other] using uses p member same
  | some e =>
    rw [tracked] at member
    rcases mem_put.mp member with ⟨old, other⟩ | rfl
    · simpa [other] using uses p old same
    · simpa using Nat.sub_le_sub_right (uses _ (mem_of_find tracked) same) 1

theorem CacheManager.Uses.note (uses : m.Uses hash n) (hash' : Bytes) : (m.noteMergeCandidate hash').Uses hash n := by
  rw [noteMergeCandidate]
  split <;> exact uses

end

theorem removeCacheEntry_cases (files : List CachedFile) (path : Path) :
    (removeCacheEntry files path = (false, files) ∧ ∃ f ∈ files, f.path = path ∧ (f.isDir = true ∨ f.locked = true)) ∨
    removeCacheEntry files path = (true, files.filter (·.path ≠ path)) := by
  rw [removeCacheEntry]
  cases found : files.find? (·.path = path) with
  | none =>
    have absent : files.filter (·.path ≠ path) = files := by
      rw [filter_eq_self]
      intro f member
      simpa using find?_eq_none.mp found f member
    exact .inr (by rw [absent])
  | some f =>
    have here := mem_of_find?_eq_some found
    have named : f.path = path := by simpa using find?_some found
    by_cases busy : f.isDir = true ∨ f.locked = true
    · exact .inl ⟨by simp only [busy, if_true], f, here, named, busy⟩
    · exact .inr (by simp only [busy, if_false])

theorem forgetIfIdle_files (s : Cache) (path : Path) :
    ((forgetIfIdle s path).2.files = s.files ∧
      ((∃ e, (path, e) ∈ s.manager.lru ∧ 0 < e.refs) ∨ ∃ f ∈ s.files, f.path = path ∧ (f.isDir = true ∨ f.locked = true))) ∨
    (forgetIfIdle s path).2.files = s.files.filter (·.path ≠ path) := by
  rw [forgetIfIdle]
  cases tracked : find s.manager.lru path with
  | none =>
    rcases removeCacheEntry_cases s.files path with ⟨stays, busy⟩ | gone
    · exact .inl ⟨by simp only [stays], .inr busy⟩
    · exact .inr (by simp only [gone])
  | some e =>
    obtain ⟨size, refs⟩ := e
    cases refs with
    | zero =>
      rcases removeCacheEntry_cases s.files path with ⟨stays, busy⟩ | gone
      · exact .inl ⟨by simp only [stays], .inr busy⟩
      · exact .inr (by simp only [gone])
    | succ refs => exact .inl ⟨rfl, .inl ⟨_, mem_of_find tracked, Nat.succ_pos refs⟩⟩

theorem forgetIfIdle_lru (s : Cache) (path : Path) : ∀ p ∈ (forgetIfIdle s path).2.manager.lru, p ∈ s.manager.lru := by
  have put_self : ∀ e, find s.manager.lru path = some e → ∀ p ∈ put s.manager.lru path e, p ∈ s.manager.lru := by
    intro e tracked p member
    rcases mem_put.mp member with ⟨old, -⟩ | rfl
    · exact old
    · exact mem_of_find tracked
  rw [forgetIfIdle]
  cases tracked : find s.manager.lru path with
  | none =>
    rcases removeCacheEntry_cases s.files path with ⟨stays, -⟩ | gone
    · simp only [stays]
      exact fun p member => member
    · simp only [gone]
      exact fun p member => (mem_remove.mp member).1
  | some e =>
    obtain ⟨size, refs⟩ := e
    cases refs with
    | zero =>
      rcases removeCacheEntry_cases s.files path with ⟨stays, -⟩ | gone
      · simp only [stays]
        exact put_self _ tracked
      · simp only [gone]
        exact fun p member => put_self _ tracked p (mem_remove.mp member).1
    | succ refs => exact put_self _ tracked

theorem removeCacheEntry_sublist (files : List CachedFile) (path : Path) :
    (removeCacheEntry files path).2.Sublist files := by
  rcases removeCacheEntry_cases files path with ⟨stays, -⟩ | gone
  · rw [stays]
  · rw [gone]
    exact List.filter_sublist

theorem evictLoop_spec (capacity : Int) (lru skipped : List (Path × Tracked)) (s : Cache) :
    (evictLoop capacity lru skipped s).files.Sublist s.files ∧
    ∀ p ∈ (evictLoop capacity lru skipped s).manager.lru, p ∈ lru ∨ p ∈ skipped := by
  induction lru generalizing skipped s with
  | nil => exact ⟨.refl _, fun p member => .inr member⟩
  | cons q rest ih =>
    obtain ⟨path, e⟩ := q
    -- An entry that stays comes to those that were skipped before.
    have kept : (evictLoop capacity rest (skipped ++ [(path, e)]) s).files.Sublist s.files ∧
        ∀ p ∈ (evictLoop capacity rest (skipped ++ [(path, e)]) s).manager.lru, p ∈ (path, e) :: rest ∨ p ∈ skipped := by
      obtain ⟨files, lru⟩ := ih (skipped ++ [(path, e)]) s
      refine ⟨files, fun p member => ?_⟩
      have := lru p member
      rw [mem_append, mem_singleton] at this
      rw [mem_cons]
      tauto
    rw [evictLoop]
    split
    · exact ⟨.refl _, fun p member => mem_append.mp member⟩
    split
    · exact kept
    · have sub := removeCacheEntry_sublist s.files path
      generalize removeCacheEntry s.files path = removal at sub
      obtain ⟨removed, files⟩ := removal
      cases removed with
      | false => exact kept
      | true =>
        obtain ⟨less, lru⟩ := ih skipped ⟨files, { s.manager.forgetVerified path with
          total := (s.manager.forgetVerified path).total - e.size }⟩
        exact ⟨less.trans sub, fun p member => (lru p member).imp_left (mem_cons_of_mem _)⟩

theorem evictLocked_spec (env : Surroundings) (s : Cache) :
    (evictLocked env s).files.Sublist s.files ∧ ∀ p ∈ (evictLocked env s).manager.lru, p ∈ s.manager.lru := by
  obtain ⟨files, lru⟩ := evictLoop_spec s.manager.capacity s.manager.lru [] s
  have lru : ∀ p ∈ (evictLoop s.manager.capacity s.manager.lru [] s).manager.lru, p ∈ s.manager.lru :=
    fun p member => (lru p member).resolve_right (not_mem_nil)
  rw [evictLocked]
  split
  · exact ⟨.refl _, fun p member => member⟩
  · dsimp only
    split <;> exact ⟨files, lru⟩

section
variable {hash : Bytes} {n : Path → Nat} {s : Cache}

theorem reconcileLocked_uses (env : Surroundings) (uses : s.manager.Uses hash n) :
    (reconcileLocked env s).manager.Uses hash n := by
  intro p member same
  rcases mem_append.mp member with kept | adopted
  · obtain ⟨⟨path, e⟩, there, found⟩ := mem_filterMap.mp kept
    obtain ⟨size, -, rfl⟩ := Option.map_eq_some_iff.mp found
    exact uses (path, e) there same
  · obtain ⟨f, -, rfl⟩ := mem_map.mp adopted
    exact Nat.zero_le _

theorem evaluate_sublist (env : Surroundings) (s : Cache) : (evaluate env s).files.Sublist s.files := by
  rw [evaluate]
  split
  · exact .refl _
  split
  · exact .refl _
  · dsimp only
    refine (evictLocked_spec _ _).1.trans ?_
    split
    · exact List.filter_sublist
    · exact .refl _

theorem evaluate_uses (env : Surroundings) (uses : s.manager.Uses hash n) : (evaluate env s).manager.Uses hash n := by
  rw [evaluate]
  split
  · exact uses
  split
  · exact uses
  · dsimp only
    intro p member
    have before := (evictLocked_spec _ _).2 p member
    split at before
    · exact reconcileLocked_uses (s := ⟨s.files, _⟩) env uses p before
    · exact uses p before

end

end Xet.Download
