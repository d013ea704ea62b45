import Xet.Mirror.Failures

/-! What the lock sections of the mirror do to its tasks and records: only the end of a task takes a task away,
and a ready record stands under a key that names a commit. -/
namespace Xet.Mirror
open Wire List Function Lru

def isHex (s : Bytes) (n : Nat) : Bool := s.length = n ∧ (Hex.decode s).isSome = true

def isCommit (rev : Bytes) : Bool := isHex rev 40

namespace Table

variable {s : Table} {k q : ResolveKey} {e : FileEntry}

@[simp] theorem setEntry_tasks (s : Table) (k : ResolveKey) (e : Option FileEntry) : (s.setEntry k e).tasks = s.tasks := rfl

@[simp] theorem setTask_tasks (s : Table) (k : ResolveKey) (t : Option Task) :
    (s.setTask k t).tasks = update s.tasks k t := rfl

@[simp] theorem onEvicted_tasks (s : Table) (k : ResolveKey) : (s.onEvicted k).tasks = s.tasks := by
  rw [onEvicted]
  split
  · split <;> rfl
  · rfl

theorem evictFailed_tasks (c : List (ResolveKey × Unit)) (s : Table) : (evictFailed c s).tasks = s.tasks := by
  induction c generalizing s with
  | nil => rfl
  | cons p c ih =>
    rw [evictFailed]
    split
    · rw [ih, onEvicted_tasks]
    · rfl

@[simp] theorem touchFailed_tasks (s : Table) (k : ResolveKey) : (s.touchFailed k).tasks = s.tasks := evictFailed_tasks _ s

@[simp] theorem forgetFailed_tasks (s : Table) (k : ResolveKey) : (s.forgetFailed k).tasks = s.tasks := by
  rw [forgetFailed]
  split
  · exact onEvicted_tasks _ k
  · rfl

@[simp] theorem recordFailure_tasks (s : Table) (k : ResolveKey) (now : Nat) (notFound : Bool) (source : Bytes) :
    (s.recordFailure k now notFound source).tasks = s.tasks := touchFailed_tasks _ k

@[simp] theorem lookup_tasks (s : Table) (key src : ResolveKey) : (s.lookup key src).2.tasks = s.tasks := by
  rw [lookup]
  split
  · dsimp only
    split
    · exact touchFailed_tasks s _
    · rfl
  · rfl

@[simp] theorem load_tasks (manifest : List (ResolveKey × FileEntry)) (s : Table) : (load manifest s).tasks = s.tasks := by
  induction manifest generalizing s with
  | nil => rfl
  | cons p manifest ih =>
    rw [load, ih]
    split <;> rfl

@[simp] theorem retire_tasks (s : Table) (k : ResolveKey) (prev : Option Nat) : (s.retire k prev).tasks = s.tasks := by
  rw [retire]
  split
  · exact forgetFailed_tasks _ k
  · rfl

@[simp] theorem branchState_tasks (s : Table) (key : ResolveKey) (now : Nat) : (s.branchState key now).tasks = s.tasks := by
  rw [branchState]
  split
  · split
    · exact touchFailed_tasks s key
    · rfl
  · rfl

@[simp] theorem dropEntry_tasks (s : Table) (key : ResolveKey) (e : FileEntry) : (s.dropEntry key e).tasks = s.tasks := by
  rw [dropEntry]
  split <;> rfl

@[simp] theorem publish_tasks (s : Table) (t : Task) (e : FileEntry) (manifest : List (ResolveKey × FileEntry)) :
    (s.publish t e manifest).tasks = update s.tasks t.key none := by
  simp [publish]

@[simp] theorem failTask_tasks (s : Table) (t : Task) (pinned : Bool) (now : Nat) (notFound : Bool) :
    (s.failTask t pinned now notFound).tasks = update s.tasks t.key none := by
  rw [failTask]
  dsimp only
  split <;> simp

theorem onEvicted_sub (here : (s.onEvicted k).entries q = some e) : s.entries q = some e := by
  rw [onEvicted] at here
  split at here
  · split at here
    · rw [setEntry_entries] at here
      split at here
      · cases here
      · exact here
    · exact here
  · exact here

theorem evictFailed_sub {c : List (ResolveKey × Unit)} (here : (evictFailed c s).entries q = some e) :
    s.entries q = some e := by
  induction c generalizing s with
  | nil => exact here
  | cons p c ih =>
    rw [evictFailed] at here
    split at here
    · exact onEvicted_sub (ih here)
    · exact here

theorem touchFailed_sub (here : (s.touchFailed k).entries q = some e) : s.entries q = some e := evictFailed_sub here

theorem forgetFailed_sub (here : (s.forgetFailed k).entries q = some e) : s.entries q = some e := by
  rw [forgetFailed] at here
  split at here
  · exact onEvicted_sub (s := { s with failed := remove s.failed k }) here
  · exact here

theorem setEntry_none_sub (here : (s.setEntry k none).entries q = some e) : s.entries q = some e := by
  rw [setEntry_entries] at here
  split at here
  · cases here
  · exact here

theorem touchFailed_self (s : Table) (k : ResolveKey) : (s.touchFailed k).entries k = s.entries k := by
  have away : k ∉ keys (remove s.failed k) := not_mem_keys_remove s.failed k
  rw [touchFailed, put]
  generalize remove s.failed k = c at away
  induction c generalizing s with
  | nil => rfl
  | cons p c ih =>
    rw [cons_append, evictFailed]
    split
    · have other : k ≠ p.1 := fun same => away (same ▸ mem_cons_self)
      rw [ih _ fun member => away (mem_cons_of_mem _ member), onEvicted]
      split
      · split
        · rw [setEntry_entries, if_neg other]
        · rfl
      · rfl
    · rfl

def Pinned (s : Table) : Prop := ∀ q e, s.entries q = some e → e.state = .ready → isCommit q.rev = true

section
variable (pinned : s.Pinned)
include pinned

theorem Pinned.sub {s' : Table} (sub : ∀ q e, s'.entries q = some e → s.entries q = some e) : s'.Pinned :=
  fun q e here => pinned q e (sub q e here)

theorem Pinned.setEntry (k : ResolveKey) {new : Option FileEntry}
    (fits : ∀ e, new = some e → e.state = .ready → isCommit k.rev = true) : (s.setEntry k new).Pinned := by
  intro q e here ready
  rw [setEntry_entries] at here
  split at here
  · rename_i same
    exact same ▸ fits e here ready
  · exact pinned q e here ready

theorem Pinned.touchFailed (k : ResolveKey) : (s.touchFailed k).Pinned :=
  pinned.sub fun _ _ => touchFailed_sub

theorem Pinned.forgetFailed (k : ResolveKey) : (s.forgetFailed k).Pinned :=
  pinned.sub fun _ _ => forgetFailed_sub

theorem Pinned.setFailed (k : ResolveKey) {e : FileEntry} (failed : e.state = .failed) :
    ((s.setEntry k (some e)).touchFailed k).Pinned := by
  apply (pinned.setEntry k ?_).touchFailed
  rintro _ ⟨⟩ ready
  cases failed.symm.trans ready

theorem Pinned.setTask (k : ResolveKey) (t : Option Task) : (s.setTask k t).Pinned := pinned

theorem Pinned.recordFailure (k : ResolveKey) (now : Nat) (notFound : Bool) (source : Bytes) :
    (s.recordFailure k now notFound source).Pinned :=
  Pinned.setFailed (s := { s with next := s.next + 1 }) pinned k (e := s.failure k now notFound source) rfl

theorem Pinned.lookup (key src : ResolveKey) : (s.lookup key src).2.Pinned := by
  rw [Table.lookup]
  split
  · dsimp only
    split
    · exact pinned.touchFailed _
    · exact pinned
  · exact pinned

end

variable {manifest : List (ResolveKey × FileEntry)}

section
variable (pinned : s.Pinned)
include pinned

theorem Pinned.load (commits : ∀ p ∈ manifest, isCommit p.1.rev = true) : (load manifest s).Pinned := by
  induction manifest generalizing s with
  | nil => exact pinned
  | cons p manifest ih =>
    have others : ∀ p ∈ manifest, isCommit p.1.rev = true := fun q member => commits q (mem_cons_of_mem _ member)
    rw [Table.load]
    split
    · exact ih (pinned.setEntry p.1 fun _ _ _ => commits p mem_cons_self) others
    · exact ih pinned others

theorem Pinned.retire (k : ResolveKey) (prev : Option Nat) : (s.retire k prev).Pinned := by
  rw [Table.retire]
  split
  · exact (pinned.sub fun q e => setEntry_none_sub).forgetFailed k
  · exact pinned

theorem Pinned.publish {t : Task} (commit : isCommit t.key.rev = true) (e : FileEntry)
    (commits : ∀ p ∈ manifest, isCommit p.1.rev = true) : (s.publish t e manifest).Pinned :=
  ((((pinned.retire t.src t.prev).setEntry t.key fun _ _ _ => commit).forgetFailed t.key).load commits).setTask t.key none

theorem Pinned.failTask (t : Task) (pin : Bool) (now : Nat) (notFound : Bool) :
    (s.failTask t pin now notFound).Pinned := by
  rw [Table.failTask]
  dsimp only
  split
  · exact ((pinned.setTask t.key none).recordFailure t.src now notFound t.src.rev).setFailed t.key rfl
  · exact (pinned.setTask t.key none).recordFailure t.key now notFound t.src.rev

theorem Pinned.branchState (key : ResolveKey) (now : Nat) : (s.branchState key now).Pinned := by
  rw [Table.branchState]
  split
  · split
    · exact pinned.touchFailed key
    · exact pinned
  · exact pinned

theorem Pinned.dropEntry (key : ResolveKey) (e : FileEntry) : (s.dropEntry key e).Pinned := by
  rw [Table.dropEntry]
  split
  · exact pinned.sub fun q e => setEntry_none_sub
  · exact pinned

end

def taskFailure (s : Table) (t : Task) (pinned : Bool) (now : Nat) (notFound : Bool) : FileEntry :=
  if t.src ≠ t.key ∧ pinned = true then s.failure t.src now notFound t.src.rev
  else s.failure t.key now notFound t.src.rev

theorem recordFailure_self (s : Table) (k : ResolveKey) (now : Nat) (notFound : Bool) (source : Bytes) :
    (s.recordFailure k now notFound source).entries k = some (s.failure k now notFound source) := by
  rw [recordFailure, touchFailed_self]
  exact (setEntry_entries s k k _).trans (if_pos rfl)

theorem failTask_self (s : Table) (t : Task) (pinned : Bool) (now : Nat) (notFound : Bool) :
    (s.failTask t pinned now notFound).entries t.key = some (s.taskFailure t pinned now notFound) := by
  rw [failTask, taskFailure]
  dsimp only
  split
  · rw [touchFailed_self, setEntry_entries, if_pos rfl]
    rfl
  · exact recordFailure_self (s.setTask t.key none) t.key now notFound t.src.rev

theorem load_keeps (here : s.entries q = some e) : (load manifest s).entries q = some e := by
  induction manifest generalizing s with
  | nil => exact here
  | cons p manifest ih =>
    rw [load]
    apply ih
    split
    · rename_i missing
      have other : q ≠ p.1 := by
        rintro rfl
        cases missing.1.symm.trans here
      rw [setEntry_entries, if_neg other]
      exact here
    · exact here

theorem publish_self (s : Table) (t : Task) (e : FileEntry) (manifest : List (ResolveKey × FileEntry)) :
    (s.publish t e manifest).entries t.key = some { e with state := .ready } := by
  rw [publish, setTask_entries]
  apply load_keeps
  apply ready_forgetFailed _ rfl
  rw [setEntry_entries, if_pos rfl]

end Table

end Xet.Mirror
