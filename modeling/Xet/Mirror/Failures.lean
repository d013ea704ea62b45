import Mathlib.Data.List.Perm.Subperm
import Xet.Mirror.Table

/-! Failures in the table. Every failed record is among the failures by use, of which there is a bounded
number, and neither dropping nor forgetting a failure takes a ready record away. -/
namespace Xet.Mirror
open Wire List Lru

namespace Table

variable {s : Table} {k q : ResolveKey} {e : FileEntry}

def Failed (s : Table) (k : ResolveKey) : Prop := ∃ e, s.entries k = some e ∧ e.state = .failed

structure Bounded (s : Table) : Prop where
  listed : ∀ k, s.Failed k → k ∈ Lru.keys s.failed
  distinct : (Lru.keys s.failed).Nodup
  few : s.failed.length ≤ maxFailedEntries

@[simp] theorem setEntry_entries (s : Table) (k q : ResolveKey) (e : Option FileEntry) :
    (s.setEntry k e).entries q = if q = k then e else s.entries q := Function.update_apply _ _ _ _

@[simp] theorem setTask_entries (s : Table) (k : ResolveKey) (t : Option Task) : (s.setTask k t).entries = s.entries := rfl

theorem onEvicted_failed (s : Table) (k : ResolveKey) : (s.onEvicted k).failed = s.failed := by
  rw [onEvicted]
  split
  · split <;> rfl
  · rfl

theorem failed_onEvicted (failed : (s.onEvicted k).Failed q) : s.Failed q ∧ q ≠ k := by
  obtain ⟨e, here, state⟩ := failed
  rw [onEvicted] at here
  split at here
  · rename_i e' found
    split at here
    · rw [setEntry_entries] at here
      split at here
      · cases here
      · rename_i other
        exact ⟨⟨e, here, state⟩, other⟩
    · rename_i ready
      refine ⟨⟨e, here, state⟩, ?_⟩
      rintro rfl
      cases found.symm.trans here
      exact ready state
  · rename_i missing
    refine ⟨⟨e, here, state⟩, ?_⟩
    rintro rfl
    cases missing.symm.trans here

theorem ready_onEvicted (here : s.entries q = some e) (ready : e.state = .ready) : (s.onEvicted k).entries q = some e := by
  rw [onEvicted]
  split
  · rename_i e' found
    split
    · rename_i failed
      have other : q ≠ k := by
        rintro rfl
        cases found.symm.trans here
        cases ready.symm.trans failed
      rw [setEntry_entries, if_neg other]
      exact here
    · exact here
  · exact here

theorem evictFailed_bounded {c : List (ResolveKey × Unit)} (listed : ∀ q, s.Failed q → q ∈ Lru.keys c)
    (distinct : (Lru.keys c).Nodup) : (evictFailed c s).Bounded := by
  induction c generalizing s with
  | nil => exact ⟨listed, distinct, Nat.zero_le _⟩
  | cons p c ih =>
    obtain ⟨k, u⟩ := p
    rw [evictFailed]
    split
    · refine ih (fun q failed => ?_) (nodup_cons.mp distinct).2
      obtain ⟨failed, other⟩ := failed_onEvicted failed
      exact (mem_cons.mp (listed q failed)).resolve_left other
    · rename_i few
      exact ⟨listed, distinct, Nat.not_lt.mp few⟩

theorem ready_evictFailed {c : List (ResolveKey × Unit)} (here : s.entries q = some e) (ready : e.state = .ready) :
    (evictFailed c s).entries q = some e := by
  induction c generalizing s with
  | nil => exact here
  | cons p c ih =>
    rw [evictFailed]
    split
    · exact ih (ready_onEvicted here ready)
    · exact here

theorem touchFailed_bounded (listed : ∀ q, s.Failed q → q = k ∨ q ∈ Lru.keys s.failed)
    (distinct : (Lru.keys s.failed).Nodup) : (s.touchFailed k).Bounded := by
  refine evictFailed_bounded (fun q failed => ?_) (nodup_put distinct k ())
  rw [mem_keys_put]
  exact listed q failed

theorem ready_touchFailed (here : s.entries q = some e) (ready : e.state = .ready) :
    (s.touchFailed k).entries q = some e := ready_evictFailed here ready

theorem Bounded.touchFailed (bounded : s.Bounded) (k : ResolveKey) : (s.touchFailed k).Bounded :=
  touchFailed_bounded (fun q failed => .inr (bounded.listed q failed)) bounded.distinct

theorem Bounded.forgetFailed (bounded : s.Bounded) (k : ResolveKey) : (s.forgetFailed k).Bounded := by
  rw [Table.forgetFailed]
  split
  · refine ⟨fun q failed => ?_, ?_, ?_⟩
    · obtain ⟨⟨e, here, state⟩, other⟩ := failed_onEvicted failed
      obtain ⟨p, member, rfl⟩ := mem_map.mp (bounded.listed q ⟨e, here, state⟩)
      rw [onEvicted_failed]
      exact mem_map_of_mem (mem_remove.mpr ⟨member, other⟩)
    · rw [onEvicted_failed]
      exact nodup_remove bounded.distinct k
    · rw [onEvicted_failed]
      exact (length_filter_le _ _).trans bounded.few
  · exact bounded

theorem ready_forgetFailed (here : s.entries q = some e) (ready : e.state = .ready) :
    (s.forgetFailed k).entries q = some e := by
  rw [Table.forgetFailed]
  split
  · exact ready_onEvicted here ready
  · exact here

section
variable (bounded : s.Bounded)
include bounded

theorem Bounded.setEntry (k : ResolveKey) {e : Option FileEntry} (other : ∀ e', e = some e' → e'.state ≠ .failed) :
    (s.setEntry k e).Bounded := by
  refine ⟨fun q failed => ?_, bounded.distinct, bounded.few⟩
  obtain ⟨e', here, state⟩ := failed
  rw [setEntry_entries] at here
  split at here
  · exact absurd state (other e' here)
  · exact bounded.listed q ⟨e', here, state⟩

theorem Bounded.drop (k : ResolveKey) : (s.setEntry k none).Bounded := bounded.setEntry k nofun

theorem Bounded.setReady (k : ResolveKey) (e : FileEntry) :
    (s.setEntry k (some { e with state := .ready })).Bounded := by
  apply bounded.setEntry
  rintro _ ⟨⟩ state
  cases state

theorem Bounded.setFailed (k : ResolveKey) (e : FileEntry) : ((s.setEntry k (some e)).touchFailed k).Bounded := by
  refine touchFailed_bounded (fun q failed => ?_) bounded.distinct
  obtain ⟨e', here, state⟩ := failed
  rw [setEntry_entries] at here
  split at here
  · rename_i same
    exact .inl same
  · exact .inr (bounded.listed q ⟨e', here, state⟩)

theorem Bounded.setTask (k : ResolveKey) (t : Option Task) : (s.setTask k t).Bounded :=
  ⟨bounded.listed, bounded.distinct, bounded.few⟩

theorem Bounded.recordFailure (k : ResolveKey) (now : Nat) (notFound : Bool) (source : Bytes) :
    (s.recordFailure k now notFound source).Bounded := by
  have counted : Bounded { s with next := s.next + 1 } := ⟨bounded.listed, bounded.distinct, bounded.few⟩
  exact counted.setFailed k (s.failure k now notFound source)

theorem Bounded.lookup (key src : ResolveKey) : (s.lookup key src).2.Bounded := by
  rw [Table.lookup]
  split
  · dsimp only
    split
    · exact bounded.touchFailed _
    · exact bounded
  · exact bounded

theorem Bounded.load (manifest : List (ResolveKey × FileEntry)) : (load manifest s).Bounded := by
  induction manifest generalizing s with
  | nil => exact bounded
  | cons p manifest ih =>
    rw [Table.load]
    split
    · exact ih (bounded.setReady p.1 p.2)
    · exact ih bounded

theorem Bounded.retire (k : ResolveKey) (prev : Option Nat) : (s.retire k prev).Bounded := by
  rw [Table.retire]
  split
  · exact (bounded.drop k).forgetFailed k
  · exact bounded

theorem Bounded.publish (t : Task) (e : FileEntry) (manifest : List (ResolveKey × FileEntry)) :
    (s.publish t e manifest).Bounded :=
  ((((bounded.retire t.src t.prev).setReady t.key e).forgetFailed t.key).load manifest).setTask t.key none

theorem Bounded.failTask (t : Task) (pinned : Bool) (now : Nat) (notFound : Bool) :
    (s.failTask t pinned now notFound).Bounded := by
  rw [Table.failTask]
  dsimp only
  split
  · exact ((bounded.setTask t.key none).recordFailure t.src now notFound t.src.rev).setFailed t.key _
  · exact (bounded.setTask t.key none).recordFailure t.key now notFound t.src.rev

theorem Bounded.branchState (key : ResolveKey) (now : Nat) : (s.branchState key now).Bounded := by
  rw [Table.branchState]
  split
  · split
    · exact bounded.touchFailed key
    · exact bounded
  · exact bounded

theorem Bounded.dropEntry (key : ResolveKey) (e : FileEntry) : (s.dropEntry key e).Bounded := by
  rw [Table.dropEntry]
  split
  · exact bounded.drop key
  · exact bounded

end

inductive Step : Table → Table → Prop
  | lookup {s : Table} (key src : ResolveKey) : Step s (s.lookup key src).2
  | register {s : Table} (t : Task) : Step s (s.setTask t.key (some t))
  | publish {s : Table} (t : Task) (e : FileEntry) (manifest : List (ResolveKey × FileEntry)) : Step s (s.publish t e manifest)
  | failTask {s : Table} (t : Task) (pinned : Bool) (now : Nat) (notFound : Bool) : Step s (s.failTask t pinned now notFound)
  | branchState {s : Table} (key : ResolveKey) (now : Nat) : Step s (s.branchState key now)
  | branchFail {s : Table} (key : ResolveKey) (now : Nat) (notFound : Bool) : Step s (s.recordFailure key now notFound [])
  | branchPin {s : Table} (key : ResolveKey) (prev : Option Nat) : Step s (s.retire key prev)
  | dropEntry {s : Table} (key : ResolveKey) (e : FileEntry) : Step s (s.dropEntry key e)
  | load {s : Table} (manifest : List (ResolveKey × FileEntry)) : Step s (load manifest s)

inductive Reached : Table → Prop
  | empty : Reached .empty
  | step {s s' : Table} : Reached s → Step s s' → Reached s'

theorem Step.bounded {s s' : Table} (step : Step s s') (bounded : s.Bounded) : s'.Bounded := by
  cases step with
  | lookup key src => exact bounded.lookup key src
  | register t => exact bounded.setTask t.key (some t)
  | publish t e manifest => exact bounded.publish t e manifest
  | failTask t pinned now notFound => exact bounded.failTask t pinned now notFound
  | branchState key now => exact bounded.branchState key now
  | branchFail key now notFound => exact bounded.recordFailure key now notFound []
  | branchPin key prev => exact bounded.retire key prev
  | dropEntry key e => exact bounded.dropEntry key e
  | load manifest => exact bounded.load manifest

theorem Reached.bounded {s : Table} (reached : Reached s) : s.Bounded := by
  induction reached with
  | empty => exact ⟨nofun, nodup_nil, Nat.zero_le _⟩
  | step _ step ih => exact step.bounded ih

end Table

/-- Failures stay listed and few, and ready records outlive the dropping and forgetting of failures. -/
theorem failure_records_bounded :
    (∀ s : Table, s.Reached → (∀ k, s.Failed k → k ∈ Lru.keys s.failed) ∧
      ∀ ks : List ResolveKey, ks.Nodup → (∀ k ∈ ks, s.Failed k) → ks.length ≤ maxFailedEntries) ∧
    (∀ (s : Table) (k q : ResolveKey) (e : FileEntry), s.entries q = some e → e.state = .ready →
      (s.touchFailed k).entries q = some e ∧ (s.forgetFailed k).entries q = some e) := by
  constructor
  · intro s reached
    have bounded := reached.bounded
    refine ⟨bounded.listed, fun ks distinct failed => ?_⟩
    have inside : ks ⊆ Lru.keys s.failed := fun k member => bounded.listed k (failed k member)
    calc ks.length ≤ (Lru.keys s.failed).length := (List.subperm_of_subset distinct inside).length_le
      _ = s.failed.length := List.length_map _
      _ ≤ maxFailedEntries := bounded.few
  · intro s k q e here ready
    exact ⟨Table.ready_touchFailed here ready, Table.ready_forgetFailed here ready⟩

def branchTask : Task := ⟨0, ⟨[97], [98], [99]⟩, ⟨[97], [100], [99]⟩, none⟩

/-- Its failure is kept under both of its keys. -/
theorem branch_task_failure_listed :
    branchTask.key ∈ Lru.keys (Table.empty.failTask branchTask true 5 false).failed ∧
      branchTask.src ∈ Lru.keys (Table.empty.failTask branchTask true 5 false).failed := by
  have listed := (failure_records_bounded.1 _ (.step .empty (.failTask branchTask true 5 false))).1
  exact ⟨listed _ ⟨_, rfl, rfl⟩, listed _ ⟨_, rfl, rfl⟩⟩

end Xet.Mirror
