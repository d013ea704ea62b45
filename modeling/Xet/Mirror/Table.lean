import Xet.Lib.Lru
import Xet.Mirror.Key

/-! The mirror's table of files: what it knows of each key, and the failures by the time of their last use.
Every function here is one section under the mirror's lock. -/
namespace Xet.Mirror
open Wire

inductive EntryState where
  | ready
  | failed
  deriving DecidableEq

/-- A record of a file. Records are compared by their identity. -/
structure FileEntry where
  id : Nat
  state : EntryState
  failures : Nat
  nextRetry : Nat
  notFound : Bool
  source : Bytes
  deriving DecidableEq

/-- One ingestion: the key it publishes under, the key it fetches from, and the failure it retries. -/
structure Task where
  id : Nat
  key : ResolveKey
  src : ResolveKey
  prev : Option Nat
  deriving DecidableEq

structure Table where
  entries : ResolveKey → Option FileEntry
  /-- The least recently used failure stands first. -/
  failed : List (ResolveKey × Unit)
  tasks : ResolveKey → Option Task
  /-- The identity of the next record. -/
  next : Nat

def maxFailedEntries : Nat := 16384

def failureBackoffBase : Nat := 10 * 10 ^ 9

def failureBackoffCap : Nat := 600 * 10 ^ 9

def maxFailureShift : Nat := 6

def retryBackoff (failures : Nat) : Nat :=
  min (failureBackoffBase * 2 ^ min (failures - 1) maxFailureShift) failureBackoffCap

def FileEntry.inBackoff (e : FileEntry) (now : Nat) : Bool := e.state = .failed ∧ now < e.nextRetry

namespace Table

def empty : Table := ⟨fun _ => none, [], fun _ => none, 0⟩

def setEntry (s : Table) (k : ResolveKey) (e : Option FileEntry) : Table :=
  { s with entries := Function.update s.entries k e }

def setTask (s : Table) (k : ResolveKey) (t : Option Task) : Table := { s with tasks := Function.update s.tasks k t }

/-- The record of a key that leaves the failures goes with it, if it is a failure. -/
def onEvicted (s : Table) (k : ResolveKey) : Table :=
  match s.entries k with
  | some e => if e.state = .failed then s.setEntry k none else s
  | none => s

def evictFailed : List (ResolveKey × Unit) → Table → Table
  | [], s => { s with failed := [] }
  | (k, u) :: rest, s =>
    if maxFailedEntries < ((k, u) :: rest).length then evictFailed rest (s.onEvicted k)
    else { s with failed := (k, u) :: rest }

def touchFailed (s : Table) (k : ResolveKey) : Table := evictFailed (Lru.put s.failed k ()) s

def forgetFailed (s : Table) (k : ResolveKey) : Table :=
  match Lru.find s.failed k with
  | some _ => { s with failed := Lru.remove s.failed k }.onEvicted k
  | none => s

/-- A new failure of a key, with a longer pause after each one before it. -/
def failure (s : Table) (k : ResolveKey) (now : Nat) (notFound : Bool) (source : Bytes) : FileEntry :=
  let failures :=
    match s.entries k with
    | some prev => if prev.state = .failed then prev.failures + 1 else 1
    | none => 1
  ⟨s.next, .failed, failures, now + retryBackoff failures, notFound, source⟩

def recordFailure (s : Table) (k : ResolveKey) (now : Nat) (notFound : Bool) (source : Bytes) : Table :=
  ({ s.setEntry k (some (s.failure k now notFound source)) with next := s.next + 1 }).touchFailed k

/-- The key whose record answers for a key: that of the source, if the key's failure is not the source's. -/
def lookupKey (s : Table) (key src : ResolveKey) : ResolveKey :=
  match s.entries key with
  | some e => if src ≠ key ∧ e.state = .failed ∧ e.source ≠ src.rev then src else key
  | none => key

/-- Reading a failure counts as use. -/
def lookup (s : Table) (key src : ResolveKey) : Option FileEntry × Table :=
  match s.entries (s.lookupKey key src) with
  | some e => (some e, if e.state = .failed then s.touchFailed (s.lookupKey key src) else s)
  | none => (none, s)

/-- Records of a manifest come in where memory has neither a record nor a task. -/
def load : List (ResolveKey × FileEntry) → Table → Table
  | [], s => s
  | (k, e) :: rest, s =>
    load rest (if s.entries k = none ∧ s.tasks k = none then s.setEntry k (some { e with state := .ready }) else s)

def retire (s : Table) (k : ResolveKey) (prev : Option Nat) : Table :=
  if (s.entries k).map FileEntry.id = prev then (s.setEntry k none).forgetFailed k else s

/-- A ready record for the task's key; the failure that the task retried is over. -/
def publish (s : Table) (t : Task) (e : FileEntry) (manifest : List (ResolveKey × FileEntry)) : Table :=
  let s := s.retire t.src t.prev
  let s := (s.setEntry t.key (some { e with state := .ready })).forgetFailed t.key
  (load manifest s).setTask t.key none

/-- A failure for the task's key. It is one for the source too, unless the branch has been pinned anew. -/
def failTask (s : Table) (t : Task) (pinned : Bool) (now : Nat) (notFound : Bool) : Table :=
  let s := s.setTask t.key none
  if t.src ≠ t.key ∧ pinned = true then
    let e := s.failure t.src now notFound t.src.rev
    let s := s.recordFailure t.src now notFound t.src.rev
    (s.setEntry t.key (some e)).touchFailed t.key
  else s.recordFailure t.key now notFound t.src.rev

/-- A failure of a branch in its pause is used; otherwise nothing happens. -/
def branchState (s : Table) (key : ResolveKey) (now : Nat) : Table :=
  match s.entries key with
  | some e => if e.inBackoff now then s.touchFailed key else s
  | none => s

def dropEntry (s : Table) (key : ResolveKey) (e : FileEntry) : Table :=
  if (s.entries key).map FileEntry.id = some e.id then s.setEntry key none else s

end Table

end Xet.Mirror
