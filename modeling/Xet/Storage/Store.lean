import Mathlib.Data.List.AList
import Mathlib.Data.List.Sort
import Xet.Hash
import Xet.Lib.Calls

/-! The object store: xorbs and shards under their names, and three indexes from hashes to the
shard that holds them. Every change is one put or delete of one name. -/
namespace Xet.Storage
open Wire Calls

inductive Area where
  | xorbs
  | shards
  deriving DecidableEq

inductive Index where
  | files
  | chunks
  | sha256
  deriving DecidableEq

abbrev ShardHash := Hash

structure Object where
  data : Bytes
  modTime : Int
  deriving DecidableEq

structure Store where
  objects : Area → AList fun _ : Hash => Object
  indexes : Index → AList fun _ : Hash => ShardHash

namespace Store

def empty : Store := ⟨fun _ => ∅, fun _ => ∅⟩

def object (st : Store) (a : Area) (name : Hash) : Option Object := (st.objects a).lookup name

def entry (st : Store) (i : Index) (name : Hash) : Option ShardHash := (st.indexes i).lookup name

def insert (st : Store) (a : Area) (name : Hash) (obj : Object) : Store :=
  { st with objects := Function.update st.objects a ((st.objects a).insert name obj) }

def erase (st : Store) (a : Area) (name : Hash) : Store :=
  { st with objects := Function.update st.objects a ((st.objects a).erase name) }

def insertEntry (st : Store) (i : Index) (name : Hash) (shard : ShardHash) : Store :=
  { st with indexes := Function.update st.indexes i ((st.indexes i).insert name shard) }

def eraseEntry (st : Store) (i : Index) (name : Hash) : Store :=
  { st with indexes := Function.update st.indexes i ((st.indexes i).erase name) }

section
variable (st : Store) (a b : Area) (i j : Index) (name other : Hash) (obj : Object) (shard : ShardHash)

@[simp] theorem object_empty : empty.object a name = none := rfl

@[simp] theorem entry_empty : empty.entry i name = none := rfl

@[simp] theorem object_insert : (st.insert a name obj).object b other =
    if b = a ∧ other = name then some obj else st.object b other := by
  by_cases area : b = a
  · subst area
    by_cases same : other = name
    · subst same
      simp [object, insert]
    · simp [object, insert, same]
  · simp [object, insert, area]

@[simp] theorem entry_insert : (st.insert a name obj).entry i other = st.entry i other := rfl

@[simp] theorem object_erase : (st.erase a name).object b other =
    if b = a ∧ other = name then none else st.object b other := by
  by_cases area : b = a
  · subst area
    by_cases same : other = name
    · subst same
      simp [object, erase]
    · simp [object, erase, same]
  · simp [object, erase, area]

@[simp] theorem entry_erase : (st.erase a name).entry i other = st.entry i other := rfl

@[simp] theorem object_insertEntry :
    (st.insertEntry i name shard).object a other = st.object a other := rfl

@[simp] theorem entry_insertEntry : (st.insertEntry i name shard).entry j other =
    if j = i ∧ other = name then some shard else st.entry j other := by
  by_cases index : j = i
  · subst index
    by_cases same : other = name
    · subst same
      simp [entry, insertEntry]
    · simp [entry, insertEntry, same]
  · simp [entry, insertEntry, index]

@[simp] theorem object_eraseEntry : (st.eraseEntry i name).object a other = st.object a other := rfl

@[simp] theorem entry_eraseEntry : (st.eraseEntry i name).entry j other =
    if j = i ∧ other = name then none else st.entry j other := by
  by_cases index : j = i
  · subst index
    by_cases same : other = name
    · subst same
      simp [entry, eraseEntry]
    · simp [entry, eraseEntry, same]
  · simp [entry, eraseEntry, index]

end

end Store

def hexEncode (h : Hash) : Bytes :=
  h.bytes.flatMap fun b => [digitByte (b.toNat / 16), digitByte (b.toNat % 16)]

/-- The text under which an object or entry is stored. Walks go in the order of these texts. -/
def Area.text : Area → Hash → Bytes
  | .xorbs => formatHash
  | .shards => hexEncode

def Index.text : Index → Hash → Bytes
  | .files => formatHash
  | .chunks => formatHash
  | .sha256 => hexEncode

def listed {β : Type} (text : Hash → Bytes) (m : AList fun _ : Hash => β) : List (Hash × β) :=
  (m.entries.map fun e => (e.1, e.2)).insertionSort fun x y => text x.1 ≤ text y.1

inductive Call where
  | get (a : Area) (name : Hash)
  | put (a : Area) (name : Hash) (data : Bytes) (now : Int)
  | delete (a : Area) (name : Hash)
  | walk (a : Area)
  | getEntry (i : Index) (name : Hash)
  | putEntry (i : Index) (name : Hash) (shard : ShardHash)
  | deleteEntry (i : Index) (name : Hash)
  | walkIndex (i : Index)

def Reply : Call → Type
  | .get _ _ => Option Object
  | .put _ _ _ _ => Bool
  | .delete _ _ => Bool
  | .walk _ => List (Hash × Object)
  | .getEntry _ _ => Option ShardHash
  | .putEntry _ _ _ => Unit
  | .deleteEntry _ _ => Bool
  | .walkIndex _ => List (Hash × ShardHash)

/-- One call. A stored object is never replaced. A stored index entry is replaced when the backend
keeps the last writer. -/
def perform (lastWriter : Bool) : (c : Call) → Store → Reply c × Store
  | .get a name, st => (st.object a name, st)
  | .put a name data now, st =>
    if (st.object a name).isSome then (false, st) else (true, st.insert a name ⟨data, now⟩)
  | .delete a name, st => ((st.object a name).isSome, st.erase a name)
  | .walk a, st => (listed a.text (st.objects a), st)
  | .getEntry i name, st => (st.entry i name, st)
  | .putEntry i name shard, st =>
    if (st.entry i name).isSome ∧ lastWriter = false then ((), st)
    else ((), st.insertEntry i name shard)
  | .deleteEntry i name, st => ((st.entry i name).isSome, st.eraseEntry i name)
  | .walkIndex i, st => (listed i.text (st.indexes i), st)

abbrev StoreProg := Prog Call Reply

def getObject (a : Area) (name : Hash) : StoreProg (Option Object) := Prog.perform (Call.get a name)
def putObject (a : Area) (name : Hash) (data : Bytes) (now : Int) : StoreProg Bool :=
  Prog.perform (Call.put a name data now)
def deleteObject (a : Area) (name : Hash) : StoreProg Bool := Prog.perform (Call.delete a name)
def walkObjects (a : Area) : StoreProg (List (Hash × Object)) := Prog.perform (Call.walk a)
def getEntry (i : Index) (name : Hash) : StoreProg (Option ShardHash) :=
  Prog.perform (Call.getEntry i name)
def putEntry (i : Index) (name : Hash) (shard : ShardHash) : StoreProg Unit :=
  Prog.perform (Call.putEntry i name shard)
def deleteEntry (i : Index) (name : Hash) : StoreProg Bool := Prog.perform (Call.deleteEntry i name)
def walkIndex (i : Index) : StoreProg (List (Hash × ShardHash)) := Prog.perform (Call.walkIndex i)

theorem mem_listed {β : Type} {text : Hash → Bytes} {m : AList fun _ : Hash => β} {name : Hash} {b : β} :
    (name, b) ∈ listed text m ↔ m.lookup name = some b := by
  have sigma : (name, b) ∈ m.entries.map (fun e => (e.1, e.2)) ↔ ⟨name, b⟩ ∈ m.entries := by
    rw [List.mem_map]
    constructor
    · rintro ⟨⟨n, v⟩, member, same⟩
      cases same
      exact member
    · intro member
      exact ⟨⟨name, b⟩, member, rfl⟩
  rw [listed, List.mem_insertionSort, sigma, ← AList.mem_lookup_iff]
  rfl

def Call.Reads : Call → Prop
  | .get _ _ => True
  | .walk _ => True
  | .getEntry _ _ => True
  | .walkIndex _ => True
  | _ => False

theorem Call.Reads.quiet {lastWriter : Bool} {c : Call} (h : c.Reads) (st : Store) :
    (perform lastWriter c st).2 = st := by
  cases c <;> first | rfl | exact h.elim

section
variable {lastWriter : Bool} {I : Store → Prop} {st : Store} {a : Area} {i : Index} {name : Hash}

theorem meets_getObject {Q : Option Object → Store → Prop} :
    (getObject a name).Meets (perform lastWriter) I Q st ↔ I st ∧ Q (st.object a name) st := Iff.rfl

theorem meets_walkObjects {Q : List (Hash × Object) → Store → Prop} :
    (walkObjects a).Meets (perform lastWriter) I Q st ↔
      I st ∧ Q (listed a.text (st.objects a)) st := Iff.rfl

theorem meets_getEntry {Q : Option ShardHash → Store → Prop} :
    (getEntry i name).Meets (perform lastWriter) I Q st ↔ I st ∧ Q (st.entry i name) st := Iff.rfl

theorem meets_walkIndex {Q : List (Hash × ShardHash) → Store → Prop} :
    (walkIndex i).Meets (perform lastWriter) I Q st ↔
      I st ∧ Q (listed i.text (st.indexes i)) st := Iff.rfl

variable {Q : Bool → Store → Prop}

theorem meets_putObject {data : Bytes} {now : Int} :
    (putObject a name data now).Meets (perform lastWriter) I Q st ↔
      if (st.object a name).isSome then I st ∧ Q false st
      else I (st.insert a name ⟨data, now⟩) ∧ Q true (st.insert a name ⟨data, now⟩) := by
  let result : Bool × Store := perform lastWriter (.put a name data now) st
  change I result.2 ∧ Q result.1 result.2 ↔ _
  by_cases present : (st.object a name).isSome
  · have kept : result = (false, st) := if_pos present
    rw [if_pos present, kept]
  · have written : result = (true, st.insert a name ⟨data, now⟩) := if_neg present
    rw [if_neg present, written]

theorem meets_deleteObject :
    (deleteObject a name).Meets (perform lastWriter) I Q st ↔
      I (st.erase a name) ∧ Q (st.object a name).isSome (st.erase a name) := Iff.rfl

theorem meets_putEntry {shard : ShardHash} {Q : Unit → Store → Prop} :
    (putEntry i name shard).Meets (perform lastWriter) I Q st ↔
      if (st.entry i name).isSome ∧ lastWriter = false then I st ∧ Q () st
      else I (st.insertEntry i name shard) ∧ Q () (st.insertEntry i name shard) := by
  let result : Unit × Store := perform lastWriter (.putEntry i name shard) st
  change I result.2 ∧ Q result.1 result.2 ↔ _
  by_cases first : (st.entry i name).isSome ∧ lastWriter = false
  · have kept : result = ((), st) := if_pos first
    rw [if_pos first, kept]
  · have written : result = ((), st.insertEntry i name shard) := if_neg first
    rw [if_neg first, written]

theorem meets_deleteEntry :
    (deleteEntry i name).Meets (perform lastWriter) I Q st ↔
      I (st.eraseEntry i name) ∧ Q (st.entry i name).isSome (st.eraseEntry i name) := Iff.rfl

end

end Xet.Storage
