import Xet.Lib.Lru

/-! The LRU cache of the code: a linked list of elements in order of use, most recently used first, and a map from keys
to elements. Elements are numbered in the order of their allocation; list and map are nil in the zero value and after
`Clear`. A use of a nil list or of an unknown element panics, which is the result `none`. -/
namespace Xet.LruCache

structure Visit (κ : Type) where
  order : List (κ × Nat) → List (κ × Nat)
  perm : ∀ table, (order table).Perm table

structure Cache (κ ν : Type) where
  maxEntries : Int
  /-- Whether `OnEvicted` is set. -/
  onEvicted : Bool
  ll : Option (List Nat)
  cache : Option (List (κ × Nat))
  /-- The entries of all elements that were ever allocated. -/
  elements : List (κ × ν)
  /-- The calls of `OnEvicted` so far. -/
  evicted : List (κ × ν)

/-- The zero value, with its public fields set. -/
def Cache.zero {κ ν : Type} (maxEntries : Int) (onEvicted : Bool) : Cache κ ν :=
  ⟨maxEntries, onEvicted, none, none, [], []⟩

def Cache.new {κ ν : Type} (maxEntries : Int) (onEvicted : Bool) : Cache κ ν :=
  ⟨maxEntries, onEvicted, some [], some [], [], []⟩

namespace Cache
variable {κ ν : Type} [DecidableEq κ]

/-- Both parts of an empty cache are made before they are written. -/
def ensure (c : Cache κ ν) : Cache κ ν :=
  if c.cache.isNone then { c with cache := some [], ll := some [] } else c

/-- The element of a key; a nil map holds none. -/
def lookup (c : Cache κ ν) (key : κ) : Option Nat := c.cache.bind fun table => Lru.find table key

def moveToFront (c : Cache κ ν) (e : Nat) : Option (Cache κ ν) := do
  let l ← c.ll
  return { c with ll := some (if e ∈ l then e :: l.erase e else l) }

def pushFront (c : Cache κ ν) (key : κ) (value : ν) : Option (Cache κ ν) := do
  let l ← c.ll
  let table ← c.cache
  let e := c.elements.length
  return { c with
    elements := c.elements ++ [(key, value)]
    ll := some (e :: l)
    cache := some ((key, e) :: Lru.remove table key) }

def callOnEvicted (c : Cache κ ν) (kv : κ × ν) : Cache κ ν :=
  if c.onEvicted then { c with evicted := c.evicted ++ [kv] } else c

def removeElement (c : Cache κ ν) (e : Nat) : Option ((κ × ν) × Cache κ ν) := do
  let l ← c.ll
  let kv ← c.elements[e]?
  return (kv, { c with ll := some (l.erase e), cache := c.cache.map fun table => Lru.remove table kv.1 }.callOnEvicted kv)

def removeOldestLocked (c : Cache κ ν) : Option (Option (κ × ν) × Cache κ ν) :=
  if c.cache.isNone then some (none, c)
  else do
    let l ← c.ll
    match l.getLast? with
    | none => return (none, c)
    | some e =>
      let (kv, c) ← c.removeElement e
      return (some kv, c)

def evictFrom : Nat → Cache κ ν → Option (Cache κ ν)
  | 0, c => some c
  | fuel + 1, c =>
    if 0 < c.maxEntries then do
      let l ← c.ll
      if c.maxEntries < l.length then
        let (_, c) ← c.removeOldestLocked
        evictFrom fuel c
      else return c
    else some c

/-- Every round takes one element away, so there are not more rounds than elements. -/
def evictLocked (c : Cache κ ν) : Option (Cache κ ν) := evictFrom (c.ll.getD []).length c

def add (c : Cache κ ν) (key : κ) (value : ν) : Option (Cache κ ν) := do
  let c := c.ensure
  match c.lookup key with
  | some ee =>
    let c ← c.moveToFront ee
    let kv ← c.elements[ee]?
    let c := { c with elements := c.elements.set ee (kv.1, value) }
    c.evictLocked
  | none =>
    let c ← c.pushFront key value
    c.evictLocked

def get (c : Cache κ ν) (key : κ) : Option (Option ν × Cache κ ν) :=
  match c.lookup key with
  | some ele => do
    let c ← c.moveToFront ele
    let kv ← c.elements[ele]?
    return (some kv.2, c)
  | none => some (none, c)

/-- `newFunc` returns the given value and verdict. -/
def getOrNew (c : Cache κ ν) (key : κ) (newFunc : ν × Bool) : Option ((ν × Bool) × Cache κ ν) := do
  let c := c.ensure
  match c.lookup key with
  | some ele =>
    let c ← c.moveToFront ele
    let kv ← c.elements[ele]?
    return ((kv.2, true), c)
  | none =>
    if newFunc.2 then
      let c ← c.pushFront key newFunc.1
      let c ← c.evictLocked
      return ((newFunc.1, true), c)
    else return ((newFunc.1, false), c)

def remove (c : Cache κ ν) (key : κ) : Option (Option ν × Cache κ ν) :=
  match c.lookup key with
  | some ele => do
    let (kv, c) ← c.removeElement ele
    return (some kv.2, c)
  | none => some (none, c)

def len (c : Cache κ ν) : Option Nat :=
  if c.cache.isNone then some 0 else c.ll.map List.length

def purge : Cache κ ν → List (κ × Nat) → Option (Cache κ ν)
  | c, [] => some c
  | c, (_, e) :: rest => do
    let kv ← c.elements[e]?
    purge (c.callOnEvicted kv) rest

def clear (c : Cache κ ν) (visit : Visit κ) : Option (Cache κ ν) := do
  let c ← if c.onEvicted then c.purge (visit.order (c.cache.getD [])) else some c
  return { c with ll := none, cache := none }

end Cache

inductive Op (κ ν : Type) where
  | add (key : κ) (value : ν)
  | get (key : κ)
  | getOrNew (key : κ) (newFunc : ν × Bool)
  | remove (key : κ)
  | removeOldest
  | clear (visit : Visit κ)
  | len
  /-- An assignment to the public field. -/
  | setMaxEntries (maxEntries : Int)

inductive Result (κ ν : Type) where
  | done
  | value (v : Option ν)
  | made (v : ν) (ok : Bool)
  | entry (kv : Option (κ × ν))
  | count (n : Nat)

section
variable {κ ν : Type} [DecidableEq κ]

def Cache.exec (c : Cache κ ν) : Op κ ν → Option (Result κ ν × Cache κ ν)
  | .add key value => do return (.done, ← c.add key value)
  | .get key => do
    let (v, c) ← c.get key
    return (.value v, c)
  | .getOrNew key newFunc => do
    let ((v, ok), c) ← c.getOrNew key newFunc
    return (.made v ok, c)
  | .remove key => do
    let (v, c) ← c.remove key
    return (.value v, c)
  | .removeOldest => do
    let (kv, c) ← c.removeOldestLocked
    return (.entry kv, c)
  | .clear visit => do return (.done, ← c.clear visit)
  | .len => do return (.count (← c.len), c)
  | .setMaxEntries maxEntries => some (.done, { c with maxEntries := maxEntries })

def Cache.run : Cache κ ν → List (Op κ ν) → Option (List (Result κ ν) × Cache κ ν)
  | c, [] => some ([], c)
  | c, op :: rest => do
    let (r, c) ← c.exec op
    let (rs, c) ← c.run rest
    return (r :: rs, c)

end

/-- Entries with distinct keys, the most recently used first. -/
structure Recency (κ ν : Type) where
  bound : Int
  items : List (κ × ν)
  distinct : (Lru.keys items).Nodup

namespace Recency
variable {κ ν : Type}

def empty (bound : Int) : Recency κ ν := ⟨bound, [], List.nodup_nil⟩

def restrict (s : Recency κ ν) (items : List (κ × ν)) (fewer : items.Sublist s.items) : Recency κ ν :=
  ⟨s.bound, items, s.distinct.sublist (fewer.map Prod.fst)⟩

/-- The entries beyond the bound are dropped from the back; a bound that is not positive is none. -/
def trim (s : Recency κ ν) : Recency κ ν :=
  if 0 < s.bound then s.restrict (s.items.take s.bound.toNat) (List.take_sublist _ _) else s

variable [DecidableEq κ]

def touch (s : Recency κ ν) (key : κ) (value : ν) : Recency κ ν where
  bound := s.bound
  items := (key, value) :: Lru.remove s.items key
  distinct := List.nodup_cons.mpr ⟨Lru.not_mem_keys_remove s.items key, Lru.nodup_remove s.distinct key⟩

/-- The entries after an operation has used or inserted its key, before any entry leaves. -/
def touched (s : Recency κ ν) : Op κ ν → Recency κ ν
  | .add key value => s.touch key value
  | .get key =>
    match Lru.find s.items key with
    | some v => s.touch key v
    | none => s
  | .getOrNew key newFunc =>
    match Lru.find s.items key with
    | some v => s.touch key v
    | none => if newFunc.2 then s.touch key newFunc.1 else s
  | .setMaxEntries maxEntries => { s with bound := maxEntries }
  | _ => s

def exec (s : Recency κ ν) : Op κ ν → Result κ ν × Recency κ ν
  | .add key value => (.done, (s.touched (.add key value)).trim)
  | .get key => (.value (Lru.find s.items key), s.touched (.get key))
  | .getOrNew key newFunc =>
    match Lru.find s.items key with
    | some v => (.made v true, s.touched (.getOrNew key newFunc))
    | none =>
      if newFunc.2 then (.made newFunc.1 true, (s.touched (.getOrNew key newFunc)).trim)
      else (.made newFunc.1 false, s)
  | .remove key => (.value (Lru.find s.items key), s.restrict (Lru.remove s.items key) List.filter_sublist)
  | .removeOldest => (.entry s.items.getLast?, s.restrict s.items.dropLast (List.dropLast_sublist _))
  | .clear _ => (.done, s.restrict [] (List.nil_sublist _))
  | .len => (.count s.items.length, s)
  | .setMaxEntries maxEntries => (.done, { s with bound := maxEntries })

def run : Recency κ ν → List (Op κ ν) → List (Result κ ν) × Recency κ ν
  | s, [] => ([], s)
  | s, op :: rest => ((s.exec op).1 :: ((s.exec op).2.run rest).1, ((s.exec op).2.run rest).2)

end Recency

end Xet.LruCache
