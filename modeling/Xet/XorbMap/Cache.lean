import Mathlib.Data.Multiset.MapFold
import Mathlib.Logic.Function.Basic
import Xet.Lib.Lru

/-! The cache of mapped xorb files. A mapping counts its holds: the one of the cache and those of the callers.
Callers, evictions and removals interleave at every access to a shared variable. -/
namespace Xet.XorbMap

variable {H : Type}

structure Mapping (H : Type) where
  hash : H
  /-- There are mapped bytes. -/
  data : Bool
  refs : Int
  /-- Bytes were mapped once, how often they were unmapped, and how often the release hook has run. -/
  made : Bool
  unmaps : Nat
  hooks : Nat

/-- A hold is taken by a caller that has looked the mapping up, by the function that fills, or by a caller that
was handed the mapping of another's fill. -/
inductive Role where
  | caller
  | leader
  | waiter
  deriving DecidableEq

/-- What follows on a release: nothing, the end of the lock section of `Remove`, or the eviction loop of `Add`. -/
inductive After (H : Type) where
  | idle
  | unlock
  | evict (h : H) (m : Nat)

inductive Thread (H : Type) where
  | idle
  /-- `hit`: the lookup, and the two accesses of `acquire`. -/
  | get (h : H) (leader : Bool)
  | load (h : H) (m : Nat) (role : Role)
  | cas (h : H) (m : Nat) (n : Int) (role : Role)
  /-- `Do`: a caller becomes the leader of a fill or waits for one. -/
  | miss (h : H)
  | waiting (h : H)
  /-- `fill`. -/
  | opening (h : H)
  | stat (h : H) (m : Nat)
  | failing (h : H) (m : Nat)
  | store (h : H) (m : Nat)
  | add (h : H) (m : Nat)
  | evict (h : H) (m : Nat)
  | finish (h : H) (result : Option Nat)
  /-- A caller that has its mapping. -/
  | holding (h : H) (m : Nat)
  /-- `Release`. -/
  | drop (m : Nat) (next : After H)
  | unmap (m : Nat) (next : After H)
  | hook (m : Nat) (next : After H)
  | remove (h : H)

/-- What the threads share; `live` and `files` are the local copies behind `open` and the release hook. -/
structure Shared (H : Type) where
  maps : Nat → Mapping H
  /-- The files from this number on have not been opened. -/
  next : Nat
  cache : List (H × Nat)
  locked : Bool
  fills : H → Bool
  live : H → Nat
  files : H → Bool

variable [DecidableEq H]

namespace Shared

def update (s : Shared H) (m : Nat) (f : Mapping H → Mapping H) : Shared H :=
  { s with maps := Function.update s.maps m (f (s.maps m)) }

def downloadXorb (s : Shared H) (h : H) : Shared H :=
  { s with files := Function.update s.files h true, live := Function.update s.live h (s.live h + 1) }

def removeXorbFile (s : Shared H) (h : H) : Shared H :=
  if 0 < s.live h - 1 then { s with live := Function.update s.live h (s.live h - 1) }
  else { s with live := Function.update s.live h 0, files := Function.update s.files h false }

def opened (s : Shared H) (h : H) : Shared H :=
  { s.downloadXorb h with maps := Function.update s.maps s.next ⟨h, false, 0, false, 0, 0⟩, next := s.next + 1 }

def runHook (s : Shared H) (m : Nat) : Shared H :=
  (s.update m fun x => { x with hooks := x.hooks + 1 }).removeXorbFile (s.maps m).hash

end Shared

namespace Thread

def afterRelease (s : Shared H) : After H → Shared H × Thread H
  | .idle => (s, .idle)
  | .unlock => ({ s with locked := false }, .idle)
  | .evict h m => (s, .evict h m)

def refused (h : H) : Role → Thread H
  | .caller => .miss h
  | .leader => .opening h
  | .waiter => .get h false

def taken (h : H) (m : Nat) : Role → Thread H
  | .leader => .finish h (some m)
  | .caller | .waiter => .holding h m

/-- What the end of a fill returns to its leader, and to those who wait for it. -/
def returned (h : H) : Option Nat → Thread H
  | some m => .holding h m
  | none => .idle

def wake (h : H) (result : Option Nat) : Thread H → Thread H
  | .waiting q => if q = h then result.elim .idle fun m => .load h m .waiter else .waiting q
  | t => t

end Thread

open Thread

/-- One step of a thread, in a cache of at most `max` mappings (of any number when `max` is 0). -/
inductive Local (max : Nat) (s : Shared H) : Thread H → Shared H → Thread H → Prop
  | acquire (h : H) : Local max s .idle s (.get h false)
  | removeCall (h : H) : Local max s .idle s (.remove h)
  | has {h : H} {m : Nat} (free : s.locked = false) (found : Lru.find s.cache h = some m) :
      Local max s .idle { s with cache := Lru.put s.cache h m } .idle
  | getHit {h : H} {m : Nat} {leader : Bool} (free : s.locked = false) (found : Lru.find s.cache h = some m) :
      Local max s (.get h leader) { s with cache := Lru.put s.cache h m }
        (.load h m (if leader then .leader else .caller))
  | getMiss {h : H} {leader : Bool} (free : s.locked = false) (missing : Lru.find s.cache h = none) :
      Local max s (.get h leader) s (if leader then .opening h else .miss h)
  | loadDead {h : H} {m : Nat} {role : Role} (dead : (s.maps m).refs = 0) : Local max s (.load h m role) s (refused h role)
  | loadLive {h : H} {m : Nat} {role : Role} (live : (s.maps m).refs ≠ 0) :
      Local max s (.load h m role) s (.cas h m (s.maps m).refs role)
  | casDone {h : H} {m : Nat} {n : Int} {role : Role} (same : (s.maps m).refs = n) :
      Local max s (.cas h m n role) (s.update m fun x => { x with refs := n + 1 }) (taken h m role)
  | casLost {h : H} {m : Nat} {n : Int} {role : Role} (other : (s.maps m).refs ≠ n) :
      Local max s (.cas h m n role) s (.load h m role)
  | lead {h : H} (free : s.fills h = false) :
      Local max s (.miss h) { s with fills := Function.update s.fills h true } (.get h true)
  | join {h : H} (busy : s.fills h = true) : Local max s (.miss h) s (.waiting h)
  /-- `open` fails before the copy is in place, or at opening it. -/
  | openFailed {h : H} : Local max s (.opening h) s (.finish h none)
  | copyFailed {h : H} :
      Local max s (.opening h) { s with files := Function.update s.files h false } (.finish h none)
  | opened {h : H} : Local max s (.opening h) (s.opened h) (.stat h s.next)
  | statFailed {h : H} {m : Nat} : Local max s (.stat h m) s (.failing h m)
  | emptyFile {h : H} {m : Nat} : Local max s (.stat h m) s (.store h m)
  | mapped {h : H} {m : Nat} :
      Local max s (.stat h m) (s.update m fun x => { x with data := true, made := true }) (.store h m)
  | failed {h : H} {m : Nat} : Local max s (.failing h m) (s.runHook m) (.finish h none)
  | stored {h : H} {m : Nat} : Local max s (.store h m) (s.update m fun x => { x with refs := 2 }) (.add h m)
  | added {h : H} {m : Nat} (free : s.locked = false) :
      Local max s (.add h m) { s with cache := Lru.put s.cache h m, locked := true } (.evict h m)
  | evictOldest {h : H} {m : Nat} {oldest : H × Nat} {rest : List (H × Nat)} (shape : s.cache = oldest :: rest)
      (full : 0 < max ∧ max < s.cache.length) :
      Local max s (.evict h m) { s with cache := rest } (.drop oldest.2 (.evict h m))
  | evicted {h : H} {m : Nat} (fits : ¬ (0 < max ∧ max < s.cache.length)) :
      Local max s (.evict h m) { s with locked := false } (.finish h (some m))
  | release {h : H} {m : Nat} : Local max s (.holding h m) s (.drop m .idle)
  | removeMiss {h : H} (free : s.locked = false) (missing : Lru.find s.cache h = none) : Local max s (.remove h) s .idle
  | removeHit {h : H} {m : Nat} (free : s.locked = false) (found : Lru.find s.cache h = some m) :
      Local max s (.remove h) { s with cache := Lru.remove s.cache h, locked := true } (.drop m .unlock)
  /-- `Release`: only the last hold goes on. -/
  | dropped {m : Nat} {next : After H} (more : (s.maps m).refs - 1 ≠ 0) :
      Local max s (.drop m next) (afterRelease (s.update m fun x => { x with refs := x.refs - 1 }) next).1
        (afterRelease s next).2
  | droppedLast {m : Nat} {next : After H} (last : (s.maps m).refs - 1 = 0) :
      Local max s (.drop m next) (s.update m fun x => { x with refs := x.refs - 1 }) (.unmap m next)
  | unmapped {m : Nat} {next : After H} (here : (s.maps m).data = true) :
      Local max s (.unmap m next) (s.update m fun x => { x with data := false, unmaps := x.unmaps + 1 }) (.hook m next)
  | nothingMapped {m : Nat} {next : After H} (nil : (s.maps m).data = false) :
      Local max s (.unmap m next) s (.hook m next)
  | hooked {m : Nat} {next : After H} :
      Local max s (.hook m next) (afterRelease (s.runHook m) next).1 (afterRelease s next).2

structure State (H : Type) where
  shared : Shared H
  threads : Multiset (Thread H)

inductive Step (max : Nat) : State H → State H → Prop
  | spawn {s : Shared H} {ts : Multiset (Thread H)} : Step max ⟨s, ts⟩ ⟨s, .idle ::ₘ ts⟩
  | thread {s s' : Shared H} {t t' : Thread H} {ts : Multiset (Thread H)} (step : Local max s t s' t') :
      Step max ⟨s, t ::ₘ ts⟩ ⟨s', t' ::ₘ ts⟩
  /-- A fill ends for its leader and for all who wait for it. -/
  | finished {s : Shared H} {h : H} {result : Option Nat} {ts : Multiset (Thread H)} :
      Step max ⟨s, .finish h result ::ₘ ts⟩
        ⟨{ s with fills := Function.update s.fills h false }, returned h result ::ₘ ts.map (wake h result)⟩

/-- The runs of a new cache. The mappings of files that have not been opened stand for nothing. -/
inductive Reached (max : Nat) : State H → Prop
  | start (maps : Nat → Mapping H) (blank : ∀ m, (maps m).refs = 0 ∧ (maps m).hooks = 0 ∧ (maps m).unmaps = 0 ∧
      (maps m).data = false ∧ (maps m).made = false) :
      Reached max ⟨⟨maps, 0, [], false, fun _ => false, fun _ => 0, fun _ => false⟩, 0⟩
  | step {s s' : State H} : Reached max s → Step max s s' → Reached max s'

end Xet.XorbMap
