import Mathlib.Algebra.Order.BigOperators.Group.List
import Xet.Download.CacheManager

/-! The accounts of a cache manager in the integers of the code: sizes, counts of users and their total,
under calls that come in any order and a directory that others change as they like. -/
namespace Xet.Download
open List Lru CacheManager Int List.Sublist Tracked

structure Counted where
  size : Int
  refs : Int
  deriving DecidableEq

/-- What a manager counts; the least recently used entry stands first. -/
structure Ledger where
  capacity : Int
  lru : List (Path × Counted)
  total : Int
  lastReconcile : Option Nat
  lastEvictFailed : Option Nat

/-- What a directory walk finds: complete entries with their sizes, by modification time. -/
structure Walk where
  found : List (Path × Nat)
  distinct : (Lru.keys found).Nodup

/-- What a call sees of its surroundings: the walk, which fails if there is none, the names that can be
unlinked, and the times at which it looks at the clock. -/
structure View where
  walk : Option Walk
  unlink : Path → Bool
  clock : Nat → Nat

namespace Ledger

def new (capacity : Int) : Ledger := ⟨capacity, [], 0, none, none⟩

def acquire (m : Ledger) (path : Path) (size : Nat) : Ledger :=
  match Lru.find m.lru path with
  | some e => { m with lru := Lru.put m.lru path ⟨size, e.refs + 1⟩, total := m.total + (size - e.size) }
  | none => { m with lru := Lru.put m.lru path ⟨size, 1⟩, total := m.total + size }

def release (m : Ledger) (path : Path) : Ledger :=
  match Lru.find m.lru path with
  | some e =>
    if 0 < e.refs then
      { m with
        lru := Lru.put m.lru path { e with refs := e.refs - 1 }
        lastEvictFailed := if e.refs - 1 = 0 then none else m.lastEvictFailed }
    else { m with lru := Lru.put m.lru path e }
  | none => m

def touch (m : Ledger) (path : Path) : Ledger :=
  match Lru.find m.lru path with
  | some e => { m with lru := Lru.put m.lru path e }
  | none => m

def pinned (m : Ledger) (path : Path) : Bool := (Lru.find m.lru path).any fun e => 0 < e.refs

def untrack (m : Ledger) (path : Path) : Ledger :=
  match Lru.find m.lru path with
  | some e => { m with lru := Lru.remove m.lru path, total := m.total - e.size }
  | none => m

/-- The loop of eviction; the result has the entries left, those skipped, the total and the unlinked names. -/
def evictLoop (unlink : Path → Bool) (capacity : Int) :
    List (Path × Counted) → List (Path × Counted) → Int → List Path →
      List (Path × Counted) × List (Path × Counted) × Int × List Path
  | [], skipped, total, gone => ([], skipped, total, gone)
  | (path, e) :: rest, skipped, total, gone =>
    if total ≤ capacity then ((path, e) :: rest, skipped, total, gone)
    else if 0 < e.refs ∨ unlink path = false then evictLoop unlink capacity rest (skipped ++ [(path, e)]) total gone
    else evictLoop unlink capacity rest skipped (total - e.size) (gone ++ [path])

def evict (view : View) (m : Ledger) : Ledger × List Path :=
  if m.capacity ≤ 0 then (m, [])
  else
    let (rest, skipped, total, gone) := evictLoop view.unlink m.capacity m.lru [] m.total []
    ({ m with
      lru := skipped.foldl (fun c p => Lru.put c p.1 p.2) rest
      total
      lastEvictFailed := if m.capacity < total then some (view.clock 3) else none }, gone)

/-- Tracked entries stay if they are in the directory, with the size they have there. -/
def keepLoop (onDisk : Path → Option Nat) :
    List (Path × Counted) → List (Path × Counted) → Int → List Path → List (Path × Counted) × Int × List Path
  | [], lru, total, kept => (lru, total, kept)
  | (path, e) :: tracked, lru, total, kept =>
    match onDisk path with
    | none => keepLoop onDisk tracked lru total kept
    | some size => keepLoop onDisk tracked (Lru.put lru path { e with size }) (total + size) (path :: kept)

def adoptLoop (kept : List Path) : List (Path × Nat) → List (Path × Counted) → Int → List (Path × Counted) × Int
  | [], lru, total => (lru, total)
  | (path, size) :: found, lru, total =>
    if path ∈ kept then adoptLoop kept found lru total
    else adoptLoop kept found (Lru.put lru path ⟨size, 0⟩) (total + size)

def reconcile (view : View) (m : Ledger) : Ledger :=
  match view.walk with
  | none => { m with lastReconcile := some (view.clock 2) }
  | some walk =>
    let (lru, total, kept) := keepLoop (Lru.find walk.found) m.lru [] 0 []
    let (lru, total) := adoptLoop kept walk.found lru total
    { m with lru, total, lastReconcile := some (view.clock 2) }

def evaluate (view : View) (m : Ledger) : Ledger × List Path :=
  if m.capacity ≤ 0 ∨ m.total < m.capacity then (m, [])
  else if !due (view.clock 0) evictBackoff m.lastEvictFailed then (m, [])
  else evict view (if due (view.clock 1) reconcileInterval m.lastReconcile then m.reconcile view else m)

def prepare (view : View) (m : Ledger) : Ledger × List Path :=
  evaluate view (if m.lastReconcile = none then m.reconcile view else m)

end Ledger

inductive Forget where
  | checked (path : Path)
  | unlinked (path : Path)
  deriving DecidableEq

structure Scheduled where
  ledger : Ledger
  forgets : List Forget

inductive Scheduled.Step : Scheduled → Scheduled → Prop
  | acquire {s} (path : Path) (size : Nat) : Step s { s with ledger := s.ledger.acquire path size }
  | release {s} (path : Path) : Step s { s with ledger := s.ledger.release path }
  | evict {s} (view : View) : Step s { s with ledger := (s.ledger.evict view).1 }
  | reconcile {s} (view : View) : Step s { s with ledger := s.ledger.reconcile view }
  | evaluate {s} (view : View) : Step s { s with ledger := (s.ledger.evaluate view).1 }
  | prepare {s} (view : View) : Step s { s with ledger := (s.ledger.prepare view).1 }
  | forgetPinned {s} (path : Path) : s.ledger.pinned path = true → Step s { s with ledger := s.ledger.touch path }
  | forgetCheck {s} (path : Path) : s.ledger.pinned path = false →
      Step s ⟨s.ledger.touch path, .checked path :: s.forgets⟩
  | forgetUnlink {s} (path : Path) : .checked path ∈ s.forgets →
      Step s { s with forgets := .unlinked path :: s.forgets.erase (.checked path) }
  | forgetRefused {s} (path : Path) : .checked path ∈ s.forgets →
      Step s { s with forgets := s.forgets.erase (.checked path) }
  | forgetUntrack {s} (path : Path) : .unlinked path ∈ s.forgets →
      Step s ⟨s.ledger.untrack path, s.forgets.erase (.unlinked path)⟩

inductive Scheduled.Reached (capacity : Int) : Scheduled → Prop
  | new : Reached capacity ⟨.new capacity, []⟩
  | step {s s' : Scheduled} : Reached capacity s → s.Step s' → Reached capacity s'

namespace Ledger

/-- What a pass over the entries `before` does: it stops in front of `rest`, and of the entries before that it
keeps those that have users or could not be unlinked. -/
structure Evicted (unlink : Path → Bool) (capacity : Int) (before : List (Path × Counted)) (total : Int)
    (rest skipped : List (Path × Counted)) (left : Int) (gone : List Path) : Prop where
  order : ∃ popped, before = popped ++ rest ∧ skipped.Sublist popped
  accounts : left - Lru.total Counted.size (rest ++ skipped) = total - Lru.total Counted.size before
  kept : ∀ p ∈ skipped, 0 < p.2.refs ∨ unlink p.1 = false
  idle : ∀ path ∈ gone, ∃ e, (path, e) ∈ before ∧ ¬ 0 < e.refs
  done : rest = [] ∨ left ≤ capacity

theorem evictLoop_spec (unlink : Path → Bool) (capacity : Int) (before skipped : List (Path × Counted))
    (total : Int) (gone : List Path) :
    ∃ rest more left names, evictLoop unlink capacity before skipped total gone =
      (rest, skipped ++ more, left, gone ++ names) ∧ Evicted unlink capacity before total rest more left names := by
  induction before generalizing skipped total gone with
  | nil =>
    refine ⟨[], [], total, [], by simp [evictLoop], ⟨[], rfl, refl _⟩, rfl, nofun, nofun, .inl rfl⟩
  | cons p before ih =>
    obtain ⟨path, e⟩ := p
    rw [evictLoop]
    split
    · rename_i within
      exact ⟨(path, e) :: before, [], total, [], by simp, ⟨[], rfl, refl _⟩, by simp, nofun, nofun, .inr within⟩
    · split
      · rename_i busy
        obtain ⟨rest, more, left, names, result, spec⟩ := ih (skipped ++ [(path, e)]) total gone
        refine ⟨rest, (path, e) :: more, left, names, by simp [result], ?_, ?_, ?_, ?_, spec.done⟩
        · obtain ⟨popped, rfl, sub⟩ := spec.order
          exact ⟨(path, e) :: popped, rfl, sub.cons_cons _⟩
        · have accounts := spec.accounts
          simp only [Lru.total, map_append, map_cons, sum_append, sum_cons] at accounts ⊢
          omega
        · exact forall_mem_cons.mpr ⟨busy, spec.kept⟩
        · intro q member
          obtain ⟨d, there, idle⟩ := spec.idle q member
          exact ⟨d, mem_cons_of_mem _ there, idle⟩
      · rename_i free
        obtain ⟨rest, more, left, names, result, spec⟩ := ih skipped (total - e.size) (gone ++ [path])
        refine ⟨rest, more, left, path :: names, by simp [result], ?_, ?_, spec.kept, ?_, spec.done⟩
        · obtain ⟨popped, rfl, sub⟩ := spec.order
          exact ⟨(path, e) :: popped, rfl, sub.cons _⟩
        · have accounts := spec.accounts
          simp only [Lru.total, map_append, map_cons, sum_append, sum_cons] at accounts ⊢
          omega
        · refine forall_mem_cons.mpr ⟨⟨e, mem_cons_self, fun used => free (.inl used)⟩, fun q member => ?_⟩
          obtain ⟨d, there, idle⟩ := spec.idle q member
          exact ⟨d, mem_cons_of_mem _ there, idle⟩

/-- Accounts in order: every entry is tracked once, and the total is the sum of the sizes. -/
structure Booked (lru : List (Path × Counted)) (total : Int) : Prop where
  distinct : (Lru.keys lru).Nodup
  total : total = Lru.total Counted.size lru
  entries : ∀ p ∈ lru, 0 ≤ p.2.size ∧ 0 ≤ p.2.refs

variable {lru : List (Path × Counted)} {total : Int} {path : Path} {e : Counted}

theorem Booked.empty : Booked [] 0 := ⟨nodup_nil, rfl, nofun⟩

section
variable (booked : Booked lru total)
include booked

theorem Booked.nonneg : 0 ≤ total := by
  rw [booked.total]
  apply sum_nonneg
  intro size member
  obtain ⟨p, here, rfl⟩ := mem_map.mp member
  exact (booked.entries p here).1

theorem Booked.put (path : Path) (size : 0 ≤ e.size) (refs : 0 ≤ e.refs) :
    Booked (Lru.put lru path e) (total - (Lru.find lru path).elim 0 Counted.size + e.size) := by
  refine ⟨nodup_put booked.distinct path e, ?_, ?_⟩
  · rw [total_put booked.distinct, booked.total]
  · intro p member
    rcases mem_put.mp member with ⟨old, -⟩ | rfl
    · exact booked.entries p old
    · exact ⟨size, refs⟩

theorem Booked.adopt (fresh : path ∉ Lru.keys lru) (size : 0 ≤ e.size) (refs : 0 ≤ e.refs) :
    Booked (Lru.put lru path e) (total + e.size) := by
  have put := booked.put path size refs
  rw [find_eq_none.mpr fresh] at put
  simpa using put

theorem Booked.found (found : Lru.find lru path = some e) : 0 ≤ e.size ∧ 0 ≤ e.refs :=
  booked.entries _ (mem_of_find found)

theorem Booked.remove (found : Lru.find lru path = some e) : Booked (Lru.remove lru path) (total - e.size) := by
  refine ⟨nodup_remove booked.distinct path, ?_, fun p member => booked.entries p (mem_remove.mp member).1⟩
  rw [total_remove booked.distinct, found, booked.total]
  rfl

end

variable {m : Ledger}

def Accounted (m : Ledger) : Prop := Booked m.lru m.total

theorem Accounted.acquire (accounted : m.Accounted) (path : Path) (size : Nat) : (m.acquire path size).Accounted := by
  rw [Ledger.acquire]
  split
  · rename_i e found
    have refs := (Booked.found accounted found).2
    have put := Booked.put accounted path (e := ⟨size, e.refs + 1⟩) (Int.natCast_nonneg size) (by dsimp only; omega)
    rw [found] at put
    have same : m.total + (size - e.size) = m.total - e.size + size := by omega
    rw [Accounted, same]
    exact put
  · rename_i missing
    exact Booked.adopt accounted (find_eq_none.mp missing) (e := ⟨size, 1⟩) (Int.natCast_nonneg size) Int.one_nonneg

theorem Booked.refresh (booked : Booked lru total) (found : Lru.find lru path = some e) {refs : Int} (count : 0 ≤ refs) :
    Booked (Lru.put lru path { e with refs }) total := by
  have put := booked.put path (e := { e with refs }) (booked.found found).1 count
  rw [found] at put
  simpa using put

theorem Accounted.release (accounted : m.Accounted) (path : Path) : (m.release path).Accounted := by
  rw [Ledger.release]
  split
  · rename_i e found
    split
    · rename_i used
      exact Booked.refresh accounted found (by omega)
    · exact Booked.refresh accounted found (Booked.found accounted found).2
  · exact accounted

theorem Accounted.touch (accounted : m.Accounted) (path : Path) : (m.touch path).Accounted := by
  rw [Ledger.touch]
  split
  · rename_i e found
    exact Booked.refresh accounted found (Booked.found accounted found).2
  · exact accounted

theorem Accounted.untrack (accounted : m.Accounted) (path : Path) : (m.untrack path).Accounted := by
  rw [Ledger.untrack]
  split
  · rename_i e found
    exact Booked.remove accounted found
  · exact accounted

def refreshed (onDisk : Path → Option Nat) (tracked : List (Path × Counted)) : List (Path × Counted) :=
  tracked.filterMap fun p => (onDisk p.1).map fun size => (p.1, { p.2 with size := size })

def adopted (kept : List Path) (found : List (Path × Nat)) : List (Path × Counted) :=
  (found.filter fun p => p.1 ∉ kept).map fun p => (p.1, ⟨p.2, 0⟩)

theorem keys_refreshed (onDisk : Path → Option Nat) (tracked : List (Path × Counted)) :
    (Lru.keys (refreshed onDisk tracked)).Sublist (Lru.keys tracked) := by
  induction tracked with
  | nil => exact refl _
  | cons p tracked ih =>
    rw [refreshed, filterMap_cons]
    cases onDisk p.1 with
    | none => exact ih.cons p.1
    | some size => exact ih.cons_cons p.1

theorem keys_adopted (kept : List Path) (found : List (Path × Nat)) :
    Lru.keys (adopted kept found) = (Lru.keys found).filter (· ∉ kept) := by
  rw [adopted, Lru.keys, map_map, Lru.keys, filter_map]
  rfl

theorem keepLoop_eq {onDisk : Path → Option Nat} {tracked : List (Path × Counted)} {kept : List Path}
    (distinct : (Lru.keys (lru ++ tracked)).Nodup) : keepLoop onDisk tracked lru total kept =
      (lru ++ refreshed onDisk tracked, total + Lru.total Counted.size (refreshed onDisk tracked),
        (Lru.keys (refreshed onDisk tracked)).reverse ++ kept) := by
  induction tracked generalizing lru total kept with
  | nil => simp [keepLoop, refreshed, Lru.total, Lru.keys]
  | cons p tracked ih =>
    obtain ⟨path, e⟩ := p
    have fresh : path ∉ Lru.keys lru ∧ (Lru.keys (lru ++ tracked)).Nodup := by
      simp only [Lru.keys, map_append, map_cons, nodup_append, nodup_cons] at distinct ⊢
      exact ⟨fun member => distinct.2.2 path member path mem_cons_self rfl, distinct.1, distinct.2.1.2,
        fun a left b right => distinct.2.2 a left b (mem_cons_of_mem path right)⟩
    rw [keepLoop]
    cases here : onDisk path with
    | none =>
      have skip : refreshed onDisk ((path, e) :: tracked) = refreshed onDisk tracked := by simp [refreshed, here]
      rw [skip]
      exact ih fresh.2
    | some size =>
      have book : refreshed onDisk ((path, e) :: tracked) = (path, { e with size := size }) :: refreshed onDisk tracked := by
        simp [refreshed, here]
      have moved : Lru.put lru path { e with size := size } = lru ++ [(path, { e with size := size })] := by
        rw [Lru.put, remove_absent fresh.1]
      simp only [moved]
      rw [ih (by simpa [Lru.keys] using distinct), book]
      simp [Lru.total, Lru.keys, add_assoc]

theorem adoptLoop_eq {kept : List Path} {found : List (Path × Nat)}
    (distinct : (Lru.keys (lru ++ adopted kept found)).Nodup) :
    adoptLoop kept found lru total = (lru ++ adopted kept found, total + Lru.total Counted.size (adopted kept found)) := by
  induction found generalizing lru total with
  | nil => simp [adoptLoop, adopted, Lru.total]
  | cons p found ih =>
    obtain ⟨path, size⟩ := p
    rw [adoptLoop]
    split
    · rename_i known
      have skip : adopted kept ((path, size) :: found) = adopted kept found := by simp [adopted, known]
      rw [skip] at distinct ⊢
      exact ih distinct
    · rename_i new
      have book : adopted kept ((path, size) :: found) = (path, ⟨size, 0⟩) :: adopted kept found := by simp [adopted, new]
      rw [book] at distinct ⊢
      have fresh : path ∉ Lru.keys lru := by
        simp only [Lru.keys, map_append, map_cons, nodup_append] at distinct
        exact fun member => distinct.2.2 path member path mem_cons_self rfl
      have moved : Lru.put lru path ⟨size, 0⟩ = lru ++ [(path, ⟨size, 0⟩)] := by rw [Lru.put, remove_absent fresh]
      rw [moved, ih (by simpa [Lru.keys] using distinct)]
      simp [Lru.total, add_assoc]

/-- The entries after a walk: those found again, in their order, and then the ones that are new. -/
def rebuilt (walk : Walk) (tracked : List (Path × Counted)) : List (Path × Counted) :=
  refreshed (Lru.find walk.found) tracked ++ adopted (Lru.keys (refreshed (Lru.find walk.found) tracked)) walk.found

theorem rebuilt_distinct (walk : Walk) {tracked : List (Path × Counted)} (distinct : (Lru.keys tracked).Nodup) :
    (Lru.keys (rebuilt walk tracked)).Nodup := by
  rw [rebuilt, Lru.keys, map_append, nodup_append]
  refine ⟨distinct.sublist (keys_refreshed _ _), ?_, ?_⟩
  · rw [← Lru.keys, keys_adopted]
    exact walk.distinct.filter _
  · rintro path kept _ new rfl
    rw [← Lru.keys, keys_adopted, mem_filter] at new
    exact absurd kept (of_decide_eq_true new.2)

theorem reconcile_eq {walk : Walk} {view : View} (distinct : (Lru.keys m.lru).Nodup) (walked : view.walk = some walk) :
    m.reconcile view = { m with
      lru := rebuilt walk m.lru
      total := Lru.total Counted.size (rebuilt walk m.lru)
      lastReconcile := some (view.clock 2) } := by
  have same : adopted ((Lru.keys (refreshed (Lru.find walk.found) m.lru)).reverse ++ []) walk.found =
      adopted (Lru.keys (refreshed (Lru.find walk.found) m.lru)) walk.found := by simp [adopted]
  have separate := rebuilt_distinct walk distinct
  have front : (Lru.keys ([] ++ m.lru)).Nodup := distinct
  rw [Ledger.reconcile, walked]
  simp only [keepLoop_eq front, nil_append]
  rw [adoptLoop_eq (same ▸ separate), same, rebuilt, total_append, zero_add]

theorem Accounted.reconcile (accounted : m.Accounted) (view : View) : (m.reconcile view).Accounted := by
  cases walked : view.walk with
  | none =>
    rw [Ledger.reconcile, walked]
    exact accounted
  | some walk =>
    rw [reconcile_eq accounted.distinct walked]
    refine ⟨rebuilt_distinct walk accounted.distinct, rfl, fun p member => ?_⟩
    rcases mem_append.mp member with kept | new
    · obtain ⟨q, tracked, found⟩ := mem_filterMap.mp kept
      obtain ⟨size, -, rfl⟩ := Option.map_eq_some_iff.mp found
      exact ⟨Int.natCast_nonneg size, (accounted.entries q tracked).2⟩
    · obtain ⟨q, -, rfl⟩ := mem_map.mp new
      exact ⟨Int.natCast_nonneg q.2, le_rfl⟩

theorem Evicted.distinct {unlink : Path → Bool} {capacity left : Int} {before rest skipped : List (Path × Counted)}
    {gone : List Path} (evicted : Evicted unlink capacity before total rest skipped left gone)
    (distinct : (Lru.keys before).Nodup) : (Lru.keys (rest ++ skipped)).Nodup := by
  obtain ⟨popped, rfl, sub⟩ := evicted.order
  have inside : (Lru.keys (skipped ++ rest)).Nodup :=
    distinct.sublist ((sub.append (refl rest)).map Prod.fst)
  exact (List.perm_append_comm.map Prod.fst).nodup_iff.mp inside

theorem Accounted.evict_eq (accounted : m.Accounted) (view : View) (on : ¬ m.capacity ≤ 0)
    {rest skipped : List (Path × Counted)} {left : Int} {gone : List Path}
    (result : evictLoop view.unlink m.capacity m.lru [] m.total [] = (rest, skipped, left, gone)) :
    m.evict view = ({ m with
      lru := rest ++ skipped
      total := left
      lastEvictFailed := if m.capacity < left then some (view.clock 3) else none }, gone) ∧
    Evicted view.unlink m.capacity m.lru m.total rest skipped left gone := by
  obtain ⟨rest', skipped', left', gone', result', spec⟩ := evictLoop_spec view.unlink m.capacity m.lru [] m.total []
  cases result'.symm.trans result
  refine ⟨?_, spec⟩
  rw [Ledger.evict, if_neg on, result']
  simp only [nil_append, foldl_put (spec.distinct accounted.distinct)]

/-- Eviction leaves what its pass did not reach in its order, and what it could not remove behind that. -/
theorem Accounted.evict_spec (accounted : m.Accounted) (view : View) (on : 0 < m.capacity) :
    ∃ rest skipped, (m.evict view).1.lru = rest ++ skipped ∧
      Evicted view.unlink m.capacity m.lru m.total rest skipped (m.evict view).1.total (m.evict view).2 := by
  obtain ⟨evict, spec⟩ := accounted.evict_eq view (not_le.mpr on) rfl
  rw [evict]
  exact ⟨_, _, rfl, spec⟩

theorem evict_off (off : m.capacity ≤ 0) (view : View) : m.evict view = (m, []) := by
  rw [Ledger.evict, if_pos off]

theorem Accounted.evict (accounted : m.Accounted) (view : View) : (m.evict view).1.Accounted := by
  by_cases on : 0 < m.capacity
  · obtain ⟨rest, skipped, lru, spec⟩ := accounted.evict_spec view on
    rw [Accounted, lru]
    refine ⟨spec.distinct accounted.distinct, ?_, ?_⟩
    · have accounts := spec.accounts
      rw [accounted.total] at accounts
      omega
    · obtain ⟨popped, before, sub⟩ := spec.order
      intro p member
      apply accounted.entries
      rw [before]
      rcases mem_append.mp member with left | kept
      · exact mem_append_right popped left
      · exact mem_append_left rest (sub.subset kept)
  · rw [evict_off (not_lt.mp on)]
    exact accounted

theorem Accounted.evaluate (accounted : m.Accounted) (view : View) : (m.evaluate view).1.Accounted := by
  rw [Ledger.evaluate]
  split
  · exact accounted
  · split
    · exact accounted
    · split
      · exact (accounted.reconcile view).evict view
      · exact accounted.evict view

theorem Accounted.prepare (accounted : m.Accounted) (view : View) : (m.prepare view).1.Accounted := by
  rw [Ledger.prepare]
  split
  · exact (accounted.reconcile view).evaluate view
  · exact accounted.evaluate view

theorem Booked.int64_part {lru part : List (Path × Counted)} {total : Int} (booked : Booked lru total)
    (bound : total < 2 ^ 63) (sub : part.Sublist lru) :
    (Int64.ofInt (Lru.total Counted.size part)).toInt = Lru.total Counted.size part := by
  have sizes : ∀ size ∈ lru.map fun p => p.2.size, 0 ≤ size := by
    intro size member
    obtain ⟨p, here, rfl⟩ := mem_map.mp member
    exact (booked.entries p here).1
  have low : 0 ≤ Lru.total Counted.size part := sum_nonneg fun size member => sizes size ((sub.map _).subset member)
  have high : Lru.total Counted.size part ≤ total := by
    rw [booked.total]
    exact (sub.map _).sum_le_sum sizes
  exact Int64.toInt_ofInt_of_le (by omega) (by omega)

/-- The code keeps sizes and totals in 64 bits, where sums and differences wrap around. What it compares are sums
over some of the entries, and they are the ones here while less than 2^63 bytes are tracked: with up to 2^30
entries of less than 2^33 bytes. -/
theorem Accounted.int64 (accounted : m.Accounted) (few : m.lru.length ≤ 2 ^ 30)
    (small : ∀ p ∈ m.lru, p.2.size < 2 ^ 33) : (Int64.ofInt m.total).toInt = m.total ∧
      ∀ part, part.Sublist m.lru → (Int64.ofInt (Lru.total Counted.size part)).toInt = Lru.total Counted.size part := by
  have bound : m.total < 2 ^ 63 := by
    have sum := List.sum_le_card_nsmul (m.lru.map fun p => p.2.size) (2 ^ 33 - 1) fun size member => by
      obtain ⟨p, here, rfl⟩ := mem_map.mp member
      exact Int.le_sub_one_of_lt (small p here)
    have total : m.total = (m.lru.map fun p => p.2.size).sum := Booked.total accounted
    rw [length_map, nsmul_eq_mul] at sum
    omega
  refine ⟨?_, fun part => Booked.int64_part accounted bound⟩
  have whole := Booked.int64_part accounted bound (refl m.lru)
  rwa [← Booked.total accounted] at whole

end Ledger

theorem Scheduled.Step.accounted {s s' : Scheduled} (step : s.Step s') (accounted : s.ledger.Accounted) :
    s'.ledger.Accounted := by
  cases step with
  | acquire path size => exact accounted.acquire path size
  | release path => exact accounted.release path
  | evict view => exact accounted.evict view
  | reconcile view => exact accounted.reconcile view
  | evaluate view => exact accounted.evaluate view
  | prepare view => exact accounted.prepare view
  | forgetPinned path => exact accounted.touch path
  | forgetCheck path => exact accounted.touch path
  | forgetUnlink path => exact accounted
  | forgetRefused path => exact accounted
  | forgetUntrack path => exact accounted.untrack path

theorem Scheduled.Reached.accounted {capacity : Int} {s : Scheduled} (reached : Reached capacity s) :
    s.ledger.Accounted := by
  induction reached with
  | new => exact Ledger.Booked.empty
  | step _ step ih => exact step.accounted ih

/-- The accounts are in order after every schedule, and eviction removes only what nobody uses, leaves the order
of what it does not touch, and stops within capacity unless nothing more can be removed. -/
theorem cache_accounts_kept {capacity : Int} {s : Scheduled} (reached : s.Reached capacity) :
    s.ledger.total = Lru.total Counted.size s.ledger.lru ∧ 0 ≤ s.ledger.total ∧
    (∀ path e, (path, e) ∈ s.ledger.lru → 0 ≤ e.refs) ∧
    ∀ view, (∀ path ∈ (s.ledger.evict view).2, ∃ e, (path, e) ∈ s.ledger.lru ∧ ¬ 0 < e.refs) ∧
      (∃ popped rest skipped, s.ledger.lru = popped ++ rest ∧ (s.ledger.evict view).1.lru = rest ++ skipped ∧
        skipped.Sublist popped) ∧
      (0 < s.ledger.capacity → (s.ledger.evict view).1.total ≤ s.ledger.capacity ∨
        ∀ path e, (path, e) ∈ (s.ledger.evict view).1.lru → 0 < e.refs ∨ view.unlink path = false) := by
  have accounted := reached.accounted
  refine ⟨accounted.total, accounted.nonneg, fun path e member => (accounted.entries _ member).2, fun view => ?_⟩
  by_cases on : 0 < s.ledger.capacity
  · obtain ⟨rest, skipped, lru, spec⟩ := accounted.evict_spec view on
    obtain ⟨popped, before, sub⟩ := spec.order
    refine ⟨spec.idle, ⟨popped, rest, skipped, before, lru, sub⟩, fun _ => spec.done.symm.imp id fun all => ?_⟩
    intro path e member
    rw [lru, all, List.nil_append] at member
    exact spec.kept _ member
  · rw [Ledger.evict_off (Int.not_lt.mp on)]
    exact ⟨nofun, ⟨[], s.ledger.lru, [], rfl, by simp, List.Sublist.refl _⟩, fun positive => absurd positive on⟩

/-- An entry is used again, with another size, while it is being forgotten. -/
def usedWhileForgotten (path : Path) : Scheduled :=
  ⟨((((((Ledger.new 10).acquire path 12).release path).touch path).acquire path 20).untrack path).acquire path 7, []⟩

theorem used_while_forgotten_accounts :
    (usedWhileForgotten ⟨[], []⟩).ledger.total =
      Lru.total Counted.size (usedWhileForgotten ⟨[], []⟩).ledger.lru := by
  have reached : (usedWhileForgotten ⟨[], []⟩).Reached 10 :=
    .step (.step (.step (.step (.step (.step (.step .new (.acquire ⟨[], []⟩ 12)) (.release ⟨[], []⟩))
      (.forgetCheck ⟨[], []⟩ (by decide))) (.acquire ⟨[], []⟩ 20)) (.forgetUnlink ⟨[], []⟩ (by decide)))
      (.forgetUntrack ⟨[], []⟩ (by decide))) (.acquire ⟨[], []⟩ 7)
  exact (cache_accounts_kept reached).1

/-! The accounts of the manager.

A manager counts its entries in natural numbers. Its operations do with them what they do in the integers. -/

def Tracked.counted (e : Tracked) : Counted := ⟨e.size, e.refs⟩

def CacheManager.ledger (m : CacheManager) : Ledger :=
  ⟨m.capacity, Lru.mapValues Tracked.counted m.lru, m.total, m.lastReconcile, m.lastEvictFailed⟩

theorem CacheManager.find_ledger (m : CacheManager) (path : Path) :
    find m.ledger.lru path = (find m.lru path).map counted :=
  find_mapValues _ _ _

theorem CacheManager.acquire_ledger (m : CacheManager) (path : Path) (size : Nat) :
    (m.acquire path size).ledger = m.ledger.acquire path size := by
  rw [acquire, Ledger.acquire, m.find_ledger]
  cases find m.lru path with
  | none => simp only [Option.map_none, ledger, ← put_mapValues]; rfl
  | some e => simp only [Option.map_some, ledger, ← put_mapValues]; rfl

theorem CacheManager.release_ledger (m : CacheManager) (path : Path) : (m.release path).ledger = m.ledger.release path := by
  rw [release, Ledger.release, m.find_ledger]
  cases find m.lru path with
  | none => rfl
  | some e =>
    obtain ⟨size, refs⟩ := e
    cases refs with
    | zero => simp [ledger, ← put_mapValues, counted]
    | succ refs =>
      have used : (0 : Int) < refs + 1 := by omega
      simp [ledger, ← put_mapValues, counted, used]

theorem removeCacheEntry_after {files files' : List CachedFile} {path : Path}
    (removed : removeCacheEntry files path = (true, files')) (q : Path) :
    (removeCacheEntry files' q).1 = (removeCacheEntry files q).1 := by
  rcases removeCacheEntry_cases files path with ⟨stays, -⟩ | gone
  · cases stays.symm.trans removed
  · cases gone.symm.trans removed
    by_cases same : q = path
    · subst same
      have absent : (files.filter (·.path ≠ q)).find? (·.path = q) = none := by simp
      rw [removed, removeCacheEntry, absent]
    · have kept : (files.filter (·.path ≠ path)).find? (·.path = q) = files.find? (·.path = q) := by
        rw [find?_filter]
        congr 1
        funext f
        by_cases here : f.path = q <;> simp [here, same]
      rw [removeCacheEntry, removeCacheEntry, kept]
      split
      · rfl
      · split <;> rfl

theorem evictLoop_ledger {unlink : Path → Bool} (capacity : Int) (lru skipped : List (Path × Tracked)) (s : Cache)
    (gone : List Path) (agree : ∀ q, (removeCacheEntry s.files q).1 = unlink q) :
    let out := Ledger.evictLoop unlink capacity (mapValues counted lru) (mapValues counted skipped) s.manager.total gone
    (evictLoop capacity lru skipped s).manager.ledger = { s.manager.ledger with lru := out.1 ++ out.2.1, total := out.2.2.1 } ∧
      (evictLoop capacity lru skipped s).manager.looks = s.manager.looks := by
  induction lru generalizing skipped s gone with
  | nil => exact ⟨rfl, rfl⟩
  | cons p lru ih =>
    obtain ⟨path, e⟩ := p
    have shape : mapValues counted ((path, e) :: lru) = (path, e.counted) :: mapValues counted lru := rfl
    have append : mapValues counted skipped ++ [(path, e.counted)] = mapValues counted (skipped ++ [(path, e)]) := by
      simp [mapValues]
    have users : 0 < e.counted.refs ↔ 0 < e.refs := natCast_pos
    rw [shape, Ledger.evictLoop, evictLoop]
    by_cases within : s.manager.total ≤ capacity
    · simp [within, ledger, mapValues]
    rw [if_neg within, if_neg within]
    by_cases used : 0 < e.refs
    · rw [if_pos (.inl (users.mpr used)), if_pos used, append]
      exact ih (skipped ++ [(path, e)]) s gone agree
    rw [if_neg used]
    cases outcome : removeCacheEntry s.files path with
    | mk removed files =>
      have linked := agree path
      rw [outcome] at linked
      cases removed with
      | false =>
        rw [if_pos (.inr linked.symm), append]
        exact ih (skipped ++ [(path, e)]) s gone agree
      | true =>
        rw [if_neg (by rw [users, ← linked]; simp [used])]
        exact ih skipped ⟨files, { s.manager.forgetVerified path with total := s.manager.total - e.size }⟩ (gone ++ [path])
          fun q => (removeCacheEntry_after outcome q).trans (agree q)

/-- Eviction by the manager is eviction in the accounts, for the names that can be removed from its directory. -/
theorem evictLocked_ledger (env : Surroundings) (s : Cache) {view : View} (accounted : s.manager.ledger.Accounted)
    (unlink : ∀ q, (removeCacheEntry s.files q).1 = view.unlink q) (clock : view.clock 3 = env.clock s.manager.looks) :
    (evictLocked env s).manager.ledger = (s.manager.ledger.evict view).1 := by
  by_cases off : s.manager.capacity ≤ 0
  · rw [Ledger.evict_off off, evictLocked, if_pos off]
  · obtain ⟨ledger, looks⟩ := evictLoop_ledger s.manager.capacity s.manager.lru [] s [] unlink
    rw [(accounted.evict_eq view off rfl).1, evictLocked, if_neg off]
    generalize evictLoop s.manager.capacity s.manager.lru [] s = after at ledger looks ⊢
    simp only [CacheManager.ledger, Ledger.mk.injEq] at ledger ⊢
    obtain ⟨capacity, lru, left, reconciled, -⟩ := ledger
    rw [capacity, left, looks, ← clock]
    split <;> simp_all [mapValues]

theorem total_counted (lru : List (Path × Tracked)) :
    Lru.total Counted.size (mapValues counted lru) = (lru.map fun p => (p.2.size : Int)).sum := by
  rw [Lru.total, mapValues, map_map]
  rfl

theorem adopted_counted (kept : List Path) (files : List CachedFile) :
    Ledger.adopted kept (files.map fun f => (f.path, f.content.length)) = mapValues counted
      ((files.filter (·.path ∉ kept)).map fun f => (f.path, ⟨f.content.length, 0⟩)) := by
  rw [Ledger.adopted, filter_map, map_map, mapValues, map_map]
  rfl

theorem refreshed_counted {onDisk size : Path → Option Nat} (same : ∀ q, onDisk q = size q) (lru : List (Path × Tracked)) :
    Ledger.refreshed onDisk (mapValues counted lru) = mapValues counted
      (lru.filterMap fun (path, e) => (size path).map fun n => (path, { e with size := n })) := by
  induction lru with
  | nil => rfl
  | cons p lru ih =>
    have shape : mapValues counted (p :: lru) = (p.1, p.2.counted) :: mapValues counted lru := rfl
    rw [shape, Ledger.refreshed, filterMap_cons, filterMap_cons, ← Ledger.refreshed, ih]
    simp only [same p.1]
    cases size p.1 with
    | none => rfl
    | some n => rfl

theorem reconcileLocked_ledger (env : Surroundings) (s : Cache) {view : View} {walk : Walk}
    (accounted : s.manager.ledger.Accounted) (walked : view.walk = some walk) (clock : view.clock 2 = env.clock s.manager.looks)
    (found : walk.found = (env.byTime.sort ((s.files.filter fun f => !f.leftover).filter CachedFile.complete)).map
      fun f => (f.path, f.content.length)) :
    (reconcileLocked env s).manager.ledger = s.manager.ledger.reconcile view := by
  have sizes : ∀ q, find walk.found q = (((s.files.filter fun f => !f.leftover).filter CachedFile.complete).find?
      (·.path = q)).map (·.content.length) := by
    intro q
    have perm := (env.byTime.perm ((s.files.filter fun f => !f.leftover).filter CachedFile.complete)).map
      fun f => (f.path, f.content.length)
    rw [← found] at perm
    rw [find_perm walk.distinct perm q, find, find?_map, Option.map_map]
    rfl
  have tracked := refreshed_counted sizes s.manager.lru
  have rebuilt : Ledger.rebuilt walk s.manager.ledger.lru =
      mapValues counted (reconcileLocked env s).manager.lru := by
    have keys : ∀ lru : List (Path × Tracked), Lru.keys (mapValues counted lru) = lru.map Prod.fst :=
      fun lru => map_map
    rw [Ledger.rebuilt, ledger, tracked, keys, found, adopted_counted, ← mapValues_append]
    rfl
  rw [Ledger.reconcile_eq accounted.distinct walked, rebuilt, total_counted, clock]
  rfl

/-- Forgetting an entry without other calls in between is its check, its removal and then its untracking. -/
theorem forgetIfIdle_ledger (s : Cache) (path : Path) : (forgetIfIdle s path).2.manager.ledger =
    if s.manager.ledger.pinned path = false ∧ (removeCacheEntry s.files path).1 = true then
      (s.manager.ledger.touch path).untrack path
    else s.manager.ledger.touch path := by
  rw [forgetIfIdle, Ledger.pinned, Ledger.touch, find_ledger]
  cases outcome : removeCacheEntry s.files path with
  | mk removed files =>
    cases tracked : find s.manager.lru path with
    | none =>
      cases removed with
      | false => simp [outcome]
      | true =>
        have absent : remove s.manager.lru path = s.manager.lru := remove_absent (find_eq_none.mp tracked)
        simp [outcome, Ledger.untrack, find_mapValues, tracked, ledger, forgetVerified, absent]
    | some e =>
      obtain ⟨size, refs⟩ := e
      cases refs with
      | zero =>
        cases removed with
        | false => simp [outcome, ledger, ← put_mapValues]
        | true =>
          simp [outcome, ledger, forgetVerified, Ledger.untrack, find_put, counted,
            ← remove_mapValues, ← put_mapValues]
      | succ refs =>
        have used : (0 : Int) < refs + 1 := by omega
        simp [ledger, ← put_mapValues, counted, used]

end Xet.Download
