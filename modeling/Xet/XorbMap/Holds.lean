import Xet.Lib.RefCount
import Xet.Lib.Tally
import Xet.XorbMap.Cache

/-! The holds of mappings. Every file that was opened is in one place: it is counted by holds, one thread is
setting it up or taking it down, or its release hook has run. -/
namespace Xet.XorbMap
open Tally RefCount Lru Move

variable {H : Type}

def After.holders (m : Nat) : After H → Nat
  | .evict _ q => if q = m then 1 else 0
  | .idle | .unlock => 0

namespace Thread

/-- The holds of callers that a thread has; the leader of a fill has the one it will return. -/
def holders (m : Nat) : Thread H → Nat
  | .add _ q | .evict _ q | .finish _ (some q) | .holding _ q | .drop q .idle => if q = m then 1 else 0
  | .drop _ next | .unmap _ next | .hook _ next => next.holders m
  | _ => 0

/-- A hold of the cache that is being installed, or that has been taken out of the list and not been dropped yet. -/
def moving (m : Nat) : Thread H → Nat
  | .add _ q | .drop q .unlock | .drop q (.evict _ _) => if q = m then 1 else 0
  | _ => 0

def busy (m : Nat) : Thread H → Nat
  | .stat _ q | .failing _ q | .store _ q | .unmap q _ | .hook q _ => if q = m then 1 else 0
  | _ => 0

end Thread

namespace Shared

def opens (s : Shared H) (m : Nat) : Nat := if m < s.next then 1 else 0

def Of (s : Shared H) (h : H) (m : Nat) : Prop := m < s.next ∧ (s.maps m).hash = h

end Shared

open Shared Thread

section
variable (s : Shared H) (m q : Nat) (f : Mapping H → Mapping H) (next : After H)

namespace Shared

@[simp] theorem update_maps : (s.update m f).maps q = if q = m then f (s.maps m) else s.maps q := Function.update_apply ..

@[simp] theorem update_next : (s.update m f).next = s.next := rfl

@[simp] theorem update_opens : (s.update m f).opens q = s.opens q := rfl

@[simp] theorem update_cache : (s.update m f).cache = s.cache := rfl

@[simp] theorem update_fills : (s.update m f).fills = s.fills := rfl

end Shared

namespace Thread

@[simp] theorem afterRelease_maps : (afterRelease s next).1.maps = s.maps := by cases next <;> rfl

@[simp] theorem afterRelease_next : (afterRelease s next).1.next = s.next := by cases next <;> rfl

@[simp] theorem afterRelease_opens : (afterRelease s next).1.opens m = s.opens m := by cases next <;> rfl

@[simp] theorem afterRelease_cache : (afterRelease s next).1.cache = s.cache := by cases next <;> rfl

@[simp] theorem afterRelease_fills : (afterRelease s next).1.fills = s.fills := by cases next <;> rfl

@[simp] theorem holders_afterRelease : holders m (afterRelease s next).2 = next.holders m := by cases next <;> rfl

@[simp] theorem moving_afterRelease : moving m (afterRelease s next).2 = 0 := by cases next <;> rfl

@[simp] theorem busy_afterRelease : busy m (afterRelease s next).2 = 0 := by cases next <;> rfl

end Thread

end

theorem update_keeps {s : Shared H} {β : Type} (g : Mapping H → β) {f : Mapping H → Mapping H} {q : Nat}
    (same : g (f (s.maps q)) = g (s.maps q)) (m : Nat) : g ((s.update q f).maps m) = g (s.maps m) := by
  rw [update_maps]
  split
  · rename_i here
    rw [same, here]
  · rfl

variable [DecidableEq H]

def After.leads (h : H) : After H → Nat
  | .evict q _ => if q = h then 1 else 0
  | .idle | .unlock => 0

def Thread.leads (h : H) : Thread H → Nat
  | .get q true | .load q _ .leader | .cas q _ _ .leader | .opening q | .stat q _ | .failing q _ | .store q _ | .add q _
  | .evict q _ | .finish q _ => if q = h then 1 else 0
  | .drop _ next | .unmap _ next | .hook _ next => next.leads h
  | _ => 0

def Shared.kept (s : Shared H) (m : Nat) : Nat := if Lru.find s.cache (s.maps m).hash = some m then 1 else 0

def After.Fits (s : Shared H) : After H → Prop
  | .evict h m => s.Of h m
  | .idle | .unlock => True

/-- What a thread knows. The leader of a fill knows that no other mapping of its hash gets into the cache. -/
def Thread.Fits (s : Shared H) : Thread H → Prop
  | .load h m role => s.Of h m ∧ (role = .leader → ∀ q, Lru.find s.cache h = some q → q = m)
  | .cas h m n role => s.Of h m ∧ n ≠ 0 ∧ (role = .leader → ∀ q, Lru.find s.cache h = some q → q = m)
  | .opening h => Lru.find s.cache h = none
  | .stat h m | .failing h m => s.Of h m ∧ Lru.find s.cache h = none ∧ (s.maps m).made = false
  | .store h m => s.Of h m ∧ Lru.find s.cache h = none ∧ (s.maps m).unmaps = 0
  | .add h m => s.Of h m ∧ Lru.find s.cache h = none
  | .evict h m | .finish h (some m) | .holding h m => s.Of h m
  | .drop _ next => next.Fits s
  | .unmap m next => (s.maps m).unmaps = 0 ∧ next.Fits s
  | .hook m next => (s.maps m).data = false ∧ next.Fits s
  | _ => True

/-- The books of a mapping: what is shared, with the share of one thread or of all. -/
def row (s : Shared H) (t : Thread H) (m : Nat) : Row :=
  ⟨(s.maps m).refs, t.holders m, s.kept m, t.moving m, t.busy m, s.opens m, (s.maps m).hooks⟩

def books (s : Shared H) (ts : Multiset (Thread H)) (m : Nat) : Row :=
  ⟨(s.maps m).refs, tally (Thread.holders m) ts, s.kept m, tally (Thread.moving m) ts, tally (Thread.busy m) ts,
    s.opens m, (s.maps m).hooks⟩

theorem books_cons (s : Shared H) (t : Thread H) (ts : Multiset (Thread H)) (m : Nat) :
    books s (t ::ₘ ts) m =
      (row s t m).add (tally (Thread.holders m) ts) (tally (Thread.moving m) ts) (tally (Thread.busy m) ts) := by
  simp only [books, row, Row.add, tally_cons]

/-- The bytes of a mapping: they are there until they are unmapped, once, and neither before the last hold is dropped
nor after the hook has run. -/
structure Mapping.Sound (x : Mapping H) : Prop where
  intact : x.data = true ↔ x.made = true ∧ x.unmaps = 0
  once : x.unmaps = 0 ∨ (x.unmaps = 1 ∧ x.made = true)
  used : x.refs ≠ 0 → x.unmaps = 0
  gone : x.hooks ≠ 0 → x.data = false

structure Inv (s : Shared H) (ts : Multiset (Thread H)) : Prop where
  balanced : ∀ m, (books s ts m).Balanced
  leads : ∀ h, tally (Thread.leads h) ts = if s.fills h then 1 else 0
  keys : (Lru.keys s.cache).Nodup
  cached : ∀ h m, Lru.find s.cache h = some m → s.Of h m
  sound : ∀ m, (s.maps m).Sound
  fits : ∀ t ∈ ts, t.Fits s

section
variable (s : Shared H) (m q : Nat) (h : H) (next : After H)

namespace Shared

@[simp] theorem removeXorbFile_maps : (s.removeXorbFile h).maps = s.maps := by
  rw [removeXorbFile]
  split <;> rfl

@[simp] theorem removeXorbFile_next : (s.removeXorbFile h).next = s.next := by
  rw [removeXorbFile]
  split <;> rfl

@[simp] theorem removeXorbFile_cache : (s.removeXorbFile h).cache = s.cache := by
  rw [removeXorbFile]
  split <;> rfl

@[simp] theorem removeXorbFile_fills : (s.removeXorbFile h).fills = s.fills := by
  rw [removeXorbFile]
  split <;> rfl

@[simp] theorem runHook_maps :
    (s.runHook m).maps q = if q = m then { s.maps m with hooks := (s.maps m).hooks + 1 } else s.maps q := by
  simp [runHook]

@[simp] theorem runHook_next : (s.runHook m).next = s.next := by simp [runHook]

@[simp] theorem runHook_opens : (s.runHook m).opens q = s.opens q := by simp [opens]

@[simp] theorem runHook_cache : (s.runHook m).cache = s.cache := by simp [runHook]

@[simp] theorem runHook_fills : (s.runHook m).fills = s.fills := by simp [runHook]

@[simp] theorem opened_maps : (s.opened h).maps q = if q = s.next then ⟨h, false, 0, false, 0, 0⟩ else s.maps q :=
  Function.update_apply ..

end Shared

@[simp] theorem Thread.leads_afterRelease : leads h (afterRelease s next).2 = next.leads h := by cases next <;> rfl

end

variable {max m : Nat} {s s' : Shared H} {t t' : Thread H} {ts : Multiset (Thread H)}

theorem kept_find {cache : List (H × Nat)} (same : ∀ h, find cache h = find s.cache h) (m : Nat) :
    { s with cache }.kept m = s.kept m := by
  simp only [kept, same]

theorem kept_update {f : Mapping H → Mapping H} {q : Nat} (hash : (f (s.maps q)).hash = (s.maps q).hash) (m : Nat) :
    (s.update q f).kept m = s.kept m := by
  rw [kept, kept, update_keeps Mapping.hash hash]
  rfl

theorem runHook_keeps {β : Type} (g : Mapping H → β) {q : Nat}
    (same : g { s.maps q with hooks := (s.maps q).hooks + 1 } = g (s.maps q)) (m : Nat) :
    g ((s.runHook q).maps m) = g (s.maps m) := by
  rw [runHook, removeXorbFile_maps]
  exact update_keeps g same m

theorem kept_runHook (q m : Nat) : (s.runHook q).kept m = s.kept m := by
  rw [kept, kept, runHook_cache, runHook_keeps Mapping.hash rfl]

theorem kept_afterRelease (next : After H) (m : Nat) : (afterRelease s next).1.kept m = s.kept m := by
  cases next <;> rfl

variable {h : H} {q : Nat}

/-- The mapping that is found for a hash is found for no other, and nothing else is found for the hash. -/
theorem kept_remove (found : find s.cache h = some q) (hash : (s.maps q).hash = h) (m : Nat) :
    { s with cache := remove s.cache h }.kept m = if m = q then 0 else s.kept m := by
  simp only [kept, find_remove]
  by_cases same : m = q
  · simp [same, hash]
  · rw [if_neg same]
    by_cases other : (s.maps m).hash = h
    · simp [other, found, Ne.symm same]
    · simp [other]

theorem kept_missing (missing : find s.cache h = none) (hash : (s.maps q).hash = h) : s.kept q = 0 := by
  rw [kept, hash, missing, if_neg nofun]

theorem kept_found (found : find s.cache h = some q) (hash : (s.maps q).hash = h) : s.kept q = 1 := by
  rw [kept, hash, found, if_pos rfl]

theorem kept_put (missing : find s.cache h = none) (hash : (s.maps q).hash = h) (m : Nat) :
    { s with cache := put s.cache h q }.kept m = if m = q then 1 else s.kept m := by
  simp only [kept, find_put]
  by_cases same : m = q
  · simp [same, hash]
  · rw [if_neg same]
    by_cases other : (s.maps m).hash = h
    · simp [other, missing, Ne.symm same]
    · simp [other]

theorem find_touch {c : List (H × Nat)} {h : H} {q : Nat} (found : find c h = some q) (k : H) :
    find (put c h q) k = find c k := by
  rw [find_put]
  split
  · rename_i same
    rw [same, found]
  · rfl

theorem row_eq (refs : (s'.maps m).refs = (s.maps m).refs) (holders : t'.holders m = t.holders m)
    (kept : s'.kept m = s.kept m) (moving : t'.moving m = t.moving m) (busy : t'.busy m = t.busy m)
    (opens : s'.opens m = s.opens m) (hooks : (s'.maps m).hooks = (s.maps m).hooks) : Move (row s t m) (row s' t' m) := by
  have same : row s' t' m = row s t m := by simp only [row, refs, holders, kept, moving, busy, opens, hooks]
  rw [same]
  exact .stay _

theorem unlist_move {locked : Bool} (found : find s.cache h = some q) (hash : (s.maps q).hash = h)
    (holders : t'.holders m = t.holders m) (here : t.moving m = 0) (there : t'.moving m = if q = m then 1 else 0)
    (busy : t'.busy m = t.busy m) : Move (row s t m) (row { s with cache := remove s.cache h, locked } t' m) := by
  have off : Shared.kept { s with cache := remove s.cache h, locked } m = if m = q then 0 else s.kept m :=
    kept_remove found hash m
  rw [row, row, off, here, there, holders, busy]
  by_cases same : m = q
  · subst same
    rw [kept_found found hash, if_pos rfl, if_pos rfl]
    exact .unlist
  · rw [if_neg same, if_neg (Ne.symm same)]
    exact .stay _

theorem Inv.unopened (inv : Inv s ts) : (s.maps s.next).refs = 0 ∧ (s.maps s.next).hooks = 0 := by
  obtain ⟨-, -, alive, dead, -⟩ := inv.balanced s.next
  simp only [books, opens, Nat.lt_irrefl, if_false] at alive dead
  omega

theorem Inv.kept_opened (inv : Inv s ts) {h : H} (missing : find s.cache h = none) (m : Nat) :
    (s.opened h).kept m = s.kept m := by
  have cache : (s.opened h).cache = s.cache := rfl
  rw [kept, kept, cache, opened_maps]
  by_cases here : m = s.next
  · have absent : find s.cache (s.maps m).hash ≠ some m := fun found =>
      Nat.lt_irrefl _ (here ▸ (inv.cached _ _ found).1)
    rw [if_pos here, missing, if_neg absent, if_neg nofun]
  · rw [if_neg here]

theorem opens_opened (h : H) (m : Nat) : (s.opened h).opens m = if m = s.next then 1 else s.opens m := by
  change (if m < s.next + 1 then 1 else 0) = _
  by_cases here : m = s.next
  · rw [if_pos here, if_pos (by omega)]
  · have below : m < s.next + 1 ↔ m < s.next := by omega
    rw [if_neg here, opens]
    simp only [below]

theorem Local.move (step : Local max s t s' t') (inv : Inv s (t ::ₘ ts)) (m : Nat) : Move (row s t m) (row s' t' m) := by
  have fits := inv.fits t (Multiset.mem_cons_self t ts)
  cases step with
  | acquire | removeCall | openFailed | copyFailed | lead | join | statFailed | emptyFile | casLost | loadLive
  | removeMiss | nothingMapped | release | evicted => exact row_eq rfl rfl rfl rfl rfl rfl rfl
  | has free found => exact row_eq rfl rfl (kept_find (find_touch found) m) rfl rfl rfl rfl
  | @getHit h q leader free found =>
    cases leader <;> exact row_eq rfl rfl (kept_find (find_touch found) m) rfl rfl rfl rfl
  | @getMiss h leader => cases leader <;> exact row_eq rfl rfl rfl rfl rfl rfl rfl
  | @loadDead h q role => cases role <;> exact row_eq rfl rfl rfl rfl rfl rfl rfl
  | mapped | unmapped =>
    exact row_eq (update_keeps _ rfl m) rfl (kept_update rfl m) rfl rfl rfl (update_keeps _ rfl m)
  | @casDone h q n role same =>
    simp only [row, kept_update, update_maps, update_opens]
    by_cases here : m = q
    · subst here
      cases role <;> simpa [holders, moving, busy, taken, same] using take fits.2.1
    · cases role <;> simpa [holders, moving, busy, taken, here, Ne.symm here] using stay _
  | @opened h =>
    simp only [row, inv.kept_opened fits, opened_maps, opens_opened]
    by_cases here : m = s.next
    · subst here
      obtain ⟨count, hooks⟩ := inv.unopened
      simpa [holders, moving, busy, opens, count, hooks] using make rfl
    · simpa [holders, moving, busy, here, Ne.symm here] using stay _
  | @failed h q =>
    simp only [row, kept_runHook, runHook_maps, runHook_opens]
    by_cases here : m = q
    · subst here
      simpa [holders, moving, busy] using close
    · simpa [holders, moving, busy, here, Ne.symm here] using stay _
  | @stored h q =>
    simp only [row, kept_update, update_maps, update_opens]
    by_cases here : m = q
    · subst here
      simpa [holders, moving, busy] using set
    · simpa [holders, moving, busy, here, Ne.symm here] using stay _
  | @added h q free =>
    have listed : Shared.kept { s with cache := put s.cache h q, locked := true } m = if m = q then 1 else s.kept m :=
      kept_put fits.2 fits.1.2 m
    by_cases here : m = q
    · subst here
      rw [row, row, listed, kept_missing fits.2 fits.1.2]
      simpa [holders, moving, busy, opens] using Move.list
    · rw [row, row, listed]
      simpa [holders, moving, busy, opens, here, Ne.symm here] using stay _
  | @evictOldest h q oldest rest shape full =>
    have distinct := inv.keys
    rw [shape] at distinct
    obtain rfl : remove s.cache oldest.1 = rest := by
      rw [shape, remove_head (List.nodup_cons.mp distinct).1]
    have found : find s.cache oldest.1 = some oldest.2 := by
      rw [find_eq_some inv.keys, shape]
      exact List.mem_cons_self
    exact unlist_move found (inv.cached _ _ found).2 rfl rfl rfl rfl
  | @removeHit h q free found => exact unlist_move found (inv.cached h q found).2 rfl rfl rfl rfl
  | @dropped q next more =>
    simp only [row, kept_afterRelease, kept_update, afterRelease_maps, update_maps, afterRelease_opens, update_opens,
      holders_afterRelease, moving_afterRelease, busy_afterRelease]
    by_cases here : m = q
    · subst here
      cases next with
      | idle => simpa [holders, After.holders, moving, busy] using drop more
      | unlock | evict => simpa [holders, After.holders, moving, busy] using keeperDrop more
    · cases next <;> simpa [holders, After.holders, moving, busy, here, Ne.symm here] using stay _
  | @droppedLast q next last =>
    simp only [row, kept_update, update_maps, update_opens]
    by_cases here : m = q
    · subst here
      cases next with
      | idle => simpa [holders, After.holders, moving, busy] using dropLast last
      | unlock | evict => simpa [holders, After.holders, moving, busy] using keeperDropLast last
    · cases next <;> simpa [holders, After.holders, moving, busy, here, Ne.symm here] using stay _
  | @hooked q next =>
    simp only [row, kept_afterRelease, kept_runHook, runHook_maps, runHook_opens, afterRelease_maps, afterRelease_opens,
      holders_afterRelease, moving_afterRelease, busy_afterRelease]
    by_cases here : m = q
    · subst here
      simpa [holders, moving, busy] using close
    · simpa [holders, moving, busy, here, Ne.symm here] using stay _

end Xet.XorbMap
