import Mathlib.Data.List.Dedup
import Xet.LruCache.Linked

/-! The linked list and the map of the cache against the list of entries in order of use. Both parts of the cache
describe one list of cells, each a key with its element and its value; every operation is followed on the cells. -/
namespace Xet.LruCache
open List Lru Cache

section
variable {κ ν : Type}

def ids (cells : List (κ × Nat × ν)) : List Nat := cells.map fun x => x.2.1

def entries (cells : List (κ × Nat × ν)) : List (κ × ν) := Lru.mapValues Prod.snd cells

/-- Both parts of the cache exist and describe the cells. -/
def Made (c : Cache κ ν) (cells : List (κ × Nat × ν)) : Prop :=
  ∃ table, c.ll = some (ids cells) ∧ c.cache = some table ∧ table.Perm (Lru.mapValues Prod.fst cells)

structure Holds (c : Cache κ ν) (cells : List (κ × Nat × ν)) : Prop where
  parts : (c.ll = none ∧ c.cache = none ∧ cells = []) ∨ Made c cells
  stored : ∀ x ∈ cells, c.elements[x.2.1]? = some (x.1, x.2.2)
  distinct : (Lru.keys cells).Nodup

variable {c c' c'' : Cache κ ν} {cells cells' : List (κ × Nat × ν)} {calls calls' : List (κ × ν)}

theorem holds_nil (listed : c.ll = none) (mapped : c.cache = none) : Holds c [] :=
  ⟨.inl ⟨listed, mapped, rfl⟩, nofun, nodup_nil⟩

theorem holds_made (listed : c.ll = some []) (mapped : c.cache = some []) : Holds c [] :=
  ⟨.inr ⟨[], listed, mapped, Perm.refl _⟩, nofun, nodup_nil⟩

namespace Holds

section
variable (holds : Holds c cells)
include holds

theorem made (used : cells ≠ []) : Made c cells := holds.parts.resolve_left fun nil => used nil.2.2

theorem ids_nodup : (ids cells).Nodup := by
  have keyed : (ids cells).map (fun e => c.elements[e]?.map Prod.fst) = (Lru.keys cells).map some := by
    rw [ids, map_map, Lru.keys, map_map]
    apply map_congr_left
    intro x member
    rw [Function.comp_apply, holds.stored x member]
    rfl
  apply Nodup.of_map (fun e => c.elements[e]?.map Prod.fst)
  rw [keyed]
  exact holds.distinct.map (fun _ _ => Option.some.inj)

theorem same_id {x y : κ × Nat × ν} (first : x ∈ cells) (second : y ∈ cells) (same : x.2.1 = y.2.1) : x.1 = y.1 := by
  have here := holds.stored x first
  rw [same, holds.stored y second] at here
  exact (Prod.mk.inj (Option.some.inj here)).1.symm

theorem table_distinct {table : List (κ × Nat)} (perm : table.Perm (Lru.mapValues Prod.fst cells)) :
    (Lru.keys table).Nodup := by
  have keys : Lru.keys (Lru.mapValues Prod.fst cells) = Lru.keys cells := map_map
  refine (perm.map Prod.fst).nodup_iff.mpr ?_
  rw [← Lru.keys, keys]
  exact holds.distinct

theorem stored_push (key : κ) (v : ν) :
    ∀ x ∈ (key, c.elements.length, v) :: cells, (c.elements ++ [(key, v)])[x.2.1]? = some (x.1, x.2.2) := by
  intro x there
  rcases mem_cons.mp there with rfl | old
  · exact getElem?_concat_length
  · have here := holds.stored x old
    rw [getElem?_append_left (List.getElem?_eq_some_iff.mp here).1]
    exact here

variable [DecidableEq κ]

theorem lookup_eq (key : κ) : c.lookup key = (Lru.find cells key).map Prod.fst := by
  rw [Cache.lookup]
  rcases holds.parts with ⟨-, nil, rfl⟩ | ⟨table, -, mapped, perm⟩
  · rw [nil]
    rfl
  · rw [mapped, Option.bind_some, find_perm (holds.table_distinct perm) perm, find_mapValues]

variable {key : κ} {e : Nat} {v : ν}

theorem erase_ids (member : (key, e, v) ∈ cells) : (ids cells).erase e = ids (Lru.remove cells key) := by
  rw [holds.ids_nodup.erase_eq_filter, ids, filter_map, Lru.remove]
  congr 1
  apply filter_congr
  intro x other
  have same : x.2.1 = e ↔ x.1 = key := by
    constructor
    · exact holds.same_id other member
    · intro key
      rw [inj_on_of_nodup_map holds.distinct other member key]
  simp only [Function.comp_apply, ne_eq, decide_not, ← same]
  rfl

theorem stored_set (found : Lru.find cells key = some (e, v)) (v' : ν) :
    ∀ x ∈ (key, e, v') :: Lru.remove cells key, (c.elements.set e (key, v'))[x.2.1]? = some (x.1, x.2.2) := by
  have member := mem_of_find found
  intro x there
  rcases mem_cons.mp there with rfl | left
  · exact getElem?_set_self (List.getElem?_eq_some_iff.mp (holds.stored _ member)).1
  · obtain ⟨other, apart⟩ := mem_remove.mp left
    rw [getElem?_set_ne fun same => apart (holds.same_id other member same.symm)]
    exact holds.stored x other

end

end Holds

/-- The cache `c'` follows `c`: it describes the given cells, and the given entries were handed to `OnEvicted`. -/
structure Becomes (c c' : Cache κ ν) (cells : List (κ × Nat × ν)) (calls : List (κ × ν)) : Prop where
  holds : Holds c' cells
  bound : c'.maxEntries = c.maxEntries
  callback : c'.onEvicted = c.onEvicted
  called : c'.evicted = c.evicted ++ if c.onEvicted then calls else []

theorem Becomes.of_holds (holds : Holds c cells) : Becomes c c cells [] := ⟨holds, rfl, rfl, by simp⟩

theorem Becomes.trans (first : Becomes c c' cells calls) (second : Becomes c' c'' cells' calls') :
    Becomes c c'' cells' (calls ++ calls') where
  holds := second.holds
  bound := second.bound.trans first.bound
  callback := second.callback.trans first.callback
  called := by
    rw [second.called, first.called, first.callback]
    cases c.onEvicted with
    | true => simp
    | false => simp

theorem callOnEvicted_becomes (holds : Holds c cells) (kv : κ × ν) : Becomes c (c.callOnEvicted kv) cells [kv] := by
  rw [callOnEvicted]
  split
  · rename_i callback
    exact ⟨⟨holds.parts, holds.stored, holds.distinct⟩, rfl, rfl, by rw [if_pos callback]⟩
  · rename_i callback
    exact ⟨holds, rfl, rfl, by rw [if_neg callback, append_nil]⟩

theorem ensure_becomes (holds : Holds c cells) : Becomes c c.ensure cells [] ∧ Made c.ensure cells := by
  rcases holds.parts with ⟨-, nil, rfl⟩ | made
  · have new : c.ensure = { c with cache := some [], ll := some [] } := by
      rw [ensure, nil]
      rfl
    rw [new]
    exact ⟨⟨holds_made rfl rfl, rfl, rfl, by simp⟩, [], rfl, rfl, Perm.refl _⟩
  · have same : c.ensure = c := by
      obtain ⟨table, -, mapped, -⟩ := made
      rw [ensure, mapped]
      rfl
    rw [same]
    exact ⟨Becomes.of_holds holds, made⟩

structure Represents (c : Cache κ ν) (s : Recency κ ν) (cells : List (κ × Nat × ν)) : Prop where
  holds : Holds c cells
  bound : c.maxEntries = s.bound
  items : s.items = entries cells

/-- The cache `c'` follows `c` and describes `after`; what was in `touched` and is not in `after` was handed to
`OnEvicted`. -/
structure Follows (c c' : Cache κ ν) (touched after : Recency κ ν) : Prop where
  represents : ∃ cells, Represents c' after cells
  callback : c'.onEvicted = c.onEvicted
  leaves : ∃ calls, c'.evicted = c.evicted ++ (if c.onEvicted then calls else []) ∧
    touched.items.Perm (after.items ++ calls)

theorem Becomes.follows {touched after : Recency κ ν} (becomes : Becomes c c' cells calls)
    (bound : c.maxEntries = after.bound) (items : after.items = entries cells)
    (leaves : touched.items.Perm (after.items ++ calls)) : Follows c c' touched after :=
  ⟨⟨cells, becomes.holds, becomes.bound.trans bound, items⟩, becomes.callback, calls, becomes.called, leaves⟩

theorem Becomes.keeps {after : Recency κ ν} (becomes : Becomes c c' cells []) (bound : c.maxEntries = after.bound)
    (items : after.items = entries cells) : Follows c c' after after :=
  becomes.follows bound items (by rw [append_nil])

variable {s : Recency κ ν}

theorem purge_eq {visited : List (κ × Nat)} (callback : c.onEvicted = true)
    (known : ∀ p ∈ visited, ∃ kv, c.elements[p.2]? = some kv) :
    c.purge visited = some { c with evicted := c.evicted ++ visited.filterMap fun p => c.elements[p.2]? } := by
  induction visited generalizing c with
  | nil => simp [purge]
  | cons p rest ih =>
    obtain ⟨kv, stored⟩ := known p mem_cons_self
    have whole : (p :: rest).filterMap (fun p => c.elements[p.2]?) = kv :: rest.filterMap fun p => c.elements[p.2]? :=
      filterMap_cons_some stored
    have next := ih (c := { c with evicted := c.evicted ++ [kv] }) callback
      (fun q member => known q (mem_cons_of_mem p member))
    rw [purge, stored, Option.bind_eq_bind, Option.bind_some, callOnEvicted, if_pos callback, next, whole]
    simp only [append_assoc, singleton_append]

theorem Holds.visited (holds : Holds c cells) :
    (Lru.mapValues Prod.fst cells).filterMap (fun p => c.elements[p.2]?) = entries cells := by
  rw [Lru.mapValues, filterMap_map, entries, Lru.mapValues, ← filterMap_eq_map]
  apply filterMap_congr
  intro x member
  exact holds.stored x member

theorem Holds.table (holds : Holds c cells) : (c.cache.getD []).Perm (Lru.mapValues Prod.fst cells) := by
  rcases holds.parts with ⟨-, nil, rfl⟩ | ⟨table, -, mapped, perm⟩
  · rw [nil]
    exact Perm.refl _
  · rw [mapped]
    exact perm

theorem Holds.order (holds : Holds c cells) : c.ll.getD [] = ids cells := by
  rcases holds.parts with ⟨nil, -, rfl⟩ | ⟨table, listed, -⟩
  · rw [nil]
    rfl
  · rw [listed]
    rfl

section
variable (represents : Represents c s cells)
include represents

theorem clear_follows (visit : Visit κ) :
    ∃ c', c.clear visit = some c' ∧ Follows c c' s (s.restrict [] (nil_sublist _)) := by
  have holds := represents.holds
  have visited := (visit.perm (c.cache.getD [])).trans holds.table
  cases callback : c.onEvicted with
  | true =>
    have calls := visited.filterMap fun p => c.elements[p.2]?
    rw [holds.visited, ← represents.items] at calls
    have purged := @purge_eq _ _ c (visit.order (c.cache.getD [])) callback (by
      intro p member
      obtain ⟨x, there, rfl⟩ := mem_map.mp (visited.mem_iff.mp member)
      exact ⟨_, holds.stored x there⟩)
    rw [Cache.clear, if_pos callback, purged]
    exact ⟨_, rfl, ⟨[], holds_nil rfl rfl, represents.bound, rfl⟩, rfl, _, by rw [if_pos callback], calls.symm⟩
  | false =>
    rw [Cache.clear, if_neg (by simp [callback])]
    exact ⟨_, rfl, ⟨[], holds_nil rfl rfl, represents.bound, rfl⟩, rfl, s.items, by simp [callback], Perm.refl _⟩

theorem len_eq : c.len = some s.items.length := by
  have count : s.items.length = cells.length := by rw [represents.items, entries, Lru.mapValues, length_map]
  rw [Cache.len, count]
  rcases represents.holds.parts with ⟨-, nil, rfl⟩ | ⟨table, listed, mapped, -⟩
  · rw [nil]
    rfl
  · rw [mapped, listed]
    exact congrArg some (length_map _)

/-- The list holds the entries in their order, and the map leads from every key to its element and has no other. -/
theorem Represents.parts :
    ((c.ll.getD []).map fun e => c.elements[e]?) = s.items.map some ∧
      (Lru.keys (c.cache.getD [])).Perm (Lru.keys s.items) ∧
      ∀ p ∈ c.cache.getD [], p.2 ∈ c.ll.getD [] ∧ ∃ v, c.elements[p.2]? = some (p.1, v) := by
  have holds := represents.holds
  refine ⟨?_, ?_, ?_⟩
  · rw [holds.order, ids, represents.items, entries, Lru.mapValues, map_map, map_map]
    exact map_congr_left fun x member => holds.stored x member
  · have keys := holds.table.map Prod.fst
    rw [represents.items, entries]
    simp only [Lru.keys, Lru.mapValues, map_map] at keys ⊢
    exact keys
  · intro p member
    obtain ⟨x, there, rfl⟩ := mem_map.mp (holds.table.mem_iff.mp member)
    refine ⟨?_, x.2.2, holds.stored x there⟩
    rw [holds.order]
    exact mem_map_of_mem (f := fun x : κ × Nat × ν => x.2.1) there

end

/-- The cells that stay within the bound of the cache. -/
def kept (maxEntries : Int) (cells : List (κ × Nat × ν)) : List (κ × Nat × ν) :=
  if 0 < maxEntries then cells.take maxEntries.toNat else cells

variable [DecidableEq κ]

theorem removeElement_becomes (holds : Holds c cells) {key : κ} {e : Nat} {v : ν} (member : (key, e, v) ∈ cells) :
    ∃ c', c.removeElement e = some ((key, v), c') ∧ Becomes c c' (Lru.remove cells key) [(key, v)] := by
  obtain ⟨table, listed, mapped, perm⟩ := holds.made (ne_nil_of_mem member)
  have taken : Holds { c with ll := some (ids (Lru.remove cells key)), cache := some (Lru.remove table key) }
      (Lru.remove cells key) := by
    refine ⟨.inr ⟨_, rfl, rfl, ?_⟩, ?_, nodup_remove holds.distinct key⟩
    · rw [← remove_mapValues]
      exact perm.filter _
    · exact fun x left => holds.stored x (mem_remove.mp left).1
  have next := callOnEvicted_becomes taken (key, v)
  refine ⟨_, ?_, next.holds, next.bound, next.callback, next.called⟩
  rw [removeElement, listed, holds.stored _ member, mapped, ← holds.erase_ids member]
  rfl

theorem removeOldestLocked_becomes {x : κ × Nat × ν} (holds : Holds c (cells ++ [x])) :
    ∃ c', c.removeOldestLocked = some (some (x.1, x.2.2), c') ∧ Becomes c c' cells [(x.1, x.2.2)] := by
  have member : x ∈ cells ++ [x] := mem_append_right _ mem_cons_self
  have fresh : x.1 ∉ Lru.keys cells := by
    have distinct := holds.distinct
    rw [Lru.keys, map_append, nodup_append] at distinct
    exact fun old => distinct.2.2 x.1 old x.1 mem_cons_self rfl
  obtain ⟨c', removed, becomes⟩ := removeElement_becomes holds member
  obtain ⟨table, listed, mapped, -⟩ := holds.made (ne_nil_of_mem member)
  have last : (ids (cells ++ [x])).getLast? = some x.2.1 := by
    rw [ids, map_append]
    exact getLast?_concat
  rw [remove_concat fresh] at becomes
  refine ⟨c', ?_, becomes⟩
  rw [removeOldestLocked, mapped, listed]
  simp only [Option.isNone_some, Bool.false_eq_true, if_false, Option.bind_eq_bind, Option.bind_some, last, removed]
  rfl

theorem removeOldestLocked_empty (holds : Holds c []) : c.removeOldestLocked = some (none, c) := by
  rw [removeOldestLocked]
  rcases holds.parts with ⟨-, nil, -⟩ | ⟨table, listed, mapped, -⟩
  · rw [nil]
    rfl
  · rw [mapped, listed]
    rfl

theorem evictFrom_becomes {fuel : Nat} (holds : Holds c cells) (used : cells ≠ []) (enough : cells.length ≤ fuel) :
    ∃ c' calls, evictFrom fuel c = some c' ∧ Becomes c c' (kept c.maxEntries cells) calls ∧
      (entries cells).Perm (entries (kept c.maxEntries cells) ++ calls) := by
  induction fuel generalizing c cells with
  | zero => exact absurd (eq_nil_of_length_eq_zero (Nat.le_zero.mp enough)) used
  | succ fuel ih =>
    obtain ⟨table, listed, -⟩ := holds.made used
    have count : (ids cells).length = cells.length := length_map _
    rw [evictFrom, listed, Option.bind_eq_bind, Option.bind_some, count]
    by_cases positive : 0 < c.maxEntries
    · rw [if_pos positive, kept, if_pos positive]
      by_cases large : c.maxEntries < cells.length
      · obtain ⟨init, x, rfl⟩ := (eq_nil_or_concat' cells).resolve_left used
        rw [if_pos large]
        rw [length_append, length_singleton] at large enough
        obtain ⟨c₁, removed, first⟩ := removeOldestLocked_becomes holds
        have left : init ≠ [] := ne_nil_of_length_pos (by omega)
        obtain ⟨c', calls, rest, second, perm⟩ := ih first.holds left (by omega)
        rw [first.bound, kept, if_pos positive] at second perm
        rw [take_append_of_le_length (by omega)]
        have split : entries (init ++ [x]) = entries init ++ [(x.1, x.2.2)] := mapValues_append _ _ _
        refine ⟨c', [(x.1, x.2.2)] ++ calls, ?_, first.trans second, ?_⟩
        · rw [removed]
          exact rest
        · rw [split]
          refine (perm.append_right _).trans ?_
          rw [append_assoc]
          exact perm_append_comm.append_left _
      · rw [if_neg large, take_of_length_le (by omega)]
        exact ⟨c, [], rfl, Becomes.of_holds holds, by rw [append_nil]⟩
    · rw [if_neg positive, kept, if_neg positive]
      exact ⟨c, [], rfl, Becomes.of_holds holds, by rw [append_nil]⟩

theorem moveToFront_becomes (holds : Holds c cells) {key : κ} {e : Nat} {v : ν}
    (found : Lru.find cells key = some (e, v)) (v' : ν) :
    ∃ c', c.moveToFront e = some c' ∧ c'.elements[e]? = some (key, v) ∧
      Becomes c { c' with elements := c'.elements.set e (key, v') } ((key, e, v') :: Lru.remove cells key) [] := by
  have member := mem_of_find found
  obtain ⟨table, listed, mapped, perm⟩ := holds.made (ne_nil_of_mem member)
  have linked : e ∈ ids cells := mem_map_of_mem (f := fun x : κ × Nat × ν => x.2.1) member
  have front := (perm_remove holds.distinct found).symm.map fun p : κ × Nat × ν => (p.1, p.2.1)
  have distinct := nodup_cons.mpr ⟨not_mem_keys_remove cells key, nodup_remove holds.distinct key⟩
  refine ⟨{ c with ll := some (e :: ids (Lru.remove cells key)) }, ?_, holds.stored _ member,
    ⟨.inr ⟨table, rfl, mapped, perm.trans front⟩, holds.stored_set found v', distinct⟩, rfl, rfl, by simp⟩
  rw [moveToFront, listed, Option.bind_eq_bind, Option.bind_some, if_pos linked, holds.erase_ids member]
  rfl

theorem pushFront_becomes (holds : Holds c cells) (made : Made c cells) {key : κ}
    (absent : Lru.find cells key = none) (v : ν) :
    ∃ c', c.pushFront key v = some c' ∧ Becomes c c' ((key, c.elements.length, v) :: Lru.remove cells key) [] := by
  obtain ⟨table, listed, mapped, perm⟩ := made
  have fresh := find_eq_none.mp absent
  rw [remove_absent fresh]
  have gone := perm.filter fun p => p.1 ≠ key
  rw [← Lru.remove, ← Lru.remove, remove_mapValues, remove_absent fresh] at gone
  refine ⟨{ c with
    elements := c.elements ++ [(key, v)]
    ll := some (c.elements.length :: ids cells)
    cache := some ((key, c.elements.length) :: Lru.remove table key) }, ?_,
    ⟨.inr ⟨_, rfl, rfl, gone.cons _⟩, holds.stored_push key v, nodup_cons.mpr ⟨fresh, holds.distinct⟩⟩,
    rfl, rfl, by simp⟩
  rw [pushFront, listed, mapped]
  rfl

theorem evictLocked_follows {t : Recency κ ν} (becomes : Becomes c c' cells []) (used : cells ≠ [])
    (bound : c.maxEntries = t.bound) (items : t.items = entries cells) :
    ∃ c'', c'.evictLocked = some c'' ∧ Follows c c'' t t.trim := by
  obtain ⟨table, listed, -⟩ := becomes.holds.made used
  have count : cells.length ≤ (c'.ll.getD []).length := by simp [listed, ids]
  obtain ⟨c'', calls, evicted, second, leaves⟩ := evictFrom_becomes becomes.holds used count
  have trimmed : t.trim.bound = t.bound ∧ t.trim.items = entries (kept c'.maxEntries cells) := by
    rw [becomes.bound, bound, Recency.trim, kept]
    split
    · refine ⟨rfl, ?_⟩
      change t.items.take t.bound.toNat = _
      rw [items]
      exact (map_take ..).symm
    · exact ⟨rfl, items⟩
  refine ⟨c'', evicted, (becomes.trans second).follows (bound.trans trimmed.1.symm) trimmed.2 ?_⟩
  rw [trimmed.2, items, nil_append]
  exact leaves

section
variable (represents : Represents c s cells)
include represents

theorem find_items (key : κ) : Lru.find s.items key = (Lru.find cells key).map Prod.snd := by
  rw [represents.items]
  exact find_mapValues _ _ _

theorem remove_items (key : κ) : Lru.remove s.items key = entries (Lru.remove cells key) := by
  rw [represents.items]
  exact remove_mapValues _ _ _

theorem touch_items (key : κ) (e : Nat) (v : ν) :
    (s.touch key v).items = entries ((key, e, v) :: Lru.remove cells key) :=
  congrArg ((key, v) :: ·) (remove_items represents key)

theorem push_follows (start : Becomes c c' cells []) (made : Made c' cells) {key : κ}
    (absent : Lru.find cells key = none) (v : ν) :
    ∃ c₁ c₂, c'.pushFront key v = some c₁ ∧ c₁.evictLocked = some c₂ ∧
      Follows c c₂ (s.touch key v) (s.touch key v).trim := by
  obtain ⟨c₁, pushed, becomes⟩ := pushFront_becomes start.holds made absent v
  obtain ⟨c₂, evicted, follows⟩ := evictLocked_follows (t := s.touch key v) (start.trans becomes)
    (cons_ne_nil _ _) represents.bound (touch_items represents key _ v)
  exact ⟨c₁, c₂, pushed, evicted, follows⟩

theorem add_follows (key : κ) (value : ν) :
    ∃ c', c.add key value = some c' ∧ Follows c c' (s.touch key value) (s.touch key value).trim := by
  obtain ⟨start, made⟩ := ensure_becomes represents.holds
  have known := start.holds.lookup_eq key
  cases found : Lru.find cells key with
  | some p =>
    obtain ⟨e, v⟩ := p
    obtain ⟨c₁, moved, stored, becomes⟩ := moveToFront_becomes start.holds found value
    obtain ⟨c', evicted, follows⟩ := evictLocked_follows (t := s.touch key value) (start.trans becomes)
      (cons_ne_nil _ _) represents.bound (touch_items represents key e value)
    rw [found] at known
    refine ⟨c', ?_, follows⟩
    simp only [Cache.add, known, Option.map_some, moved, stored, Option.bind_eq_bind, Option.bind_some, evicted]
  | none =>
    obtain ⟨c₁, c', pushed, evicted, follows⟩ := push_follows represents start made found value
    rw [found] at known
    refine ⟨c', ?_, follows⟩
    simp only [Cache.add, known, Option.map_none, pushed, Option.bind_eq_bind, Option.bind_some, evicted]

theorem hit_follows (becomes : Becomes c c' cells []) {key : κ} {e : Nat} {v : ν}
    (found : Lru.find cells key = some (e, v)) :
    ∃ c'', c'.moveToFront e = some c'' ∧ c''.elements[e]? = some (key, v) ∧
      Follows c c'' (s.touch key v) (s.touch key v) := by
  obtain ⟨c'', moved, stored, next⟩ := moveToFront_becomes becomes.holds found v
  have same : c''.elements.set e (key, v) = c''.elements := by
    obtain ⟨inside, here⟩ := List.getElem?_eq_some_iff.mp stored
    rw [← here, set_getElem_self]
  rw [same] at next
  exact ⟨c'', moved, stored, (becomes.trans next).keeps represents.bound (touch_items represents key e v)⟩

theorem get_follows (key : κ) :
    ∃ c', c.get key = some (Lru.find s.items key, c') ∧ Follows c c' (s.touched (.get key)) (s.touched (.get key)) := by
  have known := represents.holds.lookup_eq key
  have value := find_items represents key
  have start := Becomes.of_holds represents.holds
  cases found : Lru.find cells key with
  | some p =>
    obtain ⟨e, v⟩ := p
    obtain ⟨c', moved, stored, follows⟩ := hit_follows represents start found
    rw [found] at known value
    simp only [Cache.get, Recency.touched, known, value, Option.map_some, moved, stored, Option.bind_eq_bind,
      Option.bind_some]
    exact ⟨c', rfl, follows⟩
  | none =>
    rw [found] at known value
    simp only [Cache.get, Recency.touched, known, value, Option.map_none]
    exact ⟨c, rfl, start.keeps represents.bound represents.items⟩

theorem getOrNew_follows (key : κ) (newFunc : ν × Bool) :
    ∃ c' r, c.getOrNew key newFunc = some (r, c') ∧ (s.exec (.getOrNew key newFunc)).1 = .made r.1 r.2 ∧
      Follows c c' (s.touched (.getOrNew key newFunc)) (s.exec (.getOrNew key newFunc)).2 := by
  obtain ⟨start, made⟩ := ensure_becomes represents.holds
  have known := start.holds.lookup_eq key
  have value := find_items represents key
  cases found : Lru.find cells key with
  | some p =>
    obtain ⟨e, v⟩ := p
    obtain ⟨c', moved, stored, follows⟩ := hit_follows represents start found
    rw [found] at known value
    simp only [Cache.getOrNew, Recency.exec, Recency.touched, known, value, Option.map_some, moved, stored,
      Option.bind_eq_bind, Option.bind_some]
    exact ⟨c', (v, true), rfl, rfl, follows⟩
  | none =>
    rw [found] at known value
    simp only [Cache.getOrNew, Recency.exec, Recency.touched, known, value, Option.map_none]
    cases verdict : newFunc.2 with
    | true =>
      obtain ⟨c₁, c', pushed, evicted, follows⟩ := push_follows represents start made found newFunc.1
      refine ⟨c', (newFunc.1, true), ?_, rfl, follows⟩
      simp only [if_true, pushed, evicted, Option.bind_eq_bind, Option.bind_some]
      rfl
    | false => exact ⟨c.ensure, (newFunc.1, false), rfl, rfl, start.keeps represents.bound represents.items⟩

theorem remove_follows (key : κ) :
    ∃ c', c.remove key = some (Lru.find s.items key, c') ∧ Follows c c' s (s.exec (.remove key)).2 := by
  have known := represents.holds.lookup_eq key
  have value := find_items represents key
  have left := remove_items represents key
  cases found : Lru.find cells key with
  | some p =>
    obtain ⟨e, v⟩ := p
    obtain ⟨c', removed, becomes⟩ := removeElement_becomes represents.holds (mem_of_find found)
    rw [found] at known value
    refine ⟨c', ?_, becomes.follows represents.bound left ?_⟩
    · simp only [Cache.remove, known, value, Option.map_some, removed, Option.bind_eq_bind, Option.bind_some]
      rfl
    · exact (perm_remove s.distinct value).symm.trans (perm_append_singleton _ _).symm
  | none =>
    rw [found] at known value
    rw [remove_absent (find_eq_none.mp found)] at left
    refine ⟨c, ?_, (Becomes.of_holds represents.holds).follows represents.bound left ?_⟩
    · simp only [Cache.remove, known, value, Option.map_none]
    · change s.items.Perm (Lru.remove s.items key ++ [])
      rw [left, represents.items, append_nil]

theorem removeOldest_follows :
    ∃ c', c.removeOldestLocked = some (s.items.getLast?, c') ∧ Follows c c' s (s.exec .removeOldest).2 := by
  rcases eq_nil_or_concat' cells with rfl | ⟨init, x, rfl⟩
  · have none : s.items = [] := represents.items
    have left : (s.exec .removeOldest).2.items = [] := congrArg dropLast none
    refine ⟨c, ?_, (Becomes.of_holds represents.holds).follows represents.bound left ?_⟩
    · rw [removeOldestLocked_empty represents.holds, none]
      rfl
    · rw [left, none]
      exact Perm.refl _
  · obtain ⟨c', removed, becomes⟩ := removeOldestLocked_becomes represents.holds
    have split : s.items = entries init ++ [(x.1, x.2.2)] := represents.items.trans (mapValues_append _ _ _)
    have left : (s.exec .removeOldest).2.items = entries init :=
      (congrArg dropLast split).trans dropLast_concat
    refine ⟨c', ?_, becomes.follows represents.bound left ?_⟩
    · rw [removed, split, getLast?_concat]
    · rw [left, split]

end

theorem exec_follows (represents : Represents c s cells) (op : Op κ ν) :
    ∃ c', c.exec op = some ((s.exec op).1, c') ∧ Follows c c' (s.touched op) (s.exec op).2 := by
  cases op with
  | add key value =>
    obtain ⟨c', run, follows⟩ := add_follows represents key value
    exact ⟨c', by rw [exec, run]; rfl, follows⟩
  | get key =>
    obtain ⟨c', run, follows⟩ := get_follows represents key
    exact ⟨c', by rw [exec, run]; rfl, follows⟩
  | getOrNew key newFunc =>
    obtain ⟨c', r, run, result, follows⟩ := getOrNew_follows represents key newFunc
    exact ⟨c', by rw [exec, run, result]; rfl, follows⟩
  | remove key =>
    obtain ⟨c', run, follows⟩ := remove_follows represents key
    exact ⟨c', by rw [exec, run]; rfl, follows⟩
  | removeOldest =>
    obtain ⟨c', run, follows⟩ := removeOldest_follows represents
    exact ⟨c', by rw [exec, run]; rfl, follows⟩
  | clear visit =>
    obtain ⟨c', run, follows⟩ := clear_follows represents visit
    exact ⟨c', by rw [exec, run]; rfl, follows⟩
  | len =>
    have same := (Becomes.of_holds represents.holds).keeps represents.bound represents.items
    exact ⟨c, by rw [exec, len_eq represents]; rfl, same⟩
  | setMaxEntries maxEntries =>
    have holds : Holds { c with maxEntries := maxEntries } cells :=
      ⟨represents.holds.parts, represents.holds.stored, represents.holds.distinct⟩
    refine ⟨_, rfl, ⟨cells, holds, rfl, represents.items⟩, rfl, [], by simp, ?_⟩
    rw [append_nil]
    exact Perm.refl _

theorem run_represents (represents : ∃ cells, Represents c s cells) (ops : List (Op κ ν)) :
    ∃ c', c.run ops = some ((s.run ops).1, c') ∧ (∃ cells, Represents c' (s.run ops).2 cells) ∧
      c'.onEvicted = c.onEvicted := by
  induction ops generalizing c s with
  | nil => exact ⟨c, rfl, represents, rfl⟩
  | cons op rest ih =>
    obtain ⟨cells, represents⟩ := represents
    obtain ⟨c₁, step, follows⟩ := exec_follows represents op
    obtain ⟨c', run, last, callback⟩ := ih follows.represents
    refine ⟨c', ?_, last, callback.trans follows.callback⟩
    rw [Cache.run, step, Option.bind_eq_bind, Option.bind_some]
    simp only [run]
    rfl

/-- The cache is a list of entries with distinct keys in order of use. After any history from the zero value or from
`New` the results are those of the list, map and list hold its keys, and the next operation hands exactly the entries
that leave to `OnEvicted`: what it used or inserted, and the rest, is what stays and what was handed over. -/
theorem cache_refines_recency (made onEvicted : Bool) (maxEntries : Int) (ops : List (Op κ ν)) :
    ∃ c, (if made then Cache.new maxEntries onEvicted else Cache.zero maxEntries onEvicted).run ops =
        some (((Recency.empty maxEntries).run ops).1, c) ∧
      ((c.ll.getD []).map fun e => c.elements[e]?) = ((Recency.empty maxEntries).run ops).2.items.map some ∧
      (Lru.keys (c.cache.getD [])).Perm (Lru.keys ((Recency.empty maxEntries).run ops).2.items) ∧
      (∀ p ∈ c.cache.getD [], p.2 ∈ c.ll.getD [] ∧ ∃ v, c.elements[p.2]? = some (p.1, v)) ∧
      ∀ op, ∃ c' calls, c.exec op = some ((((Recency.empty maxEntries).run ops).2.exec op).1, c') ∧
        c'.evicted = c.evicted ++ (if onEvicted then calls else []) ∧
        (((Recency.empty maxEntries).run ops).2.touched op).items.Perm
          ((((Recency.empty maxEntries).run ops).2.exec op).2.items ++ calls) := by
  have start : (∃ cells, Represents (if made then Cache.new maxEntries onEvicted else Cache.zero maxEntries onEvicted)
      (Recency.empty maxEntries : Recency κ ν) cells) ∧
      (if made then Cache.new maxEntries onEvicted else Cache.zero maxEntries onEvicted : Cache κ ν).onEvicted =
        onEvicted := by
    cases made with
    | true => exact ⟨⟨[], holds_made rfl rfl, rfl, rfl⟩, rfl⟩
    | false => exact ⟨⟨[], holds_nil rfl rfl, rfl, rfl⟩, rfl⟩
  obtain ⟨c, run, ⟨cells, represents⟩, callback⟩ := run_represents start.1 ops
  obtain ⟨listed, mapped, linked⟩ := represents.parts
  refine ⟨c, run, listed, mapped, linked, ?_⟩
  intro op
  obtain ⟨c', step, follows⟩ := exec_follows represents op
  obtain ⟨calls, called, leaves⟩ := follows.leaves
  rw [callback.trans start.2] at called
  exact ⟨c', calls, step, called, leaves⟩

end

end Xet.LruCache
