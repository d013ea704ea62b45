import Mathlib.Algebra.Ring.Int.Defs
import Mathlib.Data.List.Nodup

/-! A list of keys with values, in the order in which they were last used. -/
namespace Lru
open List

section
variable {κ ν : Type}

def keys (c : List (κ × ν)) : List κ := c.map Prod.fst

def total (f : ν → Int) (c : List (κ × ν)) : Int := (c.map fun p => f p.2).sum

theorem total_append {f : ν → Int} (c d : List (κ × ν)) : total f (c ++ d) = total f c + total f d := by
  simp [total]

variable {μ : Type} (g : ν → μ)

def mapValues (c : List (κ × ν)) : List (κ × μ) := c.map fun p => (p.1, g p.2)

theorem mapValues_append (c d : List (κ × ν)) : mapValues g (c ++ d) = mapValues g c ++ mapValues g d := map_append

end

variable {κ ν : Type} [DecidableEq κ]

def find (c : List (κ × ν)) (k : κ) : Option ν := (c.find? fun p => p.1 = k).map Prod.snd

def remove (c : List (κ × ν)) (k : κ) : List (κ × ν) := c.filter fun p => p.1 ≠ k

def put (c : List (κ × ν)) (k : κ) (v : ν) : List (κ × ν) := remove c k ++ [(k, v)]

theorem find_remove (c : List (κ × ν)) (k q : κ) : find (remove c k) q = if q = k then none else find c q := by
  induction c with
  | nil => simp [find, remove]
  | cons p rest ih =>
    by_cases same : p.1 = k
    · by_cases key : q = k
      · rw [if_pos key] at ih ⊢
        rw [remove, filter_cons_of_neg (by simp [same])]
        exact ih
      · rw [if_neg key] at ih ⊢
        rw [remove, filter_cons_of_neg (by simp [same])]
        refine ih.trans ?_
        rw [find, find, find?_cons_of_neg (by simp [same, Ne.symm key])]
    · rw [remove, filter_cons_of_pos (by simp [same]), find]
      by_cases here : p.1 = q
      · rw [find?_cons_of_pos (by simp [here]), if_neg (here ▸ same), find,
          find?_cons_of_pos (by simp [here])]
      · rw [find?_cons_of_neg (by simp [here])]
        refine ih.trans ?_
        rw [find, find, find?_cons_of_neg (by simp [here])]

theorem find_put (c : List (κ × ν)) (k : κ) (v : ν) (q : κ) : find (put c k v) q = if q = k then some v else find c q := by
  have before := find_remove c k q
  by_cases key : q = k
  · rw [if_pos key] at before ⊢
    rw [find, Option.map_eq_none_iff] at before
    rw [put, find, find?_append, before, key]
    simp
  · rw [if_neg key] at before ⊢
    rw [← before, put, find, find?_append, find, find?_singleton, if_neg (by simpa using Ne.symm key), Option.or_none]

variable {c : List (κ × ν)} {f : ν → Int}

variable {k : κ}

theorem find_eq_none : find c k = none ↔ k ∉ keys c := by
  rw [find, Option.map_eq_none_iff, find?_eq_none]
  constructor
  · intro none member
    obtain ⟨p, here, same⟩ := mem_map.mp member
    exact none p here (by simpa using same)
  · intro absent p here same
    exact absent (mem_map.mpr ⟨p, here, by simpa using same⟩)

variable {v : ν}

theorem mem_of_find (found : find c k = some v) : (k, v) ∈ c := by
  obtain ⟨p, here, rfl⟩ := Option.map_eq_some_iff.mp found
  have same : p.1 = k := by simpa using find?_some here
  rw [← same]
  exact mem_of_find?_eq_some here

theorem find_eq_some (distinct : (keys c).Nodup) : find c k = some v ↔ (k, v) ∈ c := by
  refine ⟨mem_of_find, fun member => ?_⟩
  cases found : find c k with
  | none => exact absurd (mem_map_of_mem member) (find_eq_none.mp found)
  | some w =>
    have same := inj_on_of_nodup_map distinct member (mem_of_find found) rfl
    rw [(Prod.mk.inj same).2]

theorem find_perm {d : List (κ × ν)} (distinct : (keys c).Nodup) (perm : c.Perm d) (k : κ) : find c k = find d k := by
  have distinct' : (keys d).Nodup := (perm.map Prod.fst).nodup_iff.mp distinct
  ext v
  rw [find_eq_some distinct, find_eq_some distinct', perm.mem_iff]

theorem remove_absent (absent : k ∉ keys c) : remove c k = c := by
  rw [remove, filter_eq_self]
  intro p member
  have other : p.1 ≠ k := fun same => absent (same ▸ mem_map_of_mem member)
  simpa using other

theorem nodup_remove (distinct : (keys c).Nodup) (k : κ) : (keys (remove c k)).Nodup :=
  distinct.sublist (List.filter_sublist.map Prod.fst)

theorem not_mem_keys_remove (c : List (κ × ν)) (k : κ) : k ∉ keys (remove c k) := by
  simp [keys, remove]

theorem nodup_put (distinct : (keys c).Nodup) (k : κ) (v : ν) : (keys (put c k v)).Nodup := by
  rw [put, keys, map_append, nodup_append]
  refine ⟨nodup_remove distinct k, by simp, ?_⟩
  rintro q member _ last rfl
  cases mem_singleton.mp last
  exact not_mem_keys_remove c k member

variable {p : κ × ν}

theorem remove_head (fresh : p.1 ∉ keys c) : remove (p :: c) p.1 = c := by
  rw [remove, filter_cons_of_neg (by simp)]
  exact remove_absent fresh

theorem remove_concat (fresh : p.1 ∉ keys c) : remove (c ++ [p]) p.1 = c := by
  rw [remove, filter_append, filter_cons_of_neg (by simp), filter_nil, append_nil]
  exact remove_absent fresh

theorem perm_remove (distinct : (keys c).Nodup) (found : find c k = some v) : ((k, v) :: remove c k).Perm c := by
  induction c with
  | nil => cases found
  | cons p c ih =>
    obtain ⟨fresh, distinct⟩ := nodup_cons.mp distinct
    by_cases same : p.1 = k
    · subst same
      have here : p.2 = v := by simpa [find] using found
      rw [remove_head fresh, ← here]
    · have later : find c k = some v := by
        rw [find, find?_cons_of_neg (by simp [same])] at found
        exact found
      rw [remove, filter_cons_of_pos (by simp [same])]
      exact (List.Perm.swap p (k, v) _).trans ((ih distinct later).cons p)

theorem total_remove (distinct : (keys c).Nodup) (k : κ) : total f (remove c k) = total f c - (find c k).elim 0 f := by
  induction c with
  | nil => simp [total, remove, find]
  | cons p c ih =>
    obtain ⟨fresh, distinct⟩ := nodup_cons.mp distinct
    by_cases same : p.1 = k
    · have gone : remove (p :: c) k = c := same ▸ remove_head fresh
      have here : find (p :: c) k = some p.2 := by simp [find, same]
      rw [gone, here]
      simp only [total, map_cons, sum_cons, Option.elim]
      omega
    · have stays : remove (p :: c) k = p :: remove c k := by
        rw [remove, filter_cons_of_pos (by simp [same])]
        rfl
      have later : find (p :: c) k = find c k := by
        rw [find, find?_cons_of_neg (by simp [same])]
        rfl
      have rest := ih distinct
      rw [stays, later]
      simp only [total, map_cons, sum_cons] at rest ⊢
      omega

theorem total_put (distinct : (keys c).Nodup) (k : κ) (v : ν) :
    total f (put c k v) = total f c - (find c k).elim 0 f + f v := by
  rw [put, total_append, total_remove distinct]
  simp [total]

theorem mem_remove : p ∈ remove c k ↔ p ∈ c ∧ p.1 ≠ k := by
  simp [remove]

theorem mem_put : p ∈ put c k v ↔ (p ∈ c ∧ p.1 ≠ k) ∨ p = (k, v) := by
  rw [put, mem_append, mem_remove, mem_singleton]

theorem mem_keys_put {q : κ} : q ∈ keys (put c k v) ↔ q = k ∨ q ∈ keys c := by
  constructor
  · intro member
    obtain ⟨p, there, rfl⟩ := mem_map.mp member
    rcases mem_put.mp there with ⟨old, -⟩ | rfl
    · exact .inr (mem_map_of_mem old)
    · exact .inl rfl
  · intro member
    by_cases same : q = k
    · exact mem_map.mpr ⟨(k, v), mem_put.mpr (.inr rfl), same.symm⟩
    · obtain ⟨p, there, rfl⟩ := mem_map.mp (member.resolve_left same)
      exact mem_map_of_mem (mem_put.mpr (.inl ⟨there, same⟩))

theorem foldl_put {d : List (κ × ν)} (distinct : (keys (c ++ d)).Nodup) :
    d.foldl (fun c p => put c p.1 p.2) c = c ++ d := by
  induction d generalizing c with
  | nil => simp
  | cons p d ih =>
    have fresh : p.1 ∉ keys c := by
      simp only [keys, map_append, map_cons, nodup_append] at distinct
      exact fun member => distinct.2.2 p.1 member p.1 mem_cons_self rfl
    have moved : put c p.1 p.2 = c ++ [p] := by rw [put, remove_absent fresh]
    rw [foldl_cons, moved, ih (by simpa using distinct)]
    simp

variable {μ : Type} (g : ν → μ)

theorem find_mapValues (c : List (κ × ν)) (k : κ) : find (mapValues g c) k = (find c k).map g := by
  rw [find, find, mapValues, find?_map, Option.map_map, Option.map_map]
  rfl

theorem remove_mapValues (c : List (κ × ν)) (k : κ) : remove (mapValues g c) k = mapValues g (remove c k) := by
  rw [remove, remove, mapValues, mapValues, filter_map]
  rfl

theorem put_mapValues (c : List (κ × ν)) (k : κ) (v : ν) : put (mapValues g c) k (g v) = mapValues g (put c k v) := by
  rw [put, put, remove_mapValues, mapValues, mapValues, map_append]
  rfl

end Lru
