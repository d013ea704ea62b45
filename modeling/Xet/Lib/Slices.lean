import Mathlib.Data.List.GetD
import Mathlib.Data.List.TakeDrop

/-! Slices of arrays with the checks that Go makes: an index behind the length or a slice behind the capacity panics,
which is the result `none`. A loop that writes only what belongs at a position never spoils a position that is right
already, in whatever order it writes; so it is done when every position has been written. -/
namespace Slices

structure Slice (size : Nat) where
  off : Nat
  len : Nat
  cap : Nat
  len_le : len ≤ cap
  within : off + cap ≤ size

namespace Slice
variable {α : Type*} {size : Nat}

def tail (s : Slice size) (low : Nat) : Option (Slice size) :=
  if h : low ≤ s.len then
    some ⟨s.off + low, s.len - low, s.cap - low, Nat.sub_le_sub_right s.len_le low, by
      have := s.len_le
      have := s.within
      omega⟩
  else none

def head (s : Slice size) (high : Nat) : Option (Slice size) :=
  if h : high ≤ s.cap then some ⟨s.off, high, s.cap, h, s.within⟩ else none

def get (s : Slice size) (mem : Vector α size) (i : Nat) : Option α :=
  if i < s.len then mem[s.off + i]? else none

def set (s : Slice size) (mem : Vector α size) (i : Nat) (x : α) : Option (Vector α size) :=
  if h : i < s.len then
    some (mem.set (s.off + i) x (by
      have := s.len_le
      have := s.within
      omega))
  else none

def assign {other : Nat} (s : Slice size) (i : Nat) (t : Slice other) (array : Vector α other) (j : Nat)
    (mem : Vector α size) : Option (Vector α size) := do
  let x ← t.get array j
  s.set mem i x

def read (s : Slice size) (mem : Vector α size) : List α := (mem.toList.drop s.off).take s.len

section
variable (s : Slice size)
include s

theorem inside : s.off + s.len ≤ size := by
  have := s.len_le
  have := s.within
  omega

theorem read_length (mem : Vector α size) : (s.read mem).length = s.len := by
  have := s.inside
  rw [read, List.length_take, List.length_drop, Vector.length_toList]
  omega

theorem read_getElem? (mem : Vector α size) {i : Nat} (h : i < s.len) :
    (s.read mem)[i]? = mem[s.off + i]? := by
  rw [read, List.getElem?_take, if_pos h, List.getElem?_drop]
  simp

theorem get_eq (mem : Vector α size) (i : Nat) : s.get mem i = (s.read mem)[i]? := by
  by_cases h : i < s.len
  · rw [get, if_pos h, read_getElem? s mem h]
  · rw [get, if_neg h, List.getElem?_eq_none]
    rw [read_length]
    omega

theorem exists_get (mem : Vector α size) {i : Nat} (h : i < s.len) : ∃ x, s.get mem i = some x := by
  rw [get_eq]
  exact ⟨_, List.getElem?_eq_getElem (by rw [read_length]; exact h)⟩

theorem exists_tail {low : Nat} (h : low ≤ s.len) :
    ∃ t, s.tail low = some t ∧ t.off = s.off + low ∧ t.len = s.len - low ∧ t.cap = s.cap - low :=
  ⟨_, dif_pos h, rfl, rfl, rfl⟩

theorem exists_head {high : Nat} (h : high ≤ s.cap) :
    ∃ t, s.head high = some t ∧ t.off = s.off ∧ t.len = high ∧ t.cap = s.cap :=
  ⟨_, dif_pos h, rfl, rfl, rfl⟩

theorem exists_part {low n : Nat} (h : low + n ≤ s.len) :
    ∃ t u, s.tail low = some t ∧ t.head n = some u ∧ u.off = s.off + low ∧ u.len = n := by
  obtain ⟨t, cut, start, _, room⟩ := s.exists_tail (Nat.le_trans (Nat.le_add_right low n) h)
  have := s.len_le
  obtain ⟨u, short, same, len, _⟩ := t.exists_head (show n ≤ t.cap by omega)
  exact ⟨t, u, cut, short, same.trans start, len⟩

theorem exists_grown {n : Nat} (h : s.len + n ≤ s.cap) :
    ∃ t u, s.head (s.len + n) = some t ∧ t.tail s.len = some u ∧ t.off = s.off ∧ t.len = s.len + n ∧ t.cap = s.cap ∧
      u.off = s.off + s.len ∧ u.len = n := by
  obtain ⟨t, grown, off, len, cap⟩ := s.exists_head h
  obtain ⟨u, cut, start, rest, _⟩ := t.exists_tail (show s.len ≤ t.len by omega)
  exact ⟨t, u, grown, cut, off, len, cap, by omega, by omega⟩

end

end Slice

section
variable {α : Type*} {size : Nat} {target mem mem' mem'' : Vector α size}

def Right (target mem : Vector α size) (q : Nat) : Prop := mem[q]? = target[q]?

def Toward (target mem mem' : Vector α size) : Prop := ∀ q, Right target mem q → Right target mem' q

theorem Toward.refl : Toward target mem mem := fun _ right => right

theorem Toward.trans (first : Toward target mem mem') (second : Toward target mem' mem'') :
    Toward target mem mem'' := fun q right => second q (first q right)

theorem eq_of_right (right : ∀ q, Right target mem q) : mem = target := by
  apply Vector.ext
  intro q inside
  have here := right q
  rw [Right, Vector.getElem?_eq_getElem inside, Vector.getElem?_eq_getElem inside] at here
  exact Option.some.inj here

theorem Slice.exists_set (s : Slice size) (mem : Vector α size) {i : Nat} {x : α} (h : i < s.len)
    (value : target[s.off + i]? = some x) :
    ∃ mem', s.set mem i x = some mem' ∧ Toward target mem mem' ∧ Right target mem' (s.off + i) := by
  have inside : s.off + i < size := by
    have := s.inside
    omega
  have written : Right target (mem.set (s.off + i) x inside) (s.off + i) := by
    rw [Right, value, Vector.getElem?_set_self]
  refine ⟨_, dif_pos h, ?_, written⟩
  intro q right
  by_cases here : s.off + i = q
  · subst here
    exact written
  · rw [Right, Vector.getElem?_set_ne _ here]
    exact right

theorem Slice.exists_assign {other : Nat} {array : Vector α other} (s : Slice size) (t : Slice other) (mem : Vector α size)
    {i j : Nat} (h : i < s.len) (inside : j < t.len) (value : target[s.off + i]? = (t.read array)[j]?) :
    ∃ mem', s.assign i t array j mem = some mem' ∧ Toward target mem mem' ∧ Right target mem' (s.off + i) := by
  obtain ⟨x, loaded⟩ := t.exists_get array inside
  have source := t.get_eq array j
  rw [loaded] at source
  obtain ⟨mem', stored, kept, right⟩ := s.exists_set mem h (value.trans source.symm)
  exact ⟨mem', by rw [Slice.assign, loaded, Option.bind_eq_bind, Option.bind_some, stored], kept, right⟩

def overlay (mem : Vector α size) (start : Nat) (xs : List α) : Vector α size :=
  Vector.ofFn fun q => if start ≤ q.val then xs.getD (q.val - start) mem[q] else mem[q]

variable {xs : List α}

theorem overlay_inside (mem : Vector α size) {start j : Nat} (fits : start + xs.length ≤ size) (h : j < xs.length) :
    (overlay mem start xs)[start + j]? = xs[j]? := by
  have inside : start + j < size := by omega
  rw [Vector.getElem?_eq_getElem inside, overlay, Vector.getElem_ofFn, if_pos (Nat.le_add_right start j)]
  simp [h]

theorem overlay_outside (mem : Vector α size) {start q : Nat} (h : q < start ∨ start + xs.length ≤ q) :
    (overlay mem start xs)[q]? = mem[q]? := by
  by_cases inside : q < size
  · rw [Vector.getElem?_eq_getElem inside, Vector.getElem?_eq_getElem inside, overlay, Vector.getElem_ofFn]
    dsimp only
    by_cases later : start ≤ q
    · rw [if_pos later, List.getD_eq_default _ _ (by omega)]
      rfl
    · rw [if_neg later]
      rfl
  · rw [Vector.getElem?_eq_none (Nat.le_of_not_lt inside), Vector.getElem?_eq_none (Nat.le_of_not_lt inside)]

theorem eq_overlay {start : Nat} (kept : Toward (overlay mem start xs) mem mem')
    (written : ∀ j < xs.length, Right (overlay mem start xs) mem' (start + j)) : mem' = overlay mem start xs := by
  apply eq_of_right
  intro q
  by_cases outside : q < start ∨ start + xs.length ≤ q
  · exact kept q (overlay_outside mem outside).symm
  · have place : start + (q - start) = q := by omega
    have right := written (q - start) (by omega)
    rwa [place] at right

theorem Slice.read_overlay (s t : Slice size) (mem : Vector α size) (off : t.off = s.off)
    (len : t.len = s.len + xs.length) : t.read (overlay mem (s.off + s.len) xs) = s.read mem ++ xs := by
  have inside := t.inside
  apply List.ext_getElem?
  intro i
  by_cases early : i < s.len
  · rw [t.read_getElem? _ (by omega), List.getElem?_append_left (by rw [read_length]; exact early),
      s.read_getElem? _ early, off]
    exact overlay_outside mem (Or.inl (by omega))
  · rw [List.getElem?_append_right (by rw [read_length]; omega), read_length]
    by_cases late : i < t.len
    · rw [t.read_getElem? _ late, off]
      have place : s.off + i = s.off + s.len + (i - s.len) := by omega
      rw [place]
      exact overlay_inside mem (by omega) (by omega)
    · rw [List.getElem?_eq_none (by rw [read_length]; omega), List.getElem?_eq_none (by omega)]

end

end Slices
