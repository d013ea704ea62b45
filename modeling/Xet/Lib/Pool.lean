import Mathlib.Data.List.Nodup
import Mathlib.Logic.Function.Basic

/-! A pool of buffers that several users share. A user names the buffers it has by slots. Every buffer
is in one place: in the pool, with another user, or in one slot. -/

structure Pool (Slot : Type) where
  /-- The buffer in a slot. -/
  holds : Slot → Option Nat
  /-- What stands in a buffer. -/
  mem : Nat → List UInt8
  spare : List Nat
  /-- The buffers of the other users. -/
  others : List Nat
  /-- Buffers from this number on do not exist yet. -/
  next : Nat
  apart : (spare ++ others).Nodup
  below : ∀ x ∈ spare ++ others, x < next
  held : ∀ a x, holds a = some x → x < next ∧ x ∉ spare ++ others
  single : ∀ a b x, holds a = some x → holds b = some x → a = b

namespace Pool
open List Function
variable {Slot : Type} [DecidableEq Slot] (p : Pool Slot)

def take (a : Slot) (x : Nat) (inside : x ∈ p.spare) : Pool Slot where
  holds := update p.holds a (some x)
  mem := p.mem
  spare := p.spare.erase x
  others := p.others
  next := p.next
  apart := p.apart.sublist ((erase_sublist ..).append_right _)
  below y member := p.below y (((erase_sublist ..).append_right _).subset member)
  held b y there := by
    have nodup := nodup_append.mp p.apart
    by_cases here : b = a
    · subst here
      rw [update_self] at there
      cases there
      refine ⟨p.below x (mem_append_left _ inside), fun member => ?_⟩
      rcases mem_append.mp member with member | member
      · exact (Nodup.mem_erase_iff nodup.1).mp member |>.1 rfl
      · exact nodup.2.2 x inside x member rfl
    · rw [update_of_ne here] at there
      obtain ⟨low, outside⟩ := p.held b y there
      exact ⟨low, fun member => outside (((erase_sublist ..).append_right _).subset member)⟩
  single b c y left right := by
    have taken : ∀ d z, p.holds d = some z → z ≠ x := fun d z there same =>
      (p.held d z there).2 (mem_append_left _ (same ▸ inside))
    by_cases first : b = a <;> by_cases second : c = a
    · rw [first, second]
    · subst first
      rw [update_self] at left
      rw [update_of_ne second] at right
      cases left
      exact absurd rfl (taken c x right)
    · subst second
      rw [update_self] at right
      rw [update_of_ne first] at left
      cases right
      exact absurd rfl (taken b x left)
    · rw [update_of_ne first] at left
      rw [update_of_ne second] at right
      exact p.single b c y left right

def grow : Pool Slot where
  holds := p.holds
  mem := p.mem
  spare := p.next :: p.spare
  others := p.others
  next := p.next + 1
  apart := nodup_cons.mpr ⟨fun member => Nat.lt_irrefl _ (p.below _ member), p.apart⟩
  below x member := by
    rcases mem_cons.mp member with rfl | member
    · exact Nat.lt_succ_self _
    · exact Nat.lt_succ_of_lt (p.below x member)
  held a x there := by
    obtain ⟨low, outside⟩ := p.held a x there
    refine ⟨Nat.lt_succ_of_lt low, fun member => ?_⟩
    rcases mem_cons.mp member with rfl | member
    · exact Nat.lt_irrefl _ low
    · exact outside member
  single := p.single

def put (a : Slot) : Pool Slot :=
  match there : p.holds a with
  | none => p
  | some x =>
    { holds := update p.holds a none
      mem := p.mem
      spare := x :: p.spare
      others := p.others
      next := p.next
      apart := nodup_cons.mpr ⟨(p.held a x there).2, p.apart⟩
      below := fun y member => by
        rcases mem_cons.mp member with rfl | member
        · exact (p.held a y there).1
        · exact p.below y member
      held := fun b y here => by
        by_cases same : b = a
        · subst same
          rw [update_self] at here
          cases here
        · rw [update_of_ne same] at here
          obtain ⟨low, outside⟩ := p.held b y here
          refine ⟨low, fun member => ?_⟩
          rcases mem_cons.mp member with rfl | member
          · exact same (p.single b a y here there)
          · exact outside member
      single := fun b c y left right => by
        by_cases first : b = a
        · subst first
          rw [update_self] at left
          cases left
        by_cases second : c = a
        · subst second
          rw [update_self] at right
          cases right
        rw [update_of_ne first] at left
        rw [update_of_ne second] at right
        exact p.single b c y left right }

def setMem (x : Nat) (bytes : List UInt8) : Pool Slot := { p with mem := update p.mem x bytes }

def write (a : Slot) (bytes : List UInt8) : Pool Slot :=
  match p.holds a with
  | none => p
  | some x => p.setMem x (bytes ++ (p.mem x).drop bytes.length)

def lend (x : Nat) (inside : x ∈ p.spare) : Pool Slot :=
  have same : (p.spare.erase x ++ x :: p.others).Perm (p.spare ++ p.others) :=
    perm_middle.trans ((perm_cons_erase inside).symm.append_right _)
  { holds := p.holds
    mem := p.mem
    spare := p.spare.erase x
    others := x :: p.others
    next := p.next
    apart := same.nodup_iff.mpr p.apart
    below := fun y member => p.below y (same.mem_iff.mp member)
    held := fun a y there => ⟨(p.held a y there).1, fun member => (p.held a y there).2 (same.mem_iff.mp member)⟩
    single := p.single }

def giveBack (x : Nat) (inside : x ∈ p.others) : Pool Slot :=
  have moved : (p.spare ++ x :: p.others.erase x).Perm (x :: p.spare ++ p.others.erase x) := perm_middle
  have same : (x :: p.spare ++ p.others.erase x).Perm (p.spare ++ p.others) :=
    moved.symm.trans ((perm_cons_erase inside).symm.append_left _)
  { holds := p.holds
    mem := p.mem
    spare := x :: p.spare
    others := p.others.erase x
    next := p.next
    apart := same.nodup_iff.mpr p.apart
    below := fun y member => p.below y (same.mem_iff.mp member)
    held := fun a y there => ⟨(p.held a y there).1, fun member => (p.held a y there).2 (same.mem_iff.mp member)⟩
    single := p.single }

inductive Gets (p : Pool Slot) (a : Slot) : Pool Slot → Prop
  | spare (x : Nat) (inside : x ∈ p.spare) : Gets p a (p.take a x inside)
  | new : Gets p a (p.grow.take a p.next mem_cons_self)

/-- What the other users may do: take, make, write and give back buffers. -/
inductive Other (p : Pool Slot) : Pool Slot → Prop
  | lend (x : Nat) (inside : x ∈ p.spare) : Other p (p.lend x inside)
  | grow : Other p p.grow
  | write (x : Nat) (inside : x ∈ p.others) (bytes : List UInt8) : Other p (p.setMem x bytes)
  | giveBack (x : Nat) (inside : x ∈ p.others) : Other p (p.giveBack x inside)

def cell (a : Slot) : Option (Nat × List UInt8) := (p.holds a).map fun x => (x, p.mem x)

variable {p} {p' : Pool Slot} {a b : Slot}

variable {x : Nat}

omit [DecidableEq Slot] in
theorem cell_setMem {bytes : List UInt8} (elsewhere : p.holds a ≠ some x) : (p.setMem x bytes).cell a = p.cell a := by
  unfold cell setMem
  cases here : p.holds a with
  | none => rfl
  | some y =>
    have different : y ≠ x := fun same => elsewhere (same ▸ here)
    simp [update_of_ne different]

theorem Gets.cell_self (gets : Gets p a p') : ∃ x bytes, p'.cell a = some (x, bytes) := by
  cases gets with
  | spare x inside => exact ⟨x, p.mem x, by simp [cell, take]⟩
  | new => exact ⟨p.next, p.mem p.next, by simp [cell, take, grow]⟩

theorem Gets.cell_ne (gets : Gets p a p') (different : b ≠ a) : p'.cell b = p.cell b := by
  cases gets with
  | spare x inside => simp [cell, take, update_of_ne different]
  | new => simp [cell, take, grow, update_of_ne different]

theorem cell_put_self : (p.put a).cell a = none := by
  unfold put
  split
  · rename_i none
    simp [cell, none]
  · simp [cell]

theorem cell_put_ne (different : b ≠ a) : (p.put a).cell b = p.cell b := by
  unfold put
  split
  · rfl
  · simp [cell, update_of_ne different]

omit [DecidableEq Slot] in
theorem cell_write_self {old bytes : List UInt8} (here : p.cell a = some (x, old)) :
    (p.write a bytes).cell a = some (x, bytes ++ old.drop bytes.length) := by
  unfold cell at here
  obtain ⟨y, there, same⟩ := Option.map_eq_some_iff.mp here
  cases same
  simp [write, there, cell, setMem]

omit [DecidableEq Slot] in
theorem cell_write_ne {bytes : List UInt8} (different : b ≠ a) : (p.write a bytes).cell b = p.cell b := by
  unfold write
  split
  · rfl
  · rename_i x there
    exact cell_setMem fun same => different (p.single b a x same there)

omit [DecidableEq Slot] in
theorem Other.cell (other : Other p p') : p'.cell a = p.cell a := by
  cases other with
  | lend x inside => rfl
  | grow => rfl
  | write x inside bytes =>
    exact cell_setMem fun same => (p.held a x same).2 (mem_append_right _ inside)
  | giveBack x inside => rfl

theorem Gets.holds_ne (gets : Gets p a p') (different : b ≠ a) : p'.holds b = p.holds b := by
  cases gets with
  | spare x inside => exact update_of_ne different ..
  | new => exact update_of_ne different ..

theorem holds_of_put (here : (p.put a).holds b = some x) : p.holds b = some x := by
  unfold put at here
  split at here
  · exact here
  · by_cases same : b = a
    · subst same
      simp at here
    · exact (update_of_ne same ..).symm.trans here

theorem put_returned (a : Slot) (here : p.holds b = some x) :
    (p.put a).holds b = some x ∨ b = a ∧ (p.put a).holds b = none ∧ x ∈ (p.put a).spare := by
  unfold put
  split
  · exact .inl here
  · rename_i y there
    by_cases same : b = a
    · subst same
      cases there.symm.trans here
      exact .inr ⟨rfl, update_self .., mem_cons_self⟩
    · exact .inl ((update_of_ne same ..).trans here)

theorem spare_put (inside : x ∈ p.spare) : x ∈ (p.put a).spare := by
  unfold put
  split
  · exact inside
  · exact mem_cons_of_mem _ inside

omit [DecidableEq Slot] in
theorem holds_write {bytes : List UInt8} : (p.write a bytes).holds = p.holds := by
  unfold write
  split <;> rfl

omit [DecidableEq Slot] in
theorem Other.holds (other : Other p p') : p'.holds = p.holds := by
  cases other <;> rfl

end Pool
