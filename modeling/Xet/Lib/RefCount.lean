import Mathlib.Data.Int.Notation

/-! The books of an object with a count of its holds. Users hold it, and so may one keeper; threads that set it up
or take it down have it in their hands. -/
namespace RefCount

structure Row where
  refs : Int
  holders : Nat
  /-- The hold of the keeper: the one on its list, and one on the way there or from there. -/
  kept : Nat
  moving : Nat
  /-- The threads that set the object up or take it down, and how often it was made and was given up. -/
  busy : Nat
  opens : Nat
  closes : Nat

def Row.add (r : Row) (holders moving busy : Nat) : Row :=
  { r with holders := r.holders + holders, moving := r.moving + moving, busy := r.busy + busy }

/-- The count is that of the holds, the keeper has one at most, and an object that was made is alive, in the hands
of one thread, or given up. -/
structure Row.Balanced (r : Row) : Prop where
  count : r.refs = r.holders + (r.kept + r.moving)
  single : r.kept + r.moving ≤ 1
  alive : r.refs ≠ 0 → r.opens = 1 ∧ r.busy = 0 ∧ r.closes = 0
  dead : r.refs = 0 → r.busy + r.closes = r.opens
  once : r.opens ≤ 1

inductive Move : Row → Row → Prop
  | stay (r : Row) : Move r r
  | make {n : Int} {a k c b o x : Nat} (fresh : o = 0) : Move ⟨n, a, k, c, b, o, x⟩ ⟨n, a, k, c, b + 1, o + 1, x⟩
  | take {n : Int} {a k c b o x : Nat} (alive : n ≠ 0) : Move ⟨n, a, k, c, b, o, x⟩ ⟨n + 1, a + 1, k, c, b, o, x⟩
  /-- The holds of a user and of the keeper are the first ones. -/
  | set {n : Int} {a k c b o x : Nat} : Move ⟨n, a, k, c, b + 1, o, x⟩ ⟨2, a + 1, k, c + 1, b, o, x⟩
  | list {n : Int} {a k c b o x : Nat} : Move ⟨n, a, k, c + 1, b, o, x⟩ ⟨n, a, k + 1, c, b, o, x⟩
  | unlist {n : Int} {a k c b o x : Nat} : Move ⟨n, a, k + 1, c, b, o, x⟩ ⟨n, a, k, c + 1, b, o, x⟩
  | drop {n : Int} {a k c b o x : Nat} (more : n - 1 ≠ 0) : Move ⟨n, a + 1, k, c, b, o, x⟩ ⟨n - 1, a, k, c, b, o, x⟩
  | dropLast {n : Int} {a k c b o x : Nat} (last : n - 1 = 0) :
      Move ⟨n, a + 1, k, c, b, o, x⟩ ⟨n - 1, a, k, c, b + 1, o, x⟩
  | keeperDrop {n : Int} {a k c b o x : Nat} (more : n - 1 ≠ 0) :
      Move ⟨n, a, k, c + 1, b, o, x⟩ ⟨n - 1, a, k, c, b, o, x⟩
  | keeperDropLast {n : Int} {a k c b o x : Nat} (last : n - 1 = 0) :
      Move ⟨n, a, k, c + 1, b, o, x⟩ ⟨n - 1, a, k, c, b + 1, o, x⟩
  | close {n : Int} {a k c b o x : Nat} : Move ⟨n, a, k, c, b + 1, o, x⟩ ⟨n, a, k, c, b, o, x + 1⟩

theorem Move.balanced {r r' : Row} (move : Move r r') {a c b : Nat} (before : (r.add a c b).Balanced) :
    (r'.add a c b).Balanced := by
  obtain ⟨count, single, alive, dead, once⟩ := before
  cases move <;> simp only [Row.add] at count single alive dead once <;> constructor <;> simp only [Row.add] <;> omega

variable {r : Row}

theorem Row.Balanced.held (balanced : r.Balanced) (held : r.holders + r.kept + r.moving ≠ 0) :
    r.refs ≠ 0 ∧ r.busy = 0 ∧ r.closes = 0 := by
  obtain ⟨count, single, alive, dead, once⟩ := balanced
  omega

theorem Row.Balanced.in_hand (balanced : r.Balanced) (busy : r.busy ≠ 0) :
    r.busy = 1 ∧ r.refs = 0 ∧ r.opens = 1 ∧ r.closes = 0 := by
  obtain ⟨count, single, alive, dead, once⟩ := balanced
  omega

theorem Row.Balanced.closed_iff (balanced : r.Balanced) (made : r.opens = 1) :
    r.closes = 1 ↔ r.refs = 0 ∧ r.busy = 0 ∧ r.holders = 0 ∧ r.kept = 0 ∧ r.moving = 0 := by
  obtain ⟨count, single, alive, dead, once⟩ := balanced
  omega

end RefCount
