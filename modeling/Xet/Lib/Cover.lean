import Mathlib.Data.List.Sort
import Xet.Lib.Wire

/-! Covering a range of numbers by intervals: a scan over intervals in the order of their starts that
takes whatever extends the part covered so far. Some intervals turn out to be unusable when they are
tried. -/
namespace Cover
open Wire List

/-- A sort about which nothing else is known; equal elements come in any order. -/
structure Sorter {α : Type} (r : α → α → Prop) where
  sort : List α → List α
  perm : ∀ xs, (sort xs).Perm xs
  sorted : ∀ xs, (sort xs).Pairwise r

theorem Sorter.mem_iff {α : Type} {r : α → α → Prop} (s : Sorter r) {xs : List α} {x : α} : x ∈ s.sort xs ↔ x ∈ xs :=
  (s.perm xs).mem_iff

def Sorter.insertion {α : Type} (key : α → Nat) : Sorter fun x y => key x ≤ key y where
  sort := List.insertionSort fun x y => key x ≤ key y
  perm := List.perm_insertionSort _
  sorted :=
    have : Std.Total fun x y : α => key x ≤ key y := ⟨fun x y => Nat.le_total (key x) (key y)⟩
    have : IsTrans α fun x y => key x ≤ key y := ⟨fun _ _ _ => Nat.le_trans⟩
    List.pairwise_insertionSort _

/-- Pieces that lead from one number to another without a gap. -/
inductive Chain {β : Type} (R : β → Nat → Nat → Prop) : Nat → Nat → List β → Prop
  | nil (a : Nat) : Chain R a a []
  | cons {p : β} {a b c : Nat} {ps : List β} (order : a < b) (first : R p a b) (rest : Chain R b c ps) :
      Chain R a c (p :: ps)

variable {α β ε : Type} (start stop : α → Nat) (attempt : α → Nat → Nat → Except ε (Option β)) (hi : Nat)

/-- The pieces that were found, and how far they reach unless an interval turned out to be broken. -/
def scan : List α → Nat → List β × Except ε Nat
  | [], covered => ([], .ok covered)
  | x :: rest, covered =>
    if hi ≤ covered then ([], .ok covered)
    else if covered < start x then ([], .ok covered)
    else if stop x ≤ covered then scan rest covered
    else
      match attempt x covered (min (stop x) hi) with
      | .error e => ([], .error e)
      | .ok none => scan rest covered
      | .ok (some piece) => (piece :: (scan rest (min (stop x) hi)).1, (scan rest (min (stop x) hi)).2)

variable {start stop attempt hi} {usable : α → Prop} {R : β → Nat → Nat → Prop}

structure Tries (start stop : α → Nat) (attempt : α → Nat → Nat → Except ε (Option β)) (usable : α → Prop)
    (R : β → Nat → Nat → Prop) (x : α) : Prop where
  works : usable x → ∀ a b, start x ≤ a → a < b → b ≤ stop x → ∃ piece, attempt x a b = .ok (some piece) ∧ R piece a b
  fails : ¬ usable x → ∀ a b, start x ≤ a → a < b → b ≤ stop x → attempt x a b = .ok none

def Covered (start stop : α → Nat) (usable : α → Prop) (xs : List α) (k : Nat) : Prop :=
  ∃ x ∈ xs, usable x ∧ start x ≤ k ∧ k < stop x

theorem Covered.tail {x : α} {xs : List α} {k : Nat} (covered : Covered start stop usable (x :: xs) k)
    (other : usable x → start x ≤ k → stop x ≤ k) : Covered start stop usable xs k := by
  obtain ⟨y, member, ok, first, last⟩ := covered
  rcases mem_cons.mp member with rfl | member
  · exact absurd (other ok first) (Nat.not_le_of_lt last)
  · exact ⟨y, member, ok, first, last⟩

theorem Covered.cons {xs : List α} {k : Nat} (covered : Covered start stop usable xs k) (x : α) :
    Covered start stop usable (x :: xs) k := by
  obtain ⟨y, member, rest⟩ := covered
  exact ⟨y, mem_cons_of_mem x member, rest⟩

/-- The scan finds a chain of pieces, and reaches the end if and only if the usable intervals cover
everything up to it. -/
theorem scan_spec (hi : Nat) (xs : List α) (sorted : xs.Pairwise fun x y => start x ≤ start y)
    (tries : ∀ x ∈ xs, Tries start stop attempt usable R x) (lo : Nat) :
    ∃ pieces last, scan start stop attempt hi xs lo = (pieces, .ok last) ∧ Chain R lo last pieces ∧
      (last ≤ lo ∨ last ≤ hi) ∧ (hi ≤ last ↔ ∀ k, lo ≤ k → k < hi → Covered start stop usable xs k) := by
  induction xs generalizing lo with
  | nil =>
    refine ⟨[], lo, rfl, .nil lo, .inl le_rfl, ?_⟩
    constructor
    · intro reached k low high
      omega
    · intro covered
      by_contra short
      obtain ⟨x, member, -⟩ := covered lo le_rfl (by omega)
      cases member
  | cons x rest ih =>
    have others : ∀ y ∈ rest, start x ≤ start y := (pairwise_cons.mp sorted).1
    have ih := ih (pairwise_cons.mp sorted).2 fun y member => tries y (mem_cons_of_mem x member)
    have here := tries x mem_cons_self
    rw [scan]
    by_cases reached : hi ≤ lo
    · rw [if_pos reached]
      exact ⟨[], lo, rfl, .nil lo, .inl le_rfl, fun _ k low high => by omega, fun _ => reached⟩
    rw [if_neg reached]
    by_cases gap : lo < start x
    · rw [if_pos gap]
      refine ⟨[], lo, rfl, .nil lo, .inl le_rfl, fun done => absurd done reached, fun covered => ?_⟩
      obtain ⟨y, member, -, first, -⟩ := covered lo le_rfl (by omega)
      rcases mem_cons.mp member with rfl | member
      · omega
      · have := others y member
        omega
    rw [if_neg gap]
    by_cases passed : stop x ≤ lo
    · rw [if_pos passed]
      obtain ⟨pieces, last, run, chain, bound, exactly⟩ := ih lo
      refine ⟨pieces, last, run, chain, bound, exactly.trans (forall₃_congr fun k low high => ?_)⟩
      exact ⟨fun covered => covered.cons x, fun covered => covered.tail fun _ _ => by omega⟩
    rw [if_neg passed]
    by_cases ok : usable x
    · obtain ⟨piece, value, holds⟩ := here.works ok lo (min (stop x) hi) (by omega) (by omega) (by omega)
      obtain ⟨pieces, last, run, chain, bound, exactly⟩ := ih (min (stop x) hi)
      refine ⟨piece :: pieces, last, by simp only [value, run], .cons (by omega) holds chain, by omega, ?_⟩
      rw [exactly]
      constructor
      · intro covered k low high
        by_cases inside : k < min (stop x) hi
        · exact ⟨x, mem_cons_self, ok, by omega, by omega⟩
        · exact (covered k (by omega) high).cons x
      · intro covered k low high
        exact (covered k (by omega) high).tail fun _ _ => by omega
    · obtain ⟨pieces, last, run, chain, bound, exactly⟩ := ih lo
      rw [here.fails ok lo (min (stop x) hi) (by omega) (by omega) (by omega)]
      refine ⟨pieces, last, run, chain, bound, exactly.trans (forall₃_congr fun k low high => ?_)⟩
      exact ⟨fun covered => covered.cons x, fun covered => covered.tail fun fits => absurd fits ok⟩

/-- Intervals that touch or overlap, and where they end. -/
structure Run (α : Type) where
  first : α
  others : List α
  last : Nat
  deriving DecidableEq

def Run.members (g : Run α) : List α := g.first :: g.others

/-- Extend a run by the intervals that start before its end or at it, and then start another one. -/
def runsFrom (start stop : α → Nat) (g : Run α) : List α → List (Run α)
  | [] => [g]
  | x :: rest =>
    if start x ≤ g.last then runsFrom start stop ⟨g.first, g.others ++ [x], max g.last (stop x)⟩ rest
    else g :: runsFrom start stop ⟨x, [], stop x⟩ rest

def runs (start stop : α → Nat) : List α → List (Run α)
  | [] => []
  | x :: rest => runsFrom start stop ⟨x, [], stop x⟩ rest

structure Joined (start stop : α → Nat) (g : Run α) : Prop where
  inside : ∀ x ∈ g.members, start g.first ≤ start x ∧ stop x ≤ g.last
  covers : ∀ k, start g.first ≤ k → k < g.last → ∃ x ∈ g.members, start x ≤ k ∧ k < stop x

theorem Joined.single (x : α) : Joined start stop ⟨x, [], stop x⟩ where
  inside y member := by
    rcases mem_singleton.mp member with rfl
    exact ⟨le_rfl, le_rfl⟩
  covers k low high := ⟨x, mem_singleton_self x, low, high⟩

theorem Joined.extend {g : Run α} (joined : Joined start stop g) {x : α} (later : start g.first ≤ start x)
    (touches : start x ≤ g.last) : Joined start stop ⟨g.first, g.others ++ [x], max g.last (stop x)⟩ where
  inside y member := by
    rcases mem_append.mp (show y ∈ g.members ++ [x] from member) with member | member
    · have := joined.inside y member
      exact ⟨this.1, this.2.trans (le_max_left _ _)⟩
    · rcases mem_singleton.mp member with rfl
      exact ⟨later, le_max_right _ _⟩
  covers k low high := by
    by_cases before : k < g.last
    · obtain ⟨y, member, inside⟩ := joined.covers k low before
      exact ⟨y, mem_append_left [x] member, inside⟩
    · dsimp only at high
      exact ⟨x, mem_append_right g.members (mem_singleton_self x), by omega, by omega⟩

end Cover
