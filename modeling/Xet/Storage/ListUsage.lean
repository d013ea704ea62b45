import Mathlib.Algebra.BigOperators.Intervals
import Mathlib.Data.Finset.Prod
import Xet.Storage.ListFiles

/-! The two passes of a listing over its terms. Both meet every chunk of an entry once, however the
terms of the entry overlap, because the chunk then carries the mark of the entry. -/
namespace Xet.Storage
open Wire List Finset UInt64 Sizes

abbrev ChunkAt := XorbHash × Nat

def ChunkTerm.chunks (t : ChunkTerm) : Finset ChunkAt := {t.hash} ×ˢ Finset.Ico t.start t.stop

def chunksOf (terms : List ChunkTerm) : Finset ChunkAt := terms.toFinset.biUnion ChunkTerm.chunks

theorem ChunkTerm.mem_chunks {t : ChunkTerm} {p : ChunkAt} :
    p ∈ t.chunks ↔ p.1 = t.hash ∧ t.start ≤ p.2 ∧ p.2 < t.stop := by
  simp only [ChunkTerm.chunks, Finset.mem_product, Finset.mem_singleton, Finset.mem_Ico]

theorem mem_chunksOf {terms : List ChunkTerm} {p : ChunkAt} : p ∈ chunksOf terms ↔ ∃ t ∈ terms, p ∈ t.chunks := by
  simp [chunksOf]

theorem chunksOf_cons (t : ChunkTerm) (terms : List ChunkTerm) : chunksOf (t :: terms) = t.chunks ∪ chunksOf terms := by
  ext p
  simp [mem_chunksOf]

namespace XorbUsage

variable {u : XorbUsage} {e : Int32}

@[simp] theorem lastAt_grow (n k : Nat) : (u.grow n).lastAt k = u.lastAt k := by
  simp only [lastAt, grow, getD_eq_getElem?_getD]
  by_cases inside : k < u.last.length
  · rw [getElem?_append_left inside]
  · rw [getElem?_append_right (by omega), getElem?_eq_none (Nat.not_lt.mp inside), getElem?_replicate]
    split <;> rfl

@[simp] theorem distinctAt_grow (n k : Nat) : (u.grow n).distinctAt k = u.distinctAt k := by
  simp only [distinctAt, grow, getD_eq_getElem?_getD]
  by_cases inside : k < u.distinct.length
  · rw [getElem?_append_left inside]
  · rw [getElem?_append_right (by omega), getElem?_eq_none (Nat.not_lt.mp inside), getElem?_replicate]
    split <;> rfl

theorem grow_length (n : Nat) : (u.grow n).last.length = max u.last.length n := by
  simp only [grow, length_append, length_replicate]
  omega

theorem lastAt_setLast {k : Nat} (inside : k < u.last.length) (i : Nat) :
    (u.setLast k e).lastAt i = if i = k then e else u.lastAt i := by
  simp only [lastAt, setLast, getD_eq_getElem?_getD, getElem?_set]
  by_cases here : i = k
  · simp [here, inside]
  · simp [here, Ne.symm here]

theorem distinctAt_setDistinct {k : Nat} (inside : k < u.last.length) (n : UInt32) (i : Nat) :
    (u.setDistinct k n).distinctAt i = if i = k then n else u.distinctAt i := by
  have inside : k < u.distinct.length := u.same ▸ inside
  simp only [distinctAt, setDistinct, getD_eq_getElem?_getD, getElem?_set]
  by_cases here : i = k
  · simp [here, inside]
  · simp [here, Ne.symm here]

@[simp] theorem distinctAt_setLast (k i : Nat) : (u.setLast k e).distinctAt i = u.distinctAt i := rfl

@[simp] theorem lastAt_setDistinct (k i : Nat) (n : UInt32) : (u.setDistinct k n).lastAt i = u.lastAt i := rfl

@[simp] theorem setLast_length (k : Nat) : (u.setLast k e).last.length = u.last.length := by simp [setLast]

@[simp] theorem setDistinct_length (k : Nat) (n : UInt32) : (u.setDistinct k n).last.length = u.last.length := rfl

@[simp] theorem reset_length : u.reset.last.length = u.last.length := by simp [reset]

@[simp] theorem lastAt_reset (k : Nat) : u.reset.lastAt k = -1 := by
  simp only [lastAt, reset, getD_eq_getElem?_getD, getElem?_map]
  cases u.last[k]? with
  | none => rfl
  | some e => rfl

/-- One pass over chunks marks them all, and counts those without the mark. -/
structure Counted (e : Int32) (k n : Nat) (u u' : XorbUsage) : Prop where
  last : ∀ i, u'.lastAt i = if k ≤ i ∧ i < k + n then e else u.lastAt i
  distinct : ∀ i, u'.distinctAt i =
    if (k ≤ i ∧ i < k + n) ∧ u.lastAt i ≠ e then u.distinctAt i + 1 else u.distinctAt i
  length : u'.last.length = u.last.length

theorem count_counted (n k : Nat) (room : k + n ≤ u.last.length) : Counted e k n u (count e n k u) := by
  induction n generalizing k u with
  | zero =>
    constructor
    · intro i
      rw [if_neg (by omega)]
      rfl
    · intro i
      rw [if_neg (by omega)]
      rfl
    · rfl
  | succ n ih =>
    rw [count]
    by_cases fresh : u.lastAt k = e
    · rw [if_neg (not_not.mpr fresh)]
      have rest := ih (u := u) (k + 1) (by omega)
      constructor
      · intro i
        rw [rest.last]
        by_cases here : i = k
        · subst here
          simp [fresh]
        · simp only [show (k + 1 ≤ i ∧ i < k + 1 + n) ↔ (k ≤ i ∧ i < k + (n + 1)) by omega]
      · intro i
        rw [rest.distinct]
        by_cases here : i = k
        · subst here
          simp [fresh]
        · simp only [show (k + 1 ≤ i ∧ i < k + 1 + n) ↔ (k ≤ i ∧ i < k + (n + 1)) by omega]
      · exact rest.length
    · rw [if_pos fresh]
      have rest := ih (u := (u.setLast k e).setDistinct k (u.distinctAt k + 1)) (k + 1) (by simp; omega)
      constructor
      · intro i
        rw [rest.last, lastAt_setDistinct, lastAt_setLast (by omega)]
        by_cases here : i = k
        · subst here
          simp
        · simp only [show (k + 1 ≤ i ∧ i < k + 1 + n) ↔ (k ≤ i ∧ i < k + (n + 1)) by omega, if_neg here]
      · intro i
        rw [rest.distinct, distinctAt_setDistinct (by simp; omega), lastAt_setDistinct, lastAt_setLast (by omega),
          distinctAt_setLast]
        by_cases here : i = k
        · subst here
          simp [fresh]
        · simp only [show (k + 1 ≤ i ∧ i < k + 1 + n) ↔ (k ≤ i ∧ i < k + (n + 1)) by omega, if_neg here]
      · rw [rest.length, setDistinct_length, setLast_length]

/-- A run of chunks without the mark that are all shared or all unique, and that get the mark. -/
structure Marked (e : Int32) (sharedRun : Bool) (k bound : Nat) (u : XorbUsage) (run : Nat × XorbUsage) : Prop where
  low : k ≤ run.1
  high : run.1 ≤ bound
  alike : ∀ i, k ≤ i → i < run.1 → u.lastAt i ≠ e ∧ decide (1 < u.distinctAt i) = sharedRun
  last : ∀ i, run.2.lastAt i = if k ≤ i ∧ i < run.1 then e else u.lastAt i
  distinct : ∀ i, run.2.distinctAt i = u.distinctAt i
  length : run.2.last.length = u.last.length

theorem Marked.stay (sharedRun : Bool) {k bound : Nat} (within : k ≤ bound) : Marked e sharedRun k bound u (k, u) where
  low := le_rfl
  high := within
  alike _ low high := absurd high (Nat.not_lt.mpr low)
  last i := by rw [if_neg (by dsimp only; omega)]
  distinct _ := rfl
  length := rfl

theorem markRun_marked (sharedRun : Bool) (n k : Nat) (room : k + n ≤ u.last.length) :
    Marked e sharedRun k (k + n) u (markRun e sharedRun n k u) := by
  induction n generalizing k u with
  | zero => exact .stay _ le_rfl
  | succ n ih =>
    rw [markRun]
    split
    · rename_i fresh
      have rest := ih (u := u.setLast k e) (k + 1) (by simp; omega)
      have low := rest.low
      have high := rest.high
      refine ⟨by omega, by omega, ?_, ?_, rest.distinct, by rw [rest.length, setLast_length]⟩
      · intro i least within
        by_cases here : i = k
        · exact here ▸ fresh
        · have next := rest.alike i (by omega) within
          rwa [lastAt_setLast (by omega), if_neg here] at next
      · intro i
        rw [rest.last, lastAt_setLast (by omega)]
        by_cases here : i = k
        · subst here
          rw [if_neg (by omega), if_pos rfl, if_pos (by omega)]
        · rw [if_neg here]
          exact if_congr (by omega) rfl rfl
    · exact .stay _ (by omega)

theorem lt_markRun (n k : Nat) (room : k + (n + 1) ≤ u.last.length) (fresh : u.lastAt k ≠ e) :
    k < (markRun e (decide (1 < u.distinctAt k)) (n + 1) k u).1 := by
  rw [markRun, if_pos ⟨fresh, rfl⟩]
  exact (markRun_marked _ n (k + 1) (by simp; omega)).low

end XorbUsage

def startOf (offs : List Nat) (k : Nat) : Nat := if 0 < k then offs.getD (k - 1) 0 else 0

def packedAt (offs : List Nat) (k : Nat) : Int := (offs.getD k 0 : Int) - startOf offs k

theorem sum_packedAt (offs : List Nat) {k r : Nat} (order : k ≤ r) :
    ∑ i ∈ Finset.Ico k r, packedAt offs i = (startOf offs r : Int) - startOf offs k := by
  have next : ∀ i, packedAt offs i = (startOf offs (i + 1) : Int) - startOf offs i := fun i => by
    simp [packedAt, startOf]
  rw [sum_congr rfl fun i _ => next i]
  exact sum_Ico_sub (fun i => (startOf offs i : Int)) order

theorem chunkDataRange_sum {offs : List Nat} {k r : Nat} (order : k < r) (room : r ≤ offs.length) :
    ∃ start last, Xorb.chunkDataRangeFromOffsets offs k r = .ok (start, last) ∧
      last - start + 1 = ∑ i ∈ Finset.Ico k r, packedAt offs i := by
  refine ⟨startOf offs k, (offs.getD (r - 1) 0 : Int) - 1, ?_, ?_⟩
  · simp only [Xorb.chunkDataRangeFromOffsets, require_true order, require_true room, ok_bind]
    rfl
  · have last : startOf offs r = offs.getD (r - 1) 0 := if_pos (by omega)
    rw [sum_packedAt offs order.le, last]
    ring

section
variable {ε : Type} (offs : List Nat) (e : Int32)

/-- The chunks from `k` up to `stop` that a pass charges as shared, or as unique. -/
def charged (u : XorbUsage) (shared : Bool) (k stop : Nat) : Finset Nat :=
  (Finset.Ico k stop).filter fun i => u.lastAt i ≠ e ∧ decide (1 < u.distinctAt i) = shared

def charge (u : XorbUsage) (shared : Bool) (k stop : Nat) : Int := ∑ i ∈ charged e u shared k stop, packedAt offs i

variable {offs e} {u : XorbUsage}

theorem mem_charged {shared : Bool} {k stop i : Nat} : i ∈ charged e u shared k stop ↔
    (k ≤ i ∧ i < stop) ∧ u.lastAt i ≠ e ∧ decide (1 < u.distinctAt i) = shared := by
  rw [charged, Finset.mem_filter, Finset.mem_Ico]

theorem charge_empty (shared : Bool) {k stop : Nat} (done : stop ≤ k) : charge offs e u shared k stop = 0 := by
  rw [charge, charged, Finset.Ico_eq_empty (by omega)]
  rfl

theorem charge_skip (shared : Bool) {k : Nat} (stop : Nat) (marked : u.lastAt k = e) :
    charge offs e u shared k stop = charge offs e u shared (k + 1) stop := by
  have same : charged e u shared k stop = charged e u shared (k + 1) stop := by
    ext i
    rw [mem_charged, mem_charged]
    by_cases here : i = k
    · subst here
      simp [marked]
    · rw [show (k ≤ i ∧ i < stop) ↔ (k + 1 ≤ i ∧ i < stop) by omega]
  rw [charge, charge, same]

theorem charge_run {sharedRun : Bool} {k stop : Nat} {run : Nat × XorbUsage}
    (marked : XorbUsage.Marked e sharedRun k stop u run) (shared : Bool) :
    charge offs e u shared k stop =
      (if shared = sharedRun then ∑ i ∈ Finset.Ico k run.1, packedAt offs i else 0) +
        charge offs e run.2 shared run.1 stop := by
  have low := marked.low
  have high := marked.high
  have split : charged e u shared k stop =
      (if shared = sharedRun then Finset.Ico k run.1 else ∅) ∪ charged e run.2 shared run.1 stop := by
    ext i
    rw [mem_union, mem_charged, mem_charged, marked.last, marked.distinct]
    by_cases inside : k ≤ i ∧ i < run.1
    · have alike := marked.alike i inside.1 inside.2
      rw [if_pos inside, alike.2]
      by_cases same : shared = sharedRun
      · have bound : i < stop := by omega
        simp [same, inside, alike.1, bound]
      · simp [same, Ne.symm same]
    · rw [if_neg inside]
      have none : i ∉ if shared = sharedRun then Finset.Ico k run.1 else ∅ := by
        split
        · rwa [Finset.mem_Ico]
        · exact notMem_empty i
      simp only [none, false_or]
      rw [show (k ≤ i ∧ i < stop) ↔ (run.1 ≤ i ∧ i < stop) by omega]
  have apart : Disjoint (if shared = sharedRun then Finset.Ico k run.1 else ∅) (charged e run.2 shared run.1 stop) := by
    rw [Finset.disjoint_left]
    intro i inside later
    have least := (mem_charged.mp later).1.1
    split at inside
    · have := Finset.mem_Ico.mp inside
      omega
    · exact absurd inside (notMem_empty i)
  rw [charge, split, sum_union apart, charge]
  split <;> rfl

def Sizes.plus (s : Sizes) (unique shared : Int) : Sizes := ⟨s.unique + UInt64.ofInt unique, s.shared + UInt64.ofInt shared⟩

@[simp] theorem Sizes.plus_zero (s : Sizes) : s.plus 0 0 = s := by
  have zero : ofInt 0 = 0 := rfl
  simp [Sizes.plus, zero]

theorem Sizes.plus_plus (s : Sizes) (a b c d : Int) : (s.plus a b).plus c d = s.plus (a + c) (b + d) := by
  simp [Sizes.plus, UInt64.ofInt_add, UInt64.add_assoc]

theorem Sizes.add_eq (s : Sizes) (sharedRun : Bool) (n : Int) : s.add sharedRun (ofInt n) =
    s.plus (if false = sharedRun then n else 0) (if true = sharedRun then n else 0) := by
  have zero : ofInt 0 = 0 := rfl
  cases sharedRun <;> simp [add, Sizes.plus, zero]

structure Passed (e : Int32) (k stop : Nat) (u u' : XorbUsage) : Prop where
  last : ∀ i, u'.lastAt i = if k ≤ i ∧ i < stop then e else u.lastAt i
  distinct : ∀ i, u'.distinctAt i = u.distinctAt i
  length : u'.last.length = u.last.length

theorem sizeChunks_ok (hash : XorbHash) {stop : Nat} (covered : stop ≤ offs.length) (fuel k : Nat) (s : Sizes)
    (enough : stop - k ≤ fuel) (room : stop ≤ u.last.length) :
    ∃ u', sizeChunks (ε := ε) hash offs e stop fuel k u s =
        .ok (u', s.plus (charge offs e u false k stop) (charge offs e u true k stop)) ∧ Passed e k stop u u' := by
  have finished : ∀ {k u}, stop ≤ k → Passed e k stop u u := fun done =>
    ⟨fun i => by rw [if_neg (by omega)], fun _ => rfl, rfl⟩
  induction fuel generalizing k u s with
  | zero =>
    have done : stop ≤ k := by omega
    exact ⟨u, by rw [sizeChunks, charge_empty _ done, charge_empty _ done, plus_zero], finished done⟩
  | succ fuel ih =>
    rw [sizeChunks]
    split_ifs with done marked
    · exact ⟨u, by rw [charge_empty _ done, charge_empty _ done, plus_zero], finished done⟩
    · obtain ⟨u', eq, passed⟩ := ih (k + 1) s (by omega) room
      refine ⟨u', by rw [eq, charge_skip _ _ marked, charge_skip _ _ marked], ?_, passed.distinct, passed.length⟩
      intro i
      rw [passed.last]
      by_cases here : i = k
      · subst here
        rw [if_neg (by omega), if_pos (by omega), marked]
      · exact if_congr (by omega) rfl rfl
    · have fuelRun : stop - k = stop - k - 1 + 1 := by omega
      have run := XorbUsage.markRun_marked (e := e) (u := u) (decide (1 < u.distinctAt k)) (stop - k) k (by omega)
      have advances : k < (u.markRun e (decide (1 < u.distinctAt k)) (stop - k) k).1 := by
        rw [fuelRun]
        exact XorbUsage.lt_markRun _ _ (by omega) marked
      rw [show k + (stop - k) = stop by omega] at run
      dsimp only
      generalize u.markRun e (decide (1 < u.distinctAt k)) (stop - k) k = r at run advances ⊢
      have high := run.high
      obtain ⟨start, last, range, bytes⟩ := chunkDataRange_sum advances (high.trans covered)
      have runLength := run.length
      obtain ⟨u', eq, passed⟩ := ih (u := r.2) r.1 (s.add (decide (1 < u.distinctAt k)) (ofInt (last - start + 1)))
        (by omega) (by omega)
      refine ⟨u', ?_, ?_, fun i => (passed.distinct i).trans (run.distinct i), passed.length.trans run.length⟩
      · rw [range]
        dsimp only
        rw [eq, bytes, add_eq, Sizes.plus_plus, ← charge_run run, ← charge_run run]
      · intro i
        rw [passed.last, run.last]
        by_cases inside : k ≤ i ∧ i < r.1
        · rw [if_neg (by omega), if_pos inside, if_pos (by omega)]
        · rw [if_neg inside]
          exact if_congr (by omega) rfl rfl

end

end Xet.Storage
