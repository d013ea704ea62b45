import Mathlib.Algebra.BigOperators.Group.List.Basic
import Xet.Download.Build

/-! The length that a reconstruction response announces. The terms are summed in 64 bits before the
sum is compared with the largest offset. -/
namespace Xet.Download
open Wire List UInt64 Nat BitVec Int64

def maxInt64 : UInt64 := 0x7FFFFFFFFFFFFFFF

def expectedLength (terms : List Term) (offsetIntoFirstRange : Int64) : Int64 :=
  let total := terms.foldl (fun total term => total + UInt64.ofNat term.unpackedLength) 0
  if offsetIntoFirstRange ≤ 0 then
    if maxInt64 < total then Int64.maxValue else total.toInt64
  else if total ≤ offsetIntoFirstRange.toUInt64 then 0
  else
    let remaining := total - offsetIntoFirstRange.toUInt64
    if maxInt64 < remaining then Int64.maxValue else remaining.toInt64

def expectedLengthV1 (r : ReconstructionResponseV1) : Int64 := expectedLength r.terms (Int64.ofInt r.offsetIntoFirstRange)

def expectedLengthV2 (r : ReconstructionResponseV2) : Int64 := expectedLength r.terms (Int64.ofInt r.offsetIntoFirstRange)

def unpackedSum (terms : List Term) : Nat := (terms.map Term.unpackedLength).sum

theorem foldl_total (terms : List Term) (start : Nat) :
    terms.foldl (fun total term => total + UInt64.ofNat term.unpackedLength) (UInt64.ofNat start) =
      UInt64.ofNat (start + unpackedSum terms) := by
  induction terms generalizing start with
  | nil => rfl
  | cons term rest ih =>
    rw [foldl_cons, ← UInt64.ofNat_add, ih]
    simp only [unpackedSum, map_cons, sum_cons, Nat.add_assoc]

theorem total_toNat (terms : List Term) :
    (terms.foldl (fun total term => total + UInt64.ofNat term.unpackedLength) 0).toNat = unpackedSum terms % 2 ^ 64 := by
  have total := foldl_total terms 0
  rw [zero_add] at total
  exact (congrArg UInt64.toNat total).trans toNat_ofNat'

theorem toInt64_toInt {n : UInt64} (small : ¬ maxInt64 < n) : n.toInt64.toInt = n.toNat := by
  have bound : n.toNat ≤ 2 ^ 63 - 1 := not_lt.mp fun large => small (lt_iff_toNat_lt.mpr large)
  have value : n.toInt64.toInt = n.toBitVec.toInt := rfl
  rw [value, toInt_eq_toNat_of_lt]
  · rfl
  · change 2 * n.toNat < 2 ^ 64
    omega

theorem saturated_toInt (n : UInt64) :
    (if maxInt64 < n then maxValue else n.toInt64).toInt = min (2 ^ 63 - 1) (n.toNat : Int) := by
  split
  · rename_i large
    have bound : 2 ^ 63 - 1 < n.toNat := lt_iff_toNat_lt.mp large
    have value : maxValue.toInt = 2 ^ 63 - 1 := rfl
    rw [value]
    omega
  · rename_i small
    have bound : n.toNat ≤ 2 ^ 63 - 1 := not_lt.mp fun large => small (lt_iff_toNat_lt.mpr large)
    rw [toInt64_toInt small]
    omega

theorem toUInt64_toNat {o : Int64} (positive : 0 < o.toInt) : (o.toUInt64.toNat : Int) = o.toInt := by
  have value : o.toInt = o.toBitVec.toInt := rfl
  rw [value] at positive ⊢
  have word : o.toUInt64.toNat = o.toBitVec.toNat := rfl
  rw [word, toInt_eq_toNat_of_lt (toInt_pos_iff.mp positive.le)]

theorem expectedLength_toInt (terms : List Term) (o : Int64) : (expectedLength terms o).toInt =
    min (2 ^ 63 - 1) (max 0 ((unpackedSum terms % 2 ^ 64 : Nat) - max o.toInt 0)) := by
  have total := total_toNat terms
  rw [expectedLength]
  dsimp only
  generalize terms.foldl (fun total term => total + UInt64.ofNat term.unpackedLength) 0 = n at total ⊢
  rw [← total]
  split
  · rename_i before
    have offset : o.toInt ≤ 0 := Int64.le_iff_toInt_le.mp before
    rw [saturated_toInt]
    omega
  · rename_i after
    have offset : 0 < o.toInt := Int.not_le.mp fun before => after (Int64.le_iff_toInt_le.mpr before)
    have word := toUInt64_toNat offset
    split
    · rename_i short
      have less : n.toNat ≤ o.toUInt64.toNat := UInt64.le_iff_toNat_le.mp short
      have zero : (0 : Int64).toInt = 0 := rfl
      rw [zero]
      omega
    · rename_i long
      have more : o.toUInt64 ≤ n := UInt64.le_iff_toNat_le.mpr
        (Nat.le_of_lt (Nat.not_le.mp fun short => long (UInt64.le_iff_toNat_le.mpr short)))
      rw [saturated_toInt, UInt64.toNat_sub_of_le _ _ more]
      have := UInt64.le_iff_toNat_le.mp more
      omega

def OffsetInRange (offset : Int) : Prop := -2 ^ 63 ≤ offset ∧ offset < 2 ^ 63

theorem expectedLength_eq_iff (terms : List Term) {offset : Int} (range : OffsetInRange offset) :
    (expectedLength terms (Int64.ofInt offset)).toInt =
        min (2 ^ 63 - 1) (max 0 ((unpackedSum terms : Int) - max offset 0)) ↔
      unpackedSum terms < 2 ^ 64 ∨ 2 ^ 63 - 1 + max offset 0 ≤ ((unpackedSum terms % 2 ^ 64 : Nat) : Int) := by
  obtain ⟨low, high⟩ := range
  have same : (Int64.ofInt offset).toInt = offset := Int64.toInt_ofInt_of_le low high
  rw [expectedLength_toInt, same]
  omega

/-- Both versions return the exact sum of the unpacked lengths less the offset, cut to the offsets
there are, if and only if the sum does not wrap around in 64 bits or what is left of it is still
larger than every offset. -/
theorem expected_length_exact_iff (r₁ : ReconstructionResponseV1) (r₂ : ReconstructionResponseV2) :
    (OffsetInRange r₁.offsetIntoFirstRange →
      ((expectedLengthV1 r₁).toInt =
          min (2 ^ 63 - 1) (max 0 ((unpackedSum r₁.terms : Int) - max r₁.offsetIntoFirstRange 0)) ↔
        unpackedSum r₁.terms < 2 ^ 64 ∨
          2 ^ 63 - 1 + max r₁.offsetIntoFirstRange 0 ≤ ((unpackedSum r₁.terms % 2 ^ 64 : Nat) : Int))) ∧
    (OffsetInRange r₂.offsetIntoFirstRange →
      ((expectedLengthV2 r₂).toInt =
          min (2 ^ 63 - 1) (max 0 ((unpackedSum r₂.terms : Int) - max r₂.offsetIntoFirstRange 0)) ↔
        unpackedSum r₂.terms < 2 ^ 64 ∨
          2 ^ 63 - 1 + max r₂.offsetIntoFirstRange 0 ≤ ((unpackedSum r₂.terms % 2 ^ 64 : Nat) : Int))) :=
  ⟨expectedLength_eq_iff r₁.terms, expectedLength_eq_iff r₂.terms⟩

def lengthTerm (n : Nat) : Term := ⟨[], n, ⟨0, 1⟩⟩

theorem expected_length_of_two_terms : (expectedLengthV1 ⟨2, [lengthTerm 5, lengthTerm 7], ∅⟩).toInt = 10 ∧
    (expectedLengthV2 ⟨2, [lengthTerm 5, lengthTerm 7], ∅⟩).toInt = 10 := by
  obtain ⟨first, second⟩ := expected_length_exact_iff ⟨2, [lengthTerm 5, lengthTerm 7], ∅⟩
    ⟨2, [lengthTerm 5, lengthTerm 7], ∅⟩
  constructor
  · exact (first ⟨by decide, by decide⟩).mpr (.inl (by decide))
  · exact (second ⟨by decide, by decide⟩).mpr (.inl (by decide))

/-- Two terms whose lengths add up to `2 ^ 64` are taken for an empty file. -/
theorem expected_length_wraps : (expectedLengthV1 ⟨0, [lengthTerm (2 ^ 63), lengthTerm (2 ^ 63)], ∅⟩).toInt = 0 ∧
    (expectedLengthV2 ⟨0, [lengthTerm (2 ^ 63), lengthTerm (2 ^ 63)], ∅⟩).toInt = 0 ∧
    unpackedSum [lengthTerm (2 ^ 63), lengthTerm (2 ^ 63)] = 2 ^ 64 := by
  decide

end Xet.Download
