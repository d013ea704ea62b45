import Mathlib.Data.List.Basic
import Mathlib.Tactic.IntervalCases

/-! Base64 with the URL alphabet and without padding. The decoder skips line ends and ignores the bits
that are left over at the end. -/
namespace Base64
open List Option

def digit (n : Nat) : UInt8 :=
  UInt8.ofNat (if n < 26 then 65 + n else if n < 52 then 71 + n else if n < 62 then n - 4 else if n = 62 then 45 else 95)

def value (c : UInt8) : Option Nat :=
  if 65 ≤ c ∧ c ≤ 90 then some (c.toNat - 65)
  else if 97 ≤ c ∧ c ≤ 122 then some (c.toNat - 71)
  else if 48 ≤ c ∧ c ≤ 57 then some (c.toNat + 4)
  else if c = 45 then some 62
  else if c = 95 then some 63
  else none

def sextets : List UInt8 → List Nat
  | [] => []
  | [a] => [a.toNat / 4, a.toNat % 4 * 16]
  | [a, b] => [a.toNat / 4, a.toNat % 4 * 16 + b.toNat / 16, b.toNat % 16 * 4]
  | a :: b :: c :: s =>
    [a.toNat / 4, a.toNat % 4 * 16 + b.toNat / 16, b.toNat % 16 * 4 + c.toNat / 64, c.toNat % 64] ++ sextets s

def encode (s : List UInt8) : List UInt8 := (sextets s).map digit

/-- The bytes of the groups of four values; the last group may have two or three. -/
def groups : List Nat → Option (List UInt8)
  | [] => some []
  | [_] => none
  | [x, y] => some [UInt8.ofNat (x * 4 + y / 16)]
  | [x, y, z] => some [UInt8.ofNat (x * 4 + y / 16), UInt8.ofNat (y % 16 * 16 + z / 4)]
  | x :: y :: z :: w :: s =>
    (groups s).map ([UInt8.ofNat (x * 4 + y / 16), UInt8.ofNat (y % 16 * 16 + z / 4), UInt8.ofNat (z % 4 * 64 + w)] ++ ·)

def lineEnd (c : UInt8) : Bool := c == 10 || c == 13

def decode (s : List UInt8) : Option (List UInt8) :=
  ((s.filter (!lineEnd ·)).mapM value).bind groups

theorem value_digit {n : Nat} (small : n < 64) : value (digit n) = some n ∧ lineEnd (digit n) = false := by
  have all : ∀ n < 64, value (digit n) = some n ∧ lineEnd (digit n) = false := by decide
  exact all n small

theorem sextets_lt (s : List UInt8) : ∀ n ∈ sextets s, n < 64 := by
  induction s using sextets.induct with
  | case1 => simp [sextets]
  | case2 a =>
    have := a.toNat_lt
    simp only [sextets, forall_mem_cons, not_mem_nil, false_implies, implies_true, and_true]
    omega
  | case3 a b =>
    have := a.toNat_lt
    have := b.toNat_lt
    simp only [sextets, forall_mem_cons, not_mem_nil, false_implies, implies_true, and_true]
    omega
  | case4 a b c s ih =>
    have := a.toNat_lt
    have := b.toNat_lt
    have := c.toNat_lt
    simp only [sextets, cons_append, nil_append, forall_mem_cons]
    exact ⟨by omega, by omega, by omega, by omega, ih⟩

theorem byte_eq {a : UInt8} {n : Nat} (same : n = a.toNat) : UInt8.ofNat n = a := by
  rw [same, UInt8.ofNat_toNat]

theorem groups_sextets (s : List UInt8) : groups (sextets s) = some s := by
  induction s using sextets.induct with
  | case1 => rfl
  | case2 a =>
    simp only [sextets, groups, Option.some.injEq, List.cons.injEq, and_true]
    exact byte_eq (by omega)
  | case3 a b =>
    have := b.toNat_lt
    simp only [sextets, groups, Option.some.injEq, List.cons.injEq, and_true]
    exact ⟨byte_eq (by omega), byte_eq (by omega)⟩
  | case4 a b c s ih =>
    have := b.toNat_lt
    have := c.toNat_lt
    simp only [sextets, groups, ih, map_some, cons_append, nil_append, Option.some.injEq, List.cons.injEq, and_true]
    exact ⟨byte_eq (by omega), byte_eq (by omega), byte_eq (by omega)⟩

theorem mapM_value {ds : List Nat} (small : ∀ n ∈ ds, n < 64) : (ds.map digit).mapM value = some ds := by
  induction ds with
  | nil => rfl
  | cons n ds ih =>
    obtain ⟨first, rest⟩ := forall_mem_cons.mp small
    simp [mapM_cons, (value_digit first).1, ih rest]

theorem decode_encode (s : List UInt8) : decode (encode s) = some s := by
  have kept : ((sextets s).map digit).filter (!lineEnd ·) = (sextets s).map digit := by
    rw [filter_eq_self]
    intro c member
    obtain ⟨n, there, rfl⟩ := mem_map.mp member
    rw [(value_digit (sextets_lt s n there)).2]
    rfl
  rw [decode, encode, kept, mapM_value (sextets_lt s), bind_some, groups_sextets]

theorem encode_ne_nil {s : List UInt8} (present : s ≠ []) : encode s ≠ [] := by
  intro empty
  have read := decode_encode s
  rw [empty] at read
  exact present (Option.some.inj read).symm

theorem value_of_mapM {s : List UInt8} {ds : List Nat} (read : s.mapM value = some ds) {c : UInt8} (member : c ∈ s) :
    (value c).isSome = true := by
  induction s generalizing ds with
  | nil => cases member
  | cons d s ih =>
    rw [mapM_cons] at read
    obtain ⟨n, first, read⟩ := bind_eq_some_iff.mp read
    obtain ⟨ns, rest, -⟩ := bind_eq_some_iff.mp read
    cases member with
    | head => rw [first]; rfl
    | tail _ later => exact ih rest later

theorem mem_of_decode {s b : List UInt8} (read : decode s = some b) {c : UInt8} (member : c ∈ s) :
    (value c).isSome = true ∨ lineEnd c = true := by
  obtain ⟨values, letters, -⟩ := bind_eq_some_iff.mp read
  cases skipped : lineEnd c with
  | true => exact .inr rfl
  | false =>
    have kept : c ∈ s.filter (!lineEnd ·) := mem_filter.mpr ⟨member, by simp [skipped]⟩
    exact .inl (value_of_mapM letters kept)

end Base64
