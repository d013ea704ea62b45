import Mathlib.Data.List.Basic
import Mathlib.Tactic.IntervalCases

/-! Hexadecimal digits and byte strings. Either case is read, lower case is written. -/
namespace Hex
open List

def unhex (c : UInt8) : Option Nat :=
  if 48 ≤ c ∧ c ≤ 57 then some (c.toNat - 48)
  else if 97 ≤ c ∧ c ≤ 102 then some (c.toNat - 87)
  else if 65 ≤ c ∧ c ≤ 70 then some (c.toNat - 55)
  else none

def lowDigit (n : Nat) : UInt8 := UInt8.ofNat (if n < 10 then 48 + n else 87 + n)

def lowerByte (c : UInt8) : UInt8 := if 65 ≤ c ∧ c ≤ 90 then c + 32 else c

def encodeByte (b : UInt8) : List UInt8 := [lowDigit (b.toNat / 16), lowDigit (b.toNat % 16)]

def encode (s : List UInt8) : List UInt8 := s.flatMap encodeByte

def decode : List UInt8 → Option (List UInt8)
  | [] => some []
  | [_] => none
  | a :: b :: s =>
    match unhex a, unhex b with
    | some high, some low => (decode s).map (UInt8.ofNat (16 * high + low) :: ·)
    | _, _ => none

theorem byte_forall {P : UInt8 → Prop} (all : ∀ n < 256, P (UInt8.ofNat n)) (c : UInt8) : P c := by
  have here := all c.toNat c.toNat_lt
  rwa [UInt8.ofNat_toNat] at here

theorem unhex_eq_some {c : UInt8} {n : Nat} (digit : unhex c = some n) : n < 16 ∧ lowDigit n = lowerByte c := by
  have all : ∀ c, ∀ n ∈ unhex c, n < 16 ∧ lowDigit n = lowerByte c := byte_forall (by decide +kernel)
  exact all c n digit

@[simp] theorem unhex_lowerByte (c : UInt8) : unhex (lowerByte c) = unhex c := by
  revert c
  exact byte_forall (by decide +kernel)

theorem encode_decode {s b : List UInt8} (read : decode s = some b) : encode b = s.map lowerByte := by
  induction s using decode.induct generalizing b with
  | case1 =>
    cases read
    rfl
  | case2 c => cases read
  | case3 a c s high low highDigit lowDigit ih =>
    simp only [decode, highDigit, lowDigit] at read
    obtain ⟨t, rest, rfl⟩ := Option.map_eq_some_iff.mp read
    obtain ⟨highSmall, highText⟩ := unhex_eq_some highDigit
    obtain ⟨lowSmall, lowText⟩ := unhex_eq_some lowDigit
    have value : (UInt8.ofNat (16 * high + low)).toNat = 16 * high + low := by
      rw [UInt8.toNat_ofNat']
      exact Nat.mod_eq_of_lt (by omega)
    have quotient : (16 * high + low) / 16 = high := by omega
    have remainder : (16 * high + low) % 16 = low := by omega
    rw [encode, flatMap_cons, ← encode, ih rest, encodeByte, value, quotient, remainder, highText, lowText]
    rfl
  | case4 a c s other =>
    rw [decode] at read
    split at read
    · rename_i high low highDigit lowDigit
      exact (other high low highDigit lowDigit).elim
    · cases read

theorem decode_lower (s : List UInt8) : decode (s.map lowerByte) = decode s := by
  induction s using decode.induct with
  | case1 => rfl
  | case2 c => rfl
  | case3 a b s high low highDigit lowDigit ih =>
    simp only [map_cons, decode, unhex_lowerByte, highDigit, lowDigit, ih]
  | case4 a b s other =>
    simp only [map_cons, decode, unhex_lowerByte]

end Hex
