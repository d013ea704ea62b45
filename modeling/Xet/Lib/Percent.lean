import Xet.Lib.Hex
import Xet.Lib.Wire

/-! Percent-encoding: bytes outside a kept set are written as a percent sign and two hexadecimal digits. -/
namespace Percent
open Wire Hex List

def percent : UInt8 := 37

def hexDigit (n : Nat) : UInt8 := UInt8.ofNat (if n < 10 then 48 + n else 55 + n)

def escapeByte (keep : UInt8 → Bool) (c : UInt8) : List UInt8 :=
  if keep c then [c] else [percent, hexDigit (c.toNat / 16), hexDigit (c.toNat % 16)]

def escape (keep : UInt8 → Bool) (s : List UInt8) : List UInt8 := s.flatMap (escapeByte keep)

/-- An escape that is cut short or has other digits is reported with its bytes. -/
def unescape : List UInt8 → Except (List UInt8) (List UInt8)
  | [] => .ok []
  | c :: s =>
    if c = percent then
      match s with
      | a :: b :: s =>
        match unhex a, unhex b with
        | some high, some low => (unescape s).map (UInt8.ofNat (16 * high + low) :: ·)
        | _, _ => .error [c, a, b]
      | _ => .error (c :: s)
    else (unescape s).map (c :: ·)

theorem map_eq_ok {α β ε : Type} {f : α → β} {x : Except ε α} {b : β} : x.map f = .ok b ↔ ∃ a, x = .ok a ∧ f a = b := by
  cases x <;> simp [Except.map]

theorem unhex_hexDigit {n : Nat} (digit : n < 16) : unhex (hexDigit n) = some n := by
  have all : ∀ n < 16, unhex (hexDigit n) = some n := by decide
  exact all n digit

theorem unescape_cons {c : UInt8} (other : c ≠ percent) (s : List UInt8) :
    unescape (c :: s) = (unescape s).map (c :: ·) := by
  rw [unescape.eq_def]
  simp only [if_neg other]

theorem unescape_cons_eq_ok {c : UInt8} {s t : List UInt8} (read : unescape (c :: s) = .ok t) :
    (c ≠ percent ∧ ∃ t', unescape s = .ok t' ∧ t = c :: t') ∨
      ∃ a b d s' t', s = a :: b :: s' ∧ unescape s' = .ok t' ∧ t = d :: t' := by
  by_cases mark : c = percent
  · rw [unescape.eq_def] at read
    simp only [if_pos mark] at read
    split at read
    · split at read
      · obtain ⟨t', rest, rfl⟩ := map_eq_ok.mp read
        exact .inr ⟨_, _, _, _, t', rfl, rest, rfl⟩
      · cases read
    · cases read
  · rw [unescape_cons mark] at read
    obtain ⟨t', rest, rfl⟩ := map_eq_ok.mp read
    exact .inl ⟨mark, t', rest, rfl⟩

theorem unescape_length {s t : List UInt8} (read : unescape s = .ok t) : t.length ≤ s.length := by
  induction size : s.length using Nat.strong_induction_on generalizing s t with
  | _ n ih =>
    cases s with
    | nil =>
      cases read
      exact Nat.zero_le n
    | cons c s =>
      rcases unescape_cons_eq_ok read with ⟨-, t', rest, rfl⟩ | ⟨a, b, d, s', t', rfl, rest, rfl⟩
      all_goals
        simp only [length_cons] at size ⊢
        have shorter := ih _ (by omega) rest rfl
        omega

variable {keep : UInt8 → Bool} {s : List UInt8}

theorem unescape_escapeByte (marks : keep percent = false) (c : UInt8) :
    unescape (escapeByte keep c ++ s) = (unescape s).map (c :: ·) := by
  rw [escapeByte]
  cases kept : keep c with
  | true =>
    have other : c ≠ percent := by
      rintro rfl
      cases kept.symm.trans marks
    simp [unescape_cons other]
  | false =>
    have bound : c.toNat < 256 := c.toNat_lt
    have value : UInt8.ofNat (16 * (c.toNat / 16) + c.toNat % 16) = c := by
      rw [Nat.div_add_mod, UInt8.ofNat_toNat]
    simp [unescape, unhex_hexDigit (show c.toNat / 16 < 16 by omega), unhex_hexDigit (show c.toNat % 16 < 16 by omega), value]

theorem unescape_escape_append (marks : keep percent = false) (s rest : List UInt8) :
    unescape (escape keep s ++ rest) = (unescape rest).map (s ++ ·) := by
  induction s with
  | nil => cases read : unescape rest <;> simp [escape, read, Except.map]
  | cons c s ih =>
    rw [escape, flatMap_cons, append_assoc, unescape_escapeByte marks, ← escape, ih]
    cases unescape rest <;> rfl

theorem unescape_escape (marks : keep percent = false) (s : List UInt8) : unescape (escape keep s) = .ok s := by
  have read := unescape_escape_append marks s []
  simpa [unescape, Except.map] using read

theorem escape_eq_nil : escape keep s = [] ↔ s = [] := by
  cases s with
  | nil => simp [escape]
  | cons c s =>
    have : escapeByte keep c ≠ [] := by
      rw [escapeByte]
      split <;> simp
    simp [escape, this]

theorem escape_self (kept : ∀ c ∈ s, keep c = true) : escape keep s = s := by
  induction s with
  | nil => rfl
  | cons c s ih =>
    rw [escape, flatMap_cons, escapeByte, if_pos (kept c mem_cons_self), ← escape,
      ih fun d member => kept d (mem_cons_of_mem c member)]
    rfl

theorem mem_escape {c : UInt8} (member : c ∈ escape keep s) :
    (c ∈ s ∧ keep c = true) ∨ c = percent ∨ ∃ n < 16, c = hexDigit n := by
  obtain ⟨d, there, inside⟩ := mem_flatMap.mp member
  rw [escapeByte] at inside
  split at inside
  · rename_i kept
    cases mem_singleton.mp inside
    exact .inl ⟨there, kept⟩
  · have bound : d.toNat < 256 := d.toNat_lt
    simp only [mem_cons, not_mem_nil, or_false] at inside
    rcases inside with mark | high | low
    · exact .inr (.inl mark)
    · exact .inr (.inr ⟨_, by omega, high⟩)
    · exact .inr (.inr ⟨_, by omega, low⟩)

theorem intercalate_escape (mark : UInt8) (s : List UInt8) :
    [mark].intercalate ((s.splitOn mark).map (escape keep)) = escape (fun c => keep c || c == mark) s := by
  induction s with
  | nil => simp [escape]
  | cons c s ih =>
    have split : (c :: s).splitOn mark =
        if c == mark then [] :: s.splitOn mark else (s.splitOn mark).modifyHead (List.cons c) :=
      splitOnP_cons_eq_if_modifyHead c s
    obtain ⟨first, rest, segments⟩ := exists_cons_of_ne_nil (splitOn_ne_nil mark s)
    rw [segments] at split ih
    rw [split, escape, flatMap_cons, ← escape, ← ih]
    by_cases same : c = mark
    · simp [same, escape, escapeByte, List.intercalate]
    · cases rest <;> simp [same, escape, escapeByte, List.intercalate]

end Percent
