import Mathlib.Data.List.Induction
import Mathlib.Tactic.IntervalCases
import Mathlib.Tactic.Ring

/-! Byte strings, little-endian numbers, positional text and sequential reads.
Fallible code is an `Except`; a chain of checks is read back through the two
equivalences `bind_eq_ok` and `require_eq_ok`, never by unfolding the monad. -/
namespace Wire
open List Option Nat

abbrev Bytes := List UInt8

def require {ε : Type} (p : Prop) [Decidable p] (e : ε) : Except ε Unit :=
  if p then .ok () else .error e

variable {ε α : Type} {p : Prop} {β : Type} {f : α → Except ε β} {x : Except ε α}

theorem bind_eq_ok {f : α → Except ε β} {b : β} : (x >>= f) = .ok b ↔ ∃ a, x = .ok a ∧ f a = .ok b := by
  cases x with
  | error e => simp [bind, Except.bind]
  | ok a => simp [bind, Except.bind]

@[simp] theorem ok_bind (a : α) (f : α → Except ε β) :
    ((Except.ok a : Except ε α) >>= f) = f a := rfl

@[simp] theorem error_bind (e : ε) (f : α → Except ε β) :
    ((Except.error e : Except ε α) >>= f) = .error e := rfl

theorem require_eq_ok [Decidable p] {e : ε} {u : Unit} : require p e = .ok u ↔ p := by
  unfold require
  split <;> simp_all

theorem require_true [Decidable p] {e : ε} (h : p) :
    require p e = .ok () := if_pos h

theorem require_false [Decidable p] {e : ε} (h : ¬ p) :
    require p e = .error e := if_neg h

theorem map_eq_ok {f : α → β} {b : β} : (f <$> x) = .ok b ↔ ∃ a, x = .ok a ∧ f a = b := by
  cases x with
  | error e => simp [Functor.map, Except.map]
  | ok a => simp [Functor.map, Except.map]

theorem mapError_eq_ok {ε δ α : Type} {x : Except ε α} {f : ε → δ} {a : α} : x.mapError f = .ok a ↔ x = .ok a := by
  cases x with
  | error e => simp [Except.mapError]
  | ok b => simp [Except.mapError]

theorem eq_ok_of_toOption {a : α} (value : x.toOption = some a) : x = .ok a := by
  cases x with
  | error e => cases value
  | ok b =>
    cases value
    rfl

theorem exists_of_isOk (succeeds : x.isOk = true) : ∃ a, x = .ok a := by
  cases x with
  | error e => cases succeeds
  | ok a => exact ⟨a, rfl⟩

theorem forall₂_of_mapM {xs : List α} {ys : List β}
    (run : xs.mapM f = .ok ys) : List.Forall₂ (fun x y => f x = .ok y) xs ys := by
  induction xs generalizing ys with
  | nil =>
    cases run
    exact .nil
  | cons x xs ih =>
    simp only [mapM_cons, bind_eq_ok] at run
    obtain ⟨y, value, rest, values, result⟩ := run
    cases result
    exact .cons value (ih values)

theorem forall₂_mem_right {R : α → β → Prop} {xs : List α} {ys : List β}
    (h : List.Forall₂ R xs ys) {y : β} (member : y ∈ ys) : ∃ x ∈ xs, R x y := by
  induction h with
  | nil => cases member
  | cons here _ ih =>
    cases member with
    | head => exact ⟨_, mem_cons_self, here⟩
    | tail _ later =>
      obtain ⟨x, found, related⟩ := ih later
      exact ⟨x, mem_cons_of_mem _ found, related⟩

theorem exists_mapM_ok {R : α → β → Prop} {xs : List α}
    (each : ∀ x ∈ xs, ∃ y, f x = .ok y ∧ R x y) : ∃ ys, xs.mapM f = .ok ys ∧ List.Forall₂ R xs ys := by
  induction xs with
  | nil => exact ⟨[], rfl, .nil⟩
  | cons x rest ih =>
    obtain ⟨y, value, related⟩ := each x mem_cons_self
    obtain ⟨ys, values, all⟩ := ih fun z member => each z (mem_cons_of_mem x member)
    refine ⟨y :: ys, ?_, .cons related all⟩
    simp only [mapM_cons, value, values, ok_bind]
    rfl

theorem mapM_eq_ok_map {g : α → β} {xs : List α}
    (each : ∀ x ∈ xs, f x = .ok (g x)) : xs.mapM f = .ok (xs.map g) := by
  induction xs with
  | nil => rfl
  | cons x rest ih =>
    simp only [mapM_cons, each x mem_cons_self, ih fun z member => each z (mem_cons_of_mem x member), ok_bind]
    rfl

/-- Two computations that fail both, or succeed with related results. -/
inductive Together {ε ε' α β : Type} (R : α → β → Prop) : Except ε α → Except ε' β → Prop
  | ok (a : α) (b : β) (related : R a b) : Together R (.ok a) (.ok b)
  | error (e : ε) (e' : ε') : Together R (.error e) (.error e')

section
variable {ε ε' α β α' β' : Type} {R : α → β → Prop} {S : α' → β' → Prop}

theorem Together.mono {R' : α → β → Prop} {x : Except ε α} {y : Except ε' β} (both : Together R x y)
    (weaker : ∀ a b, x = .ok a → y = .ok b → R a b → R' a b) : Together R' x y := by
  cases both with
  | ok a b related => exact .ok a b (weaker a b rfl rfl related)
  | error e e' => exact .error e e'

theorem Together.bind {x : Except ε α} {y : Except ε' β} {f : α → Except ε α'} {g : β → Except ε' β'}
    (first : Together R x y) (rest : ∀ a b, R a b → Together S (f a) (g b)) : Together S (x >>= f) (y >>= g) := by
  cases first with
  | ok a b related => exact rest a b related
  | error e e' => exact .error e e'

theorem Together.mapM {xs : List α} {f : α → Except ε α'} {g : α → Except ε' β'}
    (each : ∀ x ∈ xs, Together S (f x) (g x)) : Together (List.Forall₂ S) (xs.mapM f) (xs.mapM g) := by
  induction xs with
  | nil => exact .ok [] [] .nil
  | cons x rest ih =>
    rw [mapM_cons, mapM_cons]
    apply (each x mem_cons_self).bind
    intro a b related
    apply (ih fun z member => each z (mem_cons_of_mem x member)).bind
    intro as bs all
    exact .ok _ _ (.cons related all)

end

/-- Check every element in order, telling each check the index of its element. -/
def forIndexed {ε α : Type} (check : Nat → α → Except ε Unit) : Nat → List α → Except ε Unit
  | _, [] => .ok ()
  | i, x :: rest => do
    check i x
    forIndexed check (i + 1) rest

theorem forIndexed_eq_ok {ε α : Type} {check : Nat → α → Except ε Unit} {start : Nat}
    {xs : List α} : forIndexed check start xs = .ok () ↔
      ∀ i x, xs[i]? = some x → check (start + i) x = .ok () := by
  induction xs generalizing start with
  | nil => simp [forIndexed]
  | cons x rest ih =>
    simp only [forIndexed, bind_eq_ok, ih]
    constructor
    · rintro ⟨⟨⟩, first, others⟩ i y found
      cases i with
      | zero =>
        cases found
        exact first
      | succ i =>
        have here := others i y found
        rwa [add_right_comm, add_assoc] at here
    · intro all
      refine ⟨(), all 0 x rfl, fun i y found => ?_⟩
      have here := all (i + 1) y found
      rwa [← add_assoc, add_right_comm] at here

def OnlyError {ε α : Type} (e : ε) (x : Except ε α) : Prop := ∀ e', x = .error e' → e' = e

theorem OnlyError.bind {ε α β : Type} {e : ε} {x : Except ε α} {f : α → Except ε β}
    (first : OnlyError e x) (rest : ∀ a, OnlyError e (f a)) : OnlyError e (x >>= f) := by
  cases x with
  | error e₁ =>
    intro e' h
    rw [error_bind] at h
    exact first e' (congrArg Except.error (Except.error.inj h))
  | ok a => exact rest a

theorem OnlyError.require {ε : Type} (e : ε) (p : Prop) [Decidable p] : OnlyError e (require p e) := by
  intro e' h
  unfold Wire.require at h
  split at h
  · cases h
  · exact (Except.error.inj h).symm

theorem OnlyError.pure {ε α : Type} (e : ε) (a : α) : OnlyError e (Except.ok a) := by
  intro e' h
  cases h

def leBytes : Nat → Nat → Bytes
  | 0, _ => []
  | k + 1, n => UInt8.ofNat n :: leBytes k (n / 256)

def leNat : Bytes → Nat
  | [] => 0
  | b :: bs => b.toNat + 256 * leNat bs

@[simp] theorem leBytes_length (k n : Nat) : (leBytes k n).length = k := by
  induction k generalizing n with
  | zero => rfl
  | succ k ih => simp only [leBytes, length_cons, ih]

theorem leNat_leBytes (k n : Nat) : leNat (leBytes k n) = n % 256 ^ k := by
  induction k generalizing n with
  | zero => simp [leBytes, leNat, Nat.mod_one]
  | succ k ih =>
    have low : (UInt8.ofNat n).toNat = n % 256 := by simp
    rw [leBytes, leNat, ih, low, Nat.pow_succ', Nat.mod_mul]

variable {n : Nat}

theorem leNat_leBytes_of_lt {k : Nat} (small : n < 256 ^ k) : leNat (leBytes k n) = n := by
  rw [leNat_leBytes, mod_eq_of_lt small]

theorem leNat_lt (bs : Bytes) : leNat bs < 256 ^ bs.length := by
  induction bs with
  | nil => simp [leNat]
  | cons b bs ih =>
    have hb := b.toNat_lt
    simp only [leNat, length_cons, Nat.pow_succ']
    omega

theorem leBytes_leNat (bs : Bytes) : leBytes bs.length (leNat bs) = bs := by
  induction bs with
  | nil => rfl
  | cons b bs ih =>
    have hb := b.toNat_lt
    have div : (b.toNat + 256 * leNat bs) / 256 = leNat bs := by omega
    have low : UInt8.ofNat (b.toNat + 256 * leNat bs) = b := by
      apply UInt8.toNat_inj.mp
      simp only [UInt8.toNat_ofNat']
      omega
    simp only [length_cons, leNat, leBytes, div, low, ih]

theorem leNat_inj {a b : Bytes} (len : a.length = b.length) (h : leNat a = leNat b) : a = b := by
  rw [← leBytes_leNat a, ← leBytes_leNat b, len, h]

def uint32 (b : Bytes) : UInt32 := UInt32.ofNat (leNat (b.take 4))
def uint64 (b : Bytes) : UInt64 := UInt64.ofNat (leNat (b.take 8))
def putUint32 (x : UInt32) : Bytes := leBytes 4 x.toNat
def putUint64 (x : UInt64) : Bytes := leBytes 8 x.toNat

theorem leBytes_mod (k n : Nat) : leBytes k (n % 256 ^ k) = leBytes k n := by
  apply leNat_inj
  · simp only [leBytes_length]
  · rw [leNat_leBytes, leNat_leBytes, mod_mod]

theorem putUint32_ofNat (n : Nat) : putUint32 (UInt32.ofNat n) = leBytes 4 n := by
  rw [putUint32, UInt32.toNat_ofNat']
  exact leBytes_mod 4 n

@[simp] theorem putUint32_length (x : UInt32) : (putUint32 x).length = 4 := leBytes_length 4 _
@[simp] theorem putUint64_length (x : UInt64) : (putUint64 x).length = 8 := leBytes_length 8 _

@[simp] theorem uint32_putUint32 (x : UInt32) (rest : Bytes) : uint32 (putUint32 x ++ rest) = x := by
  have value : leNat (leBytes 4 x.toNat) = x.toNat := leNat_leBytes_of_lt x.toNat_lt
  unfold uint32
  rw [take_left' (putUint32_length x), putUint32, value, UInt32.ofNat_toNat]

@[simp] theorem uint64_putUint64 (x : UInt64) (rest : Bytes) : uint64 (putUint64 x ++ rest) = x := by
  have value : leNat (leBytes 8 x.toNat) = x.toNat := leNat_leBytes_of_lt x.toNat_lt
  unfold uint64
  rw [take_left' (putUint64_length x), putUint64, value, UInt64.ofNat_toNat]

def digitByte (d : Nat) : UInt8 := UInt8.ofNat (if d < 10 then 48 + d else 87 + d)

def digitValue (c : UInt8) : Option Nat :=
  if 48 ≤ c.toNat ∧ c.toNat ≤ 57 then some (c.toNat - 48)
  else if 97 ≤ c.toNat ∧ c.toNat ≤ 122 then some (c.toNat - 87)
  else if 65 ≤ c.toNat ∧ c.toNat ≤ 90 then some (c.toNat - 55)
  else none

/-- The digits of `n`, most significant first and without leading zeros; `fuel` bounds their number. -/
def digits (base : Nat) : Nat → Nat → List Nat
  | 0, _ => []
  | fuel + 1, n => if n < base then [n] else digits base fuel (n / base) ++ [n % base]

def ofDigits (base : Nat) (ds : List Nat) : Nat := ds.foldl (fun acc d => acc * base + d) 0

def appendUint (x : UInt64) (base : Nat) : Bytes := (digits base 64 x.toNat).map digitByte

/-- A non-empty run of digits of the base whose value fits `bits` bits. -/
def parseUint (s : Bytes) (base bits : Nat) : Option Nat :=
  if s = [] then none
  else do
    let ds ← s.mapM digitValue
    if ds.all (· < base) ∧ ofDigits base ds < 2 ^ bits then some (ofDigits base ds) else none

theorem digitValue_digitByte {d : Nat} (h : d < 36) : digitValue (digitByte d) = some d := by
  interval_cases d <;> rfl

theorem ofDigits_append (base : Nat) (ds : List Nat) (d : Nat) :
    ofDigits base (ds ++ [d]) = ofDigits base ds * base + d := by
  simp only [ofDigits, foldl_append, foldl_cons, foldl_nil]

theorem ofDigits_zeros (base k : Nat) (ds : List Nat) :
    ofDigits base (List.replicate k 0 ++ ds) = ofDigits base ds := by
  induction k with
  | zero => rfl
  | succ k ih =>
    simp only [ofDigits, replicate_succ, cons_append, foldl_cons, Nat.zero_mul, Nat.add_zero] at ih ⊢
    exact ih

variable {base : Nat}

theorem digits_lt {fuel : Nat} (positive : 0 < base) : ∀ d ∈ digits base fuel n, d < base := by
  induction fuel generalizing n with
  | zero => simp [digits]
  | succ fuel ih =>
    intro d hd
    unfold digits at hd
    split at hd
    · rename_i small
      have he : d = n := by simpa using hd
      exact he ▸ small
    · rcases mem_append.mp hd with hd | hd
      · exact ih d hd
      · have he : d = n % base := by simpa using hd
        exact he ▸ mod_lt n positive

theorem ofDigits_digits (large : 2 ≤ base) {fuel : Nat} (fits : n < base ^ fuel) :
    ofDigits base (digits base fuel n) = n := by
  induction fuel generalizing n with
  | zero =>
    have zero : n = 0 := by simpa using fits
    subst n
    rfl
  | succ fuel ih =>
    unfold digits
    split
    · simp [ofDigits]
    · have smaller : n / base < base ^ fuel := by
        rw [Nat.div_lt_iff_lt_mul (by omega), ← Nat.pow_succ]
        exact fits
      rw [ofDigits_append, ih smaller]
      exact div_add_mod' n base

theorem digits_ne_nil {fuel : Nat} : digits base (fuel + 1) n ≠ [] := by
  unfold digits
  split <;> simp

theorem digits_length_le (large : 2 ≤ base) {fuel k : Nat} (positive : 0 < k) (small : n < base ^ k) :
    (digits base fuel n).length ≤ k := by
  induction fuel generalizing n k with
  | zero => simp [digits]
  | succ fuel ih =>
    unfold digits
    split
    · exact positive
    · rename_i big
      obtain ⟨j, rfl⟩ : ∃ j, k = j + 1 := ⟨k - 1, by omega⟩
      have rest : 0 < j := by
        rcases Nat.eq_zero_or_pos j with rfl | hj
        · rw [Nat.zero_add, Nat.pow_one] at small; omega
        · exact hj
      have smaller : n / base < base ^ j := by
        rw [Nat.div_lt_iff_lt_mul (by omega), ← Nat.pow_succ]
        exact small
      have := ih rest smaller
      simp only [length_append, length_singleton]
      omega

theorem mapM_digitValue {ds : List Nat} (h : ∀ d ∈ ds, d < 36) : (ds.map digitByte).mapM digitValue = some ds := by
  induction ds with
  | nil => rfl
  | cons d ds ih =>
    have hd := digitValue_digitByte (h d mem_cons_self)
    have hs := ih (fun x hx => h x (mem_cons_of_mem _ hx))
    simp only [map_cons, mapM_cons, hd, hs, bind_eq_bind, bind_some]
    rfl

theorem parseUint_digits {bits : Nat} (upper : base ≤ 36) {ds : List Nat} (nonempty : ds ≠ [])
    (valid : ∀ d ∈ ds, d < base) (fits : ofDigits base ds < 2 ^ bits) :
    parseUint (ds.map digitByte) base bits = some (ofDigits base ds) := by
  have hne : ds.map digitByte ≠ [] := by simpa using nonempty
  have hall : ds.all (· < base) = true := by simpa using valid
  have hm := mapM_digitValue (fun d hd => Nat.lt_of_lt_of_le (valid d hd) upper)
  simp only [parseUint, if_neg hne, hm, bind_eq_bind, bind_some, hall, fits, and_self, if_true]

theorem appendUint_inj (large : 2 ≤ base) (upper : base ≤ 36) {x y : UInt64}
    (h : appendUint x base = appendUint y base) : x = y := by
  have bound : ∀ z : UInt64, ∀ d ∈ digits base 64 z.toNat, d < 36 :=
    fun z d hd => Nat.lt_of_lt_of_le (digits_lt (by omega) d hd) upper
  have fits : ∀ z : UInt64, z.toNat < base ^ 64 :=
    fun z => Nat.lt_of_lt_of_le z.toNat_lt (Nat.pow_le_pow_left large 64)
  have hm := congrArg (List.mapM digitValue) h
  simp only [appendUint, mapM_digitValue (bound x), mapM_digitValue (bound y), Option.some.injEq] at hm
  have hv := congrArg (ofDigits base) hm
  rw [ofDigits_digits large (fits x), ofDigits_digits large (fits y)] at hv
  exact UInt64.toNat_inj.mp hv

inductive ReadError where
  | eof
  | unexpectedEOF
  deriving DecidableEq, Repr

/-- Fill a buffer of `n` bytes from `r`, returning it with what is left of `r`. -/
def readFull (n : Nat) (r : Bytes) : Except ReadError (Bytes × Bytes) :=
  if n ≤ r.length then .ok (r.take n, r.drop n)
  else if r = [] then .error .eof else .error .unexpectedEOF

theorem readFull_append {x : Bytes} (len : x.length = n) (rest : Bytes) : readFull n (x ++ rest) = .ok (x, rest) := by
  have enough : n ≤ (x ++ rest).length := by rw [length_append, len]; omega
  rw [readFull, if_pos enough, take_left' len, drop_left' len]

theorem readFull_eq_ok {r x rest : Bytes} : readFull n r = .ok (x, rest) ↔ r = x ++ rest ∧ x.length = n := by
  constructor
  · intro h
    unfold readFull at h
    split at h
    · rename_i enough
      cases h
      exact ⟨(take_append_drop n r).symm, by simp [enough]⟩
    · split at h <;> cases h
  · rintro ⟨rfl, len⟩
    exact readFull_append len rest

theorem readFull_nil (positive : 0 < n) : readFull n [] = .error .eof := by
  have short : ¬ n ≤ ([] : Bytes).length := by simpa using ne_of_gt positive
  rw [readFull, if_neg short, if_pos rfl]

theorem readFull_eof {r : Bytes} (h : readFull n r = .error .eof) : r = [] := by
  unfold readFull at h
  split at h
  · cases h
  · split at h
    · assumption
    · cases h

theorem take_padding {α : Type} (xs : List α) (k : Nat) (a : α) :
    (xs ++ List.replicate (k + 1) a).take k = (xs ++ List.replicate k a).take k := by
  rw [replicate_succ', ← append_assoc, take_append_of_le_length (by simp)]

end Wire
