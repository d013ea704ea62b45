import Mathlib.Data.List.Forall2
import Xet.Hash
import Xet.Lib.Hex

/-! The text form of hashes is canonical. A text of sixty-four digits in either case names one hash, whose own text is
the lower case of it, so the object names of a store are names of hashes. -/
namespace Xet
open Wire Hex List Option Hash

theorem digitValue_hex (c : UInt8) : (digitValue c).filter (· < 16) = unhex c := by
  revert c
  exact byte_forall (by decide +kernel)

theorem digitByte_eq_lowDigit : ∀ d < 16, digitByte d = lowDigit d := by decide

theorem ofDigits_inj {base : Nat} {xs ys : List Nat} (len : xs.length = ys.length) (below : ∀ d ∈ xs, d < base)
    (below' : ∀ d ∈ ys, d < base) (same : ofDigits base xs = ofDigits base ys) : xs = ys := by
  induction xs using reverseRecOn generalizing ys with
  | nil => exact (eq_nil_of_length_eq_zero len.symm).symm
  | append_singleton xs x ih =>
    induction ys using reverseRecOn with
    | nil => simp at len
    | append_singleton ys y _ =>
      have last : x < base := below x (by simp)
      have last' : y < base := below' y (by simp)
      rw [ofDigits_append, ofDigits_append] at same
      have digit : x = y := by
        have rest := congrArg (· % base) same
        simpa only [Nat.mul_add_mod_of_lt last, Nat.mul_add_mod_of_lt last'] using rest
      subst digit
      have front : ofDigits base xs = ofDigits base ys :=
        Nat.eq_of_mul_eq_mul_right (by omega) (Nat.add_right_cancel same)
      rw [ih (by simpa using len) (fun d member => below d (by simp [member])) (fun d member => below' d (by simp [member]))
        front]

variable {ds : List Nat}

theorem ofDigits_lt {base : Nat} (below : ∀ d ∈ ds, d < base) : ofDigits base ds < base ^ ds.length := by
  induction ds using reverseRecOn with
  | nil => exact Nat.one_pos
  | append_singleton ds d ih =>
    have last : d < base := below d (by simp)
    have front : ofDigits base ds + 1 ≤ base ^ ds.length := ih fun x member => below x (by simp [member])
    rw [ofDigits_append, length_append, length_singleton, Nat.pow_succ]
    calc ofDigits base ds * base + d < (ofDigits base ds + 1) * base := by rw [Nat.succ_mul]; omega
      _ ≤ base ^ ds.length * base := Nat.mul_le_mul_right base front

def Spells (w : Bytes) (ds : List Nat) : Prop := Forall₂ (fun c d => unhex c = some d) w ds

variable {w : Bytes}

theorem Spells.below (spells : Spells w ds) : ∀ d ∈ ds, d < 16 := by
  induction spells with
  | nil => exact nofun
  | cons digit _ ih => exact forall_mem_cons.mpr ⟨(unhex_eq_some digit).1, ih⟩

theorem Spells.lower (spells : Spells w ds) : w.map lowerByte = ds.map digitByte := by
  induction spells with
  | nil => rfl
  | cons digit _ ih =>
    obtain ⟨small, text⟩ := unhex_eq_some digit
    rw [map_cons, map_cons, ih, digitByte_eq_lowDigit _ small, text]

theorem exists_spells : (∃ ds, Spells w ds) ↔ ∀ c ∈ w, (unhex c).isSome = true := by
  induction w with
  | nil => exact ⟨fun _ => nofun, fun _ => ⟨[], .nil⟩⟩
  | cons c w ih =>
    rw [forall_mem_cons, ← ih, isSome_iff_exists]
    constructor
    · rintro ⟨_, spells⟩
      cases spells with
      | cons digit rest => exact ⟨⟨_, digit⟩, _, rest⟩
    · rintro ⟨⟨d, digit⟩, ds, rest⟩
      exact ⟨d :: ds, .cons digit rest⟩

theorem unhex_iff {c : UInt8} {d : Nat} : unhex c = some d ↔ digitValue c = some d ∧ d < 16 := by
  rw [← digitValue_hex, filter_eq_some_iff, decide_eq_true_iff]

theorem mapM_digitValue_iff : w.mapM digitValue = some ds ∧ ds.all (· < 16) = true ↔ Spells w ds := by
  induction w generalizing ds with
  | nil =>
    constructor
    · rintro ⟨⟨⟩, -⟩
      exact .nil
    · rintro ⟨⟩
      exact ⟨rfl, rfl⟩
  | cons c w ih =>
    simp only [mapM_cons, bind_eq_bind, bind_eq_some_iff]
    constructor
    · rintro ⟨⟨d, digit, rest, read, ⟨⟩⟩, small⟩
      rw [all_cons, Bool.and_eq_true, decide_eq_true_iff] at small
      exact .cons (unhex_iff.mpr ⟨digit, small.1⟩) (ih.mp ⟨read, small.2⟩)
    · intro spells
      cases spells with
      | cons digit rest =>
        obtain ⟨value, small⟩ := unhex_iff.mp digit
        obtain ⟨read, below⟩ := ih.mpr rest
        exact ⟨⟨_, value, _, read, rfl⟩, by simp [small, below]⟩

theorem parseUint_word (len : w.length = 16) {v : Nat} :
    parseUint w 16 64 = some v ↔ ∃ ds, Spells w ds ∧ ofDigits 16 ds = v := by
  have nonempty : w ≠ [] := by
    rintro rfl
    cases len
  simp only [parseUint, if_neg nonempty, bind_eq_bind, bind_eq_some_iff]
  constructor
  · rintro ⟨ds, read, value⟩
    split at value
    · cases value
      exact ⟨ds, mapM_digitValue_iff.mp ⟨read, by simp_all⟩, rfl⟩
    · cases value
  · rintro ⟨ds, spells, rfl⟩
    obtain ⟨read, small⟩ := mapM_digitValue_iff.mpr spells
    have fits : ofDigits 16 ds < 2 ^ 64 := by
      have bound := ofDigits_lt spells.below
      rwa [← Forall₂.length_eq spells, len] at bound
    exact ⟨ds, read, if_pos ⟨by simpa using small, fits⟩⟩

theorem padWord_spells (len : w.length = 16) (spells : Spells w ds) {x : UInt64} (value : ofDigits 16 ds = x.toNat) :
    padWord (appendUint x 16) = w.map lowerByte := by
  obtain ⟨xs, len', below, value', text⟩ := exists_padWord x
  have same : xs = ds := by
    apply ofDigits_inj _ below spells.below (value'.trans value.symm)
    rw [len', ← spells.length_eq, len]
  rw [text, same, spells.lower]

def segment (s : Bytes) (seg : Nat) : Bytes := (s.drop (seg * 16)).take 16

variable {s : Bytes}

theorem segment_length (len : s.length = 64) {seg : Nat} (bound : seg < 4) : (segment s seg).length = 16 := by
  rw [segment, length_take, length_drop, len]
  omega

theorem segments_join (len : s.length = 64) : (range 4).flatMap (segment s) = s := by
  have join : ∀ n, (range n).flatMap (segment s) ++ s.drop (n * 16) = s := by
    intro n
    induction n with
    | zero => rw [Nat.zero_mul]; rfl
    | succ n ih =>
      have front : segment s n ++ s.drop ((n + 1) * 16) = s.drop (n * 16) := by
        rw [Nat.succ_mul, ← drop_drop]
        exact take_append_drop 16 _
      rw [range_succ, flatMap_append, flatMap_singleton, append_assoc, front, ih]
  have rest : s.drop (4 * 16) = [] := drop_eq_nil_of_le (by omega)
  have whole := join 4
  rwa [rest, append_nil] at whole

theorem leBytes_flatMap_inj {k : Nat} {vs ws : List Nat} (len : vs.length = ws.length) (below : ∀ v ∈ vs, v < 256 ^ k)
    (below' : ∀ w ∈ ws, w < 256 ^ k) (same : vs.flatMap (leBytes k) = ws.flatMap (leBytes k)) : vs = ws := by
  induction vs generalizing ws with
  | nil => exact (eq_nil_of_length_eq_zero len.symm).symm
  | cons v vs ih =>
    cases ws with
    | nil => cases len
    | cons w ws =>
      obtain ⟨small, below⟩ := forall_mem_cons.mp below
      obtain ⟨small', below'⟩ := forall_mem_cons.mp below'
      obtain ⟨head, tail⟩ := append_inj same (by simp)
      have value : v = w := by rw [← leNat_leBytes_of_lt small, head, leNat_leBytes_of_lt small']
      rw [value, ih (Nat.succ.inj len) below below' tail]

theorem parseWord_eq_ok {seg v : Nat} : parseWord s seg = .ok v ↔ parseUint (segment s seg) 16 64 = some v := by
  rw [parseWord, segment]
  split <;> simp_all

theorem parseUint_lt {base bits v : Nat} (read : parseUint s base bits = some v) : v < 2 ^ bits := by
  simp only [parseUint] at read
  split at read
  · cases read
  · simp only [bind_eq_bind, bind_eq_some_iff] at read
    obtain ⟨ds, -, value⟩ := read
    split at value
    · cases value
      exact (And.right ‹_›)
    · cases value

theorem parseHash_eq_ok {h : Hash} :
    parseHash s = .ok h ↔ s.length = 64 ∧ ∀ seg < 4, parseUint (segment s seg) 16 64 = some (h.word seg).toNat := by
  have words : ((range 4).map fun seg => (h.word seg).toNat).flatMap (leBytes 8) = h.bytes := words_bytes h
  simp only [parseHash, bind_eq_ok, require_eq_ok, exists_const]
  constructor
  · rintro ⟨len, vals, read, ⟨⟩⟩
    have each := forall₂_of_mapM read
    have count : vals.length = 4 := each.length_eq.symm.trans length_range
    have bytes : (ofBytes (vals.flatMap (leBytes 8))).bytes = vals.flatMap (leBytes 8) :=
      bytes_ofBytes (by simp [length_flatMap, count])
    have below : ∀ v ∈ vals, v < 256 ^ 8 := by
      intro v member
      obtain ⟨seg, -, value⟩ := forall₂_mem_right each member
      exact parseUint_lt (parseWord_eq_ok.mp value)
    have below' : ∀ v ∈ (range 4).map fun seg => ((ofBytes (vals.flatMap (leBytes 8))).word seg).toNat,
        v < 256 ^ 8 := by
      intro v member
      obtain ⟨seg, -, rfl⟩ := mem_map.mp member
      exact UInt64.toNat_lt _
    rw [bytes] at words
    have same := leBytes_flatMap_inj (by simp [count]) below below' words.symm
    rw [same, forall₂_map_right_iff, forall₂_same] at each
    exact ⟨len, fun seg bound => parseWord_eq_ok.mp (each seg (mem_range.mpr bound))⟩
  · rintro ⟨len, each⟩
    have read : (range 4).mapM (parseWord s) = .ok ((range 4).map fun seg => (h.word seg).toNat) :=
      mapM_eq_ok_map fun seg member => parseWord_eq_ok.mpr (each seg (mem_range.mp member))
    refine ⟨len, _, read, ?_⟩
    rw [words, ofBytes_self]
    rfl

theorem mem_segments (len : s.length = 64) {c : UInt8} : c ∈ s ↔ ∃ seg < 4, c ∈ segment s seg := by
  conv_lhs => rw [← segments_join len]
  simp only [mem_flatMap, mem_range]

theorem exists_parseHash : (∃ h, parseHash s = .ok h) ↔ s.length = 64 ∧ ∀ c ∈ s, (unhex c).isSome = true := by
  constructor
  · rintro ⟨h, read⟩
    obtain ⟨len, words⟩ := parseHash_eq_ok.mp read
    refine ⟨len, fun c member => ?_⟩
    obtain ⟨seg, bound, inside⟩ := (mem_segments len).mp member
    obtain ⟨ds, spells, -⟩ := (parseUint_word (segment_length len bound)).mp (words seg bound)
    exact exists_spells.mp ⟨ds, spells⟩ c inside
  · rintro ⟨len, digits⟩
    have each : ∀ seg ∈ range 4, ∃ v, parseWord s seg = .ok v ∧ True := by
      intro seg member
      have bound := mem_range.mp member
      obtain ⟨ds, spells⟩ := exists_spells.mpr fun c inside => digits c ((mem_segments len).mpr ⟨seg, bound, inside⟩)
      exact ⟨_, parseWord_eq_ok.mpr ((parseUint_word (segment_length len bound)).mpr ⟨ds, spells, rfl⟩), trivial⟩
    obtain ⟨vals, read, -⟩ := exists_mapM_ok each
    refine ⟨ofBytes (vals.flatMap (leBytes 8)), ?_⟩
    rw [parseHash, require_true len, read]
    rfl

theorem formatHash_parseHash {h : Hash} (read : parseHash s = .ok h) : formatHash h = s.map lowerByte := by
  obtain ⟨len, words⟩ := parseHash_eq_ok.mp read
  have texts : ∀ seg ∈ range 4, padWord (appendUint (h.word seg) 16) = (segment s seg).map lowerByte := by
    intro seg member
    have bound := mem_range.mp member
    obtain ⟨ds, spells, value⟩ := (parseUint_word (segment_length len bound)).mp (words seg bound)
    exact padWord_spells (segment_length len bound) spells value
  rw [formatHash, flatMap_congr texts, ← map_flatMap, segments_join len]

def nibbles (b : UInt8) : List Nat := [b.toNat / 16, b.toNat % 16]

theorem lowDigit_spec : ∀ n < 16, unhex (lowDigit n) = some n ∧ lowerByte (lowDigit n) = lowDigit n := by decide

theorem nibbles_lt (b : UInt8) : b.toNat / 16 < 16 ∧ b.toNat % 16 < 16 := by
  have := b.toNat_lt
  omega

theorem encode_spells (bs : Bytes) : Spells (encode bs) (bs.flatMap nibbles) ∧ (encode bs).map lowerByte = encode bs := by
  induction bs with
  | nil => exact ⟨.nil, rfl⟩
  | cons b bs ih =>
    obtain ⟨high, highCase⟩ := lowDigit_spec _ (nibbles_lt b).1
    obtain ⟨low, lowCase⟩ := lowDigit_spec _ (nibbles_lt b).2
    refine ⟨.cons high (.cons low ih.1), ?_⟩
    rw [encode, flatMap_cons, ← encode, map_append, ih.2, encodeByte, map_cons, map_cons, map_nil, highCase, lowCase]

theorem encode_length (bs : Bytes) : (encode bs).length = 2 * bs.length := by
  induction bs with
  | nil => rfl
  | cons b bs ih =>
    rw [encode, flatMap_cons, ← encode, length_append, ih, length_cons, encodeByte]
    simp only [length_cons, length_nil]
    omega

theorem ofDigits_nibbles (bs : Bytes) : ofDigits 16 (bs.reverse.flatMap nibbles) = leNat bs := by
  induction bs with
  | nil => rfl
  | cons b bs ih =>
    have two : ∀ xs : List Nat, xs ++ nibbles b = xs ++ [b.toNat / 16] ++ [b.toNat % 16] := by simp [nibbles]
    rw [reverse_cons, flatMap_append, flatMap_singleton, two, ofDigits_append, ofDigits_append, ih, leNat]
    omega

theorem formatHash_eq_encode (h : Hash) :
    formatHash h = (range 4).flatMap fun seg => encode ((h.bytes.drop (seg * 8)).take 8).reverse := by
  refine flatMap_congr fun seg member => ?_
  obtain ⟨size, value⟩ := h.word_bytes (mem_range.mp member)
  obtain ⟨spells, lower⟩ := encode_spells ((h.bytes.drop (seg * 8)).take 8).reverse
  have len : (encode ((h.bytes.drop (seg * 8)).take 8).reverse).length = 16 := by
    rw [encode_length, length_reverse, size]
  rw [padWord_spells len spells, lower]
  rw [ofDigits_nibbles, value]

def objectKey (kind name : Bytes) : Bytes :=
  if name.length ≤ 4 then kind ++ 47 :: name
  else kind ++ 47 :: (name.take 2 ++ 47 :: ((name.drop 2).take 2 ++ 47 :: name.drop 4))

/-- The name that a walk over the objects of a kind gives for a key, if any: the key without its kind and its slashes. -/
def listedName (kind key : Bytes) : Option Bytes :=
  let hash := (key.drop (kind.length + 1)).filter (· ≠ 47)
  if hash.length ≠ 64 then none
  else match decode hash with
    | none => none
    | some _ => some hash

theorem decode_isSome : (decode s).isSome = true ↔ s.length % 2 = 0 ∧ ∀ c ∈ s, (unhex c).isSome = true := by
  induction s using decode.induct with
  | case1 => simp [decode]
  | case2 c => simp [decode]
  | case3 a b s high low highDigit lowDigit ih =>
    have even : (s.length + 1 + 1) % 2 = s.length % 2 := by omega
    simp [decode, highDigit, lowDigit, ih, even]
  | case4 a b s other =>
    have none : decode (a :: b :: s) = none := by
      rw [decode]
      split
      · exact (other _ _ ‹_› ‹_›).elim
      · rfl
    simp only [none, isSome_none, Bool.false_eq_true, false_iff]
    rintro ⟨-, digits⟩
    obtain ⟨high, first⟩ := isSome_iff_exists.mp (digits a (by simp))
    obtain ⟨low, second⟩ := isSome_iff_exists.mp (digits b (by simp))
    exact other high low first second

theorem listedName_eq_some {kind key name : Bytes} : listedName kind key = some name ↔
    (key.drop (kind.length + 1)).filter (· ≠ 47) = name ∧ name.length = 64 ∧ ∀ c ∈ name, (unhex c).isSome = true := by
  rw [listedName]
  generalize (key.drop (kind.length + 1)).filter (· ≠ 47) = hash
  by_cases len : hash.length = 64
  · rw [if_neg (not_not.mpr len)]
    have readable := decode_isSome (s := hash)
    constructor
    · intro listed
      split at listed
      · cases listed
      · cases listed
        exact ⟨rfl, len, (readable.mp (by simp_all)).2⟩
    · rintro ⟨rfl, -, digits⟩
      obtain ⟨bytes, read⟩ := isSome_iff_exists.mp (readable.mpr ⟨by rw [len], digits⟩)
      rw [read]
  · rw [if_pos len]
    constructor
    · exact nofun
    · rintro ⟨rfl, same, -⟩
      exact absurd same len

theorem formatHash_digits (h : Hash) : ∀ c ∈ formatHash h, (unhex c).isSome = true :=
  (exists_parseHash.mp ⟨h, parseHash_formatHash h⟩).2

theorem listedName_objectKey (kind : Bytes) (h : Hash) :
    listedName kind (objectKey kind (formatHash h)) = some (formatHash h) := by
  have len := formatHash_length h
  have digits := formatHash_digits h
  refine listedName_eq_some.mpr ⟨?_, len, digits⟩
  have plain : ∀ s : Bytes, (∀ c ∈ s, c ∈ formatHash h) → s.filter (· ≠ 47) = s := by
    intro s sub
    rw [filter_eq_self]
    intro c member
    have digit := digits c (sub c member)
    simp only [ne_eq, decide_not, Bool.not_eq_true', decide_eq_false_iff_not]
    rintro rfl
    exact absurd digit (by decide)
  rw [objectKey, if_neg (by omega), ← singleton_append, ← append_assoc, drop_left' (by simp)]
  calc filter (· ≠ 47) ((formatHash h).take 2 ++ 47 :: (((formatHash h).drop 2).take 2 ++ 47 :: (formatHash h).drop 4))
      = (formatHash h).take 2 ++ (((formatHash h).drop 2).take 2 ++ (formatHash h).drop 4) := by
        rw [filter_append, filter_cons_of_neg (by simp), filter_append, filter_cons_of_neg (by simp),
          plain _ fun c => mem_of_mem_take, plain _ fun c member => mem_of_mem_drop (mem_of_mem_take member),
          plain _ fun c => mem_of_mem_drop]
    _ = formatHash h := by
        have tail : ((formatHash h).drop 2).take 2 ++ (formatHash h).drop 4 = (formatHash h).drop 2 := by
          rw [← drop_drop (i := 2) (j := 2), take_append_drop]
        rw [tail, take_append_drop]

/-- Hashes and their texts: every hash is read back from its text, exactly the texts of sixty-four digits are read, and
the text of what is read is the lower case. Words are written from their last byte on. The objects of different hashes
have names of their own, and every name that is listed is that of one hash. -/
theorem hash_text_canonical :
    (∀ h, parseHash (formatHash h) = .ok h) ∧
    (∀ s, (∃ h, parseHash s = .ok h) ↔ s.length = 64 ∧ ∀ c ∈ s, (unhex c).isSome = true) ∧
    (∀ s h, parseHash s = .ok h → formatHash h = s.map lowerByte) ∧
    (∀ h, formatHash h = (range 4).flatMap fun seg => encode ((h.bytes.drop (seg * 8)).take 8).reverse) ∧
    (∀ a b, formatHash a = formatHash b → a = b) ∧
    (∀ kind h, listedName kind (objectKey kind (formatHash h)) = some (formatHash h)) ∧
    (∀ kind key name, listedName kind key = some name → ∃! h, parseHash name = .ok h) := by
  refine ⟨parseHash_formatHash, fun s => exists_parseHash, fun s h => formatHash_parseHash, formatHash_eq_encode,
    fun a b => formatHash_inj, listedName_objectKey, fun kind key name listed => ?_⟩
  obtain ⟨h, read⟩ := exists_parseHash.mpr (listedName_eq_some.mp listed).2
  refine ⟨h, read, fun other read' => ?_⟩
  exact Except.ok.inj (read'.symm.trans read)

/-- Sixty-four letters in upper case. -/
theorem upper_case_read : ∃ h, parseHash (replicate 64 65) = .ok h ∧ formatHash h = replicate 64 97 := by
  obtain ⟨-, accepted, lower, -⟩ := hash_text_canonical
  obtain ⟨h, read⟩ := (accepted (replicate 64 65)).mpr
    ⟨rfl, fun c member => eq_of_mem_replicate member ▸ by decide⟩
  exact ⟨h, read, lower _ h read⟩

end Xet
