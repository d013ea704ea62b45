import Mathlib.Data.List.TakeDrop
import Xet.Lib.Wire

/-! The format constants, hashes and their text form. The keyed BLAKE3 of the build is not
part of the repository, so it is a parameter of everything below. -/
namespace Xet
open Wire List

def minChunkSize : Nat := 8192
def maxChunkSize : Nat := 131072
def gearhashMask : UInt64 := 0xFFFF000000000000
def maxChunksPerXorb : Nat := 8192
def maxXorbSize : Nat := 67108864

/-- A 32-byte hash. File, chunk, xorb and verification hashes share this carrier. -/
@[ext] structure Hash where
  bytes : Bytes
  size : bytes.length = 32
  deriving DecidableEq

abbrev FileHash := Hash
abbrev ChunkHash := Hash
abbrev XorbHash := Hash
abbrev VerificationHash := Hash

def Hash.ofBytes (b : Bytes) : Hash := ⟨b.takeD 32 0, List.takeD_length 32 b 0⟩

def Hash.zero : Hash := ⟨List.replicate 32 0, rfl⟩

theorem Hash.ofBytes_bytes (h : Hash) (rest : Bytes) : Hash.ofBytes (h.bytes ++ rest) = h := by
  apply Hash.ext
  exact takeD_left' h.size

theorem Hash.ofBytes_self (h : Hash) : Hash.ofBytes h.bytes = h := by
  have whole := Hash.ofBytes_bytes h []
  rwa [append_nil] at whole

theorem Hash.bytes_ofBytes {b : Bytes} (len : b.length = 32) : (Hash.ofBytes b).bytes = b :=
  congrArg Hash.bytes (Hash.ofBytes_self ⟨b, len⟩)

def dataKey : Hash := ⟨[0x66, 0x97, 0xf5, 0x77, 0x5b, 0x95, 0x50, 0xde,
  0x31, 0x35, 0xcb, 0xac, 0xa5, 0x97, 0x18, 0x1c, 0x9d, 0xe4, 0x21, 0x10, 0x9b, 0xeb, 0x2b, 0x58,
  0xb4, 0xd0, 0xb0, 0x4b, 0x93, 0xad, 0xf2, 0x29], rfl⟩

def internalNodeKey : Hash := ⟨[0x01, 0x7e, 0xc5, 0xc7, 0xa5, 0x47, 0x29, 0x96,
  0xfd, 0x94, 0x66, 0x66, 0xb4, 0x8a, 0x02, 0xe6, 0x5d, 0xdd, 0x53, 0x6f, 0x37, 0xc7, 0x6d, 0xd2,
  0xf8, 0x63, 0x52, 0xe6, 0x4a, 0x53, 0x71, 0x3f], rfl⟩

def zeroKey : Hash := Hash.zero

abbrev Keyed := Hash → Bytes → Hash

section
variable (blake3 : Keyed)

def computeChunkHash (data : Bytes) : ChunkHash := blake3 dataKey data
def computeInternalNodeHash (data : Bytes) : Hash := blake3 internalNodeKey data
def computeFileHash (data : Bytes) : Hash := blake3 zeroKey data

end

def Hash.word (h : Hash) (seg : Nat) : UInt64 := uint64 (h.bytes.drop (seg * 8))

/-- Right-align `s` in sixteen `0` digits. -/
def padWord (s : Bytes) : Bytes := List.replicate (16 - s.length) 48 ++ s

def formatHash (h : Hash) : Bytes :=
  (List.range 4).flatMap fun seg => padWord (appendUint (h.word seg) 16)

inductive HashError where
  | invalidLength (n : Nat)
  | invalidSegment (seg : Nat)
  deriving DecidableEq, Repr

def parseWord (s : Bytes) (seg : Nat) : Except HashError Nat :=
  match parseUint ((s.drop (seg * 16)).take 16) 16 64 with
  | some val => .ok val
  | none => .error (.invalidSegment seg)

def parseHash (s : Bytes) : Except HashError Hash := do
  require (s.length = 64) (.invalidLength s.length)
  let vals ← (List.range 4).mapM (parseWord s)
  return Hash.ofBytes (vals.flatMap (leBytes 8))

theorem word_digits_length (x : UInt64) : (digits 16 64 x.toNat).length ≤ 16 :=
  digits_length_le (by decide) (by decide) x.toNat_lt

theorem exists_padWord (x : UInt64) :
    ∃ ds, ds.length = 16 ∧ (∀ d ∈ ds, d < 16) ∧ ofDigits 16 ds = x.toNat ∧ padWord (appendUint x 16) = ds.map digitByte := by
  have short := word_digits_length x
  have fits : x.toNat < 16 ^ 64 := Nat.lt_trans x.toNat_lt (by decide)
  refine ⟨List.replicate (16 - (digits 16 64 x.toNat).length) 0 ++ digits 16 64 x.toNat, ?_, ?_, ?_, ?_⟩
  · rw [length_append, length_replicate]
    omega
  · intro d member
    rcases mem_append.mp member with zero | digit
    · rw [eq_of_mem_replicate zero]
      decide
    · exact digits_lt (by decide) d digit
  · rw [ofDigits_zeros, ofDigits_digits (by decide) fits]
  · rw [padWord, appendUint, length_map, map_append, map_replicate]
    rfl

theorem padWord_length (x : UInt64) : (padWord (appendUint x 16)).length = 16 := by
  obtain ⟨ds, len, -, -, text⟩ := exists_padWord x
  rw [text, length_map, len]

theorem formatHash_length (h : Hash) : (formatHash h).length = 64 := by
  simp [formatHash, range_succ, padWord_length]

theorem parse_padWord (x : UInt64) : parseUint (padWord (appendUint x 16)) 16 64 = some x.toNat := by
  obtain ⟨ds, len, below, value, text⟩ := exists_padWord x
  have nonempty : ds ≠ [] := by
    rintro rfl
    cases len
  rw [text, parseUint_digits (by decide) nonempty below (by rw [value]; exact x.toNat_lt), value]

theorem parseWord_formatHash (h : Hash) {seg : Nat} (bound : seg < 4) :
    parseWord (formatHash h) seg = .ok (h.word seg).toNat := by
  have slice : ((formatHash h).drop (seg * 16)).take 16 = padWord (appendUint (h.word seg) 16) := by
    have l := fun s => padWord_length (h.word s)
    simp only [formatHash, range_succ, range_zero, nil_append, flatMap_append,
      flatMap_cons, flatMap_nil, append_nil, append_assoc]
    interval_cases seg
    · rw [drop_zero, take_left' (l 0)]
    · rw [drop_left' (l 0), take_left' (l 1)]
    · rw [show 2 * 16 = 16 + 16 from rfl, ← drop_drop, drop_left' (l 0), drop_left' (l 1), take_left' (l 2)]
    · rw [show 3 * 16 = 16 + (16 + 16) from rfl, ← drop_drop, ← drop_drop,
        drop_left' (l 0), drop_left' (l 1), drop_left' (l 2),
        take_of_length_le (by rw [l 3])]
  rw [parseWord, slice, parse_padWord]

theorem Hash.word_bytes (h : Hash) {seg : Nat} (bound : seg < 4) : ((h.bytes.drop (seg * 8)).take 8).length = 8 ∧
    (h.word seg).toNat = leNat ((h.bytes.drop (seg * 8)).take 8) := by
  have len : ((h.bytes.drop (seg * 8)).take 8).length = 8 := by
    simp only [length_take, length_drop, h.size]
    omega
  have small := leNat_lt ((h.bytes.drop (seg * 8)).take 8)
  rw [len] at small
  refine ⟨len, ?_⟩
  rw [Hash.word, uint64, UInt64.toNat_ofNat']
  exact Nat.mod_eq_of_lt small

theorem words_bytes (h : Hash) :
    ([(h.word 0).toNat, (h.word 1).toNat, (h.word 2).toNat, (h.word 3).toNat].flatMap (leBytes 8)) =
      h.bytes := by
  have piece : ∀ seg < 4, leBytes 8 (h.word seg).toNat = (h.bytes.drop (seg * 8)).take 8 := by
    intro seg bound
    obtain ⟨len, value⟩ := h.word_bytes bound
    have back := leBytes_leNat ((h.bytes.drop (seg * 8)).take 8)
    rw [len] at back
    rw [value, back]
  simp only [flatMap_cons, flatMap_nil, piece 0 (by decide), piece 1 (by decide),
    piece 2 (by decide), piece 3 (by decide), append_nil]
  have last : (h.bytes.drop (3 * 8)).take 8 = h.bytes.drop (3 * 8) :=
    take_of_length_le (by simp only [length_drop, h.size]; decide)
  have join : ∀ k, (h.bytes.drop (k * 8)).take 8 ++ h.bytes.drop ((k + 1) * 8) =
      h.bytes.drop (k * 8) := by
    intro k
    rw [show (k + 1) * 8 = k * 8 + 8 by omega, ← drop_drop]
    exact take_append_drop 8 _
  rw [last, join 2, join 1, join 0]
  rfl

theorem parseHash_formatHash (h : Hash) : parseHash (formatHash h) = .ok h := by
  have words : (List.range 4).mapM (parseWord (formatHash h)) =
      .ok [(h.word 0).toNat, (h.word 1).toNat, (h.word 2).toNat, (h.word 3).toNat] := by
    simp only [range_succ, range_zero, nil_append, cons_append, mapM_cons,
      mapM_nil, parseWord_formatHash h (show 0 < 4 by decide),
      parseWord_formatHash h (show 1 < 4 by decide), parseWord_formatHash h (show 2 < 4 by decide),
      parseWord_formatHash h (show 3 < 4 by decide)]
    rfl
  rw [parseHash, require_true (formatHash_length h), words]
  simp only [ok_bind, words_bytes, Hash.ofBytes_self]
  rfl

theorem formatHash_inj {a b : Hash} (h : formatHash a = formatHash b) : a = b := by
  have := (parseHash_formatHash a).symm.trans ((congrArg parseHash h).trans (parseHash_formatHash b))
  exact Except.ok.inj this

end Xet
