import Xet.Lib.Segments
import Xet.Xorb.Chunk

/-! The footer of an xorb and its three readers: the forward check of `validateWithFooter`,
the backward reader of `ReadChunkOffsets` and the header scan that replaces it.
`Footer` is the record all of them agree on: the accepted footers are exactly its encodings. -/
namespace Xet.Xorb
open Wire List Hash

/- XETBLOB, XBLBHSH and XBLBBND. -/
def xorbIdentifier : Bytes := [88, 69, 84, 66, 76, 79, 66]
def hashSectionIdent : Bytes := [88, 66, 76, 66, 72, 83, 72]
def boundarySectionIdent : Bytes := [88, 66, 76, 66, 66, 78, 68]

def minFooterSize : Nat := 96

inductive FooterError where
  | version (got : UInt8)
  | readFixed (e : ReadError)
  | xorbHash (claimed computed : XorbHash)
  | hashIdent (got : Bytes)
  | hashVersion (got : UInt8)
  | chunkCountExceeds (count : Nat)
  | readRemaining (e : ReadError)
  | length (expected got : Nat)
  | chunkCountMismatch (footer stream : Nat)
  | chunkHash (index : Nat) (claimed computed : ChunkHash)
  | boundaryIdent (got : Bytes)
  | boundaryVersion (got : UInt8)
  | boundaryCount
  | trailerCount
  | reserved
  deriving DecidableEq

def slice (b : Bytes) (p n : Nat) : Bytes := (b.drop p).take n

def checkChunkHashes (remaining : Bytes) : Nat → List ChunkHash → Except FooterError Unit
  | _, [] => .ok ()
  | i, v :: rest => do
    let claimed := Hash.ofBytes (slice remaining (i * 32) 32)
    require (v = claimed) (.chunkHash i claimed v)
    checkChunkHashes remaining (i + 1) rest

/-- Read a footer behind its eight header bytes and check it against the decoded chunks.
The result is what is left of the reader. -/
def validateWithFooter (header : Bytes) (xorbHash : XorbHash) (chunkHashes : List ChunkHash)
    (r : Bytes) : Except FooterError Bytes := do
  require (header.getD 7 0 = 1) (.version (header.getD 7 0))
  let (fixed, r) ← (readFull 44 r).mapError .readFixed
  let footerHash := Hash.ofBytes (slice fixed 0 32)
  require (footerHash = xorbHash) (.xorbHash footerHash xorbHash)
  require (slice fixed 32 7 = hashSectionIdent) (.hashIdent (slice fixed 32 7))
  require (slice fixed 39 1 = [0]) (.hashVersion (fixed.getD 39 0))
  let numChunks := leNat (slice fixed 40 4)
  require (numChunks ≤ maxChunksPerXorb) (.chunkCountExceeds numChunks)
  let remainingSize := numChunks * 40 + 44
  let (remaining, r) ← (readFull remainingSize r).mapError .readRemaining
  let footerLen := leNat (slice remaining (remainingSize - 4) 4)
  let expectedLen := 8 + 44 + remainingSize - 4
  require (footerLen = expectedLen) (.length expectedLen footerLen)
  require (numChunks = chunkHashes.length) (.chunkCountMismatch numChunks chunkHashes.length)
  checkChunkHashes remaining 0 chunkHashes
  let bOff := numChunks * 32
  require (slice remaining bOff 7 = boundarySectionIdent) (.boundaryIdent (slice remaining bOff 7))
  require (slice remaining (bOff + 7) 1 = [1]) (.boundaryVersion (remaining.getD (bOff + 7) 0))
  require (leNat (slice remaining (bOff + 8) 4) = numChunks) .boundaryCount
  -- The packed and unpacked offsets between here and the trailer are skipped, not compared.
  let trailerOff := bOff + 12 + numChunks * 4 + numChunks * 4
  require (leNat (slice remaining trailerOff 4) = numChunks) .trailerCount
  require (slice remaining (trailerOff + 16) 12 = List.replicate 12 0) .reserved
  return r

inductive OffsetsError where
  | noFooter
  | readHeader (e : ReadError)
  | chunkCount
  deriving DecidableEq

def words32 : Nat → Bytes → List UInt32
  | 0, _ => []
  | n + 1, b => uint32 b :: words32 n (b.drop 4)

/-- The start and the boundary table of a footer that the end of `b` has the shape of. -/
def footerTable (b : Bytes) : Except OffsetsError (Nat × List Nat) := do
  let size := b.length
  require (minFooterSize ≤ size) .noFooter
  let footerLen := leNat (slice b (size - 4) 4)
  let total := footerLen + 4
  require (minFooterSize - 4 ≤ footerLen ∧ total ≤ size ∧ (footerLen - 92) % 40 = 0) .noFooter
  let numChunks := (footerLen - 92) / 40
  require (numChunks ≤ maxChunksPerXorb) .noFooter
  let footerStart := size - total
  let buf := b.drop footerStart
  require (slice buf 0 7 = xorbIdentifier ∧ slice buf 7 1 = [1]) .noFooter
  require (slice buf 40 7 = hashSectionIdent ∧ slice buf 47 1 = [0]) .noFooter
  require (leNat (slice buf 48 4) = numChunks) .noFooter
  let bOff := 52 + numChunks * 32
  require (slice buf bOff 7 = boundarySectionIdent ∧ slice buf (bOff + 7) 1 = [1]) .noFooter
  require (leNat (slice buf (bOff + 8) 4) = numChunks) .noFooter
  return (footerStart, (words32 numChunks (buf.drop (bOff + 12))).map UInt32.toNat)

/-- Every entry is at least one chunk header past the one before it. -/
def stepsByHeader : Nat → List Nat → Bool
  | _, [] => true
  | prev, off :: rest => decide (prev + 8 ≤ off) && stepsByHeader off rest

/-- What the reader asks of a table: steps of a header at least, and the last entry at the footer. -/
def Plausible (footerStart : Nat) (table : List Nat) : Prop :=
  stepsByHeader 0 table = true ∧ (table ≠ [] → table.getLast? = some footerStart)

instance (footerStart : Nat) (table : List Nat) : Decidable (Plausible footerStart table) :=
  inferInstanceAs (Decidable (_ ∧ _))

def readChunkOffsets (b : Bytes) : Except OffsetsError (List Nat) := do
  let (footerStart, table) ← footerTable b
  require (Plausible footerStart table) .noFooter
  return table

/-- The loop of `ScanChunkOffsets`, with `count` offsets found so far. Every turn consumes a header. -/
def scanLoop : Nat → Nat → Nat → Bytes → Except OffsetsError (List Nat)
  | 0, _, _, _ => .ok []
  | fuel + 1, count, offset, r =>
    match readFull chunkHeaderSize r with
    | .error .eof => .ok []
    | .error e => .error (.readHeader e)
    | .ok (header, r) =>
      if header.take 7 = xorbIdentifier then .ok []
      else do
        require (count < maxChunksPerXorb) .chunkCount
        let compressedSize := leNat (slice header 1 3)
        let offset := offset + (8 + compressedSize)
        let rest ← scanLoop fuel (count + 1) offset (r.drop compressedSize)
        return offset :: rest

def scanChunkOffsets (b : Bytes) : Except OffsetsError (List Nat) := scanLoop (b.length + 1) 0 0 b

/-- The offsets of a stored xorb: its footer table, or a scan when it has no usable footer. -/
def readXorbChunkOffsets (b : Bytes) : Except OffsetsError (List Nat) :=
  match readChunkOffsets b with
  | .error .noFooter => scanChunkOffsets b
  | result => result

inductive RangeError where
  | invalid (chunkStart chunkEnd : Nat)
  | outOfBounds (chunkStart chunkEnd count : Nat)
  deriving DecidableEq

/-- The inclusive byte range of chunks `chunkStart` up to `chunkEnd`. -/
def chunkDataRangeFromOffsets (offsets : List Nat) (chunkStart chunkEnd : Nat) :
    Except RangeError (Int × Int) := do
  require (chunkStart < chunkEnd) (.invalid chunkStart chunkEnd)
  require (chunkEnd ≤ offsets.length) (.outOfBounds chunkStart chunkEnd offsets.length)
  let startByte := if 0 < chunkStart then offsets.getD (chunkStart - 1) 0 else 0
  return (startByte, (offsets.getD (chunkEnd - 1) 0 : Int) - 1)

theorem slice_eq {x a b c : Bytes} {p n : Nat} (shape : x = a ++ (b ++ c)) (start : a.length = p)
    (len : b.length = n) : slice x p n = b := by
  rw [slice, shape, drop_left' start, take_left' len]

theorem drop_field {x field tail : Bytes} {p n q : Nat} (value : slice x p n = field)
    (next : p + n = q) (rest : x.drop q = tail) : x.drop p = field ++ tail := by
  rw [← value, ← rest, ← next, slice, ← drop_drop, take_append_drop]

theorem slice_length {x : Bytes} {p n : Nat} (within : p + n ≤ x.length) : (slice x p n).length = n := by
  rw [slice, length_take, length_drop]
  omega

@[simp] theorem words32_length (n : Nat) (b : Bytes) : (words32 n b).length = n := by
  induction n generalizing b with
  | zero => rfl
  | succ n ih => simp only [words32, length_cons, ih]

theorem words32_flatMap (ws : List UInt32) (rest : Bytes) : words32 ws.length (ws.flatMap putUint32 ++ rest) = ws := by
  induction ws with
  | nil => rfl
  | cons w ws ih =>
    rw [flatMap_cons, append_assoc, length_cons, words32, uint32_putUint32, drop_left' (putUint32_length w), ih]

theorem flatMap_words32 {n : Nat} {b : Bytes} (len : b.length = 4 * n) : (words32 n b).flatMap putUint32 = b := by
  induction n generalizing b with
  | zero => exact (eq_nil_of_length_eq_zero (by omega)).symm
  | succ n ih =>
    have head : putUint32 (uint32 b) = b.take 4 := by
      have size : (b.take 4).length = 4 := by rw [length_take]; omega
      have small := leNat_lt (b.take 4)
      rw [size] at small
      have back := leBytes_leNat (b.take 4)
      rw [size] at back
      rw [putUint32, uint32, UInt32.toNat_ofNat', Nat.mod_eq_of_lt (show _ < 2 ^ 32 from small), back]
    have rest : (b.drop 4).length = 4 * n := by rw [length_drop]; omega
    rw [words32, flatMap_cons, ih rest, head, take_append_drop]

theorem putUint32s_length (ws : List UInt32) : (ws.flatMap putUint32).length = 4 * ws.length := by
  simp [length_flatMap, Nat.mul_comm]

theorem hashBytes_length (hs : List Hash) : (hs.flatMap Hash.bytes).length = 32 * hs.length := by
  have size : (fun h : Hash => h.bytes.length) = fun _ => 32 := funext fun h => h.size
  simp [length_flatMap, size, Nat.mul_comm]

structure Nonce where
  bytes : Bytes
  size : bytes.length = 4

/-- The content of a footer: as many offsets of either kind as chunk hashes. The two section
offsets and the nonce are not interpreted by any reader. -/
structure Footer where
  hash : XorbHash
  hashes : List ChunkHash
  packed : List UInt32
  unpacked : List UInt32
  hashOffset : UInt32
  boundaryOffset : UInt32
  nonce : Nonce
  packed_length : packed.length = hashes.length
  unpacked_length : unpacked.length = hashes.length

namespace Footer
variable (f : Footer)

def count : Bytes := leBytes 4 f.hashes.length

def fixed : Bytes := f.hash.bytes ++ (hashSectionIdent ++ ([0] ++ f.count))

def boundary : Bytes :=
  boundarySectionIdent ++ ([1] ++ (f.count ++ (f.packed.flatMap putUint32 ++
    f.unpacked.flatMap putUint32)))

def trailer : Bytes :=
  f.count ++ (putUint32 f.hashOffset ++ (putUint32 f.boundaryOffset ++
    (f.nonce.bytes ++ List.replicate 12 0)))

def remaining : Bytes :=
  f.hashes.flatMap Hash.bytes ++ (f.boundary ++ (f.trailer ++ leBytes 4 (f.hashes.length * 40 + 92)))

def encode : Bytes := (xorbIdentifier ++ [1]) ++ (f.fixed ++ f.remaining)

@[simp] theorem fixed_length : f.fixed.length = 44 := by
  simp [fixed, count, f.hash.size, hashSectionIdent]

@[simp] theorem boundary_length : f.boundary.length = 12 + 8 * f.hashes.length := by
  simp only [boundary, count, length_append, leBytes_length, putUint32s_length, f.packed_length, f.unpacked_length]
  simp only [boundarySectionIdent, length_cons, length_nil]
  omega

@[simp] theorem trailer_length : f.trailer.length = 28 := by
  simp [trailer, count, f.nonce.size]

@[simp] theorem remaining_length : f.remaining.length = f.hashes.length * 40 + 44 := by
  simp only [remaining, length_append, hashBytes_length, boundary_length, trailer_length, leBytes_length]
  omega

@[simp] theorem encode_length : f.encode.length = f.hashes.length * 40 + 96 := by
  simp only [encode, length_append, fixed_length, remaining_length]
  simp only [xorbIdentifier, length_cons, length_nil]
  omega

theorem leNat_count (small : f.hashes.length ≤ maxChunksPerXorb) : leNat f.count = f.hashes.length :=
  leNat_leBytes_of_lt (Nat.lt_of_le_of_lt small (by decide))

/-! Where the readers look. -/

theorem slice_ident : slice f.fixed 32 7 = hashSectionIdent := slice_eq (c := [0] ++ f.count) rfl f.hash.size rfl

theorem slice_version : slice f.fixed 39 1 = [0] :=
  slice_eq (a := f.hash.bytes ++ hashSectionIdent) (c := f.count) (by simp [fixed])
    (by simp [f.hash.size, hashSectionIdent]) rfl

theorem slice_count : slice f.fixed 40 4 = f.count :=
  slice_eq (a := f.hash.bytes ++ (hashSectionIdent ++ [0])) (c := []) (by simp [fixed])
    (by simp [f.hash.size, hashSectionIdent]) (leBytes_length 4 _)

theorem leNat_length_field (small : f.hashes.length ≤ maxChunksPerXorb) :
    leNat (slice f.remaining (f.hashes.length * 40 + 40) 4) = f.hashes.length * 40 + 92 := by
  have field : slice f.remaining (f.hashes.length * 40 + 40) 4 = leBytes 4 (f.hashes.length * 40 + 92) := by
    apply slice_eq (a := f.hashes.flatMap Hash.bytes ++ (f.boundary ++ f.trailer)) (c := [])
    · simp [remaining]
    · simp only [length_append, hashBytes_length, boundary_length, trailer_length]
      omega
    · simp
  have fits : maxChunksPerXorb * 40 + 92 < 256 ^ 4 := by decide
  rw [field]
  exact leNat_leBytes_of_lt (by omega)

theorem slice_boundary {p n : Nat} {a b c : Bytes} (shape : f.boundary = a ++ (b ++ c))
    (start : a.length = p) (len : b.length = n) : slice f.remaining (f.hashes.length * 32 + p) n = b := by
  apply slice_eq (a := f.hashes.flatMap Hash.bytes ++ a)
    (c := c ++ (f.trailer ++ leBytes 4 (f.hashes.length * 40 + 92)))
  · simp [remaining, shape]
  · simp only [length_append, hashBytes_length, start]
    omega
  · exact len

theorem slice_boundary_ident : slice f.remaining (f.hashes.length * 32) 7 = boundarySectionIdent :=
  f.slice_boundary (a := []) rfl rfl rfl

theorem slice_boundary_version : slice f.remaining (f.hashes.length * 32 + 7) 1 = [1] :=
  f.slice_boundary (a := boundarySectionIdent) rfl rfl rfl

theorem slice_boundary_count : slice f.remaining (f.hashes.length * 32 + 8) 4 = f.count :=
  f.slice_boundary (a := boundarySectionIdent ++ [1]) (by simp [boundary]; rfl) rfl (leBytes_length 4 _)

theorem slice_trailer {p n : Nat} {a b c : Bytes} (shape : f.trailer = a ++ (b ++ c))
    (start : a.length = p) (len : b.length = n) :
    slice f.remaining (f.hashes.length * 32 + 12 + f.hashes.length * 4 + f.hashes.length * 4 + p) n =
      b := by
  apply slice_eq (a := f.hashes.flatMap Hash.bytes ++ (f.boundary ++ a))
    (c := c ++ leBytes 4 (f.hashes.length * 40 + 92))
  · simp [remaining, shape]
  · simp only [length_append, hashBytes_length, boundary_length, start]
    omega
  · exact len

end Footer

theorem checkChunkHashes_eq_ok {remaining : Bytes} {i : Nat} {hashes : List ChunkHash}
    (within : (i + hashes.length) * 32 ≤ remaining.length) :
    checkChunkHashes remaining i hashes = .ok () ↔
      slice remaining (i * 32) (32 * hashes.length) = hashes.flatMap Hash.bytes := by
  induction hashes generalizing i with
  | nil => simp [checkChunkHashes, slice]
  | cons v rest ih =>
    have len : (slice remaining (i * 32) 32).length = 32 := by
      apply slice_length
      simp only [length_cons] at within
      omega
    have bytes : ∀ h : Hash, h = ofBytes (slice remaining (i * 32) 32) ↔
        slice remaining (i * 32) 32 = h.bytes := by
      intro h
      have whole := ofBytes_bytes ⟨_, len⟩ []
      rw [append_nil] at whole
      rw [whole]
      exact ⟨fun e => by rw [e], fun e => Hash.ext e.symm⟩
    have head : slice remaining (i * 32) (32 * (v :: rest).length) =
        slice remaining (i * 32) 32 ++ slice remaining ((i + 1) * 32) (32 * rest.length) := by
      rw [slice, slice, slice, length_cons, Nat.mul_succ, Nat.add_comm _ 32, take_add, drop_drop, Nat.add_mul, Nat.one_mul]
    simp only [checkChunkHashes, bind_eq_ok, require_eq_ok, exists_const, bytes, flatMap_cons,
      head, ih (i := i + 1) (by simp only [length_cons] at within; omega)]
    constructor
    · rintro ⟨first, others⟩
      rw [first, others]
    · intro whole
      exact append_inj whole (len.trans v.size.symm)

theorem validateWithFooter_encode (f : Footer) (small : f.hashes.length ≤ maxChunksPerXorb)
    (rest : Bytes) :
    validateWithFooter (xorbIdentifier ++ [1]) f.hash f.hashes (f.fixed ++ (f.remaining ++ rest)) =
      .ok rest := by
  have count := f.leNat_count small
  have hash : ofBytes (slice f.fixed 0 32) = f.hash := by
    have bytes : slice f.fixed 0 32 = f.hash.bytes := slice_eq (a := []) rfl rfl f.hash.size
    rw [bytes]
    simpa using ofBytes_bytes f.hash []
  have hashes : checkChunkHashes f.remaining 0 f.hashes = .ok () := by
    rw [checkChunkHashes_eq_ok (by rw [Footer.remaining_length]; omega)]
    exact slice_eq (a := []) rfl rfl (hashBytes_length f.hashes)
  have length : leNat (slice f.remaining (f.hashes.length * 40 + 44 - 4) 4) =
      8 + 44 + (f.hashes.length * 40 + 44) - 4 := by
    rw [show f.hashes.length * 40 + 44 - 4 = f.hashes.length * 40 + 40 by omega, f.leNat_length_field small]
    omega
  have trailer_count : slice f.remaining (f.hashes.length * 32 + 12 + f.hashes.length * 4 +
      f.hashes.length * 4) 4 = f.count :=
    f.slice_trailer (a := []) rfl rfl (leBytes_length 4 _)
  have reserved : slice f.remaining (f.hashes.length * 32 + 12 + f.hashes.length * 4 +
      f.hashes.length * 4 + 16) 12 = List.replicate 12 0 := by
    apply f.slice_trailer (a := f.count ++ (putUint32 f.hashOffset ++ (putUint32 f.boundaryOffset ++
      f.nonce.bytes))) (c := [])
    · simp [Footer.trailer]
    · simp [Footer.count, f.nonce.size]
    · rfl
  simp only [validateWithFooter, readFull_append (Footer.fixed_length f),
    readFull_append (Footer.remaining_length f), Except.mapError, ok_bind, hash, f.slice_ident, f.slice_version,
    f.slice_count, count, length, hashes, f.slice_boundary_ident, f.slice_boundary_version, f.slice_boundary_count,
    trailer_count, reserved, require_true, small]
  rfl

theorem leNat_slice {x : Bytes} {p n : Nat} (within : p + 4 ≤ x.length)
    (value : leNat (slice x p 4) = n) : slice x p 4 = leBytes 4 n := by
  have back := leBytes_leNat (slice x p 4)
  rw [slice_length within, value] at back
  exact back.symm

/-- Every accepted footer is the encoding of a footer record with the decoded hashes. -/
theorem validateWithFooter_ok {header r rest : Bytes} {h : XorbHash} {hashes : List ChunkHash}
    (ident : header.take 7 = xorbIdentifier) (len : header.length = 8)
    (accepted : validateWithFooter header h hashes r = .ok rest) :
    ∃ f : Footer, f.hash = h ∧ f.hashes = hashes ∧ hashes.length ≤ maxChunksPerXorb ∧
      header ++ r = f.encode ++ rest := by
  simp only [validateWithFooter, bind_eq_ok, require_eq_ok, exists_const, mapError_eq_ok] at accepted
  obtain ⟨version, ⟨fixed, r₁⟩, readFixed, sameHash, hashIdent, hashVersion, bound,
    ⟨remaining, r₂⟩, readRemaining, length, count, ⟨⟩, checked, boundaryIdent, boundaryVersion,
    boundaryCount, trailerCount, reserved, last⟩ := accepted
  cases last
  obtain ⟨rfl, fixedLen⟩ := readFull_eq_ok.mp readFixed
  obtain ⟨rfl, remLen⟩ := readFull_eq_ok.mp readRemaining
  simp only at *
  generalize hN : leNat (slice fixed 40 4) = N at *
  have number : slice fixed 40 4 = leBytes 4 N := leNat_slice (by omega) hN
  have hashBytes : slice fixed 0 32 = h.bytes := by
    have size : (slice fixed 0 32).length = 32 := slice_length (by omega)
    have whole := ofBytes_bytes ⟨_, size⟩ []
    rw [append_nil] at whole
    rw [← sameHash, whole]
  have hashSection : slice remaining 0 (32 * N) = hashes.flatMap Hash.bytes := by
    rw [checkChunkHashes_eq_ok (by omega), ← count] at checked
    exact checked
  have trailerLen : (slice remaining (N * 32 + 12 + N * 4 + N * 4 + 12) 4).length = 4 :=
    slice_length (by omega)
  have word : ∀ p, p + 4 ≤ remaining.length →
      slice remaining p 4 = putUint32 (uint32 (slice remaining p 4)) := by
    intro p within
    have one := flatMap_words32 (n := 1) (slice_length within)
    simpa [words32] using one.symm
  let f : Footer :=
    { hash := h, hashes := hashes, packed := words32 N (slice remaining (N * 32 + 12) (4 * N))
      unpacked := words32 N (slice remaining (N * 32 + 12 + N * 4) (4 * N))
      hashOffset := uint32 (slice remaining (N * 32 + 12 + N * 4 + N * 4 + 4) 4)
      boundaryOffset := uint32 (slice remaining (N * 32 + 12 + N * 4 + N * 4 + 8) 4)
      nonce := ⟨slice remaining (N * 32 + 12 + N * 4 + N * 4 + 12) 4, trailerLen⟩
      packed_length := by rw [words32_length, count]
      unpacked_length := by rw [words32_length, count] }
  have fixed_eq : fixed = f.fixed := by
    have fields := drop_field hashBytes rfl (drop_field hashIdent rfl (drop_field hashVersion rfl
      (drop_field number rfl (drop_of_length_le (Nat.le_of_eq fixedLen)))))
    simpa [Footer.fixed, Footer.count, f, count] using fields
  have remaining_eq : remaining = f.remaining := by
    have packed := flatMap_words32 (slice_length (x := remaining) (p := N * 32 + 12) (n := 4 * N) (by omega))
    have unpacked := flatMap_words32 (slice_length (x := remaining) (p := N * 32 + 12 + N * 4) (n := 4 * N) (by omega))
    have lengthField : slice remaining (N * 40 + 44 - 4) 4 = leBytes 4 (N * 40 + 92) :=
      leNat_slice (by omega) (by rw [length]; omega)
    have fields := drop_field hashSection (by omega) (drop_field boundaryIdent (by omega)
      (drop_field boundaryVersion (by omega) (drop_field (leNat_slice (by omega) boundaryCount)
      (by omega) (drop_field packed.symm (by omega) (drop_field unpacked.symm (by omega)
      (drop_field (leNat_slice (by omega) trailerCount) rfl
      (drop_field (word (N * 32 + 12 + N * 4 + N * 4 + 4) (by omega)) rfl
      (drop_field (word (N * 32 + 12 + N * 4 + N * 4 + 8) (by omega)) rfl
      (drop_field (p := N * 32 + 12 + N * 4 + N * 4 + 12) (n := 4) rfl rfl
      (drop_field reserved (by omega)
      (drop_field lengthField rfl (drop_of_length_le (by omega)))))))))))))
    simpa [Footer.remaining, Footer.boundary, Footer.trailer, Footer.count, f, count] using fields
  have header_eq : header = xorbIdentifier ++ [1] := by
    have last : header.drop 7 = [1] := by
      apply ext_getElem
      · simp [len]
      · intro i hi _
        obtain rfl : i = 0 := by
          simp only [length_drop, len] at hi
          omega
        simpa [getD_eq_getElem?_getD, len] using version
    rw [← ident, ← last, take_append_drop]
  refine ⟨f, rfl, rfl, by omega, ?_⟩
  rw [header_eq, fixed_eq, remaining_eq]
  simp [Footer.encode]

theorem Footer.readFull_encode (f : Footer) (rest : Bytes) : readFull chunkHeaderSize (f.encode ++ rest) =
    .ok (xorbIdentifier ++ [1], f.fixed ++ (f.remaining ++ rest)) := by
  have split : f.encode ++ rest = (xorbIdentifier ++ [1]) ++ (f.fixed ++ (f.remaining ++ rest)) := by
    simp [Footer.encode]
  rw [split]
  exact readFull_append (show (xorbIdentifier ++ [1]).length = chunkHeaderSize from rfl) _

theorem Footer.drop_encode (f : Footer) (p : Nat) : f.encode.drop (52 + p) = f.remaining.drop p := by
  have shape : f.encode = ((xorbIdentifier ++ [1]) ++ f.fixed) ++ f.remaining := by
    simp [Footer.encode]
  have front : ((xorbIdentifier ++ [1]) ++ f.fixed).length = 52 := by
    rw [length_append, f.fixed_length]
    rfl
  rw [shape, ← drop_drop, drop_left' front]

theorem Footer.slice_encode (f : Footer) (p n : Nat) : slice f.encode (52 + p) n = slice f.remaining p n := by
  rw [slice, f.drop_encode, slice]

theorem Footer.slice_encode_fixed (f : Footer) {p n : Nat} (inside : p + n ≤ 44) :
    slice f.encode (8 + p) n = slice f.fixed p n := by
  have front : (xorbIdentifier ++ [1]).length = 8 := rfl
  rw [slice, Footer.encode, ← drop_drop, drop_left' front, drop_append_of_le_length (by simp; omega),
    take_append_of_le_length (by simp; omega), slice]

/-- The backward reader finds an encoded footer at the end of any bytes. -/
theorem footerTable_encode (region : Bytes) (f : Footer)
    (small : f.hashes.length ≤ maxChunksPerXorb) :
    footerTable (region ++ f.encode) = .ok (region.length, f.packed.map UInt32.toNat) := by
  have count := f.leNat_count small
  have size : (region ++ f.encode).length = region.length + (f.hashes.length * 40 + 96) := by
    rw [length_append, f.encode_length]
  have footerLen : leNat (slice (region ++ f.encode)
      (region.length + (f.hashes.length * 40 + 96) - 4) 4) = f.hashes.length * 40 + 92 := by
    rw [show region.length + (f.hashes.length * 40 + 96) - 4 =
      region.length + (52 + (f.hashes.length * 40 + 40)) by omega, slice, ← drop_drop, drop_left, ← slice,
      f.slice_encode, f.leNat_length_field small]
  have start : region.length + (f.hashes.length * 40 + 96) - (f.hashes.length * 40 + 92 + 4) =
      region.length := by omega
  have number : (f.hashes.length * 40 + 92 - 92) / 40 = f.hashes.length := by omega
  have ident : slice f.encode 0 7 = xorbIdentifier := slice_eq (a := []) (c := [1] ++ (f.fixed ++
    f.remaining)) (by simp [Footer.encode]) rfl rfl
  have version : slice f.encode 7 1 = [1] := slice_eq (a := xorbIdentifier)
    (c := f.fixed ++ f.remaining) (by simp [Footer.encode]) rfl rfl
  have hashIdent : slice f.encode 40 7 = hashSectionIdent := (f.slice_encode_fixed (p := 32) (by decide)).trans f.slice_ident
  have hashVersion : slice f.encode 47 1 = [0] := (f.slice_encode_fixed (p := 39) (by decide)).trans f.slice_version
  have hashCount : slice f.encode 48 4 = f.count := (f.slice_encode_fixed (p := 40) (by decide)).trans f.slice_count
  have boundary_ident : slice f.encode (52 + f.hashes.length * 32) 7 = boundarySectionIdent := by
    rw [f.slice_encode, f.slice_boundary_ident]
  have boundary_version : slice f.encode (52 + f.hashes.length * 32 + 7) 1 = [1] := by
    rw [Nat.add_assoc, f.slice_encode, f.slice_boundary_version]
  have boundary_count : slice f.encode (52 + f.hashes.length * 32 + 8) 4 = f.count := by
    rw [Nat.add_assoc, f.slice_encode, f.slice_boundary_count]
  have table : words32 f.hashes.length (f.encode.drop (52 + f.hashes.length * 32 + 12)) =
      f.packed := by
    have place : f.remaining.drop (f.hashes.length * 32 + 12) = f.packed.flatMap putUint32 ++
        (f.unpacked.flatMap putUint32 ++ (f.trailer ++ leBytes 4 (f.hashes.length * 40 + 92))) := by
      have shape : f.remaining = (f.hashes.flatMap Hash.bytes ++ (boundarySectionIdent ++
          ([1] ++ f.count))) ++ (f.packed.flatMap putUint32 ++ (f.unpacked.flatMap putUint32 ++
          (f.trailer ++ leBytes 4 (f.hashes.length * 40 + 92)))) := by
        simp [Footer.remaining, Footer.boundary]
      rw [shape]
      apply drop_left'
      simp only [length_append, hashBytes_length, Footer.count, leBytes_length]
      simp only [boundarySectionIdent, length_cons, length_nil]
      omega
    rw [Nat.add_assoc, f.drop_encode, place, ← f.packed_length]
    exact words32_flatMap f.packed _
  have enough : minFooterSize ≤ region.length + (f.hashes.length * 40 + 96) := by
    unfold minFooterSize; omega
  have fitting : minFooterSize - 4 ≤ f.hashes.length * 40 + 92 ∧
      f.hashes.length * 40 + 92 + 4 ≤ region.length + (f.hashes.length * 40 + 96) ∧
      (f.hashes.length * 40 + 92 - 92) % 40 = 0 := by
    unfold minFooterSize; omega
  simp only [footerTable, size, footerLen, enough, fitting, number, start, drop_left, ident, version, hashIdent,
    hashVersion, hashCount, count, boundary_ident, boundary_version, boundary_count, table,
    require_true, ok_bind, and_self, small]
  rfl

end Xet.Xorb
