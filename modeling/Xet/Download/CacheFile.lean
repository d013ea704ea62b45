import Xet.Download.Reader
import Xet.Lib.File

/-! Files of the chunk cache. A writer leaves room for the offsets before the chunks, fills them in
behind the last chunk and seals the file with a checksum. Readers tell a sealed file from another
one by its size. -/
namespace Xet.Download
open Wire Calls File List UInt32

def placeholder (numOffsets : Nat) : Bytes :=
  putUint32 (UInt32.ofNat numOffsets) ++ List.replicate (4 * numOffsets) 0

def offsetsFrom (o : UInt32) : List Nat → List UInt32
  | [] => [o]
  | size :: rest => o :: offsetsFrom (o + UInt32.ofNat size) rest

def cacheHeader (sizes : List Nat) : Bytes :=
  putUint32 (UInt32.ofNat (sizes.length + 1)) ++ (offsetsFrom 0 sizes).flatMap putUint32

def cacheTrailer (crc : UInt32) (header : Bytes) : Bytes := putUint32 (crc32 crc header)

def sealedFile (chunks : List Bytes) : Bytes :=
  let header := cacheHeader (chunks.map List.length)
  header ++ (chunks.flatten ++ cacheTrailer (crc32 0 chunks.flatten) header)

/-- The chunks of an entry, and the bytes of the xorb that they are decoded from. -/
structure CacheRange where
  hash : Bytes
  chunks : ChunkRange
  bytes : ByteRange

def CacheRange.Valid (r : CacheRange) : Prop :=
  minCacheHashLen ≤ r.hash.length ∧ validChunkRange r.chunks ∧ 0 ≤ r.bytes.start ∧ r.bytes.start ≤ r.bytes.last

instance (r : CacheRange) : Decidable r.Valid := inferInstanceAs (Decidable (_ ∧ _))

structure ChunkRef where
  offset : Nat
  size : Nat
  deriving DecidableEq

inductive Decoded (ε : Type) where
  | data (b : Bytes)
  | eof
  | failed (e : ε)
  deriving DecidableEq

inductive CacheError (ε : Type) where
  | invalidRange (hash : Bytes)
  | decode (e : ε)
  | chunkCount (decoded expected : Nat)
  deriving DecidableEq

structure CacheWriter (ε : Type) where
  metas : List ChunkRef
  writePos : Nat
  crc : UInt32
  expectedChunks : Nat
  done : Bool
  err : Option (CacheError ε)
  published : Bool

inductive LoadResult (ε : Type) where
  | loaded (count : Nat)
  | eof
  | failed (e : CacheError ε)

section
variable {ε : Type} (pieces : Pieces)

/-- Leftovers of a crashed download are discarded. -/
def newLockedChunkCache (r : CacheRange) : FileProg (Except (CacheError ε) (CacheWriter ε)) := do
  if r.Valid then
    Prog.perform (.truncate 0)
    let numChunks := r.chunks.stop - r.chunks.start
    write pieces (placeholder (numChunks + 1)) 0
    return .ok ⟨[], 4 + 4 * (numChunks + 1), 0, numChunks, false, none, false⟩
  else return .error (.invalidRange r.hash)

def sealEntry (c : CacheWriter ε) : FileProg (CacheWriter ε) := do
  let header := cacheHeader (c.metas.map ChunkRef.size)
  write pieces header 0
  write pieces (cacheTrailer c.crc header) c.writePos
  return { c with published := true }

def CacheWriter.append (c : CacheWriter ε) (b : Bytes) : CacheWriter ε :=
  { c with
    metas := c.metas ++ [⟨c.writePos, b.length⟩]
    writePos := c.writePos + b.length
    crc := crc32 c.crc b }

/-- Store the next chunk. Behind the last one the file is sealed, and `behind` is what the decoder
returns then. -/
def load (next behind : Decoded ε) (c : CacheWriter ε) : FileProg (LoadResult ε × CacheWriter ε) :=
  if c.done then return (.eof, c)
  else
    match c.err with
    | some e => return (.failed e, c)
    | none =>
      match next with
      | .eof => return (.eof, { c with done := true })
      | .failed e => return (.failed (.decode e), { c with err := some (.decode e) })
      | .data b => do
        write pieces b c.writePos
        let c := c.append b
        if c.metas.length ≠ c.expectedChunks then return (.loaded c.metas.length, c)
        else
          let c ← sealEntry pieces c
          match behind with
          | .eof => return (.loaded c.metas.length, { c with done := true })
          | .failed e => return (.failed (.decode e), { c with err := some (.decode e) })
          | .data _ =>
            let e := .chunkCount (c.metas.length + 1) c.expectedChunks
            return (.failed e, { c with err := some e })

def finalize (c : CacheWriter ε) : FileProg (Except (CacheError ε) Unit × CacheWriter ε) := do
  if c.published then return (.ok (), c)
  else if c.metas.length ≠ c.expectedChunks then
    return (.error (.chunkCount c.metas.length c.expectedChunks), c)
  else
    let c ← sealEntry pieces c
    return (.ok (), c)

/-- Store all chunks. A turn that reads behind the last chunk is the last one that reads. -/
def loadAll : List (Decoded ε) → CacheWriter ε → FileProg (Except (CacheError ε) Unit × CacheWriter ε)
  | [], c => do
    let (_, c) ← load pieces .eof .eof c
    finalize pieces c
  | next :: rest, c => do
    let (result, c) ← load pieces next (rest.headD .eof) c
    match result with
    | .loaded _ => loadAll rest c
    | .eof => finalize pieces c
    | .failed e => return (.error e, c)

/-- An unfinished entry is discarded. -/
def closeWriter (c : CacheWriter ε) : FileProg Unit :=
  if c.published then pure () else Prog.perform (.truncate 0)

def writeEntry (r : CacheRange) (reads : List (Decoded ε)) : FileProg (Except (CacheError ε) Unit) := do
  match ← newLockedChunkCache pieces r with
  | .error e => return .error e
  | .ok c =>
    let (result, c) ← loadAll pieces reads c
    closeWriter c
    return result

end

structure CacheFileLayout where
  numOffsets : Nat
  headerBytes : Nat
  dataBytes : Nat
  crc : UInt32
  deriving DecidableEq

inductive LayoutError where
  | invalidRange
  | incomplete
  | offsetCount
  | invalidOffsets
  | checksum
  | read
  deriving DecidableEq

def readOrFail (f : Bytes) (off n : Nat) : Except LayoutError Bytes :=
  match readAt f off n with
  | some b => .ok b
  | none => .error .read

def readCacheFileLayout (f : Bytes) (r : ChunkRange) (fileSize : Nat) : Except LayoutError CacheFileLayout := do
  require (validChunkRange r) .invalidRange
  let expected := r.stop - r.start + 1
  let headerBytes := 4 + 4 * expected
  require (headerBytes + 4 ≤ fileSize) .incomplete
  let head ← readOrFail f 0 4
  require ((uint32 head).toNat = expected) .offsetCount
  let last ← readOrFail f (headerBytes - 4) 4
  let dataBytes := (uint32 last).toNat
  require (fileSize = headerBytes + dataBytes + 4) .incomplete
  let crc ← readOrFail f (fileSize - 4) 4
  return ⟨expected, headerBytes, dataBytes, uint32 crc⟩

def Accepted (r : ChunkRange) (f : Bytes) : Prop := (readCacheFileLayout f r f.length).isOk = true

instance (r : ChunkRange) (f : Bytes) : Decidable (Accepted r f) := inferInstanceAs (Decidable (_ = true))

section
variable {r : ChunkRange} {f : Bytes} {n : Nat}

theorem readOrFail_ok {off k : Nat} (inside : off + k ≤ f.length) : readOrFail f off k = .ok ((f.drop off).take k) := by
  rw [readOrFail, readAt, if_pos (.inr inside)]

theorem uint32_take (b : Bytes) : uint32 (b.take 4) = uint32 b := by
  rw [uint32, uint32, take_take, Nat.min_self]

theorem readCacheFileLayout_eq_ok (size : r.stop - r.start = n) (valid : validChunkRange r)
    (count : (uint32 f).toNat = n + 1)
    (exactly : f.length = 12 + 4 * n + (uint32 (f.drop (4 + 4 * n))).toNat) :
    readCacheFileLayout f r f.length = .ok ⟨n + 1, 8 + 4 * n, (uint32 (f.drop (4 + 4 * n))).toNat,
      uint32 (f.drop (f.length - 4))⟩ := by
  have header : 4 + 4 * (n + 1) = 8 + 4 * n := by omega
  have before : 8 + 4 * n - 4 = 4 + 4 * n := by omega
  unfold readCacheFileLayout
  dsimp only
  rw [size, header, before, require_true valid, ok_bind, require_true (by omega), ok_bind,
    readOrFail_ok (by omega), ok_bind, drop_zero, uint32_take, require_true count, ok_bind,
    readOrFail_ok (by omega), ok_bind, uint32_take, require_true (by omega), ok_bind, readOrFail_ok (by omega), ok_bind,
    uint32_take]
  rfl

theorem accepted_iff (size : r.stop - r.start = n) :
    Accepted r f ↔ validChunkRange r ∧ (uint32 f).toNat = n + 1 ∧
      f.length = 12 + 4 * n + (uint32 (f.drop (4 + 4 * n))).toNat := by
  constructor
  · intro accepted
    obtain ⟨layout, value⟩ := exists_of_isOk accepted
    simp only [readCacheFileLayout, size, bind_eq_ok, require_eq_ok, exists_const] at value
    obtain ⟨valid, long, head, read, count, last, read', exactly, -⟩ := value
    rw [readOrFail_ok (by omega)] at read read'
    cases read
    cases read'
    rw [uint32_take, show 4 + 4 * (n + 1) - 4 = 4 + 4 * n by omega] at exactly
    rw [uint32_take] at count
    exact ⟨valid, count, by omega⟩
  · rintro ⟨valid, count, exactly⟩
    rw [Accepted, readCacheFileLayout_eq_ok size valid count exactly]
    rfl

theorem not_accepted_of_short (size : r.stop - r.start = n) (short : f.length < 12 + 4 * n) : ¬ Accepted r f := by
  rw [accepted_iff size]
  omega

theorem offsetsFrom_split (o : UInt32) (sizes : List Nat) :
    ∃ mid, mid.length = sizes.length ∧ offsetsFrom o sizes = mid ++ [o + ofNat sizes.sum] := by
  induction sizes generalizing o with
  | nil => exact ⟨[], rfl, by simp [offsetsFrom]⟩
  | cons size rest ih =>
    obtain ⟨mid, count, split⟩ := ih (o + ofNat size)
    refine ⟨o :: mid, by rw [length_cons, length_cons, count], ?_⟩
    rw [offsetsFrom, split, sum_cons, ofNat_add, add_assoc, cons_append]

variable {sizes : List Nat}

theorem cacheHeader_split (count : sizes.length = n) :
    ∃ lead, lead.length = 4 + 4 * n ∧ (∀ rest, uint32 (lead ++ rest) = ofNat (n + 1)) ∧
      cacheHeader sizes = lead ++ putUint32 (ofNat sizes.sum) := by
  obtain ⟨mid, same, split⟩ := offsetsFrom_split 0 sizes
  refine ⟨putUint32 (ofNat (n + 1)) ++ mid.flatMap putUint32, ?_, fun rest => ?_, ?_⟩
  · rw [length_append, putUint32_length, Xorb.putUint32s_length, same, count]
  · rw [append_assoc, uint32_putUint32]
  · rw [cacheHeader, split, count, flatMap_append, flatMap_singleton, zero_add, append_assoc]

theorem placeholder_split (n : Nat) :
    ∃ lead, lead.length = 4 + 4 * n ∧ (∀ rest, uint32 (lead ++ rest) = ofNat (n + 1)) ∧
      placeholder (n + 1) = lead ++ putUint32 0 := by
  have zeros : List.replicate (4 * (n + 1)) (0 : UInt8) = List.replicate (4 * n) 0 ++ putUint32 0 := by
    rw [Nat.mul_add, replicate_add]
    rfl
  refine ⟨putUint32 (ofNat (n + 1)) ++ List.replicate (4 * n) 0, ?_, fun rest => ?_, ?_⟩
  · rw [length_append, putUint32_length, length_replicate]
  · rw [append_assoc, uint32_putUint32]
  · rw [placeholder, zeros, append_assoc]

theorem validChunkRange.count_lt (valid : validChunkRange r) (size : r.stop - r.start = n) :
    (ofNat (n + 1)).toNat = n + 1 := by
  obtain ⟨order, bound⟩ := valid
  rw [maxChunksPerXorb] at bound
  rw [toNat_ofNat_of_lt']
  simp only [UInt32.size]
  omega

theorem accepted_loading (size : r.stop - r.start = n) (valid : validChunkRange r) (data : Bytes) :
    Accepted r (placeholder (n + 1) ++ data) ↔ data.length = 4 := by
  obtain ⟨lead, length, head, split⟩ := placeholder_split n
  have count := valid.count_lt size
  rw [accepted_iff size, split, append_assoc, head, drop_left' length, uint32_putUint32]
  simp only [length_append, length, putUint32_length, count, UInt32.toNat_zero]
  constructor
  · rintro ⟨-, -, exactly⟩
    omega
  · intro four
    exact ⟨valid, trivial, by omega⟩

theorem uint32_mod (b : UInt8) (rest : Bytes) : (uint32 (b :: rest)).toNat % 256 = b.toNat := by
  have small := b.toNat_lt
  rw [uint32, take_succ_cons, leNat, toNat_ofNat']
  omega

/-- While the offsets are filled in, the size of the data is not four more than the last offset:
both have the same lowest byte as soon as that is written. -/
theorem accepted_patching (size : r.stop - r.start = n) (count : sizes.length = n) {data : Bytes}
    (total : data.length = sizes.sum) {m : Nat}
    (accepted : Accepted r ((cacheHeader sizes).take m ++ ((placeholder (n + 1)).drop m ++ data))) :
    data.length = 4 := by
  obtain ⟨lead, length, -, header⟩ := cacheHeader_split count
  obtain ⟨blank, length', -, empty⟩ := placeholder_split n
  obtain ⟨-, -, exactly⟩ := (accepted_iff size).mp accepted
  have whole : ((cacheHeader sizes).take m ++ ((placeholder (n + 1)).drop m ++ data)).length =
      8 + 4 * n + data.length := by
    simp only [header, empty, length_append, length_take, length_drop, length, length', putUint32_length]
    omega
  rw [whole] at exactly
  by_cases early : m ≤ 4 + 4 * n
  · have offset : ((cacheHeader sizes).take m ++ ((placeholder (n + 1)).drop m ++ data)).drop (4 + 4 * n) =
        putUint32 0 ++ data := by
      have taken : ((cacheHeader sizes).take m).length = m := by
        rw [length_take, header, length_append, length]
        omega
      have rest : (placeholder (n + 1)).drop (4 + 4 * n) = putUint32 0 := by
        rw [empty, drop_left' length']
      have inside : 4 + 4 * n - m ≤ ((placeholder (n + 1)).drop m).length := by
        rw [length_drop, empty, length_append, length']
        omega
      rw [drop_append, taken, drop_eq_nil_of_le (by omega), nil_append,
        drop_append_of_le_length inside, drop_drop, Nat.add_sub_cancel' early, rest]
    rw [offset, uint32_putUint32, UInt32.toNat_zero] at exactly
    omega
  · obtain ⟨k, rfl⟩ : ∃ k, m = 4 + 4 * n + (k + 1) := ⟨m - (4 + 4 * n) - 1, by omega⟩
    have lowest : ∃ rest, (cacheHeader sizes).take (4 + 4 * n + (k + 1)) =
        lead ++ (UInt8.ofNat sizes.sum :: rest) := by
      refine ⟨(leBytes 3 (sizes.sum / 256)).take k, ?_⟩
      rw [header, ← length, take_length_add_append, putUint32_ofNat]
      rfl
    obtain ⟨rest, lowest⟩ := lowest
    rw [lowest, append_assoc, drop_left' length, cons_append] at exactly
    have same := uint32_mod (UInt8.ofNat sizes.sum)
      (rest ++ ((placeholder (n + 1)).drop (4 + 4 * n + (k + 1)) ++ data))
    rw [UInt8.toNat_ofNat'] at same
    omega

theorem accepted_trailing (size : r.stop - r.start = n) (count : sizes.length = n) {data : Bytes}
    (total : data.length = sizes.sum) (small : sizes.sum < 2 ^ 32) {trailer : Bytes}
    (accepted : Accepted r (cacheHeader sizes ++ (data ++ trailer))) : trailer.length = 4 := by
  obtain ⟨lead, length, -, split⟩ := cacheHeader_split count
  rw [accepted_iff size, split, append_assoc, drop_left' length, uint32_putUint32, toNat_ofNat_of_lt' small] at accepted
  obtain ⟨-, -, exactly⟩ := accepted
  simp only [length_append, length, putUint32_length] at exactly
  omega

theorem accepted_sealed (size : r.stop - r.start = n) (valid : validChunkRange r) {chunks : List Bytes}
    (count : chunks.length = n) (small : chunks.flatten.length < 2 ^ 32) : Accepted r (sealedFile chunks) := by
  have many : (chunks.map List.length).length = n := (length_map _).trans count
  obtain ⟨lead, length, head, split⟩ := cacheHeader_split many
  rw [← length_flatten] at split
  rw [accepted_iff size, sealedFile, split, append_assoc, head, drop_left' length, uint32_putUint32,
    toNat_ofNat_of_lt' small]
  refine ⟨valid, valid.count_lt size, ?_⟩
  simp only [length_append, length, putUint32_length, cacheTrailer]
  omega

end

end Xet.Download
