import Mathlib.Data.List.Basic
import Mathlib.Data.List.GetD
import Xet.Hash

/-! One chunk of an xorb: the 8-byte header, the three body encodings and the choice
between them. The LZ4 frame library is a parameter; what its reader delivers is a byte
stream that ends cleanly or in an error. -/
namespace Xet.Xorb
open Wire List Nat

def chunkHeaderSize : Nat := 8

def chunkBufSize : Nat := 131072 + 8

/-- Any byte is a compression type; unknown ones are rejected when the chunk is decoded. -/
abbrev CompressionType := UInt8

def compressionNone : CompressionType := 0
def compressionLZ4 : CompressionType := 1
def compressionByteGrouping4 : CompressionType := 2

@[ext] structure ChunkHeader where
  compressedSize : Nat
  uncompressedSize : Nat
  compression : CompressionType
  deriving DecidableEq

inductive ChunkError where
  | headerTooShort (got : Nat)
  | unsupportedVersion (version : UInt8)
  | uncompressedSize (size : Nat)
  | bodySize (declared got : Nat)
  | outputTooSmall (need got : Nat)
  | outputCapacity (need got : Nat)
  | sizeMismatch (got expected : Nat)
  | lz4
  | unsupportedCompression (compression : CompressionType)
  deriving DecidableEq

def parseChunkHeader (b : Bytes) : Except ChunkError ChunkHeader := do
  require (chunkHeaderSize ≤ b.length) (.headerTooShort b.length)
  require (b.getD 0 0 = 0) (.unsupportedVersion (b.getD 0 0))
  let h : ChunkHeader := ⟨leNat ((b.drop 1).take 3), leNat ((b.drop 5).take 3), b.getD 4 0⟩
  require (h.uncompressedSize ≤ maxChunkSize) (.uncompressedSize h.uncompressedSize)
  return h

def ChunkHeader.encode (h : ChunkHeader) : Bytes :=
  [0] ++ leBytes 3 h.compressedSize ++ [h.compression] ++ leBytes 3 h.uncompressedSize

inductive BlockSize where
  | block64Kb
  | block256Kb
  | block4Mb
  deriving DecidableEq

/-- What a frame reader delivers before it ends, and whether it ends in an error. -/
structure Lz4Stream where
  out : Bytes
  failed : Bool
  deriving DecidableEq

structure Lz4 where
  compress : BlockSize → Bytes → Option Bytes
  decode : Bytes → Lz4Stream

def Lz4.Inverts (lz4 : Lz4) : Prop :=
  ∀ block data frame, lz4.compress block data = some frame → lz4.decode frame = ⟨data, false⟩

section
variable (lz4 : Lz4)

def compressLZ4 (data : Bytes) : Option Bytes :=
  if data.length > 262144 then lz4.compress .block4Mb data
  else if data.length > 65536 then lz4.compress .block256Kb data
  else lz4.compress .block64Kb data

/-- Decode into a buffer of capacity `cap`. One byte more than the declared size is asked for,
so an over-long frame shows as a size mismatch and an error of the reader only counts
when it comes before that byte. -/
def decompressLZ4 (cap : Nat) (data : Bytes) (uncompressedSize : Nat) : Except ChunkError Bytes := do
  require (uncompressedSize + 1 ≤ cap) (.outputCapacity (uncompressedSize + 1) cap)
  let s := lz4.decode data
  let n := min s.out.length (uncompressedSize + 1)
  require (¬ (n < uncompressedSize + 1 ∧ s.failed = true)) .lz4
  require (n = uncompressedSize) (.sizeMismatch n uncompressedSize)
  return s.out.take uncompressedSize

/-- Byte `k` of every whole group of four, and below the tail one byte of the partial group. -/
def plane (data : Bytes) (k : Nat) : Bytes :=
  (range (data.length / 4)).map (fun i => data.getD (4 * i + k) 0) ++
    if k < data.length % 4 then [data.getD (4 * (data.length / 4) + k) 0] else []

def applyByteGrouping4 (data : Bytes) : Bytes := (range 4).flatMap (plane data)

def reverseByteGrouping4 (data : Bytes) : Bytes :=
  let groups := data.length / 4
  let tail := data.length % 4
  (range groups).flatMap (fun i =>
    (range 4).map fun k => data.getD (k * groups + min k tail + i) 0) ++
  (range tail).map fun k => data.getD ((k + 1) * groups + k) 0

def compressByteGrouping4LZ4 (data : Bytes) : Option Bytes :=
  if chunkBufSize < data.length then none else compressLZ4 lz4 (applyByteGrouping4 data)

def decompressByteGrouping4LZ4 (cap : Nat) (data : Bytes) (uncompressedSize : Nat) :
    Except ChunkError Bytes := do
  let decompressed ← decompressLZ4 lz4 chunkBufSize data uncompressedSize
  require (decompressed.length ≤ cap) (.outputCapacity decompressed.length cap)
  return reverseByteGrouping4 decompressed

/-- Decode `body` into a buffer of length `len` and capacity `cap`. -/
def decodeChunk (len cap : Nat) (h : ChunkHeader) (body : Bytes) : Except ChunkError Bytes := do
  require (body.length = h.compressedSize) (.bodySize h.compressedSize body.length)
  require (¬ (h.compression ≠ compressionNone ∧ len < h.uncompressedSize))
    (.outputTooSmall h.uncompressedSize len)
  require (h.uncompressedSize ≤ maxChunkSize) (.uncompressedSize h.uncompressedSize)
  if h.compression = compressionNone then do
    require (body.length = h.uncompressedSize) (.sizeMismatch body.length h.uncompressedSize)
    return body
  else if h.compression = compressionLZ4 then decompressLZ4 lz4 cap body h.uncompressedSize
  else if h.compression = compressionByteGrouping4 then
    decompressByteGrouping4LZ4 lz4 cap body h.uncompressedSize
  else .error (.unsupportedCompression h.compression)

/-- A candidate replaces the best one only when it was produced and is strictly shorter. -/
def better (candidate : Option Bytes) (type : CompressionType) (best : Bytes × CompressionType) :
    Bytes × CompressionType :=
  match candidate with
  | some body => if body.length < best.1.length then (body, type) else best
  | none => best

def selectBestCompression (data : Bytes) : Bytes × CompressionType :=
  better (compressByteGrouping4LZ4 lz4 data) compressionByteGrouping4
    (better (compressLZ4 lz4 data) compressionLZ4 (data, compressionNone))

end

@[simp] theorem ChunkHeader.encode_length (h : ChunkHeader) : h.encode.length = 8 := by
  simp [ChunkHeader.encode]

theorem parseChunkHeader_eq_ok {b : Bytes} {h : ChunkHeader} (len : b.length = 8) :
    parseChunkHeader b = .ok h ↔
      b = h.encode ∧ h.compressedSize < 256 ^ 3 ∧ h.uncompressedSize ≤ maxChunkSize := by
  match b, len with
  | [b0, b1, b2, b3, b4, b5, b6, b7], _ =>
    have low : leNat [b1, b2, b3] < 256 ^ 3 := leNat_lt [b1, b2, b3]
    constructor
    · intro parsed
      simp only [parseChunkHeader, bind_eq_ok, require_eq_ok, exists_const] at parsed
      obtain ⟨-, version, bound, value⟩ := parsed
      cases value
      have zero : b0 = 0 := version
      refine ⟨?_, low, bound⟩
      rw [zero]
      exact congrArg (0 :: ·) (congrArg₂ (· ++ b4 :: ·) (leBytes_leNat [b1, b2, b3]).symm
        (leBytes_leNat [b5, b6, b7]).symm)
    · rintro ⟨shape, fits, bound⟩
      have fits' : h.uncompressedSize < 256 ^ 3 := lt_of_le_of_lt bound (by decide)
      have packed := leNat_leBytes_of_lt fits
      have unpacked := leNat_leBytes_of_lt fits'
      have fields : [b1, b2, b3] = leBytes 3 h.compressedSize ∧ b4 = h.compression ∧
          [b5, b6, b7] = leBytes 3 h.uncompressedSize ∧ b0 = 0 := by
        simp only [ChunkHeader.encode, leBytes, cons_append, nil_append, cons.injEq, and_true] at shape ⊢
        exact ⟨⟨shape.2.1, shape.2.2.1, shape.2.2.2.1⟩, shape.2.2.2.2.1, shape.2.2.2.2.2, shape.1⟩
      simp only [parseChunkHeader, bind_eq_ok, require_eq_ok, exists_const]
      refine ⟨le_refl 8, fields.2.2.2, ?_, ?_⟩
      · show leNat [b5, b6, b7] ≤ maxChunkSize
        rw [fields.2.2.1, unpacked]
        exact bound
      · show Except.ok (ChunkHeader.mk (leNat [b1, b2, b3]) (leNat [b5, b6, b7]) b4) = _
        rw [fields.1, fields.2.1, fields.2.2.1, packed, unpacked]

theorem range_groups (f : Nat → UInt8) (groups : Nat) :
    (range groups).flatMap (fun i => (range 4).map fun k => f (4 * i + k)) =
      (range (4 * groups)).map f := by
  induction groups with
  | zero => rfl
  | succ groups ih =>
    simp only [range_succ (n := groups), flatMap_append, ih, mul_succ, range_add,
      map_append, flatMap_singleton, map_map]
    rfl

theorem plane_length (data : Bytes) (k : Nat) :
    (plane data k).length = data.length / 4 + if k < data.length % 4 then 1 else 0 := by
  unfold plane
  split <;> simp

theorem applyByteGrouping4_length (data : Bytes) : (applyByteGrouping4 data).length = data.length := by
  have tail := mod_lt data.length (show 0 < 4 by decide)
  simp only [applyByteGrouping4, range_succ, range_zero, nil_append,
    flatMap_append, flatMap_singleton, length_append, plane_length]
  split_ifs <;> omega

theorem reverseByteGrouping4_length (data : Bytes) : (reverseByteGrouping4 data).length = data.length := by
  simp only [reverseByteGrouping4, length_append, length_flatMap, length_map,
    length_range, map_const', sum_replicate_nat]
  omega

variable {i : Nat}

theorem applyByteGrouping4_plane (data : Bytes) {k : Nat} (hk : k < 4) (bound : i < (plane data k).length) :
    (applyByteGrouping4 data).getD (k * (data.length / 4) + min k (data.length % 4) + i) 0 =
      (plane data k).getD i 0 := by
  have tail := mod_lt data.length (show 0 < 4 by decide)
  have len := plane_length data
  have shape : applyByteGrouping4 data =
      plane data 0 ++ (plane data 1 ++ (plane data 2 ++ (plane data 3 ++ []))) := by
    simp [applyByteGrouping4, range_succ]
  have skip : ∀ (xs ys : Bytes) (n j : Nat), n = xs.length + j → (xs ++ ys).getD n 0 = ys.getD j 0 := by
    rintro xs ys n j rfl
    rw [getD_append_right _ _ _ _ (Nat.le_add_right _ _), Nat.add_sub_cancel_left]
  have stay : ∀ (xs ys : Bytes) (j : Nat), j < xs.length → (xs ++ ys).getD j 0 = xs.getD j 0 :=
    fun xs ys j h => getD_append _ _ _ _ h
  rw [shape]
  have l0 := len 0
  have l1 := len 1
  have l2 := len 2
  interval_cases k
  · rw [stay _ _ _ (by simpa using bound)]
    simp
  · rw [skip _ _ _ i (by split at l0 <;> omega), stay _ _ _ bound]
  · rw [skip _ _ _ ((plane data 1).length + i) (by split at l0 <;> split at l1 <;> omega),
      skip _ _ _ i rfl, stay _ _ _ bound]
  · rw [skip _ _ _ ((plane data 1).length + ((plane data 2).length + i))
        (by split at l0 <;> split at l1 <;> split at l2 <;> omega),
      skip _ _ _ _ rfl, skip _ _ _ i rfl, stay _ _ _ bound]

/-- Where byte `i` of `len` bytes stands after grouping: behind the planes of smaller residues, and as far into its
own plane as its group is into the data. -/
def groupedIndex (len i : Nat) : Nat := (i % 4) * (len / 4) + min (i % 4) (len % 4) + i / 4

theorem groupedIndex_group (len j : Nat) {k : Nat} (small : k < 4) :
    groupedIndex len (4 * j + k) = k * (len / 4) + min k (len % 4) + j := by
  rw [groupedIndex, mul_add_mod, mod_eq_of_lt small, mul_add_div (by decide), div_eq_of_lt small,
    add_zero]

theorem groupedIndex_tail {len k : Nat} (small : k < len % 4) :
    groupedIndex len (4 * (len / 4) + k) = (k + 1) * (len / 4) + k := by
  have tail := mod_lt len (show 0 < 4 by decide)
  rw [groupedIndex_group len _ (by omega), succ_mul]
  omega

theorem groupedIndex_lt {len : Nat} (inside : i < len) : groupedIndex len i < len := by
  have residue := mod_lt i (show 0 < 4 by decide)
  rw [groupedIndex]
  interval_cases h : i % 4 <;> omega

theorem exists_groupedIndex {len q : Nat} (inside : q < len) : ∃ i < len, groupedIndex len i = q := by
  -- the plane is found by comparing with the plane starts
  have found : ∀ k j : Nat, k < 4 → 4 * j + k < len → k * (len / 4) + min k (len % 4) + j = q →
      ∃ i < len, groupedIndex len i = q := by
    intro k j small bound place
    exact ⟨4 * j + k, bound, (groupedIndex_group len j small).trans place⟩
  by_cases first : q < len / 4 + min 1 (len % 4)
  · exact found 0 q (by decide) (by omega) (by omega)
  · by_cases second : q < 2 * (len / 4) + min 2 (len % 4)
    · exact found 1 (q - (len / 4 + min 1 (len % 4))) (by decide) (by omega) (by omega)
    · by_cases third : q < 3 * (len / 4) + min 3 (len % 4)
      · exact found 2 (q - (2 * (len / 4) + min 2 (len % 4))) (by decide) (by omega) (by omega)
      · exact found 3 (q - (3 * (len / 4) + min 3 (len % 4))) (by decide) (by omega) (by omega)

theorem groupedIndex_lt_iff {len j : Nat} (hi : i < len) (hj : j < len) :
    groupedIndex len i < groupedIndex len j ↔ i % 4 < j % 4 ∨ i % 4 = j % 4 ∧ i < j := by
  have first := mod_lt i (show 0 < 4 by decide)
  have second := mod_lt j (show 0 < 4 by decide)
  rw [groupedIndex, groupedIndex]
  interval_cases ri : i % 4 <;> interval_cases rj : j % 4 <;> omega

variable {data : Bytes}

theorem plane_getD (inside : i < data.length) :
    i / 4 < (plane data (i % 4)).length ∧ (plane data (i % 4)).getD (i / 4) 0 = data.getD i 0 := by
  have whole : 4 * (i / 4) + i % 4 = i := Nat.div_add_mod i 4
  rw [plane_length, plane]
  by_cases early : i / 4 < data.length / 4
  · rw [getD_append _ _ _ _ (by simpa using early)]
    refine ⟨by omega, ?_⟩
    simp [getD_eq_getElem?_getD, early, whole]
  · have last : i / 4 = data.length / 4 := by omega
    have part : i % 4 < data.length % 4 := by omega
    rw [if_pos part, if_pos part, last, getD_append_right _ _ _ _ (by simp)]
    refine ⟨by omega, ?_⟩
    simp only [length_map, length_range, Nat.sub_self, getD_cons_zero]
    rw [← last, whole]

theorem applyByteGrouping4_getD (inside : i < data.length) :
    (applyByteGrouping4 data).getD (groupedIndex data.length i) 0 = data.getD i 0 := by
  obtain ⟨bound, value⟩ := plane_getD inside
  rw [groupedIndex, applyByteGrouping4_plane data (mod_lt i (by decide)) bound, value]

theorem reverseByteGrouping4_eq_map (data : Bytes) :
    reverseByteGrouping4 data = (range data.length).map fun i => data.getD (groupedIndex data.length i) 0 := by
  have split : data.length = 4 * (data.length / 4) + data.length % 4 := (Nat.div_add_mod _ 4).symm
  conv_rhs => rw [split, range_add, map_append, map_map, ← range_groups]
  rw [← split, reverseByteGrouping4]
  congr 1
  · apply flatMap_congr
    intro i _
    apply map_congr_left
    intro k small
    rw [groupedIndex_group _ i (mem_range.mp small)]
  · apply map_congr_left
    intro k part
    rw [Function.comp_apply, groupedIndex_tail (mem_range.mp part)]

theorem reverseByteGrouping4_getElem? (inside : i < data.length) :
    (reverseByteGrouping4 data)[i]? = data[groupedIndex data.length i]? := by
  have target := groupedIndex_lt inside
  rw [reverseByteGrouping4_eq_map, getElem?_map, getElem?_range inside, getElem?_eq_getElem target,
    Option.map_some, getD_eq_getElem _ _ target]

theorem applyByteGrouping4_getElem? (inside : i < data.length) :
    (applyByteGrouping4 data)[groupedIndex data.length i]? = data[i]? := by
  have target : groupedIndex data.length i < (applyByteGrouping4 data).length := by
    rw [applyByteGrouping4_length]
    exact groupedIndex_lt inside
  have value := applyByteGrouping4_getD inside
  rw [getD_eq_getElem _ _ target, getD_eq_getElem _ _ inside] at value
  rw [getElem?_eq_getElem target, getElem?_eq_getElem inside, value]

theorem reverse_applyByteGrouping4 (data : Bytes) : reverseByteGrouping4 (applyByteGrouping4 data) = data := by
  have length := applyByteGrouping4_length data
  apply ext_getElem?
  intro i
  by_cases inside : i < data.length
  · rw [reverseByteGrouping4_getElem? (by omega), length, applyByteGrouping4_getElem? inside]
  · rw [getElem?_eq_none (by rw [reverseByteGrouping4_length]; omega), getElem?_eq_none (by omega)]

theorem apply_reverseByteGrouping4 (data : Bytes) : applyByteGrouping4 (reverseByteGrouping4 data) = data := by
  have length := reverseByteGrouping4_length data
  apply ext_getElem?
  intro q
  by_cases inside : q < data.length
  · obtain ⟨i, bound, rfl⟩ := exists_groupedIndex inside
    rw [← length, applyByteGrouping4_getElem? (by omega), reverseByteGrouping4_getElem? bound, length]
  · rw [getElem?_eq_none (by rw [applyByteGrouping4_length]; omega), getElem?_eq_none (by omega)]

section
variable {lz4 : Lz4}

theorem decompressLZ4_length {cap size : Nat} {data out : Bytes}
    (decoded : decompressLZ4 lz4 cap data size = .ok out) : out.length = size := by
  simp only [decompressLZ4, bind_eq_ok, require_eq_ok, exists_const] at decoded
  obtain ⟨-, -, exact_, value⟩ := decoded
  cases value
  rw [length_take]
  omega

theorem decompressLZ4_inverts (inverts : lz4.Inverts) {block : BlockSize} {cap : Nat}
    {data frame : Bytes} (compressed : lz4.compress block data = some frame)
    (room : data.length + 1 ≤ cap) : decompressLZ4 lz4 cap frame data.length = .ok data := by
  have stream := inverts block data frame compressed
  simp only [decompressLZ4, stream, bind_eq_ok, require_eq_ok, exists_const]
  refine ⟨room, fun h => Bool.noConfusion h.2, by omega, ?_⟩
  rw [take_length]
  rfl

theorem compressLZ4_inverts (inverts : lz4.Inverts) {cap : Nat} {data frame : Bytes}
    (compressed : compressLZ4 lz4 data = some frame) (room : data.length + 1 ≤ cap) :
    decompressLZ4 lz4 cap frame data.length = .ok data := by
  unfold compressLZ4 at compressed
  split_ifs at compressed
  all_goals exact decompressLZ4_inverts inverts compressed room

theorem decodeChunk_sizes {len cap : Nat} {h : ChunkHeader} {body data : Bytes}
    (decoded : decodeChunk lz4 len cap h body = .ok data) :
    body.length = h.compressedSize ∧ data.length = h.uncompressedSize ∧
      h.uncompressedSize ≤ maxChunkSize := by
  simp only [decodeChunk, bind_eq_ok, require_eq_ok, exists_const] at decoded
  obtain ⟨size, -, bound, branch⟩ := decoded
  refine ⟨size, ?_, bound⟩
  split_ifs at branch
  · simp only [bind_eq_ok, require_eq_ok, exists_const] at branch
    obtain ⟨same, value⟩ := branch
    cases value
    exact same
  · exact decompressLZ4_length branch
  · simp only [decompressByteGrouping4LZ4, bind_eq_ok, require_eq_ok, exists_and_left, exists_const] at branch
    obtain ⟨grouped, decoded, -, value⟩ := branch
    cases value
    rw [reverseByteGrouping4_length]
    exact decompressLZ4_length decoded

theorem selectBestCompression_le (data : Bytes) : (selectBestCompression lz4 data).1.length ≤ data.length := by
  have step : ∀ candidate type best, (better candidate type best).1.length ≤ best.1.length := by
    intro candidate type best
    unfold better
    split
    · split
      · exact le_of_lt ‹_›
      · exact le_refl _
    · exact le_refl _
  exact le_trans (step _ _ _) (step _ _ (data, compressionNone))

theorem better_cases (candidate : Option Bytes) (type : CompressionType)
    (best : Bytes × CompressionType) :
    better candidate type best = best ∨
      ∃ body, candidate = some body ∧ better candidate type best = (body, type) := by
  unfold better
  cases candidate with
  | none => exact .inl rfl
  | some body =>
    by_cases shorter : body.length < best.1.length
    · exact .inr ⟨body, rfl, if_pos shorter⟩
    · exact .inl (if_neg shorter)

theorem decode_selected (inverts : lz4.Inverts) {data : Bytes} {len cap : Nat}
    (small : data.length ≤ maxChunkSize) (long : maxChunkSize ≤ len) (room : maxChunkSize < cap) :
    let best := selectBestCompression lz4 data
    decodeChunk lz4 len cap ⟨best.1.length, data.length, best.2⟩ best.1 = .ok data := by
  have limits : maxChunkSize < chunkBufSize := by decide
  have wide : ∀ c : CompressionType, ¬ (c ≠ compressionNone ∧ len < data.length) :=
    fun _ short => by omega
  have plain : decodeChunk lz4 len cap ⟨data.length, data.length, compressionNone⟩ data =
      .ok data := by
    simp only [decodeChunk, require_true, wide, small, not_false_eq_true, ok_bind, if_true]
    rfl
  have framed : ∀ body, compressLZ4 lz4 data = some body →
      decodeChunk lz4 len cap ⟨body.length, data.length, compressionLZ4⟩ body = .ok data := by
    intro body compressed
    have inner := compressLZ4_inverts inverts compressed (show data.length + 1 ≤ cap by omega)
    simp only [decodeChunk, require_true, wide, small, not_false_eq_true, ok_bind,
      show compressionLZ4 ≠ compressionNone by decide, if_false, if_true]
    exact inner
  have grouped : ∀ body, compressByteGrouping4LZ4 lz4 data = some body →
      decodeChunk lz4 len cap ⟨body.length, data.length, compressionByteGrouping4⟩ body =
        .ok data := by
    intro body compressed
    unfold compressByteGrouping4LZ4 at compressed
    rw [if_neg (by omega)] at compressed
    have same := applyByteGrouping4_length data
    have inner := compressLZ4_inverts inverts compressed
      (show (applyByteGrouping4 data).length + 1 ≤ chunkBufSize by omega)
    rw [same] at inner
    simp only [decodeChunk, require_true, wide, small, not_false_eq_true, ok_bind,
      show compressionByteGrouping4 ≠ compressionNone by decide,
      show compressionByteGrouping4 ≠ compressionLZ4 by decide, if_false, if_true,
      decompressByteGrouping4LZ4, inner,
      require_true (show (applyByteGrouping4 data).length ≤ cap by omega),
      reverse_applyByteGrouping4]
    rfl
  unfold selectBestCompression
  rcases better_cases (compressByteGrouping4LZ4 lz4 data) compressionByteGrouping4
    (better (compressLZ4 lz4 data) compressionLZ4 (data, compressionNone)) with kept | ⟨body, h, new⟩
  · rw [kept]
    rcases better_cases (compressLZ4 lz4 data) compressionLZ4 (data, compressionNone) with
      kept | ⟨body, h, new⟩
    · rw [kept]; exact plain
    · rw [new]; exact framed body h
  · rw [new]; exact grouped body h

end

end Xet.Xorb
