import Xet.Download.CacheSeal

/-! Entries of the chunk cache as readers see them: the name tells the chunks, the header where they
are. -/
namespace Xet.Download
open Wire File List Xorb Text

def underscore : UInt8 := 95

def decimal (n : Nat) : Bytes := appendUint (UInt64.ofNat n) 10

def cacheFileName (r : ChunkRange) (b : ByteRange) : Bytes :=
  decimal r.start ++ dash :: (decimal r.stop ++ underscore :: (decimal b.start.toNat ++ dash :: decimal b.last.toNat))

def parseInt : Bytes → Option Int
  | 43 :: rest => (parseUint rest 10 63).map Int.ofNat
  | 45 :: rest => (parseUint rest 10 64).bind fun n => if n ≤ 2 ^ 63 then some (-n) else none
  | s => (parseUint s 10 63).map Int.ofNat

/-- Two parts at an underscore, each of two numbers at its first dash. -/
def parseCacheFileName (name : Bytes) : Option (ChunkRange × ByteRange) := do
  let (chunkPart, bytePart) ← cut [underscore] name
  guard (underscore ∉ bytePart)
  let (first, last) ← cut [dash] chunkPart
  let start ← parseUint first 10 32
  let stop ← parseUint last 10 32
  let (first, last) ← cut [dash] bytePart
  let byteStart ← parseInt first
  guard (0 ≤ byteStart)
  let byteEnd ← parseInt last
  guard (0 ≤ byteEnd)
  guard (start ≤ stop ∧ byteStart ≤ byteEnd)
  return (⟨start, stop⟩, ⟨byteStart, byteEnd⟩)

theorem decimal_digits {n : Nat} : ∀ c ∈ decimal n, 48 ≤ c.toNat ∧ c.toNat ≤ 57 := by
  intro c member
  obtain ⟨d, digit, rfl⟩ := mem_map.mp member
  have small : d < 10 := digits_lt (by decide) d digit
  rw [digitByte, if_pos small, UInt8.toNat_ofNat']
  omega

theorem dash_not_mem_decimal (n : Nat) : dash ∉ decimal n := fun member => by
  have := decimal_digits dash member
  simp [dash] at this

theorem underscore_not_mem (m n : Nat) : underscore ∉ decimal m ++ dash :: decimal n := by
  have absent : ∀ k, underscore ∉ decimal k := fun k member => by
    have := decimal_digits underscore member
    simp [underscore] at this
  intro member
  rcases mem_append.mp member with member | member
  · exact absent m member
  · rcases mem_cons.mp member with same | member
    · cases same
    · exact absent n member

theorem parseUint_decimal {n bits : Nat} (fits : n < 2 ^ bits) (word : n < 2 ^ 64) :
    parseUint (decimal n) 10 bits = some n := by
  have value : (UInt64.ofNat n).toNat = n := UInt64.toNat_ofNat_of_lt' word
  have inverse : ofDigits 10 (digits 10 64 n) = n :=
    ofDigits_digits (by decide) (word.trans_le (Nat.pow_le_pow_left (by decide) 64))
  have nonempty : digits 10 64 n ≠ [] := digits_ne_nil
  have small : ∀ d ∈ digits 10 64 n, d < 10 := digits_lt (by decide)
  have parsed : parseUint ((digits 10 64 n).map digitByte) 10 bits = some (ofDigits 10 (digits 10 64 n)) :=
    parseUint_digits (by decide) nonempty small (inverse.symm ▸ fits)
  rw [decimal, appendUint, value, parsed, inverse]

theorem parseInt_decimal {n : Nat} (fits : n < 2 ^ 63) : parseInt (decimal n) = some (n : Int) := by
  have parsed := parseUint_decimal fits (fits.trans (by decide))
  have digit : ∀ c rest, decimal n = c :: rest → 48 ≤ c.toNat := by
    intro c rest shape
    exact (decimal_digits c (shape ▸ mem_cons_self)).1
  unfold parseInt
  split
  · exact absurd (digit _ _ ‹_›) (by decide)
  · exact absurd (digit _ _ ‹_›) (by decide)
  · rw [parsed]
    rfl

theorem parse_cacheFileName {r : ChunkRange} {b : ByteRange} (order : r.start ≤ r.stop) (bound : r.stop < 2 ^ 32)
    (first : 0 ≤ b.start) (bytes : b.start ≤ b.last) (last : b.last < 2 ^ 63) :
    parseCacheFileName (cacheFileName r b) = some (r, b) := by
  have name : cacheFileName r b = (decimal r.start ++ dash :: decimal r.stop) ++
      underscore :: (decimal b.start.toNat ++ dash :: decimal b.last.toNat) := by
    simp [cacheFileName]
  have byteStart : (b.start.toNat : Int) = b.start := Int.toNat_of_nonneg first
  have byteEnd : (b.last.toNat : Int) = b.last := Int.toNat_of_nonneg (first.trans bytes)
  have parts : cut [underscore] (cacheFileName r b) = some (decimal r.start ++ dash :: decimal r.stop,
      decimal b.start.toNat ++ dash :: decimal b.last.toNat) := cut_letter.mpr ⟨name, underscore_not_mem _ _⟩
  have numbers : ∀ m n, cut [dash] (decimal m ++ dash :: decimal n) = some (decimal m, decimal n) :=
    fun m n => cut_letter.mpr ⟨rfl, dash_not_mem_decimal m⟩
  simp only [parseCacheFileName, parts, numbers, underscore_not_mem, guard, not_false_eq_true, if_true, Option.bind_eq_bind, Option.bind_some, Option.pure_def,
    parseUint_decimal (n := r.start) (show r.start < 2 ^ 32 by omega) (by omega),
    parseUint_decimal bound (by omega), parseInt_decimal (n := b.start.toNat) (by omega),
    parseInt_decimal (n := b.last.toNat) (by omega), byteStart, byteEnd, first, first.trans bytes, order, bytes, and_self]

def crcBlocks (f : Bytes) (stop : Nat) : Nat → Nat → UInt32 → Except LayoutError UInt32
  | 0, _, sum => .ok sum
  | fuel + 1, off, sum =>
    if off < stop then do
      let n := min Xorb.chunkBufSize (stop - off)
      let block ← readOrFail f off n
      crcBlocks f stop fuel (off + n) (crc32 sum block)
    else .ok sum

def verifyCacheFileCRC (f : Bytes) (layout : CacheFileLayout) : Except LayoutError Unit := do
  let sum ← crcBlocks f (layout.headerBytes + layout.dataBytes) layout.dataBytes layout.headerBytes 0
  let header ← readOrFail f 0 layout.headerBytes
  require (crc32 sum header = layout.crc) .checksum

/-- Where the chunks from `start` to `stop` of an xorb are, in a file that starts with its chunk
`fileStart`. -/
def readCacheFileMetas (f : Bytes) (layout : CacheFileLayout) (fileStart start stop : Nat) :
    Except LayoutError (List ChunkRef) := do
  require (fileStart ≤ start ∧ start ≤ stop) .invalidRange
  require (stop - fileStart < layout.numOffsets) .invalidRange
  let raw ← readOrFail f (4 + (start - fileStart) * 4) ((stop - start + 1) * 4)
  (range (stop - start)).mapM fun i => do
    let first := (uint32 (raw.drop (i * 4))).toNat
    let last := (uint32 (raw.drop ((i + 1) * 4))).toNat
    require (first ≤ last ∧ last ≤ layout.dataBytes) .invalidOffsets
    return ⟨layout.headerBytes + first, last - first⟩

theorem crcBlocks_eq_ok {f : Bytes} {stop : Nat} (inside : stop ≤ f.length) (fuel off : Nat) (sum : UInt32)
    (enough : stop - off ≤ fuel) :
    crcBlocks f stop fuel off sum = .ok (crc32 sum ((f.drop off).take (stop - off))) := by
  induction fuel generalizing off sum with
  | zero => rw [crcBlocks, Nat.le_zero.mp enough, take_zero, crc32_nil]
  | succ fuel ih =>
    rw [crcBlocks]
    by_cases more : off < stop
    · have positive : 0 < min chunkBufSize (stop - off) := by
        have : 0 < chunkBufSize := by decide
        omega
      have least : min chunkBufSize (stop - off) ≤ stop - off := Nat.min_le_right _ _
      generalize min chunkBufSize (stop - off) = n at *
      have split : stop - off = n + (stop - (off + n)) := by omega
      have whole : (f.drop off).take (n + (stop - (off + n))) =
          (f.drop off).take n ++ (f.drop (off + n)).take (stop - (off + n)) := by
        rw [take_add, drop_drop]
      rw [← split] at whole
      rw [if_pos more]
      dsimp only
      rw [readOrFail_ok (by omega), ok_bind, ih _ _ (by omega), crc32_append, whole]
    · rw [if_neg more, Nat.sub_eq_zero_of_le (Nat.le_of_not_lt more), take_zero, crc32_nil]

theorem offsetsFrom_drop (o : UInt32) (sizes : List Nat) {j : Nat} (bound : j ≤ sizes.length) :
    (offsetsFrom o sizes).drop j = offsetsFrom (o + UInt32.ofNat (sizes.take j).sum) (sizes.drop j) := by
  induction j generalizing o sizes with
  | zero => simp
  | succ j ih =>
    cases sizes with
    | nil => simp at bound
    | cons size rest =>
      rw [offsetsFrom, drop_succ_cons, ih _ _ (by simpa using bound), take_succ_cons, sum_cons,
        UInt32.ofNat_add, UInt32.add_assoc, drop_succ_cons]

theorem flatMap_putUint32_drop (os : List UInt32) (j : Nat) :
    (os.flatMap putUint32).drop (4 * j) = (os.drop j).flatMap putUint32 := by
  induction j generalizing os with
  | zero => rfl
  | succ j ih =>
    cases os with
    | nil => simp
    | cons o rest =>
      rw [Nat.mul_succ, Nat.add_comm, ← drop_drop, flatMap_cons, drop_left' (putUint32_length o), ih, drop_succ_cons]

section
variable {chunks : List Bytes} {r : ChunkRange} {n : Nat}

theorem sealedFile_offset {j : Nat} (bound : j ≤ chunks.length) :
    uint32 ((sealedFile chunks).drop (4 + 4 * j)) = UInt32.ofNat (chunks.take j).flatten.length := by
  have inside : j ≤ (chunks.map length).length := by rwa [length_map]
  have table : 4 * j ≤ ((offsetsFrom 0 (chunks.map length)).flatMap putUint32).length := by
    obtain ⟨mid, count, split⟩ := offsetsFrom_split 0 (chunks.map length)
    rw [putUint32s_length, split, length_append, count]
    omega
  have total : ((chunks.map length).take j).sum = (chunks.take j).flatten.length := by
    rw [length_flatten, map_take]
  rw [sealedFile, cacheHeader, append_assoc, ← drop_drop, drop_left' (putUint32_length _),
    drop_append_of_le_length table, flatMap_putUint32_drop, offsetsFrom_drop _ _ inside, total, UInt32.zero_add]
  cases (chunks.map length).drop j with
  | nil => rw [offsetsFrom, flatMap_singleton, uint32_putUint32]
  | cons size rest => rw [offsetsFrom, flatMap_cons, append_assoc, uint32_putUint32]

theorem uint32_part (f : Bytes) {a b m : Nat} (inside : b + 4 ≤ m) :
    uint32 (((f.drop a).take m).drop b) = uint32 (f.drop (a + b)) := by
  rw [← uint32_take, ← uint32_take (f.drop (a + b)), drop_take, take_take, drop_drop, Nat.min_eq_left (by omega)]

theorem sealedFile_length (chunks : List Bytes) : (sealedFile chunks).length =
    12 + 4 * chunks.length + chunks.flatten.length := by
  rw [sealedFile, length_append, length_append, cacheHeader_length (length_map length), cacheTrailer,
    putUint32_length]
  omega

theorem sealedFile_head : uint32 (sealedFile chunks) = UInt32.ofNat (chunks.length + 1) := by
  rw [sealedFile, cacheHeader, append_assoc, uint32_putUint32, length_map]

def sealedLayout (chunks : List Bytes) : CacheFileLayout :=
  ⟨chunks.length + 1, 8 + 4 * chunks.length, chunks.flatten.length,
    crc32 (crc32 0 chunks.flatten) (cacheHeader (chunks.map length))⟩

theorem sealedFile_layout (size : r.stop - r.start = chunks.length) (valid : validChunkRange r)
    (small : chunks.flatten.length < 2 ^ 32) :
    readCacheFileLayout (sealedFile chunks) r (sealedFile chunks).length = .ok (sealedLayout chunks) := by
  have last : (uint32 ((sealedFile chunks).drop (4 + 4 * chunks.length))).toNat = chunks.flatten.length := by
    rw [sealedFile_offset le_rfl, take_length, UInt32.toNat_ofNat_of_lt' small]
  have head : (uint32 (sealedFile chunks)).toNat = chunks.length + 1 := by
    rw [sealedFile_head, valid.count_lt size]
  have trailer : uint32 ((sealedFile chunks).drop ((sealedFile chunks).length - 4)) =
      crc32 (crc32 0 chunks.flatten) (cacheHeader (chunks.map length)) := by
    have before : (sealedFile chunks).length - 4 =
        (cacheHeader (chunks.map length) ++ chunks.flatten).length := by
      rw [sealedFile_length, length_append, cacheHeader_length (length_map length)]
      omega
    rw [before, sealedFile, ← append_assoc, drop_left, cacheTrailer, ← append_nil (putUint32 _), uint32_putUint32]
  rw [readCacheFileLayout_eq_ok size valid head (by rw [last]; exact sealedFile_length chunks), last, trailer]
  rfl

theorem verify_sealedFile : verifyCacheFileCRC (sealedFile chunks) (sealedLayout chunks) = .ok () := by
  have header : (cacheHeader (chunks.map length)).length = 8 + 4 * chunks.length :=
    cacheHeader_length (length_map length)
  have data : ((sealedFile chunks).drop (8 + 4 * chunks.length)).take chunks.flatten.length = chunks.flatten := by
    rw [sealedFile, drop_left' header, take_left]
  have lead : ((sealedFile chunks).drop 0).take (8 + 4 * chunks.length) = cacheHeader (chunks.map length) := by
    rw [sealedFile, drop_zero, take_left' header]
  have length := sealedFile_length chunks
  rw [verifyCacheFileCRC, sealedLayout]
  dsimp only
  rw [crcBlocks_eq_ok (by omega) _ _ _ (by omega), Nat.add_sub_cancel_left, ok_bind, data,
    readOrFail_ok (by omega), ok_bind, lead, require_true rfl]

def sealedRef (chunks : List Bytes) (j : Nat) : ChunkRef :=
  ⟨8 + 4 * chunks.length + (chunks.take j).flatten.length, (chunks.getD j []).length⟩

theorem read_sealedRef {j : Nat} (bound : j < chunks.length) :
    readAt (sealedFile chunks) (sealedRef chunks j).offset (sealedRef chunks j).size = some (chunks.getD j []) := by
  have split : chunks.flatten = (chunks.take j).flatten ++ (chunks.getD j [] ++ (chunks.drop (j + 1)).flatten) := by
    have parts := congrArg flatten (take_append_drop j chunks)
    rw [flatten_append, drop_eq_getElem_cons bound, flatten_cons] at parts
    rw [getD_eq_getElem _ _ bound, parts]
  have file : sealedFile chunks = (cacheHeader (chunks.map length) ++ (chunks.take j).flatten) ++
      (chunks.getD j [] ++ ((chunks.drop (j + 1)).flatten ++
        cacheTrailer (crc32 0 chunks.flatten) (cacheHeader (chunks.map length)))) := by
    rw [sealedFile]
    nth_rewrite 1 [split]
    simp only [append_assoc]
  rw [file]
  apply readAt_middle _ rfl
  rw [length_append, cacheHeader_length (length_map length)]
  rfl

theorem flatten_take_succ {j : Nat} (bound : j < chunks.length) :
    (chunks.take (j + 1)).flatten.length = (chunks.take j).flatten.length + (chunks.getD j []).length := by
  rw [take_succ_eq_append_getElem bound, flatten_append, length_append, getD_eq_getElem _ _ bound, flatten_singleton]

theorem offset_le (chunks : List Bytes) (j : Nat) : (chunks.take j).flatten.length ≤ chunks.flatten.length := by
  have parts := congrArg length (congrArg flatten (take_append_drop j chunks))
  rw [flatten_append, length_append] at parts
  omega

theorem metas_sealedFile (small : chunks.flatten.length < 2 ^ 32) {fileStart start stop : Nat}
    (first : fileStart ≤ start) (order : start ≤ stop) (last : stop - fileStart ≤ chunks.length) :
    readCacheFileMetas (sealedFile chunks) (sealedLayout chunks) fileStart start stop =
      .ok ((range (stop - start)).map fun i => sealedRef chunks (start - fileStart + i)) := by
  have length := sealedFile_length chunks
  have offset : ∀ j, (UInt32.ofNat (chunks.take j).flatten.length).toNat = (chunks.take j).flatten.length :=
    fun j => UInt32.toNat_ofNat_of_lt' ((offset_le chunks j).trans_lt small)
  rw [readCacheFileMetas, require_true ⟨first, order⟩, ok_bind, sealedLayout]
  dsimp only
  rw [require_true (by omega), ok_bind, readOrFail_ok (by omega), ok_bind]
  apply mapM_eq_ok_map
  intro i member
  have inside := mem_range.mp member
  have read : ∀ k, i ≤ k → k ≤ i + 1 →
      uint32 ((((sealedFile chunks).drop (4 + (start - fileStart) * 4)).take ((stop - start + 1) * 4)).drop (k * 4)) =
        UInt32.ofNat (chunks.take (start - fileStart + k)).flatten.length := by
    intro k least most
    rw [uint32_part _ (by omega), ← sealedFile_offset (show start - fileStart + k ≤ chunks.length by omega)]
    congr 2
    omega
  have bound : start - fileStart + i < chunks.length := by omega
  have next := flatten_take_succ bound
  have whole := offset_le chunks (start - fileStart + (i + 1))
  rw [read i le_rfl (by omega), read (i + 1) (by omega) le_rfl, offset, offset]
  rw [← Nat.add_assoc] at whole ⊢
  rw [require_true ⟨by omega, whole⟩, ok_bind, sealedRef, next, Nat.add_sub_cancel_left]
  rfl

end

end Xet.Download
