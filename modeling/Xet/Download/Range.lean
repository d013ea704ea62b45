import Mathlib.Algebra.BigOperators.Group.List.Basic
import Xet.Lib.Text
import Xet.Shard.Format

/-! Byte ranges of a file, as a request header names them, and the part of a term that holds
bytes of one. -/
namespace Xet.Download
open Wire Shard List Text

/-- The bytes from `start` to `last`, both included. -/
structure ByteRange where
  start : Int
  last : Int
  deriving DecidableEq

def bytesUnit : Bytes := [98, 121, 116, 101, 115, 61]

def dash : UInt8 := 45

def parseByteRange (header : Bytes) (size : Int) : ByteRange :=
  let whole : ByteRange := ⟨0, size - 1⟩
  match (cutPrefix bytesUnit header).bind (cut [dash]) with
  | none => whole
  | some ([], last) =>
    match parseUint last 10 63 with
    | none => whole
    | some suffix => ⟨max (size - suffix) 0, size - 1⟩
  | some (first, last) =>
    match parseUint first 10 63 with
    | none => whole
    | some firstPos =>
      if last = [] then ⟨firstPos, size - 1⟩
      else
        match parseUint last 10 63 with
        | none => whole
        | some lastPos => if lastPos < firstPos then whole else ⟨firstPos, min lastPos (size - 1)⟩

/-- A parsed range lies in the file, unless it is empty and starts behind it. -/
structure ByteRange.Within (rng : ByteRange) (size : Int) : Prop where
  start : 0 ≤ rng.start
  last : rng.last < size
  order : rng.start ≤ rng.last ∨ size ≤ rng.start

theorem parseByteRange_within (header : Bytes) {size : Int} (positive : 0 ≤ size) :
    (parseByteRange header size).Within size := by
  have whole : ByteRange.Within ⟨0, size - 1⟩ size := ⟨by simp, by simp, by simp only; omega⟩
  unfold parseByteRange
  dsimp only
  split
  · exact whole
  · split
    · exact whole
    · exact ⟨by simp only; omega, by simp, by simp only; omega⟩
  · split
    · exact whole
    · split
      · exact ⟨by simp only; omega, by simp, by simp only; omega⟩
      · split
        · exact whole
        · split
          · exact whole
          · exact ⟨by simp only; omega, by simp only; omega, by simp only; omega⟩

example : parseByteRange (bytesUnit ++ [49, 48, 45, 50, 48]) 16 = ⟨10, 15⟩ := by decide
example : parseByteRange (bytesUnit ++ [45, 52]) 16 = ⟨12, 15⟩ := by decide

/-- Chunks `first` up to `last` hold bytes of the range; they lie from `lo` to `hi` in the file.
The next chunk starts at `pos`. -/
structure TrimState where
  first : Nat
  last : Nat
  lo : Int
  hi : Int
  pos : Int

def trimStep (rng : ByteRange) (c size : Nat) (s : TrimState) : TrimState :=
  let next := s.pos + size
  { first := if next ≤ rng.start then c + 1 else s.first
    lo := if next ≤ rng.start then next else s.lo
    last := if s.pos ≤ rng.last then c + 1 else s.last
    hi := if s.pos ≤ rng.last then next else s.hi
    pos := next }

def trimLoop (rng : ByteRange) : Nat → List Nat → TrimState → TrimState
  | _, [], s => s
  | c, size :: rest, s => trimLoop rng (c + 1) rest (trimStep rng c size s)

def chunkSizes (chunks : List CASChunkSequenceEntry) (start stop : Nat) : List Nat :=
  ((chunks.drop start).take (stop - start)).map (·.unpackedSegBytes.toNat)

/-- Cut the term, which lies `start` bytes into its file, to the chunks that hold bytes of the
range, and the number of bytes cut from its front. It stays whole unless the shard has a block of
its xorb that agrees with it. -/
def trimSegment (sh : Shard) (seg : FileDataSequenceEntry) (start : Int) (rng : ByteRange) :
    FileDataSequenceEntry × Int :=
  let stop := start + seg.unpackedSegBytes.toNat
  if rng.start ≤ start ∧ stop - 1 ≤ rng.last then (seg, 0)
  else
    match sh.casInfos.find? (·.casHash = seg.casHash) with
    | none => (seg, 0)
    | some cb =>
      let c := seg.chunkIndexStart.toNat
      if cb.chunks.length < seg.chunkIndexEnd.toNat then (seg, 0)
      else
        let s := trimLoop rng c (chunkSizes cb.chunks c seg.chunkIndexEnd.toNat) ⟨c, c, start, start, start⟩
        if s.pos ≠ stop ∨ s.last ≤ s.first then (seg, 0)
        else
          ({ seg with
            chunkIndexStart := UInt32.ofNat s.first
            chunkIndexEnd := UInt32.ofNat s.last
            unpackedSegBytes := UInt32.ofNat (s.hi - s.lo).toNat }, s.lo - start)

/-- Of consecutive chunks of the given sizes from `p` on, the one that holds byte `q` ends at `stop`. -/
def ChunkEnd (p : Int) (sizes : List Nat) (q stop : Int) : Prop :=
  ∃ (before : List Nat) (n : Nat) (after : List Nat), sizes = before ++ n :: after ∧
    p + before.sum ≤ q ∧ q < p + before.sum + n ∧ stop = p + before.sum + n

theorem exists_chunkEnd {p q : Int} {sizes : List Nat} (low : p ≤ q) (high : q < p + sizes.sum) :
    ∃ stop, ChunkEnd p sizes q stop ∧ stop ≤ p + sizes.sum := by
  induction sizes generalizing p with
  | nil =>
    simp only [sum_nil] at high
    omega
  | cons n rest ih =>
    simp only [sum_cons, Nat.cast_add] at high ⊢
    by_cases here : q < p + n
    · exact ⟨p + n, ⟨[], n, rest, rfl, by simpa using low, by simpa using here, by simp⟩, by omega⟩
    · obtain ⟨stop, ⟨before, m, after, rfl, lo, hi, rfl⟩, bound⟩ := ih (p := p + n) (by omega) (by omega)
      refine ⟨_, ⟨n :: before, m, after, rfl, ?_, ?_, rfl⟩, ?_⟩ <;>
        simp only [sum_cons, Nat.cast_add] at * <;> omega

/-- Behind chunks of sizes `done`, the first of them number `c` at `p`: those before `first` end
before the range starts, and they end at `lo`. -/
def FrontAt (rng : ByteRange) (c : Nat) (p : Int) (done : List Nat) (first : Nat) (lo : Int) : Prop :=
  ∃ (before kept : List Nat), done = before ++ kept ∧ first = c + before.length ∧ lo = p + before.sum ∧
    (before = [] ∨ lo ≤ rng.start) ∧ ∀ n rest, kept = n :: rest → rng.start < lo + n

def BackAt (rng : ByteRange) (c : Nat) (p : Int) (done : List Nat) (last : Nat) (hi : Int) : Prop :=
  ∃ (kept after : List Nat), done = kept ++ after ∧ last = c + kept.length ∧ hi = p + kept.sum ∧
    (∀ rest n, kept = rest ++ [n] → p + rest.sum ≤ rng.last) ∧ (after = [] ∨ rng.last < hi)

section
variable {rng : ByteRange} {c : Nat} {p lo hi : Int} {done : List Nat} {first last : Nat}

theorem FrontAt.step (inv : FrontAt rng c p done first lo) (n : Nat) {next : Int}
    (position : next = p + done.sum + n) :
    FrontAt rng c p (done ++ [n]) (if next ≤ rng.start then c + done.length + 1 else first)
      (if next ≤ rng.start then next else lo) := by
  obtain ⟨before, kept, rfl, rfl, rfl, low, high⟩ := inv
  simp only [sum_append, Nat.cast_add] at position
  by_cases behind : next ≤ rng.start
  · simp only [if_pos behind]
    cases kept with
    | nil =>
      refine ⟨before ++ [n], [], by simp, by simp [Nat.add_assoc], ?_, .inr behind, nofun⟩
      simp only [sum_append, sum_singleton, Nat.cast_add, sum_nil] at position ⊢
      omega
    | cons m rest =>
      have beyond := high m rest rfl
      simp only [sum_cons, Nat.cast_add] at position
      omega
  · simp only [if_neg behind]
    refine ⟨before, kept ++ [n], by simp, rfl, rfl, low, fun m rest shape => ?_⟩
    cases kept with
    | nil =>
      cases shape
      simp only [sum_nil] at position
      omega
    | cons k others =>
      cases shape
      exact high _ _ rfl

theorem BackAt.step (inv : BackAt rng c p done last hi) (n : Nat) {pos : Int} (position : pos = p + done.sum) :
    BackAt rng c p (done ++ [n]) (if pos ≤ rng.last then c + done.length + 1 else last)
      (if pos ≤ rng.last then pos + n else hi) := by
  obtain ⟨kept, after, rfl, rfl, rfl, low, high⟩ := inv
  simp only [sum_append, Nat.cast_add] at position
  by_cases within : pos ≤ rng.last
  · simp only [if_pos within]
    rcases high with rfl | beyond
    · simp only [sum_nil, Nat.cast_zero, add_zero] at position
      refine ⟨kept ++ [n], [], by simp, by simp [Nat.add_assoc], ?_, fun rest m shape => ?_, .inl rfl⟩
      · simp only [sum_append, sum_singleton, Nat.cast_add]
        omega
      · obtain ⟨rfl, -⟩ := append_inj' shape rfl
        omega
    · omega
  · simp only [if_neg within]
    refine ⟨kept, after ++ [n], by simp, rfl, rfl, low, .inr ?_⟩
    rcases high with rfl | beyond
    · simp only [sum_nil, Nat.cast_zero, add_zero] at position
      omega
    · exact beyond

structure TrimInv (rng : ByteRange) (c : Nat) (p : Int) (done : List Nat) (s : TrimState) : Prop where
  pos : s.pos = p + done.sum
  front : FrontAt rng c p done s.first s.lo
  back : BackAt rng c p done s.last s.hi

theorem trimLoop_inv {s : TrimState} (inv : TrimInv rng c p done s) (sizes : List Nat) :
    TrimInv rng c p (done ++ sizes) (trimLoop rng (c + done.length) sizes s) := by
  induction sizes generalizing done s with
  | nil => simpa [trimLoop] using inv
  | cons n rest ih =>
    have next : TrimInv rng c p (done ++ [n]) (trimStep rng (c + done.length) n s) := by
      refine ⟨?_, inv.front.step n (by rw [inv.pos]), inv.back.step n inv.pos⟩
      simp only [trimStep, inv.pos, sum_append, sum_singleton, Nat.cast_add]
      omega
    have tail := ih next
    simp only [append_assoc, singleton_append, length_append, length_singleton, ← Nat.add_assoc] at tail
    exact tail

theorem FrontAt.of_back {sizes : List Nat} (front : FrontAt rng c p sizes first lo)
    (back : BackAt rng c p sizes last hi) (order : first < last) :
    ∃ (before kept after : List Nat), sizes = before ++ (kept ++ after) ∧
      first = c + before.length ∧ last = c + before.length + kept.length ∧
      lo = p + before.sum ∧ hi = p + before.sum + kept.sum ∧ (before = [] ∨ lo ≤ rng.start) ∧
      (∃ n rest, kept = n :: rest ∧ rng.start < lo + n) ∧
      (∃ rest n, kept = rest ++ [n] ∧ lo + rest.sum ≤ rng.last) ∧ (after = [] ∨ rng.last < hi) := by
  obtain ⟨before, rest, rfl, rfl, rfl, low, high⟩ := front
  obtain ⟨taken, after, shape, rfl, rfl, within, beyond⟩ := back
  obtain ⟨kept, rfl⟩ : before <+: taken := by
    apply prefix_of_prefix_length_le (prefix_append before rest)
    · rw [shape]
      exact prefix_append taken after
    · omega
  rw [append_assoc] at shape
  obtain rfl := append_cancel_left shape
  simp only [length_append] at order
  refine ⟨before, kept, after, rfl, rfl, by simp [Nat.add_assoc], rfl, by simp [Int.add_assoc], low, ?_, ?_,
    beyond⟩
  · cases kept with
    | nil => simp at order
    | cons n others => exact ⟨n, others, rfl, high n _ rfl⟩
  · rcases eq_nil_or_concat kept with rfl | ⟨others, n, rfl⟩
    · simp at order
    · refine ⟨others, n, concat_eq_append, ?_⟩
      have bound := within (before ++ others) n (by simp)
      simpa [Int.add_assoc] using bound

theorem FrontAt.lt_back {sizes : List Nat} (front : FrontAt rng c p sizes first lo)
    (back : BackAt rng c p sizes last hi) (order : rng.start ≤ rng.last) (low : p ≤ rng.last)
    (high : rng.start < p + sizes.sum) (inside : ¬ (rng.start ≤ p ∧ p + sizes.sum - 1 ≤ rng.last)) : first < last := by
  obtain ⟨before, rest, rfl, rfl, rfl, ended, -⟩ := front
  obtain ⟨taken, after, shape, rfl, rfl, -, beyond⟩ := back
  by_contra short
  have within : before <+: taken ++ after := by
    rw [← shape]
    exact prefix_append before rest
  obtain ⟨more, rfl⟩ := prefix_of_prefix_length_le (prefix_append taken after) within (by omega)
  rw [append_assoc] at shape
  obtain rfl := append_cancel_left shape
  simp only [sum_append, Nat.cast_add] at high inside ended
  rcases beyond with empty | beyond
  · obtain ⟨rfl, rfl⟩ := append_eq_nil_iff.mp empty
    rcases ended with empty | ended
    · obtain ⟨rfl, -⟩ := append_eq_nil_iff.mp empty
      simp only [sum_nil] at high inside
      omega
    · simp only [sum_nil] at high ended
      omega
  · rcases ended with empty | ended
    · obtain ⟨rfl, rfl⟩ := append_eq_nil_iff.mp empty
      simp only [sum_nil] at beyond
      omega
    · omega

end

def Blocked (sh : Shard) (hash : XorbHash) : Prop := ∃ cb ∈ sh.casInfos, cb.casHash = hash

/-- The term `e` is `seg`, which lies `p` bytes into the file, cut to its chunks of sizes `kept`. -/
structure Cut (sh : Shard) (rng : ByteRange) (p : Int) (seg e : FileDataSequenceEntry) (skipped : Int)
    (sizes before kept after : List Nat) : Prop where
  split : sizes = before ++ (kept ++ after)
  hash : e.casHash = seg.casHash
  first : e.chunkIndexStart.toNat = seg.chunkIndexStart.toNat + before.length
  count : e.chunkIndexEnd.toNat - e.chunkIndexStart.toNat = kept.length
  bytes : e.unpackedSegBytes.toNat = kept.sum
  skip : skipped = before.sum
  front : before = [] ∨ p + before.sum ≤ rng.start
  reaches : rng.start < p + before.sum + kept.sum
  lead : Blocked sh seg.casHash →
    rng.start ≤ p + before.sum ∨ ∃ n rest, kept = n :: rest ∧ rng.start < p + before.sum + n
  back : (Blocked sh seg.casHash ∧ ChunkEnd p sizes rng.last (p + before.sum + kept.sum)) ∨
    after = [] ∧ (Blocked sh seg.casHash → p + sizes.sum ≤ rng.last)

section
variable {sh : Shard} {rng : ByteRange} {p : Int} {seg : FileDataSequenceEntry} {sizes : List Nat}

theorem Cut.whole (count : sizes.length = seg.chunkIndexEnd.toNat - seg.chunkIndexStart.toNat)
    (total : sizes.sum = seg.unpackedSegBytes.toNat) (high : rng.start < p + sizes.sum)
    (lead : Blocked sh seg.casHash → rng.start ≤ p)
    (back : Blocked sh seg.casHash → ChunkEnd p sizes rng.last (p + sizes.sum) ∨ p + sizes.sum ≤ rng.last) :
    Cut sh rng p seg seg 0 sizes [] sizes [] where
  split := by simp
  hash := rfl
  first := by simp
  count := count.symm
  bytes := total.symm
  skip := by simp
  front := .inl rfl
  reaches := by simpa using high
  lead := fun block => .inl (by simpa using lead block)
  back := by
    by_cases block : Blocked sh seg.casHash
    · rcases back block with ended | beyond
      · exact .inl ⟨block, by simpa using ended⟩
      · exact .inr ⟨rfl, fun _ => beyond⟩
    · exact .inr ⟨rfl, fun yes => absurd yes block⟩

theorem trimSegment_cut (count : sizes.length = seg.chunkIndexEnd.toNat - seg.chunkIndexStart.toNat)
    (total : sizes.sum = seg.unpackedSegBytes.toNat)
    (agrees : ∀ cb ∈ sh.casInfos, cb.casHash = seg.casHash → seg.chunkIndexEnd.toNat ≤ cb.chunks.length ∧
      chunkSizes cb.chunks seg.chunkIndexStart.toNat seg.chunkIndexEnd.toNat = sizes)
    (order : rng.start ≤ rng.last) (low : p ≤ rng.last) (high : rng.start < p + sizes.sum) :
    ∃ before kept after, Cut sh rng p seg (trimSegment sh seg p rng).1 (trimSegment sh seg p rng).2
      sizes before kept after := by
  unfold trimSegment
  dsimp only
  rw [← total]
  split
  · rename_i inside
    refine ⟨[], sizes, [], Cut.whole count total high (fun _ => inside.1) fun _ => ?_⟩
    -- The chunk that holds the last byte of the term ends with the term.
    by_cases beyond : p + sizes.sum ≤ rng.last
    · exact .inr beyond
    · obtain ⟨stop, ended, bound⟩ := exists_chunkEnd low (show rng.last < p + sizes.sum by omega)
      obtain ⟨before, n, after, shape, from_, to_, rfl⟩ := ended
      have last : p + before.sum + n = p + sizes.sum := by omega
      rw [← last]
      exact .inl ⟨before, n, after, shape, from_, to_, rfl⟩
  · rename_i outside
    cases found : sh.casInfos.find? (·.casHash = seg.casHash) with
    | none =>
      have unblocked : ¬ Blocked sh seg.casHash := by
        rintro ⟨cb, member, same⟩
        exact absurd same (by simpa using find?_eq_none.mp found cb member)
      exact ⟨[], sizes, [], Cut.whole count total high (fun yes => absurd yes unblocked)
        fun yes => absurd yes unblocked⟩
    | some cb =>
      have member := mem_of_find?_eq_some found
      have same : cb.casHash = seg.casHash := by simpa using find?_some found
      obtain ⟨bound, block⟩ := agrees cb member same
      dsimp only
      rw [if_neg (Nat.not_lt.mpr bound), block]
      have start : TrimInv rng seg.chunkIndexStart.toNat p []
          ⟨seg.chunkIndexStart.toNat, seg.chunkIndexStart.toNat, p, p, p⟩ :=
        ⟨by simp, ⟨[], [], rfl, rfl, by simp, .inl rfl, nofun⟩,
          ⟨[], [], rfl, rfl, by simp, by simp, .inl rfl⟩⟩
      obtain ⟨pos, front, back⟩ := trimLoop_inv start sizes
      simp only [length_nil, Nat.add_zero, nil_append] at pos front back
      have inner := front.lt_back back order low high outside
      rw [if_neg (by simp [pos, inner])]
      generalize trimLoop rng _ sizes _ = s at front back inner ⊢
      obtain ⟨before, kept, after, shape, first, last, lo, hi, ended, ⟨n, rest, lead, reached⟩,
        ⟨others, m, trail, within⟩, beyond⟩ := front.of_back back inner
      have indexes := seg.chunkIndexEnd.toNat_lt
      have bytes := seg.unpackedSegBytes.toNat_lt
      have size : kept.sum = others.sum + m := by simp [trail]
      have positive : 0 < kept.length := by simp [trail]
      have widths : sizes.length = before.length + (kept.length + after.length) ∧
          sizes.sum = before.sum + (kept.sum + after.sum) := by simp [shape]
      have starts : (UInt32.ofNat s.first).toNat = s.first :=
        UInt32.toNat_ofNat_of_lt' (by simp only [UInt32.size]; omega)
      have stops : (UInt32.ofNat s.last).toNat = s.last :=
        UInt32.toNat_ofNat_of_lt' (by simp only [UInt32.size]; omega)
      refine ⟨before, kept, after, shape, rfl, starts.trans first, ?_, ?_, by simp only [lo]; omega,
        ended.imp_right fun h => lo ▸ h, ?_, fun _ => .inr ⟨n, rest, lead, lo ▸ reached⟩, ?_⟩
      · simp only [starts, stops]
        omega
      · have difference : (s.hi - s.lo).toNat = kept.sum := by omega
        simp only [difference]
        exact UInt32.toNat_ofNat_of_lt' (by simp only [UInt32.size]; omega)
      · have front : n ≤ kept.sum := by simp [lead]
        omega
      · rcases beyond with rfl | beyond
        · by_cases ended : rng.last < p + sizes.sum
          · refine .inl ⟨⟨cb, member, same⟩, before ++ others, m, [], by simp [shape, trail], ?_, ?_, ?_⟩ <;>
              simp only [sum_append, sum_nil, Nat.cast_add] at * <;> omega
          · exact .inr ⟨rfl, fun _ => by omega⟩
        · refine .inl ⟨⟨cb, member, same⟩, before ++ others, m, after, by simp [shape, trail], ?_, ?_, ?_⟩ <;>
            simp only [sum_append, Nat.cast_add] at * <;> omega

end

end Xet.Download
