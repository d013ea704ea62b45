import Mathlib.Algebra.BigOperators.Group.List.Basic
import Xet.Shard.Format

/-! The sums that `Validate` checks, in exact arithmetic. Its counters have 32 bits, so every sum is checked
modulo 2^32. -/
namespace Xet.Shard
open Wire List Nat

def unpackedSum (chunks : List CASChunkSequenceEntry) : Nat :=
  (chunks.map fun c => c.unpackedSegBytes.toNat).sum

def runOf (cb : CASBlock) (entry : FileDataSequenceEntry) : List CASChunkSequenceEntry :=
  (cb.chunks.drop entry.chunkIndexStart.toNat).take (entry.chunkIndexEnd.toNat - entry.chunkIndexStart.toNat)

/-- Every offset, total and term length of the shard is the exact sum it stands for. -/
structure Exact (s : Shard) : Prop where
  starts : ∀ cb ∈ s.casInfos, ∀ j chunk, cb.chunks[j]? = some chunk →
    chunk.byteRangeStart.toNat = unpackedSum (cb.chunks.take j)
  totals : ∀ cb ∈ s.casInfos, cb.numBytesInCAS.toNat = unpackedSum cb.chunks
  terms : ∀ fb ∈ s.files, ∀ entry ∈ fb.entries, ∀ cb ∈ s.casInfos, cb.casHash = entry.casHash →
    entry.unpackedSegBytes.toNat = unpackedSum (runOf cb entry)

section
variable {s : Shard}

@[simp] theorem unpackedSum_cons (c : CASChunkSequenceEntry) (rest : List CASChunkSequenceEntry) :
    unpackedSum (c :: rest) = c.unpackedSegBytes.toNat + unpackedSum rest := by
  simp [unpackedSum]

theorem unpackedSum_append (xs ys : List CASChunkSequenceEntry) :
    unpackedSum (xs ++ ys) = unpackedSum xs + unpackedSum ys := by
  simp [unpackedSum]

theorem unpackedSum_take_le (n : Nat) (chunks : List CASChunkSequenceEntry) :
    unpackedSum (chunks.take n) ≤ unpackedSum chunks := by
  have split := unpackedSum_append (chunks.take n) (chunks.drop n)
  rw [take_append_drop] at split
  omega

theorem unpackedSum_drop_le (n : Nat) (chunks : List CASChunkSequenceEntry) :
    unpackedSum (chunks.drop n) ≤ unpackedSum chunks := by
  have split := unpackedSum_append (chunks.take n) (chunks.drop n)
  rw [take_append_drop] at split
  omega

theorem runOf_le (cb : CASBlock) (entry : FileDataSequenceEntry) : unpackedSum (runOf cb entry) ≤ unpackedSum cb.chunks :=
  (unpackedSum_take_le _ _).trans (unpackedSum_drop_le _ _)

/-- The counter of the chunk loop is the exact sum modulo 2^32, and so is each offset it has checked. -/
theorem checkChunks_mod {block j : Nat} {offset final : UInt32} {chunks : List CASChunkSequenceEntry}
    (accepted : checkChunks block j offset chunks = .ok final) :
    final.toNat = (offset.toNat + unpackedSum chunks) % 2 ^ 32 ∧ ∀ i chunk, chunks[i]? = some chunk →
      chunk.byteRangeStart.toNat = (offset.toNat + unpackedSum (chunks.take i)) % 2 ^ 32 := by
  induction chunks generalizing j offset with
  | nil =>
    cases accepted
    exact ⟨(mod_eq_of_lt final.toNat_lt).symm, nofun⟩
  | cons c rest ih =>
    simp only [checkChunks, bind_eq_ok, require_eq_ok, exists_const] at accepted
    obtain ⟨-, start, next⟩ := accepted
    obtain ⟨total, starts⟩ := ih next
    simp only [UInt32.toNat_add, mod_add_mod, add_assoc] at total starts
    constructor
    · rw [unpackedSum_cons]
      exact total
    · intro i chunk found
      cases i with
      | zero =>
        cases found
        rw [start]
        exact (mod_eq_of_lt offset.toNat_lt).symm
      | succ i =>
        rw [take_succ_cons, unpackedSum_cons]
        exact starts i chunk found

theorem foldl_mod (chunks : List CASChunkSequenceEntry) (acc : UInt32) :
    (chunks.foldl (fun acc c => acc + c.unpackedSegBytes) acc).toNat = (acc.toNat + unpackedSum chunks) % 2 ^ 32 := by
  induction chunks generalizing acc with
  | nil => exact (mod_eq_of_lt acc.toNat_lt).symm
  | cons c rest ih =>
    rw [foldl_cons, ih, UInt32.toNat_add, mod_add_mod, add_assoc, unpackedSum_cons]

theorem termBytes_mod (chunks : List CASChunkSequenceEntry) : (termBytes chunks).toNat = unpackedSum chunks % 2 ^ 32 := by
  rw [termBytes, foldl_mod, show (0 : UInt32).toNat = 0 from rfl, zero_add]

theorem checkDistinct_unseen {i : Nat} {seen : List XorbHash} {blocks : List CASBlock}
    (accepted : checkDistinct i seen blocks = .ok ()) : ∀ cb ∈ blocks, cb.casHash ∉ seen := by
  induction blocks generalizing i seen with
  | nil => exact nofun
  | cons cb rest ih =>
    simp only [checkDistinct, bind_eq_ok, require_eq_ok, exists_const] at accepted
    obtain ⟨unseen, next⟩ := accepted
    intro other member
    rcases mem_cons.mp member with rfl | later
    · exact unseen
    · exact fun known => ih next other later (mem_cons_of_mem _ known)

theorem checkDistinct_find {i : Nat} {seen : List XorbHash} {blocks : List CASBlock} {cb : CASBlock}
    (accepted : checkDistinct i seen blocks = .ok ()) (member : cb ∈ blocks) :
    blocks.find? (fun other => other.casHash = cb.casHash) = some cb := by
  induction blocks generalizing i seen with
  | nil => cases member
  | cons first rest ih =>
    simp only [checkDistinct, bind_eq_ok, require_eq_ok, exists_const] at accepted
    obtain ⟨-, next⟩ := accepted
    rcases mem_cons.mp member with rfl | later
    · exact find?_cons_of_pos (by simp)
    · have other : first.casHash ≠ cb.casHash := by
        intro same
        exact checkDistinct_unseen next cb later (same ▸ mem_cons_self)
      rw [find?_cons_of_neg (by simpa using other)]
      exact ih next later

/-- What `Validate` has checked, in exact arithmetic: each value is the sum modulo 2^32. -/
structure Modular (s : Shard) : Prop where
  starts : ∀ cb ∈ s.casInfos, ∀ j chunk, cb.chunks[j]? = some chunk →
    chunk.byteRangeStart.toNat = unpackedSum (cb.chunks.take j) % 2 ^ 32
  totals : ∀ cb ∈ s.casInfos, cb.numBytesInCAS.toNat = unpackedSum cb.chunks % 2 ^ 32
  terms : ∀ fb ∈ s.files, ∀ entry ∈ fb.entries, ∀ cb ∈ s.casInfos, cb.casHash = entry.casHash →
    entry.unpackedSegBytes.toNat = unpackedSum (runOf cb entry) % 2 ^ 32

theorem validate_modular (accepted : s.validate = .ok ()) : Modular s := by
  simp only [validate, bind_eq_ok, forIndexed_eq_ok] at accepted
  obtain ⟨⟨⟩, distinct, ⟨⟩, blocks, files⟩ := accepted
  have block : ∀ cb ∈ s.casInfos, cb.numBytesInCAS.toNat = unpackedSum cb.chunks % 2 ^ 32 ∧
      ∀ j chunk, cb.chunks[j]? = some chunk → chunk.byteRangeStart.toNat = unpackedSum (cb.chunks.take j) % 2 ^ 32 := by
    intro cb member
    obtain ⟨i, found⟩ := mem_iff_getElem?.mp member
    have checked := forIndexed_eq_ok.mp blocks i cb found
    simp only [checkCASBlock, bind_eq_ok, require_eq_ok, exists_const] at checked
    obtain ⟨-, final, loop, rfl⟩ := checked
    have sums := checkChunks_mod loop
    simpa only [show (0 : UInt32).toNat = 0 from rfl, zero_add] using sums
  constructor
  case starts => exact fun cb member => (block cb member).2
  case totals => exact fun cb member => (block cb member).1
  case terms =>
    intro fb member entry listed cb stored same
    obtain ⟨i, found⟩ := mem_iff_getElem?.mp member
    have checked := files i fb found
    simp only [checkFile, bind_eq_ok, forIndexed_eq_ok] at checked
    obtain ⟨⟨⟩, -, ⟨⟩, -, ⟨⟩, -, entries⟩ := checked
    obtain ⟨j, here⟩ := mem_iff_getElem?.mp listed
    have term := entries j entry here
    have block : s.casBlock entry.casHash = some cb := by
      rw [casBlock, ← same]
      exact checkDistinct_find distinct stored
    simp only [checkEntry, block, bind_eq_ok, require_eq_ok, exists_const] at term
    obtain ⟨-, -, -, size⟩ := term
    rw [← size, termBytes_mod]
    rfl

/-- In an accepted shard every offset, total and term length is the exact sum if and only if the chunks of
no block have 2^32 bytes or more. -/
theorem validate_exact_iff (s : Shard) (accepted : s.validate = .ok ()) :
    Exact s ↔ ∀ cb ∈ s.casInfos, unpackedSum cb.chunks < 2 ^ 32 := by
  have checked := validate_modular accepted
  constructor
  · intro exactly_summed cb member
    rw [← exactly_summed.totals cb member]
    exact cb.numBytesInCAS.toNat_lt
  · intro small
    constructor
    case starts =>
      intro cb member j chunk found
      have bound := unpackedSum_take_le j cb.chunks
      rw [checked.starts cb member j chunk found, Nat.mod_eq_of_lt (bound.trans_lt (small cb member))]
    case totals =>
      intro cb member
      rw [checked.totals cb member, Nat.mod_eq_of_lt (small cb member)]
    case terms =>
      intro fb member entry listed cb stored same
      have bound := runOf_le cb entry
      rw [checked.terms fb member entry listed cb stored same, Nat.mod_eq_of_lt (bound.trans_lt (small cb stored))]

end

/-- Chunks of the given sizes, each with the offset that a 32-bit counter gives it, and a term over the
first two of them. -/
def wrappingShard (sizes : List UInt32) (total term : UInt32) : Shard where
  footerSize := 0
  files := [⟨Hash.zero, 0, [⟨Hash.zero, 0, term, 0, 2⟩], [], none⟩]
  casInfos := [⟨Hash.zero, 0, (sizes.foldl (fun (acc : List CASChunkSequenceEntry × UInt32) size =>
    (acc.1 ++ [⟨Hash.zero, acc.2, size, 0⟩], acc.2 + size)) ([], 0)).1, total, 0⟩]
  footer := none

theorem small_shard_exact : (wrappingShard [3, 4, 5] 12 7).validate = .ok () ∧ Exact (wrappingShard [3, 4, 5] 12 7) := by
  have accepted : (wrappingShard [3, 4, 5] 12 7).validate = .ok () := by decide +kernel
  refine ⟨accepted, (validate_exact_iff _ accepted).mpr ?_⟩
  decide +kernel

/-- Two chunks of 2^31 bytes bring the counters back to zero: the third chunk is said to start at 0, the
block to have 5 bytes and the term to have none. -/
theorem wrapped_sums_accepted :
    let s := wrappingShard [0x80000000, 0x80000000, 5] 5 0
    s.validate = .ok () ∧
      ∃ cb ∈ s.casInfos, unpackedSum cb.chunks = 2 ^ 32 + 5 ∧ cb.numBytesInCAS = 5 ∧
        unpackedSum (cb.chunks.take 2) = 2 ^ 32 ∧ cb.chunks[2]?.map (·.byteRangeStart) = some 0 ∧
        ∃ fb ∈ s.files, ∃ entry ∈ fb.entries, cb.casHash = entry.casHash ∧ entry.unpackedSegBytes = 0 ∧
          unpackedSum (runOf cb entry) = 2 ^ 32 := by
  decide +kernel

end Xet.Shard
