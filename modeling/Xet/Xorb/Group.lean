import Xet.Lib.Packing
import Xet.Xorb.Encoder

/-! Grouping of new chunks into xorbs: in order, by their sizes, each xorb filled as far as the limits allow. The sizes
are 32-bit and the running sum is a 64-bit word, which a group of at most 8192 chunks cannot exceed. -/
namespace Xet.Xorb
open Packing Wire List

structure Grouping where
  groups : List (List Nat)
  currentGroup : List Nat
  currentSize : UInt64

def Grouping.add (targetSize : UInt64) (s : Grouping) (i : Nat) (size : UInt32) : Grouping :=
  let chunkSize := size.toUInt64
  let s :=
    if 0 < s.currentGroup.length ∧
        (targetSize < s.currentSize + chunkSize ∨ maxChunksPerXorb ≤ s.currentGroup.length) then
      ⟨s.groups ++ [s.currentGroup], [], 0⟩
    else s
  ⟨s.groups, s.currentGroup ++ [i], s.currentSize + chunkSize⟩

def Grouping.addAll (targetSize : UInt64) : Nat → Grouping → List UInt32 → Grouping
  | _, s, [] => s
  | i, s, size :: rest => Grouping.addAll targetSize (i + 1) (s.add targetSize i size) rest

def groupChunkIndicesBySize (chunkSizes : List UInt32) (targetSize : UInt64) : List (List Nat) :=
  let s := Grouping.addAll targetSize 0 ⟨[], [], 0⟩ chunkSizes
  if 0 < s.currentGroup.length then s.groups ++ [s.currentGroup] else s.groups

def groupBytes (chunkSizes : List UInt32) (group : List Nat) : Nat :=
  (group.map fun i => (chunkSizes.getD i 0).toNat).sum

/-- What a xorb may hold: a chunk too large for the target is packed alone. -/
structure Admissible (chunkSizes : List UInt32) (targetSize : UInt64) (group : List Nat) : Prop where
  count : group.length ≤ maxChunksPerXorb
  bytes : groupBytes chunkSizes group ≤ targetSize.toNat ∨ group.length = 1

section
variable {chunkSizes : List UInt32} {targetSize : UInt64}

theorem groupBytes_append (g h : List Nat) :
    groupBytes chunkSizes (g ++ h) = groupBytes chunkSizes g + groupBytes chunkSizes h := by
  rw [groupBytes, map_append, sum_append_nat]
  rfl

theorem groupBytes_singleton (i : Nat) : groupBytes chunkSizes [i] = (chunkSizes.getD i 0).toNat :=
  Nat.add_zero _

theorem groupBytes_le (g : List Nat) : groupBytes chunkSizes g ≤ g.length * 2 ^ 32 := by
  induction g with
  | nil => exact Nat.le_refl 0
  | cons i g ih =>
    have size := (chunkSizes.getD i 0).toNat_lt
    rw [← singleton_append, groupBytes_append, groupBytes_singleton, length_append, length_singleton]
    omega

theorem admissible_singleton (i : Nat) : Admissible chunkSizes targetSize [i] :=
  ⟨show 1 ≤ maxChunksPerXorb by decide, Or.inr rfl⟩

theorem Admissible.part {g h : List Nat} (whole : Admissible chunkSizes targetSize h) (within : g <:+: h) :
    Admissible chunkSizes targetSize g := by
  have count := whole.count
  have shorter := within.length_le
  obtain ⟨before, after, rfl⟩ := within
  refine ⟨by omega, ?_⟩
  rcases whole.bytes with small | single
  · rw [groupBytes_append, groupBytes_append] at small
    exact Or.inl (by omega)
  · cases g with
    | nil => exact Or.inl (Nat.zero_le _)
    | cons i g =>
      rw [length_cons] at shorter ⊢
      exact Or.inr (by omega)

theorem size_after {g : List Nat} {currentSize : UInt64} (count : g.length ≤ maxChunksPerXorb)
    (size : currentSize.toNat = groupBytes chunkSizes g) (i : Nat) :
    (currentSize + (chunkSizes.getD i 0).toUInt64).toNat = groupBytes chunkSizes (g ++ [i]) := by
  have small : groupBytes chunkSizes g ≤ g.length * 2 ^ 32 := groupBytes_le g
  have next := (chunkSizes.getD i 0).toNat_lt
  rw [maxChunksPerXorb] at count
  rw [UInt64.toNat_add, UInt32.toNat_toUInt64, size, groupBytes_append, groupBytes_singleton]
  exact Nat.mod_eq_of_lt (by omega)

theorem admissible_concat (targetSize : UInt64) {g : List Nat} {currentSize : UInt64} (opened : g ≠ [])
    (count : g.length ≤ maxChunksPerXorb) (size : currentSize.toNat = groupBytes chunkSizes g) (i : Nat) :
    Admissible chunkSizes targetSize (g ++ [i]) ↔
      ¬ (targetSize < currentSize + (chunkSizes.getD i 0).toUInt64 ∨ maxChunksPerXorb ≤ g.length) := by
  have positive := length_pos_iff.mpr opened
  have sum := size_after count size i
  rw [UInt64.lt_iff_toNat_lt, sum]
  constructor
  · rintro ⟨fewer, small | single⟩
    · rw [length_append, length_singleton] at fewer
      omega
    · rw [length_append, length_singleton] at single
      omega
  · intro room
    refine ⟨?_, Or.inl (by omega)⟩
    rw [length_append, length_singleton]
    omega

structure Grouping.Before (chunkSizes : List UInt32) (targetSize : UInt64) (s : Grouping) (i : Nat) : Prop where
  shape : (i = 0 ∧ s.groups = [] ∧ s.currentGroup = []) ∨
    Filling (Admissible chunkSizes targetSize) (List.range i) s.groups s.currentGroup
  size : s.currentSize.toNat = groupBytes chunkSizes s.currentGroup

theorem Grouping.Before.start (chunkSizes : List UInt32) (targetSize : UInt64) :
    Grouping.Before chunkSizes targetSize ⟨[], [], 0⟩ 0 :=
  ⟨Or.inl ⟨rfl, rfl, rfl⟩, rfl⟩

theorem Grouping.Before.add {s : Grouping} {i : Nat} (before : s.Before chunkSizes targetSize i) :
    (s.add targetSize i (chunkSizes.getD i 0)).Before chunkSizes targetSize (i + 1) := by
  have alone : Admissible chunkSizes targetSize [i] := admissible_singleton i
  obtain ⟨shape, size⟩ := before
  obtain ⟨groups, currentGroup, currentSize⟩ := s
  rcases shape with ⟨rfl, none, empty⟩ | filling
  · dsimp only at none empty size
    subst none empty
    have first := size_after (g := []) (Nat.zero_le _) size 0
    exact ⟨Or.inr (Filling.first alone), first⟩
  · dsimp only at filling size
    have count := (filling.packed.fits currentGroup (by simp)).count
    have positive := length_pos_iff.mpr filling.opened
    have decides := admissible_concat targetSize filling.opened count size i
    simp only [Grouping.add, positive, true_and]
    split
    · rename_i full
      refine ⟨Or.inr ?_, size_after (g := []) (Nat.zero_le _) rfl i⟩
      rw [range_succ]
      exact filling.close (fun fits => decides.mp fits full) alone
    · rename_i room
      refine ⟨Or.inr ?_, size_after count size i⟩
      rw [range_succ]
      exact filling.add (decides.mpr room)

theorem Grouping.Before.addAll {rest : List UInt32} {s : Grouping} {i : Nat}
    (before : s.Before chunkSizes targetSize i) (todo : chunkSizes.drop i = rest) :
    (Grouping.addAll targetSize i s rest).Before chunkSizes targetSize (i + rest.length) := by
  induction rest generalizing s i with
  | nil => exact before
  | cons size rest ih =>
    have here : chunkSizes.getD i 0 = size := by
      rw [getD_eq_getElem?_getD, ← head?_drop, todo]
      rfl
    have later : chunkSizes.drop (i + 1) = rest := by
      rw [← tail_drop, todo]
      rfl
    have next := ih (here ▸ before.add) later
    rw [length_cons, Nat.add_comm rest.length 1, ← Nat.add_assoc]
    exact next

theorem groupChunkIndicesBySize_packed (chunkSizes : List UInt32) (targetSize : UInt64) :
    Packed (Admissible chunkSizes targetSize) (List.range chunkSizes.length)
      (groupChunkIndicesBySize chunkSizes targetSize) := by
  have last := (Grouping.Before.start chunkSizes targetSize).addAll drop_zero
  rw [Nat.zero_add] at last
  rw [groupChunkIndicesBySize]
  rcases last.shape with ⟨empty, none, closed⟩ | filling
  · rw [none, closed, empty]
    exact Packed.empty
  · simp only [length_pos_iff.mpr filling.opened, if_true]
    exact filling.packed

end

def pick (chunks : List Bytes) (group : List Nat) : List Bytes := group.map fun i => chunks.getD i []

def sizesOf (chunks : List Bytes) : List UInt32 := chunks.map fun c => UInt32.ofNat c.length

section
variable {chunks : List Bytes}

section
variable (small : ∀ c ∈ chunks, c.length ≤ maxChunkSize)
include small

theorem length_getD_le (i : Nat) : (chunks.getD i []).length ≤ maxChunkSize := by
  rw [getD_eq_getElem?_getD]
  cases found : chunks[i]? with
  | none => exact Nat.zero_le _
  | some c => exact small c (mem_of_getElem? found)

theorem sizesOf_getD (i : Nat) : ((sizesOf chunks).getD i 0).toNat = (chunks.getD i []).length := by
  rw [sizesOf, getD_eq_getElem?_getD, getD_eq_getElem?_getD, getElem?_map]
  cases found : chunks[i]? with
  | none => rfl
  | some c =>
    have size := small c (mem_of_getElem? found)
    rw [maxChunkSize] at size
    exact UInt32.toNat_ofNat_of_lt' (by change c.length < 4294967296; omega)

theorem groupBytes_sizesOf (g : List Nat) : groupBytes (sizesOf chunks) g = ((pick chunks g).map List.length).sum := by
  rw [groupBytes, pick, map_map]
  exact congrArg List.sum (map_congr_left fun i _ => sizesOf_getD small i)

/-- With chunks of legal size every group stays within the limits of the encoder, also one that had to be packed
alone. -/
theorem Admissible.withinLimits {g : List Nat} (admissible : Admissible (sizesOf chunks) (UInt64.ofNat maxXorbSize) g) :
    WithinLimits (pick chunks g) where
  size := by
    intro c member
    obtain ⟨i, _, rfl⟩ := mem_map.mp member
    exact length_getD_le small i
  count := by
    rw [pick, length_map]
    exact admissible.count
  raw := by
    rcases admissible.bytes with bytes | single
    · rw [groupBytes_sizesOf small] at bytes
      exact bytes
    · obtain ⟨i, rfl⟩ := length_eq_one_iff.mp single
      have legal := length_getD_le small i
      rw [maxChunkSize] at legal
      rw [maxXorbSize]
      simp only [pick, map_cons, map_nil, sum_cons, sum_nil]
      omega

end

end

/-- Grouping is a greedy packing within the two limits, with the least possible number of groups, and what it packs
for a xorb is taken by an encoder whatever else is asked of it. -/
theorem groupChunkIndicesBySize_greedy (chunkSizes : List UInt32) (targetSize : UInt64) :
    (∀ g ∈ groupChunkIndicesBySize chunkSizes targetSize, g ≠ []) ∧
      (groupChunkIndicesBySize chunkSizes targetSize).flatten = List.range chunkSizes.length ∧
      (∀ g ∈ groupChunkIndicesBySize chunkSizes targetSize,
        g.length ≤ 8192 ∧ (groupBytes chunkSizes g ≤ targetSize.toNat ∨ g.length = 1)) ∧
      (groupChunkIndicesBySize chunkSizes targetSize).IsChain (fun g next => ∀ i ∈ next.head?,
        8192 < (g ++ [i]).length ∨ targetSize.toNat < groupBytes chunkSizes (g ++ [i])) ∧
      (∀ others : List (List Nat), others.flatten = List.range chunkSizes.length →
        (∀ g ∈ others, g.length ≤ 8192 ∧ (groupBytes chunkSizes g ≤ targetSize.toNat ∨ g.length = 1)) →
        (groupChunkIndicesBySize chunkSizes targetSize).length ≤ others.length) ∧
      ∀ chunks : List Bytes, (∀ c ∈ chunks, c.length ≤ 131072) → chunkSizes = sizesOf chunks →
        targetSize = UInt64.ofNat maxXorbSize → ∀ g ∈ groupChunkIndicesBySize chunkSizes targetSize,
        ∀ (blake3 : Keyed) (lz4 : Lz4) (pool : Nat → ChunkBuf) (withFooter : Bool) (ops : List EncoderOp),
          written ops = pick chunks g → ∃ e nonce, encodeXorb blake3 lz4 pool withFooter ops = .ok e ∧
            e.out = (pick chunks g).flatMap (encodeFrame lz4) ++
              encodedTail blake3 lz4 withFooter nonce (pick chunks g) := by
  have packed := groupChunkIndicesBySize_packed chunkSizes targetSize
  refine ⟨packed.nonempty, packed.flat, ?_, ?_, ?_, ?_⟩
  · intro g member
    exact ⟨(packed.fits g member).count, (packed.fits g member).bytes⟩
  · apply List.IsChain.imp _ packed.tight
    intro g next full i first
    by_contra room
    rw [not_or, Nat.not_lt, Nat.not_lt] at room
    exact full i first ⟨room.1, Or.inl room.2⟩
  · intro others flat fits
    apply packed.fewest (fun g h whole part => whole.part part) flat
    intro g member
    exact ⟨(fits g member).1, (fits g member).2⟩
  · rintro chunks small rfl rfl g member blake3 lz4 pool withFooter ops taken
    have within : WithinLimits (written ops) := by
      rw [taken]
      exact (packed.fits g member).withinLimits small
    obtain ⟨e, nonce, ok, _, out⟩ := @encodeXorb_spec blake3 lz4 pool withFooter ops within
    exact ⟨e, nonce, ok, taken ▸ out⟩

end Xet.Xorb
