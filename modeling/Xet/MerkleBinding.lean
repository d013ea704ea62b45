import Mathlib.Logic.Function.Iterate
import Xet.Merkle

/-! The root binds the chunk list. No hash into 32 bytes is injective on all byte strings,
so freedom from collisions is asked only of the strings the two computations hash. -/
namespace Xet
open Wire List Function Nat

theorem split_at_newline {a b s t : Bytes} (ha : (10 : UInt8) ∉ a) (hb : (10 : UInt8) ∉ b)
    (h : a ++ 10 :: s = b ++ 10 :: t) : a = b ∧ s = t := by
  induction a generalizing b with
  | nil =>
    cases b with
    | nil => exact ⟨rfl, (cons.inj h).2⟩
    | cons y b => exact absurd ((cons.inj h).1 ▸ mem_cons_self) hb
  | cons x a ih =>
    cases b with
    | nil => exact absurd ((cons.inj h).1.symm ▸ mem_cons_self) ha
    | cons y b =>
      have hx := cons.inj h
      have tails := ih (fun m => ha (mem_cons_of_mem _ m)) (fun m => hb (mem_cons_of_mem _ m))
        hx.2
      exact ⟨by rw [hx.1, tails.1], tails.2⟩

theorem digitByte_ne_newline : ∀ d < 10, digitByte d ≠ 10 := by decide

theorem newline_not_mem_decimal (x : UInt64) : (10 : UInt8) ∉ appendUint x 10 := by
  intro h
  obtain ⟨d, hd, hv⟩ := mem_map.mp h
  exact digitByte_ne_newline d (digits_lt (by decide) d hd) hv

theorem childLine_append_inj {m n : Node} {s t : Bytes}
    (h : childLine m ++ s = childLine n ++ t) : m = n ∧ s = t := by
  simp only [childLine, append_assoc] at h
  have hash := append_inj h (by rw [formatHash_length, formatHash_length])
  have rest := append_cancel_left hash.2
  have size := split_at_newline (newline_not_mem_decimal m.size) (newline_not_mem_decimal n.size) rest
  exact ⟨Node.ext (formatHash_inj hash.1) (appendUint_inj (by decide) (by decide) size.1), size.2⟩

theorem childLine_ne_nil (n : Node) : childLine n ≠ [] := by
  simp [childLine]

theorem childLines_inj {ms ns : List Node} (h : childLines ms = childLines ns) : ms = ns := by
  induction ms generalizing ns with
  | nil =>
    cases ns with
    | nil => rfl
    | cons n ns => exact absurd (append_eq_nil_iff.mp h.symm).1 (childLine_ne_nil n)
  | cons m ms ih =>
    cases ns with
    | nil => exact absurd (append_eq_nil_iff.mp h).1 (childLine_ne_nil m)
    | cons n ns =>
      have head := childLine_append_inj (m := m) (n := n) h
      rw [head.1, ih head.2]

section
variable (blake3 : Keyed)

def mergeInputs : Nat → List Node → List Bytes
  | 0, _ => []
  | fuel + 1, entries =>
    if entries.length ≤ 1 then []
    else (groups entries).map childLines ++ mergeInputs fuel (mergePass blake3 entries)

def rootInputs (chunks : List ChunkMeta) : List Bytes :=
  mergeInputs blake3 (leaves chunks).length (leaves chunks)

/-- Collapsing is some number of passes over levels of two or more nodes, and every group they merge is an input
of the hash. -/
theorem collapse_iterate (fuel : Nat) (nodes : List Node) :
    ∃ k, collapse blake3 fuel nodes = (mergePass blake3)^[k] nodes ∧
      ∀ i < k, 1 < ((mergePass blake3)^[i] nodes).length ∧
        ∀ g ∈ groups ((mergePass blake3)^[i] nodes), childLines g ∈ mergeInputs blake3 fuel nodes := by
  induction fuel generalizing nodes with
  | zero => exact ⟨0, rfl, by simp⟩
  | succ fuel ih =>
    by_cases small : nodes.length ≤ 1
    · refine ⟨0, by rw [collapse, if_pos small]; rfl, by simp⟩
    · obtain ⟨k, hk, hi⟩ := ih (mergePass blake3 nodes)
      refine ⟨k + 1, by rw [collapse, if_neg small, hk, iterate_succ_apply], ?_⟩
      intro i hik
      rw [mergeInputs, if_neg small]
      cases i with
      | zero => exact ⟨Nat.lt_of_not_le small, fun g hg => mem_append_left _ (mem_map_of_mem hg)⟩
      | succ i =>
        rw [iterate_succ_apply]
        obtain ⟨large, inputs⟩ := hi i (by omega)
        exact ⟨large, fun g hg => mem_append_right _ (inputs g hg)⟩

end

/-- What the caller must believe about the internal-node hash: no two inputs of the two
computations collide, and no value is a leaf hash of either list or the zero hash. -/
structure Collisionless (blake3 : Keyed) (xs ys : List ChunkMeta) : Prop where
  injective : ∀ a ∈ rootInputs blake3 xs ++ rootInputs blake3 ys,
    ∀ b ∈ rootInputs blake3 xs ++ rootInputs blake3 ys,
      computeInternalNodeHash blake3 a = computeInternalNodeHash blake3 b → a = b
  not_leaf : ∀ a ∈ rootInputs blake3 xs ++ rootInputs blake3 ys, ∀ c ∈ xs ++ ys,
    computeInternalNodeHash blake3 a ≠ c.1
  not_zero : ∀ a ∈ rootInputs blake3 xs ++ rootInputs blake3 ys,
    computeInternalNodeHash blake3 a ≠ Hash.zero

section
variable {blake3 : Keyed} {xs ys : List ChunkMeta}

section
variable (free : Collisionless blake3 xs ys)
include free

theorem Collisionless.symm : Collisionless blake3 ys xs := by
  have swap : ∀ a, a ∈ rootInputs blake3 ys ++ rootInputs blake3 xs →
      a ∈ rootInputs blake3 xs ++ rootInputs blake3 ys :=
    fun a ha => mem_append.mpr (mem_append.mp ha).symm
  exact ⟨fun a ha b hb => free.injective a (swap a ha) b (swap b hb),
    fun a ha c hc => free.not_leaf a (swap a ha) c (mem_append.mpr (mem_append.mp hc).symm),
    fun a ha => free.not_zero a (swap a ha)⟩

theorem merged_groups_inj {gs hs : List (List Node)} (hg : ∀ g ∈ gs, childLines g ∈ rootInputs blake3 xs)
    (hh : ∀ g ∈ hs, childLines g ∈ rootInputs blake3 ys)
    (same : (gs.map (mergeNodes blake3)).map Node.hash = (hs.map (mergeNodes blake3)).map Node.hash) : gs = hs := by
  induction gs generalizing hs with
  | nil => cases hs with
    | nil => rfl
    | cons h hs => cases same
  | cons g gs ih => cases hs with
    | nil => cases same
    | cons h hs =>
      have parts := cons.inj same
      have text : childLines g = childLines h := free.injective _
        (mem_append_left _ (hg g mem_cons_self)) _
        (mem_append_right _ (hh h mem_cons_self)) parts.1
      rw [childLines_inj text, ih (fun a ha => hg a (mem_cons_of_mem _ ha))
        (fun a ha => hh a (mem_cons_of_mem _ ha)) parts.2]

theorem mergePass_inj {as bs : List Node} (ha : ∀ g ∈ groups as, childLines g ∈ rootInputs blake3 xs)
    (hb : ∀ g ∈ groups bs, childLines g ∈ rootInputs blake3 ys)
    (same : (mergePass blake3 as).map Node.hash = (mergePass blake3 bs).map Node.hash) : as = bs := by
  rw [mergePass_eq_map, mergePass_eq_map] at same
  rw [← groups_flatten as, ← groups_flatten bs, merged_groups_inj free ha hb same]

theorem leaves_ne_pass {bs : List Node} (nonempty : xs ≠ [])
    (hb : ∀ g ∈ groups bs, childLines g ∈ rootInputs blake3 ys) :
    (leaves xs).map Node.hash ≠ (mergePass blake3 bs).map Node.hash := by
  intro same
  rw [mergePass_eq_map] at same
  cases xs with
  | nil => exact nonempty rfl
  | cons c xs =>
    cases hg : groups bs with
    | nil => rw [hg] at same; cases same
    | cons g gs =>
      rw [hg] at same
      have head := (cons.inj same).1
      exact free.not_leaf _ (mem_append_right _ (hb g (hg ▸ mem_cons_self))) c
        mem_cons_self head.symm

/-- Levels with the same hashes have the same leaves: induction over the number of passes,
peeling the last pass of both computations at once. -/
theorem levels_inj (hx : xs ≠ []) (hy : ys ≠ []) (j k : Nat)
    (hj : ∀ i < j, ∀ g ∈ groups ((mergePass blake3)^[i] (leaves xs)),
      childLines g ∈ rootInputs blake3 xs) (hk : ∀ i < k, ∀ g ∈ groups ((mergePass blake3)^[i] (leaves ys)),
      childLines g ∈ rootInputs blake3 ys) (same : ((mergePass blake3)^[j] (leaves xs)).map Node.hash =
      ((mergePass blake3)^[k] (leaves ys)).map Node.hash) : j = k ∧ (0 < j → leaves xs = leaves ys) := by
  induction j generalizing k with
  | zero =>
    cases k with
    | zero => exact ⟨rfl, fun h => absurd h (by decide)⟩
    | succ k =>
      rw [iterate_succ_apply'] at same
      exact absurd same (leaves_ne_pass free hx (hk k (lt_succ_self k)))
  | succ j ih =>
    cases k with
    | zero =>
      rw [iterate_succ_apply'] at same
      exact absurd same.symm (leaves_ne_pass free.symm hy (hj j (lt_succ_self j)))
    | succ k =>
      rw [iterate_succ_apply', iterate_succ_apply'] at same
      have level := mergePass_inj free (hj j (lt_succ_self j)) (hk k (lt_succ_self k)) same
      have down := ih k (fun i hi => hj i (by omega)) (fun i hi => hk i (by omega))
        (congrArg (map Node.hash) level)
      refine ⟨by rw [down.1], fun _ => ?_⟩
      cases j with
      | zero => rw [← down.1] at level; exact level
      | succ j => exact down.2 (succ_pos j)

end

end

/-- The same hashes in the same order and, from two chunks on, the same sizes. -/
def SameChunks (xs ys : List ChunkMeta) : Prop :=
  xs.map Prod.fst = ys.map Prod.fst ∧ (2 ≤ xs.length → xs.map Prod.snd = ys.map Prod.snd)

/-- The empty list is represented by the zero hash, which a single chunk may also have. -/
def EmptyOrZero (xs ys : List ChunkMeta) : Prop := xs = [] ∧ ∃ size, ys = [(Hash.zero, size)]

theorem leaves_hashes (chunks : List ChunkMeta) : (leaves chunks).map Node.hash = chunks.map Prod.fst := by
  simp [leaves, comp_def]

theorem leaves_inj {xs ys : List ChunkMeta} (h : leaves xs = leaves ys) : xs = ys := by
  have pairs := congrArg (map fun n : Node => (n.hash, n.size)) h
  simpa [leaves, comp_def] using pairs

theorem computeXorbHash_eq_root (blake3 : Keyed) {chunks : List ChunkMeta} (nonempty : chunks ≠ []) :
    ∃ k root, (mergePass blake3)^[k] (leaves chunks) = [root] ∧
      computeXorbHash blake3 chunks = root.hash ∧
      (∀ i < k, ∀ g ∈ groups ((mergePass blake3)^[i] (leaves chunks)),
        childLines g ∈ rootInputs blake3 chunks) := by
  have hne : leaves chunks ≠ [] := by simpa [leaves] using nonempty
  obtain ⟨root, hr⟩ := collapse_single blake3 (le_refl (leaves chunks).length) hne
  obtain ⟨k, hk, hi⟩ := collapse_iterate blake3 (leaves chunks).length (leaves chunks)
  refine ⟨k, root, by rw [← hk, hr], ?_, fun i hik => (hi i hik).2⟩
  simp only [computeXorbHash, computeRoot, hr]

theorem zero_root_single (blake3 : Keyed) {xs : List ChunkMeta} {ys : List ChunkMeta}
    (free : Collisionless blake3 xs ys) (nonempty : ys ≠ [])
    (zero : computeXorbHash blake3 ys = Hash.zero) : ∃ size, ys = [(Hash.zero, size)] := by
  obtain ⟨k, root, hl, hroot, hi⟩ := computeXorbHash_eq_root blake3 nonempty
  cases k with
  | zero =>
    have single : (leaves ys).map Node.hash = [Hash.zero] := by
      rw [show leaves ys = [root] from hl, map_singleton, ← hroot, zero]
    rw [leaves_hashes] at single
    match ys, single with
    | [(h, size)], single => exact ⟨size, by rw [show h = Hash.zero from (cons.inj single).1]⟩
  | succ k =>
    rw [iterate_succ_apply', mergePass_eq_map] at hl
    obtain ⟨g, gs, hg, hm, _⟩ := map_eq_cons_iff.mp hl
    have input := hi k (lt_succ_self k) g (hg ▸ mem_cons_self)
    have value : computeInternalNodeHash blake3 (childLines g) = Hash.zero := by
      rw [← zero, hroot, ← hm]; rfl
    exact absurd value (free.not_zero _ (mem_append_right _ input))

theorem equal_roots_same (blake3 : Keyed) {xs ys : List ChunkMeta}
    (free : Collisionless blake3 xs ys) (hx : xs ≠ []) (hy : ys ≠ [])
    (same : computeXorbHash blake3 xs = computeXorbHash blake3 ys) : SameChunks xs ys := by
  obtain ⟨j, r, hr, hxr, hj⟩ := computeXorbHash_eq_root blake3 hx
  obtain ⟨k, s, hs, hys, hk⟩ := computeXorbHash_eq_root blake3 hy
  have top : ((mergePass blake3)^[j] (leaves xs)).map Node.hash =
      ((mergePass blake3)^[k] (leaves ys)).map Node.hash := by
    rw [hr, hs, map_singleton, map_singleton, ← hxr, ← hys, same]
  have level := levels_inj free hx hy j k hj hk top
  rcases Nat.eq_zero_or_pos j with rfl | positive
  · -- No pass was made: both lists are single chunks and only the hash is bound.
    rw [← level.1] at top
    have hashes : xs.map Prod.fst = ys.map Prod.fst := by
      rw [← leaves_hashes, ← leaves_hashes]; exact top
    have length : xs.length = 1 := by
      have := congrArg length (show leaves xs = [r] from hr)
      simpa [leaves] using this
    exact ⟨hashes, fun two => absurd two (by omega)⟩
  · have eq := leaves_inj (level.2 positive)
    exact ⟨by rw [eq], fun _ => by rw [eq]⟩

/-- Equal roots come from the same chunks; the only other pair is the empty list and one chunk
whose hash is zero. Under the final keyed hash the same holds, with the empty list against a
list whose keyed root is zero as the only other pair. -/
theorem merkle_root_binds (blake3 : Keyed) (xs ys : List ChunkMeta)
    (free : Collisionless blake3 xs ys) :
    (computeXorbHash blake3 xs = computeXorbHash blake3 ys →
      SameChunks xs ys ∨ EmptyOrZero xs ys ∨ EmptyOrZero ys xs) ∧
    ((computeFileHash blake3 (computeXorbHash blake3 xs).bytes =
        computeFileHash blake3 (computeXorbHash blake3 ys).bytes →
          computeXorbHash blake3 xs = computeXorbHash blake3 ys) →
      computeFileHashOf blake3 xs = computeFileHashOf blake3 ys →
      SameChunks xs ys ∨
        (xs = [] ∧ ys ≠ [] ∧ computeFileHash blake3 (computeXorbHash blake3 ys).bytes = Hash.zero) ∨
        (ys = [] ∧ xs ≠ [] ∧ computeFileHash blake3 (computeXorbHash blake3 xs).bytes = Hash.zero)) := by
  by_cases hx : xs = []
  · by_cases hy : ys = []
    · subst hx; subst hy
      exact ⟨fun _ => .inl ⟨rfl, fun _ => rfl⟩, fun _ _ => .inl ⟨rfl, fun _ => rfl⟩⟩
    · constructor
      · intro same
        have zero : computeXorbHash blake3 ys = Hash.zero := by rw [← same, hx]; rfl
        exact .inr (.inl ⟨hx, zero_root_single blake3 free hy zero⟩)
      · intro _ same
        rw [computeFileHashOf, if_pos hx, computeFileHashOf, if_neg hy] at same
        exact .inr (.inl ⟨hx, hy, same.symm⟩)
  · by_cases hy : ys = []
    · constructor
      · intro same
        have zero : computeXorbHash blake3 xs = Hash.zero := by rw [same, hy]; rfl
        exact .inr (.inr ⟨hy, zero_root_single blake3 free.symm hx zero⟩)
      · intro _ same
        rw [computeFileHashOf, if_neg hx, computeFileHashOf, if_pos hy] at same
        exact .inr (.inr ⟨hy, hx, same⟩)
    · constructor
      · exact fun same => .inl (equal_roots_same blake3 free hx hy same)
      · intro keyed same
        rw [computeFileHashOf, if_neg hx, computeFileHashOf, if_neg hy] at same
        exact .inl (equal_roots_same blake3 free hx hy (keyed same))

/- The internal-node test vector of the repository: two children and their parent. -/
def childA : ChunkMeta := (⟨[0xaa, 0xd4, 0x60, 0x7a, 0x38, 0x58, 0x8f, 0xc2,
  0x77, 0x7f, 0x7c, 0xda, 0x1c, 0x31, 0x0c, 0x20, 0x9e, 0x86, 0xf5, 0x64, 0x48, 0x61, 0x86, 0xf6,
  0x69, 0x4a, 0xa1, 0xd0, 0x65, 0xf7, 0xeb, 0xad], rfl⟩, 100)

def childB : ChunkMeta := (⟨[0x2c, 0xce, 0x73, 0xe0, 0x63, 0x32, 0x4e, 0x6e,
  0x27, 0x1e, 0x36, 0x0c, 0x77, 0xcc, 0x78, 0x0e, 0x65, 0xab, 0x98, 0x4b, 0x05, 0x3b, 0xdb, 0x78,
  0x22, 0x0f, 0xa7, 0x4f, 0x08, 0xfc, 0x77, 0xe2], rfl⟩, 200)

def vectorHash : Keyed := fun _ _ => ⟨[0xf4, 0x3c, 0xcd, 0x3c, 0x00, 0xc7, 0x64, 0xbe,
  0x59, 0xc9, 0x04, 0x0e, 0x75, 0x64, 0x73, 0x35, 0xa7, 0x76, 0xee, 0x5d, 0x70, 0x36, 0x3c, 0x2b,
  0x14, 0x6c, 0x6b, 0x76, 0x11, 0xc0, 0x90, 0x15], rfl⟩

theorem merkle_root_binds_vector :
    computeXorbHash vectorHash [childA, childB] = vectorHash internalNodeKey [] ∧
    (computeXorbHash vectorHash [childA, childB] = computeXorbHash vectorHash [childA] →
      SameChunks [childA, childB] [childA] ∨ EmptyOrZero [childA, childB] [childA] ∨
        EmptyOrZero [childA] [childA, childB]) :=
  ⟨by decide, (merkle_root_binds vectorHash [childA, childB] [childA]
    ⟨by decide, by decide, by decide⟩).1⟩

/-- Without the exception the statement is false: the empty list and one chunk of zero hash. -/
theorem empty_and_zero_chunk_share_root :
    ¬ ∀ (blake3 : Keyed) (xs ys : List ChunkMeta), Collisionless blake3 xs ys →
      computeXorbHash blake3 xs = computeXorbHash blake3 ys → SameChunks xs ys := by
  intro claim
  have same := claim vectorHash [] [(Hash.zero, 5)] ⟨by decide, by decide, by decide⟩ rfl
  cases same.1

end Xet
