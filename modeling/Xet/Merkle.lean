import Mathlib.Data.UInt
import Xet.Hash

/-! The aggregated hash tree over (chunk hash, size) pairs. Each pass of the code cuts the
level into groups, hashes the text of every group into its parent and starts over
until one node remains. Loop bounds are explicit fuel and are proved sufficient. -/
namespace Xet
open Wire List

def meanBranchingFactor : Nat := 4
def maxChildren : Nat := 9

@[ext] structure Node where
  hash : Hash
  size : UInt64
  deriving DecidableEq

/-- A cut may follow this node: the last word of its hash is a multiple of the branching factor. -/
def Node.isCut (n : Node) : Bool := (n.hash.word 3).toNat % meanBranchingFactor == 0

/-- The search of `nextMergeCut` over the nodes from index `i` on, at most up to index `stop`. -/
def findCut (stop : Nat) : Nat → List Node → Nat
  | _, [] => stop
  | i, n :: rest => if stop ≤ i then stop else if n.isCut then i + 1 else findCut stop (i + 1) rest

def nextMergeCut (nodes : List Node) : Nat :=
  if nodes.length ≤ 2 then nodes.length
  else findCut (min maxChildren nodes.length) 2 (nodes.drop 2)

/-- One child line of an internal node: hash, separator, decimal size, newline. -/
def childLine (n : Node) : Bytes :=
  formatHash n.hash ++ [32, 58, 32] ++ appendUint n.size 10 ++ [10]

def childLines (nodes : List Node) : Bytes := nodes.flatMap childLine

section
variable (blake3 : Keyed)

def mergeNodes (nodes : List Node) : Node :=
  ⟨computeInternalNodeHash blake3 (childLines nodes), (nodes.map Node.size).sum⟩

def mergeLevel : Nat → List Node → List Node
  | 0, _ => []
  | _ + 1, [] => []
  | fuel + 1, nodes =>
    mergeNodes blake3 (nodes.take (nextMergeCut nodes)) ::
      mergeLevel fuel (nodes.drop (nextMergeCut nodes))

def mergePass (nodes : List Node) : List Node := mergeLevel blake3 nodes.length nodes

def collapse : Nat → List Node → List Node
  | 0, entries => entries
  | fuel + 1, entries =>
    if entries.length ≤ 1 then entries else collapse fuel (mergePass blake3 entries)

def computeRoot (nodes : List Node) : Hash :=
  match collapse blake3 nodes.length nodes with
  | [] => Hash.zero
  | root :: _ => root.hash

/-- The parallel hash and size slices of the code as one list, so that their lengths agree. -/
abbrev ChunkMeta := ChunkHash × UInt64

def leaves (chunks : List ChunkMeta) : List Node := chunks.map fun c => ⟨c.1, c.2⟩

def computeXorbHash (chunks : List ChunkMeta) : XorbHash := computeRoot blake3 (leaves chunks)

def computeFileHashOf (chunks : List ChunkMeta) : FileHash :=
  if chunks = [] then Hash.zero
  else computeFileHash blake3 (computeXorbHash blake3 chunks).bytes

end

def cutGroups : Nat → List Node → List (List Node)
  | 0, _ => []
  | _ + 1, [] => []
  | fuel + 1, nodes =>
    nodes.take (nextMergeCut nodes) :: cutGroups fuel (nodes.drop (nextMergeCut nodes))

def groups (nodes : List Node) : List (List Node) := cutGroups nodes.length nodes

theorem findCut_bounds {stop i : Nat} (rest : List Node) (low : i < stop) :
    i + 1 ≤ findCut stop i rest ∧ findCut stop i rest ≤ stop := by
  induction rest generalizing i with
  | nil => exact ⟨low, Nat.le_refl stop⟩
  | cons n rest ih =>
    unfold findCut
    rw [if_neg (by omega)]
    split
    · omega
    · by_cases more : i + 1 < stop
      · have := ih more
        omega
      · have last : findCut stop (i + 1) rest = stop := by
          cases rest with
          | nil => rfl
          | cons m rest => rw [findCut, if_pos (by omega)]
        omega

theorem nextMergeCut_bounds (nodes : List Node) :
    min 2 nodes.length ≤ nextMergeCut nodes ∧ nextMergeCut nodes ≤ nodes.length := by
  unfold nextMergeCut
  split
  · omega
  · rename_i large
    have := findCut_bounds (nodes.drop 2) (show 2 < min maxChildren nodes.length by
      unfold maxChildren; omega)
    omega

variable {nodes : List Node}

theorem cutGroups_flatten {fuel : Nat} (enough : nodes.length ≤ fuel) : (cutGroups fuel nodes).flatten = nodes := by
  induction fuel generalizing nodes with
  | zero =>
    have empty : nodes = [] := eq_nil_of_length_eq_zero (by omega)
    rw [empty]; rfl
  | succ fuel ih =>
    cases nodes with
    | nil => rfl
    | cons n rest =>
      have cut := nextMergeCut_bounds (n :: rest)
      have shorter : ((n :: rest).drop (nextMergeCut (n :: rest))).length ≤ fuel := by
        simp only [length_drop, length_cons] at cut enough ⊢
        omega
      simp only [cutGroups, flatten_cons, ih shorter, take_append_drop]

theorem groups_flatten (nodes : List Node) : (groups nodes).flatten = nodes :=
  cutGroups_flatten (Nat.le_refl _)

theorem cutGroups_length (fuel : Nat) (nodes : List Node) : (cutGroups fuel nodes).length ≤ (nodes.length + 1) / 2 := by
  induction fuel generalizing nodes with
  | zero => simp [cutGroups]
  | succ fuel ih =>
    cases nodes with
    | nil => simp [cutGroups]
    | cons n rest =>
      have cut := nextMergeCut_bounds (n :: rest)
      have tail := ih ((n :: rest).drop (nextMergeCut (n :: rest)))
      simp only [cutGroups, length_cons, length_drop] at cut tail ⊢
      omega

section
variable (blake3 : Keyed)
include blake3

theorem mergeLevel_eq_map (fuel : Nat) (nodes : List Node) :
    mergeLevel blake3 fuel nodes = (cutGroups fuel nodes).map (mergeNodes blake3) := by
  induction fuel generalizing nodes with
  | zero => rfl
  | succ fuel ih =>
    cases nodes with
    | nil => rfl
    | cons n rest => simp only [mergeLevel, cutGroups, map_cons, ih]

theorem mergePass_eq_map (nodes : List Node) : mergePass blake3 nodes = (groups nodes).map (mergeNodes blake3) :=
  mergeLevel_eq_map blake3 _ nodes

theorem mergePass_shorter (large : 1 < nodes.length) : (mergePass blake3 nodes).length < nodes.length := by
  have := cutGroups_length nodes.length nodes
  rw [mergePass_eq_map, length_map, groups]
  omega

theorem mergePass_nonempty (nonempty : nodes ≠ []) : mergePass blake3 nodes ≠ [] := by
  intro h
  rw [mergePass_eq_map, map_eq_nil_iff] at h
  have flat := groups_flatten nodes
  rw [h] at flat
  exact nonempty flat.symm

theorem collapse_single {fuel : Nat} (enough : nodes.length ≤ fuel) (nonempty : nodes ≠ []) :
    ∃ root, collapse blake3 fuel nodes = [root] := by
  induction fuel generalizing nodes with
  | zero => exact absurd (eq_nil_of_length_eq_zero (by omega)) nonempty
  | succ fuel ih =>
    unfold collapse
    split
    · rename_i small
      have positive := length_pos_iff.mpr nonempty
      exact length_eq_one_iff.mp (by omega)
    · rename_i large
      have shorter := mergePass_shorter blake3 (Nat.lt_of_not_le large)
      exact ih (by omega) (mergePass_nonempty blake3 nonempty)

end

end Xet
