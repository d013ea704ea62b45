import Xet.MerkleBinding

/-! The shape of the aggregation. A pass cuts a level into groups of three to nine nodes, of which only the last may be
shorter, so every pass makes progress; sizes are added up on the way. -/
namespace Xet
open List

theorem nextMergeCut_large {nodes : List Node} (large : 2 < nodes.length) :
    3 ≤ nextMergeCut nodes ∧ nextMergeCut nodes ≤ maxChildren := by
  rw [nextMergeCut, if_neg (Nat.not_le.mpr large)]
  have inside : 2 < min maxChildren nodes.length := by
    rw [maxChildren]
    omega
  have bounds := findCut_bounds (nodes.drop 2) inside
  omega

theorem nextMergeCut_le (nodes : List Node) : nextMergeCut nodes ≤ maxChildren := by
  by_cases large : 2 < nodes.length
  · exact (nextMergeCut_large large).2
  · have bounds := nextMergeCut_bounds nodes
    rw [maxChildren]
    omega

theorem cutGroups_nil (fuel : Nat) : cutGroups fuel [] = [] := by
  cases fuel with
  | zero => rfl
  | succ fuel => rfl

theorem large_of_rest {fuel : Nat} {nodes : List Node} (rest : cutGroups fuel (nodes.drop (nextMergeCut nodes)) ≠ []) :
    2 < nodes.length := by
  by_contra small
  rw [nextMergeCut, if_pos (Nat.le_of_not_lt small), drop_length, cutGroups_nil] at rest
  exact rest rfl

/-- The groups of a pass: none is empty or longer than nine, and all but the last have at least three nodes. -/
theorem cutGroups_sizes (fuel : Nat) (nodes : List Node) :
    (∀ g ∈ cutGroups fuel nodes, 1 ≤ g.length ∧ g.length ≤ maxChildren) ∧
      ∀ g ∈ (cutGroups fuel nodes).dropLast, 3 ≤ g.length := by
  induction fuel generalizing nodes with
  | zero => exact ⟨nofun, nofun⟩
  | succ fuel ih =>
    cases nodes with
    | nil => exact ⟨nofun, nofun⟩
    | cons n rest =>
      have cut := nextMergeCut_bounds (n :: rest)
      have first : ((n :: rest).take (nextMergeCut (n :: rest))).length = nextMergeCut (n :: rest) := by
        rw [length_take]
        omega
      obtain ⟨sizes, inner⟩ := ih ((n :: rest).drop (nextMergeCut (n :: rest)))
      simp only [cutGroups]
      constructor
      · rw [forall_mem_cons, first]
        rw [length_cons] at cut
        exact ⟨⟨by omega, nextMergeCut_le _⟩, sizes⟩
      · intro g member
        cases later : cutGroups fuel ((n :: rest).drop (nextMergeCut (n :: rest))) with
        | nil =>
          rw [later] at member
          cases member
        | cons g' gs =>
          -- another group follows, so this cut was made inside of the level
          have large : 2 < (n :: rest).length := large_of_rest (later ▸ cons_ne_nil g' gs)
          rw [later, dropLast_cons_cons] at member
          rcases mem_cons.mp member with rfl | member
          · rw [first]
            exact (nextMergeCut_large large).1
          · apply inner g
            rw [later]
            exact member

def levelSize (nodes : List Node) : UInt64 := (nodes.map Node.size).sum

theorem levelSize_append (ns ms : List Node) : levelSize (ns ++ ms) = levelSize ns + levelSize ms := by
  rw [levelSize, map_append, sum_append]
  rfl

section
variable (blake3 : Keyed)

theorem levelSize_mergeNodes (gs : List (List Node)) :
    levelSize (gs.map (mergeNodes blake3)) = levelSize gs.flatten := by
  induction gs with
  | nil => rfl
  | cons g gs ih =>
    rw [flatten_cons, levelSize_append, ← ih]
    rfl

theorem levelSize_mergePass (nodes : List Node) : levelSize (mergePass blake3 nodes) = levelSize nodes := by
  rw [mergePass_eq_map, levelSize_mergeNodes, groups_flatten]

theorem levelSize_passes (k : Nat) (nodes : List Node) : levelSize ((mergePass blake3)^[k] nodes) = levelSize nodes := by
  induction k with
  | zero => rfl
  | succ k ih => rw [Function.iterate_succ_apply', levelSize_mergePass, ih]

theorem levelSize_toNat (nodes : List Node) : (levelSize nodes).toNat = (nodes.map (·.size.toNat)).sum % 2 ^ 64 := by
  induction nodes with
  | nil => rfl
  | cons n nodes ih =>
    have split : levelSize (n :: nodes) = n.size + levelSize nodes := rfl
    rw [split, UInt64.toNat_add, ih, Nat.add_mod_mod]
    rfl

/-- What one pass does to a level: fewer nodes, each the parent of one group, the groups in order and of the promised
lengths. -/
structure Balanced (nodes : List Node) : Prop where
  fewer : (mergePass blake3 nodes).length < nodes.length
  parents : mergePass blake3 nodes = (groups nodes).map (mergeNodes blake3)
  ordered : (groups nodes).flatten = nodes
  sizes : ∀ g ∈ groups nodes, 1 ≤ g.length ∧ g.length ≤ 9
  inner : ∀ g ∈ (groups nodes).dropLast, 3 ≤ g.length

theorem mergePass_balanced {nodes : List Node} (large : 1 < nodes.length) : Balanced blake3 nodes where
  fewer := mergePass_shorter blake3 large
  parents := mergePass_eq_map blake3 nodes
  ordered := groups_flatten nodes
  sizes := (cutGroups_sizes nodes.length nodes).1
  inner := (cutGroups_sizes nodes.length nodes).2

/-- The aggregation ends: some number of balanced passes leaves one node, the root, which carries the sum of the leaf
sizes. -/
theorem computeRoot_balanced {nodes : List Node} (large : 2 ≤ nodes.length) :
    ∃ k root, (mergePass blake3)^[k] nodes = [root] ∧ computeRoot blake3 nodes = root.hash ∧
      root.size.toNat = (nodes.map fun n => n.size.toNat).sum % 2 ^ 64 ∧
      ∀ i < k, Balanced blake3 ((mergePass blake3)^[i] nodes) := by
  have nonempty : nodes ≠ [] := List.ne_nil_of_length_pos (by omega)
  obtain ⟨root, last⟩ := collapse_single blake3 (Nat.le_refl _) nonempty
  obtain ⟨k, passes, levels⟩ := collapse_iterate blake3 nodes.length nodes
  have reached : (mergePass blake3)^[k] nodes = [root] := passes.symm.trans last
  refine ⟨k, root, reached, ?_, ?_, fun i before => mergePass_balanced blake3 (levels i before).1⟩
  · rw [computeRoot, last]
  · have kept := levelSize_passes blake3 k nodes
    rw [reached] at kept
    have single : levelSize [root] = root.size := UInt64.add_zero root.size
    rw [← single, kept, levelSize_toNat]

end

theorem four_leaves_balanced :
    2 ≤ (List.replicate 4 (⟨Hash.zero, 7⟩ : Node)).length ∧
      ∃ k root, (mergePass fun _ _ => Hash.zero)^[k] (List.replicate 4 ⟨Hash.zero, 7⟩) = [root] ∧
        computeRoot (fun _ _ => Hash.zero) (List.replicate 4 ⟨Hash.zero, 7⟩) = root.hash ∧
        root.size.toNat = ((List.replicate 4 (⟨Hash.zero, 7⟩ : Node)).map fun n => n.size.toNat).sum % 2 ^ 64 ∧
        ∀ i < k, Balanced (fun _ _ => Hash.zero) ((mergePass fun _ _ => Hash.zero)^[i] (List.replicate 4 ⟨Hash.zero, 7⟩)) :=
  ⟨by decide, computeRoot_balanced _ (by decide)⟩

end Xet
