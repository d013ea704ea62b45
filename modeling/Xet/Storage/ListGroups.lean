import Xet.Storage.ListSizes

/-! The entries of a listing. Files with one digest make one entry, and every other file has an entry
of its own. -/
namespace Xet.Storage
open Wire List

namespace ResolvedFile

def Same (a b : ResolvedFile) : Prop := a = b ∨ a.sha ≠ none ∧ a.sha = b.sha

instance (a b : ResolvedFile) : Decidable (a.Same b) := inferInstanceAs (Decidable (_ ∨ _))

variable {a b c : ResolvedFile}

theorem Same.refl (a : ResolvedFile) : a.Same a := .inl rfl

theorem Same.symm (same : a.Same b) : b.Same a := by
  rcases same with rfl | ⟨some, eq⟩
  · exact .refl a
  · exact .inr ⟨eq ▸ some, eq.symm⟩

theorem Same.trans (first : a.Same b) (second : b.Same c) : a.Same c := by
  rcases first with rfl | ⟨some, eq⟩
  · exact second
  · rcases second with rfl | ⟨-, eq'⟩
    · exact .inr ⟨some, eq⟩
    · exact .inr ⟨some, eq.trans eq'⟩

theorem Same.sha_eq (same : a.Same b) : a.sha = b.sha := by
  rcases same with rfl | ⟨-, eq⟩
  · rfl
  · exact eq

theorem Same.missing_eq (same : a.Same b) : a.missing = b.missing := by
  rcases same with rfl | ⟨some, eq⟩
  · rfl
  · have present : ∀ f : ResolvedFile, f.sha ≠ none → f.missing = false := fun f some => by
      cases lost : f.missing with
      | false => rfl
      | true => exact absurd (f.blank lost).1 some
    rw [present a some, present b (eq ▸ some)]

end ResolvedFile

def groupOf (files : List ResolvedFile) (r : ResolvedFile) : List ResolvedFile := files.filter (r.Same ·)

def entryOf (files : List ResolvedFile) (r : ResolvedFile) : FileListEntry :=
  ⟨r.sha, (groupOf files r).map ResolvedFile.fileHash, r.size, 0, 0, r.missing⟩

def termsOf (files : List ResolvedFile) (r : ResolvedFile) : List ChunkTerm :=
  (groupOf files r).flatMap ResolvedFile.terms

/-- The files that start an entry, in the order of the entries. -/
def heads (files : List ResolvedFile) : List ResolvedFile :=
  files.foldl (fun firsts rf => if ∃ r ∈ firsts, r.Same rf then firsts else firsts ++ [rf]) []

structure Grouped (files : List ResolvedFile) (g : Groups) (firsts : List ResolvedFile) : Prop where
  entries : g.entries = firsts.map (entryOf files)
  terms : g.entryTerms = firsts.map (termsOf files)
  index : ∀ sha i, g.bySHA256.lookup sha = some i ↔ ∃ r, firsts[i]? = some r ∧ r.sha = some sha
  within : ∀ r ∈ firsts, r ∈ files
  apart : firsts.Pairwise fun a b => ¬ a.Same b
  all : ∀ rf ∈ files, ∃ r ∈ firsts, r.Same rf

section
variable {files firsts : List ResolvedFile} {g : Groups} {rf : ResolvedFile}

variable {r : ResolvedFile}

theorem groupOf_append_ne (other : ¬ r.Same rf) : groupOf (files ++ [rf]) r = groupOf files r := by
  simp [groupOf, filter_append, other]

theorem groupOf_append_same (same : r.Same rf) : groupOf (files ++ [rf]) r = groupOf files r ++ [rf] := by
  simp [groupOf, filter_append, same]

section
variable (grouped : Grouped files g firsts)
include grouped

theorem Grouped.append (alone : ∀ r ∈ firsts, ¬ r.Same rf) (bySHA256 : AList fun _ : Shard.SHA256Hash => Nat)
    (index : ∀ sha i, bySHA256.lookup sha = some i ↔
      (g.bySHA256.lookup sha = some i ∨ i = firsts.length ∧ rf.sha = some sha)) :
    Grouped (files ++ [rf])
      { g.append ⟨rf.sha, [rf.fileHash], rf.size, 0, 0, rf.missing⟩ rf.terms with bySHA256 := bySHA256 }
      (firsts ++ [rf]) := by
  have new : groupOf (files ++ [rf]) rf = [rf] := by
    have none : groupOf files rf = [] := by
      rw [groupOf, filter_eq_nil_iff]
      intro f member same
      obtain ⟨r, first, group⟩ := grouped.all f member
      exact alone r first (group.trans (of_decide_eq_true same).symm)
    rw [groupOf_append_same (.refl rf), none]
    rfl
  have old : ∀ r ∈ firsts, groupOf (files ++ [rf]) r = groupOf files r := fun r member =>
    groupOf_append_ne (alone r member)
  constructor
  · have front : firsts.map (entryOf (files ++ [rf])) = firsts.map (entryOf files) :=
      map_congr_left fun r member => by rw [entryOf, entryOf, old r member]
    rw [map_append, front, ← grouped.entries, map_singleton, entryOf, new]
    rfl
  · have front : firsts.map (termsOf (files ++ [rf])) = firsts.map (termsOf files) :=
      map_congr_left fun r member => by rw [termsOf, termsOf, old r member]
    rw [map_append, front, ← grouped.terms, map_singleton, termsOf, new]
    simp [Groups.append]
  · intro sha i
    dsimp only
    rw [index, grouped.index]
    constructor
    · rintro (⟨r, there, digest⟩ | ⟨rfl, digest⟩)
      · exact ⟨r, by rw [getElem?_append_left (List.getElem?_eq_some_iff.mp there).1, there], digest⟩
      · exact ⟨rf, by simp, digest⟩
    · rintro ⟨r, there, digest⟩
      by_cases early : i < firsts.length
      · rw [getElem?_append_left early] at there
        exact .inl ⟨r, there, digest⟩
      · rw [getElem?_append_right (Nat.not_lt.mp early), getElem?_singleton] at there
        split at there
        · rename_i here
          cases there
          exact .inr ⟨by omega, digest⟩
        · cases there
  · intro r member
    rcases mem_append.mp member with member | member
    · exact mem_append_left _ (grouped.within r member)
    · exact mem_append_right _ member
  · rw [pairwise_append]
    exact ⟨grouped.apart, pairwise_singleton _ _, fun r member f last => mem_singleton.mp last ▸ alone r member⟩
  · intro f member
    rcases mem_append.mp member with member | member
    · obtain ⟨r, first, same⟩ := grouped.all f member
      exact ⟨r, mem_append_left _ first, same⟩
    · exact ⟨rf, mem_append_right _ mem_cons_self, mem_singleton.mp member ▸ .refl rf⟩

theorem Grouped.others {i j : Nat} {r' : ResolvedFile} (there : firsts[i]? = some r) (there' : firsts[j]? = some r')
    (same : r.Same r') : i = j := by
  obtain ⟨low, rfl⟩ := List.getElem?_eq_some_iff.mp there
  obtain ⟨low', rfl⟩ := List.getElem?_eq_some_iff.mp there'
  rcases Nat.lt_trichotomy i j with less | rfl | less
  · exact absurd same (pairwise_iff_getElem.mp grouped.apart i j low low' less)
  · rfl
  · exact absurd same.symm (pairwise_iff_getElem.mp grouped.apart j i low' low less)

theorem Grouped.join {i : Nat} (there : firsts[i]? = some r) (same : r.Same rf) :
    Grouped (files ++ [rf])
      { g with
        entries := g.entries.modify i fun x => { x with fileHashes := x.fileHashes ++ [rf.fileHash] }
        entryTerms := g.entryTerms.modify i fun terms => terms ++ rf.terms } firsts := by
  have group : ∀ {j r'}, firsts[j]? = some r' →
      groupOf (files ++ [rf]) r' = if i = j then groupOf files r' ++ [rf] else groupOf files r' := by
    intro j r' there'
    by_cases here : i = j
    · subst here
      cases there.symm.trans there'
      rw [if_pos rfl, groupOf_append_same same]
    · rw [if_neg here]
      exact groupOf_append_ne fun same' => here (grouped.others there there' (same.trans same'.symm))
  constructor
  · dsimp only
    rw [grouped.entries]
    refine ext_getElem? fun j => ?_
    rw [getElem?_modify, getElem?_map, getElem?_map]
    cases found : firsts[j]? with
    | none => rfl
    | some r' =>
      simp only [Option.map_some, Option.map_eq_map, entryOf, group found]
      split <;> simp
  · dsimp only
    rw [grouped.terms]
    refine ext_getElem? fun j => ?_
    rw [getElem?_modify, getElem?_map, getElem?_map]
    cases found : firsts[j]? with
    | none => rfl
    | some r' =>
      simp only [Option.map_some, Option.map_eq_map, termsOf, group found]
      split <;> simp
  · exact grouped.index
  · exact fun r member => mem_append_left _ (grouped.within r member)
  · exact grouped.apart
  · intro f member
    rcases mem_append.mp member with member | member
    · exact grouped.all f member
    · exact ⟨r, mem_of_getElem? there, mem_singleton.mp member ▸ same⟩

theorem Grouped.add (new : rf ∉ files) :
    Grouped (files ++ [rf]) (g.add rf) (if ∃ r ∈ firsts, r.Same rf then firsts else firsts ++ [rf]) := by
  have single : rf.sha = none → ∀ r ∈ firsts, ¬ r.Same rf := by
    intro digest r member same
    rcases same.symm with rfl | ⟨some, -⟩
    · exact new (grouped.within _ member)
    · exact some digest
  have index : rf.sha = none → ∀ sha i, g.bySHA256.lookup sha = some i ↔
      (g.bySHA256.lookup sha = some i ∨ i = firsts.length ∧ rf.sha = some sha) := by
    intro digest sha i
    simp [digest]
  have starts : (∀ r ∈ firsts, ¬ r.Same rf) → ¬ ∃ r ∈ firsts, r.Same rf := fun alone ⟨r, member, same⟩ =>
    alone r member same
  rw [Groups.add]
  split
  · rename_i lost
    have appended := grouped.append (single (rf.blank lost).1) g.bySHA256 (index (rf.blank lost).1)
    rw [(rf.blank lost).1, (rf.blank lost).2.1, (rf.blank lost).2.2, lost] at appended
    rw [if_neg (starts (single (rf.blank lost).1))]
    exact appended
  · rename_i present
    rw [Bool.not_eq_true] at present
    split
    · rename_i digest
      have appended := grouped.append (single digest) g.bySHA256 (index digest)
      rw [digest, present] at appended
      rw [if_neg (starts (single digest))]
      exact appended
    · rename_i sha digest
      split
      · rename_i i found
        obtain ⟨r, there, eq⟩ := (grouped.index sha i).mp found
        have same : r.Same rf := .inr ⟨by simp [eq], eq.trans digest.symm⟩
        rw [if_pos ⟨r, mem_of_getElem? there, same⟩]
        exact grouped.join there same
      · rename_i absent
        have alone : ∀ r ∈ firsts, ¬ r.Same rf := by
          intro r member same
          obtain ⟨i, there⟩ := mem_iff_getElem?.mp member
          have found := (grouped.index sha i).mpr ⟨r, there, same.sha_eq.trans digest⟩
          cases absent.symm.trans found
        have size : g.entries.length = firsts.length := by rw [grouped.entries, length_map]
        have appended := grouped.append alone (g.bySHA256.insert sha g.entries.length) fun other i => by
          by_cases here : other = sha
          · subst here
            rw [AList.lookup_insert, absent, size, digest]
            simp [eq_comm]
          · rw [AList.lookup_insert_ne here, digest]
            simp [Ne.symm here]
        rw [digest, present] at appended
        rw [if_neg (starts alone)]
        exact appended

end

theorem grouped_heads (distinct : files.Nodup) : Grouped files (files.foldl Groups.add .empty) (heads files) := by
  induction files using List.reverseRecOn with
  | nil => exact ⟨rfl, rfl, by simp [Groups.empty, heads], nofun, .nil, nofun⟩
  | append_singleton files rf ih =>
    obtain ⟨front, -, apart⟩ := nodup_append.mp distinct
    rw [foldl_append, heads, foldl_append]
    exact (ih front).add fun member => apart rf member rf mem_cons_self rfl

end

end Xet.Storage
