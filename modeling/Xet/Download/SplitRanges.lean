import Xet.Download.SplitRun

/-! The fetch ranges of cut xorbs: every piece lies in a range that starts at its first chunk, and no
two ranges start at the same chunk. -/
namespace Xet.Download
open Wire Shard List List.Pairwise AList

theorem StartsFirst.trans {a b c : SplitPiece} (left : StartsFirst a b) (right : StartsFirst b c) : StartsFirst a c := by
  unfold StartsFirst at *
  omega

theorem StartsFirst.total (a b : SplitPiece) : StartsFirst a b ∨ StartsFirst b a := by
  unfold StartsFirst
  omega

instance : IsTrans SplitPiece StartsFirst := ⟨fun _ _ _ => StartsFirst.trans⟩

instance : Std.Total StartsFirst := ⟨StartsFirst.total⟩

def SplitPiece.Reaches (q p : SplitPiece) : Prop :=
  q.term.range.start = p.term.range.start ∧ p.term.range.stop ≤ q.term.range.stop

theorem StartsFirst.reaches {a b : SplitPiece} (sorted : StartsFirst a b)
    (same : a.term.range.start = b.term.range.start) : a.Reaches b := by
  rcases sorted with less | ⟨-, longer⟩
  · omega
  · exact ⟨same, longer⟩

structure Kept (list kept : List SplitPiece) : Prop where
  only : kept ⊆ list
  covers : ∀ p ∈ list, ∃ q ∈ kept, q.Reaches p
  apart : kept.Pairwise (·.term.range.start < ·.term.range.start)

theorem compactStarts_kept {a : SplitPiece} {rest : List SplitPiece} (sorted : (a :: rest).Pairwise StartsFirst) :
    Kept (a :: rest) (compactStarts a rest) := by
  induction rest generalizing a with
  | nil => exact ⟨List.Subset.refl _, fun p member => ⟨p, member, rfl, le_rfl⟩, pairwise_singleton _ _⟩
  | cons b rest ih =>
    rw [compactStarts]
    have first : StartsFirst a b := rel_of_pairwise_cons sorted mem_cons_self
    split
    · -- `b` lies in `a` and is dropped.
      rename_i same
      have kept := ih (sorted.sublist (by simp : (a :: rest).Sublist (a :: b :: rest)))
      refine ⟨fun q member => ?_, fun p member => ?_, kept.apart⟩
      · exact cons_subset_cons a (subset_cons_self b rest) (kept.only member)
      · rcases mem_cons.mp member with rfl | member
        · exact kept.covers p mem_cons_self
        · rcases mem_cons.mp member with rfl | member
          · obtain ⟨q, held, start, stop⟩ := kept.covers a mem_cons_self
            have within := first.reaches same
            exact ⟨q, held, start.trans within.1, within.2.trans stop⟩
          · exact kept.covers p (mem_cons_of_mem _ member)
    · rename_i different
      have kept := ih (of_cons sorted)
      refine ⟨cons_subset_cons a kept.only, fun p member => ?_, pairwise_cons.mpr ⟨fun q held => ?_, kept.apart⟩⟩
      · rcases mem_cons.mp member with rfl | member
        · exact ⟨p, mem_cons_self, rfl, le_rfl⟩
        · obtain ⟨q, held, reaches⟩ := kept.covers p member
          exact ⟨q, mem_cons_of_mem _ held, reaches⟩
      · have later : b.term.range.start ≤ q.term.range.start := by
          rcases mem_cons.mp (kept.only held) with rfl | behind
          · exact le_rfl
          · rcases rel_of_pairwise_cons (of_cons sorted) behind with less | ⟨same, -⟩ <;> omega
        rcases first with less | ⟨same, -⟩ <;> omega

theorem longestPerStart_kept (pieces : List SplitPiece) : Kept pieces (longestPerStart pieces) := by
  have sorted := pairwise_insertionSort StartsFirst pieces
  have same : ∀ p, p ∈ pieces.insertionSort StartsFirst ↔ p ∈ pieces := fun p => mem_insertionSort StartsFirst
  unfold longestPerStart
  cases arranged : pieces.insertionSort StartsFirst with
  | nil =>
    rw [arranged] at same
    exact ⟨nofun, fun p member => absurd ((same p).mpr member) not_mem_nil, .nil⟩
  | cons a rest =>
    rw [arranged] at same sorted
    have kept := compactStarts_kept sorted
    exact ⟨fun q held => (same q).mp (kept.only held), fun p member => kept.covers p ((same p).mpr member), kept.apart⟩

theorem arrangePieces_lookup (m : AList fun _ : Bytes => List SplitPiece) (hash : Bytes) :
    (arrangePieces m).lookup hash = (m.lookup hash).map longestPerStart := by
  rw [AList.lookup, AList.lookup, arrangePieces, List.dlookup_map₂]

section
variable {ε : Type} {storage : StorageAdapter ε}

/-- The packed bytes of a piece are those of its chunks, and nothing else of it changes. -/
structure Packed (storage : StorageAdapter ε) (p q : SplitPiece) : Prop where
  term : q.term = p.term
  src : q.src = p.src
  bytes : ∃ offsets, storage.getXorbChunkOffsets p.xorbHash = .ok offsets ∧
    Xorb.chunkDataRangeFromOffsets offsets p.term.range.start p.term.range.stop = .ok (q.packed.start, q.packed.last)

theorem packPiece_packed {p q : SplitPiece} (run : packPiece storage p = .ok q) : Packed storage p q := by
  simp only [packPiece, bind_eq_ok, mapError_eq_ok, Prod.exists] at run
  obtain ⟨offsets, served, first, last, range, value⟩ := run
  cases value
  exact ⟨rfl, rfl, offsets, served, range⟩

structure Gathered (storage : StorageAdapter ε) (cut : List Bytes) (done : List SplitPiece)
    (m : AList fun _ : Bytes => List SplitPiece) : Prop where
  keys : ∀ hash, hash ∈ m ↔ hash ∈ cut ∧ ∃ p ∈ done, p.term.hash = hash
  sound : ∀ hash, ∀ q ∈ (m.lookup hash).getD [], q.term.hash = hash ∧ ∃ p ∈ done, Packed storage p q
  complete : ∀ p ∈ done, p.term.hash ∈ cut → ∃ q ∈ (m.lookup p.term.hash).getD [], Packed storage p q

variable {cut : List Bytes} {done : List SplitPiece} {m : AList fun _ : Bytes => List SplitPiece}

section
variable (g : Gathered storage cut done m)
include g

theorem Gathered.skip {p : SplitPiece} (outside : p.term.hash ∉ cut) : Gathered storage cut (done ++ [p]) m := by
  constructor
  case keys =>
    intro hash
    rw [g.keys]
    refine and_congr_right fun member => ?_
    simp only [mem_append, mem_singleton]
    constructor
    · rintro ⟨q, held, same⟩
      exact ⟨q, .inl held, same⟩
    · rintro ⟨q, held | rfl, same⟩
      · exact ⟨q, held, same⟩
      · exact absurd (same ▸ member) outside
  case sound =>
    intro hash q held
    obtain ⟨same, p, member, packed⟩ := g.sound hash q held
    exact ⟨same, p, mem_append_left _ member, packed⟩
  case complete =>
    intro q member inside
    rcases mem_append.mp member with member | last
    · exact g.complete q member inside
    · obtain rfl := mem_singleton.mp last
      exact absurd inside outside

theorem Gathered.add {p q : SplitPiece} (inside : p.term.hash ∈ cut) (packed : Packed storage p q) :
    Gathered storage cut (done ++ [p]) (m.insert q.term.hash ((m.lookup q.term.hash).getD [] ++ [q])) := by
  rw [packed.term]
  constructor
  case keys =>
    intro hash
    simp only [mem_insert, g.keys, mem_append, mem_singleton]
    constructor
    · rintro (rfl | ⟨member, d, held, same⟩)
      · exact ⟨inside, p, .inr rfl, rfl⟩
      · exact ⟨member, d, .inl held, same⟩
    · rintro ⟨member, d, held | rfl, same⟩
      · exact .inr ⟨member, d, held, same⟩
      · exact .inl same.symm
  case sound =>
    intro hash d held
    by_cases here : hash = p.term.hash
    · subst here
      rw [lookup_insert, Option.getD_some, mem_append] at held
      rcases held with held | last
      · obtain ⟨same, e, member, packed⟩ := g.sound _ d held
        exact ⟨same, e, mem_append_left _ member, packed⟩
      · obtain rfl := mem_singleton.mp last
        exact ⟨by rw [packed.term], p, by simp, packed⟩
    · rw [lookup_insert_ne here] at held
      obtain ⟨same, e, member, packed⟩ := g.sound _ d held
      exact ⟨same, e, mem_append_left _ member, packed⟩
  case complete =>
    intro d member wanted
    by_cases here : d.term.hash = p.term.hash
    · rw [here, lookup_insert, Option.getD_some]
      rcases mem_append.mp member with member | last
      · obtain ⟨e, held, packed⟩ := g.complete d member wanted
        exact ⟨e, mem_append_left _ (here ▸ held), packed⟩
      · obtain rfl := mem_singleton.mp last
        exact ⟨q, by simp, packed⟩
    · rw [lookup_insert_ne here]
      rcases mem_append.mp member with member | last
      · exact g.complete d member wanted
      · obtain rfl := mem_singleton.mp last
        exact absurd rfl here

theorem gatherPieces_gathered {pieces : List SplitPiece} {m' : AList fun _ : Bytes => List SplitPiece}
    (run : gatherPieces storage cut pieces m = .ok m') : Gathered storage cut (done ++ pieces) m' := by
  induction pieces generalizing done m with
  | nil =>
    cases run
    rwa [append_nil]
  | cons p rest ih =>
    rw [gatherPieces] at run
    rw [append_cons]
    split at run
    · rename_i inside
      rw [bind_eq_ok] at run
      obtain ⟨q, packed, run⟩ := run
      exact ih (g.add inside (packPiece_packed packed)) run
    · rename_i outside
      exact ih (g.skip outside) run

end

structure Ranges (storage : StorageAdapter ε) (pieces : List SplitPiece) (xs : AList fun _ : Bytes => List SplitPiece) :
    Prop where
  keys : ∀ hash, hash ∈ xs ↔ ∃ p ∈ pieces, p.split = true ∧ p.term.hash = hash
  sound : ∀ hash ps, xs.lookup hash = some ps → ∀ q ∈ ps, q.term.hash = hash ∧ ∃ p ∈ pieces, Packed storage p q
  covers : ∀ hash ps, xs.lookup hash = some ps → ∀ p ∈ pieces, p.term.hash = hash → ∃ q ∈ ps, q.Reaches p
  apart : ∀ hash ps, xs.lookup hash = some ps → ps.Pairwise (·.term.range.start < ·.term.range.start)

theorem Gathered.ranges {pieces : List SplitPiece}
    (g : Gathered storage ((pieces.filter (·.split)).map (·.term.hash)) pieces m) :
    Ranges storage pieces (arrangePieces m) := by
  have keys : ∀ hash, hash ∈ m ↔ ∃ p ∈ pieces, p.split = true ∧ p.term.hash = hash := by
    intro hash
    simp only [g.keys, mem_map, mem_filter, and_assoc, and_iff_left_iff_imp]
    rintro ⟨p, member, -, same⟩
    exact ⟨p, member, same⟩
  have arranged : ∀ hash ps, (arrangePieces m).lookup hash = some ps →
      ∃ qs, m.lookup hash = some qs ∧ Kept qs ps := by
    intro hash ps found
    rw [arrangePieces_lookup] at found
    obtain ⟨qs, held, rfl⟩ := Option.map_eq_some_iff.mp found
    exact ⟨qs, held, longestPerStart_kept qs⟩
  constructor
  case keys =>
    intro hash
    rw [← keys, ← AList.lookup_isSome, arrangePieces_lookup, Option.isSome_map, AList.lookup_isSome]
  case sound =>
    intro hash ps found q member
    obtain ⟨qs, held, kept⟩ := arranged hash ps found
    apply g.sound hash q
    rw [held]
    exact kept.only member
  case covers =>
    intro hash ps found p member same
    obtain ⟨qs, held, kept⟩ := arranged hash ps found
    have inside := (g.keys hash).mp (AList.lookup_isSome.mp (by rw [held]; rfl))
    obtain ⟨q, collected, packed⟩ := g.complete p member (same ▸ inside.1)
    rw [same, held] at collected
    obtain ⟨longest, there, reaches⟩ := kept.covers q collected
    rw [SplitPiece.Reaches, packed.term] at reaches
    exact ⟨longest, there, reaches⟩
  case apart =>
    intro hash ps found
    obtain ⟨qs, held, kept⟩ := arranged hash ps found
    exact kept.apart

/-- The pieces of terms some of which are cut, and the ranges of the cut xorbs. -/
structure Divided (storage : StorageAdapter ε) (sh : Shard) (w : SplitWindow) (minTerms : Int) (terms : List Term)
    (pieces : List SplitPiece) (xs : AList fun _ : Bytes => List SplitPiece) : Prop where
  cutting : Cutting sh w terms pieces
  most : (pieces.length : Int) ≤ minTerms
  stops : (pieces.length : Int) < minTerms → ∀ p ∈ pieces, p.cut = 0
  ranges : Ranges storage pieces xs

inductive Uncut (sh : Shard) (w : SplitWindow) (minTerms : Int) (terms : List Term) : Prop
  | off (disabled : minTerms ≤ 1)
  | enough (count : minTerms ≤ terms.length)
  | stuck (pieces : List SplitPiece) (cutting : Cutting sh w terms pieces) (same : pieces.map (·.term) = terms)
      (stops : ∀ p ∈ pieces, p.cut = 0)

theorem splitTerms_eq_ok {sh : Shard} {terms : List Term} {offset minTerms pieceBytes : Int} {rng : ByteRange}
    {out : Option (List Term × AList fun _ : Bytes => List SplitPiece)}
    (order : ∀ t ∈ terms, t.range.start < t.range.stop)
    (run : splitTerms storage sh terms offset rng minTerms pieceBytes = .ok out) :
    (out = none ∧ Uncut sh (requested offset rng pieceBytes) minTerms terms) ∨
    ∃ pieces xs, out = some (pieces.map (·.term), xs) ∧
      Divided storage sh (requested offset rng pieceBytes) minTerms terms pieces xs := by
  unfold splitTerms at run
  by_cases idle : minTerms ≤ 1 ∨ minTerms ≤ terms.length
  · rw [if_pos idle] at run
    cases run
    exact .inl ⟨rfl, idle.elim .off .enough⟩
  · rw [if_neg idle, bind_eq_ok] at run
    obtain ⟨first, read, run⟩ := run
    dsimp only at run
    generalize requested offset rng pieceBytes = w at run ⊢
    obtain ⟨groups, placed, each⟩ := splitPieces_cutting (w := w) order read
    have single : first.map w.plan = ((first.map w.plan).map fun p => [p]).flatten := by
      rw [← flatMap_def, flatMap_singleton']
    have same : (first.map w.plan).length = terms.length := by simpa using groups.length_eq.symm
    obtain ⟨cutting, -, most, stops⟩ := splitLoop_spec (minTerms - terms.length).toNat
      (⟨⟨_, single, groups⟩, placed, each⟩ : Cutting sh w terms (first.map w.plan))
    simp only [same] at most stops
    generalize splitLoop w (minTerms - terms.length).toNat (first.map w.plan) = pieces at run cutting most stops
    obtain ⟨parts, flat, all⟩ := cutting.groups
    have kept := groups_count all order
    rw [← flat] at kept
    split at run
    · rename_i equal
      cases run
      exact .inl ⟨rfl, .stuck _ cutting (kept.2 equal) (stops (by omega))⟩
    · rw [bind_eq_ok] at run
      obtain ⟨gathered, collected, value⟩ := run
      cases value
      refine .inr ⟨pieces, _, rfl, cutting, by omega, fun less => stops (by omega), ?_⟩
      have empty : Gathered storage ((pieces.filter (·.split)).map (·.term.hash)) [] ∅ := ⟨by simp, by simp, nofun⟩
      exact (gatherPieces_gathered empty collected).ranges

end

end Xet.Download
