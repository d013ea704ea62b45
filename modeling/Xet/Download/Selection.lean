import Xet.Download.Offers

/-! The bytes that a selection of terms holds: from the start of the requested range up to the end of
the chunk that contains its last byte. -/
namespace Xet.Download
open Wire Shard List

/-- The terms that the loop selects, cut to the range, each with its position in the file. -/
def selected (sh : Shard) (rng : ByteRange) :
    List FileDataSequenceEntry → Int → List (FileDataSequenceEntry × Int)
  | [], _ => []
  | seg :: rest, pos =>
    let termEnd := pos + seg.unpackedSegBytes.toNat
    if termEnd ≤ rng.start then selected sh rng rest termEnd
    else if rng.last < pos then []
    else
      let (entry, skipped) := trimSegment sh seg pos rng
      (entry, pos + skipped) :: selected sh rng rest termEnd

theorem trimSegment_casHash (sh : Shard) (seg : FileDataSequenceEntry) (start : Int) (rng : ByteRange) :
    (trimSegment sh seg start rng).1.casHash = seg.casHash := by
  unfold trimSegment
  dsimp only
  split
  · rfl
  · split
    · rfl
    · split
      · rfl
      · split <;> rfl

theorem selected_casHash {sh : Shard} {rng : ByteRange} {entries : List FileDataSequenceEntry} {pos : Int} :
    ∀ e ∈ (selected sh rng entries pos).map Prod.fst, ∃ seg ∈ entries, e.casHash = seg.casHash := by
  induction entries generalizing pos with
  | nil => nofun
  | cons seg rest ih =>
    intro e member
    rw [selected] at member
    dsimp only at member
    split_ifs at member
    · obtain ⟨seg', inside, same⟩ := ih e member
      exact ⟨seg', mem_cons_of_mem _ inside, same⟩
    · cases member
    · rcases mem_cons.mp member with rfl | member
      · exact ⟨seg, mem_cons_self, trimSegment_casHash sh seg pos rng⟩
      · obtain ⟨seg', inside, same⟩ := ih e member
        exact ⟨seg', mem_cons_of_mem _ inside, same⟩

def firstOffset (rng : ByteRange) (offset : Int) : List (FileDataSequenceEntry × Int) → Int
  | [] => offset
  | (_, start) :: _ => if start < rng.start then rng.start - start else offset

theorem buildTerms_eq {ε σ : Type} (sh : Shard) (rng : ByteRange) (add : FileDataSequenceEntry → σ → Except ε σ)
    (entries : List FileDataSequenceEntry) (pos : Int) (terms : List Term) (offset : Int) (built : σ) :
    buildTerms sh rng add entries pos (terms, offset, built) =
      (fun m => (terms ++ ((selected sh rng entries pos).map Prod.fst).map entryTerm,
        if terms = [] then firstOffset rng offset (selected sh rng entries pos) else offset, m)) <$>
      ((selected sh rng entries pos).map Prod.fst).foldlM (fun m e => add e m) built := by
  induction entries generalizing pos terms offset built with
  | nil => simp [buildTerms, selected, firstOffset, Functor.map, pure, Except.pure, Except.map]
  | cons seg rest ih =>
    rw [buildTerms, selected]
    dsimp only
    by_cases before : pos + seg.unpackedSegBytes.toNat ≤ rng.start
    · rw [if_pos before, if_pos before]
      exact ih ..
    rw [if_neg before, if_neg before]
    by_cases behind : rng.last < pos
    · rw [if_pos behind, if_pos behind]
      simp [firstOffset, Functor.map, pure, Except.pure, Except.map]
    rw [if_neg behind, if_neg behind, map_cons, foldlM_cons]
    cases add (trimSegment sh seg pos rng).1 built with
    | error e => rfl
    | ok next =>
      rw [ok_bind, ok_bind, ih, map_cons, append_assoc, singleton_append, if_neg (by simp)]
      cases terms with
      | nil => simp [firstOffset]
      | cons t others => simp

theorem buildTerms_eq_ok {ε σ : Type} {sh : Shard} {rng : ByteRange}
    {add : FileDataSequenceEntry → σ → Except ε σ} {entries : List FileDataSequenceEntry} {pos : Int}
    {terms : List Term} {offset : Int} {built : σ} {out : List Term × Int × σ}
    (run : buildTerms sh rng add entries pos (terms, offset, built) = .ok out) :
    out.1 = terms ++ ((selected sh rng entries pos).map Prod.fst).map entryTerm ∧
    out.2.1 = (if terms = [] then firstOffset rng offset (selected sh rng entries pos) else offset) ∧
    ((selected sh rng entries pos).map Prod.fst).foldlM (fun m e => add e m) built = .ok out.2.2 := by
  rw [buildTerms_eq, map_eq_ok] at run
  obtain ⟨m, folded, rfl⟩ := run
  exact ⟨rfl, rfl, folded⟩

section
variable {lz4 : Xorb.Lz4} {xorbs : XorbHash → Option (StoredXorb lz4)} {sh : Shard} {rng : ByteRange}

def entryChunks (xorbs : XorbHash → Option (StoredXorb lz4)) (e : FileDataSequenceEntry) : List Bytes :=
  match xorbs e.casHash with
  | none => []
  | some x => x.chunksIn (entryRange e)

def content (xorbs : XorbHash → Option (StoredXorb lz4)) (entries : List FileDataSequenceEntry) : Bytes :=
  (entries.map (entryChunks xorbs)).flatten.flatten

/-- The blocks of the shard list the chunks of their xorbs, and the terms name chunks of theirs that
add up to the declared length. -/
structure Agrees (sh : Shard) (xorbs : XorbHash → Option (StoredXorb lz4))
    (entries : List FileDataSequenceEntry) : Prop where
  blocks : ∀ cb ∈ sh.casInfos, ∃ x, xorbs cb.casHash = some x ∧
    (cb.chunks.map fun c => c.unpackedSegBytes.toNat) = x.payload.frames.map fun f => f.data.length
  stored : ∀ e ∈ entries, ∃ x, xorbs e.casHash = some x ∧ e.chunkIndexEnd.toNat ≤ x.payload.frames.length
  length : ∀ e ∈ entries, (entryChunks xorbs e).flatten.length = e.unpackedSegBytes.toNat

theorem termChunks_entryTerm (xorbs : XorbHash → Option (StoredXorb lz4)) (e : FileDataSequenceEntry) :
    termChunks xorbs (entryTerm e) = entryChunks xorbs e := by
  have hash : (parseHash (entryTerm e).hash).toOption.bind xorbs = xorbs e.casHash := by
    simp only [entryTerm, parseHash_formatHash, Except.toOption, Option.bind_some]
  cases stored : xorbs e.casHash with
  | none => simp only [termChunks, entryChunks, hash, stored]
  | some x =>
    simp only [termChunks, entryChunks, hash, stored]
    rfl

/-- The position up to which a request for byte `q` is answered, in a file whose terms `entries` start
at `p`: the end of its chunk, or of its term when the shard does not list the chunks. -/
inductive SelectionEnd (sh : Shard) (xorbs : XorbHash → Option (StoredXorb lz4)) (q stop : Int) :
    Int → List FileDataSequenceEntry → Prop
  | chunk (p : Int) (seg : FileDataSequenceEntry) (rest : List FileDataSequenceEntry)
      (block : Blocked sh seg.casHash)
      (ends : ChunkEnd p ((entryChunks xorbs seg).map length) q stop) : SelectionEnd sh xorbs q stop p (seg :: rest)
  | term (p : Int) (seg : FileDataSequenceEntry) (rest : List FileDataSequenceEntry)
      (unlisted : ¬ Blocked sh seg.casHash) (low : p ≤ q) (high : q < p + seg.unpackedSegBytes.toNat)
      (ends : stop = p + seg.unpackedSegBytes.toNat) : SelectionEnd sh xorbs q stop p (seg :: rest)
  | later (p : Int) (seg : FileDataSequenceEntry) (rest : List FileDataSequenceEntry)
      (behind : p + seg.unpackedSegBytes.toNat ≤ q)
      (there : SelectionEnd sh xorbs q stop (p + seg.unpackedSegBytes.toNat) rest) :
      SelectionEnd sh xorbs q stop p (seg :: rest)

variable {seg : FileDataSequenceEntry} {rest : List FileDataSequenceEntry} {p : Int}

theorem Agrees.tail
    (agrees : Agrees sh xorbs (seg :: rest)) : Agrees sh xorbs rest where
  blocks := agrees.blocks
  stored := fun e member => agrees.stored e (mem_cons_of_mem _ member)
  length := fun e member => agrees.length e (mem_cons_of_mem _ member)

theorem entryChunks_eq {e : FileDataSequenceEntry} {x : StoredXorb lz4} (stored : xorbs e.casHash = some x) :
    entryChunks xorbs e = ((x.payload.frames.map (·.data)).drop e.chunkIndexStart.toNat).take
      (e.chunkIndexEnd.toNat - e.chunkIndexStart.toNat) := by
  simp only [entryChunks, stored, StoredXorb.chunksIn, StoredXorb.framesIn, entryRange, map_take, map_drop]

/-- A selected term is its term of the file without some chunks at both ends. -/
structure TermCut (sh : Shard) (xorbs : XorbHash → Option (StoredXorb lz4)) (rng : ByteRange) (p : Int)
    (seg : FileDataSequenceEntry) (before kept after : List Bytes) : Prop where
  shape : entryChunks xorbs seg = before ++ (kept ++ after)
  chunks : entryChunks xorbs (trimSegment sh seg p rng).1 = kept
  cut : Cut sh rng p seg (trimSegment sh seg p rng).1 (trimSegment sh seg p rng).2
    ((entryChunks xorbs seg).map length) (before.map length) (kept.map length)
    (after.map length)

theorem Agrees.cut
    (agrees : Agrees sh xorbs (seg :: rest)) (order : rng.start ≤ rng.last) (low : p ≤ rng.last)
    (high : rng.start < p + seg.unpackedSegBytes.toNat) :
    ∃ before kept after, TermCut sh xorbs rng p seg before kept after := by
  obtain ⟨x, stored, bound⟩ := agrees.stored seg mem_cons_self
  have chunks := entryChunks_eq stored
  have total := agrees.length seg mem_cons_self
  rw [length_flatten] at total
  have count : ((entryChunks xorbs seg).map List.length).length =
      seg.chunkIndexEnd.toNat - seg.chunkIndexStart.toNat := by
    rw [length_map, chunks, length_take, length_drop, length_map]
    omega
  have listed : ∀ cb ∈ sh.casInfos, cb.casHash = seg.casHash → seg.chunkIndexEnd.toNat ≤ cb.chunks.length ∧
      chunkSizes cb.chunks seg.chunkIndexStart.toNat seg.chunkIndexEnd.toNat =
        (entryChunks xorbs seg).map List.length := by
    intro cb member same
    obtain ⟨x', stored', sizes⟩ := agrees.blocks cb member
    rw [same] at stored'
    cases stored.symm.trans stored'
    have lengths := congrArg List.length sizes
    rw [length_map, length_map] at lengths
    refine ⟨by omega, ?_⟩
    rw [chunkSizes, map_take, map_drop, sizes, chunks]
    simp only [map_take, map_drop, map_map]
    rfl
  obtain ⟨before, kept, after, cut⟩ := trimSegment_cut count total listed order low (by rw [total]; exact high)
  obtain ⟨a, others, shape, rfl, rest⟩ := map_eq_append_iff.mp cut.split
  obtain ⟨k, b, rfl, rfl, rfl⟩ := map_eq_append_iff.mp rest
  refine ⟨a, k, b, shape, ?_, cut⟩
  have first := cut.first
  have size := cut.count
  rw [length_map] at first size
  have whole := take_append_drop (seg.chunkIndexEnd.toNat - seg.chunkIndexStart.toNat)
    ((x.payload.frames.map (·.data)).drop seg.chunkIndexStart.toNat)
  rw [← chunks, shape, append_assoc, append_assoc] at whole
  rw [entryChunks_eq (cut.hash ▸ stored), size, first, ← drop_drop, ← whole, drop_left, take_left]

theorem content_cons (xorbs : XorbHash → Option (StoredXorb lz4)) (seg : FileDataSequenceEntry)
    (rest : List FileDataSequenceEntry) :
    content xorbs (seg :: rest) = (entryChunks xorbs seg).flatten ++ content xorbs rest := by
  simp [content]

theorem selected_behind {entries : List FileDataSequenceEntry} {p : Int} (start : rng.start < p)
    (last : rng.last < p) : selected sh rng entries p = [] := by
  cases entries with
  | nil => rfl
  | cons seg rest =>
    rw [selected]
    dsimp only
    rw [if_neg (by omega), if_pos last]

theorem map_length_sum (chunks : List Bytes) : (chunks.map length).sum = chunks.flatten.length :=
  length_flatten.symm

/-- What is selected from the term `seg` on, the first that reaches into the range: its chunks from
behind `before`, and what follows them up to the end of the selection. -/
structure SelectedFrom (sh : Shard) (xorbs : XorbHash → Option (StoredXorb lz4)) (rng : ByteRange) (p : Int)
    (seg : FileDataSequenceEntry) (rest : List FileDataSequenceEntry) (before kept after : List Bytes)
    (stop : Int) : Prop where
  term : TermCut sh xorbs rng p seg before kept after
  ends : SelectionEnd sh xorbs rng.last stop p (seg :: rest)
  low : rng.last < stop
  high : stop ≤ p + (content xorbs (seg :: rest)).length
  bytes : content xorbs ((selected sh rng (seg :: rest) p).map Prod.fst) =
    ((content xorbs (seg :: rest)).take (stop - p).toNat).drop before.flatten.length

theorem selected_cons
    (low : p ≤ rng.last) (reach : rng.start < p + seg.unpackedSegBytes.toNat) :
    selected sh rng (seg :: rest) p =
      ((trimSegment sh seg p rng).1, p + (trimSegment sh seg p rng).2) ::
        selected sh rng rest (p + seg.unpackedSegBytes.toNat) := by
  rw [selected]
  dsimp only
  rw [if_neg (by omega), if_neg (by omega)]

section
variable {seg : FileDataSequenceEntry} {rest : List FileDataSequenceEntry} {p stop : Int}
variable {before kept after : List Bytes}

theorem selectedFrom_last (low : p ≤ rng.last) (reach : rng.start < p + seg.unpackedSegBytes.toNat)
    (term : TermCut sh xorbs rng p seg before kept after)
    (here : rng.last < p + seg.unpackedSegBytes.toNat) (ends : SelectionEnd sh xorbs rng.last stop p (seg :: rest))
    (last : rng.last < stop) (value : stop = p + (before.flatten.length + kept.flatten.length : Nat)) :
    SelectedFrom sh xorbs rng p seg rest before kept after stop := by
  have content_eq : content xorbs (seg :: rest) =
      (before.flatten ++ kept.flatten) ++ (after.flatten ++ content xorbs rest) := by
    simp only [content_cons, term.shape, flatten_append, append_assoc]
  refine ⟨term, ends, last, ?_, ?_⟩
  · rw [content_eq, value]
    simp only [length_append]
    omega
  · have width : (stop - p).toNat = (before.flatten ++ kept.flatten).length := by
      rw [length_append]
      omega
    rw [selected_cons low reach, selected_behind reach here, content_eq, width, take_left, drop_left,
      map_cons, content_cons, term.chunks, map_nil]
    simp [content]

/-- The range goes on behind the term, and what is selected there is all of it up to the end of the
selection. -/
theorem selectedFrom_more (low : p ≤ rng.last) (reach : rng.start < p + seg.unpackedSegBytes.toNat)
    (size : seg.unpackedSegBytes.toNat = (entryChunks xorbs seg).flatten.length)
    (term : TermCut sh xorbs rng p seg before kept [])
    (behind : p + seg.unpackedSegBytes.toNat ≤ rng.last)
    (ends : SelectionEnd sh xorbs rng.last stop (p + seg.unpackedSegBytes.toNat) rest) (last : rng.last < stop)
    (high : stop ≤ p + seg.unpackedSegBytes.toNat + (content xorbs rest).length)
    (bytes : content xorbs ((selected sh rng rest (p + seg.unpackedSegBytes.toNat)).map Prod.fst) =
      (content xorbs rest).take (stop - (p + seg.unpackedSegBytes.toNat)).toNat) :
    SelectedFrom sh xorbs rng p seg rest before kept [] stop := by
  have whole : seg.unpackedSegBytes.toNat = (before.flatten ++ kept.flatten).length := by
    rw [size, term.shape, append_nil, flatten_append]
  refine ⟨term, .later p seg rest behind ends, last, ?_, ?_⟩
  · rw [content_cons, length_append, ← size]
    omega
  · have width : (stop - p).toNat = (before.flatten ++ kept.flatten).length +
        (stop - (p + seg.unpackedSegBytes.toNat)).toNat := by
      omega
    rw [selected_cons low reach, map_cons, content_cons, term.chunks, bytes, content_cons, term.shape,
      append_nil, flatten_append, width, take_length_add_append, append_assoc, drop_left]

theorem selected_step (agrees : Agrees sh xorbs (seg :: rest)) (order : rng.start ≤ rng.last) (low : p ≤ rng.last)
    (reach : rng.start < p + seg.unpackedSegBytes.toNat)
    (more : p + seg.unpackedSegBytes.toNat ≤ rng.last →
      ∃ stop, SelectionEnd sh xorbs rng.last stop (p + seg.unpackedSegBytes.toNat) rest ∧ rng.last < stop ∧
        stop ≤ p + seg.unpackedSegBytes.toNat + (content xorbs rest).length ∧
        content xorbs ((selected sh rng rest (p + seg.unpackedSegBytes.toNat)).map Prod.fst) =
          (content xorbs rest).take (stop - (p + seg.unpackedSegBytes.toNat)).toNat) :
    ∃ before kept after stop, SelectedFrom sh xorbs rng p seg rest before kept after stop := by
  have size := (agrees.length seg mem_cons_self).symm
  obtain ⟨before, kept, after, term⟩ := agrees.cut order low reach
  have widths : seg.unpackedSegBytes.toNat =
      before.flatten.length + (kept.flatten.length + after.flatten.length) := by
    rw [size, term.shape, flatten_append, flatten_append, length_append, length_append]
  have back := term.cut.back
  simp only [map_length_sum, map_eq_nil_iff, ← size] at back
  rcases back with ⟨block, ended⟩ | ⟨rfl, beyond⟩
  · have last : rng.last < p + (before.flatten.length + kept.flatten.length : Nat) := by
      obtain ⟨_, n, _, -, -, bound, value⟩ := ended
      omega
    refine ⟨before, kept, after, _, selectedFrom_last low reach term (by omega) (.chunk p seg rest block ?_) last rfl⟩
    rwa [Nat.cast_add, ← Int.add_assoc]
  · rw [flatten_nil, length_nil, Nat.add_zero] at widths
    by_cases behind : p + seg.unpackedSegBytes.toNat ≤ rng.last
    · obtain ⟨stop, ends, last, high, bytes⟩ := more behind
      exact ⟨before, kept, [], stop, selectedFrom_more low reach size term behind ends last high bytes⟩
    · have here : rng.last < p + seg.unpackedSegBytes.toNat := by omega
      have unlisted : ¬ Blocked sh seg.casHash := fun block => behind (beyond block)
      exact ⟨before, kept, [], _, selectedFrom_last low reach term here
        (.term p seg rest unlisted low here rfl) here (by rw [widths])⟩

theorem selected_from (agrees : Agrees sh xorbs (seg :: rest)) (order : rng.start ≤ rng.last) (low : p ≤ rng.last)
    (reach : rng.start < p + seg.unpackedSegBytes.toNat)
    (high : rng.last < p + (content xorbs (seg :: rest)).length) :
    ∃ before kept after stop, SelectedFrom sh xorbs rng p seg rest before kept after stop := by
  induction rest generalizing seg p with
  | nil =>
    have size := agrees.length seg mem_cons_self
    apply selected_step agrees order low reach
    intro behind
    rw [content_cons, length_append, size, content, map_nil] at high
    simp only [flatten_nil, length_nil] at high
    omega
  | cons next others ih =>
    have size := agrees.length seg mem_cons_self
    apply selected_step agrees order low reach
    intro behind
    rw [content_cons, length_append, size] at high
    obtain ⟨before, kept, after, stop, rest⟩ := ih (p := p + seg.unpackedSegBytes.toNat) agrees.tail behind
      (by omega) (by omega)
    -- The range starts before this term, so no chunk of it is cut off.
    have whole : before = [] := by
      have front := rest.term.cut.front
      rw [map_length_sum, map_eq_nil_iff] at front
      rcases front with empty | front
      · exact empty
      · omega
    refine ⟨stop, rest.ends, rest.low, rest.high, ?_⟩
    rw [rest.bytes, whole, flatten_nil, length_nil, drop_zero]

/-- The first selected term starts at or before the range and reaches into it. Without the bytes
before the range, the selected terms hold the bytes up to the end of the selection. -/
structure Selection (sh : Shard) (xorbs : XorbHash → Option (StoredXorb lz4)) (rng : ByteRange) (p : Int)
    (entries : List FileDataSequenceEntry) (stop : Int) (e : FileDataSequenceEntry) (start : Int)
    (others : List (FileDataSequenceEntry × Int)) : Prop where
  ends : SelectionEnd sh xorbs rng.last stop p entries
  last : rng.last < stop
  shape : selected sh rng entries p = (e, start) :: others
  before : start ≤ rng.start
  reaches : rng.start < start + e.unpackedSegBytes.toNat
  size : (entryChunks xorbs e).flatten.length = e.unpackedSegBytes.toNat
  first : Blocked sh e.casHash → ∃ c cs, entryChunks xorbs e = c :: cs ∧
    (rng.start < start + c.length ∨ rng.start = start ∧ c = [])
  bytes : (content xorbs ((selected sh rng entries p).map Prod.fst)).drop (rng.start - start).toNat =
    ((content xorbs entries).take (stop - p).toNat).drop (rng.start - p).toNat

theorem SelectedFrom.selection (part : SelectedFrom sh xorbs rng p seg rest before kept after stop)
    (order : rng.start ≤ rng.last) (low : p ≤ rng.start) (reach : rng.start < p + seg.unpackedSegBytes.toNat) :
    ∃ e start others, Selection sh xorbs rng p (seg :: rest) stop e start others := by
  have cut := part.term.cut
  have front := cut.front
  have skip := cut.skip
  have bytes := cut.bytes
  have reaches := cut.reaches
  rw [map_length_sum] at front skip bytes reaches
  rw [map_length_sum] at reaches
  have starts : p + before.flatten.length ≤ rng.start := by
    rcases front with empty | front
    · rw [map_eq_nil_iff.mp empty]
      simpa using low
    · exact front
  refine ⟨_, _, _, part.ends, part.low, selected_cons (low.trans order) reach, by omega, by omega, ?_, ?_, ?_⟩
  · rw [part.term.chunks, bytes]
  · intro block
    rw [part.term.chunks]
    have lead := cut.lead (cut.hash ▸ block)
    rw [map_length_sum] at lead
    cases kept with
    | nil =>
      simp only [flatten_nil, length_nil] at reaches
      omega
    | cons c cs =>
      refine ⟨c, cs, rfl, ?_⟩
      rcases lead with exactly | ⟨n, ns, sizes, inside⟩
      · by_cases empty : c = []
        · exact .inr ⟨by omega, empty⟩
        · have positive := length_pos_of_ne_nil empty
          exact .inl (by omega)
      · cases sizes
        exact .inl (by omega)
  · rw [part.bytes, drop_drop]
    congr 1
    omega

theorem selected_spec {entries : List FileDataSequenceEntry} (agrees : Agrees sh xorbs entries)
    (order : rng.start ≤ rng.last) (low : p ≤ rng.start) (high : rng.last < p + (content xorbs entries).length) :
    ∃ stop e start others, Selection sh xorbs rng p entries stop e start others := by
  induction entries generalizing p with
  | nil =>
    simp only [content, map_nil, flatten_nil, length_nil] at high
    omega
  | cons seg rest ih =>
    by_cases reach : rng.start < p + seg.unpackedSegBytes.toNat
    · obtain ⟨before, kept, after, stop, part⟩ := selected_from agrees order (low.trans order) reach high
      exact ⟨stop, part.selection order low reach⟩
    · have size := agrees.length seg mem_cons_self
      rw [content_cons, length_append, size] at high
      obtain ⟨stop, e, start, others, there⟩ := ih (p := p + seg.unpackedSegBytes.toNat) agrees.tail (by omega) (by omega)
      have skipped : selected sh rng (seg :: rest) p = selected sh rng rest (p + seg.unpackedSegBytes.toNat) := by
        rw [selected]
        exact if_pos (by omega)
      have last := there.last
      refine ⟨stop, e, start, others, .later p seg rest (by omega) there.ends, last, skipped.trans there.shape,
        there.before, there.reaches, there.size, there.first, ?_⟩
      have width : (stop - p).toNat = (entryChunks xorbs seg).flatten.length +
          (stop - (p + seg.unpackedSegBytes.toNat)).toNat := by omega
      have offset : (rng.start - p).toNat = (entryChunks xorbs seg).flatten.length +
          (rng.start - (p + seg.unpackedSegBytes.toNat)).toNat := by omega
      rw [skipped, there.bytes, content_cons, width, offset, take_length_add_append, drop_length_add_append]

theorem selected_empty {entries : List FileDataSequenceEntry}
    (behind : p + (entries.map (·.unpackedSegBytes.toNat)).sum ≤ rng.start) : selected sh rng entries p = [] := by
  induction entries generalizing p with
  | nil => rfl
  | cons seg rest ih =>
    rw [map_cons, sum_cons] at behind
    rw [selected]
    dsimp only
    rw [if_pos (by omega)]
    exact ih (by omega)

end

end

end Xet.Download
