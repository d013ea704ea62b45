import Xet.Download.Answer
import Xet.Download.SplitRanges

/-! Split responses end to end: the terms are cut into pieces that read as the same bytes, as many as
asked for unless no cut is left, and every piece is covered by the packed bytes of chunks. -/
namespace Xet.Download
open Wire Shard List AList Except

def positions : Int → List Term → List (Int × Term)
  | _, [] => []
  | pos, t :: rest => (pos, t) :: positions (pos + t.unpackedLength) rest

/-- A cut before chunk `c` of a term at `start`: the shard lists the chunks, and there is enough of the
requested bytes on both sides. -/
structure Admissible (sh : Shard) (w : SplitWindow) (start : Int) (t : Term) (c : Nat) : Prop where
  low : t.range.start < c
  high : c < t.range.stop
  fits : ∃ hash cb, parseHash t.hash = .ok hash ∧ sh.casInfos.find? (·.casHash = hash) = some cb ∧
    Fits w start (start + t.unpackedLength) (start + (chunkSizes cb.chunks t.range.start c).sum)

/-- What stands for a term: consecutive pieces that cover its chunks, and several only with enough
requested bytes in each. -/
structure CutUp (w : SplitWindow) (t : Term) (g : List (Int × Term)) : Prop where
  tiles : Tiles t.hash t.range.start t.range.stop (g.map Prod.snd)
  total : (g.map (·.2.unpackedLength)).sum = t.unpackedLength
  floor : 1 < g.length → ∀ p ∈ g, w.floor ≤ w.bytes p.1 (p.1 + p.2.unpackedLength)

def CutXorb (groups : List (List (Int × Term))) (hash : Bytes) : Prop :=
  ∃ g ∈ groups, 1 < g.length ∧ ∃ p ∈ g, p.2.hash = hash

theorem positions_placed {pieces : List SplitPiece} {pos : Int} (placed : Placed pos pieces) :
    positions pos (pieces.map (·.term)) = pieces.map fun p => (p.start, p.term) := by
  induction pieces generalizing pos with
  | nil => rfl
  | cons p rest ih =>
    obtain ⟨rfl, tail⟩ := placed
    rw [map_cons, map_cons, positions, ih tail]

variable {sh : Shard} {w : SplitWindow}

theorem Group.cutUp {t : Term} {g : List SplitPiece} (group : Group t g)
    (each : ∀ p ∈ g, Piece sh w p) : CutUp w t (g.map fun p => (p.start, p.term)) := by
  constructor
  case tiles =>
    rw [map_map]
    exact group.tiles
  case total =>
    rw [map_map]
    exact group.total
  case floor =>
    intro several p member
    rw [length_map] at several
    obtain ⟨q, held, rfl⟩ := mem_map.mp member
    exact (each q held).floor (by rw [group.split q held, decide_eq_true several])

theorem Piece.stuck {p : SplitPiece} (piece : Piece sh w p) (stops : p.cut = 0) (c : Nat) :
    ¬ Admissible sh w p.start p.term c := by
  rintro ⟨low, high, hash, cb, parsed, block, fits⟩
  obtain rfl : p.xorbHash = hash := ok.inj (piece.hash.symm.trans parsed)
  have chunks : p.chunks = some cb.chunks := by rw [piece.chunks, block, Option.map_some]
  have bound := piece.bound cb.chunks chunks
  have sizes : p.innerSizes = chunkSizes cb.chunks p.term.range.start (p.term.range.stop - 1) := by
    simp only [SplitPiece.innerSizes, chunks]
  rcases piece.chosen with ⟨-, unfit⟩ | ⟨k, positive, -, index, -⟩
  · have reach : c - p.term.range.start ≤ p.innerSizes.length := by
      rw [sizes, chunkSizes_length (by omega)]
      omega
    apply unfit (c - p.term.range.start) (by omega) reach
    have whole : p.term.range.start + (c - p.term.range.start) = c := by omega
    rw [sizes, chunkSizes_take cb.chunks (by omega), whole]
    exact fits
  · omega

theorem Cutting.cutUp {terms : List Term} {pieces : List SplitPiece}
    (c : Cutting sh w terms pieces) :
    ∃ groups : List (List SplitPiece), pieces = groups.flatten ∧ Forall₂ Group terms groups ∧
      positions 0 (pieces.map (·.term)) = (groups.map fun g => g.map fun p => (p.start, p.term)).flatten ∧
      Forall₂ (CutUp w) terms (groups.map fun g => g.map fun p => (p.start, p.term)) := by
  obtain ⟨groups, flat, all⟩ := c.groups
  refine ⟨groups, flat, all, ?_, ?_⟩
  · rw [positions_placed c.placed, flat, map_flatten]
  · have each := c.each
    rw [flat] at each
    clear flat c
    induction all with
    | nil => exact .nil
    | cons group _ ih =>
      refine .cons (group.cutUp fun p member => each p (by simp [member])) (ih fun p member => each p ?_)
      rw [flatten_cons]
      exact mem_append_right _ member

theorem Tiles.le {hash : Bytes} {a b : Nat} {terms : List Term} (tiles : Tiles hash a b terms) : a ≤ b := by
  induction terms generalizing a with
  | nil => exact le_of_eq tiles
  | cons t rest ih =>
    obtain ⟨-, -, order, tail⟩ := tiles
    exact order.le.trans (ih tail)

theorem Tiles.hash {hash : Bytes} {a b : Nat} {terms : List Term} (tiles : Tiles hash a b terms) :
    ∀ t ∈ terms, t.hash = hash := by
  induction terms generalizing a with
  | nil => nofun
  | cons t rest ih =>
    obtain ⟨same, -, -, tail⟩ := tiles
    intro u member
    rcases mem_cons.mp member with rfl | member
    · exact same
    · exact ih tail u member

section
variable {lz4 : Xorb.Lz4} {ε : Type} {xorbs : XorbHash → Option (StoredXorb lz4)} {x : StoredXorb lz4}

theorem StoredXorb.chunksIn_append (x : StoredXorb lz4) {a b c : Nat} (left : a ≤ b) (right : b ≤ c) :
    x.chunksIn ⟨a, c⟩ = x.chunksIn ⟨a, b⟩ ++ x.chunksIn ⟨b, c⟩ := by
  have first : c - a = (b - a) + (c - b) := by omega
  have second : a + (b - a) = b := by omega
  simp only [chunksIn, framesIn]
  rw [first, take_add, map_append, drop_drop, second]

theorem Tiles.chunks {hash : XorbHash} {a b : Nat} {terms : List Term} (stored : xorbs hash = some x)
    (tiles : Tiles (formatHash hash) a b terms) : (terms.map (termChunks xorbs)).flatten = x.chunksIn ⟨a, b⟩ := by
  induction terms generalizing a with
  | nil =>
    obtain rfl : a = b := tiles
    simp [StoredXorb.chunksIn, StoredXorb.framesIn]
  | cons t rest ih =>
    obtain ⟨same, rfl, order, tail⟩ := tiles
    rw [map_cons, flatten_cons, ih tail, termChunks_eq same stored, x.chunksIn_append order.le tail.le]

variable {w : SplitWindow} {terms : List Term}

theorem cutUp_chunks {groups : List (List (Int × Term))}
    (all : Forall₂ (CutUp w) terms groups)
    (stored : ∀ t ∈ terms, ∃ hash x, t.hash = formatHash hash ∧ xorbs hash = some x) :
    ((groups.flatten.map Prod.snd).map (termChunks xorbs)).flatten = (terms.map (termChunks xorbs)).flatten := by
  induction all with
  | nil => rfl
  | @cons t g terms groups here _ ih =>
    obtain ⟨hash, x, name, known⟩ := stored t mem_cons_self
    have tiles := here.tiles
    rw [name] at tiles
    rw [flatten_cons, map_append, map_append, flatten_append, tiles.chunks known, map_cons,
      flatten_cons, termChunks_eq name known, ih fun u member => stored u (mem_cons_of_mem _ member)]

variable {p : SplitPiece}

theorem Piece.length {sh : Shard} {w : SplitWindow} {entries : List FileDataSequenceEntry}
    {cs : List CASChunkSequenceEntry} (agrees : Agrees sh xorbs entries) (piece : Piece sh w p)
    (name : p.term.hash = formatHash p.xorbHash) (listed : p.chunks = some cs) :
    (termChunks xorbs p.term).flatten.length = p.term.unpackedLength := by
  have block := piece.chunks
  rw [listed] at block
  obtain ⟨cb, found, rfl⟩ := Option.map_eq_some_iff.mp block.symm
  have same : cb.casHash = p.xorbHash := by simpa using find?_some found
  obtain ⟨x, stored, sizes⟩ := agrees.blocks cb (mem_of_find?_eq_some found)
  rw [same] at stored
  rw [← piece.total cb.chunks listed, termChunks_eq name stored, ← map_length_sum, chunkSizes, map_take,
    map_drop, sizes]
  simp only [StoredXorb.chunksIn, StoredXorb.framesIn, map_take, map_drop, map_map]
  rfl

theorem splitXorb_lookup {r : ReconstructionResponseV2} {list : List (Sigma fun _ : Bytes => List SplitPiece)}
    {m m' : AList fun _ : Bytes => List XorbMultiRangeFetch} (nodup : list.NodupKeys)
    (run : list.foldlM (splitXorb (ε := ε) r) m = .ok m') (hash : Bytes) :
    (∃ ps fetch others, list.dlookup hash = some ps ∧ (r.xorbs.lookup hash).getD [] = fetch :: others ∧
      m'.lookup hash = some [⟨fetch.url, ps.map fun p => ⟨p.term.range, p.packed⟩⟩]) ∨
    (list.dlookup hash = none ∧ m'.lookup hash = m.lookup hash) := by
  induction list generalizing m with
  | nil =>
    cases run
    exact .inr ⟨rfl, rfl⟩
  | cons first rest ih =>
    obtain ⟨name, ps⟩ := first
    rw [foldlM_cons, bind_eq_ok] at run
    obtain ⟨next, step, run⟩ := run
    obtain ⟨fresh, tail⟩ := nodupKeys_cons.mp nodup
    unfold splitXorb at step
    cases fetches : (r.xorbs.lookup name).getD [] with
    | nil => simp only [fetches, reduceCtorEq] at step
    | cons fetch others =>
      simp only [fetches] at step
      cases step
      by_cases same : hash = name
      · subst same
        have missing : rest.dlookup hash = none := dlookup_eq_none.mpr fresh
        rcases ih tail run with ⟨ps, -, -, found, -⟩ | ⟨-, kept⟩
        · rw [missing] at found
          cases found
        · refine .inl ⟨ps, fetch, others, dlookup_cons_eq .., fetches, ?_⟩
          rw [kept, lookup_insert]
      · rcases ih tail run with found | ⟨missing, kept⟩
        · rw [dlookup_cons_ne _ _ same]
          exact .inl found
        · rw [dlookup_cons_ne _ _ same]
          rw [lookup_insert_ne same] at kept
          exact .inr ⟨missing, kept⟩

variable {storage : StorageAdapter ε} {client : Client ε} {sh : Shard} {fb : FileBlock} {rng : ByteRange}

theorem buildV2_address {fileHash : FileHash} {r : ReconstructionResponseV2}
    (built : buildReconstructionResponseV2 storage sh fileHash rng = .ok r) {hash : XorbHash}
    {fetch : XorbMultiRangeFetch} {others : List XorbMultiRangeFetch}
    (offered : (r.xorbs.lookup (formatHash hash)).getD [] = fetch :: others) : storage.getXorbURL hash = .ok fetch.url := by
  unfold buildReconstructionResponseV2 at built
  cases found : sh.file fileHash with
  | none => simp only [found, reduceCtorEq] at built
  | some fb =>
    simp only [found, bind_eq_ok] at built
    obtain ⟨out, run, xs, attached, value⟩ := built
    cases value
    rcases attachURLs_lookup attached (formatHash hash) with ⟨rs, url, -, address, there⟩ | ⟨-, missing⟩
    · rw [parseHash_formatHash] at address
      simp only [there, Option.getD_some, cons.injEq] at offered
      rw [← offered.1]
      exact address
    · simp only [missing, Option.getD_none, reduceCtorEq] at offered

structure Replaced (r out : ReconstructionResponseV2) (pieces : List SplitPiece)
    (xs : AList fun _ : Bytes => List SplitPiece) : Prop where
  terms : out.terms = pieces.map (·.term)
  offset : out.offsetIntoFirstRange = r.offsetIntoFirstRange
  found : ∀ hash ps, xs.lookup hash = some ps → ∃ fetch others, (r.xorbs.lookup hash).getD [] = fetch :: others ∧
    out.xorbs.lookup hash = some [⟨fetch.url, ps.map fun p => ⟨p.term.range, p.packed⟩⟩]
  kept : ∀ hash, hash ∉ xs → out.xorbs.lookup hash = r.xorbs.lookup hash

theorem splitTermsV2_eq_ok {r out : ReconstructionResponseV2} {minTerms pieceBytes : Int}
    (order : ∀ t ∈ r.terms, t.range.start < t.range.stop)
    (run : splitTermsV2 storage sh r rng minTerms pieceBytes = .ok out) :
    (out = r ∧ Uncut sh (requested r.offsetIntoFirstRange rng pieceBytes) minTerms r.terms) ∨
    ∃ pieces xs, Divided storage sh (requested r.offsetIntoFirstRange rng pieceBytes) minTerms r.terms pieces xs ∧
      Replaced r out pieces xs := by
  rw [splitTermsV2, bind_eq_ok] at run
  obtain ⟨parts, divided, run⟩ := run
  rcases splitTerms_eq_ok order divided with ⟨rfl, uncut⟩ | ⟨pieces, xs, rfl, division⟩
  · cases run
    exact .inl ⟨rfl, uncut⟩
  · simp only [bind_eq_ok] at run
    obtain ⟨fetches, replaced, value⟩ := run
    cases value
    have lookup := splitXorb_lookup xs.nodupKeys replaced
    refine .inr ⟨pieces, xs, division, rfl, rfl, fun hash ps known => ?_, fun hash outside => ?_⟩
    · rcases lookup hash with ⟨qs, fetch, others, there, offered, new⟩ | ⟨missing, -⟩
      · cases known.symm.trans there
        exact ⟨fetch, others, offered, new⟩
      · cases known.symm.trans missing
    · rcases lookup hash with ⟨qs, fetch, others, there, -⟩ | ⟨-, same⟩
      · exact absurd (lookup_isSome.mp (by rw [AList.lookup, there]; rfl)) outside
      · exact same

theorem groups_origin {groups : List (List SplitPiece)} (all : Forall₂ Group terms groups)
    (member : p ∈ groups.flatten) : ∃ t ∈ terms, p.term.hash = t.hash ∧ (p.split = false → p.term = t) := by
  induction all with
  | nil => cases member
  | @cons t g terms groups group _ ih =>
    rcases mem_append.mp (flatten_cons ▸ member) with here | later
    · refine ⟨t, mem_cons_self, group.tiles.hash _ (mem_map_of_mem here), fun uncut => ?_⟩
      have alone := group.split p here
      rw [uncut, eq_comm, decide_eq_false_iff_not] at alone
      obtain ⟨q, rfl⟩ := length_eq_one_iff.mp (le_antisymm (not_lt.mp alone) (length_pos_of_mem here))
      obtain rfl := mem_singleton.mp here
      exact group.whole
    · obtain ⟨u, inside, facts⟩ := ih later
      exact ⟨u, mem_cons_of_mem _ inside, facts⟩

theorem Cutting.origin {pieces : List SplitPiece}
    (c : Cutting sh w terms pieces) (member : p ∈ pieces) :
    ∃ t ∈ terms, p.term.hash = t.hash ∧ (p.split = false → p.term = t) := by
  obtain ⟨groups, flat, all⟩ := c.groups
  exact groups_origin all (flat ▸ member)

section
variable {r out : ReconstructionResponseV2} {pieces : List SplitPiece} {xs : AList fun _ : Bytes => List SplitPiece}
variable {w : SplitWindow} {minTerms : Int}

theorem Replaced.fetches_found (rep : Replaced r out pieces xs) {hash : Bytes} {ps : List SplitPiece}
    (known : xs.lookup hash = some ps) :
    ∃ fetch others, (r.xorbs.lookup hash).getD [] = fetch :: others ∧
      out.fetches hash = ps.map fun p => ⟨p.term.range, fetch.url, p.packed⟩ := by
  obtain ⟨fetch, others, offered, new⟩ := rep.found hash ps known
  refine ⟨fetch, others, offered, ?_⟩
  simp only [ReconstructionResponseV2.fetches, new, Option.getD_some, flatMap_singleton,
    XorbMultiRangeFetch.entries, map_map]
  rfl

theorem Replaced.fetches_kept (rep : Replaced r out pieces xs) {hash : Bytes} (outside : hash ∉ xs) :
    out.fetches hash = r.fetches hash := by
  rw [ReconstructionResponseV2.fetches, ReconstructionResponseV2.fetches, rep.kept hash outside]

theorem Packed.true_fetch {p q : SplitPiece} {hash : XorbHash} {url : URL} (serves : Serves xorbs storage client)
    (packed : Packed storage p q) (piece : Piece sh w p) (name : p.term.hash = formatHash hash)
    (stored : xorbs hash = some x) (address : storage.getXorbURL hash = .ok url) :
    TrueFetch xorbs storage hash x ⟨q.term.range, url, q.packed⟩ := by
  obtain ⟨offsets, served, range⟩ := packed.bytes
  have parsed := piece.hash
  rw [name, parseHash_formatHash] at parsed
  cases parsed
  obtain rfl := serves.offsets _ _ _ stored served
  have valid : x.Valid p.term.range := x.valid_of_range range
  have same : (q.packed.start, q.packed.last) = _ := ok.inj (range.symm.trans valid.range)
  obtain ⟨first, last⟩ := Prod.mk.inj same
  refine ⟨stored, packed.term ▸ valid, ?_, address⟩
  rw [packed.term]
  cases bytes : q.packed
  rw [bytes] at first last
  simp only at first last
  rw [first, last]

theorem Replaced.supplies {fileHash : FileHash} (serves : Serves xorbs storage client)
    (built : buildReconstructionResponseV2 storage sh fileHash rng = .ok r)
    (supplies : Supplies xorbs storage r.fetches r.terms) (d : Divided storage sh w minTerms r.terms pieces xs)
    (rep : Replaced r out pieces xs) : Supplies xorbs storage out.fetches out.terms := by
  have origin : ∀ t ∈ out.terms, ∃ p ∈ pieces, p.term = t ∧ ∃ u ∈ r.terms, t.hash = u.hash ∧ (p.split = false → t = u) := by
    intro t member
    rw [rep.terms] at member
    obtain ⟨p, held, rfl⟩ := mem_map.mp member
    exact ⟨p, held, rfl, d.cutting.origin held⟩
  constructor
  case sound =>
    intro hash f offered
    cases known : xs.lookup (formatHash hash) with
    | none =>
      rw [rep.fetches_kept (by rw [← lookup_isSome, known]; simp)] at offered
      exact supplies.sound hash f offered
    | some ps =>
      obtain ⟨fetch, others, listed, fetches⟩ := rep.fetches_found known
      rw [fetches] at offered
      obtain ⟨q, held, rfl⟩ := mem_map.mp offered
      obtain ⟨name, p, member, packed⟩ := d.ranges.sound _ _ known q held
      rw [packed.term] at name
      obtain ⟨u, inside, same, -⟩ := d.cutting.origin member
      obtain ⟨g, there, -⟩ := supplies.covers u inside
      rw [← same, name] at there
      obtain ⟨x, fetch⟩ := supplies.sound hash g there
      exact ⟨x, packed.true_fetch serves (d.cutting.each p member) name fetch.stored (buildV2_address built listed)⟩
  case named =>
    intro t member
    obtain ⟨p, -, -, u, inside, same, -⟩ := origin t member
    rw [same]
    exact supplies.named u inside
  case order =>
    intro t member
    obtain ⟨p, held, rfl, -⟩ := origin t member
    exact (d.cutting.each p held).order
  case covers =>
    intro t member
    obtain ⟨p, held, rfl, u, inside, -, whole⟩ := origin t member
    cases known : xs.lookup p.term.hash with
    | none =>
      have outside : p.term.hash ∉ xs := by rw [← lookup_isSome, known]; simp
      have uncut : p.split = false := by
        by_contra cut
        exact outside ((d.ranges.keys _).mpr ⟨p, held, by simpa using cut, rfl⟩)
      rw [rep.fetches_kept outside, whole uncut]
      exact supplies.covers u inside
    | some ps =>
      obtain ⟨fetch, others, -, fetches⟩ := rep.fetches_found known
      obtain ⟨q, kept, start, stop⟩ := d.ranges.covers _ _ known p held rfl
      rw [fetches]
      exact ⟨_, mem_map_of_mem kept, start.le, stop⟩

end

/-- What cutting makes of a response: the term number `i` becomes the group number `i` of pieces, given
with their positions. -/
structure SplitAnswer (blake3 : Keyed) (client : Client ε) (xorbs : XorbHash → Option (StoredXorb lz4))
    (storage : StorageAdapter ε) (sh : Shard) (w : SplitWindow) (minTerms : Int) (r out : ReconstructionResponseV2)
    (groups : List (List (Int × Term))) : Prop where
  shape : positions 0 out.terms = groups.flatten
  pieces : Forall₂ (CutUp w) r.terms groups
  most : (out.terms.length : Int) ≤ max minTerms r.terms.length
  stops : (out.terms.length : Int) < minTerms → ∀ p ∈ positions 0 out.terms, ∀ c, ¬ Admissible sh w p.1 p.2 c
  offset : out.offsetIntoFirstRange = r.offsetIntoFirstRange
  inside : ∀ t ts, out.terms = t :: ts → 0 ≤ out.offsetIntoFirstRange ∧ out.offsetIntoFirstRange < t.unpackedLength
  reads : ∃ a b, newReaderV2 r none = .ok a ∧ newReaderV2 out none = .ok b ∧
    ∀ lens, (b.reads blake3 lz4 client lens).1 = (a.reads blake3 lz4 client lens).1
  supplied : Supplies xorbs storage out.fetches out.terms
  apart : ∀ hash, CutXorb groups hash → (out.fetches hash).Pairwise (·.range.start ≠ ·.range.start)
  kept : ∀ hash, ¬ CutXorb groups hash → out.xorbs.lookup hash = r.xorbs.lookup hash

theorem Supplies.reads {r : ReconstructionResponseV2} (blake3 : Keyed) (serves : Serves xorbs storage client)
    (supplies : Supplies xorbs storage r.fetches r.terms) (starts : StartsIn xorbs r.offsetIntoFirstRange r.terms) :
    ∃ reader, newReaderV2 r none = .ok reader ∧ ∀ lens, (reader.reads blake3 lz4 client lens).1 =
      inMemory ((r.terms.map (termChunks xorbs)).flatten.flatten.drop r.offsetIntoFirstRange.toNat) lens := by
  obtain ⟨-, -, -, -, reader, opened, run⟩ := planReader_reads blake3 serves
    (supplies.selects fun t => selectFetchInfoV2_covered) starts.skip
  exact ⟨reader, opened, run⟩

theorem Supplies.stored {fetches : Bytes → List FetchInfoEntry} {terms : List Term}
    (supplies : Supplies xorbs storage fetches terms) :
    ∀ t ∈ terms, ∃ hash x, t.hash = formatHash hash ∧ xorbs hash = some x := by
  intro t member
  obtain ⟨hash, name⟩ := supplies.named t member
  obtain ⟨f, offered, -⟩ := supplies.covers t member
  obtain ⟨x, fetch⟩ := supplies.sound hash f (name ▸ offered)
  exact ⟨hash, x, name, fetch.stored⟩

theorem positions_terms (pos : Int) (terms : List Term) : (positions pos terms).map Prod.snd = terms := by
  induction terms generalizing pos with
  | nil => rfl
  | cons t rest ih => rw [positions, map_cons, ih]

theorem positions_cutUp {w : SplitWindow} {terms : List Term} (order : ∀ t ∈ terms, t.range.start < t.range.stop)
    (pos : Int) : Forall₂ (CutUp w) terms ((positions pos terms).map fun p => [p]) := by
  induction terms generalizing pos with
  | nil => exact .nil
  | cons t rest ih =>
    have whole : CutUp w t [(pos, t)] :=
      ⟨⟨rfl, rfl, order t mem_cons_self, rfl⟩, sum_singleton, fun several => absurd several (by simp)⟩
    exact .cons whole (ih (fun u member => order u (mem_cons_of_mem _ member)) _)

theorem Uncut.stuck_positions {w : SplitWindow} {minTerms : Int} {terms : List Term} (uncut : Uncut sh w minTerms terms)
    (few : (terms.length : Int) < minTerms) : ∀ p ∈ positions 0 terms, ∀ c, ¬ Admissible sh w p.1 p.2 c := by
  cases uncut with
  | off disabled =>
    obtain rfl := eq_nil_of_length_eq_zero (show terms.length = 0 by omega)
    nofun
  | enough count => omega
  | stuck pieces cutting same stops =>
    subst same
    rw [positions_placed cutting.placed]
    intro q member c
    obtain ⟨p, held, rfl⟩ := mem_map.mp member
    exact (cutting.each p held).stuck (stops p held) c

theorem cutXorb_iff {terms : List Term} {groups : List (List SplitPiece)} (all : Forall₂ Group terms groups)
    (hash : Bytes) : CutXorb (groups.map fun g => g.map fun p => (p.start, p.term)) hash ↔
      ∃ p ∈ groups.flatten, p.split = true ∧ p.term.hash = hash := by
  have marked : ∀ g ∈ groups, ∀ p ∈ g, p.split = decide (1 < g.length) := by
    induction all with
    | nil => nofun
    | cons group _ ih => exact forall_mem_cons.mpr ⟨group.split, ih⟩
  constructor
  · rintro ⟨_, member, several, _, inside, same⟩
    obtain ⟨g, held, rfl⟩ := mem_map.mp member
    obtain ⟨p, there, rfl⟩ := mem_map.mp inside
    rw [length_map] at several
    exact ⟨p, mem_flatten.mpr ⟨g, held, there⟩, by rw [marked g held p there, decide_eq_true several], same⟩
  · rintro ⟨p, member, cut, same⟩
    obtain ⟨g, held, there⟩ := mem_flatten.mp member
    rw [marked g held p there, decide_eq_true_eq] at cut
    exact ⟨_, mem_map_of_mem held, by rwa [length_map], _, mem_map_of_mem there, same⟩

theorem first_piece {entries : List FileDataSequenceEntry} {terms : List Term} {offset pieceBytes : Int}
    {pieces : List SplitPiece} (agrees : Agrees sh xorbs entries)
    (cutting : Cutting sh (requested offset rng pieceBytes) terms pieces)
    (order : ∀ t ∈ terms, t.range.start < t.range.stop)
    (named : ∀ t ∈ terms, ∃ hash, t.hash = formatHash hash) (starts : StartsIn xorbs offset terms) :
    StartsIn xorbs offset (pieces.map (·.term)) := by
  obtain ⟨groups, flat, all⟩ := cutting.groups
  cases all with
  | nil =>
    subst flat
    exact starts
  | @cons t g ts groups group rest =>
    obtain ⟨low, high, size⟩ := starts.first t ts rfl
    cases g with
    | nil =>
      have empty : t.range.start = t.range.stop := group.tiles
      have inner := order t mem_cons_self
      omega
    | cons p others =>
      rw [flatten_cons, cons_append] at flat
      subst flat
      have piece := cutting.each p mem_cons_self
      refine ⟨nofun, fun u us shape => ?_⟩
      obtain ⟨rfl, -⟩ := cons.inj shape
      dsimp only
      have split := group.split p mem_cons_self
      cases cut : p.split with
      | false =>
        rw [cut, eq_comm, decide_eq_false_iff_not, length_cons] at split
        obtain rfl : others = [] := eq_nil_of_length_eq_zero (by omega)
        rw [group.whole]
        exact ⟨low, high, size⟩
      | true =>
        have floor := piece.floor cut
        have start : p.start = 0 := cutting.placed.1
        simp only [SplitWindow.bytes, requested, start] at floor
        obtain ⟨cs, listed⟩ := Option.ne_none_iff_exists'.mp (piece.listed cut)
        obtain ⟨hash, name⟩ := named t mem_cons_self
        have same := group.tiles.1.trans name
        have parsed := piece.hash
        rw [same, parseHash_formatHash] at parsed
        exact ⟨low, by omega, piece.length agrees (ok.inj parsed ▸ same) listed⟩

theorem Uncut.answer {r : ReconstructionResponseV2} {w : SplitWindow} {minTerms : Int} (blake3 : Keyed)
    (serves : Serves xorbs storage client) (supplies : Supplies xorbs storage r.fetches r.terms)
    (uncut : Uncut sh w minTerms r.terms) (starts : StartsIn xorbs r.offsetIntoFirstRange r.terms) :
    SplitAnswer blake3 client xorbs storage sh w minTerms r r ((positions 0 r.terms).map fun p => [p]) := by
  obtain ⟨reader, opened, -⟩ := supplies.reads blake3 serves starts
  constructor
  case shape => rw [← flatMap_def, flatMap_singleton']
  case pieces => exact positions_cutUp supplies.order 0
  case most => exact le_max_right _ _
  case stops => exact uncut.stuck_positions
  case offset => rfl
  case inside => exact fun t ts shape => ⟨(starts.first t ts shape).1, (starts.first t ts shape).2.1⟩
  case reads => exact ⟨reader, reader, opened, opened, fun lens => rfl⟩
  case supplied => exact supplies
  case apart =>
    rintro hash ⟨g, member, several, -⟩
    obtain ⟨p, -, rfl⟩ := mem_map.mp member
    exact absurd several (by simp)
  case kept => exact fun hash _ => rfl

/-- For every response that the builder makes of a range of a file of a shard that agrees with the
stored xorbs, and for every number of terms and bytes asked for, what cutting makes of it. -/
theorem split_answers (blake3 : Keyed) (lz4 : Xorb.Lz4) {ε : Type} (xorbs : XorbHash → Option (StoredXorb lz4))
    (storage : StorageAdapter ε) (client : Client ε) (serves : Serves xorbs storage client) (sh : Shard)
    (fileHash : FileHash) (fb : FileBlock) (found : sh.file fileHash = some fb) (agrees : Agrees sh xorbs fb.entries)
    (rng : ByteRange) (within : rng.Within fb.unpackedSize) (minTerms pieceBytes : Int)
    (r out : ReconstructionResponseV2) (built : buildReconstructionResponseV2 storage sh fileHash rng = .ok r)
    (split : splitTermsV2 storage sh r rng minTerms pieceBytes = .ok out) :
    ∃ groups, SplitAnswer blake3 client xorbs storage sh (requested r.offsetIntoFirstRange rng pieceBytes) minTerms
      r out groups := by
  obtain ⟨selection, skips, supplies⟩ := buildV2_supplies serves found agrees built
  have starts := selected_first agrees within selection skips
  rcases splitTermsV2_eq_ok supplies.order split with ⟨rfl, uncut⟩ | ⟨pieces, xs, d, rep⟩
  · exact ⟨_, uncut.answer blake3 serves supplies starts⟩
  obtain ⟨groups, flat, all, shape, cuts⟩ := d.cutting.cutUp
  have supplied := rep.supplies serves built supplies d
  have chunks : (out.terms.map (termChunks xorbs)).flatten = (r.terms.map (termChunks xorbs)).flatten := by
    rw [← cutUp_chunks cuts supplies.stored, ← shape, positions_terms, rep.terms]
  have head : StartsIn xorbs out.offsetIntoFirstRange out.terms := by
    rw [rep.terms, rep.offset]
    exact first_piece agrees d.cutting supplies.order supplies.named starts
  have cut : ∀ hash, CutXorb (groups.map fun g => g.map fun p => (p.start, p.term)) hash ↔ hash ∈ xs := by
    intro hash
    rw [cutXorb_iff all, ← flat, d.ranges.keys]
  obtain ⟨a, opened, run⟩ := supplies.reads blake3 serves starts
  obtain ⟨b, opened', run'⟩ := supplied.reads blake3 serves head
  refine ⟨groups.map fun g => g.map fun p => (p.start, p.term), ?_⟩
  constructor
  case shape => rw [rep.terms, shape]
  case pieces => exact cuts
  case most =>
    rw [rep.terms, length_map]
    exact d.most.trans (le_max_left _ _)
  case stops =>
    intro few q member c
    rw [rep.terms, length_map] at few
    rw [rep.terms, positions_placed d.cutting.placed] at member
    obtain ⟨p, held, rfl⟩ := mem_map.mp member
    exact (d.cutting.each p held).stuck (d.stops few p held) c
  case offset => exact rep.offset
  case inside => exact fun t ts shape => ⟨(head.first t ts shape).1, (head.first t ts shape).2.1⟩
  case reads => exact ⟨a, b, opened, opened', fun lens => by rw [run', run, chunks, rep.offset]⟩
  case supplied => exact supplied
  case apart =>
    intro hash cutHere
    obtain ⟨ps, known⟩ := Option.isSome_iff_exists.mp (AList.lookup_isSome.mpr ((cut hash).mp cutHere))
    obtain ⟨fetch, others, -, fetches⟩ := rep.fetches_found known
    rw [fetches, pairwise_map]
    exact (d.ranges.apart hash ps known).imp Nat.ne_of_lt
  case kept => exact fun hash uncut => rep.kept hash fun inside => uncut ((cut hash).mpr inside)

end

/-- Three terms are asked for, so the first of the two is cut in two. -/
theorem sample_splits :
    ∃ r out, buildReconstructionResponseV2 sampleStorage sampleShard sampleFile ⟨0, 6⟩ = .ok r ∧
      splitTermsV2 sampleStorage sampleShard r ⟨0, 6⟩ 3 2 = .ok out ∧ out.terms.length = 3 ∧
      ∃ groups, SplitAnswer sampleKeyed sampleClient sampleXorbs sampleStorage sampleShard
        (requested r.offsetIntoFirstRange ⟨0, 6⟩ 2) 3 r out groups := by
  have run : ((buildReconstructionResponseV2 sampleStorage sampleShard sampleFile ⟨0, 6⟩).toOption.bind fun r =>
      (splitTermsV2 sampleStorage sampleShard r ⟨0, 6⟩ 3 2).toOption.map fun out => out.terms.length) = some 3 := by
    decide +kernel
  obtain ⟨r, built, rest⟩ := Option.bind_eq_some_iff.mp run
  obtain ⟨out, split, count⟩ := Option.map_eq_some_iff.mp rest
  have built := eq_ok_of_toOption built
  have split := eq_ok_of_toOption split
  exact ⟨r, out, built, split, count, split_answers sampleKeyed storedLz4 sampleXorbs sampleStorage sampleClient
    sampleServes sampleShard sampleFile sampleBlock (by decide) sampleAgrees ⟨0, 6⟩ ⟨by decide, by decide, by decide⟩ 3 2
    r out built split⟩

end Xet.Download
