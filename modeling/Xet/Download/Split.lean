import Mathlib.Data.List.Sort
import Xet.Download.Build

/-! Cutting the terms of a response at chunk boundaries: again and again the term with the most
requested bytes is halved, until there are enough terms or every cut would leave too little. -/
namespace Xet.Download
open Wire Shard

/-- A term that lies `start` bytes into the response, with the cut chosen for it: chunk `cut`, which
lies `cutAt` bytes into the response, or 0 for none. -/
structure SplitPiece where
  term : Term
  /-- The number of the input term it is a piece of. -/
  src : Nat
  xorbHash : XorbHash
  /-- The chunks of the block of its xorb, if the shard has one. -/
  chunks : Option (List CASChunkSequenceEntry)
  start : Int
  split : Bool
  /-- The number of requested bytes in it. -/
  want : Int
  cut : Nat
  cutAt : Int
  /-- The packed bytes of its chunks, set only for xorbs with a cut term. -/
  packed : ByteRange

inductive SplitError (ε : Type) where
  | hash (index : Nat) (e : HashError)
  | outOfBounds (index : Nat) (range : ChunkRange) (count : Nat)
  | length (index : Nat) (range : ChunkRange) (sum unpackedLength : Nat)
  | offsets (e : ε)
  | range (e : Xorb.RangeError)
  | noFetchInfo (hash : Bytes)
  | noFetchInfoForTerm (index : Nat) (range : ChunkRange) (hash : Bytes)
  deriving DecidableEq

/-- The requested bytes of a response, from `lo` on and before `hi`, and the fewest a piece may keep. -/
structure SplitWindow where
  lo : Int
  hi : Int
  floor : Int

def requested (offset : Int) (rng : ByteRange) (pieceBytes : Int) : SplitWindow :=
  ⟨offset, offset + max (rng.last - rng.start + 1) 0, max pieceBytes 1⟩

def SplitWindow.bytes (w : SplitWindow) (start stop : Int) : Int := max (min stop w.hi - max start w.lo) 0

/-- The best cut so far, `best` from twice the middle or -1 if there is none, and the position of the
next boundary. -/
structure CutState where
  best : Int
  cut : Nat
  cutAt : Int
  pos : Int

def planStep (w : SplitWindow) (start stop mid : Int) (c size : Nat) (s : CutState) : CutState :=
  let pos := s.pos + size
  if pos ≤ w.lo ∨ w.hi ≤ pos ∨ w.bytes start pos < w.floor ∨ w.bytes pos stop < w.floor then { s with pos := pos }
  else
    let d := max (2 * pos - mid) (mid - 2 * pos)
    if s.best < 0 ∨ d < s.best then ⟨d, c, pos, pos⟩ else { s with pos := pos }

def planLoop (w : SplitWindow) (start stop mid : Int) : Nat → List Nat → CutState → CutState
  | _, [], s => s
  | c, size :: rest, s => planLoop w start stop mid (c + 1) rest (planStep w start stop mid c size s)

def SplitPiece.innerSizes (p : SplitPiece) : List Nat :=
  match p.chunks with
  | none => []
  | some chunks => chunkSizes chunks p.term.range.start (p.term.range.stop - 1)

/-- Set the requested bytes of the piece and its valid cut nearest to their middle, the lower one of two. -/
def SplitWindow.plan (w : SplitWindow) (p : SplitPiece) : SplitPiece :=
  let stop := p.start + p.term.unpackedLength
  let mid := max p.start w.lo + min stop w.hi
  let s := planLoop w p.start stop mid (p.term.range.start + 1) p.innerSizes ⟨-1, 0, p.cutAt, p.start⟩
  { p with want := w.bytes p.start stop, cut := s.cut, cutAt := s.cutAt }

def blockChunks {ε : Type} (sh : Shard) (i : Nat) (term : Term) (hash : XorbHash) :
    Except (SplitError ε) (Option (List CASChunkSequenceEntry)) :=
  match sh.casInfos.find? (·.casHash = hash) with
  | none => .ok none
  | some cb => do
    require (term.range.stop ≤ cb.chunks.length) (.outOfBounds i term.range cb.chunks.length)
    let sum := (chunkSizes cb.chunks term.range.start term.range.stop).sum
    require (sum = term.unpackedLength) (.length i term.range sum term.unpackedLength)
    return some cb.chunks

/-- The terms from number `i` on, the first of them `size` bytes into the response. -/
def splitPieces {ε : Type} (sh : Shard) : Nat → Int → List Term → Except (SplitError ε) (List SplitPiece)
  | _, _, [] => .ok []
  | i, size, term :: rest => do
    let hash ← (parseHash term.hash).mapError (.hash i)
    let chunks ← blockChunks sh i term hash
    let others ← splitPieces sh (i + 1) (size + term.unpackedLength) rest
    return ⟨term, i, hash, chunks, size, false, 0, 0, 0, ⟨0, 0⟩⟩ :: others

/-- The first of the pieces with a cut and the most requested bytes, with its number. -/
def pickPiece : Nat → Option (Nat × SplitPiece) → List SplitPiece → Option (Nat × SplitPiece)
  | _, best, [] => best
  | i, best, p :: rest =>
    pickPiece (i + 1)
      (if 0 < p.cut ∧ ∀ b ∈ best, b.2.want < p.want then some (i, p) else best) rest

def cutPiece (w : SplitWindow) (p : SplitPiece) : List SplitPiece :=
  let size := (p.cutAt - p.start).toNat
  let head := { p with term := { p.term with range := ⟨p.term.range.start, p.cut⟩, unpackedLength := size }, split := true }
  let tail := { p with
    term := { p.term with range := ⟨p.cut, p.term.range.stop⟩, unpackedLength := p.term.unpackedLength - size }
    start := p.cutAt
    split := true }
  [w.plan head, w.plan tail]

/-- At most `n` cuts. -/
def splitLoop (w : SplitWindow) : Nat → List SplitPiece → List SplitPiece
  | 0, pieces => pieces
  | n + 1, pieces =>
    match pickPiece 0 none pieces with
    | none => pieces
    | some (k, p) => splitLoop w n (pieces.take k ++ (cutPiece w p ++ pieces.drop (k + 1)))

section
variable {ε : Type} (storage : StorageAdapter ε)

def packPiece (p : SplitPiece) : Except (SplitError ε) SplitPiece := do
  let offsets ← (storage.getXorbChunkOffsets p.xorbHash).mapError .offsets
  let (first, last) ← (Xorb.chunkDataRangeFromOffsets offsets p.term.range.start
    p.term.range.stop).mapError .range
  return { p with packed := ⟨first, last⟩ }

def gatherPieces (cut : List Bytes) : List SplitPiece → (AList fun _ : Bytes => List SplitPiece) →
    Except (SplitError ε) (AList fun _ : Bytes => List SplitPiece)
  | [], m => .ok m
  | p :: rest, m =>
    if p.term.hash ∈ cut then do
      let p ← packPiece storage p
      gatherPieces cut rest (m.insert p.term.hash ((m.lookup p.term.hash).getD [] ++ [p]))
    else gatherPieces cut rest m

def StartsFirst (a b : SplitPiece) : Prop :=
  a.term.range.start < b.term.range.start ∨
    a.term.range.start = b.term.range.start ∧ b.term.range.stop ≤ a.term.range.stop

instance : DecidableRel StartsFirst := fun _ _ => inferInstanceAs (Decidable (_ ∨ _ ∧ _))

def compactStarts : SplitPiece → List SplitPiece → List SplitPiece
  | a, [] => [a]
  | a, b :: rest =>
    if a.term.range.start = b.term.range.start then compactStarts a rest else a :: compactStarts b rest

def longestPerStart (pieces : List SplitPiece) : List SplitPiece :=
  match pieces.insertionSort StartsFirst with
  | [] => []
  | a :: rest => compactStarts a rest

def arrangePieces (m : AList fun _ : Bytes => List SplitPiece) : AList fun _ : Bytes => List SplitPiece where
  entries := m.entries.map (.map id fun _ => longestPerStart)
  nodupKeys := by
    rw [List.NodupKeys, List.map₂_keys]
    exact m.nodupKeys

/-- The terms after all cuts, and the pieces of every xorb with a cut term; nothing when no term is cut. -/
def splitTerms (sh : Shard) (terms : List Term) (offset : Int) (rng : ByteRange) (minTerms pieceBytes : Int) :
    Except (SplitError ε) (Option (List Term × AList fun _ : Bytes => List SplitPiece)) :=
  if minTerms ≤ 1 ∨ minTerms ≤ terms.length then .ok none
  else do
    let pieces ← splitPieces sh 0 0 terms
    let w := requested offset rng pieceBytes
    let pieces := splitLoop w (minTerms - terms.length).toNat (pieces.map w.plan)
    if pieces.length = terms.length then return none
    else do
      let gathered ← gatherPieces storage ((pieces.filter (·.split)).map (·.term.hash)) pieces ∅
      return some (pieces.map (·.term), arrangePieces gathered)

def splitXorb (r : ReconstructionResponseV2) (m : AList fun _ : Bytes => List XorbMultiRangeFetch)
    (e : Sigma fun _ : Bytes => List SplitPiece) :
    Except (SplitError ε) (AList fun _ : Bytes => List XorbMultiRangeFetch) :=
  match (r.xorbs.lookup e.1).getD [] with
  | [] => .error (.noFetchInfo e.1)
  | fetch :: _ => .ok (m.insert e.1 [⟨fetch.url, e.2.map fun p => ⟨p.term.range, p.packed⟩⟩])

def splitTermsV2 (sh : Shard) (r : ReconstructionResponseV2) (rng : ByteRange) (minTerms pieceBytes : Int) :
    Except (SplitError ε) ReconstructionResponseV2 := do
  match ← splitTerms storage sh r.terms r.offsetIntoFirstRange rng minTerms pieceBytes with
  | none => return r
  | some (terms, xorbs) => do
    let fetches ← xorbs.entries.foldlM (splitXorb r) r.xorbs
    return { r with terms := terms, xorbs := fetches }

/-- The address of a term of a cut xorb: that of the first entry that holds its chunks. -/
def termURL (r : ReconstructionResponseV1) (xorbs : AList fun _ : Bytes => List SplitPiece) (t : Term × Nat) :
    Except (SplitError ε) URL :=
  if t.1.hash ∈ xorbs then
    match ((r.fetchInfo.lookup t.1.hash).getD []).find? fun e =>
      e.range.start ≤ t.1.range.start ∧ t.1.range.stop ≤ e.range.stop with
    | none => .error (.noFetchInfoForTerm t.2 t.1.range t.1.hash)
    | some entry => .ok entry.url
  else .ok []

def splitTermsV1 (sh : Shard) (r : ReconstructionResponseV1) (rng : ByteRange) (minTerms pieceBytes : Int) :
    Except (SplitError ε) ReconstructionResponseV1 := do
  match ← splitTerms storage sh r.terms r.offsetIntoFirstRange rng minTerms pieceBytes with
  | none => return r
  | some (terms, xorbs) => do
    let urls ← r.terms.zipIdx.mapM (termURL r xorbs)
    let fetches := xorbs.entries.foldl (fun m e => m.insert e.1
      (e.2.map fun p => (⟨p.term.range, urls.getD p.src [], p.packed⟩ : FetchInfoEntry))) r.fetchInfo
    return { r with terms := terms, fetchInfo := fetches }

end

end Xet.Download
