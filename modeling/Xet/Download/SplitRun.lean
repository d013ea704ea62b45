import Xet.Download.Split

/-! What the cutting loop keeps: the pieces of every term tile it, they follow one another in the
response, and each knows its best cut. -/
namespace Xet.Download
open Wire Shard List

/-- A boundary at `pos` that leaves enough requested bytes on both sides. -/
structure Fits (w : SplitWindow) (start stop pos : Int) : Prop where
  low : w.lo < pos
  high : pos < w.hi
  left : w.floor ≤ w.bytes start pos
  right : w.floor ≤ w.bytes pos stop

/-- Of the boundaries behind the first `1`, `2`, … of the chunks of sizes `sizes`, one that fits is
chosen, or none fits. -/
def Chosen (w : SplitWindow) (start stop : Int) (first : Nat) (sizes : List Nat) (cut : Nat) (cutAt : Int) : Prop :=
  (cut = 0 ∧ ∀ k, 0 < k → k ≤ sizes.length → ¬ Fits w start stop (start + (sizes.take k).sum)) ∨
  ∃ k, 0 < k ∧ k ≤ sizes.length ∧ cut = first + k ∧ cutAt = start + (sizes.take k).sum ∧ Fits w start stop cutAt

structure CutInv (w : SplitWindow) (start stop : Int) (first : Nat) (done : List Nat) (s : CutState) : Prop where
  pos : s.pos = start + done.sum
  chosen : Chosen w start stop first done s.cut s.cutAt
  none : s.best < 0 ↔ s.cut = 0

section
variable {w : SplitWindow} {start stop mid : Int} {first : Nat} {done : List Nat}

variable {s : CutState}

theorem planStep_skips {c size : Nat} (unfit : ¬ Fits w start stop (s.pos + size)) :
    planStep w start stop mid c size s = { s with pos := s.pos + size } := by
  unfold planStep
  dsimp only
  rw [if_pos]
  by_contra fit
  simp only [not_or, not_le, not_lt] at fit
  exact unfit ⟨fit.1, fit.2.1, fit.2.2.1, fit.2.2.2⟩

theorem Chosen.more {cut size : Nat} {cutAt : Int} (chosen : Chosen w start stop first done cut cutAt)
    (kept : cut ≠ 0 ∨ ¬ Fits w start stop (start + done.sum + size)) :
    Chosen w start stop first (done ++ [size]) cut cutAt := by
  rcases chosen with ⟨none, unfit⟩ | ⟨k, positive, bound, index, place, fit⟩
  · refine .inl ⟨none, fun k positive bound => ?_⟩
    rw [length_append, length_singleton] at bound
    by_cases inner : k ≤ done.length
    · rw [take_append_of_le_length inner]
      exact unfit k positive inner
    · rw [take_of_length_le (by simp; omega), sum_append, sum_singleton, Nat.cast_add,
        ← Int.add_assoc]
      exact kept.resolve_left (fun h => h none)
  · refine .inr ⟨k, positive, ?_, index, ?_, fit⟩
    · rw [length_append]
      omega
    · rw [take_append_of_le_length bound]
      exact place

theorem CutInv.step (mid : Int) (inv : CutInv w start stop first done s) (size : Nat) :
    CutInv w start stop first (done ++ [size]) (planStep w start stop mid (first + done.length + 1) size s) := by
  have next : s.pos + size = start + (done ++ [size]).sum := by
    rw [inv.pos, sum_append, sum_singleton, Nat.cast_add, Int.add_assoc]
  by_cases fit : Fits w start stop (s.pos + size)
  · have better : Chosen w start stop first (done ++ [size]) (first + done.length + 1) (s.pos + size) := by
      refine .inr ⟨done.length + 1, by omega, by simp, by omega, ?_, fit⟩
      rw [take_of_length_le (by simp), next]
    unfold planStep
    dsimp only
    rw [if_neg (by simp only [not_or, not_le, not_lt]; exact ⟨fit.low, fit.high, fit.left, fit.right⟩)]
    split
    · exact ⟨next, better, by simp only [Nat.add_eq_zero_iff]; omega⟩
    · rename_i worse
      refine ⟨next, inv.chosen.more (.inl fun none => worse (.inl (inv.none.mpr none))), inv.none⟩
  · rw [planStep_skips fit]
    refine ⟨next, inv.chosen.more (.inr ?_), inv.none⟩
    rwa [← inv.pos]

theorem planLoop_inv (sizes : List Nat) {done : List Nat} (inv : CutInv w start stop first done s) :
    CutInv w start stop first (done ++ sizes) (planLoop w start stop mid (first + done.length + 1) sizes s) := by
  induction sizes generalizing done s with
  | nil => rwa [append_nil]
  | cons size rest ih =>
    have tail := ih (inv.step mid size)
    rw [append_assoc, singleton_append, length_append, length_singleton, ← Nat.add_assoc] at tail
    exact tail

end

theorem plan_chosen (w : SplitWindow) (p : SplitPiece) :
    Chosen w p.start (p.start + p.term.unpackedLength) p.term.range.start p.innerSizes (w.plan p).cut (w.plan p).cutAt := by
  have start : CutInv w p.start (p.start + p.term.unpackedLength) p.term.range.start [] ⟨-1, 0, p.cutAt, p.start⟩ :=
    ⟨by simp, .inl ⟨rfl, fun k positive bound => by simp at bound; omega⟩, by simp⟩
  exact (planLoop_inv p.innerSizes start).chosen

theorem pickPiece_spec (pieces : List SplitPiece) (i : Nat) (best : Option (Nat × SplitPiece)) :
    (∀ k p, pickPiece i best pieces = some (k, p) →
      best = some (k, p) ∨ ∃ j, k = i + j ∧ pieces[j]? = some p ∧ 0 < p.cut) ∧
    (pickPiece i best pieces = none → best = none ∧ ∀ p ∈ pieces, p.cut = 0) := by
  induction pieces generalizing i best with
  | nil => exact ⟨fun k p run => .inl run, fun run => ⟨run, nofun⟩⟩
  | cons q rest ih =>
    rw [pickPiece]
    by_cases taken : 0 < q.cut ∧ ∀ b ∈ best, b.2.want < q.want
    · rw [if_pos taken]
      obtain ⟨found, missing⟩ := ih (i + 1) (some (i, q))
      constructor
      · intro k p run
        rcases found k p run with same | ⟨j, rfl, place, cut⟩
        · cases same
          exact .inr ⟨0, rfl, rfl, taken.1⟩
        · exact .inr ⟨j + 1, by omega, place, cut⟩
      · intro run
        cases (missing run).1
    · rw [if_neg taken]
      obtain ⟨found, missing⟩ := ih (i + 1) best
      constructor
      · intro k p run
        rcases found k p run with same | ⟨j, rfl, place, cut⟩
        · exact .inl same
        · exact .inr ⟨j + 1, by omega, place, cut⟩
      · intro run
        obtain ⟨none, uncut⟩ := missing run
        refine ⟨none, fun p member => ?_⟩
        rcases mem_cons.mp member with rfl | member
        · by_contra cut
          exact taken ⟨by omega, by simp [none]⟩
        · exact uncut p member

variable {pieces : List SplitPiece}

theorem pickPiece_some {k : Nat} {p : SplitPiece} (run : pickPiece 0 none pieces = some (k, p)) :
    pieces = pieces.take k ++ p :: pieces.drop (k + 1) ∧ 0 < p.cut := by
  rcases (pickPiece_spec pieces 0 none).1 k p run with impossible | ⟨j, rfl, place, cut⟩
  · cases impossible
  · obtain ⟨bound, rfl⟩ := List.getElem?_eq_some_iff.mp place
    rw [Nat.zero_add, ← drop_eq_getElem_cons bound, take_append_drop]
    exact ⟨rfl, cut⟩

/-- Terms of one xorb that follow one another from chunk `a` to chunk `b`, none of them empty. -/
def Tiles (hash : Bytes) : Nat → Nat → List Term → Prop
  | a, b, [] => a = b
  | a, b, t :: rest => t.hash = hash ∧ t.range.start = a ∧ a < t.range.stop ∧ Tiles hash t.range.stop b rest

def Placed : Int → List SplitPiece → Prop
  | _, [] => True
  | pos, p :: rest => p.start = pos ∧ Placed (pos + p.term.unpackedLength) rest

/-- A piece that agrees with the block of its xorb, keeps enough requested bytes if it was cut, and
knows its best cut. -/
structure Piece (sh : Shard) (w : SplitWindow) (p : SplitPiece) : Prop where
  hash : parseHash p.term.hash = .ok p.xorbHash
  chunks : p.chunks = (sh.casInfos.find? (·.casHash = p.xorbHash)).map (·.chunks)
  order : p.term.range.start < p.term.range.stop
  bound : ∀ cs, p.chunks = some cs → p.term.range.stop ≤ cs.length
  total : ∀ cs, p.chunks = some cs →
    (chunkSizes cs p.term.range.start p.term.range.stop).sum = p.term.unpackedLength
  floor : p.split = true → w.floor ≤ w.bytes p.start (p.start + p.term.unpackedLength)
  listed : p.split = true → p.chunks ≠ none
  chosen : Chosen w p.start (p.start + p.term.unpackedLength) p.term.range.start p.innerSizes p.cut p.cutAt

structure Group (t : Term) (g : List SplitPiece) : Prop where
  tiles : Tiles t.hash t.range.start t.range.stop (g.map (·.term))
  total : (g.map (·.term.unpackedLength)).sum = t.unpackedLength
  split : ∀ p ∈ g, p.split = decide (1 < g.length)

structure Cutting (sh : Shard) (w : SplitWindow) (terms : List Term) (pieces : List SplitPiece) : Prop where
  groups : ∃ groups : List (List SplitPiece), pieces = groups.flatten ∧ List.Forall₂ Group terms groups
  placed : Placed 0 pieces
  each : ∀ p ∈ pieces, Piece sh w p

theorem chunkSizes_length {cs : List CASChunkSequenceEntry} {a b : Nat} (bound : b ≤ cs.length) :
    (chunkSizes cs a b).length = b - a := by
  rw [chunkSizes, length_map, length_take, length_drop]
  omega

theorem chunkSizes_take {a b k : Nat} (cs : List CASChunkSequenceEntry) (inside : a + k ≤ b) :
    (chunkSizes cs a b).take k = chunkSizes cs a (a + k) := by
  rw [chunkSizes, chunkSizes, ← map_take, take_take]
  congr 2
  omega

theorem chunkSizes_split {a b c : Nat} (cs : List CASChunkSequenceEntry) (left : a ≤ b) (right : b ≤ c) :
    chunkSizes cs a c = chunkSizes cs a b ++ chunkSizes cs b c := by
  have first : c - a = (b - a) + (c - b) := by omega
  have second : a + (b - a) = b := by omega
  simp only [chunkSizes]
  rw [first, take_add, map_append, drop_drop, second]

structure CutAt (w : SplitWindow) (p : SplitPiece) (cs : List CASChunkSequenceEntry) : Prop where
  chunks : p.chunks = some cs
  low : p.term.range.start < p.cut
  high : p.cut < p.term.range.stop
  place : p.cutAt = p.start + (chunkSizes cs p.term.range.start p.cut).sum
  fits : Fits w p.start (p.start + p.term.unpackedLength) p.cutAt

variable {sh : Shard} {w : SplitWindow} {p : SplitPiece}

theorem Piece.cutAt (piece : Piece sh w p) (cut : 0 < p.cut) : ∃ cs, CutAt w p cs := by
  rcases piece.chosen with ⟨none, -⟩ | ⟨k, positive, bound, index, place, fits⟩
  · omega
  · cases chunks : p.chunks with
    | none =>
      simp only [SplitPiece.innerSizes, chunks, length_nil] at bound
      omega
    | some cs =>
      have limit := piece.bound cs chunks
      simp only [SplitPiece.innerSizes, chunks] at bound place
      rw [chunkSizes_length (by omega)] at bound
      rw [chunkSizes_take cs (by omega), ← index] at place
      exact ⟨cs, chunks, by omega, by omega, place, fits⟩

theorem Piece.plan {q : SplitPiece} (hash : parseHash q.term.hash = .ok q.xorbHash)
    (chunks : q.chunks = (sh.casInfos.find? (·.casHash = q.xorbHash)).map (·.chunks))
    (order : q.term.range.start < q.term.range.stop)
    (bound : ∀ cs, q.chunks = some cs → q.term.range.stop ≤ cs.length)
    (total : ∀ cs, q.chunks = some cs →
      (chunkSizes cs q.term.range.start q.term.range.stop).sum = q.term.unpackedLength)
    (floor : q.split = true → w.floor ≤ w.bytes q.start (q.start + q.term.unpackedLength))
    (listed : q.split = true → q.chunks ≠ none) : Piece sh w (w.plan q) :=
  ⟨hash, chunks, order, bound, total, floor, listed, plan_chosen w q⟩

structure Halves (sh : Shard) (w : SplitWindow) (p head tail : SplitPiece) : Prop where
  hashes : head.term.hash = p.term.hash ∧ tail.term.hash = p.term.hash
  low : p.term.range.start < p.cut
  high : p.cut < p.term.range.stop
  headRange : head.term.range = ⟨p.term.range.start, p.cut⟩
  tailRange : tail.term.range = ⟨p.cut, p.term.range.stop⟩
  total : head.term.unpackedLength + tail.term.unpackedLength = p.term.unpackedLength
  headStart : head.start = p.start
  tailStart : tail.start = p.start + head.term.unpackedLength
  split : head.split = true ∧ tail.split = true
  pieces : Piece sh w head ∧ Piece sh w tail

theorem Piece.halves (piece : Piece sh w p) (cut : 0 < p.cut) :
    ∃ head tail, cutPiece w p = [head, tail] ∧ Halves sh w p head tail := by
  obtain ⟨cs, c⟩ := piece.cutAt cut
  have whole := piece.total cs c.chunks
  have sum := congrArg List.sum (chunkSizes_split cs c.low.le c.high.le)
  rw [sum_append] at sum
  have size : (p.cutAt - p.start).toNat = (chunkSizes cs p.term.range.start p.cut).sum := by
    have place := c.place
    omega
  have only : ∀ cs', p.chunks = some cs' → cs' = cs := fun cs' same => Option.some.inj (same.symm.trans c.chunks)
  have middle : p.start + ((p.cutAt - p.start).toNat : Int) = p.cutAt := by
    have place := c.place
    omega
  refine ⟨_, _, rfl, ⟨rfl, rfl⟩, c.low, c.high, rfl, rfl, ?_, rfl, middle.symm, ⟨rfl, rfl⟩, ?_, ?_⟩
  · simp only [SplitWindow.plan]
    omega
  · apply Piece.plan
    · exact piece.hash
    · exact piece.chunks
    · exact c.low
    · intro cs' same
      have := piece.bound cs' same
      have := c.high
      simp only
      omega
    · intro cs' same
      rw [only cs' same]
      exact size.symm
    · intro _
      simp only [middle]
      exact c.fits.left
    · exact fun _ => c.chunks ▸ Option.some_ne_none cs
  · apply Piece.plan
    · exact piece.hash
    · exact piece.chunks
    · exact c.high
    · exact piece.bound
    · intro cs' same
      rw [only cs' same]
      simp only
      omega
    · intro _
      have stop : p.cutAt + ((p.term.unpackedLength - (p.cutAt - p.start).toNat : Nat) : Int) =
          p.start + p.term.unpackedLength := by
        omega
      simp only [stop]
      exact c.fits.right
    · exact fun _ => c.chunks ▸ Option.some_ne_none cs

variable {head : SplitPiece} {terms : List Term} {tail : SplitPiece}

theorem Halves.tiles (h : Halves sh w p head tail) {hash : Bytes} {a b : Nat}
    {before after : List Term} (tiles : Tiles hash a b (before ++ p.term :: after)) :
    Tiles hash a b (before ++ (head.term :: tail.term :: after)) := by
  induction before generalizing a with
  | nil =>
    obtain ⟨same, start, -, rest⟩ := tiles
    refine ⟨h.hashes.1.trans same, ?_, ?_, h.hashes.2.trans same, ?_, ?_, ?_⟩
    · rw [h.headRange, start]
    · rw [h.headRange, ← start]
      exact h.low
    · rw [h.tailRange, h.headRange]
    · rw [h.headRange, h.tailRange]
      exact h.high
    · rw [h.tailRange]
      exact rest
  | cons t before ih =>
    obtain ⟨same, start, order, rest⟩ := tiles
    exact ⟨same, start, order, ih rest⟩

variable {pos : Int}

theorem Halves.placed (h : Halves sh w p head tail) {before after : List SplitPiece}
    (placed : Placed pos (before ++ p :: after)) : Placed pos (before ++ (head :: tail :: after)) := by
  induction before generalizing pos with
  | nil =>
    obtain ⟨start, rest⟩ := placed
    have total := h.total
    refine ⟨h.headStart.trans start, by rw [h.tailStart, start], ?_⟩
    have stop : pos + head.term.unpackedLength + tail.term.unpackedLength = pos + p.term.unpackedLength := by omega
    rwa [stop]
  | cons q before ih =>
    obtain ⟨start, rest⟩ := placed
    exact ⟨start, ih rest⟩

variable {t : Term}

theorem Halves.group (h : Halves sh w p head tail) {before after : List SplitPiece}
    (g : Group t (before ++ p :: after)) : Group t (before ++ ([head, tail] ++ after)) := by
  constructor
  case tiles =>
    have tiles := g.tiles
    rw [map_append, map_cons] at tiles
    simpa using h.tiles tiles
  case total =>
    have total := g.total
    have parts := h.total
    simp only [map_append, map_cons, map_nil, sum_append, sum_cons, sum_nil] at total ⊢
    omega
  case split =>
    have several : decide (1 < (before ++ ([head, tail] ++ after)).length) = true := by
      simp only [length_append, length_cons, length_nil, decide_eq_true_eq]
      omega
    intro q member
    rw [several]
    -- Another piece of the group was cut before.
    have other : q ∈ before ∨ q ∈ after → q.split = true := by
      intro other
      rw [g.split q (by simp only [mem_append, mem_cons]; tauto)]
      have positive : 0 < before.length ∨ 0 < after.length := other.imp length_pos_of_mem length_pos_of_mem
      simp only [length_append, length_cons, decide_eq_true_eq]
      omega
    simp only [mem_append, mem_cons, not_mem_nil, or_false] at member
    rcases member with member | (rfl | rfl) | member
    · exact other (.inl member)
    · exact h.split.1
    · exact h.split.2
    · exact other (.inr member)

theorem Cutting.cut {before after : List SplitPiece}
    (c : Cutting sh w terms (before ++ p :: after)) (cut : 0 < p.cut) :
    Cutting sh w terms (before ++ (cutPiece w p ++ after)) := by
  obtain ⟨head, tail, halves, h⟩ := (c.each p (by simp)).halves cut
  rw [halves]
  constructor
  case groups =>
    obtain ⟨groups, shape, all⟩ := c.groups
    obtain ⟨groups', flat, all'⟩ := Segments.forall₂_replace all shape.symm fun t pre post g => h.group g
    exact ⟨groups', flat.symm, all'⟩
  case placed => exact h.placed c.placed
  case each =>
    intro q member
    simp only [mem_append, mem_cons, not_mem_nil, or_false] at member
    rcases member with member | (rfl | rfl) | member
    · exact c.each q (by simp [member])
    · exact h.pieces.1
    · exact h.pieces.2
    · exact c.each q (by simp [member])

theorem splitLoop_spec (n : Nat) {terms : List Term} (c : Cutting sh w terms pieces) :
    Cutting sh w terms (splitLoop w n pieces) ∧ pieces.length ≤ (splitLoop w n pieces).length ∧
    (splitLoop w n pieces).length ≤ pieces.length + n ∧
    ((splitLoop w n pieces).length < pieces.length + n → ∀ p ∈ splitLoop w n pieces, p.cut = 0) := by
  induction n generalizing pieces with
  | zero => exact ⟨c, le_rfl, le_rfl, fun less => absurd less (Nat.lt_irrefl _)⟩
  | succ n ih =>
    rw [splitLoop]
    cases picked : pickPiece 0 none pieces with
    | none => exact ⟨c, le_rfl, Nat.le_add_right _ _, fun _ => ((pickPiece_spec pieces 0 none).2 picked).2⟩
    | some choice =>
      obtain ⟨k, q⟩ := choice
      obtain ⟨shape, cut⟩ := pickPiece_some picked
      rw [shape] at c
      obtain ⟨kept, low, high, early⟩ := ih (c.cut cut)
      have count : (pieces.take k ++ (cutPiece w q ++ pieces.drop (k + 1))).length = pieces.length + 1 := by
        have size := congrArg List.length shape
        simp only [length_append, length_cons] at size
        simp only [length_append, cutPiece, length_cons, length_nil]
        omega
      rw [count] at low high early
      dsimp only
      exact ⟨kept, by omega, by omega, fun less => early (by omega)⟩

/-- What is known of the piece of a whole term before its cut is planned. -/
structure Whole (sh : Shard) (t : Term) (pos : Int) (p : SplitPiece) : Prop where
  term : p.term = t
  start : p.start = pos
  hash : parseHash t.hash = .ok p.xorbHash
  chunks : p.chunks = (sh.casInfos.find? (·.casHash = p.xorbHash)).map (·.chunks)
  bound : ∀ cs, p.chunks = some cs → t.range.stop ≤ cs.length
  total : ∀ cs, p.chunks = some cs → (chunkSizes cs t.range.start t.range.stop).sum = t.unpackedLength
  split : p.split = false

theorem Whole.piece (whole : Whole sh t pos p) (order : t.range.start < t.range.stop) : Piece sh w (w.plan p) := by
  obtain rfl := whole.term
  have uncut : p.split ≠ true := by simp [whole.split]
  exact Piece.plan whole.hash whole.chunks order whole.bound whole.total (absurd · uncut) (absurd · uncut)

theorem Whole.group (whole : Whole sh t pos p) (order : t.range.start < t.range.stop) : Group t [w.plan p] := by
  obtain rfl := whole.term
  refine ⟨⟨rfl, rfl, order, rfl⟩, by simp [SplitWindow.plan], fun q member => ?_⟩
  obtain rfl := mem_singleton.mp member
  exact whole.split

theorem blockChunks_eq_ok {ε : Type} {i : Nat} {hash : XorbHash} {chunks : Option (List CASChunkSequenceEntry)}
    (run : (blockChunks sh i t hash : Except (SplitError ε) _) = .ok chunks) :
    chunks = (sh.casInfos.find? (·.casHash = hash)).map (·.chunks) ∧
    (∀ cs, chunks = some cs → t.range.stop ≤ cs.length) ∧
    ∀ cs, chunks = some cs → (chunkSizes cs t.range.start t.range.stop).sum = t.unpackedLength := by
  unfold blockChunks at run
  cases block : sh.casInfos.find? (·.casHash = hash) with
  | none =>
    rw [block] at run
    cases run
    exact ⟨rfl, nofun, nofun⟩
  | some cb =>
    rw [block] at run
    simp only [bind_eq_ok, require_eq_ok] at run
    obtain ⟨-, bound, -, total, value⟩ := run
    cases value
    refine ⟨rfl, fun cs same => ?_, fun cs same => ?_⟩ <;> cases same <;> assumption

theorem splitPieces_cutting {ε : Type} {terms : List Term} {i : Nat}
    (order : ∀ t ∈ terms, t.range.start < t.range.stop)
    (run : (splitPieces sh i pos terms : Except (SplitError ε) _) = .ok pieces) :
    List.Forall₂ Group terms ((pieces.map w.plan).map fun p => [p]) ∧ Placed pos (pieces.map w.plan) ∧
    ∀ p ∈ pieces.map w.plan, Piece sh w p := by
  induction terms generalizing i pos pieces with
  | nil =>
    cases run
    exact ⟨.nil, trivial, nofun⟩
  | cons t rest ih =>
    simp only [splitPieces, bind_eq_ok, mapError_eq_ok] at run
    obtain ⟨hash, parsed, chunks, block, others, tail, value⟩ := run
    cases value
    obtain ⟨listed, bound, total⟩ := blockChunks_eq_ok block
    obtain ⟨groups, placed, each⟩ := ih (fun u member => order u (mem_cons_of_mem _ member)) tail
    have whole : Whole sh t pos ⟨t, i, hash, chunks, pos, false, 0, 0, 0, ⟨0, 0⟩⟩ :=
      ⟨rfl, rfl, parsed, listed, bound, total, rfl⟩
    have inner := order t mem_cons_self
    refine ⟨.cons (whole.group inner) groups, ⟨rfl, placed⟩, fun q member => ?_⟩
    rcases mem_cons.mp member with rfl | member
    · exact whole.piece inner
    · exact each q member

theorem Term.same {a b : Term} (hash : a.hash = b.hash) (length : a.unpackedLength = b.unpackedLength)
    (start : a.range.start = b.range.start) (stop : a.range.stop = b.range.stop) : a = b := by
  obtain ⟨_, _, _, _⟩ := a
  obtain ⟨_, _, _, _⟩ := b
  cases hash
  cases length
  cases start
  cases stop
  rfl

theorem Group.whole (group : Group t [p]) : p.term = t := by
  obtain ⟨hash, start, -, stop⟩ := group.tiles
  have total := group.total
  rw [map_singleton, sum_singleton] at total
  exact Term.same hash total start stop

theorem groups_count {groups : List (List SplitPiece)} (all : List.Forall₂ Group terms groups)
    (order : ∀ t ∈ terms, t.range.start < t.range.stop) :
    terms.length ≤ groups.flatten.length ∧
    (groups.flatten.length = terms.length → groups.flatten.map (·.term) = terms) := by
  induction all with
  | nil => exact ⟨le_rfl, fun _ => rfl⟩
  | @cons t g terms groups group _ ih =>
    obtain ⟨count, same⟩ := ih fun u member => order u (mem_cons_of_mem _ member)
    have inner := order t mem_cons_self
    simp only [flatten_cons, length_append, length_cons, map_append]
    cases g with
    | nil =>
      have empty : t.range.start = t.range.stop := group.tiles
      omega
    | cons p others =>
      rw [length_cons]
      refine ⟨by omega, fun equal => ?_⟩
      have alone : others = [] := eq_nil_of_length_eq_zero (by omega)
      subst alone
      rw [same (by omega), map_singleton, group.whole]
      rfl

end Xet.Download
