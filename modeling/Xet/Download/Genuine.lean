import Mathlib.Data.List.Infix
import Xet.Download.OneStream

/-! Readers whose fetches may fail. As long as every chunk that has arrived is the one announced, what a
reader writes out are the first bytes of its stream, and all of them when it comes to the end. -/
namespace Xet.Download
open Wire List Reader List.IsPrefix

section
variable {blake3 : Keyed} {lz4 : Xorb.Lz4} {ε : Type} {client : Client ε}

/-- Whatever the fetch of a term has loaded, its chunks of the term are the first of `datas`. -/
structure Brings (blake3 : Keyed) (lz4 : Xorb.Lz4) (client : Client ε) (tasks : List FetchTask)
    (p : Term × SelectedFetch) (datas : List Bytes) : Prop where
  count : datas.length = termChunkCount p
  chunks : ∀ cache, prefetched blake3 lz4 client tasks p.2.key = .ok cache →
    ((cache.chunks.drop (p.1.range.start - p.2.chunks.start)).take datas.length).map (·.data) <+: datas

structure Inside (blake3 : Keyed) (lz4 : Xorb.Lz4) (client : Client ε) (r : Reader ε) (key : FetchKey)
    (cache : ChunkCache) (stop : Nat) (here : List Bytes) (later : List (List Bytes)) : Prop where
  loaded : r.current = some (key, cache, stop)
  count : here.length = stop - r.chunkIdx
  chunks : ((cache.chunks.drop r.chunkIdx).take here.length).map (·.data) <+: here
  started : r.pending ≠ []
  pending : Forall₂ (Brings blake3 lz4 client r.tasks) r.pending.tail later
  skip : r.skip ≤ here.flatten.length

structure Before (blake3 : Keyed) (lz4 : Xorb.Lz4) (client : Client ε) (r : Reader ε)
    (later : List (List Bytes)) : Prop where
  loaded : r.current = none
  pending : Forall₂ (Brings blake3 lz4 client r.tasks) r.pending later
  skip : r.skip ≤ (later.headD []).flatten.length

inductive Left (blake3 : Keyed) (lz4 : Xorb.Lz4) (client : Client ε) (r : Reader ε) (content : Bytes) : Prop
  | inside (key : FetchKey) (cache : ChunkCache) (stop : Nat) (here : List Bytes) (later : List (List Bytes))
      (state : Inside blake3 lz4 client r key cache stop here later)
      (shape : content = r.chunk ++ (here.flatten.drop r.skip ++ later.flatten.flatten))
  | before (later : List (List Bytes)) (state : Before blake3 lz4 client r later)
      (empty : r.chunk = []) (shape : content = later.flatten.flatten.drop r.skip)

variable {r : Reader ε} {key : FetchKey} {cache : ChunkCache} {stop : Nat}
variable {here : List Bytes} {later : List (List Bytes)}

theorem Inside.next {d : Bytes} {c : CachedChunk}
    (state : Inside blake3 lz4 client r key cache stop (d :: here) later)
    (chunkRead : readChunk client key cache r.chunkIdx = .ok c) :
    c.data = d ∧ Inside blake3 lz4 client (r.accept blake3 c) key cache stop here later := by
  have found := readChunk_eq_ok chunkRead
  have count := state.count
  have chunks := state.chunks
  have skipped := state.skip
  obtain ⟨there, rfl⟩ := List.getElem?_eq_some_iff.mp found
  rw [drop_eq_getElem_cons there, length_cons, take_succ_cons, map_cons, cons_prefix_cons] at chunks
  rw [length_cons] at count
  rw [flatten_cons, length_append, ← chunks.1] at skipped
  refine ⟨chunks.1, ?_⟩
  constructor
  case loaded => exact state.loaded
  case count =>
    simp only [accept]
    omega
  case chunks => exact chunks.2
  case started => exact state.started
  case pending => exact state.pending
  case skip =>
    rw [accept_skip]
    omega

/-- The outcome of a fill: a failure, bytes of the content, or the end when there are none left. -/
def Advances (blake3 : Keyed) (lz4 : Xorb.Lz4) (client : Client ε) (content : Bytes)
    (out : Option (Stop ε) × Reader ε) : Prop :=
  match out.1 with
  | none => out.2.chunk ≠ [] ∧ Left blake3 lz4 client out.2 content
  | some .eof => content = []
  | some (.failed _) => True

theorem loadTerm_before {p : Term × SelectedFetch} {ps : List (Term × SelectedFetch)} {datas : List Bytes}
    {r' : Reader ε} (next : r.pending = p :: ps) (state : Before blake3 lz4 client r (datas :: later))
    (load : r.loadTerm blake3 lz4 client p.1 p.2 = .ok ((key, cache, stop), r')) :
    Inside blake3 lz4 client r' key cache stop datas later ∧ r'.chunk = r.chunk ∧ r'.pending = r.pending ∧
      r'.skip = r.skip := by
  have pending := state.pending
  rw [next, forall₂_cons] at pending
  obtain ⟨brings, others⟩ := pending
  simp only [loadTerm, state.loaded, bind_eq_ok] at load
  obtain ⟨fetched, run, value⟩ := load
  cases value
  refine ⟨⟨rfl, brings.count, brings.chunks _ run, ?_, ?_, state.skip⟩, rfl, rfl, rfl⟩
  · simp [next]
  · simpa only [next, tail_cons] using others

theorem left_rule (content : Bytes) : FillRule blake3 lz4 client
    (fun ps r => r.pending = ps ∧ r.chunk = [] ∧ Left blake3 lz4 client r content)
    (fun ps key cache left r => ∃ stop here later, r.pending.tail = ps ∧ r.chunk = [] ∧
      Inside blake3 lz4 client r key cache stop here later ∧ here.length = left ∧
      content = here.flatten.drop r.skip ++ later.flatten.flatten)
    (Advances blake3 lz4 client content) where
  finish := by
    rintro r ⟨next, drained, left⟩
    cases left with
    | inside _ _ _ _ _ state _ => exact absurd next state.started
    | before later state _ shape =>
      have pending := state.pending
      rw [next, forall₂_nil_left_iff] at pending
      rw [pending, flatten_nil, flatten_nil, drop_nil] at shape
      rw [Reader.finish]
      cases r.verifier with
      | none => exact shape
      | some v =>
        dsimp only
        split
        · exact shape
        · trivial
  load := by
    rintro p ps r key cache stop r' ⟨next, drained, left⟩ load
    cases left with
    | inside key cache stop here later state shape =>
      rw [loadTerm, state.loaded] at load
      cases load
      rw [drained, nil_append] at shape
      exact ⟨stop, here, later, by rw [next, tail_cons], drained, state, state.count, shape⟩
    | before later state _ shape =>
      obtain ⟨datas, later, -, -, rfl⟩ := forall₂_cons_left_iff.mp (next ▸ state.pending)
      obtain ⟨inside, chunk, same, skip⟩ := loadTerm_before next state load
      refine ⟨_, datas, later, by rw [same, next, tail_cons], chunk.trans drained, inside, inside.count, ?_⟩
      rw [shape, flatten_cons, flatten_append, skip]
      exact drop_append_of_le_length state.skip
  loadFailed := fun _ _ => trivial
  read := by
    rintro ps key cache left r c ⟨stop, _ | ⟨d, here⟩, later, rest, -, state, count, shape⟩ chunkRead
    · cases count
    · obtain ⟨rfl, next⟩ := state.next chunkRead
      rw [accept_flatten blake3] at shape
      split
      · rename_i more
        exact ⟨stop, here, later, rest, more, next, Nat.succ.inj count, by simpa [more] using shape⟩
      · rename_i more
        exact ⟨more, .inside key cache stop here later next (by rw [shape, append_assoc])⟩
  readFailed := fun _ _ => trivial
  leave := by
    rintro ps key cache r ⟨stop, here, later, rest, drained, state, count, shape⟩
    obtain rfl := eq_nil_of_length_eq_zero count
    have passed : Reader.skip { r with current := none, termIdx := r.termIdx + 1, pending := r.pending.tail } = 0 :=
      if_neg (Nat.succ_ne_zero _)
    refine ⟨rest, drained, .before later ⟨rfl, state.pending, ?_⟩ drained ?_⟩
    · rw [passed]
      exact Nat.zero_le _
    · rw [passed]
      simpa using shape

theorem Left.fill {content : Bytes} (left : Left blake3 lz4 client r content) :
    Advances blake3 lz4 client content (r.fill blake3 lz4 client) :=
  (left_rule content).fill (fun drained => ⟨rfl, drained, left⟩) fun ready => ⟨ready, left⟩

theorem Left.sent {content : Bytes} (left : Left blake3 lz4 client r content) (ready : r.chunk ≠ []) :
    ∃ rest, content = r.chunk ++ rest ∧ Left blake3 lz4 client { r with chunk := [] } rest := by
  cases left with
  | before later state empty shape => exact absurd empty ready
  | inside key cache stop here later state shape =>
    exact ⟨_, shape, .inside key cache stop here later { state with } rfl⟩

/-- What was written are the first bytes of the content, and all of them if nothing failed. -/
structure WritesOut (content : Bytes) (out : WriteResult ε) : Prop where
  start : out.data <+: content
  whole : out.err = none → out.data = content

theorem writeLoop_writesOut (w : Nat → Write) (i : Nat) (r : Reader ε) {content : Bytes}
    (left : Left blake3 lz4 client r content) : WritesOut content (r.writeLoop blake3 lz4 client w i).1 := by
  have filled := left.fill
  induction i, r using writeLoop.induct blake3 lz4 client w generalizing content with
  | case1 i r r' run =>
    rw [run] at filled
    rw [writeLoop, run]
    exact ⟨ nil_prefix, fun _ => Eq.symm filled⟩
  | case2 i r e r' run =>
    rw [writeLoop, run]
    exact ⟨ nil_prefix, by simp⟩
  | case3 i r r' run n e written =>
    rw [run] at filled
    obtain ⟨rest, shape, -⟩ := filled.2.sent filled.1
    rw [writeLoop, run]
    dsimp only
    rw [written]
    refine ⟨?_, by simp⟩
    rw [shape]
    exact ( take_prefix n _).trans (prefix_append _ _)
  | case4 i r r' run n written _ _ _ ih =>
    rw [run] at filled
    obtain ⟨rest, rfl, later⟩ := filled.2.sent filled.1
    have all : r'.chunk.take n = r'.chunk ∧ r'.chunk.drop n = [] := by
      rw [writeChunk_ok written, take_length, drop_length]
      exact ⟨rfl, rfl⟩
    rw [← all.2] at later
    have others := ih later later.fill
    rw [writeLoop, run]
    dsimp only
    rw [written]
    constructor
    · simpa only [all.1, prefix_append_right_inj] using others.start
    · intro ended
      simpa only [all.1, append_cancel_left_eq] using others.whole ended

/-- A response that stands for the bytes `rest`: its terms announce them behind the offset, and what its fetches
load are chunks that they announce. A fetch may fail, or be cut off. -/
structure Announces (blake3 : Keyed) (lz4 : Xorb.Lz4) (client : Client ε) (xorb : Bytes → Nat → Bytes)
    (plan : Except PlanError (List SelectedFetch × List FetchTask)) (offset : Int) (terms : List Term)
    (rest : Bytes) : Prop where
  stream : streamOf xorb offset terms = rest
  positive : 0 ≤ offset
  inside : offset ≤ ((announced xorb terms).headD []).flatten.length
  genuine : ∀ selected tasks, plan = .ok (selected, tasks) → ∀ s ∈ selected, ∀ cache,
    prefetched blake3 lz4 client tasks s.key = .ok cache →
      cache.chunks.map (·.data) <+: chunksOf xorb s.key.hash s.chunks

variable {xorb : Bytes → Nat → Bytes} {tasks : List FetchTask}

theorem Truthful.announces {plan : Except PlanError (List SelectedFetch × List FetchTask)} {offset : Int}
    {terms : List Term} {expectedHash : Option FileHash}
    (truthful : Truthful blake3 lz4 client xorb plan offset terms expectedHash) :
    Announces blake3 lz4 client xorb plan offset terms (streamOf xorb offset terms) where
  stream := rfl
  positive := truthful.positive
  inside := truthful.inside
  genuine := by
    intro selected tasks planned s member cache fetched
    obtain ⟨selected', tasks', same, decodes⟩ := truthful.decodes
    cases planned.symm.trans same
    obtain ⟨cache', fetched', -, chunks⟩ := decodes s member
    cases fetched.symm.trans fetched'
    rw [chunks]

theorem Suits.brings {t : Term} {s : SelectedFetch} (suits : Suits t s)
    (genuine : ∀ cache, prefetched blake3 lz4 client tasks s.key = .ok cache →
      cache.chunks.map (·.data) <+: chunksOf xorb s.key.hash s.chunks) :
    Brings blake3 lz4 client tasks (t, s) (chunksOf xorb t.hash t.range) := by
  have count : (chunksOf xorb t.hash t.range).length =
      t.range.stop - s.chunks.start - (t.range.start - s.chunks.start) := by
    have first := suits.first
    simp only [chunksOf, length_map, length_range']
    omega
  refine ⟨count, fun cache fetched => ?_⟩
  rw [count, ← chunksOf_sub xorb t.hash suits.first suits.order suits.last, map_take, map_drop, ← suits.name]
  exact take (drop (genuine cache fetched) _) _

theorem suits_bring {terms : List Term} {selected : List SelectedFetch} (suits : Forall₂ Suits terms selected)
    (genuine : ∀ s ∈ selected, ∀ cache, prefetched blake3 lz4 client tasks s.key = .ok cache →
      cache.chunks.map (·.data) <+: chunksOf xorb s.key.hash s.chunks) :
    Forall₂ (Brings blake3 lz4 client tasks) (terms.zip selected) (announced xorb terms) := by
  induction suits with
  | nil => exact .nil
  | cons first rest ih =>
    constructor
    · exact first.brings (genuine _ mem_cons_self)
    · exact ih fun s member => genuine s (mem_cons_of_mem _ member)

theorem Announces.writesOut {select : Term → Except PlanError FetchInfoEntry} {offset : Int} {terms : List Term}
    {rest : Bytes} {expectedHash : Option FileHash} {r : Reader ε} (covers : ∀ t f, select t = .ok f → Covers f t)
    (announces : Announces blake3 lz4 client xorb (planReader select terms) offset terms rest)
    (opened : newReader (planReader select terms) offset terms expectedHash = .ok r) (w : Nat → Write) :
    WritesOut rest (r.writeTo blake3 lz4 client w).1 := by
  simp only [newReader, bind_eq_ok, mapError_eq_ok] at opened
  obtain ⟨verifier, -, ⟨selected, tasks⟩, plan, value⟩ := opened
  cases value
  have brings := suits_bring (planReader_suits covers plan) (announces.genuine selected tasks plan)
  have skip : offset.toNat ≤ ((announced xorb terms).headD []).flatten.length := by
    have inside := announces.inside
    omega
  rw [← announces.stream]
  exact writeLoop_writesOut w 0 _ (.before (announced xorb terms) ⟨rfl, brings, skip⟩ rfl rfl)

end

end Xet.Download
