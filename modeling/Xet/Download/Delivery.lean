import Xet.Download.Reader

/-! What a reader delivers: when every term's chunks are in the cache of its fetch, the same bytes
as a reader over the concatenated chunks, whatever the buffers. -/
namespace Xet.Download
open Wire List Reader

def inMemory {ε : Type} (content : Bytes) : List Nat → List (ReadResult ε)
  | [] => []
  | len :: rest =>
    ⟨content.take len, if content.length < len then some .eof else none⟩ :: inMemory (content.drop len) rest

section
variable {blake3 : Keyed} {lz4 : Xorb.Lz4} {ε : Type} {client : Client ε} {tasks : List FetchTask}

/-- The fetch selected for a term has been loaded as a whole, and the chunks of the term in it
hold `datas`. -/
def Holds (blake3 : Keyed) (lz4 : Xorb.Lz4) (client : Client ε) (tasks : List FetchTask)
    (p : Term × SelectedFetch) (datas : List Bytes) : Prop :=
  ∃ cache, prefetched blake3 lz4 client tasks p.2.key = .ok cache ∧ cache.outcome = .complete ∧
    p.1.range.stop - p.2.chunks.start ≤ cache.chunks.length ∧
    (((cache.chunks.drop (p.1.range.start - p.2.chunks.start)).take
      (p.1.range.stop - p.2.chunks.start - (p.1.range.start - p.2.chunks.start))).map (·.data)) = datas

def Reader.skip (r : Reader ε) : Nat := if r.termIdx = 0 then r.skipBytes.toNat else 0

/-- The reader is inside a term: `here` are its chunks not read yet, `later` those of the terms
behind it. -/
structure InTerm (blake3 : Keyed) (lz4 : Xorb.Lz4) (client : Client ε) (r : Reader ε) (key : FetchKey)
    (cache : ChunkCache) (stop : Nat) (here : List Bytes) (later : List (List Bytes)) : Prop where
  healthy : r.err = none
  unverified : r.verifier = none
  loaded : r.current = some (key, cache, stop)
  complete : cache.outcome = .complete
  within : stop ≤ cache.chunks.length
  chunks : ((cache.chunks.drop r.chunkIdx).take (stop - r.chunkIdx)).map (·.data) = here
  started : r.pending ≠ []
  pending : Forall₂ (Holds blake3 lz4 client r.tasks) r.pending.tail later
  skip : r.skip ≤ here.flatten.length

structure AtTerm (blake3 : Keyed) (lz4 : Xorb.Lz4) (client : Client ε) (r : Reader ε)
    (later : List (List Bytes)) : Prop where
  healthy : r.err = none
  unverified : r.verifier = none
  loaded : r.current = none
  pending : Forall₂ (Holds blake3 lz4 client r.tasks) r.pending later
  skip : r.skip ≤ (later.headD []).flatten.length

inductive Delivers (blake3 : Keyed) (lz4 : Xorb.Lz4) (client : Client ε) (r : Reader ε) (content : Bytes) : Prop
  | inTerm (key : FetchKey) (cache : ChunkCache) (stop : Nat) (here : List Bytes) (later : List (List Bytes))
      (state : InTerm blake3 lz4 client r key cache stop here later)
      (shape : content = r.chunk ++ (here.flatten.drop r.skip ++ later.flatten.flatten))
  | atTerm (later : List (List Bytes)) (state : AtTerm blake3 lz4 client r later)
      (empty : r.chunk = []) (shape : content = later.flatten.flatten.drop r.skip)

variable {r : Reader ε} {key : FetchKey} {cache : ChunkCache} {stop : Nat}
variable {here : List Bytes} {later : List (List Bytes)}

theorem accept_chunk (r : Reader ε) (c : CachedChunk) : (r.accept blake3 c).chunk = c.data.drop r.skip := by
  simp only [accept, Reader.skip, drop_eq_drop_iff]
  by_cases first : r.termIdx = 0
  · by_cases positive : 0 < r.skipBytes
    · simp only [first, positive, and_self, ↓reduceIte]
      omega
    · simp only [first, positive, and_false, ↓reduceIte]
      omega
  · simp only [first, false_and, ↓reduceIte, Int.toNat_zero]

theorem accept_skip (r : Reader ε) (c : CachedChunk) : (r.accept blake3 c).skip = r.skip - c.data.length := by
  simp only [accept, Reader.skip]
  by_cases first : r.termIdx = 0
  · by_cases positive : 0 < r.skipBytes
    · simp only [first, positive, and_self, ↓reduceIte]
      omega
    · simp only [first, positive, and_false, ↓reduceIte]
      omega
  · simp only [first, ↓reduceIte, Nat.zero_sub]

theorem accept_flatten (blake3 : Keyed) (r : Reader ε) (c : CachedChunk) (here : List Bytes) :
    (c.data :: here).flatten.drop r.skip = (r.accept blake3 c).chunk ++ here.flatten.drop (r.accept blake3 c).skip := by
  rw [flatten_cons, drop_append, accept_chunk, accept_skip]

theorem InTerm.here_length (state : InTerm blake3 lz4 client r key cache stop here later) :
    here.length = stop - r.chunkIdx := by
  have within := state.within
  rw [← state.chunks, length_map, length_take, length_drop]
  omega

theorem InTerm.next {d : Bytes} (state : InTerm blake3 lz4 client r key cache stop (d :: here) later) :
    ∃ c, readChunk client key cache r.chunkIdx = .ok c ∧ c.data = d ∧
      InTerm blake3 lz4 client (r.accept blake3 c) key cache stop here later := by
  have left := state.here_length
  have within := state.within
  have chunks := state.chunks
  rw [length_cons] at left
  have there : r.chunkIdx < cache.chunks.length := by omega
  rw [drop_eq_getElem_cons there, ← left, take_succ_cons, map_cons, cons.injEq] at chunks
  refine ⟨cache.chunks[r.chunkIdx], ?_, chunks.1, ?_⟩
  · simp [readChunk, there, state.complete]
  · have skipped := state.skip
    rw [flatten_cons, length_append, ← chunks.1] at skipped
    constructor
    case healthy => exact state.healthy
    case unverified => simp [accept, state.unverified]
    case loaded => exact state.loaded
    case complete => exact state.complete
    case within => exact state.within
    case chunks =>
      have count : stop - (r.chunkIdx + 1) = here.length := by omega
      simpa only [accept, count] using chunks.2
    case started => exact state.started
    case pending => exact state.pending
    case skip =>
      rw [accept_skip]
      omega

/-- The outcome of a fill: there are bytes of the content to deliver, or there is no content. -/
def Filled (blake3 : Keyed) (lz4 : Xorb.Lz4) (client : Client ε) (content : Bytes)
    (out : Option (Stop ε) × Reader ε) : Prop :=
  (out.1 = none ∧ out.2.chunk ≠ [] ∧ Delivers blake3 lz4 client out.2 content) ∨
  (content = [] ∧ out.1 = some .eof ∧ Delivers blake3 lz4 client out.2 [])

theorem loadTerm_spec {p : Term × SelectedFetch} {ps : List (Term × SelectedFetch)} {datas : List Bytes}
    (next : r.pending = p :: ps) (state : AtTerm blake3 lz4 client r (datas :: later)) :
    ∃ key cache stop r', r.loadTerm blake3 lz4 client p.1 p.2 = .ok ((key, cache, stop), r') ∧
      InTerm blake3 lz4 client r' key cache stop datas later ∧
      r'.chunk = r.chunk ∧ r'.pending = r.pending ∧ r'.skip = r.skip := by
  have pending := state.pending
  rw [next, forall₂_cons] at pending
  obtain ⟨⟨cache, fetched, complete, within, chunks⟩, others⟩ := pending
  refine ⟨p.2.key, cache, p.1.range.stop - p.2.chunks.start, { r with
      current := some (p.2.key, cache, p.1.range.stop - p.2.chunks.start)
      chunkIdx := p.1.range.start - p.2.chunks.start }, ?_, ?_, rfl, rfl, rfl⟩
  · simp only [loadTerm, state.loaded, fetched]
    rfl
  · refine ⟨state.healthy, state.unverified, rfl, complete, within, chunks, ?_, ?_, state.skip⟩
    · simp [next]
    · simpa only [next, tail_cons] using others

/-- Where a fill is while `content` is to come: before a term or inside one, with no bytes left of the last chunk. -/
theorem delivers_rule (content : Bytes) : FillRule blake3 lz4 client
    (fun ps r => r.pending = ps ∧ r.chunk = [] ∧ Delivers blake3 lz4 client r content)
    (fun ps key cache left r => ∃ stop here later, r.pending.tail = ps ∧ r.chunk = [] ∧
      InTerm blake3 lz4 client r key cache stop here later ∧ here.length = left ∧
      content = here.flatten.drop r.skip ++ later.flatten.flatten)
    (Filled blake3 lz4 client content) where
  finish := by
    rintro r ⟨next, drained, d⟩
    cases d with
    | inTerm _ _ _ _ _ state _ => exact absurd next state.started
    | atTerm later state _ shape =>
      have pending := state.pending
      rw [next, forall₂_nil_left_iff] at pending
      have done : r.finish blake3 = (some .eof, r.cleanup) := by simp only [Reader.finish, state.unverified]
      subst pending
      rw [done]
      refine .inr ⟨by simp [shape], rfl, .atTerm [] ?_ rfl (by simp)⟩
      exact ⟨state.healthy, state.unverified, rfl, state.pending, state.skip⟩
  load := by
    rintro p ps r key cache stop r' ⟨next, drained, d⟩ load
    cases d with
    | inTerm key cache stop here later state shape =>
      rw [loadTerm, state.loaded] at load
      cases load
      rw [drained, nil_append] at shape
      exact ⟨stop, here, later, by rw [next, tail_cons], drained, state, state.here_length, shape⟩
    | atTerm later state _ shape =>
      obtain ⟨datas, later, -, -, rfl⟩ := forall₂_cons_left_iff.mp (next ▸ state.pending)
      obtain ⟨key, cache, stop, s, loaded, inside, chunk, same, skip⟩ := loadTerm_spec next state
      cases loaded.symm.trans load
      refine ⟨_, datas, later, by rw [same, next, tail_cons], chunk.trans drained, inside, inside.here_length, ?_⟩
      rw [shape, flatten_cons, flatten_append, skip]
      exact drop_append_of_le_length state.skip
  loadFailed := by
    rintro p ps r e ⟨next, -, d⟩ load
    cases d with
    | inTerm _ _ _ _ _ state _ =>
      rw [loadTerm, state.loaded] at load
      cases load
    | atTerm later state _ _ =>
      obtain ⟨datas, later, -, -, rfl⟩ := forall₂_cons_left_iff.mp (next ▸ state.pending)
      obtain ⟨_, _, _, _, loaded, -⟩ := loadTerm_spec next state
      cases loaded.symm.trans load
  read := by
    rintro ps key cache left r c ⟨stop, _ | ⟨d, here⟩, later, rest, -, state, count, shape⟩ chunkRead
    · cases count
    · obtain ⟨c', read, rfl, next⟩ := state.next
      cases read.symm.trans chunkRead
      rw [accept_flatten blake3] at shape
      split
      · rename_i more
        exact ⟨stop, here, later, rest, more, next, Nat.succ.inj count, by simpa [more] using shape⟩
      · rename_i more
        exact .inl ⟨rfl, more, .inTerm key cache stop here later next (by rw [shape, append_assoc])⟩
  readFailed := by
    rintro ps key cache left r e ⟨stop, _ | ⟨d, here⟩, later, rest, -, state, count, shape⟩ chunkRead
    · cases count
    · obtain ⟨c', read, -⟩ := state.next
      cases read.symm.trans chunkRead
  leave := by
    rintro ps key cache r ⟨stop, here, later, rest, drained, state, count, shape⟩
    obtain rfl := eq_nil_of_length_eq_zero count
    have passed : Reader.skip { r with current := none, termIdx := r.termIdx + 1, pending := r.pending.tail } = 0 :=
      if_neg (Nat.succ_ne_zero _)
    refine ⟨rest, drained, .atTerm later ⟨state.healthy, state.unverified, rfl, state.pending, ?_⟩ drained ?_⟩
    · rw [passed]
      exact Nat.zero_le _
    · rw [passed]
      simpa using shape

theorem Delivers.fill {content : Bytes} (d : Delivers blake3 lz4 client r content) :
    Filled blake3 lz4 client content (r.fill blake3 lz4 client) :=
  (delivers_rule content).fill (fun drained => ⟨rfl, drained, d⟩) fun ready => .inl ⟨rfl, ready, d⟩

theorem Delivers.copy {content : Bytes} (d : Delivers blake3 lz4 client r content) (ready : r.chunk ≠ [])
    (want : Nat) :
    r.chunk.take want = content.take (r.chunk.take want).length ∧
    Delivers blake3 lz4 client { r with chunk := r.chunk.drop want }
      (content.drop (r.chunk.take want).length) := by
  cases d with
  | atTerm later state empty shape => exact absurd empty ready
  | inTerm key cache stop here later state shape =>
    have fits : (r.chunk.take want).length ≤ r.chunk.length := by
      rw [length_take]
      omega
    constructor
    · rw [shape, take_append_of_le_length fits, length_take, take_eq_take_iff]
      omega
    · refine .inTerm key cache stop here later { state with } ?_
      rw [shape, drop_append_of_le_length fits]
      congr 1
      rw [length_take, drop_eq_drop_iff]
      omega

/-- What the loops need of a state with `content` to deliver: a fill finds bytes of it unless there
are none, and these go out from its front. -/
structure Yields (blake3 : Keyed) (lz4 : Xorb.Lz4) (client : Client ε) (D : Reader ε → Bytes → Prop) : Prop where
  healthy : ∀ {r content}, D r content → r.err = none
  fill : ∀ {r content}, D r content →
    (∃ r', r.fill blake3 lz4 client = (none, r') ∧ r'.chunk ≠ [] ∧ D r' content) ∨
    (content = [] ∧ ∃ r', r.fill blake3 lz4 client = (some .eof, r') ∧ D r' [])
  copy : ∀ {r content}, D r content → r.chunk ≠ [] → ∀ want,
    r.chunk.take want = content.take (r.chunk.take want).length ∧
    D { r with chunk := r.chunk.drop want } (content.drop (r.chunk.take want).length)

theorem Yields.readLoop {D : Reader ε → Bytes → Prop} (yields : Yields blake3 lz4 client D) (fuel want : Nat)
    {r : Reader ε} {content : Bytes} (enough : want ≤ fuel) (d : D r content) :
    ∃ r', r.readLoop blake3 lz4 client fuel want =
        (⟨content.take want, if content.length < want then some .eof else none⟩, r') ∧
      D r' (content.drop want) := by
  induction fuel generalizing want r content with
  | zero =>
    obtain rfl : want = 0 := by omega
    exact ⟨r, rfl, d⟩
  | succ fuel ih =>
    rw [Reader.readLoop]
    by_cases wanted : want = 0
    · subst wanted
      exact ⟨r, rfl, d⟩
    rw [if_neg wanted]
    rcases yields.fill d with ⟨r', filled, ready, d'⟩ | ⟨rfl, r', filled, d'⟩
    · rw [filled]
      obtain ⟨copied, rest⟩ := yields.copy d' ready want
      have progress := length_pos_of_ne_nil ready
      have size := length_take (i := want) (l := r'.chunk)
      have held := congrArg length copied
      rw [length_take (i := length _)] at held
      dsimp only
      generalize (r'.chunk.take want).length = n at *
      obtain ⟨last, run, d''⟩ := ih (want - n) (by omega) rest
      rw [run, copied]
      have split : want = n + (want - n) := by omega
      refine ⟨last, ?_, ?_⟩
      · have whole : content.take n ++ (content.drop n).take (want - n) = content.take want := by
          rw [← take_add, ← split]
        have short : (content.drop n).length < want - n ↔ content.length < want := by
          rw [length_drop]
          omega
        simp only [whole, short]
      · rw [drop_drop, ← split] at d''
        exact d''
    · rw [filled]
      refine ⟨r', ?_, by simpa using d'⟩
      have short : ([] : Bytes).length < want := by
        rw [length_nil]
        omega
      rw [if_pos short, take_nil]

theorem Yields.read {D : Reader ε → Bytes → Prop} (yields : Yields blake3 lz4 client D) {r : Reader ε}
    {content : Bytes} (len : Nat) (d : D r content) :
    ∃ r', r.read blake3 lz4 client len =
        (⟨content.take len, if content.length < len then some .eof else none⟩, r') ∧
      D r' (content.drop len) := by
  obtain ⟨r', run, rest⟩ := yields.readLoop len len le_rfl d
  refine ⟨r', ?_, rest⟩
  simp only [Reader.read, yields.healthy d, run]
  split
  case h_1 e failed =>
    split at failed <;> cases failed
  case h_2 => rfl

theorem delivers_yields : Yields blake3 lz4 client (Delivers blake3 lz4 client) where
  healthy := by
    intro r content d
    cases d with
    | inTerm _ _ _ _ _ state _ => exact state.healthy
    | atTerm _ state _ _ => exact state.healthy
  fill := by
    intro r content d
    rcases run : r.fill blake3 lz4 client with ⟨stop, r'⟩
    rcases run ▸ d.fill with ⟨rfl, ready, d'⟩ | ⟨empty, rfl, d'⟩
    · exact .inl ⟨r', rfl, ready, d'⟩
    · exact .inr ⟨empty, r', rfl, d'⟩
  copy := fun d => d.copy

theorem read_spec {r : Reader ε} {content : Bytes} (len : Nat) (d : Delivers blake3 lz4 client r content) :
    ∃ r', r.read blake3 lz4 client len =
        (⟨content.take len, if content.length < len then some .eof else none⟩, r') ∧
      Delivers blake3 lz4 client r' (content.drop len) :=
  delivers_yields.read len d

theorem reads_spec (lens : List Nat) {r : Reader ε} {content : Bytes}
    (d : Delivers blake3 lz4 client r content) : (r.reads blake3 lz4 client lens).1 = inMemory content lens := by
  induction lens generalizing r content with
  | nil => rfl
  | cons len rest ih =>
    obtain ⟨r', run, d'⟩ := read_spec len d
    simp only [reads, inMemory, run, ih d']

/-- A reader without a hash to check, when the plan succeeds and all its fetches are loaded as a
whole. -/
theorem newReader_delivers {plan : Except PlanError (List SelectedFetch × List FetchTask)} {offset : Int}
    {terms : List Term} {selected : List SelectedFetch} (planned : plan = .ok (selected, tasks))
    (holds : Forall₂ (Holds blake3 lz4 client tasks) (terms.zip selected) later)
    (skip : offset.toNat ≤ (later.headD []).flatten.length) :
    ∃ r, newReader plan offset terms none = .ok r ∧
      Delivers blake3 lz4 client r (later.flatten.flatten.drop offset.toNat) := by
  subst planned
  exact ⟨_, rfl, .atTerm later ⟨rfl, rfl, rfl, holds, skip⟩ rfl rfl⟩

end

end Xet.Download
