import Xet.Download.Verified
import Xet.Download.Versions

/-! The stream of a reader. Whatever mix of reads and writes drains it, and whether or not a hash is
checked at its end, it is the chunks of the terms behind the offset, once. -/
namespace Xet.Download
open Wire List Option Reader

section
variable {blake3 : Keyed} {lz4 : Xorb.Lz4} {ε : Type} {client : Client ε}

def Reader.bare (r : Reader ε) : Reader ε := { r with verifier := none }

def fetchedChunks (blake3 : Keyed) (lz4 : Xorb.Lz4) (client : Client ε) (tasks : List FetchTask)
    (p : Term × SelectedFetch) : List Bytes :=
  match prefetched blake3 lz4 client tasks p.2.key with
  | .ok cache => ((cache.chunks.drop (p.1.range.start - p.2.chunks.start)).take (termChunkCount p)).map (·.data)
  | .error _ => []

def Reader.unread (blake3 : Keyed) (lz4 : Xorb.Lz4) (client : Client ε) (r : Reader ε) : List Bytes :=
  match r.current with
  | none => r.pending.flatMap (fetchedChunks blake3 lz4 client r.tasks)
  | some (_, cache, stop) => ((cache.chunks.drop r.chunkIdx).take (stop - r.chunkIdx)).map (·.data) ++
      r.pending.tail.flatMap (fetchedChunks blake3 lz4 client r.tasks)

/-- The chunks seen so far and those to come give the expected hash. -/
structure Checked (blake3 : Keyed) (lz4 : Xorb.Lz4) (client : Client ε) (r : Reader ε) : Prop where
  started : r.current ≠ none → r.pending ≠ []
  own : ∀ key cache stop, r.current = some (key, cache, stop) → TrueHashes blake3 cache
  hash : ∀ v, r.verifier = some v →
    computeFileHashOf blake3 (v.chunks ++ (r.unread blake3 lz4 client).map (Xorb.chunkMeta blake3)) = v.expected

variable {r : Reader ε} {key : FetchKey} {cache : ChunkCache} {stop : Nat}

theorem Checked.copy (c : Checked blake3 lz4 client r) (rest : Bytes) :
    Checked blake3 lz4 client { r with chunk := rest } := ⟨c.started, c.own, c.hash⟩

theorem Checked.accept (c : Checked blake3 lz4 client r) (loaded : r.current = some (key, cache, stop))
    (inside : r.chunkIdx < stop) {chunk : CachedChunk} (there : cache.chunks[r.chunkIdx]? = some chunk) :
    Checked blake3 lz4 client (r.accept blake3 chunk) := by
  have split : stop - r.chunkIdx = stop - (r.chunkIdx + 1) + 1 := by omega
  have unread : r.unread blake3 lz4 client = chunk.data :: (r.accept blake3 chunk).unread blake3 lz4 client := by
    obtain ⟨bound, rfl⟩ := List.getElem?_eq_some_iff.mp there
    simp only [Reader.unread, Reader.accept, loaded]
    rw [drop_eq_getElem_cons bound, split, take_succ_cons, map_cons, cons_append]
  have hash : chunk.hash.getD (computeChunkHash blake3 chunk.data) = computeChunkHash blake3 chunk.data := by
    rcases c.own _ _ _ loaded chunk (mem_of_getElem? there) with none | some
    · rw [none, getD_none]
    · rw [some, getD_some]
  constructor
  case started => exact c.started
  case own => exact c.own
  case hash =>
    intro v seen
    obtain ⟨w, held, rfl⟩ := map_eq_some_iff.mp seen
    have whole := c.hash w held
    rw [unread, map_cons] at whole
    simpa only [hash, append_assoc, singleton_append, Xorb.chunkMeta] using whole

theorem loadTerm_bare (r : Reader ε) (term : Term) (selected : SelectedFetch) :
    r.bare.loadTerm blake3 lz4 client term selected =
      (r.loadTerm blake3 lz4 client term selected).map (Prod.map id bare) := by
  have same : r.bare.current = r.current := rfl
  rw [loadTerm, loadTerm, same]
  cases r.current with
  | some current => rfl
  | none =>
    change (do let cache ← prefetched blake3 lz4 client r.tasks selected.key; _) = _
    cases prefetched blake3 lz4 client r.tasks selected.key <;> rfl

theorem loadTerm_checked {p : Term × SelectedFetch} {ps : List (Term × SelectedFetch)} {r' : Reader ε}
    (c : Checked blake3 lz4 client r) (next : r.pending = p :: ps)
    (load : r.loadTerm blake3 lz4 client p.1 p.2 = .ok ((key, cache, stop), r')) :
    Checked blake3 lz4 client r' ∧ r'.current = some (key, cache, stop) ∧ r'.pending = r.pending := by
  cases loaded : r.current with
  | some current =>
    rw [loadTerm, loaded] at load
    cases load
    exact ⟨c, loaded, rfl⟩
  | none =>
    simp only [loadTerm, loaded, bind_eq_ok] at load
    obtain ⟨fetched, run, value⟩ := load
    cases value
    refine ⟨⟨?_, ?_, fun v held => ?_⟩, rfl, rfl⟩
    · simp [next]
    · intro key' cache' stop' same
      cases same
      exact prefetched_hashes run
    · have whole := c.hash v held
      simpa only [Reader.unread, loaded, next, flatMap_cons, fetchedChunks, run, tail_cons, termChunkCount] using whole

/-- The reader without its verifier does the same, step by step, and ends in `out`. -/
theorem checked_rule (out : Option (Stop ε) × Reader ε) : FillRule blake3 lz4 client
    (fun ps r => r.pending = ps ∧ Checked blake3 lz4 client r ∧ out = r.bare.fillTerms blake3 lz4 client ps)
    (fun ps key cache left r => ∃ stop, r.current = some (key, cache, stop) ∧ left = stop - r.chunkIdx ∧
      r.pending.tail = ps ∧ Checked blake3 lz4 client r ∧
      out = match r.bare.fillChunks blake3 client key cache left with
        | (some outcome, s) => (outcome, s)
        | (none, s) => s.fillTerms blake3 lz4 client ps)
    (fun last => out = Prod.map id bare last ∧
      ((∃ e, last.1 = some (.failed e)) ∨ Checked blake3 lz4 client last.2)) where
  finish := by
    rintro r ⟨pending, c, same⟩
    have idle : r.current = none := by
      by_contra loaded
      exact c.started loaded pending
    have none_left : r.unread blake3 lz4 client = [] := by
      simp only [Reader.unread, idle, pending, flatMap_nil]
    have ended : Checked blake3 lz4 client r.cleanup := by
      refine ⟨fun loaded => absurd rfl loaded, own_of_idle rfl, fun v held => ?_⟩
      have whole := c.hash v held
      rw [none_left] at whole
      simpa only [Reader.unread, cleanup, pending, flatMap_nil] using whole
    rw [Reader.finish]
    cases held : r.verifier with
    | none => exact ⟨same, .inr ended⟩
    | some v =>
      have whole := c.hash v held
      rw [none_left, map_nil, append_nil] at whole
      simp only [if_pos whole]
      exact ⟨same, .inr ended⟩
  load := by
    rintro ⟨term, selected⟩ ps r key cache stop r' ⟨pending, c, same⟩ load
    obtain ⟨next, loaded, kept⟩ := loadTerm_checked c pending load
    rw [fillTerms, loadTerm_bare, load] at same
    exact ⟨stop, loaded, rfl, by rw [kept, pending, tail_cons], next, same⟩
  loadFailed := by
    rintro ⟨term, selected⟩ ps r e ⟨pending, c, same⟩ load
    rw [fillTerms, loadTerm_bare, load] at same
    exact ⟨same, .inl ⟨e, rfl⟩⟩
  read := by
    rintro ps key cache left r chunk ⟨stop, loaded, count, rest, c, same⟩ chunkRead
    have next := c.accept loaded (by omega) (readChunk_eq_ok chunkRead)
    have place : r.bare.chunkIdx = r.chunkIdx := rfl
    have bytes : (r.bare.accept blake3 chunk).chunk = (r.accept blake3 chunk).chunk := rfl
    rw [fillChunks, place, chunkRead] at same
    dsimp only at same
    rw [bytes] at same
    split
    · rename_i more
      rw [if_pos more] at same
      exact ⟨stop, loaded, by simp only [Reader.accept]; omega, rest, next, same⟩
    · rename_i more
      rw [if_neg more] at same
      exact ⟨same, .inr next⟩
  readFailed := by
    rintro ps key cache left r e ⟨stop, loaded, count, rest, c, same⟩ chunkRead
    have place : r.bare.chunkIdx = r.chunkIdx := rfl
    rw [fillChunks, place, chunkRead] at same
    exact ⟨same, .inl ⟨e, rfl⟩⟩
  leave := by
    rintro ps key cache r ⟨stop, loaded, count, rest, c, same⟩
    refine ⟨rest, ⟨fun none => absurd rfl none, own_of_idle rfl, fun v held => ?_⟩, same⟩
    have whole := c.hash v held
    simpa only [Reader.unread, loaded, ← count, take_zero, map_nil, nil_append] using whole

theorem fill_checked (c : Checked blake3 lz4 client r) :
    r.bare.fill blake3 lz4 client = Prod.map id bare (r.fill blake3 lz4 client) ∧
    ((∃ e, (r.fill blake3 lz4 client).1 = some (.failed e)) ∨ Checked blake3 lz4 client (r.fill blake3 lz4 client).2) := by
  apply (checked_rule (r.bare.fill blake3 lz4 client)).fill
  · exact fun drained => ⟨rfl, c, if_pos drained⟩
  · exact fun ready => ⟨if_neg ready, .inr c⟩

/-- The reader has `content` to deliver, and its verifier will accept it. -/
structure Ready (blake3 : Keyed) (lz4 : Xorb.Lz4) (client : Client ε) (r : Reader ε) (content : Bytes) : Prop where
  delivers : Delivers blake3 lz4 client r.bare content
  checked : Checked blake3 lz4 client r

variable {content : Bytes}

theorem ready_yields : Yields blake3 lz4 client (Ready blake3 lz4 client) where
  healthy := by
    intro r content ready
    exact delivers_yields.healthy (r := r.bare) ready.delivers
  fill := by
    intro r content ready
    have filled := delivers_yields.fill ready.delivers
    obtain ⟨same, outcome⟩ := fill_checked ready.checked
    rcases run : r.fill blake3 lz4 client with ⟨stop, r'⟩
    rw [run] at same outcome
    rw [same] at filled
    rcases filled with ⟨s, filled, more, delivers⟩ | ⟨empty, s, filled, delivers⟩
    · cases filled
      exact .inl ⟨r', rfl, more, delivers, outcome.resolve_left nofun⟩
    · cases filled
      exact .inr ⟨empty, r', rfl, delivers, outcome.resolve_left nofun⟩
  copy := by
    intro r content ready more want
    obtain ⟨taken, rest⟩ := delivers_yields.copy ready.delivers more want
    exact ⟨taken, rest, ready.checked.copy _⟩

def TakesAll (w : Nat → Write) : Prop := ∀ i chunk, w i chunk = ((chunk.length : Int), false)

theorem TakesAll.writeChunk {w : Nat → Write} (all : TakesAll w) (i : Nat) (chunk : Bytes) :
    writeChunk (w i) chunk = (chunk.length, none) := by
  simp only [Download.writeChunk, all i chunk]
  simp

def Drained (blake3 : Keyed) (lz4 : Xorb.Lz4) (client : Client ε) (w : Nat → Write) (content : Bytes)
    (out : WriteResult ε × Reader ε) : Prop :=
  (out.1 = ⟨content, none⟩ ∧ Ready blake3 lz4 client out.2 []) ∨
  (¬ TakesAll w ∧ ∃ n e, out.1 = ⟨content.take n, some (.writer e)⟩ ∧ Ready blake3 lz4 client out.2 (content.drop n))

theorem writeLoop_drained (w : Nat → Write) (i : Nat) (r : Reader ε) {content : Bytes}
    (ready : Ready blake3 lz4 client r content) :
    Drained blake3 lz4 client w content (r.writeLoop blake3 lz4 client w i) := by
  have filled := ready_yields.fill ready
  induction i, r using writeLoop.induct blake3 lz4 client w generalizing content with
  | case1 i r r' run =>
    rw [run] at filled
    rcases filled with ⟨s, none, -⟩ | ⟨rfl, s, eof, ended⟩
    · cases none
    · cases eof
      rw [writeLoop, run]
      exact .inl ⟨rfl, ended⟩
  | case2 i r e r' run =>
    rw [run] at filled
    rcases filled with ⟨s, none, -⟩ | ⟨-, s, eof, -⟩
    · cases none
    · cases eof
  | case3 i r r' run n e written =>
    rw [run] at filled
    rcases filled with ⟨s, same, more, ready'⟩ | ⟨-, s, eof, -⟩
    · cases same
      obtain ⟨taken, rest⟩ := ready_yields.copy ready' more n
      rw [writeLoop, run]
      dsimp only
      rw [written]
      refine .inr ⟨fun all => ?_, _, e, by rw [← taken], rest⟩
      rw [all.writeChunk] at written
      cases written
    · cases eof
  | case4 i r r' run n written _ _ _ ih =>
    rw [run] at filled
    rcases filled with ⟨s, same, more, ready'⟩ | ⟨-, s, eof, -⟩
    · cases same
      obtain ⟨k, taken, rest⟩ : ∃ k, r'.chunk.take n = content.take k ∧
          Ready blake3 lz4 client { r' with chunk := r'.chunk.drop n } (content.drop k) :=
        ⟨_, ready_yields.copy ready' more n⟩
      rw [writeLoop, run]
      dsimp only
      rw [written]
      dsimp only
      rcases ih rest (ready_yields.fill rest) with ⟨all, ended⟩ | ⟨refused, m, e, some, later⟩
      · refine .inl ⟨?_, ended⟩
        simp only [all, taken, take_append_drop]
      · refine .inr ⟨refused, k + m, e, ?_, ?_⟩
        · simp only [some, take_add, taken]
        · rwa [drop_drop] at later
    · cases eof

/-- Calls over bytes in memory. A writer that does not take all of them ends its call early, and the
next call goes on behind what it took. -/
inductive Plays : Bytes → List Call → List (CallResult ε) → Prop
  | done (content : Bytes) : Plays content [] []
  | read {content : Bytes} {cs : List Call} {results : List (CallResult ε)} (len : Nat)
      (later : Plays (content.drop len) cs results) :
      Plays content (.read len :: cs)
        (⟨content.take len, if content.length < len then .clean else .more⟩ :: results)
  | written {content : Bytes} {cs : List Call} {results : List (CallResult ε)} (w : Nat → Write)
      (later : Plays [] cs results) : Plays content (.writeTo w :: cs) (⟨content, .clean⟩ :: results)
  | unwritten {content : Bytes} {cs : List Call} {results : List (CallResult ε)} {w : Nat → Write}
      (refused : ¬ TakesAll w) (n : Nat) (e : WriteError) (later : Plays (content.drop n) cs results) :
      Plays content (.writeTo w :: cs) (⟨content.take n, .unwritten e⟩ :: results)

theorem calls_play (cs : List Call) {r : Reader ε} {content : Bytes} (ready : Ready blake3 lz4 client r content) :
    Plays content cs (r.calls blake3 lz4 client cs).1 := by
  induction cs generalizing r content with
  | nil => exact .done content
  | cons c cs ih =>
    cases c with
    | read len =>
      obtain ⟨r', run, rest⟩ := ready_yields.read len ready
      have status : Stop.status (if content.length < len then some (.eof : Stop ε) else none) =
          if content.length < len then .clean else .more := by
        split <;> rfl
      simp only [Reader.calls, Reader.call, run, status]
      exact .read len (ih rest)
    | writeTo w =>
      have drained := writeLoop_drained w 0 r ready
      simp only [Reader.calls, Reader.call, Reader.writeTo, ready_yields.healthy ready]
      rcases drained with ⟨all, ended⟩ | ⟨refused, n, e, some, rest⟩
      · rw [all]
        exact .written w (ih ended)
      · rw [some]
        exact .unwritten refused n e (ih rest)

variable {xorb : Bytes → Nat → Bytes} {content : Bytes} {tasks : List FetchTask}

theorem Plays.unique {cs : List Call} {results results' : List (CallResult ε)}
    (writes : ∀ w, .writeTo w ∈ cs → TakesAll w) (p : Plays content cs results) (q : Plays content cs results') :
    results = results' := by
  induction p generalizing results' with
  | done content =>
    cases q
    rfl
  | read len later ih =>
    cases q with
    | read _ other => rw [ih (fun w member => writes w (mem_cons_of_mem _ member)) other]
  | written w later ih =>
    cases q with
    | written _ other => rw [ih (fun w member => writes w (mem_cons_of_mem _ member)) other]
    | unwritten refused n e other => exact absurd (writes w mem_cons_self) refused
  | unwritten refused n e later ih => exact absurd (writes _ mem_cons_self) refused

theorem Plays.bytes {cs : List Call} {results : List (CallResult ε)} (p : Plays content cs results) :
    (results.map (·.data)).flatten <+: content ∧
      ((∃ x ∈ results, x.status = .clean) → (results.map (·.data)).flatten = content) := by
  -- A call takes the first `n` bytes, and the later ones are about the rest.
  have step : ∀ (content rest : Bytes) (n : Nat), rest <+: content.drop n → content.take n ++ rest <+: content := by
    intro content rest n later
    have whole := (prefix_append_right_inj (content.take n)).mpr later
    rwa [take_append_drop] at whole
  induction p with
  | done content => exact ⟨ nil_prefix, fun ⟨_, member, _⟩ => nomatch member⟩
  | @read content cs results len later ih =>
    refine ⟨step _ _ _ ih.1, fun ⟨x, member, clean⟩ => ?_⟩
    rcases mem_cons.mp member with rfl | member
    · have short : content.length < len := by
        by_contra long
        rw [if_neg long] at clean
        cases clean
      have nothing := ih.1
      rw [drop_eq_nil_of_le short.le, prefix_nil] at nothing
      rw [map_cons, flatten_cons, nothing, append_nil]
      exact take_of_length_le short.le
    · rw [map_cons, flatten_cons, ih.2 ⟨x, member, clean⟩]
      exact take_append_drop len content
  | written w later ih =>
    have nothing := prefix_nil.mp ih.1
    rw [map_cons, flatten_cons, nothing, append_nil]
    exact ⟨prefix_rfl, fun _ => rfl⟩
  | unwritten refused n e later ih =>
    refine ⟨step _ _ _ ih.1, fun ⟨x, member, clean⟩ => ?_⟩
    rcases mem_cons.mp member with rfl | member
    · cases clean
    · rw [map_cons, flatten_cons, ih.2 ⟨x, member, clean⟩]
      exact take_append_drop n _

/-- The results of all runs of calls are about one stream of bytes: each call takes from its front,
no byte goes out twice or is left out, and behind a clean end there are none. -/
structure OneStream (content : Bytes) (run : List Call → List (CallResult ε)) : Prop where
  plays : ∀ cs, Plays content cs (run cs)
  once : ∀ cs, ((run cs).map (·.data)).flatten <+: content
  whole : ∀ cs, (∃ x ∈ run cs, x.status = .clean) → ((run cs).map (·.data)).flatten = content

theorem Ready.oneStream {r : Reader ε} {content : Bytes} (ready : Ready blake3 lz4 client r content) :
    OneStream content fun cs => (r.calls blake3 lz4 client cs).1 where
  plays cs := calls_play cs ready
  once cs := (calls_play cs ready).bytes.1
  whole cs := (calls_play cs ready).bytes.2

/-- The chunks of a range, given the chunks of every xorb by name and number. -/
def chunksOf (xorb : Bytes → Nat → Bytes) (hash : Bytes) (r : ChunkRange) : List Bytes :=
  (List.range' r.start (r.stop - r.start)).map (xorb hash)

def announced (xorb : Bytes → Nat → Bytes) (terms : List Term) : List (List Bytes) :=
  terms.map fun t => chunksOf xorb t.hash t.range

/-- The planner accepts the response, the body that is fetched for a key (or the cached file in its
place) decodes to the chunks announced by each fetch with that key, the offset lies in the first
term, and a hash to check is that of the file. -/
structure Truthful (blake3 : Keyed) (lz4 : Xorb.Lz4) (client : Client ε) (xorb : Bytes → Nat → Bytes)
    (plan : Except PlanError (List SelectedFetch × List FetchTask)) (offset : Int) (terms : List Term)
    (expectedHash : Option FileHash) : Prop where
  decodes : ∃ selected tasks, plan = .ok (selected, tasks) ∧ ∀ s ∈ selected, ∃ cache,
    prefetched blake3 lz4 client tasks s.key = .ok cache ∧ cache.outcome = .complete ∧
      cache.chunks.map (·.data) = chunksOf xorb s.key.hash s.chunks
  positive : 0 ≤ offset
  inside : offset ≤ ((announced xorb terms).headD []).flatten.length
  verifies : ∀ h, expectedHash = some h → offset = 0 ∧
    computeFileHashOf blake3 ((announced xorb terms).flatten.map (Xorb.chunkMeta blake3)) = h

def streamOf (xorb : Bytes → Nat → Bytes) (offset : Int) (terms : List Term) : Bytes :=
  (announced xorb terms).flatten.flatten.drop offset.toNat

variable {t : Term} {f : FetchInfoEntry}

theorem foldl_better_covers (candidates : List FetchInfoEntry) (best : Option FetchInfoEntry)
    (before : ∀ g, best = some g → Covers g t) (run : candidates.foldl (better t) best = some f) : Covers f t := by
  induction candidates generalizing best with
  | nil => exact before f run
  | cons new rest ih =>
    rw [foldl_cons] at run
    refine ih _ (fun g step => ?_) run
    rcases better_cases t best new with ⟨kept, -⟩ | ⟨chosen, covers⟩
    · exact before g (kept.symm.trans step)
    · cases chosen.symm.trans step
      exact covers

theorem selectFetchInfoV1_covers {r : ReconstructionResponseV1} (selected : selectFetchInfoV1 r t = .ok f) :
    Covers f t := by
  have run : (r.fetches t.hash).foldl (better t) none = some f := by
    rw [← selectFetchInfoV1_eq, selected]
    rfl
  exact foldl_better_covers _ none nofun run

theorem selectFetchInfoV2_covers {r : ReconstructionResponseV2} (selected : selectFetchInfoV2 r t = .ok f) :
    Covers f t := by
  have run : (r.fetches t.hash).foldl (better t) none = some f := by
    rw [← selectFetchInfoV2_eq, selected]
    rfl
  exact foldl_better_covers _ none nofun run

structure Suits (t : Term) (s : SelectedFetch) : Prop where
  name : s.key.hash = t.hash
  order : t.range.start < t.range.stop
  first : s.chunks.start ≤ t.range.start
  last : t.range.stop ≤ s.chunks.stop

theorem planReader_suits {select : Term → Except PlanError FetchInfoEntry} {terms : List Term}
    {selected : List SelectedFetch} {tasks : List FetchTask}
    (covers : ∀ t f, select t = .ok f → Covers f t) (plan : planReader select terms = .ok (selected, tasks)) :
    List.Forall₂ Suits terms selected := by
  simp only [planReader, bind_eq_ok] at plan
  obtain ⟨planned, each, value⟩ := plan
  cases value
  rw [List.forall₂_map_right_iff]
  refine (forall₂_of_mapM each).imp fun t out value => ?_
  simp only [planTerm, bind_eq_ok, checkFetchRange, require_eq_ok, exists_const] at value
  obtain ⟨entry, chosen, ⟨order, -⟩, result⟩ := value
  cases result
  exact ⟨rfl, order, (covers t entry chosen).1, (covers t entry chosen).2⟩

theorem chunksOf_sub (xorb : Bytes → Nat → Bytes) (hash : Bytes) {r s : ChunkRange} (first : r.start ≤ s.start)
    (order : s.start < s.stop) (last : s.stop ≤ r.stop) :
    ((chunksOf xorb hash r).drop (s.start - r.start)).take (s.stop - r.start - (s.start - r.start)) =
      chunksOf xorb hash s := by
  have offset : r.start + (s.start - r.start) = s.start := by omega
  have count : s.stop - r.start - (s.start - r.start) = s.stop - s.start := by omega
  have fits : s.stop - r.start - (s.start - r.start) ≤ r.stop - r.start - (s.start - r.start) := by omega
  rw [chunksOf, ← map_drop, ← map_take, drop_range', take_range'_of_length_ge fits, Nat.mul_one, offset, count]
  rfl

theorem Suits.holds {s : SelectedFetch} (suits : Suits t s)
    (decodes : ∃ cache, prefetched blake3 lz4 client tasks s.key = .ok cache ∧ cache.outcome = .complete ∧
      cache.chunks.map (·.data) = chunksOf xorb s.key.hash s.chunks) :
    Holds blake3 lz4 client tasks (t, s) (chunksOf xorb t.hash t.range) := by
  obtain ⟨cache, fetched, complete, chunks⟩ := decodes
  have order := suits.order
  have first := suits.first
  have last := suits.last
  refine ⟨cache, fetched, complete, ?_, ?_⟩
  · have count := congrArg List.length chunks
    simp only [chunksOf, length_map, length_range'] at count
    dsimp only
    omega
  · rw [map_take, map_drop, chunks, suits.name]
    exact chunksOf_sub xorb t.hash first order last

theorem suits_hold {terms : List Term}
    {selected : List SelectedFetch} (suits : List.Forall₂ Suits terms selected)
    (decodes : ∀ s ∈ selected, ∃ cache, prefetched blake3 lz4 client tasks s.key = .ok cache ∧
      cache.outcome = .complete ∧ cache.chunks.map (·.data) = chunksOf xorb s.key.hash s.chunks) :
    List.Forall₂ (Holds blake3 lz4 client tasks) (terms.zip selected) (announced xorb terms) := by
  induction suits with
  | nil => exact .nil
  | cons first rest ih =>
    constructor
    · exact first.holds (decodes _ mem_cons_self)
    · exact ih fun s member => decodes s (mem_cons_of_mem _ member)

theorem fetchedChunks_of_holds {ps : List (Term × SelectedFetch)} {datas : List (List Bytes)}
    (holds : List.Forall₂ (Holds blake3 lz4 client tasks) ps datas) :
    ps.flatMap (fetchedChunks blake3 lz4 client tasks) = datas.flatten := by
  induction holds with
  | nil => rfl
  | cons first rest ih =>
    obtain ⟨cache, fetched, -, -, chunks⟩ := first
    rw [flatMap_cons, flatten_cons, ih, ← chunks]
    simp only [fetchedChunks, fetched, termChunkCount]

theorem Truthful.ready {select : Term → Except PlanError FetchInfoEntry} {offset : Int}
    {terms : List Term} {expectedHash : Option FileHash} (covers : ∀ t f, select t = .ok f → Covers f t)
    (truthful : Truthful blake3 lz4 client xorb (planReader select terms) offset terms expectedHash) :
    ∃ r, newReader (planReader select terms) offset terms expectedHash = .ok r ∧
      Ready blake3 lz4 client r (streamOf xorb offset terms) := by
  obtain ⟨selected, tasks, plan, decodes⟩ := truthful.decodes
  have holds := suits_hold (planReader_suits covers plan) decodes
  have skip : offset.toNat ≤ ((announced xorb terms).headD []).flatten.length := by
    have inside := truthful.inside
    omega
  have verifier : newFileVerifier (ε := ε) expectedHash offset = .ok (expectedHash.map (⟨·, []⟩)) := by
    cases expectedHash with
    | none => rfl
    | some h =>
      rw [newFileVerifier, require_true (truthful.verifies h rfl).1]
      rfl
  rw [newReader, verifier, plan]
  refine ⟨_, rfl, .atTerm (announced xorb terms) ⟨rfl, rfl, rfl, holds, skip⟩ rfl rfl, ?_⟩
  constructor
  case started => exact fun loaded => absurd rfl loaded
  case own => exact own_of_idle rfl
  case hash =>
    intro v held
    obtain ⟨h, expected, rfl⟩ := map_eq_some_iff.mp held
    simp only [Reader.unread, fetchedChunks_of_holds holds, nil_append]
    exact (truthful.verifies h expected).2

variable {xorb : Bytes → Nat → Bytes} {expectedHash : Option FileHash}

theorem readyV1 {r₁ : ReconstructionResponseV1}
    (truthful : Truthful blake3 lz4 client xorb (planReaderV1 r₁) r₁.offsetIntoFirstRange r₁.terms expectedHash) :
    ∃ r, newReaderV1 r₁ expectedHash = .ok r ∧
      Ready blake3 lz4 client r (streamOf xorb r₁.offsetIntoFirstRange r₁.terms) :=
  truthful.ready fun _ _ => selectFetchInfoV1_covers

theorem readyV2 {r₂ : ReconstructionResponseV2}
    (truthful : Truthful blake3 lz4 client xorb (planReaderV2 r₂) r₂.offsetIntoFirstRange r₂.terms expectedHash) :
    ∃ r, newReaderV2 r₂ expectedHash = .ok r ∧
      Ready blake3 lz4 client r (streamOf xorb r₂.offsetIntoFirstRange r₂.terms) :=
  truthful.ready fun _ _ => selectFetchInfoV2_covers

end

/-- For every response that its planner accepts and whose fetches decode to what they announce, with
or without a hash to check: the reader has one stream, the chunks of the terms behind the offset.
Responses of both versions with the same terms behave alike. -/
theorem readers_deliver_one_stream (blake3 : Keyed) (lz4 : Xorb.Lz4) {ε : Type} (client : Client ε)
    (xorb : Bytes → Nat → Bytes) (expectedHash : Option FileHash) :
    (∀ r₁ : ReconstructionResponseV1,
      Truthful blake3 lz4 client xorb (planReaderV1 r₁) r₁.offsetIntoFirstRange r₁.terms expectedHash →
      ∃ r, newReaderV1 r₁ expectedHash = .ok r ∧
        OneStream (streamOf xorb r₁.offsetIntoFirstRange r₁.terms) fun cs => (r.calls blake3 lz4 client cs).1) ∧
    (∀ r₂ : ReconstructionResponseV2,
      Truthful blake3 lz4 client xorb (planReaderV2 r₂) r₂.offsetIntoFirstRange r₂.terms expectedHash →
      ∃ r, newReaderV2 r₂ expectedHash = .ok r ∧
        OneStream (streamOf xorb r₂.offsetIntoFirstRange r₂.terms) fun cs => (r.calls blake3 lz4 client cs).1) ∧
    ∀ (r₁ : ReconstructionResponseV1) (r₂ : ReconstructionResponseV2) (r r' : Reader ε),
      Truthful blake3 lz4 client xorb (planReaderV1 r₁) r₁.offsetIntoFirstRange r₁.terms expectedHash →
      Truthful blake3 lz4 client xorb (planReaderV2 r₂) r₂.offsetIntoFirstRange r₂.terms expectedHash →
      r₁.terms = r₂.terms → r₁.offsetIntoFirstRange = r₂.offsetIntoFirstRange →
      newReaderV1 r₁ expectedHash = .ok r → newReaderV2 r₂ expectedHash = .ok r' →
      ∀ cs, (∀ w, .writeTo w ∈ cs → TakesAll w) →
        (r.calls blake3 lz4 client cs).1 = (r'.calls blake3 lz4 client cs).1 := by
  refine ⟨fun r₁ truthful => ?_, fun r₂ truthful => ?_, ?_⟩
  · obtain ⟨r, opened, ready⟩ := readyV1 truthful
    exact ⟨r, opened, ready.oneStream⟩
  · obtain ⟨r, opened, ready⟩ := readyV2 truthful
    exact ⟨r, opened, ready.oneStream⟩
  · intro r₁ r₂ r r' truthful₁ truthful₂ terms offset opened opened' cs writes
    obtain ⟨s, same, ready⟩ := readyV1 truthful₁
    obtain ⟨s', same', ready'⟩ := readyV2 truthful₂
    cases opened.symm.trans same
    cases opened'.symm.trans same'
    rw [terms, offset] at ready
    exact (calls_play cs ready).unique writes (calls_play cs ready')

def sampleWholeV2 : ReconstructionResponseV2 where
  offsetIntoFirstRange := 0
  terms := sampleWhole.terms
  xorbs := AList.insert (formatHash sampleXorb) [⟨[120], [⟨⟨0, 2⟩, ⟨0, 20⟩⟩, ⟨⟨1, 2⟩, ⟨11, 20⟩⟩]⟩] ∅

def sampleChunks (_ : Bytes) (i : Nat) : Bytes := if i = 0 then [1, 2, 3] else [4, 5]

theorem sampleTruthful {plan : Except PlanError (List SelectedFetch × List FetchTask)}
    (planned : plan.toOption = some
      ([⟨⟨formatHash sampleXorb, 0, 20⟩, ⟨0, 2⟩⟩, ⟨⟨formatHash sampleXorb, 11, 20⟩, ⟨1, 2⟩⟩],
       [⟨⟨formatHash sampleXorb, 0, 20⟩, [120], ⟨0, 2⟩⟩, ⟨⟨formatHash sampleXorb, 11, 20⟩, [120], ⟨1, 2⟩⟩])) :
    Truthful sampleHashes storedLz4 sampleClient sampleChunks plan 0 sampleWhole.terms (some sampleFile) where
  decodes := by
    refine ⟨_, _, eq_ok_of_toOption planned, fun s member => ?_⟩
    rcases mem_pair.mp member with rfl | rfl
    · exact ⟨⟨[⟨[1, 2, 3], some sampleFirst⟩, ⟨[4, 5], some sampleSecond⟩], .complete⟩,
        eq_ok_of_toOption (by decide +kernel), rfl, rfl⟩
    · exact ⟨⟨[⟨[4, 5], some sampleSecond⟩], .complete⟩, eq_ok_of_toOption (by decide +kernel), rfl, rfl⟩
  positive := le_refl 0
  inside := by decide
  verifies := by
    intro h same
    cases same
    exact ⟨rfl, by decide +kernel⟩

theorem sample_one_stream :
    (∃ r : Reader Unit, newReaderV1 sampleWhole (some sampleFile) = .ok r ∧
      OneStream [1, 2, 3, 4, 5, 4, 5] fun cs => (r.calls sampleHashes storedLz4 sampleClient cs).1) ∧
    ∃ r : Reader Unit, newReaderV2 sampleWholeV2 (some sampleFile) = .ok r ∧
      OneStream [1, 2, 3, 4, 5, 4, 5] fun cs => (r.calls sampleHashes storedLz4 sampleClient cs).1 := by
  obtain ⟨first, second, -⟩ :=
    readers_deliver_one_stream sampleHashes storedLz4 sampleClient sampleChunks (some sampleFile)
  constructor
  · exact first sampleWhole (sampleTruthful (by decide +kernel))
  · exact second sampleWholeV2 (sampleTruthful (by decide +kernel))

end Xet.Download
