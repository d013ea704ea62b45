import Xet.Gearhash

/-! The scanner against a rule over the whole content. One lemma says what a window scan
establishes, the loop carries it across windows, and the chunk list follows
by induction on what is left of the stream. -/
namespace Xet
open Wire List Option Nat

def Masked (hash : UInt64) : Prop := hash &&& gearhashMask = 0

instance (hash : UInt64) : Decidable (Masked hash) := inferInstanceAs (Decidable (_ = _))

/-- The length of the first chunk: the first admissible length whose hash is masked,
the maximum if there is none, and never past the end. -/
def referenceCut (data : Bytes) : Nat :=
  let hit := (range' minChunkSize (maxChunkSize - minChunkSize + 1)).find? fun n =>
    decide (n ≤ data.length ∧ Masked (gearRoll 0 (data.take n)))
  hit.getD (min maxChunkSize data.length)

def cutChunks : Nat → Bytes → List Bytes
  | 0, _ => []
  | _ + 1, [] => []
  | fuel + 1, data =>
    data.take (referenceCut data) :: cutChunks fuel (data.drop (referenceCut data))

def referenceChunks (data : Bytes) : List Bytes := cutChunks data.length data

def placed : Nat → List Bytes → List (Nat × Bytes)
  | _, [] => []
  | offset, c :: rest => (offset, c) :: placed (offset + c.length) rest

/-- What a scan has to establish about the length `n` of a chunk at the head of `data`. -/
structure CutRule (data : Bytes) (n : Nat) : Prop where
  within : n ≤ data.length
  atMost : n ≤ maxChunkSize
  quiet : ∀ m, minChunkSize ≤ m → m < n → ¬ Masked (gearRoll 0 (data.take m))
  stop : (minChunkSize ≤ n ∧ Masked (gearRoll 0 (data.take n))) ∨ n = maxChunkSize ∨
    n = data.length

theorem CutRule.referenceCut_eq {data : Bytes} {n : Nat} (rule : CutRule data n) : referenceCut data = n := by
  have limits : minChunkSize + (maxChunkSize - minChunkSize + 1) = maxChunkSize + 1 := rfl
  have atMost := rule.atMost
  unfold referenceCut
  by_cases hit : minChunkSize ≤ n ∧ Masked (gearRoll 0 (data.take n))
  · have found : (range' minChunkSize (maxChunkSize - minChunkSize + 1)).find? (fun m =>
        decide (m ≤ data.length ∧ Masked (gearRoll 0 (data.take m)))) = some n := by
      rw [find?_range'_eq_some]
      refine ⟨by simpa using ⟨rule.within, hit.2⟩, mem_range'_1.mpr ⟨hit.1, by omega⟩, ?_⟩
      intro m low below
      have := rule.quiet m low below
      simp [this]
    simp only [found, getD_some]
  · have none_hit : (range' minChunkSize (maxChunkSize - minChunkSize + 1)).find? (fun m =>
        decide (m ≤ data.length ∧ Masked (gearRoll 0 (data.take m)))) = none := by
      rw [find?_eq_none]
      rintro m range masked
      have bounds := mem_range'_1.mp range
      have masked := of_decide_eq_true masked
      rcases lt_trichotomy m n with below | same | above
      · exact rule.quiet m bounds.1 below masked.2
      · subst same; exact hit ⟨bounds.1, masked.2⟩
      · rcases rule.stop with h | h | h
        · exact hit h
        · omega
        · omega
    have within := rule.within
    simp only [none_hit, getD_none]
    rcases rule.stop with h | h | h
    · exact absurd h hit
    · omega
    · omega

theorem referenceCut_bounds (data : Bytes) :
    referenceCut data ≤ maxChunkSize ∧ referenceCut data ≤ data.length ∧
      (minChunkSize ≤ referenceCut data ∨ referenceCut data = data.length) := by
  have limits : minChunkSize + (maxChunkSize - minChunkSize + 1) = maxChunkSize + 1 := rfl
  unfold referenceCut
  simp only
  cases hit : (range' minChunkSize (maxChunkSize - minChunkSize + 1)).find? fun n =>
    decide (n ≤ data.length ∧ Masked (gearRoll 0 (data.take n))) with
  | none =>
    simp only [getD_none]
    omega
  | some n =>
    have range := mem_range'_1.mp (mem_of_find?_eq_some hit)
    have found := find?_some hit
    have short := (of_decide_eq_true found).1
    simp only [getD_some]
    omega

theorem referenceCut_pos {data : Bytes} (more : data ≠ []) : 0 < referenceCut data := by
  have len := length_pos_iff.mpr more
  have bounds := referenceCut_bounds data
  have : 0 < minChunkSize := by decide
  omega

theorem gearRoll_append (hash : UInt64) (a b : Bytes) :
    gearRoll hash (a ++ b) = gearRoll (gearRoll hash a) b := foldl_append

theorem quiet_cons {hash : UInt64} {b : UInt8} {rest : Bytes} {P : Nat → Prop} (clear : ¬ Masked (gearStep hash b))
    (quiet : ∀ j, 0 < j → P (j + 1) → ¬ Masked (gearRoll (gearStep hash b) (rest.take j))) :
    ∀ k, 0 < k → P k → ¬ Masked (gearRoll hash ((b :: rest).take k))
  | 1, _, _ => clear
  | j + 2, _, inside => quiet (j + 1) (succ_pos j) inside

theorem gearScan_none {hash hash' : UInt64} {data : Bytes} (h : gearScan hash data = (hash', none)) :
    hash' = gearRoll hash data ∧
      ∀ k, 0 < k → k ≤ data.length → ¬ Masked (gearRoll hash (data.take k)) := by
  induction data generalizing hash with
  | nil =>
    cases h
    exact ⟨rfl, fun k positive short => absurd positive (by simpa using short)⟩
  | cons b rest ih =>
    unfold gearScan at h
    split at h
    · cases h
    · rename_i clear
      simp only [Prod.mk.injEq, map_eq_none_iff] at h
      obtain ⟨value, quiet⟩ := ih (Prod.ext h.1 h.2)
      refine ⟨value, quiet_cons clear fun j later short => ?_⟩
      exact quiet j later (le_of_succ_le_succ short)

theorem gearScan_some {hash hash' : UInt64} {data : Bytes} {n : Nat}
    (h : gearScan hash data = (hash', some n)) :
    0 < n ∧ n ≤ data.length ∧ hash' = gearRoll hash (data.take n) ∧ Masked hash' ∧
      ∀ k, 0 < k → k < n → ¬ Masked (gearRoll hash (data.take k)) := by
  induction data generalizing hash n with
  | nil => cases h
  | cons b rest ih =>
    unfold gearScan at h
    split at h
    · rename_i masked
      cases h
      exact ⟨by decide, by simp, rfl, masked, fun k positive below => absurd below (by omega)⟩
    · rename_i clear
      simp only [Prod.mk.injEq, map_eq_some_iff] at h
      obtain ⟨value, m, found, rfl⟩ := h
      obtain ⟨positive, within, roll, masked, quiet⟩ := ih (Prod.ext value found)
      refine ⟨by omega, by simpa using within, roll, masked, quiet_cons clear fun j later below => ?_⟩
      exact quiet j later (by omega)

/-- What a window scan establishes about the chunk it extends. The bytes that were not tested
only lead to lengths below the minimum. -/
structure Scanned (chunk data : Bytes) (hash : UInt64) (consumed : Nat) (found : Bool) : Prop where
  within : consumed ≤ data.length
  roll : hash = gearRoll 0 (chunk ++ data.take consumed)
  quiet : ∀ k, k < consumed ∨ (k = consumed ∧ found = false) → 0 < k →
    minChunkSize ≤ chunk.length + k → ¬ Masked (gearRoll 0 (chunk ++ data.take k))
  hit : found = true → minChunkSize ≤ chunk.length + consumed ∧ Masked hash
  whole : found = false → consumed = data.length

theorem scanWindow_spec (chunk data : Bytes) :
    let r := scanWindow (gearRoll 0 chunk) chunk.length data
    Scanned chunk data r.1 r.2.1 r.2.2 := by
  have split_roll : ∀ {u k : Nat}, u ≤ data.length →
      gearRoll (gearRoll (gearRoll 0 chunk) (data.take u)) ((data.drop u).take k) =
        gearRoll 0 (chunk ++ data.take (u + k)) := by
    intro u k _
    rw [← gearRoll_append, ← gearRoll_append, ← take_add]
  simp only [scanWindow]
  generalize hu : min data.length (minChunkSize - 1 - chunk.length) = u
  have short : u ≤ data.length := by omega
  cases h : gearScan (gearRoll (gearRoll 0 chunk) (data.take u)) (data.drop u) with
  | mk hash hit =>
    cases hit with
    | none =>
      obtain ⟨value, quiet⟩ := gearScan_none h
      refine ⟨Nat.le_refl _, ?_, ?_, fun h => Bool.noConfusion h, fun _ => rfl⟩
      · simp only [value, ← gearRoll_append, append_assoc, take_append_drop, take_length]
      · intro k bound positive large
        simp only at bound
        obtain ⟨j, rfl⟩ : ∃ j, k = u + j := ⟨k - u, by omega⟩
        have tested := quiet j (by omega) (by rw [length_drop]; omega)
        rwa [split_roll short] at tested
    | some n =>
      obtain ⟨positive, within, value, masked, quiet⟩ := gearScan_some h
      rw [length_drop] at within
      have reached : minChunkSize ≤ chunk.length + (u + n) := by
        have : minChunkSize - 1 - chunk.length ≤ u := by omega
        omega
      refine ⟨by simp only; omega, by rw [value, split_roll short], ?_, fun _ => ⟨reached, masked⟩,
        fun h => Bool.noConfusion h⟩
      intro k bound hk large
      rcases bound with bound | ⟨-, impossible⟩
      · simp only at bound
        obtain ⟨j, rfl⟩ : ∃ j, k = u + j := ⟨k - u, by omega⟩
        have tested := quiet j (by omega) (by omega)
        rwa [split_roll short] at tested
      · cases impossible

structure Taken (data chunk : Bytes) (ended : Bool) (reader : Buffered) : Prop where
  settled : reader.Settled
  content : chunk ++ reader.unread = data
  rule : CutRule data chunk.length
  drained : ended = true → reader.unread = []

theorem take_of_append {data chunk rest : Bytes} (content : chunk ++ rest = data) {m : Nat}
    (short : m ≤ chunk.length) : data.take m = chunk.take m := by
  rw [← content, take_append_of_le_length short]

/-- The loop invariant: `chunk` is the scanned head of `data` and no admissible length up to
its own was masked. -/
structure Scanning (data chunk : Bytes) (reader : Buffered) : Prop where
  settled : reader.Settled
  content : chunk ++ reader.unread = data
  size : chunk.length ≤ maxChunkSize
  quiet : ∀ m, minChunkSize ≤ m → m ≤ chunk.length → ¬ Masked (gearRoll 0 (data.take m))

theorem append_within {data chunk rest : Bytes} (content : chunk ++ rest = data) : chunk.length ≤ data.length := by
  rw [← content, length_append]
  omega

variable {reader : Buffered}

section
variable {data chunk : Bytes} (inv : Scanning data chunk reader)
include inv

theorem Scanning.full (full : chunk.length = maxChunkSize) :
    Taken data chunk false reader where
  settled := inv.settled
  content := inv.content
  rule := ⟨append_within inv.content, inv.size,
    fun m low below => inv.quiet m low (Nat.le_of_lt below), .inr (.inl full)⟩
  drained := fun h => Bool.noConfusion h

theorem Scanning.ended (empty : reader.unread = []) :
    Taken data chunk true reader where
  settled := inv.settled
  content := inv.content
  rule := by
    have whole : chunk.length = data.length := by rw [← inv.content, empty, append_nil]
    exact ⟨append_within inv.content, inv.size,
      fun m low below => inv.quiet m low (Nat.le_of_lt below), .inr (.inr whole)⟩
  drained := fun _ => empty

theorem Scanning.advance {window : Bytes} {hash : UInt64} {consumed : Nat} {found : Bool}
    (shown : window = reader.buf.take (maxChunkSize - chunk.length)) (scan : Scanned chunk window hash consumed found) :
    let chunk' := chunk ++ window.take consumed
    let reader' := reader.discard consumed
    chunk'.length = chunk.length + consumed ∧
      (found = true → Taken data chunk' false reader') ∧
      (found = false → Scanning data chunk' reader') := by
  have within := scan.within
  have fits : window.length ≤ maxChunkSize - chunk.length := by
    rw [shown]; exact length_take_le _ _
  have len : (chunk ++ window.take consumed).length = chunk.length + consumed := by
    rw [length_append, length_take, Nat.min_eq_left within]
  have content : (chunk ++ window.take consumed) ++ (reader.discard consumed).unread = data := by
    have same : window.take consumed = reader.buf.take consumed := by
      rw [shown, take_take, Nat.min_eq_left (by omega)]
    rw [append_assoc, same, Buffered.discard_unread, inv.content]
  have heads : ∀ k, k ≤ consumed → data.take (chunk.length + k) = chunk ++ window.take k := by
    intro k bound
    rw [take_of_append content (by rw [len]; omega), take_length_add_append, take_take,
      Nat.min_eq_left bound]
  have size := inv.size
  have size' : (chunk ++ window.take consumed).length ≤ maxChunkSize := by rw [len]; omega
  have quiet : ∀ m, minChunkSize ≤ m →
      m < chunk.length + consumed ∨ (m = chunk.length + consumed ∧ found = false) →
      ¬ Masked (gearRoll 0 (data.take m)) := by
    intro m low bound
    by_cases old : m ≤ chunk.length
    · exact inv.quiet m low old
    · obtain ⟨k, rfl⟩ : ∃ k, m = chunk.length + k := ⟨m - chunk.length, by omega⟩
      rw [heads k (by omega)]
      exact scan.quiet k (bound.imp (by omega) fun h => ⟨by omega, h.2⟩) (by omega) low
  refine ⟨len, fun hit => ?_, fun miss => ?_⟩
  · obtain ⟨large, masked⟩ := scan.hit hit
    have stop : Masked (gearRoll 0 (data.take (chunk.length + consumed))) := by
      rw [heads consumed (Nat.le_refl _), ← scan.roll]; exact masked
    exact ⟨Buffered.discard_settled inv.settled consumed, content,
      ⟨append_within content, size', fun m low below => quiet m low (.inl (len ▸ below)),
        .inl (by rw [len]; exact ⟨large, stop⟩)⟩, fun h => Bool.noConfusion h⟩
  · refine ⟨Buffered.discard_settled inv.settled consumed, content, size', fun m low bound => ?_⟩
    rw [len] at bound
    exact quiet m low ((Nat.lt_or_eq_of_le bound).imp_right fun same => ⟨same, miss⟩)

theorem findBoundaryLoop_spec {fuel : Nat} (enough : maxChunkSize ≤ chunk.length + fuel) :
    let r := findBoundaryLoop fuel reader (gearRoll 0 chunk) chunk
    Taken data r.1 r.2.1 r.2.2 := by
  have size := inv.size
  induction fuel generalizing reader chunk with
  | zero => exact inv.full (by omega)
  | succ fuel ih =>
    unfold findBoundaryLoop
    by_cases room : chunk.length < maxChunkSize
    · rw [if_pos room]
      obtain ⟨settled, unread, window⟩ := Buffered.peek_spec inv.settled
      rcases hp : reader.peek with ⟨shown, reader'⟩
      rw [hp] at settled unread window
      simp only at settled unread window
      have peeked : Scanning data chunk reader' :=
        ⟨settled, by rw [unread]; exact inv.content, inv.size, inv.quiet⟩
      rcases window with ⟨rfl, empty⟩ | ⟨w, rfl, nonempty, rfl⟩
      · exact peeked.ended (unread.trans empty)
      · have scan := scanWindow_spec chunk (reader'.buf.take (maxChunkSize - chunk.length))
        simp only
        rcases hs : scanWindow (gearRoll 0 chunk) chunk.length
          (reader'.buf.take (maxChunkSize - chunk.length)) with ⟨hash, consumed, found⟩
        rw [hs] at scan
        simp only at scan
        obtain ⟨len, hit, miss⟩ := peeked.advance rfl scan
        cases found with
        | true => exact hit rfl
        | false =>
          have positive : 0 < consumed := by
            have := length_pos_iff.mpr nonempty
            rw [scan.whole rfl, length_take]
            omega
          simp only [Bool.false_eq_true, if_false, scan.roll]
          exact ih (miss rfl) (by omega) (miss rfl).size
    · rw [if_neg room]
      exact inv.full (by omega)

end

theorem findChunkBoundary_spec (settled : reader.Settled) :
    let r := findChunkBoundary reader
    Taken reader.unread r.1 r.2.1 r.2.2 := by
  have start : Scanning reader.unread [] reader := by
    refine ⟨settled, rfl, zero_le _, fun m low short => ?_⟩
    have : minChunkSize ≤ 0 := le_trans low short
    exact absurd this (by decide)
  exact findBoundaryLoop_spec start (by simp)

theorem cutChunks_succ (fuel : Nat) {data : Bytes} (more : data ≠ []) :
    cutChunks (fuel + 1) data =
      data.take (referenceCut data) :: cutChunks fuel (data.drop (referenceCut data)) := by
  cases data with
  | nil => exact absurd rfl more
  | cons b rest => rfl

theorem cutChunks_fuel {fuel other : Nat} {data : Bytes} (enough : data.length ≤ fuel)
    (enough' : data.length ≤ other) : cutChunks fuel data = cutChunks other data := by
  induction fuel generalizing other data with
  | zero =>
    have empty : data = [] := eq_nil_of_length_eq_zero (by omega)
    rw [empty]
    cases other <;> rfl
  | succ fuel ih =>
    by_cases more : data = []
    · rw [more]
      cases other <;> rfl
    · have len := length_pos_iff.mpr more
      have positive := referenceCut_pos more
      have shorter : (data.drop (referenceCut data)).length ≤ data.length - 1 := by
        rw [length_drop]; omega
      obtain ⟨n, rfl⟩ : ∃ n, other = n + 1 := ⟨other - 1, by omega⟩
      rw [cutChunks_succ fuel more, cutChunks_succ n more, ih (by omega) (show _ ≤ n by omega)]

theorem referenceChunks_cons {data : Bytes} (more : data ≠ []) :
    referenceChunks data =
      data.take (referenceCut data) :: referenceChunks (data.drop (referenceCut data)) := by
  have positive := referenceCut_pos more
  have len := length_pos_iff.mpr more
  rw [referenceChunks, cutChunks_fuel (Nat.le_refl _) (le_succ data.length), cutChunks_succ _ more, referenceChunks,
    cutChunks_fuel (Nat.le_of_lt (by rw [length_drop]; omega)) (Nat.le_refl _)]

theorem Taken.reference {data chunk : Bytes} {ended : Bool} (taken : Taken data chunk ended reader) :
    (data = [] ∧ chunk = []) ∨
      (data ≠ [] ∧ chunk ≠ [] ∧ reader.unread.length < data.length ∧
        referenceChunks data = chunk :: referenceChunks reader.unread) := by
  have cut := taken.rule.referenceCut_eq
  have content := taken.content
  by_cases more : data = []
  · rw [more] at content
    exact .inl ⟨more, (append_eq_nil_iff.mp content).1⟩
  · have positive := referenceCut_pos more
    rw [cut] at positive
    have chunk_eq : data.take (referenceCut data) = chunk := by
      rw [cut, ← content, take_left]
    have rest_eq : data.drop (referenceCut data) = reader.unread := by
      rw [cut, ← content, drop_left]
    refine .inr ⟨more, length_pos_iff.mp positive, ?_, ?_⟩
    · rw [← content, length_append]; omega
    · rw [referenceChunks_cons more, chunk_eq, rest_eq]

theorem chunkDataLoop_eq {σ ε : Type} (fn : σ → Nat → Bytes → Except ε σ) {fuel : Nat} (settled : reader.Settled)
    (enough : reader.unread.length < fuel) (offset : Nat) (s : σ) :
    chunkDataLoop fn fuel reader offset s =
      (placed offset (referenceChunks reader.unread)).foldlM
        (fun s c => (fn s c.1 c.2).mapError ChunkError.processing) s := by
  induction fuel generalizing reader offset s with
  | zero => exact absurd enough (not_lt_zero _)
  | succ fuel ih =>
    have taken := findChunkBoundary_spec settled
    unfold chunkDataLoop
    rcases boundary : findChunkBoundary reader with ⟨chunk, ended, reader'⟩
    rw [boundary] at taken
    simp only at taken ⊢
    rcases taken.reference with ⟨empty, rfl⟩ | ⟨-, nonempty, shorter, chunks⟩
    · rw [empty]; rfl
    · rw [if_neg (fun h => nonempty (eq_nil_of_length_eq_zero h)), chunks, placed, foldlM_cons]
      congr 1
      funext s'
      cases ended with
      | true =>
        rw [if_pos rfl, taken.drained rfl]; rfl
      | false => exact ih taken.settled (by omega) _ s'

theorem calls_done (k : Nat) (c : Chunker) (done : c.done = true) : Chunker.calls k c = replicate k none := by
  induction k with
  | zero => rfl
  | succ k ih =>
    have step : c.chunk = (none, c) := by rw [Chunker.chunk, if_pos done]
    rw [Chunker.calls, step, replicate_succ, ih]

theorem calls_eq (k : Nat) {c : Chunker} (settled : c.reader.Settled) (live : c.done = false) :
    Chunker.calls k c = ((placed c.offset (referenceChunks c.reader.unread)).map some ++
      replicate k none).take k := by
  induction k generalizing c with
  | zero => rfl
  | succ k ih =>
    have taken := findChunkBoundary_spec settled
    rcases boundary : findChunkBoundary c.reader with ⟨chunk, ended, reader⟩
    have step : c.chunk = if chunk.length = 0 then (none, { c with reader := reader, done := true })
        else (some (c.offset, chunk), ⟨reader, c.offset + chunk.length, ended⟩) := by
      rw [Chunker.chunk, if_neg (by rw [live]; decide), boundary]
    rw [boundary] at taken
    simp only at taken
    rcases taken.reference with ⟨empty, rfl⟩ | ⟨-, nonempty, -, chunks⟩
    · rw [if_pos length_nil] at step
      rw [Chunker.calls, step, empty, calls_done k _ rfl]
      simp [referenceChunks, cutChunks, placed, replicate_succ]
    · rw [if_neg (fun h => nonempty (eq_nil_of_length_eq_zero h))] at step
      rw [Chunker.calls, step, chunks, placed, map_cons, cons_append, take_succ_cons]
      congr 1
      cases ended with
      | true =>
        rw [calls_done k _ rfl, taken.drained rfl]
        simp [referenceChunks, cutChunks, placed]
      | false =>
        rw [ih taken.settled rfl, take_padding]

theorem reference_induction {P : Bytes → Prop} (nil : P [])
    (cons : ∀ data, data ≠ [] → P (data.drop (referenceCut data)) → P data) (data : Bytes) : P data := by
  induction hn : data.length using Nat.strongRecOn generalizing data with
  | ind n ih =>
    by_cases more : data = []
    · rw [more]; exact nil
    · have len := length_pos_iff.mpr more
      have positive := referenceCut_pos more
      exact cons data more (ih _ (by rw [length_drop]; omega) _ rfl)

theorem referenceChunks_flatten (data : Bytes) : (referenceChunks data).flatten = data := by
  induction data using reference_induction with
  | nil => rfl
  | cons data more ih => rw [referenceChunks_cons more, flatten_cons, ih, take_append_drop]

theorem referenceChunks_sizes (data : Bytes) :
    (∀ c ∈ referenceChunks data, c ≠ [] ∧ c.length ≤ maxChunkSize) ∧
      ∀ c ∈ (referenceChunks data).dropLast, minChunkSize ≤ c.length := by
  induction data using reference_induction with
  | nil => simp [referenceChunks, cutChunks]
  | cons data more ih =>
    obtain ⟨upper, within, lower⟩ := referenceCut_bounds data
    have positive := referenceCut_pos more
    have size : (data.take (referenceCut data)).length = referenceCut data := by
      rw [length_take, Nat.min_eq_left within]
    rw [referenceChunks_cons more]
    constructor
    · intro c hc
      rcases mem_cons.mp hc with rfl | hc
      · exact ⟨length_pos_iff.mp (by omega), by omega⟩
      · exact ih.1 c hc
    · intro c hc
      by_cases last : referenceChunks (data.drop (referenceCut data)) = []
      · rw [last] at hc; cases hc
      · rw [dropLast_cons_of_ne_nil last] at hc
        rcases mem_cons.mp hc with rfl | hc
        · -- A chunk before the last leaves bytes behind, so it did not end with the input.
          have rest_ne : data.drop (referenceCut data) ≠ [] := by
            intro empty
            rw [empty] at last
            exact last rfl
          have left := length_pos_iff.mpr rest_ne
          rw [length_drop] at left
          omega
        · exact ih.2 c hc

theorem placed_getElem? (chunks : List Bytes) (offset i : Nat) :
    (placed offset chunks)[i]? =
      chunks[i]?.map fun c => (offset + ((chunks.take i).map length).sum, c) := by
  induction chunks generalizing offset i with
  | nil => rfl
  | cons c rest ih =>
    cases i with
    | zero => simp [placed]
    | succ i => simp [placed, ih, add_assoc]

/-- Both chunking interfaces deliver the reference chunks of the content, however the source
fragments it: the callback runs over them with their offsets and stops at its own first error,
and repeated calls return them one by one and then report the end for good. -/
theorem chunking_depends_only_on_content (src : Source) :
    (∀ (σ ε : Type) (fn : σ → Nat → Bytes → Except ε σ) (s : σ),
      chunkData src fn s = (placed 0 (referenceChunks src.data)).foldlM
        (fun s c => (fn s c.1 c.2).mapError ChunkError.processing) s) ∧
    (∀ k, Chunker.calls k (Chunker.new src) =
      ((placed 0 (referenceChunks src.data)).map some ++ replicate k none).take k) ∧
    (referenceChunks src.data).flatten = src.data ∧
    (∀ i, (placed 0 (referenceChunks src.data))[i]? = (referenceChunks src.data)[i]?.map
      fun c => ((((referenceChunks src.data).take i).map length).sum, c)) ∧
    (∀ c ∈ (referenceChunks src.data).dropLast,
      minChunkSize ≤ c.length ∧ c.length ≤ maxChunkSize) ∧
    ∀ c ∈ (referenceChunks src.data).getLast?, c ≠ [] ∧ c.length ≤ maxChunkSize := by
  have unread : (Buffered.new src).unread = src.data := rfl
  obtain ⟨upper, lower⟩ := referenceChunks_sizes src.data
  refine ⟨fun σ ε fn s => ?_, fun k => ?_, referenceChunks_flatten _, fun i => ?_, ?_, ?_⟩
  · exact chunkDataLoop_eq fn (Buffered.new_settled src) (Nat.lt_succ_self _) 0 s
  · exact calls_eq k (Buffered.new_settled src) rfl
  · rw [placed_getElem?]
    simp only [Nat.zero_add]
  · exact fun c hc => ⟨lower c hc, (upper c (dropLast_subset _ hc)).2⟩
  · exact fun c hc => upper c (mem_of_getLast? hc)

end Xet
