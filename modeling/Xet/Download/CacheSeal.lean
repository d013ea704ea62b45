import Xet.Download.CacheFile

/-! The life of a cache file under its writer, stop by stop. -/
namespace Xet.Download
open Wire Calls File List Prog Nat UInt32 Xorb

def storedChunks {ε : Type} : Nat → List (Decoded ε) → List Bytes
  | n + 1, .data b :: rest => b :: storedChunks n rest
  | _, _ => []

def Told (r : ChunkRange) (chunks : List Bytes) (f : Bytes) : Prop := Accepted r f → f = sealedFile chunks

section
variable {ε : Type} {r : CacheRange} {n : Nat} {pieces : Pieces} {chunks done : List Bytes} {c : CacheWriter ε}
  {f : Bytes}

structure Loading (n : Nat) (done : List Bytes) (c : CacheWriter ε) (f : Bytes) : Prop where
  file : f = placeholder (n + 1) ++ done.flatten
  metas : c.metas.map ChunkRef.size = done.map length
  pos : c.writePos = f.length
  crc : c.crc = crc32 0 done.flatten
  expected : c.expectedChunks = n
  going : c.done = false
  healthy : c.err = none
  unpublished : c.published = false

theorem Loading.count (loading : Loading n done c f) : c.metas.length = done.length := by
  simpa only [length_map] using congrArg length loading.metas

theorem Loading.append (loading : Loading n done c f) (b : Bytes) : Loading n (done ++ [b]) (c.append b) (f ++ b) where
  file := by rw [loading.file, flatten_append, flatten_singleton, append_assoc]
  metas := by simp only [CacheWriter.append, map_append, loading.metas, map_cons, map_nil]
  pos := by rw [CacheWriter.append, loading.pos, length_append]
  crc := by rw [CacheWriter.append, loading.crc, crc32_append, flatten_append, flatten_singleton]
  expected := loading.expected
  going := loading.going
  healthy := loading.healthy
  unpublished := loading.unpublished

/-- The property holds of the file at every stop of a writer that stores `chunks`. -/
structure Stops (pieces : Pieces) (n : Nat) (chunks : List Bytes) (I : Bytes → Prop) : Prop where
  opening : ∀ t : Bytes, t.length < 12 + 4 * n → I t
  loading : ∀ i, I (placeholder (n + 1) ++ ((chunks.flatMap pieces.cut).take i).flatten)
  patching : chunks.length = n → ∀ m,
    I ((cacheHeader (chunks.map length)).take m ++ ((placeholder (n + 1)).drop m ++ chunks.flatten))
  sealing : chunks.length = n → ∀ m, I (cacheHeader (chunks.map length) ++ (chunks.flatten ++
    (cacheTrailer (crc32 0 chunks.flatten) (cacheHeader (chunks.map length))).take m))

variable {I : Bytes → Prop}

theorem Stops.part (stops : Stops pieces n chunks I) {b : Bytes} {more : List Bytes}
    (split : chunks = done ++ b :: more) (i : Nat) :
    I (placeholder (n + 1) ++ (done.flatten ++ ((pieces.cut b).take i).flatten)) := by
  have point := stops.loading ((done.flatMap pieces.cut).length + min i (pieces.cut b).length)
  rwa [split, flatMap_append, flatMap_cons, take_length_add_append,
    take_append_of_le_length (min_le_right _ _), ← take_take, take_length, flatten_append,
    pieces.flatten_flatMap] at point

theorem cacheHeader_length {sizes : List Nat} (count : sizes.length = n) : (cacheHeader sizes).length = 8 + 4 * n := by
  obtain ⟨lead, length, -, split⟩ := cacheHeader_split count
  rw [split, length_append, length, putUint32_length]
  omega

theorem placeholder_length (n : Nat) : (placeholder (n + 1)).length = 8 + 4 * n := by
  rw [placeholder, length_append, putUint32_length, length_replicate]
  omega

section
variable (stops : Stops pieces n chunks I)
include stops

theorem header_meets (full : chunks.length = n) :
    (write pieces (cacheHeader (chunks.map length)) 0).Meets perform I
      (fun _ t => t = cacheHeader (chunks.map length) ++ chunks.flatten)
      (placeholder (n + 1) ++ chunks.flatten) := by
  have length := cacheHeader_length ((length_map length).trans full)
  have blank := placeholder_length n
  apply write_meets pieces (zero_le _)
  · intro i
    obtain ⟨m, bound, some⟩ := pieces.take_eq (cacheHeader (chunks.map List.length)) i
    have taken : ((cacheHeader (chunks.map List.length)).take m).length = m := by
      rw [length_take, min_eq_left bound]
    rw [some, writeAt_front _ _ (by omega), taken]
    exact stops.patching full m
  · rw [writeAt_front _ _ (by omega), drop_eq_nil_of_le (by omega), nil_append]

theorem trailer_meets (full : chunks.length = n) :
    (write pieces (cacheTrailer (crc32 0 chunks.flatten) (cacheHeader (chunks.map length)))
        (cacheHeader (chunks.map length) ++ chunks.flatten).length).Meets perform I
      (fun _ t => t = sealedFile chunks) (cacheHeader (chunks.map length) ++ chunks.flatten) := by
  apply write_meets pieces le_rfl
  · intro i
    obtain ⟨m, -, some⟩ := pieces.take_eq
      (cacheTrailer (crc32 0 chunks.flatten) (cacheHeader (chunks.map length))) i
    rw [some, writeAt_end, append_assoc]
    exact stops.sealing full m
  · rw [writeAt_end, append_assoc]
    rfl

theorem sealEntry_meets (loading : Loading n chunks c f) (full : chunks.length = n) :
    (sealEntry pieces c).Meets perform I (fun c' t => c' = { c with published := true } ∧ t = sealedFile chunks) f := by
  have count : (chunks.map length).length = n := (length_map _).trans full
  have same : c.writePos = (cacheHeader (chunks.map length) ++ chunks.flatten).length := by
    rw [loading.pos, loading.file, length_append, length_append, placeholder_length, cacheHeader_length count]
  simp only [sealEntry, loading.metas, loading.crc, meets_bind]
  rw [loading.file]
  refine (header_meets stops full).mono (fun _ holds => holds) fun _ t patched => ?_
  rw [patched, same]
  refine (trailer_meets stops full).mono (fun _ holds => holds) fun _ u sealed => ?_
  exact ⟨rfl, sealed⟩

end

theorem load_done {next behind : Decoded ε} (ended : c.done = true) : load pieces next behind c = pure (.eof, c) := by
  simp only [load, ended, ↓reduceIte]

theorem load_eof {behind : Decoded ε} (going : c.done = false) (healthy : c.err = none) :
    load pieces .eof behind c = pure (.eof, { c with done := true }) := by
  simp only [load, going, healthy, Bool.false_eq_true, ↓reduceIte]

theorem load_failed {behind : Decoded ε} {e : ε} (going : c.done = false) (healthy : c.err = none) :
    load pieces (.failed e) behind c = pure (.failed (.decode e), { c with err := some (.decode e) }) := by
  simp only [load, going, healthy, Bool.false_eq_true, ↓reduceIte]

theorem load_data {b : Bytes} {behind : Decoded ε} (going : c.done = false) (healthy : c.err = none) :
    load pieces (.data b) behind c = (do
      write pieces b c.writePos
      if (c.append b).metas.length ≠ (c.append b).expectedChunks then
        return (.loaded (c.append b).metas.length, c.append b)
      else
        let c ← sealEntry pieces (c.append b)
        match behind with
        | .eof => return (.loaded c.metas.length, { c with done := true })
        | .failed e => return (.failed (.decode e), { c with err := some (.decode e) })
        | .data _ =>
          let e := .chunkCount (c.metas.length + 1) c.expectedChunks
          return (.failed e, { c with err := some e })) := by
  unfold load
  rw [going, healthy]
  rfl

theorem finalize_published (published : c.published = true) : finalize pieces c = pure (.ok (), c) := by
  rw [finalize, if_pos published]

theorem finalize_short (unpublished : c.published = false) (few : c.metas.length ≠ c.expectedChunks) :
    finalize pieces c = pure (.error (.chunkCount c.metas.length c.expectedChunks), c) := by
  rw [finalize, if_neg (by simp [unpublished]), if_pos few]

theorem load_data_meets {b : Bytes} {behind : Decoded ε} {more : List Bytes} (stops : Stops pieces n chunks I)
    (bound : chunks.length ≤ n) (loading : Loading n done c f) (split : chunks = done ++ b :: more) :
    (load pieces (.data b) behind c).Meets perform I (fun out t =>
      (done.length + 1 < n ∧ (∃ count, out.1 = .loaded count) ∧ Loading n (done ++ [b]) out.2 t) ∨
      (done.length + 1 = n ∧ chunks.length = n ∧ out.2.published = true ∧ t = sealedFile chunks ∧ out.1 ≠ .eof ∧
        ((∃ count, out.1 = .loaded count) → out.2.done = true) ∧
        (behind = .eof → ∃ count, out.1 = .loaded count))) f := by
  have next := loading.append b
  have stored : (c.append b).metas.length = done.length + 1 := by
    rw [next.count, length_append, length_singleton]
  have room := congrArg length split
  rw [length_append, length_cons] at room
  rw [load_data loading.going loading.healthy, meets_bind, loading.pos]
  apply write_meets pieces le_rfl
  · intro i
    rw [writeAt_end, loading.file, append_assoc]
    exact stops.part split i
  · rw [writeAt_end, stored, next.expected]
    split_ifs with last
    · exact .inl ⟨by omega, ⟨_, rfl⟩, next⟩
    · have full : chunks.length = n := by omega
      obtain rfl : more = [] := eq_nil_of_length_eq_zero (by omega)
      subst split
      rw [meets_bind]
      refine (sealEntry_meets stops next full).mono (fun _ holds => holds) ?_
      rintro c' t ⟨rfl, sealed⟩
      cases behind with
      | eof => exact .inr ⟨by omega, full, rfl, sealed, nofun, fun _ => rfl, fun _ => ⟨_, rfl⟩⟩
      | failed e => exact .inr ⟨by omega, full, rfl, sealed, nofun, nofun, nofun⟩
      | data b' => exact .inr ⟨by omega, full, rfl, sealed, nofun, nofun, nofun⟩

theorem loadAll_done {reads : List (Decoded ε)} (ended : c.done = true) (published : c.published = true) :
    loadAll pieces reads c = pure (.ok (), c) := by
  cases reads with
  | nil =>
    change (load pieces .eof .eof c >>= fun out => finalize pieces out.2) = _
    rw [load_done ended]
    exact finalize_published published
  | cons next rest =>
    rw [loadAll, load_done ended]
    exact finalize_published published

/-- How a writer ends: with the sealed file, or without enough chunks. -/
def Ended (n : Nat) (chunks : List Bytes) (c : CacheWriter ε) (f : Bytes) : Prop :=
  (c.published = true ∧ chunks.length = n ∧ f = sealedFile chunks) ∨ (c.published = false ∧ chunks.length < n)

theorem storedChunks_length (n : Nat) (reads : List (Decoded ε)) : (storedChunks n reads).length ≤ n := by
  fun_induction storedChunks n reads with
  | case1 n b rest ih => exact succ_le_succ ih
  | case2 => exact zero_le _

theorem Loading.early (loading : Loading n done c f) (short : done.length < n) :
    (finalize pieces { c with done := true }).Meets perform I (fun out t => Ended n done out.2 t) f := by
  have few : c.metas.length ≠ c.expectedChunks := by
    rw [loading.count, loading.expected]
    omega
  have stays : finalize pieces { c with done := true } =
      pure (.error (.chunkCount c.metas.length c.expectedChunks), { c with done := true }) :=
    finalize_short loading.unpublished few
  rw [stays]
  exact .inr ⟨loading.unpublished, short⟩

/-- All chunks, from any turn on. The writer fails only if a chunk is missing or the decoder does not
end behind the last one. -/
theorem loadAll_meets (stops : Stops pieces n chunks I) (reads : List (Decoded ε)) {done : List Bytes}
    {c : CacheWriter ε} {f : Bytes} {left : Nat} (loading : Loading n done c f)
    (room : done.length + (left + 1) = n) (split : chunks = done ++ storedChunks (left + 1) reads) :
    (loadAll pieces reads c).Meets perform I (fun out t => Ended n chunks out.2 t ∧
      (chunks.length = n → (reads.drop (left + 1)).headD .eof = .eof → out.1 = .ok ())) f := by
  induction reads generalizing done c f left with
  | nil =>
    have few : chunks.length < n := by
      rw [split.trans (append_nil done)]
      omega
    change (load pieces .eof .eof c >>= fun out => finalize pieces out.2).Meets _ _ _ f
    rw [load_eof loading.going loading.healthy]
    refine (loading.early (by omega)).mono (fun _ holds => holds) fun out t ended => ⟨?_, fun full => absurd full few.ne⟩
    rwa [split.trans (append_nil done)]
  | cons next rest ih =>
    rw [loadAll]
    cases next with
    | eof =>
      have few : chunks.length < n := by
        rw [split.trans (append_nil done)]
        omega
      rw [load_eof loading.going loading.healthy]
      refine (loading.early (by omega)).mono (fun _ holds => holds) fun out t ended => ⟨?_, fun full => absurd full few.ne⟩
      rwa [split.trans (append_nil done)]
    | failed e =>
      have few : chunks.length < n := by
        rw [split, storedChunks, append_nil]
        · omega
        · nofun
      rw [load_failed loading.going loading.healthy]
      exact ⟨.inr ⟨loading.unpublished, few⟩, fun full => absurd full few.ne⟩
    | data b =>
      have bound : chunks.length ≤ n := by
        have most := storedChunks_length (left + 1) (.data b :: rest)
        rw [split, length_append]
        omega
      rw [meets_bind]
      refine (load_data_meets stops bound loading split).mono (fun _ holds => holds) ?_
      rintro ⟨result, c'⟩ t (⟨going, ⟨count, rfl⟩, loading'⟩ | ⟨last, full, published, sealed, more, ends, good⟩)
      · obtain ⟨left', rfl⟩ : ∃ left', left = left' + 1 := ⟨left - 1, by omega⟩
        have others : chunks = (done ++ [b]) ++ storedChunks (left' + 1) rest := by
          rw [split, append_assoc]
          rfl
        refine ih loading' ?_ others
        rw [length_append, length_singleton]
        omega
      · cases result with
        | loaded count =>
          dsimp only
          rw [loadAll_done (ends ⟨count, rfl⟩) published]
          exact ⟨.inl ⟨published, full, sealed⟩, fun _ _ => rfl⟩
        | eof => exact absurd rfl more
        | failed e =>
          refine ⟨.inl ⟨published, full, sealed⟩, fun _ ended => ?_⟩
          obtain rfl : left = 0 := by omega
          obtain ⟨count, wrong⟩ := good ended
          cases wrong

theorem newLockedChunkCache_meets (valid : r.Valid) (size : r.chunks.stop - r.chunks.start = n)
    (short : ∀ t : Bytes, t.length < 12 + 4 * n → I t) (f : Bytes) :
    (newLockedChunkCache pieces r).Meets perform I
      (fun out t => ∃ c : CacheWriter ε, out = .ok c ∧ Loading n [] c t) f := by
  have length := placeholder_length n
  rw [newLockedChunkCache, if_pos valid, meets_bind]
  refine truncate_meets (short [] (by simp)) ?_
  dsimp only
  rw [size, meets_bind]
  apply write_meets pieces (zero_le _)
  · intro i
    obtain ⟨m, bound, some⟩ := pieces.take_eq (placeholder (n + 1)) i
    apply short
    rw [some, writeAt_empty, length_take]
    omega
  · rw [writeAt_empty]
    refine ⟨_, rfl, ?_⟩
    constructor
    case file => exact (append_nil _).symm
    case metas => rfl
    case pos =>
      rw [length]
      dsimp only
      omega
    case crc => exact (crc32_nil 0).symm
    all_goals rfl

theorem writeEntry_meets (valid : r.Valid) {reads : List (Decoded ε)} (size : r.chunks.stop - r.chunks.start = n)
    (stored : chunks = storedChunks n reads) (stops : Stops pieces n chunks I) (f : Bytes) :
    (writeEntry pieces r reads).Meets perform I (fun out t =>
      t = (if chunks.length = n then sealedFile chunks else []) ∧
      (chunks.length = n → (reads.drop n).headD .eof = .eof → out = .ok ())) f := by
  obtain ⟨left, rfl⟩ : ∃ left, n = left + 1 := ⟨n - 1, by have := valid.2.1.1; omega⟩
  rw [writeEntry, meets_bind]
  refine (newLockedChunkCache_meets valid size stops.opening f).mono (fun _ holds => holds) ?_
  rintro out t ⟨c, rfl, loading⟩
  dsimp only
  rw [meets_bind]
  refine (loadAll_meets stops reads loading (zero_add _) stored).mono (fun _ holds => holds) ?_
  rintro ⟨result, c'⟩ u ⟨⟨published, full, sealed⟩ | ⟨unpublished, few⟩, good⟩
  · dsimp only
    rw [closeWriter, if_pos published, if_pos full]
    exact ⟨sealed, good⟩
  · dsimp only at unpublished ⊢
    rw [closeWriter, unpublished, if_neg Bool.false_ne_true, if_neg few.ne, meets_bind]
    exact truncate_meets (stops.opening [] (by simp)) ⟨rfl, fun full => absurd full few.ne⟩

theorem stops_anywhere (pieces : Pieces) (n : Nat) (chunks : List Bytes) : Stops pieces n chunks (fun _ => True) :=
  ⟨fun _ _ => trivial, fun _ => trivial, fun _ _ => trivial, fun _ _ => trivial⟩

theorem load_run {b : Bytes} {behind : Decoded ε} (loading : Loading n done c f) (going : done.length + 1 < n) :
    (load pieces (.data b) behind c).run perform f =
      ((.loaded (c.append b).metas.length, c.append b), f ++ b) := by
  have next := loading.append b
  have few : (c.append b).metas.length ≠ (c.append b).expectedChunks := by
    rw [next.count, next.expected, length_append, length_singleton]
    omega
  rw [load_data loading.going loading.healthy, run_bind, loading.pos, write_run, if_pos few]
  rfl

theorem loadAll_stopped (reads : List (Decoded ε)) {done : List Bytes} {c : CacheWriter ε} {f : Bytes} {left : Nat}
    (loading : Loading n done c f) (room : done.length + (left + 1) = n) (i : Nat)
    (bound : i ≤ ((storedChunks (left + 1) reads).flatMap pieces.cut).length) :
    ∃ k, (loadAll pieces reads c).stopped perform k f =
      f ++ (((storedChunks (left + 1) reads).flatMap pieces.cut).take i).flatten := by
  induction reads generalizing done c f left i with
  | nil => exact ⟨0, by simp [stopped_zero, storedChunks]⟩
  | cons next rest ih =>
    cases next with
    | eof => exact ⟨0, by simp [stopped_zero, storedChunks]⟩
    | failed e => exact ⟨0, by simp [stopped_zero, storedChunks]⟩
    | data b =>
      rw [storedChunks, flatMap_cons, length_append] at bound
      rw [loadAll, storedChunks, flatMap_cons]
      by_cases inside : i ≤ (pieces.cut b).length
      · have first : ∃ j, (load pieces (.data b) (rest.headD .eof) c).stopped perform j f =
            (write pieces b c.writePos).stopped perform i f := by
          rw [load_data loading.going loading.healthy]
          exact stopped_bind_left _ _ i f
        obtain ⟨j, stop⟩ := first
        rw [loading.pos, write_stopped] at stop
        rw [take_append_of_le_length inside, ← stop]
        exact stopped_bind_left _ _ j f
      · obtain ⟨m, rfl⟩ : ∃ m, i = (pieces.cut b).length + (m + 1) := ⟨i - (pieces.cut b).length - 1, by omega⟩
        obtain ⟨left', rfl⟩ : ∃ left', left = left' + 1 := by
          refine ⟨left - 1, ?_⟩
          by_contra last
          obtain rfl : left = 0 := by omega
          simp [storedChunks] at bound
        have going : done.length + 1 < n := by omega
        have room' : (done ++ [b]).length + (left' + 1) = n := by
          rw [length_append, length_singleton]
          omega
        obtain ⟨k, stop⟩ := ih (loading.append b) room' (m + 1) (by omega)
        rw [take_length_add_append, flatten_append, pieces.whole, ← append_assoc, ← stop]
        refine (stopped_bind_right _ _ k f).imp fun j same => same.trans ?_
        rw [load_run loading going]

theorem writeEntry_truncates (valid : r.Valid) (reads : List (Decoded ε)) (k : Nat) (f : Bytes) :
    (writeEntry pieces r reads).stopped perform (k + 1) f = (writeEntry pieces r reads).stopped perform (k + 1) [] := by
  rw [writeEntry, newLockedChunkCache, if_pos valid]
  change Prog.stopped perform _ k (truncate f 0) = Prog.stopped perform _ k (truncate [] 0)
  rw [truncate_zero, truncate_zero]

theorem writeEntry_stopped (valid : r.Valid) {reads : List (Decoded ε)}
    (stored : chunks = storedChunks (r.chunks.stop - r.chunks.start) reads) {i : Nat}
    (bound : i ≤ (chunks.flatMap pieces.cut).length) (f : Bytes) :
    ∃ k, (writeEntry pieces r reads).stopped perform (k + 1) f = placeholder (r.chunks.stop - r.chunks.start + 1) ++
      ((chunks.flatMap pieces.cut).take i).flatten := by
  generalize size : r.chunks.stop - r.chunks.start = n at *
  obtain ⟨left, rfl⟩ : ∃ left, n = left + 1 := ⟨n - 1, by have := valid.2.1.1; omega⟩
  subst stored
  obtain ⟨c, ok, loading⟩ :=
    (newLockedChunkCache_meets valid size (fun _ _ => trivial) [] :
      (newLockedChunkCache (ε := ε) pieces r).Meets perform (fun _ => True) _ []).run
  obtain ⟨k, stop⟩ := loadAll_stopped reads loading (zero_add _) i bound
  have inner : ∃ j, (writeEntry pieces r reads).stopped perform j [] = placeholder (left + 1 + 1) ++
      (((storedChunks (left + 1) reads).flatMap pieces.cut).take i).flatten := by
    obtain ⟨m, within⟩ := stopped_bind_left (loadAll pieces reads c) (fun out => do
      closeWriter out.2
      return out.1) k _
    refine (stopped_bind_right _ _ m []).imp fun j same => same.trans ?_
    rw [ok]
    refine within.trans (stop.trans ?_)
    rw [loading.file, flatten_nil, append_nil]
  obtain ⟨j, same⟩ := inner
  cases j with
  | zero =>
    have length := congrArg length same
    rw [stopped_zero, length_nil, length_append, placeholder_length] at length
    omega
  | succ j => exact ⟨j, (writeEntry_truncates valid reads j f).trans same⟩

theorem storedChunks_mem {n : Nat} {reads : List (Decoded ε)} {b : Bytes} (member : b ∈ storedChunks n reads) :
    .data b ∈ reads := by
  fun_induction storedChunks n reads with
  | case1 n first rest ih =>
    rcases mem_cons.mp member with rfl | member
    · exact mem_cons_self
    · exact mem_cons_of_mem _ (ih member)
  | case2 => cases member

theorem flatten_length_le {m : Nat} (fits : ∀ b ∈ chunks, b.length ≤ m) : chunks.flatten.length ≤ chunks.length * m := by
  induction chunks with
  | nil => exact zero_le _
  | cons b rest ih =>
    have first := fits b mem_cons_self
    have others := ih fun b' member => fits b' (mem_cons_of_mem _ member)
    rw [flatten_cons, length_append, length_cons, add_mul]
    omega

section
variable {r : ChunkRange} (size : r.stop - r.start = n)
include size

theorem flatten_length_lt (valid : validChunkRange r) (bound : chunks.length ≤ n)
    (fits : ∀ b ∈ chunks, b.length ≤ chunkBufSize) : chunks.flatten.length < 2 ^ 32 := by
  have total := flatten_length_le fits
  have count : chunks.length * chunkBufSize ≤ 8192 * chunkBufSize := by
    apply Nat.mul_le_mul_right
    have most := valid.2
    rw [maxChunksPerXorb] at most
    omega
  rw [chunkBufSize] at count total
  omega

theorem told_stops (valid : validChunkRange r) (small : chunks.flatten.length < 2 ^ 32)
    (never : ∀ i, ((chunks.flatMap pieces.cut).take i).flatten.length ≠ 4) :
    Stops pieces n chunks (Told r chunks) where
  opening t short accepted := absurd accepted (not_accepted_of_short size short)
  loading i accepted := absurd ((accepted_loading size valid _).mp accepted) (never i)
  patching full m accepted := by
    have whole := never (chunks.flatMap pieces.cut).length
    rw [take_length, pieces.flatten_flatMap] at whole
    have four := accepted_patching size ((length_map length).trans full) length_flatten accepted
    exact absurd four whole
  sealing full m accepted := by
    have total : chunks.flatten.length = (chunks.map length).sum := length_flatten
    have four := accepted_trailing size ((length_map length).trans full) total (total ▸ small) accepted
    have whole : (cacheTrailer (crc32 0 chunks.flatten) (cacheHeader (chunks.map length))).length = 4 :=
      putUint32_length _
    rw [length_take] at four
    rw [take_of_length_le (by omega)]
    rfl

theorem ne_sealedFile {i : Nat} (valid : validChunkRange r) (bound : chunks.length ≤ n)
    (four : ((chunks.flatMap pieces.cut).take i).flatten.length = 4) :
    placeholder (n + 1) ++ ((chunks.flatMap pieces.cut).take i).flatten ≠ sealedFile chunks := by
  intro same
  have most := valid.2
  rw [maxChunksPerXorb] at most
  -- The number of offsets is the same only if all chunks are there, and the size then only without data.
  have counts := congrArg uint32 same
  rw [placeholder, sealedFile, cacheHeader, append_assoc, append_assoc, uint32_putUint32, uint32_putUint32,
    length_map] at counts
  have full : n + 1 = chunks.length + 1 := by
    have numbers := congrArg toNat counts
    rwa [toNat_ofNat_of_lt' (by simp only [UInt32.size]; omega),
      toNat_ofNat_of_lt' (by simp only [UInt32.size]; omega)] at numbers
  have lengths := congrArg length same
  rw [sealedFile, length_append, length_append, length_append, placeholder_length,
    cacheHeader_length (length_map length), cacheTrailer, putUint32_length, four] at lengths
  have parts := congrArg length (congrArg flatten (take_append_drop i (chunks.flatMap pieces.cut)))
  rw [flatten_append, length_append, pieces.flatten_flatMap, four] at parts
  omega

end

end

/-- A writer is stopped between any two pieces of its writes. The file that it leaves is taken for a
sealed one only if it is sealed, unless there is a stop with four bytes of data: then the offsets
are not there yet, and the four bytes are taken for the checksum of an empty file. In the end the
file is accepted. -/
theorem unsealed_rejected_iff {ε : Type} (pieces : Pieces) (r : CacheRange) (valid : r.Valid)
    (reads : List (Decoded ε)) (fits : ∀ b, .data b ∈ reads → b.length ≤ Xorb.chunkBufSize) (f : Bytes) :
    let chunks := storedChunks (r.chunks.stop - r.chunks.start) reads
    ((∀ k, Told r.chunks chunks ((writeEntry pieces r reads).stopped perform (k + 1) f)) ↔
      ∀ i, ((chunks.flatMap pieces.cut).take i).flatten.length ≠ 4) ∧
    (chunks.length = r.chunks.stop - r.chunks.start →
      ((writeEntry pieces r reads).run perform f).2 = sealedFile chunks ∧ Accepted r.chunks (sealedFile chunks)) := by
  intro chunks
  have small : chunks.flatten.length < 2 ^ 32 := flatten_length_lt rfl valid.2.1 (storedChunks_length _ _)
    fun b member => fits b (storedChunks_mem member)
  constructor
  · constructor
    · intro told i four
      have bound : min i (chunks.flatMap pieces.cut).length ≤ (chunks.flatMap pieces.cut).length := Nat.min_le_right _ _
      obtain ⟨k, stop⟩ := writeEntry_stopped valid rfl bound f
      rw [← take_take, take_length] at stop
      have accepted := told k
      rw [stop] at accepted
      exact ne_sealedFile rfl valid.2.1 (storedChunks_length _ _) four
        (accepted ((accepted_loading rfl valid.2.1 _).mpr four))
    · intro never k
      have stops : Stops pieces _ chunks (Told r.chunks chunks) := told_stops rfl valid.2.1 small never
      rw [writeEntry_truncates valid]
      exact (writeEntry_meets valid rfl rfl stops []).stopped (stops.opening [] (by simp)) (k + 1)
  · intro full
    have ended := (writeEntry_meets valid rfl rfl (stops_anywhere pieces _ chunks) f).run.1
    rw [if_pos full] at ended
    exact ⟨ended, accepted_sealed rfl valid.2.1 full small⟩

/-- The first `count` chunks of an xorb named `aaaaa`, from its first bytes. -/
def firstChunks (count : Nat) : CacheRange := ⟨[97, 97, 97, 97, 97], ⟨0, count⟩, ⟨0, 20⟩⟩

theorem five_bytes_told :
    (∀ k, Told ⟨0, 2⟩ [[1, 2, 3], [4, 5]] ((writeEntry .atOnce (firstChunks 2)
      [.data [1, 2, 3], .data [4, 5], (.eof : Decoded Unit)]).stopped perform (k + 1) [])) ∧
    Accepted ⟨0, 2⟩ (sealedFile [[1, 2, 3], [4, 5]]) := by
  have fits : ∀ b, .data b ∈ [.data [1, 2, 3], .data [4, 5], (.eof : Decoded Unit)] → b.length ≤ Xorb.chunkBufSize := by
    intro b member
    simp only [mem_cons, Decoded.data.injEq, reduceCtorEq, not_mem_nil, or_false] at member
    rcases member with rfl | rfl <;> decide
  obtain ⟨told, ended⟩ := unsealed_rejected_iff .atOnce (firstChunks 2) (by decide) _ fits []
  refine ⟨told.mpr fun i => ?_, (ended rfl).2⟩
  rcases i with _ | _ | i
  · decide
  · decide
  · rw [take_of_length_le (by simp [storedChunks, Pieces.atOnce, firstChunks])]
    decide

/-- One chunk of four bytes: it is stored, the offsets are not, and the file is taken for a sealed
one without data. -/
theorem four_bytes_accepted :
    Accepted ⟨0, 1⟩ ((writeEntry .atOnce (firstChunks 1) [.data [1, 2, 3, 4], (.eof : Decoded Unit)]).stopped
      perform 3 []) ∧
    (writeEntry .atOnce (firstChunks 1) [.data [1, 2, 3, 4], (.eof : Decoded Unit)]).stopped perform 3 [] ≠
      sealedFile [[1, 2, 3, 4]] := by
  decide +kernel

end Xet.Download
