import Xet.Pipeline.Invariant

/-! Every step of the fetcher and of the workers keeps the invariant. -/
namespace Xet.Pipeline
open Wire Places List Function Pool Xorb Place

variable {ε : Type} {lz4 : Xorb.Lz4} {script : List (TermFetch ε)} {s s' : State ε} {stage : FrameId → Stage}

theorem not_clearing_ne {c : Consumer ε} (not : c.isClearing = false) : ∀ d n, c ≠ .clearing d n := by
  rintro d n rfl
  cases not

theorem Inv.not_clearing (inv : Inv lz4 script s stage)
    (running : (∀ kept, s.fetcher ≠ .exited kept) ∨ s.idle ≠ 0 ∨ s.busy ≠ []) : s.consumer.isClearing = false := by
  cases consumer : s.consumer with
  | clearing d n =>
    obtain ⟨⟨⟨kept, exited⟩, idle, busy⟩, -⟩ := inv.cleared d n consumer
    rcases running with fetching | some | working
    · exact absurd exited (fetching kept)
    · exact absurd idle some
    · exact absurd busy working
  | _ => rfl

theorem allChunks_nil (todo : List (TermFetch ε)) : allChunks (⟨[], .done⟩ :: todo) = allChunks todo := by
  simp [allChunks, FetchEnd.error]

theorem allChunks_stop {stop : FetchEnd ε} {e : FetchError ε} (chunks : List Fetched) (todo : List (TermFetch ε))
    (error : stop.error = some e) : allChunks (⟨chunks, stop⟩ :: todo) = (chunks, some e) := by
  simp [allChunks, error]

theorem allChunks_cons (f : Fetched) (rest : List Fetched) (stop : FetchEnd ε) (todo : List (TermFetch ε)) :
    allChunks (⟨f :: rest, stop⟩ :: todo) =
      (f :: (allChunks (⟨rest, stop⟩ :: todo)).1, (allChunks (⟨rest, stop⟩ :: todo)).2) := by
  simp only [allChunks]
  cases stop.error <;> rfl

def InOrder (script : List (TermFetch ε)) (s : State ε) (stage : FrameId → Stage) (seen : List Fetched) : Prop :=
  ∃ mid, Forall₂ (fun x f => (stage x).chunk = some f) s.flight mid ∧ Ahead script s (seen ++ mid)

/-- A step that takes no chunk, by where the frames are after it. -/
theorem Inv.step {stage' : FrameId → Stage} (inv : Inv lz4 script s stage) (log : s'.log = s.log)
    (drained : s'.drained = s.drained) (quiet : s'.consumer.isClearing = false)
    (places : ∀ k : Place, Tracks (k.frames s') fun x => k.holds (stage' x) = true)
    (busy : ∀ p ∈ s'.busy, ∃ o f, stage' p.1 = .flight o f (.busy p.2))
    (held : ∀ p ∈ s'.held, ∃ f, stage' p.1 = .held f ∧ f.decode lz4 = .ok p.2)
    (views : ∀ x, (stage' x).Fits lz4 (s'.view x))
    (order : ∀ seen, InOrder script s stage seen → InOrder script s' stage' seen)
    (closed : s'.orderedClosed = true → s'.fetcher.ahead = none)
    (ended : ∀ reason d, s'.consumer = .failed reason d → Ended lz4 script s'.canceled s.log.length reason) :
    Inv lz4 script s' stage' where
  places := places
  busy := busy
  held := held
  views _ := views
  cleared d n here := absurd here (not_clearing_ne quiet d n)
  order := by
    obtain ⟨seen, mid, taken, flight, rest⟩ := inv.order
    obtain ⟨mid', flight', rest'⟩ := order seen ⟨mid, flight, rest⟩
    exact ⟨seen, mid', log ▸ taken, flight', rest'⟩
  closed := closed
  ended := log ▸ ended
  drained := by
    rw [drained, log]
    exact inv.drained

/-- The consumer is where it was, with all it has and all it has taken. -/
structure Aside (s s' : State ε) : Prop where
  held : s'.held = s.held
  consumer : s'.consumer = s.consumer
  log : s'.log = s.log
  drained : s'.drained = s.drained
  canceled : s'.canceled = s.canceled

theorem Inv.aside {stage' : FrameId → Stage} (inv : Inv lz4 script s stage) (aside : Aside s s')
    (quiet : s.consumer.isClearing = false)
    (places : ∀ k : Place, Tracks (k.frames s') fun x => k.holds (stage' x) = true)
    (busy : ∀ p ∈ s'.busy, ∃ o f, stage' p.1 = .flight o f (.busy p.2))
    (held : ∀ p ∈ s.held, ∃ f, stage' p.1 = .held f ∧ f.decode lz4 = .ok p.2)
    (views : ∀ x, (stage' x).Fits lz4 (s'.view x))
    (order : ∀ seen, InOrder script s stage seen → InOrder script s' stage' seen)
    (closed : s'.orderedClosed = true → s'.fetcher.ahead = none) : Inv lz4 script s' stage' := by
  refine inv.step aside.log aside.drained (aside.consumer ▸ quiet) places busy (aside.held ▸ held) views order closed ?_
  rw [aside.consumer, aside.canceled]
  exact inv.ended

theorem Inv.fetcher_goto (inv : Inv lz4 script s stage) {next : Fetcher ε} {err : Option (PipelineError ε)}
    {orderedClosed jobsClosed : Bool} (active : ∀ kept, s.fetcher ≠ .exited kept)
    (same : ∀ k : Place, k.frames { s with fetcher := next } = k.frames s)
    (ahead : ∀ read, Ahead script s read → Ahead script { s with fetcher := next, err := err } read)
    (closed : orderedClosed = true → next.ahead = none) :
    Inv lz4 script { s with fetcher := next, err := err, orderedClosed := orderedClosed, jobsClosed := jobsClosed }
      stage := by
  have quiet := inv.not_clearing (.inl active)
  refine inv.aside ⟨rfl, rfl, rfl, rfl, rfl⟩ quiet (places_keep inv.places same) inv.busy inv.held (inv.views quiet) ?_
    closed
  rintro seen ⟨mid, flight, rest⟩
  refine ⟨mid, ?_, ahead _ rest⟩
  have filled : frames { s with fetcher := next } .filled = frames s .filled := same .filled
  rw [State.flight, ← filled] at flight
  exact flight

/-- No worker has the frame, and no caller. -/
def Stage.still : Stage → Bool
  | .flight _ _ (.busy _) => false
  | .held _ => false
  | _ => true

variable {fr : FrameId}

theorem Inv.fetcher_move (inv : Inv lz4 script s stage) (only : Aside s s' ∧ s'.busy = s.busy) {old new : Stage}
    (active : s.fetcher.ahead ≠ none) (was : stage fr = old) (still : old.still = true)
    (moved : ∀ k : Place, k.Moved s s' fr old new) (same : ∀ x, x ≠ fr → s'.view x = s.view x)
    (fits : old.Fits lz4 (s.view fr) → new.Fits lz4 (s'.view fr))
    (order : ∀ seen, InOrder script s stage seen → InOrder script s' (update stage fr new) seen)
    (closed : s'.orderedClosed = s.orderedClosed) : Inv lz4 script s' (update stage fr new) := by
  subst was
  have quiet := inv.not_clearing (.inl fun kept exited => active (by rw [exited]; rfl))
  refine inv.aside only.1 quiet (places_move inv.places moved) ?_ ?_
    (views_move (inv.views quiet) same (fits (inv.views quiet fr))) order ?_
  · rw [only.2]
    refine pairs_move (P := fun st w => ∃ o g, st = .flight o g (.busy w)) inv.busy ?_
    rintro w ⟨o, g, there⟩
    rw [there] at still
    cases still
  · refine pairs_move (P := fun st d => ∃ g, st = .held g ∧ g.decode lz4 = .ok d) inv.held ?_
    rintro d ⟨g, there, -⟩
    rw [there] at still
    cases still
  · rw [closed]
    exact fun isClosed => absurd (inv.closed isClosed) active

theorem Inv.fetcher_pass (inv : Inv lz4 script s stage) {next : Fetcher ε} {err : Option (PipelineError ε)}
    {free ordered jobs : List FrameId} {old new : Stage} (active : s.fetcher.ahead ≠ none) (was : stage fr = old)
    (still : old.still = true) (chunk : new.chunk = old.chunk) (fits : ∀ v, old.Fits lz4 v → new.Fits lz4 v)
    (moved : ∀ k : Place, k.Moved s { s with
      fetcher := next, err := err, free := free, ordered := ordered, jobs := jobs } fr old new)
    (flight : State.flight { s with fetcher := next, ordered := ordered } = s.flight)
    (ahead : ∀ read, Ahead script s read → Ahead script { s with fetcher := next, err := err } read) :
    Inv lz4 script { s with fetcher := next, err := err, free := free, ordered := ordered, jobs := jobs }
      (update stage fr new) := by
  refine inv.fetcher_move ?_ active was still moved (fun x _ => rfl) (fits _) ?_ rfl
  · exact ⟨⟨rfl, rfl, rfl, rfl, rfl⟩, rfl⟩
  rintro seen ⟨mid, chunks, rest⟩
  rw [← flight] at chunks
  exact ⟨mid, chunks_move chunks fun _ => was ▸ chunk, ahead _ rest⟩

theorem slot_ne {x : FrameId} {a b : Side} (different : x ≠ fr) : (x, a) ≠ (fr, b) :=
  fun same => different (congrArg Prod.fst same)

theorem side_ne {x : FrameId} : (x, Side.output) ≠ (x, Side.input) := by simp

theorem perm_concat (fr : FrameId) (l : List FrameId) : (fr :: l).Perm (l ++ [fr]) := (perm_append_singleton fr l).symm

theorem exists_chunk {l : List FrameId} {mid : List Fetched}
    (all : List.Forall₂ (fun x f => (stage x).chunk = some f) l mid) (member : fr ∈ l) :
    ∃ f ∈ mid, (stage fr).chunk = some f := by
  induction all with
  | nil => cases member
  | @cons x f l mid here _ ih =>
    rcases mem_cons.mp member with rfl | member
    · exact ⟨f, mem_cons_self, here⟩
    · obtain ⟨g, inside, there⟩ := ih member
      exact ⟨g, mem_cons_of_mem f inside, there⟩

theorem Ahead.failed {e : FetchError ε} {stop : FetchEnd ε} {todo : List (TermFetch ε)} {read : List Fetched}
    (here : s.fetcher.ahead = some (⟨[], stop⟩ :: todo)) (why : stop.error = some e) (ahead : Ahead script s read) :
    Stopped script s.canceled read (some (.fetch e)) := by
  simp only [Ahead, here, allChunks_stop [] todo why] at ahead
  simpa [Stopped] using ahead.2

section
variable (inv : Inv lz4 script s stage) {rest : TermFetch ε} {todo : List (TermFetch ε)}
include inv

theorem Inv.getInput {p : Buffers} (here : s.fetcher = .taken fr rest todo) (gets : s.buffers.Gets (fr, .input) p) :
    Inv lz4 script { s with fetcher := .buffered fr rest todo, buffers := p } (update stage fr .buffered) := by
  have was : stage fr = .taken := inv.stage_at .taken fr (by simp [here])
  apply inv.fetcher_move
  case only => exact ⟨⟨rfl, rfl, rfl, rfl, rfl⟩, rfl⟩
  case active => simp [here]
  case was => exact was
  case still => rfl
  case moved => exact fun k => by cases k <;> simp [Place.holds, here]
  case same =>
    intro x different
    simp only [State.view, gets.cell_ne (slot_ne different)]
  case fits =>
    rintro ⟨-, output, quiet⟩
    exact ⟨(gets.cell_ne side_ne).trans output, quiet, gets.cell_self⟩
  case order =>
    rintro seen ⟨mid, flight, rest⟩
    refine ⟨mid, chunks_move ?_ (by simp [was]), by simpa [Ahead, here] using rest⟩
    simpa [here] using flight
  case closed => rfl

theorem Inv.read {f : Fetched} {rest : List Fetched} {stop : FetchEnd ε}
    (here : s.fetcher = .buffered fr ⟨f :: rest, stop⟩ todo) :
    Inv lz4 script { s with
      fetcher := .filled fr ⟨rest, stop⟩ todo
      buffers := s.buffers.write (fr, .input) f.packed
      frames := update s.frames fr { s.frames fr with job := some f, signalled := false } }
      (update stage fr (.filled f)) := by
  have was : stage fr = .buffered := inv.stage_at .buffered fr (by simp [here])
  apply inv.fetcher_move
  case only => exact ⟨⟨rfl, rfl, rfl, rfl, rfl⟩, rfl⟩
  case active => simp [here]
  case was => exact was
  case still => rfl
  case moved => exact fun k => by cases k <;> simp [Place.holds, here]
  case same =>
    intro x different
    simp only [State.view, cell_write_ne (slot_ne different), update_of_ne different]
  case fits =>
    rintro ⟨output, quiet, b, bytes, input⟩
    refine ⟨⟨by simp [State.view], ⟨b, _, cell_write_self input, prefix_append ..⟩, ?_⟩,
      (cell_write_ne side_ne).trans output⟩
    simpa [State.view] using quiet
  case order =>
    rintro seen ⟨mid, flight, ahead⟩
    have outside : fr ∉ s.flight := by
      intro member
      obtain ⟨g, -, chunk⟩ := exists_chunk flight member
      rw [was] at chunk
      cases chunk
    refine ⟨mid ++ [f], ?_, ?_⟩
    · have chunks : Forall₂ (fun x g => (update stage fr (.filled f) x).chunk = some g) (s.flight ++ [fr]) (mid ++ [f]) :=
        rel_append (chunks_move flight fun member => absurd member outside) (.cons (by simp) .nil)
      simpa [here] using chunks
    · simp only [Ahead, Fetcher.ahead, here] at ahead ⊢
      rw [allChunks_cons] at ahead
      simpa using ahead
  case closed => rfl

theorem Inv.failRead {bytes : Bytes} {e : FetchError ε} (here : s.fetcher = .buffered fr ⟨[], .buffered bytes e⟩ todo) :
    Inv lz4 script { s with
      fetcher := .closing (some fr)
      buffers := s.buffers.write (fr, .input) bytes
      err := some (.fetch e) } (update stage fr .kept) := by
  have was : stage fr = .buffered := inv.stage_at .buffered fr (by simp [here])
  apply inv.fetcher_move
  case only => exact ⟨⟨rfl, rfl, rfl, rfl, rfl⟩, rfl⟩
  case active => simp [here]
  case was => exact was
  case still => rfl
  case moved => exact fun k => by cases k <;> simp [Place.holds, here]
  case same =>
    intro x different
    simp only [State.view, cell_write_ne (slot_ne different)]
  case fits => exact fun _ => trivial
  case order =>
    rintro seen ⟨mid, flight, ahead⟩
    refine ⟨mid, chunks_move ?_ (by simp [was]), ahead.failed (by rw [here]; rfl) rfl⟩
    simpa [here] using flight
  case closed => rfl

end

theorem FetchStep.inv (step : FetchStep s s') (inv : Inv lz4 script s stage) : ∃ stage', Inv lz4 script s' stage' := by
  -- The queue is not closed while there are terms ahead.
  have opened : ∀ {next : Fetcher ε}, s.fetcher.ahead ≠ none → s.orderedClosed = true → next.ahead = none :=
    fun some closed => absurd (inv.closed closed) some
  cases step with
  | nextTerm t todo here =>
    refine ⟨stage, inv.fetcher_goto (by simp [here]) ?_ ?_ (opened (by simp [here]))⟩
    · exact fun k => by cases k <;> simp [here]
    · simp [Ahead, here]
  | lastTerm here =>
    refine ⟨stage, inv.fetcher_goto (by simp [here]) ?_ ?_ fun _ => rfl⟩
    · exact fun k => by cases k <;> simp [here]
    · intro read ahead
      simp only [Ahead, Fetcher.ahead, here] at ahead ⊢
      simpa [Stopped, ahead.1, allChunks] using ahead.2
  | acquire rest todo fr free here got =>
    have was : stage fr = .free := inv.stage_at .free fr (by simp [got])
    refine ⟨update stage fr .taken, inv.fetcher_pass (by simp [here]) was rfl rfl (fun _ => id) ?_ ?_ ?_⟩
    · exact fun k => by cases k <;> simp [Place.holds, here, got]
    · simp [here]
    · simp [Ahead, here]
  | acquireCanceled rest todo here canceled =>
    refine ⟨stage, inv.fetcher_goto (by simp [here]) ?_ ?_ fun _ => rfl⟩
    · exact fun k => by cases k <;> simp [here]
    · intro read ahead
      simp only [Ahead, Fetcher.ahead, here] at ahead ⊢
      exact ⟨canceled, _, _, ahead.2⟩
  | failTaken fr e todo here =>
    have was : stage fr = .taken := inv.stage_at .taken fr (by simp [here])
    refine ⟨update stage fr .kept, inv.fetcher_pass (by simp [here]) was rfl rfl (fun _ _ => trivial) ?_ ?_ ?_⟩
    · exact fun k => by cases k <;> simp [Place.holds, here]
    · simp [here]
    · exact fun read ahead => ahead.failed (by rw [here]; rfl) rfl
  | sendOrdered fr rest todo here room =>
    obtain ⟨f, was⟩ := inv.stage_at .filled fr (by simp [here])
    refine ⟨update stage fr (.flight .queue f .unsent), ?_⟩
    refine inv.fetcher_pass (by simp [here]) was rfl rfl (fun _ => id) ?_ ?_ ?_
    · exact fun k => by cases k <;> simp [Place.holds, here, perm_concat]
    · simp [here]
    · simp [Ahead, here]
  | sendJob fr rest todo here room =>
    obtain ⟨o, f, was⟩ := inv.stage_at .unsent fr (by simp [here])
    refine ⟨update stage fr (.flight o f .queued), ?_⟩
    refine inv.fetcher_pass (by simp [here]) was rfl rfl (fun _ => id) ?_ ?_ ?_
    · exact fun k => by cases o <;> cases k <;> simp [Place.holds, here, perm_concat]
    · simp [here]
    · simp [Ahead, here]
  | again rest todo here more =>
    refine ⟨stage, inv.fetcher_goto (by simp [here]) ?_ ?_ (opened (by simp [here]))⟩
    · exact fun k => by cases k <;> simp [here]
    · simp [Ahead, here]
  | endTerm todo here =>
    refine ⟨stage, inv.fetcher_goto (by simp [here]) ?_ ?_ (opened (by simp [here]))⟩
    · exact fun k => by cases k <;> simp [here]
    · simp [Ahead, here, allChunks_nil]
  | failTerm e todo here =>
    refine ⟨stage, inv.fetcher_goto (by simp [here]) ?_ ?_ fun _ => rfl⟩
    · exact fun k => by cases k <;> simp [here]
    · exact fun read ahead => ahead.failed (by rw [here]; rfl) rfl
  | closeOrdered kept here =>
    refine ⟨stage, inv.fetcher_goto (by simp [here]) ?_ ?_ fun _ => rfl⟩
    · exact fun k => by cases k <;> simp [here]
    · simp [Ahead, here]
  | closeJobs kept here =>
    refine ⟨stage, inv.fetcher_goto (by simp [here]) ?_ ?_ fun _ => rfl⟩
    · exact fun k => by cases k <;> simp [here]
    · simp [Ahead, here]
  | getInput fr rest todo p here more gets => exact ⟨_, inv.getInput here gets⟩
  | read fr f rest stop todo here => exact ⟨_, inv.read here⟩
  | failRead fr bytes e todo here => exact ⟨_, inv.failRead here⟩

structure WorkersOnly (s s' : State ε) : Prop extends Aside s s' where
  fetcher : s'.fetcher = s.fetcher
  err : s'.err = s.err
  orderedClosed : s'.orderedClosed = s.orderedClosed
  free : s'.free = s.free
  ordered : s'.ordered = s.ordered

theorem WorkersOnly.flight (only : WorkersOnly s s') : s'.flight = s.flight := by
  simp only [State.flight, frames, only.fetcher, only.ordered, only.consumer]

def Place.decodes : Place → Bool
  | .unsent => true
  | .jobs => true
  | .busy => true
  | _ => false

variable {f : Fetched}

theorem WorkersOnly.places (only : WorkersOnly s s') {o : Owner} {g g' : Progress} (was : stage fr = .flight o f g)
    (moved : ∀ k : Place, k.decodes = true → k.Moved s s' fr (.flight o f g) (.flight o f g')) (k : Place) :
    k.Moved s s' fr (stage fr) (.flight o f g') := by
  rw [was]
  cases special : k.decodes with
  | true => exact moved k special
  | false =>
    -- The other places do not depend on how far decoding is.
    have frames : k.frames s' = k.frames s := by
      cases k <;> cases special <;>
        simp only [frames, only.fetcher, only.consumer, only.free, only.ordered, only.held]
    have holds : k.holds (.flight o f g') = k.holds (.flight o f g) := by
      cases k <;> cases special <;> cases o <;> rfl
    rw [Moved, frames, holds]

theorem Inv.worker_move (inv : Inv lz4 script s stage) (only : WorkersOnly s s') {o : Owner} {g g' : Progress}
    (was : stage fr = .flight o f g) (running : s.idle ≠ 0 ∨ s.busy ≠ [])
    (moved : ∀ k : Place, k.decodes = true → k.Moved s s' fr (.flight o f g) (.flight o f g'))
    (busy : ∀ p ∈ s'.busy, p.1 = fr ∧ g' = .busy p.2 ∨ p.1 ≠ fr ∧ p ∈ s.busy)
    (same : ∀ x, x ≠ fr → s'.view x = s.view x)
    (fits : (stage fr).Fits lz4 (s.view fr) → (Stage.flight o f g').Fits lz4 (s'.view fr)) :
    Inv lz4 script s' (update stage fr (.flight o f g')) := by
  have quiet := inv.not_clearing (.inr running)
  refine inv.aside only.toAside quiet (places_move inv.places (only.places was moved)) ?_ ?_
    (views_move (inv.views quiet) same (fits (inv.views quiet fr))) ?_ ?_
  · intro p member
    rcases busy p member with ⟨here, progress⟩ | ⟨different, before⟩
    · exact ⟨o, f, by rw [here, update_self, progress]⟩
    · rw [update_of_ne different]
      exact inv.busy p before
  · exact pairs_move (P := fun st d => ∃ g, st = .held g ∧ g.decode lz4 = .ok d) inv.held (by simp [was])
  · rintro seen ⟨mid, flight, rest⟩
    refine ⟨mid, ?_, ?_⟩
    · rw [only.flight]
      exact chunks_move flight fun _ => by rw [was]; rfl
    · rw [Ahead, only.fetcher, only.err, only.canceled]
      exact rest
  · rw [only.orderedClosed, only.fetcher]
    exact inv.closed

theorem Inv.busy_frame (inv : Inv lz4 script s stage) {before after : List (FrameId × Work)} {w : Work}
    (here : s.busy = before ++ (fr, w) :: after) :
    ∃ o f, stage fr = .flight o f (.busy w) ∧ w.Fits lz4 (s.view fr) f ∧ ∀ p ∈ before ++ after, p.1 ≠ fr := by
  obtain ⟨o, f, was⟩ := inv.busy (fr, w) (by simp [here])
  have quiet := inv.not_clearing (.inr (.inr (by simp [here])))
  have view := inv.views quiet fr
  have nodup := (inv.places .busy).nodup
  rw [was] at view
  simp only [frames, here, map_append, map_cons] at nodup
  have alone : fr ∉ before.map Prod.fst ++ after.map Prod.fst :=
    (nodup_cons.mp (List.perm_middle.nodup_iff.mp nodup)).1
  refine ⟨o, f, was, view, fun p member same => alone ?_⟩
  rw [← map_append]
  exact mem_map.mpr ⟨p, member, same⟩

theorem Inv.worker_turn (inv : Inv lz4 script s stage) {before after : List (FrameId × Work)} {w w' : Work}
    {o : Owner} (here : s.busy = before ++ (fr, w) :: after) (was : stage fr = .flight o f (.busy w))
    (only : WorkersOnly s s') (next : s'.busy = before ++ (fr, w') :: after) (jobs : s'.jobs = s.jobs)
    (same : ∀ x, x ≠ fr → s'.view x = s.view x) (fits : w.Fits lz4 (s.view fr) f → w'.Fits lz4 (s'.view fr) f) :
    Inv lz4 script s' (update stage fr (.flight o f (.busy w'))) := by
  obtain ⟨-, -, -, -, others⟩ := inv.busy_frame here
  refine inv.worker_move only was (.inr (by simp [here])) ?_ ?_ same (by rwa [was])
  · intro k special
    cases k <;> cases special <;>
      simp [Place.holds, only.fetcher, jobs, here, next]
  · intro p member
    rw [next] at member
    rcases mem_append.mp member with inside | inside
    · exact .inr ⟨others p (mem_append_left _ inside), by simp [here, inside]⟩
    · rcases mem_cons.mp inside with rfl | inside
      · exact .inl ⟨rfl, rfl⟩
      · exact .inr ⟨others p (mem_append_right _ inside), by simp [here, inside]⟩

theorem Loaded.body {v : View} {b : Nat} {bytes : Bytes} (loaded : v.Loaded f) (input : v.input = some (b, bytes)) :
    bodyIn f bytes = f.packed.drop chunkHeaderSize ∧
      (bytes.drop chunkHeaderSize).take (f.packed.drop chunkHeaderSize).length =
        f.packed.drop chunkHeaderSize := by
  obtain ⟨b', bytes', same, whole, rfl⟩ := loaded.input
  cases input.symm.trans same
  constructor
  · rw [bodyIn, take_left]
  · rw [drop_append, take_left]

theorem decodeChunk_stored {h : Xorb.ChunkHeader} {body d : Bytes} (stored : h.compression = compressionNone)
    (decoded : decodeChunk lz4 0 0 h body = .ok d) : d = body := by
  simp only [decodeChunk, stored, if_true, bind_eq_ok, require_eq_ok] at decoded
  obtain ⟨-, -, -, -, -, -, -, -, value⟩ := decoded
  exact (Except.ok.inj value).symm

section
variable {b o : Nat} {bytes : Bytes} {v : View}

theorem Loaded.stored_fits (loaded : v.Loaded f) (input : v.input = some (b, bytes))
    (stored : f.header.compression = compressionNone) :
    Result.Fits lz4 f v.Reads (match decodeChunk lz4 0 0 f.header (bodyIn f bytes) with
      | .ok d => .data ⟨b, chunkHeaderSize, d.length⟩
      | .error e => .failed e) := by
  obtain ⟨body, slice⟩ := Loaded.body loaded input
  have decode : f.decode lz4 = decodeChunk lz4 0 0 f.header (bodyIn f bytes) := by
    rw [Fetched.decode, if_pos stored, body]
  cases result : decodeChunk lz4 0 0 f.header (bodyIn f bytes) with
  | ok d =>
    rw [result] at decode
    obtain rfl := decodeChunk_stored stored result
    refine ⟨_, decode, .inl ⟨bytes, input, ?_⟩⟩
    rw [body]
    exact slice
  | error e => exact decode.trans result

theorem Loaded.packed_fits {old written : Bytes} {a : FrameId × Side} {p : Buffers} (loaded : v.Loaded f)
    (input : v.input = some (b, bytes)) (output : p.cell a = some (o, old))
    (compressed : f.header.compression ≠ compressionNone)
    (writes : ∀ d, decodeChunk lz4 frameBufSize frameBufSize f.header (bodyIn f bytes) = .ok d → d <+: written) :
    Result.Fits lz4 f (fun sl d => sl.Reads ((p.write a written).cell a) d)
      (match decodeChunk lz4 frameBufSize frameBufSize f.header (bodyIn f bytes) with
      | .ok d => .data ⟨o, 0, d.length⟩
      | .error e => .failed e) := by
  have decode : f.decode lz4 = decodeChunk lz4 frameBufSize frameBufSize f.header (bodyIn f bytes) := by
    rw [Fetched.decode, if_neg compressed, (Loaded.body loaded input).1]
  cases result : decodeChunk lz4 frameBufSize frameBufSize f.header (bodyIn f bytes) with
  | ok d =>
    rw [result] at decode
    obtain ⟨scratch, rfl⟩ := writes d result
    refine ⟨d, decode, _, cell_write_self output, ?_⟩
    rw [drop_zero, append_assoc, take_left]
  | error e => exact decode.trans result

end

section
variable (inv : Inv lz4 script s stage) {before after : List (FrameId × Work)}
include inv

theorem Inv.work_receive {jobs : List FrameId} {idle : Nat} (got : s.jobs = fr :: jobs) (free : s.idle = idle + 1) :
    ∃ stage', Inv lz4 script { s with jobs := jobs, idle := idle, busy := (fr, .got) :: s.busy } stage' := by
  obtain ⟨o, f, was⟩ := inv.stage_at .jobs fr (by simp [got])
  refine ⟨update stage fr (.flight o f (.busy .got)), ?_⟩
  apply inv.worker_move
  case only => exact ⟨⟨rfl, rfl, rfl, rfl, rfl⟩, rfl, rfl, rfl, rfl, rfl⟩
  case was => exact was
  case running => exact .inl (by omega)
  case moved =>
    intro k special
    cases k <;> cases special <;> simp [Place.holds, got]
  case busy =>
    intro p member
    rcases mem_cons.mp member with rfl | inside
    · exact .inl ⟨rfl, rfl⟩
    · refine .inr ⟨fun same => ?_, inside⟩
      obtain ⟨o', f', other⟩ := inv.busy p inside
      rw [same, was] at other
      cases other
  case same => exact fun x _ => rfl
  case fits =>
    rw [was]
    exact id

theorem Inv.work_finish {r : Result} (here : s.busy = before ++ (fr, .done r) :: after) :
    ∃ stage', Inv lz4 script { s with
      frames := update s.frames fr (match r with
        | .data sl => { s.frames fr with data := some sl, err := none }
        | .failed e => { s.frames fr with data := none, err := some e })
      busy := before ++ (fr, .signal) :: after } stage' := by
  obtain ⟨o, f, was, -⟩ := inv.busy_frame here
  refine ⟨update stage fr (.flight o f (.busy .signal)), inv.worker_turn here was ?only rfl rfl ?same ?fits⟩
  case only => exact ⟨⟨rfl, rfl, rfl, rfl, rfl⟩, rfl, rfl, rfl, rfl, rfl⟩
  case same =>
    intro x different
    simp only [State.view, update_of_ne different]
  case fits =>
    rintro ⟨quiet, result⟩
    cases r with
    | data sl =>
      obtain ⟨d, decode, reads⟩ := result
      refine ⟨?_, .inl ⟨sl, d, ?_, ?_, decode, reads⟩⟩
      · simpa [State.view] using quiet
      · simp [State.view]
      · simp [State.view]
    | failed e =>
      refine ⟨?_, .inr ⟨e, ?_, result⟩⟩
      · simpa [State.view] using quiet
      · simp [State.view]

theorem Inv.work_signal (here : s.busy = before ++ (fr, .signal) :: after) :
    ∃ stage', Inv lz4 script { s with
      frames := update s.frames fr { s.frames fr with ready := true, signalled := true }
      busy := before ++ after
      idle := s.idle + 1 } stage' := by
  obtain ⟨o, f, was, -, others⟩ := inv.busy_frame here
  refine ⟨update stage fr (.flight o f .ready), ?_⟩
  apply inv.worker_move
  case only => exact ⟨⟨rfl, rfl, rfl, rfl, rfl⟩, rfl, rfl, rfl, rfl, rfl⟩
  case was => exact was
  case running => exact .inr (by simp [here])
  case moved =>
    intro k special
    cases k <;> cases special <;> simp [Place.holds, here]
  case busy => exact fun p member => .inr ⟨others p member, by
    rcases mem_append.mp member with inside | inside <;> simp [here, inside]⟩
  case same =>
    intro x different
    simp only [State.view, update_of_ne different]
  case fits =>
    rw [was]
    rintro ⟨-, finished⟩
    refine ⟨by simp [State.view], by simp [State.view], ?_⟩
    simpa [View.Finished, View.Reads, State.view] using finished

end

theorem WorkStep.inv (step : WorkStep lz4 s s') (inv : Inv lz4 script s stage) : ∃ stage', Inv lz4 script s' stage' := by
  cases step with
  | receive fr jobs idle got free => exact inv.work_receive got free
  | exit idle closed empty free =>
    have quiet := inv.not_clearing (.inr (.inl (by omega)))
    refine ⟨stage, inv.places, inv.busy, inv.held, inv.views, fun d n here => ?_, inv.order, inv.closed, inv.ended,
      inv.drained⟩
    exact absurd here (not_clearing_ne quiet d n)
  | getOutput fr before after f p here job compressed gets =>
    obtain ⟨o, f', was, ⟨loaded, -⟩, -⟩ := inv.busy_frame here
    obtain rfl : f = f' := Option.some.inj (job.symm.trans loaded.job)
    refine ⟨_, inv.worker_turn here was ?only rfl rfl ?same fun _ => ?fits⟩
    case only => exact ⟨⟨rfl, rfl, rfl, rfl, rfl⟩, rfl, rfl, rfl, rfl, rfl⟩
    case same =>
      intro x different
      simp only [State.view, gets.cell_ne (slot_ne different)]
    case fits =>
      obtain ⟨b, bytes, input, packed⟩ := loaded.input
      exact ⟨⟨loaded.job, ⟨b, bytes, (gets.cell_ne side_ne.symm).trans input, packed⟩, loaded.quiet⟩, compressed,
        gets.cell_self⟩
  | decodeStored fr before after f b bytes here job stored input =>
    obtain ⟨o, f', was, ⟨loaded, -⟩, -⟩ := inv.busy_frame here
    obtain rfl : f = f' := Option.some.inj (job.symm.trans loaded.job)
    refine ⟨_, inv.worker_turn here was ?only rfl rfl (fun x _ => rfl) fun _ => ?fits⟩
    case only => exact ⟨⟨rfl, rfl, rfl, rfl, rfl⟩, rfl, rfl, rfl, rfl, rfl⟩
    case fits => exact ⟨loaded.quiet, Loaded.stored_fits loaded input stored⟩
  | decodePacked fr before after f b o' bytes old written here job input output writes =>
    obtain ⟨o, f', was, ⟨loaded, compressed, -⟩, -⟩ := inv.busy_frame here
    obtain rfl : f = f' := Option.some.inj (job.symm.trans loaded.job)
    refine ⟨_, inv.worker_turn here was ?only rfl rfl ?same fun _ => ?fits⟩
    case only => exact ⟨⟨rfl, rfl, rfl, rfl, rfl⟩, rfl, rfl, rfl, rfl, rfl⟩
    case same =>
      intro x different
      simp only [State.view, cell_write_ne (slot_ne different)]
    case fits =>
      exact ⟨loaded.quiet, ⟨loaded.job, compressed⟩, Loaded.packed_fits loaded input output compressed writes⟩
  | putInput fr before after r here =>
    obtain ⟨o, f, was, -⟩ := inv.busy_frame here
    refine ⟨_, inv.worker_turn here was ?only rfl rfl ?same ?fits⟩
    case only => exact ⟨⟨rfl, rfl, rfl, rfl, rfl⟩, rfl, rfl, rfl, rfl, rfl⟩
    case same =>
      intro x different
      simp only [State.view, cell_put_ne (slot_ne different)]
    case fits =>
      rintro ⟨quiet, -, result⟩
      refine ⟨quiet, ?_⟩
      cases r with
      | data sl =>
        obtain ⟨d, decode, bytes, output, slice⟩ := result
        exact ⟨d, decode, .inr ⟨bytes, (cell_put_ne side_ne).trans output, slice⟩⟩
      | failed e => exact result
  | finish fr before after r here => cases r <;> exact inv.work_finish here
  | signal fr before after here room => exact inv.work_signal here

end Xet.Pipeline
