import Xet.Pipeline.Steps

/-! Every step of the consumer keeps the invariant, and so does every run of the pipeline. -/
namespace Xet.Pipeline
open Wire Places List Function Place Consumer

variable {ε : Type} {lz4 : Xorb.Lz4} {script : List (TermFetch ε)} {s s' : State ε} {stage : FrameId → Stage}

structure ConsumerOnly (s s' : State ε) : Prop where
  fetcher : s'.fetcher = s.fetcher
  err : s'.err = s.err
  orderedClosed : s'.orderedClosed = s.orderedClosed
  busy : s'.busy = s.busy
  canceled : s.canceled = true → s'.canceled = true

/-- Nothing is delivered either. -/
structure ConsumerSilent (s s' : State ε) : Prop extends ConsumerOnly s s' where
  log : s'.log = s.log
  drained : s'.drained = s.drained

theorem ConsumerOnly.ahead (only : ConsumerOnly s s') {read : List Fetched} (ahead : Ahead script s read) :
    Ahead script s' read := by
  unfold Ahead at ahead ⊢
  rw [only.fetcher, only.err]
  cases todo : s.fetcher.ahead with
  | some todo => simpa only [todo] using ahead
  | none =>
    simp only [todo] at ahead ⊢
    cases why : s.err with
    | none => simpa [why, Stopped] using ahead
    | some e =>
      rw [why] at ahead
      cases e with
      | canceled => exact ⟨only.canceled ahead.1, ahead.2⟩
      | fetch e => exact ahead

theorem ended_mono {reason : StopReason ε} {c c' : Bool} {n : Nat} (canceled : c = true → c' = true)
    (ended : Ended lz4 script c n reason) : Ended lz4 script c' n reason := by
  cases reason with
  | canceled => exact canceled ended
  | _ => exact ended

theorem Inv.consumer_step {stage' : FrameId → Stage} (inv : Inv lz4 script s stage) (only : ConsumerSilent s s')
    (quiet : s'.consumer.isClearing = false)
    (places : ∀ k : Place, Tracks (k.frames s') fun x => k.holds (stage' x) = true)
    (busy : ∀ p ∈ s.busy, ∃ o f, stage' p.1 = .flight o f (.busy p.2))
    (held : ∀ p ∈ s'.held, ∃ f, stage' p.1 = .held f ∧ f.decode lz4 = .ok p.2)
    (views : ∀ x, (stage' x).Fits lz4 (s'.view x))
    (flight : ∀ mid, Forall₂ (fun x f => (stage x).chunk = some f) s.flight mid →
      Forall₂ (fun x f => (stage' x).chunk = some f) s'.flight mid)
    (ended : ∀ reason d, s'.consumer = .failed reason d → Ended lz4 script s'.canceled s.log.length reason) :
    Inv lz4 script s' stage' := by
  refine inv.step only.log only.drained quiet places (only.busy ▸ busy) held views ?_ ?_ ended
  · rintro seen ⟨mid, chunks, rest⟩
    exact ⟨mid, flight mid chunks, only.ahead rest⟩
  · rw [only.orderedClosed, only.fetcher]
    exact inv.closed

theorem Inv.consumer_goto (inv : Inv lz4 script s stage) {next : Consumer ε} {canceled : Bool}
    (quiet : s.consumer.isClearing = false) (quiet' : next.isClearing = false) (kept : s.canceled = true → canceled = true)
    (same : ∀ k : Place, k.frames { s with consumer := next, canceled := canceled } = k.frames s)
    (ended : ∀ reason d, next = .failed reason d → Ended lz4 script canceled s.log.length reason) :
    Inv lz4 script { s with consumer := next, canceled := canceled } stage := by
  refine inv.consumer_step ⟨⟨rfl, rfl, rfl, rfl, kept⟩, rfl, rfl⟩ quiet' (places_keep inv.places same) inv.busy inv.held
    (inv.views quiet) ?_ ended
  intro mid chunks
  rw [State.flight, same, same, same, same, same]
  exact chunks

variable {fr : FrameId}

theorem Inv.consumer_move (inv : Inv lz4 script s stage) (only : ConsumerSilent s s') {old new : Stage}
    (quiet : s.consumer.isClearing = false) (quiet' : s'.consumer.isClearing = false) (was : stage fr = old)
    (moved : ∀ k : Place, k.Moved s s' fr old new)
    (busy : ∀ o f w, old = .flight o f (.busy w) → ∃ o' f', new = .flight o' f' (.busy w))
    (held : ∀ p ∈ s'.held, p.1 ≠ fr ∧ p ∈ s.held) (same : ∀ x, x ≠ fr → s'.view x = s.view x)
    (fits : old.Fits lz4 (s.view fr) → new.Fits lz4 (s'.view fr)) (flight : s'.flight = s.flight)
    (chunk : new.chunk = old.chunk)
    (ended : ∀ reason d, s'.consumer = .failed reason d → Ended lz4 script s'.canceled s.log.length reason) :
    Inv lz4 script s' (update stage fr new) := by
  subst was
  have views := inv.views quiet
  refine inv.consumer_step only quiet' (places_move inv.places moved) ?_ ?_ (views_move views same (fits (views fr))) ?_
    ended
  · intro p member
    obtain ⟨o, f, was⟩ := inv.busy p member
    by_cases here : p.1 = fr
    · rw [here, update_self]
      exact busy o f p.2 (here ▸ was)
    · rw [update_of_ne here]
      exact ⟨o, f, was⟩
  · intro p member
    obtain ⟨different, before⟩ := held p member
    rw [update_of_ne different]
    exact inv.held p before
  · intro mid chunks
    rw [flight]
    exact chunks_move chunks fun _ => chunk

variable {m : Mode}

theorem Inv.got_frame (inv : Inv lz4 script s stage) (here : s.consumer = .got m fr) :
    ∃ f, stage fr = .got f ∧ (s.view fr).Settled lz4 f ∧
      ∃ seen mid, Forall₂ (fun f d => f.decode lz4 = .ok d) seen s.log ∧
        Forall₂ (fun x g => (stage x).chunk = some g) (s.ordered ++ frames s .filled) mid ∧
        Ahead script s (seen ++ f :: mid) := by
  obtain ⟨f, was⟩ := inv.stage_at .got fr (by simp [here])
  have view := inv.views (by simp [here]) fr
  rw [was] at view
  obtain ⟨seen, mid, taken, chunks, rest⟩ := inv.order
  have shape : s.flight = fr :: (s.ordered ++ frames s .filled) := by
    simp [here]
  rw [shape] at chunks
  cases chunks with
  | cons first others =>
    rw [was] at first
    cases first
    exact ⟨_, was, view, seen, _, taken, others, rest⟩

variable {f : Fetched}

theorem finished_bytes (finished : (s.view fr).Finished lz4 f) (fine : (s.frames fr).err = none) :
    f.decode lz4 = .ok (s.bytesOf fr) := by
  rcases finished with ⟨sl, d, data, -, decode, reads⟩ | ⟨e, err, -⟩
  · have here : (s.frames fr).data = some sl := data
    suffices s.bytesOf fr = d by rw [this, decode]
    rw [State.bytesOf, here]
    have mem : ∀ a bytes, s.buffers.cell a = some (sl.buffer, bytes) → s.buffers.mem sl.buffer = bytes := by
      intro a bytes cell
      obtain ⟨x, -, same⟩ := Option.map_eq_some_iff.mp cell
      cases same
      rfl
    rcases reads with ⟨bytes, cell, slice⟩ | ⟨bytes, cell, slice⟩ <;>
      exact (congrArg (fun b => (b.drop sl.start).take sl.size) (mem _ bytes cell)).trans slice
  · exact absurd (err.symm.trans fine) (by simp)

theorem Ahead.front {read : List Fetched} (ahead : Ahead script s read) : read <+: (allChunks script).1 := by
  unfold Ahead at ahead
  cases here : s.fetcher.ahead with
  | some todo =>
    simp only [here] at ahead
    exact ⟨(allChunks todo).1, by rw [ahead.2]⟩
  | none =>
    simp only [here] at ahead
    cases why : s.err with
    | none =>
      rw [why] at ahead
      exact ⟨[], by rw [append_nil, show allChunks script = _ from ahead]⟩
    | some e =>
      rw [why] at ahead
      cases e with
      | canceled =>
        obtain ⟨-, rest, e, all⟩ := ahead
        exact ⟨rest, by rw [all]⟩
      | fetch e => exact ⟨[], by rw [append_nil, show allChunks script = _ from ahead]⟩

theorem Ahead.at_count {seen mid : List Fetched} {log : List Bytes}
    (taken : Forall₂ (fun f d => f.decode lz4 = .ok d) seen log) (ahead : Ahead script s (seen ++ f :: mid)) :
    (allChunks script).1[log.length]? = some f := by
  obtain ⟨rest, shape⟩ := ahead.front
  rw [← shape, ← taken.length_eq]
  simp

section
variable (inv : Inv lz4 script s stage)
include inv

theorem Inv.at_end (here : s.consumer = .wait m) (empty : s.ordered = []) (closed : s.orderedClosed = true) :
    ∃ seen, s.log.length = seen.length ∧ Stopped script s.canceled seen s.err := by
  have stopped := inv.closed closed
  obtain ⟨seen, mid, taken, chunks, rest⟩ := inv.order
  have nothing : s.flight = [] := by
    cases fetcher : s.fetcher <;> simp_all [State.flight, frames, Consumer.dropped, Fetcher.ahead]
  rw [nothing] at chunks
  cases chunks
  rw [append_nil, Ahead, stopped] at rest
  exact ⟨seen, taken.length_eq.symm, rest⟩

theorem Inv.unheld (fr : FrameId) (other : ∀ f, stage fr ≠ .held f) : ∀ p ∈ s.held, p.1 ≠ fr ∧ p ∈ s.held := by
  intro p member
  obtain ⟨f, there, -⟩ := inv.held p member
  exact ⟨fun same => other f (same ▸ there), member⟩

theorem Inv.got_bytes (here : s.consumer = .got m fr) (fine : (s.frames fr).err = none) :
    ∃ f, stage fr = .got f ∧ f.decode lz4 = .ok (s.bytesOf fr) := by
  obtain ⟨f, was, settled, -⟩ := inv.got_frame here
  exact ⟨f, was, finished_bytes settled.finished fine⟩

theorem Inv.consumer_take (only : ConsumerOnly s s') {new : Stage} (here : s.consumer = .got m fr)
    (fine : (s.frames fr).err = none) (was : stage fr = .got f)
    (calm : s'.consumer = .idle ∨ ∃ x k, s'.consumer = .put x k) (next : new = .held f ∨ new = .put f)
    (moved : ∀ k : Place, k.Moved s s' fr (.got f) new)
    (held : ∀ p ∈ s'.held, ∃ f, update stage fr new p.1 = .held f ∧ f.decode lz4 = .ok p.2)
    (views : ∀ x, s'.view x = s.view x) (log : s'.log = s.log ++ [s.bytesOf fr])
    (flight : s'.flight = s.ordered ++ frames s .filled) (drained : s'.drained = s.drained) :
    Inv lz4 script s' (update stage fr new) := by
  obtain ⟨f', was', settled, seen, mid, taken, chunks, rest⟩ := inv.got_frame here
  cases was'.symm.trans was
  have decode := finished_bytes settled.finished fine
  constructor
  case places => exact places_move inv.places (was ▸ moved)
  case busy =>
    rw [only.busy]
    exact pairs_move (P := fun st w => ∃ o f, st = .flight o f (.busy w)) inv.busy (by simp [was])
  case held => exact held
  case views =>
    refine fun _ => views_move (inv.views (by simp [here])) (fun x _ => views x) ?_
    rw [views]
    rcases next with rfl | rfl <;> exact settled
  case cleared =>
    intro d n clearing
    rcases calm with idle | ⟨x, k, put⟩
    · exact absurd (idle.symm.trans clearing) (by simp)
    · exact absurd (put.symm.trans clearing) (by simp)
  case order =>
    have away : fr ∉ s.ordered ++ frames s .filled := by
      intro member
      rcases mem_append.mp member with member | member
      · simpa [was, holds] using ((inv.places .ordered).mem fr).mp member
      · simpa [was, holds] using ((inv.places .filled).mem fr).mp member
    refine ⟨seen ++ [f], mid, ?_, ?_, ?_⟩
    · rw [log]
      exact rel_append taken (.cons decode .nil)
    · rw [flight]
      exact chunks_move chunks fun member => absurd member away
    · rw [append_assoc]
      exact only.ahead rest
  case closed =>
    rw [only.orderedClosed, only.fetcher]
    exact inv.closed
  case ended =>
    intro reason d failed
    rcases calm with idle | ⟨x, k, put⟩
    · exact absurd (idle.symm.trans failed) (by simp)
    · exact absurd (put.symm.trans failed) (by simp)
  case drained =>
    -- A drain that has seen the end leaves nothing to take.
    intro done
    have count := (inv.drained (drained ▸ done)).1
    have some := rest.at_count taken
    rw [count] at some
    simp at some

end

theorem putBufs_cell_self {side : Side} : (s.putBufs fr).buffers.cell (fr, side) = none := by
  cases side with
  | input => exact (Pool.cell_put_ne (by simp)).trans Pool.cell_put_self
  | output => exact Pool.cell_put_self

theorem putBufs_view_ne {x : FrameId} (different : x ≠ fr) : (s.putBufs fr).view x = s.view x := by
  simp only [State.view, State.putBufs, update_of_ne different, Pool.cell_put_ne (slot_ne different)]

theorem Inv.consumer_clear (inv : Inv lz4 script s stage) (only : ConsumerSilent s s') {d : Dropped} {n : Nat}
    (clearing : s'.consumer = .clearing d n) (same : ∀ k : Place, k.frames s' = k.frames s) (held : s'.held = s.held)
    (cleared : ∀ d n, s'.consumer = .clearing d n → s'.joined ∧ ∀ fr : FrameId, fr.val < n →
      s'.buffers.cell (fr, .input) = none ∧ s'.buffers.cell (fr, .output) = none) : Inv lz4 script s' stage := by
  constructor
  case places => exact places_keep inv.places same
  case busy => exact only.busy ▸ inv.busy
  case held => exact held ▸ inv.held
  case views =>
    intro quiet
    rw [clearing] at quiet
    cases quiet
  case cleared => exact cleared
  case order =>
    obtain ⟨seen, mid, taken, chunks, rest⟩ := inv.order
    have ordered : s'.ordered = s.ordered := same .ordered
    refine ⟨seen, mid, only.log ▸ taken, ?_, only.ahead rest⟩
    rw [State.flight, same, same, same, same, same, ordered]
    exact chunks
  case closed =>
    rw [only.orderedClosed, only.fetcher]
    exact inv.closed
  case ended =>
    intro reason d failed
    exact absurd (clearing.symm.trans failed) (by simp)
  case drained =>
    rw [only.drained, only.log]
    exact inv.drained

theorem Inv.consumer_lose (inv : Inv lz4 script s stage) (here : s.consumer = .got m fr) (was : stage fr = .got f)
    {reason : StopReason ε} (ended : Ended lz4 script s.canceled s.log.length reason) :
    Inv lz4 script { s with consumer := .failed reason (.got fr) } (update stage fr (.lost f)) := by
  apply inv.consumer_move
  case only => exact ⟨⟨rfl, rfl, rfl, rfl, id⟩, rfl, rfl⟩
  case quiet => simp [here]
  case quiet' => rfl
  case was => exact was
  case moved => exact fun k => by cases k <;> simp [holds, here]
  case busy => simp
  case held => exact inv.unheld _ (by simp [was])
  case same => exact fun x _ => rfl
  case fits => exact fun _ => trivial
  case flight => simp [here]
  case chunk => rfl
  case ended =>
    intro reason d same
    cases same
    exact ended

section
variable (inv : Inv lz4 script s stage)
include inv

/-- A frame that the consumer waits for or drops stays where it is on its way to the signal. -/
theorem Inv.change_owner (o' : Owner) {o : Owner} {g : Progress} {next : Consumer ε} {ordered : List FrameId}
    (quiet : s.consumer.isClearing = false) (quiet' : next.isClearing = false) (was : stage fr = .flight o f g)
    (moved : ∀ k : Place, k.Moved s { s with consumer := next, ordered := ordered } fr (.flight o f g) (.flight o' f g))
    (flight : State.flight { s with consumer := next, ordered := ordered } = s.flight)
    (ended : ∀ reason d, next = .failed reason d → Ended lz4 script s.canceled s.log.length reason) :
    Inv lz4 script { s with consumer := next, ordered := ordered } (update stage fr (.flight o' f g)) := by
  refine inv.consumer_move ?_ quiet quiet' was moved ?_ (inv.unheld _ (by simp [was])) (fun x _ => rfl) ?_ flight rfl ended
  · exact ⟨⟨rfl, rfl, rfl, rfl, id⟩, rfl, rfl⟩
  · rintro o f w ⟨⟩
    exact ⟨_, _, rfl⟩
  · cases g <;> exact id

/-- Only a frame whose worker has signalled can be ready. -/
theorem Inv.ready_frame (here : s.consumer = .ready m fr) (ready : (s.frames fr).ready = true) :
    ∃ f, stage fr = .flight .consumer f .ready := by
  obtain ⟨f, g, was⟩ := inv.stage_at .waiting fr (by simp [here])
  have view := inv.views (by simp [here]) fr
  have signalled : (s.view fr).frame.ready = true := ready
  rw [was] at view
  cases g with
  | ready => exact ⟨f, was⟩
  | unsent => exact absurd (view.1.quiet.symm.trans signalled) (by simp)
  | queued => exact absurd (view.1.quiet.symm.trans signalled) (by simp)
  | busy w =>
    have idle : (s.view fr).frame.ready = false := by
      cases w with
      | got => exact view.1.quiet
      | buffered => exact view.1.quiet
      | decoded r => exact view.1
      | done r => exact view.1
      | signal => exact view.1
    exact absurd (idle.symm.trans signalled) (by simp)

theorem Inv.receiveReady (here : s.consumer = .ready m fr) (ready : (s.frames fr).ready = true) :
    ∃ stage', Inv lz4 script { s with
      consumer := .got m fr
      frames := update s.frames fr { s.frames fr with ready := false } } stage' := by
  obtain ⟨f, was⟩ := inv.ready_frame here ready
  refine ⟨update stage fr (.got f), ?_⟩
  apply inv.consumer_move
  case only => exact ⟨⟨rfl, rfl, rfl, rfl, id⟩, rfl, rfl⟩
  case quiet => simp [here]
  case quiet' => rfl
  case was => exact was
  case moved => exact fun k => by cases k <;> simp [holds, here]
  case busy => simp
  case held => exact inv.unheld _ (by simp [was])
  case same =>
    intro x different
    simp only [State.view, update_of_ne different]
  case fits =>
    rintro ⟨-, marked, finished⟩
    refine ⟨by simp [State.view], by simpa [State.view] using marked, ?_⟩
    simpa [View.Finished, View.Reads, State.view] using finished
  case flight => simp [here]
  case chunk => rfl
  case ended => simp

theorem Inv.closedDrain (here : s.consumer = .wait .drain) (empty : s.ordered = []) (closed : s.orderedClosed = true)
    (why : s.err = none) : Inv lz4 script { s with consumer := .idle, drained := true } stage := by
  obtain ⟨seen, count, stopped⟩ := inv.at_end here empty closed
  rw [why] at stopped
  have all : allChunks script = (seen, none) := stopped
  have same : ∀ k : Place, k.frames { s with consumer := .idle, drained := true } = k.frames s :=
    fun k => by cases k <;> simp [here]
  refine ⟨places_keep inv.places same, inv.busy, inv.held, fun _ => inv.views (by simp [here]), by simp, ?_,
    inv.closed, by simp, fun _ => ⟨by rw [all, count], by rw [all]⟩⟩
  obtain ⟨seen, mid, taken, chunks, rest⟩ := inv.order
  refine ⟨seen, mid, taken, ?_, rest⟩
  simpa [here] using chunks

theorem Inv.deliver (here : s.consumer = .got .next fr) (fine : (s.frames fr).err = none) :
    ∃ stage', Inv lz4 script { s with
      consumer := .idle
      held := (fr, s.bytesOf fr) :: s.held
      log := s.log ++ [s.bytesOf fr] } stage' := by
  obtain ⟨f, was, decode⟩ := inv.got_bytes here fine
  refine ⟨_, inv.consumer_take ?only here fine was (.inl rfl) (.inl rfl) ?moved ?held (fun x => rfl) rfl ?flight rfl⟩
  case only => exact ⟨rfl, rfl, rfl, rfl, id⟩
  case moved => exact fun k => by cases k <;> simp [holds, here]
  case held =>
    intro p member
    rcases mem_cons.mp member with rfl | member
    · exact ⟨f, update_self .., decode⟩
    · rw [update_of_ne (inv.unheld fr (by simp [was]) p member).1]
      exact inv.held p member
  case flight => simp

theorem Inv.pass (here : s.consumer = .got .drain fr) (fine : (s.frames fr).err = none) :
    ∃ stage', Inv lz4 script { s with consumer := .put fr (some .drain), log := s.log ++ [s.bytesOf fr] } stage' := by
  obtain ⟨f, was, -⟩ := inv.got_bytes here fine
  refine ⟨_, inv.consumer_take ?only here fine was (.inr ⟨_, _, rfl⟩) (.inr rfl) ?moved ?held (fun x => rfl) rfl ?flight
    rfl⟩
  case only => exact ⟨rfl, rfl, rfl, rfl, id⟩
  case moved => exact fun k => by cases k <;> simp [holds, here]
  case held =>
    intro p member
    rw [update_of_ne (inv.unheld fr (by simp [was]) p member).1]
    exact inv.held p member
  case flight => simp

theorem Inv.release {bytes : Bytes} {before after : List (FrameId × Bytes)} (here : s.consumer = .idle)
    (held : s.held = before ++ (fr, bytes) :: after) :
    ∃ stage', Inv lz4 script { s with consumer := .put fr none, held := before ++ after } stage' := by
  obtain ⟨f, was, -⟩ := inv.held (fr, bytes) (by simp [held])
  have once : (s.held.map Prod.fst).Nodup := (inv.places .held).nodup
  rw [held, map_append, map_cons, nodup_middle, nodup_cons, ← map_append] at once
  refine ⟨update stage fr (.put f), ?_⟩
  apply inv.consumer_move
  case only => exact ⟨⟨rfl, rfl, rfl, rfl, id⟩, rfl, rfl⟩
  case quiet => simp [here]
  case quiet' => rfl
  case was => exact was
  case moved => exact fun k => by cases k <;> simp [holds, here, held]
  case busy => simp
  case held =>
    intro p member
    refine ⟨fun same => once.1 (mem_map.mpr ⟨p, member, same⟩), ?_⟩
    rw [held]
    exact perm_middle.mem_iff.mpr (mem_cons_of_mem _ member)
  case same => exact fun x _ => rfl
  case fits => exact id
  case flight => simp [here]
  case chunk => rfl
  case ended => simp

theorem Inv.putBufs {m : Option Mode} (here : s.consumer = .put fr m) :
    Inv lz4 script { s.putBufs fr with consumer := .give fr m } (update stage fr .give) := by
  obtain ⟨f, was⟩ := inv.stage_at .put fr (by simp [here])
  apply inv.consumer_move
  case only => exact ⟨⟨rfl, rfl, rfl, rfl, id⟩, rfl, rfl⟩
  case quiet => simp [here]
  case quiet' => rfl
  case was => exact was
  case moved => exact fun k => by cases k <;> simp [holds, here, State.putBufs]
  case busy => simp
  case held => exact inv.unheld _ (by simp [was])
  case same => exact fun x different => putBufs_view_ne different
  case fits =>
    exact fun view => ⟨putBufs_cell_self, putBufs_cell_self, by simpa [State.view, State.putBufs] using view.quiet⟩
  case flight => simp [here, State.putBufs]
  case chunk => rfl
  case ended => simp

theorem Inv.give {m : Option Mode} {next : Consumer ε} (here : s.consumer = .give fr m)
    (calm : next = .idle ∨ ∃ m, next = .wait m) :
    Inv lz4 script { s with free := s.free ++ [fr], consumer := next } (update stage fr .free) := by
  have was : stage fr = .give := inv.stage_at .give fr (by simp [here])
  apply inv.consumer_move
  case only => exact ⟨⟨rfl, rfl, rfl, rfl, id⟩, rfl, rfl⟩
  case quiet => simp [here]
  case quiet' => rcases calm with rfl | ⟨m, rfl⟩ <;> rfl
  case was => exact was
  case moved => exact fun k => by rcases calm with rfl | ⟨m, rfl⟩ <;> cases k <;> simp [holds, here, perm_concat]
  case busy => simp
  case held => exact inv.unheld _ (by simp [was])
  case same => exact fun x _ => rfl
  case fits => exact id
  case flight => rcases calm with rfl | ⟨m, rfl⟩ <;> simp [here]
  case chunk => rfl
  case ended => rcases calm with rfl | ⟨m, rfl⟩ <;> simp

theorem Inv.clear {d : Dropped} (here : s.consumer = .clearing d fr.val) :
    Inv lz4 script { s.putBufs fr with consumer := .clearing d (fr.val + 1) } stage := by
  obtain ⟨joined, empty⟩ := inv.cleared d fr.val here
  apply inv.consumer_clear
  case only => exact ⟨⟨rfl, rfl, rfl, rfl, id⟩, rfl, rfl⟩
  case clearing => rfl
  case same => exact fun k => by cases k <;> simp [here, State.putBufs]
  case held => rfl
  case cleared =>
    rintro d n ⟨⟩
    refine ⟨joined, fun x low => ?_⟩
    by_cases now : x = fr
    · subst now
      exact ⟨putBufs_cell_self, putBufs_cell_self⟩
    · have before : x.val < fr.val := lt_of_le_of_ne (Nat.le_of_lt_succ low) (Fin.val_ne_of_ne now)
      have view : (s.putBufs fr).view x = s.view x := putBufs_view_ne now
      exact ⟨(congrArg View.input view).trans (empty x before).1, (congrArg View.output view).trans (empty x before).2⟩

end

theorem ConsumeStep.inv (step : ConsumeStep s s') (inv : Inv lz4 script s stage) : ∃ stage', Inv lz4 script s' stage' := by
  cases step with
  | call m here =>
    refine ⟨stage, inv.consumer_goto (by simp [here]) rfl id ?_ (by simp)⟩
    exact fun k => by cases k <;> simp [here]
  | receive m fr ordered here got =>
    obtain ⟨f, g, was⟩ := inv.stage_at .ordered fr (by simp [got])
    refine ⟨_, inv.change_owner .consumer (by simp [here]) rfl was ?_ ?_ (by simp)⟩
    · exact fun k => by cases k <;> cases g <;> simp [holds, here, got]
    · simp [here, got]
  | cancelWait m here canceled =>
    refine ⟨stage, inv.consumer_goto (by simp [here]) rfl id ?_ ?_⟩
    · exact fun k => by cases k <;> simp [here]
    · rintro reason d ⟨⟩
      exact canceled
  | closedError m e here empty closed why =>
    obtain ⟨seen, count, stopped⟩ := inv.at_end here empty closed
    rw [why] at stopped
    refine ⟨stage, inv.consumer_goto (by simp [here]) rfl id ?_ ?_⟩
    · exact fun k => by cases k <;> simp [here]
    · intro reason d same
      cases e with
      | canceled =>
        cases same
        exact stopped.1
      | fetch e =>
        cases same
        have all : allChunks script = (seen, some e) := stopped
        exact ⟨by rw [all, count], by rw [all]⟩
  | closedNext here empty closed why =>
    obtain ⟨seen, count, stopped⟩ := inv.at_end here empty closed
    rw [why] at stopped
    have all : allChunks script = (seen, none) := stopped
    refine ⟨stage, inv.consumer_goto (by simp [here]) rfl id ?_ ?_⟩
    · exact fun k => by cases k <;> simp [here]
    · rintro reason d ⟨⟩
      exact ⟨by rw [all, count], by rw [all]⟩
  | closedDrain here empty closed why live => exact ⟨stage, inv.closedDrain here empty closed why⟩
  | receiveReady m fr here ready => exact inv.receiveReady here ready
  | cancelReady m fr here canceled =>
    obtain ⟨f, g, was⟩ := inv.stage_at .waiting fr (by simp [here])
    refine ⟨_, inv.change_owner .dropped (by simp [here]) rfl was ?_ ?_ ?_⟩
    · exact fun k => by cases k <;> cases g <;> simp [holds, here]
    · simp [here]
    · rintro reason d ⟨⟩
      exact canceled
  | failed m fr e here why =>
    obtain ⟨f, was, settled, seen, mid, taken, -, rest⟩ := inv.got_frame here
    refine ⟨_, inv.consumer_lose here was ?_⟩
    rcases settled.finished with ⟨sl, d, -, none, -⟩ | ⟨e', err, decode⟩
    · exact absurd (why.symm.trans none) (by simp)
    · cases why.symm.trans err
      exact ⟨f, rest.at_count taken, decode⟩
  | cancelGot fr here fine canceled =>
    obtain ⟨f, was, -⟩ := inv.got_frame here
    exact ⟨_, inv.consumer_lose here was canceled⟩
  | deliver fr here fine live => exact inv.deliver here fine
  | pass fr here fine => exact inv.pass here fine
  | release fr bytes before after here held => exact inv.release here held
  | putBufs fr m here => exact ⟨_, inv.putBufs here⟩
  | give fr m here room =>
    cases m with
    | none => exact ⟨_, inv.give here (.inl rfl)⟩
    | some m => exact ⟨_, inv.give here (.inr ⟨m, rfl⟩)⟩
  | stop here =>
    refine ⟨stage, inv.consumer_goto (by simp [here]) rfl (fun _ => rfl) ?_ (by simp)⟩
    exact fun k => by cases k <;> simp [here]
  | stopFailed reason dropped here =>
    refine ⟨stage, inv.consumer_goto (by simp [here]) rfl (fun _ => rfl) ?_ (by simp)⟩
    exact fun k => by cases k <;> simp [here]
  | join dropped here joined =>
    refine ⟨stage, ?_⟩
    apply inv.consumer_clear
    case only => exact ⟨⟨rfl, rfl, rfl, rfl, id⟩, rfl, rfl⟩
    case clearing => rfl
    case same => exact fun k => by cases k <;> simp [here]
    case held => rfl
    case cleared =>
      rintro d n ⟨⟩
      exact ⟨joined, fun fr low => absurd low (Nat.not_lt_zero _)⟩
  | clear dropped fr here => exact ⟨stage, inv.clear here⟩

theorem Step.inv (step : Step lz4 s s') (inv : Inv lz4 script s stage) : ∃ stage', Inv lz4 script s' stage' := by
  cases step with
  | fetch _ step => exact step.inv inv
  | work _ step => exact step.inv inv
  | consume _ step => exact step.inv inv
  | cancel =>
    have only : ConsumerOnly s { s with canceled := true } := ⟨rfl, rfl, rfl, rfl, fun _ => rfl⟩
    refine ⟨stage, places_keep inv.places fun _ => rfl, inv.busy, inv.held, inv.views, inv.cleared, ?_, inv.closed, ?_,
      inv.drained⟩
    · obtain ⟨seen, mid, taken, chunks, rest⟩ := inv.order
      exact ⟨seen, mid, taken, chunks, only.ahead rest⟩
    · exact fun reason d failed => ended_mono only.canceled (inv.ended reason d failed)
  | other p step =>
    have views : ∀ x, State.view { s with buffers := p } x = s.view x := fun x => by
      simp only [State.view, step.cell]
    refine ⟨stage, places_keep inv.places fun _ => rfl, inv.busy, inv.held, ?_, ?_, inv.order, inv.closed, inv.ended,
      inv.drained⟩
    · intro quiet x
      rw [views]
      exact inv.views quiet x
    · intro d n clearing
      obtain ⟨joined, empty⟩ := inv.cleared d n clearing
      exact ⟨joined, fun fr low => by simpa only [step.cell] using empty fr low⟩

inductive Reach (lz4 : Xorb.Lz4) (script : List (TermFetch ε)) (workers : Nat) (p : Buffers) : State ε → Prop
  | start : Reach lz4 script workers p (start script workers p)
  | step {s s' : State ε} (before : Reach lz4 script workers p s) (step : Step lz4 s s') : Reach lz4 script workers p s'

theorem start_inv (script : List (TermFetch ε)) (workers : Nat) (p : Buffers) :
    Inv lz4 script (start script workers p) fun _ => .free := by
  constructor
  case places =>
    intro k
    cases k with
    | free => exact ⟨nodup_finRange _, fun fr => by simp [start, holds]⟩
    | _ => exact ⟨nodup_nil, fun fr => by simp [start, holds]⟩
  case busy => simp [start]
  case held => simp [start]
  case views => exact fun _ fr => ⟨rfl, rfl, rfl⟩
  case cleared => simp [start]
  case order =>
    refine ⟨[], [], .nil, .nil, rfl, rfl⟩
  case closed => simp [start]
  case ended => simp [start]
  case drained => simp [start]

theorem Reach.inv {workers : Nat} {p : Buffers} (reach : Reach lz4 script workers p s) :
    ∃ stage, Inv lz4 script s stage := by
  induction reach with
  | start => exact ⟨_, start_inv script workers p⟩
  | step _ step ih =>
    obtain ⟨stage, inv⟩ := ih
    exact step.inv inv

end Xet.Pipeline
