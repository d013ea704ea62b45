import Mathlib.Data.Fintype.Card
import Xet.Pipeline.Consume
import Xet.Xorb.RoundTrip

/-! What holds in every state the pipeline can come to, and what a step may do to the buffers. -/
namespace Xet.Pipeline
open Wire Places List Pool List.Pairwise Place

variable {ε : Type} {lz4 : Xorb.Lz4} {script : List (TermFetch ε)} {s s' : State ε} {stage : FrameId → Stage}

def fetcherPlaces : List Place := [.taken, .buffered, .filled, .kept]

def consumerPlaces : List Place := [.waiting, .got, .held, .put, .give, .dropped, .lost]

def ownerPlaces : List Place := .free :: fetcherPlaces ++ .ordered :: consumerPlaces

/-- The frames of the free list, of the fetcher, of the ordered queue and of the consumer. -/
def State.owners (s : State ε) : List FrameId := ownerPlaces.flatMap fun k => k.frames s

def State.decoding (s : State ε) : List FrameId :=
  Place.frames s .unsent ++ Place.frames s .jobs ++ Place.frames s .busy

def Stage.owner : Stage → Place
  | .free => .free
  | .taken => .taken
  | .buffered => .buffered
  | .kept => .kept
  | .filled _ => .filled
  | .flight .queue _ _ => .ordered
  | .flight .consumer _ _ => .waiting
  | .flight .dropped _ _ => .dropped
  | .got _ => .got
  | .lost _ => .lost
  | .held _ => .held
  | .put _ => .put
  | .give => .give

variable {k : Place}

theorem holds_owner (among : k ∈ ownerPlaces) (st : Stage) : k.holds st = true ↔ k = st.owner := by
  simp only [ownerPlaces, fetcherPlaces, consumerPlaces, cons_append, nil_append, mem_cons,
    not_mem_nil, or_false] at among
  cases st with
  | flight o f g =>
    cases o <;> rcases among with rfl | rfl | rfl | rfl | rfl | rfl | rfl | rfl | rfl | rfl | rfl | rfl | rfl <;>
      simp [Place.holds, Stage.owner]
  | _ =>
    rcases among with rfl | rfl | rfl | rfl | rfl | rfl | rfl | rfl | rfl | rfl | rfl | rfl | rfl <;>
      simp [Place.holds, Stage.owner]

theorem owner_mem (st : Stage) : st.owner ∈ ownerPlaces := by
  cases st with
  | flight o f g => cases o <;> simp [Stage.owner, ownerPlaces, fetcherPlaces, consumerPlaces]
  | _ => simp [Stage.owner, ownerPlaces, fetcherPlaces, consumerPlaces]

variable {fr : FrameId}

theorem Inv.mem_frames (inv : Inv lz4 script s stage) (among : k ∈ ownerPlaces) :
    fr ∈ k.frames s ↔ k = (stage fr).owner :=
  ((inv.places k).mem fr).trans (holds_owner among _)

theorem Inv.owners (inv : Inv lz4 script s stage) : s.owners.Perm (List.finRange decodeWindow) := by
  have once : s.owners.Nodup := by
    refine nodup_flatMap.mpr ⟨fun k _ => (inv.places k).nodup, ?_⟩
    refine imp_of_mem ?_ (by decide : ownerPlaces.Nodup)
    intro k k' first second different fr here there
    exact different (((inv.mem_frames first).mp here).trans ((inv.mem_frames second).mp there).symm)
  refine (perm_ext_iff_of_nodup once (nodup_finRange _)).mpr fun fr => ⟨fun _ => mem_finRange fr, fun _ => ?_⟩
  exact mem_flatMap.mpr ⟨_, owner_mem (stage fr), (inv.mem_frames (owner_mem _)).mpr rfl⟩

theorem holds_decoding (among : k ∈ [unsent, .jobs, .busy]) {st : Stage} (holds : k.holds st = true) :
    ∃ o f g, st = .flight o f g := by
  simp only [mem_cons, not_mem_nil, or_false] at among
  cases st with
  | flight o f g => exact ⟨o, f, g, rfl⟩
  | _ => rcases among with rfl | rfl | rfl <;> cases holds

theorem Inv.decoding_nodup (inv : Inv lz4 script s stage) : s.decoding.Nodup := by
  have flat : s.decoding = [unsent, .jobs, .busy].flatMap fun k => k.frames s := by simp [State.decoding]
  rw [flat]
  refine nodup_flatMap.mpr ⟨fun k _ => (inv.places k).nodup, ?_⟩
  refine imp_of_mem ?_ (by decide : [unsent, .jobs, .busy].Nodup)
  intro k k' first second different fr here there
  have left := ((inv.places k).mem fr).mp here
  have right := ((inv.places k').mem fr).mp there
  obtain ⟨o, f, g, was⟩ := holds_decoding first left
  rw [was] at left right
  simp only [mem_cons, not_mem_nil, or_false] at first second
  rcases first with rfl | rfl | rfl <;> rcases second with rfl | rfl | rfl <;> cases g <;>
    simp [Place.holds] at left right different

theorem Inv.decoding_owner (inv : Inv lz4 script s stage) (member : fr ∈ s.decoding) :
    fr ∈ s.ordered ++ frames s .waiting ++ frames s .dropped := by
  obtain ⟨k, among, here⟩ : ∃ k ∈ [unsent, .jobs, .busy], fr ∈ k.frames s := by
    simpa [State.decoding, or_assoc] using member
  obtain ⟨o, f, g, was⟩ := holds_decoding among (((inv.places k).mem fr).mp here)
  have owned : ∀ k : Place, k.holds (stage fr) = true → fr ∈ k.frames s := fun k => ((inv.places k).mem fr).mpr
  simp only [was] at owned
  cases o with
  | queue => exact mem_append_left _ (mem_append_left _ (owned .ordered rfl))
  | consumer => exact mem_append_left _ (mem_append_right _ (owned .waiting rfl))
  | dropped => exact mem_append_right _ (owned .dropped rfl)

theorem Inv.room (inv : Inv lz4 script s stage) (outside : k.holds (stage fr) = false) :
    (k.frames s).length < decodeWindow := by
  have once : (fr :: k.frames s).Nodup := by
    refine nodup_cons.mpr ⟨fun member => ?_, (inv.places k).nodup⟩
    exact absurd (((inv.places k).mem fr).mp member) (by simp [outside])
  have most := List.Nodup.length_le_card once
  simp only [length_cons, Fintype.card_fin] at most
  exact most

structure Safe (lz4 : Xorb.Lz4) (script : List (TermFetch ε)) (s : State ε) : Prop where
  /-- The chunks taken are the first ones of the script, in its order, each as its own frame decodes. -/
  delivered : List.Forall₂ (fun f d => f.decode lz4 = .ok d) ((allChunks script).1.take s.log.length) s.log
  /-- What a caller holds does not change until it is released. -/
  stable : s.consumer.isClearing = false → ∀ p ∈ s.held, s.bytesOf p.1 = p.2
  ended : ∀ reason d, s.consumer = .failed reason d → Ended lz4 script s.canceled s.log.length reason
  drained : s.drained = true → s.log.length = (allChunks script).1.length ∧ (allChunks script).2 = none
  /-- Every frame has one owner, so there are no more in flight than the window. -/
  owned : s.owners.Perm (List.finRange decodeWindow)
  /-- A worker has or will get a frame only while it is queued or waited for, and only one worker. -/
  decoding : s.decoding.Nodup
  queued : ∀ fr ∈ s.decoding, fr ∈ s.ordered ++ frames s .waiting ++ frames s .dropped
  /-- No send finds a full channel. -/
  sendOrdered : ∀ fr rest todo, s.fetcher = .filled fr rest todo → s.ordered.length < decodeWindow
  sendJobs : ∀ fr rest todo, s.fetcher = .sent fr rest todo → s.jobs.length < decodeWindow
  sendFree : ∀ fr m, s.consumer = .give fr m → s.free.length < decodeWindow
  sendReady : ∀ fr, (fr, Work.signal) ∈ s.busy → (s.frames fr).ready = false
  /-- No buffer is in two frames, or in one and outside. -/
  apart : ∀ a b x, s.buffers.holds a = some x → s.buffers.holds b = some x → a = b
  outside : ∀ a x, s.buffers.holds a = some x → x ∉ s.buffers.spare ++ s.buffers.others
  /-- In the end nothing is left in the frames. -/
  cleared : ∀ d, s.consumer = .clearing d decodeWindow → ∀ a, s.buffers.holds a = none

theorem Inv.safe (inv : Inv lz4 script s stage) : Safe lz4 script s := by
  constructor
  case delivered =>
    obtain ⟨seen, mid, taken, -, rest⟩ := inv.order
    obtain ⟨ahead, shape⟩ := rest.front
    rwa [← shape, append_assoc, ← taken.length_eq, take_left]
  case stable =>
    intro quiet p member
    obtain ⟨f, was, decode⟩ := inv.held p member
    have settled := inv.views quiet p.1
    rw [was] at settled
    have fine : (s.frames p.1).err = none := by
      rcases settled.finished with ⟨sl, d, -, none, -⟩ | ⟨e, -, failed⟩
      · exact none
      · exact absurd (decode.symm.trans failed) (by simp)
    exact Except.ok.inj ((finished_bytes settled.finished fine).symm.trans decode)
  case ended => exact inv.ended
  case drained => exact inv.drained
  case owned => exact inv.owners
  case decoding => exact inv.decoding_nodup
  case queued => exact fun fr => inv.decoding_owner
  case sendOrdered =>
    intro fr rest todo here
    obtain ⟨f, was⟩ := inv.stage_at .filled fr (by simp [here])
    have outside : Place.ordered.holds (stage fr) = false := by simp [was, Place.holds]
    exact inv.room outside
  case sendJobs =>
    intro fr rest todo here
    obtain ⟨o, f, was⟩ := inv.stage_at .unsent fr (by simp [here])
    have outside : jobs.holds (stage fr) = false := by simp [was, Place.holds]
    exact inv.room outside
  case sendFree =>
    intro fr m here
    have was : stage fr = .give := inv.stage_at .give fr (by simp [here])
    have outside : Place.free.holds (stage fr) = false := by simp [was, Place.holds]
    exact inv.room outside
  case sendReady =>
    intro fr member
    obtain ⟨o, f, was⟩ := inv.busy _ member
    have view := inv.views (inv.not_clearing (.inr (.inr fun none => by simp [none] at member))) fr
    rw [was] at view
    exact view.1
  case apart => exact s.buffers.single
  case outside => exact fun a x here => (s.buffers.held a x here).2
  case cleared =>
    rintro d here ⟨fr, side⟩
    obtain ⟨input, output⟩ := (inv.cleared d _ here).2 fr fr.isLt
    cases side with
    | input => exact Option.map_eq_none_iff.mp input
    | output => exact Option.map_eq_none_iff.mp output

inductive MayReturn (s : State ε) : FrameId × Side → Prop
  /-- The consumer releases a frame whose worker has signalled. -/
  | released {fr : FrameId} {side : Side} (m : Option Mode) (here : s.consumer = .put fr m)
      (signalled : (s.frames fr).signalled = true) (idle : fr ∉ s.decoding) : MayReturn s (fr, side)
  /-- The fetcher and all workers have returned. -/
  | stopped {fr : FrameId} {side : Side} (d : Dropped) (here : s.consumer = .clearing d fr.val) (joined : s.joined) :
      MayReturn s (fr, side)
  /-- The worker of a compressed chunk has decoded it into the other buffer. -/
  | decoded {fr : FrameId} (r : Result) (f : Fetched) (here : (fr, Work.decoded r) ∈ s.busy)
      (job : (s.frames fr).job = some f) (compressed : f.header.compression ≠ Xorb.compressionNone) :
      MayReturn s (fr, .input)

/-- What a step does to the buffers of the frames: it fills empty slots, and a buffer that leaves its
slot goes to the pool and leaves the slot empty. -/
structure Hands (s s' : State ε) : Prop where
  taken : ∀ a x, s'.buffers.holds a = some x → s.buffers.holds a = some x ∨ s.buffers.holds a = none
  returned : ∀ a x, s.buffers.holds a = some x → s'.buffers.holds a = some x ∨
    s'.buffers.holds a = none ∧ x ∈ s'.buffers.spare ∧ MayReturn s a

theorem Hands.same (same : s'.buffers.holds = s.buffers.holds) : Hands s s' :=
  ⟨fun _ _ here => .inl (same ▸ here), fun _ _ here => .inl (same ▸ here)⟩

theorem Hands.gets {a : FrameId × Side} (gets : s.buffers.Gets a s'.buffers) (empty : s.buffers.holds a = none) :
    Hands s s' := by
  refine ⟨fun b x here => ?_, fun b x here => .inl ?_⟩
  · by_cases same : b = a
    · exact .inr (same ▸ empty)
    · exact .inl ((gets.holds_ne same).symm.trans here)
  · have different : b ≠ a := fun same => absurd ((same ▸ here).symm.trans empty) (by simp)
    exact (gets.holds_ne different).trans here

theorem Hands.put {a : FrameId × Side} (may : MayReturn s a) (put : s'.buffers = s.buffers.put a) : Hands s s' := by
  refine ⟨fun b x here => ?_, fun b x here => ?_⟩
  · rw [put] at here
    exact .inl (holds_of_put here)
  · rw [put]
    rcases put_returned a here with there | ⟨rfl, empty, back⟩
    · exact .inl there
    · exact .inr ⟨empty, back, may⟩

theorem Hands.putBufs (may : ∀ side, MayReturn s (fr, side)) (put : s'.buffers = (s.putBufs fr).buffers) :
    Hands s s' := by
  refine ⟨fun b x here => ?_, fun b x here => ?_⟩
  · rw [put] at here
    exact .inl (holds_of_put (holds_of_put here))
  · rw [put]
    rcases put_returned (fr, .input) here with there | ⟨rfl, empty, back⟩
    · rcases put_returned (fr, .output) there with still | ⟨rfl, empty, back⟩
      · exact .inl still
      · exact .inr ⟨empty, back, may _⟩
    · refine .inr ⟨?_, spare_put back, may _⟩
      cases after : (s.putBufs fr).buffers.holds (fr, .input) with
      | none => rfl
      | some y => exact absurd (empty.symm.trans (holds_of_put after)) (by simp)

theorem FetchStep.hands (step : FetchStep s s') (inv : Inv lz4 script s stage) : Hands s s' := by
  cases step with
  | getInput fr rest todo p here more gets =>
    have was : stage fr = .taken := inv.stage_at .taken fr (by simp [here])
    have view := inv.views (inv.not_clearing (.inl (by simp [here]))) fr
    rw [was] at view
    exact .gets gets (Option.map_eq_none_iff.mp view.input)
  | read => exact .same holds_write
  | failRead => exact .same holds_write
  | _ => exact .same rfl

theorem WorkStep.hands (step : WorkStep lz4 s s') (inv : Inv lz4 script s stage) : Hands s s' := by
  cases step with
  | getOutput fr before after f p here job compressed gets =>
    obtain ⟨o, f', -, ⟨-, empty⟩, -⟩ := inv.busy_frame here
    exact .gets gets (Option.map_eq_none_iff.mp empty)
  | decodePacked => exact .same holds_write
  | putInput fr before after r here =>
    obtain ⟨o, f, -, ⟨-, ⟨job, compressed⟩, -⟩, -⟩ := inv.busy_frame here
    exact .put (.decoded r f (by simp [here]) job compressed) rfl
  | _ => exact .same rfl

theorem ConsumeStep.hands (step : ConsumeStep s s') (inv : Inv lz4 script s stage) : Hands s s' := by
  cases step with
  | putBufs fr m here =>
    obtain ⟨f, was⟩ := inv.stage_at .put fr (by simp [here])
    have settled := inv.views (by simp [here]) fr
    rw [was] at settled
    refine .putBufs (fun side => .released m here settled.signalled fun working => ?_) rfl
    obtain ⟨k, among, there⟩ : ∃ k ∈ [unsent, .jobs, .busy], fr ∈ k.frames s := by
      simpa [State.decoding, or_assoc] using working
    obtain ⟨o, f', g, flight⟩ := holds_decoding among (((inv.places k).mem fr).mp there)
    cases was.symm.trans flight
  | clear d fr here =>
    exact .putBufs (fun side => .stopped d here (inv.cleared d _ here).1) rfl
  | _ => exact .same rfl

theorem Step.hands (step : Step lz4 s s') (inv : Inv lz4 script s stage) : Hands s s' := by
  cases step with
  | fetch _ step => exact step.hands inv
  | work _ step => exact step.hands inv
  | consume _ step => exact step.hands inv
  | cancel => exact .same rfl
  | other p step => exact .same step.holds

/-- In every state that any order of steps leads to, the chunks come out in order and unchanged, every
frame has one owner and no send blocks; and every further step returns a buffer once, and only then when
nobody needs it. -/
theorem pipeline_safe (lz4 : Xorb.Lz4) (script : List (TermFetch ε)) (workers : Nat) (p : Buffers) (s : State ε)
    (reach : Reach lz4 script workers p s) : Safe lz4 script s ∧ ∀ s', Step lz4 s s' → Hands s s' := by
  obtain ⟨stage, inv⟩ := reach.inv
  exact ⟨inv.safe, fun s' step => step.hands inv⟩

def sampleChunk : Fetched :=
  ⟨.zero, 0, ⟨18, 3, Xorb.compressionLZ4⟩, [0, 18, 0, 0, 1, 3, 0, 0] ++ Xorb.sampleFrame⟩

def letterChunk : Fetched := ⟨.zero, 1, ⟨1, 1, Xorb.compressionNone⟩, [0, 1, 0, 0, 0, 1, 0, 0, 65]⟩

def sampleScript : List (TermFetch Empty) := [⟨[sampleChunk], .done⟩, ⟨[letterChunk], .done⟩]

def noSlot (_ : FrameId × Side) : Option Nat := none

def emptyPool : Buffers where
  holds := noSlot
  mem _ := []
  spare := []
  others := []
  next := 0
  apart := List.nodup_nil
  below := nofun
  held := nofun
  single := nofun

theorem sampleChunk_decode : sampleChunk.decode Xorb.sampleLz4 = .ok Xorb.sampleChunk := by decide +kernel

theorem letterChunk_decode : letterChunk.decode Xorb.sampleLz4 = .ok [65] := by decide +kernel

def firstFrame : FrameId := ⟨0, by decide⟩

def secondFrame : FrameId := ⟨1, by decide⟩

/-- Both chunks are with a worker, and the first one is decoded. -/
structure SampleDecoded (s : State Empty) : Prop where
  reach : Reach Xorb.sampleLz4 sampleScript 2 emptyPool s
  busy : s.busy = [(secondFrame, .got), (firstFrame, .decoded (.data ⟨2, 0, 3⟩))]
  first : s.frames firstFrame = ⟨some sampleChunk, none, none, false, false⟩
  second : s.frames secondFrame = ⟨some letterChunk, none, none, false, false⟩
  input : s.buffers.holds (firstFrame, .input) = some 0
  letter : s.buffers.cell (secondFrame, .input) = some (1, letterChunk.packed)
  ordered : s.ordered = [firstFrame, secondFrame]
  consumer : s.consumer = .idle
  log : s.log = []
  live : s.canceled = false

def sampleResult (buffer start : Nat) : Except Xorb.ChunkError Bytes → Result
  | .ok d => .data ⟨buffer, start, d.length⟩
  | .error e => .failed e

theorem sample_decoded : ∃ s, SampleDecoded s := by
  have run : Reach Xorb.sampleLz4 sampleScript 2 emptyPool _ := .start
  have run := run.step (.fetch _ (.nextTerm _ _ _ rfl))
  have run := run.step (.fetch _ (.acquire _ _ _ _ _ rfl rfl))
  have run := run.step (.fetch _ (.getInput _ _ _ _ _ rfl (.inl (by simp)) .new))
  have run := run.step (.fetch _ (.read _ _ _ _ _ _ rfl))
  have run := run.step (.fetch _ (.sendOrdered _ _ _ _ rfl (by decide)))
  have run := run.step (.fetch _ (.sendJob _ _ _ _ rfl (by decide)))
  have run := run.step (.fetch _ (.endTerm _ _ rfl))
  have run := run.step (.fetch _ (.nextTerm _ _ _ rfl))
  have run := run.step (.fetch _ (.acquire _ _ _ _ _ rfl rfl))
  have run := run.step (.fetch _ (.getInput _ _ _ _ _ rfl (.inl (by simp)) .new))
  have run := run.step (.fetch _ (.read _ _ _ _ _ _ rfl))
  have run := run.step (.fetch _ (.sendOrdered _ _ _ _ rfl (by decide)))
  have run := run.step (.fetch _ (.sendJob _ _ _ _ rfl (by decide)))
  have run := run.step (.work _ (.receive _ _ _ _ rfl rfl))
  have run := run.step (.work _ (.receive _ _ _ _ rfl rfl))
  have run := run.step (.work _ (.getOutput _ firstFrame [_] [] _ _ rfl rfl (by decide) .new))
  have run := run.step (.work _ (.decodePacked _ firstFrame [_] [] _ _ _ _ _ Xorb.sampleChunk rfl rfl rfl rfl (by
    intro d decoded
    cases sampleChunk_decode.symm.trans decoded
    exact prefix_rfl)))
  refine ⟨_, run, ?_, rfl, rfl, rfl, rfl, rfl, rfl, rfl, rfl⟩
  exact congrArg (fun r => [(secondFrame, Work.got), (firstFrame, Work.decoded (sampleResult 2 0 r))]) sampleChunk_decode

/-- The second chunk is ready before the first one. -/
theorem sample_signalled : ∃ s, Reach Xorb.sampleLz4 sampleScript 2 emptyPool s ∧ s.consumer = .idle ∧
    s.ordered = [firstFrame, secondFrame] ∧ s.log = [] ∧ s.canceled = false ∧
    ((s.frames firstFrame).err = none ∧ (s.frames firstFrame).ready = true) ∧
    (s.frames secondFrame).err = none ∧ (s.frames secondFrame).ready = true := by
  obtain ⟨s, sample⟩ := sample_decoded
  have other : firstFrame ≠ secondFrame := by decide
  have run := sample.reach
  have run := run.step (.work _ (.decodeStored _ _ [] _ _ _ _ sample.busy (by rw [sample.second]) rfl sample.letter))
  have run := run.step (.work _ (.finish _ _ [] _ (.data ⟨1, 8, 1⟩) (by
    exact congrArg (fun r => (secondFrame, Work.done (sampleResult 1 8 r)) :: _) letterChunk_decode)))
  have run := run.step (.work _ (.signal _ _ [] _ rfl (by simp [sample.second])))
  have run := run.step (.work _ (.putInput _ _ [] [] _ rfl))
  have run := run.step (.work _ (.finish _ _ [] [] _ rfl))
  have run := run.step (.work _ (.signal _ _ [] [] rfl (by simp [other, sample.first])))
  refine ⟨_, run, sample.consumer, sample.ordered, sample.log, sample.live, ?_⟩
  simp [other, other.symm]

theorem sample_delivered : ∃ s, Reach Xorb.sampleLz4 sampleScript 2 emptyPool s ∧ s.log.length = 2 := by
  obtain ⟨s, run, consumer, ordered, log, live, ⟨first, firstReady⟩, second, secondReady⟩ := sample_signalled
  have other : firstFrame ≠ secondFrame := by decide
  have run := run.step (.consume _ (.call _ .next consumer))
  have run := run.step (.consume _ (.receive _ _ _ _ rfl ordered))
  have run := run.step (.consume _ (.receiveReady _ _ _ rfl firstReady))
  have run := run.step (.consume _ (.deliver _ _ rfl (by simpa using first) live))
  have run := run.step (.consume _ (.call _ .next rfl))
  have run := run.step (.consume _ (.receive _ _ _ _ rfl rfl))
  have run := run.step (.consume _ (.receiveReady _ _ secondFrame rfl (by simpa [other.symm] using secondReady)))
  have run := run.step (.consume _ (.deliver _ _ rfl (by simpa [other.symm] using second) live))
  exact ⟨_, run, by simp [log]⟩

/-- The chunks come out in order. -/
theorem sample_safe : ∃ s, Reach Xorb.sampleLz4 sampleScript 2 emptyPool s ∧ s.log = [Xorb.sampleChunk, [65]] ∧
    Safe Xorb.sampleLz4 sampleScript s := by
  obtain ⟨s, run, count⟩ := sample_delivered
  have safe := (pipeline_safe _ _ _ _ _ run).1
  have delivered := safe.delivered
  rw [count] at delivered
  have decoded : Forall₂ (fun f d => f.decode Xorb.sampleLz4 = .ok d) ((allChunks sampleScript).1.take 2)
      [Xorb.sampleChunk, [65]] := .cons sampleChunk_decode (.cons letterChunk_decode .nil)
  exact ⟨s, run, right_unique_forall₂' (fun f d d' one two => Except.ok.inj (one.symm.trans two)) delivered decoded, safe⟩

/-- The worker returns the buffer it has decoded from before it signals, while it is still running. -/
theorem input_returned_before_signal : ∃ s s' : State Empty, Reach Xorb.sampleLz4 sampleScript 2 emptyPool s ∧
    Step Xorb.sampleLz4 s s' ∧ s.buffers.holds (firstFrame, .input) = some 0 ∧
    s'.buffers.holds (firstFrame, .input) = none ∧ (s'.frames firstFrame).signalled = false ∧ ¬ s'.joined := by
  obtain ⟨s, sample⟩ := sample_decoded
  refine ⟨s, _, sample.reach, .work _ (.putInput _ _ [_] [] _ sample.busy), sample.input, ?_, ?_, ?_⟩
  · exact Option.map_eq_none_iff.mp Pool.cell_put_self
  · simp [sample.first]
  · simp [State.joined]

end Xet.Pipeline
