import Xet.Pipeline.Machine

/-! What every state of the pipeline keeps. Each frame is at one stage; the stage says in which channels
and hands it is, what its buffers hold, and which chunk it carries. -/
namespace Xet.Pipeline
open Wire Places Function

inductive Owner where
  | queue
  | consumer
  | dropped
  deriving DecidableEq

inductive Progress where
  | unsent
  | queued
  | busy (w : Work)
  | ready
  deriving DecidableEq

inductive Stage where
  | free
  | taken
  | buffered
  | kept
  | filled (f : Fetched)
  | flight (o : Owner) (f : Fetched) (g : Progress)
  | got (f : Fetched)
  | lost (f : Fetched)
  | held (f : Fetched)
  | put (f : Fetched)
  | give
  deriving DecidableEq

@[simp]
def Stage.chunk : Stage → Option Fetched
  | .filled f => some f
  | .flight _ f _ => some f
  | .got f => some f
  | .lost f => some f
  | _ => none

/-- The places a frame can be at. A frame in flight is at two of them: with its owner, and somewhere on
its way to the signal. -/
inductive Place where
  | free
  | taken
  | buffered
  | kept
  | filled
  | ordered
  | waiting
  | dropped
  | unsent
  | jobs
  | busy
  | got
  | lost
  | held
  | put
  | give
  deriving DecidableEq

def Place.holds : Place → Stage → Bool
  | .free, .free => true
  | .taken, .taken => true
  | .buffered, .buffered => true
  | .kept, .kept => true
  | .filled, .filled _ => true
  | .ordered, .flight .queue _ _ => true
  | .waiting, .flight .consumer _ _ => true
  | .dropped, .flight .dropped _ _ => true
  | .unsent, .flight _ _ .unsent => true
  | .jobs, .flight _ _ .queued => true
  | .busy, .flight _ _ (.busy _) => true
  | .got, .got _ => true
  | .lost, .lost _ => true
  | .held, .held _ => true
  | .put, .put _ => true
  | .give, .give => true
  | _, _ => false

def Place.Shape (st : Stage) : Place → Prop
  | .free => st = .free
  | .taken => st = .taken
  | .buffered => st = .buffered
  | .kept => st = .kept
  | .filled => ∃ f, st = .filled f
  | .ordered => ∃ f g, st = .flight .queue f g
  | .waiting => ∃ f g, st = .flight .consumer f g
  | .dropped => ∃ f g, st = .flight .dropped f g
  | .unsent => ∃ o f, st = .flight o f .unsent
  | .jobs => ∃ o f, st = .flight o f .queued
  | .busy => ∃ o f g, st = .flight o f (.busy g)
  | .got => ∃ f, st = .got f
  | .lost => ∃ f, st = .lost f
  | .held => ∃ f, st = .held f
  | .put => ∃ f, st = .put f
  | .give => st = .give

theorem Place.shape_of_holds {st : Stage} {place : Place} (holds : place.holds st = true) : place.Shape st := by
  cases st with
  | flight o f g => cases place <;> cases o <;> cases g <;> simp_all [Place.holds, Place.Shape]
  | _ => cases place <;> simp_all [Place.holds, Place.Shape]

section
variable {ε : Type}

@[simp]
def Consumer.dropped : Consumer ε → Dropped
  | .failed _ d => d
  | .joining d => d
  | .clearing d _ => d
  | _ => .none

@[simp]
def Place.frames (s : State ε) : Place → List FrameId
  | .free => s.free
  | .taken => match s.fetcher with
    | .taken fr _ _ => [fr]
    | _ => []
  | .buffered => match s.fetcher with
    | .buffered fr _ _ => [fr]
    | _ => []
  | .kept => match s.fetcher with
    | .closing fr => fr.toList
    | .closingJobs fr => fr.toList
    | .exited fr => fr.toList
    | _ => []
  | .filled => match s.fetcher with
    | .filled fr _ _ => [fr]
    | _ => []
  | .ordered => s.ordered
  | .waiting => match s.consumer with
    | .ready _ fr => [fr]
    | _ => []
  | .dropped => match s.consumer.dropped with
    | .waiting fr => [fr]
    | _ => []
  | .unsent => match s.fetcher with
    | .sent fr _ _ => [fr]
    | _ => []
  | .jobs => s.jobs
  | .busy => s.busy.map Prod.fst
  | .got => match s.consumer with
    | .got _ fr => [fr]
    | _ => []
  | .lost => match s.consumer.dropped with
    | .got fr => [fr]
    | _ => []
  | .held => s.held.map Prod.fst
  | .put => match s.consumer with
    | .put fr _ => [fr]
    | _ => []
  | .give => match s.consumer with
    | .give fr _ => [fr]
    | _ => []

/-- The frames that carry chunks the consumer has not taken yet, in order. -/
@[simp]
def State.flight (s : State ε) : List FrameId :=
  Place.frames s .waiting ++ Place.frames s .dropped ++ Place.frames s .got ++ Place.frames s .lost ++ s.ordered ++
    Place.frames s .filled

structure View where
  frame : Frame
  input : Option (Nat × Bytes)
  output : Option (Nat × Bytes)

def State.view (s : State ε) (fr : FrameId) : View :=
  ⟨s.frames fr, s.buffers.cell (fr, .input), s.buffers.cell (fr, .output)⟩

def Slice.Reads (sl : Slice) (cell : Option (Nat × Bytes)) (d : Bytes) : Prop :=
  ∃ bytes, cell = some (sl.buffer, bytes) ∧ (bytes.drop sl.start).take sl.size = d

structure View.Blank (v : View) : Prop where
  input : v.input = none
  output : v.output = none
  quiet : v.frame.ready = false

structure View.Loaded (v : View) (f : Fetched) : Prop where
  job : v.frame.job = some f
  input : ∃ b bytes, v.input = some (b, bytes) ∧ f.packed <+: bytes
  quiet : v.frame.ready = false

/-- The result belongs to the chunk, and its bytes are in a buffer of the frame. -/
def Result.Fits (lz4 : Xorb.Lz4) (f : Fetched) (cell : Slice → Bytes → Prop) : Result → Prop
  | .data sl => ∃ d, f.decode lz4 = .ok d ∧ cell sl d
  | .failed e => f.decode lz4 = .error e

def View.Reads (v : View) (sl : Slice) (d : Bytes) : Prop := sl.Reads v.input d ∨ sl.Reads v.output d

def View.Finished (lz4 : Xorb.Lz4) (v : View) (f : Fetched) : Prop :=
  (∃ sl d, v.frame.data = some sl ∧ v.frame.err = none ∧ f.decode lz4 = .ok d ∧ v.Reads sl d) ∨
  ∃ e, v.frame.err = some e ∧ f.decode lz4 = .error e

structure View.Settled (lz4 : Xorb.Lz4) (v : View) (f : Fetched) : Prop where
  quiet : v.frame.ready = false
  signalled : v.frame.signalled = true
  finished : v.Finished lz4 f

def Work.Fits (lz4 : Xorb.Lz4) (v : View) (f : Fetched) : Work → Prop
  | .got => v.Loaded f ∧ v.output = none
  | .buffered => v.Loaded f ∧ f.header.compression ≠ Xorb.compressionNone ∧ ∃ o bytes, v.output = some (o, bytes)
  | .decoded r => v.frame.ready = false ∧ (v.frame.job = some f ∧ f.header.compression ≠ Xorb.compressionNone) ∧
    r.Fits lz4 f fun sl d => sl.Reads v.output d
  | .done r => v.frame.ready = false ∧ r.Fits lz4 f v.Reads
  | .signal => v.frame.ready = false ∧ v.Finished lz4 f

def Stage.Fits (lz4 : Xorb.Lz4) (v : View) : Stage → Prop
  | .free => v.Blank
  | .taken => v.Blank
  | .buffered => v.output = none ∧ v.frame.ready = false ∧ ∃ b bytes, v.input = some (b, bytes)
  | .kept => True
  | .filled f => v.Loaded f ∧ v.output = none
  | .flight _ f .unsent => v.Loaded f ∧ v.output = none
  | .flight _ f .queued => v.Loaded f ∧ v.output = none
  | .flight _ f (.busy w) => w.Fits lz4 v f
  | .flight _ f .ready => v.frame.ready = true ∧ v.frame.signalled = true ∧ v.Finished lz4 f
  | .got f => v.Settled lz4 f
  | .lost _ => True
  | .held f => v.Settled lz4 f
  | .put f => v.Settled lz4 f
  | .give => v.Blank

/-- The terms the fetcher still has to read, from the rest of the current one on. -/
@[simp]
def Fetcher.ahead : Fetcher ε → Option (List (TermFetch ε))
  | .terms todo => some todo
  | .acquire rest todo => some (rest :: todo)
  | .taken _ rest todo => some (rest :: todo)
  | .buffered _ rest todo => some (rest :: todo)
  | .filled _ rest todo => some (rest :: todo)
  | .sent _ rest todo => some (rest :: todo)
  | .turn rest todo => some (rest :: todo)
  | .closing _ => none
  | .closingJobs _ => none
  | .exited _ => none

def Stopped (script : List (TermFetch ε)) (canceled : Bool) (read : List Fetched) : Option (PipelineError ε) → Prop
  | none => allChunks script = (read, none)
  | some (.fetch e) => allChunks script = (read, some e)
  | some .canceled => canceled = true ∧ ∃ rest e, allChunks script = (read ++ rest, e)

def Ahead (script : List (TermFetch ε)) (s : State ε) (read : List Fetched) : Prop :=
  match s.fetcher.ahead with
  | some todo => s.err = none ∧ allChunks script = (read ++ (allChunks todo).1, (allChunks todo).2)
  | none => Stopped script s.canceled read s.err

def Ended (lz4 : Xorb.Lz4) (script : List (TermFetch ε)) (canceled : Bool) (count : Nat) : StopReason ε → Prop
  | .canceled => canceled = true
  | .eof => count = (allChunks script).1.length ∧ (allChunks script).2 = none
  | .fetch e => count = (allChunks script).1.length ∧ (allChunks script).2 = some e
  | .decode e => ∃ f, (allChunks script).1[count]? = some f ∧ f.decode lz4 = .error e

/-- The consumer is past the point where all others have returned. -/
@[simp]
def Consumer.isClearing : Consumer ε → Bool
  | .clearing _ _ => true
  | _ => false

structure Inv (lz4 : Xorb.Lz4) (script : List (TermFetch ε)) (s : State ε) (stage : FrameId → Stage) : Prop where
  places : ∀ k : Place, Tracks (k.frames s) fun fr => k.holds (stage fr) = true
  busy : ∀ p ∈ s.busy, ∃ o f, stage p.1 = .flight o f (.busy p.2)
  held : ∀ p ∈ s.held, ∃ f, stage p.1 = .held f ∧ f.decode lz4 = .ok p.2
  views : s.consumer.isClearing = false → ∀ fr, (stage fr).Fits lz4 (s.view fr)
  cleared : ∀ d n, s.consumer = .clearing d n → s.joined ∧ ∀ fr : FrameId, fr.val < n →
    s.buffers.cell (fr, .input) = none ∧ s.buffers.cell (fr, .output) = none
  order : ∃ seen mid, List.Forall₂ (fun f d => f.decode lz4 = .ok d) seen s.log ∧
    List.Forall₂ (fun fr f => (stage fr).chunk = some f) s.flight mid ∧ Ahead script s (seen ++ mid)
  closed : s.orderedClosed = true → s.fetcher.ahead = none
  ended : ∀ reason d, s.consumer = .failed reason d → Ended lz4 script s.canceled s.log.length reason
  drained : s.drained = true → s.log.length = (allChunks script).1.length ∧ (allChunks script).2 = none

section
variable {lz4 : Xorb.Lz4} {script : List (TermFetch ε)} {s s' : State ε} {stage : FrameId → Stage} {fr : FrameId}
variable {new : Stage}

theorem Inv.stage_at (inv : Inv lz4 script s stage) (place : Place) (fr : FrameId) (here : fr ∈ place.frames s) :
    place.Shape (stage fr) :=
  Place.shape_of_holds (((inv.places place).mem fr).mp here)

/-- The frame leaves the place if the old stage is there, comes to it if the new one is, and no other frame moves. -/
@[simp]
def Place.Moved (k : Place) (s s' : State ε) (fr : FrameId) (old new : Stage) : Prop :=
  (if k.holds old then k.frames s else fr :: k.frames s).Perm (if k.holds new then k.frames s' else fr :: k.frames s')

theorem places_move (places : ∀ k : Place, Tracks (k.frames s) fun x => k.holds (stage x) = true)
    (moved : ∀ k : Place, k.Moved s s' fr (stage fr) new) :
    ∀ k : Place, Tracks (k.frames s') fun x => k.holds (Function.update stage fr new x) = true := by
  intro k
  have before : Tracks (k.frames s) ((fun st => k.holds st = true) ∘ stage) := places k
  have step := moved k
  cases was : k.holds (stage fr) <;> cases now : k.holds new <;>
    simp only [Place.Moved, was, now, Bool.false_eq_true, if_true, if_false] at step
  · exact (before.stay (by simp [was, now])).perm step.cons_inv
  · exact before.enter (by simp [was]) now step
  · exact before.leave (by simp [now]) step
  · exact (before.stay (by simp [was, now])).perm step

theorem views_move (views : ∀ x, (stage x).Fits lz4 (s.view x)) (same : ∀ x, x ≠ fr → s'.view x = s.view x)
    (fits : new.Fits lz4 (s'.view fr)) : ∀ x, (Function.update stage fr new x).Fits lz4 (s'.view x) := by
  intro x
  by_cases here : x = fr
  · subst here
    rwa [update_self]
  · rw [update_of_ne here, same x here]
    exact views x

theorem pairs_move {β : Type} {l : List (FrameId × β)} {P : Stage → β → Prop} (all : ∀ p ∈ l, P (stage p.1) p.2)
    (other : ∀ b, ¬ P (stage fr) b) : ∀ p ∈ l, P (Function.update stage fr new p.1) p.2 := by
  intro p member
  have different : p.1 ≠ fr := fun same => other p.2 (same ▸ all p member)
  rw [update_of_ne different]
  exact all p member

theorem chunks_move {l : List FrameId} {mid : List Fetched}
    (all : List.Forall₂ (fun x f => (stage x).chunk = some f) l mid) (same : fr ∈ l → new.chunk = (stage fr).chunk) :
    List.Forall₂ (fun x f => (Function.update stage fr new x).chunk = some f) l mid := by
  induction all with
  | nil => exact .nil
  | @cons x f l mid here rest ih =>
    refine .cons ?_ (ih fun member => same (List.mem_cons_of_mem x member))
    by_cases at_fr : x = fr
    · subst at_fr
      rw [update_self, same List.mem_cons_self, here]
    · rw [update_of_ne at_fr]
      exact here

theorem places_keep (places : ∀ k : Place, Tracks (k.frames s) fun x => k.holds (stage x) = true)
    (same : ∀ k : Place, k.frames s' = k.frames s) : ∀ k : Place, Tracks (k.frames s') fun x => k.holds (stage x) = true :=
  fun k => (same k) ▸ places k

end

end

end Xet.Pipeline
