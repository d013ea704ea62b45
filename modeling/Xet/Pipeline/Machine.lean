import Mathlib.Data.List.FinRange
import Xet.Lib.Places
import Xet.Lib.Pool
import Xet.Pipeline.Fetch

/-! The decode pipeline as a machine: a fetcher, several workers and the consumer run in any order and
pass frames through channels. Every step is one operation on a channel, on the pool of buffers, or on
what a frame holds. -/
namespace Xet.Pipeline
open Wire

def decodeWindow : Nat := 32

abbrev FrameId := Fin decodeWindow

inductive Side where
  | input
  | output
  deriving DecidableEq

abbrev Buffers := Pool (FrameId × Side)

structure Slice where
  buffer : Nat
  start : Nat
  size : Nat
  deriving DecidableEq

/-- The fields of a frame besides its buffers. `ready` is a signal nobody has received yet. -/
structure Frame where
  job : Option Fetched
  data : Option Slice
  err : Option Xorb.ChunkError
  ready : Bool
  /-- A worker has signalled since the frame was filled. -/
  signalled : Bool
  deriving DecidableEq

def Frame.blank : Frame := ⟨none, none, none, false, false⟩

/-- Where the fetcher is, with the rest of its term and the terms behind it. -/
inductive Fetcher (ε : Type) where
  | terms (todo : List (TermFetch ε))
  | acquire (rest : TermFetch ε) (todo : List (TermFetch ε))
  | taken (fr : FrameId) (rest : TermFetch ε) (todo : List (TermFetch ε))
  | buffered (fr : FrameId) (rest : TermFetch ε) (todo : List (TermFetch ε))
  | filled (fr : FrameId) (rest : TermFetch ε) (todo : List (TermFetch ε))
  | sent (fr : FrameId) (rest : TermFetch ε) (todo : List (TermFetch ε))
  | turn (rest : TermFetch ε) (todo : List (TermFetch ε))
  /-- It has stopped, perhaps with a frame it could not fill. -/
  | closing (kept : Option FrameId)
  | closingJobs (kept : Option FrameId)
  | exited (kept : Option FrameId)

inductive Result where
  | data (slice : Slice)
  | failed (e : Xorb.ChunkError)
  deriving DecidableEq

inductive Work where
  | got
  | buffered
  | decoded (r : Result)
  | done (r : Result)
  | signal
  deriving DecidableEq

inductive Mode where
  | next
  | drain
  deriving DecidableEq

inductive StopReason (ε : Type) where
  | canceled
  | eof
  | fetch (e : FetchError ε)
  | decode (e : Xorb.ChunkError)
  deriving DecidableEq

/-- The frame that a failed call had taken off the queue, before or after its signal. -/
inductive Dropped where
  | none
  | waiting (fr : FrameId)
  | got (fr : FrameId)
  deriving DecidableEq

inductive Consumer (ε : Type) where
  | idle
  | wait (m : Mode)
  | ready (m : Mode) (fr : FrameId)
  | got (m : Mode) (fr : FrameId)
  /-- Releasing a frame, for a drain or for its own sake. -/
  | put (fr : FrameId) (m : Option Mode)
  | give (fr : FrameId) (m : Option Mode)
  | failed (reason : StopReason ε) (dropped : Dropped)
  | joining (dropped : Dropped)
  | clearing (dropped : Dropped) (count : Nat)

inductive PipelineError (ε : Type) where
  | canceled
  | fetch (e : FetchError ε)
  deriving DecidableEq

structure State (ε : Type) where
  frames : FrameId → Frame
  buffers : Buffers
  free : List FrameId
  jobs : List FrameId
  ordered : List FrameId
  jobsClosed : Bool
  orderedClosed : Bool
  canceled : Bool
  err : Option (PipelineError ε)
  fetcher : Fetcher ε
  /-- The number of workers that wait for a job. -/
  idle : Nat
  busy : List (FrameId × Work)
  consumer : Consumer ε
  /-- The frames that `next` returned and that are not released yet, with what they held then. -/
  held : List (FrameId × Bytes)
  /-- The chunks that `next` returned and that a drain passed over, in this order. -/
  log : List Bytes
  /-- A drain has seen the end. -/
  drained : Bool

variable {ε : Type}

def Slice.read (sl : Slice) (p : Buffers) : Bytes := ((p.mem sl.buffer).drop sl.start).take sl.size

def State.bytesOf (s : State ε) (fr : FrameId) : Bytes :=
  match (s.frames fr).data with
  | none => []
  | some sl => sl.read s.buffers

def State.putBufs (s : State ε) (fr : FrameId) : State ε :=
  { s with
    buffers := (s.buffers.put (fr, .input)).put (fr, .output)
    frames := Function.update s.frames fr { s.frames fr with data := none } }

def State.joined (s : State ε) : Prop := (∃ kept, s.fetcher = .exited kept) ∧ s.idle = 0 ∧ s.busy = []

/-- The pipeline at its start: all frames are free, and none has a buffer. -/
def start (script : List (TermFetch ε)) (workers : Nat) (p : Buffers) : State ε where
  frames _ := .blank
  buffers := { p with
    holds := fun _ => none
    held := nofun
    single := nofun }
  free := List.finRange decodeWindow
  jobs := []
  ordered := []
  jobsClosed := false
  orderedClosed := false
  canceled := false
  err := none
  fetcher := .terms script
  idle := workers
  busy := []
  consumer := .idle
  held := []
  log := []
  drained := false

def bodyIn (f : Fetched) (bytes : Bytes) : Bytes := (bytes.take f.packed.length).drop Xorb.chunkHeaderSize

inductive FetchStep : State ε → State ε → Prop
  | nextTerm (s : State ε) (t : TermFetch ε) (todo : List (TermFetch ε)) (here : s.fetcher = .terms (t :: todo)) :
      FetchStep s { s with fetcher := .acquire t todo }
  | lastTerm (s : State ε) (here : s.fetcher = .terms []) : FetchStep s { s with fetcher := .closing none }
  | acquire (s : State ε) (rest : TermFetch ε) (todo : List (TermFetch ε)) (fr : FrameId) (free : List FrameId)
      (here : s.fetcher = .acquire rest todo) (got : s.free = fr :: free) :
      FetchStep s { s with fetcher := .taken fr rest todo, free := free }
  | acquireCanceled (s : State ε) (rest : TermFetch ε) (todo : List (TermFetch ε))
      (here : s.fetcher = .acquire rest todo) (canceled : s.canceled = true) :
      FetchStep s { s with fetcher := .closing none, err := some .canceled }
  | failTaken (s : State ε) (fr : FrameId) (e : FetchError ε) (todo : List (TermFetch ε))
      (here : s.fetcher = .taken fr ⟨[], .taken e⟩ todo) :
      FetchStep s { s with fetcher := .closing (some fr), err := some (.fetch e) }
  | getInput (s : State ε) (fr : FrameId) (rest : TermFetch ε) (todo : List (TermFetch ε)) (p : Buffers)
      (here : s.fetcher = .taken fr rest todo) (more : rest.chunks ≠ [] ∨ ∃ bytes e, rest.stop = .buffered bytes e)
      (gets : s.buffers.Gets (fr, .input) p) :
      FetchStep s { s with fetcher := .buffered fr rest todo, buffers := p }
  | read (s : State ε) (fr : FrameId) (f : Fetched) (rest : List Fetched) (stop : FetchEnd ε)
      (todo : List (TermFetch ε)) (here : s.fetcher = .buffered fr ⟨f :: rest, stop⟩ todo) :
      FetchStep s { s with
        fetcher := .filled fr ⟨rest, stop⟩ todo
        buffers := s.buffers.write (fr, .input) f.packed
        frames := Function.update s.frames fr { s.frames fr with job := some f, signalled := false } }
  | failRead (s : State ε) (fr : FrameId) (bytes : Bytes) (e : FetchError ε) (todo : List (TermFetch ε))
      (here : s.fetcher = .buffered fr ⟨[], .buffered bytes e⟩ todo) :
      FetchStep s { s with
        fetcher := .closing (some fr)
        buffers := s.buffers.write (fr, .input) bytes
        err := some (.fetch e) }
  | sendOrdered (s : State ε) (fr : FrameId) (rest : TermFetch ε) (todo : List (TermFetch ε))
      (here : s.fetcher = .filled fr rest todo) (room : s.ordered.length < decodeWindow) :
      FetchStep s { s with fetcher := .sent fr rest todo, ordered := s.ordered ++ [fr] }
  | sendJob (s : State ε) (fr : FrameId) (rest : TermFetch ε) (todo : List (TermFetch ε))
      (here : s.fetcher = .sent fr rest todo) (room : s.jobs.length < decodeWindow) :
      FetchStep s { s with fetcher := .turn rest todo, jobs := s.jobs ++ [fr] }
  | again (s : State ε) (rest : TermFetch ε) (todo : List (TermFetch ε)) (here : s.fetcher = .turn rest todo)
      (more : rest.chunks ≠ [] ∨ (∃ e, rest.stop = .taken e) ∨ ∃ bytes e, rest.stop = .buffered bytes e) :
      FetchStep s { s with fetcher := .acquire rest todo }
  | endTerm (s : State ε) (todo : List (TermFetch ε)) (here : s.fetcher = .turn ⟨[], .done⟩ todo) :
      FetchStep s { s with fetcher := .terms todo }
  | failTerm (s : State ε) (e : FetchError ε) (todo : List (TermFetch ε)) (here : s.fetcher = .turn ⟨[], .idle e⟩ todo) :
      FetchStep s { s with fetcher := .closing none, err := some (.fetch e) }
  | closeOrdered (s : State ε) (kept : Option FrameId) (here : s.fetcher = .closing kept) :
      FetchStep s { s with fetcher := .closingJobs kept, orderedClosed := true }
  | closeJobs (s : State ε) (kept : Option FrameId) (here : s.fetcher = .closingJobs kept) :
      FetchStep s { s with fetcher := .exited kept, jobsClosed := true }

inductive WorkStep (lz4 : Xorb.Lz4) : State ε → State ε → Prop
  | receive (s : State ε) (fr : FrameId) (jobs : List FrameId) (idle : Nat) (got : s.jobs = fr :: jobs)
      (free : s.idle = idle + 1) :
      WorkStep lz4 s { s with jobs := jobs, idle := idle, busy := (fr, .got) :: s.busy }
  | exit (s : State ε) (idle : Nat) (closed : s.jobsClosed = true) (empty : s.jobs = []) (free : s.idle = idle + 1) :
      WorkStep lz4 s { s with idle := idle }
  | getOutput (s : State ε) (fr : FrameId) (before after : List (FrameId × Work)) (f : Fetched) (p : Buffers)
      (here : s.busy = before ++ (fr, .got) :: after) (job : (s.frames fr).job = some f)
      (compressed : f.header.compression ≠ Xorb.compressionNone) (gets : s.buffers.Gets (fr, .output) p) :
      WorkStep lz4 s { s with busy := before ++ (fr, .buffered) :: after, buffers := p }
  | decodeStored (s : State ε) (fr : FrameId) (before after : List (FrameId × Work)) (f : Fetched) (b : Nat)
      (bytes : Bytes) (here : s.busy = before ++ (fr, .got) :: after) (job : (s.frames fr).job = some f)
      (stored : f.header.compression = Xorb.compressionNone) (input : s.buffers.cell (fr, .input) = some (b, bytes)) :
      WorkStep lz4 s { s with
        busy := before ++ (fr, .done (match Xorb.decodeChunk lz4 0 0 f.header (bodyIn f bytes) with
          | .ok d => .data ⟨b, Xorb.chunkHeaderSize, d.length⟩
          | .error e => .failed e)) :: after }
  | decodePacked (s : State ε) (fr : FrameId) (before after : List (FrameId × Work)) (f : Fetched) (b o : Nat)
      (bytes old written : Bytes) (here : s.busy = before ++ (fr, .buffered) :: after)
      (job : (s.frames fr).job = some f) (input : s.buffers.cell (fr, .input) = some (b, bytes))
      (output : s.buffers.cell (fr, .output) = some (o, old))
      -- A failed decode may leave anything in the buffer, a good one what it decoded and scratch behind it.
      (writes : ∀ d, Xorb.decodeChunk lz4 frameBufSize frameBufSize f.header (bodyIn f bytes) = .ok d → d <+: written) :
      WorkStep lz4 s { s with
        buffers := s.buffers.write (fr, .output) written
        busy := before ++ (fr, .decoded (match Xorb.decodeChunk lz4 frameBufSize frameBufSize f.header (bodyIn f bytes) with
          | .ok d => .data ⟨o, 0, d.length⟩
          | .error e => .failed e)) :: after }
  | putInput (s : State ε) (fr : FrameId) (before after : List (FrameId × Work)) (r : Result)
      (here : s.busy = before ++ (fr, .decoded r) :: after) :
      WorkStep lz4 s { s with
        buffers := s.buffers.put (fr, .input)
        busy := before ++ (fr, .done r) :: after }
  | finish (s : State ε) (fr : FrameId) (before after : List (FrameId × Work)) (r : Result)
      (here : s.busy = before ++ (fr, .done r) :: after) :
      WorkStep lz4 s { s with
        frames := Function.update s.frames fr (match r with
          | .data sl => { s.frames fr with data := some sl, err := none }
          | .failed e => { s.frames fr with data := none, err := some e })
        busy := before ++ (fr, .signal) :: after }
  | signal (s : State ε) (fr : FrameId) (before after : List (FrameId × Work))
      (here : s.busy = before ++ (fr, .signal) :: after) (room : (s.frames fr).ready = false) :
      WorkStep lz4 s { s with
        frames := Function.update s.frames fr { s.frames fr with ready := true, signalled := true }
        busy := before ++ after
        idle := s.idle + 1 }

inductive ConsumeStep : State ε → State ε → Prop
  | call (s : State ε) (m : Mode) (here : s.consumer = .idle) : ConsumeStep s { s with consumer := .wait m }
  | receive (s : State ε) (m : Mode) (fr : FrameId) (ordered : List FrameId) (here : s.consumer = .wait m)
      (got : s.ordered = fr :: ordered) : ConsumeStep s { s with consumer := .ready m fr, ordered := ordered }
  | cancelWait (s : State ε) (m : Mode) (here : s.consumer = .wait m) (canceled : s.canceled = true) :
      ConsumeStep s { s with consumer := .failed .canceled .none }
  | closedError (s : State ε) (m : Mode) (e : PipelineError ε) (here : s.consumer = .wait m) (empty : s.ordered = [])
      (closed : s.orderedClosed = true) (why : s.err = some e) :
      ConsumeStep s { s with consumer := .failed (match e with
        | .canceled => .canceled
        | .fetch e => .fetch e) .none }
  | closedNext (s : State ε) (here : s.consumer = .wait .next) (empty : s.ordered = [])
      (closed : s.orderedClosed = true) (why : s.err = none) : ConsumeStep s { s with consumer := .failed .eof .none }
  | closedDrain (s : State ε) (here : s.consumer = .wait .drain) (empty : s.ordered = [])
      (closed : s.orderedClosed = true) (why : s.err = none) (live : s.canceled = false) :
      ConsumeStep s { s with consumer := .idle, drained := true }
  | receiveReady (s : State ε) (m : Mode) (fr : FrameId) (here : s.consumer = .ready m fr)
      (ready : (s.frames fr).ready = true) :
      ConsumeStep s { s with
        consumer := .got m fr
        frames := Function.update s.frames fr { s.frames fr with ready := false } }
  | cancelReady (s : State ε) (m : Mode) (fr : FrameId) (here : s.consumer = .ready m fr) (canceled : s.canceled = true) :
      ConsumeStep s { s with consumer := .failed .canceled (.waiting fr) }
  | failed (s : State ε) (m : Mode) (fr : FrameId) (e : Xorb.ChunkError) (here : s.consumer = .got m fr)
      (why : (s.frames fr).err = some e) : ConsumeStep s { s with consumer := .failed (.decode e) (.got fr) }
  | cancelGot (s : State ε) (fr : FrameId) (here : s.consumer = .got .next fr) (fine : (s.frames fr).err = none)
      (canceled : s.canceled = true) : ConsumeStep s { s with consumer := .failed .canceled (.got fr) }
  | deliver (s : State ε) (fr : FrameId) (here : s.consumer = .got .next fr) (fine : (s.frames fr).err = none)
      (live : s.canceled = false) :
      ConsumeStep s { s with
        consumer := .idle
        held := (fr, s.bytesOf fr) :: s.held
        log := s.log ++ [s.bytesOf fr] }
  | pass (s : State ε) (fr : FrameId) (here : s.consumer = .got .drain fr) (fine : (s.frames fr).err = none) :
      ConsumeStep s { s with consumer := .put fr (some .drain), log := s.log ++ [s.bytesOf fr] }
  | release (s : State ε) (fr : FrameId) (bytes : Bytes) (before after : List (FrameId × Bytes))
      (here : s.consumer = .idle) (held : s.held = before ++ (fr, bytes) :: after) :
      ConsumeStep s { s with consumer := .put fr none, held := before ++ after }
  | putBufs (s : State ε) (fr : FrameId) (m : Option Mode) (here : s.consumer = .put fr m) :
      ConsumeStep s { s.putBufs fr with consumer := .give fr m }
  | give (s : State ε) (fr : FrameId) (m : Option Mode) (here : s.consumer = .give fr m)
      (room : s.free.length < decodeWindow) :
      ConsumeStep s { s with
        free := s.free ++ [fr]
        consumer := match m with
          | none => .idle
          | some m => .wait m }
  | stop (s : State ε) (here : s.consumer = .idle) :
      ConsumeStep s { s with consumer := .joining .none, canceled := true }
  | stopFailed (s : State ε) (reason : StopReason ε) (dropped : Dropped) (here : s.consumer = .failed reason dropped) :
      ConsumeStep s { s with consumer := .joining dropped, canceled := true }
  | join (s : State ε) (dropped : Dropped) (here : s.consumer = .joining dropped) (joined : s.joined) :
      ConsumeStep s { s with consumer := .clearing dropped 0 }
  | clear (s : State ε) (dropped : Dropped) (fr : FrameId) (here : s.consumer = .clearing dropped fr.val) :
      ConsumeStep s { s.putBufs fr with consumer := .clearing dropped (fr.val + 1) }

/-- A step of anyone: the parties of the pipeline, whoever cancels, and the other users of the pool. -/
inductive Step (lz4 : Xorb.Lz4) (s : State ε) : State ε → Prop
  | fetch (s' : State ε) (step : FetchStep s s') : Step lz4 s s'
  | work (s' : State ε) (step : WorkStep lz4 s s') : Step lz4 s s'
  | consume (s' : State ε) (step : ConsumeStep s s') : Step lz4 s s'
  | cancel : Step lz4 s { s with canceled := true }
  | other (p : Buffers) (step : s.buffers.Other p) : Step lz4 s { s with buffers := p }

end Xet.Pipeline
