import Xet.Pipeline.Fetch

/-! A reconstructed file: reads and seeks over the chunks that a decode pipeline delivers. -/
namespace Xet.Pipeline
open Wire Shard

inductive FileError (ε : Type) where
  | eof
  | unexpectedEOF
  | fetch (e : FetchError ε)
  | decode (hash : XorbHash) (index : Nat) (e : Xorb.ChunkError)
  deriving DecidableEq

inductive SeekError where
  | whence (w : Int)
  | negative (position : Int)
  deriving DecidableEq

inductive Call where
  | read (size : Nat)
  | seek (offset : Int64) (whence : Int)

inductive Answer (ε : Type) where
  | read (bytes : Bytes) (err : Option (FileError ε))
  | seek (position : Except SeekError Nat)
  deriving DecidableEq

def seekTarget (position size : Nat) (offset : Int64) (whence : Int) : Except SeekError Nat := do
  let next : Int ← match whence with
    | 0 => .ok offset.toInt
    | 1 => .ok (Int64.ofNat position + offset).toInt
    | 2 => .ok (Int64.ofNat size + offset).toInt
    | w => .error (.whence w)
  require (0 ≤ next) (.negative next)
  return next.toNat

structure Pipe (ε : Type) where
  chunks : List Fetched
  stop : Option (FetchError ε)

structure Terms (ε : Type) where
  source : XorbSource ε
  entries : List FileDataSequenceEntry

structure File (ε : Type) where
  position : Nat
  /-- Stays until a seek away. -/
  err : Option (FileError ε)
  pipe : Option (Pipe ε)
  /-- The delivered chunk that holds the position. -/
  cur : Option Bytes
  chunkOff : Nat

section
variable {ε : Type} (lz4 : Xorb.Lz4) (o : Terms ε)

def declared (entries : List FileDataSequenceEntry) : Nat := (entries.map fun t => t.unpackedSegBytes.toNat).sum

def Terms.size : Nat := declared o.entries

def newReconstructedFile : File ε := ⟨0, none, none, none, 0⟩

/-- The terms from the one that holds `position` on, and where that one starts. -/
def termAt (position : Nat) : Nat → List FileDataSequenceEntry → List FileDataSequenceEntry × Nat
  | off, [] => ([], off)
  | off, t :: rest =>
    if position < off + t.unpackedSegBytes.toNat then (t :: rest, off)
    else termAt position (off + t.unpackedSegBytes.toNat) rest

def startPipeline (entries : List FileDataSequenceEntry) : Pipe ε :=
  ⟨(allChunks (fetchTerms o.source entries)).1, (allChunks (fetchTerms o.source entries)).2⟩

def Fetched.data (c : Fetched) : Except (FileError ε) Bytes := (c.decode lz4).mapError (.decode c.hash c.index)

/-- What a call of `next` returns. -/
def Pipe.next (pipe : Pipe ε) : Except (FileError ε) Bytes :=
  match pipe.chunks with
  | c :: _ => c.data lz4
  | [] => .error (match pipe.stop with
    | some e => .fetch e
    | none => .unexpectedEOF)

def Pipe.after (pipe : Pipe ε) (count : Nat) : Pipe ε := { pipe with chunks := pipe.chunks.drop count }

def nextHolding (position : Nat) (stop : Option (FetchError ε)) :
    Nat → List Fetched → Except (FileError ε) (Nat × Bytes × List Fetched)
  | off, [] => (Pipe.next lz4 ⟨[], stop⟩).map (off, ·, [])
  | off, c :: rest => do
    let data ← Pipe.next lz4 ⟨c :: rest, stop⟩
    if off + data.length ≤ position then nextHolding position stop (off + data.length) rest
    else return (off, data, rest)

def drain (stop : Option (FetchError ε)) : List Fetched → Except (FileError ε) Unit
  | [] => match stop with
    | some e => .error (.fetch e)
    | none => .ok ()
  | c :: rest => do
    let _ ← Pipe.next lz4 ⟨c :: rest, stop⟩
    drain stop rest

namespace File

def fail (f : File ε) (e : FileError ε) : File ε := { f with err := some e, pipe := none, cur := none }

def advance (f : File ε) : Except (FileError ε) (File ε) := do
  let (pipe, off) := match f.pipe with
    | some pipe => (pipe, match f.cur with
      | some data => f.chunkOff + data.length
      | none => f.chunkOff)
    | none => (startPipeline o (termAt f.position 0 o.entries).1, (termAt f.position 0 o.entries).2)
  let (off, data, rest) ← nextHolding lz4 f.position pipe.stop off pipe.chunks
  return { f with pipe := some { pipe with chunks := rest }, cur := some data, chunkOff := off }

/-- Why a read stops: no next chunk, or a failed check behind the last one. -/
inductive Refusal (ε : Type) where
  | advance (e : FileError ε)
  | drain (e : FileError ε)

def spent (f : File ε) : Bool :=
  match f.cur with
  | some data => f.position = f.chunkOff + data.length
  | none => true

/-- Take the next chunk. The final one is withheld until the rest of the pipeline has been checked. -/
def take (f : File ε) : Except (Refusal ε) (File ε) := do
  let f ← (f.advance lz4 o).mapError .advance
  match f.pipe, f.cur with
  | some pipe, some data =>
    if o.size ≤ f.chunkOff + data.length then
      (Pipeline.drain lz4 pipe.stop pipe.chunks).mapError .drain
      return { f with pipe := some { pipe with chunks := [] } }
    else return f
  | _, _ => return f

def refill (f : File ε) : Except (Refusal ε) (File ε) := if f.spent then f.take lz4 o else .ok f

/-- The loop of a read: `want` bytes are missing behind those in `got`. Each turn copies at least one. -/
def readLoop : Nat → File ε → Nat → Bytes → Answer ε × File ε
  | 0, f, _, got => (.read got none, f)
  | fuel + 1, f, want, got =>
    if want = 0 ∨ o.size ≤ f.position then (.read got none, f)
    else match f.refill lz4 o with
      | .error (.advance e) => (.read got (some e), f.fail e)
      | .error (.drain e) => if got = [] then (.read [] (some e), f.fail e) else (.read got none, f.fail e)
      | .ok f =>
        let part := ((f.cur.getD []).drop (f.position - f.chunkOff)).take want
        readLoop fuel { f with position := f.position + part.length } (want - part.length) (got ++ part)

def read (f : File ε) (size : Nat) : Answer ε × File ε :=
  if size = 0 then (.read [] none, f)
  else match f.err with
    | some e => (.read [] (some e), f)
    | none =>
      if o.size ≤ f.position then (.read [] (some .eof), f)
      else f.readLoop lz4 o size size []

def holds (f : File ε) (next : Nat) : Bool :=
  match f.cur with
  | some data => f.chunkOff ≤ next ∧ next ≤ f.chunkOff + data.length
  | none => false

def seek (f : File ε) (offset : Int64) (whence : Int) : Answer ε × File ε :=
  match seekTarget f.position o.size offset whence with
  | .error e => (.seek (.error e), f)
  | .ok next =>
    (.seek (.ok next),
      if next = f.position then f
      else if f.holds next then { f with position := next }
      else { f with position := next, err := none, pipe := none, cur := none })

def call (f : File ε) : Call → Answer ε × File ε
  | .read size => f.read lz4 o size
  | .seek offset whence => f.seek o offset whence

def run : File ε → List Call → List (Answer ε) × File ε
  | f, [] => ([], f)
  | f, c :: calls =>
    let (answer, f) := f.call lz4 o c
    let (answers, f) := run f calls
    (answer :: answers, f)

end File

end

namespace MemFile
variable {ε : Type} (data : Bytes)

def call (position : Nat) : Call → Answer ε × Nat
  | .read size =>
    if size = 0 then (.read [] none, position)
    else if data.length ≤ position then (.read [] (some .eof), position)
    else (.read ((data.drop position).take size) none, position + ((data.drop position).take size).length)
  | .seek offset whence =>
    match seekTarget position data.length offset whence with
    | .error e => (.seek (.error e), position)
    | .ok next => (.seek (.ok next), next)

def run : Nat → List Call → List (Answer ε) × Nat
  | position, [] => ([], position)
  | position, c :: calls =>
    let (answer, position) := call data position c
    let (answers, position) := run position calls
    (answer :: answers, position)

end MemFile

end Xet.Pipeline
