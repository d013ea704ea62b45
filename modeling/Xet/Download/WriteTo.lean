import Xet.Download.Reader

/-! Writing a response out, every remaining chunk with one write. The loop ends because every turn
takes a chunk off the reader. -/
namespace Xet.Download
open Wire List

inductive WriteError where
  | writer
  | invalidResult
  | shortWrite
  deriving DecidableEq

/-- What a writer makes of a chunk: the count it reports, and whether it reports an error. -/
abbrev Write := Bytes → Int × Bool

def writeChunk (write : Write) (chunk : Bytes) : Nat × Option WriteError :=
  let (n, failed) := write chunk
  if n < 0 ∨ (chunk.length : Int) < n then (0, some (if failed then .writer else .invalidResult))
  else if failed then (n.toNat, some .writer)
  else if n < chunk.length then (n.toNat, some .shortWrite)
  else (n.toNat, none)

theorem writeChunk_ok {write : Write} {chunk : Bytes} {n : Nat} (ok : writeChunk write chunk = (n, none)) :
    n = chunk.length := by
  simp only [writeChunk] at ok
  split_ifs at ok <;> simp only [Prod.mk.injEq, reduceCtorEq, and_false, and_true] at ok
  omega

inductive WriteStop (ε : Type) where
  | reader (e : ReaderError ε)
  | writer (e : WriteError)
  deriving DecidableEq

structure WriteResult (ε : Type) where
  data : Bytes
  err : Option (WriteStop ε)
  deriving DecidableEq

def termChunkCount (p : Term × SelectedFetch) : Nat :=
  p.1.range.stop - p.2.chunks.start - (p.1.range.start - p.2.chunks.start)

namespace Reader
variable (blake3 : Keyed) (lz4 : Xorb.Lz4) {ε : Type} (client : Client ε)

def chunksLeft (r : Reader ε) : Nat :=
  match r.current with
  | none => (r.pending.map termChunkCount).sum
  | some (_, _, stop) => stop - r.chunkIdx + (r.pending.tail.map termChunkCount).sum

variable {blake3 lz4 client}

variable {current : FetchKey × ChunkCache × Nat}

theorem chunksLeft_loaded {r : Reader ε} (loaded : r.current = some current) :
    r.chunksLeft = current.2.2 - r.chunkIdx + (r.pending.tail.map termChunkCount).sum := by
  simp only [chunksLeft, loaded]

theorem loadTerm_left {r r' : Reader ε} {p : Term × SelectedFetch} {ps : List (Term × SelectedFetch)}
    (next : r.pending = p :: ps) (load : r.loadTerm blake3 lz4 client p.1 p.2 = .ok (current, r')) :
    r'.current = some current ∧ r'.pending = r.pending ∧ r'.chunksLeft = r.chunksLeft := by
  cases loaded : r.current with
  | some held =>
    rw [loadTerm, loaded] at load
    cases load
    exact ⟨loaded, rfl, rfl⟩
  | none =>
    simp only [loadTerm, loaded, bind_eq_ok] at load
    obtain ⟨cache, -, value⟩ := load
    cases value
    refine ⟨rfl, rfl, ?_⟩
    simp only [chunksLeft, loaded, next, tail_cons, map_cons, sum_cons]
    rfl

theorem chunksLeft_rule (n : Nat) : FillRule blake3 lz4 client
    (fun ps r => r.pending = ps ∧ r.chunksLeft ≤ n)
    (fun ps _ _ left r => ∃ current, r.current = some current ∧ left ≤ current.2.2 - r.chunkIdx ∧
      r.pending.tail = ps ∧ r.chunksLeft ≤ n)
    (fun out => out.1 = none → out.2.chunksLeft < n) where
  finish := by
    intro r _
    rw [finish]
    split
    · simp
    · dsimp only
      split <;> simp
  load := by
    rintro p ps r key cache stop r' ⟨next, bound⟩ load
    obtain ⟨loaded, kept, same⟩ := loadTerm_left next load
    exact ⟨_, loaded, le_rfl, by rw [kept, next, tail_cons], same.trans_le bound⟩
  loadFailed := by simp
  read := by
    rintro ps key cache left r c ⟨current, loaded, count, rest, bound⟩ -
    have kept : (r.accept blake3 c).current = some current := loaded
    have fewer : (r.accept blake3 c).chunksLeft < r.chunksLeft := by
      rw [chunksLeft_loaded loaded, chunksLeft_loaded kept]
      simp only [accept]
      omega
    split
    · exact ⟨current, kept, by simp only [accept]; omega, rest, by omega⟩
    · exact fun _ => fewer.trans_le bound
  readFailed := by simp
  leave := by
    rintro ps key cache r ⟨current, loaded, count, rest, bound⟩
    rw [chunksLeft_loaded loaded] at bound
    exact ⟨rest, (Nat.le_add_left _ _).trans bound⟩

theorem fill_left {r r' : Reader ε} (run : r.fill blake3 lz4 client = (none, r')) :
    (r.chunk ≠ [] ∧ r' = r) ∨ r.chunk = [] ∧ r'.chunksLeft < r.chunksLeft := by
  rw [fill] at run
  split at run
  · rename_i drained
    have rule : FillRule blake3 lz4 client _ _ _ := chunksLeft_rule r.chunksLeft
    have fewer := rule.fillTerms r.pending ⟨rfl, le_rfl⟩
    rw [run] at fewer
    exact .inr ⟨drained, fewer rfl⟩
  · rename_i ready
    cases run
    exact .inl ⟨ready, rfl⟩

variable (blake3 lz4 client)

/-- Write chunk after chunk; the writer may behave differently on each call. -/
def writeLoop (w : Nat → Write) (i : Nat) (r : Reader ε) : WriteResult ε × Reader ε :=
  match _filled : r.fill blake3 lz4 client with
  | (some .eof, r') => (⟨[], none⟩, r')
  | (some (.failed e), r') => (⟨[], some (.reader e)⟩, r')
  | (none, r') =>
    match _written : writeChunk (w i) r'.chunk with
    | (n, some e) => (⟨r'.chunk.take n, some (.writer e)⟩, { r' with chunk := r'.chunk.drop n })
    | (n, none) =>
      let (rest, last) := writeLoop w (i + 1) { r' with chunk := r'.chunk.drop n }
      (⟨r'.chunk.take n ++ rest.data, rest.err⟩, last)
termination_by (r.chunksLeft, r.chunk.length)
decreasing_by
  rw [writeChunk_ok _written, List.drop_length]
  rcases fill_left _filled with ⟨ready, rfl⟩ | ⟨-, fewer⟩
  · exact Prod.Lex.right _ (List.length_pos_of_ne_nil ready)
  · exact Prod.Lex.left _ _ fewer

def writeTo (w : Nat → Write) (r : Reader ε) : WriteResult ε × Reader ε :=
  match r.err with
  | some e => (⟨[], some (.reader e)⟩, r)
  | none => r.writeLoop blake3 lz4 client w 0

end Reader

end Xet.Download
