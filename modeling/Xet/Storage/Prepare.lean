import Xet.Shard.Format
import Xet.Storage.Store
import Xet.Xorb.Decoder

/-! What is checked of a shard before it is stored: its CAS blocks against the stored xorbs, and
the hashes of its files against the content that the xorbs hold. -/
namespace Xet.Storage
open Wire Calls Shard List Prog Prog.Only Xorb.Decoder

structure Env where
  blake3 : Keyed
  lz4 : Xorb.Lz4
  sha256 : Bytes → Hash

inductive ComputeError where
  | notExist (hash : XorbHash)
  | offsets (e : Xorb.OffsetsError)
  | range (e : Xorb.RangeError)
  | byteRange (first last : Int)
  | decode (e : Xorb.DecodeError)
  | termSize (written expected : Nat)
  deriving DecidableEq

inductive PrepareError where
  | noFiles
  | openXorb (hash : XorbHash)
  | decodeXorb (hash : XorbHash) (chunk : Nat) (e : Xorb.DecodeError)
  | chunkCount (hash : XorbHash) (declared : Nat)
  | chunkHash (hash : XorbHash) (chunk : Nat)
  | chunkSize (hash : XorbHash) (chunk got declared : Nat)
  | computeSHA256 (file : FileHash) (e : ComputeError)
  | sha256Mismatch (file : FileHash)
  | fileHashMismatch (file : FileHash)
  deriving DecidableEq

def ofExcept {ε α : Type} (x : Except ε α) : ExceptT ε StoreProg α := ExceptT.mk (pure x)

def getXorb (hash : XorbHash) : ExceptT ComputeError StoreProg Bytes := do
  match ← getObject .xorbs hash with
  | none => throw (.notExist hash)
  | some obj => pure obj.data

def getXorbChunkOffsets (hash : XorbHash) : ExceptT ComputeError StoreProg (List Nat) := do
  let data ← getXorb hash
  ofExcept ((Xorb.readXorbChunkOffsets data).mapError .offsets)

/-- The bytes from `first` to `last`, both included; a short xorb ends early. -/
def openXorbRange (hash : XorbHash) (first last : Int) : ExceptT ComputeError StoreProg Bytes := do
  if first < 0 ∨ last < first then throw (.byteRange first last)
  else
    let data ← getXorb hash
    pure (Xorb.slice data first.toNat (last - first + 1).toNat)

section
variable (env : Env)

def readTerm (entry : FileDataSequenceEntry) :
    ExceptT ComputeError StoreProg (Bytes × List ChunkMeta) := do
  let offsets ← getXorbChunkOffsets entry.casHash
  let (first, last) ← ofExcept ((Xorb.chunkDataRangeFromOffsets offsets entry.chunkIndexStart.toNat
    entry.chunkIndexEnd.toNat).mapError .range)
  let body ← openXorbRange entry.casHash first last
  let (copied, decoder) := (Xorb.Decoder.new body false).copyAll env.blake3 env.lz4 maxChunkSize
  let content ← ofExcept (copied.mapError .decode)
  let _ ← ofExcept (require (content.length = entry.unpackedSegBytes.toNat)
    (.termSize content.length entry.unpackedSegBytes.toNat))
  pure (content, decoder.chunks)

def readTerms : List FileDataSequenceEntry → ExceptT ComputeError StoreProg (Bytes × List ChunkMeta)
  | [] => pure ([], [])
  | entry :: rest => do
    let (content, chunks) ← readTerm env entry
    let (contents, others) ← readTerms rest
    pure (content ++ contents, chunks ++ others)

/-- Empty files have zero digests. -/
def computeFileHashes (fb : FileBlock) : ExceptT ComputeError StoreProg (SHA256Hash × FileHash) :=
  if fb.entries = [] then pure (Hash.zero, Hash.zero)
  else do
    let (content, chunks) ← readTerms env fb.entries
    pure (env.sha256 content, computeFileHashOf env.blake3 chunks)

/-- The loop over the chunks of the xorb, the first of `declared` being number `i`. -/
def verifyChunks (cb : CASBlock) :
    Nat → List CASChunkSequenceEntry → Xorb.Decoder → Except PrepareError Unit
  | i, [], d =>
    match (d.read env.blake3 env.lz4 Xorb.chunkBufSize).1 with
    | .failed e => .error (.decodeXorb cb.casHash i e)
    | .data _ => .error (.chunkCount cb.casHash cb.chunks.length)
    | .eof => .ok ()
  | i, c :: rest, d =>
    match d.read env.blake3 env.lz4 Xorb.chunkBufSize with
    | (.failed e, _) => .error (.decodeXorb cb.casHash i e)
    | (.eof, _) => .error (.chunkCount cb.casHash cb.chunks.length)
    | (.data b, d) => do
      require (d.chunks[i]?.map Prod.fst = some c.chunkHash) (.chunkHash cb.casHash i)
      require (b.length = c.unpackedSegBytes.toNat)
        (.chunkSize cb.casHash i b.length c.unpackedSegBytes.toNat)
      verifyChunks cb (i + 1) rest d

def verifyCASBlock (cb : CASBlock) : ExceptT PrepareError StoreProg Unit := do
  match ← getObject .xorbs cb.casHash with
  | none => throw (.openXorb cb.casHash)
  | some obj => ofExcept (verifyChunks env cb 0 cb.chunks (Xorb.Decoder.new obj.data false))

def verifyCASBlocks : List CASBlock → ExceptT PrepareError StoreProg Unit
  | [] => pure ()
  | cb :: rest => do
    verifyCASBlock env cb
    verifyCASBlocks rest

def withSHA256 (fb : FileBlock) (digest : SHA256Hash) : FileBlock :=
  { fb with metadataExt := some digest, flags := fb.flags ||| fileWithMetadataExt }

def prepareFile (fb : FileBlock) : ExceptT PrepareError StoreProg FileBlock := do
  let (computed, fileHash) ← (computeFileHashes env fb).adapt (.computeSHA256 fb.fileHash)
  let _ ← ofExcept (require (fb.metadataExt = none ∨ fb.metadataExt = some computed)
    (.sha256Mismatch fb.fileHash))
  let _ ← ofExcept (require (fb.fileHash = fileHash) (.fileHashMismatch fb.fileHash))
  pure (withSHA256 fb computed)

def prepareFiles : List FileBlock → ExceptT PrepareError StoreProg (List FileBlock)
  | [] => pure []
  | fb :: rest => do
    let prepared ← prepareFile env fb
    let others ← prepareFiles rest
    pure (prepared :: others)

def prepareShard (s : Shard) : ExceptT PrepareError StoreProg Shard := do
  if s.files = [] then throw .noFiles
  else
    verifyCASBlocks env s.casInfos
    let files ← prepareFiles env s.files
    pure { s with files := files }

end

def GetsXorb (hashes : List XorbHash) (c : Call) : Prop := ∃ h ∈ hashes, c = .get .xorbs h

theorem GetsXorb.quiet {lastWriter : Bool} {hashes : List XorbHash} {st : Store} (c : Call)
    (h : GetsXorb hashes c) : (perform lastWriter c st).2 = st := by
  obtain ⟨hash, -, rfl⟩ := h
  rfl

theorem GetsXorb.mono {hashes more : List XorbHash} (sub : ∀ h ∈ hashes, h ∈ more) (c : Call)
    (h : GetsXorb hashes c) : GetsXorb more c := by
  obtain ⟨hash, member, rfl⟩ := h
  exact ⟨hash, sub hash member, rfl⟩

section
variable {env : Env} {lastWriter : Bool} {st : Store}

theorem getXorb_only (hash : XorbHash) : Prog.Only (GetsXorb [hash]) (getXorb hash) := by
  refine ⟨⟨hash, mem_singleton_self _, rfl⟩, fun r => ?_⟩
  cases r with
  | none => trivial
  | some obj => trivial

theorem getXorb_ok {hash : XorbHash} {data : Bytes}
    (h : (run (perform lastWriter) (getXorb hash) st).1 = .ok data) :
    ∃ obj, st.object .xorbs hash = some obj ∧ obj.data = data := by
  change (run (perform lastWriter) (ExceptT.bindCont _ (.ok (st.object .xorbs hash))) st).1 = _ at h
  cases found : st.object .xorbs hash with
  | none =>
    rw [found] at h
    cases h
  | some obj =>
    rw [found] at h
    cases h
    exact ⟨obj, rfl, rfl⟩

theorem ofExcept_only {ε α : Type} {P : Call → Prop} (x : Except ε α) : Prog.Only P (ofExcept x) :=
  trivial

theorem getXorbChunkOffsets_only (hash : XorbHash) : Prog.Only (GetsXorb [hash]) (getXorbChunkOffsets hash) :=
  exceptBind (getXorb_only hash) fun _ => ofExcept_only _

theorem openXorbRange_only (hash : XorbHash) (first last : Int) :
    Prog.Only (GetsXorb [hash]) (openXorbRange hash first last) := by
  unfold openXorbRange
  split
  · trivial
  · exact exceptBind (getXorb_only hash) fun _ => trivial

theorem readTerm_only (entry : FileDataSequenceEntry) : Prog.Only (GetsXorb [entry.casHash]) (readTerm env entry) := by
  apply exceptBind (getXorbChunkOffsets_only _)
  intro offsets
  apply exceptBind (ofExcept_only _)
  rintro ⟨first, last⟩
  apply exceptBind (openXorbRange_only _ first last)
  intro body
  apply exceptBind (ofExcept_only _)
  intro content
  exact exceptBind (ofExcept_only _) fun _ => trivial

theorem readTerm_stored {entry : FileDataSequenceEntry} {result : Bytes × List ChunkMeta}
    (h : (run (perform lastWriter) (readTerm env entry) st).1 = .ok result) :
    (st.object .xorbs entry.casHash).isSome := by
  obtain ⟨offsets, found, -⟩ :=
    (run_bind_ok (getXorbChunkOffsets_only _) GetsXorb.quiet).mp h
  obtain ⟨data, opened, -⟩ := (run_bind_ok (getXorb_only _) GetsXorb.quiet).mp found
  obtain ⟨obj, stored, -⟩ := getXorb_ok opened
  exact Option.isSome_iff_exists.mpr ⟨obj, stored⟩

theorem readTerms_only (entries : List FileDataSequenceEntry) :
    Prog.Only (GetsXorb (entries.map (·.casHash))) (readTerms env entries) := by
  induction entries with
  | nil => trivial
  | cons entry rest ih =>
    apply exceptBind ((readTerm_only entry).mono (GetsXorb.mono (by simp)))
    rintro ⟨content, chunks⟩
    apply exceptBind (ih.mono (GetsXorb.mono (fun h m => mem_cons_of_mem _ m)))
    rintro ⟨contents, others⟩
    trivial

theorem readTerms_stored {entries : List FileDataSequenceEntry} {result : Bytes × List ChunkMeta}
    (h : (run (perform lastWriter) (readTerms env entries) st).1 = .ok result) :
    ∀ e ∈ entries, (st.object .xorbs e.casHash).isSome := by
  induction entries generalizing result with
  | nil => intro e member; cases member
  | cons entry rest ih =>
    obtain ⟨⟨content, chunks⟩, first, others⟩ :=
      (run_bind_ok (readTerm_only entry) GetsXorb.quiet).mp h
    obtain ⟨tail, found, -⟩ := (run_bind_ok (readTerms_only rest) GetsXorb.quiet).mp others
    intro e member
    cases member with
    | head => exact readTerm_stored first
    | tail _ later => exact ih found e later

theorem computeFileHashes_only (fb : FileBlock) :
    Prog.Only (GetsXorb (fb.entries.map (·.casHash))) (computeFileHashes env fb) := by
  unfold computeFileHashes
  split
  · trivial
  · exact exceptBind (readTerms_only fb.entries) fun _ => trivial

theorem computeFileHashes_stored {fb : FileBlock} {result : SHA256Hash × FileHash}
    (h : (run (perform lastWriter) (computeFileHashes env fb) st).1 = .ok result) :
    ∀ e ∈ fb.entries, (st.object .xorbs e.casHash).isSome := by
  unfold computeFileHashes at h
  split at h
  · rename_i empty
    rw [empty]
    intro e member
    cases member
  · obtain ⟨content, found, -⟩ := (run_bind_ok (readTerms_only _) GetsXorb.quiet).mp h
    exact readTerms_stored found

theorem computeFileHashes_congr {fb : FileBlock} {st' : Store}
    (agree : ∀ e ∈ fb.entries, st.object .xorbs e.casHash = st'.object .xorbs e.casHash) :
    (run (perform lastWriter) (computeFileHashes env fb) st).1 =
      (run (perform lastWriter) (computeFileHashes env fb) st').1 := by
  refine (computeFileHashes_only fb).run_congr GetsXorb.quiet GetsXorb.quiet ?_
  rintro c ⟨hash, member, rfl⟩
  obtain ⟨e, entry, rfl⟩ := mem_map.mp member
  exact agree e entry

theorem verifyCASBlock_only (cb : CASBlock) : Prog.Only (GetsXorb [cb.casHash]) (verifyCASBlock env cb) := by
  refine ⟨⟨_, mem_singleton_self _, rfl⟩, fun r => ?_⟩
  cases r with
  | none => trivial
  | some obj => trivial

theorem verifyCASBlock_ok {cb : CASBlock}
    (h : (run (perform lastWriter) (verifyCASBlock env cb) st).1 = .ok ()) :
    ∃ obj, st.object .xorbs cb.casHash = some obj ∧
      verifyChunks env cb 0 cb.chunks (new obj.data false) = .ok () := by
  change (run (perform lastWriter) (ExceptT.bindCont _ (.ok (st.object .xorbs cb.casHash))) st).1 =
    _ at h
  cases found : st.object .xorbs cb.casHash with
  | none =>
    rw [found] at h
    cases h
  | some obj =>
    rw [found] at h
    exact ⟨obj, rfl, h⟩

theorem verifyCASBlocks_only (blocks : List CASBlock) :
    Prog.Only (GetsXorb (blocks.map (·.casHash))) (verifyCASBlocks env blocks) := by
  induction blocks with
  | nil => trivial
  | cons cb rest ih =>
    apply exceptBind ((verifyCASBlock_only cb).mono (GetsXorb.mono (by simp)))
    intro _
    exact ih.mono (GetsXorb.mono (fun h m => mem_cons_of_mem _ m))

theorem verifyCASBlocks_ok {blocks : List CASBlock}
    (h : (run (perform lastWriter) (verifyCASBlocks env blocks) st).1 = .ok ()) :
    ∀ cb ∈ blocks, ∃ obj, st.object .xorbs cb.casHash = some obj ∧
      verifyChunks env cb 0 cb.chunks (new obj.data false) = .ok () := by
  induction blocks with
  | nil => intro cb member; cases member
  | cons cb rest ih =>
    obtain ⟨⟨⟩, first, others⟩ :=
      (run_bind_ok (verifyCASBlock_only cb) GetsXorb.quiet).mp h
    intro block member
    cases member with
    | head => exact verifyCASBlock_ok first
    | tail _ later => exact ih others block later

/-- `fb'` is `fb` with the digest of its content, which has the hash that names the file. -/
def PreparedFile (env : Env) (lastWriter : Bool) (st : Store) (fb fb' : FileBlock) : Prop :=
  ∃ digest, (Prog.run (perform lastWriter) (computeFileHashes env fb) st).1 = .ok (digest, fb.fileHash) ∧
    fb' = withSHA256 fb digest

theorem prepareFile_only (fb : FileBlock) : Prog.Only (GetsXorb (fb.entries.map (·.casHash))) (prepareFile env fb) := by
  apply exceptBind (computeFileHashes_only fb).adapt
  rintro ⟨computed, fileHash⟩
  apply exceptBind (ofExcept_only _)
  intro _
  exact exceptBind (ofExcept_only _) fun _ => trivial

theorem prepareFile_ok {fb fb' : FileBlock}
    (h : (run (perform lastWriter) (prepareFile env fb) st).1 = .ok fb') : PreparedFile env lastWriter st fb fb' := by
  obtain ⟨⟨computed, fileHash⟩, found, checks⟩ :=
    (run_bind_ok (computeFileHashes_only fb).adapt GetsXorb.quiet).mp h
  obtain ⟨⟨⟩, -, named⟩ := (run_bind_ok (ofExcept_only (P := Call.Reads) _) (fun c reads => reads.quiet st)).mp checks
  obtain ⟨⟨⟩, same, result⟩ := (run_bind_ok (ofExcept_only (P := Call.Reads) _)
    (fun c reads => reads.quiet st)).mp named
  rw [run_adapt] at found
  have hashes := mapError_eq_ok.mp found
  cases result
  rw [← require_eq_ok.mp same] at hashes
  exact ⟨computed, hashes, rfl⟩

theorem prepareFiles_only (files : List FileBlock) : Prog.Only Call.Reads (prepareFiles env files) := by
  induction files with
  | nil => trivial
  | cons fb rest ih =>
    apply exceptBind ((prepareFile_only fb).mono ?_)
    · intro prepared
      exact exceptBind ih fun _ => trivial
    · rintro c ⟨hash, -, rfl⟩
      trivial

theorem prepareFiles_ok {files files' : List FileBlock}
    (h : (run (perform lastWriter) (prepareFiles env files) st).1 = .ok files') :
    List.Forall₂ (PreparedFile env lastWriter st) files files' := by
  induction files generalizing files' with
  | nil =>
    cases h
    exact .nil
  | cons fb rest ih =>
    obtain ⟨prepared, first, h⟩ :=
      (run_bind_ok (prepareFile_only fb) GetsXorb.quiet).mp h
    obtain ⟨others, found, h⟩ := (run_bind_ok (prepareFiles_only rest) (fun c reads => reads.quiet st)).mp h
    cases h
    exact .cons (prepareFile_ok first) (ih found)

theorem GetsXorb.reads {hashes : List XorbHash} (c : Call) (h : GetsXorb hashes c) : c.Reads := by
  obtain ⟨hash, -, rfl⟩ := h
  trivial

theorem prepareShard_only (s : Shard) : Prog.Only Call.Reads (prepareShard env s) := by
  unfold prepareShard
  split
  · trivial
  · apply exceptBind ((verifyCASBlocks_only s.casInfos).mono GetsXorb.reads)
    intro _
    exact exceptBind (prepareFiles_only s.files) fun _ => trivial

/-- A prepared shard: its blocks match the stored xorbs, and its files carry their digests. -/
structure PreparedShard (env : Env) (lastWriter : Bool) (st : Store) (s s' : Shard) : Prop where
  files : List.Forall₂ (PreparedFile env lastWriter st) s.files s'.files
  casInfos : s'.casInfos = s.casInfos
  verified : ∀ cb ∈ s.casInfos, ∃ obj, st.object .xorbs cb.casHash = some obj ∧
    verifyChunks env cb 0 cb.chunks (Xorb.Decoder.new obj.data false) = .ok ()

theorem prepareShard_ok {s s' : Shard}
    (h : (run (perform lastWriter) (prepareShard env s) st).1 = .ok s') : PreparedShard env lastWriter st s s' := by
  unfold prepareShard at h
  split at h
  · cases h
  · obtain ⟨⟨⟩, verified, h⟩ :=
      (run_bind_ok (verifyCASBlocks_only s.casInfos) GetsXorb.quiet).mp h
    obtain ⟨files, prepared, h⟩ := (run_bind_ok (prepareFiles_only s.files) (fun c reads => reads.quiet st)).mp h
    cases h
    exact ⟨prepareFiles_ok prepared, rfl, verifyCASBlocks_ok verified⟩

end

end Xet.Storage
