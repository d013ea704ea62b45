import Xet.Download.Genuine
import Xet.Download.Length
import Xet.Lib.File

/-! Downloads into a destination that may hold something already. A download goes on behind what is there, or
from the start when the range query is rejected, and falls back to the older version of the API. -/
namespace Xet.Client
open Wire Download List File

structure Destination where
  content : Bytes
  pos : Nat
  deriving DecidableEq

namespace Destination

def seekEnd (w : Destination) : Destination := { w with pos := w.content.length }

def seekStart (w : Destination) : Destination := { w with pos := 0 }

def write (w : Destination) (data : Bytes) : Destination := ⟨File.writeAt w.content data w.pos, w.pos + data.length⟩

end Destination

inductive RequestError where
  | notFound
  | unauthorized
  | auth
  | other (status : Nat)
  deriving DecidableEq

/-- Only a rejected range warrants restarting. -/
def RequestError.restarts : RequestError → Bool
  | .other _ => true
  | _ => false

inductive DownloadError where
  | query (e : RequestError)
  | reader (e : ReaderError RequestError)
  | write (stop : WriteStop RequestError)
  | sizeMismatch (expected : Int64) (got : Nat)
  deriving DecidableEq

def readerNotFound : ReaderError RequestError → Bool
  | .download .notFound => true
  | _ => false

def DownloadError.notFound : DownloadError → Bool
  | .query e => e = .notFound
  | .reader e => readerNotFound e
  | .write (.reader e) => readerNotFound e
  | .write (.writer _) => false
  | .sizeMismatch _ _ => false

section
variable {R : Type}

structure Api (R : Type) where
  getReconstruction : Option Nat → Except RequestError R
  newReader : R → Option FileHash → Except (ReaderError RequestError) (Reader RequestError)
  expectedLength : R → Int64

def rangeFrom (resumeOffset : Nat) : Option Nat := if 0 < resumeOffset then some resumeOffset else none

/-- The answer, the offset it was asked from, and the destination, which a rejected range rewinds. -/
def queryReconstruction (api : Api R) (resumeOffset : Nat) (w : Destination) :
    Except RequestError R × Nat × Destination :=
  match api.getReconstruction (rangeFrom resumeOffset) with
  | .ok r => (.ok r, resumeOffset, w)
  | .error e =>
    if 0 < resumeOffset ∧ e.restarts then (api.getReconstruction none, 0, w.seekStart)
    else (.error e, resumeOffset, w)

/-- Only full downloads have all chunks needed to verify the hash. -/
def downloadOptions (fileHash : FileHash) (resumeOffset : Nat) : Option FileHash :=
  if resumeOffset = 0 then some fileHash else none

def newDownloadReader (api : Api R) (fileHash : FileHash) (resumeOffset : Nat) (w : Destination) :
    Except DownloadError (Reader RequestError × Int64) × Destination :=
  let (answer, resumeOffset, w) := queryReconstruction api resumeOffset w
  (do
    let r ← answer.mapError .query
    let reader ← (api.newReader r (downloadOptions fileHash resumeOffset)).mapError .reader
    return (reader, api.expectedLength r), w)

variable (blake3 : Keyed) (lz4 : Xorb.Lz4)

/-- A download through one version; `writes` is how the destination takes what it is given. -/
def downloadThrough (api : Api R) (client : Client RequestError) (writes : Nat → Write) (fileHash : FileHash)
    (w : Destination) : Except DownloadError Unit × Destination :=
  let w := w.seekEnd
  match newDownloadReader api fileHash w.pos w with
  | (.error e, w) => (.error e, w)
  | (.ok (reader, expectedLength), w) =>
    let copied := (reader.writeTo blake3 lz4 client writes).1
    let w := w.write copied.data
    match copied.err with
    | some stop => (.error (.write stop), w)
    | none =>
      if (copied.data.length : Int) = expectedLength.toInt then (.ok (), w)
      else (.error (.sizeMismatch expectedLength copied.data.length), w)

end

/-- Everything outside of a download. Each version asks at most twice, from different offsets, so that answers
that change in time are covered. -/
structure Service where
  getReconstructionV1 : Option Nat → Except RequestError ReconstructionResponseV1
  getReconstructionV2 : Option Nat → Except RequestError ReconstructionResponseV2
  clientV1 : Client RequestError
  clientV2 : Client RequestError
  writesV1 : Nat → Write
  writesV2 : Nat → Write

def Service.apiV1 (s : Service) : Api ReconstructionResponseV1 := ⟨s.getReconstructionV1, newReaderV1, expectedLengthV1⟩

def Service.apiV2 (s : Service) : Api ReconstructionResponseV2 := ⟨s.getReconstructionV2, newReaderV2, expectedLengthV2⟩

section
variable (blake3 : Keyed) (lz4 : Xorb.Lz4) (s : Service)

def downloadFileV1 (fileHash : FileHash) (w : Destination) : Except DownloadError Unit × Destination :=
  downloadThrough blake3 lz4 s.apiV1 s.clientV1 s.writesV1 fileHash w

def downloadFileV2 (fileHash : FileHash) (w : Destination) : Except DownloadError Unit × Destination :=
  downloadThrough blake3 lz4 s.apiV2 s.clientV2 s.writesV2 fileHash w

def downloadFile (fileHash : FileHash) (w : Destination) : Except DownloadError Unit × Destination :=
  match downloadFileV2 blake3 lz4 s fileHash w with
  | (.ok (), w) => (.ok (), w)
  | (.error e, w) => if e.notFound then downloadFileV1 blake3 lz4 s fileHash w else (.error e, w)

end

section
variable {R : Type} {api : Api R}

def resumedFrom (api : Api R) (c : Bytes) : Nat :=
  match api.getReconstruction (rangeFrom c.length) with
  | .ok _ => c.length
  | .error e => if 0 < c.length ∧ e.restarts then 0 else c.length

theorem resumedFrom_le (api : Api R) (c : Bytes) : resumedFrom api c ≤ c.length := by
  unfold resumedFrom
  split
  · exact le_rfl
  · split
    · exact Nat.zero_le _
    · exact le_rfl

theorem queryReconstruction_seekEnd (api : Api R) (w : Destination) :
    queryReconstruction api w.content.length w.seekEnd =
      (api.getReconstruction (rangeFrom (resumedFrom api w.content)), resumedFrom api w.content,
        ⟨w.content, resumedFrom api w.content⟩) := by
  unfold queryReconstruction resumedFrom
  cases answer : api.getReconstruction (rangeFrom w.content.length) with
  | ok r =>
    simp only [answer]
    rfl
  | error e =>
    dsimp only
    split
    · rfl
    · rw [answer]
      rfl

theorem newDownloadReader_seekEnd (api : Api R) (fileHash : FileHash) (w : Destination) :
    (newDownloadReader api fileHash w.content.length w.seekEnd).2 = ⟨w.content, resumedFrom api w.content⟩ ∧
    ∀ reader expected, (newDownloadReader api fileHash w.content.length w.seekEnd).1 = .ok (reader, expected) →
      ∃ r hash, api.getReconstruction (rangeFrom (resumedFrom api w.content)) = .ok r ∧
        api.newReader r hash = .ok reader := by
  simp only [newDownloadReader, queryReconstruction_seekEnd, true_and, bind_eq_ok, mapError_eq_ok]
  rintro reader expected ⟨r, answer, opened, run, value⟩
  cases value
  exact ⟨r, _, answer, run⟩

theorem rangeFrom_getD (k : Nat) : (rangeFrom k).getD 0 = k := by
  unfold rangeFrom
  split
  · rfl
  · rw [Option.getD_none]
    omega

variable {blake3 : Keyed} {lz4 : Xorb.Lz4} {client : Client RequestError} {file : Bytes}

/-- The readers of a version write out the bytes of the file from where it was asked. -/
def Serves (blake3 : Keyed) (lz4 : Xorb.Lz4) (api : Api R) (client : Client RequestError) (file : Bytes) : Prop :=
  ∀ range r hash reader, api.getReconstruction range = .ok r → api.newReader r hash = .ok reader →
    ∀ writes, WritesOut (file.drop (range.getD 0)) (reader.writeTo blake3 lz4 client writes).1

theorem downloadThrough_written (serves : Serves blake3 lz4 api client file) (writes : Nat → Write)
    (fileHash : FileHash) (w : Destination) :
    ∃ d, d <+: file.drop (resumedFrom api w.content) ∧
      (downloadThrough blake3 lz4 api client writes fileHash w).2.content =
        writeAt w.content d (resumedFrom api w.content) ∧
      ((downloadThrough blake3 lz4 api client writes fileHash w).1 = .ok () →
        d = file.drop (resumedFrom api w.content)) := by
  obtain ⟨place, asked⟩ := newDownloadReader_seekEnd api fileHash w
  have untouched : writeAt w.content [] (resumedFrom api w.content) = w.content :=
    writeAt_nil (resumedFrom_le api w.content)
  simp only [downloadThrough, show w.seekEnd.pos = w.content.length from rfl]
  rcases run : newDownloadReader api fileHash w.content.length w.seekEnd with ⟨e | ⟨reader, expected⟩, dest⟩
  · rw [run] at place
    cases place
    exact ⟨[], nil_prefix, untouched.symm, nofun⟩
  · rw [run] at place asked
    cases place
    obtain ⟨r, hash, answer, opened⟩ := asked reader expected rfl
    have out := serves _ r hash reader answer opened writes
    rw [rangeFrom_getD] at out
    refine ⟨_, out.start, ?_⟩
    dsimp only
    cases ended : (reader.writeTo blake3 lz4 client writes).1.err with
    | some stop => exact ⟨rfl, nofun⟩
    | none =>
      dsimp only
      split
      · exact ⟨rfl, fun _ => out.whole ended⟩
      · exact ⟨rfl, nofun⟩

theorem downloadThrough_ok {writes : Nat → Write} {fileHash : FileHash} {w : Destination} {r : R}
    {reader : Reader RequestError} {rest : Bytes}
    (answer : api.getReconstruction (rangeFrom (resumedFrom api w.content)) = .ok r)
    (opened : api.newReader r (downloadOptions fileHash (resumedFrom api w.content)) = .ok reader)
    (copied : (reader.writeTo blake3 lz4 client writes).1 = ⟨rest, none⟩)
    (size : (rest.length : Int) = (api.expectedLength r).toInt) :
    (downloadThrough blake3 lz4 api client writes fileHash w).1 = .ok () := by
  have reads : newDownloadReader api fileHash w.content.length w.seekEnd =
      (.ok (reader, api.expectedLength r), ⟨w.content, resumedFrom api w.content⟩) := by
    rw [newDownloadReader, queryReconstruction_seekEnd]
    simp only [answer, Except.mapError, ok_bind, opened]
    rfl
  simp only [downloadThrough, show w.seekEnd.pos = w.content.length from rfl, reads, copied, size, if_true]

theorem writeAt_drop_eq_iff {c : Bytes} {k : Nat} (inside : k ≤ c.length) :
    writeAt c (file.drop k) k = file ↔ c.take k <+: file ∧ c.length ≤ file.length := by
  obtain ⟨lead, rest, rfl, rfl⟩ := exists_split inside
  rw [writeAt_append, take_left, length_append]
  constructor
  · intro same
    have start : lead <+: file := ⟨_, same⟩
    have count := congrArg List.length same
    simp only [length_append, length_drop] at count
    have le := start.length_le
    exact ⟨start, by omega⟩
  · rintro ⟨start, le⟩
    have past : rest.drop (file.drop lead.length).length = [] := by
      rw [drop_eq_nil_iff, length_drop]
      omega
    rw [past, append_nil]
    exact (prefix_append_drop start).symm

theorem writeAt_length_le {c d : Bytes} {k : Nat} (inside : k ≤ c.length) (more : d <+: file.drop k) :
    (writeAt c d k).length ≤ file.length ↔ c.length ≤ file.length := by
  obtain ⟨lead, rest, rfl, rfl⟩ := exists_split inside
  have few := more.length_le
  rw [length_drop] at few
  simp only [writeAt_append, length_append, length_drop]
  omega

theorem writeAt_start {c d : Bytes} {k : Nat} (inside : k ≤ c.length) (start : c <+: file)
    (more : d <+: file.drop k) : writeAt c d k <+: file := by
  obtain ⟨lead, rest, rfl, rfl⟩ := exists_split inside
  obtain ⟨tail, rfl⟩ := (prefix_append lead rest).trans start
  rw [drop_left] at more
  rw [prefix_append_right_inj] at start
  rw [writeAt_append, prefix_append_right_inj]
  rcases prefix_or_prefix_of_prefix more start with ⟨left, rfl⟩ | longer
  · rwa [drop_left]
  · rw [drop_eq_nil_of_le longer.length_le, append_nil]
    exact more

end

section
variable {blake3 : Keyed} {lz4 : Xorb.Lz4} {s : Service} {file : Bytes}

/-- Every answer stands for the bytes of the file from where it was asked; a query may also fail. -/
structure Service.Honest (blake3 : Keyed) (lz4 : Xorb.Lz4) (xorb : Bytes → Nat → Bytes) (file : Bytes)
    (s : Service) : Prop where
  v1 : ∀ range r, s.getReconstructionV1 range = .ok r →
    Announces blake3 lz4 s.clientV1 xorb (planReaderV1 r) r.offsetIntoFirstRange r.terms (file.drop (range.getD 0))
  v2 : ∀ range r, s.getReconstructionV2 range = .ok r →
    Announces blake3 lz4 s.clientV2 xorb (planReaderV2 r) r.offsetIntoFirstRange r.terms (file.drop (range.getD 0))

variable {xorb : Bytes → Nat → Bytes}

theorem Service.Honest.servesV1 (honest : s.Honest blake3 lz4 xorb file) : Serves blake3 lz4 s.apiV1 s.clientV1 file :=
  fun range r _ _ answer opened => (honest.v1 range r answer).writesOut (fun _ _ => selectFetchInfoV1_covers) opened

theorem Service.Honest.servesV2 (honest : s.Honest blake3 lz4 xorb file) : Serves blake3 lz4 s.apiV2 s.clientV2 file :=
  fun range r _ _ answer opened => (honest.v2 range r answer).writesOut (fun _ _ => selectFetchInfoV2_covers) opened

/-- What the version that ends the download finds in the destination, and where it goes on. -/
def lastVersion (blake3 : Keyed) (lz4 : Xorb.Lz4) (s : Service) (fileHash : FileHash) (w : Destination) : Bytes × Nat :=
  match downloadFileV2 blake3 lz4 s fileHash w with
  | (.ok (), _) => (w.content, resumedFrom s.apiV2 w.content)
  | (.error _, w) => (w.content, resumedFrom s.apiV1 w.content)

/-- The download restarted from the beginning, over bytes that were there. -/
def Restarted (blake3 : Keyed) (lz4 : Xorb.Lz4) (s : Service) (fileHash : FileHash) (w : Destination) : Prop :=
  (lastVersion blake3 lz4 s fileHash w).1 ≠ [] ∧ (lastVersion blake3 lz4 s fileHash w).2 = 0

theorem downloadFile_written (honest : s.Honest blake3 lz4 xorb file) (fileHash : FileHash) (w : Destination)
    (done : (downloadFile blake3 lz4 s fileHash w).1 = .ok ()) :
    (w.content <+: file → (lastVersion blake3 lz4 s fileHash w).1 <+: file) ∧
    ((lastVersion blake3 lz4 s fileHash w).1.length ≤ file.length ↔ w.content.length ≤ file.length) ∧
    (lastVersion blake3 lz4 s fileHash w).2 ≤ (lastVersion blake3 lz4 s fileHash w).1.length ∧
    (downloadFile blake3 lz4 s fileHash w).2.content =
      writeAt (lastVersion blake3 lz4 s fileHash w).1 (file.drop (lastVersion blake3 lz4 s fileHash w).2)
        (lastVersion blake3 lz4 s fileHash w).2 := by
  obtain ⟨d, part, written, whole⟩ := downloadThrough_written honest.servesV2 s.writesV2 fileHash w
  rcases run : downloadFileV2 blake3 lz4 s fileHash w with ⟨e | ⟨⟩, w'⟩
  · simp only [downloadFile, lastVersion, run] at done ⊢
    cases missing : e.notFound with
    | false => simp [missing] at done
    | true =>
      rw [if_pos missing] at done
      rw [downloadFileV2] at run
      rw [run] at written
      obtain ⟨d', -, written', whole'⟩ := downloadThrough_written honest.servesV1 s.writesV1 fileHash w'
      refine ⟨fun start => ?_, ?_, resumedFrom_le _ _, ?_⟩
      · rw [written]
        exact writeAt_start (resumedFrom_le _ _) start part
      · rw [written]
        exact writeAt_length_le (resumedFrom_le _ _) part
      · rw [if_pos rfl, ← whole' done]
        exact written'
  · simp only [downloadFile, lastVersion, run]
    rw [downloadFileV2] at run
    rw [run] at written whole
    refine ⟨fun start => start, trivial, resumedFrom_le _ _, ?_⟩
    rw [← whole rfl]
    exact written

/-- A download that succeeds leaves the file exactly when the initial content was not longer than the file and what
the last version kept are first bytes of the file. For first bytes of the file that is so, and a last version that
starts from the beginning keeps nothing. -/
theorem download_leaves_file_iff (blake3 : Keyed) (lz4 : Xorb.Lz4) (s : Service) (xorb : Bytes → Nat → Bytes)
    (file : Bytes) (honest : s.Honest blake3 lz4 xorb file) (fileHash : FileHash) (w : Destination)
    (done : (downloadFile blake3 lz4 s fileHash w).1 = .ok ()) :
    (w.content <+: file → (downloadFile blake3 lz4 s fileHash w).2.content = file) ∧
    ((downloadFile blake3 lz4 s fileHash w).2.content = file ↔
      (lastVersion blake3 lz4 s fileHash w).1.take (lastVersion blake3 lz4 s fileHash w).2 <+: file ∧
        w.content.length ≤ file.length) ∧
    ((lastVersion blake3 lz4 s fileHash w).2 = 0 →
      ((downloadFile blake3 lz4 s fileHash w).2.content = file ↔ w.content.length ≤ file.length)) := by
  obtain ⟨start, length, inside, written⟩ := downloadFile_written honest fileHash w done
  have exactly := written ▸ writeAt_drop_eq_iff inside
  rw [length] at exactly
  refine ⟨fun held => ?_, exactly, fun restarts => ?_⟩
  · exact exactly.mpr ⟨(List.take_prefix _ _).trans (start held), held.length_le⟩
  · rw [exactly, restarts, take_zero]
    exact and_iff_right nil_prefix

end

def remoteClient : Client RequestError where
  download key _ := .ok (Xorb.slice sampleStored.data key.start.toNat (key.last - key.start + 1).toNat)
  cached _ _ := none
  closes _ _ := false

def rangeless : Service where
  getReconstructionV1 _ := .error .notFound
  getReconstructionV2
    | none => .ok sampleWholeV2
    | some _ => .error (.other 416)
  clientV1 := remoteClient
  clientV2 := remoteClient
  writesV1 _ chunk := (chunk.length, false)
  writesV2 _ chunk := (chunk.length, false)

def sampleContent : Bytes := [1, 2, 3, 4, 5, 4, 5]

theorem rangeless_truthful : Truthful sampleHashes storedLz4 remoteClient sampleChunks (planReaderV2 sampleWholeV2) 0
    sampleWholeV2.terms (some sampleFile) where
  decodes := by
    refine ⟨[⟨⟨formatHash sampleXorb, 0, 20⟩, ⟨0, 2⟩⟩, ⟨⟨formatHash sampleXorb, 11, 20⟩, ⟨1, 2⟩⟩],
      [⟨⟨formatHash sampleXorb, 0, 20⟩, [120], ⟨0, 2⟩⟩, ⟨⟨formatHash sampleXorb, 11, 20⟩, [120], ⟨1, 2⟩⟩],
      eq_ok_of_toOption (by decide +kernel), fun s member => ?_⟩
    rcases mem_pair.mp member with rfl | rfl
    · exact ⟨⟨[⟨[1, 2, 3], some sampleFirst⟩, ⟨[4, 5], some sampleSecond⟩], .complete⟩,
        eq_ok_of_toOption (by decide +kernel), rfl, rfl⟩
    · exact ⟨⟨[⟨[4, 5], some sampleSecond⟩], .complete⟩, eq_ok_of_toOption (by decide +kernel), rfl, rfl⟩
  positive := le_refl 0
  inside := by decide
  verifies := by
    intro h same
    cases same
    exact ⟨rfl, by decide +kernel⟩

theorem rangeless_honest : rangeless.Honest sampleHashes storedLz4 sampleChunks sampleContent where
  v1 := nofun
  v2 := by
    intro range r answer
    cases range with
    | none =>
      cases answer
      exact rangeless_truthful.announces
    | some k => cases answer

theorem rangeless_resumedFrom (c : Bytes) : resumedFrom rangeless.apiV2 c = 0 := by
  cases c <;> simp [resumedFrom, rangeFrom, Service.apiV2, rangeless, RequestError.restarts]

theorem rangeless_succeeds (w : Destination) :
    (downloadFileV2 sampleHashes storedLz4 rangeless sampleFile w).1 = .ok () := by
  obtain ⟨reader, opened, ready⟩ := readyV2 rangeless_truthful
  have healthy : reader.err = none := ready_yields.healthy ready
  have copied : (reader.writeTo sampleHashes storedLz4 remoteClient rangeless.writesV2).1 = ⟨sampleContent, none⟩ := by
    rw [Reader.writeTo, healthy]
    rcases writeLoop_drained rangeless.writesV2 0 reader ready with ⟨all, -⟩ | ⟨refused, -⟩
    · exact all
    · exact absurd (fun _ _ => rfl) refused
  apply downloadThrough_ok (r := sampleWholeV2) _ _ copied
  · decide +kernel
  · rw [rangeless_resumedFrom]
    rfl
  · rw [rangeless_resumedFrom]
    exact opened

theorem rangeless_downloadFile (w : Destination) :
    (downloadFile sampleHashes storedLz4 rangeless sampleFile w).1 = .ok () ∧
      lastVersion sampleHashes storedLz4 rangeless sampleFile w = (w.content, 0) := by
  have done := rangeless_succeeds w
  rcases run : downloadFileV2 sampleHashes storedLz4 rangeless sampleFile w with ⟨e | ⟨⟩, w'⟩
  · rw [run] at done
    cases done
  · simp only [downloadFile, lastVersion, run, rangeless_resumedFrom, and_self]

theorem short_content_replaced :
    (downloadFile sampleHashes storedLz4 rangeless sampleFile ⟨[9, 9], 0⟩).2.content = sampleContent := by
  obtain ⟨done, last⟩ := rangeless_downloadFile ⟨[9, 9], 0⟩
  have exactly := (download_leaves_file_iff _ _ _ _ _ rangeless_honest sampleFile ⟨[9, 9], 0⟩ done).2.2
  rw [last] at exactly
  exact (exactly rfl).mpr (by decide)

/-- A longer content keeps its end. -/
theorem long_content_kept :
    ¬ ∀ (blake3 : Keyed) (lz4 : Xorb.Lz4) (s : Service) (xorb : Bytes → Nat → Bytes) (file : Bytes),
      s.Honest blake3 lz4 xorb file → ∀ (fileHash : FileHash) (w : Destination),
      (downloadFile blake3 lz4 s fileHash w).1 = .ok () →
      w.content <+: file ∨ Restarted blake3 lz4 s fileHash w →
      (downloadFile blake3 lz4 s fileHash w).2.content = file := by
  intro leaves
  obtain ⟨done, last⟩ := rangeless_downloadFile ⟨sampleContent ++ [9], 0⟩
  have same := leaves _ _ _ _ _ rangeless_honest sampleFile ⟨sampleContent ++ [9], 0⟩ done
    (.inr (by rw [Restarted, last]; exact ⟨nofun, rfl⟩))
  obtain ⟨-, -, -, written⟩ := downloadFile_written rangeless_honest sampleFile _ done
  rw [last, same] at written
  exact absurd written (by decide)

end Xet.Client
