import Xet.Lib.Calls
import Xet.Lib.Text
import Xet.Lib.Wire

/-! Plain downloads into a spool. A download is a program of requests and writes; each attempt begins where
the spool ends, and the spool only grows. -/
namespace Xet.Mirror
open Wire Text Calls List Prog

/-- A body as it is read: its pieces, and whether it ends or breaks off after them. -/
structure Body where
  pieces : List Bytes
  clean : Bool

structure Response where
  status : Nat
  contentLength : Option Nat
  contentRange : Bytes
  body : Body

inductive FetchError where
  | noResponse
  | status (code : Nat)
  | skip
  | stream
  | write
  | canceled
  | attempts (last : FetchError)

def skipBytes : Nat → List Bytes → Option (List Bytes)
  | 0, pieces => some pieces
  | _ + 1, [] => none
  | n + 1, p :: pieces => if n + 1 < p.length then some (p.drop (n + 1) :: pieces) else skipBytes (n + 1 - p.length) pieces

def parseTotal (s : Bytes) : Option Nat :=
  match s with
  | 43 :: digits => parseUint digits 10 63
  | 45 :: digits => (parseUint digits 10 64).bind fun n => if n = 0 then some 0 else none
  | digits => parseUint digits 10 63

def parseContentRangeTotal (value : Bytes) : Option Nat :=
  if (47 : UInt8) ∈ value then parseTotal ((value.reverse.takeWhile (· ≠ 47)).reverse) else none

inductive FetchCall where
  | written
  | get (offset : Nat)
  | setSize (n : Nat)
  | write (p : Bytes)
  | sleep (attempt : Nat)

abbrev FetchReply : FetchCall → Type
  | .written => Nat
  | .get _ => Option Response
  | .setSize _ => Unit
  | .write _ => Bool
  | .sleep _ => Bool

/-- The spool with its size, if known, and what is to come: an answer to each request, how much each write
takes if it does not take all, and whether each pause is left to its end. -/
structure Transfer where
  bytes : Bytes
  size : Option Nat
  answers : List (Nat → Option Response)
  writes : List (Option Nat)
  sleeps : List Bool

/-- The first size that is learned stays. -/
def Transfer.step : (c : FetchCall) → Transfer → FetchReply c × Transfer
  | .written, s => (s.bytes.length, s)
  | .get offset, s =>
    match s.answers with
    | [] => (none, s)
    | answer :: answers => (answer offset, { s with answers })
  | .setSize n, s => ((), { s with size := some (s.size.getD n) })
  | .write p, s =>
    match s.writes with
    | [] => (true, { s with bytes := s.bytes ++ p })
    | none :: writes => (true, { s with bytes := s.bytes ++ p, writes })
    | some n :: writes => (false, { s with bytes := s.bytes ++ p.take n, writes })
  | .sleep attempt, s =>
    if attempt = 0 then (true, s)
    else
      match s.sleeps with
      | [] => (true, s)
      | slept :: sleeps => (slept, { s with sleeps })

abbrev FetchProg := Prog FetchCall FetchReply

def copyBody (clean : Bool) : List Bytes → FetchProg (Except FetchError Unit)
  | [] => pure (if clean then .ok () else .error .stream)
  | p :: pieces => do
    let whole : Bool ← Prog.perform (FetchCall.write p)
    if whole then copyBody clean pieces else pure (.error .write)

def setTotal : Option Nat → FetchProg Unit
  | some n => Prog.perform (FetchCall.setSize n)
  | none => pure ()

/-- What an attempt does with the answer to its request for the bytes from `offset` on. -/
def receive (offset : Nat) : Option Response → FetchProg (Except FetchError Unit)
  | none => pure (.error .noResponse)
  | some resp =>
    if offset = 0 ∧ resp.status = 200 then do
      setTotal resp.contentLength
      copyBody resp.body.clean resp.body.pieces
    else if 0 < offset ∧ resp.status = 206 then do
      setTotal (parseContentRangeTotal resp.contentRange)
      copyBody resp.body.clean resp.body.pieces
    else if 0 < offset ∧ resp.status = 200 then
      -- The range was ignored: what the spool holds already is skipped.
      match skipBytes offset resp.body.pieces with
      | some pieces => copyBody resp.body.clean pieces
      | none => pure (.error .skip)
    else pure (.error (.status resp.status))

def fetchPlainOnce : FetchProg (Except FetchError Unit) := do
  let offset : Nat ← Prog.perform FetchCall.written
  let answer : Option Response ← Prog.perform (FetchCall.get offset)
  receive offset answer

def fetchWithRetries (fetch : FetchProg (Except FetchError Unit)) :
    Nat → Nat → FetchError → FetchProg (Except FetchError Unit)
  | 0, _, last => pure (.error (.attempts last))
  | left + 1, attempt, _ => do
    let slept : Bool ← Prog.perform (FetchCall.sleep attempt)
    if slept then do
      match ← fetch with
      | .ok () => pure (.ok ())
      | .error e => fetchWithRetries fetch left (attempt + 1) e
    else pure (.error .canceled)

def maxFetchAttempts : Nat := 5

def fetchPlain : FetchProg (Except FetchError Unit) := fetchWithRetries fetchPlainOnce maxFetchAttempts 0 .noResponse

open Transfer

theorem Transfer.step_grows (c : FetchCall) (s : Transfer) : s.bytes <+: (step c s).2.bytes := by
  cases c with
  | written => exact prefix_rfl
  | get offset =>
    cases answers : s.answers <;> simp [step, answers]
  | setSize n => exact prefix_rfl
  | write p =>
    cases writes : s.writes with
    | nil => simp [step, writes]
    | cons first others => cases first <;> simp [step, writes]
  | sleep attempt =>
    by_cases zero : attempt = 0
    · simp [step, zero]
    · cases sleeps : s.sleeps <;> simp [step, zero, sleeps]

variable {pieces : List Bytes}

theorem skipBytes_eq_some {n : Nat} {rest : List Bytes} (skipped : skipBytes n pieces = some rest) :
    n ≤ pieces.flatten.length ∧ rest.flatten = pieces.flatten.drop n := by
  fun_induction skipBytes n pieces with
  | case1 pieces =>
    cases skipped
    exact ⟨Nat.zero_le _, rfl⟩
  | case2 n => cases skipped
  | case3 n p pieces short =>
    cases skipped
    constructor
    · simp only [flatten_cons, length_append]
      omega
    · rw [flatten_cons, flatten_cons, drop_append_of_le_length short.le]
  | case4 n p pieces long ih =>
    obtain ⟨enough, dropped⟩ := ih skipped
    constructor
    · simp only [flatten_cons, length_append]
      omega
    · have past : p.drop (n + 1) = [] := drop_eq_nil_of_le (by omega)
      rw [dropped, flatten_cons, drop_append, past, nil_append]

/-- The bytes that come in are some of `expected` from its start, and all of them if the body ends. -/
structure Body.Delivers (b : Body) (expected : Bytes) : Prop where
  start : b.pieces.flatten <+: expected
  whole : b.clean = true → b.pieces.flatten = expected

/-- A request from an offset on is answered with the bytes from there or with all bytes of the body, or
fails. -/
structure Response.Serves (r : Response) (body : Bytes) (offset : Nat) : Prop where
  all : r.status = 200 → r.body.Delivers body
  rest : 0 < offset → r.status = 206 → r.body.Delivers (body.drop offset)

/-- The spool holds the first bytes of the body, and every answer to come serves the body. -/
structure Transfer.Of (body : Bytes) (s : Transfer) : Prop where
  held : s.bytes <+: body
  served : ∀ answer ∈ s.answers, ∀ offset r, answer offset = some r → r.Serves body offset

def Complete (body : Bytes) (r : Except FetchError Unit) (s : Transfer) : Prop := r = .ok () → s.bytes = body

theorem Transfer.step_write (p : Bytes) (s : Transfer) :
    (∃ n, (step (.write p) s).2.bytes = s.bytes ++ p.take n) ∧
      ((step (.write p) s).1 = true → (step (.write p) s).2.bytes = s.bytes ++ p) ∧
      (step (.write p) s).2.answers = s.answers := by
  have all : s.bytes ++ p = s.bytes ++ p.take p.length := by rw [take_length]
  cases writes : s.writes with
  | nil =>
    have stepped : step (.write p) s = (true, { s with bytes := s.bytes ++ p }) := by
      simp only [step, writes]
    exact stepped ▸ ⟨⟨p.length, all⟩, fun _ => rfl, rfl⟩
  | cons first others =>
    cases first with
    | none =>
      have stepped : step (.write p) s = (true, { s with bytes := s.bytes ++ p, writes := others }) := by
        simp only [step, writes]
      exact stepped ▸ ⟨⟨p.length, all⟩, fun _ => rfl, rfl⟩
    | some n =>
      have stepped : step (.write p) s =
          (false, { s with bytes := s.bytes ++ p.take n, writes := others }) := by
        simp only [step, writes]
      exact stepped ▸ ⟨⟨n, rfl⟩, nofun, rfl⟩

variable {s : Transfer}

theorem Transfer.Of.write {body p rest : Bytes} (of : s.Of body) (fits : s.bytes ++ (p ++ rest) <+: body) :
    (step (.write p) s).2.Of body := by
  obtain ⟨⟨n, part⟩, -, same⟩ := step_write p s
  constructor
  · have taken : p.take n <+: p ++ rest := ( take_prefix n p).trans (prefix_append p rest)
    exact part ▸ ((prefix_append_right_inj _).mpr taken).trans fits
  · exact same ▸ of.served

theorem Transfer.Of.get {body : Bytes} (of : s.Of body) (offset : Nat) :
    (step (.get offset) s).2.Of body ∧
      ∀ r, (step (.get offset) s).1 = some r → r.Serves body offset := by
  cases answers : s.answers with
  | nil =>
    simp only [step, answers]
    exact ⟨of, nofun⟩
  | cons answer others =>
    simp only [step, answers]
    refine ⟨⟨of.held, ?_⟩, of.served answer (by simp [answers]) offset⟩
    intro later mem
    exact of.served later (by simp [answers, mem])

theorem Transfer.Of.sleep {body : Bytes} (of : s.Of body) (attempt : Nat) : (step (.sleep attempt) s).2.Of body := by
  by_cases zero : attempt = 0
  · simpa only [step, zero, if_true] using of
  · cases sleeps : s.sleeps with
    | nil => simpa only [step, zero, if_false, sleeps] using of
    | cons slept others =>
      simp only [step, zero, if_false, sleeps]
      exact ⟨of.held, of.served⟩

section
variable {body : Bytes} (of : s.Of body)
include of

theorem copyBody_meets {clean : Bool} (fits : s.bytes ++ pieces.flatten <+: body)
    (whole : clean = true → s.bytes ++ pieces.flatten = body) :
    (copyBody clean pieces).Meets step (Transfer.Of body) (Complete body) s := by
  induction pieces generalizing s with
  | nil =>
    rw [flatten_nil, append_nil] at whole
    intro ended
    cases clean with
    | true => exact whole rfl
    | false => cases ended
  | cons p pieces ih =>
    rw [flatten_cons] at fits whole
    have next := of.write fits
    obtain ⟨-, full, -⟩ := step_write p s
    apply meets_bind.mpr
    refine meets_perform.mpr ⟨next, ?_⟩
    cases reply : (step (.write p) s).1 with
    | false => exact nofun
    | true =>
      have grown := full reply
      apply ih next
      · rwa [grown, append_assoc]
      · rwa [grown, append_assoc]

theorem setTotal_meets (n : Option Nat) :
    (setTotal n).Meets step (Transfer.Of body) (fun _ t => t.Of body ∧ t.bytes = s.bytes) s := by
  cases n with
  | none => exact ⟨of, rfl⟩
  | some n =>
    have next : (step (.setSize n) s).2.Of body := ⟨of.held, of.served⟩
    exact ⟨next, next, rfl⟩

theorem copyBody_rest_meets {clean : Bool} (start : pieces.flatten <+: body.drop s.bytes.length)
    (whole : clean = true → pieces.flatten = body.drop s.bytes.length) :
    (copyBody clean pieces).Meets step (Transfer.Of body) (Complete body) s := by
  have rejoined : s.bytes ++ body.drop s.bytes.length = body := prefix_append_drop of.held |>.symm
  apply copyBody_meets of
  · rw [← rejoined]
    exact (prefix_append_right_inj _).mpr start
  · intro ended
    rw [whole ended, rejoined]

theorem setTotal_copyBody_meets (n : Option Nat) {b : Body} (delivers : b.Delivers (body.drop s.bytes.length)) :
    (do setTotal n; copyBody b.clean b.pieces).Meets step (Transfer.Of body) (Complete body) s := by
  apply meets_bind.mpr
  apply (setTotal_meets of n).mono (fun _ same => same)
  rintro - t ⟨next, same⟩
  rw [← same] at delivers
  exact copyBody_rest_meets next delivers.start delivers.whole

theorem receive_meets {answer : Option Response} (served : ∀ r, answer = some r → r.Serves body s.bytes.length) :
    (receive s.bytes.length answer).Meets step (Transfer.Of body) (Complete body) s := by
  cases answer with
  | none => exact nofun
  | some resp =>
    have serves := served resp rfl
    simp only [receive]
    split_ifs with first rest again
    · have delivers := serves.all first.2
      apply setTotal_copyBody_meets of
      rwa [first.1]
    · exact setTotal_copyBody_meets of _ (serves.rest rest.1 rest.2)
    · have delivers := serves.all again.2
      cases skipped : skipBytes s.bytes.length resp.body.pieces with
      | none => exact nofun
      | some pieces =>
        obtain ⟨-, dropped⟩ := skipBytes_eq_some skipped
        apply copyBody_rest_meets of
        · rw [dropped]
          exact delivers.start.drop _
        · intro ended
          rw [dropped, delivers.whole ended]
    · exact nofun

theorem fetchPlainOnce_meets : fetchPlainOnce.Meets step (Transfer.Of body) (Complete body) s := by
  obtain ⟨next, served⟩ := of.get s.bytes.length
  have same : (step (.get s.bytes.length) s).2.bytes = s.bytes := by
    cases answers : s.answers <;> simp only [step, answers]
  refine meets_bind.mpr (meets_perform.mpr ⟨of, ?_⟩)
  refine meets_bind.mpr (meets_perform.mpr ⟨next, ?_⟩)
  have received := receive_meets next (same.symm ▸ served)
  rwa [same] at received

end

theorem fetchWithRetries_meets {body : Bytes} {fetch : FetchProg (Except FetchError Unit)}
    (each : ∀ s : Transfer, s.Of body → fetch.Meets step (Transfer.Of body) (Complete body) s)
    (of : s.Of body) (left attempt : Nat) (last : FetchError) :
    (fetchWithRetries fetch left attempt last).Meets step (Transfer.Of body) (Complete body) s := by
  induction left generalizing s attempt last with
  | zero => exact nofun
  | succ left ih =>
    refine meets_bind.mpr (meets_perform.mpr ⟨of.sleep attempt, ?_⟩)
    cases (step (.sleep attempt) s).1 with
    | false => exact nofun
    | true =>
      apply meets_bind.mpr
      apply ((each _ (of.sleep attempt)).final (of.sleep attempt)).mono (fun _ same => same)
      rintro r t ⟨complete, next⟩
      cases r with
      | ok _ => exact fun _ => complete rfl
      | error e => exact ih next (attempt + 1) e

/-- The spool holds the first bytes of the body and never shrinks, wherever a download is stopped, and when
the download succeeds it holds the whole body. -/
theorem plain_download_resumes (body : Bytes) (s : Transfer) (of : s.Of body) :
    (∀ k, (fetchPlain.stopped Transfer.step k s).bytes <+: body) ∧
      (∀ j k, j ≤ k →
        (fetchPlain.stopped Transfer.step j s).bytes <+: (fetchPlain.stopped Transfer.step k s).bytes) ∧
      ((fetchPlain.run Transfer.step s).1 = .ok () → (fetchPlain.run Transfer.step s).2.bytes = body) := by
  have meets : fetchPlain.Meets Transfer.step (Transfer.Of body) (Complete body) s :=
    fetchWithRetries_meets (fun _ => fetchPlainOnce_meets) of _ _ _
  refine ⟨fun k => (meets.stopped of k).held, ?_, meets.run⟩
  intro j k le
  exact Prog.stopped_mono (R := fun s t => s.bytes <+: t.bytes) (fun _ => List.prefix_rfl)
    (fun _ _ _ => List.IsPrefix.trans) Transfer.step_grows fetchPlain le s

/-- A body that is cut off twice, the second time in an answer that ignores the range. -/
def sampleTransfer : Transfer where
  bytes := [1]
  size := none
  answers := [
    fun offset => some ⟨206, none, ascii "bytes 1-3/4", ⟨[([1, 2, 3, 4].drop offset).take 1], false⟩⟩,
    fun _ => some ⟨200, some 4, [], ⟨[[1], [2, 3]], false⟩⟩,
    fun offset => some ⟨206, none, ascii "bytes 3-3/4", ⟨[[1, 2, 3, 4].drop offset], true⟩⟩]
  writes := []
  sleeps := []

theorem sampleTransfer_of : sampleTransfer.Of [1, 2, 3, 4] where
  held := by decide
  served := by
    intro answer mem offset r answered
    simp only [sampleTransfer, mem_cons, not_mem_nil, or_false] at mem
    rcases mem with rfl | rfl | rfl
    · cases answered
      refine ⟨nofun, fun _ _ => ⟨?_, nofun⟩⟩
      simpa using take_prefix 1 _
    · cases answered
      exact ⟨fun _ => ⟨by decide, nofun⟩, nofun⟩
    · cases answered
      exact ⟨nofun, fun _ _ => ⟨by simp, fun _ => by simp⟩⟩

theorem sample_download_resumes :
    (fetchPlain.run Transfer.step sampleTransfer).1 = .ok () ∧
      (fetchPlain.run Transfer.step sampleTransfer).2.bytes = [1, 2, 3, 4] := by
  have ended : (fetchPlain.run Transfer.step sampleTransfer).1 = .ok () := rfl
  exact ⟨ended, (plain_download_resumes _ _ sampleTransfer_of).2.2 ended⟩

end Xet.Mirror
