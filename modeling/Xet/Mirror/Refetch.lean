import Xet.Mirror.Fetch

/-! What becomes of a spool that is complete although an attempt failed. -/
namespace Xet.Mirror
open Wire Text Calls Transfer Prog

inductive TaskEnd where
  | failed (e : FetchError)
  | mismatch (got want : Nat)
  | ingested (data : Bytes)

/-- The bytes are handed on for ingestion unless the download failed or their number is not the known size. -/
def finish : Except FetchError Unit → Transfer → TaskEnd
  | .error e, _ => .failed e
  | .ok (), s =>
    match s.size with
    | none => .ingested s.bytes
    | some want => if s.bytes.length = want then .ingested s.bytes else .mismatch s.bytes.length want

/-- A spool that is complete when the task starts is not fetched again. -/
def runTask (s : Transfer) : TaskEnd :=
  if s.size = some s.bytes.length then finish (.ok ()) s
  else finish (fetchPlain.run Transfer.step s).1 (fetchPlain.run Transfer.step s).2

inductive Failed (s : Transfer) : Nat → Transfer → Prop
  | start : Failed s 0 s
  | attempt {k : Nat} {t : Transfer} {e : FetchError} (before : Failed s k t)
      (slept : (Transfer.step (.sleep k) t).1 = true)
      (error : (fetchPlainOnce.run Transfer.step (Transfer.step (.sleep k) t).2).1 = .error e) :
      Failed s (k + 1) (fetchPlainOnce.run Transfer.step (Transfer.step (.sleep k) t).2).2

/-- An attempt of the task failed with the whole body in the spool, and attempts remain. -/
def CompleteEarly (body : Bytes) (s : Transfer) : Prop :=
  s.size ≠ some s.bytes.length ∧ ∃ k t, 0 < k ∧ k < maxFetchAttempts ∧ Failed s k t ∧ t.bytes = body

/-- A request inside the body is answered with the rest of it, and one from its end on is refused. -/
structure Response.HonoursRange (r : Response) (body : Bytes) (offset : Nat) : Prop where
  serves : r.Serves body offset
  ranged : 0 < offset → r.status ≠ 200
  ended : 0 < offset → body.length ≤ offset → r.status ≠ 206

def Transfer.Ranged (body : Bytes) (s : Transfer) : Prop :=
  ∀ answer ∈ s.answers, ∀ offset r, answer offset = some r → r.HonoursRange body offset

theorem run_fetchWithRetries (fetch : FetchProg (Except FetchError Unit)) (left attempt : Nat) (last : FetchError)
    (s : Transfer) (slept : (step (.sleep attempt) s).1 = true) :
    (fetchWithRetries fetch (left + 1) attempt last).run step s =
      match (fetch.run step (step (.sleep attempt) s).2).1 with
      | .ok () => (.ok (), (fetch.run step (step (.sleep attempt) s).2).2)
      | .error e => (fetchWithRetries fetch left (attempt + 1) e).run step
          (fetch.run step (step (.sleep attempt) s).2).2 := by
  simp only [fetchWithRetries, run_bind, perform, Prog.run, slept, if_true]
  cases (fetch.run step (step (.sleep attempt) s).2).1 <;> rfl

variable {s : Transfer}

theorem Failed.run_eq {t : Transfer} {k : Nat} (failed : Failed s k t) (few : k ≤ maxFetchAttempts) :
    ∃ last, fetchPlain.run step s =
      (fetchWithRetries fetchPlainOnce (maxFetchAttempts - k) k last).run step t := by
  induction failed with
  | start => exact ⟨_, rfl⟩
  | @attempt k t e before slept error ih =>
    obtain ⟨last, same⟩ := ih (by omega)
    have left : maxFetchAttempts - k = maxFetchAttempts - (k + 1) + 1 := by omega
    rw [left, run_fetchWithRetries _ _ _ _ _ slept, error] at same
    exact ⟨e, same⟩

theorem Transfer.step_answers (c : FetchCall) (s : Transfer) : (step c s).2.answers ⊆ s.answers := by
  cases c with
  | written => exact List.Subset.refl _
  | get offset => cases answers : s.answers <;> simp [step, answers]
  | setSize n => exact List.Subset.refl _
  | write p => simp [(step_write p s).2.2]
  | sleep attempt =>
    by_cases zero : attempt = 0
    · simp [step, zero]
    · cases sleeps : s.sleeps <;> simp [step, zero, sleeps]

theorem Transfer.run_answers {α : Type} (p : FetchProg α) (s : Transfer) : (p.run step s).2.answers ⊆ s.answers :=
  Prog.run_forward (R := fun s t => t.answers ⊆ s.answers) (fun _ => List.Subset.refl _)
    (fun _ _ _ first second => List.Subset.trans second first) step_answers p s

theorem Failed.answers {t : Transfer} {k : Nat} (failed : Failed s k t) : t.answers ⊆ s.answers := by
  induction failed with
  | start => exact List.Subset.refl _
  | @attempt k t e before slept error ih =>
    exact List.Subset.trans (run_answers _ _) (List.Subset.trans (step_answers _ _) ih)

/-- The spool holds the whole body, and the upstream honours ranges. -/
structure Stuck (body : Bytes) (s : Transfer) : Prop where
  nonempty : body ≠ []
  complete : s.bytes = body
  ranged : s.Ranged body

section
variable {body : Bytes} (stuck : Stuck body s)
include stuck

theorem Stuck.sleep (attempt : Nat) :
    Stuck body (step (.sleep attempt) s).2 where
  nonempty := stuck.nonempty
  complete := by
    rw [← stuck.complete]
    by_cases zero : attempt = 0
    · simp [step, zero]
    · cases sleeps : s.sleeps <;> simp [step, zero, sleeps]
  ranged := fun answer mem => stuck.ranged answer (step_answers _ _ mem)

theorem Stuck.fetchPlainOnce : ∃ e t, fetchPlainOnce.run step s = (.error e, t) ∧ Stuck body t := by
  have inside : 0 < s.bytes.length := by
    rw [stuck.complete]
    exact List.length_pos_iff.mpr stuck.nonempty
  simp only [Mirror.fetchPlainOnce, run_bind, perform, Prog.run]
  cases answers : s.answers with
  | nil =>
    refine ⟨.noResponse, s, ?_, stuck⟩
    simp [step, answers, receive, pure, Prog.run]
  | cons answer others =>
    have same : ∀ later ∈ others, later ∈ s.answers := fun later mem => by simp [answers, mem]
    have left : Stuck body { s with answers := others } :=
      ⟨stuck.nonempty, stuck.complete, fun later mem => stuck.ranged later (same later mem)⟩
    cases reply : answer s.bytes.length with
    | none =>
      refine ⟨.noResponse, _, ?_, left⟩
      simp [step, answers, reply, receive, pure, Prog.run]
    | some resp =>
      have honours := stuck.ranged answer (by simp [answers]) _ _ reply
      have whole := honours.ranged inside
      have rest := honours.ended inside (by rw [stuck.complete])
      refine ⟨.status resp.status, _, ?_, left⟩
      simp [step, answers, reply, receive, whole, rest, pure, Prog.run]

theorem Stuck.fails (left attempt : Nat) (last : FetchError) :
    ∃ e, ((fetchWithRetries Mirror.fetchPlainOnce left attempt last).run step s).1 = .error e := by
  induction left generalizing s attempt last with
  | zero => exact ⟨_, rfl⟩
  | succ left ih =>
    cases slept : (step (.sleep attempt) s).1 with
    | false =>
      refine ⟨.canceled, ?_⟩
      simp [fetchWithRetries, run_bind, perform, Prog.run, slept, pure]
    | true =>
      obtain ⟨e, t, fetched, next⟩ := (stuck.sleep attempt).fetchPlainOnce
      rw [run_fetchWithRetries _ _ _ _ _ slept, fetched]
      exact ih next (attempt + 1) e

end

/-- A spool that a failed attempt left complete is always thrown away: the attempts that remain start at the
end of the body, all of them are refused, and the task ends with that failure instead of the body. -/
theorem complete_spool_lost {body : Bytes} (early : CompleteEarly body s) (nonempty : body ≠ [])
    (ranged : s.Ranged body) :
    ¬ ((fetchPlain.run step s).1 = .ok () ∧ runTask s = .ingested body) ∧
      ∃ e, (fetchPlain.run step s).1 = .error e ∧ runTask s = .failed e := by
  obtain ⟨fetches, k, t, -, few, failed, complete⟩ := early
  have stuck : Stuck body t := ⟨nonempty, complete, fun answer mem => ranged answer (failed.answers mem)⟩
  obtain ⟨last, same⟩ := failed.run_eq few.le
  obtain ⟨e, failure⟩ := stuck.fails (maxFetchAttempts - k) k last
  rw [← same] at failure
  refine ⟨fun kept => ?_, e, failure, ?_⟩
  · rw [kept.1] at failure
    cases failure
  · rw [runTask, if_neg fetches, failure, finish]

def unterminated (offset : Nat) : Option Response :=
  if offset = 0 then some ⟨200, none, [], ⟨[[1, 2], [3]], false⟩⟩ else some ⟨416, none, [], ⟨[], true⟩⟩

def unterminatedTransfer : Transfer := ⟨[], some 3, List.replicate 5 unterminated, [], []⟩

theorem unterminated_honours {offset : Nat} {r : Response} (answered : unterminated offset = some r) :
    r.HonoursRange [1, 2, 3] offset := by
  unfold unterminated at answered
  split_ifs at answered with start
  · cases answered
    refine ⟨⟨fun _ => ⟨by decide, nofun⟩, nofun⟩, ?_, nofun⟩
    intro positive
    omega
  · cases answered
    exact ⟨⟨nofun, nofun⟩, nofun, nofun⟩

theorem unterminatedTransfer_ranged : unterminatedTransfer.Ranged [1, 2, 3] := by
  intro answer mem offset r answered
  cases List.eq_of_mem_replicate mem
  exact unterminated_honours answered

theorem unterminatedTransfer_early : CompleteEarly [1, 2, 3] unterminatedTransfer := by
  refine ⟨by decide, 1, _, by decide, by decide, Failed.attempt (e := .stream) .start rfl rfl, rfl⟩

theorem unterminated_lost : CompleteEarly [1, 2, 3] unterminatedTransfer ∧
    ∃ e, runTask unterminatedTransfer = .failed e := by
  obtain ⟨-, e, -, failed⟩ := complete_spool_lost unterminatedTransfer_early nofun unterminatedTransfer_ranged
  exact ⟨unterminatedTransfer_early, e, failed⟩

/-- The whole body has arrived with the first attempt, and the task fails with the refusal of the last one. -/
theorem unterminated_body_lost :
    ¬ ∀ (body : Bytes) (s : Transfer), body ≠ [] → s.size = some body.length → s.Ranged body →
      CompleteEarly body s → (fetchPlain.run Transfer.step s).1 = .ok () ∧ runTask s = .ingested body := by
  intro kept
  have failure : (fetchPlain.run Transfer.step unterminatedTransfer).1 = .error (.attempts (.status 416)) := rfl
  have kept := kept [1, 2, 3] unterminatedTransfer nofun rfl unterminatedTransfer_ranged unterminatedTransfer_early
  rw [failure] at kept
  cases kept.1

end Xet.Mirror
