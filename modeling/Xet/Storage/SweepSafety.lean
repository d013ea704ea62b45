import Xet.Storage.PutSafety
import Xet.Storage.Sweep

/-! Sweeping keeps the store sound at every single delete. -/
namespace Xet.Storage
open Wire Calls Shard List

section
variable {env : Env} {lastWriter : Bool} {st : Store}

section
variable (inv : Sound env lastWriter st)
include inv

theorem Sound.removed_eraseShard {fails : Bool} {h : ShardHash} {sh : Shard} {t : Store}
    (loaded : loadOutcome fails st h = .ok sh) (removed : Removed (sweptNames sh) h st t)
    (now : Sound env lastWriter t) : Sound env lastWriter (t.erase .shards h) := by
  obtain ⟨s, stored, files, casInfos⟩ := loadOutcome_ok loaded
  apply now.eraseShard
  intro i name points
  rcases removed.entry i name with same | ⟨empty, -⟩
  · rw [same] at points
    obtain ⟨s', stored', listed⟩ := inv.entries i name h points
    rw [stored] at stored'
    cases stored'
    have swept : name ∈ sweptNames sh i := by
      rw [sweptNames_congr files casInfos]
      exact indexNames_swept listed
    have gone := removed.gone i name swept points
    rw [same, points] at gone
    cases gone
  · rw [empty] at points
    cases points

theorem sweepShard_sound {fails : ShardHash → Bool} {anchor : SweepAnchor} {h : ShardHash} {res : SweepResult} :
    (sweepShard fails anchor h res).Meets (perform lastWriter) (Sound env lastWriter)
      (fun _ t => Sound env lastWriter t) st := by
  have outcome : (sweepShard fails anchor h res).Meets (perform lastWriter) (Sound env lastWriter)
      (SweepOutcome fails anchor h res st) st :=
    sweepShard_meets inv (fun t i name sound => sound.eraseEntry i name)
      (fun sh t loaded removed now => inv.removed_eraseShard loaded removed now)
  exact (outcome.final inv).imp fun _ _ h => h.2

theorem sweepPhase2_sound (bounds : Bounds) (pass : Pass) (dryRun : Bool) (cutoff : Int) (p : Progress) :
    (sweepPhase2 bounds pass dryRun cutoff p).Meets (perform lastWriter) (Sound env lastWriter)
      (fun _ _ => True) st := by
  -- No shard references a xorb that is still to be deleted.
  refine (sweepPhase2_meets (J := fun rest t => Sound env lastWriter t ∧ (dryRun = false →
    ∀ obj ∈ rest, ∀ h s, t.shard h = some s → obj.hash ∉ shardXorbs s)) inv ?_ ?_ ?_).imp fun _ _ _ => trivial
  · intro refs res marked readable
    refine ⟨inv, ?_⟩
    rintro rfl obj member h s stored referenced
    have none := (marked.unreferenced_iff readable).mp (mem_deadXorbs.mp member).1 h s stored referenced
    exact absurd none not_mem_nil
  · intro obj rest t dry kept
    exact ⟨kept.1, fun real => absurd dry (Bool.eq_false_iff.mp real)⟩
  · intro obj rest t real kept
    have next := kept.1.eraseXorb (kept.2 real obj mem_cons_self)
    refine ⟨next, next, fun _ other member h s stored => ?_⟩
    rw [shard_erase_xorb] at stored
    exact kept.2 real other (mem_cons_of_mem _ member) h s stored

theorem sweepPass_sound (opts : SweepOptions) (pass : Pass) (bounds : Bounds) :
    Prog.Meets (perform lastWriter) (Sound env lastWriter) (fun _ _ => True)
      (sweepPass opts pass bounds) st := by
  cases parsed : parseAnchor opts.anchor with
  | error e =>
    unfold sweepPass
    rw [Prog.meets_exceptBind, parsed]
    trivial
  | ok anchor =>
    refine (sweepPass_meets (Q := fun _ => True) (J := fun _ _ t => Sound env lastWriter t) parsed inv
      (fun _ _ _ _ => inv) (fun _ _ _ _ _ h => h) (fun _ _ _ _ _ h => sweepShard_sound h)
      (fun _ _ _ _ _ => trivial) fun p t sound => ?_).imp fun _ _ h => h
    exact sweepPhase2_sound sound bounds pass opts.dryRun _ p

theorem sweepStep_sound (opts : SweepOptions) (pass : Pass) :
    Prog.Meets (perform lastWriter) (Sound env lastWriter) (fun _ _ => True) (sweepStep opts pass) st := by
  unfold sweepStep
  split <;> exact sweepPass_sound inv opts pass _

end

end

end Xet.Storage
