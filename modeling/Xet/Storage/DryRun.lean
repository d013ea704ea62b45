import Mathlib.Algebra.Order.BigOperators.Group.List
import Xet.Storage.PassOutcome

/-! A dry run reports at least what a real pass over the same store deletes. -/
namespace Xet.Storage
open Wire Calls Shard List SweepResult

namespace Setting
variable (w : Setting) (st : Store)

/-- A shard that is not dead cannot be loaded, so a dry run reports no xorb. -/
def Hidden : Prop :=
  ∃ h, (∃ obj, st.object .shards h = some obj) ∧ ¬ w.Dead st h ∧
    ∃ e, loadOutcome (w.failsMark h) st h = .error e

def Idle (x : XorbHash) : Prop :=
  w.old .xorbs x ∧ ∀ h s, st.shard h = some s → x ∈ shardXorbs s → w.Dead st h

end Setting

structure DryOutcome (w : Setting) (st : Store) (res : SweepResult) (t : Store) : Prop where
  unchanged : t = st
  shards : ∀ obj, obj ∈ res.sweptShards ↔ w.Dead st obj.hash ∧ Sized st .shards obj
  xorbs : ∀ obj, obj ∈ res.sweptXorbs ↔ ¬ w.Hidden st ∧ w.Idle st obj.hash ∧ Sized st .xorbs obj
  reclaimed : res.reclaimedBytes = (res.sweptShards.map (·.size)).sum + (res.sweptXorbs.map (·.size)).sum
  done : res.done = true

structure Reporting (st : Store) (dead rest : List SweptObject) (p : Progress) (t : Store) : Prop where
  unchanged : t = st
  reported : p.res.sweptShards ++ rest = dead
  xorbs : p.res.sweptXorbs = []
  readable : p.res.unreadableShards = []
  reclaimed : p.res.reclaimedBytes = (p.res.sweptShards.map (·.size)).sum

section
variable {w : Setting} {st t : Store} {obj : SweptObject} {dead rest : List SweptObject} {p : Progress}
  {res : SweepResult} {refs : List XorbHash} {opts : SweepOptions} {pass : Pass}

theorem Reporting.step (reporting : Reporting st dead (obj :: rest) p t) :
    Reporting st dead rest (p.reported (p.res.addShard obj)) t where
  unchanged := reporting.unchanged
  reported := by
    simp only [Progress.reported, addShard, append_assoc]
    exact reporting.reported
  xorbs := reporting.xorbs
  readable := reporting.readable
  reclaimed := by
    simp only [Progress.reported, addShard, map_append, sum_append, map_cons,
      map_nil, sum_singleton, reporting.reclaimed]

section
variable (governs : w.Governs opts pass st)
include governs

theorem Setting.Governs.mem_deadShards {refs : Refs}
    (read : ∀ h, Refs.anchors refs w.anchor h = true ↔ Walked w.anchor st h) :
    obj ∈ deadShards w.anchor (objCutoff pass.now opts.grace) st refs ↔
      w.Dead st obj.hash ∧ Sized st .shards obj := by
  rw [Storage.mem_deadShards]
  constructor
  · rintro ⟨loose, o, found, old, size⟩
    refine ⟨⟨⟨o, found⟩, (governs.old _ _ o found).mp old, fun walked => ?_⟩, o, found, size⟩
    rw [(read obj.hash).mpr walked] at loose
    cases loose
  · rintro ⟨⟨-, old, loose⟩, o, found, size⟩
    exact ⟨Bool.eq_false_iff.mpr fun walked => loose ((read _).mp walked), o, found,
      (governs.old _ _ o found).mpr old, size⟩

theorem Setting.Governs.hidden_iff {drySwept : List ShardHash} (gone : ∀ h, h ∈ drySwept ↔ w.Dead st h)
    (clean : p.res.unreadableShards = []) (marked : Marked pass st drySwept (walkedShards st) p.res refs res) :
    w.Hidden st ↔ res.unreadableShards ≠ [] := by
  constructor
  · rintro ⟨h, ⟨o, found⟩, alive, e, failed⟩ readable
    rw [← governs.markLoads] at failed
    rcases marked.shielded h (mem_walkedShards.mpr ⟨o, found⟩) (fun dry => alive ((gone h).mp dry))
      (by simp [readable]) with missing | ⟨sh, loaded, -⟩
    · cases found.symm.trans (loadOutcome_missing missing)
    · cases loaded.symm.trans failed
  · intro unreadable
    obtain ⟨h, member⟩ := exists_mem_of_ne_nil _ unreadable
    rcases marked.blamed h member with before | ⟨walked, real, e, failed⟩
    · rw [clean] at before
      cases before
    · exact ⟨h, mem_walkedShards.mp walked, fun dead => real ((gone h).mpr dead), e, governs.markLoads ▸ failed⟩

theorem Setting.Governs.mem_idleXorbs {drySwept : List ShardHash} (gone : ∀ h, h ∈ drySwept ↔ w.Dead st h)
    (marked : Marked pass st drySwept (walkedShards st) p.res refs res) (readable : res.unreadableShards = []) :
    obj ∈ deadXorbs (objCutoff pass.now opts.grace) st refs ↔ w.Idle st obj.hash ∧ Sized st .xorbs obj := by
  rw [mem_deadXorbs, marked.unreferenced_iff readable]
  simp only [gone]
  constructor
  · rintro ⟨only, o, found, old, size⟩
    exact ⟨⟨(governs.old _ _ o found).mp old, only⟩, o, found, size⟩
  · rintro ⟨⟨old, only⟩, o, found, size⟩
    exact ⟨only, o, found, (governs.old _ _ o found).mpr old, size⟩

end

theorem sweep_dryOutcome (lastWriter : Bool) (governs : w.Governs opts pass st) (dry : opts.dryRun = true) :
    Prog.Meets (perform lastWriter) (fun _ => True) (fun r t => ∃ res, r = .ok res ∧ DryOutcome w st res t)
      (sweep opts pass) st := by
  apply sweepPass_rule (J := fun rest p t => ∃ dead, Reporting st dead rest p t ∧
    ∀ obj, obj ∈ dead ↔ w.Dead st obj.hash ∧ Sized st .shards obj) governs.parsed trivial
  case start =>
    intro refs young files digests read
    exact ⟨_, ⟨rfl, rfl, rfl, rfl, rfl⟩, fun obj => governs.mem_deadShards read⟩
  case dry => exact fun obj rest p t _ ⟨dead, reporting, exactly_dead⟩ => ⟨dead, reporting.step, exactly_dead⟩
  case step => exact fun _ _ _ _ real => absurd real (by simp [dry])
  case spent =>
    intro rest p remaining t _ spent
    rw [unbounded] at spent
    cases spent
  case phase2 =>
    rintro p t ⟨dead, reporting, exactly_dead⟩
    have whole : p.res.sweptShards = dead := by
      have reported := reporting.reported
      rwa [append_nil] at reported
    obtain rfl := reporting.unchanged
    rw [← whole] at exactly_dead
    have gone : ∀ h, h ∈ p.drySwept true ↔ w.Dead t h := by
      intro h
      constructor
      · intro member
        obtain ⟨obj, reported, rfl⟩ := mem_map.mp member
        exact ((exactly_dead obj).mp reported).1
      · intro dead
        obtain ⟨o, found⟩ := dead.1
        exact mem_map.mpr ⟨⟨h, o.data.length⟩, (exactly_dead ⟨h, _⟩).mpr ⟨dead, o, found, rfl⟩, rfl⟩
    rw [dry]
    apply sweepPhase2_rule (J := fun rest q u => u = t ∧ q.res.sweptShards = p.res.sweptShards ∧
      q.res.reclaimedBytes = (q.res.sweptShards.map (·.size)).sum + (q.res.sweptXorbs.map (·.size)).sum ∧
      ¬ w.Hidden t ∧ ∀ obj, obj ∈ q.res.sweptXorbs ++ rest ↔ w.Idle t obj.hash ∧ Sized t .xorbs obj) trivial
    case start =>
      intro refs res young marked same readable
      have none : res.sweptXorbs = [] := same.xorbs.trans reporting.xorbs
      refine ⟨rfl, same.shards, ?_, ?_, fun obj => ?_⟩
      · simp [Progress.reported, none, same.reclaimed, reporting.reclaimed, same.shards]
      · exact fun hidden => (governs.hidden_iff gone reporting.readable marked).mp hidden readable
      · simp only [Progress.reported, none, nil_append]
        exact governs.mem_idleXorbs gone marked readable
    case blocked =>
      intro refs res marked same unreadable
      have none : res.sweptXorbs = [] := same.xorbs.trans reporting.xorbs
      have hidden := (governs.hidden_iff gone reporting.readable marked).mpr unreadable
      refine ⟨rfl, fun obj => ?_, fun obj => ?_, ?_, rfl⟩
      · simp only [same.shards]
        exact exactly_dead obj
      · simp [none, hidden]
      · simp [none, same.reclaimed, reporting.reclaimed, same.shards]
    case dry =>
      rintro obj rest q u - ⟨rfl, kept, reclaimed, visible, idle⟩
      refine ⟨rfl, kept, ?_, visible, fun o => ?_⟩
      · simp only [Progress.reported, addXorb, map_append, sum_append, map_cons, map_nil, sum_singleton]
        omega
      · simp only [Progress.reported, addXorb, append_assoc]
        exact idle o
    case step => simp
    case spent =>
      intro rest q u _ spent
      rw [unbounded] at spent
      cases spent
    case ended =>
      rintro q u ⟨rfl, kept, reclaimed, visible, idle⟩
      refine ⟨rfl, fun obj => ?_, fun obj => ?_, reclaimed, rfl⟩
      · simp only [kept]
        exact exactly_dead obj
      · have listed := idle obj
        rw [append_nil] at listed
        simp only [listed, visible, not_false_eq_true, true_and]

theorem dryRun_unchanged (lastWriter : Bool) (opts : SweepOptions) (pass : Pass) (st : Store)
    (dry : opts.dryRun = true) : (Prog.run (perform lastWriter) (sweep opts pass) st).2 = st := by
  cases parsed : parseAnchor opts.anchor with
  | error e =>
    unfold sweep sweepPass
    rw [Prog.run_exceptBind, parsed]
    rfl
  | ok anchor =>
    let w : Setting := ⟨anchor, fun a name => ∃ obj, st.object a name = some obj ∧
      obj.modTime < objCutoff pass.now opts.grace, pass.failsSweep, pass.failsMark⟩
    have governs : w.Governs opts pass st := by
      refine ⟨parsed, fun a name obj found => ?_, rfl, rfl⟩
      constructor
      · exact fun old => ⟨obj, found, old⟩
      · rintro ⟨obj', found', old⟩
        cases found.symm.trans found'
        exact old
    obtain ⟨res, -, outcome⟩ := (sweep_dryOutcome lastWriter governs dry).run
    exact outcome.unchanged

theorem sizes_le {swept reported : List SweptObject} (distinct : (swept.map (·.hash)).Nodup)
    (within : ∀ obj ∈ swept, obj ∈ reported) : (swept.map (·.size)).sum ≤ (reported.map (·.size)).sum := by
  obtain ⟨part, order, sublist⟩ := subperm_of_subset (List.Nodup.of_map _ distinct) within
  rw [← (order.map _).sum_eq]
  exact (sublist.map _).sum_le_sum fun _ _ => Nat.zero_le _

theorem Outcome.reported {bounds : Bounds} {swept reported : SweepResult} {dryStore : Store}
    (outcome : Outcome w bounds pass st swept t) (dry : DryOutcome w st reported dryStore) :
    (∀ obj ∈ swept.sweptShards, obj ∈ reported.sweptShards) ∧
      ∀ obj ∈ swept.sweptXorbs, obj ∈ reported.sweptXorbs := by
  constructor
  · intro obj member
    obtain ⟨doomed, sized⟩ := outcome.shards obj member
    exact (dry.shards obj).mpr ⟨doomed.1, sized⟩
  · intro obj member
    obtain ⟨open_, unneeded, sized⟩ := outcome.xorbs obj member
    refine (dry.xorbs obj).mpr ⟨?_, ⟨unneeded.1, fun h s stored references => ?_⟩, sized⟩
    · rintro ⟨h, stored, alive, failed⟩
      exact open_ ⟨h, stored, fun doomed => alive doomed.1, .inl failed⟩
    · exact (unneeded.2 h s stored references).1

theorem DryOutcome.swept {bounds : Bounds} {swept reported : SweepResult} {dryStore : Store}
    (dry : DryOutcome w st reported dryStore) (outcome : Outcome w bounds pass st swept t)
    (done : swept.done = true) (every : ∀ h, w.Dead st h → w.Doomed st h) :
    (∀ obj ∈ reported.sweptShards, obj ∈ swept.sweptShards) ∧
      ∀ obj ∈ reported.sweptXorbs, obj ∈ swept.sweptXorbs := by
  have same_size : ∀ {a : Area} {obj obj' : SweptObject}, Sized st a obj → Sized st a obj' →
      obj'.hash = obj.hash → obj' = obj := by
    rintro a ⟨hash, size⟩ ⟨hash', size'⟩ ⟨o, found, rfl⟩ ⟨o', found', rfl⟩ rfl
    cases found.symm.trans found'
    rfl
  obtain ⟨allShards, allXorbs⟩ := outcome.finished done
  constructor
  · intro obj member
    obtain ⟨dead, sized⟩ := (dry.shards obj).mp member
    obtain ⟨obj', swept, hash⟩ := mem_map.mp (allShards _ (every _ dead))
    exact same_size sized (outcome.shards obj' swept).2 hash ▸ swept
  · intro obj member
    obtain ⟨visible, idle, sized⟩ := (dry.xorbs obj).mp member
    have unneeded : w.Unneeded st obj.hash := ⟨idle.1, fun h s stored references => every h (idle.2 h s stored references)⟩
    have unblocked : ¬ w.Blocked st := by
      rintro ⟨h, stored, kept, failed | ⟨dead, -⟩⟩
      · exact visible ⟨h, stored, fun dead => kept (every h dead), failed⟩
      · exact kept (every h dead)
    have ⟨o, found, _⟩ := sized
    obtain ⟨obj', swept, hash⟩ := mem_map.mp (allXorbs unblocked _ o found unneeded)
    exact same_size sized (outcome.xorbs obj' swept).2.2 hash ▸ swept

/-- A dry run changes nothing. Of a real sweep of the same store with the same objects past the cutoff,
it has reported every delete; where every dead shard can be read and none is spared, it has
reported nothing else. -/
theorem dryRun_reports_sweep (lastWriter : Bool) (opts : SweepOptions) (st : Store) :
    let run := fun (dryRun : Bool) (pass : Pass) =>
      Prog.run (perform lastWriter) (sweep { opts with dryRun := dryRun } pass) st
    (∀ pass, (run true pass).2 = st ∧
      Prog.run (perform lastWriter) (sweepStep { opts with dryRun := true } pass) st = run true pass) ∧
    ∀ (w : Setting) (dry real : Pass), w.Governs opts dry st → w.Governs opts real st →
      ∃ reported swept, (run true dry).1 = .ok reported ∧ (run false real).1 = .ok swept ∧
        (∀ h obj, st.object .shards h = some obj → (run false real).2.object .shards h = none →
          ⟨h, obj.data.length⟩ ∈ reported.sweptShards) ∧
        (∀ x obj, st.object .xorbs x = some obj → (run false real).2.object .xorbs x = none →
          ⟨x, obj.data.length⟩ ∈ reported.sweptXorbs) ∧
        swept.reclaimedBytes ≤ reported.reclaimedBytes ∧
        ((∀ h, w.Dead st h → w.Doomed st h) →
          (∀ obj, obj ∈ swept.sweptShards ↔ obj ∈ reported.sweptShards) ∧
          ∀ obj, obj ∈ swept.sweptXorbs ↔ obj ∈ reported.sweptXorbs) := by
  intro run
  refine ⟨fun pass => ⟨dryRun_unchanged lastWriter { opts with dryRun := true } pass st rfl, rfl⟩, ?_⟩
  intro w dry real dryGoverns realGoverns
  have dryGoverns' : w.Governs { opts with dryRun := true } dry st :=
    ⟨dryGoverns.parsed, dryGoverns.old, dryGoverns.sweepLoads, dryGoverns.markLoads⟩
  have realGoverns' : w.Governs { opts with dryRun := false } real st :=
    ⟨realGoverns.parsed, realGoverns.old, realGoverns.sweepLoads, realGoverns.markLoads⟩
  obtain ⟨reported, reports, dryOutcome⟩ := (sweep_dryOutcome lastWriter dryGoverns' rfl).run
  obtain ⟨swept, sweeps, outcome⟩ := (sweepPass_outcome ⟨0, 0⟩ lastWriter realGoverns' rfl).run
  have done : swept.done = true := by
    by_contra going
    obtain ⟨-, q, spent⟩ := outcome.stopped (Bool.eq_false_iff.mpr going)
    rw [unbounded] at spent
    cases spent
  obtain ⟨shards, xorbs⟩ := outcome.reported dryOutcome
  refine ⟨reported, swept, reports, sweeps, ?_, ?_, ?_, ?_⟩
  · intro h obj stored gone
    have deleted : h ∈ shardNames swept := by
      by_contra kept
      cases gone.symm.trans ((outcome.without.shards h obj).mpr ⟨stored, kept⟩)
    obtain ⟨⟨hash, size⟩, member, rfl⟩ := List.mem_map.mp deleted
    obtain ⟨o, found, rfl⟩ := (outcome.shards _ member).2
    cases stored.symm.trans found
    exact shards _ member
  · intro x obj stored gone
    have deleted : x ∈ xorbNames swept := by
      by_contra kept
      cases gone.symm.trans ((outcome.without.xorbs x obj).mpr ⟨stored, kept⟩)
    obtain ⟨⟨hash, size⟩, member, rfl⟩ := List.mem_map.mp deleted
    obtain ⟨o, found, rfl⟩ := (outcome.xorbs _ member).2.2
    cases stored.symm.trans found
    exact xorbs _ member
  · rw [outcome.reclaimed, dryOutcome.reclaimed]
    exact Nat.add_le_add (sizes_le outcome.distinct.1 shards) (sizes_le outcome.distinct.2 xorbs)
  · intro every
    obtain ⟨allShards, allXorbs⟩ := dryOutcome.swept outcome done every
    exact ⟨fun obj => ⟨shards obj, allShards obj⟩, fun obj => ⟨xorbs obj, allXorbs obj⟩⟩

end

def sampleSetting : Setting := ⟨.files, fun _ _ => True, fun _ => false, fun _ => false⟩

theorem sampleSetting_governs : sampleSetting.Governs byFiles anyLoad sampleUnlinked := by
  refine ⟨rfl, fun a name obj found => ?_, rfl, rfl⟩
  have old : obj.modTime < 2 := sampleUnlinked_dates a _ (AList.mem_lookup_iff.mp found)
  exact iff_of_true old trivial

theorem sampleUnlinked_dryRun :
    (sampleUnlinked.object .xorbs sampleXorb).isSome ∧
      (Prog.run (perform false) (sweep byFiles anyLoad) sampleUnlinked).2.object .xorbs sampleXorb = none ∧
      ∃ reported, (Prog.run (perform false) (sweep { byFiles with dryRun := true } anyLoad) sampleUnlinked).1 =
        .ok reported ∧ sampleXorb ∈ xorbNames reported := by
  have stored : (sampleUnlinked.object .xorbs sampleXorb).isSome := by decide +kernel
  have gone : (Prog.run (perform false) (sweep byFiles anyLoad) sampleUnlinked).2.object .xorbs sampleXorb = none := by
    decide +kernel
  obtain ⟨reported, -, reports, -, -, xorbs, -⟩ := (dryRun_reports_sweep false byFiles sampleUnlinked).2
    sampleSetting anyLoad anyLoad sampleSetting_governs sampleSetting_governs
  obtain ⟨obj, found⟩ := Option.isSome_iff_exists.mp stored
  exact ⟨stored, gone, reported, reports, List.mem_map.mpr ⟨_, xorbs sampleXorb obj found gone, rfl⟩⟩

end Xet.Storage
