import Xet.Storage.RealPass

/-! Phase 2 of a pass that deletes, and what the whole pass has done when it ends. -/
namespace Xet.Storage
open Wire Calls Shard List SweepResult Store SweptObject

/-- The reported xorbs are gone; the rest of the store is as it was when phase 2 began. -/
structure Clearing (t : Store) (swept dead rest : List SweptObject) (p : Progress) (u : Store) : Prop where
  shards : ∀ h, u.object .shards h = t.object .shards h
  entries : ∀ i name, u.entry i name = t.entry i name
  xorbs : ∀ x o, u.object .xorbs x = some o ↔ t.object .xorbs x = some o ∧ x ∉ xorbNames p.res
  reported : p.res.sweptXorbs ++ rest = dead
  kept : p.res.sweptShards = swept

section
variable {w : Setting} {st t u : Store} {obj : SweptObject} {swept dead rest : List SweptObject} {p : Progress}
  {res : SweepResult} {refs : List XorbHash} {opts : SweepOptions} {pass : Pass} {bounds : Bounds}

theorem Clearing.step (clearing : Clearing t swept dead (obj :: rest) p u) :
    Clearing t swept dead rest (p.afterXorb obj) (u.erase .xorbs obj.hash) := by
  have names : xorbNames (p.afterXorb obj).res = xorbNames p.res ++ [obj.hash] := by
    simp only [xorbNames, Progress.afterXorb, addXorb, map_append, map_cons, map_nil]
  constructor
  case shards =>
    intro h
    rw [object_erase, if_neg (by simp)]
    exact clearing.shards h
  case entries => exact clearing.entries
  case xorbs =>
    intro x o
    rw [object_erase, names, mem_append, mem_singleton]
    by_cases here : x = obj.hash
    · simp [here]
    · rw [if_neg (by simp [here]), clearing.xorbs]
      simp [here]
  case reported =>
    have reported := clearing.reported
    simp only [Progress.afterXorb, addXorb, append_assoc]
    exact reported
  case kept => exact clearing.kept

section
variable (sweeping : Sweeping w st [] p t)
include sweeping

theorem Sweeping.gone_iff (h : ShardHash) : h ∈ shardNames p.res ↔ w.Doomed st h := by
  constructor
  · intro gone
    obtain ⟨o, member, rfl⟩ := mem_map.mp gone
    exact (sweeping.doomed o member).1
  · intro doomed
    rcases sweeping.complete h doomed with gone | member
    · exact gone
    · cases member

theorem Sweeping.stored_iff {h : ShardHash} {o : Object} :
    t.object .shards h = some o ↔ st.object .shards h = some o ∧ ¬ w.Doomed st h := by
  rw [sweeping.after.shards, sweeping.gone_iff]

theorem Sweeping.same_object {h : ShardHash} (kept : ¬ w.Doomed st h) : t.object .shards h = st.object .shards h :=
  sweeping.after.object_eq fun gone => kept ((sweeping.gone_iff h).mp gone)

theorem Sweeping.blocked (governs : w.Governs opts pass st)
    (marked : Marked pass t [] (walkedShards t) p.res refs res) (unreadable : res.unreadableShards ≠ []) :
    w.Blocked st := by
  obtain ⟨h, member⟩ := exists_mem_of_ne_nil _ unreadable
  rcases marked.blamed h member with before | ⟨walked, -, e, failed⟩
  · obtain ⟨dead, e, failed⟩ := sweeping.blamed h before
    refine ⟨h, dead.1, ?_, .inr ⟨dead, e, failed⟩⟩
    rintro ⟨-, sh, loaded, -⟩
    cases failed.symm.trans loaded
  · obtain ⟨o, found⟩ := mem_walkedShards.mp walked
    obtain ⟨stored, kept⟩ := sweeping.stored_iff.mp found
    rw [loadOutcome_congr (sweeping.same_object kept), governs.markLoads] at failed
    exact ⟨h, ⟨o, stored⟩, kept, .inl ⟨e, failed⟩⟩

theorem Sweeping.not_blocked (governs : w.Governs opts pass st)
    (marked : Marked pass t [] (walkedShards t) p.res refs res) (readable : res.unreadableShards = []) :
    ¬ w.Blocked st := by
  rintro ⟨h, ⟨o, stored⟩, kept, failed⟩
  have known : h ∉ res.unreadableShards := by
    rw [readable]
    exact not_mem_nil
  rcases failed with ⟨e, failed⟩ | ⟨dead, e, failed⟩
  · rw [← governs.markLoads, ← loadOutcome_congr (sweeping.same_object kept)] at failed
    have found := sweeping.stored_iff.mpr ⟨stored, kept⟩
    rcases marked.shielded h (mem_walkedShards.mpr ⟨o, found⟩) not_mem_nil known with missing | ⟨sh, loaded, -⟩
    · cases found.symm.trans (loadOutcome_missing missing)
    · cases loaded.symm.trans failed
  · rcases sweeping.blames h e dead failed with before | member
    · exact known (marked.kept h before)
    · cases member

theorem Sweeping.mem_deadXorbs_iff (governs : w.Governs opts pass st)
    (marked : Marked pass t [] (walkedShards t) p.res refs res) (readable : res.unreadableShards = []) :
    obj ∈ deadXorbs (objCutoff pass.now opts.grace) t refs ↔ w.Unneeded st obj.hash ∧ Sized st .xorbs obj := by
  have shard_iff : ∀ h s, t.shard h = some s ↔ st.shard h = some s ∧ ¬ w.Doomed st h := by
    intro h s
    by_cases doomed : w.Doomed st h
    · have missing := sweeping.after.missing ((sweeping.gone_iff h).mpr doomed)
      simp [shard, missing, doomed]
    · simp [shard, sweeping.same_object doomed, doomed]
  have unreferenced : obj.hash ∉ refs ↔ ∀ h s, st.shard h = some s → obj.hash ∈ shardXorbs s → w.Doomed st h := by
    rw [marked.unreferenced_iff readable]
    simp only [shard_iff, not_mem_nil, imp_false, and_imp]
    exact forall₂_congr fun h s => forall_congr' fun _ => not_imp_not
  rw [mem_deadXorbs, unreferenced]
  constructor
  · rintro ⟨only, o, found, old, size⟩
    rw [sweeping.after.xorbs] at found
    exact ⟨⟨(governs.old _ _ o found).mp old, only⟩, o, found, size⟩
  · rintro ⟨⟨old, only⟩, o, found, size⟩
    exact ⟨only, o, (sweeping.after.xorbs _).trans found, (governs.old _ _ o found).mpr old, size⟩

end

end

/-- What a pass that deletes has done to `st` when it ends with the report `res` in the store `t`. -/
structure Outcome (w : Setting) (bounds : Bounds) (pass : Pass) (st : Store) (res : SweepResult)
    (t : Store) : Prop where
  without : Without (· ∈ shardNames res) (· ∈ xorbNames res) st t
  shards : ∀ obj ∈ res.sweptShards, w.Doomed st obj.hash ∧ Sized st .shards obj
  xorbs : ∀ obj ∈ res.sweptXorbs, ¬ w.Blocked st ∧ w.Unneeded st obj.hash ∧ Sized st .xorbs obj
  distinct : (shardNames res).Nodup ∧ (xorbNames res).Nodup
  reclaimed : res.reclaimedBytes = (res.sweptShards.map (·.size)).sum + (res.sweptXorbs.map (·.size)).sum
  within : 0 < bounds.maxDeletes → (sweptTotal res : Int) ≤ bounds.maxDeletes
  stopped : res.done = false → 0 < sweptTotal res ∧ ∃ q, exhausted bounds pass q = true
  finished : res.done = true → (∀ h, w.Doomed st h → h ∈ shardNames res) ∧
    (¬ w.Blocked st → ∀ x o, st.object .xorbs x = some o → w.Unneeded st x → x ∈ xorbNames res)

section
variable {w : Setting} {st t u : Store} {rest : List SweptObject} {p q : Progress} {res : SweepResult}
  {opts : SweepOptions} {pass : Pass} {bounds : Bounds} {refs : List XorbHash}

theorem After.without {gone : ShardHash → Prop} (after : After gone st t) {lost : XorbHash → Prop}
    (none : ∀ x, ¬ lost x) : Without gone lost st t where
  shards := after.shards
  xorbs := fun x o => by simp [after.xorbs, none x]
  entries := after.entries

theorem Sweeping.spent (sweeping : Sweeping w st rest p t) (tally : Tally bounds p)
    (spent : exhausted bounds pass p = true) (remaining : Nat) :
    Outcome w bounds pass st { p.res with remainingShards := remaining } t where
  without := sweeping.after.without fun x lost => by simp [xorbNames, sweeping.xorbs] at lost
  shards := sweeping.doomed
  xorbs := by
    intro obj member
    simp only [sweeping.xorbs] at member
    cases member
  distinct := by
    refine ⟨(nodup_append.mp sweeping.distinct).1, ?_⟩
    simp [xorbNames, sweeping.xorbs]
  reclaimed := tally.reclaimed
  within := fun bounded => tally.counted ▸ tally.within bounded
  stopped := fun _ => ⟨tally.counted ▸ exhausted_swept spent, p, spent⟩
  finished := fun done => by cases tally.pending.symm.trans done

theorem Sweeping.ended (sweeping : Sweeping w st [] p t) (tally : Tally bounds p) (same : SameSwept p.res res)
    (blocked : w.Blocked st) : Outcome w bounds pass st { res with done := true } t := by
  have shards : shardNames { res with done := true } = shardNames p.res :=
    congrArg (List.map hash) same.shards
  have xorbs : res.sweptXorbs = [] := same.xorbs.trans sweeping.xorbs
  have total := same.total
  constructor
  case without =>
    rw [shards]
    exact sweeping.after.without fun x lost => by simp [xorbNames, xorbs] at lost
  case shards => exact fun obj member => sweeping.doomed obj (same.shards ▸ member)
  case xorbs =>
    intro obj member
    simp only [xorbs] at member
    cases member
  case distinct =>
    rw [shards]
    exact ⟨(nodup_append.mp sweeping.distinct).1, by simp [xorbNames, xorbs]⟩
  case reclaimed => exact (tally.skip same).reclaimed
  case within =>
    intro bounded
    have counted := (tally.skip same).counted
    exact counted ▸ tally.within bounded
  case stopped => exact nofun
  case finished => exact fun _ => ⟨fun h doomed => shards ▸ (sweeping.gone_iff h).mpr doomed, absurd blocked⟩

theorem Clearing.without {dead : List SweptObject} (sweeping : Sweeping w st [] p t)
    (clearing : Clearing t p.res.sweptShards dead rest q u) :
    Without (· ∈ shardNames q.res) (· ∈ xorbNames q.res) st u := by
  have shards : shardNames q.res = shardNames p.res := congrArg (List.map hash) clearing.kept
  constructor
  case shards =>
    intro h o
    rw [clearing.shards, shards]
    exact sweeping.after.shards h o
  case xorbs =>
    intro x o
    rw [clearing.xorbs, sweeping.after.xorbs]
  case entries =>
    intro i name h
    rw [clearing.entries, shards]
    exact sweeping.after.entries i name h

theorem Clearing.outcome (sweeping : Sweeping w st [] p t) (governs : w.Governs opts pass st)
    (marked : Marked pass t [] (walkedShards t) p.res refs res) (readable : res.unreadableShards = [])
    (clearing : Clearing t p.res.sweptShards (deadXorbs (objCutoff pass.now opts.grace) t refs) rest q u)
    (tally : Tally bounds q) {final : SweepResult} (same : final.sweptShards = q.res.sweptShards)
    (sameXorbs : final.sweptXorbs = q.res.sweptXorbs) (sameBytes : final.reclaimedBytes = q.res.reclaimedBytes)
    (stopped : final.done = false → exhausted bounds pass q = true)
    (finished : final.done = true → rest = []) : Outcome w bounds pass st final u := by
  have shards : shardNames final = shardNames q.res := congrArg (List.map hash) same
  have xorbs : xorbNames final = xorbNames q.res := congrArg (List.map hash) sameXorbs
  have total : sweptTotal final = sweptTotal q.res := by rw [sweptTotal, sweptTotal, same, sameXorbs]
  have kept : shardNames q.res = shardNames p.res := congrArg (List.map hash) clearing.kept
  have unneeded : ∀ obj ∈ q.res.sweptXorbs, w.Unneeded st obj.hash ∧ Sized st .xorbs obj := by
    intro obj member
    refine (sweeping.mem_deadXorbs_iff governs marked readable).mp ?_
    rw [← clearing.reported]
    exact mem_append_left _ member
  constructor
  case without =>
    rw [shards, xorbs]
    exact clearing.without sweeping
  case shards =>
    intro obj member
    rw [same, clearing.kept] at member
    exact sweeping.doomed obj member
  case xorbs =>
    intro obj member
    exact ⟨sweeping.not_blocked governs marked readable, unneeded obj (sameXorbs ▸ member)⟩
  case distinct =>
    rw [shards, xorbs, kept]
    refine ⟨(nodup_append.mp sweeping.distinct).1, ?_⟩
    have queue : (xorbNames q.res ++ rest.map (·.hash)).Nodup := by
      rw [xorbNames, ← map_append, clearing.reported]
      exact pastGrace_nodup
    exact (nodup_append.mp queue).1
  case reclaimed => rw [sameBytes, same, sameXorbs, tally.reclaimed]
  case within => exact fun bounded => total ▸ tally.counted ▸ tally.within bounded
  case stopped => exact fun going => ⟨total ▸ tally.counted ▸ exhausted_swept (stopped going), q, stopped going⟩
  case finished =>
    intro done
    refine ⟨fun h doomed => shards ▸ kept ▸ (sweeping.gone_iff h).mpr doomed, fun _ x o found loose => ?_⟩
    have reported := clearing.reported
    rw [finished done, append_nil] at reported
    rw [xorbs, xorbNames, reported]
    exact mem_map.mpr ⟨⟨x, o.data.length⟩,
      (sweeping.mem_deadXorbs_iff governs marked readable).mpr ⟨loose, o, found, rfl⟩, rfl⟩

theorem sweepPass_outcome (bounds : Bounds) (lastWriter : Bool) (governs : w.Governs opts pass st)
    (real : opts.dryRun = false) :
    Prog.Meets (perform lastWriter) (fun _ => True) (fun r t => ∃ res, r = .ok res ∧ Outcome w bounds pass st res t)
      (sweepPass opts pass bounds) st := by
  apply sweepPass_rule (J := fun rest p t => Sweeping w st rest p t ∧ Tally bounds p) governs.parsed trivial
  case start =>
    intro refs young files digests read
    exact ⟨Sweeping.start governs read, rfl, rfl, fun bounded => le_of_lt bounded, rfl⟩
  case dry => exact fun _ _ _ _ dry => absurd dry (by simp [real])
  case step =>
    intro obj rest p t _ going kept
    rw [governs.sweepLoads]
    exact kept.1.step kept.2 going
  case spent => exact fun rest p remaining t kept spent => kept.1.spent kept.2 spent remaining
  case phase2 =>
    intro p t ⟨sweeping, tally⟩
    rw [real]
    apply sweepPhase2_rule (J := fun rest q u => ∃ refs res, Marked pass t [] (walkedShards t) p.res refs res ∧
      res.unreadableShards = [] ∧ Tally bounds q ∧
      Clearing t p.res.sweptShards (deadXorbs (objCutoff pass.now opts.grace) t refs) rest q u) trivial
    case start =>
      intro refs res young marked same readable
      refine ⟨refs, res, marked, readable, tally.skip (same.trans ⟨rfl, rfl, rfl, rfl⟩), ?_⟩
      have none : res.sweptXorbs = [] := same.xorbs.trans sweeping.xorbs
      exact ⟨fun _ => rfl, fun _ _ => rfl, fun x o => by simp [xorbNames, Progress.reported, none],
        by simp [Progress.reported, none], same.shards⟩
    case blocked =>
      intro refs res marked same unreadable
      exact sweeping.ended tally same (sweeping.blocked governs marked unreadable)
    case dry => simp
    case step =>
      rintro obj rest q u - going ⟨refs, res, marked, readable, tally, clearing⟩
      exact ⟨trivial, refs, res, marked, readable, tally.afterXorb going, clearing.step⟩
    case spent =>
      rintro rest q u ⟨refs, res, marked, readable, tally, clearing⟩ spent
      exact clearing.outcome sweeping governs marked readable tally rfl rfl rfl (fun _ => spent)
        fun done => by cases tally.pending.symm.trans done
    case ended =>
      rintro q u ⟨refs, res, marked, readable, tally, clearing⟩
      exact clearing.outcome sweeping governs marked readable tally rfl rfl rfl (by simp) fun _ => rfl

end

end Xet.Storage
