import Mathlib.Data.Finset.Card
import Xet.Storage.DryRun

/-! Bounded passes repeated until one is done leave what a single unbounded pass leaves. -/
namespace Xet.Storage
open Wire Calls Shard List Store

def Store.names (st : Store) (a : Area) : Finset Hash := (st.objects a).keys.toFinset

theorem Store.mem_names {st : Store} {a : Area} {name : Hash} :
    name ∈ st.names a ↔ ∃ obj, st.object a name = some obj := by
  rw [names, mem_toFinset, ← AList.mem_keys, ← AList.lookup_isSome, Option.isSome_iff_exists]
  rfl

def deleted (st t : Store) : Nat :=
  (st.names .shards \ t.names .shards).card + (st.names .xorbs \ t.names .xorbs).card

def Store.count (st : Store) : Nat := (st.names .shards).card + (st.names .xorbs).card

section
variable {w : Setting} {st t u : Store} {opts : SweepOptions} {pass : Pass} {bounds : Bounds} {res : SweepResult}
  {gone : ShardHash → Prop} {lost : XorbHash → Prop} {h : ShardHash}

theorem Without.names_subset (without : Without gone lost st t) (a : Area) : t.names a ⊆ st.names a := by
  intro name member
  obtain ⟨obj, found⟩ := mem_names.mp member
  cases a with
  | xorbs => exact mem_names.mpr ⟨obj, ((without.xorbs name obj).mp found).1⟩
  | shards => exact mem_names.mpr ⟨obj, ((without.shards name obj).mp found).1⟩

theorem Without.count_eq (without : Without gone lost st t) : st.count = t.count + deleted st t := by
  have shards := Finset.card_sdiff_add_card_eq_card (without.names_subset .shards)
  have xorbs := Finset.card_sdiff_add_card_eq_card (without.names_subset .xorbs)
  simp only [Store.count, deleted]
  omega

theorem Outcome.deleted_eq (outcome : Outcome w bounds pass st res t) : deleted st t = sweptTotal res := by
  have shards : st.names .shards \ t.names .shards = (shardNames res).toFinset := by
    ext h
    rw [Finset.mem_sdiff, mem_names, mem_names, mem_toFinset]
    constructor
    · rintro ⟨⟨obj, stored⟩, missing⟩
      by_contra kept
      exact missing ⟨obj, (outcome.without.shards h obj).mpr ⟨stored, kept⟩⟩
    · intro swept
      obtain ⟨obj, member, rfl⟩ := mem_map.mp swept
      obtain ⟨o, stored, -⟩ := (outcome.shards obj member).2
      exact ⟨⟨o, stored⟩, fun ⟨o', found⟩ => ((outcome.without.shards _ o').mp found).2 swept⟩
  have xorbs : st.names .xorbs \ t.names .xorbs = (xorbNames res).toFinset := by
    ext x
    rw [Finset.mem_sdiff, mem_names, mem_names, mem_toFinset]
    constructor
    · rintro ⟨⟨obj, stored⟩, missing⟩
      by_contra kept
      exact missing ⟨obj, (outcome.without.xorbs x obj).mpr ⟨stored, kept⟩⟩
    · intro swept
      obtain ⟨obj, member, rfl⟩ := mem_map.mp swept
      obtain ⟨o, stored, -⟩ := (outcome.xorbs obj member).2.2
      exact ⟨⟨o, stored⟩, fun ⟨o', found⟩ => ((outcome.without.xorbs _ o').mp found).2 swept⟩
  rw [deleted, shards, xorbs, toFinset_card_of_nodup outcome.distinct.1, toFinset_card_of_nodup outcome.distinct.2]
  simp only [shardNames, xorbNames, length_map, sweptTotal]

section
variable (without : Without gone lost st t)
include without

theorem Without.object_eq (here : ¬ gone h) : t.object .shards h = st.object .shards h := by
  apply Option.ext
  intro o
  rw [without.shards h o]
  exact and_iff_left here

theorem Without.shard_eq (here : ¬ gone h) : t.shard h = st.shard h := by
  rw [Store.shard, Store.shard, without.object_eq here]

theorem Without.points_iff (here : ¬ gone h) (i : Index) (name : Hash) :
    t.entry i name = some h ↔ st.entry i name = some h := by
  rw [without.entries i name h]
  exact and_iff_left fun removed => here removed.1

theorem Without.dead_iff (here : ¬ gone h) : w.Dead t h ↔ w.Dead st h := by
  simp only [Setting.Dead, Walked, without.object_eq here, without.points_iff here]

theorem Without.doomed_iff (here : ¬ gone h) : w.Doomed t h ↔ w.Doomed st h := by
  simp only [Setting.Doomed, without.dead_iff here, loadOutcome_congr (without.object_eq here), Held,
    without.points_iff here]

theorem Without.kept_of_stored {obj : Object} (stored : t.object .shards h = some obj) : ¬ gone h :=
  ((without.shards h obj).mp stored).2

end

section
variable (without : Without gone lost st t) (some_doomed : ∀ h, gone h → w.Doomed st h)
include without some_doomed

theorem Without.blocked_iff : w.Blocked t ↔ w.Blocked st := by
  constructor
  · rintro ⟨h, ⟨obj, stored⟩, kept, failed⟩
    have here := without.kept_of_stored stored
    rw [without.doomed_iff here] at kept
    rw [loadOutcome_congr (without.object_eq here), loadOutcome_congr (without.object_eq here),
      without.dead_iff here] at failed
    exact ⟨h, ⟨obj, without.object_eq here ▸ stored⟩, kept, failed⟩
  · rintro ⟨h, stored, kept, failed⟩
    have here : ¬ gone h := fun removed => kept (some_doomed h removed)
    rw [← without.doomed_iff here] at kept
    rw [← loadOutcome_congr (without.object_eq here), ← loadOutcome_congr (without.object_eq here),
      ← without.dead_iff here] at failed
    exact ⟨h, without.object_eq here ▸ stored, kept, failed⟩

theorem Without.unneeded_iff (x : XorbHash) : w.Unneeded t x ↔ w.Unneeded st x := by
  refine and_congr_right fun _ => ?_
  constructor
  · intro only h s stored references
    by_cases here : gone h
    · exact some_doomed h here
    · rw [← without.shard_eq here] at stored
      exact (without.doomed_iff here).mp (only h s stored references)
  · intro only h s stored references
    obtain ⟨obj, found, -⟩ := Option.bind_eq_some_iff.mp stored
    have here := without.kept_of_stored found
    rw [without.shard_eq here] at stored
    exact (without.doomed_iff here).mpr (only h s stored references)

theorem Without.complete (some_unneeded : ∀ x, lost x → ¬ w.Blocked st ∧ w.Unneeded st x)
    (rest : Complete w t u) : Complete w st u := by
  have owned : ∀ i name h, ¬ gone h → (Owned t i name h ↔ Owned st i name h) := by
    intro i name h here
    simp only [Owned, without.shard_eq here]
  constructor
  case shards =>
    intro h obj
    rw [rest.shards, without.shards]
    by_cases here : gone h
    · simp [here, some_doomed h here]
    · simp [here, without.doomed_iff here]
  case xorbs =>
    intro x obj
    rw [rest.xorbs, without.xorbs, without.blocked_iff some_doomed, without.unneeded_iff some_doomed]
    by_cases here : lost x
    · simp [here, some_unneeded x here]
    · simp [here]
  case entries =>
    intro i name h
    rw [rest.entries, without.entries]
    by_cases here : gone h
    · by_cases own : Owned st i name h
      · simp [here, own, some_doomed h here]
      · -- An entry that nobody owned is left by every pass.
        have unowned : ¬ w.Doomed t h := by
          rintro ⟨⟨⟨obj, stored⟩, -⟩, -⟩
          exact without.kept_of_stored stored here
        simp [own, unowned]
    · simp [here, without.doomed_iff here, owned i name h here]

end

section
variable (outcome : Outcome w bounds pass st res t)
include outcome

theorem Outcome.doomed : ∀ h, h ∈ shardNames res → w.Doomed st h := by
  intro h swept
  obtain ⟨obj, member, rfl⟩ := mem_map.mp swept
  exact (outcome.shards obj member).1

theorem Outcome.unneeded : ∀ x, x ∈ xorbNames res → ¬ w.Blocked st ∧ w.Unneeded st x := by
  intro x swept
  obtain ⟨obj, member, rfl⟩ := mem_map.mp swept
  obtain ⟨clear, loose, -⟩ := outcome.xorbs obj member
  exact ⟨clear, loose⟩

theorem Outcome.complete (done : res.done = true) : Complete w st t := by
  obtain ⟨allShards, allXorbs⟩ := outcome.finished done
  have swept : ∀ h, h ∈ shardNames res ↔ w.Doomed st h := fun h => ⟨outcome.doomed h, allShards h⟩
  constructor
  case shards =>
    intro h obj
    rw [outcome.without.shards, swept]
  case xorbs =>
    intro x obj
    rw [outcome.without.xorbs]
    refine and_congr_right fun stored => not_congr ⟨outcome.unneeded x, ?_⟩
    rintro ⟨clear, loose⟩
    exact allXorbs clear x obj stored loose
  case entries =>
    intro i name h
    rw [outcome.without.entries, swept]

end

def SameStore (st t : Store) : Prop :=
  (∀ a name, st.object a name = t.object a name) ∧ ∀ i name, st.entry i name = t.entry i name

theorem Complete.unique (first : Complete w st t) (second : Complete w st u) : SameStore t u := by
  constructor
  · intro a name
    apply Option.ext
    intro obj
    cases a with
    | xorbs => rw [first.xorbs, second.xorbs]
    | shards => rw [first.shards, second.shards]
  · intro i name
    apply Option.ext
    intro h
    rw [first.entries, second.entries]

theorem Setting.Governs.without (governs : w.Governs opts pass st) (without : Without gone lost st t) :
    w.Governs opts pass t where
  parsed := governs.parsed
  old := by
    intro a name obj found
    cases a with
    | xorbs => exact governs.old _ _ _ ((without.xorbs name obj).mp found).1
    | shards => exact governs.old _ _ _ ((without.shards name obj).mp found).1
  sweepLoads := governs.sweepLoads
  markLoads := governs.markLoads

end

def afterSteps (lastWriter : Bool) (opts : SweepOptions) (passes : Nat → Pass) (st : Store) : Nat → Store
  | 0 => st
  | k + 1 => (Prog.run (perform lastWriter) (sweepStep opts (passes k)) (afterSteps lastWriter opts passes st k)).2

def stepResult (lastWriter : Bool) (opts : SweepOptions) (passes : Nat → Pass) (st : Store) (k : Nat) :
    Except GCError SweepResult :=
  (Prog.run (perform lastWriter) (sweepStep opts (passes k)) (afterSteps lastWriter opts passes st k)).1

section
variable {w : Setting} {st : Store} {opts : SweepOptions} {passes : Nat → Pass} {full : Pass} (lastWriter : Bool)

theorem sweepStep_outcome {pass : Pass} (governs : w.Governs opts pass st) (real : opts.dryRun = false) :
    ∃ res, (Prog.run (perform lastWriter) (sweepStep opts pass) st).1 = .ok res ∧
      Outcome w ⟨opts.maxDeletes, opts.budget⟩ pass st res
        (Prog.run (perform lastWriter) (sweepStep opts pass) st).2 := by
  rw [sweepStep, real, if_neg Bool.false_ne_true]
  exact (sweepPass_outcome _ lastWriter governs real).run

section
variable (each : ∀ k, w.Governs opts (passes k) st)
include each

theorem afterSteps_leaves (real : opts.dryRun = false) (k : Nat) :
    (∀ j, w.Governs opts (passes j) (afterSteps lastWriter opts passes st k)) ∧
      ∀ u, Complete w (afterSteps lastWriter opts passes st k) u → Complete w st u := by
  induction k with
  | zero => exact ⟨each, fun u complete => complete⟩
  | succ k ih =>
    obtain ⟨governs, complete⟩ := ih
    obtain ⟨res, -, outcome⟩ := sweepStep_outcome lastWriter (governs k) real
    constructor
    · exact fun j => (governs j).without outcome.without
    · exact fun u rest => complete u (outcome.without.complete outcome.doomed outcome.unneeded rest)

theorem step_outcome (real : opts.dryRun = false) (k : Nat) :
    ∃ res, stepResult lastWriter opts passes st k = .ok res ∧
      Outcome w ⟨opts.maxDeletes, opts.budget⟩ (passes k) (afterSteps lastWriter opts passes st k) res
        (afterSteps lastWriter opts passes st (k + 1)) :=
  sweepStep_outcome lastWriter ((afterSteps_leaves lastWriter each real k).1 k) real

theorem count_afterSteps (real : opts.dryRun = false) (k : Nat)
    (going : ∀ j < k, ∀ res, stepResult lastWriter opts passes st j = .ok res → res.done = false) :
    (afterSteps lastWriter opts passes st k).count + k ≤ st.count := by
  induction k with
  | zero => exact Nat.le_refl _
  | succ k ih =>
    have before := ih fun j early => going j (Nat.lt_succ_of_lt early)
    obtain ⟨res, result, outcome⟩ := step_outcome lastWriter each real k
    have swept := (outcome.stopped (going k (Nat.lt_succ_self k) res result)).1
    have counts := outcome.without.count_eq
    rw [outcome.deleted_eq] at counts
    omega

theorem exists_done (real : opts.dryRun = false) :
    ∃ n res, stepResult lastWriter opts passes st n = .ok res ∧ res.done = true := by
  by_contra never
  have going : ∀ j < st.count + 1, ∀ res, stepResult lastWriter opts passes st j = .ok res → res.done = false := by
    intro j _ res result
    exact Bool.eq_false_iff.mpr fun done => never ⟨j, res, result, done⟩
  have shrunk := count_afterSteps lastWriter each real (st.count + 1) going
  omega

end

theorem sweep_complete (governs : w.Governs opts full st) (real : opts.dryRun = false) :
    Complete w st (Prog.run (perform lastWriter) (sweep opts full) st).2 := by
  obtain ⟨res, -, outcome⟩ := (sweepPass_outcome ⟨0, 0⟩ lastWriter governs real).run
  apply outcome.complete
  by_contra going
  obtain ⟨-, q, spent⟩ := outcome.stopped (Bool.eq_false_iff.mpr going)
  rw [unbounded] at spent
  cases spent

theorem dry_step {pass : Pass} (governs : w.Governs opts pass st) (dry : opts.dryRun = true) :
    ∃ res, Prog.run (perform lastWriter) (sweepStep opts pass) st = (.ok res, st) ∧ res.done = true := by
  rw [sweepStep, if_pos dry]
  obtain ⟨res, result, outcome⟩ := (sweep_dryOutcome lastWriter governs dry).run
  exact ⟨res, Prod.ext result outcome.unchanged, outcome.done⟩

theorem dry_afterSteps (each : ∀ k, w.Governs opts (passes k) st) (dry : opts.dryRun = true) (k : Nat) :
    afterSteps lastWriter opts passes st k = st := by
  induction k with
  | zero => rfl
  | succ k ih =>
    obtain ⟨res, run, -⟩ := dry_step lastWriter (each k) dry
    rw [afterSteps, ih, run]

/-- Bounded passes over a store in one setting, repeated until one is done. No pass deletes more than
its bound, each pass that is not done deletes something, some pass is done, and the first that is
leaves what one unbounded pass would have left. -/
theorem stepwise_sweep (lastWriter : Bool) (opts : SweepOptions) (w : Setting) (full : Pass)
    (passes : Nat → Pass) (st : Store) (bounded : 0 < opts.maxDeletes) (governs : w.Governs opts full st)
    (each : ∀ k, w.Governs opts (passes k) st) :
    let stores := afterSteps lastWriter opts passes st
    let result := stepResult lastWriter opts passes st
    (∀ k, ∃ res, result k = .ok res ∧ (deleted (stores k) (stores (k + 1)) : Int) ≤ opts.maxDeletes ∧
      (res.done = false → 0 < deleted (stores k) (stores (k + 1)))) ∧
    ∃ n, (∀ k < n, ∃ res, result k = .ok res ∧ res.done = false) ∧
      (∃ res, result n = .ok res ∧ res.done = true) ∧
      SameStore (stores (n + 1)) (Prog.run (perform lastWriter) (sweep opts full) st).2 := by
  intro stores result
  cases dry : opts.dryRun with
  | true =>
    have same : ∀ k, stores k = st := dry_afterSteps lastWriter each dry
    have results : ∀ k, ∃ res, result k = .ok res ∧ res.done = true := by
      intro k
      obtain ⟨res, run, done⟩ := dry_step lastWriter (each k) dry
      refine ⟨res, ?_, done⟩
      change (Prog.run _ _ (stores k)).1 = _
      rw [same k, run]
    constructor
    · intro k
      obtain ⟨res, ok, done⟩ := results k
      refine ⟨res, ok, ?_, fun going => by cases done.symm.trans going⟩
      rw [same, same, deleted, Finset.sdiff_self, Finset.sdiff_self]
      exact le_of_lt bounded
    · refine ⟨0, nofun, results 0, ?_⟩
      rw [same, dryRun_unchanged lastWriter opts full st dry]
      exact ⟨fun _ _ => rfl, fun _ _ => rfl⟩
  | false =>
    constructor
    · intro k
      obtain ⟨res, ok, outcome⟩ := step_outcome lastWriter each dry k
      have total : deleted (stores k) (stores (k + 1)) = sweptTotal res := outcome.deleted_eq
      rw [total]
      exact ⟨res, ok, outcome.within bounded, fun going => (outcome.stopped going).1⟩
    · classical
      have ends := exists_done lastWriter each dry
      obtain ⟨res, ok, done⟩ := Nat.find_spec ends
      refine ⟨Nat.find ends, fun k early => ?_, ⟨res, ok, done⟩, ?_⟩
      · obtain ⟨res, ok, -⟩ := step_outcome lastWriter each dry k
        exact ⟨res, ok, Bool.eq_false_iff.mpr fun done => Nat.find_min ends early ⟨res, ok, done⟩⟩
      · obtain ⟨res', ok', outcome⟩ := step_outcome lastWriter each dry (Nat.find ends)
        cases ok.symm.trans ok'
        exact ((afterSteps_leaves lastWriter each dry _).2 _ (outcome.complete done)).unique
          (sweep_complete lastWriter governs dry)

end

/-- One delete a pass: the shard goes first, then its xorb, and the third pass is done. -/
def oneByOne : SweepOptions := { byFiles with maxDeletes := 1 }

theorem sampleUnlinked_stepwise : ∃ n,
    (stepResult false oneByOne (fun _ => anyLoad) sampleUnlinked 0).toOption.map (·.done) = some false ∧
    (∃ res, stepResult false oneByOne (fun _ => anyLoad) sampleUnlinked n = .ok res ∧ res.done = true) ∧
    SameStore (afterSteps false oneByOne (fun _ => anyLoad) sampleUnlinked (n + 1))
      (Prog.run (perform false) (sweep oneByOne anyLoad) sampleUnlinked).2 := by
  have governs : sampleSetting.Governs oneByOne anyLoad sampleUnlinked :=
    ⟨rfl, sampleSetting_governs.old, rfl, rfl⟩
  obtain ⟨-, n, -, done, same⟩ :=
    stepwise_sweep false oneByOne sampleSetting anyLoad (fun _ => anyLoad) sampleUnlinked (by decide) governs
      fun _ => governs
  exact ⟨n, by decide +kernel, done, same⟩

end Xet.Storage
