import Xet.Storage.History

/-! A full sweep of a quiescent store keeps exactly what is anchored. -/
namespace Xet.Storage
open Wire Calls Shard List Option Store

/-- The entries that keep a shard alive, wherever in the indexes they stand. -/
def Anchored (anchor : SweepAnchor) (st : Store) (h : ShardHash) : Prop :=
  let byFile := ∃ name, st.entry .files name = some h
  let byDigest := ∃ digest, digest ≠ Hash.zero ∧ st.entry .sha256 digest = some h
  match anchor with
  | .both => byFile ∨ byDigest
  | .files => byFile
  | .sha256 => byDigest ∨ (byFile ∧ ∃ s, st.shard h = some s ∧ hasUnanchorableFile s = true)

/-- The entry is one that the sweep looks for when it removes the shard. -/
def Owned (st : Store) (i : Index) (name : Hash) (h : ShardHash) : Prop :=
  ∃ s, st.shard h = some s ∧ name ∈ sweptNames s i

section
variable {st t u : Store} {anchor : SweepAnchor} {h : ShardHash} {s sh : Shard}

theorem Integrity.owned (whole : Integrity st) {i : Index} {name : Hash} (points : st.entry i name = some h)
    (index : i ≠ .chunks) : Owned st i name h := by
  cases i with
  | chunks => exact absurd rfl index
  | files =>
    obtain ⟨s, stored, fb, file, rfl⟩ := whole.files name h points
    exact ⟨s, stored, mem_map_of_mem file⟩
  | sha256 =>
    obtain ⟨s, stored, fb, file, carried⟩ := whole.sha256 name h points
    exact ⟨s, stored, digest_swept file carried⟩

theorem held_iff_anchored (whole : Integrity st) (stored : st.shard h = some s)
    (files : sh.files = s.files) (casInfos : sh.casInfos = s.casInfos) :
    Held anchor st sh h ↔ Anchored anchor st h := by
  have byFile : (∃ name ∈ sweptNames sh .files, st.entry .files name = some h) ↔
      ∃ name, st.entry .files name = some h := by
    constructor
    · rintro ⟨name, -, points⟩
      exact ⟨name, points⟩
    · rintro ⟨name, points⟩
      obtain ⟨s', stored', member⟩ := whole.owned points nofun
      cases stored.symm.trans stored'
      rw [sweptNames_congr files casInfos]
      exact ⟨name, member, points⟩
  have byDigest : (∃ name ∈ nonZeroDigests sh, st.entry .sha256 name = some h) ↔
      ∃ digest, digest ≠ Hash.zero ∧ st.entry .sha256 digest = some h := by
    constructor
    · rintro ⟨name, member, points⟩
      exact ⟨name, (mem_nonZeroDigests.mp member).1, points⟩
    · rintro ⟨digest, nonzero, points⟩
      obtain ⟨s', stored', fb, file, carried⟩ := whole.sha256 digest h points
      cases stored.symm.trans stored'
      exact ⟨digest, mem_nonZeroDigests.mpr ⟨nonzero, fb, files ▸ file, carried⟩, points⟩
  have unanchorable : hasUnanchorableFile sh = true ↔
      ∃ s, st.shard h = some s ∧ hasUnanchorableFile s = true := by
    have same : hasUnanchorableFile sh = hasUnanchorableFile s := by
      simp only [hasUnanchorableFile, files]
    simp only [stored, Option.some.injEq, exists_eq_left', same]
  cases anchor with
  | both => exact or_congr byFile byDigest
  | files => exact byFile
  | sha256 =>
    simp only [Held, Anchored, byFile, byDigest, unanchorable]
    rw [or_comm, and_comm]

/-- The store `t` is `st` without the shards in `gone` and the entries they own. -/
structure After (gone : ShardHash → Prop) (st t : Store) : Prop where
  xorbs : ∀ x, t.object .xorbs x = st.object .xorbs x
  shards : ∀ h obj, t.object .shards h = some obj ↔ st.object .shards h = some obj ∧ ¬ gone h
  entries : ∀ i name h, t.entry i name = some h ↔
    st.entry i name = some h ∧ ¬ (gone h ∧ Owned st i name h)

theorem After.refl (st : Store) : After (fun _ => False) st st where
  xorbs := fun _ => rfl
  shards := fun _ _ => by simp
  entries := fun _ _ _ => by simp

section
variable {gone : ShardHash → Prop}

section
variable (after : After gone st t)
include after

theorem After.missing (removed : gone h) : t.object .shards h = none := by
  rw [eq_none_iff_forall_ne_some]
  intro obj found
  exact ((after.shards h obj).mp found).2 removed

theorem After.shard_eq (here : ¬ gone h) : t.shard h = st.shard h := by
  have object : t.object .shards h = st.object .shards h := by
    apply Option.ext
    intro obj
    rw [after.shards h obj]
    exact and_iff_left here
  rw [Store.shard, Store.shard, object]

theorem After.held_iff (here : ¬ gone h) : Held anchor t sh h ↔ Held anchor st sh h := by
  have same : ∀ i name, t.entry i name = some h ↔ st.entry i name = some h := by
    intro i name
    rw [after.entries i name h]
    exact and_iff_left fun removed => here removed.1
  simp only [Held, same]

theorem After.swept (stored : st.shard h = some s) (names : sweptNames sh = sweptNames s) (swept : SweptTo sh h t u) :
    After (fun k => gone k ∨ k = h) st u := by
  obtain ⟨v, removed, rfl⟩ := swept
  rw [names] at removed
  constructor
  · intro x
    rw [object_erase, if_neg (by simp), removed.objects]
    exact after.xorbs x
  · intro k obj
    rw [object_erase]
    by_cases same : k = h
    · simp [same]
    · rw [if_neg (by simp [same]), removed.objects, after.shards]
      simp [same]
  · intro i name k
    rw [entry_erase, removed.entry_iff, after.entries]
    have owned : k = h ∧ name ∈ sweptNames s i ↔ k = h ∧ Owned st i name k := by
      refine and_congr_right ?_
      rintro rfl
      simp only [Owned, stored, Option.some.injEq, exists_eq_left']
    rw [owned, and_assoc, ← not_or, or_and_right]

end

end

/-- The queue still holds every stored shard that is not anchored and not gone. -/
def Draining (anchor : SweepAnchor) (st : Store) (rest : List SweptObject) (res : SweepResult)
    (t : Store) : Prop :=
  res.unreadableShards = [] ∧ (∀ obj ∈ rest, (st.shard obj.hash).isSome) ∧
    ∃ gone, After gone st t ∧ (∀ h, gone h → ¬ Anchored anchor st h) ∧
      ∀ h, (st.shard h).isSome → ¬ Anchored anchor st h → gone h ∨ ∃ obj ∈ rest, obj.hash = h

variable {res : SweepResult}

theorem SweepResult.SameButCounts.unreadable {r : SweepResult} (same : res.SameButCounts r) :
    r.unreadableShards = res.unreadableShards := by
  have equal : r.uncounted = res.uncounted := same
  have lists := congrArg SweepResult.unreadableShards equal
  exact lists

variable {rest : List SweptObject} {obj : SweptObject}

theorem Draining.next {gone : ShardHash → Prop} (readable : res.unreadableShards = [])
    (queue : ∀ o ∈ obj :: rest, (st.shard o.hash).isSome) (after : After gone st t)
    (dead : ∀ h, gone h → ¬ Anchored anchor st h) (complete : ∀ h, (st.shard h).isSome → ¬ Anchored anchor st h →
      gone h ∨ ∃ o ∈ obj :: rest, o.hash = h) (settled : ¬ Anchored anchor st obj.hash → gone obj.hash) :
    Draining anchor st rest res t := by
  refine ⟨readable, fun o member => queue o (mem_cons_of_mem _ member), gone, after, dead, ?_⟩
  intro h stored loose
  rcases complete h stored loose with removed | ⟨o, member, rfl⟩
  · exact .inl removed
  · cases member with
    | head => exact .inl (settled loose)
    | tail _ later => exact .inr ⟨o, later, rfl⟩

variable {lastWriter : Bool}

theorem Draining.step {fails : ShardHash → Bool} (whole : Integrity st) (loads : fails obj.hash = false)
    (draining : Draining anchor st (obj :: rest) res t) :
    (sweepShard fails anchor obj.hash res).Meets (perform lastWriter) (fun _ => True)
      (fun r u => Draining anchor st rest (if r.1 then r.2.addShard obj else r.2) u) t := by
  obtain ⟨readable, queue, gone, after, dead, complete⟩ := draining
  obtain ⟨s, stored⟩ := isSome_iff_exists.mp (queue obj mem_cons_self)
  refine (sweepShard_meets trivial (fun _ _ _ _ => trivial) fun _ _ _ _ _ => trivial).mono
    (fun _ h => h) ?_
  rintro ⟨swept, res'⟩ u outcome
  unfold SweepOutcome at outcome
  rw [loads] at outcome
  by_cases removed : gone obj.hash
  · have missing : loadOutcome false t obj.hash = .error .notExist := by
      simp only [loadOutcome, after.missing removed]
      rfl
    rw [missing] at outcome
    obtain ⟨⟨⟩, rfl⟩ := outcome
    exact .next readable queue after dead complete fun _ => removed
  · obtain ⟨sh, loaded, files, casInfos⟩ := loadOutcome_stored ((after.shard_eq removed).trans stored)
    rw [loaded] at outcome
    have held : Held anchor t sh obj.hash ↔ Anchored anchor st obj.hash :=
      (after.held_iff removed).trans (held_iff_anchored whole stored files casInfos)
    rcases outcome with ⟨spared, ⟨⟩, rfl⟩ | ⟨loose, rfl, same, sweptTo⟩
    · exact .next readable queue after dead complete fun loose => absurd (held.mp spared) loose
    · rw [held] at loose
      refine .next (same.unreadable.trans readable) queue
        (after.swept stored (sweptNames_congr files casInfos) sweptTo) ?_ ?_ fun _ => .inr rfl
      · rintro h (before | rfl)
        · exact dead h before
        · exact loose
      · intro h present unanchored
        exact (complete h present unanchored).imp_left .inl

theorem Draining.done (draining : Draining anchor st [] res t)
    (readable : ∀ h obj, st.object .shards h = some obj → (st.shard h).isSome) :
    After (fun h => ¬ Anchored anchor st h) st t := by
  obtain ⟨-, -, gone, after, dead, complete⟩ := draining
  have exactly_gone : ∀ h, (st.shard h).isSome → (gone h ↔ ¬ Anchored anchor st h) := by
    intro h stored
    refine ⟨dead h, fun loose => ?_⟩
    rcases complete h stored loose with removed | ⟨o, member, -⟩
    · exact removed
    · cases member
  refine ⟨after.xorbs, fun h obj => ?_, fun i name h => ?_⟩
  · rw [after.shards]
    exact and_congr_right fun found => not_congr (exactly_gone h (readable h obj found))
  · rw [after.entries]
    refine and_congr_right fun _ => not_congr (and_congr_left ?_)
    rintro ⟨s, stored, -⟩
    exact exactly_gone h (by rw [stored]; rfl)

def Referenced (st : Store) (x : XorbHash) : Prop := ∃ h s, st.shard h = some s ∧ x ∈ shardXorbs s

structure XorbsDraining (t : Store) (rest : List SweptObject) (u : Store) : Prop where
  shards : ∀ h, u.object .shards h = t.object .shards h
  entries : ∀ i name, u.entry i name = t.entry i name
  kept : ∀ x, Referenced t x → u.object .xorbs x = t.object .xorbs x
  dead : ∀ x, ¬ Referenced t x → u.object .xorbs x = none ∨ ∃ obj ∈ rest, obj.hash = x
  queue : ∀ obj ∈ rest, ¬ Referenced t obj.hash

theorem XorbsDraining.step (draining : XorbsDraining t (obj :: rest) u) :
    XorbsDraining t rest (u.erase .xorbs obj.hash) where
  shards := by
    intro h
    rw [object_erase, if_neg (by simp)]
    exact draining.shards h
  entries := draining.entries
  kept := by
    intro x referenced
    rw [object_erase, if_neg]
    · exact draining.kept x referenced
    · rintro ⟨-, rfl⟩
      exact draining.queue obj mem_cons_self referenced
  dead := by
    intro x loose
    rw [object_erase]
    split
    · exact .inl rfl
    · rename_i other
      rcases draining.dead x loose with gone | ⟨o, member, rfl⟩
      · exact .inl gone
      · cases member with
        | head => exact absurd ⟨rfl, rfl⟩ other
        | tail _ later => exact .inr ⟨o, later, rfl⟩
  queue := fun o member => draining.queue o (mem_cons_of_mem _ member)

theorem XorbsDraining.done (draining : XorbsDraining t [] u) (x : XorbHash) (obj : Object) :
    u.object .xorbs x = some obj ↔ t.object .xorbs x = some obj ∧ Referenced t x := by
  by_cases referenced : Referenced t x
  · rw [draining.kept x referenced]
    exact (and_iff_left referenced).symm
  · rcases draining.dead x referenced with gone | ⟨o, member, -⟩
    · simp [gone, referenced]
    · cases member

variable {pass : Pass}

theorem XorbsDraining.start {res' : SweepResult} {refs : List XorbHash} {cutoff : Int}
    (marked : Marked pass t [] (walkedShards t) res refs res') (readable : res'.unreadableShards = [])
    (old : ∀ x obj, t.object .xorbs x = some obj → obj.modTime < cutoff) :
    XorbsDraining t (deadXorbs cutoff t refs) t where
  shards := fun _ => rfl
  entries := fun _ _ => rfl
  kept := fun _ _ => rfl
  dead := by
    intro x loose
    cases found : t.object .xorbs x with
    | none => exact .inl rfl
    | some obj =>
      right
      have unmarked : x ∉ refs :=
        (marked.unreferenced_iff readable).mpr fun h s stored references => absurd ⟨h, s, stored, references⟩ loose
      exact ⟨⟨x, obj.data.length⟩, mem_deadXorbs.mpr ⟨unmarked, obj, found, old x obj found, rfl⟩, rfl⟩
  queue := by
    rintro o member ⟨h, s, stored, referenced⟩
    have none := (marked.unreferenced_iff readable).mp (mem_deadXorbs.mp member).1 h s stored referenced
    exact absurd none not_mem_nil

theorem XorbsDraining.referenced (draining : XorbsDraining t rest u) (x : XorbHash) :
    Referenced u x ↔ Referenced t x := by
  simp only [Referenced, Store.shard, draining.shards]

/-- Nothing is in the way of an exact pass: the store is whole, every shard can be loaded, every
object is older than the cutoff, and the pass is not a dry run. -/
structure Quiescent (opts : SweepOptions) (pass : Pass) (st : Store) : Prop where
  whole : Integrity st
  readable : ∀ h obj, st.object .shards h = some obj → (st.shard h).isSome
  loads : ∀ h, pass.failsSweep h = false ∧ pass.failsMark h = false
  old : ∀ a name obj, st.object a name = some obj → obj.modTime < objCutoff pass.now opts.grace
  real : opts.dryRun = false

structure SweptExactly (anchor : SweepAnchor) (st u : Store) : Prop where
  shards : ∀ h obj, u.object .shards h = some obj ↔ st.object .shards h = some obj ∧ Anchored anchor st h
  xorbs : ∀ x obj, u.object .xorbs x = some obj ↔ st.object .xorbs x = some obj ∧ Referenced u x
  entries : ∀ i name h, u.entry i name = some h ↔
    st.entry i name = some h ∧ (Anchored anchor st h ∨ ¬ Owned st i name h)

theorem sweptExactly (after : After (fun h => ¬ Anchored anchor st h) st t)
    (draining : XorbsDraining t [] u) : SweptExactly anchor st u where
  shards := by
    intro h obj
    rw [draining.shards, after.shards, not_not]
  xorbs := by
    intro x obj
    rw [draining.done, draining.referenced, after.xorbs]
  entries := by
    intro i name h
    rw [draining.entries, after.entries, not_and_or, not_not]

variable {opts : SweepOptions}

theorem Draining.start (quiet : Quiescent opts pass st) {dead : List SweptObject}
    (readable : res.unreadableShards = []) (queue : IsDeadQueue anchor (objCutoff pass.now opts.grace) st dead) :
    Draining anchor st dead res st := by
  refine ⟨readable, fun obj member => ?_, _, After.refl st, fun _ => False.elim, fun h stored loose => ?_⟩
  · obtain ⟨⟨o, found, -⟩, -⟩ := (queue obj.hash).mp ⟨obj, member, rfl⟩
    exact quiet.readable _ o found
  · obtain ⟨s, stored⟩ := isSome_iff_exists.mp stored
    obtain ⟨o, found, -⟩ := bind_eq_some_iff.mp stored
    refine .inr ((queue h).mpr ⟨⟨o, found, quiet.old _ _ o found⟩, fun walked => loose ?_⟩)
    cases anchor with
    | both => exact walked.imp And.right And.right
    | files =>
      rcases walked with ⟨-, byFile⟩ | ⟨other, -⟩
      · exact byFile
      · exact absurd rfl other
    | sha256 =>
      rcases walked with ⟨other, -⟩ | ⟨-, byDigest⟩
      · exact absurd rfl other
      · exact .inl byDigest

theorem sweep_swept (parsed : parseAnchor opts.anchor = .ok anchor) (quiet : Quiescent opts pass st) :
    Prog.Meets (perform lastWriter) (fun _ => True) (fun _ u => SweptExactly anchor st u)
      (sweep opts pass) st := by
  refine sweepPass_meets parsed trivial (fun dead res queue readable => Draining.start quiet readable queue)
    (fun _ _ _ _ dry => absurd dry (by simp [quiet.real]))
    (fun obj rest res t _ draining => draining.step quiet.whole (quiet.loads obj.hash).1) ?_ ?_
  · rintro - - - - ⟨q, spent⟩
    rw [unbounded] at spent
    cases spent
  · intro p t draining
    have after := draining.done quiet.readable
    rw [quiet.real]
    refine (sweepPhase2_meets (J := XorbsDraining t) trivial (fun refs res marked readable => ?_)
      (fun _ _ _ dry => by cases dry) (fun _ _ _ _ kept => ⟨trivial, kept.step⟩)).imp ?_
    · refine XorbsDraining.start marked readable fun x obj found => ?_
      rw [after.xorbs] at found
      exact quiet.old _ _ _ found
    · rintro - u (⟨rfl, refs, res, marked, unreadable⟩ | ⟨rest, kept, rfl | ⟨q, spent⟩⟩)
      · obtain ⟨h, blamed⟩ := exists_mem_of_ne_nil _ unreadable
        rcases marked.blamed h blamed with before | ⟨walked, -, e, failed⟩
        · rw [draining.1] at before
          cases before
        · obtain ⟨obj, found⟩ := mem_walkedShards.mp walked
          obtain ⟨before, kept⟩ := (after.shards h obj).mp found
          obtain ⟨s, stored⟩ := isSome_iff_exists.mp (quiet.readable h obj before)
          rw [← after.shard_eq kept] at stored
          obtain ⟨sh, loaded, -⟩ := loadOutcome_stored stored
          rw [(quiet.loads h).2, loaded] at failed
          cases failed
      · exact sweptExactly after kept
      · rw [unbounded] at spent
        cases spent

def Unreadable (pass : Pass) (st : Store) (h : ShardHash) : Prop :=
  (∃ e, loadOutcome (pass.failsSweep h) st h = .error e) ∧
    ∃ e, loadOutcome (pass.failsMark h) st h = .error e

theorem loadOutcome_congr {fails : Bool} (same : t.object .shards h = st.object .shards h) :
    loadOutcome fails t h = loadOutcome fails st h := by
  simp only [loadOutcome, same]

def Untouched (st : Store) (h : ShardHash) (t : Store) : Prop :=
  t.object .shards h = st.object .shards h ∧ ∀ x, t.object .xorbs x = st.object .xorbs x

theorem Untouched.step (unreadable : Unreadable pass st h) (same : Untouched st h t) (k : ShardHash)
    (res : SweepResult) :
    (sweepShard pass.failsSweep anchor k res).Meets (perform lastWriter) (fun _ => True)
      (fun _ u => Untouched st h u) t := by
  refine (sweepShard_meets trivial (fun _ _ _ _ => trivial) fun _ _ _ _ _ => trivial).mono
    (fun _ h => h) ?_
  intro r u outcome
  unfold SweepOutcome at outcome
  by_cases here : k = h
  · subst here
    obtain ⟨e, failed⟩ := unreadable.1
    rw [loadOutcome_congr same.1, failed] at outcome
    cases e <;> exact outcome.2 ▸ same
  · cases loaded : loadOutcome (pass.failsSweep k) t k with
    | error e =>
      rw [loaded] at outcome
      cases e <;> exact outcome.2 ▸ same
    | ok sh =>
      rw [loaded] at outcome
      rcases outcome with ⟨-, -, rfl⟩ | ⟨-, -, -, v, removed, rfl⟩
      · exact same
      · constructor
        · rw [object_erase, if_neg (by simp [Ne.symm here]), removed.objects]
          exact same.1
        · intro x
          rw [object_erase, if_neg (by simp), removed.objects]
          exact same.2 x

theorem sweep_untouched {obj : Object} (stored : st.object .shards h = some obj) (unreadable : Unreadable pass st h) :
    Prog.Meets (perform lastWriter) (fun _ => True) (fun _ u => Untouched st h u) (sweep opts pass) st := by
  cases parsed : parseAnchor opts.anchor with
  | error e =>
    unfold sweep sweepPass
    rw [Prog.meets_exceptBind, parsed]
    exact ⟨rfl, fun _ => rfl⟩
  | ok anchor =>
    refine sweepPass_meets (J := fun _ _ t => Untouched st h t) parsed trivial
      (fun _ _ _ _ => ⟨rfl, fun _ => rfl⟩) (fun _ _ _ _ _ same => same)
      (fun o _ res _ _ same => same.step unreadable o.hash res) (fun _ _ _ same _ => same) ?_
    intro p t same
    -- A pass that deletes xorbs has found every shard readable.
    refine (sweepPhase2_meets (J := fun _ u => Untouched st h u ∧ opts.dryRun = true) trivial ?_
      (fun _ _ _ _ kept => kept) (fun _ _ _ real kept => by simp [real] at kept)).imp ?_
    · intro refs res marked readable
      refine ⟨same, ?_⟩
      by_contra real
      rw [Bool.eq_false_iff.mpr real] at marked
      have walked : h ∈ walkedShards t := mem_walkedShards.mpr ⟨obj, same.1.trans stored⟩
      obtain ⟨e, failed⟩ := unreadable.2
      rw [← loadOutcome_congr same.1] at failed
      rcases marked.shielded h walked not_mem_nil (by simp [readable]) with missing | ⟨sh, loaded, -⟩
      · cases (loadOutcome_missing missing).symm.trans (same.1.trans stored)
      · rw [loaded] at failed
        cases failed
    · rintro - u (⟨rfl, -⟩ | ⟨-, kept, -⟩)
      · exact same
      · exact kept.1

/-- A full sweep of a quiescent store keeps exactly the anchored shards, the xorbs that they
reference and the entries that point at them. Of the other entries it removes all but those of
chunks that no probe may ask for. A shard that cannot be read stays, and so does every xorb. -/
theorem sweep_exact (lastWriter : Bool) (opts : SweepOptions) (pass : Pass) (st : Store) :
    let u := (Prog.run (perform lastWriter) (sweep opts pass) st).2
    (∀ anchor, parseAnchor opts.anchor = .ok anchor → Quiescent opts pass st →
      (∀ h obj, u.object .shards h = some obj ↔ st.object .shards h = some obj ∧ Anchored anchor st h) ∧
      (∀ x obj, u.object .xorbs x = some obj ↔
        st.object .xorbs x = some obj ∧ ∃ h s, u.shard h = some s ∧ x ∈ shardXorbs s) ∧
      (∀ i name h, u.entry i name = some h ↔ st.entry i name = some h ∧ (Anchored anchor st h ∨
        i = .chunks ∧ ∀ s, st.shard h = some s → name ∉ s.globalDedupEligibleChunks.map (·.hash)))) ∧
    (∀ h obj, st.object .shards h = some obj → Unreadable pass st h →
      u.object .shards h = some obj ∧ ∀ x, u.object .xorbs x = st.object .xorbs x) := by
  refine ⟨fun anchor parsed quiet => ?_, fun h obj stored unreadable => ?_⟩
  · have swept : SweptExactly anchor st (Prog.run (perform lastWriter) (sweep opts pass) st).2 :=
      (sweep_swept parsed quiet).run
    refine ⟨swept.shards, swept.xorbs, fun i name h => ?_⟩
    rw [swept.entries]
    refine and_congr_right fun points => or_congr_right ?_
    constructor
    · intro loose
      have index : i = .chunks := by
        by_contra other
        exact loose (quiet.whole.owned points other)
      subst index
      exact ⟨rfl, fun s stored member => loose ⟨s, stored, member⟩⟩
    · rintro ⟨rfl, unprobed⟩ ⟨s, stored, member⟩
      exact unprobed s stored member
  · have kept : Untouched st h (Prog.run (perform lastWriter) (sweep opts pass) st).2 :=
      (sweep_untouched stored unreadable).run
    exact ⟨kept.1.trans stored, kept.2⟩

end

/-- The sample shard with its file unlinked: only the digest of the file still points at it. -/
def sampleUnlinked : Store :=
  (((Op.unlink sampleFile).prog sampleEnv).run (perform false) sampleShardStored).2

def byFiles : SweepOptions := ⟨"files", -1, false, 0, 0⟩
def anyLoad : Pass := ⟨1, fun _ => 0, fun _ => false, fun _ => false⟩
def noLoad : Pass := ⟨1, fun _ => 0, fun _ => true, fun _ => true⟩

theorem sampleUnlinked_dates (a : Area) : ∀ e ∈ (sampleUnlinked.objects a).entries, e.2.modTime < 2 := by
  cases a <;> decide +kernel

theorem sampleUnlinked_swept :
    Quiescent byFiles anyLoad sampleUnlinked ∧
    (Prog.run (perform false) (sweep byFiles anyLoad) sampleUnlinked).2.object .shards sampleShardHash = none ∧
    (Prog.run (perform false) (sweep byFiles anyLoad) sampleUnlinked).2.object .xorbs sampleXorb = none ∧
    (sampleUnlinked.object .shards sampleShardHash).isSome ∧
    (Prog.run (perform false) (sweep byFiles noLoad) sampleUnlinked).2.object .xorbs sampleXorb =
      sampleUnlinked.object .xorbs sampleXorb := by
  have sound := (sampleShardStored_reachable.run (.unlink sampleFile) trivial).sound
  have quiet : Quiescent byFiles anyLoad sampleUnlinked :=
    ⟨sound.integrity, sound.readable, fun _ => ⟨rfl, rfl⟩,
      fun a name obj found => sampleUnlinked_dates a _ (AList.mem_lookup_iff.mp found), rfl⟩
  have noFiles : (sampleUnlinked.indexes .files).entries = [] := by decide +kernel
  have loose : ∀ h, ¬ Anchored .files sampleUnlinked h := by
    rintro h ⟨name, points⟩
    have listed : ⟨name, h⟩ ∈ (sampleUnlinked.indexes .files).entries := AList.mem_lookup_iff.mp points
    rw [noFiles] at listed
    cases listed
  obtain ⟨shards, xorbs, -⟩ := (sweep_exact false byFiles anyLoad sampleUnlinked).1 .files rfl quiet
  have stored : (sampleUnlinked.object .shards sampleShardHash).isSome := by decide +kernel
  refine ⟨quiet, ?_, ?_, stored, ?_⟩
  · rw [Option.eq_none_iff_forall_ne_some]
    exact fun obj found => loose _ ((shards _ obj).mp found).2
  · rw [Option.eq_none_iff_forall_ne_some]
    intro obj found
    obtain ⟨-, h, s, present, -⟩ := (xorbs _ obj).mp found
    obtain ⟨o, there, -⟩ := Option.bind_eq_some_iff.mp present
    exact loose h ((shards h o).mp there).2
  · obtain ⟨obj, found⟩ := Option.isSome_iff_exists.mp stored
    exact ((sweep_exact false byFiles noLoad sampleUnlinked).2 sampleShardHash obj found
      ⟨⟨_, rfl⟩, ⟨_, rfl⟩⟩).2 sampleXorb

/-- An empty file and a xorb. No file starts in the xorb, so no probe may ask for its chunk. -/
def strayShard : Shard where
  footerSize := 0
  files := [⟨Hash.zero, fileWithMetadataExt, [], [], some Hash.zero⟩]
  casInfos := [⟨sampleXorb, 0, [⟨sampleXorb, 0, 3, 0⟩], 3, 11⟩]
  footer := none

def strayHash : ShardHash := ⟨[0xc2, 0x66, 0xec, 0x47, 0x5d, 0x71, 0xc9, 0x16, 0xa5, 0x03, 0xdb,
  0xdf, 0xd9, 0x76, 0x1b, 0x53, 0x5d, 0x69, 0x6a, 0xff, 0x2e, 0xf1,
  0x00, 0x4b, 0x87, 0x60, 0x18, 0xa9, 0x38, 0x15, 0xb6, 0xad], rfl⟩

def strayStore : Store :=
  ((Store.empty.insert .xorbs sampleXorb ⟨sampleXorbBytes, 0⟩).insert .shards strayHash
    ⟨encodeShard strayShard, 0⟩).insertEntry .chunks sampleXorb strayHash

theorem strayStore_quiescent : Quiescent byFiles anyLoad strayStore := by
  have stored : strayStore.shard strayHash = some strayShard := by decide +kernel
  have only : ∀ h, h ≠ strayHash → strayStore.object .shards h = none := by
    intro h other
    simp [strayStore, other]
  have dates : ∀ a, ∀ e ∈ (strayStore.objects a).entries, e.2.modTime < 2 := by
    intro a
    cases a <;> decide +kernel
  refine ⟨⟨?_, ?_, ?_, ?_⟩, ?_, fun _ => ⟨rfl, rfl⟩, ?_, rfl⟩
  · intro name h points
    simp [strayStore] at points
  · intro name h points
    simp [strayStore] at points
  · intro name h points
    simp only [strayStore, entry_insertEntry, entry_insert, entry_empty] at points
    split at points
    · rename_i here
      cases points
      exact ⟨strayShard, stored, _, mem_cons_self, _, mem_cons_self, here.2.symm⟩
    · cases points
  · intro h s found x member
    by_cases same : h = strayHash
    · subst same
      cases stored.symm.trans found
      have xorb : x = sampleXorb := by simpa [shardXorbs, strayShard] using member
      rw [xorb]
      decide +kernel
    · rw [Store.shard, only h same] at found
      cases found
  · intro h obj found
    by_cases same : h = strayHash
    · rw [same, stored]
      rfl
    · rw [only h same] at found
      cases found
  · exact fun a name obj found => dates a _ (AList.mem_lookup_iff.mp found)

/-- The shard is swept; the entry stays and points at nothing. -/
theorem stray_chunk_entry_survives :
    let u := (Prog.run (perform false) (sweep byFiles anyLoad) strayStore).2
    Quiescent byFiles anyLoad strayStore ∧ strayStore.entry .chunks sampleXorb = some strayHash ∧
      u.object .shards strayHash = none ∧ u.entry .chunks sampleXorb = some strayHash := by
  refine ⟨strayStore_quiescent, ?_, ?_, ?_⟩ <;> decide +kernel

end Xet.Storage
