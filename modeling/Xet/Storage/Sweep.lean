import Xet.Storage.SweepShard

/-! The loops of a sweep pass: for each a rule that turns what one item does into what the whole
loop does, wherever the bounds end it. -/
namespace Xet.Storage
open Wire Calls Shard List Prog SweepResult

section
variable {lastWriter : Bool} {I : Store → Prop} {st : Store}
variable {bounds : Bounds} {pass : Pass} {dryRun : Bool} {anchor : SweepAnchor}

theorem unbounded (p : Progress) : exhausted ⟨0, 0⟩ pass p = false := by
  simp [exhausted]

variable {cutoff : Int}

theorem mem_pastGrace {a : Area} {keep : Hash × Object → Bool} {obj : SweptObject} :
    obj ∈ (pastGrace cutoff ((listed a.text (st.objects a)).filter keep)).1 ↔
      ∃ o, keep (obj.hash, o) = true ∧ st.object a obj.hash = some o ∧ o.modTime < cutoff ∧ obj.size = o.data.length := by
  simp only [pastGrace, mem_map, mem_filter, decide_eq_true_eq, Prod.exists, mem_listed]
  constructor
  · rintro ⟨name, o, ⟨⟨found, kept⟩, old⟩, rfl⟩
    exact ⟨o, kept, found, old, rfl⟩
  · rintro ⟨o, kept, found, old, size⟩
    exact ⟨obj.hash, o, ⟨⟨found, kept⟩, old⟩, by rw [← size]⟩

/-- The entries of the indexes that the pass walks and that point at the shard. -/
def Walked (anchor : SweepAnchor) (st : Store) (h : ShardHash) : Prop :=
  (anchor ≠ .sha256 ∧ ∃ name, st.entry .files name = some h) ∨
    (anchor ≠ .files ∧ ∃ name, name ≠ Hash.zero ∧ st.entry .sha256 name = some h)

theorem readRefs_meets (start : I st) : (readRefs anchor).Meets (perform lastWriter) I
    (fun refs t => t = st ∧ ∀ h, refs.anchors anchor h = true ↔ Walked anchor st h) st := by
  have files : ∀ h, ((listed Index.files.text (st.indexes .files)).any fun e => e.2 = h) = true ↔
      ∃ name, st.entry .files name = some h := by
    intro h
    simp only [any_eq_true, decide_eq_true_eq, Prod.exists, mem_listed]
    exact ⟨fun ⟨name, _, found, rfl⟩ => ⟨name, found⟩, fun ⟨name, found⟩ => ⟨name, h, found, rfl⟩⟩
  have digests : ∀ h, (((listed Index.sha256.text (st.indexes .sha256)).filter
      fun e => e.1 ≠ Hash.zero).any fun e => e.2 = h) = true ↔
      ∃ name, name ≠ Hash.zero ∧ st.entry .sha256 name = some h := by
    intro h
    simp only [any_eq_true, decide_eq_true_eq, Prod.exists, mem_filter, mem_listed]
    exact ⟨fun ⟨name, _, ⟨found, other⟩, rfl⟩ => ⟨name, other, found⟩,
      fun ⟨name, other, found⟩ => ⟨name, h, ⟨found, other⟩, rfl⟩⟩
  unfold readRefs
  rw [meets_bind, meets_walkIndex]
  refine ⟨start, ?_⟩
  split
  · rename_i only
    subst only
    refine ⟨rfl, fun h => ?_⟩
    simp only [Refs.anchors, decide_eq_true_eq, files, Walked]
    simp
  · rename_i walked
    rw [meets_bind, meets_walkIndex]
    refine ⟨start, rfl, fun h => ?_⟩
    simp only [Refs.anchors, decide_eq_true_eq, files, digests, Walked]
    simp [walked]

def Progress.afterShard (p : Progress) (obj : SweptObject) (r : Bool × SweepResult) : Progress :=
  if r.1 then { res := r.2.addShard obj, sweptCount := p.sweptCount + 1, checks := p.checks + 1 }
  else { p with res := r.2, checks := p.checks + 1 }

def Progress.reported (p : Progress) (res : SweepResult) : Progress :=
  { p with res := res, checks := p.checks + 1 }

variable {J : List SweptObject → Progress → Store → Prop}

theorem sweepShards_meets
    (dry : ∀ obj rest p t, dryRun = true → J (obj :: rest) p t → J rest (p.reported (p.res.addShard obj)) t)
    (step : ∀ obj rest p t, dryRun = false → exhausted bounds pass p = false → J (obj :: rest) p t →
      (sweepShard pass.failsSweep anchor obj.hash p.res).Meets (perform lastWriter) I
        (fun r u => J rest (p.afterShard obj r) u) t) (dead : List SweptObject) (p : Progress) (start : J dead p st) :
    (sweepShards bounds pass dryRun anchor dead p).Meets (perform lastWriter) I
      (fun r t => ∃ rest q, J rest q t ∧
        if r.1 then r.2 = { q with res := { q.res with remainingShards := rest.length } } ∧
          exhausted bounds pass q = true
        else rest = [] ∧ r.2 = q)
      st := by
  induction dead generalizing p st with
  | nil => exact ⟨[], p, start, rfl, rfl⟩
  | cons obj rest ih =>
    unfold sweepShards
    split
    · rename_i spent
      exact ⟨obj :: rest, p, start, rfl, spent⟩
    · rename_i going
      split
      · rename_i run
        exact ih _ (dry obj rest p st run start)
      · rename_i run
        rw [meets_bind]
        refine (step obj rest p st (Bool.eq_false_iff.mpr run) (Bool.eq_false_iff.mpr going) start).mono
          (fun _ h => h) ?_
        rintro ⟨swept, res⟩ t kept
        cases swept with
        | true => exact ih _ kept
        | false => exact ih _ kept

theorem SweepResult.mem_markUnreadable {res : SweepResult} {h u : ShardHash} :
    u ∈ (res.markUnreadable h).unreadableShards ↔ u = h ∨ u ∈ res.unreadableShards := by
  unfold markUnreadable
  split
  · rename_i known
    constructor
    · exact .inr
    · rintro (rfl | member)
      · exact known
      · exact member
  · simp [sortedBy, or_comm]

/-- The reports agree in the objects they name, their sizes, and whether the pass is done. -/
structure SameSwept (res r : SweepResult) : Prop where
  shards : r.sweptShards = res.sweptShards
  xorbs : r.sweptXorbs = res.sweptXorbs
  reclaimed : r.reclaimedBytes = res.reclaimedBytes
  done : r.done = res.done

theorem SameSwept.refl (res : SweepResult) : SameSwept res res := ⟨rfl, rfl, rfl, rfl⟩

theorem SameSwept.trans {res r r' : SweepResult} (first : SameSwept res r) (second : SameSwept r r') :
    SameSwept res r' where
  shards := second.shards.trans first.shards
  xorbs := second.xorbs.trans first.xorbs
  reclaimed := second.reclaimed.trans first.reclaimed
  done := second.done.trans first.done

theorem markUnreadable_sameSwept (res : SweepResult) (h : ShardHash) : SameSwept res (res.markUnreadable h) := by
  unfold SweepResult.markUnreadable
  split
  · exact .refl res
  · exact ⟨rfl, rfl, rfl, rfl⟩

/-- What the walk over the shards has found: the xorbs `refs`, and the shards not to be read. -/
structure Marked (pass : Pass) (st : Store) (drySwept hs : List ShardHash) (res : SweepResult)
    (refs : List XorbHash) (res' : SweepResult) : Prop where
  kept : ∀ u ∈ res.unreadableShards, u ∈ res'.unreadableShards
  blamed : ∀ u ∈ res'.unreadableShards, u ∈ res.unreadableShards ∨
    u ∈ hs ∧ u ∉ drySwept ∧ ∃ e, loadOutcome (pass.failsMark u) st u = .error e
  shielded : ∀ h ∈ hs, h ∉ drySwept → h ∉ res'.unreadableShards →
    loadOutcome (pass.failsMark h) st h = .error .notExist ∨
      ∃ sh, loadOutcome (pass.failsMark h) st h = .ok sh ∧ ∀ x ∈ shardXorbs sh, x ∈ refs
  referenced : ∀ x ∈ refs, ∃ h ∈ hs, h ∉ drySwept ∧ ∃ sh,
    loadOutcome (pass.failsMark h) st h = .ok sh ∧ x ∈ shardXorbs sh

namespace Marked
variable {drySwept hs : List ShardHash} {res res' : SweepResult} {refs : List XorbHash} {h : ShardHash}

theorem skip (marked : Marked pass st drySwept hs res refs res')
    (skipped : h ∈ drySwept ∨ h ∈ res'.unreadableShards ∨ loadOutcome (pass.failsMark h) st h = .error .notExist) :
    Marked pass st drySwept (h :: hs) res refs res' where
  kept := marked.kept
  blamed := fun u member => (marked.blamed u member).imp_right fun found =>
    ⟨mem_cons_of_mem _ found.1, found.2⟩
  shielded := by
    intro u member real known
    cases member with
    | head =>
      rcases skipped with dry | unreadable | missing
      · exact absurd dry real
      · exact absurd unreadable known
      · exact .inl missing
    | tail _ later => exact marked.shielded u later real known
  referenced := by
    intro x member
    obtain ⟨u, listed, found⟩ := marked.referenced x member
    exact ⟨u, mem_cons_of_mem _ listed, found⟩

theorem blame (marked : Marked pass st drySwept hs (res.markUnreadable h) refs res') {e : LoadError}
    (real : h ∉ drySwept) (failed : loadOutcome (pass.failsMark h) st h = .error e) :
    Marked pass st drySwept (h :: hs) res refs res' := by
  have known := marked.kept h (mem_markUnreadable.mpr (.inl rfl))
  have rest := marked.skip (.inr (.inl known))
  refine ⟨?_, ?_, rest.shielded, rest.referenced⟩
  · exact fun u member => marked.kept u (mem_markUnreadable.mpr (.inr member))
  · intro u member
    rcases rest.blamed u member with before | found
    · rcases mem_markUnreadable.mp before with rfl | member
      · exact .inr ⟨mem_cons_self, real, e, failed⟩
      · exact .inl member
    · exact .inr found

theorem load (marked : Marked pass st drySwept hs res refs res') {sh : Shard} (real : h ∉ drySwept)
    (loaded : loadOutcome (pass.failsMark h) st h = .ok sh) :
    Marked pass st drySwept (h :: hs) res (shardXorbs sh ++ refs) res' where
  kept := marked.kept
  blamed := fun u member => (marked.blamed u member).imp_right fun found =>
    ⟨mem_cons_of_mem _ found.1, found.2⟩
  shielded := by
    intro u member real known
    cases member with
    | head => exact .inr ⟨sh, loaded, fun x member => mem_append_left _ member⟩
    | tail _ later =>
      rcases marked.shielded u later real known with missing | ⟨sh', loaded', within⟩
      · exact .inl missing
      · exact .inr ⟨sh', loaded', fun x member => mem_append_right _ (within x member)⟩
  referenced := by
    intro x member
    rcases mem_append.mp member with here | later
    · exact ⟨h, mem_cons_self, real, sh, loaded, here⟩
    · obtain ⟨u, listed, found⟩ := marked.referenced x later
      exact ⟨u, mem_cons_of_mem _ listed, found⟩

end Marked

theorem markShards_meets (start : I st) (drySwept hs : List ShardHash) (res : SweepResult) :
    (markShards pass drySwept hs res).Meets (perform lastWriter) I
      (fun r t => t = st ∧ Marked pass st drySwept hs res r.1 r.2 ∧ SameSwept res r.2) st := by
  induction hs generalizing res with
  | nil => exact ⟨rfl, ⟨fun _ h => h, fun _ h => .inl h, nofun, nofun⟩, .refl res⟩
  | cons h rest ih =>
    unfold markShards
    split
    · rename_i skipped
      refine (ih res).imp ?_
      rintro r t ⟨rfl, marked, same⟩
      exact ⟨rfl, marked.skip (skipped.imp_right fun known => .inl (marked.kept h known)), same⟩
    · rename_i unseen
      have real : h ∉ drySwept := fun dry => unseen (.inl dry)
      refine (tryLoad_meets start (pass.failsMark h)).bind ?_
      rintro outcome t ⟨rfl, rfl⟩
      cases loaded : loadOutcome (pass.failsMark h) t h with
      | error e =>
        have blamed : (markShards pass drySwept rest (res.markUnreadable h)).Meets (perform lastWriter) I
            (fun r u => u = t ∧ Marked pass t drySwept (h :: rest) res r.1 r.2 ∧ SameSwept res r.2) t := by
          refine (ih _).imp ?_
          rintro r u ⟨rfl, marked, same⟩
          exact ⟨rfl, marked.blame real loaded, (markUnreadable_sameSwept res h).trans same⟩
        cases e with
        | notExist =>
          refine (ih res).imp ?_
          rintro r u ⟨rfl, marked, same⟩
          exact ⟨rfl, marked.skip (.inr (.inr loaded)), same⟩
        | unreadable e => exact blamed
        | failed => exact blamed
      | ok sh =>
        refine (ih res).bind ?_
        rintro ⟨refs, res'⟩ u ⟨rfl, marked, same⟩
        exact ⟨rfl, marked.load real loaded, same⟩

def Progress.afterXorb (p : Progress) (obj : SweptObject) : Progress :=
  { res := p.res.addXorb obj, sweptCount := p.sweptCount + 1, checks := p.checks + 1 }

theorem sweepXorbs_meets
    (dry : ∀ obj rest p t, dryRun = true → J (obj :: rest) p t → J rest (p.reported (p.res.addXorb obj)) t)
    (step : ∀ obj rest p t, dryRun = false → exhausted bounds pass p = false → J (obj :: rest) p t →
      I (t.erase .xorbs obj.hash) ∧ J rest (p.afterXorb obj) (t.erase .xorbs obj.hash)) (dead : List SweptObject)
    (p : Progress) (start : J dead p st) :
    (sweepXorbs bounds pass dryRun dead p).Meets (perform lastWriter) I
      (fun r t => ∃ rest q, J rest q t ∧
        if r.1 then r.2 = { q with res := { q.res with remainingXorbs := rest.length } } ∧
          exhausted bounds pass q = true
        else rest = [] ∧ r.2 = q) st := by
  induction dead generalizing p st with
  | nil => exact ⟨[], p, start, rfl, rfl⟩
  | cons obj rest ih =>
    unfold sweepXorbs
    split
    · rename_i spent
      exact ⟨obj :: rest, p, start, rfl, spent⟩
    · rename_i going
      split
      · rename_i run
        exact ih _ (dry obj rest p st run start)
      · rename_i run
        rw [meets_bind, meets_deleteObject]
        obtain ⟨holds, next⟩ :=
          step obj rest p st (Bool.eq_false_iff.mpr run) (Bool.eq_false_iff.mpr going) start
        exact ⟨holds, ih _ next⟩

theorem shardXorbs_congr {s sh : Shard} (files : sh.files = s.files) (casInfos : sh.casInfos = s.casInfos) :
    shardXorbs sh = shardXorbs s := by
  simp only [shardXorbs, files, casInfos]

def walkedShards (st : Store) : List ShardHash := (listed Area.shards.text (st.objects .shards)).map (·.1)

theorem mem_walkedShards {h : ShardHash} : h ∈ walkedShards st ↔ ∃ obj, st.object .shards h = some obj := by
  simp only [walkedShards, mem_map, Prod.exists, mem_listed]
  constructor
  · rintro ⟨name, obj, found, rfl⟩
    exact ⟨obj, found⟩
  · rintro ⟨obj, found⟩
    exact ⟨h, obj, found, rfl⟩

/-- When every shard was read, the xorbs left over are those of the shards that a dry run has reported. -/
theorem Marked.unreferenced_iff {drySwept : List ShardHash} {res res' : SweepResult} {refs : List XorbHash} {x : XorbHash}
    (marked : Marked pass st drySwept (walkedShards st) res refs res') (readable : res'.unreadableShards = []) :
    x ∉ refs ↔ ∀ h s, st.shard h = some s → x ∈ shardXorbs s → h ∈ drySwept := by
  constructor
  · intro loose h s stored references
    by_contra real
    obtain ⟨o, found, -⟩ := Option.bind_eq_some_iff.mp stored
    rcases marked.shielded h (mem_walkedShards.mpr ⟨o, found⟩) real (by simp [readable]) with
      missing | ⟨sh, loaded, within⟩
    · cases found.symm.trans (loadOutcome_missing missing)
    · obtain ⟨s', stored', files, casInfos⟩ := loadOutcome_ok loaded
      cases stored.symm.trans stored'
      exact loose (within _ (shardXorbs_congr files casInfos ▸ references))
  · intro only member
    obtain ⟨h, -, real, sh, loaded, references⟩ := marked.referenced x member
    obtain ⟨s, stored, files, casInfos⟩ := loadOutcome_ok loaded
    exact real (only h s stored (shardXorbs_congr files casInfos ▸ references))

def deadXorbs (cutoff : Int) (st : Store) (refs : List XorbHash) : List SweptObject :=
  (pastGrace cutoff ((listed Area.xorbs.text (st.objects .xorbs)).filter fun e => e.1 ∉ refs)).1

theorem mem_deadXorbs {refs : List XorbHash} {obj : SweptObject} :
    obj ∈ deadXorbs cutoff st refs ↔ obj.hash ∉ refs ∧
      ∃ o, st.object .xorbs obj.hash = some o ∧ o.modTime < cutoff ∧ obj.size = o.data.length := by
  rw [deadXorbs, mem_pastGrace]
  simp

def Progress.drySwept (dryRun : Bool) (p : Progress) : List ShardHash :=
  if dryRun then p.res.sweptShards.map (·.hash) else []

/-- Phase 2 stops before the first delete if a shard is unreadable, else it goes through the dead
xorbs; the bounds may end it before the last. -/
theorem sweepPhase2_rule {Q : SweepResult → Store → Prop} {p : Progress} (holds : I st)
    (start : ∀ refs res young, Marked pass st (p.drySwept dryRun) (walkedShards st) p.res refs res →
      SameSwept p.res res → res.unreadableShards = [] → J (deadXorbs cutoff st refs)
        (p.reported { res with skippedInGrace := res.skippedInGrace + young }) st)
    (blocked : ∀ refs res, Marked pass st (p.drySwept dryRun) (walkedShards st) p.res refs res →
      SameSwept p.res res → res.unreadableShards ≠ [] → Q { res with done := true } st)
    (dry : ∀ obj rest p t, dryRun = true → J (obj :: rest) p t → J rest (p.reported (p.res.addXorb obj)) t)
    (step : ∀ obj rest p t, dryRun = false → exhausted bounds pass p = false → J (obj :: rest) p t →
      I (t.erase .xorbs obj.hash) ∧ J rest (p.afterXorb obj) (t.erase .xorbs obj.hash))
    (spent : ∀ rest q t, J rest q t → exhausted bounds pass q = true →
      Q { q.res with remainingXorbs := rest.length } t) (ended : ∀ q t, J [] q t → Q { q.res with done := true } t) :
    (sweepPhase2 bounds pass dryRun cutoff p).Meets (perform lastWriter) I Q st := by
  unfold sweepPhase2
  rw [meets_bind, meets_walkObjects]
  refine ⟨holds, ?_⟩
  refine (markShards_meets holds _ _ p.res).bind ?_
  rintro ⟨refs, res⟩ t ⟨rfl, marked, same⟩
  dsimp only
  by_cases readable : res.unreadableShards = []
  · rw [if_neg (not_not_intro readable), meets_bind, meets_walkObjects]
    refine ⟨holds, ?_⟩
    refine (sweepXorbs_meets dry step _ _ (start refs res _ marked same readable)).bind ?_
    rintro ⟨stopped, q⟩ t ⟨rest, q', kept, final⟩
    cases stopped with
    | true =>
      obtain ⟨rfl, ran_out⟩ := final
      exact spent rest q' t kept ran_out
    | false =>
      obtain ⟨rfl, rfl⟩ := final
      exact ended q t kept
  · rw [if_pos readable]
    exact blocked refs res marked same readable

theorem sweepPhase2_meets {J : List SweptObject → Store → Prop} {p : Progress} (holds : I st)
    (start : ∀ refs res, Marked pass st (if dryRun then p.res.sweptShards.map (·.hash) else [])
      (walkedShards st) p.res refs res → res.unreadableShards = [] → J (deadXorbs cutoff st refs) st)
    (dry : ∀ obj rest t, dryRun = true → J (obj :: rest) t → J rest t)
    (step : ∀ obj rest t, dryRun = false → J (obj :: rest) t →
      I (t.erase .xorbs obj.hash) ∧ J rest (t.erase .xorbs obj.hash)) :
    (sweepPhase2 bounds pass dryRun cutoff p).Meets (perform lastWriter) I
      (fun _ t => (t = st ∧ ∃ refs res, Marked pass st
          (if dryRun then p.res.sweptShards.map (·.hash) else []) (walkedShards st) p.res refs res ∧
          res.unreadableShards ≠ []) ∨
        ∃ rest, J rest t ∧ (rest = [] ∨ ∃ q, exhausted bounds pass q = true)) st := by
  apply sweepPhase2_rule (J := fun rest _ t => J rest t) holds
  case start => exact fun refs res _ marked _ readable => start refs res marked readable
  case blocked => exact fun refs res marked _ unreadable => .inl ⟨rfl, refs, res, marked, unreadable⟩
  case dry => exact fun obj rest _ t run kept => dry obj rest t run kept
  case step => exact fun obj rest _ t run _ kept => step obj rest t run kept
  case spent => exact fun rest q t kept ran_out => .inr ⟨rest, kept, .inr ⟨q, ran_out⟩⟩
  case ended => exact fun q t kept => .inr ⟨[], kept, .inl rfl⟩

/-- The queue holds exactly the old shards that the walked entries do not point at. -/
def IsDeadQueue (anchor : SweepAnchor) (cutoff : Int) (st : Store) (dead : List SweptObject) : Prop :=
  ∀ h, (∃ obj ∈ dead, obj.hash = h) ↔
    (∃ o, st.object .shards h = some o ∧ o.modTime < cutoff) ∧ ¬ Walked anchor st h

def deadShards (anchor : SweepAnchor) (cutoff : Int) (st : Store) (refs : Refs) : List SweptObject :=
  (pastGrace cutoff ((listed Area.shards.text (st.objects .shards)).filter
    fun e => !refs.anchors anchor e.1)).1

theorem mem_deadShards {refs : Refs} {obj : SweptObject} :
    obj ∈ deadShards anchor cutoff st refs ↔ refs.anchors anchor obj.hash = false ∧
      ∃ o, st.object .shards obj.hash = some o ∧ o.modTime < cutoff ∧ obj.size = o.data.length := by
  rw [deadShards, mem_pastGrace]
  simp

theorem deadQueue {refs : Refs} (read : ∀ h, refs.anchors anchor h = true ↔ Walked anchor st h) :
    IsDeadQueue anchor cutoff st (deadShards anchor cutoff st refs) := by
  intro h
  rw [← read, Bool.not_eq_true]
  constructor
  · rintro ⟨obj, member, rfl⟩
    obtain ⟨loose, o, found, old, -⟩ := mem_deadShards.mp member
    exact ⟨⟨o, found, old⟩, loose⟩
  · rintro ⟨⟨o, found, old⟩, loose⟩
    exact ⟨⟨h, o.data.length⟩, mem_deadShards.mpr ⟨loose, o, found, old, rfl⟩, rfl⟩

def SweepResult.opening (dryRun : Bool) (young : Nat) (files digests : List Hash) : SweepResult where
  dryRun := dryRun
  skippedInGrace := young
  danglingFileEntries := files
  danglingSHA256Entries := digests

theorem sweepPass_rule {opts : SweepOptions} {Q : SweepResult → Store → Prop}
    (parsed : parseAnchor opts.anchor = .ok anchor) (holds : I st)
    (start : ∀ refs young files digests, (∀ h, Refs.anchors refs anchor h = true ↔ Walked anchor st h) →
      J (deadShards anchor (objCutoff pass.now opts.grace) st refs)
        ⟨.opening opts.dryRun young files digests, 0, 0⟩ st)
    (dry : ∀ obj rest p t, opts.dryRun = true → J (obj :: rest) p t → J rest (p.reported (p.res.addShard obj)) t)
    (step : ∀ obj rest p t, opts.dryRun = false → exhausted bounds pass p = false → J (obj :: rest) p t →
      (sweepShard pass.failsSweep anchor obj.hash p.res).Meets (perform lastWriter) I
        (fun r u => J rest (p.afterShard obj r) u) t)
    (spent : ∀ rest p remaining t, J rest p t → exhausted bounds pass p = true →
      Q { p.res with remainingShards := remaining } t) (phase2 : ∀ p t, J [] p t →
      (sweepPhase2 bounds pass opts.dryRun (objCutoff pass.now opts.grace) p).Meets (perform lastWriter) I Q t) :
    Prog.Meets (perform lastWriter) I (fun r t => ∃ res, r = .ok res ∧ Q res t) (sweepPass opts pass bounds) st := by
  unfold sweepPass
  rw [meets_exceptBind, parsed]
  refine meets_exceptBind.mpr ?_
  rw [meets_lift]
  refine (readRefs_meets holds).imp ?_
  rintro refs t ⟨rfl, read⟩
  dsimp only
  rw [meets_exceptBind, meets_lift, meets_walkObjects]
  refine ⟨holds, ?_⟩
  dsimp only
  rw [meets_exceptBind, meets_lift]
  refine (sweepShards_meets dry step _ _ (start refs _ _ _ read)).imp ?_
  rintro ⟨stopped, p⟩ t ⟨rest, q, kept, ended⟩
  dsimp only
  cases stopped with
  | true =>
    obtain ⟨rfl, ran_out⟩ := ended
    rw [if_pos (.inl rfl)]
    exact ⟨_, rfl, spent rest q _ t kept ran_out⟩
  | false =>
    obtain ⟨rfl, rfl⟩ := ended
    by_cases ran_out : exhausted bounds pass p = true
    · rw [if_pos (.inr ran_out)]
      exact ⟨_, rfl, spent [] p p.res.remainingShards t kept ran_out⟩
    · rw [if_neg (by simp [ran_out]), meets_lift]
      exact (phase2 p t kept).imp fun res u holds => ⟨res, rfl, holds⟩

theorem sweepPass_meets {opts : SweepOptions} {Q : Store → Prop}
    {J : List SweptObject → SweepResult → Store → Prop} (parsed : parseAnchor opts.anchor = .ok anchor)
    (holds : I st)
    (start : ∀ dead res, IsDeadQueue anchor (objCutoff pass.now opts.grace) st dead →
      res.unreadableShards = [] → J dead res st)
    (dry : ∀ obj rest res t, opts.dryRun = true → J (obj :: rest) res t → J rest (res.addShard obj) t)
    (step : ∀ obj rest res t, opts.dryRun = false → J (obj :: rest) res t →
      (sweepShard pass.failsSweep anchor obj.hash res).Meets (perform lastWriter) I
        (fun r u => J rest (if r.1 then r.2.addShard obj else r.2) u) t)
    (spent : ∀ rest res t, J rest res t → (∃ q, exhausted bounds pass q = true) → Q t)
    (phase2 : ∀ p t, J [] p.res t →
      (sweepPhase2 bounds pass opts.dryRun (objCutoff pass.now opts.grace) p).Meets (perform lastWriter) I
        (fun _ u => Q u) t) : Prog.Meets (perform lastWriter) I (fun _ t => Q t) (sweepPass opts pass bounds) st := by
  have met : Prog.Meets (perform lastWriter) I (fun r t => ∃ res : SweepResult, r = .ok res ∧ Q t)
      (sweepPass opts pass bounds) st := by
    apply sweepPass_rule (J := fun rest p t => J rest p.res t) (Q := fun _ t => Q t) parsed holds
    case start => exact fun refs _ _ _ read => start _ _ (deadQueue read) rfl
    case dry => exact fun obj rest p t run kept => dry obj rest p.res t run kept
    case step =>
      intro obj rest p t run _ kept
      refine (step obj rest p.res t run kept).imp ?_
      rintro ⟨swept, res⟩ u next
      cases swept <;> exact next
    case spent => exact fun rest p _ t kept ran_out => spent rest p.res t kept ⟨p, ran_out⟩
    case phase2 => exact phase2
  exact met.imp fun _ _ ⟨_, _, holds⟩ => holds

end

end Xet.Storage
