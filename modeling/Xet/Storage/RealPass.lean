import Xet.Storage.SweepExact

/-! A sweep pass over a store nobody else changes: which shards it may delete and which xorbs, and
what phase 1 has done after each item of its queue. -/
namespace Xet.Storage
open Wire Calls Shard List SweepResult

/-- What the passes over one store agree on: what anchors a shard, which objects are past the cutoff,
and which loads fail in either phase. -/
structure Setting where
  anchor : SweepAnchor
  old : Area → Hash → Prop
  failsSweep : ShardHash → Bool
  failsMark : ShardHash → Bool

structure Setting.Governs (w : Setting) (opts : SweepOptions) (pass : Pass) (st : Store) : Prop where
  parsed : parseAnchor opts.anchor = .ok w.anchor
  old : ∀ a name obj, st.object a name = some obj →
    (obj.modTime < objCutoff pass.now opts.grace ↔ w.old a name)
  sweepLoads : pass.failsSweep = w.failsSweep
  markLoads : pass.failsMark = w.failsMark

namespace Setting
variable (w : Setting) (st : Store)

def Dead (h : ShardHash) : Prop :=
  (∃ obj, st.object .shards h = some obj) ∧ w.old .shards h ∧ ¬ Walked w.anchor st h

def Doomed (h : ShardHash) : Prop :=
  w.Dead st h ∧ ∃ sh, loadOutcome (w.failsSweep h) st h = .ok sh ∧ ¬ Held w.anchor st sh h

/-- A shard that cannot be loaded is left over, so no xorb may go. -/
def Blocked : Prop :=
  ∃ h, (∃ obj, st.object .shards h = some obj) ∧ ¬ w.Doomed st h ∧
    ((∃ e, loadOutcome (w.failsMark h) st h = .error e) ∨
      w.Dead st h ∧ ∃ e, loadOutcome (w.failsSweep h) st h = .error e)

def Unneeded (x : XorbHash) : Prop :=
  w.old .xorbs x ∧ ∀ h s, st.shard h = some s → x ∈ shardXorbs s → w.Doomed st h

end Setting

def Sized (st : Store) (a : Area) (obj : SweptObject) : Prop :=
  ∃ o, st.object a obj.hash = some o ∧ obj.size = o.data.length

/-- The store `t` is `st` without the shards in `gone`, the entries they own, and the xorbs in `lost`. -/
structure Without (gone : ShardHash → Prop) (lost : XorbHash → Prop) (st t : Store) : Prop where
  shards : ∀ h obj, t.object .shards h = some obj ↔ st.object .shards h = some obj ∧ ¬ gone h
  xorbs : ∀ x obj, t.object .xorbs x = some obj ↔ st.object .xorbs x = some obj ∧ ¬ lost x
  entries : ∀ i name h, t.entry i name = some h ↔
    st.entry i name = some h ∧ ¬ (gone h ∧ Owned st i name h)

def Complete (w : Setting) (st t : Store) : Prop :=
  Without (w.Doomed st) (fun x => ¬ w.Blocked st ∧ w.Unneeded st x) st t

def shardNames (res : SweepResult) : List ShardHash := res.sweptShards.map (·.hash)
def xorbNames (res : SweepResult) : List XorbHash := res.sweptXorbs.map (·.hash)

def sweptTotal (res : SweepResult) : Nat := res.sweptShards.length + res.sweptXorbs.length

/-- The counts of a pass fit what it has reported so far, and the bound on its deletes. -/
structure Tally (bounds : Bounds) (p : Progress) : Prop where
  counted : p.sweptCount = sweptTotal p.res
  reclaimed : p.res.reclaimedBytes =
    (p.res.sweptShards.map (·.size)).sum + (p.res.sweptXorbs.map (·.size)).sum
  within : 0 < bounds.maxDeletes → (p.sweptCount : Int) ≤ bounds.maxDeletes
  pending : p.res.done = false

section
variable {bounds : Bounds} {pass : Pass} {p : Progress} {obj : SweptObject} {res : SweepResult}

theorem exhausted_swept (spent : exhausted bounds pass p = true) : 0 < p.sweptCount := by
  simp only [exhausted, decide_eq_true_eq] at spent
  rcases spent with ⟨bounded, reached⟩ | ⟨-, swept, -⟩
  · omega
  · exact swept

theorem exhausted_room (going : exhausted bounds pass p = false) (bounded : 0 < bounds.maxDeletes) :
    (p.sweptCount : Int) < bounds.maxDeletes := by
  simp only [exhausted, decide_eq_false_iff_not, not_or, not_and, not_le] at going
  exact going.1 bounded

theorem Tally.afterXorb (tally : Tally bounds p) (going : exhausted bounds pass p = false) :
    Tally bounds (p.afterXorb obj) where
  counted := by
    have counted := tally.counted
    simp only [Progress.afterXorb, addXorb, sweptTotal, length_append, length_singleton] at counted ⊢
    omega
  reclaimed := by
    have reclaimed := tally.reclaimed
    simp only [Progress.afterXorb, addXorb, map_append, sum_append, map_cons, map_nil, sum_singleton]
    omega
  within := by
    intro bounded
    have room := exhausted_room going bounded
    simp only [Progress.afterXorb, Nat.cast_add, Nat.cast_one]
    omega
  pending := tally.pending

variable {r : SweepResult}

theorem SweepResult.SameButCounts.sameSwept (same : res.SameButCounts r) : SameSwept res r := by
  have equal : r.uncounted = res.uncounted := same
  have shards := congrArg sweptShards equal
  have xorbs := congrArg sweptXorbs equal
  have reclaimed := congrArg reclaimedBytes equal
  have done := congrArg SweepResult.done equal
  exact ⟨shards, xorbs, reclaimed, done⟩

theorem SameSwept.total (same : SameSwept res r) : sweptTotal r = sweptTotal res := by
  rw [sweptTotal, sweptTotal, same.shards, same.xorbs]

theorem Tally.skip (tally : Tally bounds p) (same : SameSwept p.res r) :
    Tally bounds (p.reported r) where
  counted := tally.counted.trans same.total.symm
  reclaimed := by
    have reclaimed := tally.reclaimed
    rw [← same.shards, ← same.xorbs, ← same.reclaimed] at reclaimed
    exact reclaimed
  within := tally.within
  pending := same.done.trans tally.pending

theorem Tally.afterShard (tally : Tally bounds p) (same : SameSwept p.res r) (going : exhausted bounds pass p = false) :
    Tally bounds (p.afterShard obj (true, r)) where
  counted := by
    have counted := tally.counted.trans same.total.symm
    simp only [Progress.afterShard, addShard, sweptTotal, length_append, length_singleton, if_true] at counted ⊢
    omega
  reclaimed := by
    have reclaimed := (tally.skip same).reclaimed
    simp only [Progress.reported] at reclaimed
    simp only [Progress.afterShard, addShard, map_append, sum_append, map_cons, map_nil, sum_singleton, if_true]
    omega
  within := by
    intro bounded
    have room := exhausted_room going bounded
    simp only [Progress.afterShard, if_true, Nat.cast_add, Nat.cast_one]
    omega
  pending := same.done.trans tally.pending

end

section
variable {anchor : SweepAnchor} {st : Store}

theorem listed_nodup {β : Type} (text : Hash → Bytes) (m : AList fun _ : Hash => β) :
    ((listed text m).map (·.1)).Nodup := by
  have order : ((listed text m).map (·.1)).Perm m.keys := by
    have sorted := (perm_insertionSort (fun x y : Hash × β => text x.1 ≤ text y.1)
      (m.entries.map fun e => (e.1, e.2))).map (·.1)
    rw [map_map] at sorted
    exact sorted
  exact order.nodup_iff.mpr m.keys_nodup

variable {cutoff : Int}

theorem pastGrace_nodup {a : Area} {keep : Hash × Object → Bool} :
    ((pastGrace cutoff ((listed a.text (st.objects a)).filter keep)).1.map (·.hash)).Nodup := by
  have within : ((pastGrace cutoff ((listed a.text (st.objects a)).filter keep)).1.map (·.hash)).Sublist
      ((listed a.text (st.objects a)).map (·.1)) := by
    simp only [pastGrace, map_map]
    exact (filter_sublist.trans filter_sublist).map _
  exact (listed_nodup _ _).sublist within

end

/-- The reported shards are gone, and the queue holds every other doomed shard. -/
structure Sweeping (w : Setting) (st : Store) (rest : List SweptObject) (p : Progress) (t : Store) : Prop where
  after : After (· ∈ shardNames p.res) st t
  doomed : ∀ obj ∈ p.res.sweptShards, w.Doomed st obj.hash ∧ Sized st .shards obj
  queue : ∀ obj ∈ rest, w.Dead st obj.hash ∧ Sized st .shards obj
  distinct : (shardNames p.res ++ rest.map (·.hash)).Nodup
  complete : ∀ h, w.Doomed st h → h ∈ shardNames p.res ∨ h ∈ rest.map (·.hash)
  blamed : ∀ h ∈ p.res.unreadableShards, w.Dead st h ∧ ∃ e, loadOutcome (w.failsSweep h) st h = .error e
  blames : ∀ h e, w.Dead st h → loadOutcome (w.failsSweep h) st h = .error e →
    h ∈ p.res.unreadableShards ∨ h ∈ rest.map (·.hash)
  xorbs : p.res.sweptXorbs = []

section
variable {w : Setting} {st t u : Store} {obj : SweptObject} {rest : List SweptObject} {p : Progress}
  {res : SweepResult} {h : ShardHash}

theorem After.object_eq {gone : ShardHash → Prop} (after : After gone st t) (here : ¬ gone h) :
    t.object .shards h = st.object .shards h := by
  apply Option.ext
  intro o
  rw [after.shards h o]
  exact and_iff_left here

section
variable (sweeping : Sweeping w st (obj :: rest) p t)
include sweeping

theorem Sweeping.skip (kept : ¬ w.Doomed st obj.hash) (same : SameSwept p.res res)
    (blamed : ∀ h ∈ res.unreadableShards, w.Dead st h ∧ ∃ e, loadOutcome (w.failsSweep h) st h = .error e)
    (blames : ∀ h ∈ p.res.unreadableShards, h ∈ res.unreadableShards)
    (here : ∀ e, loadOutcome (w.failsSweep obj.hash) st obj.hash = .error e → obj.hash ∈ res.unreadableShards) :
    Sweeping w st rest (p.reported res) t := by
  have names : shardNames (p.reported res).res = shardNames p.res :=
    congrArg (List.map SweptObject.hash) same.shards
  constructor
  case after =>
    rw [names]
    exact sweeping.after
  case doomed =>
    intro o member
    exact sweeping.doomed o (same.shards ▸ member)
  case queue => exact fun o member => sweeping.queue o (mem_cons_of_mem _ member)
  case distinct =>
    rw [names]
    exact sweeping.distinct.sublist ((sublist_cons_self _ _).append_left _)
  case complete =>
    intro h doomed
    rw [names]
    rcases sweeping.complete h doomed with gone | member
    · exact .inl gone
    · cases member with
      | head => exact absurd doomed kept
      | tail _ later => exact .inr later
  case blamed => exact blamed
  case blames =>
    intro h e dead failed
    rcases sweeping.blames h e dead failed with known | member
    · exact .inl (blames h known)
    · cases member with
      | head => exact .inl (here e failed)
      | tail _ later => exact .inr later
  case xorbs => exact same.xorbs.trans sweeping.xorbs

theorem Sweeping.swept {sh : Shard} (loaded : loadOutcome (w.failsSweep obj.hash) st obj.hash = .ok sh)
    (loose : ¬ Held w.anchor st sh obj.hash) (same : SameSwept p.res res)
    (unreadable : res.unreadableShards = p.res.unreadableShards) (sweptTo : SweptTo sh obj.hash t u) :
    Sweeping w st rest (p.afterShard obj (true, res)) u := by
  obtain ⟨dead, sized⟩ := sweeping.queue obj mem_cons_self
  obtain ⟨s, stored, files, casInfos⟩ := loadOutcome_ok loaded
  have names : shardNames (p.afterShard obj (true, res)).res = shardNames p.res ++ [obj.hash] := by
    simp only [shardNames, Progress.afterShard, addShard, if_true, same.shards, map_append, map_cons, map_nil]
  constructor
  case after =>
    have after := sweeping.after.swept stored (sweptNames_congr files casInfos) sweptTo
    simpa only [names, mem_append, mem_singleton] using after
  case doomed =>
    intro o member
    rcases mem_append.mp member with before | here
    · exact sweeping.doomed o (same.shards ▸ before)
    · cases mem_singleton.mp here
      exact ⟨⟨dead, sh, loaded, loose⟩, sized⟩
  case queue => exact fun o member => sweeping.queue o (mem_cons_of_mem _ member)
  case distinct =>
    rw [names, append_assoc]
    exact sweeping.distinct
  case complete =>
    intro h doomed
    rw [names, mem_append, mem_singleton]
    rcases sweeping.complete h doomed with gone | member
    · exact .inl (.inl gone)
    · cases member with
      | head => exact .inl (.inr rfl)
      | tail _ later => exact .inr later
  case blamed =>
    intro h member
    exact sweeping.blamed h (unreadable ▸ member)
  case blames =>
    intro h e dead failed
    rcases sweeping.blames h e dead failed with known | member
    · exact .inl (unreadable.symm ▸ known)
    · cases member with
      | head => cases loaded.symm.trans failed
      | tail _ later => exact .inr later
  case xorbs => exact same.xorbs.trans sweeping.xorbs

theorem Sweeping.first :
    t.object .shards obj.hash = st.object .shards obj.hash ∧
      ∀ sh, Held w.anchor t sh obj.hash ↔ Held w.anchor st sh obj.hash := by
  have here : obj.hash ∉ shardNames p.res := by
    intro gone
    exact (nodup_append.mp sweeping.distinct).2.2 _ gone _ mem_cons_self rfl
  exact ⟨sweeping.after.object_eq here, fun _ => sweeping.after.held_iff here⟩

theorem Sweeping.step {lastWriter : Bool} {bounds : Bounds} {pass : Pass} (tally : Tally bounds p)
    (going : exhausted bounds pass p = false) :
    (sweepShard w.failsSweep w.anchor obj.hash p.res).Meets (perform lastWriter) (fun _ => True)
      (fun r u => Sweeping w st rest (p.afterShard obj r) u ∧ Tally bounds (p.afterShard obj r)) t := by
  refine (sweepShard_meets trivial (fun _ _ _ _ => trivial) fun _ _ _ _ _ => trivial).mono
    (fun _ h => h) ?_
  rintro ⟨swept, res⟩ u outcome
  obtain ⟨stored, held⟩ := sweeping.first
  unfold SweepOutcome at outcome
  rw [loadOutcome_congr stored] at outcome
  cases loaded : loadOutcome (w.failsSweep obj.hash) st obj.hash with
  | error e =>
    rw [loaded] at outcome
    have present : e ≠ .notExist := by
      rintro rfl
      obtain ⟨o, found⟩ := (sweeping.queue obj mem_cons_self).1.1
      cases found.symm.trans (loadOutcome_missing loaded)
    have marked : (swept, res) = (false, p.res.markUnreadable obj.hash) ∧ u = t := by
      cases e with
      | notExist => exact absurd rfl present
      | unreadable e => exact outcome
      | failed => exact outcome
    obtain ⟨⟨⟩, rfl⟩ := marked
    have same := markUnreadable_sameSwept p.res obj.hash
    refine ⟨sweeping.skip ?_ same ?_ ?_ ?_, tally.skip same⟩
    · rintro ⟨-, sh, loads, -⟩
      cases loaded.symm.trans loads
    · intro h member
      rcases mem_markUnreadable.mp member with rfl | known
      · exact ⟨(sweeping.queue obj mem_cons_self).1, e, loaded⟩
      · exact sweeping.blamed h known
    · exact fun h known => mem_markUnreadable.mpr (.inr known)
    · exact fun _ _ => mem_markUnreadable.mpr (.inl rfl)
  | ok sh =>
    rw [loaded] at outcome
    rcases outcome with ⟨spared, ⟨⟩, rfl⟩ | ⟨loose, rfl, same, sweptTo⟩
    · rw [held] at spared
      refine ⟨sweeping.skip ?_ (.refl _) sweeping.blamed (fun _ known => known) ?_, tally.skip (.refl _)⟩
      · rintro ⟨-, sh', loads, loose⟩
        cases loaded.symm.trans loads
        exact loose spared
      · intro e failed
        cases loaded.symm.trans failed
    · rw [held] at loose
      exact ⟨sweeping.swept loaded loose same.sameSwept same.unreadable sweptTo, tally.afterShard same.sameSwept going⟩

end

theorem Sweeping.start {opts : SweepOptions} {pass : Pass} {refs : Refs} {young : Nat}
    {files digests : List Hash} (governs : w.Governs opts pass st)
    (read : ∀ h, Refs.anchors refs w.anchor h = true ↔ Walked w.anchor st h) :
    Sweeping w st (deadShards w.anchor (objCutoff pass.now opts.grace) st refs)
      ⟨.opening opts.dryRun young files digests, 0, 0⟩ st := by
  have dead : ∀ h, w.Dead st h → h ∈ (deadShards w.anchor (objCutoff pass.now opts.grace) st refs).map (·.hash) := by
    rintro h ⟨⟨o, found⟩, old, unwalked⟩
    have loose : refs.anchors w.anchor h = false := Bool.eq_false_iff.mpr fun walked => unwalked ((read h).mp walked)
    exact mem_map.mpr ⟨⟨h, o.data.length⟩,
      mem_deadShards.mpr ⟨loose, o, found, (governs.old _ _ o found).mpr old, rfl⟩, rfl⟩
  constructor
  case after =>
    have empty : After (fun _ => False) st st := After.refl st
    simpa [shardNames, opening] using empty
  case doomed => exact nofun
  case queue =>
    intro o member
    obtain ⟨loose, object, found, old, size⟩ := mem_deadShards.mp member
    refine ⟨⟨⟨object, found⟩, (governs.old _ _ object found).mp old, fun walked => ?_⟩, object, found, size⟩
    rw [(read o.hash).mpr walked] at loose
    cases loose
  case distinct => exact pastGrace_nodup
  case complete => exact fun h doomed => .inr (dead h doomed.1)
  case blamed => exact nofun
  case blames => exact fun h e loose _ => .inr (dead h loose)
  case xorbs => rfl

end

end Xet.Storage
