import Xet.Storage.Integrity

/-! What sweeping one shard does: nothing, or the removal of the shard with all entries that
point at it among the names it owns. -/
namespace Xet.Storage
open Wire Calls Shard List Prog

def sweptNames (sh : Shard) : Index → List Hash
  | .files => sh.files.map (·.fileHash)
  | .sha256 => nonZeroDigests sh ++ if hasUnanchorableFile sh then [Hash.zero] else []
  | .chunks => sh.globalDedupEligibleChunks.map (·.hash)

theorem sweptNames_congr {s sh : Shard} (files : sh.files = s.files) (casInfos : sh.casInfos = s.casInfos) :
    sweptNames sh = sweptNames s := by
  cases sh
  cases s
  cases files
  cases casInfos
  funext i
  cases i <;> rfl

theorem mem_nonZeroDigests {s : Shard} {digest : SHA256Hash} :
    digest ∈ nonZeroDigests s ↔ digest ≠ Hash.zero ∧ ∃ fb ∈ s.files, fb.metadataExt = some digest := by
  simp only [nonZeroDigests, mem_filterMap]
  constructor
  · rintro ⟨fb, file, picked⟩
    split at picked
    · rename_i carried
      split at picked
      · cases picked
      · rename_i other
        cases picked
        exact ⟨other, fb, file, carried⟩
    · cases picked
  · rintro ⟨other, fb, file, carried⟩
    exact ⟨fb, file, by simp [carried, other]⟩

theorem digest_swept {s : Shard} {fb : FileBlock} {digest : SHA256Hash} (file : fb ∈ s.files)
    (carried : fb.metadataExt = some digest) : digest ∈ sweptNames s .sha256 := by
  simp only [sweptNames, mem_append]
  by_cases zero : digest = Hash.zero
  · right
    have unanchorable : hasUnanchorableFile s = true := by
      simp only [hasUnanchorableFile, any_eq_true]
      exact ⟨fb, file, by simp [carried, zero]⟩
    rw [if_pos unanchorable]
    exact mem_singleton.mpr zero
  · exact .inl (mem_nonZeroDigests.mpr ⟨zero, fb, file, carried⟩)

theorem indexNames_swept {s : Shard} {i : Index} {name : Hash} (listed : name ∈ indexNames s i) :
    name ∈ sweptNames s i := by
  cases i with
  | files => exact listed
  | chunks => exact listed
  | sha256 =>
    obtain ⟨fb, file, carried⟩ := mem_filterMap.mp listed
    exact digest_swept file carried

/-- An entry that anchors the shard `sh` of name `h`, as the sweep looks for it among its names. -/
def Held (anchor : SweepAnchor) (st : Store) (sh : Shard) (h : ShardHash) : Prop :=
  let byFile := ∃ name ∈ sweptNames sh .files, st.entry .files name = some h
  let byDigest := ∃ name ∈ nonZeroDigests sh, st.entry .sha256 name = some h
  match anchor with
  | .both => byFile ∨ byDigest
  | .files => byFile
  | .sha256 => (hasUnanchorableFile sh = true ∧ byFile) ∨ byDigest

/-- Of the entries that point at `h` those in `names` are gone; the rest of the store is the same. -/
structure Removed (names : Index → List Hash) (h : ShardHash) (st t : Store) : Prop where
  objects : ∀ a name, t.object a name = st.object a name
  gone : ∀ i, ∀ name ∈ names i, st.entry i name = some h → t.entry i name = none
  kept : ∀ i name, (name ∈ names i → st.entry i name ≠ some h) → t.entry i name = st.entry i name

section
variable {names more : Index → List Hash} {h : ShardHash} {st t u : Store}

theorem Removed.refl (unowned : ∀ i, ∀ name ∈ names i, st.entry i name ≠ some h) :
    Removed names h st st where
  objects := fun _ _ => rfl
  gone := fun i name member points => absurd points (unowned i name member)
  kept := fun _ _ _ => rfl

theorem Removed.entry (removed : Removed names h st t) (i : Index) (name : Hash) :
    t.entry i name = st.entry i name ∨ (t.entry i name = Option.none ∧ st.entry i name = some h) := by
  by_cases owned : name ∈ names i ∧ st.entry i name = some h
  · exact .inr ⟨removed.gone i name owned.1 owned.2, owned.2⟩
  · exact .inl (removed.kept i name fun member points => owned ⟨member, points⟩)

theorem Removed.entry_iff (removed : Removed names h st t) {i : Index} {name : Hash} {k : ShardHash} :
    t.entry i name = some k ↔ st.entry i name = some k ∧ ¬ (k = h ∧ name ∈ names i) := by
  by_cases owned : name ∈ names i ∧ st.entry i name = some h
  · rw [removed.gone i name owned.1 owned.2, owned.2]
    constructor
    · nofun
    · rintro ⟨⟨⟩, other⟩
      exact absurd ⟨rfl, owned.1⟩ other
  · rw [removed.kept i name fun member points => owned ⟨member, points⟩]
    refine ⟨fun points => ⟨points, ?_⟩, And.left⟩
    rintro ⟨rfl, member⟩
    exact owned ⟨member, points⟩

theorem Removed.trans (first : Removed names h st t) (second : Removed more h t u) :
    Removed (fun i => names i ++ more i) h st u where
  objects := fun a name => (second.objects a name).trans (first.objects a name)
  gone := by
    intro i name member points
    rcases first.entry i name with same | ⟨empty, -⟩
    · rcases mem_append.mp member with early | late
      · have gone := first.gone i name early points
        rw [same, points] at gone
        cases gone
      · exact second.gone i name late (same.trans points)
    · rw [second.kept i name fun _ points => by rw [empty] at points; cases points]
      exact empty
  kept := by
    intro i name free
    have same := first.kept i name fun member => free (mem_append_left _ member)
    rw [second.kept i name fun member => same ▸ free (mem_append_right _ member)]
    exact same

theorem Removed.congr (removed : Removed names h st t)
    (same : ∀ i name, st.entry i name = some h → (name ∈ names i ↔ name ∈ more i)) :
    Removed more h st t where
  objects := removed.objects
  gone := fun i name member points => removed.gone i name ((same i name points).mpr member) points
  kept := fun i name free => removed.kept i name fun member points =>
    free ((same i name points).mp member) points

end

section
variable {lastWriter : Bool} {I : Store → Prop} {st : Store} {i : Index} {h : ShardHash}

theorem entryPointsAt_meets (start : I st) (names : List Hash) :
    (entryPointsAt i h names).Meets (perform lastWriter) I
      (fun b t => t = st ∧ (b = true ↔ ∃ name ∈ names, st.entry i name = some h)) st := by
  induction names with
  | nil => exact ⟨rfl, by simp⟩
  | cons name rest ih =>
    unfold entryPointsAt
    rw [meets_bind, meets_getEntry]
    refine ⟨start, ?_⟩
    split
    · rename_i points
      exact ⟨rfl, by simp [points]⟩
    · rename_i other
      refine ih.imp ?_
      rintro b t ⟨rfl, iff⟩
      exact ⟨rfl, by simp [iff, other]⟩

def onlyAt (i : Index) (names : List Hash) : Index → List Hash := fun j => if j = i then names else []

theorem deleteOwned_meets (start : I st) (keeps : ∀ t name, I t → I (t.eraseEntry i name))
    (names : List Hash) :
    (deleteOwned i h names).Meets (perform lastWriter) I
      (fun _ t => I t ∧ Removed (onlyAt i names) h st t) st := by
  induction names generalizing st with
  | nil =>
    refine ⟨start, Removed.refl fun j name member => ?_⟩
    simp [onlyAt] at member
  | cons name rest ih =>
    unfold deleteOwned
    rw [meets_bind, meets_getEntry]
    refine ⟨start, ?_⟩
    by_cases points : st.entry i name = some h
    · rw [if_neg (not_not_intro points), meets_bind, meets_deleteEntry]
      refine ⟨keeps st name start, ?_⟩
      refine (ih (keeps st name start)).bind ?_
      rintro n t ⟨inv, removed⟩
      refine ⟨inv, ?_⟩
      have first : Removed (onlyAt i [name]) h st (st.eraseEntry i name) := by
        constructor
        · intro a other
          rfl
        · intro j other member _
          by_cases index : j = i
          · have same : other = name := by simpa [onlyAt, index] using member
            simp [index, same]
          · simp [onlyAt, index] at member
        · intro j other free
          rw [Store.entry_eraseEntry, if_neg]
          rintro ⟨rfl, rfl⟩
          exact free (by simp [onlyAt]) points
      refine (first.trans removed).congr fun j other _ => ?_
      by_cases index : j = i <;> simp [onlyAt, index]
    · rw [if_pos points]
      refine (ih start).imp ?_
      rintro n t ⟨inv, removed⟩
      refine ⟨inv, removed.congr fun j other owned => ?_⟩
      by_cases index : j = i
      · subst index
        have different : other ≠ name := by
          rintro rfl
          exact points owned
        simp [onlyAt, different]
      · simp [onlyAt, index]

theorem loadShard_only (h : ShardHash) : Prog.Only Call.Reads (loadShard h) := by
  refine ⟨trivial, fun r => ?_⟩
  cases r with
  | none => trivial
  | some obj =>
    cases decoded : decodeStoredShard obj.data <;>
    · simp only [Prog.bind, Function.comp_apply, ExceptT.bindCont, decoded]
      trivial

theorem tryLoad_only (fails : Bool) (h : ShardHash) : Prog.Only Call.Reads (tryLoad fails h) := by
  unfold tryLoad
  split
  · trivial
  · exact loadShard_only h

def loadOutcome (fails : Bool) (st : Store) (h : ShardHash) : Except LoadError Shard :=
  if fails then .error .failed
  else match st.object .shards h with
    | none => .error .notExist
    | some obj =>
      match decodeStoredShard obj.data with
      | .error e => .error (.unreadable e)
      | .ok s => .ok { s with footer := some (s.footer.getD (s.newFooter (unixSeconds obj.modTime))) }

theorem tryLoad_meets (start : I st) (fails : Bool) :
    (tryLoad fails h).Meets (perform lastWriter) I (fun r t => r = loadOutcome fails st h ∧ t = st) st := by
  refine ((tryLoad_only fails h).meets (fun c reads => reads.quiet st) start).imp ?_
  rintro r t ⟨rfl, rfl⟩
  refine ⟨?_, rfl⟩
  unfold tryLoad loadOutcome
  split
  · rfl
  · change (run (perform lastWriter) (ExceptT.bindCont _ (.ok (t.object .shards h))) t).1 = _
    cases t.object .shards h with
    | none => rfl
    | some obj =>
      change (run (perform lastWriter) (match decodeStoredShard obj.data with
        | .error e => throw (.unreadable e)
        | .ok s => pure _ : ExceptT LoadError StoreProg Shard) t).1 = _
      dsimp only
      cases decodeStoredShard obj.data <;> rfl

theorem loadOutcome_ok {fails : Bool} {sh : Shard} (loaded : loadOutcome fails st h = .ok sh) :
    ∃ s, st.shard h = some s ∧ sh.files = s.files ∧ sh.casInfos = s.casInfos := by
  unfold loadOutcome at loaded
  split at loaded
  · cases loaded
  · split at loaded
    · cases loaded
    · rename_i obj found
      split at loaded
      · cases loaded
      · rename_i s decoded
        cases loaded
        refine ⟨s, ?_, rfl, rfl⟩
        simp only [Store.shard, found, Option.bind_some, decoded]
        rfl

theorem loadOutcome_stored {s : Shard} (stored : st.shard h = some s) :
    ∃ sh, loadOutcome false st h = .ok sh ∧ sh.files = s.files ∧ sh.casInfos = s.casInfos := by
  obtain ⟨obj, found, decoded⟩ := Option.bind_eq_some_iff.mp stored
  unfold loadOutcome
  rw [if_neg Bool.false_ne_true, found]
  dsimp only
  cases result : decodeStoredShard obj.data with
  | error e =>
    rw [result] at decoded
    cases decoded
  | ok s' =>
    rw [result] at decoded
    cases decoded
    exact ⟨_, rfl, rfl, rfl⟩

theorem loadOutcome_missing {fails : Bool} (missing : loadOutcome fails st h = .error .notExist) :
    st.object .shards h = none := by
  unfold loadOutcome at missing
  split at missing
  · cases missing
  · split at missing
    · assumption
    · split at missing <;> cases missing

theorem fileEntryPointsAt_meets (start : I st) (sh : Shard) :
    (fileEntryPointsAt sh h).Meets (perform lastWriter) I
      (fun b t => t = st ∧ (b = true ↔ ∃ name ∈ sweptNames sh .files, st.entry .files name = some h)) st :=
  entryPointsAt_meets start _

theorem spared_meets (start : I st) (anchor : SweepAnchor) (sh : Shard) :
    (spared anchor sh h).Meets (perform lastWriter) I
      (fun b t => t = st ∧ (b = true ↔ anchor = .sha256 ∧ Held .sha256 st sh h)) st := by
  cases anchor with
  | both => exact ⟨rfl, by simp⟩
  | files => exact ⟨rfl, by simp⟩
  | sha256 =>
    have digests : ∀ held : Bool,
        (held = true ↔ hasUnanchorableFile sh = true ∧ ∃ name ∈ sweptNames sh .files, st.entry .files name = some h) →
        (if held then pure true else sha256EntryPointsAt sh h : StoreProg Bool).Meets
          (perform lastWriter) I
          (fun b t => t = st ∧ (b = true ↔ SweepAnchor.sha256 = .sha256 ∧ Held .sha256 st sh h)) st := by
      intro held iff
      split
      · rename_i yes
        exact ⟨rfl, by simpa [Held] using .inl (iff.mp yes)⟩
      · rename_i no
        refine (entryPointsAt_meets start _).imp ?_
        rintro b t ⟨rfl, byDigest⟩
        refine ⟨rfl, ?_⟩
        rw [byDigest]
        constructor
        · exact fun found => ⟨rfl, .inr found⟩
        · rintro ⟨-, byFile | found⟩
          · exact absurd (iff.mpr byFile) no
          · exact found
    unfold spared unanchorableHeld
    dsimp only
    rw [meets_bind]
    split
    · rename_i unanchorable
      refine (fileEntryPointsAt_meets start sh).imp ?_
      rintro held t ⟨rfl, iff⟩
      exact digests held (by rw [iff]; simp [unanchorable])
    · rename_i anchorable
      exact digests false (by simp [anchorable])

def SweepResult.uncounted (r : SweepResult) : SweepResult :=
  { r with deletedChunkEntries := 0, deletedFileEntries := 0, deletedSHA256Entries := 0 }

/-- The reports differ in the numbers of deleted entries at most. -/
def SweepResult.SameButCounts (res r : SweepResult) : Prop := r.uncounted = res.uncounted

/-- The shard and all entries that point at it among the names it owns are gone. -/
def SweptTo (sh : Shard) (h : ShardHash) (st t : Store) : Prop :=
  ∃ t₀, Removed (sweptNames sh) h st t₀ ∧ t = t₀.erase .shards h

theorem deleteZero_meets (start : I st) (keeps : ∀ t i name, I t → I (t.eraseEntry i name)) (sh : Shard) :
    (deleteZero sh h).Meets (perform lastWriter) I (fun _ t => I t ∧
      Removed (onlyAt .sha256 (if hasUnanchorableFile sh then [Hash.zero] else [])) h st t) st := by
  unfold deleteZero
  split
  · exact deleteOwned_meets start (fun t name => keeps t _ name) _
  · refine ⟨start, Removed.refl fun i name member => ?_⟩
    simp [onlyAt] at member

variable {res : SweepResult}

/-- The entries of an index under the given names: guarding ones were found, or none of them is left. -/
def Cleared (I : Store → Prop) (guarded : Prop) (i : Index) (names : List Hash) (h : ShardHash) (res : SweepResult)
    (st : Store) (r : Bool × SweepResult) (t : Store) : Prop :=
  (r = (true, res) ∧ t = st ∧ guarded ∧ ∃ name ∈ names, st.entry i name = some h) ∨
  (r.1 = false ∧ res.SameButCounts r.2 ∧ I t ∧ Removed (onlyAt i names) h st t ∧
    (guarded → r.2 = res ∧ t = st ∧ ¬ ∃ name ∈ names, st.entry i name = some h))

section
variable {guarded : Prop} (i : Index) (names : List Hash)

theorem guard_meets (start : I st) (yes : guarded) :
    (do let held ← entryPointsAt i h names; pure (held, res) : StoreProg (Bool × SweepResult)).Meets
      (perform lastWriter) I (Cleared I guarded i names h res st) st := by
  refine (entryPointsAt_meets start _).bind ?_
  rintro held t ⟨rfl, iff⟩
  cases held with
  | true => exact .inl ⟨rfl, rfl, yes, iff.mp rfl⟩
  | false =>
    have none_points : ¬ ∃ name ∈ names, t.entry i name = some h := fun found => Bool.noConfusion (iff.mpr found)
    refine .inr ⟨rfl, rfl, start, Removed.refl ?_, fun _ => ⟨rfl, rfl, none_points⟩⟩
    intro j name member points
    by_cases index : j = i
    · subst index
      exact none_points ⟨name, by simpa [onlyAt] using member, points⟩
    · simp [onlyAt, index] at member

theorem delete_meets (start : I st) (keeps : ∀ t i name, I t → I (t.eraseEntry i name)) (no : ¬ guarded)
    {count : Nat → SweepResult} (same : ∀ n, res.SameButCounts (count n)) :
    (do let n ← deleteOwned i h names; pure (false, count n) : StoreProg (Bool × SweepResult)).Meets
      (perform lastWriter) I (Cleared I guarded i names h res st) st := by
  refine (deleteOwned_meets start (fun t name => keeps t _ name) _).bind ?_
  rintro n t ⟨inv, removed⟩
  exact .inr ⟨rfl, same n, inv, removed, fun yes => absurd yes no⟩

end

theorem clearFiles_meets (start : I st) (keeps : ∀ t i name, I t → I (t.eraseEntry i name))
    (anchor : SweepAnchor) (sh : Shard) (res : SweepResult) :
    (clearFiles anchor sh h res).Meets (perform lastWriter) I
      (Cleared I (anchor ≠ .sha256) .files (sweptNames sh .files) h res st) st := by
  cases anchor with
  | both => exact guard_meets _ _ start (by simp)
  | files => exact guard_meets _ _ start (by simp)
  | sha256 => exact delete_meets _ _ start keeps (by simp) fun _ => rfl

theorem clearSHA256_meets (start : I st) (keeps : ∀ t i name, I t → I (t.eraseEntry i name))
    (anchor : SweepAnchor) (sh : Shard) (res : SweepResult) :
    (clearSHA256 anchor sh h res).Meets (perform lastWriter) I
      (Cleared I (anchor ≠ .files) .sha256 (nonZeroDigests sh) h res st) st := by
  cases anchor with
  | both => exact guard_meets _ _ start (by simp)
  | files => exact delete_meets _ _ start keeps (by simp) fun _ => rfl
  | sha256 => exact guard_meets _ _ start (by simp)

theorem deleteShard_meets {t₁ : Store} {sh : Shard} (start : I t₁) (keeps : ∀ t i name, I t → I (t.eraseEntry i name))
    (before : Removed (fun i => onlyAt .files (sweptNames sh .files) i ++ onlyAt .sha256 (nonZeroDigests sh) i) h st t₁)
    (deletes : ∀ t, Removed (sweptNames sh) h st t → I t → I (t.erase .shards h)) :
    (deleteShard sh h res).Meets (perform lastWriter) I
      (fun r t => res.SameButCounts r ∧ SweptTo sh h st t) t₁ := by
  unfold deleteShard
  refine (deleteZero_meets start keeps sh).bind ?_
  rintro empties t₂ ⟨start₂, zeros⟩
  refine (deleteOwned_meets start₂ (fun t name => keeps t _ name) _).bind ?_
  rintro chunks t₃ ⟨start₃, chunked⟩
  have removed : Removed (sweptNames sh) h st t₃ := by
    refine (before.trans (zeros.trans chunked)).congr fun i name _ => ?_
    cases i <;> simp [onlyAt, sweptNames]
  rw [meets_bind, meets_deleteObject]
  exact ⟨deletes t₃ removed start₃, rfl, t₃, removed, rfl⟩

def SweepOutcome (fails : ShardHash → Bool) (anchor : SweepAnchor) (h : ShardHash) (res : SweepResult)
    (st : Store) (r : Bool × SweepResult) (t : Store) : Prop :=
  match loadOutcome (fails h) st h with
  | .error .notExist => r = (false, res) ∧ t = st
  | .error _ => r = (false, res.markUnreadable h) ∧ t = st
  | .ok sh => (Held anchor st sh h ∧ r = (false, res) ∧ t = st) ∨
    (¬ Held anchor st sh h ∧ r.1 = true ∧ res.SameButCounts r.2 ∧ SweptTo sh h st t)

theorem sweepLoaded_meets {anchor : SweepAnchor} {sh : Shard} (start : I st)
    (keeps : ∀ t i name, I t → I (t.eraseEntry i name))
    (deletes : ∀ t, Removed (sweptNames sh) h st t → I t → I (t.erase .shards h)) :
    (sweepLoaded anchor sh h res).Meets (perform lastWriter) I (fun r t =>
      (Held anchor st sh h ∧ r = (false, res) ∧ t = st) ∨
      (¬ Held anchor st sh h ∧ r.1 = true ∧ res.SameButCounts r.2 ∧ SweptTo sh h st t)) st := by
  unfold sweepLoaded
  refine (spared_meets start anchor sh).bind ?_
  rintro held t ⟨rfl, iff⟩
  cases held with
  | true =>
    obtain ⟨rfl, holds⟩ := iff.mp rfl
    exact .inl ⟨holds, rfl, rfl⟩
  | false =>
    have unspared : anchor = .sha256 → ¬ Held .sha256 t sh h :=
      fun mode holds => Bool.noConfusion (iff.mpr ⟨mode, holds⟩)
    rw [if_neg Bool.false_ne_true]
    refine (clearFiles_meets start keeps anchor sh res).bind ?_
    rintro r₁ t₁ (⟨rfl, rfl, mode, found⟩ | ⟨clear, same₁, start₁, files, unguarded⟩)
    · refine .inl ⟨?_, rfl, rfl⟩
      cases anchor with
      | both => exact .inl found
      | files => exact found
      | sha256 => exact absurd rfl mode
    · obtain ⟨held₁, res₁⟩ := r₁
      cases clear
      dsimp only
      rw [if_neg Bool.false_ne_true]
      refine (clearSHA256_meets start₁ keeps anchor sh res₁).bind ?_
      rintro r₂ t₂ (⟨rfl, rfl, mode, found⟩ | ⟨clear, same₂, start₂, digests, undigested⟩)
      · cases anchor with
        | both =>
          obtain ⟨rfl, rfl, -⟩ := unguarded nofun
          exact .inl ⟨.inr found, rfl, rfl⟩
        | files => exact absurd rfl mode
        | sha256 =>
          obtain ⟨name, member, points⟩ := found
          rw [files.kept .sha256 name (by simp [onlyAt])] at points
          exact absurd (.inr ⟨name, member, points⟩) (unspared rfl)
      · obtain ⟨held₂, res₂⟩ := r₂
        cases clear
        dsimp only
        rw [if_neg Bool.false_ne_true]
        refine (deleteShard_meets start₂ keeps (files.trans digests) deletes).bind ?_
        rintro r t₃ ⟨same₃, swept⟩
        refine .inr ⟨?_, rfl, same₃.trans (same₂.trans same₁), swept⟩
        cases anchor with
        | both =>
          obtain ⟨-, rfl, unfiled⟩ := unguarded nofun
          rintro (byFile | byDigest)
          · exact unfiled byFile
          · exact (undigested nofun).2.2 byDigest
        | files => exact (unguarded nofun).2.2
        | sha256 => exact unspared rfl

theorem sweepShard_meets {fails : ShardHash → Bool} {anchor : SweepAnchor} (start : I st)
    (keeps : ∀ t i name, I t → I (t.eraseEntry i name))
    (deletes : ∀ sh t, loadOutcome (fails h) st h = .ok sh → Removed (sweptNames sh) h st t → I t →
      I (t.erase .shards h)) :
    (sweepShard fails anchor h res).Meets (perform lastWriter) I
      (SweepOutcome fails anchor h res st) st := by
  unfold sweepShard
  refine (tryLoad_meets start (fails h)).bind ?_
  rintro r t ⟨rfl, rfl⟩
  cases loaded : loadOutcome (fails h) t h with
  | error e =>
    unfold SweepOutcome
    rw [loaded]
    cases e <;> exact ⟨rfl, rfl⟩
  | ok sh =>
    unfold SweepOutcome
    rw [loaded]
    exact sweepLoaded_meets start keeps (deletes sh · loaded)

end

end Xet.Storage
