import Xet.Storage.Put

/-! Garbage collection: unlinking index entries, and sweep passes that delete shards no entry
anchors and xorbs no shard references. -/
namespace Xet.Storage
open Wire Calls Shard

structure SweptObject where
  hash : Hash
  size : Nat
  deriving DecidableEq

structure SweepResult where
  dryRun : Bool
  sweptShards : List SweptObject := []
  sweptXorbs : List SweptObject := []
  deletedChunkEntries : Nat := 0
  deletedFileEntries : Nat := 0
  deletedSHA256Entries : Nat := 0
  danglingFileEntries : List FileHash := []
  danglingSHA256Entries : List SHA256Hash := []
  unreadableShards : List ShardHash := []
  skippedInGrace : Nat := 0
  reclaimedBytes : Nat := 0
  done : Bool := false
  remainingShards : Nat := 0
  remainingXorbs : Nat := 0
  deriving DecidableEq

inductive SweepAnchor where
  | both
  | files
  | sha256
  deriving DecidableEq

inductive GCError where
  | unknownAnchor (name : String)
  | zeroDigest
  deriving DecidableEq

def parseAnchor (name : String) : Except GCError SweepAnchor :=
  if name = "" then .ok .both
  else if name = "files" then .ok .files
  else if name = "sha256" then .ok .sha256
  else .error (.unknownAnchor name)

structure SweepOptions where
  anchor : String
  grace : Int
  dryRun : Bool
  maxDeletes : Int
  budget : Int

def second : Int := 1000000000
def defaultSweepGrace : Int := 3600 * second

def objCutoff (now grace : Int) : Int :=
  let grace := if grace = 0 then defaultSweepGrace else grace
  let cutoff := now - grace
  -- A positive window is cut down to full seconds, the precision of some backends.
  if 0 < grace then cutoff - cutoff % second else cutoff

/-- What a pass meets outside the store: the time it starts, the time spent at each of its
checks of the budget, and the loads that fail in either phase. -/
structure Pass where
  now : Int
  elapsed : Nat → Int
  failsSweep : ShardHash → Bool
  failsMark : ShardHash → Bool

def unlink (fileHash : FileHash) : StoreProg Bool := deleteEntry .files fileHash

/-- The zero digest is shared by all empty files. -/
def unlinkSHA256 (digest : SHA256Hash) : ExceptT GCError StoreProg Bool := do
  if digest = Hash.zero then throw .zeroDigest
  else deleteEntry .sha256 digest

def entryPointsAt (i : Index) (shard : ShardHash) : List Hash → StoreProg Bool
  | [] => pure false
  | name :: rest => do
    let current ← getEntry i name
    if current = some shard then pure true else entryPointsAt i shard rest

/-- Delete those of the entries that still point at the shard; the number of them. -/
def deleteOwned (i : Index) (shard : ShardHash) : List Hash → StoreProg Nat
  | [] => pure 0
  | name :: rest => do
    let current ← getEntry i name
    if current ≠ some shard then deleteOwned i shard rest
    else
      let removed ← deleteEntry i name
      let others ← deleteOwned i shard rest
      pure (removed.toNat + others)

def nonZeroDigests (sh : Shard) : List SHA256Hash :=
  sh.files.filterMap fun fb =>
    match fb.metadataExt with
    | some digest => if digest = Hash.zero then none else some digest
    | none => none

def fileEntryPointsAt (sh : Shard) (shard : ShardHash) : StoreProg Bool :=
  entryPointsAt .files shard (sh.files.map (·.fileHash))

def sha256EntryPointsAt (sh : Shard) (shard : ShardHash) : StoreProg Bool :=
  entryPointsAt .sha256 shard (nonZeroDigests sh)

/-- A file without a digest or with the zero one cannot be anchored by its digest. -/
def hasUnanchorableFile (sh : Shard) : Bool :=
  sh.files.any fun fb => fb.metadataExt = none ∨ fb.metadataExt = some Hash.zero

def unanchorableHeld (sh : Shard) (shard : ShardHash) : StoreProg Bool :=
  if hasUnanchorableFile sh then fileEntryPointsAt sh shard else pure false

/-- The checks that `AnchorSHA256` makes before it deletes anything. -/
def spared (anchor : SweepAnchor) (sh : Shard) (shard : ShardHash) : StoreProg Bool :=
  match anchor with
  | .sha256 => do
    let held ← unanchorableHeld sh shard
    if held then pure true else sha256EntryPointsAt sh shard
  | _ => pure false

/-- The files entries: a guard, or stale ones to delete under `AnchorSHA256`. -/
def clearFiles (anchor : SweepAnchor) (sh : Shard) (shard : ShardHash) (res : SweepResult) :
    StoreProg (Bool × SweepResult) :=
  match anchor with
  | .sha256 => do
    let n ← deleteOwned .files shard (sh.files.map (·.fileHash))
    pure (false, { res with deletedFileEntries := res.deletedFileEntries + n })
  | _ => do
    let held ← fileEntryPointsAt sh shard
    pure (held, res)

/-- The non-zero sha256 entries: a guard, or entries to delete under `AnchorFiles`. -/
def clearSHA256 (anchor : SweepAnchor) (sh : Shard) (shard : ShardHash) (res : SweepResult) :
    StoreProg (Bool × SweepResult) :=
  match anchor with
  | .files => do
    let n ← deleteOwned .sha256 shard (nonZeroDigests sh)
    pure (false, { res with deletedSHA256Entries := res.deletedSHA256Entries + n })
  | _ => do
    let held ← sha256EntryPointsAt sh shard
    pure (held, res)

def deleteZero (sh : Shard) (shard : ShardHash) : StoreProg Nat :=
  if hasUnanchorableFile sh then deleteOwned .sha256 shard [Hash.zero] else pure 0

/-- Behind the guards: the zero entry, the chunk entries and the shard itself. -/
def deleteShard (sh : Shard) (shard : ShardHash) (res : SweepResult) : StoreProg SweepResult := do
  let empties ← deleteZero sh shard
  let chunks ← deleteOwned .chunks shard (sh.globalDedupEligibleChunks.map (·.hash))
  let _ ← deleteObject .shards shard
  pure { res with
    deletedSHA256Entries := res.deletedSHA256Entries + empties
    deletedChunkEntries := res.deletedChunkEntries + chunks }

def sortedBy (text : Hash → Bytes) (hs : List Hash) : List Hash :=
  hs.insertionSort fun x y => text x ≤ text y

def SweepResult.markUnreadable (res : SweepResult) (shard : ShardHash) : SweepResult :=
  if shard ∈ res.unreadableShards then res
  else { res with unreadableShards := sortedBy hexEncode (res.unreadableShards ++ [shard]) }

def tryLoad (fails : Bool) (shard : ShardHash) : StoreProg (Except LoadError Shard) :=
  if fails then pure (.error .failed) else loadShard shard

/-- Delete a dead shard and the entries it owns, unless an entry anchors it by now. -/
def sweepLoaded (anchor : SweepAnchor) (sh : Shard) (shard : ShardHash) (res : SweepResult) :
    StoreProg (Bool × SweepResult) := do
  let held ← spared anchor sh shard
  if held then pure (false, res)
  else
    let (held, res) ← clearFiles anchor sh shard res
    if held then pure (false, res)
    else
      let (held, res) ← clearSHA256 anchor sh shard res
      if held then pure (false, res)
      else
        let res ← deleteShard sh shard res
        pure (true, res)

def sweepShard (fails : ShardHash → Bool) (anchor : SweepAnchor) (shard : ShardHash)
    (res : SweepResult) : StoreProg (Bool × SweepResult) := do
  match ← tryLoad (fails shard) shard with
  | .error .notExist => pure (false, res)
  | .error _ => pure (false, res.markUnreadable shard)
  | .ok sh => sweepLoaded anchor sh shard res

structure Bounds where
  maxDeletes : Int
  budget : Int

/-- The state of a pass between two items; `checks` counts the checks of the bounds. -/
structure Progress where
  res : SweepResult
  sweptCount : Nat
  checks : Nat

def exhausted (bounds : Bounds) (pass : Pass) (p : Progress) : Bool :=
  (0 < bounds.maxDeletes ∧ bounds.maxDeletes ≤ p.sweptCount) ∨
    (0 < bounds.budget ∧ 0 < p.sweptCount ∧ bounds.budget ≤ pass.elapsed p.checks)

def SweepResult.addShard (res : SweepResult) (obj : SweptObject) : SweepResult :=
  { res with
    sweptShards := res.sweptShards ++ [obj]
    reclaimedBytes := res.reclaimedBytes + obj.size }

def SweepResult.addXorb (res : SweepResult) (obj : SweptObject) : SweepResult :=
  { res with
    sweptXorbs := res.sweptXorbs ++ [obj]
    reclaimedBytes := res.reclaimedBytes + obj.size }

section
variable (bounds : Bounds) (pass : Pass) (dryRun : Bool) (anchor : SweepAnchor)

/-- The loop over the dead shards; the flag says that the bounds ended it. -/
def sweepShards : List SweptObject → Progress → StoreProg (Bool × Progress)
  | [], p => pure (false, p)
  | obj :: rest, p =>
    if exhausted bounds pass p then
      pure (true, { p with res := { p.res with remainingShards := (obj :: rest).length } })
    else if dryRun then
      sweepShards rest { p with res := p.res.addShard obj, checks := p.checks + 1 }
    else do
      let (swept, res) ← sweepShard pass.failsSweep anchor obj.hash p.res
      if swept then
        sweepShards rest
          { res := res.addShard obj, sweptCount := p.sweptCount + 1, checks := p.checks + 1 }
      else sweepShards rest { p with res := res, checks := p.checks + 1 }

def shardXorbs (sh : Shard) : List XorbHash :=
  (sh.files.flatMap fun fb => fb.entries.map (·.casHash)) ++ sh.casInfos.map (·.casHash)

def markShards (drySwept : List ShardHash) :
    List ShardHash → SweepResult → StoreProg (List XorbHash × SweepResult)
  | [], res => pure ([], res)
  | shard :: rest, res =>
    if shard ∈ drySwept ∨ shard ∈ res.unreadableShards then markShards drySwept rest res
    else do
      match ← tryLoad (pass.failsMark shard) shard with
      | .error .notExist => markShards drySwept rest res
      | .error _ => markShards drySwept rest (res.markUnreadable shard)
      | .ok sh => do
        let (others, res) ← markShards drySwept rest res
        pure (shardXorbs sh ++ others, res)

def sweepXorbs : List SweptObject → Progress → StoreProg (Bool × Progress)
  | [], p => pure (false, p)
  | obj :: rest, p =>
    if exhausted bounds pass p then
      pure (true, { p with res := { p.res with remainingXorbs := (obj :: rest).length } })
    else if dryRun then
      sweepXorbs rest { p with res := p.res.addXorb obj, checks := p.checks + 1 }
    else do
      let _ ← deleteObject .xorbs obj.hash
      sweepXorbs rest
        { res := p.res.addXorb obj, sweptCount := p.sweptCount + 1, checks := p.checks + 1 }

end

/-- The index entries that anchor shards, as a pass reads them at its start. -/
structure Refs where
  files : List (FileHash × ShardHash)
  sha256 : List (SHA256Hash × ShardHash)

def readRefs (anchor : SweepAnchor) : StoreProg Refs := do
  let files ← walkIndex .files
  if anchor = .files then pure ⟨files, []⟩
  else
    let sha256 ← walkIndex .sha256
    pure ⟨files, sha256.filter fun e => e.1 ≠ Hash.zero⟩

def Refs.anchors (refs : Refs) (anchor : SweepAnchor) (shard : ShardHash) : Bool :=
  (anchor ≠ .sha256 ∧ refs.files.any fun e => e.2 = shard) ∨ refs.sha256.any fun e => e.2 = shard

def dangling (present : List ShardHash) (refs : List (Hash × ShardHash)) : List Hash :=
  (refs.filter fun e => e.2 ∉ present).map (·.1)

def pastGrace (cutoff : Int) (objs : List (Hash × Object)) : List SweptObject × Nat :=
  let old := objs.filter fun e => e.2.modTime < cutoff
  (old.map fun e => ⟨e.1, e.2.data.length⟩, objs.length - old.length)

def sweepPhase2 (bounds : Bounds) (pass : Pass) (dryRun : Bool) (cutoff : Int) (p : Progress) :
    StoreProg SweepResult := do
  let drySwept := if dryRun then p.res.sweptShards.map (·.hash) else []
  let shards ← walkObjects .shards
  let (refXorbs, res) ← markShards pass drySwept (shards.map (·.1)) p.res
  if res.unreadableShards ≠ [] then pure { res with done := true }
  else
    let xorbs ← walkObjects .xorbs
    let (dead, young) := pastGrace cutoff (xorbs.filter fun e => e.1 ∉ refXorbs)
    let res := { res with skippedInGrace := res.skippedInGrace + young }
    let (stopped, p) ← sweepXorbs bounds pass dryRun dead { p with res := res, checks := p.checks + 1 }
    if stopped then pure p.res else pure { p.res with done := true }

def sweepPass (opts : SweepOptions) (pass : Pass) (bounds : Bounds) :
    ExceptT GCError StoreProg SweepResult := do
  let anchor ← ofExcept (parseAnchor opts.anchor)
  let cutoff := objCutoff pass.now opts.grace
  let refs ← readRefs anchor
  let shards ← walkObjects .shards
  let (dead, young) := pastGrace cutoff (shards.filter fun e => !refs.anchors anchor e.1)
  let present := shards.map (·.1)
  let res : SweepResult := {
    dryRun := opts.dryRun
    skippedInGrace := young
    danglingFileEntries := sortedBy formatHash (dangling present refs.files)
    danglingSHA256Entries := sortedBy hexEncode (dangling present refs.sha256) }
  let (stopped, p) ← sweepShards bounds pass opts.dryRun anchor dead ⟨res, 0, 0⟩
  if stopped ∨ exhausted bounds pass p then pure p.res
  else sweepPhase2 bounds pass opts.dryRun cutoff p

def sweep (opts : SweepOptions) (pass : Pass) : ExceptT GCError StoreProg SweepResult :=
  sweepPass opts pass ⟨0, 0⟩

/-- One bounded pass. Dry runs ignore the bounds. -/
def sweepStep (opts : SweepOptions) (pass : Pass) : ExceptT GCError StoreProg SweepResult :=
  if opts.dryRun then sweepPass opts pass ⟨0, 0⟩
  else sweepPass opts pass ⟨opts.maxDeletes, opts.budget⟩

end Xet.Storage
