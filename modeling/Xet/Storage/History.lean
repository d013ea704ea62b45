import Xet.Storage.SweepSafety

/-! Referential integrity along every history of operations, each possibly cut short. -/
namespace Xet.Storage
open Wire Calls Shard

inductive Op where
  | putXorb (hash : XorbHash) (r : Bytes) (now : Int)
  | putShard (u : Upload) (now : Int)
  | unlink (fileHash : FileHash)
  | unlinkSHA256 (digest : SHA256Hash)
  | sweep (opts : SweepOptions) (pass : Pass)
  | sweepStep (opts : SweepOptions) (pass : Pass)

section
variable (env : Env) (lastWriter : Bool)

def Op.prog : Op → StoreProg Unit
  | .putXorb hash r now => Prog.ignore (Storage.putXorb env hash r now)
  | .putShard u now => Prog.ignore (Storage.putShard env u.shard now)
  | .unlink fileHash => Prog.ignore (Storage.unlink fileHash)
  | .unlinkSHA256 digest => Prog.ignore (Storage.unlinkSHA256 digest)
  | .sweep opts pass => Prog.ignore (Storage.sweep opts pass)
  | .sweepStep opts pass => Prog.ignore (Storage.sweepStep opts pass)

/-- No other shard is stored under the name of the one that the operation stores. -/
def Op.Free (op : Op) (st : Store) : Prop :=
  match op with
  | .putShard u _ => CollisionFree env lastWriter st u
  | _ => True

/-- The stores that operations, each cut after any number of calls, lead to. -/
inductive Reachable : Store → Prop where
  | empty : Reachable Store.empty
  | step {st : Store} (op : Op) (k : Nat) (before : Reachable st) (free : op.Free env lastWriter st) :
      Reachable ((op.prog env).stopped (perform lastWriter) k st)

end

section
variable {env : Env} {lastWriter : Bool} {st : Store}

theorem Op.prog_sound (inv : Sound env lastWriter st) (op : Op) (free : op.Free env lastWriter st) :
    (op.prog env).Meets (perform lastWriter) (Sound env lastWriter) (fun _ _ => True) st := by
  cases op with
  | putXorb hash r now => exact (putXorb_sound inv hash r now).ignore
  | putShard u now => exact (putShard_sound inv u now free).ignore
  | unlink fileHash => exact (unlink_sound inv fileHash).ignore
  | unlinkSHA256 digest => exact (unlinkSHA256_sound inv digest).ignore
  | sweep opts pass => exact (sweepPass_sound inv opts pass ⟨0, 0⟩).ignore
  | sweepStep opts pass => exact (sweepStep_sound inv opts pass).ignore

theorem Reachable.sound (reached : Reachable env lastWriter st) : Sound env lastWriter st := by
  induction reached with
  | empty => exact Sound.empty
  | step op k _ free ih => exact (op.prog_sound ih free).stopped ih k

theorem Reachable.run (before : Reachable env lastWriter st) (op : Op) (free : op.Free env lastWriter st) :
    Reachable env lastWriter ((op.prog env).run (perform lastWriter) st).2 := by
  obtain ⟨k, ended⟩ : ∃ k, (op.prog env).stopped (perform lastWriter) k st =
      ((op.prog env).run (perform lastWriter) st).2 := Prog.exists_stopped _ st
  rw [← ended]
  exact .step op k before free

/-- Whatever operations were run, and wherever each of them was cut, the indexes and the shards
are whole, and the content of every indexed file can be read back. -/
theorem reachable_integrity (reached : Reachable env lastWriter st) :
    Integrity st ∧ ∀ name h, st.entry .files name = some h →
      ∃ s, st.shard h = some s ∧ ∃ fb ∈ s.files, fb.fileHash = name ∧
        Reconstructable env lastWriter st fb := by
  have inv := reached.sound
  refine ⟨inv.integrity, fun name h found => ?_⟩
  obtain ⟨s, stored, fb, file, named⟩ := inv.integrity.files name h found
  exact ⟨s, stored, fb, file, named, inv.content h s stored fb file⟩

end

def sampleXorbHash : Bytes := [0xeb, 0x59, 0x38, 0x1f, 0x16, 0x86, 0xfe, 0xf2, 0xd0, 0xc8, 0xe4,
  0xab, 0x7e, 0x6a, 0x7c, 0x9f, 0x94, 0x80, 0x46, 0x9e, 0x97, 0xac,
  0x3c, 0x8a, 0x75, 0x62, 0xd8, 0x92, 0x44, 0x99, 0xaf, 0xb7]

def sampleXorb : Hash := ⟨sampleXorbHash, rfl⟩

def sampleFile : Hash := ⟨[0xa9, 0x61, 0x2f, 0x98, 0x0a, 0x3e, 0x8f, 0xe9, 0x60, 0x84, 0x75,
  0x35, 0x3f, 0x1f, 0x38, 0x20, 0xe8, 0x95, 0x5a, 0xc3, 0xda, 0x4b,
  0xe0, 0xaa, 0x06, 0xbe, 0x96, 0x5b, 0xd0, 0x65, 0xdd, 0xee], rfl⟩

def sampleDigest : Hash := ⟨[0x03, 0x90, 0x58, 0xc6, 0xf2, 0xc0, 0xcb, 0x49, 0x2c, 0x53, 0x3b,
  0x0a, 0x4d, 0x14, 0xef, 0x77, 0xcc, 0x0f, 0x78, 0xab, 0xcc, 0xce,
  0xd5, 0x28, 0x7d, 0x84, 0xa1, 0xa2, 0x01, 0x1c, 0xfb, 0x81], rfl⟩

def sampleShardHash : Hash := ⟨[0xb5, 0x75, 0xd6, 0x47, 0x0d, 0xa6, 0x50, 0x65, 0xed, 0x8e, 0x8b,
  0x95, 0x6e, 0xfe, 0x82, 0x8b, 0x39, 0x04, 0xc6, 0x8f, 0xf8, 0x19,
  0x94, 0x3f, 0xe7, 0xbd, 0x99, 0xfa, 0x6e, 0x60, 0xe9, 0xce], rfl⟩

/-- The hash functions on what the history hashes. Nothing in it is compressed. -/
def sampleEnv : Env where
  blake3 := fun key _ => if key = zeroKey then sampleFile else sampleXorb
  lz4 := ⟨fun _ _ => none, fun _ => ⟨[], true⟩⟩
  sha256 := fun data => if data = [1, 2, 3] then sampleDigest else sampleShardHash

def sampleXorbBytes : Bytes := [0, 3, 0, 0, 0, 3, 0, 0, 1, 2, 3]

def sampleUpload : Upload where
  shard := {
    footerSize := 0
    files := [⟨sampleFile, 0, [⟨sampleXorb, 0, 3, 0, 1⟩], [], none⟩]
    casInfos := [⟨sampleXorb, 0, [⟨sampleXorb, 0, 3, 0⟩], 3, 11⟩]
    footer := none }
  accepted := by decide +kernel
  entryCounts := by decide
  chunkCounts := by decide

def sampleXorbStored : Store :=
  (((Op.putXorb sampleXorb sampleXorbBytes 0).prog sampleEnv).run (perform false) Store.empty).2

def sampleShardStored : Store :=
  (((Op.putShard sampleUpload 0).prog sampleEnv).run (perform false) sampleXorbStored).2

theorem sampleShardStored_reachable : Reachable sampleEnv false sampleShardStored := by
  have noShards : (sampleXorbStored.objects .shards).entries = [] := by decide +kernel
  refine (Reachable.empty.run (.putXorb sampleXorb sampleXorbBytes 0) trivial).run (.putShard sampleUpload 0) ?_
  intro s obj _ found
  have listed : ⟨_, obj⟩ ∈ (sampleXorbStored.objects .shards).entries := AList.mem_lookup_iff.mp found
  rw [noShards] at listed
  cases listed

def sampleSwept : Store :=
  (((Op.sweep ⟨"", -1, false, 0, 0⟩ ⟨1, fun _ => 0, fun _ => false, fun _ => false⟩).prog sampleEnv).run
    (perform false) sampleShardStored).2

theorem sampleSwept_integrity : sampleSwept.entry .files sampleFile = some sampleShardHash ∧
    (sampleSwept.object .xorbs sampleXorb).isSome ∧
    ∃ s, sampleSwept.shard sampleShardHash = some s ∧ ∃ fb ∈ s.files, fb.fileHash = sampleFile ∧
      Reconstructable sampleEnv false sampleSwept fb := by
  have reached : Reachable sampleEnv false sampleSwept :=
    sampleShardStored_reachable.run (.sweep _ _) trivial
  obtain ⟨whole, readable⟩ := reachable_integrity reached
  have entered : sampleSwept.entry .files sampleFile = some sampleShardHash := by decide +kernel
  exact ⟨entered, by decide +kernel, readable _ _ entered⟩

end Xet.Storage
