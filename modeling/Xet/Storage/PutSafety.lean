import Xet.Storage.Integrity

/-! Storing keeps the store sound at every single write. -/
namespace Xet.Storage
open Wire Calls Shard List Option Prog

section
variable {env : Env} {lastWriter : Bool} {st : Store}

theorem unlink_sound (inv : Sound env lastWriter st) (fileHash : FileHash) :
    (unlink fileHash).Meets (perform lastWriter) (Sound env lastWriter) (fun _ _ => True) st :=
  ⟨inv.eraseEntry .files fileHash, trivial⟩

theorem unlinkSHA256_sound (inv : Sound env lastWriter st) (digest : SHA256Hash) :
    Prog.Meets (perform lastWriter) (Sound env lastWriter) (fun _ _ => True) (unlinkSHA256 digest) st := by
  unfold unlinkSHA256
  split
  · trivial
  · exact ⟨inv.eraseEntry .sha256 digest, trivial⟩

theorem validate_consumed {b rest : Bytes} {ends : List Nat} {hash : XorbHash}
    (accepted : Xorb.validate env.blake3 env.lz4 b hash = .ok (ends, rest)) :
    Xorb.validate env.blake3 env.lz4 (b.take (b.length - rest.length)) hash = .ok (ends, []) := by
  obtain ⟨p, tail, rfl, ends_eq, root, last⟩ := Xorb.validate_eq_ok.mp accepted
  have consumed : ∃ front, tail = front ++ rest ∧
      Xorb.Tail hash ((p.chunks env.blake3).map Prod.fst) front [] := by
    rcases last with ⟨rfl, rfl⟩ | ⟨f, same, hashes, small, rfl⟩
    · exact ⟨[], rfl, .inl ⟨rfl, rfl⟩⟩
    · exact ⟨f.encode, rfl, .inr ⟨f, same, hashes, small, (append_nil _).symm⟩⟩
  obtain ⟨front, rfl, last'⟩ := consumed
  have cut : (p.bytes ++ (front ++ rest)).take ((p.bytes ++ (front ++ rest)).length - rest.length) =
      p.bytes ++ front := by
    rw [← append_assoc, length_append, Nat.add_sub_cancel, take_left]
  rw [cut]
  exact Xorb.validate_eq_ok.mpr ⟨p, front, rfl, ends_eq, root, last'⟩

theorem putXorb_sound (inv : Sound env lastWriter st) (hash : XorbHash) (r : Bytes) (now : Int) :
    Prog.Meets (perform lastWriter) (Sound env lastWriter) (fun _ _ => True)
      (putXorb env hash r now) st := by
  unfold putXorb
  rw [meets_exceptBind, meets_lift, meets_getObject]
  refine ⟨inv, ?_⟩
  cases found : st.object .xorbs hash with
  | some obj => trivial
  | none =>
    cases accepted : Xorb.validate env.blake3 env.lz4 r hash with
    | error e => trivial
    | ok result =>
      have stored : Sound env lastWriter (st.insert .xorbs hash ⟨r.take (r.length - result.2.length), now⟩) :=
        inv.insertXorb found ⟨result.1, validate_consumed accepted⟩
      change (putObject .xorbs hash (r.take (r.length - result.2.length)) now).Meets
        (perform lastWriter) (Sound env lastWriter) (fun _ _ => True) st
      simp only [meets_putObject, found, isSome_none, Bool.false_eq_true, if_false]
      exact ⟨stored, trivial⟩

theorem validate_no_chunk {b : Bytes} {ends : List Nat} {hash : XorbHash}
    (accepted : Xorb.validate env.blake3 env.lz4 b hash = .ok (ends, []))
    (ended : ((Xorb.Decoder.new b false).read env.blake3 env.lz4 Xorb.chunkBufSize).1 = .eof) : hash = Hash.zero := by
  obtain ⟨p, tail, rfl, -, root, -⟩ := Xorb.validate_eq_ok.mp accepted
  cases shape : p.frames with
  | nil =>
    rw [← root, Xorb.Payload.chunks, shape]
    rfl
  | cons f fs =>
    have live : (Xorb.Decoder.new (p.bytes ++ tail) false).Live := ⟨rfl, rfl, rfl⟩
    have here : (Xorb.Decoder.new (p.bytes ++ tail) false).r =
        f.bytes ++ (fs.flatMap Xorb.Frame.bytes ++ tail) := by
      simp [Xorb.Decoder.new, Xorb.Payload.bytes, shape]
    have room : f.data.length ≤ Xorb.chunkBufSize := by
      have bound := (Xorb.decodeChunk_sizes f.decoded).2.2
      rw [← f.data_length] at bound
      exact Nat.le_trans bound (by decide)
    have raw : 0 + f.header.uncompressedSize ≤ maxXorbSize := by
      have total := p.raw
      rw [shape, map_cons, sum_cons, f.data_length] at total
      omega
    have first : (Xorb.Decoder.new (p.bytes ++ tail) false).read env.blake3 env.lz4
        Xorb.chunkBufSize = (.data f.data, _) :=
      Xorb.Decoder.read_frame live here f.fits room (Nat.zero_lt_succ _) raw
    rw [first] at ended
    cases ended

/-- What the callers hand over: a shard that validation accepted, decoded from the wire or built
in memory with counts that its 32-bit fields hold. -/
structure Upload where
  shard : Shard
  accepted : shard.validate = .ok ()
  entryCounts : ∀ fb ∈ shard.files, fb.entries.length < 2 ^ 32
  chunkCounts : ∀ cb ∈ shard.casInfos, cb.chunks.length < 2 ^ 32

theorem flags_or_metadata (flags : UInt32) :
    (flags ||| fileWithMetadataExt) &&& fileWithVerification = flags &&& fileWithVerification ∧
      (flags ||| fileWithMetadataExt) &&& fileWithMetadataExt ≠ 0 := by
  constructor
  · apply UInt32.toBitVec_inj.mp
    have disjoint : fileWithMetadataExt.toBitVec &&& fileWithVerification.toBitVec = 0#32 := by decide
    rw [UInt32.toBitVec_and, UInt32.toBitVec_or, UInt32.toBitVec_and, BitVec.and_or_distrib_right,
      disjoint, BitVec.or_zero]
  · have absorbed : ∀ x y : BitVec 32, (x ||| y) &&& y = y := by
      intro x y
      apply BitVec.eq_of_getElem_eq
      intro i bound
      simp only [BitVec.getElem_and, BitVec.getElem_or]
      cases x[i] <;> cases y[i] <;> rfl
    have kept : (flags ||| fileWithMetadataExt) &&& fileWithMetadataExt = fileWithMetadataExt :=
      UInt32.toBitVec_inj.mp (absorbed flags.toBitVec fileWithMetadataExt.toBitVec)
    rw [kept]
    decide

theorem withSHA256_encodable {fb : FileBlock} {digest : SHA256Hash} (regular : fb.Regular)
    (count : fb.entries.length < 2 ^ 32) : (withSHA256 fb digest).Encodable := by
  obtain ⟨same, flagged⟩ := flags_or_metadata fb.flags
  refine ⟨⟨?_, ?_, ?_, ?_⟩, count, ?_⟩
  · intro set
    exact regular.verification (same ▸ set)
  · intro unset
    exact regular.noVerification (same ▸ unset)
  · intro _
    rfl
  · intro unset
    exact absurd unset flagged
  · intro bookend
    have flags : fb.flags ||| fileWithMetadataExt = 0 := congrArg Record.a bookend
    rw [flags] at flagged
    exact flagged (by decide)

theorem verified_encodable (inv : Sound env lastWriter st) {cb : CASBlock} {obj : Object}
    (count : cb.chunks.length < 2 ^ 32) (stored : st.object .xorbs cb.casHash = some obj)
    (verified : verifyChunks env cb 0 cb.chunks (Xorb.Decoder.new obj.data false) = .ok ()) : cb.Encodable := by
  refine ⟨count, fun bookend => ?_⟩
  have empty : cb.chunks = [] := by
    have zero : UInt32.ofNat cb.chunks.length = 0 := congrArg Record.b bookend
    have length := congrArg UInt32.toNat zero
    rw [count_toNat count] at length
    exact length_eq_zero_iff.mp length
  obtain ⟨ends, accepted⟩ := inv.valid _ obj stored
  rw [empty, verifyChunks] at verified
  have ended : ((Xorb.Decoder.new obj.data false).read env.blake3 env.lz4 Xorb.chunkBufSize).1 = .eof := by
    split at verified
    · cases verified
    · cases verified
    · assumption
  have zero := validate_no_chunk accepted ended
  have ones : cb.casHash = Shard.bookend.hash := congrArg Record.hash bookend
  rw [zero] at ones
  exact absurd ones (by decide)

variable {s : Shard}

theorem prepared_encodable (inv : Sound env lastWriter st) (u : Upload)
    (prepared : PreparedShard env lastWriter st u.shard s) : s.Encodable := by
  constructor
  · intro fb member
    obtain ⟨fb₀, member₀, digest, -, rfl⟩ := forall₂_mem_right prepared.files member
    exact withSHA256_encodable (validate_regular u.accepted fb₀ member₀) (u.entryCounts fb₀ member₀)
  · intro cb member
    rw [prepared.casInfos] at member
    obtain ⟨obj, stored, verified⟩ := prepared.verified cb member
    exact verified_encodable inv (u.chunkCounts cb member) stored verified

theorem prepared_content {u : Shard} (prepared : PreparedShard env lastWriter st u s) :
    ∀ fb ∈ s.files, Reconstructable env lastWriter st fb := by
  intro fb member
  obtain ⟨fb₀, -, digest, found, rfl⟩ := forall₂_mem_right prepared.files member
  exact ⟨digest, rfl, found⟩

theorem prepared_xorbs {u : Shard} (prepared : PreparedShard env lastWriter st u s) :
    ∀ x ∈ shardXorbs s, (st.object .xorbs x).isSome := by
  intro x member
  rcases mem_append.mp member with term | block
  · obtain ⟨fb, file, term⟩ := mem_flatMap.mp term
    obtain ⟨e, entry, rfl⟩ := mem_map.mp term
    obtain ⟨fb₀, -, digest, found, rfl⟩ := forall₂_mem_right prepared.files file
    exact computeFileHashes_stored found e entry
  · obtain ⟨cb, listed, rfl⟩ := mem_map.mp block
    rw [prepared.casInfos] at listed
    obtain ⟨obj, stored, -⟩ := prepared.verified cb listed
    rw [stored]
    rfl

theorem putEntries_sound {i : Index} {h : ShardHash} {names : List Hash} (inv : Sound env lastWriter st)
    (stored : st.shard h = some s) (listed : ∀ name ∈ names, name ∈ indexNames s i) :
    (putEntries i h names).Meets (perform lastWriter) (Sound env lastWriter)
      (fun _ t => Sound env lastWriter t ∧ t.shard h = some s) st := by
  induction names generalizing st with
  | nil => exact ⟨inv, stored⟩
  | cons name rest ih =>
    have others : ∀ t, Sound env lastWriter t ∧ t.shard h = some s →
        (putEntries i h rest).Meets (perform lastWriter) (Sound env lastWriter)
          (fun _ t => Sound env lastWriter t ∧ t.shard h = some s) t :=
      fun t both => ih both.1 both.2 fun n member => listed n (mem_cons_of_mem _ member)
    have written := inv.insertEntry stored (listed name mem_cons_self)
    unfold putEntries
    rw [meets_bind, meets_putEntry]
    split
    · exact ⟨inv, others st ⟨inv, stored⟩⟩
    · exact ⟨written, others _ ⟨written, stored⟩⟩

theorem putShardIndexes_sound {h : ShardHash} (inv : Sound env lastWriter st) (stored : st.shard h = some s) :
    (putShardIndexes s h).Meets (perform lastWriter) (Sound env lastWriter) (fun _ _ => True) st := by
  rw [putShardIndexes_eq]
  refine (putEntries_sound inv stored fun _ member => member).bind ?_
  rintro ⟨⟩ t ⟨inv, stored⟩
  refine (putEntries_sound inv stored fun _ member => member).bind ?_
  rintro ⟨⟩ t ⟨inv, stored⟩
  exact (putEntries_sound inv stored fun _ member => member).imp fun _ _ _ => trivial

theorem allIndexed_only (names : List FileHash) : (allIndexed names).Only Call.Reads := by
  induction names with
  | nil => trivial
  | cons name rest ih =>
    refine ⟨trivial, fun r => ?_⟩
    cases r with
    | none => trivial
    | some h => exact ih

def CollisionFree (env : Env) (lastWriter : Bool) (st : Store) (u : Upload) : Prop :=
  ∀ s obj, (Prog.run (perform lastWriter) (prepareShard env u.shard) st).1 = .ok s →
    st.object .shards (env.sha256 (encodeShard s)) = some obj → obj.data = encodeShard s

theorem putShard_sound (inv : Sound env lastWriter st) (u : Upload) (now : Int)
    (free : CollisionFree env lastWriter st u) :
    Prog.Meets (perform lastWriter) (Sound env lastWriter) (fun _ _ => True)
      (putShard env u.shard now) st := by
  unfold putShard
  rw [meets_exceptBind, meets_lift]
  refine ((allIndexed_only _).meets (fun c reads => reads.quiet st) inv).imp ?_
  rintro indexed t ⟨-, rfl⟩
  dsimp only
  split
  · trivial
  · rw [meets_exceptBind]
    refine ((prepareShard_only u.shard).meets (fun c reads => reads.quiet t) inv).mono
      (fun _ h => h) ?_
    rintro result t' ⟨rfl, rfl⟩
    cases prepared : (run (perform lastWriter) (prepareShard env u.shard) t').1 with
    | error e => trivial
    | ok s =>
      have facts := prepareShard_ok prepared
      have decoded := decodeStoredShard_encode (prepared_encodable inv u facts)
      -- The stored shard has the files and the blocks of the prepared one, so its names too.
      have indexes : ∀ w, Sound env lastWriter w →
          w.shard (env.sha256 (encodeShard s)) = some ⟨0, s.files, s.casInfos, none⟩ →
          (putShardIndexes s (env.sha256 (encodeShard s))).Meets (perform lastWriter)
            (Sound env lastWriter) (fun _ _ => True) w := by
        intro w sound stored
        have names := putShardIndexes_sound sound stored
        exact names
      dsimp only
      rw [meets_exceptBind, meets_lift, meets_putObject]
      cases found : t'.object .shards (env.sha256 (encodeShard s)) with
      | some obj =>
        have same := free s obj prepared found
        have stored : t'.shard (env.sha256 (encodeShard s)) = some ⟨0, s.files, s.casInfos, none⟩ := by
          simp only [Store.shard, found, bind_some, same, decoded]
          rfl
        simp only [isSome_some, if_true]
        refine ⟨inv, ?_⟩
        rw [meets_exceptBind, meets_lift]
        exact (indexes t' inv stored).imp fun _ _ _ => trivial
      | none =>
        have written : Sound env lastWriter (t'.insert .shards (env.sha256 (encodeShard s)) ⟨encodeShard s, now⟩) :=
          inv.insertShard found decoded (fun x member => prepared_xorbs facts x member)
            fun fb member => prepared_content facts fb member
        have stored : (t'.insert .shards (env.sha256 (encodeShard s)) ⟨encodeShard s, now⟩).shard
            (env.sha256 (encodeShard s)) = some ⟨0, s.files, s.casInfos, none⟩ := by
          rw [shard_insert, if_pos rfl, decoded]
          rfl
        simp only [isSome_none, Bool.false_eq_true, if_false]
        refine ⟨written, ?_⟩
        rw [meets_exceptBind, meets_lift]
        exact (indexes _ written stored).imp fun _ _ _ => trivial

end

end Xet.Storage
