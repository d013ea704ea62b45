import Xet.Download.Selection

/-! Reconstruction answers end to end: a response built for a range of a file reads as the bytes of
that range, up to the end of the chunk with its last byte. -/
namespace Xet.Download
open Wire Shard List Int

section
variable {lz4 : Xorb.Lz4} {ε : Type}

/-- What a response is good for. It has terms only for a range that is not empty. Its plan fetches
packed bytes of chunk ranges, and reading it is reading the selected bytes of the file from memory.
The offset lies in the first term, and in its first chunk when the shard lists the chunks. -/
structure Answer (blake3 : Keyed) (client : Client ε) (xorbs : XorbHash → Option (StoredXorb lz4)) (sh : Shard)
    (fb : FileBlock) (rng : ByteRange) (offset : Int) (terms : List Term)
    (plan : Except PlanError (List SelectedFetch × List FetchTask)) (reader : Except (ReaderError ε) (Reader ε)) :
    Prop where
  planned : ∃ selected tasks, plan = .ok (selected, tasks) ∧ ∀ task ∈ tasks, ∃ hash x, xorbs hash = some x ∧
    task.key.hash = formatHash hash ∧ x.Valid task.chunks ∧
    (⟨task.key.start, task.key.last⟩ : ByteRange) = x.span task.chunks
  empty : rng.last < rng.start → terms = []
  reads : ∃ r, reader = .ok r ∧
    ((rng.last < rng.start ∧ ∀ lens, (r.reads blake3 lz4 client lens).1 = inMemory [] lens) ∨
     (rng.start ≤ rng.last ∧ ∃ stop, SelectionEnd sh xorbs rng.last stop 0 fb.entries ∧
        ∀ lens, (r.reads blake3 lz4 client lens).1 =
          inMemory (((content xorbs fb.entries).take stop.toNat).drop rng.start.toNat) lens))
  offset : ∀ t ts, terms = t :: ts → 0 ≤ offset ∧ offset < t.unpackedLength ∧
    ∀ hash, t.hash = formatHash hash → Blocked sh hash →
      ∃ c cs, termChunks xorbs t = c :: cs ∧ (offset < c.length ∨ offset = 0 ∧ c = [])

variable {blake3 : Keyed} {client : Client ε} {xorbs : XorbHash → Option (StoredXorb lz4)} {sh : Shard}
variable {fb : FileBlock} {rng : ByteRange} {storage : StorageAdapter ε}

theorem Agrees.content_length {entries : List FileDataSequenceEntry} (agrees : Agrees sh xorbs entries) :
    (content xorbs entries).length = (entries.map (·.unpackedSegBytes.toNat)).sum := by
  induction entries with
  | nil => rfl
  | cons seg rest ih =>
    rw [content_cons, length_append, agrees.length seg mem_cons_self, ih agrees.tail, map_cons, sum_cons]

theorem termChunks_terms (xorbs : XorbHash → Option (StoredXorb lz4)) (es : List FileDataSequenceEntry) :
    (es.map entryTerm).map (termChunks xorbs) = es.map (entryChunks xorbs) := by
  rw [map_map]
  exact map_congr_left fun e _ => termChunks_entryTerm xorbs e

theorem selection_cases (agrees : Agrees sh xorbs fb.entries) (within : rng.Within fb.unpackedSize) :
    (rng.last < rng.start ∧ selected sh rng fb.entries 0 = [] ∧ firstOffset rng 0 (selected sh rng fb.entries 0) = 0) ∨
    (rng.start ≤ rng.last ∧ ∃ stop e start others, Selection sh xorbs rng 0 fb.entries stop e start others ∧
      firstOffset rng 0 (selected sh rng fb.entries 0) = rng.start - start) := by
  by_cases order : rng.start ≤ rng.last
  · have size : rng.last < 0 + (content xorbs fb.entries).length := by
      rw [agrees.content_length, zero_add]
      exact within.last
    obtain ⟨stop, e, start, others, sel⟩ := selected_spec agrees order within.start size
    refine .inr ⟨order, stop, e, start, others, sel, ?_⟩
    have before := sel.before
    rw [sel.shape, firstOffset]
    split <;> omega
  · have behind : (0 : Int) + (fb.entries.map (·.unpackedSegBytes.toNat)).sum ≤ rng.start := by
      rw [zero_add]
      exact within.order.resolve_left order
    have none : selected sh rng fb.entries 0 = [] := selected_empty behind
    exact .inl ⟨by omega, none, by rw [none]; rfl⟩

structure StartsIn (xorbs : XorbHash → Option (StoredXorb lz4)) (offset : Int) (terms : List Term) : Prop where
  empty : terms = [] → offset = 0
  first : ∀ t ts, terms = t :: ts → 0 ≤ offset ∧ offset < t.unpackedLength ∧
    (termChunks xorbs t).flatten.length = t.unpackedLength

variable {offset : Int}

theorem StartsIn.skip {terms : List Term} (starts : StartsIn xorbs offset terms) :
    offset.toNat ≤ ((terms.map (termChunks xorbs)).headD []).flatten.length := by
  cases terms with
  | nil => simp [starts.empty rfl]
  | cons t ts =>
    obtain ⟨-, inside, size⟩ := starts.first t ts rfl
    rw [map_cons, headD_cons, size]
    omega

theorem selected_first {terms : List Term} (agrees : Agrees sh xorbs fb.entries) (within : rng.Within fb.unpackedSize)
    (selection : terms = ((selected sh rng fb.entries 0).map Prod.fst).map entryTerm)
    (skips : offset = firstOffset rng 0 (selected sh rng fb.entries 0)) : StartsIn xorbs offset terms := by
  subst selection
  rcases selection_cases agrees within with ⟨-, none, zero⟩ | ⟨-, stop, e, start, others, sel, exactly⟩
  · rw [none]
    exact ⟨fun _ => skips.trans zero, nofun⟩
  · have before := sel.before
    have reaches := sel.reaches
    rw [sel.shape]
    refine ⟨nofun, fun t ts shape => ?_⟩
    cases shape
    rw [termChunks_entryTerm, sel.size]
    refine ⟨by omega, ?_, rfl⟩
    simp only [entryTerm]
    omega

theorem answer_of_supplies {fetches : Bytes → List FetchInfoEntry} {select : Term → Except PlanError FetchInfoEntry}
    {terms : List Term} (serves : Serves xorbs storage client) (agrees : Agrees sh xorbs fb.entries)
    (within : rng.Within fb.unpackedSize)
    (selection : terms = ((selected sh rng fb.entries 0).map Prod.fst).map entryTerm)
    (skips : offset = firstOffset rng 0 (selected sh rng fb.entries 0))
    (supplies : Supplies xorbs storage fetches terms)
    (choose : ∀ t, (∃ f ∈ fetches t.hash, Covers f t) → ∃ f ∈ fetches t.hash, Covers f t ∧ select t = .ok f) :
    Answer blake3 client xorbs sh fb rng offset terms (planReader select terms)
      (newReader (planReader select terms) offset terms none) := by
  have each := supplies.selects choose
  have chunks : terms.map (termChunks xorbs) = ((selected sh rng fb.entries 0).map Prod.fst).map (entryChunks xorbs) := by
    rw [selection, termChunks_terms]
  have kind := selection_cases agrees within
  rw [← skips] at kind
  have skip := (selected_first agrees within selection skips).skip
  obtain ⟨fetches, tasks, plan, every, r, opened, run⟩ := planReader_reads blake3 serves each skip
  constructor
  case planned =>
    refine ⟨fetches, tasks, plan, fun task member => ?_⟩
    obtain ⟨hash, x, fetch⟩ := every task member
    exact ⟨hash, x, fetch.stored, fetch.name, fetch.valid, fetch.bytes⟩
  case empty =>
    intro reversed
    rcases kind with ⟨-, none, -⟩ | ⟨order, -⟩
    · rw [selection, none, map_nil, map_nil]
    · omega
  case reads =>
    refine ⟨r, opened, ?_⟩
    rcases kind with ⟨reversed, none, -⟩ | ⟨order, stop, e, start, others, sel, exactly⟩
    · refine .inl ⟨reversed, fun lens => ?_⟩
      rw [run lens, chunks, none]
      simp
    · refine .inr ⟨order, stop, sel.ends, fun lens => ?_⟩
      have bytes := sel.bytes
      rw [sub_zero, sub_zero, content] at bytes
      rw [run lens, chunks, exactly, bytes]
  case offset =>
    intro t ts shape
    rcases kind with ⟨-, none, -⟩ | ⟨order, stop, e, start, others, sel, exactly⟩
    · rw [selection, none] at shape
      cases shape
    · have before := sel.before
      have reaches := sel.reaches
      rw [selection, sel.shape, map_cons, map_cons, List.cons.injEq] at shape
      obtain ⟨rfl, -⟩ := shape
      refine ⟨by omega, by simp only [entryTerm]; omega, fun hash name block => ?_⟩
      obtain rfl := formatHash_inj name
      obtain ⟨c, cs, first, inside⟩ := sel.first block
      refine ⟨c, cs, by rw [termChunks_entryTerm, first], ?_⟩
      rcases inside with inside | ⟨same, empty⟩
      · exact .inl (by omega)
      · exact .inr ⟨by omega, empty⟩

theorem Agrees.selected_stored (agrees : Agrees sh xorbs fb.entries) :
    ∀ e ∈ (selected sh rng fb.entries 0).map Prod.fst, ∃ x, xorbs e.casHash = some x := by
  intro e member
  obtain ⟨seg, inside, same⟩ := selected_casHash e member
  obtain ⟨x, stored, -⟩ := agrees.stored seg inside
  exact ⟨x, same ▸ stored⟩

theorem buildV1_supplies {fileHash : FileHash} {r : ReconstructionResponseV1} (serves : Serves xorbs storage client)
    (found : sh.file fileHash = some fb) (agrees : Agrees sh xorbs fb.entries)
    (built : buildReconstructionResponseV1 storage sh fileHash rng = .ok r) :
    r.terms = ((selected sh rng fb.entries 0).map Prod.fst).map entryTerm ∧
    r.offsetIntoFirstRange = firstOffset rng 0 (selected sh rng fb.entries 0) ∧
    Supplies xorbs storage r.fetches r.terms := by
  simp only [buildReconstructionResponseV1, found, bind_eq_ok] at built
  obtain ⟨out, run, value⟩ := built
  obtain ⟨terms, offset, folded⟩ := buildTerms_eq_ok run
  cases value
  have offers := Offers.foldlM (fun e member m m' done => addFetchInfo_offers serves (agrees.selected_stored e member))
    Offers.empty folded
  rw [nil_append] at terms offers
  refine ⟨terms, offset, ?_⟩
  rw [terms]
  exact offers.supplies (fun hash f offered => ⟨f, offered, id⟩) fun hash f held => ⟨f, held, rfl⟩

theorem buildV2_supplies {fileHash : FileHash} {r : ReconstructionResponseV2} (serves : Serves xorbs storage client)
    (found : sh.file fileHash = some fb) (agrees : Agrees sh xorbs fb.entries)
    (built : buildReconstructionResponseV2 storage sh fileHash rng = .ok r) :
    r.terms = ((selected sh rng fb.entries 0).map Prod.fst).map entryTerm ∧
    r.offsetIntoFirstRange = firstOffset rng 0 (selected sh rng fb.entries 0) ∧
    Supplies xorbs storage r.fetches r.terms := by
  simp only [buildReconstructionResponseV2, found, bind_eq_ok] at built
  obtain ⟨out, run, xs, attached, value⟩ := built
  obtain ⟨terms, offset, folded⟩ := buildTerms_eq_ok run
  cases value
  have offers := Offers.foldlM (fun e member m m' done => addFetchRange_offers serves (agrees.selected_stored e member))
    Offers.empty folded
  rw [nil_append] at terms offers
  refine ⟨terms, offset, ?_⟩
  rw [terms]
  exact offers.supplies_attached _ attached

/-- For every file of a shard that agrees with the stored xorbs and every range header, a response of
either version that is built answers the range. -/
theorem reconstruction_answers (blake3 : Keyed) (lz4 : Xorb.Lz4) {ε : Type}
    (xorbs : XorbHash → Option (StoredXorb lz4)) (storage : StorageAdapter ε) (client : Client ε)
    (serves : Serves xorbs storage client) (sh : Shard) (fileHash : FileHash) (fb : FileBlock)
    (found : sh.file fileHash = some fb) (agrees : Agrees sh xorbs fb.entries) (header : Bytes) :
    let rng := parseByteRange header fb.unpackedSize
    (∀ r, buildReconstructionResponseV1 storage sh fileHash rng = .ok r →
      Answer blake3 client xorbs sh fb rng r.offsetIntoFirstRange r.terms (planReaderV1 r) (newReaderV1 r none)) ∧
    (∀ r, buildReconstructionResponseV2 storage sh fileHash rng = .ok r →
      Answer blake3 client xorbs sh fb rng r.offsetIntoFirstRange r.terms (planReaderV2 r) (newReaderV2 r none)) := by
  intro rng
  have within : rng.Within fb.unpackedSize := parseByteRange_within header (Int.natCast_nonneg _)
  constructor
  · intro r built
    obtain ⟨selection, skips, supplies⟩ := buildV1_supplies serves found agrees built
    exact answer_of_supplies serves agrees within selection skips supplies fun t => selectFetchInfoV1_covered
  · intro r built
    obtain ⟨selection, skips, supplies⟩ := buildV2_supplies serves found agrees built
    exact answer_of_supplies serves agrees within selection skips supplies fun t => selectFetchInfoV2_covered

end

def sampleFirst : Hash := ⟨[0xeb, 0x59, 0x38, 0x1f, 0x16, 0x86, 0xfe, 0xf2, 0xd0, 0xc8, 0xe4,
  0xab, 0x7e, 0x6a, 0x7c, 0x9f, 0x94, 0x80, 0x46, 0x9e, 0x97, 0xac,
  0x3c, 0x8a, 0x75, 0x62, 0xd8, 0x92, 0x44, 0x99, 0xaf, 0xb7], rfl⟩

def sampleSecond : Hash := ⟨[0x0e, 0xae, 0x28, 0x2b, 0x24, 0x69, 0xbb, 0x37, 0x78, 0x71, 0xd5,
  0x41, 0xd8, 0xc8, 0x0b, 0x2b, 0xac, 0x3c, 0x03, 0xb3, 0x1c, 0xff,
  0xb8, 0x2e, 0xe8, 0x45, 0x32, 0x47, 0xb0, 0x4f, 0x18, 0x43], rfl⟩

def sampleXorb : Hash := ⟨[0xee, 0x44, 0x4e, 0x35, 0xf3, 0xb6, 0xb4, 0xce, 0x9a, 0x9c, 0x72,
  0x55, 0x46, 0x7d, 0x69, 0xa6, 0x69, 0x2a, 0x3e, 0xe0, 0xad, 0xf9,
  0x4d, 0x26, 0x1f, 0x23, 0x21, 0x27, 0x32, 0xf3, 0xe6, 0xb5], rfl⟩

def sampleFile : Hash := ⟨[0x27, 0xc6, 0xb6, 0x6e, 0x77, 0x1e, 0xf7, 0x6d, 0x31, 0x78, 0x1a,
  0x14, 0xfa, 0xfa, 0x4b, 0xe4, 0xc2, 0xe0, 0x98, 0x44, 0x60, 0xe3,
  0x33, 0xf6, 0xb1, 0x51, 0xa4, 0xbb, 0x89, 0xe3, 0xe4, 0x5f], rfl⟩

def sampleKeyed : Keyed := fun _ data => if data = [1, 2, 3] then sampleFirst else sampleSecond

def storedLz4 : Xorb.Lz4 := ⟨fun _ _ => none, fun _ => ⟨[], true⟩⟩

def sampleStored : StoredXorb storedLz4 where
  payload := {
    frames := [⟨⟨3, 3, 0⟩, [1, 2, 3], [1, 2, 3], by decide, by decide⟩, ⟨⟨2, 2, 0⟩, [4, 5], [4, 5], by decide, by decide⟩]
    count := by decide
    raw := by decide }
  tail := []

def sampleXorbs (hash : XorbHash) : Option (StoredXorb storedLz4) := if hash = sampleXorb then some sampleStored else none

def sampleBlock : FileBlock := ⟨sampleFile, 0, [⟨sampleXorb, 0, 5, 0, 2⟩, ⟨sampleXorb, 0, 2, 1, 2⟩], [], none⟩

def sampleShard : Shard where
  footerSize := 0
  files := [sampleBlock]
  casInfos := [⟨sampleXorb, 0, [⟨sampleFirst, 0, 3, 0⟩, ⟨sampleSecond, 3, 2, 0⟩], 5, 21⟩]
  footer := none

def sampleStorage : StorageAdapter Unit where
  getXorbURL hash := if hash = sampleXorb then .ok [120] else .error ()
  getXorbChunkOffsets hash := if hash = sampleXorb then .ok [11, 21] else .error ()

def sampleClient : Client Unit where
  download key _ := .ok (Xorb.slice sampleStored.data key.start.toNat (key.last - key.start + 1).toNat)
  cached _ _ := none
  closes _ _ := false

theorem sampleServes : Serves sampleXorbs sampleStorage sampleClient := by
  have only : ∀ hash x, sampleXorbs hash = some x → hash = sampleXorb ∧ x = sampleStored := by
    intro hash x stored
    unfold sampleXorbs at stored
    split at stored
    · exact ⟨‹_›, (Option.some.inj stored).symm⟩
    · cases stored
  constructor
  case offsets =>
    intro hash x table stored served
    obtain ⟨rfl, rfl⟩ := only hash x stored
    exact (Except.ok.inj served).symm
  case body =>
    intro hash x url stored served key start order last
    obtain ⟨rfl, rfl⟩ := only hash x stored
    rfl
  case cached => exact fun _ _ _ _ _ hit => nomatch hit

theorem sampleAgrees : Agrees sampleShard sampleXorbs sampleBlock.entries where
  blocks := by decide
  stored := by decide
  length := by decide

def sampleHeader : Bytes := bytesUnit ++ [50, 45]

theorem sample_answers :
    (∃ r, buildReconstructionResponseV1 sampleStorage sampleShard sampleFile ⟨2, 6⟩ = .ok r ∧
      Answer sampleKeyed sampleClient sampleXorbs sampleShard sampleBlock ⟨2, 6⟩ r.offsetIntoFirstRange r.terms
        (planReaderV1 r) (newReaderV1 r none)) ∧
    ∃ r, buildReconstructionResponseV2 sampleStorage sampleShard sampleFile ⟨2, 6⟩ = .ok r ∧
      Answer sampleKeyed sampleClient sampleXorbs sampleShard sampleBlock ⟨2, 6⟩ r.offsetIntoFirstRange r.terms
        (planReaderV2 r) (newReaderV2 r none) := by
  have range : parseByteRange sampleHeader sampleBlock.unpackedSize = ⟨2, 6⟩ := by decide
  have answers := reconstruction_answers sampleKeyed storedLz4 sampleXorbs sampleStorage sampleClient sampleServes
    sampleShard sampleFile sampleBlock (by decide) sampleAgrees sampleHeader
  rw [range] at answers
  constructor
  · have built : (buildReconstructionResponseV1 sampleStorage sampleShard sampleFile ⟨2, 6⟩).isOk = true := by
      decide +kernel
    obtain ⟨r, value⟩ := exists_of_isOk built
    exact ⟨r, value, answers.1 r value⟩
  · have built : (buildReconstructionResponseV2 sampleStorage sampleShard sampleFile ⟨2, 6⟩).isOk = true := by
      decide +kernel
    obtain ⟨r, value⟩ := exists_of_isOk built
    exact ⟨r, value, answers.2 r value⟩

end Xet.Download
