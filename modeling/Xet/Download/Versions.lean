import Xet.Download.SplitAnswer

/-! Both versions of the reconstruction response say the same: the terms, the ranges of every xorb in
order, and the fetch planned for every term, before and after cutting. -/
namespace Xet.Download
open Wire Shard List Option XorbRangeDescriptor AList

def FetchInfoEntry.descriptor (f : FetchInfoEntry) : XorbRangeDescriptor := ⟨f.range, f.urlRange⟩

structure SameRanges (r₁ : ReconstructionResponseV1) (r₂ : ReconstructionResponseV2) : Prop where
  offset : r₁.offsetIntoFirstRange = r₂.offsetIntoFirstRange
  terms : r₁.terms = r₂.terms
  ranges : ∀ hash, (r₁.fetches hash).map (·.descriptor) = (r₂.fetches hash).map (·.descriptor)

theorem better_descriptor (t : Term) {f g : FetchInfoEntry} {a b : Option FetchInfoEntry}
    (new : f.descriptor = g.descriptor) (best : a.map (·.descriptor) = b.map (·.descriptor)) :
    (better t a f).map (·.descriptor) = (better t b g).map (·.descriptor) := by
  obtain ⟨range, bytes⟩ := mk.inj new
  unfold better
  rw [range, bytes]
  split
  · cases a with
    | none =>
      obtain rfl := map_eq_none_iff.mp best.symm
      simp [new]
    | some old =>
      obtain ⟨old', rfl, same⟩ := map_eq_some_iff.mp best.symm
      have width := congrArg XorbRangeDescriptor.bytes same
      simp only [FetchInfoEntry.descriptor] at width
      simp only [width]
      split
      · simp [new]
      · simp [same]
  · exact best

theorem foldl_better_descriptor (t : Term) {l₁ l₂ : List FetchInfoEntry} {a b : Option FetchInfoEntry}
    (ranges : l₁.map (·.descriptor) = l₂.map (·.descriptor)) (best : a.map (·.descriptor) = b.map (·.descriptor)) :
    (l₁.foldl (better t) a).map (·.descriptor) = (l₂.foldl (better t) b).map (·.descriptor) := by
  induction l₁ generalizing l₂ a b with
  | nil =>
    obtain rfl := map_eq_nil_iff.mp ranges.symm
    exact best
  | cons f rest ih =>
    obtain ⟨g, rest', rfl, new, tail⟩ := map_eq_cons_iff.mp ranges.symm
    rw [foldl_cons, foldl_cons]
    exact ih tail.symm (better_descriptor t new.symm best)

theorem selectFetchInfoV1_eq (r : ReconstructionResponseV1) (t : Term) :
    (selectFetchInfoV1 r t).toOption = (r.fetches t.hash).foldl (better t) none := by
  unfold selectFetchInfoV1 ReconstructionResponseV1.fetches
  cases (r.fetchInfo.lookup t.hash).getD [] with
  | nil => rfl
  | cons first rest =>
    dsimp only
    cases (first :: rest).foldl (better t) none <;> rfl

theorem selectFetchInfoV2_eq (r : ReconstructionResponseV2) (t : Term) :
    (selectFetchInfoV2 r t).toOption = (r.fetches t.hash).foldl (better t) none := by
  unfold selectFetchInfoV2 ReconstructionResponseV2.fetches
  cases (r.xorbs.lookup t.hash).getD [] with
  | nil => rfl
  | cons first rest =>
    simp only [foldl_flatMap, XorbMultiRangeFetch.entries, foldl_map]
    cases List.foldl (fun best fetch => List.foldl (fun best rg => better t best ⟨rg.chunks, fetch.url, rg.bytes⟩) best
      fetch.ranges) none (first :: rest) <;> rfl

variable {r₁ : ReconstructionResponseV1} {r₂ : ReconstructionResponseV2}

theorem SameRanges.select (same : SameRanges r₁ r₂) (t : Term) :
    Together (fun f g => f.descriptor = g.descriptor) (selectFetchInfoV1 r₁ t) (selectFetchInfoV2 r₂ t) := by
  have chosen := foldl_better_descriptor t (same.ranges t.hash) (a := none) rfl
  rw [← selectFetchInfoV1_eq, ← selectFetchInfoV2_eq] at chosen
  cases first : selectFetchInfoV1 r₁ t with
  | error e =>
    cases second : selectFetchInfoV2 r₂ t with
    | error e' => exact .error e e'
    | ok g => simp [first, second, Except.toOption] at chosen
  | ok f =>
    cases second : selectFetchInfoV2 r₂ t with
    | error e' => simp [first, second, Except.toOption] at chosen
    | ok g =>
      simp only [first, second, Except.toOption, map_some, Option.some.injEq] at chosen
      exact .ok f g chosen

theorem SameRanges.plan (same : SameRanges r₁ r₂) (t : Term) :
    Together (fun p q => p.1 = q.1) (planTerm (selectFetchInfoV1 r₁) t) (planTerm (selectFetchInfoV2 r₂) t) := by
  apply (same.select t).bind
  intro f g equal
  obtain ⟨range, bytes⟩ := mk.inj equal
  rw [range, bytes]
  cases checkFetchRange t g.range g.urlRange with
  | error e => exact .error e e
  | ok _ => exact .ok _ _ rfl

theorem SameRanges.plans (same : SameRanges r₁ r₂) :
    Together (fun p q => p.1 = q.1) (planReaderV1 r₁) (planReaderV2 r₂) := by
  rw [planReaderV1, planReaderV2, same.terms]
  apply (Together.mapM fun t _ => same.plan t).bind
  intro ps qs all
  have fetches : ps.map Prod.fst = qs.map Prod.fst := by
    induction all with
    | nil => rfl
    | cons first _ ih => rw [map_cons, map_cons, first, ih]
  exact .ok _ _ fetches

theorem keepLongest_descriptor (new : FetchInfoEntry) (list : List FetchInfoEntry) :
    (keepLongest (·.range) new list).map (·.descriptor) =
      keepLongest (·.chunks) new.descriptor (list.map (·.descriptor)) := by
  induction list with
  | nil => rfl
  | cons old rest ih =>
    have range : ∀ f : FetchInfoEntry, f.descriptor.chunks = f.range := fun f => rfl
    rw [map_cons, keepLongest, keepLongest]
    simp only [range]
    split_ifs <;> simp only [map_cons, ih]

def SameMap (m₁ : AList fun _ : Bytes => List FetchInfoEntry) (m₂ : AList fun _ : Bytes => List XorbRangeDescriptor) :
    Prop :=
  ∀ name, (m₁.lookup name).map (·.map (·.descriptor)) = m₂.lookup name

section
variable {ε : Type} {storage : StorageAdapter ε} {m₁ : AList fun _ : Bytes => List FetchInfoEntry}
variable {m₂ : AList fun _ : Bytes => List XorbRangeDescriptor}

theorem SameMap.add (same : SameMap m₁ m₂) {e : FileDataSequenceEntry} {url : URL}
    (address : storage.getXorbURL e.casHash = .ok url) :
    Together SameMap (addFetchInfo storage e m₁) (addFetchRange storage e m₂) := by
  rw [addFetchInfo, addFetchRange, address]
  cases packedRange storage e with
  | error error => exact .error error error
  | ok bytes =>
    refine .ok _ _ fun name => ?_
    by_cases here : name = formatHash e.casHash
    · subst here
      rw [lookup_insert, lookup_insert, ← same, map_some]
      rw [keepLongest_descriptor]
      cases m₁.lookup (formatHash e.casHash) <;> rfl
    · rw [lookup_insert_ne here, lookup_insert_ne here]
      exact same name

variable {es : List FileDataSequenceEntry}

theorem SameMap.foldlM (same : SameMap m₁ m₂) (addresses : ∀ e ∈ es, ∃ url, storage.getXorbURL e.casHash = .ok url) :
    Together SameMap (es.foldlM (fun m e => addFetchInfo storage e m) m₁)
      (es.foldlM (fun m e => addFetchRange storage e m) m₂) := by
  induction es generalizing m₁ m₂ with
  | nil => exact .ok _ _ same
  | cons e rest ih =>
    obtain ⟨url, address⟩ := addresses e mem_cons_self
    rw [foldlM_cons, foldlM_cons]
    apply (same.add address).bind
    intro n₁ n₂ next
    exact ih next fun d member => addresses d (mem_cons_of_mem e member)

theorem addFetchInfo_addresses {m : AList fun _ : Bytes => List FetchInfoEntry}
    (run : es.foldlM (fun m e => addFetchInfo storage e m) m₁ = .ok m) :
    ∀ e ∈ es, ∃ url, storage.getXorbURL e.casHash = .ok url := by
  induction es generalizing m₁ with
  | nil => nofun
  | cons e rest ih =>
    rw [foldlM_cons, bind_eq_ok] at run
    obtain ⟨next, added, run⟩ := run
    simp only [addFetchInfo, bind_eq_ok, mapError_eq_ok] at added
    obtain ⟨-, -, url, address, -⟩ := added
    exact forall_mem_cons.mpr ⟨⟨url, address⟩, ih run⟩

theorem addFetchRange_keys {m : AList fun _ : Bytes => List XorbRangeDescriptor}
    (run : es.foldlM (fun m e => addFetchRange storage e m) m₂ = .ok m) (name : Bytes) :
    name ∈ m ↔ name ∈ m₂ ∨ ∃ e ∈ es, name = formatHash e.casHash := by
  induction es generalizing m₂ with
  | nil =>
    cases run
    simp
  | cons e rest ih =>
    rw [foldlM_cons, bind_eq_ok] at run
    obtain ⟨next, added, run⟩ := run
    simp only [addFetchRange, bind_eq_ok] at added
    obtain ⟨bytes, -, value⟩ := added
    cases value
    rw [ih run, mem_insert]
    simp only [mem_cons, exists_eq_or_imp]
    tauto

theorem attachURLs_ok {list : List (Sigma fun _ : Bytes => List XorbRangeDescriptor)} :
    (∃ m, attachURLs storage list = .ok m) ↔
      ∀ name ∈ list.keys, ∃ url, storage.getXorbURL ((parseHash name).toOption.getD Hash.zero) = .ok url := by
  induction list with
  | nil => exact ⟨fun _ => nofun, fun _ => ⟨∅, rfl⟩⟩
  | cons first rest ih =>
    rw [keys_cons, forall_mem_cons, ← ih]
    simp only [attachURLs, bind_eq_ok, mapError_eq_ok]
    constructor
    · rintro ⟨m, url, address, others, tail, -⟩
      exact ⟨⟨url, address⟩, others, tail⟩
    · rintro ⟨⟨url, address⟩, others, tail⟩
      exact ⟨_, url, address, others, tail, rfl⟩

theorem SameMap.attached {m : AList fun _ : Bytes => List XorbMultiRangeFetch} {offset : Int} {terms : List Term}
    (same : SameMap m₁ m₂) (attached : attachURLs storage m₂.entries = .ok m) :
    SameRanges ⟨offset, terms, m₁⟩ ⟨offset, terms, m⟩ := by
  refine ⟨rfl, rfl, fun name => ?_⟩
  have held : (m₁.lookup name).map (·.map (·.descriptor)) = m₂.entries.dlookup name := same name
  simp only [ReconstructionResponseV1.fetches, ReconstructionResponseV2.fetches]
  rcases attachURLs_lookup attached name with ⟨ranges, url, there, -, found⟩ | ⟨missing, gone⟩
  · rw [there] at held
    obtain ⟨entries, first, descriptors⟩ := map_eq_some_iff.mp held
    rw [first, found, ← descriptors]
    simp [XorbMultiRangeFetch.entries, FetchInfoEntry.descriptor]
  · rw [missing] at held
    rw [map_eq_none_iff.mp held, gone]
    rfl

theorem attachURLs_iff (run : es.foldlM (fun m e => addFetchRange storage e m) ∅ = .ok m₂) :
    (∃ m, attachURLs storage m₂.entries = .ok m) ↔ ∀ e ∈ es, ∃ url, storage.getXorbURL e.casHash = .ok url := by
  have keys : ∀ name, name ∈ m₂.entries.keys ↔ ∃ e ∈ es, name = formatHash e.casHash := by
    intro name
    have keys := addFetchRange_keys run name
    rwa [or_iff_right (notMem_empty name)] at keys
  rw [attachURLs_ok]
  constructor
  · intro all e member
    have address := all (formatHash e.casHash) ((keys _).mpr ⟨e, member, rfl⟩)
    rwa [parseHash_formatHash] at address
  · intro all name member
    obtain ⟨e, inside, rfl⟩ := (keys name).mp member
    rw [parseHash_formatHash]
    exact all e inside

theorem builds_together (storage : StorageAdapter ε) (sh : Shard) (fileHash : FileHash) (rng : ByteRange) :
    Together SameRanges (buildReconstructionResponseV1 storage sh fileHash rng)
      (buildReconstructionResponseV2 storage sh fileHash rng) := by
  rw [buildReconstructionResponseV1, buildReconstructionResponseV2]
  cases sh.file fileHash with
  | none => exact .error _ _
  | some fb =>
    simp only [buildTerms_eq]
    generalize (selected sh rng fb.entries 0).map Prod.fst = es
    have start : SameMap ∅ ∅ := fun name => rfl
    cases first : es.foldlM (fun m e => addFetchInfo storage e m) ∅ with
    | ok m₁ =>
      have addresses := addFetchInfo_addresses first
      have both := start.foldlM addresses
      rw [first] at both
      cases second : es.foldlM (fun m e => addFetchRange storage e m) ∅ with
      | error e =>
        rw [second] at both
        cases both
      | ok m₂ =>
        rw [second] at both
        cases both with
        | ok _ _ same =>
          obtain ⟨m, attached⟩ := (attachURLs_iff second).mpr addresses
          simp only [Functor.map, Except.map, ok_bind, attached]
          exact .ok _ _ (same.attached attached)
    | error e =>
      cases second : es.foldlM (fun m e => addFetchRange storage e m) ∅ with
      | error e' => exact .error _ _
      | ok m₂ =>
        -- The terms are fine, so an address is missing, and the second version fails when it gets to it.
        cases attached : attachURLs storage m₂.entries with
        | error e' =>
          simp only [Functor.map, Except.map, ok_bind, error_bind, attached]
          exact .error _ _
        | ok m =>
          have both := start.foldlM ((attachURLs_iff second).mp ⟨m, attached⟩)
          rw [first, second] at both
          cases both

theorem packedRange_order {e : FileDataSequenceEntry} {bytes : ByteRange} (packed : packedRange storage e = .ok bytes) :
    (entryRange e).start < (entryRange e).stop := by
  simp only [packedRange, Xorb.chunkDataRangeFromOffsets, bind_eq_ok, mapError_eq_ok, require_eq_ok] at packed
  obtain ⟨-, -, -, ⟨-, order, -⟩, -⟩ := packed
  exact order

def Covered (fetches : Bytes → List FetchInfoEntry) (terms : List Term) : Prop :=
  ∀ t ∈ terms, t.range.start < t.range.stop ∧ ∃ f ∈ fetches t.hash, Covers f t

theorem buildV1_covered {sh : Shard} {fileHash : FileHash} {rng : ByteRange}
    (built : buildReconstructionResponseV1 storage sh fileHash rng = .ok r₁) : Covered r₁.fetches r₁.terms := by
  unfold buildReconstructionResponseV1 at built
  cases found : sh.file fileHash with
  | none => simp only [found, reduceCtorEq] at built
  | some fb =>
    simp only [found, bind_eq_ok] at built
    obtain ⟨out, run, value⟩ := built
    obtain ⟨terms, -, folded⟩ := buildTerms_eq_ok run
    cases value
    have step : ∀ e m m' done, addFetchInfo storage e m = .ok m' →
        Offers (·.range) (fun _ _ => True) m done → Offers (·.range) (fun _ _ => True) m' (done ++ [e]) := by
      intro e m m' done added o
      simp only [addFetchInfo, bind_eq_ok, mapError_eq_ok] at added
      obtain ⟨bytes, packed, url, -, value⟩ := added
      cases value
      exact o.insert trivial rfl (packedRange_order packed)
    have offers := Offers.foldlM (fun e _ => step e) Offers.empty folded
    rw [nil_append] at terms offers
    intro t member
    rw [terms] at member
    obtain ⟨e, inside, rfl⟩ := mem_map.mp member
    exact ⟨offers.order e inside, offers.covers e inside⟩

theorem termURL_ok {ε' : Type} {xs : AList fun _ : Bytes => List SplitPiece} (covered : Covered r₁.fetches r₁.terms) :
    ∃ urls, r₁.terms.zipIdx.mapM (termURL (ε := ε') r₁ xs) = .ok urls := by
  obtain ⟨urls, run, -⟩ : ∃ urls, r₁.terms.zipIdx.mapM (termURL (ε := ε') r₁ xs) = .ok urls ∧
      List.Forall₂ (fun _ _ => True) r₁.terms.zipIdx urls := by
    apply exists_mapM_ok
    intro t member
    unfold termURL
    split
    · obtain ⟨-, f, offered, covers⟩ := covered t.1 (fst_mem_of_mem_zipIdx member)
      cases found : ((r₁.fetchInfo.lookup t.1.hash).getD []).find? fun e =>
          e.range.start ≤ t.1.range.start ∧ t.1.range.stop ≤ e.range.stop with
      | none => exact absurd (by simpa [Covers] using covers) (find?_eq_none.mp found f offered)
      | some entry => exact ⟨_, rfl, trivial⟩
    · exact ⟨_, rfl, trivial⟩
  exact ⟨urls, run⟩

theorem foldl_insert_lookup {β γ : Type} (value : β → γ) {list : List (Sigma fun _ : Bytes => β)} (nodup : list.NodupKeys)
    (m : AList fun _ : Bytes => γ) (name : Bytes) :
    (list.foldl (fun m e => m.insert e.1 (value e.2)) m).lookup name =
      match list.dlookup name with
      | some b => some (value b)
      | none => m.lookup name := by
  induction list generalizing m with
  | nil => rfl
  | cons first rest ih =>
    obtain ⟨key, b⟩ := first
    obtain ⟨fresh, tail⟩ := nodupKeys_cons.mp nodup
    rw [foldl_cons, ih tail]
    by_cases same : name = key
    · subst same
      rw [dlookup_eq_none.mpr fresh, dlookup_cons_eq, lookup_insert]
    · rw [dlookup_cons_ne _ _ same, lookup_insert_ne same]

theorem splitXorb_ok {ε' : Type} {list : List (Sigma fun _ : Bytes => List SplitPiece)}
    (offered : ∀ name ∈ list.keys, (r₂.xorbs.lookup name).getD [] ≠ []) (m : AList fun _ : Bytes => List XorbMultiRangeFetch) :
    ∃ m', list.foldlM (splitXorb (ε := ε') r₂) m = .ok m' := by
  induction list generalizing m with
  | nil => exact ⟨m, rfl⟩
  | cons first rest ih =>
    rw [keys_cons, forall_mem_cons] at offered
    obtain ⟨fetch, others, shape⟩ := exists_cons_of_ne_nil offered.1
    rw [foldlM_cons, splitXorb, shape]
    exact ih offered.2 _

theorem SameRanges.splits {ε' : Type} (same : SameRanges r₁ r₂) (covered : Covered r₁.fetches r₁.terms)
    (storage : StorageAdapter ε') (sh : Shard) (rng : ByteRange) (minTerms pieceBytes : Int) :
    Together SameRanges (splitTermsV1 storage sh r₁ rng minTerms pieceBytes)
      (splitTermsV2 storage sh r₂ rng minTerms pieceBytes) := by
  rw [splitTermsV1, splitTermsV2, same.terms, same.offset]
  cases divided : splitTerms storage sh r₂.terms r₂.offsetIntoFirstRange rng minTerms pieceBytes with
  | error e => exact .error e e
  | ok parts =>
    have order : ∀ t ∈ r₂.terms, t.range.start < t.range.stop := same.terms ▸ fun t member => (covered t member).1
    rcases splitTerms_eq_ok order divided with ⟨rfl, -⟩ | ⟨pieces, xs, rfl, d⟩
    · exact .ok r₁ r₂ same
    · -- A cut xorb has a term, which has a range in either version.
      have offered : ∀ name ∈ xs.entries.keys, (r₂.xorbs.lookup name).getD [] ≠ [] := by
        intro name member none
        obtain ⟨p, held, -, rfl⟩ := (d.ranges.keys name).mp member
        obtain ⟨t, inside, equal, -⟩ := d.cutting.origin held
        obtain ⟨-, f, there, -⟩ := covered t (same.terms ▸ inside)
        have ranges := same.ranges t.hash
        rw [← equal, ReconstructionResponseV2.fetches, none, equal] at ranges
        rw [map_eq_nil_iff.mp ranges] at there
        cases there
      obtain ⟨urls, addressed⟩ : ∃ urls, r₁.terms.zipIdx.mapM (termURL (ε := ε') r₁ xs) = .ok urls := termURL_ok covered
      obtain ⟨fetches, replaced⟩ : ∃ m, xs.entries.foldlM (splitXorb (ε := ε') r₂) r₂.xorbs = .ok m :=
        splitXorb_ok offered r₂.xorbs
      rw [same.terms] at addressed
      simp only [ok_bind, addressed, replaced]
      refine .ok _ _ ⟨rfl, rfl, fun name => ?_⟩
      simp only [ReconstructionResponseV1.fetches, ReconstructionResponseV2.fetches]
      rw [foldl_insert_lookup (fun ps : List SplitPiece => ps.map fun p =>
        (⟨p.term.range, urls.getD p.src [], p.packed⟩ : FetchInfoEntry)) xs.nodupKeys]
      rcases splitXorb_lookup xs.nodupKeys replaced name with ⟨ps, fetch, others, there, -, new⟩ | ⟨missing, kept⟩
      · rw [there, new]
        simp [XorbMultiRangeFetch.entries, FetchInfoEntry.descriptor]
      · rw [missing, kept]
        exact same.ranges name

/-- The same offset and terms, the same ranges of every xorb in order, and the same planned fetches. -/
structure SameAnswer (r₁ : ReconstructionResponseV1) (r₂ : ReconstructionResponseV2) : Prop where
  offset : r₁.offsetIntoFirstRange = r₂.offsetIntoFirstRange
  terms : r₁.terms = r₂.terms
  ranges : ∀ hash, (r₁.fetches hash).map (fun f => (f.range, f.urlRange)) =
    (r₂.fetches hash).map fun f => (f.range, f.urlRange)
  planned : Together (fun p q => p.1 = q.1) (planReaderV1 r₁) (planReaderV2 r₂)

theorem SameRanges.answer (same : SameRanges r₁ r₂) : SameAnswer r₁ r₂ where
  offset := same.offset
  terms := same.terms
  ranges hash := by
    have pairs := congrArg (List.map fun d : XorbRangeDescriptor => (d.chunks, d.bytes)) (same.ranges hash)
    simpa [FetchInfoEntry.descriptor, Function.comp_def] using pairs
  planned := same.plans

/-- For every shard, file, range and storage, the two builders succeed for the same requests and agree,
and so do the two ways of cutting what they built, whatever shard, range, storage and numbers they get. -/
theorem versions_agree {ε ε' : Type} (storage : StorageAdapter ε) (sh : Shard) (fileHash : FileHash) (rng : ByteRange) :
    Together (fun r₁ r₂ => SameAnswer r₁ r₂ ∧
        ∀ (storage' : StorageAdapter ε') (sh' : Shard) (rng' : ByteRange) (minTerms pieceBytes : Int),
          Together SameAnswer (splitTermsV1 storage' sh' r₁ rng' minTerms pieceBytes)
            (splitTermsV2 storage' sh' r₂ rng' minTerms pieceBytes))
      (buildReconstructionResponseV1 storage sh fileHash rng) (buildReconstructionResponseV2 storage sh fileHash rng) := by
  apply (builds_together storage sh fileHash rng).mono
  intro r₁ r₂ built _ same
  refine ⟨same.answer, fun storage' sh' rng' minTerms pieceBytes => ?_⟩
  apply (same.splits (buildV1_covered built) storage' sh' rng' minTerms pieceBytes).mono
  exact fun o₁ o₂ _ _ after => after.answer

end

end Xet.Download
