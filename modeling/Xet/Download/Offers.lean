import Xet.Download.Served

/-! The fetch ranges of a response: each is the packed bytes of its chunks, and each term is covered
by one of them, which is then selected. -/
namespace Xet.Download
open Wire Shard List AList

section
variable {t : Term}

theorem better_cases (t : Term) (best : Option FetchInfoEntry) (new : FetchInfoEntry) :
    (better t best new = best ∧ (Covers new t → best ≠ none)) ∨ (better t best new = some new ∧ Covers new t) := by
  unfold better
  split
  · rename_i covers
    cases best with
    | none => exact .inr ⟨rfl, covers⟩
    | some old =>
      dsimp only
      split
      · exact .inr ⟨rfl, covers⟩
      · exact .inl ⟨rfl, fun _ => by simp⟩
  · rename_i apart
    exact .inl ⟨rfl, fun covers => absurd covers apart⟩

theorem foldl_better (candidates : List FetchInfoEntry) (best : Option FetchInfoEntry)
    (some_covers : best ≠ none ∨ ∃ f ∈ candidates, Covers f t) :
    ∃ f, candidates.foldl (better t) best = some f ∧ (best = some f ∨ f ∈ candidates ∧ Covers f t) := by
  induction candidates generalizing best with
  | nil =>
    rcases some_covers with there | ⟨f, member, -⟩
    · obtain ⟨f, rfl⟩ := Option.ne_none_iff_exists'.mp there
      exact ⟨f, rfl, .inl rfl⟩
    · cases member
  | cons new rest ih =>
    rw [foldl_cons]
    rcases better_cases t best new with ⟨step, kept⟩ | ⟨step, covers⟩
    · rw [step]
      obtain ⟨f, run, origin⟩ := ih best <| by
        rcases some_covers with there | ⟨f, member, covers⟩
        · exact .inl there
        · rcases mem_cons.mp member with rfl | member
          · exact .inl (kept covers)
          · exact .inr ⟨f, member, covers⟩
      exact ⟨f, run, origin.imp_right fun ⟨member, covers⟩ => ⟨mem_cons_of_mem _ member, covers⟩⟩
    · rw [step]
      obtain ⟨f, run, origin⟩ := ih (some new) (.inl (by simp))
      refine ⟨f, run, .inr ?_⟩
      rcases origin with same | ⟨member, covered⟩
      · cases same
        exact ⟨mem_cons_self, covers⟩
      · exact ⟨mem_cons_of_mem _ member, covered⟩

end

def ReconstructionResponseV1.fetches (r : ReconstructionResponseV1) (hash : Bytes) : List FetchInfoEntry :=
  (r.fetchInfo.lookup hash).getD []

def XorbMultiRangeFetch.entries (fetch : XorbMultiRangeFetch) : List FetchInfoEntry :=
  fetch.ranges.map fun rg => ⟨rg.chunks, fetch.url, rg.bytes⟩

def ReconstructionResponseV2.fetches (r : ReconstructionResponseV2) (hash : Bytes) : List FetchInfoEntry :=
  ((r.xorbs.lookup hash).getD []).flatMap (·.entries)

theorem selectFetchInfoV1_covered {r : ReconstructionResponseV1} {t : Term}
    (covered : ∃ f ∈ r.fetches t.hash, Covers f t) :
    ∃ f ∈ r.fetches t.hash, Covers f t ∧ selectFetchInfoV1 r t = .ok f := by
  obtain ⟨f, run, origin⟩ := foldl_better (r.fetches t.hash) none (.inr covered)
  obtain ⟨member, covers⟩ := origin.resolve_left nofun
  refine ⟨f, member, covers, ?_⟩
  unfold selectFetchInfoV1
  unfold ReconstructionResponseV1.fetches at run member
  cases entries : (r.fetchInfo.lookup t.hash).getD [] with
  | nil =>
    rw [entries] at member
    cases member
  | cons first rest =>
    rw [entries] at run
    simp only [run]

theorem selectFetchInfoV2_covered {r : ReconstructionResponseV2} {t : Term}
    (covered : ∃ f ∈ r.fetches t.hash, Covers f t) :
    ∃ f ∈ r.fetches t.hash, Covers f t ∧ selectFetchInfoV2 r t = .ok f := by
  obtain ⟨f, run, origin⟩ := foldl_better (r.fetches t.hash) none (.inr covered)
  obtain ⟨member, covers⟩ := origin.resolve_left nofun
  refine ⟨f, member, covers, ?_⟩
  unfold selectFetchInfoV2
  unfold ReconstructionResponseV2.fetches at run member
  simp only [foldl_flatMap, XorbMultiRangeFetch.entries, foldl_map] at run
  cases fetches : (r.xorbs.lookup t.hash).getD [] with
  | nil =>
    rw [fetches] at member
    cases member
  | cons first rest =>
    rw [fetches] at run
    simp only [run]

section
variable {α : Type} {range : α → ChunkRange} {new : α} {list : List α}

theorem mem_keepLongest {a : α} (member : a ∈ keepLongest range new list) : a = new ∨ a ∈ list := by
  induction list with
  | nil => exact .inl (mem_singleton.mp member)
  | cons old rest ih =>
    rw [keepLongest] at member
    split_ifs at member
    · rcases mem_cons.mp member with rfl | member
      · exact .inl rfl
      · exact .inr (mem_cons_of_mem _ member)
    · exact .inr member
    · rcases mem_cons.mp member with rfl | member
      · exact .inr mem_cons_self
      · exact (ih member).imp_right (mem_cons_of_mem _)

theorem keepLongest_covers (range : α → ChunkRange) {a : α} (member : a = new ∨ a ∈ list) :
    ∃ b ∈ keepLongest range new list, (range b).start = (range a).start ∧ (range a).stop ≤ (range b).stop := by
  induction list with
  | nil =>
    obtain rfl := member.resolve_right nofun
    exact ⟨a, mem_singleton_self a, rfl, le_rfl⟩
  | cons old rest ih =>
    rw [keepLongest]
    split_ifs with same longer
    · rcases member with rfl | member
      · exact ⟨a, mem_cons_self, rfl, le_rfl⟩
      · rcases mem_cons.mp member with rfl | member
        · exact ⟨new, mem_cons_self, same.symm, longer.le⟩
        · exact ⟨a, mem_cons_of_mem _ member, rfl, le_rfl⟩
    · rcases member with rfl | member
      · exact ⟨old, mem_cons_self, same, by omega⟩
      · exact ⟨a, member, rfl, le_rfl⟩
    · by_cases first : a = old
      · subst first
        exact ⟨a, mem_cons_self, rfl, le_rfl⟩
      · obtain ⟨b, kept, covers⟩ := ih (member.imp_right fun m => (mem_cons.mp m).resolve_left first)
        exact ⟨b, mem_cons_of_mem _ kept, covers⟩

end

/-- A map from xorbs to ranges: every range in it has property `P`, and every term of `done` lies in
one of the ranges of its xorb. -/
structure Offers {α : Type} (range : α → ChunkRange) (P : XorbHash → α → Prop)
    (m : AList fun _ : Bytes => List α) (done : List FileDataSequenceEntry) : Prop where
  sound : ∀ hash, ∀ a ∈ (m.lookup (formatHash hash)).getD [], P hash a
  order : ∀ e ∈ done, (entryRange e).start < (entryRange e).stop
  covers : ∀ e ∈ done, ∃ a ∈ (m.lookup (formatHash e.casHash)).getD [],
    (range a).start ≤ (entryRange e).start ∧ (entryRange e).stop ≤ (range a).stop

section
variable {α : Type} {range : α → ChunkRange} {P : XorbHash → α → Prop} {m : AList fun _ : Bytes => List α}
variable {done : List FileDataSequenceEntry}

theorem Offers.empty : Offers range P ∅ [] where
  sound := by simp
  order := nofun
  covers := nofun

theorem Offers.insert (o : Offers range P m done) {e : FileDataSequenceEntry} {a : α} (good : P e.casHash a)
    (chunks : range a = entryRange e) (order : (entryRange e).start < (entryRange e).stop) :
    Offers range P (m.insert (formatHash e.casHash)
      (keepLongest range a ((m.lookup (formatHash e.casHash)).getD []))) (done ++ [e]) := by
  constructor
  case sound =>
    intro hash b member
    by_cases same : formatHash hash = formatHash e.casHash
    · obtain rfl := formatHash_inj same
      rw [lookup_insert, Option.getD_some] at member
      rcases mem_keepLongest member with rfl | member
      · exact good
      · exact o.sound e.casHash b member
    · rw [lookup_insert_ne same] at member
      exact o.sound hash b member
  case order =>
    intro d member
    rcases mem_append.mp member with member | member
    · exact o.order d member
    · obtain rfl := mem_singleton.mp member
      exact order
  case covers =>
    intro d member
    by_cases same : formatHash d.casHash = formatHash e.casHash
    · rw [same, lookup_insert, Option.getD_some]
      rcases mem_append.mp member with member | member
      · obtain ⟨b, held, first, last⟩ := o.covers d member
        rw [same] at held
        obtain ⟨c, kept, start, stop⟩ := keepLongest_covers range (.inr held)
        exact ⟨c, kept, start ▸ first, last.trans stop⟩
      · obtain rfl := mem_singleton.mp member
        obtain ⟨c, kept, start, stop⟩ := keepLongest_covers range (.inl rfl)
        rw [chunks] at start stop
        exact ⟨c, kept, start.le, stop⟩
    · rw [lookup_insert_ne same]
      rcases mem_append.mp member with member | member
      · exact o.covers d member
      · obtain rfl := mem_singleton.mp member
        exact absurd rfl same

theorem Offers.foldlM {ε : Type} {add : FileDataSequenceEntry → (AList fun _ : Bytes => List α) →
      Except ε (AList fun _ : Bytes => List α)} {es : List FileDataSequenceEntry} {m' : AList fun _ : Bytes => List α}
    (step : ∀ e ∈ es, ∀ m m' done, add e m = .ok m' → Offers range P m done → Offers range P m' (done ++ [e]))
    (o : Offers range P m done) (run : es.foldlM (fun m e => add e m) m = .ok m') : Offers range P m' (done ++ es) := by
  induction es generalizing m done with
  | nil =>
    cases run
    rwa [append_nil]
  | cons e rest ih =>
    rw [foldlM_cons, bind_eq_ok] at run
    obtain ⟨next, added, run⟩ := run
    have o' := step e mem_cons_self m next done added o
    rw [append_cons]
    exact ih (fun e member => step e (mem_cons_of_mem _ member)) o' run

end

section
variable {lz4 : Xorb.Lz4} {ε : Type} {xorbs : XorbHash → Option (StoredXorb lz4)}
variable {storage : StorageAdapter ε} {client : Client ε}

/-- Every offered range is the packed bytes of its chunks, and every term lies in one of its xorb. -/
structure Supplies (xorbs : XorbHash → Option (StoredXorb lz4)) (storage : StorageAdapter ε)
    (fetches : Bytes → List FetchInfoEntry) (terms : List Term) : Prop where
  sound : ∀ hash, ∀ f ∈ fetches (formatHash hash), ∃ x, TrueFetch xorbs storage hash x f
  named : ∀ t ∈ terms, ∃ hash, t.hash = formatHash hash
  order : ∀ t ∈ terms, t.range.start < t.range.stop
  covers : ∀ t ∈ terms, ∃ f ∈ fetches t.hash, Covers f t

theorem Supplies.selects {fetches : Bytes → List FetchInfoEntry} {terms : List Term}
    {select : Term → Except PlanError FetchInfoEntry} (supplies : Supplies xorbs storage fetches terms)
    (choose : ∀ t, (∃ f ∈ fetches t.hash, Covers f t) → ∃ f ∈ fetches t.hash, Covers f t ∧ select t = .ok f) :
    ∀ t ∈ terms, ∃ hash x f, Selects xorbs storage select t hash x f := by
  intro t member
  obtain ⟨hash, name⟩ := supplies.named t member
  obtain ⟨f, offered, covers, selected⟩ := choose t (supplies.covers t member)
  obtain ⟨x, fetch⟩ := supplies.sound hash f (name ▸ offered)
  exact ⟨hash, x, f, selected, name, supplies.order t member, fetch, covers⟩

theorem addFetchInfo_offers {e : FileDataSequenceEntry} {m m' : AList fun _ : Bytes => List FetchInfoEntry}
    {done : List FileDataSequenceEntry} (serves : Serves xorbs storage client) (stored : ∃ x, xorbs e.casHash = some x)
    (added : addFetchInfo storage e m = .ok m')
    (o : Offers (·.range) (fun hash f => ∃ x, TrueFetch xorbs storage hash x f) m done) :
    Offers (·.range) (fun hash f => ∃ x, TrueFetch xorbs storage hash x f) m' (done ++ [e]) := by
  obtain ⟨x, stored⟩ := stored
  simp only [addFetchInfo, bind_eq_ok, mapError_eq_ok] at added
  obtain ⟨bytes, packed, url, address, value⟩ := added
  obtain ⟨valid, exact⟩ := packedRange_eq_ok serves stored packed
  cases value
  exact o.insert ⟨x, stored, valid, exact, address⟩ rfl valid.order

def TrueRange (xorbs : XorbHash → Option (StoredXorb lz4)) (hash : XorbHash) (d : XorbRangeDescriptor) : Prop :=
  ∃ x, xorbs hash = some x ∧ x.Valid d.chunks ∧ d.bytes = x.span d.chunks

theorem addFetchRange_offers {e : FileDataSequenceEntry} {m m' : AList fun _ : Bytes => List XorbRangeDescriptor}
    {done : List FileDataSequenceEntry} (serves : Serves xorbs storage client) (stored : ∃ x, xorbs e.casHash = some x)
    (added : addFetchRange storage e m = .ok m') (o : Offers (·.chunks) (TrueRange xorbs) m done) :
    Offers (·.chunks) (TrueRange xorbs) m' (done ++ [e]) := by
  obtain ⟨x, stored⟩ := stored
  simp only [addFetchRange, bind_eq_ok] at added
  obtain ⟨bytes, packed, value⟩ := added
  obtain ⟨valid, exact⟩ := packedRange_eq_ok serves stored packed
  cases value
  exact o.insert ⟨x, stored, valid, exact⟩ rfl valid.order

theorem attachURLs_lookup {list : List (Sigma fun _ : Bytes => List XorbRangeDescriptor)}
    {m : AList fun _ : Bytes => List XorbMultiRangeFetch} (attached : attachURLs storage list = .ok m) (name : Bytes) :
    (∃ ranges url, list.dlookup name = some ranges ∧
      storage.getXorbURL ((parseHash name).toOption.getD Hash.zero) = .ok url ∧ m.lookup name = some [⟨url, ranges⟩]) ∨
    (list.dlookup name = none ∧ m.lookup name = none) := by
  induction list generalizing m with
  | nil =>
    cases attached
    exact .inr ⟨rfl, rfl⟩
  | cons first rest ih =>
    obtain ⟨other, ranges⟩ := first
    simp only [attachURLs, bind_eq_ok, mapError_eq_ok] at attached
    obtain ⟨url, address, others, tail, value⟩ := attached
    cases value
    by_cases same : other = name
    · subst same
      exact .inl ⟨ranges, url, dlookup_cons_eq .., address, lookup_insert ..⟩
    · rw [dlookup_cons_ne _ _ (Ne.symm same), lookup_insert_ne (Ne.symm same)]
      exact ih tail

theorem Offers.supplies {α : Type} {range : α → ChunkRange} {P : XorbHash → α → Prop}
    {m : AList fun _ : Bytes => List α} {es : List FileDataSequenceEntry} {fetches : Bytes → List FetchInfoEntry}
    (o : Offers range P m es)
    (only : ∀ hash, ∀ f ∈ fetches (formatHash hash), ∃ a ∈ (m.lookup (formatHash hash)).getD [],
      P hash a → ∃ x, TrueFetch xorbs storage hash x f)
    (each : ∀ hash, ∀ a ∈ (m.lookup (formatHash hash)).getD [], ∃ f ∈ fetches (formatHash hash), f.range = range a) :
    Supplies xorbs storage fetches (es.map entryTerm) := by
  constructor
  case sound =>
    intro hash f offered
    obtain ⟨a, held, fetch⟩ := only hash f offered
    exact fetch (o.sound hash a held)
  case named =>
    intro t member
    obtain ⟨e, -, rfl⟩ := mem_map.mp member
    exact ⟨e.casHash, rfl⟩
  case order =>
    intro t member
    obtain ⟨e, inside, rfl⟩ := mem_map.mp member
    exact o.order e inside
  case covers =>
    intro t member
    obtain ⟨e, inside, rfl⟩ := mem_map.mp member
    obtain ⟨a, held, first, last⟩ := o.covers e inside
    obtain ⟨f, offered, chunks⟩ := each e.casHash a held
    rw [← chunks] at first last
    exact ⟨f, offered, first, last⟩

theorem Offers.supplies_attached {ranges : AList fun _ : Bytes => List XorbRangeDescriptor}
    {m : AList fun _ : Bytes => List XorbMultiRangeFetch} {es : List FileDataSequenceEntry} (offset : Int)
    (o : Offers (·.chunks) (TrueRange xorbs) ranges es) (attached : attachURLs storage ranges.entries = .ok m) :
    Supplies xorbs storage (ReconstructionResponseV2.fetches ⟨offset, es.map entryTerm, m⟩) (es.map entryTerm) := by
  apply o.supplies
  · intro hash f offered
    rcases attachURLs_lookup attached (formatHash hash) with ⟨rs, url, held, address, found⟩ | ⟨-, missing⟩
    · rw [parseHash_formatHash] at address
      simp only [ReconstructionResponseV2.fetches, found, Option.getD_some, flatMap_singleton,
        XorbMultiRangeFetch.entries, mem_map] at offered
      obtain ⟨d, member, rfl⟩ := offered
      refine ⟨d, ?_, fun ⟨x, stored, valid, exact⟩ => ⟨x, stored, valid, exact, address⟩⟩
      rwa [AList.lookup, held]
    · simp [ReconstructionResponseV2.fetches, missing] at offered
  · intro hash d held
    rcases attachURLs_lookup attached (formatHash hash) with ⟨rs, url, there, -, found⟩ | ⟨missing, -⟩
    · rw [AList.lookup, there] at held
      refine ⟨⟨d.chunks, url, d.bytes⟩, ?_, rfl⟩
      simp only [ReconstructionResponseV2.fetches, found, Option.getD_some, flatMap_singleton,
        XorbMultiRangeFetch.entries, mem_map]
      exact ⟨d, held, rfl⟩
    · rw [AList.lookup, missing] at held
      cases held

end

end Xet.Download
