import Xet.Lib.Marks
import Xet.Storage.ListUsage

/-! The passes over all entries. A chunk is counted, and an entry is charged for it, each time that a
pass meets it without the mark of the entry. -/
namespace Xet.Storage
open Wire List XorbUsage AList Int32 Nat ChunkTerm Marks

namespace Usage

def xorb (usage : Usage) (hash : XorbHash) : XorbUsage := (usage.lookup hash).getD .empty

def lastAt (usage : Usage) (p : ChunkAt) : Int32 := (usage.xorb p.1).lastAt p.2

def distinctAt (usage : Usage) (p : ChunkAt) : UInt32 := (usage.xorb p.1).distinctAt p.2

theorem xorb_insert (usage : Usage) (hash other : XorbHash) (u : XorbUsage) :
    Usage.xorb (usage.insert hash u) other = if other = hash then u else usage.xorb other := by
  rw [xorb]
  by_cases here : other = hash
  · subst here
    rw [lookup_insert, if_pos rfl]
    rfl
  · rw [lookup_insert_ne here, if_neg here]
    rfl

end Usage

/-- A pass of entry `e` over some chunks marks them, and counts those without the mark. -/
structure CountsOver (e : Int32) (chunks : Finset ChunkAt) (usage usage' : Usage) : Prop where
  last : ∀ p, usage'.lastAt p = if p ∈ chunks then e else usage.lastAt p
  distinct : ∀ p, usage'.distinctAt p =
    if p ∈ chunks ∧ usage.lastAt p ≠ e then usage.distinctAt p + 1 else usage.distinctAt p

namespace CountsOver

variable {e : Int32} {usage usage' usage'' : Usage} {chunks more : Finset ChunkAt}

theorem refl (e : Int32) (usage : Usage) : CountsOver e ∅ usage usage := ⟨fun p => by simp, fun p => by simp⟩

theorem trans (first : CountsOver e chunks usage usage') (second : CountsOver e more usage' usage'') :
    CountsOver e (chunks ∪ more) usage usage'' := by
  constructor
  · intro p
    rw [second.last, first.last]
    by_cases again : p ∈ more <;> simp [again]
  · intro p
    rw [second.distinct, first.distinct, first.last]
    by_cases here : p ∈ chunks
    · simp [here]
    · simp [here]

end CountsOver

theorem countTerm_counts (e : Int32) (usage : Usage) (t : ChunkTerm) :
    CountsOver e t.chunks usage (countTerm e usage t) := by
  have order := t.order
  have counted := count_counted (e := e) (u := (usage.xorb t.hash).grow t.stop) (t.stop - t.start) t.start
    (by rw [grow_length]; omega)
  constructor
  · intro p
    rw [Usage.lastAt, countTerm, Usage.xorb_insert]
    by_cases here : p.1 = t.hash
    · rw [if_pos here]
      refine (counted.last p.2).trans (if_congr ?_ rfl ?_)
      · rw [mem_chunks, and_iff_right here]
        omega
      · rw [lastAt_grow, Usage.lastAt, here]
    · rw [if_neg here, if_neg (fun inside => here (mem_chunks.mp inside).1)]
      rfl
  · intro p
    rw [Usage.distinctAt, countTerm, Usage.xorb_insert]
    by_cases here : p.1 = t.hash
    · rw [if_pos here]
      refine (counted.distinct p.2).trans (if_congr ?_ ?_ ?_)
      · rw [mem_chunks, and_iff_right here, lastAt_grow, Usage.lastAt, here]
        exact and_congr_left fun _ => by omega
      · rw [distinctAt_grow, Usage.distinctAt, here]
      · rw [distinctAt_grow, Usage.distinctAt, here]
    · rw [if_neg here, if_neg (fun inside => here (mem_chunks.mp inside.1).1)]
      rfl

theorem countTerms_counts (e : Int32) (terms : List ChunkTerm) (usage : Usage) :
    CountsOver e (chunksOf terms) usage (terms.foldl (countTerm e) usage) := by
  induction terms generalizing usage with
  | nil => exact .refl e usage
  | cons t rest ih =>
    rw [chunksOf_cons]
    exact (countTerm_counts e usage t).trans (ih _)

theorem countUsage_distinct (entryTerms : List (List ChunkTerm)) (e : Nat) (usage : Usage) (p : ChunkAt) :
    (countUsage e entryTerms usage).distinctAt p = usage.distinctAt p +
      UInt32.ofNat (changes (usage.lastAt p) ((holders e (entryTerms.map chunksOf) p).map ofNat)) := by
  induction entryTerms generalizing e usage with
  | nil => exact (UInt32.add_zero _).symm
  | cons terms rest ih =>
    have counts := countTerms_counts (ofNat e) terms usage
    rw [countUsage, ih, counts.distinct, counts.last, map_cons]
    by_cases inside : p ∈ chunksOf terms
    · rw [holders_cons_of_mem inside, map_cons, changes, if_pos inside]
      by_cases marked : usage.lastAt p = ofNat e
      · rw [if_neg fun fresh => fresh.2 marked, if_pos marked, Nat.zero_add]
      · rw [if_pos ⟨inside, marked⟩, if_neg marked, UInt32.ofNat_add, UInt32.add_assoc]
        rfl
    · rw [holders_cons_of_notMem inside, if_neg inside, if_neg fun fresh => inside fresh.1]

def Usage.room (usage : Usage) (hash : XorbHash) : Nat := (usage.xorb hash).last.length

theorem countTerm_room (e : Int32) (usage : Usage) (t : ChunkTerm) (hash : XorbHash) :
    (countTerm e usage t).room hash = if hash = t.hash then max (usage.room t.hash) t.stop else usage.room hash := by
  have order := t.order
  rw [Usage.room, countTerm, Usage.xorb_insert]
  split
  · have counted := count_counted (e := e) (u := (usage.xorb t.hash).grow t.stop) (t.stop - t.start) t.start
      (by rw [grow_length]; omega)
    exact counted.length.trans (grow_length _)
  · rfl

theorem countTerms_room_le (e : Int32) (terms : List ChunkTerm) (usage : Usage) (hash : XorbHash) :
    usage.room hash ≤ Usage.room (terms.foldl (countTerm e) usage) hash := by
  induction terms generalizing usage with
  | nil => exact le_rfl
  | cons t rest ih =>
    refine le_trans ?_ (ih (countTerm e usage t))
    rw [countTerm_room]
    split
    · rename_i here
      exact here ▸ le_max_left _ _
    · exact le_rfl

theorem countTerms_room (e : Int32) {terms : List ChunkTerm} {t : ChunkTerm} (member : t ∈ terms) (usage : Usage) :
    t.stop ≤ Usage.room (terms.foldl (countTerm e) usage) t.hash := by
  induction terms generalizing usage with
  | nil => cases member
  | cons first rest ih =>
    cases member with
    | head =>
      refine le_trans ?_ (countTerms_room_le e rest (countTerm e usage t) t.hash)
      rw [countTerm_room, if_pos rfl]
      exact le_max_right _ _
    | tail _ member => exact ih member _

theorem countUsage_room_le (entryTerms : List (List ChunkTerm)) (e : Nat) (usage : Usage) (hash : XorbHash) :
    usage.room hash ≤ (countUsage e entryTerms usage).room hash := by
  induction entryTerms generalizing e usage with
  | nil => exact le_rfl
  | cons terms rest ih => exact (countTerms_room_le _ terms usage hash).trans (ih _ _)

theorem countUsage_room {entryTerms : List (List ChunkTerm)} {terms : List ChunkTerm} {t : ChunkTerm}
    (entry : terms ∈ entryTerms) (member : t ∈ terms) (e : Nat) (usage : Usage) :
    t.stop ≤ (countUsage e entryTerms usage).room t.hash := by
  induction entryTerms generalizing e usage with
  | nil => cases entry
  | cons first rest ih =>
    cases entry with
    | head => exact (countTerms_room _ member usage).trans (countUsage_room_le rest _ _ _)
    | tail _ entry => exact ih entry _ _

theorem mem_countTerms (e : Int32) (terms : List ChunkTerm) (usage : Usage) (hash : XorbHash) :
    hash ∈ terms.foldl (countTerm e) usage ↔ hash ∈ usage ∨ ∃ t ∈ terms, t.hash = hash := by
  induction terms generalizing usage with
  | nil => simp
  | cons t rest ih =>
    rw [foldl_cons, ih, countTerm, mem_insert, exists_mem_cons_iff]
    constructor
    · rintro ((rfl | old) | new)
      · exact .inr (.inl rfl)
      · exact .inl old
      · exact .inr (.inr new)
    · rintro (old | rfl | new)
      · exact .inl (.inr old)
      · exact .inl (.inl rfl)
      · exact .inr new

theorem mem_countUsage (entryTerms : List (List ChunkTerm)) (e : Nat) (usage : Usage) (hash : XorbHash) :
    hash ∈ countUsage e entryTerms usage ↔ hash ∈ usage ∨ ∃ t ∈ entryTerms.flatten, t.hash = hash := by
  induction entryTerms generalizing e usage with
  | nil => simp [countUsage]
  | cons terms rest ih =>
    rw [countUsage, ih, mem_countTerms, or_assoc]
    simp only [flatten_cons, mem_append, or_and_right, exists_or]

theorem resetUsage_cons (hash : XorbHash) (rest : List XorbHash) (usage : Usage) :
    ∃ usage' : Usage, resetUsage usage (hash :: rest) = resetUsage usage' rest ∧
      ∀ other, usage'.xorb other = if other = hash then (usage.xorb hash).reset else usage.xorb other := by
  refine ⟨_, rfl, fun other => ?_⟩
  dsimp only
  cases found : usage.lookup hash with
  | none =>
    have blank : usage.xorb hash = .empty := by rw [Usage.xorb, found]; rfl
    dsimp only
    split
    · rename_i here
      rw [here, blank]
      rfl
    · rfl
  | some u =>
    have there : usage.xorb hash = u := by rw [Usage.xorb, found]; rfl
    dsimp only
    rw [Usage.xorb_insert, there]

theorem resetUsage_spec (hashes : List XorbHash) (usage : Usage) :
    (∀ p, (resetUsage usage hashes).lastAt p = if p.1 ∈ hashes then -1 else usage.lastAt p) ∧
    (∀ p, (resetUsage usage hashes).distinctAt p = usage.distinctAt p) ∧
    ∀ hash, (resetUsage usage hashes).room hash = usage.room hash := by
  induction hashes generalizing usage with
  | nil => exact ⟨fun p => by simp [resetUsage], fun _ => rfl, fun _ => rfl⟩
  | cons first rest ih =>
    obtain ⟨usage', same, xorbs⟩ := resetUsage_cons first rest usage
    obtain ⟨last, distinct, room⟩ := ih usage'
    rw [same]
    refine ⟨fun p => ?_, fun p => ?_, fun hash => ?_⟩
    · rw [last, Usage.lastAt, xorbs]
      by_cases here : p.1 = first
      · simp [here]
      · simp [here, Usage.lastAt]
    · rw [distinct, Usage.distinctAt, xorbs]
      split
      · rename_i here
        rw [Usage.distinctAt, here]
        rfl
      · rfl
    · rw [room, Usage.room, xorbs]
      split
      · rename_i here
        rw [reset_length, here]
        rfl
      · rfl

theorem lastAt_of_notMem {usage : Usage} {p : ChunkAt} (absent : p.1 ∉ usage) : usage.lastAt p = -1 := by
  rw [Usage.lastAt, Usage.xorb, lookup_eq_none.mpr absent]
  rfl

section
variable {ε : Type} (offsets : Tables)

def Tables.table (hash : XorbHash) : List Nat := (offsets.lookup hash).getD []

def Tables.satisfiable (terms : List ChunkTerm) : List ChunkTerm :=
  terms.filter fun t => t.stop ≤ (offsets.table t.hash).length

def Tables.packed (p : ChunkAt) : Int := packedAt (offsets.table p.1) p.2

/-- What a pass of entry `e` over some chunks charges as shared, or as unique. -/
def chargeOver (e : Int32) (usage : Usage) (shared : Bool) (chunks : Finset ChunkAt) : Int :=
  ∑ p ∈ chunks with usage.lastAt p ≠ e ∧ decide (1 < usage.distinctAt p) = shared, offsets.packed p

structure MarksOver (e : Int32) (chunks : Finset ChunkAt) (usage usage' : Usage) : Prop where
  last : ∀ p, usage'.lastAt p = if p ∈ chunks then e else usage.lastAt p
  distinct : ∀ p, usage'.distinctAt p = usage.distinctAt p
  room : ∀ hash, usage'.room hash = usage.room hash

variable {offsets} {e : Int32} {usage usage' usage'' : Usage} {chunks more : Finset ChunkAt}

theorem MarksOver.refl (e : Int32) (usage : Usage) : MarksOver e ∅ usage usage :=
  ⟨fun p => by simp, fun _ => rfl, fun _ => rfl⟩

theorem MarksOver.trans (first : MarksOver e chunks usage usage') (second : MarksOver e more usage' usage'') :
    MarksOver e (chunks ∪ more) usage usage'' where
  last p := by
    rw [second.last, first.last]
    by_cases again : p ∈ more <;> simp [again]
  distinct p := (second.distinct p).trans (first.distinct p)
  room hash := (second.room hash).trans (first.room hash)

theorem chargeOver_union (first : MarksOver e chunks usage usage') (shared : Bool) :
    chargeOver offsets e usage shared (chunks ∪ more) =
      chargeOver offsets e usage shared chunks + chargeOver offsets e usage' shared more := by
  have rest : more.filter (fun p => usage'.lastAt p ≠ e ∧ decide (1 < usage'.distinctAt p) = shared) =
      (more \ chunks).filter fun p => usage.lastAt p ≠ e ∧ decide (1 < usage.distinctAt p) = shared := by
    ext p
    rw [Finset.mem_filter, Finset.mem_filter, Finset.mem_sdiff, first.last, first.distinct]
    by_cases inside : p ∈ chunks <;> simp [inside]
  rw [chargeOver, chargeOver, chargeOver, rest, ← Finset.sum_union (Finset.disjoint_filter_filter Finset.disjoint_sdiff),
    ← Finset.filter_union, Finset.union_sdiff_self_eq_union]

theorem chargeOver_chunks (t : ChunkTerm) (shared : Bool) : chargeOver offsets e usage shared t.chunks =
    charge (offsets.table t.hash) e (usage.xorb t.hash) shared t.start t.stop := by
  rw [chargeOver, charge, charged, Finset.sum_filter, Finset.sum_filter, ChunkTerm.chunks, Finset.sum_product,
    Finset.sum_singleton]
  rfl

theorem sizeTerm_ok (offsets : Tables) {t : ChunkTerm} (room : t.stop ≤ usage.room t.hash) (s : Sizes) :
    ∃ usage', sizeTerm (ε := ε) offsets e (usage, s) t =
        .ok (usage', s.plus (chargeOver offsets e usage false (chunksOf (offsets.satisfiable [t])))
          (chargeOver offsets e usage true (chunksOf (offsets.satisfiable [t])))) ∧
      MarksOver e (chunksOf (offsets.satisfiable [t])) usage usage' := by
  rw [sizeTerm]
  dsimp only
  by_cases short : (offsets.table t.hash).length < t.stop
  · have none : offsets.satisfiable [t] = [] := by simp [Tables.satisfiable, short]
    rw [none]
    exact ⟨usage, (if_pos short).trans (by simp [chargeOver, chunksOf]), .refl e usage⟩
  · have only : chunksOf (offsets.satisfiable [t]) = t.chunks := by
      simp [Tables.satisfiable, not_lt.mp short, chunksOf]
    obtain ⟨u', sized, passed⟩ := sizeChunks_ok (ε := ε) (e := e) (u := usage.xorb t.hash) t.hash (not_lt.mp short)
      (t.stop - t.start) t.start s le_rfl room
    refine ⟨usage.insert t.hash u', ?_, ?_⟩
    · rw [only, chargeOver_chunks, chargeOver_chunks]
      refine (if_neg short).trans ?_
      rw [show sizeChunks t.hash ((offsets.lookup t.hash).getD []) e t.stop (t.stop - t.start) t.start
        ((usage.lookup t.hash).getD .empty) s = _ from sized]
      rfl
    · rw [only]
      constructor
      · intro p
        rw [Usage.lastAt, Usage.xorb_insert]
        by_cases here : p.1 = t.hash
        · rw [if_pos here, passed.last]
          exact if_congr (by rw [mem_chunks, and_iff_right here]) rfl (by rw [Usage.lastAt, here])
        · rw [if_neg here, if_neg fun inside => here (mem_chunks.mp inside).1]
          rfl
      · intro p
        rw [Usage.distinctAt, Usage.xorb_insert]
        split
        · rename_i here
          rw [passed.distinct, Usage.distinctAt, here]
        · rfl
      · intro hash
        rw [Usage.room, Usage.xorb_insert]
        split
        · rename_i here
          rw [passed.length, here]
          rfl
        · rfl

theorem satisfiable_cons (t : ChunkTerm) (terms : List ChunkTerm) :
    chunksOf (offsets.satisfiable (t :: terms)) =
      chunksOf (offsets.satisfiable [t]) ∪ chunksOf (offsets.satisfiable terms) := by
  ext p
  simp only [Finset.mem_union, mem_chunksOf, Tables.satisfiable, mem_filter, mem_cons, not_mem_nil, or_false,
    or_and_right, exists_or]

theorem sizeTerms_ok (offsets : Tables) (terms : List ChunkTerm) (room : ∀ t ∈ terms, t.stop ≤ usage.room t.hash) (s : Sizes) :
    ∃ usage', terms.foldlM (sizeTerm (ε := ε) offsets e) (usage, s) =
        .ok (usage', s.plus (chargeOver offsets e usage false (chunksOf (offsets.satisfiable terms)))
          (chargeOver offsets e usage true (chunksOf (offsets.satisfiable terms)))) ∧
      MarksOver e (chunksOf (offsets.satisfiable terms)) usage usage' := by
  induction terms generalizing usage s with
  | nil => exact ⟨usage, by simp [chargeOver, chunksOf, Tables.satisfiable]; rfl, .refl e usage⟩
  | cons t rest ih =>
    obtain ⟨first, sized, marks⟩ := sizeTerm_ok (ε := ε) (e := e) offsets (room t mem_cons_self) s
    have roomRest : ∀ t ∈ rest, t.stop ≤ first.room t.hash := fun t member => by
      rw [marks.room]
      exact room t (mem_cons_of_mem _ member)
    obtain ⟨last, sizedRest, marksRest⟩ := ih roomRest _
    refine ⟨last, ?_, ?_⟩
    · rw [foldlM_cons, sized, ok_bind, sizedRest, Sizes.plus_plus, satisfiable_cons t rest, ← chargeOver_union marks,
        ← chargeOver_union marks]
    · rw [satisfiable_cons t rest]
      exact marks.trans marksRest

/-- The bytes of the chunks that are counted more than once, or of the others. -/
def storedBytes (offsets : Tables) (usage : Usage) (shared : Bool) (chunks : Finset ChunkAt) : Int :=
  ∑ p ∈ chunks with decide (1 < usage.distinctAt p) = shared, offsets.packed p

def withSizes (offsets : Tables) (usage : Usage) (entry : FileListEntry) (chunks : Finset ChunkAt) : FileListEntry :=
  { entry with
    uniqueSize := UInt64.ofInt (storedBytes offsets usage false chunks)
    sharedSize := UInt64.ofInt (storedBytes offsets usage true chunks) }

theorem sizeEntries_ok (entries : List FileListEntry) (entryTerms : List (List ChunkTerm)) (e : Nat)
    (same : entries.length = entryTerms.length)
    (room : ∀ terms ∈ entryTerms, ∀ t ∈ terms, t.stop ≤ usage.room t.hash) :
    sizeEntries (ε := ε) offsets e usage entries entryTerms = .ok (List.zipWith (withSizes offsets usage) entries
      (met ofNat e usage.lastAt (entryTerms.map fun terms => chunksOf (offsets.satisfiable terms)))) := by
  induction entryTerms generalizing e usage entries with
  | nil =>
    cases entries with
    | nil => rfl
    | cons entry rest => cases same
  | cons terms rest ih =>
    cases entries with
    | nil => cases same
    | cons entry entries =>
      obtain ⟨usage', sized, marks⟩ := sizeTerms_ok (ε := ε) (e := ofNat e) offsets terms
        (room terms mem_cons_self) ⟨0, 0⟩
      have counts : withSizes offsets usage' = withSizes offsets usage := by
        funext entry terms
        simp only [withSizes, storedBytes, marks.distinct]
      have charges : ∀ shared, chargeOver offsets (ofNat e) usage shared (chunksOf (offsets.satisfiable terms)) =
          storedBytes offsets usage shared
            ((chunksOf (offsets.satisfiable terms)).filter fun p => usage.lastAt p ≠ ofNat e) := by
        intro shared
        rw [chargeOver, storedBytes, Finset.filter_filter]
      rw [sizeEntries, sized, ok_bind]
      dsimp only
      rw [ih entries (e + 1) (succ.inj same)
        (fun terms member t inside => by rw [marks.room]; exact room terms (mem_cons_of_mem _ member) t inside),
        ok_bind, counts, charges, charges, map_cons, met, zipWith_cons_cons, ← funext marks.last]
      simp only [Sizes.plus, UInt64.zero_add]
      rfl

end

end Xet.Storage
