import Xet.Client.Hub

/-! Resolve keys: the repository, revision and path of a download path. A repository name may hold
copies of the separator, so the split is the first one that leaves a revision and a path. -/
namespace Xet.Mirror
open Wire Text Client List Nat

structure ResolveKey where
  repo : Bytes
  rev : Bytes
  path : Bytes
  deriving DecidableEq

def ResolveKey.string (k : ResolveKey) : Bytes := slash :: (k.repo ++ (resolveSep ++ (k.rev ++ slash :: k.path)))

/-- The key with the separator at place `i`, if a revision and a path follow. -/
def keyAt (p : Bytes) (i : Nat) : Option ResolveKey :=
  match cut [slash] (p.drop (i + resolveSep.length)) with
  | some (rev, path) => if rev ≠ [] ∧ path ≠ [] then some ⟨(p.take i).drop 1, rev, path⟩ else none
  | none => none

def searchKey (p : Bytes) : Nat → Nat → Option ResolveKey
  | 0, _ => none
  | fuel + 1, start =>
    if p.length < start then none
    else
      match index resolveSep (p.drop start) with
      | none => none
      | some i =>
        match keyAt p (start + i) with
        | some k => some k
        | none => searchKey p fuel (start + i + 1)

def parseResolveKey (p : Bytes) : Option ResolveKey :=
  if [slash].isPrefixOf p then searchKey p p.length 2 else none

structure Split (p : Bytes) (k : ResolveKey) : Prop where
  shape : p = k.string
  repo : k.repo ≠ []
  rev : k.rev ≠ []
  plain : slash ∉ k.rev
  path : k.path ≠ []

variable {p : Bytes}

theorem at_drop {sep : Bytes} {start i : Nat} : At sep (p.drop start) i ↔ At sep p (start + i) := by
  rw [At, At, drop_drop]

variable {k : ResolveKey}

theorem keyAt_eq_some {i : Nat} : keyAt p i = some k ↔
    p.drop (i + resolveSep.length) = k.rev ++ slash :: k.path ∧ slash ∉ k.rev ∧ k.rev ≠ [] ∧ k.path ≠ [] ∧
      (p.take i).drop 1 = k.repo := by
  rw [keyAt]
  split
  · rename_i rev path found
    obtain ⟨shape, plain⟩ := cut_letter.mp found
    constructor
    · intro result
      split at result
      · rename_i both
        cases result
        exact ⟨shape, plain, both.1, both.2, rfl⟩
      · cases result
    · rintro ⟨shape', plain', rev', path', repo⟩
      have same : some (rev, path) = some (k.rev, k.path) := found.symm.trans (cut_letter.mpr ⟨shape', plain'⟩)
      cases same
      rw [if_pos ⟨rev', path'⟩, repo]
  · rename_i missing
    refine ⟨nofun, ?_⟩
    rintro ⟨shape, plain, -⟩
    cases missing.symm.trans (cut_letter.mpr ⟨shape, plain⟩)

theorem split_iff : Split p k ↔ [slash].isPrefixOf p = true ∧ k.repo ≠ [] ∧
    At resolveSep p (k.repo.length + 1) ∧ keyAt p (k.repo.length + 1) = some k := by
  constructor
  · rintro ⟨rfl, repo, rev, plain, path⟩
    have shape : k.string = (slash :: k.repo) ++ (resolveSep ++ (k.rev ++ slash :: k.path)) := rfl
    refine ⟨rfl, repo, ?_, ?_⟩
    · rw [shape]
      exact at_append (slash :: k.repo) _
    · refine keyAt_eq_some.mpr ⟨?_, plain, rev, path, ?_⟩
      · rw [shape, ← drop_drop]
        exact (congrArg (List.drop _) (drop_left' rfl)).trans (drop_left' rfl)
      · have front : k.string.take (k.repo.length + 1) = slash :: k.repo :=
          congrArg (List.cons slash) (take_left' rfl)
        rw [front]
        rfl
  · rintro ⟨first, repo, there, key⟩
    obtain ⟨after, plain, rev, path, before⟩ := keyAt_eq_some.mp key
    refine ⟨?_, repo, rev, plain, path⟩
    obtain ⟨rest, rfl⟩ := isPrefixOf_iff_prefix.mp first
    have shape := there.split
    rw [after] at shape
    have front : ([slash] ++ rest).take (k.repo.length + 1) = slash :: k.repo := congrArg (List.cons slash) before
    rw [front] at shape
    exact shape

theorem searchKey_spec (p : Bytes) (fuel start : Nat) (enough : p.length < fuel + start) :
    (∃ i k, searchKey p fuel start = some k ∧ start ≤ i ∧ At resolveSep p i ∧ keyAt p i = some k ∧
      ∀ j, start ≤ j → j < i → At resolveSep p j → keyAt p j = none) ∨
    (searchKey p fuel start = none ∧ ∀ j, start ≤ j → At resolveSep p j → keyAt p j = none) := by
  have nonempty : resolveSep ≠ [] := cons_ne_nil _ _
  have outside : ∀ {start j}, p.length < start → start ≤ j → ¬ At resolveSep p j := fun past later there => by
    have bound := there.le_length nonempty
    omega
  induction fuel generalizing start with
  | zero => exact .inr ⟨rfl, fun j later there => absurd there (outside (by omega) later)⟩
  | succ fuel ih =>
    rw [searchKey]
    split
    · rename_i past
      exact .inr ⟨rfl, fun j later there => absurd there (outside past later)⟩
    · cases found : index resolveSep (p.drop start) with
      | none =>
        refine .inr ⟨rfl, fun j later there => absurd (at_drop.mpr ?_) (index_eq_none.mp found (j - start))⟩
        rwa [Nat.add_sub_cancel' later]
      | some i =>
        obtain ⟨there, first⟩ := index_eq_some.mp found
        have there := at_drop.mp there
        -- no place of the separator lies between `start` and this one
        have between : ∀ j, start ≤ j → j < start + i → ¬ At resolveSep p j := fun j later before occurs =>
          first (j - start) (by omega) (at_drop.mpr (by rwa [Nat.add_sub_cancel' later]))
        dsimp only
        cases key : keyAt p (start + i) with
        | some k =>
          exact .inl ⟨start + i, k, rfl, by omega, there, key, fun j later before occurs =>
            absurd occurs (between j later before)⟩
        | none =>
          have upTo : ∀ j, start ≤ j → j < start + i + 1 → At resolveSep p j → keyAt p j = none := by
            intro j later before occurs
            rcases Nat.lt_succ_iff_lt_or_eq.mp before with less | rfl
            · exact absurd occurs (between j later less)
            · exact key
          rcases ih (start + i + 1) (by omega) with ⟨i', k, result, later', there', key', before'⟩ | ⟨result, none'⟩
          · refine .inl ⟨i', k, result, by omega, there', key', fun j later before occurs => ?_⟩
            by_cases early : j < start + i + 1
            · exact upTo j later early occurs
            · exact before' j (Nat.not_lt.mp early) before occurs
          · refine .inr ⟨result, fun j later occurs => ?_⟩
            by_cases early : j < start + i + 1
            · exact upTo j later early occurs
            · exact none' j (Nat.not_lt.mp early) occurs

theorem repo_length {i : Nat} (there : At resolveSep p i) (key : keyAt p i = some k) (later : 1 ≤ i) :
    i = k.repo.length + 1 := by
  have bound := there.le_length (cons_ne_nil _ _)
  obtain ⟨-, -, -, -, before⟩ := keyAt_eq_some.mp key
  rw [← before, length_drop, length_take]
  omega

theorem parseResolveKey_eq_some : parseResolveKey p = some k ↔
    Split p k ∧ ∀ k', Split p k' → k.repo.length ≤ k'.repo.length := by
  have place : ∀ {k' : ResolveKey}, k'.repo ≠ [] → 2 ≤ k'.repo.length + 1 := fun {k'} repo => by
    have := length_pos_iff.mpr repo
    omega
  by_cases first : [slash].isPrefixOf p = true
  · rw [parseResolveKey, if_pos first]
    rcases searchKey_spec p p.length 2 (by omega) with ⟨i, k₀, result, later, there, key, before⟩ | ⟨result, none⟩
    · have length := repo_length there key (by omega)
      have repo : k₀.repo ≠ [] := length_pos_iff.mp (by omega)
      have split : Split p k₀ := split_iff.mpr ⟨first, repo, length ▸ there, length ▸ key⟩
      have least : ∀ k', Split p k' → k₀.repo.length ≤ k'.repo.length := by
        intro k' other
        obtain ⟨-, repo', there', key'⟩ := split_iff.mp other
        by_contra shorter
        cases (before (k'.repo.length + 1) (place repo') (by omega) there').symm.trans key'
      rw [result]
      constructor
      · rintro ⟨⟩
        exact ⟨split, least⟩
      · rintro ⟨other, least'⟩
        have same : k.repo.length = k₀.repo.length := le_antisymm (least' k₀ split) (least k other)
        obtain ⟨-, -, -, key'⟩ := split_iff.mp other
        rw [same, ← length, key] at key'
        exact key'
    · rw [result]
      refine ⟨nofun, ?_⟩
      rintro ⟨other, -⟩
      obtain ⟨-, repo', there', key'⟩ := split_iff.mp other
      cases (none _ (place repo') there').symm.trans key'
  · rw [parseResolveKey, if_neg first]
    refine ⟨nofun, ?_⟩
    rintro ⟨other, -⟩
    exact absurd (split_iff.mp other).1 first

theorem parseResolveKey_isSome : (parseResolveKey p).isSome = true ↔ ∃ k, Split p k := by
  constructor
  · intro some
    obtain ⟨k, parsed⟩ := Option.isSome_iff_exists.mp some
    exact ⟨k, (parseResolveKey_eq_some.mp parsed).1⟩
  · rintro ⟨k, split⟩
    classical
    have exists_length : ∃ n k, Split p k ∧ k.repo.length = n := ⟨_, k, split, rfl⟩
    obtain ⟨k₀, split₀, length⟩ := Nat.find_spec exists_length
    refine Option.isSome_iff_exists.mpr ⟨k₀, parseResolveKey_eq_some.mpr ⟨split₀, fun k' other => ?_⟩⟩
    rw [length]
    exact Nat.find_min' exists_length ⟨k', other, rfl⟩

theorem first_slash {d rev path x y : Bytes} (shape : d ++ slash :: x = rev ++ slash :: path) (plain : slash ∉ rev)
    (nonempty : y ≠ []) : ∃ rest, d ++ slash :: y = rev ++ slash :: rest ∧ rest ≠ [] := by
  rcases append_eq_append_iff.mp shape with ⟨e, rfl, tail⟩ | ⟨e, rfl, tail⟩
  · cases e with
    | nil => exact ⟨y, by simp, nonempty⟩
    | cons c e =>
      cases tail
      exact absurd (mem_append_right d mem_cons_self) plain
  · cases e with
    | nil => exact ⟨y, by simp, nonempty⟩
    | cons c e =>
      cases tail
      exact ⟨e ++ slash :: y, by simp, by simp⟩

theorem Split.earlier {repo x y : Bytes} (split : Split (slash :: (repo ++ (resolveSep ++ x))) k)
    (shorter : k.repo.length < repo.length) (nonempty : y ≠ []) :
    ∃ k', Split (slash :: (repo ++ (resolveSep ++ y))) k' ∧ k'.repo = k.repo := by
  obtain ⟨shape, repo', rev', plain', -⟩ := split
  have tails : repo ++ (resolveSep ++ x) = k.repo ++ (resolveSep ++ (k.rev ++ slash :: k.path)) :=
    cons_inj_right _ |>.mp shape
  rcases append_eq_append_iff.mp tails with ⟨d, longer, -⟩ | ⟨d, rfl, rest⟩
  · rw [longer, length_append] at shorter
    omega
  have later : d ≠ [] := by
    rintro rfl
    simp at shorter
  obtain ⟨e, front⟩ := separator_before later rest.symm
  have behind : ∀ z, d ++ (resolveSep ++ z) = resolveSep ++ ((e ++ resolveWord) ++ slash :: z) := fun z =>
    calc d ++ (resolveSep ++ z) = (d ++ [slash]) ++ (resolveWord ++ slash :: z) := by simp [resolveSep]
      _ = resolveSep ++ ((e ++ resolveWord) ++ slash :: z) := by simp [front]
  have revision : (e ++ resolveWord) ++ slash :: x = k.rev ++ slash :: k.path :=
    append_cancel_left ((behind x).symm.trans rest.symm)
  obtain ⟨path, shape, nonempty'⟩ := first_slash revision plain' nonempty
  refine ⟨⟨k.repo, k.rev, path⟩, ⟨?_, repo', rev', plain', nonempty'⟩, rfl⟩
  rw [append_assoc, behind y, shape]
  rfl

theorem parseResolveKey_withRev {rev : Bytes} (parsed : parseResolveKey p = some k) (nonempty : rev ≠ [])
    (plain : slash ∉ rev) : parseResolveKey { k with rev }.string = some { k with rev } := by
  obtain ⟨split, least⟩ := parseResolveKey_eq_some.mp parsed
  refine parseResolveKey_eq_some.mpr ⟨⟨rfl, split.repo, nonempty, plain, split.path⟩, fun k' other => ?_⟩
  by_contra shorter
  obtain ⟨k'', earlier, same⟩ := other.earlier (y := k.rev ++ slash :: k.path) (not_le.mp shorter) (by simp)
  have longer := least k'' (split.shape ▸ earlier)
  rw [same] at longer
  exact shorter longer

theorem parseResolveKey_of_splitPath (split : splitPath (slash :: p) = some (k.repo, k.rev, k.path)) :
    parseResolveKey (slash :: p) = some k := by
  obtain ⟨shape, first, plain, repo, rev, path⟩ := splitPath_eq_some.mp split
  refine parseResolveKey_eq_some.mpr ⟨⟨congrArg (List.cons slash) shape, repo, rev, plain, path⟩, fun k' other => ?_⟩
  by_contra shorter
  obtain ⟨-, -, there, -⟩ := split_iff.mp other
  exact first _ (not_le.mp shorter) (at_succ.mp there)

/-- The keys that the mirror holds: parsed ones, and parsed ones pinned to another revision. -/
inductive Held : ResolveKey → Prop
  | parsed {p : Bytes} {k : ResolveKey} : parseResolveKey p = some k → Held k
  | pinned {k : ResolveKey} {rev : Bytes} : Held k → rev ≠ [] → slash ∉ rev → Held { k with rev }

theorem Held.parse_string (held : Held k) : parseResolveKey k.string = some k := by
  induction held with
  | parsed parsed =>
    obtain ⟨split, -⟩ := parseResolveKey_eq_some.mp parsed
    rw [← split.shape]
    exact parsed
  | pinned _ nonempty plain ih => exact parseResolveKey_withRev ih nonempty plain

theorem Held.string_inj {k₁ k₂ : ResolveKey} (held₁ : Held k₁) (held₂ : Held k₂) (same : k₁.string = k₂.string) :
    k₁ = k₂ := by
  have parsed := held₁.parse_string
  rw [same, held₂.parse_string] at parsed
  exact (Option.some.inj parsed).symm

/-- A path has at most one key of its length, held keys have renderings of their own, and a hub URL that is
accepted as well names what the key names. -/
theorem resolve_keys_unambiguous :
    (∀ p, (parseResolveKey p).isSome = true ↔ ∃ k, Split p k) ∧
    (∀ p k, parseResolveKey p = some k → Split p k ∧ k.string = p ∧
      ∀ k', Split p k' → k' ≠ k → k.repo.length < k'.repo.length) ∧
    (∀ p k rev, parseResolveKey p = some k → rev ≠ [] → slash ∉ rev →
      parseResolveKey { k with rev }.string = some { k with rev }) ∧
    (∀ k₁ k₂, Held k₁ → Held k₂ → k₁ ≠ k₂ → k₁.string ≠ k₂.string) ∧
    (∀ (parse : Bytes → Option Url) (origin p path : Bytes) (k : ResolveKey) (r : Repo),
      parseResolveKey p = some k →
      (∀ u, parse (origin ++ p) = some u → u.scheme ++ ascii "://" ++ u.host = origin ∧ u.escapedPath = p) →
      parseResolveURL parse (origin ++ p) = .ok (r, path) →
      r.endpoint = origin ∧ pathUnescape k.rev = .ok r.revision ∧ pathUnescape k.path = .ok path ∧
        ∃ id, pathUnescape id = .ok r.repoID ∧ ((r.repoType = ascii "model" ∧ k.repo = id) ∨
          (r.repoType ∈ pathTypes ∧ k.repo = r.repoType ++ slash :: id))) := by
  refine ⟨fun p => parseResolveKey_isSome, fun p k parsed => ?_, fun p k rev => parseResolveKey_withRev,
    fun k₁ k₂ held₁ held₂ other same => ?_, fun parse origin p path k r parsed keeps accepted => ?_⟩
  · obtain ⟨split, least⟩ := parseResolveKey_eq_some.mp parsed
    refine ⟨split, split.shape.symm, fun k' split' other => Nat.lt_of_le_of_ne (least k' split') fun same => other ?_⟩
    have parsed' := parseResolveKey_eq_some.mpr ⟨split', fun k'' split'' => same ▸ least k'' split''⟩
    exact Option.some.inj (parsed'.symm.trans parsed)
  · exact other (held₁.string_inj held₂ same)
  · obtain ⟨u, repo, rev, escaped, read, -, -, split, endpoint, typ, id, revision, decoded⟩ :=
      parseResolveURL_eq_ok.mp accepted
    obtain ⟨origin', same⟩ := keeps u read
    have shape := (parseResolveKey_eq_some.mp parsed).1.shape
    rw [same, shape] at split
    rw [shape] at parsed
    have key := parseResolveKey_of_splitPath (k := ⟨repo, rev, escaped⟩) split
    cases key.symm.trans parsed
    refine ⟨endpoint.trans origin', revision, decoded, (splitRepo repo).2, id, ?_⟩
    rw [typ]
    exact (splitRepo_cases repo).imp (fun model => ⟨model.1, model.2.symm⟩) fun typed => typed

def nestedKey : ResolveKey := ⟨ascii "datasets/a", ascii "main", ascii "b/resolve/c/d%20e"⟩

def nestedOther : ResolveKey := ⟨ascii "datasets/a/resolve/main/b", ascii "c", ascii "d%20e"⟩

def nestedURL : Url := ⟨ascii "https", ascii "h", nestedKey.string⟩

theorem nested_key_unambiguous :
    (∃ k, Split nestedKey.string k) ∧ nestedKey.repo.length < nestedOther.repo.length ∧
      parseResolveKey { nestedKey with rev := ascii "v1" }.string = some { nestedKey with rev := ascii "v1" } ∧
      nestedKey.string ≠ { nestedKey with rev := ascii "v1" }.string ∧
      pathUnescape nestedKey.path = .ok (ascii "b/resolve/c/d e") := by
  have parsed : parseResolveKey nestedKey.string = some nestedKey := by decide +kernel
  have accepted : parseResolveURL (fun _ => some nestedURL) (ascii "https://h" ++ nestedKey.string) =
      .ok (⟨ascii "https://h", ascii "datasets", ascii "a", ascii "main"⟩, ascii "b/resolve/c/d e") := by decide +kernel
  obtain ⟨accepts, shortest, repinned, renderings, hub⟩ := resolve_keys_unambiguous
  refine ⟨(accepts _).mp (parsed ▸ rfl), ?_, ?_, ?_, ?_⟩
  · exact (shortest _ _ parsed).2.2 nestedOther ⟨by decide, by decide, by decide, by decide, by decide⟩ (by decide)
  · exact repinned _ _ _ parsed (by decide) (by decide)
  · exact renderings _ _ (.parsed parsed) (.pinned (.parsed parsed) (by decide) (by decide)) (by decide)
  · refine (hub (fun _ => some nestedURL) _ _ _ _ _ parsed ?_ accepted).2.2.1
    rintro u ⟨⟩
    exact ⟨by decide, rfl⟩

end Xet.Mirror
