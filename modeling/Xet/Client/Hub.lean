import Xet.Lib.Percent
import Xet.Lib.Text
import Mathlib.Data.List.DropRight

/-! Hub repositories and their download URLs, written by one function and split again by another. -/
namespace Xet.Client
open Wire Text Percent List

def slash : UInt8 := 47

def resolveWord : Bytes := ascii "resolve"

def resolveSep : Bytes := slash :: resolveWord ++ [slash]

structure Repo where
  endpoint : Bytes
  repoType : Bytes
  repoID : Bytes
  revision : Bytes
  deriving DecidableEq

structure Url where
  scheme : Bytes
  host : Bytes
  escapedPath : Bytes

def segmentByte (c : UInt8) : Bool :=
  (97 ≤ c && c ≤ 122) || (65 ≤ c && c ≤ 90) || (48 ≤ c && c ≤ 57) || (ascii "-_.~$&+=:@").contains c

def pathEscape (s : Bytes) : Bytes := escape segmentByte s

def pathUnescape (s : Bytes) : Except Bytes Bytes := unescape s

section
variable (fold : Bytes → Bytes)

/-- The singular of a repository type; `fold` trims the text and puts it in lower case. -/
def normalizeRepoType (repoType : Bytes) : Bytes :=
  if fold repoType = ascii "dataset" ∨ fold repoType = ascii "datasets" then ascii "dataset"
  else if fold repoType = ascii "space" ∨ fold repoType = ascii "spaces" then ascii "space"
  else if fold repoType = ascii "kernel" ∨ fold repoType = ascii "kernels" then ascii "kernel"
  else ascii "model"

def Repo.normalized (r : Repo) : Repo :=
  let endpoint := r.endpoint.rdropWhile (· == slash)
  { endpoint := if endpoint = [] then ascii "https://huggingface.co" else endpoint
    repoType := normalizeRepoType fold r.repoType
    repoID := (r.repoID.dropWhile (· == slash)).rdropWhile (· == slash)
    revision := if r.revision = [] then ascii "main" else r.revision }

/-- What a download path holds in front of the id of a repository of a normalized type. -/
def typePrefix (repoType : Bytes) : Bytes := if repoType ≠ ascii "model" then repoType ++ ascii "s/" else []

def Repo.resolveURL (r : Repo) (path : Bytes) : Bytes :=
  let r := r.normalized fold
  let segs := (path.splitOn slash).map pathEscape
  r.endpoint ++ (slash :: (typePrefix r.repoType ++ r.repoID ++ (resolveSep ++
    (pathEscape r.revision ++ slash :: [slash].intercalate segs))))

end

inductive ResolveURLError where
  | invalid (rawURL : Bytes)
  | shape (rawURL : Bytes)
  | escape (rawURL escape : Bytes)
  deriving DecidableEq

def splitRepo (repo : Bytes) : Bytes × Bytes :=
  match cut [slash] repo with
  | some (typ, id) =>
    if typ = ascii "datasets" ∨ typ = ascii "spaces" ∨ typ = ascii "kernels" then (typ, id) else (ascii "model", repo)
  | none => (ascii "model", repo)

def splitPath (escapedPath : Bytes) : Option (Bytes × Bytes × Bytes) :=
  match cut resolveSep (if [slash].isPrefixOf escapedPath then escapedPath.drop 1 else escapedPath) with
  | some (repo, rest) =>
    match cut [slash] rest with
    | some (rev, path) => if repo = [] ∨ rev = [] ∨ path = [] then none else some (repo, rev, path)
    | none => none
  | none => none

def parseResolveURL (parse : Bytes → Option Url) (rawURL : Bytes) : Except ResolveURLError (Repo × Bytes) :=
  match parse rawURL with
  | none => .error (.invalid rawURL)
  | some u =>
    if (u.scheme ≠ ascii "http" ∧ u.scheme ≠ ascii "https") ∨ u.host = [] then .error (.invalid rawURL)
    else
      match splitPath u.escapedPath with
      | none => .error (.shape rawURL)
      | some (repo, rev, path) => do
        let repoID ← (pathUnescape (splitRepo repo).2).mapError (.escape rawURL)
        let revision ← (pathUnescape rev).mapError (.escape rawURL)
        let path ← (pathUnescape path).mapError (.escape rawURL)
        return (⟨u.scheme ++ ascii "://" ++ u.host, (splitRepo repo).1, repoID, revision⟩, path)

theorem splitPath_eq_some {p repo rev path : Bytes} : splitPath (slash :: p) = some (repo, rev, path) ↔
    p = repo ++ (resolveSep ++ (rev ++ slash :: path)) ∧ (∀ j < repo.length, ¬ At resolveSep p j) ∧
      slash ∉ rev ∧ repo ≠ [] ∧ rev ≠ [] ∧ path ≠ [] := by
  have start : splitPath (slash :: p) = match cut resolveSep p with
      | some (repo, rest) =>
        match cut [slash] rest with
        | some (rev, path) => if repo = [] ∨ rev = [] ∨ path = [] then none else some (repo, rev, path)
        | none => none
      | none => none := rfl
  rw [start]
  constructor
  · intro result
    split at result
    · rename_i repo' rest outer
      split at result
      · rename_i rev' path' inner
        split at result
        · cases result
        · rename_i present
          cases result
          obtain ⟨shape, first⟩ := (cut_eq_some (cons_ne_nil _ _)).mp outer
          obtain ⟨rfl, plain⟩ := cut_letter.mp inner
          simp only [not_or] at present
          exact ⟨shape, first, plain, present⟩
      · cases result
    · cases result
  · rintro ⟨shape, first, plain, present⟩
    have outer : cut resolveSep p = some (repo, rev ++ slash :: path) :=
      (cut_eq_some (cons_ne_nil _ _)).mpr ⟨shape, first⟩
    have inner : cut [slash] (rev ++ slash :: path) = some (rev, path) := cut_letter.mpr ⟨rfl, plain⟩
    rw [← not_or, ← not_or] at present
    simp only [outer, inner, if_neg present]

theorem parseResolveURL_eq_ok {parse : Bytes → Option Url} {rawURL path : Bytes} {r : Repo} :
    parseResolveURL parse rawURL = .ok (r, path) ↔ ∃ u repo rev escaped, parse rawURL = some u ∧
      (u.scheme = ascii "http" ∨ u.scheme = ascii "https") ∧ u.host ≠ [] ∧
      splitPath u.escapedPath = some (repo, rev, escaped) ∧ r.endpoint = u.scheme ++ ascii "://" ++ u.host ∧
      r.repoType = (splitRepo repo).1 ∧ pathUnescape (splitRepo repo).2 = .ok r.repoID ∧
      pathUnescape rev = .ok r.revision ∧ pathUnescape escaped = .ok path := by
  rw [parseResolveURL]
  constructor
  · intro result
    split at result
    · cases result
    · rename_i u parsed
      split at result
      · cases result
      · rename_i origin
        split at result
        · cases result
        · rename_i repo rev escaped shape
          obtain ⟨repoID, id, result⟩ := bind_eq_ok.mp result
          obtain ⟨revision, rev', result⟩ := bind_eq_ok.mp result
          obtain ⟨path', escaped', result⟩ := bind_eq_ok.mp result
          cases result
          simp only [not_or, not_and_or, not_not] at origin
          exact ⟨u, repo, rev, escaped, parsed, origin.1, origin.2, shape, rfl, rfl, mapError_eq_ok.mp id,
            mapError_eq_ok.mp rev', mapError_eq_ok.mp escaped'⟩
  · rintro ⟨u, repo, rev, escaped, parsed, scheme, host, shape, endpoint, typ, id, revision, decoded⟩
    have origin : ¬ ((u.scheme ≠ ascii "http" ∧ u.scheme ≠ ascii "https") ∨ u.host = []) := by
      simp only [not_or, not_and_or, not_not]
      exact ⟨scheme, host⟩
    simp only [parsed, if_neg origin, shape, mapError_eq_ok.mpr id, mapError_eq_ok.mpr revision,
      mapError_eq_ok.mpr decoded, ok_bind, ← endpoint, ← typ]
    rfl

def pathTypes : List Bytes := [ascii "datasets", ascii "spaces", ascii "kernels"]

/-- Type and id make up the repository part: a type of its own stands in front of the id, a model has none. -/
theorem splitRepo_cases (repo : Bytes) :
    ((splitRepo repo).1 = ascii "model" ∧ (splitRepo repo).2 = repo) ∨
      ((splitRepo repo).1 ∈ pathTypes ∧ repo = (splitRepo repo).1 ++ slash :: (splitRepo repo).2) := by
  rw [splitRepo]
  split
  · rename_i typ id found
    split
    · rename_i known
      obtain ⟨rfl, -⟩ := cut_letter.mp found
      exact .inr ⟨by simpa [pathTypes] using known, rfl⟩
    · exact .inl ⟨rfl, rfl⟩
  · exact .inl ⟨rfl, rfl⟩

theorem separator_overlap {d e : Bytes} (shape : resolveSep = d ++ e) (nonempty : d ≠ []) (again : e <+: resolveSep)
    (proper : e ≠ []) : d = slash :: resolveWord ∧ e = [slash] := by
  have only : ∀ n < 9, 0 < n → resolveSep.drop n <+: resolveSep → n = 8 := by decide
  have size := congrArg List.length shape
  rw [length_append] at size
  have total : resolveSep.length = 9 := rfl
  have left := length_pos_iff.mpr nonempty
  have right := length_pos_iff.mpr proper
  have tail : resolveSep.drop d.length = e := by rw [shape, drop_left]
  have eight := only d.length (by omega) left (tail.symm ▸ again)
  have head : resolveSep.take d.length = d := by rw [shape, take_left]
  rw [eight] at tail head
  exact ⟨head.symm, tail.symm⟩

theorem separator_before {d x y : Bytes} (nonempty : d ≠ []) (shape : d ++ (resolveSep ++ x) = resolveSep ++ y) :
    ∃ e, d ++ [slash] = resolveSep ++ e := by
  rcases append_eq_append_iff.mp shape with ⟨e, whole, shared⟩ | ⟨e, rfl, -⟩
  · cases e with
    | nil =>
      rw [append_nil] at whole
      exact ⟨[slash], by rw [whole]⟩
    | cons c e =>
      have again : c :: e <+: resolveSep := by
        refine prefix_of_prefix_length_le ⟨_, shared.symm⟩ (prefix_append _ _) ?_
        rw [whole, length_append]
        omega
      obtain ⟨rfl, -⟩ := separator_overlap whole nonempty again (cons_ne_nil _ _)
      exact ⟨[], rfl⟩
  · exact ⟨e ++ [slash], append_assoc _ _ _⟩

end Xet.Client
