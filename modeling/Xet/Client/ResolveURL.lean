import Xet.Client.Hub

/-! Reading a download URL back. The splitter takes the first separator, so a repository is read back
when no segment behind its first one is the separator's word. -/
namespace Xet.Client
open Wire Text Percent Hex List

theorem separator_behind {s b : Bytes} (plain : slash ∉ s) :
    (∃ a c, s ++ slash :: b = a ++ (resolveSep ++ c)) ↔
      (∃ c, b = resolveWord ++ slash :: c) ∨ ∃ a c, b = a ++ (resolveSep ++ c) := by
  have unfolded : ∀ c, resolveSep ++ c = slash :: (resolveWord ++ slash :: c) := fun c => by simp [resolveSep]
  constructor
  · rintro ⟨a, c, shape⟩
    rw [unfolded] at shape
    rcases append_eq_append_iff.mp shape with ⟨d, rfl, tail⟩ | ⟨d, rfl, tail⟩
    · cases d with
      | nil => exact .inl ⟨c, (cons.inj tail).2⟩
      | cons x d =>
        rw [← unfolded] at tail
        exact .inr ⟨d, c, (cons.inj tail).2⟩
    · cases d with
      | nil => exact .inl ⟨c, (cons.inj tail).2.symm⟩
      | cons x d =>
        cases (cons.inj tail).1
        exact absurd (mem_append_right a mem_cons_self) plain
  · rintro (⟨c, rfl⟩ | ⟨a, c, rfl⟩)
    · exact ⟨s, c, by rw [unfolded]⟩
    · exact ⟨s ++ slash :: a, c, by simp⟩

theorem separator_mem {segs : List Bytes} (plain : ∀ s ∈ segs, slash ∉ s) (nonempty : segs ≠ []) :
    (∃ a c, [slash].intercalate segs ++ [slash] = a ++ (resolveSep ++ c)) ↔ resolveWord ∈ segs.tail := by
  induction segs with
  | nil => exact absurd rfl nonempty
  | cons s rest ih =>
    cases rest with
    | nil =>
      have only : [slash].intercalate [s] ++ [slash] = s ++ slash :: [] := by simp [intercalate]
      rw [only, separator_behind (plain s mem_cons_self)]
      simp [resolveSep]
    | cons t rest =>
      have more : [slash].intercalate (s :: t :: rest) ++ [slash] =
          s ++ slash :: ([slash].intercalate (t :: rest) ++ [slash]) := by simp [intercalate]
      rw [more, separator_behind (plain s mem_cons_self),
        ih (fun u member => plain u (mem_cons_of_mem s member)) (cons_ne_nil _ _)]
      have plain' : slash ∉ t := plain t (mem_cons_of_mem s mem_cons_self)
      have head : (∃ c, [slash].intercalate (t :: rest) ++ [slash] = resolveWord ++ slash :: c) ↔ resolveWord = t := by
        obtain ⟨b, front⟩ : ∃ b, [slash].intercalate (t :: rest) ++ [slash] = t ++ slash :: b := by
          cases rest with
          | nil => exact ⟨[], by simp [intercalate]⟩
          | cons u rest => exact ⟨[slash].intercalate (u :: rest) ++ [slash], by simp [intercalate]⟩
        rw [front]
        constructor
        · rintro ⟨c, shape⟩
          have first : cut [slash] (t ++ slash :: b) = some (t, b) := cut_letter.mpr ⟨rfl, plain'⟩
          have other : cut [slash] (t ++ slash :: b) = some (resolveWord, c) := cut_letter.mpr ⟨shape, by decide⟩
          cases first.symm.trans other
          rfl
        · rintro rfl
          exact ⟨b, rfl⟩
      rw [head]
      simp

theorem separator_early {repo rest : Bytes} : (∃ j < repo.length, At resolveSep (repo ++ (resolveSep ++ rest)) j) ↔
    ∃ a c, repo ++ [slash] = a ++ (resolveSep ++ c) := by
  constructor
  · rintro ⟨j, before, there⟩
    have shape := there.split
    rw [take_append_of_le_length before.le] at shape
    have later : repo.drop j ≠ [] := length_pos_iff.mp (by rw [length_drop]; omega)
    have whole := take_append_drop j repo
    have tail : repo.drop j ++ (resolveSep ++ rest) =
        resolveSep ++ (repo ++ (resolveSep ++ rest)).drop (j + resolveSep.length) := by
      have front : repo.take j ++ (repo.drop j ++ (resolveSep ++ rest)) = repo ++ (resolveSep ++ rest) := by
        rw [← append_assoc, whole]
      exact append_cancel_left (front.trans shape)
    obtain ⟨e, front⟩ := separator_before later tail
    exact ⟨repo.take j, e, by rw [← front, ← append_assoc, whole]⟩
  · rintro ⟨a, c, shape⟩
    refine ⟨a.length, ?_, ?_⟩
    · have size := congrArg length shape
      have nine : resolveSep.length = 9 := rfl
      simp only [length_append, length_singleton] at size
      omega
    · have whole : repo ++ (resolveSep ++ rest) = a ++ (resolveSep ++ (c ++ (resolveWord ++ slash :: rest))) :=
        calc repo ++ (resolveSep ++ rest) = (repo ++ [slash]) ++ (resolveWord ++ slash :: rest) := by simp [resolveSep]
          _ = _ := by simp [shape]
      rw [whole]
      exact at_append _ _

theorem trimLeft_append {a b : Bytes} (nonempty : a ≠ []) (plain : slash ∉ a) :
    (a ++ b).dropWhile (· == slash) = a ++ b := by
  obtain ⟨c, a, rfl⟩ := exists_cons_of_ne_nil nonempty
  have other : c ≠ slash := fun same => plain (same ▸ mem_cons_self)
  rw [cons_append, dropWhile_cons_of_neg (by simpa using other)]

theorem trimRight_append {a b : Bytes} (nonempty : b ≠ []) (plain : slash ∉ b) :
    (a ++ b).rdropWhile (· == slash) = a ++ b := by
  rw [rdropWhile_eq_self_iff]
  intro present
  rw [getLast_append_of_ne_nil present nonempty]
  have other : b.getLast nonempty ≠ slash := fun same => plain (same ▸ getLast_mem nonempty)
  simpa using other

variable {fold : Bytes → Bytes}

section
variable (words : ∀ w ∈ ascii "model" :: pathTypes, fold w = w)
include words

theorem normalizeRepoType_word :
    normalizeRepoType fold (ascii "model") = ascii "model" ∧ ∀ typ ∈ pathTypes,
      normalizeRepoType fold typ ≠ ascii "model" ∧ normalizeRepoType fold typ ++ ascii "s/" = typ ++ [slash] := by
  constructor
  · rw [normalizeRepoType, words _ mem_cons_self]
    decide
  · intro typ member
    rw [normalizeRepoType, words typ (mem_cons_of_mem _ member)]
    simp only [pathTypes, mem_cons, not_mem_nil, or_false] at member
    rcases member with rfl | rfl | rfl <;> decide

theorem splitRepo_text (repo : Bytes) :
    repo = typePrefix (normalizeRepoType fold (splitRepo repo).1) ++ (splitRepo repo).2 := by
  obtain ⟨model, plural⟩ := normalizeRepoType_word words
  rcases splitRepo_cases repo with ⟨typ, id⟩ | ⟨typ, shape⟩
  · rw [typ, id, model, typePrefix, if_neg (by simp)]
    rfl
  · obtain ⟨other, text⟩ := plural _ typ
    rw [typePrefix, if_pos other, text, append_assoc]
    exact shape

theorem normalizeRepoType_cases (repoType : Bytes) :
    normalizeRepoType fold repoType = ascii "model" ∨
      ∃ typ ∈ pathTypes, normalizeRepoType fold repoType = normalizeRepoType fold typ := by
  have dataset : normalizeRepoType fold (ascii "datasets") = ascii "dataset" := by
    rw [normalizeRepoType, words _ (by decide)]
    decide
  have space : normalizeRepoType fold (ascii "spaces") = ascii "space" := by
    rw [normalizeRepoType, words _ (by decide)]
    decide
  have kernel : normalizeRepoType fold (ascii "kernels") = ascii "kernel" := by
    rw [normalizeRepoType, words _ (by decide)]
    decide
  rw [normalizeRepoType]
  split_ifs
  · exact .inr ⟨_, by decide, dataset.symm⟩
  · exact .inr ⟨_, by decide, space.symm⟩
  · exact .inr ⟨_, by decide, kernel.symm⟩
  · exact .inl rfl

theorem splitRepo_typePrefix {repoType id : Bytes}
    (model : normalizeRepoType fold repoType = ascii "model" → ∀ typ ∈ pathTypes, ¬ typ ++ [slash] <+: id) :
    (splitRepo (typePrefix (normalizeRepoType fold repoType) ++ id)).2 = id ∧
      normalizeRepoType fold (splitRepo (typePrefix (normalizeRepoType fold repoType) ++ id)).1 =
        normalizeRepoType fold repoType := by
  rcases normalizeRepoType_cases words repoType with same | ⟨typ, known, same⟩
  · have text : typePrefix (normalizeRepoType fold repoType) ++ id = id := by
      rw [same, typePrefix, if_neg (by simp)]
      rfl
    rw [text]
    rcases splitRepo_cases id with ⟨typ, whole⟩ | ⟨typ, shape⟩
    · rw [typ, (normalizeRepoType_word words).1]
      exact ⟨whole, same.symm⟩
    · exact absurd ⟨(splitRepo id).2, (append_assoc _ _ _).trans shape.symm⟩ (model same _ typ)
  · obtain ⟨other, plural⟩ := (normalizeRepoType_word words).2 typ known
    have text : typePrefix (normalizeRepoType fold repoType) ++ id = typ ++ slash :: id := by
      rw [same, typePrefix, if_pos other, plural, append_assoc]
      rfl
    have plain : slash ∉ typ := (by decide : ∀ typ ∈ pathTypes, slash ∉ typ) typ known
    have found : cut [slash] (typ ++ slash :: id) = some (typ, id) := cut_letter.mpr ⟨rfl, plain⟩
    have split : splitRepo (typ ++ slash :: id) = (typ, id) := by
      rw [splitRepo, found]
      exact if_pos (by simpa [pathTypes] using known)
    rw [text, split]
    exact ⟨rfl, same.symm⟩

end

def idByte (c : UInt8) : Bool :=
  (97 ≤ c && c ≤ 122) || (65 ≤ c && c ≤ 90) || (48 ≤ c && c ≤ 57) || (ascii "-_.").contains c

/-- A repository with an endpoint `scheme://host` and an id of segments, and a path in it. -/
structure Admissible (fold : Bytes → Bytes) (scheme host : Bytes) (segs : List Bytes) (r : Repo) (path : Bytes) : Prop where
  endpoint : r.endpoint = scheme ++ ascii "://" ++ host
  hostPresent : host ≠ []
  hostPlain : slash ∉ host
  id : r.repoID = [slash].intercalate segs
  segments : segs ≠ []
  segment : ∀ s ∈ segs, s ≠ [] ∧ ∀ c ∈ s, idByte c = true
  model : normalizeRepoType fold r.repoType = ascii "model" → ∀ typ ∈ pathTypes, ¬ typ ++ [slash] <+: r.repoID
  revisionPresent : r.revision ≠ []
  pathPresent : path ≠ []

def pathByte (c : UInt8) : Bool := segmentByte c || (ascii "/;,!'()*[]%").contains c

/-- An escaped path: a slash, bytes that a path may hold, and no broken escape. -/
structure ValidPath (p : Bytes) : Prop where
  start : [slash].isPrefixOf p = true
  bytes : ∀ c ∈ p, pathByte c = true
  escapes : ∃ t, pathUnescape p = .ok t

def keptByte (c : UInt8) : Bool := segmentByte c || c == slash

def repoSegments (fold : Bytes → Bytes) (repoType : Bytes) (segs : List Bytes) : List Bytes :=
  if normalizeRepoType fold repoType = ascii "model" then segs
  else (normalizeRepoType fold repoType ++ ascii "s") :: segs

def urlPath (r : Repo) (path : Bytes) : Bytes :=
  slash :: (typePrefix r.repoType ++ r.repoID ++ (resolveSep ++ (pathEscape r.revision ++ slash :: escape keptByte path)))

theorem resolveURL_eq (r : Repo) (path : Bytes) :
    r.resolveURL fold path = (r.normalized fold).endpoint ++ urlPath (r.normalized fold) path := by
  have joined : [slash].intercalate ((path.splitOn slash).map pathEscape) = escape keptByte path :=
    intercalate_escape slash path
  rw [Repo.resolveURL, urlPath, joined]

variable {c : UInt8}

theorem idByte_kept (letter : idByte c = true) : segmentByte c = true ∧ c ≠ slash := by
  simp only [idByte, Bool.or_eq_true, Bool.and_eq_true, decide_eq_true_eq] at letter
  rcases letter with ((⟨low, high⟩ | ⟨low, high⟩) | ⟨low, high⟩) | sign
  · exact ⟨by simp [segmentByte, low, high], by rintro rfl; exact absurd low (by decide)⟩
  · exact ⟨by simp [segmentByte, low, high], by rintro rfl; exact absurd low (by decide)⟩
  · exact ⟨by simp [segmentByte, low, high], by rintro rfl; exact absurd low (by decide)⟩
  · have listed : ∀ c ∈ ascii "-_.", segmentByte c = true ∧ c ≠ slash := by decide +kernel
    exact listed c (contains_iff_mem.mp sign)

variable {scheme host path : Bytes} {segs : List Bytes} {r : Repo}

theorem intercalate_first (s : Bytes) (rest : List Bytes) : ∃ b, [slash].intercalate (s :: rest) = s ++ b := by
  cases rest with
  | nil => exact ⟨[], by simp [intercalate]⟩
  | cons t rest => exact ⟨slash :: [slash].intercalate (t :: rest), by simp [intercalate]⟩

theorem intercalate_last {segs : List Bytes} (nonempty : segs ≠ []) :
    ∃ a s, s ∈ segs ∧ [slash].intercalate segs = a ++ s := by
  induction segs with
  | nil => exact absurd rfl nonempty
  | cons s rest ih =>
    cases rest with
    | nil => exact ⟨[], s, mem_cons_self, by simp [intercalate]⟩
    | cons t rest =>
      obtain ⟨a, u, member, shape⟩ := ih (cons_ne_nil _ _)
      refine ⟨s ++ slash :: a, u, mem_cons_of_mem s member, ?_⟩
      have more : [slash].intercalate (s :: t :: rest) = s ++ slash :: [slash].intercalate (t :: rest) := by
        simp [intercalate]
      rw [more, shape, append_assoc]
      rfl

theorem Admissible.plain (ok : Admissible fold scheme host segs r path) : ∀ s ∈ segs, slash ∉ s := fun s member inside =>
  (idByte_kept ((ok.segment s member).2 slash inside)).2 rfl

theorem Admissible.normalized (ok : Admissible fold scheme host segs r path) :
    r.normalized fold = { r with repoType := normalizeRepoType fold r.repoType } := by
  have endpoint : r.endpoint.rdropWhile (· == slash) = r.endpoint := by
    rw [ok.endpoint]
    exact trimRight_append ok.hostPresent ok.hostPlain
  have id : (r.repoID.dropWhile (· == slash)).rdropWhile (· == slash) = r.repoID := by
    obtain ⟨s, rest, rfl⟩ := exists_cons_of_ne_nil ok.segments
    obtain ⟨b, first⟩ := intercalate_first s rest
    obtain ⟨a, t, member, last⟩ := intercalate_last ok.segments
    have left := trimLeft_append (b := b) (ok.segment s mem_cons_self).1 (ok.plain s mem_cons_self)
    have right := trimRight_append (a := a) (ok.segment t member).1 (ok.plain t member)
    rw [ok.id]
    rw [first, left, ← first, last, right]
  have present : r.endpoint ≠ [] := by
    rw [ok.endpoint]
    simp [ok.hostPresent]
  rw [Repo.normalized]
  simp only [endpoint, id, if_neg present, if_neg ok.revisionPresent]

def repoText (fold : Bytes → Bytes) (r : Repo) : Bytes := typePrefix (normalizeRepoType fold r.repoType) ++ r.repoID

theorem Admissible.repoText_segments (ok : Admissible fold scheme host segs r path) :
    repoText fold r = [slash].intercalate (repoSegments fold r.repoType segs) := by
  obtain ⟨s, rest, rfl⟩ := exists_cons_of_ne_nil ok.segments
  rw [repoText, ok.id, repoSegments, typePrefix]
  by_cases model : normalizeRepoType fold r.repoType = ascii "model"
  · rw [if_neg (not_not.mpr model), if_pos model]
    rfl
  · rw [if_pos model, if_neg model, show ascii "s/" = ascii "s" ++ [slash] by decide]
    simp [intercalate]

theorem typePrefix_bytes (repoType : Bytes) : ∀ c ∈ typePrefix (normalizeRepoType fold repoType), keptByte c = true := by
  rw [normalizeRepoType]
  split_ifs <;> decide +kernel

theorem intercalate_bytes {segs : List Bytes} (member : c ∈ [slash].intercalate segs) :
    c = slash ∨ ∃ s ∈ segs, c ∈ s := by
  induction segs with
  | nil => simp [intercalate] at member
  | cons s rest ih =>
    cases rest with
    | nil => exact .inr ⟨s, mem_cons_self, by simpa [intercalate] using member⟩
    | cons t rest =>
      have more : [slash].intercalate (s :: t :: rest) = s ++ slash :: [slash].intercalate (t :: rest) := by
        simp [intercalate]
      rw [more, mem_append, mem_cons] at member
      rcases member with first | mark | later
      · exact .inr ⟨s, mem_cons_self, first⟩
      · exact .inl mark
      · exact (ih later).imp_right fun ⟨u, inside, there⟩ => ⟨u, mem_cons_of_mem s inside, there⟩

theorem Admissible.id_bytes (ok : Admissible fold scheme host segs r path) : ∀ c ∈ r.repoID, keptByte c = true := by
  intro c member
  rw [ok.id] at member
  rcases intercalate_bytes member with rfl | ⟨s, inside, there⟩
  · decide
  · rw [keptByte, (idByte_kept ((ok.segment s inside).2 c there)).1]
    rfl

theorem keptByte_percent : keptByte percent = false := by decide

theorem Admissible.id_unescape (ok : Admissible fold scheme host segs r path) : pathUnescape r.repoID = .ok r.repoID := by
  have read := unescape_escape keptByte_percent r.repoID
  rwa [escape_self ok.id_bytes] at read

theorem hexDigit_byte {n : Nat} (digit : n < 16) : segmentByte (hexDigit n) = true ∧ hexDigit n ≠ slash :=
  (by decide : ∀ n < 16, segmentByte (hexDigit n) = true ∧ hexDigit n ≠ slash) n digit

theorem pathEscape_plain (s : Bytes) : slash ∉ pathEscape s := by
  intro member
  rcases mem_escape member with ⟨-, kept⟩ | mark | ⟨n, digit, same⟩
  · exact absurd kept (by decide)
  · exact absurd mark (by decide)
  · exact (hexDigit_byte digit).2 same.symm

theorem escape_bytes {keep : UInt8 → Bool} (allowed : ∀ c, keep c = true → pathByte c = true) {s : Bytes} :
    ∀ c ∈ escape keep s, pathByte c = true := by
  intro c member
  rcases mem_escape member with ⟨-, kept⟩ | rfl | ⟨n, digit, rfl⟩
  · exact allowed c kept
  · decide
  · rw [pathByte, (hexDigit_byte digit).1]
    rfl

theorem segmentByte_path (kept : segmentByte c = true) : pathByte c = true := by
  rw [pathByte, kept]
  rfl

theorem keptByte_path (kept : keptByte c = true) : pathByte c = true := by
  rw [keptByte, Bool.or_eq_true] at kept
  rcases kept with kept | mark
  · exact segmentByte_path kept
  · cases eq_of_beq mark
    decide

theorem Admissible.validPath (ok : Admissible fold scheme host segs r path) :
    ValidPath (urlPath (r.normalized fold) path) := by
  have kept : ∀ c ∈ slash :: (repoText fold r ++ resolveSep), keptByte c = true := by
    intro c member
    rw [mem_cons, mem_append, repoText, mem_append] at member
    rcases member with rfl | (typ | id) | sep
    · decide
    · exact typePrefix_bytes _ c typ
    · exact ok.id_bytes c id
    · exact (by decide +kernel : ∀ c ∈ resolveSep, keptByte c = true) c sep
  have shape : urlPath (r.normalized fold) path = escape keptByte (slash :: (repoText fold r ++ resolveSep)) ++
      (escape segmentByte r.revision ++ escape keptByte (slash :: path)) := by
    rw [escape_self kept, ok.normalized, urlPath, repoText]
    simp [escape, escapeByte, pathEscape, show keptByte slash = true by decide]
  rw [shape]
  refine ⟨?_, fun c member => ?_, ?_⟩
  · rw [escape_self kept]
    rfl
  · rw [mem_append, mem_append] at member
    rcases member with front | revision | tail
    · exact escape_bytes (fun c => keptByte_path) c front
    · exact escape_bytes (fun c => segmentByte_path) c revision
    · exact escape_bytes (fun c => keptByte_path) c tail
  · rw [pathUnescape, unescape_escape_append keptByte_percent, unescape_escape_append (by decide),
      unescape_escape keptByte_percent]
    exact ⟨_, rfl⟩

def laterSegments (fold : Bytes → Bytes) (repoType : Bytes) (segs : List Bytes) : List Bytes :=
  if normalizeRepoType fold repoType = ascii "model" then segs.tail else segs

theorem Admissible.separator_early (ok : Admissible fold scheme host segs r path) (rest : Bytes) :
    (∃ j < (repoText fold r).length, At resolveSep (repoText fold r ++ (resolveSep ++ rest)) j) ↔
      resolveWord ∈ laterSegments fold r.repoType segs := by
  have tail : (repoSegments fold r.repoType segs).tail = laterSegments fold r.repoType segs := by
    rw [repoSegments, laterSegments]
    split_ifs <;> rfl
  have typ : slash ∉ normalizeRepoType fold r.repoType ++ ascii "s" := by
    rw [normalizeRepoType]
    split_ifs <;> decide
  have plain : ∀ s ∈ repoSegments fold r.repoType segs, slash ∉ s := by
    rw [repoSegments]
    split_ifs
    · exact ok.plain
    · exact forall_mem_cons.mpr ⟨typ, ok.plain⟩
  have nonempty : repoSegments fold r.repoType segs ≠ [] := by
    rw [repoSegments]
    split_ifs
    · exact ok.segments
    · exact cons_ne_nil _ _
  rw [Client.separator_early, ok.repoText_segments, separator_mem plain nonempty, tail]

/-- How the URL parser reads an endpoint followed by an escaped path. -/
def Keeps (parse : Bytes → Option Url) (scheme host : Bytes) (r : Repo) : Prop :=
  ∀ p, ValidPath p → parse (r.endpoint ++ p) = some ⟨scheme.map lowerByte, host, p⟩

variable {parse : Bytes → Option Url}

theorem Admissible.parse_resolveURL (ok : Admissible fold scheme host segs r path) (keeps : Keeps parse scheme host r) :
    parse (r.resolveURL fold path) = some ⟨scheme.map lowerByte, host, slash :: (repoText fold r ++ (resolveSep ++
      (pathEscape r.revision ++ slash :: escape keptByte path)))⟩ := by
  have parsed := keeps _ ok.validPath
  rw [resolveURL_eq, ok.normalized]
  rwa [ok.normalized] at parsed

theorem Admissible.scheme_of_accepted (ok : Admissible fold scheme host segs r path) (keeps : Keeps parse scheme host r)
    {r' : Repo} (accepted : parseResolveURL parse (r.resolveURL fold path) = .ok (r', path))
    (same : r'.normalized fold = r.normalized fold) : scheme = ascii "http" ∨ scheme = ascii "https" := by
  obtain ⟨u, repo, rev, escaped, read, web, -, -, endpoint, -⟩ := parseResolveURL_eq_ok.mp accepted
  cases (ok.parse_resolveURL keeps).symm.trans read
  have kept : r'.endpoint.rdropWhile (· == slash) = r'.endpoint := by
    rw [endpoint]
    exact trimRight_append ok.hostPresent ok.hostPlain
  have present : r'.endpoint ≠ [] := by
    rw [endpoint]
    simp [ok.hostPresent]
  have origin := congrArg Repo.endpoint same
  rw [ok.normalized, Repo.normalized] at origin
  simp only [kept, if_neg present] at origin
  rw [endpoint, ok.endpoint] at origin
  have lower : scheme.map lowerByte = scheme := append_cancel_right (append_cancel_right origin)
  rwa [lower] at web

theorem Admissible.not_early_of_accepted (words : ∀ w ∈ ascii "model" :: pathTypes, fold w = w)
    (ok : Admissible fold scheme host segs r path) (keeps : Keeps parse scheme host r)
    {r' : Repo} (accepted : parseResolveURL parse (r.resolveURL fold path) = .ok (r', path))
    (same : r'.normalized fold = r.normalized fold) : resolveWord ∉ laterSegments fold r.repoType segs := by
  rw [← ok.separator_early (pathEscape r.revision ++ slash :: escape keptByte path)]
  rintro ⟨j, before, there⟩
  obtain ⟨u, repo, rev, escaped, read, -, -, split, -, typ, id, -⟩ := parseResolveURL_eq_ok.mp accepted
  cases (ok.parse_resolveURL keeps).symm.trans read
  obtain ⟨-, first, -⟩ := splitPath_eq_some.mp split
  have short : repo.length ≤ j := Nat.not_lt.mp fun inside => first j inside there
  rw [ok.normalized, Repo.normalized, Repo.mk.injEq] at same
  obtain ⟨-, sameType, sameID, -⟩ := same
  have whole := congrArg length (splitRepo_text words repo)
  rw [← typ, sameType, length_append] at whole
  have decoded := unescape_length id
  have trimmed : r.repoID.length ≤ r'.repoID.length := by
    rw [← sameID]
    have right := rdropWhile_prefix (· == slash) (r'.repoID.dropWhile (· == slash))
    exact right.length_le.trans (dropWhile_suffix _).length_le
  rw [repoText, length_append] at before
  omega

theorem Admissible.repoText_ne_nil (ok : Admissible fold scheme host segs r path) : repoText fold r ≠ [] := by
  obtain ⟨s, rest, rfl⟩ := exists_cons_of_ne_nil ok.segments
  obtain ⟨b, first⟩ := intercalate_first s rest
  rw [repoText, ok.id, first]
  simp [(ok.segment s mem_cons_self).1]

theorem Admissible.read_back (words : ∀ w ∈ ascii "model" :: pathTypes, fold w = w)
    (ok : Admissible fold scheme host segs r path) (keeps : Keeps parse scheme host r)
    (web : scheme = ascii "http" ∨ scheme = ascii "https") (never : resolveWord ∉ laterSegments fold r.repoType segs) :
    ∃ r', parseResolveURL parse (r.resolveURL fold path) = .ok (r', path) ∧ r'.normalized fold = r.normalized fold := by
  rw [← ok.separator_early (pathEscape r.revision ++ slash :: escape keptByte path)] at never
  obtain ⟨id, typ⟩ := splitRepo_typePrefix words ok.model
  have lower : scheme.map lowerByte = scheme := by
    rcases web with rfl | rfl <;> decide
  refine ⟨⟨r.endpoint, (splitRepo (repoText fold r)).1, r.repoID, r.revision⟩, ?_, ?_⟩
  · refine parseResolveURL_eq_ok.mpr ⟨_, repoText fold r, pathEscape r.revision, escape keptByte path,
      ok.parse_resolveURL keeps, ?_, ok.hostPresent, ?_, ?_, rfl, ?_, ?_, ?_⟩
    · exact lower.symm ▸ web
    · exact splitPath_eq_some.mpr ⟨rfl, fun j before there => never ⟨j, before, there⟩, pathEscape_plain _,
        ok.repoText_ne_nil, fun empty => ok.revisionPresent (escape_eq_nil.mp empty),
        fun empty => ok.pathPresent (escape_eq_nil.mp empty)⟩
    · rw [lower]
      exact ok.endpoint
    · rw [repoText, id]
      exact ok.id_unescape
    · exact unescape_escape (by decide) r.revision
    · exact unescape_escape keptByte_percent path
  · rw [← repoText] at typ
    simp only [Repo.normalized, typ]

/-- Reading a download URL gives the repository and the path back exactly when its scheme is a web scheme and no
segment behind the first one of its repository part is the separator's word. -/
theorem resolve_url_inverted_iff (words : ∀ w ∈ ascii "model" :: pathTypes, fold w = w)
    (ok : Admissible fold scheme host segs r path) (keeps : Keeps parse scheme host r) :
    (∃ r', parseResolveURL parse (r.resolveURL fold path) = .ok (r', path) ∧ r'.normalized fold = r.normalized fold) ↔
      (scheme = ascii "http" ∨ scheme = ascii "https") ∧ resolveWord ∉ laterSegments fold r.repoType segs := by
  constructor
  · rintro ⟨r', accepted, same⟩
    exact ⟨ok.scheme_of_accepted keeps accepted same, ok.not_early_of_accepted words keeps accepted same⟩
  · rintro ⟨web, never⟩
    exact ok.read_back words keeps web never

def parseAtHost (rawURL : Bytes) : Option Url := some ⟨ascii "https", ascii "h", rawURL.drop 9⟩

def datasetRepo : Repo := ⟨ascii "https://h", ascii "dataset", ascii "a/b.c", ascii "refs/pr/1"⟩

theorem keeps_at_host {r : Repo} (endpoint : r.endpoint = ascii "https://h") :
    Keeps parseAtHost (ascii "https") (ascii "h") r := by
  intro p _
  have rest : (ascii "https://h" ++ p).drop 9 = p := drop_left' rfl
  rw [endpoint, parseAtHost, rest]
  rfl

theorem dataset_url_inverted :
    ∃ r', parseResolveURL parseAtHost (datasetRepo.resolveURL id (ascii "d e/resolve/f")) =
      .ok (r', ascii "d e/resolve/f") ∧ r'.normalized id = datasetRepo.normalized id := by
  have ok : Admissible id (ascii "https") (ascii "h") [ascii "a", ascii "b.c"] datasetRepo (ascii "d e/resolve/f") :=
    ⟨by decide, by decide, by decide, by decide, by decide, by decide +kernel, by decide, by decide, by decide⟩
  exact (resolve_url_inverted_iff (fun w _ => rfl) ok (keeps_at_host rfl)).mpr ⟨.inr rfl, by decide⟩

def namedResolve : Repo := ⟨ascii "https://h", ascii "model", ascii "a/resolve", ascii "main"⟩

theorem named_resolve_misread :
    Admissible id (ascii "https") (ascii "h") [ascii "a", ascii "resolve"] namedResolve (ascii "f") ∧
      Keeps parseAtHost (ascii "https") (ascii "h") namedResolve ∧
      parseResolveURL parseAtHost (namedResolve.resolveURL id (ascii "f")) =
        .ok (⟨ascii "https://h", ascii "model", ascii "a", ascii "resolve"⟩, ascii "main/f") ∧
      ¬ ∃ r', parseResolveURL parseAtHost (namedResolve.resolveURL id (ascii "f")) = .ok (r', ascii "f") := by
  have read : parseResolveURL parseAtHost (namedResolve.resolveURL id (ascii "f")) =
      .ok (⟨ascii "https://h", ascii "model", ascii "a", ascii "resolve"⟩, ascii "main/f") := by decide +kernel
  refine ⟨?_, keeps_at_host rfl, read, ?_⟩
  · exact ⟨by decide, by decide, by decide, by decide, by decide, by decide +kernel, by decide, by decide, by decide⟩
  · rintro ⟨r', other⟩
    have paths : some (ascii "main/f") = some (ascii "f") :=
      congrArg (fun x => x.toOption.map Prod.snd) (read.symm.trans other)
    exact absurd paths (by decide)

end Xet.Client
