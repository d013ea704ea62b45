import Xet.Auth.Issuer

/-! What a token authorizes. A token whose signature is checked has the payload of an earlier signing, so
it grants what was granted there, for as long as that signing said. -/
namespace Xet.Auth
open Wire Text Hex List Issuer Grant

theorem canonicalSHA256_eq {digest canonical : Bytes} (known : canonicalSHA256 digest = some canonical) :
    canonical = digest.map lowerByte := by
  rw [canonicalSHA256] at known
  split at known
  · rename_i decoded found
    split at known
    · cases known
      exact encode_decode found
    · cases known
  · cases known

theorem canonicalSHA256_lower (digest : Bytes) : canonicalSHA256 (digest.map lowerByte) = canonicalSHA256 digest := by
  rw [canonicalSHA256, canonicalSHA256, decode_lower]

theorem canonicalSHA256_case {a b : Bytes} (same : a.map lowerByte = b.map lowerByte) :
    canonicalSHA256 a = canonicalSHA256 b := by
  rw [← canonicalSHA256_lower a, same, canonicalSHA256_lower]

variable {t : Issuer}

def Grant.conveyed (g : Grant) : Grant := { g with sha256 := g.sha256.map lowerByte }

variable {g : Grant} {c : Claims}

variable {now : Int} {required : Grant} {token : Bytes}

theorem grantOf_claims (signed : t.claims now g = .ok c) :
    c.expiresAt = some (unix (now + t.ttl)) ∧ grantOf c = some g.conveyed := by
  obtain ⟨_, permitted, signed⟩ := bind_eq_ok.mp signed
  have permission := require_eq_ok.mp permitted
  have file : fileOf (g.file.map formatHash) = some g.file := by
    cases g.file with
    | none => rfl
    | some f => simp [fileOf, parseHash_formatHash, Except.toOption]
  split at signed
  · rename_i unbound
    cases signed
    refine ⟨rfl, ?_⟩
    simp [grantOf, permission, file, digestOf, conveyed, unbound]
  · rename_i bound
    split at signed
    · rename_i digest known
      cases signed
      refine ⟨rfl, ?_⟩
      have lower := canonicalSHA256_eq known
      have again : canonicalSHA256 digest = some digest := by
        rw [lower, canonicalSHA256_lower, known, lower]
      simp [grantOf, permission, file, digestOf, conveyed, again, ← lower]
    · cases signed

theorem claims_case {g' : Grant} (permission : g.permission = g'.permission) (file : g.file = g'.file)
    (digest : g.sha256.map lowerByte = g'.sha256.map lowerByte) (signed : t.claims now g = .ok c) :
    t.claims now g' = .ok c := by
  have empty : g.sha256 = [] ↔ g'.sha256 = [] := by
    rw [← map_eq_nil_iff, digest, map_eq_nil_iff]
  rw [Issuer.claims, permission, file, canonicalSHA256_case digest] at signed
  obtain ⟨u, permitted, signed⟩ := bind_eq_ok.mp signed
  rw [Issuer.claims, permitted, ok_bind]
  by_cases unbound : g.sha256 = []
  · rw [if_pos unbound] at signed
    rw [if_pos (empty.mp unbound)]
    exact signed
  · rw [if_neg unbound] at signed
    rw [if_neg (mt empty.mpr unbound)]
    split at signed
    · exact signed
    · cases signed

theorem sign_eq_ok {exp : Int64} : t.sign now g = .ok (token, exp) ↔
    ∃ c, t.claims now g = .ok c ∧ token = t.token c ∧ exp = unix (now + t.ttl) := by
  rw [Issuer.sign, bind_eq_ok]
  constructor
  · rintro ⟨c, signed, result⟩
    cases result
    exact ⟨c, signed, rfl, rfl⟩
  · rintro ⟨c, signed, rfl, rfl⟩
    exact ⟨c, signed, rfl⟩

theorem decoded_plain {s b : Bytes} (read : Base64.decode s = some b) : dot ∉ s := by
  intro member
  rcases Base64.mem_of_decode read member with letter | ending
  · exact absurd letter (by decide)
  · exact absurd ending (by decide)

theorem signInput_plain (c : Claims) : dot ∉ signInput c := decoded_plain (Base64.decode_encode (marshal c))

theorem signInput_ne_nil (c : Claims) : signInput c ≠ [] := by
  apply Base64.encode_ne_nil
  simp [marshal, ascii]

/-- The token has the signed part of a signed one, and its signature text stands for the same signature. -/
def Carries (token signed : Bytes) : Prop :=
  ∃ input signature s s', signed = tokenPrefix ++ (input ++ dot :: s) ∧ token = tokenPrefix ++ (input ++ dot :: s') ∧
    dot ∉ input ∧ Base64.decode s = some signature ∧ Base64.decode s' = some signature

theorem carries_token : Carries token (t.token c) ↔
    ∃ s, token = tokenPrefix ++ (signInput c ++ dot :: s) ∧ Base64.decode s = some (t.mac (signInput c)) := by
  constructor
  · rintro ⟨input, signature, s, s', signed, shape, plain, decoded, decoded'⟩
    have parts := append_cancel_left signed
    have left : cut [dot] (signInput c ++ dot :: Base64.encode (t.mac (signInput c))) =
        some (signInput c, Base64.encode (t.mac (signInput c))) := cut_letter.mpr ⟨rfl, signInput_plain c⟩
    rw [parts] at left
    have right : cut [dot] (input ++ dot :: s) = some (input, s) := cut_letter.mpr ⟨rfl, plain⟩
    cases right.symm.trans left
    cases decoded.symm.trans (Base64.decode_encode (t.mac (signInput c)))
    exact ⟨s', shape, decoded'⟩
  · rintro ⟨s, shape, decoded⟩
    exact ⟨signInput c, t.mac (signInput c), _, s, rfl, shape, signInput_plain c, Base64.decode_encode _, decoded⟩

variable {unmarshal : Bytes → Option Claims}

theorem validate_eq_some : t.validate unmarshal now token = some g ↔
    ∃ input s payload c exp, token = tokenPrefix ++ (input ++ dot :: s) ∧ dot ∉ input ∧ input ≠ [] ∧
      Base64.decode s = some (t.mac input) ∧ Base64.decode input = some payload ∧ unmarshal payload = some c ∧
      c.expiresAt = some exp ∧ unix now < exp ∧ grantOf c = some g := by
  constructor
  · intro valid
    rw [validate] at valid
    split at valid
    · rename_i labelled
      obtain ⟨rest, rfl⟩ := isPrefixOf_iff_prefix.mp labelled
      rw [drop_left] at valid
      split at valid
      · rename_i input s pieces
        obtain ⟨rfl, plain, -⟩ := splitN_eq_two.mp pieces
        split at valid
        · cases valid
        · rename_i present
          split at valid
          · cases valid
          · rename_i signed
            obtain ⟨payload, decoded, valid⟩ := Option.bind_eq_some_iff.mp valid
            obtain ⟨c, read, valid⟩ := Option.bind_eq_some_iff.mp valid
            obtain ⟨exp, expires, valid⟩ := Option.bind_eq_some_iff.mp valid
            split at valid
            · cases valid
            · rename_i fresh
              exact ⟨input, s, payload, c, exp, rfl, plain, fun empty => present (.inl empty), not_not.mp signed, decoded,
                read, expires, Int64.not_le.mp fresh, valid⟩
      · cases valid
    · cases valid
  · rintro ⟨input, s, payload, c, exp, rfl, plain, present, signed, decoded, read, expires, fresh, granted⟩
    have labelled : tokenPrefix.isPrefixOf (tokenPrefix ++ (input ++ dot :: s)) = true :=
      isPrefixOf_iff_prefix.mpr (prefix_append _ _)
    have pieces : splitN dot 3 (input ++ dot :: s) = [input, s] :=
      splitN_eq_two.mpr ⟨rfl, plain, decoded_plain signed⟩
    have signature : s ≠ [] := by
      rintro rfl
      have empty := congrArg (Option.map length) signed
      rw [Option.map_some, t.size] at empty
      exact absurd empty (by decide)
    rw [validate, if_pos labelled, drop_left, pieces]
    simp only [present, signature, or_self, if_false, signed, ne_eq, not_true_eq_false, decoded, read, expires,
      Int64.not_le.mpr fresh, Option.bind_eq_bind, Option.bind_some, granted]

structure SignCall where
  now : Int
  grant : Grant

/-- Every input whose signature the token shows was signed in the history. -/
def Unforged (t : Issuer) (history : List SignCall) (token : Bytes) : Prop :=
  ∀ input s, token = tokenPrefix ++ (input ++ dot :: s) → Base64.decode s = some (t.mac input) →
    ∃ call ∈ history, ∃ c, t.claims call.now call.grant = .ok c ∧ signInput c = input

theorem unforged_token {history : List SignCall} {call : SignCall} (earlier : call ∈ history)
    (signed : t.claims call.now call.grant = .ok c) : Unforged t history (t.token c) := by
  intro input s shape verified
  have parts := append_cancel_left shape
  have plain := decoded_plain (Base64.decode_encode (t.mac (signInput c)))
  refine ⟨call, earlier, c, signed, ?_⟩
  rcases append_eq_append_iff.mp parts with ⟨d, rfl, tail⟩ | ⟨d, same, tail⟩
  · cases d with
    | nil => exact (append_nil _).symm
    | cons x d =>
      obtain ⟨rfl, rest⟩ := cons.inj tail
      exact absurd (rest ▸ mem_append_right d mem_cons_self) plain
  · cases d with
    | nil => exact same.trans (append_nil _)
    | cons x d =>
      obtain ⟨rfl, rest⟩ := cons.inj tail
      exact absurd (rest ▸ mem_append_right d mem_cons_self) (decoded_plain verified)

def ReadsBack (t : Issuer) (unmarshal : Bytes → Option Claims) (history : List SignCall) : Prop :=
  ∀ call ∈ history, ∀ c, t.claims call.now call.grant = .ok c → unmarshal (marshal c) = some c

variable {history : List SignCall} {now : Int} {token : Bytes}

theorem validate_iff_signed (reads : ReadsBack t unmarshal history) (unforged : Unforged t history token) :
    t.validate unmarshal now token = some g ↔ ∃ call ∈ history, ∃ signed exp,
      t.sign call.now call.grant = .ok (signed, exp) ∧ Carries token signed ∧ unix now < exp ∧ g = call.grant.conveyed := by
  rw [validate_eq_some]
  constructor
  · rintro ⟨input, s, payload, c, exp, shape, -, -, verified, decoded, read, expires, fresh, granted⟩
    obtain ⟨call, earlier, c', signed, rfl⟩ := unforged input s shape verified
    rw [signInput, Base64.decode_encode] at decoded
    cases decoded
    cases (reads call earlier c' signed).symm.trans read
    obtain ⟨expires', granted'⟩ := grantOf_claims signed
    cases expires'.symm.trans expires
    cases granted'.symm.trans granted
    exact ⟨call, earlier, _, _, sign_eq_ok.mpr ⟨c, signed, rfl, rfl⟩, carries_token.mpr ⟨s, shape, verified⟩, fresh, rfl⟩
  · rintro ⟨call, earlier, token', exp, sign, carried, fresh, rfl⟩
    obtain ⟨c, signed, rfl, rfl⟩ := sign_eq_ok.mp sign
    obtain ⟨s, shape, verified⟩ := carries_token.mp carried
    obtain ⟨expires, granted⟩ := grantOf_claims signed
    exact ⟨signInput c, s, marshal c, c, _, shape, signInput_plain c, signInput_ne_nil c, verified,
      Base64.decode_encode _, reads call earlier c signed, expires, fresh, granted⟩

/-- A grant covers a required one: same permission and, for a route with a target, no binding to anything else. -/
def Grant.Covers (g required : Grant) : Prop :=
  g.permission = required.permission ∧ (required.file ≠ none ∨ required.sha256 ≠ [] →
    (∀ f, g.file = some f → required.file = some f) ∧ (g.sha256 ≠ [] → g.sha256.map lowerByte = required.sha256))

theorem check_eq_ok {granted required : Grant} : granted.check required = .ok () ↔
    granted.permission = required.permission ∧ (required.file ≠ none ∨ required.sha256 ≠ [] →
      (granted.file ≠ none → granted.file = required.file) ∧ (granted.sha256 ≠ [] → granted.sha256 = required.sha256)) := by
  rw [check]
  split_ifs with permission untargeted file digest
  · simp [permission]
  · simp [not_not.mp permission, untargeted.1, untargeted.2]
  · simp only [false_iff]
    rintro ⟨-, bindings⟩
    exact file.2 ((bindings (by tauto)).1 file.1)
  · simp only [false_iff]
    rintro ⟨-, bindings⟩
    exact digest.2 ((bindings (by tauto)).2 digest.1)
  · simp only [true_iff]
    exact ⟨not_not.mp permission, fun _ => ⟨fun bound => by tauto, fun bound => by tauto⟩⟩

theorem validate_nil : t.validate unmarshal now [] = none := by
  rw [Option.eq_none_iff_forall_ne_some]
  intro granted valid
  obtain ⟨input, s, -, -, -, shape, -⟩ := validate_eq_some.mp valid
  simp [tokenPrefix, ascii] at shape

theorem authorize_eq_ok : t.authorize unmarshal now (ascii "Bearer " ++ token) required = .ok () ↔
    ∃ granted, t.validate unmarshal now token = some granted ∧ granted.check required = .ok () := by
  have rest : (ascii "Bearer " ++ token).drop 7 = token := drop_left' rfl
  have labelled : (ascii "Bearer ").isPrefixOf (ascii "Bearer " ++ token) = true :=
    isPrefixOf_iff_prefix.mpr (prefix_append _ _)
  have presented : (bearerToken (ascii "Bearer " ++ token)).bind (t.validate unmarshal now) =
      t.validate unmarshal now token := by
    rw [bearerToken, rest]
    by_cases empty : token = []
    · rw [if_neg (by simp [empty]), empty, validate_nil]
      rfl
    · rw [if_pos ⟨labelled, empty⟩]
      rfl
  rw [authorize, presented]
  cases t.validate unmarshal now token with
  | none => simp
  | some granted => simp

theorem conveyed_unique (reads : ReadsBack t unmarshal history) {call call' : SignCall} (earlier : call ∈ history)
    (earlier' : call' ∈ history) {signed signed' : Bytes} {exp exp' : Int64}
    (sign : t.sign call.now call.grant = .ok (signed, exp)) (sign' : t.sign call'.now call'.grant = .ok (signed', exp'))
    (carried : Carries token signed) (carried' : Carries token signed') :
    call.grant.conveyed = call'.grant.conveyed := by
  obtain ⟨c, claims, rfl, rfl⟩ := sign_eq_ok.mp sign
  obtain ⟨c', claims', rfl, rfl⟩ := sign_eq_ok.mp sign'
  obtain ⟨s, shape, -⟩ := carries_token.mp carried
  obtain ⟨s', shape', -⟩ := carries_token.mp carried'
  have left : cut [dot] (signInput c ++ dot :: s) = some (signInput c, s) := cut_letter.mpr ⟨rfl, signInput_plain c⟩
  have right : cut [dot] (signInput c' ++ dot :: s') = some (signInput c', s') :=
    cut_letter.mpr ⟨rfl, signInput_plain c'⟩
  rw [append_cancel_left (shape.symm.trans shape'), right] at left
  have inputs : signInput c' = signInput c := (Prod.mk.inj (Option.some.inj left)).1
  have payloads : marshal c' = marshal c := by
    have decoded := congrArg Base64.decode inputs
    rw [signInput, signInput, Base64.decode_encode, Base64.decode_encode] at decoded
    exact Option.some.inj decoded
  have same := reads call' earlier' c' claims'
  rw [payloads, reads call earlier c claims] at same
  cases same
  exact Option.some.inj ((grantOf_claims claims).2.symm.trans (grantOf_claims claims').2)

theorem check_conveyed : g.conveyed.check required = .ok () ↔ g.Covers required := by
  rw [check_eq_ok, Grant.Covers]
  refine and_congr_right fun _ => imp_congr_right fun _ => and_congr ?_ ?_
  · cases file : g.file with
    | none => simp [conveyed, file]
    | some f => simp [conveyed, file, eq_comm]
  · simp [conveyed]

/-- Tokens grant exactly what was signed: the grant of an earlier signing whose signature they carry, until it
expires. A file's token is of no use for another file, and digests may be signed in either case. -/
theorem tokens_grant_what_was_signed (reads : ReadsBack t unmarshal history) (unforged : Unforged t history token) :
    (∀ required, t.authorize unmarshal now (ascii "Bearer " ++ token) required = .ok () ↔
      ∃ call ∈ history, ∃ signed exp, t.sign call.now call.grant = .ok (signed, exp) ∧ Carries token signed ∧
        unix now < exp ∧ call.grant.Covers required) ∧
    (∀ call ∈ history, ∀ signed exp, t.sign call.now call.grant = .ok (signed, exp) → Carries token signed →
      ∀ f required, call.grant.file = some f → (required.file ≠ none ∨ required.sha256 ≠ []) → required.file ≠ some f →
        t.authorize unmarshal now (ascii "Bearer " ++ token) required ≠ .ok ()) ∧
    (∀ (time : Int) (g g' : Grant), g.permission = g'.permission → g.file = g'.file →
      g.sha256.map lowerByte = g'.sha256.map lowerByte →
        ∀ result, t.sign time g = .ok result ↔ t.sign time g' = .ok result) := by
  have authorized : ∀ required, t.authorize unmarshal now (ascii "Bearer " ++ token) required = .ok () ↔
      ∃ call ∈ history, ∃ signed exp, t.sign call.now call.grant = .ok (signed, exp) ∧ Carries token signed ∧
        unix now < exp ∧ call.grant.Covers required := by
    intro required
    rw [authorize_eq_ok]
    constructor
    · rintro ⟨granted, valid, checked⟩
      obtain ⟨call, earlier, signed, exp, sign, carried, fresh, rfl⟩ := (validate_iff_signed reads unforged).mp valid
      exact ⟨call, earlier, signed, exp, sign, carried, fresh, check_conveyed.mp checked⟩
    · rintro ⟨call, earlier, signed, exp, sign, carried, fresh, covers⟩
      exact ⟨_, (validate_iff_signed reads unforged).mpr ⟨call, earlier, signed, exp, sign, carried, fresh, rfl⟩,
        check_conveyed.mpr covers⟩
  refine ⟨authorized, ?_, ?_⟩
  · intro call earlier signed exp sign carried f required bound targeted other result
    obtain ⟨call', earlier', signed', exp', sign', carried', -, -, bindings⟩ := (authorized required).mp result
    have same := congrArg Grant.file (conveyed_unique reads earlier earlier' sign sign' carried carried')
    exact other ((bindings targeted).1 f (same.symm.trans bound))
  · intro time g g' permission file digest result
    have claims : ∀ c, t.claims time g = .ok c ↔ t.claims time g' = .ok c := fun c =>
      ⟨claims_case permission file digest, claims_case permission.symm file.symm digest.symm⟩
    obtain ⟨token', exp⟩ := result
    rw [sign_eq_ok, sign_eq_ok]
    simp only [claims]

def sampleIssuer : Issuer := ⟨fun _ => replicate 32 7, fun _ => rfl, 900000000000⟩

/-- A read grant for one file, signed at the start of the epoch with a digest in upper case. -/
def sampleCall : SignCall := ⟨0, ⟨read, some Hash.zero, replicate 64 65⟩⟩

def sampleClaims : Claims := ⟨read, some 900, some (formatHash Hash.zero), some (replicate 64 97)⟩

theorem sample_authorized :
    sampleIssuer.authorize (fun _ => some sampleClaims) 899999999999 (ascii "Bearer " ++ sampleIssuer.token sampleClaims)
      ⟨read, some Hash.zero, replicate 64 97⟩ = .ok () := by
  have claims : sampleIssuer.claims sampleCall.now sampleCall.grant = .ok sampleClaims := by decide +kernel
  have reads : ReadsBack sampleIssuer (fun _ => some sampleClaims) [sampleCall] := by
    intro call earlier c signed
    cases mem_singleton.mp earlier
    exact congrArg some (Except.ok.inj (claims.symm.trans signed))
  have unforged : Unforged sampleIssuer [sampleCall] (sampleIssuer.token sampleClaims) :=
    unforged_token mem_cons_self claims
  refine ((tokens_grant_what_was_signed reads unforged).1 _).mpr ⟨sampleCall, mem_cons_self, _, _,
    sign_eq_ok.mpr ⟨_, claims, rfl, rfl⟩, carries_token.mpr ⟨_, rfl, Base64.decode_encode _⟩, by decide, rfl, fun _ => ?_⟩
  exact ⟨fun f same => same, fun _ => by decide⟩

end Xet.Auth
