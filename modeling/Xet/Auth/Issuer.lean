import Xet.Hash
import Xet.Lib.Base64
import Xet.Lib.Hex
import Xet.Lib.Text

/-! Signed bearer tokens. An issuer signs the claims of a grant; a request is authorized by what the
presented token says, once its signature and its expiry are checked. -/
namespace Xet.Auth
open Wire Text

def tokenPrefix : Bytes := ascii "xetd."

def dot : UInt8 := 46

def read : Bytes := ascii "read"

def write : Bytes := ascii "write"

/-- A permission, bound to a file or to a digest where these are given. -/
structure Grant where
  permission : Bytes
  file : Option FileHash
  sha256 : Bytes
  deriving DecidableEq

structure Claims where
  permission : Bytes
  expiresAt : Option Int64
  file : Option Bytes
  sha256 : Option Bytes
  deriving DecidableEq

/-- An issuer with its keyed MAC; times are in nanoseconds. -/
structure Issuer where
  mac : Bytes → Bytes
  size : ∀ input, (mac input).length = 32
  ttl : Int

def unix (time : Int) : Int64 := Int64.ofInt (time / 1000000000)

inductive SignError where
  | unsupportedPermission (permission : Bytes)
  | invalidSHA256 (digest : Bytes)
  deriving DecidableEq

inductive AuthError where
  | unauthenticated
  | forbidden
  deriving DecidableEq

def canonicalSHA256 (digest : Bytes) : Option Bytes :=
  match Hex.decode digest with
  | some decoded => if decoded.length = 32 then some (Hex.encode decoded) else none
  | none => none

def appendInt (n : Int64) : Bytes :=
  (if n < 0 then ascii "-" else []) ++ (digits 10 64 n.toInt.natAbs).map digitByte

def member (name : String) (text : Bytes) : Bytes := ascii ",\"" ++ ascii name ++ ascii "\":\"" ++ text ++ ascii "\""

def marshal (c : Claims) : Bytes :=
  ascii "\x7b\"permission\":\"" ++ c.permission ++ ascii "\",\"exp\":" ++
    ((c.expiresAt.map appendInt).getD (ascii "null") ++ ((c.file.map (member "file")).getD [] ++
      ((c.sha256.map (member "sha256")).getD [] ++ ascii "\x7d")))

section
variable (t : Issuer)

def Issuer.claims (now : Int) (g : Grant) : Except SignError Claims := do
  require (g.permission = read ∨ g.permission = write) (.unsupportedPermission g.permission)
  let c : Claims := ⟨g.permission, some (unix (now + t.ttl)), g.file.map formatHash, none⟩
  if g.sha256 = [] then return c
  else
    match canonicalSHA256 g.sha256 with
    | some digest => return { c with sha256 := some digest }
    | none => throw (.invalidSHA256 g.sha256)

def signInput (c : Claims) : Bytes := Base64.encode (marshal c)

def Issuer.token (c : Claims) : Bytes :=
  tokenPrefix ++ (signInput c ++ dot :: Base64.encode (t.mac (signInput c)))

def Issuer.sign (now : Int) (g : Grant) : Except SignError (Bytes × Int64) := do
  let c ← t.claims now g
  return (t.token c, unix (now + t.ttl))

variable (unmarshal : Bytes → Option Claims)

def fileOf : Option Bytes → Option (Option FileHash)
  | some text => (parseHash text).toOption.map some
  | none => some none

def digestOf : Option Bytes → Option Bytes
  | some digest => canonicalSHA256 digest
  | none => some []

def grantOf (c : Claims) : Option Grant := do
  guard (c.permission = read ∨ c.permission = write)
  let file ← fileOf c.file
  let sha256 ← digestOf c.sha256
  return ⟨c.permission, file, sha256⟩

def Issuer.validate (now : Int) (token : Bytes) : Option Grant :=
  if tokenPrefix.isPrefixOf token then
    match splitN dot 3 (token.drop tokenPrefix.length) with
    | [input, signature] =>
      if input = [] ∨ signature = [] then none
      else if Base64.decode signature ≠ some (t.mac input) then none
      else do
        let payload ← Base64.decode input
        let c ← unmarshal payload
        let exp ← c.expiresAt
        if exp ≤ unix now then none else grantOf c
    | _ => none
  else none

def bearerToken (header : Bytes) : Option Bytes :=
  if (ascii "Bearer ").isPrefixOf header ∧ header.drop 7 ≠ [] then some (header.drop 7) else none

def Grant.check (granted required : Grant) : Except AuthError Unit :=
  if granted.permission ≠ required.permission then .error .forbidden
  -- Routes without a target check the permission only.
  else if required.file = none ∧ required.sha256 = [] then .ok ()
  else if granted.file ≠ none ∧ granted.file ≠ required.file then .error .forbidden
  else if granted.sha256 ≠ [] ∧ granted.sha256 ≠ required.sha256 then .error .forbidden
  else .ok ()

def Issuer.authorize (now : Int) (header : Bytes) (required : Grant) : Except AuthError Unit :=
  match (bearerToken header).bind (t.validate unmarshal now) with
  | none => .error .unauthenticated
  | some granted => granted.check required

end

end Xet.Auth
