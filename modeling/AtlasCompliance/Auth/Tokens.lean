import AtlasCompliance.Clearance
import AtlasCompliance.Java.Instant
import AtlasCompliance.Java.Sha256

/-! The three issuers and the three verifiers of clearance tokens. The JWT library and HMAC are
parameters; claims, keys and checks are the services'. -/
namespace AtlasCompliance.Auth
open Java

/-- The claims that the issuers set. -/
structure JwtClaims where
  sub : Option String
  clearance : Option String
  iss : Option String
  aud : List String
  iat : Option ℤ
  exp : Option ℤ
  jti : Option String
  deriving DecidableEq, Repr

/-- The JWT library with HS256: the text that is signed, the text that is sent, the MAC. -/
structure JwtLibrary where
  signingInput : JwtClaims → String
  getJWTClaimsSet : String → Option JwtClaims
  mac : List UInt8 → String → List UInt8
  serialize : String × List UInt8 → String
  parse : String → Option (String × List UInt8)
  isUri : String → Bool

/-- The configuration, as bound from the environment. The tool server shares the provider's signing
key, issuer and audience, and the rag-engine the internal secret. -/
structure Config where
  signingKey : Option String
  issuer : Option String
  tokenTtlSeconds : ℤ
  audience : Option String
  resourceTtlSeconds : ℤ
  internalSecret : Option String

def blankTo (v : Option String) (fallback : String) : String :=
  match v with
  | none => fallback
  | some s => if Text.isBlank s then fallback else s

namespace Config

/-- The bindings of the properties records, with their fallbacks. -/
def idpIssuer (cfg : Config) : String := blankTo cfg.issuer "atlas-sim-idp"
def idpTtl (cfg : Config) : ℤ := if 0 < cfg.tokenTtlSeconds then cfg.tokenTtlSeconds else 3600
def resourceAudience (cfg : Config) : String := blankTo cfg.audience "atlas-mcp-tools"
def resourceTtl (cfg : Config) : ℤ := if 0 < cfg.resourceTtlSeconds then cfg.resourceTtlSeconds else 300

/-- `SecurityKeys.deriveHs256` of the provider's secret and of the internal one. -/
def idpKey (sha : Sha256) (cfg : Config) : List UInt8 :=
  sha (blankTo cfg.signingKey "change-me-locally").toUTF8
def internalKey (sha : Sha256) (cfg : Config) : List UInt8 :=
  sha (blankTo cfg.internalSecret "change-me-locally").toUTF8

end Config

/-- `JWSObject.sign` and `serialize`. -/
def sign (lib : JwtLibrary) (key : List UInt8) (claims : JwtClaims) : String :=
  lib.serialize (lib.signingInput claims,lib.mac key (lib.signingInput claims))

/-- `jwt.verify(new MACVerifier(key))` and then the claims; none where one of them fails. -/
def verifiedClaims (lib : JwtLibrary) (key : List UInt8) (token : String) : Option JwtClaims :=
  match lib.parse token with
  | none => none
  | some (input,tag) => if lib.mac key input = tag then lib.getJWTClaimsSet input else none

/-- `exp.toInstant().isBefore(now)`. -/
def expired (exp : ℤ) (now : Instant) : Prop :=
  exp < now.epochSecond ∨ exp = now.epochSecond ∧ 0 < now.nano.val

instance (exp : ℤ) (now : Instant) : Decidable (expired exp now) := by
  unfold expired
  infer_instance

structure CallerClearance where
  subject : String
  clearance : Clearance
  deriving DecidableEq, Repr

namespace ClearanceTokenService

def claims (cfg : Config) (subject : String) (clearance : Clearance) (now : Instant) (jti : String) :
    JwtClaims :=
  ⟨some subject,some clearance.label,some cfg.idpIssuer,[],some now.epochSecond,
    some (now.epochSecond + cfg.idpTtl),some jti⟩

def mint (lib : JwtLibrary) (sha : Sha256) (cfg : Config) (subject : String) (clearance : Clearance)
    (now : Instant) (jti : String) : String :=
  sign lib (cfg.idpKey sha) (claims cfg subject clearance now jti)

/-- The checks of `verify` after the signature. -/
def check (cfg : Config) (now : Instant) (c : JwtClaims) : Except String CallerClearance :=
  match c.exp with
  | none => .error "expired"
  | some exp =>
    if expired exp now then .error "expired"
    else if c.iss ≠ some cfg.idpIssuer then .error "wrong issuer"
    else match c.clearance,c.sub with
      | some label,some subject => match Clearance.fromLabel label with
        | none => .error "invalid token: "
        | some clearance => .ok ⟨subject,clearance⟩
      | _,_ => .error "missing subject/clearance"

/-- The error is the message of `InvalidTokenException`, without the text of a wrapped exception. -/
def verify (lib : JwtLibrary) (sha : Sha256) (cfg : Config) (token : String) (now : Instant) :
    Except String CallerClearance :=
  match lib.parse token with
  | none => .error "malformed token"
  | some (input,tag) =>
    if lib.mac (cfg.idpKey sha) input ≠ tag then .error "bad signature"
    else match lib.getJWTClaimsSet input with
      | none => .error "invalid token: "
      | some c => check cfg now c

end ClearanceTokenService

/-- `JwtClearanceFilter` on a protected path: the caller, or the reason of the 401. -/
def jwtClearanceFilter (lib : JwtLibrary) (sha : Sha256) (cfg : Config) (authorization : Option String)
    (now : Instant) : Except String CallerClearance :=
  match authorization with
  | none => .error "missing bearer token"
  | some header =>
    if "Bearer ".toList.isPrefixOf header.toList then
      match ClearanceTokenService.verify lib sha cfg
          (Text.strip (String.ofList (header.toList.drop 7))) now with
      | .ok caller => .ok caller
      | .error _ => .error "invalid token"
    else .error "missing bearer token"

namespace ResourceScopedTokenIssuer

def claims (cfg : Config) (subject : String) (clearance : Clearance) (now : Instant) (jti : String) :
    JwtClaims :=
  ⟨some subject,some clearance.label,some cfg.idpIssuer,[cfg.resourceAudience],some now.epochSecond,
    some (now.epochSecond + cfg.resourceTtl),some jti⟩

def mint (lib : JwtLibrary) (sha : Sha256) (cfg : Config) (subject : String) (clearance : Clearance)
    (now : Instant) (jti : String) : String :=
  sign lib (cfg.idpKey sha) (claims cfg subject clearance now jti)

end ResourceScopedTokenIssuer

namespace DownstreamClearanceSigner

def ISSUER : String := "atlas-gateway"
def TTL_SECONDS : ℤ := 60

def claims (subject : String) (clearance : Clearance) (now : Instant) : JwtClaims :=
  ⟨some subject,some clearance.label,some ISSUER,[],some now.epochSecond,
    some (now.epochSecond + TTL_SECONDS),none⟩

def mint (lib : JwtLibrary) (sha : Sha256) (cfg : Config) (subject : String) (clearance : Clearance)
    (now : Instant) : String :=
  sign lib (cfg.internalKey sha) (claims subject clearance now)

end DownstreamClearanceSigner

/-- What the tool server reads of an accepted token. -/
structure ToolCaller where
  caller : String
  clearance : String
  deriving DecidableEq, Repr

namespace ResourceServerConfig

/-- The default clock skew of `JwtTimestampValidator`. -/
def skewed (now : Instant) : Instant := { now with epochSecond := now.epochSecond - 60 }

/-- The claim conversion and the validators; an issuer with a colon has to be a URI. Then
`TokenToolCallerContext.current`. -/
def validate (lib : JwtLibrary) (cfg : Config) (now : Instant) (c : JwtClaims) : Option ToolCaller :=
  match c.iss,c.exp,c.sub,c.clearance with
  | some iss,some exp,some caller,some clearance =>
    if ':' ∈ iss.toList ∧ ¬ lib.isUri iss then none
    else if expired exp (skewed now) then none
    else if iss ≠ cfg.idpIssuer then none
    else if cfg.resourceAudience ∉ c.aud then none
    else some ⟨caller,clearance⟩
  | _,_,_,_ => none

/-- `jwtDecoder().decode`. -/
def decode (lib : JwtLibrary) (sha : Sha256) (cfg : Config) (token : String) (now : Instant) :
    Option ToolCaller :=
  (verifiedClaims lib (cfg.idpKey sha) token).bind (validate lib cfg now)

end ResourceServerConfig

namespace DownstreamClearanceVerifier

def EXPECTED_ISSUER : String := "atlas-gateway"

/-- The checks of `verify` after the signature. -/
def check (now : Instant) (c : JwtClaims) : Option Clearance :=
  match c.exp with
  | none => none
  | some exp =>
    if expired exp now then none
    else if c.iss ≠ some EXPECTED_ISSUER then none
    else match c.clearance with
      | none => none
      | some clearance => Clearance.fromLabel clearance

def verify (lib : JwtLibrary) (sha : Sha256) (cfg : Config) (token : Option String) (now : Instant) :
    Option Clearance :=
  match token with
  | none => none
  | some text =>
    if Text.isBlank text then none
    else (verifiedClaims lib (cfg.internalKey sha) (Text.strip text)).bind (check now)

end DownstreamClearanceVerifier

/-- The three kinds of token. -/
inductive TokenKind
  | client
  | resource
  | assertion
  deriving DecidableEq, Repr

/-- One token minted at some time; `jti` is the random id of the provider's tokens. -/
structure Minted where
  kind : TokenKind
  subject : String
  clearance : Clearance
  now : Instant
  jti : String
  deriving DecidableEq, Repr

namespace Minted

def claims (cfg : Config) (m : Minted) : JwtClaims :=
  match m.kind with
  | .client => ClearanceTokenService.claims cfg m.subject m.clearance m.now m.jti
  | .resource => ResourceScopedTokenIssuer.claims cfg m.subject m.clearance m.now m.jti
  | .assertion => DownstreamClearanceSigner.claims m.subject m.clearance m.now

def key (sha : Sha256) (cfg : Config) (m : Minted) : List UInt8 :=
  match m.kind with
  | .client => cfg.idpKey sha
  | .resource => cfg.idpKey sha
  | .assertion => cfg.internalKey sha

/-- The string its issuer returned. -/
def token (lib : JwtLibrary) (sha : Sha256) (cfg : Config) (m : Minted) : String :=
  match m.kind with
  | .client => ClearanceTokenService.mint lib sha cfg m.subject m.clearance m.now m.jti
  | .resource => ResourceScopedTokenIssuer.mint lib sha cfg m.subject m.clearance m.now m.jti
  | .assertion => DownstreamClearanceSigner.mint lib sha cfg m.subject m.clearance m.now

/-- The `exp` it was minted with. -/
def exp (cfg : Config) (m : Minted) : ℤ :=
  match m.kind with
  | .client => m.now.epochSecond + cfg.idpTtl
  | .resource => m.now.epochSecond + cfg.resourceTtl
  | .assertion => m.now.epochSecond + DownstreamClearanceSigner.TTL_SECONDS

end Minted

/-- The string reads as this token: the same signed text under the same MAC. -/
def Carries (lib : JwtLibrary) (sha : Sha256) (cfg : Config) (m : Minted) (s : String) : Prop :=
  lib.parse s = some (lib.signingInput (m.claims cfg),
    lib.mac (m.key sha cfg) (lib.signingInput (m.claims cfg)))

/-- The library on the tokens in play: claims are read back as they were signed, serialized tokens
parse to what was signed, the empty text is no token, and no presented string carries a MAC that was
not made by an issuer. -/
structure JwtLibrary.Sound (lib : JwtLibrary) (sha : Sha256) (cfg : Config) (minted : List Minted)
    (presented : List String) : Prop where
  claims : ∀ m ∈ minted, lib.getJWTClaimsSet (lib.signingInput (m.claims cfg)) = some (m.claims cfg)
  parse : ∀ m ∈ minted, Carries lib sha cfg m (m.token lib sha cfg)
  parseEmpty : lib.parse "" = none
  unforged : ∀ s ∈ presented, ∀ input tag key, lib.parse s = some (input,tag) →
    key ∈ [cfg.idpKey sha,cfg.internalKey sha] → lib.mac key input = tag →
    ∃ m ∈ minted, m.key sha cfg = key ∧ lib.signingInput (m.claims cfg) = input

end AtlasCompliance.Auth
