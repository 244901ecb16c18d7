import AtlasCompliance.Auth.Tokens

/-! Which kind of token each verifier accepts, under every configuration. -/
namespace AtlasCompliance.Auth
open Java

namespace Minted

/-- The `iss` it was minted with. -/
def iss (cfg : Config) (m : Minted) : String :=
  match m.kind with
  | .client => cfg.idpIssuer
  | .resource => cfg.idpIssuer
  | .assertion => DownstreamClearanceSigner.ISSUER

theorem claims_eq (cfg : Config) (m : Minted) : (m.claims cfg).exp = some (m.exp cfg) ∧
    (m.claims cfg).iss = some (m.iss cfg) ∧ (m.claims cfg).sub = some m.subject ∧
    (m.claims cfg).clearance = some m.clearance.label := by
  unfold claims exp iss
  cases m.kind <;> exact ⟨rfl,rfl,rfl,rfl⟩

theorem claims_aud (cfg : Config) (m : Minted) :
    (m.claims cfg).aud = if m.kind = .resource then [cfg.resourceAudience] else [] := by
  unfold claims
  cases m.kind <;> rfl

/-- The audience tells resource tokens apart, and the random id the internal assertions. -/
theorem kind_of_claims {cfg : Config} {m m' : Minted} (h : m.claims cfg = m'.claims cfg) :
    m.kind = m'.kind := by
  have haud := congrArg JwtClaims.aud h
  have hjti := congrArg JwtClaims.jti h
  unfold claims at haud hjti
  cases hk : m.kind <;> cases hk' : m'.kind <;>
    simp [hk,hk',ClearanceTokenService.claims,ResourceScopedTokenIssuer.claims,
      DownstreamClearanceSigner.claims] at haud hjti ⊢

end Minted

/-- On minted claims the Gateway checks the expiry and the issuer, and nothing else. -/
theorem ClearanceTokenService.check_minted {cfg : Config} {now : Instant} {m : Minted}
    {r : CallerClearance} : check cfg now (m.claims cfg) = .ok r ↔
      ¬ expired (m.exp cfg) now ∧ m.iss cfg = cfg.idpIssuer ∧ r = ⟨m.subject,m.clearance⟩ := by
  obtain ⟨hexp,hiss,hsub,hclearance⟩ := m.claims_eq cfg
  simp only [check,hexp,hiss,hsub,hclearance,Clearance.fromLabel_label]
  by_cases hx : expired (m.exp cfg) now <;> by_cases hi : m.iss cfg = cfg.idpIssuer <;>
    simp [hx,hi]
  exact eq_comm

/-- The tool server also checks the audience, which only resource tokens name. -/
theorem ResourceServerConfig.validate_minted {lib : JwtLibrary} {cfg : Config} {now : Instant}
    {m : Minted} {r : ToolCaller} (h : validate lib cfg now (m.claims cfg) = some r) :
    m.kind = .resource ∧ ¬ expired (m.exp cfg) (skewed now) ∧ r = ⟨m.subject,m.clearance.label⟩ := by
  obtain ⟨hexp,hiss,hsub,hclearance⟩ := m.claims_eq cfg
  simp only [validate,hexp,hiss,hsub,hclearance,m.claims_aud cfg] at h
  split_ifs at h with h1 h2 h3 h4 h5 <;> simp_all

theorem DownstreamClearanceVerifier.check_minted {cfg : Config} {now : Instant} {m : Minted}
    {c : Clearance} : check now (m.claims cfg) = some c ↔
      ¬ expired (m.exp cfg) now ∧ m.iss cfg = EXPECTED_ISSUER ∧ c = m.clearance := by
  obtain ⟨hexp,hiss,-,hclearance⟩ := m.claims_eq cfg
  simp only [check,hexp,hiss,hclearance,Clearance.fromLabel_label]
  by_cases hx : expired (m.exp cfg) now <;> by_cases hi : m.iss cfg = EXPECTED_ISSUER <;>
    simp [hx,hi]
  exact eq_comm

section
variable {lib : JwtLibrary} {sha : Sha256} {cfg : Config} {minted : List Minted}
variable {presented : List String} (hlib : lib.Sound sha cfg minted presented)

include hlib

/-- The claims under a service key are those of a token minted with that key. -/
theorem verifiedClaims_iff {s : String} (hs : s ∈ presented) {key : List UInt8}
    (hkey : key ∈ [cfg.idpKey sha,cfg.internalKey sha]) {c : JwtClaims} :
    verifiedClaims lib key s = some c ↔
      ∃ m ∈ minted, m.key sha cfg = key ∧ Carries lib sha cfg m s ∧ c = m.claims cfg := by
  constructor
  · intro h
    unfold verifiedClaims at h
    cases hp : lib.parse s with
    | none => simp [hp] at h
    | some p =>
      obtain ⟨input,tag⟩ := p
      simp only [hp] at h
      split at h
      · rename_i hmac
        obtain ⟨m,hm,hk,rfl⟩ := hlib.unforged s hs input tag key hp hkey hmac
        rw [hlib.claims m hm] at h
        exact ⟨m,hm,hk,by rw [Carries,hp,hk,hmac],(Option.some.inj h).symm⟩
      · exact absurd h (by simp)
  · rintro ⟨m,hm,rfl,hc,rfl⟩
    simp [verifiedClaims,show lib.parse s = _ from hc,hlib.claims m hm]

/-- A string carries tokens of one kind only. -/
theorem kind_unique {s : String} {m m' : Minted} (hm : m ∈ minted) (hm' : m' ∈ minted)
    (h : Carries lib sha cfg m s) (h' : Carries lib sha cfg m' s) : m.kind = m'.kind := by
  have hinput := congrArg Prod.fst (Option.some.inj (h.symm.trans h'))
  apply Minted.kind_of_claims
  have hc := hlib.claims m hm
  rw [show lib.signingInput (m.claims cfg) = lib.signingInput (m'.claims cfg) from hinput,
    hlib.claims m' hm'] at hc
  exact (Option.some.inj hc).symm

theorem ClearanceTokenService.verify_iff {s : String} (hs : s ∈ presented) {now : Instant}
    {r : CallerClearance} : verify lib sha cfg s now = .ok r ↔ ∃ m ∈ minted,
      m.key sha cfg = cfg.idpKey sha ∧ Carries lib sha cfg m s ∧ ¬ expired (m.exp cfg) now ∧
        m.iss cfg = cfg.idpIssuer ∧ r = ⟨m.subject,m.clearance⟩ := by
  have hclaims : verify lib sha cfg s now = .ok r ↔
      ∃ c, verifiedClaims lib (cfg.idpKey sha) s = some c ∧ check cfg now c = .ok r := by
    unfold verify verifiedClaims
    cases hp : lib.parse s with
    | none => simp
    | some p =>
      by_cases hmac : lib.mac (cfg.idpKey sha) p.1 = p.2
      · cases hc : lib.getJWTClaimsSet p.1 <;> simp [hmac,hc]
      · simp [hmac]
  rw [hclaims]
  constructor
  · rintro ⟨c,hc,hr⟩
    obtain ⟨m,hm,hk,hcarry,rfl⟩ := (verifiedClaims_iff hlib hs (by simp)).mp hc
    exact ⟨m,hm,hk,hcarry,check_minted.mp hr⟩
  · rintro ⟨m,hm,hk,hcarry,hr⟩
    exact ⟨_,(verifiedClaims_iff hlib hs (by simp)).mpr ⟨m,hm,hk,hcarry,rfl⟩,check_minted.mpr hr⟩

theorem ResourceServerConfig.decode_some {s : String} (hs : s ∈ presented) {now : Instant}
    {r : ToolCaller} (h : decode lib sha cfg s now = some r) : ∃ m ∈ minted, m.kind = .resource ∧
      Carries lib sha cfg m s ∧ ¬ expired (m.exp cfg) (skewed now) ∧
        r = ⟨m.subject,m.clearance.label⟩ := by
  obtain ⟨c,hc,hr⟩ := Option.bind_eq_some_iff.mp h
  obtain ⟨m,hm,-,hcarry,rfl⟩ := (verifiedClaims_iff hlib hs (by simp)).mp hc
  obtain ⟨hkind,hexp,hcaller⟩ := validate_minted hr
  exact ⟨m,hm,hkind,hcarry,hexp,hcaller⟩

theorem DownstreamClearanceVerifier.verify_iff {s : String} (hs : Text.strip s ∈ presented)
    (hblank : Text.isBlank s = false) {now : Instant} {c : Clearance} :
    verify lib sha cfg (some s) now = some c ↔ ∃ m ∈ minted, m.key sha cfg = cfg.internalKey sha ∧
      Carries lib sha cfg m (Text.strip s) ∧ ¬ expired (m.exp cfg) now ∧
        m.iss cfg = EXPECTED_ISSUER ∧ c = m.clearance := by
  simp only [verify,hblank,Bool.false_eq_true,if_false,Option.bind_eq_some_iff]
  constructor
  · rintro ⟨claims,hc,hr⟩
    obtain ⟨m,hm,hk,hcarry,rfl⟩ := (verifiedClaims_iff hlib hs (by simp)).mp hc
    exact ⟨m,hm,hk,hcarry,check_minted.mp hr⟩
  · rintro ⟨m,hm,hk,hcarry,hr⟩
    exact ⟨_,(verifiedClaims_iff hlib hs (by simp)).mpr ⟨m,hm,hk,hcarry,rfl⟩,check_minted.mpr hr⟩

end

theorem strip_of_isBlank {s : String} (h : Text.isBlank s = true) : Text.strip s = "" := by
  have hd : s.toList.dropWhile isWhitespace = [] := List.dropWhile_eq_nil_iff.mpr (List.all_eq_true.mp h)
  simp [Text.strip,hd]

theorem jwtClearanceFilter_bearer {lib : JwtLibrary} {sha : Sha256} {cfg : Config} {s : String}
    {now : Instant} {r : CallerClearance} :
    jwtClearanceFilter lib sha cfg (some ("Bearer " ++ s)) now = .ok r ↔
      ClearanceTokenService.verify lib sha cfg (Text.strip s) now = .ok r := by
  have hdrop : String.ofList (("Bearer " ++ s).toList.drop 7) = s := by simp
  have hpre : "Bearer ".toList.isPrefixOf ("Bearer " ++ s).toList = true := by simp
  simp only [jwtClearanceFilter,hpre,if_true,hdrop]
  cases ClearanceTokenService.verify lib sha cfg (Text.strip s) now <;> simp

/-- Each service accepts the string only as an unexpired token of its own kind, and reads from it what
it was minted with. -/
def OwnKind (lib : JwtLibrary) (sha : Sha256) (cfg : Config) (minted : List Minted) (s : String)
    (now : Instant) : Prop :=
  (∀ r, jwtClearanceFilter lib sha cfg (some ("Bearer " ++ s)) now = .ok r → ∃ m ∈ minted,
    m.kind = .client ∧ Carries lib sha cfg m (Text.strip s) ∧ ¬ expired (m.exp cfg) now ∧
      r = ⟨m.subject,m.clearance⟩) ∧
  (∀ r, ResourceServerConfig.decode lib sha cfg s now = some r → ∃ m ∈ minted,
    m.kind = .resource ∧ Carries lib sha cfg m s ∧
      ¬ expired (m.exp cfg) (ResourceServerConfig.skewed now) ∧ r = ⟨m.subject,m.clearance.label⟩) ∧
  ∀ c, DownstreamClearanceVerifier.verify lib sha cfg (some s) now = some c → ∃ m ∈ minted,
    m.kind = .assertion ∧ Carries lib sha cfg m (Text.strip s) ∧ ¬ expired (m.exp cfg) now ∧
      c = m.clearance

/-- The string is an unexpired resource token; or it is any unexpired token while the two secrets
derive one key and the provider's issuer is the Gateway's own. -/
def Confused (lib : JwtLibrary) (sha : Sha256) (cfg : Config) (minted : List Minted) (s : String)
    (now : Instant) : Prop :=
  ∃ m ∈ minted, Carries lib sha cfg m (Text.strip s) ∧ ¬ expired (m.exp cfg) now ∧
    (m.kind = .resource ∨
      cfg.idpKey sha = cfg.internalKey sha ∧ cfg.idpIssuer = DownstreamClearanceSigner.ISSUER)

/-- Exactly when a presented string is taken for nothing but what it was minted as. -/
theorem ownKind_iff {lib : JwtLibrary} {sha : Sha256} {cfg : Config} {minted : List Minted}
    {s : String} {now : Instant} (hlib : lib.Sound sha cfg minted [s,Text.strip s]) :
    OwnKind lib sha cfg minted s now ↔ ¬ Confused lib sha cfg minted s now := by
  constructor
  · rintro ⟨hgateway,-,hrag⟩ ⟨m,hm,hcarry,hexp,hconf⟩
    have hblank : Text.isBlank s = false := by
      by_contra hb
      rw [strip_of_isBlank (by simpa using hb),Carries,hlib.parseEmpty] at hcarry
      exact absurd hcarry (by simp)
    have hclient : m.key sha cfg = cfg.idpKey sha → m.iss cfg = cfg.idpIssuer → m.kind = .client := by
      intro hk hi
      obtain ⟨m',hm',hkind,hcarry',-⟩ := hgateway _ (jwtClearanceFilter_bearer.mpr
        ((ClearanceTokenService.verify_iff hlib (by simp)).mpr ⟨m,hm,hk,hcarry,hexp,hi,rfl⟩))
      exact (kind_unique hlib hm hm' hcarry hcarry').trans hkind
    have hassertion : m.key sha cfg = cfg.internalKey sha →
        m.iss cfg = DownstreamClearanceVerifier.EXPECTED_ISSUER → m.kind = .assertion := by
      intro hk hi
      obtain ⟨m',hm',hkind,hcarry',-⟩ := hrag _
        ((DownstreamClearanceVerifier.verify_iff hlib (by simp) hblank).mpr ⟨m,hm,hk,hcarry,hexp,hi,rfl⟩)
      exact (kind_unique hlib hm hm' hcarry hcarry').trans hkind
    rcases hconf with hres | ⟨hkey,hiss⟩
    · have := hclient (by simp [Minted.key,hres]) (by simp [Minted.iss,hres])
      simp [hres] at this
    · -- with one key and one issuer, the Gateway takes assertions and the rag-engine the others
      cases hk : m.kind with
      | client =>
        have := hassertion (by simp [Minted.key,hk,hkey]) (by simp [Minted.iss,hk,hiss]; rfl)
        simp [hk] at this
      | resource =>
        have := hclient (by simp [Minted.key,hk]) (by simp [Minted.iss,hk])
        simp [hk] at this
      | assertion =>
        have := hclient (by simp [Minted.key,hk,hkey]) (by simp [Minted.iss,hk,hiss])
        simp [hk] at this
  · intro hconf
    refine ⟨fun r hr => ?_,fun r hr => ResourceServerConfig.decode_some hlib (by simp) hr,
      fun c hc => ?_⟩
    · obtain ⟨m,hm,hk,hcarry,hexp,hi,rfl⟩ := (ClearanceTokenService.verify_iff hlib (by simp)).mp
        (jwtClearanceFilter_bearer.mp hr)
      refine ⟨m,hm,?_,hcarry,hexp,rfl⟩
      cases hkind : m.kind with
      | client => rfl
      | resource => exact absurd ⟨m,hm,hcarry,hexp,Or.inl hkind⟩ hconf
      | assertion =>
        simp only [Minted.key,Minted.iss,hkind] at hk hi
        exact absurd ⟨m,hm,hcarry,hexp,Or.inr ⟨hk.symm,hi.symm⟩⟩ hconf
    · have hblank : Text.isBlank s = false := by
        by_contra hb
        simp [DownstreamClearanceVerifier.verify,show Text.isBlank s = true by simpa using hb] at hc
      obtain ⟨m,hm,hk,hcarry,hexp,hi,rfl⟩ :=
        (DownstreamClearanceVerifier.verify_iff hlib (by simp) hblank).mp hc
      refine ⟨m,hm,?_,hcarry,hexp,rfl⟩
      cases hkind : m.kind with
      | assertion => rfl
      | client =>
        simp only [Minted.key,Minted.iss,hkind] at hk hi
        exact absurd ⟨m,hm,hcarry,hexp,Or.inr ⟨hk,hi⟩⟩ hconf
      | resource =>
        simp only [Minted.key,Minted.iss,hkind] at hk hi
        exact absurd ⟨m,hm,hcarry,hexp,Or.inr ⟨hk,hi⟩⟩ hconf

/-- The default configuration: nothing set. -/
def defaultConfig : Config := ⟨none,none,0,none,0,none⟩

/-- A resource token for a compliance officer, and the real texts of its signing. -/
def resourceToken : Minted :=
  ⟨.resource,"priya",.COMPLIANCE,(.ofEpochSecond 1782036000),"3f0f6c1e-5a50-4f0e-9d3c-2b7a1c9e8d10"⟩

def resourceInput : String :=
  "eyJhbGciOiJIUzI1NiJ9.eyJzdWIiOiJwcml5YSIsImF1ZCI6ImF0bGFzLW1jcC10b29scyIsImlzcyI6ImF0bGF" ++
    "zLXNpbS1pZHAiLCJjbGVhcmFuY2UiOiJjb21wbGlhbmNlIiwiZXhwIjoxNzgyMDM2MzAwLCJpYXQiOjE3ODIwMzY" ++
    "wMDAsImp0aSI6IjNmMGY2YzFlLTVhNTAtNGYwZS05ZDNjLTJiN2ExYzllOGQxMCJ9"

def resourceMac : List UInt8 :=
  [11,202,48,109,192,86,9,45,55,177,68,36,82,96,141,215,
    141,222,211,218,45,46,133,255,182,217,163,139,41,24,153,238]

def resourceText : String := resourceInput ++ ".C8owbcBWCS03sUQkUmCN143e09otLoX_ttmjiykYme4"

/-- SHA-256 on the default secret. -/
def defaultSha : Sha256 := Sha256.table
  [("change-me-locally",[18,16,187,54,95,149,12,113,18,143,73,38,8,165,32,152,
    109,67,168,59,215,115,90,172,247,242,106,130,126,80,13,53])]

theorem Minted.token_eq (lib : JwtLibrary) (sha : Sha256) (cfg : Config) (m : Minted) :
    m.token lib sha cfg = sign lib (m.key sha cfg) (m.claims cfg) := by
  unfold token key claims
  cases m.kind <;> rfl

/-- The JWT library on one token, from the texts that it has there. -/
def singleToken (claims : JwtClaims) (key : List UInt8) (input : String) (tag : List UInt8)
    (text : String) : JwtLibrary where
  signingInput c := if c = claims then input else ""
  getJWTClaimsSet i := if i = input then some claims else none
  mac k i := if k = key ∧ i = input then tag else []
  serialize signed := if signed = (input,tag) then text else ""
  parse s := if s = text then some (input,tag) else none
  isUri _ := false

section
variable {sha : Sha256} {cfg : Config} {m : Minted} {input text : String} {tag : List UInt8}

theorem singleToken_carries :
    Carries (singleToken (m.claims cfg) (m.key sha cfg) input tag text) sha cfg m text := by
  simp [Carries,singleToken]

theorem singleToken_sound (hkeys : cfg.idpKey sha = cfg.internalKey sha) (htext : text ≠ "")
    (presented : List String) :
    (singleToken (m.claims cfg) (m.key sha cfg) input tag text).Sound sha cfg [m] presented where
  claims m' hm := by
    obtain rfl := List.mem_singleton.mp hm
    simp [singleToken]
  parse m' hm := by
    obtain rfl := List.mem_singleton.mp hm
    simp [Carries,Minted.token_eq,sign,singleToken]
  parseEmpty := by simp [singleToken,htext.symm]
  unforged s _ i t key hp hkey _ := by
    have hi : input = i := by
      by_contra hne
      simp [singleToken,hne] at hp
    refine ⟨m,List.mem_singleton_self _,?_,by simp [singleToken,hi]⟩
    -- with one key for both secrets there is no other key to confuse it with
    have hone : key = cfg.idpKey sha := by
      rcases List.mem_pair.mp hkey with rfl | rfl
      · rfl
      · exact hkeys.symm
    rw [hone,Minted.key]
    cases m.kind
    · rfl
    · rfl
    · exact hkeys.symm

end

/-- The library on the resource token. -/
def resourceLibrary : JwtLibrary :=
  singleToken (resourceToken.claims defaultConfig) (resourceToken.key defaultSha defaultConfig)
    resourceInput resourceMac resourceText

theorem resourceLibrary_sound : resourceLibrary.Sound defaultSha defaultConfig [resourceToken]
    [resourceText,Text.strip resourceText] :=
  singleToken_sound rfl (by decide +kernel) _

theorem resourceText_carries : Carries resourceLibrary defaultSha defaultConfig resourceToken
    (Text.strip resourceText) := by
  rw [show Text.strip resourceText = resourceText by decide +kernel]
  exact singleToken_carries

/-- Under the default configuration the Gateway's filter lets a token scoped to the tool server in. -/
theorem gateway_accepts_resourceToken :
    resourceLibrary.Sound defaultSha defaultConfig [resourceToken]
      [resourceText,Text.strip resourceText] ∧
    jwtClearanceFilter resourceLibrary defaultSha defaultConfig (some ("Bearer " ++ resourceText))
      (.ofEpochSecond 1782036100) = .ok ⟨"priya",.COMPLIANCE⟩ ∧
    ∀ m ∈ [resourceToken], m.kind ≠ .client := by
  refine ⟨resourceLibrary_sound,?_,by decide⟩
  rw [jwtClearanceFilter_bearer]
  exact (ClearanceTokenService.verify_iff resourceLibrary_sound (by simp)).mpr
    ⟨resourceToken,List.mem_singleton_self _,rfl,resourceText_carries,by decide,rfl,rfl⟩

/-- The token is confused while it lives, and with nothing once it has expired. -/
theorem ownKind_iff_resourceToken :
    ¬ OwnKind resourceLibrary defaultSha defaultConfig [resourceToken] resourceText (.ofEpochSecond 1782036100) ∧
    OwnKind resourceLibrary defaultSha defaultConfig [resourceToken] resourceText (.ofEpochSecond 1782036400) := by
  constructor
  · rw [ownKind_iff resourceLibrary_sound,not_not]
    exact ⟨resourceToken,List.mem_singleton_self _,resourceText_carries,by decide,Or.inl rfl⟩
  · rw [ownKind_iff resourceLibrary_sound]
    rintro ⟨m,hm,-,hexp,-⟩
    obtain rfl := List.mem_singleton.mp hm
    exact hexp (by decide)

end AtlasCompliance.Auth
