import RagPipeline.Extraction.Truncated
import RagPipeline.Lib.Guard
import Mathlib.Algebra.Ring.Nat
import Mathlib.Data.List.Infix
import RagPipeline.Lib.Rotation
import RagPipeline.Lib.Transition

/-! # Provider documents and identity tokens

`_parse_jwks`, `_token_parts` and `_validate_claims`: what a document of keys and
a token have to look like before anything is believed of them. -/

set_option autoImplicit false

namespace RagPipeline.Oidc
open Guard
open RagPipeline.Answer (Json)
open RagPipeline.Text (isSpace)

abbrev Text := List Char

abbrev Bytes := List UInt8

abbrev Members := List (Text × Json)

/-- `OIDCRefused` and its text. -/
abbrev Checked := Except String

def MAX_TOKEN_BYTES : ℕ := 16384

def MAX_KEYS : ℕ := 8

def MAX_SUBJECT_LENGTH : ℕ := 512

/-- The ranges are those that `configured` lets pass. -/
structure OIDCConfig where
  issuer : Text
  clientId : Text
  clockSkewSeconds : ℤ
  jwksCacheSeconds : ℤ
  jwksOverlapSeconds : ℤ
  skewRange : 0 ≤ clockSkewSeconds ∧ clockSkewSeconds ≤ 120
  cacheRange : 30 ≤ jwksCacheSeconds ∧ jwksCacheSeconds ≤ 3600
  overlapRange : 60 ≤ jwksOverlapSeconds ∧ jwksOverlapSeconds ≤ 86400

structure OIDCIdentity where
  issuer : Text
  subject : Text
  issuedAt : ℤ
  expiresAt : ℤ
deriving DecidableEq

/-- The signatures, which the program takes from a library. -/
class Rsa where
  Key : Type
  /-- `RSAPublicNumbers(e, n).public_key()`. -/
  publicKey : ℕ → ℕ → Option Key
  /-- Whether `verify` of a signature and what is signed comes back. -/
  verifies : Key → Bytes → Bytes → Bool

/-! ## Fields -/

/-- Of two members of one name the last one counts. -/
def field (name : Text) (members : Members) : Option Json := members.reverse.lookup name

def isText (t : Text) : Option Json → Bool
  | some (.str s) => s == t
  | _ => false

def has (names : List Text) (members : Members) : Bool :=
  names.all fun name => (members.map Prod.fst).contains name

def onlyHas (names : List Text) (members : Members) : Bool :=
  members.all fun p => names.contains p.1

def strip (s : Text) : Text := ((s.dropWhile isSpace).reverse.dropWhile isSpace).reverse

/-- `_closed_text`. -/
def closedText (maximum : ℕ) : Option Json → Bool
  | some (.str s) => !s.isEmpty && s == strip s && decide (s.length ≤ maximum) &&
      s.all fun c => decide (32 ≤ c.toNat) && decide (c.toNat < 127)
  | _ => false

/-! ## Encodings -/

def sextet (c : Char) : Option ℕ :=
  if 'A' ≤ c ∧ c ≤ 'Z' then some (c.toNat - 65)
  else if 'a' ≤ c ∧ c ≤ 'z' then some (c.toNat - 71)
  else if '0' ≤ c ∧ c ≤ '9' then some (c.toNat + 4)
  else if c = '-' then some 62
  else if c = '_' then some 63
  else none

/-- `urlsafe_b64decode` behind the padding: a single sextet is no byte, and bits left over
are dropped. -/
def bytesOf : List ℕ → Option Bytes
  | a :: b :: c :: d :: rest =>
    (bytesOf rest).map fun l =>
      UInt8.ofNat (a * 4 + b / 16) :: UInt8.ofNat (b % 16 * 16 + c / 4) ::
        UInt8.ofNat (c % 4 * 64 + d) :: l
  | [a, b, c] => some [UInt8.ofNat (a * 4 + b / 16), UInt8.ofNat (b % 16 * 16 + c / 4)]
  | [a, b] => some [UInt8.ofNat (a * 4 + b / 16)]
  | [_] => none
  | [] => some []

/-- `_decode`. -/
def decode : Option Json → Checked Bytes
  | some (.str s) =>
    if s.isEmpty then .error "OIDC base64 is invalid"
    else demand ((s.mapM sextet).bind bytesOf) "OIDC base64 is invalid"
  | _ => .error "OIDC base64 is invalid"

/-- `int.from_bytes`, the highest byte first. -/
def fromBytes (b : Bytes) : ℕ := b.foldl (fun n x => n * 256 + x.toNat) 0

/-- `int.bit_length`. -/
def bitLength (n : ℕ) : ℕ := if n = 0 then 0 else n.log2 + 1

def continues (b : UInt8) : Bool := 0x80 ≤ b.toNat && b.toNat < 0xc0

/-- The strict reading of UTF-8: no overlong form, no surrogate. -/
def utf8Text : Bytes → Option Text
  | [] => some []
  | a :: s =>
    if a.toNat < 0x80 then (utf8Text s).map fun t => Char.ofNat a.toNat :: t
    else
      match s with
      | [] => none
      | b :: s =>
        if !continues b then none
        else if 0xc2 ≤ a.toNat ∧ a.toNat < 0xe0 then
          (utf8Text s).map fun t => Char.ofNat ((a.toNat - 0xc0) * 64 + (b.toNat - 0x80)) :: t
        else
          match s with
          | [] => none
          | c :: s =>
            let three := (a.toNat - 0xe0) * 4096 + (b.toNat - 0x80) * 64 + (c.toNat - 0x80)
            if !continues c then none
            else if 0xe0 ≤ a.toNat ∧ a.toNat < 0xf0 then
              if three < 0x800 ∨ 0xd800 ≤ three ∧ three < 0xe000 then none
              else (utf8Text s).map fun t => Char.ofNat three :: t
            else
              match s with
              | [] => none
              | d :: s =>
                let four := (a.toNat - 0xf0) * 262144 + (b.toNat - 0x80) * 4096 +
                  (c.toNat - 0x80) * 64 + (d.toNat - 0x80)
                if !continues d ∨ a.toNat < 0xf0 ∨ 0xf5 ≤ a.toNat ∨ four < 0x10000 ∨ 0x110000 ≤ four
                then none
                else (utf8Text s).map fun t => Char.ofNat four :: t

/-- `_json_part`. -/
def jsonPart (value : Text) : Checked Json := do
  let bytes ← decode (some (.str value))
  demand ((utf8Text bytes).bind (JsonText.loads Extraction.tableHooks)) "OIDC JSON is invalid"

/-! ## The document of keys -/

section
variable [Rsa]

def jwkFields : List Text :=
  ["kty".toList, "kid".toList, "use".toList, "alg".toList, "n".toList, "e".toList]

/-- One item of the list, with what is parsed already. -/
def parseJwk (parsed : List (Text × Rsa.Key)) (item : Json) : Checked (Text × Rsa.Key) :=
  match item with
  | .obj members => do
    require (has jwkFields members ∧ isText "RSA".toList (field "kty".toList members) ∧
      isText "sig".toList (field "use".toList members) ∧
      isText "RS256".toList (field "alg".toList members) ∧
      closedText 128 (field "kid".toList members)) "OIDC JWK is invalid"
    match field "kid".toList members with
    | some (.str kid) => do
      require ((parsed.lookup kid).isNone) "OIDC JWK kid is duplicated"
      let modulus ← fromBytes <$> decode (field "n".toList members)
      let exponent ← fromBytes <$> decode (field "e".toList members)
      require (2048 ≤ bitLength modulus ∧ (exponent = 3 ∨ exponent = 65537)) "OIDC RSA key is invalid"
      let key ← demand (Rsa.publicKey exponent modulus) "OIDC RSA key is invalid"
      return (kid, key)
    -- not reached: the text is closed
    | _ => .error "OIDC JWK is invalid"
  | _ => .error "OIDC JWK is invalid"

def parseJwkList : List (Text × Rsa.Key) → List Json → Checked (List (Text × Rsa.Key))
  | parsed, [] => .ok parsed
  | parsed, item :: rest => do
    let key ← parseJwk parsed item
    parseJwkList (parsed ++ [key]) rest

/-- `_parse_jwks`. -/
def parseJwks : Json → Checked (List (Text × Rsa.Key))
  | .obj members => do
    require (has ["keys".toList] members ∧ onlyHas ["keys".toList] members) "OIDC JWKS is invalid"
    match field "keys".toList members with
    | some (.arr keys) => do
      require (1 ≤ keys.length ∧ keys.length ≤ MAX_KEYS) "OIDC JWKS key count is invalid"
      parseJwkList [] keys
    | _ => .error "OIDC JWKS key count is invalid"
  | _ => .error "OIDC JWKS is invalid"

end

/-! ## Tokens -/

/-- What is read off a token, its header being determined but for the key. -/
structure TokenParts where
  kid : Text
  claims : Members
  signed : Bytes
  signature : Bytes

def headerFields : List Text := ["alg".toList, "kid".toList, "typ".toList]

def encodedLength (s : Text) : ℕ := (s.map Char.utf8Size).sum

/-- A header that equals the one that is expected, and the key it names. -/
def headerKid : Json → Checked (Option Json)
  | .obj members => do
    require (has headerFields members ∧ onlyHas headerFields members ∧
      isText "RS256".toList (field "alg".toList members) ∧
      isText "JWT".toList (field "typ".toList members)) "OIDC token header is invalid"
    return field "kid".toList members
  | _ => .error "OIDC token header is invalid"

/-- `_token_parts`. -/
def tokenParts : Json → Checked TokenParts
  | .str token => do
    require (token ≠ [] ∧ token = strip token ∧ encodedLength token ≤ MAX_TOKEN_BYTES)
      "OIDC token is invalid"
    match token.splitOn '.' with
    | [first, second, third] => do
      require (first ≠ [] ∧ second ≠ [] ∧ third ≠ []) "OIDC token is invalid"
      let header ← jsonPart first
      let claims ← jsonPart second
      let kid ← headerKid header
      require (closedText 128 kid) "OIDC token is invalid"
      match kid, claims with
      | some (.str kid), .obj claims => do
        let signed := first ++ '.' :: second
        require (signed.all fun c => decide (c.toNat < 128)) "OIDC token is invalid"
        let signature ← decode (some (.str third))
        return ⟨kid, claims, signed.map fun c => UInt8.ofNat c.toNat, signature⟩
      | _, _ => .error "OIDC token is invalid"
    | _ => .error "OIDC token is invalid"
  | _ => .error "OIDC token is invalid"

def claimFields : List Text :=
  ["iss".toList, "sub".toList, "aud".toList, "exp".toList, "iat".toList, "nonce".toList]

/-- The audiences of a token, one by itself or a list of them. -/
def audiences : Option Json → Checked (List Text)
  | some (.str s) => .ok [s]
  | some (.arr items) =>
    let names := items.filterMap fun
      | .str s => some s
      | _ => none
    if !items.isEmpty ∧ (items.all fun item => closedText 200 (some item)) ∧ names.Nodup then
      .ok names
    else .error "OIDC token audience is invalid"
  | _ => .error "OIDC token audience is invalid"

/-- `_validate_claims`. -/
def validateClaims (config : OIDCConfig) (expectedNonce : Json) (now : ℤ) (claims : Members) :
    Checked OIDCIdentity := do
  require (closedText 256 (some expectedNonce)) "OIDC nonce authority is invalid"
  require (has claimFields claims) "OIDC token claims are incomplete"
  require (isText config.issuer (field "iss".toList claims)) "OIDC token issuer mismatch"
  require (closedText MAX_SUBJECT_LENGTH (field "sub".toList claims)) "OIDC token subject is invalid"
  let names ← audiences (field "aud".toList claims)
  require (names.contains config.clientId) "OIDC token audience mismatch"
  require (names.length ≤ 1 ∨ isText config.clientId (field "azp".toList claims))
    "OIDC token authorized party mismatch"
  match field "iat".toList claims, field "exp".toList claims, field "sub".toList claims, expectedNonce with
  | some (.int issuedAt), some (.int expiresAt), some (.str subject), .str nonce => do
    require (issuedAt < expiresAt) "OIDC token time is invalid"
    require (issuedAt ≤ now + config.clockSkewSeconds) "OIDC token is not active"
    require (now - config.clockSkewSeconds < expiresAt) "OIDC token is expired"
    require (isText nonce (field "nonce".toList claims)) "OIDC token nonce mismatch"
    return ⟨config.issuer, subject, issuedAt, expiresAt⟩
  | _, _, _, _ => .error "OIDC token time is invalid"

/-! ## What a document that passes is -/

section
variable [Rsa] {parsed keys : List (Text × Rsa.Key)} {items : List Json} {document : Json}

theorem parseJwk_fresh {item : Json} {key : Text × Rsa.Key} (h : parseJwk parsed item = .ok key) :
    key.1 ∉ parsed.map Prod.fst := by
  rw [parseJwk.eq_def] at h
  split at h
  · obtain ⟨_, -, h⟩ := bind_ok.1 h
    split at h
    · obtain ⟨_, hnew, h⟩ := bind_ok.1 h
      obtain ⟨_, -, h⟩ := bind_ok.1 h
      obtain ⟨_, -, h⟩ := bind_ok.1 h
      obtain ⟨_, -, h⟩ := bind_ok.1 h
      obtain ⟨_, -, h⟩ := bind_ok.1 h
      rw [← pure_ok.1 h]
      have hnone := Option.isNone_iff_eq_none.1 (require_ok.1 hnew)
      intro hmem
      obtain ⟨p, hp, hfst⟩ := List.mem_map.1 hmem
      have hne := List.lookup_eq_none_iff.1 hnone p hp
      rw [hfst] at hne
      simp at hne
    · cases h
  · cases h

/-- Every item adds one key, under an id of its own. -/
theorem parseJwkList_keys (h : parseJwkList parsed items = .ok keys)
    (hnodup : (parsed.map Prod.fst).Nodup) :
    (keys.map Prod.fst).Nodup ∧ keys.length = parsed.length + items.length := by
  induction items generalizing parsed with
  | nil =>
    obtain rfl : parsed = keys := Except.ok.inj h
    exact ⟨hnodup, rfl⟩
  | cons item rest ih =>
    rw [parseJwkList] at h
    obtain ⟨key, hkey, h⟩ := bind_ok.1 h
    have hmore : ((parsed ++ [key]).map Prod.fst).Nodup := by
      rw [List.map_append, List.map_singleton]
      apply List.Nodup.append hnodup (List.nodup_singleton _)
      intro k hk hsingle
      rw [List.mem_singleton.1 hsingle] at hk
      exact parseJwk_fresh hkey hk
    obtain ⟨hkeys, hlength⟩ := ih h hmore
    refine ⟨hkeys, ?_⟩
    rw [hlength]
    simp only [List.length_append, List.length_cons, List.length_nil]
    omega

theorem parseJwks_keys (h : parseJwks document = .ok keys) :
    (keys.map Prod.fst).Nodup ∧ keys.length ≤ MAX_KEYS := by
  rw [parseJwks.eq_def] at h
  split at h
  · obtain ⟨_, -, h⟩ := bind_ok.1 h
    split at h
    · obtain ⟨_, hcount, h⟩ := bind_ok.1 h
      obtain ⟨hnodup, hlength⟩ := parseJwkList_keys h List.nodup_nil
      refine ⟨hnodup, ?_⟩
      rw [hlength, List.length_nil, Nat.zero_add]
      exact (require_ok.1 hcount).2
    · cases h
  · cases h

end

end RagPipeline.Oidc

/-! # The verifier and its keys

`JWKSVerifier`: the keys it holds, how a refresh replaces them, and how a token is
verified. A run is any calls at times that do not go back, whatever the provider
answers. -/

set_option autoImplicit false

namespace RagPipeline.Oidc
open Guard Transition
open RagPipeline.Answer (Json)
open RagPipeline.Rotation (Entry History Latest MissingSince Follows merge unretired)

variable [Rsa]

abbrev Keys := List (Text × Rsa.Key)

/-- `_CachedKey`. -/
abbrev CachedKey := Entry Rsa.Key

structure Verifier where
  keys : List (Text × CachedKey)
  refreshedAt : ℤ

def Verifier.new : Verifier := ⟨[], 0⟩

/-- What `fetch_json` does: a document, a refusal of its own, or some other exception. -/
inductive Fetched where
  | document (d : Json)
  | refused (message : String)
  | failed

/-- The first half of `refresh`, up to the keys of a document that is well formed. -/
def readKeys : Fetched → Checked Keys
  | .document d => parseJwks d
  | .refused message => .error message
  | .failed => .error "OIDC JWKS is unavailable"

/-- The second half of `refresh`. The loop over the cached keys and the one over the fresh
keys are the two halves of `merge`. -/
def install (config : OIDCConfig) (now : ℤ) (v : Verifier) (fresh : Keys) : Checked Verifier := do
  let combined := merge config.jwksOverlapSeconds now fresh v.keys
  require (combined.length ≤ MAX_KEYS * 2) "OIDC JWKS overlap is too large"
  return ⟨combined, now⟩

def refresh (config : OIDCConfig) (now : ℤ) (fetched : Fetched) (v : Verifier) : Checked Verifier := do
  let fresh ← readKeys fetched
  install config now v fresh

/-- Whether `verify` asks the provider first. -/
def asksFirst (config : OIDCConfig) (now : ℤ) (v : Verifier) (kid : Text) : Bool :=
  (v.keys.lookup kid).isNone || decide (config.jwksCacheSeconds ≤ now - v.refreshedAt)

/-- `verify`, from the cached key on. -/
def accept (config : OIDCConfig) (expectedNonce : Json) (now : ℤ) (parts : TokenParts) (v : Verifier) :
    Checked OIDCIdentity := do
  let cached ← demand (v.keys.lookup parts.kid) "OIDC signing key is unknown"
  require (∀ retiredAt ∈ cached.retiredAt, now - retiredAt ≤ config.jwksOverlapSeconds)
    "OIDC signing key is stale"
  require (Rsa.verifies cached.value parts.signature parts.signed) "OIDC token signature is invalid"
  validateClaims config expectedNonce now parts.claims

/-- The verifier afterwards and what comes back; a refresh that is refused leaves the verifier
as it was. -/
def verify (config : OIDCConfig) (token expectedNonce : Json) (now : ℤ) (fetched : Fetched)
    (v : Verifier) : Verifier × Checked OIDCIdentity :=
  match tokenParts token with
  | .error e => (v, .error e)
  | .ok parts =>
    if asksFirst config now v parts.kid then
      match refresh config now fetched v with
      | .error e => (v, .error e)
      | .ok v' => (v', accept config expectedNonce now parts v')
    else (v, accept config expectedNonce now parts v)

/-! ## Runs -/

/-- A call, with what the provider would answer at the time. -/
inductive Call where
  | refresh (fetched : Fetched)
  | verify (token expectedNonce : Json) (fetched : Fetched)

/-- The verifier a call leaves. -/
def Call.run (config : OIDCConfig) (now : ℤ) (v : Verifier) : Call → Verifier
  | .refresh fetched =>
    match Oidc.refresh config now fetched v with
    | .ok v' => v'
    | .error _ => v
  | .verify token expectedNonce fetched => (Oidc.verify config token expectedNonce now fetched v).1

/-- What the provider answers a call, where it is asked at all. -/
def Call.answer (config : OIDCConfig) (now : ℤ) (v : Verifier) : Call → Option Fetched
  | .refresh fetched => some fetched
  | .verify token _ fetched =>
    match tokenParts token with
    | .ok parts => if asksFirst config now v parts.kid then some fetched else none
    | .error _ => none

/-- The keys of the document that a refresh of this call took in. -/
def Call.taken (config : OIDCConfig) (now : ℤ) (v : Verifier) (c : Call) : Option Keys :=
  (c.answer config now v).bind fun fetched =>
    Except.toOption do
      let fresh ← readKeys fetched
      let _ ← install config now v fresh
      return fresh

/-- The verifier, the documents that were taken in so far, and the time of the last call. -/
structure Situation where
  verifier : Verifier
  taken : History Text Rsa.Key
  time : ℤ

def Situation.next (config : OIDCConfig) (s : Situation) (now : ℤ) (c : Call) : Situation :=
  ⟨c.run config now s.verifier,
    match c.taken config now s.verifier with
    | some fresh => (now, fresh) :: s.taken
    | none => s.taken,
    now⟩

/-- Any calls, at times that do not go back. -/
def calls (config : OIDCConfig) : System Situation (ℤ × Call) where
  initial s := s.verifier = Verifier.new ∧ s.taken = []
  step s a s' := s.time ≤ a.1 ∧ s' = s.next config a.1 a.2

variable {config : OIDCConfig} {now : ℤ} {v v' : Verifier} {fetched : Fetched} {fresh : Keys}
  {s s' : Situation}

/-! ## What one call does -/

theorem readKeys_ok (h : readKeys fetched = .ok fresh) :
    (fresh.map Prod.fst).Nodup ∧ fresh.length ≤ MAX_KEYS := by
  cases fetched with
  | document d => exact parseJwks_keys h
  | refused message => cases h
  | failed => cases h

theorem install_ok : install config now v fresh = .ok v' ↔
    (merge config.jwksOverlapSeconds now fresh v.keys).length ≤ MAX_KEYS * 2 ∧
      v' = ⟨merge config.jwksOverlapSeconds now fresh v.keys, now⟩ := by
  rw [install]
  constructor
  · intro h
    obtain ⟨_, hsize, h⟩ := bind_ok.1 h
    exact ⟨require_ok.1 hsize, (pure_ok.1 h).symm⟩
  · rintro ⟨hsize, rfl⟩
    exact bind_ok.2 ⟨(), require_true hsize, rfl⟩

theorem refresh_ok : refresh config now fetched v = .ok v' ↔
    ∃ fresh, readKeys fetched = .ok fresh ∧ install config now v fresh = .ok v' := bind_ok

/-- What a refresh takes in is what the verifier holds afterwards. -/
def Takes (config : OIDCConfig) (now : ℤ) (v v' : Verifier) : Option Keys → Prop
  | none => v' = v
  | some fresh => (fresh.map Prod.fst).Nodup ∧ fresh.length ≤ MAX_KEYS ∧
      install config now v fresh = .ok v'

/-- A refresh by itself. -/
theorem takes_refresh : Takes config now v ((Call.refresh fetched).run config now v)
    ((Call.refresh fetched).taken config now v) := by
  rw [Call.run, Call.taken, Call.answer, refresh, Option.bind_some]
  cases hread : readKeys fetched with
  | error e => rfl
  | ok fresh =>
    obtain ⟨hnodup, hlength⟩ := readKeys_ok hread
    cases hinstall : install config now v fresh with
    | error e =>
      show Takes config now v (match install config now v fresh with
        | .ok v' => v'
        | .error _ => v) (do
          let _ ← install config now v fresh
          return fresh : Checked Keys).toOption
      rw [hinstall]
      rfl
    | ok v' =>
      show Takes config now v (match install config now v fresh with
        | .ok v' => v'
        | .error _ => v) (do
          let _ ← install config now v fresh
          return fresh : Checked Keys).toOption
      rw [hinstall]
      exact ⟨hnodup, hlength, hinstall⟩

theorem refused_taken {e : String} (h : refresh config now fetched v = .error e) :
    (Call.refresh fetched).taken config now v = none := by
  rw [refresh] at h
  rw [Call.taken, Call.answer, Option.bind_some]
  cases hread : readKeys fetched with
  | error e' => rfl
  | ok fresh =>
    rw [hread] at h
    have hinstall : install config now v fresh = .error e := h
    show (do
      let _ ← install config now v fresh
      return fresh : Checked Keys).toOption = none
    rw [hinstall]
    rfl

variable (config now v fetched) in
/-- To the keys, a verification is a refresh or nothing. -/
theorem verify_run (token expectedNonce : Json) :
    ((Call.verify token expectedNonce fetched).answer config now v = none ∧
        (Call.verify token expectedNonce fetched).run config now v = v) ∨
      ((Call.verify token expectedNonce fetched).answer config now v = some fetched ∧
        (Call.verify token expectedNonce fetched).run config now v =
          (Call.refresh fetched).run config now v) := by
  have hrun : (Call.verify token expectedNonce fetched).run config now v =
      (verify config token expectedNonce now fetched v).1 := rfl
  rw [Call.answer, hrun, verify]
  cases htoken : tokenParts token with
  | error e => exact Or.inl ⟨rfl, rfl⟩
  | ok parts =>
    by_cases hasks : asksFirst config now v parts.kid = true
    · right
      simp only [hasks, if_true, true_and]
      rw [Call.run]
      cases refresh config now fetched v with
      | error e => rfl
      | ok v' => rfl
    · left
      simp only [hasks]
      exact ⟨rfl, rfl⟩

variable (config now v) in
theorem takes_call (c : Call) : Takes config now v (c.run config now v) (c.taken config now v) := by
  cases c with
  | refresh fetched => exact takes_refresh
  | verify token expectedNonce fetched =>
    cases verify_run config now v fetched token expectedNonce with
    | inl h =>
      rw [Call.taken, h.1, h.2]
      rfl
    | inr h =>
      rw [Call.taken, h.1, h.2]
      exact takes_refresh

/-- A token that is accepted was checked with a key of the verifier as the call leaves it. -/
theorem verify_ok {token expectedNonce : Json} {identity : OIDCIdentity}
    (h : (verify config token expectedNonce now fetched v).2 = .ok identity) :
    ∃ parts, tokenParts token = .ok parts ∧ accept config expectedNonce now parts
      ((Call.verify token expectedNonce fetched).run config now v) = .ok identity := by
  rw [Call.run]
  rw [verify] at h ⊢
  cases htoken : tokenParts token with
  | error e =>
    rw [htoken] at h
    cases h
  | ok parts =>
    rw [htoken] at h
    refine ⟨parts, rfl, ?_⟩
    by_cases hasks : asksFirst config now v parts.kid = true
    · simp only [hasks, if_true] at h ⊢
      cases hrefresh : refresh config now fetched v with
      | error e =>
        rw [hrefresh] at h
        cases h
      | ok v' =>
        rw [hrefresh] at h
        exact h
    · simp only [hasks] at h ⊢
      exact h

theorem accept_ok {parts : TokenParts} {expectedNonce : Json} {identity : OIDCIdentity}
    (h : accept config expectedNonce now parts v = .ok identity) :
    ∃ cached, v.keys.lookup parts.kid = some cached ∧
      (∀ retiredAt ∈ cached.retiredAt, now - retiredAt ≤ config.jwksOverlapSeconds) ∧
      Rsa.verifies cached.value parts.signature parts.signed = true := by
  rw [accept] at h
  obtain ⟨cached, hcached, h⟩ := bind_ok.1 h
  obtain ⟨_, hyoung, h⟩ := bind_ok.1 h
  obtain ⟨_, hverifies, h⟩ := bind_ok.1 h
  exact ⟨cached, demand_ok.1 hcached, require_ok.1 hyoung, require_ok.1 hverifies⟩

end RagPipeline.Oidc
