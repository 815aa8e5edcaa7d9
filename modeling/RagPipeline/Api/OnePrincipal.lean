import RagPipeline.Lib.Guard
import Mathlib.Data.List.Basic
import Mathlib.Data.List.Infix
import Mathlib.Data.Option.Basic

/-! # Header text

A header value reaches the program as Latin-1 text. On such text `lower` and
`casefold` differ in two characters only, and a word in front of the first space
can be looked for before or after splitting there. -/

set_option autoImplicit false

namespace RagPipeline.Api

/-- `str.lower` on a Latin-1 character. -/
def lowerChar (c : Char) : Char :=
  if 'A' ≤ c ∧ c ≤ 'Z' ∨ 'À' ≤ c ∧ c ≤ 'Þ' ∧ c ≠ '×' then Char.ofNat (c.toNat + 32) else c

/-- `str.casefold` on a Latin-1 character. -/
def foldChar (c : Char) : List Char :=
  if c = 'ß' then ['s', 's'] else if c = 'µ' then ['μ'] else [lowerChar c]

def lower (s : List Char) : List Char := s.map lowerChar

def casefold (s : List Char) : List Char := s.flatMap foldChar

/-- `str.partition` at a space: what stands before the first one and after it, if
there is one. -/
def partitionSpace : List Char → Option (List Char × List Char)
  | [] => none
  | c :: rest =>
    if c = ' ' then some ([], rest) else (partitionSpace rest).map fun (a, b) => (c :: a, b)

theorem lowerChar_of_large {c : Char} (h : 256 ≤ c.toNat) : lowerChar c = c := by
  have hle : ∀ d : Char, c ≤ d → c.toNat ≤ d.toNat := fun _ hd => hd
  refine if_neg ?_
  rintro (⟨-, hc⟩ | ⟨-, hc, -⟩)
  · exact absurd (h.trans (hle _ hc)) (by decide)
  · exact absurd (h.trans (hle _ hc)) (by decide)

theorem lowerChar_space {c : Char} : lowerChar c = ' ' ↔ c = ' ' := by
  by_cases h : 256 ≤ c.toNat
  · rw [lowerChar_of_large h]
  · have hall : ∀ n < 256, lowerChar (Char.ofNat n) = ' ' ↔ Char.ofNat n = ' ' := by decide +kernel
    have hc := hall c.toNat (by omega)
    rwa [Char.ofNat_toNat] at hc

/-- A word in front of the first space, and what begins the rest. -/
theorem prefix_lower_iff {w p s : List Char} (hw : ' ' ∉ w) :
    w ++ ' ' :: p <+: lower s ↔ ∃ a b, partitionSpace s = some (a, b) ∧ lower a = w ∧
      p <+: lower b := by
  induction w generalizing s with
  | nil =>
    cases s with
    | nil => simp [lower, partitionSpace]
    | cons c rest =>
      by_cases hc : c = ' '
      · subst hc
        simp [lower, partitionSpace, List.cons_prefix_cons, show lowerChar ' ' = ' ' by decide]
      · have hne : ' ' ≠ lowerChar c := fun h => hc (lowerChar_space.1 h.symm)
        simp only [lower, List.map_cons, List.nil_append, List.cons_prefix_cons, hne, false_and,
          partitionSpace, if_neg hc, Option.map_eq_some_iff, Prod.mk.injEq, false_iff]
        rintro ⟨a, b, ⟨⟨a', b'⟩, -, rfl, -⟩, ha, -⟩
        cases ha
  | cons x w ih =>
    obtain ⟨hx, hw⟩ : ' ' ≠ x ∧ ' ' ∉ w := by simpa using hw
    cases s with
    | nil => simp [lower, partitionSpace]
    | cons c rest =>
      by_cases hc : c = ' '
      · subst hc
        simp [lower, partitionSpace, List.cons_prefix_cons, show lowerChar ' ' = ' ' by decide,
          hx.symm]
      · have hrest := ih (s := rest) hw
        simp only [lower, List.map_cons, List.cons_append, List.cons_prefix_cons] at hrest ⊢
        rw [hrest]
        simp only [partitionSpace, if_neg hc, Option.map_eq_some_iff, Prod.mk.injEq]
        constructor
        · rintro ⟨rfl, a, b, hab, ha, hb⟩
          exact ⟨c :: a, b, ⟨(a, b), hab, rfl, rfl⟩, by simp [ha], hb⟩
        · rintro ⟨a, b, ⟨⟨a', b'⟩, hab, rfl, rfl⟩, ha, hb⟩
          simp only [List.map_cons, List.cons.injEq] at ha
          exact ⟨ha.1.symm, a', b', hab, ha.2, hb⟩

/-- No character of it is one that a folding could have made of another. -/
def Unfolded : List Char → Prop
  | [] => True
  | x :: p => x ≠ 'ß' ∧ x ≠ 'µ' ∧ x ≠ 'μ' ∧ (x = 's' → ∃ y q, p = y :: q ∧ y ≠ 's') ∧ Unfolded p

/-- For such a word it does not matter whether the text was lowered or folded. -/
theorem prefix_casefold_iff {p s : List Char} (hp : Unfolded p) :
    p <+: casefold s ↔ p <+: lower s := by
  induction p generalizing s with
  | nil => simp
  | cons x p ih =>
    obtain ⟨hsharp, hmicro, hmu, hs, hp⟩ := hp
    cases s with
    | nil => simp [casefold, lower]
    | cons c rest =>
      have hrest := ih (s := rest) hp
      by_cases hc : c = 'ß'
      · subst hc
        have hl : lowerChar 'ß' = 'ß' := by decide
        simp only [casefold, lower, List.flatMap_cons, List.map_cons, foldChar, if_true, hl,
          List.cons_append, List.nil_append, List.cons_prefix_cons, hsharp, false_and, iff_false]
        rintro ⟨rfl, hpre⟩
        obtain ⟨y, q, rfl, hy⟩ := hs rfl
        exact hy (List.cons_prefix_cons.1 hpre).1
      · by_cases hm : c = 'µ'
        · subst hm
          have hl : lowerChar 'µ' = 'µ' := by decide
          simp only [casefold, lower, List.flatMap_cons, List.map_cons, foldChar, if_neg hc, if_true,
            hl, List.cons_append, List.nil_append, List.cons_prefix_cons, hmicro, hmu, false_and]
        · simp only [casefold, lower] at hrest
          simp only [casefold, lower, List.flatMap_cons, List.map_cons, foldChar, if_neg hc,
            if_neg hm, List.cons_append, List.nil_append, List.cons_prefix_cons, hrest]

end RagPipeline.Api

/-! # Who a request is

The middleware decides once over the raw header lists and binds what it decided
for the length of the request; every database access of the request reads the
binding. The role gates of the routes read it too, but fall back to the first
Authorization value when nothing is bound. -/

namespace RagPipeline.Api
open Guard

structure Principal where
  tenantId : String
  role : String
  subjectId : Option String
  source : String
  positionId : Option String
  orgArchitect : Bool
deriving DecidableEq

structure ServicePrincipal where
  tenantId : String
  serviceAccountId : String
  scopes : List String
deriving DecidableEq

inductive Caller where
  | human (p : Principal)
  | service (p : ServicePrincipal)
deriving DecidableEq

def Caller.tenantId : Caller → String
  | .human p => p.tenantId
  | .service p => p.tenantId

/-- The actor of a database access. A service account is none. -/
def Caller.actorId : Caller → Option String
  | .human p => p.subjectId
  | .service _ => none

structure Credential where
  digest : String
  principal : Principal
deriving DecidableEq

structure Registry where
  credentials : List Credential
  openPrincipal : Option Principal
deriving DecidableEq

def defaultTenantId : String := "00000000-0000-0000-0000-000000000001"

/-- `ROLES`. -/
def roles : List (String × ℕ) := [("reader", 1), ("editor", 2), ("admin", 3)]

/-- `load_registry` on credentials that have been read. The open principal needs
that there is no other way to be known, an opt-in and a loopback address. -/
def loadRegistry (credentials : List Credential) (externalAuth allowInsecureLocal loopback : Bool) :
    Except String Registry := do
  require (credentials.map Credential.digest).Nodup "ayni API anahtari birden cok kez tanimli"
  if credentials ≠ [] ∨ externalAuth then return ⟨credentials, none⟩
  else
    require (allowInsecureLocal ∧ loopback) "kimliksiz API yalniz acik yerel izinle calisabilir"
    return ⟨credentials, some ⟨defaultTenantId, "admin", none, "api_key", none, false⟩⟩

structure Session where
  identity : String
  csrfToken : List Char

/-- The browser sessions there are, and whom their identities resolve to. A
resolution that raises resolves to nobody. -/
structure Oidc where
  sessions : Option (List Char) → Option Session
  resolve : String → Option Principal

structure Config where
  registry : Registry
  sha256 : List Char → String
  oidc : Option Oidc
  gatewayDigest : Option String
  /-- Whom a forwarded assertion stands for, once verified and resolved. -/
  forwarded : List Char → Option Principal
  serviceAccounts : Option (List Char → Option ServicePrincipal)
  allowInsecureLocal : Bool
  loopback : Bool
  loaded : loadRegistry registry.credentials
    (gatewayDigest.isSome || oidc.isSome || serviceAccounts.isSome) allowInsecureLocal loopback =
      .ok registry

structure Request where
  method : String
  /-- The template of the route, once one was found. -/
  routePath : Option String
  cookie : Option (List Char)
  headers : List (List Char × List Char)
deriving DecidableEq

/-- `headers.getlist`. -/
def Request.getlist (r : Request) (name : String) : List (List Char) :=
  (r.headers.filter fun h => h.1 = name.toList).map Prod.snd

def headerName : String := "x-openwebui-user-jwt"

def csrfHeader : String := "x-ragtest-csrf"

def servicePrefix : List Char := "ragsa.v1.".toList

def bearer : List Char := "bearer".toList

/-- The names of the identity headers a browser could have sent. -/
def Request.plain (r : Request) : List (List Char) :=
  (r.headers.map fun h => casefold h.1).filter fun name =>
    "x-openwebui-user-".toList.isPrefixOf name && name != headerName.toList

/-- What follows the scheme of a Bearer header. -/
def bearerToken (authorization : List Char) : Option (List Char) :=
  match partitionSpace authorization with
  | some (scheme, token) => if lower scheme = bearer then some token else none
  | none => none

/-- `auth.authenticate`: the last credential that fits. -/
def authenticate (c : Config) (authorization : List Char) : Option Principal :=
  match c.registry.openPrincipal with
  | some p => some p
  | none =>
    match bearerToken authorization with
    | none => none
    | some token =>
      if token = [] then none
      else c.registry.credentials.foldl
        (fun matched x => if c.sha256 token = x.digest then some x.principal else matched) none

/-- The reserved namespace, as the middleware looks for it. -/
def reservedToken (authorization : List Char) : Bool :=
  match bearerToken authorization with
  | some token => servicePrefix.isPrefixOf (casefold token)
  | none => false

/-- The reserved namespace, as the role gate looks for it. -/
def reservedServiceToken (authorization : List Char) : Bool :=
  (bearer ++ ' ' :: servicePrefix).isPrefixOf (lower authorization)

def resolveServiceAccount (c : Config) (authorization : List Char) : Option Caller :=
  match c.serviceAccounts, bearerToken authorization with
  | some resolve, some token => if token = [] then none else (resolve token).map .service
  | _, _ => none

def gatewayOffered (c : Config) (authorization : List Char) : Bool :=
  match c.gatewayDigest, bearerToken authorization with
  | some digest, some token => token ≠ [] && c.sha256 token == digest
  | _, _ => false

def safeMethods : List String := ["GET", "HEAD", "OPTIONS"]

/-- The live session of a request, with the client that knows it. -/
def session (c : Config) (r : Request) : Option (Oidc × Session) := do
  let oidc ← c.oidc
  let s ← oidc.sessions r.cookie
  return (oidc, s)

/-- Whether a request of a session shows its token. Text that is not ASCII makes
the comparison raise. -/
def csrfShown (s : Session) (r : Request) : Except Unit Bool :=
  if r.method ∈ safeMethods then .ok true
  else
    match r.getlist csrfHeader with
    | [value] =>
      if value.all fun ch => ch.toNat < 128 then .ok (value = s.csrfToken) else .error ()
    | _ => .ok false

/-- The forwarded identity of a request that shows the gateway's key. -/
def forwardedPrincipal (c : Config) (authorization : List Char) (r : Request) : Option Caller :=
  if gatewayOffered c authorization then
    match r.getlist headerName with
    | [assertion] => if r.plain = [] then (c.forwarded assertion).map .human else none
    | _ => none
  else none

/-- `_request_principal`. An error is an exception that ends the request. -/
def requestPrincipal (c : Config) (r : Request) : Except Unit (Option Caller) :=
  match session c r with
  | some (oidc, s) =>
    if r.getlist "authorization" ≠ [] then .ok none
    else (csrfShown s r).map fun shown =>
      if shown then (oidc.resolve s.identity).map .human else none
  | none =>
    match r.getlist "authorization", c.registry.openPrincipal with
    | [], some p => .ok (some (.human p))
    | [authorization], _ =>
      if reservedToken authorization then .ok (resolveServiceAccount c authorization)
      else
        match authenticate c authorization with
        | some p => .ok (some (.human p))
        | none => .ok (forwardedPrincipal c authorization r)
    | _, _ => .ok none

/-- `SERVICE_ROUTE_SCOPES`. -/
def serviceRouteScopes : List ((String × String) × String) :=
  [(("GET", "/v1/models"), "rag.query"),
    (("POST", "/v1/chat/completions"), "rag.query"),
    (("POST", "/documents/upload"), "documents.write"),
    (("POST", "/documents/\x7bdocument_id\x7d/process"), "documents.lifecycle"),
    (("POST", "/documents/\x7bdocument_id\x7d/ingest-jobs"), "documents.lifecycle"),
    (("GET", "/ingest-jobs/\x7bjob_id\x7d"), "documents.read"),
    (("DELETE", "/ingest-jobs/\x7bjob_id\x7d"), "documents.lifecycle"),
    (("GET", "/documents"), "documents.read"),
    (("GET", "/documents/\x7bdocument_id\x7d"), "documents.read"),
    (("GET", "/documents/\x7bdocument_id\x7d/versions"), "documents.read"),
    (("POST", "/documents/\x7bdocument_id\x7d/archive"), "documents.lifecycle"),
    (("POST", "/documents/\x7bdocument_id\x7d/restore"), "documents.lifecycle"),
    (("POST", "/documents/\x7bdocument_id\x7d/versions/\x7bversion_id\x7d/activate"),
      "documents.lifecycle"),
    (("POST", "/collections"), "collections.manage"),
    (("GET", "/collections"), "collections.manage"),
    (("DELETE", "/collections/\x7bcollection_id\x7d"), "collections.manage"),
    (("PUT", "/collections/\x7bcollection_id\x7d/documents/\x7bdocument_id\x7d"),
      "collections.manage"),
    (("DELETE", "/collections/\x7bcollection_id\x7d/documents/\x7bdocument_id\x7d"),
      "collections.manage"),
    (("GET", "/tags"), "collections.manage"),
    (("DELETE", "/tags/\x7btag_id\x7d"), "collections.manage"),
    (("PUT", "/documents/\x7bdocument_id\x7d/tags"), "collections.manage")]

def serviceScope (r : Request) : Option String := do
  let path ← r.routePath
  serviceRouteScopes.lookup (r.method, path)

def permits (p : Principal) (minimumRole : String) : Bool :=
  match roles.lookup minimumRole with
  | some least => least ≤ (roles.lookup p.role).getD 0
  | none => false

def permitsService (p : ServicePrincipal) (scope : Option String) : Bool :=
  match scope with
  | some s => s ∈ p.scopes
  | none => false

/-- What the role gate asks of the caller it has in front of it. -/
def judge (minimumRole : String) (r : Request) : Caller → Except (ℕ × String) Caller
  | .service p => do
    require (permitsService p (serviceScope r)) (403, "bu islem icin kapsam yetersiz")
    return .service p
  | .human p => do
    require (permits p minimumRole) (403, "bu islem icin rol yetersiz")
    return .human p

/-- `_require_role` with what the middleware bound. The dependency is given the
first Authorization value, or the empty text. -/
def requireRole (c : Config) (minimumRole : String) (bound : Option Caller) (r : Request) :
    Except (ℕ × String) Caller := do
  let authorization := (r.getlist "authorization").headD []
  let fallback := if reservedServiceToken authorization then none
    else (authenticate c authorization).map Caller.human
  let principal ← demand (bound.or fallback) (401, "gecersiz veya eksik API anahtari")
  judge minimumRole r principal

/-- `db_conn`: the tenant and the actor of every database access. -/
def dbConn (bound : Option Caller) : Except String (String × Option String) := do
  let principal ← demand bound "istek tenant baglami kurulmamisti"
  return (principal.tenantId, principal.actorId)

end RagPipeline.Api

/-! # One request, one principal

Where the middleware binds somebody, the gates judge that somebody. Where it
binds nobody, a gate still looks at the first Authorization value by itself. A
single value that names a principal was bound already, so the two disagree for
the requests the middleware refused because of their other credentials. -/

set_option autoImplicit false

namespace RagPipeline.Api
open Guard

variable {c : Config} {r : Request} {minimumRole : String} {a : List Char}

def Request.authorizations (r : Request) : List (List Char) := r.getlist "authorization"

/-- The value a role gate is given. -/
def Request.authorization (r : Request) : List Char := r.authorizations.headD []

/-- More than one credential is presented. -/
def Several (c : Config) (r : Request) : Prop :=
  (session c r).isSome ∧ r.authorizations ≠ [] ∨ 2 ≤ r.authorizations.length ∨
    r.getlist headerName ≠ [] ∧ r.plain ≠ []

structure OnePrincipal (c : Config) (minimumRole : String) (r : Request) : Prop where
  judged : ∀ bound p, requestPrincipal c r = .ok bound → requireRole c minimumRole bound r = .ok p →
    bound = some p ∧ dbConn bound = .ok (p.tenantId, p.actorId)
  refused : Several c r → ∀ bound p, requestPrincipal c r = .ok bound →
    requireRole c minimumRole bound r ≠ .ok p

/-- The first Authorization value by itself satisfies the gate. -/
def Keyed (c : Config) (minimumRole : String) (r : Request) : Prop :=
  reservedServiceToken r.authorization = false ∧
    ∃ p, authenticate c r.authorization = some p ∧ permits p minimumRole

/-- A valid key among several credentials of the kinds the middleware refuses. -/
def Unbound (c : Config) (minimumRole : String) (r : Request) : Prop :=
  ((session c r).isSome ∧ r.authorizations ≠ [] ∨ 2 ≤ r.authorizations.length) ∧
    Keyed c minimumRole r

/-- The caller a request presents besides a forwarded identity. -/
def beside (c : Config) (r : Request) : Option Caller :=
  match session c r, r.authorizations with
  | some (oidc, s), [] =>
    match csrfShown s r with
    | .ok true => (oidc.resolve s.identity).map .human
    | _ => none
  | none, [] => c.registry.openPrincipal.map .human
  | none, [authorization] =>
    if reservedToken authorization then resolveServiceAccount c authorization
    else (authenticate c authorization).map .human
  | _, _ => none

/-- Identity headers of both kinds beside a credential that satisfies the gate. -/
def Ignored (c : Config) (minimumRole : String) (r : Request) : Prop :=
  (r.getlist headerName ≠ [] ∧ r.plain ≠ []) ∧
    ∃ p, beside c r = some p ∧ judge minimumRole r p = .ok p

theorem judge_ok {p q : Caller} (h : judge minimumRole r p = .ok q) : q = p := by
  cases p with
  | human p =>
    obtain ⟨u, -, h⟩ := bind_ok.1 h
    exact (pure_ok.1 h).symm
  | service p =>
    obtain ⟨u, -, h⟩ := bind_ok.1 h
    exact (pure_ok.1 h).symm

theorem judge_human {p : Principal} {q : Caller} :
    judge minimumRole r (.human p) = .ok q ↔ permits p minimumRole ∧ q = .human p := by
  simp only [judge, bind_ok, require_ok, pure_ok, exists_const, eq_comm (a := q)]

/-- Somebody was bound: the gate judges nobody else. -/
theorem requireRole_some {p q : Caller} :
    requireRole c minimumRole (some p) r = .ok q ↔ judge minimumRole r p = .ok q := by
  simp only [requireRole, Option.some_or, demand_some, ok_bind]

/-- Nobody was bound: the gate goes by the first Authorization value. -/
theorem requireRole_none {q : Caller} :
    requireRole c minimumRole none r = .ok q ↔ reservedServiceToken r.authorization = false ∧
      ∃ p, authenticate c r.authorization = some p ∧ permits p minimumRole ∧ q = .human p := by
  change (demand (if reservedServiceToken r.authorization then none
    else (authenticate c r.authorization).map Caller.human) _ >>= _) = _ ↔ _
  cases hreserved : reservedServiceToken r.authorization with
  | true => simp [demand]
  | false => simp [bind_ok, demand_ok, judge_human]

theorem keyed_iff : Keyed c minimumRole r ↔ ∃ q, requireRole c minimumRole none r = .ok q := by
  simp only [Keyed, requireRole_none]
  constructor
  · rintro ⟨hreserved, p, hp, hpermits⟩
    exact ⟨.human p, hreserved, p, hp, hpermits, rfl⟩
  · rintro ⟨q, hreserved, p, hp, hpermits, -⟩
    exact ⟨hreserved, p, hp, hpermits⟩

/-- A program that anybody may call has no other way to know its callers. -/
theorem oidc_none {p : Principal} (h : c.registry.openPrincipal = some p) : c.oidc = none := by
  have hloaded := c.loaded
  simp only [loadRegistry, bind_ok, require_ok, exists_const] at hloaded
  obtain ⟨-, hloaded⟩ := hloaded
  split at hloaded
  · rw [← pure_ok.1 hloaded] at h
    cases h
  · rename_i hclosed
    simp_all

theorem session_none {p : Principal} (h : c.registry.openPrincipal = some p) :
    session c r = none := by
  rw [session, oidc_none h]
  rfl

theorem authenticate_nil (h : c.registry.openPrincipal = none) : authenticate c [] = none := by
  rw [authenticate, h]
  rfl

theorem reservedServiceToken_iff : reservedServiceToken a = true ↔ reservedToken a = true := by
  have hspace : ' ' ∉ bearer := by simp [bearer]
  have hword : servicePrefix = ['r', 'a', 'g', 's', 'a', '.', 'v', '1', '.'] := by
    decide +kernel
  have hprefix : Unfolded servicePrefix := by
    rw [hword]
    simp [Unfolded]
  have hgate : reservedServiceToken a = true ↔ bearer ++ ' ' :: servicePrefix <+: lower a :=
    List.isPrefixOf_iff_prefix
  rw [hgate, prefix_lower_iff hspace]
  simp only [reservedToken, bearerToken]
  cases partitionSpace a with
  | none => simp
  | some ab =>
    obtain ⟨x, y⟩ := ab
    by_cases hx : lower x = bearer
    · simp [hx, List.isPrefixOf_iff_prefix, prefix_casefold_iff hprefix]
    · simp [hx]

/-- The middleware binds nobody for these credentials together. -/
theorem requestPrincipal_none
    (h : (session c r).isSome ∧ r.authorizations ≠ [] ∨ 2 ≤ r.authorizations.length) :
    requestPrincipal c r = .ok none := by
  have hmany : 2 ≤ r.authorizations.length → r.authorizations ≠ [] := by
    intro hlen hnil
    simp [hnil] at hlen
  cases hs : session c r with
  | some os =>
    have hne : r.authorizations ≠ [] := h.elim And.right hmany
    simp only [requestPrincipal, hs, Request.authorizations] at hne ⊢
    rw [if_pos hne]
  | none =>
    have hlen : 2 ≤ r.authorizations.length := by simpa [hs] using h
    simp only [requestPrincipal, hs, Request.authorizations] at hlen ⊢
    -- two values or more leave only the last branch
    match hauth : r.getlist "authorization", hlen with
    | x :: y :: rest, _ => rfl

/-- Without a session, one value or none, nobody bound: the gate finds nobody either. -/
theorem requireRole_few (hs : session c r = none) (hfew : r.authorizations.length < 2)
    (hbound : requestPrincipal c r = .ok none) {q : Caller} :
    requireRole c minimumRole none r ≠ .ok q := by
  intro h
  obtain ⟨hreserved, p, hp, -⟩ := requireRole_none.1 h
  simp only [Request.authorization, Request.authorizations] at hreserved hp hfew
  simp only [requestPrincipal, hs] at hbound
  match hauth : r.getlist "authorization" with
  | [] =>
    rw [hauth] at hbound hp
    cases hopen : c.registry.openPrincipal with
    | some open_ => simp [hopen] at hbound
    | none =>
      rw [List.headD_nil, authenticate_nil hopen] at hp
      cases hp
  | [x] =>
    rw [hauth] at hbound hp hreserved
    have hfree : reservedToken x = false := by
      rw [← Bool.not_eq_true, ← reservedServiceToken_iff, Bool.not_eq_true]
      exact hreserved
    have hx : authenticate c x = some p := hp
    simp [hfree, hx] at hbound
  | x :: y :: rest =>
    rw [hauth] at hfew
    simp only [List.length_cons] at hfew
    omega

/-- With a session and no value there is no open principal to fall back to. -/
theorem requireRole_session (hs : (session c r).isSome) (hnil : r.authorizations = []) {q : Caller} :
    requireRole c minimumRole none r ≠ .ok q := by
  intro h
  obtain ⟨-, p, hp, -⟩ := requireRole_none.1 h
  cases hopen : c.registry.openPrincipal with
  | some open_ => simp [session_none hopen] at hs
  | none =>
    rw [Request.authorization, hnil, List.headD_nil, authenticate_nil hopen] at hp
    cases hp

/-- A value the gate accepts by itself was bound unless it came with another. -/
theorem unbound_of_none {q : Caller} (hbound : requestPrincipal c r = .ok none)
    (h : requireRole c minimumRole none r = .ok q) : Unbound c minimumRole r := by
  refine ⟨?_, keyed_iff.2 ⟨q, h⟩⟩
  by_contra hfew
  obtain ⟨hsession, hlen⟩ := not_or.1 hfew
  cases hs : session c r with
  | some os =>
    have hnil : r.authorizations = [] := by
      by_contra hne
      exact hsession ⟨by simp [hs], hne⟩
    exact requireRole_session (by simp [hs]) hnil h
  | none => exact requireRole_few hs (by omega) hbound h

/-- Beside plain identity headers no forwarded identity is bound. -/
theorem bound_iff_beside {p : Caller} (hplain : r.plain ≠ []) :
    requestPrincipal c r = .ok (some p) ↔ beside c r = some p := by
  have hforwarded : ∀ x, forwardedPrincipal c x r = none := by
    intro x
    simp only [forwardedPrincipal, if_neg hplain]
    split
    · split <;> rfl
    · rfl
  simp only [requestPrincipal, beside, Request.authorizations]
  cases session c r with
  | some os =>
    obtain ⟨oidc, s⟩ := os
    cases hauth : r.getlist "authorization" with
    | nil =>
      match hshown : csrfShown s r with
      | .ok true => simp [Except.map, hshown]
      | .ok false => simp [Except.map, hshown]
      | .error u => simp [Except.map, hshown]
    | cons x rest => simp
  | none =>
    match hauth : r.getlist "authorization" with
    | [] => cases c.registry.openPrincipal <;> simp
    | [x] =>
      simp only [hforwarded]
      cases reservedToken x with
      | true => simp
      | false => cases authenticate c x <;> simp
    | x :: y :: rest => simp

/-- The two ways a request gets past a gate it should not get past, and no other. -/
theorem onePrincipal_iff : OnePrincipal c minimumRole r ↔
    ¬ Unbound c minimumRole r ∧ ¬ Ignored c minimumRole r := by
  constructor
  · intro h
    constructor
    · intro ⟨hmany, hkeyed⟩
      obtain ⟨q, hq⟩ := keyed_iff.1 hkeyed
      obtain ⟨hnone, -⟩ := h.judged none q (requestPrincipal_none hmany) hq
      cases hnone
    · intro ⟨hheaders, p, hp, hjudge⟩
      have hbound := (bound_iff_beside hheaders.2).2 hp
      exact h.refused (.inr (.inr hheaders)) (some p) p hbound (requireRole_some.2 hjudge)
  · intro ⟨hbound, hheaders⟩
    have hsome : ∀ bound p, requestPrincipal c r = .ok bound →
        requireRole c minimumRole bound r = .ok p →
        bound = some p ∧ judge minimumRole r p = .ok p := by
      intro bound p hrequest hrole
      cases bound with
      | none => exact absurd (unbound_of_none hrequest hrole) hbound
      | some q =>
        rw [requireRole_some] at hrole
        obtain rfl := judge_ok hrole
        exact ⟨rfl, hrole⟩
    constructor
    · intro bound p hrequest hrole
      obtain ⟨rfl, -⟩ := hsome bound p hrequest hrole
      exact ⟨rfl, rfl⟩
    · intro hseveral bound p hrequest hrole
      obtain ⟨rfl, hjudge⟩ := hsome bound p hrequest hrole
      rw [Several, ← or_assoc] at hseveral
      obtain hmany | hboth := hseveral
      · rw [requestPrincipal_none hmany] at hrequest
        cases hrequest
      · exact hheaders ⟨hboth, p, (bound_iff_beside hboth.2).1 hrequest, hjudge⟩

/-- One admin key, and browser sessions of readers of the same tenant. -/
def keyAndBrowser : Config where
  registry := ⟨[⟨"digest", ⟨defaultTenantId, "admin", none, "api_key", none, false⟩⟩], none⟩
  sha256 token := if token = ['k'] then "digest" else ""
  oidc := some {
    sessions _ := some ⟨"browser", ['t']⟩
    resolve _ := some ⟨defaultTenantId, "reader", some "person", "oidc", none, false⟩ }
  gatewayDigest := none
  forwarded _ := none
  serviceAccounts := none
  allowInsecureLocal := false
  loopback := false
  loaded := rfl

def keyInBrowser : Request :=
  ⟨"GET", some "/documents", some ['s'], [("authorization".toList, "Bearer k".toList)]⟩

/-- The browser's request with a key is bound to nobody and let through as the
holder of the key, with no tenant for its database accesses. -/
theorem key_in_browser_passes :
    requestPrincipal keyAndBrowser keyInBrowser = .ok none ∧
    requireRole keyAndBrowser "admin" none keyInBrowser =
      .ok (.human ⟨defaultTenantId, "admin", none, "api_key", none, false⟩) ∧
    dbConn none = .error "istek tenant baglami kurulmamisti" ∧
    ¬ OnePrincipal keyAndBrowser "admin" keyInBrowser := by
  have hauth : keyInBrowser.authorizations ≠ [] := by decide +kernel
  have hbound := requestPrincipal_none (c := keyAndBrowser) (.inl ⟨rfl, hauth⟩)
  have hrole : requireRole keyAndBrowser "admin" none keyInBrowser =
      .ok (.human ⟨defaultTenantId, "admin", none, "api_key", none, false⟩) :=
    requireRole_none.2 ⟨by decide +kernel, _, by decide +kernel, by decide +kernel, rfl⟩
  refine ⟨hbound, hrole, rfl, fun h => ?_⟩
  obtain ⟨hnone, -⟩ := h.judged none _ hbound hrole
  cases hnone

end RagPipeline.Api
