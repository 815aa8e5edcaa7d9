import RagPipeline.Oidc.Verifier

/-! # Rotation over any run

The keys the verifier holds are those that the documents taken in so far leave, so
that a token is believed only by a key of the latest one or for as long as the
overlap lasts; and a verifier that is full is emptied by time alone. -/

set_option autoImplicit false

namespace RagPipeline.Oidc
open Guard Transition
open RagPipeline.Answer (Json)
open RagPipeline.Rotation (Entry History Latest MissingSince Follows merge unretired settled stays)

section
variable [Rsa] {config : OIDCConfig} {now : ℤ} {fetched : Fetched} {s s' : Situation}

/-- What holds of the keys after any calls. -/
structure Held (config : OIDCConfig) (s : Situation) : Prop where
  follows : Follows config.jwksOverlapSeconds s.taken s.verifier.keys
  past : ∀ p ∈ s.taken, p.1 ≤ s.time
  size : s.verifier.keys.length ≤ MAX_KEYS * 2
  current : (unretired s.verifier.keys).length ≤ MAX_KEYS

theorem held_start (h : (calls config).initial s) : Held config s := by
  obtain ⟨verifier, taken, time⟩ := s
  obtain ⟨rfl, rfl⟩ : verifier = Verifier.new ∧ taken = [] := h
  constructor
  · exact Rotation.follows_nil
  · intro p hp
    cases hp
  · exact Nat.zero_le _
  · exact Nat.zero_le _

theorem held_step (hs : Held config s) {a : ℤ × Call} (h : (calls config).step s a s') :
    Held config s' := by
  obtain ⟨now, c⟩ := a
  obtain ⟨htime, rfl⟩ := h
  have htakes := takes_call config now s.verifier c
  have hpast : ∀ p ∈ s.taken, p.1 ≤ now := fun p hp => le_trans (hs.past p hp) htime
  rw [Situation.next]
  cases htaken : c.taken config now s.verifier with
  | none =>
    rw [htaken] at htakes
    have hsame : c.run config now s.verifier = s.verifier := htakes
    rw [hsame]
    exact ⟨hs.follows, hpast, hs.size, hs.current⟩
  | some fresh =>
    rw [htaken] at htakes
    obtain ⟨hnodup, hlength, hinstall⟩ := htakes
    obtain ⟨hsize, hrun⟩ := install_ok.1 hinstall
    rw [hrun]
    constructor
    · exact hs.follows.merge hnodup hpast
    · intro p hp
      cases List.mem_cons.1 hp with
      | inl heq =>
        rw [heq]
      | inr hmem => exact hpast p hmem
    · exact hsize
    · show (unretired (merge _ _ _ _)).length ≤ _
      rw [Rotation.merge_unretired]
      exact hlength

theorem held_run (h : (calls config).Reachable s) : Held config s :=
  System.invariant (fun _ => held_start) (fun _ _ _ _ hs hstep => held_step hs hstep) h

/-- Where nothing was taken in for longer than the overlap, a document that is well formed is
taken in. -/
theorem refresh_succeeds {fresh : Keys} (hs : Held config s)
    (hread : readKeys fetched = .ok fresh)
    (hquiet : ∀ p ∈ s.taken, config.jwksOverlapSeconds < now - p.1) :
    ∃ v, refresh config now fetched s.verifier = .ok v := by
  have hold : ∀ p ∈ s.verifier.keys, ∀ m ∈ p.2.retiredAt, config.jwksOverlapSeconds < now - m := by
    intro p hp m hm
    obtain ⟨keys, hmem⟩ := hs.follows.retired_mem hp hm
    exact hquiet (m, keys) hmem
  have hsize : (merge config.jwksOverlapSeconds now fresh s.verifier.keys).length ≤ MAX_KEYS * 2 := by
    have hmerge := Rotation.merge_length fresh hold
    have hfresh := (readKeys_ok hread).2
    have hcurrent := hs.current
    omega
  exact ⟨_, refresh_ok.2 ⟨fresh, hread, install_ok.2 ⟨hsize, rfl⟩⟩⟩

/-- A key the verifier holds and does not find stale is the one that the documents leave. -/
theorem held_lookup (hs : Held config s) {kid : Text} {cached : CachedKey}
    (h : s.verifier.keys.lookup kid = some cached)
    (hyoung : ∀ retiredAt ∈ cached.retiredAt, now - retiredAt ≤ config.jwksOverlapSeconds) :
    Latest s.taken kid cached.value ∨
      ∃ m, MissingSince s.taken kid cached.value m ∧ now - m ≤ config.jwksOverlapSeconds := by
  rw [hs.follows.lookup] at h
  obtain ⟨hsettled, -⟩ := Option.filter_eq_some_iff.1 h
  obtain ⟨key, retired⟩ := cached
  cases retired with
  | none => exact Or.inl (Rotation.settled_latest hsettled)
  | some m => exact Or.inr ⟨m, Rotation.settled_missing hsettled, hyoung m rfl⟩

/-- A key of the latest document is current, whatever was under its id before. -/
theorem held_latest (hs : Held config s) {kid : Text} {key : Rsa.Key}
    (h : Latest s.taken kid key) : s.verifier.keys.lookup kid = some ⟨key, none⟩ := by
  rw [hs.follows.lookup, h.settled, Option.filter_some]
  have hstays : stays config.jwksOverlapSeconds s.taken (⟨key, none⟩ : CachedKey) = true := by
    cases s.taken with
    | nil => rfl
    | cons p rest => rfl
  rw [if_pos hstays]

/-- Signing-key rotation is bounded. -/
theorem rotation_bounded (config : OIDCConfig) {s : Situation} (hs : (calls config).Reachable s) :
    s.verifier.keys.length ≤ 2 * MAX_KEYS ∧
    (∀ kid key, Latest s.taken kid key → s.verifier.keys.lookup kid = some ⟨key, none⟩) ∧
    (∀ now token expectedNonce fetched identity s',
      (calls config).step s (now, .verify token expectedNonce fetched) s' →
      (verify config token expectedNonce now fetched s.verifier).2 = .ok identity →
      ∃ parts key, tokenParts token = .ok parts ∧
        Rsa.verifies key parts.signature parts.signed = true ∧
        (Latest s'.taken parts.kid key ∨ ∃ m, MissingSince s'.taken parts.kid key m ∧
          now - m ≤ config.jwksOverlapSeconds) ∧
        ∀ key', Latest s'.taken parts.kid key' → key' = key) ∧
    (∀ refused before now fetched fresh s₁ s₂,
      (calls config).step s (refused, .refresh before) s₁ →
      refresh config refused before s.verifier = .error "OIDC JWKS overlap is too large" →
      (calls config).Later s₁ s₂ → s₂.time ≤ now → config.jwksOverlapSeconds < now - refused →
      (∀ p ∈ s₂.taken, refused ≤ p.1 → config.jwksOverlapSeconds < now - p.1) →
      readKeys fetched = .ok fresh → ∃ v, refresh config now fetched s₂.verifier = .ok v) := by
  have hheld := held_run hs
  refine ⟨?_, fun _ _ => held_latest hheld, ?_, ?_⟩
  · rw [Nat.mul_comm]
    exact hheld.size
  · intro now token expectedNonce fetched identity s' hstep haccepted
    have hheld' := held_step hheld hstep
    obtain ⟨parts, htoken, haccept⟩ := verify_ok haccepted
    obtain ⟨cached, hlookup, hyoung, hverifies⟩ := accept_ok haccept
    obtain ⟨-, rfl⟩ := hstep
    refine ⟨parts, cached.value, htoken, hverifies, held_lookup hheld' hlookup hyoung, ?_⟩
    intro key' hlatest
    have hsame := held_latest hheld' hlatest
    have heq : some cached = some ⟨key', none⟩ := hlookup.symm.trans hsame
    exact congrArg Entry.value (Option.some.inj heq).symm
  · intro refused before now fetched fresh s₁ s₂ hstep _ hlater _ hnow hquiet hread
    have hreachable := System.reachable_later (hs.next hstep) hlater
    apply refresh_succeeds (held_run hreachable) hread
    intro p hp
    by_cases hp' : refused ≤ p.1
    · exact hquiet p hp hp'
    · omega

end

/-! ## A run -/

/-- What a signature has to be a root of: the digest of the one text, padded. -/
def samplePadded : Bytes :=
  [0, 1] ++ List.replicate 202 255 ++ [0] ++
    [0x30, 0x31, 0x30, 0x0d, 0x06, 0x09, 0x60, 0x86, 0x48, 0x01, 0x65, 0x03, 0x04, 0x02, 0x01, 0x05,
      0x00, 0x04, 0x20] ++
    [0xa7, 0x05, 0x73, 0xcd, 0x7c, 0x9c, 0xcc, 0xd3, 0x3f, 0xe3, 0xdc, 0xae, 0xc9, 0xa7, 0x15, 0x44,
      0x1f, 0xcd, 0xc0, 0xf5, 0x19, 0x3c, 0xb1, 0xb3, 0xfe, 0xbc, 0x75, 0xb0, 0xc0, 0x19, 0xff, 0x78]

def sampleHeader : Text := List.flatMap String.toList
  ["eyJhbGciOiJSUzI1NiIsImtp", "ZCI6ImZpcnN0IiwidHlwIjoi", "SldUIn0"]

def sampleClaims : Text := List.flatMap String.toList
  ["eyJpc3MiOiJodHRwczovL2lk", "ZW50aXR5LmV4YW1wbGUvcmVh", "bG1zL3BpbG90Iiwic3ViIjoi",
    "b3BhcXVlLXN1YmplY3QiLCJh", "dWQiOiJyYWd0ZXN0LWJmZiIs", "ImV4cCI6MjAwLCJpYXQiOjEw",
    "MCwibm9uY2UiOiJvbmUtdXNl", "LW5vbmNlIn0"]

def sampleSignature : Text := List.flatMap String.toList
  ["WRPwKrVv7YilonijqDC1tnbC", "g-yWvfWuqzAXvxiZP2r7NFK0", "ez0Qqt-wQUu6mlTkS0jnDkW1",
    "OGtnFMgA3Z5f0fTDV0Sndnhj", "rfeh74frlXZ5IbXTRfhTwKfe", "-eO5tVFuUXCs4MEBQHCXlpfi",
    "IMj4jpQm-hh0PcDO1Oh-0fBs", "utSyjrYpeZcxJAh4Z1lV8kB1", "H81YlxKenEl66vcLxVKgGb7V",
    "DMaxcadzv2MIt7OD-wN-WaOX", "W9MRiEozALUw1AphTZajf5f3", "P3yJ93gFLuIeyRPS3ZFMmkfx",
    "aSdJAXHjHrlYGdsFzVB289Dx", "zuCQ6JuDcS9aKO2VoDXTZKcd", "opIU8A"]

/-- The arithmetic of a signature, where the text is the one of the sample. -/
@[reducible] def textbook : Rsa where
  Key := ℕ × ℕ
  publicKey e n := some (e, n)
  verifies key signature signed :=
    signed == (sampleHeader ++ '.' :: sampleClaims).map (fun c => UInt8.ofNat c.toNat) &&
      Nat.pow (fromBytes signature) key.1 % key.2 == fromBytes samplePadded

attribute [local instance] textbook

def sampleConfig : OIDCConfig where
  issuer := "https://identity.example/realms/pilot".toList
  clientId := "ragtest-bff".toList
  clockSkewSeconds := 5
  jwksCacheSeconds := 30
  jwksOverlapSeconds := 60
  skewRange := by decide
  cacheRange := by decide
  overlapRange := by decide

def sampleModulus : Text := List.flatMap String.toList
  ["oyjTywpMGBzDrQcwSZFY63Dk", "dWYRvcZUdyEtE-rXL23hu_Yx", "UJ8zZjTgg1rM8hoD46-PSxUL",
    "QSjOhvpI6F9m-yWwp5qDg4P8", "3b7Tu-JkD7Fdz9cCvkbAxRVt", "L4flIuQE6YW0xrODT1VOYP9-",
    "QxikOvxK5hcPA-CzsWlVXKIU", "nBsIC-WzB4JIg0M7f6BGAgdM", "jEUmwM4D1RvhbKt9ESyfieUT",
    "ki6kEYOyWjSTg7EW4TVPJSkU", "SS2BsUJPM0CMJzaZODbahqiM", "55x0pxPJAM7euv1srNAtwDjh",
    "4kcb9nkEqlL4oEKAE-SDXmTg", "ZSi4uMGU57jMxLe04ShVoudT", "Bj1ifw"]

def sampleJwk (kid : Text) : Json :=
  .obj [("kty".toList, .str "RSA".toList), ("kid".toList, .str kid), ("use".toList, .str "sig".toList),
    ("alg".toList, .str "RS256".toList), ("n".toList, .str sampleModulus), ("e".toList, .str "Aw".toList)]

def sampleDocument (kids : List Text) : Fetched :=
  .document (.obj [("keys".toList, .arr (kids.map sampleJwk))])

def sampleToken : Json := .str (sampleHeader ++ '.' :: (sampleClaims ++ '.' :: sampleSignature))

def sampleNonce : Json := .str "one-use-nonce".toList

def sampleBytes : Bytes := ((sampleModulus.mapM sextet).bind bytesOf).getD []

def sampleKey : ℕ × ℕ := (3, fromBytes sampleBytes)

theorem sample_modulus : ((sampleModulus.mapM sextet).bind bytesOf).isSome = true ∧
    sampleModulus.isEmpty = false ∧ 2048 ≤ bitLength (fromBytes sampleBytes) := by decide +kernel

theorem sample_decode : decode (some (.str sampleModulus)) = .ok sampleBytes := by
  obtain ⟨hsome, hne, -⟩ := sample_modulus
  obtain ⟨bytes, hbytes⟩ := Option.isSome_iff_exists.1 hsome
  rw [decode, sampleBytes, hne, hbytes]
  rfl

theorem sample_parse {parsed : Keys} {kid : Text} (hclosed : closedText 128 (some (.str kid)) = true)
    (hnew : (parsed.lookup kid).isNone = true) :
    parseJwk parsed (sampleJwk kid) = .ok (kid, sampleKey) := by
  have hlong := sample_modulus.2.2
  have hexponent : decode (some (.str "Aw".toList)) = .ok [3] := by rfl
  rw [sampleJwk, parseJwk]
  apply bind_ok.2
  refine ⟨(), require_true ⟨rfl, rfl, rfl, rfl, hclosed⟩, ?_⟩
  show (do
    require ((parsed.lookup kid).isNone) "OIDC JWK kid is duplicated"
    let modulus ← fromBytes <$> decode (some (.str sampleModulus))
    let exponent ← fromBytes <$> decode (some (.str "Aw".toList))
    require (2048 ≤ bitLength modulus ∧ (exponent = 3 ∨ exponent = 65537)) "OIDC RSA key is invalid"
    let key ← demand (Rsa.publicKey exponent modulus) "OIDC RSA key is invalid"
    return (kid, key)) = Except.ok (kid, sampleKey)
  rw [require_true hnew, sample_decode, hexponent]
  have hthree : fromBytes [3] = 3 := rfl
  have hkey : demand (Rsa.publicKey (fromBytes [3]) (fromBytes sampleBytes))
      "OIDC RSA key is invalid" = .ok sampleKey := by
    rw [hthree]
    rfl
  apply bind_ok.2
  refine ⟨(), rfl, bind_ok.2 ⟨fromBytes sampleBytes, rfl, bind_ok.2 ⟨fromBytes [3], rfl, ?_⟩⟩⟩
  apply bind_ok.2
  exact ⟨(), require_true ⟨hlong, Or.inl hthree⟩, bind_ok.2 ⟨sampleKey, hkey, rfl⟩⟩

theorem sample_parse_list (parsed : Keys) {kids : List Text}
    (hclosed : ∀ kid ∈ kids, closedText 128 (some (.str kid)) = true) (hnodup : kids.Nodup)
    (hnew : ∀ kid ∈ kids, (parsed.lookup kid).isNone = true) :
    parseJwkList parsed (kids.map sampleJwk) = .ok (parsed ++ kids.map fun kid => (kid, sampleKey)) := by
  induction kids generalizing parsed with
  | nil =>
    rw [List.map_nil, List.map_nil, List.append_nil]
    rfl
  | cons kid rest ih =>
    rw [List.nodup_cons] at hnodup
    have hparse := sample_parse (hclosed kid List.mem_cons_self) (hnew kid List.mem_cons_self)
    rw [List.map_cons, parseJwkList, hparse]
    have hrest : ∀ kid' ∈ rest, ((parsed ++ [(kid, sampleKey)]).lookup kid').isNone = true := by
      intro kid' hmem
      have hne : (kid' == kid) = false := by
        apply beq_eq_false_iff_ne.2
        intro heq
        exact hnodup.1 (heq ▸ hmem)
      have hold := hnew kid' (List.mem_cons_of_mem kid hmem)
      rw [List.lookup_append, Option.isNone_iff_eq_none.1 hold, Option.none_or, List.lookup_cons, hne]
      rfl
    have hmore := ih _ (fun k hk => hclosed k (List.mem_cons_of_mem kid hk)) hnodup.2 hrest
    rw [List.append_assoc] at hmore
    exact hmore

theorem sample_read {kids : List Text} (hlength : 1 ≤ kids.length ∧ kids.length ≤ MAX_KEYS)
    (hclosed : (kids.all fun kid => closedText 128 (some (.str kid))) = true) (hnodup : kids.Nodup) :
    readKeys (sampleDocument kids) = .ok (kids.map fun kid => (kid, sampleKey)) := by
  have hlist := sample_parse_list [] (fun kid hkid => List.all_eq_true.1 hclosed kid hkid)
    hnodup (fun _ _ => rfl)
  rw [sampleDocument, readKeys, parseJwks]
  apply bind_ok.2
  refine ⟨(), require_true ⟨rfl, rfl⟩, ?_⟩
  show (do
    require (1 ≤ (kids.map sampleJwk).length ∧ (kids.map sampleJwk).length ≤ MAX_KEYS)
      "OIDC JWKS key count is invalid"
    parseJwkList [] (kids.map sampleJwk)) = Except.ok _
  rw [List.length_map, require_true hlength]
  exact hlist

/-- Eight ids. -/
def sampleKids (c : Char) : List Text := "12345678".toList.map fun d => [c, d]

def sampleFresh (c : Char) : Keys := (sampleKids c).map fun kid => (kid, sampleKey)

def sampleLetters : List Char := ['a', 'b', 'c', 'e']

theorem sampleKids_eq (c : Char) :
    sampleKids c = ['1', '2', '3', '4', '5', '6', '7', '8'].map fun d => [c, d] := by
  have hdigits : "12345678".toList = ['1', '2', '3', '4', '5', '6', '7', '8'] := by
    have hliteral : "12345678" = String.ofList ['1', '2', '3', '4', '5', '6', '7', '8'] := rfl
    rw [hliteral, String.toList_ofList]
  exact congrArg (List.map fun d => [c, d]) hdigits

theorem sample_read_kids {c : Char} (hc : c ∈ sampleLetters) :
    readKeys (sampleDocument (sampleKids c)) = .ok (sampleFresh c) := by
  have hgood : (sampleLetters.all fun c => ['1', '2', '3', '4', '5', '6', '7', '8'].all fun d =>
      closedText 128 (some (.str [c, d]))) = true := by decide +kernel
  have hdigits : ['1', '2', '3', '4', '5', '6', '7', '8'].Nodup := by decide
  have hclosed : ((sampleKids c).all fun kid => closedText 128 (some (.str kid))) = true := by
    rw [sampleKids_eq, List.all_map]
    exact List.all_eq_true.1 hgood c hc
  have hnodup : (sampleKids c).Nodup := by
    rw [sampleKids_eq]
    apply hdigits.map
    intro d d' h
    exact (List.cons.inj (List.cons.inj h).2).1
  have hlength : (sampleKids c).length = 8 := rfl
  apply sample_read
  · rw [hlength]
    decide
  · exact hclosed
  · exact hnodup

def sampleMerge (now : ℤ) (c : Char) (keys : List (Text × CachedKey)) : List (Text × CachedKey) :=
  merge 60 now (sampleFresh c) keys

theorem sample_taken {c : Char} {now : ℤ} {v : Verifier} (hc : c ∈ sampleLetters)
    (hsize : (sampleMerge now c v.keys).length ≤ 16) :
    refresh sampleConfig now (sampleDocument (sampleKids c)) v = .ok ⟨sampleMerge now c v.keys, now⟩ :=
  refresh_ok.2 ⟨sampleFresh c, sample_read_kids hc, install_ok.2 ⟨hsize, rfl⟩⟩

theorem sample_refused {c : Char} {now : ℤ} {v : Verifier} (hc : c ∈ sampleLetters)
    (hsize : ¬ (sampleMerge now c v.keys).length ≤ 16) :
    refresh sampleConfig now (sampleDocument (sampleKids c)) v =
      .error "OIDC JWKS overlap is too large" := by
  rw [refresh, sample_read_kids hc]
  show (do
    require ((sampleMerge now c v.keys).length ≤ 16) "OIDC JWKS overlap is too large"
    return ⟨sampleMerge now c v.keys, now⟩ : Checked Verifier) = _
  rw [require_false hsize]
  rfl

/-- A refresh with eight keys. -/
def sampleNext (s : Situation) (now : ℤ) (c : Char) : Situation :=
  s.next sampleConfig now (.refresh (sampleDocument (sampleKids c)))

theorem sample_step {s : Situation} {now : ℤ} (c : Char) (h : s.time ≤ now) :
    (calls sampleConfig).step s (now, .refresh (sampleDocument (sampleKids c))) (sampleNext s now c) :=
  ⟨h, rfl⟩

theorem sample_next {s : Situation} {now : ℤ} {c : Char} (hc : c ∈ sampleLetters)
    (hsize : (sampleMerge now c s.verifier.keys).length ≤ 16) :
    (sampleNext s now c).verifier = ⟨sampleMerge now c s.verifier.keys, now⟩ := by
  have hrun : (sampleNext s now c).verifier =
      (Call.refresh (sampleDocument (sampleKids c))).run sampleConfig now s.verifier := rfl
  rw [hrun, Call.run, sample_taken hc hsize]

theorem sample_same {s : Situation} {now : ℤ} {c : Char} (hc : c ∈ sampleLetters)
    (hsize : ¬ (sampleMerge now c s.verifier.keys).length ≤ 16) :
    (sampleNext s now c).verifier = s.verifier := by
  have hrun : (sampleNext s now c).verifier =
      (Call.refresh (sampleDocument (sampleKids c))).run sampleConfig now s.verifier := rfl
  rw [hrun, Call.run, sample_refused hc hsize]

def sampleStart : Situation := ⟨Verifier.new, [], 0⟩

/-- Eight keys, and eight others soon after. -/
def sampleFull : Situation := sampleNext (sampleNext sampleStart 0 'a') 10 'b'

theorem sample_reachable : (calls sampleConfig).Reachable sampleFull := by
  have hstart : (calls sampleConfig).Reachable sampleStart := .start ⟨rfl, rfl⟩
  have hfirst := hstart.next (sample_step 'a' (by decide : sampleStart.time ≤ 0))
  exact hfirst.next (sample_step 'b' (by decide : (0 : ℤ) ≤ 10))

/-- Two sets of keys fit, a third one only when the first has gone. -/
theorem sample_sizes :
    (sampleMerge 0 'a' []).length ≤ 16 ∧
    (sampleMerge 10 'b' (sampleMerge 0 'a' [])).length ≤ 16 ∧
    ¬ (sampleMerge 20 'c' (sampleMerge 10 'b' (sampleMerge 0 'a' []))).length ≤ 16 ∧
    (sampleMerge 75 'c' (sampleMerge 10 'b' (sampleMerge 0 'a' []))).length ≤ 16 ∧
    ¬ (sampleMerge 81 'e' (sampleMerge 75 'c' (sampleMerge 10 'b' (sampleMerge 0 'a' [])))).length ≤ 16 := by
  simp only [sampleMerge, sampleFresh, sampleKids_eq]
  decide +kernel

theorem sample_full : sampleFull.verifier = ⟨sampleMerge 10 'b' (sampleMerge 0 'a' []), 10⟩ := by
  have hfirst : (sampleNext sampleStart 0 'a').verifier = ⟨sampleMerge 0 'a' [], 0⟩ :=
    sample_next (by decide) sample_sizes.1
  rw [sampleFull, sample_next (by decide)]
  · rw [hfirst]
  · rw [hfirst]
    exact sample_sizes.2.1

theorem sample_full_refused : refresh sampleConfig 20 (sampleDocument (sampleKids 'c')) sampleFull.verifier =
    .error "OIDC JWKS overlap is too large" := by
  apply sample_refused (by decide)
  rw [sample_full]
  exact sample_sizes.2.2.1

/-- Eight more keys are refused, taken once the first eight are too old, and then leave no
room for the next eight. -/
theorem refused_once_more : ¬ ∀ (config : OIDCConfig) (s : Situation), (calls config).Reachable s →
    ∀ refused before now fetched fresh s₁ s₂,
      (calls config).step s (refused, .refresh before) s₁ →
      refresh config refused before s.verifier = .error "OIDC JWKS overlap is too large" →
      (calls config).Later s₁ s₂ → s₂.time ≤ now → config.jwksOverlapSeconds < now - refused →
      readKeys fetched = .ok fresh → ∃ v, refresh config now fetched s₂.verifier = .ok v := by
  intro hclaim
  have hfull : (sampleNext sampleFull 20 'c').verifier = sampleFull.verifier := by
    apply sample_same (by decide)
    rw [sample_full]
    exact sample_sizes.2.2.1
  have htaken : (sampleNext (sampleNext sampleFull 20 'c') 75 'c').verifier =
      ⟨sampleMerge 75 'c' (sampleMerge 10 'b' (sampleMerge 0 'a' [])), 75⟩ := by
    rw [sample_next (by decide)]
    · rw [hfull, sample_full]
    · rw [hfull, sample_full]
      exact sample_sizes.2.2.2.1
  have hlater : (calls sampleConfig).Later (sampleNext sampleFull 20 'c')
      (sampleNext (sampleNext sampleFull 20 'c') 75 'c') :=
    .single ⟨_, sample_step 'c' (by decide : (20 : ℤ) ≤ 75)⟩
  obtain ⟨v, hv⟩ := hclaim sampleConfig sampleFull sample_reachable 20 _ 81 _ _ _ _
    (sample_step 'c' (by decide : (10 : ℤ) ≤ 20)) sample_full_refused hlater
    (by decide : (75 : ℤ) ≤ 81) (by decide) (sample_read_kids (by decide : 'e' ∈ sampleLetters))
  have hrefused : refresh sampleConfig 81 (sampleDocument (sampleKids 'e'))
      (sampleNext (sampleNext sampleFull 20 'c') 75 'c').verifier =
      .error "OIDC JWKS overlap is too large" := by
    apply sample_refused (by decide)
    rw [htaken]
    exact sample_sizes.2.2.2.2
  rw [hrefused] at hv
  cases hv

/-- A token is accepted at once, and what is refused is taken once the overlap has passed. -/
theorem rotation_bounded_sample :
    (∃ parts key, tokenParts sampleToken = .ok parts ∧
      Rsa.verifies key parts.signature parts.signed = true) ∧
    sampleFull.verifier.keys.length ≤ 2 * MAX_KEYS ∧
    ∃ v, refresh sampleConfig 81 (sampleDocument (sampleKids 'e')) (sampleNext sampleFull 20 'c').verifier =
      .ok v := by
  have hstart : (calls sampleConfig).Reachable sampleStart := .start ⟨rfl, rfl⟩
  have haccepted : (verify sampleConfig sampleToken sampleNonce 150 (sampleDocument ["first".toList])
      sampleStart.verifier).2 = .ok ⟨sampleConfig.issuer, "opaque-subject".toList, 100, 200⟩ := by
    decide +kernel
  obtain ⟨-, -, haccept, -⟩ := rotation_bounded sampleConfig hstart
  obtain ⟨parts, key, htoken, hverifies, -, -⟩ := haccept 150 sampleToken sampleNonce
    (sampleDocument ["first".toList]) _ _ ⟨by decide, rfl⟩ haccepted
  obtain ⟨hsize, hlatest, -, hrecovers⟩ := rotation_bounded sampleConfig sample_reachable
  have hsame : (sampleNext sampleFull 20 'c').taken = sampleFull.taken := by
    have hnone := refused_taken sample_full_refused
    rw [sampleNext, Situation.next, hnone]
  have hnone : ∀ p ∈ (sampleNext sampleFull 20 'c').taken, (20 : ℤ) ≤ p.1 → 60 < 81 - p.1 := by
    intro p hp hlate
    rw [hsame] at hp
    have hpast : p.1 ≤ 10 := (held_run sample_reachable).past p hp
    omega
  exact ⟨⟨parts, key, htoken, hverifies⟩, hsize, hrecovers 20 _ 81 _ _ _ _
    (sample_step 'c' (by decide : (10 : ℤ) ≤ 20)) sample_full_refused .refl
    (by decide : (20 : ℤ) ≤ 81) (by decide) hnone (sample_read_kids (by decide : 'e' ∈ sampleLetters))⟩

end RagPipeline.Oidc
