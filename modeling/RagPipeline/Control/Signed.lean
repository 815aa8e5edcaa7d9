import RagPipeline.Control.Store
import RagPipeline.Lib.Conditions
import RagPipeline.Lib.Wire

/-! # The signed bytes

The two functions that lay out the bytes of an assertion, over arguments any of
which may be NULL: which arguments they take, and that the bytes tell the
arguments. -/

set_option autoImplicit false

namespace RagPipeline.Control
open Guard ThreeValued Wire

/-- The arguments of either function. -/
structure Arguments where
  purpose : Option String
  keyVersion : Option Int4
  tenantId : Option Uuid
  tenantActorDigest : Option Bytes
  orgPolicyEpoch : Option Int8
  approvalId : Option Uuid
  approvalRevision : Option Int8
  serviceAccountId : Option Uuid
  credentialDigest : Option Bytes
  limit : Option Int4
  issuedAt : Option Int8
  expiresAt : Option Int8
  nonce : Option Bytes
deriving DecidableEq, Repr

/-! ## The condition -/

def purposes : List String :=
  ["approval_list", "approval_get", "approval_redeem_issue", "approval_redeem_rotate"]

def below (bound : ℤ) {n : ℕ} (x : BitVec n) : Bool := x.toInt < bound

def above (bound : ℤ) {n : ℕ} (x : BitVec n) : Bool := bound < x.toInt

def notLong (n : ℕ) (bytes : Bytes) : Bool := bytes.length ≠ n

/-- `bigint - bigint`. -/
def minus : Option Int8 → Option Int8 → Except Refusal (Option ℤ)
  | some x, some y =>
    if -9223372036854775808 ≤ x.toInt - y.toInt ∧ x.toInt - y.toInt ≤ 9223372036854775807 then
      .ok (some (x.toInt - y.toInt))
    else .error (.raised "22003" "bigint out of range")
  | _, _ => .ok none

namespace Arguments

/-- What is asked up to the difference of the times. -/
def refusedEarly (a : Arguments) : Truth :=
  anyOf [isNull a.purpose, test (fun p => !purposes.contains p) a.purpose,
    isNull a.keyVersion, test (below 1) a.keyVersion,
    isNull a.tenantId,
    isNull a.tenantActorDigest, test (notLong 32) a.tenantActorDigest,
    isNull a.orgPolicyEpoch, test (below 1) a.orgPolicyEpoch,
    isNull a.issuedAt, isNull a.expiresAt]

def refusedList (a : Arguments) : Truth :=
  conj (test (· == "approval_list") a.purpose)
    (anyOf [isNotNull a.approvalId, isNotNull a.approvalRevision, isNotNull a.serviceAccountId,
      isNotNull a.credentialDigest, isNull a.limit, test (below 1) a.limit,
      test (above 100) a.limit])

def refusedGet (a : Arguments) : Truth :=
  conj (test (· == "approval_get") a.purpose)
    (anyOf [isNull a.approvalId, isNull a.approvalRevision, test (below 1) a.approvalRevision,
      isNull a.serviceAccountId, isNotNull a.credentialDigest, isNotNull a.limit])

def refusedRedeem (a : Arguments) : Truth :=
  conj (test ["approval_redeem_issue", "approval_redeem_rotate"].contains a.purpose)
    (anyOf [isNull a.approvalId, isNull a.approvalRevision, test (below 1) a.approvalRevision,
      isNull a.serviceAccountId, isNull a.credentialDigest, test (notLong 32) a.credentialDigest,
      isNotNull a.limit])

/-- The rest of the condition. The parts are looked at from the left and no further than
the first that is true, so that the difference is only taken where nothing else refuses. -/
def refused (a : Arguments) : Except Refusal Truth :=
  if a.refusedEarly = some true then .ok (some true)
  else do
    let spread ← minus a.expiresAt a.issuedAt
    return anyOf [a.refusedEarly, test (fun d => d ≠ 30) spread, isNull a.nonce,
      test (notLong 16) a.nonce, a.refusedList, a.refusedGet, a.refusedRedeem]

/-- `||`, which is NULL where one side is. -/
def concat (parts : List (Option Bytes)) : Option Bytes := (parts.mapM id).map List.flatten

def layout (a : Arguments) : Option Bytes :=
  let purposeBytes := a.purpose.map utf8
  concat [
    some (utf8 "ragtest.service-account.assertion.v1"),
    purposeBytes.map fun b => send 4 (BitVec.ofNat _ b.length), purposeBytes,
    a.keyVersion.map (send 4),
    a.tenantId.map (send 16),
    a.tenantActorDigest,
    a.orgPolicyEpoch.map (send 8),
    some (tagged (send 16) a.approvalId),
    some (tagged (send 8) a.approvalRevision),
    some (tagged (send 16) a.serviceAccountId),
    some (tagged id a.credentialDigest),
    some (tagged (send 4) a.limit),
    a.issuedAt.map (send 8),
    a.expiresAt.map (send 8),
    a.nonce]

/-- The body that both functions have. -/
def payload (a : Arguments) : Except Refusal (Option Bytes) := do
  let refused ← a.refused
  require (refused ≠ some true) (.raised "22023" "service_account_assertion_invalid")
  return a.layout

end Arguments

/-- `control_service_account_assertion_payload`. -/
def controlServiceAccountAssertionPayload (a : Arguments) : Except Refusal (Option Bytes) :=
  a.payload

/-- `rag_service_account_assertion_payload`. -/
def ragServiceAccountAssertionPayload (a : Arguments) : Except Refusal (Option Bytes) :=
  a.payload

/-! ## What is taken -/

/-- The arguments for coordinates that are all there. -/
def Coordinates.arguments (c : Coordinates) : Arguments where
  purpose := some c.purpose.code
  keyVersion := some c.keyVersion
  tenantId := some c.tenantId
  tenantActorDigest := some c.tenantActorDigest
  orgPolicyEpoch := some c.orgPolicyEpoch
  approvalId := c.approvalId
  approvalRevision := c.approvalRevision
  serviceAccountId := c.serviceAccountId
  credentialDigest := c.credentialDigest
  limit := c.limit
  issuedAt := some c.issuedAt
  expiresAt := some c.expiresAt
  nonce := some c.nonce

theorem mem_purposes {code : String} :
    code ∈ purposes ↔ ∃ p : Purpose, p.code = code := by
  constructor
  · intro h
    simp only [purposes, List.mem_cons, List.not_mem_nil, or_false] at h
    obtain rfl | rfl | rfl | rfl := h
    · exact ⟨.approvalList, rfl⟩
    · exact ⟨.approvalGet, rfl⟩
    · exact ⟨.approvalRedeemIssue, rfl⟩
    · exact ⟨.approvalRedeemRotate, rfl⟩
  · intro h
    obtain ⟨p, rfl⟩ := h
    cases p <;> simp [purposes, Purpose.code]

namespace Arguments

variable {a : Arguments}

theorem refusedEarly_iff : ¬ a.refusedEarly = some true ↔
    (∃ p : Purpose, a.purpose = some p.code) ∧ (∃ k, a.keyVersion = some k ∧ 1 ≤ k.toInt) ∧
      a.tenantId ≠ none ∧ (∃ d, a.tenantActorDigest = some d ∧ d.length = 32) ∧
      (∃ e, a.orgPolicyEpoch = some e ∧ 1 ≤ e.toInt) ∧ a.issuedAt ≠ none ∧ a.expiresAt ≠ none := by
  have hpurpose : (∃ p : Purpose, a.purpose = some p.code) ↔
      ∃ code, a.purpose = some code ∧ code ∈ purposes := by
    simp only [mem_purposes]
    constructor
    · intro h
      obtain ⟨p, hp⟩ := h
      exact ⟨p.code, hp, p, rfl⟩
    · intro h
      obtain ⟨code, hcode, p, rfl⟩ := h
      exact ⟨p, hcode⟩
  rw [hpurpose, ← present_iff (q := (· ∈ purposes)) (p := fun p => !purposes.contains p) (by simp),
    ← present_iff (q := fun k : Int4 => 1 ≤ k.toInt) (p := below 1) (by simp [below]),
    ← present_iff (q := fun d : Bytes => d.length = 32) (p := notLong 32) (by simp [notLong]),
    ← present_iff (q := fun e : Int8 => 1 ≤ e.toInt) (p := below 1) (by simp [below])]
  simp only [refusedEarly, anyOf_cons, not_or, anyOf_nil, isNull_true, and_assoc,
    not_false_eq_true, and_true, ne_eq]

end Arguments

section
variable {c : Coordinates}

/-- The part of the condition that depends on the purpose. -/
theorem refusedShape_iff :
    (¬ c.arguments.refusedList = some true ∧ ¬ c.arguments.refusedGet = some true ∧
      ¬ c.arguments.refusedRedeem = some true) ↔ c.shaped := by
  have hrevision : (∃ n, c.approvalRevision = some n ∧ 1 ≤ n.toInt) ↔
      ¬ c.approvalRevision = none ∧ ¬ test (below 1) c.approvalRevision = some true := by
    rw [← present_iff (q := fun n : Int8 => 1 ≤ n.toInt) (p := below 1) (by simp [below]),
      isNull_true]
  have hdigest : (∃ d, c.credentialDigest = some d ∧ d.length = 32) ↔
      ¬ c.credentialDigest = none ∧ ¬ test (notLong 32) c.credentialDigest = some true := by
    rw [← present_iff (q := fun d : Bytes => d.length = 32) (p := notLong 32) (by simp [notLong]),
      isNull_true]
  have hlimit : (∃ n, c.limit = some n ∧ 1 ≤ n.toInt ∧ n.toInt ≤ 100) ↔ ¬ c.limit = none ∧
      ¬ test (below 1) c.limit = some true ∧ ¬ test (above 100) c.limit = some true := by
    cases c.limit <;> simp [test, below, above]
  have hlist : test (· == "approval_list") c.arguments.purpose = some true ↔
      c.purpose = .approvalList := by
    cases hp : c.purpose <;> simp [Coordinates.arguments, hp, test, Purpose.code]
  have hget : test (· == "approval_get") c.arguments.purpose = some true ↔
      c.purpose = .approvalGet := by
    cases hp : c.purpose <;> simp [Coordinates.arguments, hp, test, Purpose.code]
  have hredeem : test ["approval_redeem_issue", "approval_redeem_rotate"].contains
      c.arguments.purpose = some true ↔
      c.purpose = .approvalRedeemIssue ∨ c.purpose = .approvalRedeemRotate := by
    cases hp : c.purpose <;> simp [Coordinates.arguments, hp, test, Purpose.code]
  simp only [Arguments.refusedList, Arguments.refusedGet, Arguments.refusedRedeem, conj_true, hlist,
    hget, hredeem, anyOf_cons, anyOf_nil, not_or, not_and, not_false_eq_true, and_true,
    isNotNull_true, isNull_true, not_not, Coordinates.shaped]
  cases c.purpose with
  | approvalList => simp [hlimit, Coordinates.arguments]
  | approvalGet => simp [hrevision, Option.isSome_iff_ne_none, and_assoc, Coordinates.arguments]
  | approvalRedeemIssue =>
    simp [hrevision, hdigest, Option.isSome_iff_ne_none, and_assoc, Coordinates.arguments]
  | approvalRedeemRotate =>
    simp [hrevision, hdigest, Option.isSome_iff_ne_none, and_assoc, Coordinates.arguments]

theorem layout_arguments (c : Coordinates) : c.arguments.layout = some c.bytes := by
  simp [Arguments.layout, Arguments.concat, Coordinates.arguments, Coordinates.bytes]

theorem minus_some {x y : Int8} {d : Option ℤ} (h : minus (some x) (some y) = .ok d) :
    d = some (x.toInt - y.toInt) := by
  rw [minus] at h
  split_ifs at h
  exact (Except.ok.inj h).symm

theorem payload_arguments (h : c.valid) : c.arguments.payload = .ok (some c.bytes) := by
  obtain ⟨hkey, hactor, hepoch, hspread, hnonce, hshape⟩ := h
  have hearly : ¬ c.arguments.refusedEarly = some true :=
    Arguments.refusedEarly_iff.2 ⟨⟨c.purpose, rfl⟩, ⟨_, rfl, hkey⟩, by simp [Coordinates.arguments],
      ⟨_, rfl, hactor⟩, ⟨_, rfl, hepoch⟩, by simp [Coordinates.arguments],
      by simp [Coordinates.arguments]⟩
  obtain ⟨hlist, hget, hredeem⟩ := refusedShape_iff.2 hshape
  have hminus : minus c.arguments.expiresAt c.arguments.issuedAt = .ok (some 30) := by
    show minus (some c.expiresAt) (some c.issuedAt) = .ok (some 30)
    rw [minus, hspread, if_pos (by decide)]
  have hnonce' : ¬ test (notLong 16) c.arguments.nonce = some true := by
    simp [Coordinates.arguments, test, notLong, hnonce]
  have hrefused : ∃ t, c.arguments.refused = .ok t ∧ t ≠ some true := by
    rw [Arguments.refused, if_neg hearly, hminus]
    refine ⟨_, rfl, ?_⟩
    simp only [ne_eq, anyOf_cons, anyOf_nil, not_or, isNull_true]
    exact ⟨hearly, by simp [test], by simp [Coordinates.arguments], hnonce', hlist, hget, hredeem,
      not_false⟩
  obtain ⟨t, ht, hne⟩ := hrefused
  rw [Arguments.payload, ht, ok_bind, require_true hne, ok_bind, layout_arguments]
  rfl

/-- The arguments that are taken are valid coordinates, all of them there. -/
theorem payload_ok {a : Arguments} {r : Option Bytes} :
    a.payload = .ok r ↔ ∃ c : Coordinates, c.valid ∧ a = c.arguments ∧ r = some c.bytes := by
  constructor
  · intro h
    simp only [Arguments.payload, bind_ok, require_ok, exists_unit, pure_ok] at h
    obtain ⟨t, ht, hne, rfl⟩ := h
    rw [Arguments.refused] at ht
    split_ifs at ht with hearly
    · exact absurd (Except.ok.inj ht).symm hne
    simp only [bind_ok, pure_ok] at ht
    obtain ⟨d, hd, rfl⟩ := ht
    simp only [ne_eq, anyOf_cons, anyOf_nil, not_or] at hne
    obtain ⟨-, hspread, hnull, hnonce, hlist, hget, hredeem, -⟩ := hne
    obtain ⟨n, hn, hlength⟩ := (present_iff (q := fun n : Bytes => n.length = 16)
      (p := notLong 16) (by simp [notLong])).1 ⟨hnull, hnonce⟩
    obtain ⟨⟨p, hp⟩, ⟨k, hk, hkey⟩, ht, ⟨x, hx, hactor⟩, ⟨e, he, hepoch⟩, hi, hexp⟩ :=
      Arguments.refusedEarly_iff.1 hearly
    obtain ⟨t, ht⟩ := Option.ne_none_iff_exists'.1 ht
    obtain ⟨i, hi⟩ := Option.ne_none_iff_exists'.1 hi
    obtain ⟨u, hu⟩ := Option.ne_none_iff_exists'.1 hexp
    have ha : a = (⟨p, k, t, x, e, a.approvalId, a.approvalRevision, a.serviceAccountId,
        a.credentialDigest, a.limit, i, u, n⟩ : Coordinates).arguments := by
      cases a
      simp_all [Coordinates.arguments]
    rw [hu, hi] at hd
    rw [minus_some hd, test_true] at hspread
    have hthirty : u.toInt - i.toInt = 30 := by
      by_contra hne
      exact hspread ⟨_, rfl, decide_eq_true hne⟩
    rw [ha] at hlist hget hredeem ⊢
    exact ⟨_, ⟨hkey, hactor, hepoch, hthirty, hlength, refusedShape_iff.1 ⟨hlist, hget, hredeem⟩⟩, rfl,
      layout_arguments _⟩
  · intro h
    obtain ⟨c, hvalid, rfl, rfl⟩ := h
    exact payload_arguments hvalid

end

end RagPipeline.Control

/-! # The bytes tell the arguments

The fields of an assertion delimit themselves, one after the other, so that two
assertions with the same bytes are the same. -/

namespace RagPipeline.Control
open Guard Wire

section
variable {n : ℕ}

theorem send_length (x : BitVec (8 * n)) : (send n x).length = n := by simp [send]

theorem send_injective {x y : BitVec (8 * n)} (h : send n x = send n y) : x = y := by
  apply BitVec.eq_of_getLsbD_eq
  intro j hj
  have hbyte : j / 8 ∈ (List.range n).reverse := by
    rw [List.mem_reverse, List.mem_range]
    omega
  have hsame := List.map_inj_left.1 h (j / 8) hbyte
  have hbits : x.extractLsb' (8 * (j / 8)) 8 = y.extractLsb' (8 * (j / 8)) 8 :=
    UInt8.ofBitVec.inj hsame
  have hbit := congrArg (fun b : BitVec 8 => b.getLsbD (j % 8)) hbits
  have hlt : j % 8 < 8 := Nat.mod_lt j (by decide)
  have hindex : 8 * (j / 8) + j % 8 = j := Nat.div_add_mod j 8
  simpa [BitVec.getLsbD_extractLsb', hlt, hindex] using hbit

theorem delimits_send : Delimits (fun _ => True) (send n) :=
  delimits_of_length n (fun x _ => send_length x) fun _ _ _ _ h => send_injective h

theorem tagged_eq {α : Type} (code : α → Bytes) : tagged code = marked 0 1 code := by
  funext o
  cases o <;> rfl

theorem delimits_tagged : Delimits (fun _ => True) (tagged (send n)) := by
  rw [tagged_eq]
  intro a b s t _ _ h
  exact delimits_marked _ _ (by decide) delimits_send a b s t (fun _ _ => trivial)
    (fun _ _ => trivial) h

theorem delimits_bytes (n : ℕ) : Delimits (fun b : Bytes => b.length = n) id :=
  delimits_of_length n (fun _ h => h) fun _ _ _ _ h => h

end

/-! ## The purpose -/

theorem utf8_injective {x y : String} (h : utf8 x = utf8 y) : x = y := by
  apply String.toByteArray_inj.1
  apply ByteArray.ext
  exact Array.toList_inj.1 h

theorem code_injective {p q : Purpose} (h : p.code = q.code) : p = q := by
  cases p <;> cases q <;> first | rfl | exact absurd h (by decide)

theorem code_short (p : Purpose) : (utf8 p.code).length < 4294967296 := by
  cases p <;> decide +kernel

theorem delimits_count : Delimits (fun n => ∃ l : Bytes, l.length < 4294967296 ∧ l.length = n)
    fun n => send 4 (BitVec.ofNat _ n) := by
  apply delimits_of_length 4
  · intro n _
    exact send_length _
  · intro m n hm hn h
    obtain ⟨_, hm, rfl⟩ := hm
    obtain ⟨_, hn, rfl⟩ := hn
    have hvalue := congrArg BitVec.toNat (send_injective h)
    rwa [BitVec.toNat_ofNat, BitVec.toNat_ofNat, Nat.mod_eq_of_lt hm, Nat.mod_eq_of_lt hn] at hvalue

theorem delimits_purpose : Delimits (fun _ => True) fun p : Purpose =>
    send 4 (BitVec.ofNat _ (utf8 p.code).length) ++ utf8 p.code := by
  intro p q s t _ _ h
  obtain ⟨hcode, hrest⟩ := delimits_counted delimits_count _ _ s t (code_short p) (code_short q) h
  exact ⟨code_injective (utf8_injective hcode), hrest⟩

/-! ## The whole -/

theorem Coordinates.digest_length {c : Coordinates} (h : c.valid) :
    ∀ d ∈ c.credentialDigest, d.length = 32 := by
  obtain ⟨-, -, -, -, -, hshape⟩ := h
  rw [Coordinates.shaped] at hshape
  intro d hd
  cases hp : c.purpose with
  | approvalList =>
    rw [hp] at hshape
    rw [hshape.2.2.2.1] at hd
    cases hd
  | approvalGet =>
    rw [hp] at hshape
    rw [hshape.2.2.2.1] at hd
    cases hd
  | approvalRedeemIssue =>
    rw [hp] at hshape
    obtain ⟨d', hd', hlength⟩ := hshape.2.2.2.1
    rw [hd'] at hd
    exact Option.some.inj hd ▸ hlength
  | approvalRedeemRotate =>
    rw [hp] at hshape
    obtain ⟨d', hd', hlength⟩ := hshape.2.2.2.1
    rw [hd'] at hd
    exact Option.some.inj hd ▸ hlength

/-- The bytes of two assertions are the same only where the assertions are. -/
theorem bytes_injective {c d : Coordinates} (hc : c.valid) (hd : d.valid) (h : c.bytes = d.bytes) :
    c = d := by
  have hdigests := delimits_marked 0 (1 : UInt8) (by decide)
    (delimits_bytes 32)
  simp only [Coordinates.bytes, List.append_assoc] at h
  have h := List.append_cancel_left h
  rw [← List.append_assoc, ← List.append_assoc (send 4 (BitVec.ofNat _ (utf8 d.purpose.code).length))]
    at h
  obtain ⟨hpurpose, h⟩ := delimits_purpose _ _ _ _ trivial trivial h
  obtain ⟨hversion, h⟩ := delimits_send _ _ _ _ trivial trivial h
  obtain ⟨htenant, h⟩ := delimits_send _ _ _ _ trivial trivial h
  obtain ⟨hactor, h⟩ := delimits_bytes 32 _ _ _ _ hc.2.1 hd.2.1 h
  obtain ⟨hepoch, h⟩ := delimits_send _ _ _ _ trivial trivial h
  obtain ⟨happroval, h⟩ := delimits_tagged _ _ _ _ trivial trivial h
  obtain ⟨hrevision, h⟩ := delimits_tagged _ _ _ _ trivial trivial h
  obtain ⟨haccount, h⟩ := delimits_tagged _ _ _ _ trivial trivial h
  rw [tagged_eq] at h
  obtain ⟨hdigest, h⟩ := hdigests _ _ _ _ (Coordinates.digest_length hc)
    (Coordinates.digest_length hd) h
  obtain ⟨hlimit, h⟩ := delimits_tagged _ _ _ _ trivial trivial h
  obtain ⟨hissued, h⟩ := delimits_send _ _ _ _ trivial trivial h
  obtain ⟨hexpires, hnonce⟩ := delimits_send _ _ _ _ trivial trivial h
  cases c
  cases d
  simp_all

end RagPipeline.Control
