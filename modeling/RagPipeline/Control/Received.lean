import RagPipeline.Control.Signed
import Mathlib.Algebra.Ring.Int.Defs
import Mathlib.Data.Int.Notation

/-! # The closed shape in memory

`ServiceAccountAssertion`, whose fields can be given anything, and which refuses
what is not an assertion. -/

set_option autoImplicit false

namespace RagPipeline.Control
open Guard

/-- What a field can be given. A `bool` is no `int` here: its type is another. -/
inductive PyValue where
  | none
  | int (n : ℤ)
  | str (text : String)
  | uuid (id : Uuid)
  | bytes (b : Bytes)
  | other
deriving DecidableEq, Repr

namespace PyValue

def isNone : PyValue → Bool
  | none => true
  | _ => false

def isInt : PyValue → Bool
  | int _ => true
  | _ => false

def isStr : PyValue → Bool
  | str _ => true
  | _ => false

def isUuid : PyValue → Bool
  | uuid _ => true
  | _ => false

def isBytes : PyValue → Bool
  | bytes _ => true
  | _ => false

/-- The number, asked for only where the value is one. -/
def number : PyValue → ℤ
  | int n => n
  | _ => 0

/-- The text, asked for only where the value is one. -/
def text : PyValue → String
  | str t => t
  | _ => ""

/-- `len`, asked for only where the value is bytes. -/
def size : PyValue → ℕ
  | bytes b => b.length
  | _ => 0

end PyValue

/-- `ServiceAccountAssertionRefused`. -/
structure ShapeRefused where
  message : String
deriving DecidableEq, Repr

structure ServiceAccountAssertion where
  assertionVersion : PyValue
  purpose : PyValue
  keyVersion : PyValue
  tenantId : PyValue
  tenantActorDigest : PyValue
  orgPolicyEpoch : PyValue
  approvalId : PyValue
  approvalRevision : PyValue
  serviceAccountId : PyValue
  credentialDigest : PyValue
  assertionLimit : PyValue
  issuedAt : PyValue
  expiresAt : PyValue
  nonce : PyValue
  mac : PyValue
deriving DecidableEq, Repr

namespace ServiceAccountAssertion

/-- `PURPOSES`. -/
def assertionPurposes : List String :=
  ["approval_get", "approval_list", "approval_redeem_issue", "approval_redeem_rotate"]

def shapeInvalid : ShapeRefused := ⟨"service account assertion is invalid"⟩

variable (a : ServiceAccountAssertion)

def exactInts : List PyValue :=
  [a.assertionVersion, a.keyVersion, a.orgPolicyEpoch, a.issuedAt, a.expiresAt]

def closedPart : Bool :=
  a.exactInts.all (·.isInt) && a.assertionVersion.number == 1 &&
    decide (1 ≤ a.keyVersion.number) && decide (1 ≤ a.orgPolicyEpoch.number) &&
    a.expiresAt.number - a.issuedAt.number == 30 &&
    a.purpose.isStr && assertionPurposes.contains a.purpose.text &&
    a.tenantId.isUuid && a.tenantActorDigest.isBytes && a.tenantActorDigest.size == 32 &&
    a.nonce.isBytes && a.nonce.size == 16 && a.mac.isBytes && a.mac.size == 32

def listShape : Bool :=
  a.approvalId.isNone && a.approvalRevision.isNone && a.serviceAccountId.isNone &&
    a.credentialDigest.isNone && !a.assertionLimit.isNone

def getShape : Bool :=
  !a.approvalId.isNone && !a.approvalRevision.isNone && !a.serviceAccountId.isNone &&
    a.credentialDigest.isNone && a.assertionLimit.isNone

def redeemShape : Bool :=
  !a.approvalId.isNone && !a.approvalRevision.isNone && !a.serviceAccountId.isNone &&
    !a.credentialDigest.isNone && a.assertionLimit.isNone

/-- `expected[self.purpose]`. -/
def expectedShape : Bool :=
  if a.purpose.text = "approval_list" then a.listShape
  else if a.purpose.text = "approval_get" then a.getShape
  else if a.purpose.text = "approval_redeem_issue" then a.redeemShape
  else if a.purpose.text = "approval_redeem_rotate" then a.redeemShape
  else false

/-- `__post_init__`. -/
def postInit : Except ShapeRefused Unit := do
  require (a.closedPart = true) shapeInvalid
  require ([a.approvalId, a.serviceAccountId].all (fun v => v.isNone || v.isUuid) = true) shapeInvalid
  require (a.approvalRevision.isNone ∨ a.approvalRevision.isInt ∧ 1 ≤ a.approvalRevision.number)
    shapeInvalid
  require (a.assertionLimit.isNone ∨ a.assertionLimit.isInt ∧
    1 ≤ a.assertionLimit.number ∧ a.assertionLimit.number ≤ 100) shapeInvalid
  require (a.credentialDigest.isNone ∨ a.credentialDigest.isBytes ∧ a.credentialDigest.size = 32)
    shapeInvalid
  require (a.expectedShape = true) shapeInvalid

end ServiceAccountAssertion

/-! ## A row that arrives -/

/-- A column as the driver hands it over. -/
def column {α : Type} (f : α → PyValue) : Option α → PyValue
  | none => .none
  | some a => f a

/-- The fields that a row of arguments, a version and a code arrive in. -/
def Arguments.received (a : Arguments) (version : ℤ) (mac : Bytes) : ServiceAccountAssertion where
  assertionVersion := .int version
  purpose := column .str a.purpose
  keyVersion := column (fun n => .int n.toInt) a.keyVersion
  tenantId := column .uuid a.tenantId
  tenantActorDigest := column .bytes a.tenantActorDigest
  orgPolicyEpoch := column (fun n => .int n.toInt) a.orgPolicyEpoch
  approvalId := column .uuid a.approvalId
  approvalRevision := column (fun n => .int n.toInt) a.approvalRevision
  serviceAccountId := column .uuid a.serviceAccountId
  credentialDigest := column .bytes a.credentialDigest
  assertionLimit := column (fun n => .int n.toInt) a.limit
  issuedAt := column (fun n => .int n.toInt) a.issuedAt
  expiresAt := column (fun n => .int n.toInt) a.expiresAt
  nonce := column .bytes a.nonce
  mac := .bytes mac

/-! ## The same shapes -/

section
variable {a : Arguments} {c : Coordinates} {v : ℤ} {m : Bytes}

theorem purpose_contained {p : Purpose} :
    ServiceAccountAssertion.assertionPurposes.contains p.code = true := by
  cases p <;> simp [ServiceAccountAssertion.assertionPurposes, Purpose.code]

theorem contained_purpose {code : String}
    (h : ServiceAccountAssertion.assertionPurposes.contains code = true) :
    ∃ p : Purpose, p.code = code := by
  apply mem_purposes.1
  simp only [ServiceAccountAssertion.assertionPurposes, List.contains_eq_mem, List.mem_cons,
    List.not_mem_nil, or_false, decide_eq_true_eq] at h
  simp only [purposes, List.mem_cons, List.not_mem_nil, or_false]
  tauto

theorem column_there {α : Type} {f : α → PyValue} {test : PyValue → Bool} (hnone : test .none = false)
    {o : Option α} (h : test (column f o) = true) : ∃ x, o = some x := by
  cases o with
  | none => exact absurd (hnone.symm.trans h) (by decide)
  | some x => exact ⟨x, rfl⟩

/-- The fields that must be there, and what is asked of each. -/
theorem closedPart_received : (a.received v m).closedPart = true ↔
    (∃ c : Coordinates, a = c.arguments ∧ 1 ≤ c.keyVersion.toInt ∧
      c.tenantActorDigest.length = 32 ∧ 1 ≤ c.orgPolicyEpoch.toInt ∧
      c.expiresAt.toInt - c.issuedAt.toInt = 30 ∧ c.nonce.length = 16) ∧ v = 1 ∧ m.length = 32 := by
  constructor
  · intro h
    simp only [ServiceAccountAssertion.closedPart, Bool.and_eq_true, beq_iff_eq, decide_eq_true_eq,
      ServiceAccountAssertion.exactInts, List.all_cons, List.all_nil, and_true] at h
    obtain ⟨⟨⟨⟨⟨⟨⟨⟨⟨⟨⟨⟨⟨⟨-, hkey, hepoch, hissued, hexpires⟩, hv⟩, hkey'⟩, hepoch'⟩, hspread⟩,
      hpurpose⟩, hcode⟩, htenant⟩, hactor⟩, hactor'⟩, hnonce⟩, hnonce'⟩, -⟩, hm⟩ := h
    obtain ⟨purpose, hpurpose⟩ := column_there rfl hpurpose
    obtain ⟨key, hkey⟩ := column_there rfl hkey
    obtain ⟨tenant, htenant⟩ := column_there rfl htenant
    obtain ⟨actor, hactor⟩ := column_there rfl hactor
    obtain ⟨epoch, hepoch⟩ := column_there rfl hepoch
    obtain ⟨issued, hissued⟩ := column_there rfl hissued
    obtain ⟨expires, hexpires⟩ := column_there rfl hexpires
    obtain ⟨nonce, hnonce⟩ := column_there rfl hnonce
    simp only [Arguments.received, hpurpose, hkey, hactor, hepoch, hissued, hexpires, hnonce, column,
      PyValue.number, PyValue.text, PyValue.size] at hv hkey' hepoch' hspread hcode hactor' hnonce' hm
    obtain ⟨p, hp⟩ := contained_purpose hcode
    have ha : a = (⟨p, key, tenant, actor, epoch, a.approvalId, a.approvalRevision,
        a.serviceAccountId, a.credentialDigest, a.limit, issued, expires, nonce⟩ :
        Coordinates).arguments := by
      cases a
      simp_all [Coordinates.arguments]
    exact ⟨⟨_, ha, hkey', hactor', hepoch', hspread, hnonce'⟩, hv, hm⟩
  · intro h
    obtain ⟨⟨c, rfl, hkey, hactor, hepoch, hspread, hnonce⟩, rfl, hm⟩ := h
    simp [ServiceAccountAssertion.closedPart, ServiceAccountAssertion.exactInts, Arguments.received,
      Coordinates.arguments, column, PyValue.isInt, PyValue.number, PyValue.isStr, PyValue.text,
      PyValue.isUuid, PyValue.isBytes, PyValue.size, hkey, hactor, hepoch, hspread, hnonce, hm,
      -List.contains_eq_mem, purpose_contained]

/-- What is asked of the fields that may be absent. -/
def optionalPart (s : ServiceAccountAssertion) : Prop :=
  [s.approvalId, s.serviceAccountId].all (fun v => v.isNone || v.isUuid) = true ∧
    (s.approvalRevision.isNone ∨ s.approvalRevision.isInt ∧ 1 ≤ s.approvalRevision.number) ∧
    (s.assertionLimit.isNone ∨ s.assertionLimit.isInt ∧
      1 ≤ s.assertionLimit.number ∧ s.assertionLimit.number ≤ 100) ∧
    (s.credentialDigest.isNone ∨ s.credentialDigest.isBytes ∧ s.credentialDigest.size = 32) ∧
    s.expectedShape = true

theorem postInit_ok {s : ServiceAccountAssertion} :
    s.postInit = .ok () ↔ s.closedPart = true ∧ optionalPart s := by
  simp only [ServiceAccountAssertion.postInit, bind_ok, require_ok, exists_unit, optionalPart]

theorem optionalPart_received : optionalPart (c.arguments.received v m) ↔ c.shaped := by
  obtain ⟨purpose, key, tenant, actor, epoch, approval, revision, account, digest, limit, issued,
    expires, nonce⟩ := c
  cases purpose <;> cases approval <;> cases revision <;> cases account <;> cases digest <;>
    cases limit <;>
    simp [optionalPart, Arguments.received, Coordinates.arguments, Coordinates.shaped, column,
      ServiceAccountAssertion.expectedShape, ServiceAccountAssertion.listShape,
      ServiceAccountAssertion.getShape, ServiceAccountAssertion.redeemShape, Purpose.code,
      PyValue.isNone, PyValue.isUuid, PyValue.isInt, PyValue.number, PyValue.isBytes, PyValue.size,
      PyValue.text]

theorem received_iff : (a.received v m).postInit = .ok () ↔
    (∃ r, a.payload = .ok r) ∧ v = 1 ∧ m.length = 32 := by
  rw [postInit_ok, closedPart_received]
  constructor
  · intro h
    obtain ⟨⟨⟨c, rfl, hkey, hactor, hepoch, hspread, hnonce⟩, hv, hm⟩, hshape⟩ := h
    have hvalid : c.valid :=
      ⟨hkey, hactor, hepoch, hspread, hnonce, optionalPart_received.1 hshape⟩
    exact ⟨⟨_, payload_arguments hvalid⟩, hv, hm⟩
  · intro h
    obtain ⟨⟨r, hr⟩, hv, hm⟩ := h
    obtain ⟨c, ⟨hkey, hactor, hepoch, hspread, hnonce, hshape⟩, rfl, -⟩ := payload_ok.1 hr
    exact ⟨⟨⟨c, rfl, hkey, hactor, hepoch, hspread, hnonce⟩, hv, hm⟩, optionalPart_received.2 hshape⟩

end

/-! ## What is in memory comes from a row -/

/-- The numbers have a place in their columns. -/
def ServiceAccountAssertion.fits (s : ServiceAccountAssertion) : Prop :=
  s.keyVersion.number < 2147483648 ∧ s.orgPolicyEpoch.number < 9223372036854775808 ∧
    s.approvalRevision.number < 9223372036854775808 ∧
    -9223372036854775808 ≤ s.issuedAt.number ∧ s.issuedAt.number < 9223372036854775808 ∧
    -9223372036854775808 ≤ s.expiresAt.number ∧ s.expiresAt.number < 9223372036854775808

section
variable {x : PyValue}

theorem int_received {w : ℕ} (hw : 0 < w) (h : x.isInt = true) (hlow : -2 ^ (w - 1) ≤ x.number)
    (hhigh : x.number < 2 ^ (w - 1)) : ∃ n : BitVec w, x = .int n.toInt := by
  cases x with
  | int n =>
    have hn : (BitVec.ofInt w n).toInt = n := BitVec.toInt_ofInt_eq_self hw hlow hhigh
    exact ⟨BitVec.ofInt w n, congrArg PyValue.int hn.symm⟩
  | none => cases h
  | str => cases h
  | uuid => cases h
  | bytes => cases h
  | other => cases h

theorem int4_received (h : x.isInt = true) (hlow : -2147483648 ≤ x.number)
    (hhigh : x.number < 2147483648) : ∃ n : Int4, x = .int n.toInt :=
  int_received (by decide) h hlow hhigh

theorem int8_received (h : x.isInt = true) (hlow : -9223372036854775808 ≤ x.number)
    (hhigh : x.number < 9223372036854775808) : ∃ n : Int8, x = .int n.toInt :=
  int_received (by decide) h hlow hhigh

theorem str_received (h : x.isStr = true) : ∃ t, x = .str t := by
  cases x with
  | str t => exact ⟨t, rfl⟩
  | none => cases h
  | int => cases h
  | uuid => cases h
  | bytes => cases h
  | other => cases h

theorem uuid_received (h : x.isUuid = true) : ∃ i, x = .uuid i := by
  cases x with
  | uuid i => exact ⟨i, rfl⟩
  | none => cases h
  | int => cases h
  | str => cases h
  | bytes => cases h
  | other => cases h

theorem bytes_received (h : x.isBytes = true) : ∃ b, x = .bytes b := by
  cases x with
  | bytes b => exact ⟨b, rfl⟩
  | none => cases h
  | int => cases h
  | str => cases h
  | uuid => cases h
  | other => cases h

theorem none_received (h : x.isNone = true) : x = .none := by
  cases x with
  | none => rfl
  | int => cases h
  | str => cases h
  | uuid => cases h
  | bytes => cases h
  | other => cases h

/-- A value that is none or what a column holds is a column that may be absent. -/
theorem column_received {α : Type} {f : α → PyValue} (h : x.isNone = true ∨ ∃ y, x = f y) :
    ∃ o, x = column f o := by
  cases h with
  | inl h => exact ⟨none, none_received h⟩
  | inr h =>
    obtain ⟨y, hy⟩ := h
    exact ⟨some y, hy⟩

end

/-- What is accepted and has numbers that fit is a row that both databases accept. -/
theorem accepted_received {s : ServiceAccountAssertion} (hfits : s.fits) (h : s.postInit = .ok ()) :
    ∃ (a : Arguments) (m : Bytes),
      s = a.received 1 m ∧ (∃ r, a.payload = .ok r) ∧ m.length = 32 := by
  have hs : ∃ a m, s = Arguments.received a 1 m := by
    obtain ⟨hclosed, hoptional⟩ := postInit_ok.1 h
    simp only [ServiceAccountAssertion.closedPart, Bool.and_eq_true, beq_iff_eq, decide_eq_true_eq,
      ServiceAccountAssertion.exactInts, List.all_cons, List.all_nil, and_true] at hclosed
    obtain ⟨⟨⟨⟨⟨⟨⟨⟨⟨⟨⟨⟨⟨⟨hversion, hkey, hepoch, hissued, hexpires⟩, hv⟩, hkey'⟩, hepoch'⟩, -⟩,
      hpurpose⟩, -⟩, htenant⟩, hactor⟩, -⟩, hnonce⟩, -⟩, hmac⟩, -⟩ := hclosed
    simp only [optionalPart, List.all_cons, List.all_nil, and_true, Bool.and_eq_true,
      Bool.or_eq_true] at hoptional
    obtain ⟨⟨happroval, haccount⟩, hrevision, hlimit, hdigest, -⟩ := hoptional
    obtain ⟨hkeyFits, hepochFits, hrevisionFits, hissuedLow, hissuedFits, hexpiresLow,
      hexpiresFits⟩ := hfits
    obtain ⟨purpose, hpurpose⟩ := str_received hpurpose
    obtain ⟨key, hkey⟩ := int4_received hkey (by omega) hkeyFits
    obtain ⟨tenant, htenant⟩ := uuid_received htenant
    obtain ⟨actor, hactor⟩ := bytes_received hactor
    obtain ⟨epoch, hepoch⟩ := int8_received hepoch (by omega) hepochFits
    obtain ⟨approval, happroval⟩ := column_received (happroval.imp_right uuid_received)
    obtain ⟨revision, hrevision⟩ := column_received
      (hrevision.imp_right fun h => int8_received h.1 (by omega) hrevisionFits)
    obtain ⟨account, haccount⟩ := column_received (haccount.imp_right uuid_received)
    obtain ⟨digest, hdigest⟩ := column_received (hdigest.imp_right fun h => bytes_received h.1)
    obtain ⟨limit, hlimit⟩ := column_received
      (hlimit.imp_right fun h => int4_received h.1 (by omega) (by omega))
    obtain ⟨issued, hissued⟩ := int8_received hissued hissuedLow hissuedFits
    obtain ⟨expires, hexpires⟩ := int8_received hexpires hexpiresLow hexpiresFits
    obtain ⟨nonce, hnonce⟩ := bytes_received hnonce
    obtain ⟨mac, hmac⟩ := bytes_received hmac
    have hone : s.assertionVersion = .int 1 := by
      cases hs : s.assertionVersion <;> simp_all [PyValue.isInt, PyValue.number]
    refine ⟨⟨some purpose, some key, some tenant, some actor, some epoch, approval, revision,
      account, digest, limit, some issued, some expires, some nonce⟩, mac, ?_⟩
    cases s
    simp_all [Arguments.received, column]
  obtain ⟨a, m, rfl⟩ := hs
  obtain ⟨hpayload, -, hm⟩ := received_iff.1 h
  exact ⟨a, m, rfl, hpayload, hm⟩

/-- Both databases take the same arguments and give the same bytes for them, the bytes
tell the arguments, and what they take with version 1 and a code of 32 bytes is what
the shape in memory takes. -/
theorem signed_bytes_determine :
    (∀ a, ((∃ e, ragServiceAccountAssertionPayload a = .error e) ∧
        ∃ e, controlServiceAccountAssertionPayload a = .error e) ∨
      ∃ bytes, ragServiceAccountAssertionPayload a = .ok (some bytes) ∧
        controlServiceAccountAssertionPayload a = .ok (some bytes)) ∧
    (∀ a b r, ragServiceAccountAssertionPayload a = .ok r →
      ragServiceAccountAssertionPayload b = .ok r → a = b) ∧
    (∀ a version mac, ((∃ r, ragServiceAccountAssertionPayload a = .ok r) ∧ version = 1 ∧
      mac.length = 32) ↔ (a.received version mac).postInit = .ok ()) ∧
    ∀ s : ServiceAccountAssertion, s.fits → s.postInit = .ok () → ∃ (a : Arguments) (mac : Bytes),
      s = a.received 1 mac ∧ (∃ r, ragServiceAccountAssertionPayload a = .ok r) ∧
        mac.length = 32 := by
  refine ⟨?_, ?_, ?_, ?_⟩
  · intro a
    cases h : a.payload with
    | error e => exact .inl ⟨⟨e, h⟩, e, h⟩
    | ok r =>
      obtain ⟨c, -, -, rfl⟩ := payload_ok.1 h
      exact .inr ⟨c.bytes, h, h⟩
  · intro a b r ha hb
    obtain ⟨c, hc, rfl, hr⟩ := payload_ok.1 ha
    obtain ⟨d, hd, rfl, hr'⟩ := payload_ok.1 hb
    have hbytes : c.bytes = d.bytes := Option.some.inj (hr.symm.trans hr')
    rw [bytes_injective hc hd hbytes]
  · intro a version mac
    exact received_iff.symm
  · intro s hfits h
    exact accepted_received hfits h

end RagPipeline.Control
