import RagPipeline.Changes.Repair

/-! # A repair narrows

Three trees and three measurements: what separates the reference from the
repaired tree was there before the repair or is part of it, and the repair is
held to the spellings of the candidate. -/

set_option autoImplicit false

namespace RagPipeline.Changes
open Guard Patch

variable {P : Platform} {digest : Text → String} {before candidate after : Projection}
  {prior delta total changes : List Change} {path : String}

/-! ## Three trees -/

/-- Where a change set names no change, the two sides are compared equal or
neither has a file. -/
theorem quiet_at (h : semanticChanges before after = .ok changes)
    (hpath : path ∉ changes.map Change.path) :
    (∃ l r, before.get path = some l ∧ after.get path = some r ∧ l.compare = r.compare) ∨
      (∀ l, before.get path = some l → l.kind ≠ .file) ∧
        ∀ r, after.get path = some r → r.kind ≠ .file := by
  by_cases hb : path ∈ bothPaths before after
  · obtain ⟨found, hfound, hn⟩ := (semantic_walked h).quiet path hb hpath
    exact classify_quiet hfound hn
  · rw [mem_bothPaths, not_or, Option.not_isSome_iff_eq_none, Option.not_isSome_iff_eq_none] at hb
    exact .inr ⟨fun l hl => by simp [hb.1] at hl, fun r hr => by simp [hb.2] at hr⟩

theorem kind_of_compare {p q : Projection} {l r : Snap} (hl : p.get path = some l)
    (hr : q.get path = some r) (hc : l.compare = r.compare) : l.kind = r.kind := by
  obtain ⟨d, rfl⟩ := p.read path l hl
  obtain ⟨e, rfl⟩ := q.read path r hr
  exact (Snap.of_compare hc).1

/-- Between the outer two of three trees nothing changed that did not change in
one of the two steps. -/
theorem total_from_steps (hprior : semanticChanges before candidate = .ok prior)
    (hdelta : semanticChanges candidate after = .ok delta)
    (htotal : semanticChanges before after = .ok total) :
    ∀ c ∈ total, c.path ∈ prior.map Change.path ∨ c.path ∈ delta.map Change.path := by
  intro c hc
  by_contra hnot
  rw [not_or] at hnot
  have hfirst := quiet_at hprior hnot.1
  have hsecond := quiet_at hdelta hnot.2
  obtain ⟨-, ⟨hnone, r, hr, hf, -⟩ | ⟨hnone, l, hl, hf, -⟩ | ⟨l, r, hl, hr, hfl, -, hne, -⟩⟩ :=
    classify_change ((semantic_walked htotal).found c hc)
  · obtain ⟨m, r', hm, hr', hsame⟩ | ⟨-, hno⟩ := hsecond
    · obtain rfl : r = r' := Option.some.inj (hr.symm.trans hr')
      obtain ⟨l, -, hl, -⟩ | ⟨-, hno⟩ := hfirst
      · rw [hnone] at hl
        cases hl
      · exact hno m hm ((kind_of_compare hm hr hsame).trans hf)
    · exact hno r hr hf
  · obtain ⟨l', m, hl', hm, hsame⟩ | ⟨hno, -⟩ := hfirst
    · obtain rfl : l = l' := Option.some.inj (hl.symm.trans hl')
      obtain ⟨-, r, -, hr, -⟩ | ⟨hno, -⟩ := hsecond
      · rw [hnone] at hr
        cases hr
      · exact hno m hm ((kind_of_compare hl hm hsame).symm.trans hf)
    · exact hno l hl hf
  · obtain ⟨l', m, hl', hm, hsame⟩ | ⟨hno, -⟩ := hfirst
    · obtain rfl : l = l' := Option.some.inj (hl.symm.trans hl')
      obtain ⟨m', r', hm', hr', hsame'⟩ | ⟨hno, -⟩ := hsecond
      · obtain rfl : m = m' := Option.some.inj (hm.symm.trans hm')
        obtain rfl : r = r' := Option.some.inj (hr.symm.trans hr')
        exact hne (hsame.trans hsame')
      · exact hno m hm ((kind_of_compare hl hm hsame).symm.trans hfl)
    · exact hno l hl hfl

/-- The measurement from the outer tree is the two steps one after the other. -/
theorem total_composes (hprior : semanticChanges before candidate = .ok prior)
    (hdelta : semanticChanges candidate after = .ok delta)
    (htotal : semanticChanges before after = .ok total) :
    patch (total.map Change.edit) before.files = after.files ∧
      patch (prior.map Change.edit ++ delta.map Change.edit) before.files = after.files := by
  refine ⟨(semantic_walked htotal).patch, ?_⟩
  rw [patch, List.foldl_append]
  change patch _ (patch _ _) = _
  rw [(semantic_walked hprior).patch, (semantic_walked hdelta).patch]

/-! ## Spellings -/

/-- The platform does not fold case. -/
def Platform.Exact (P : Platform) : Prop := ∀ c, P.casing.char c = [c]

theorem Platform.Exact.apply (hP : P.Exact) (s : Text) : P.casing.apply s = s := by
  induction s with
  | nil => rfl
  | cons c rest ih =>
    rw [show P.casing.apply (c :: rest) = P.casing.char c ++ P.casing.apply rest from rfl, hP c, ih]
    rfl

/-- What the walker lists is spelled as it is compared. -/
theorem fold_canonical (hP : P.Exact) {t : Text} (ht : Canonical t) : fold P t = t := by
  obtain ⟨parts, -, rfl, hparts⟩ := ht
  refine fold_join fun part hpart => ?_
  obtain ⟨hnil, hdot, -, hbackslash, hslash⟩ := hparts part hpart
  exact ⟨hnil, hdot, hslash, hbackslash, hP.apply part⟩

/-- The scope looks at folded spellings only. -/
theorem authorize_fold {scope : Scope} {s t : Text} (h : fold P s = fold P t) :
    authorize P scope s = authorize P scope t := by
  have hplane : isControlPlane P s = isControlPlane P t := by rw [isControlPlane, isControlPlane, h]
  have hcovered : ∀ entries, covered P s entries = covered P t entries := fun entries => by
    rw [covered, covered, h]
  rw [authorize, authorize, hplane, hcovered, hcovered, h]

theorem authorizeAll_ok {scope : Scope} :
    authorizeAll P scope changes = .ok () ↔
      ∀ c ∈ changes, authorize P scope c.path.toList = .ok () := forM_ok

theorem sameSet_iff {a b : List Text} : sameSet a b = true ↔ ∀ s, s ∈ a ↔ s ∈ b := by
  simp only [sameSet, Bool.and_eq_true, List.all_eq_true, List.contains_iff_mem]
  exact ⟨fun h s => ⟨h.1 s, h.2 s⟩, fun h => ⟨fun s => (h s).1, fun s => (h s).2⟩⟩

/-! ## The run -/

theorem readPair_ok {pair : Scanned × Scanned} {p q : Projection} :
    readPair pair = .ok (p, q) ↔
      pair.1.manifest.rootIdentity ≠ pair.2.manifest.rootIdentity ∧
        project pair.1.manifest = .ok p ∧ project pair.2.manifest = .ok q := by
  simp only [readPair, bind_ok, exists_unit, require_ok, pure_ok, Prod.mk.injEq]
  constructor
  · rintro ⟨hroots, _, hp, _, hq, rfl, rfl⟩
    exact ⟨hroots, hp, hq⟩
  · rintro ⟨hroots, hp, hq⟩
    exact ⟨hroots, p, hp, q, hq, rfl, rfl⟩

/-- Every path of a projection of a walked tree is canonical. -/
theorem canonical_of_project {tree : Scanned} {p : Projection} (h : project tree.manifest = .ok p)
    {snap : Snap} (hs : p.get path = some snap) : Canonical path.toList := by
  rw [project_reads h path] at hs
  obtain ⟨e, he, -⟩ := Option.map_eq_some_iff.1 hs
  have hpath : e.path = path := by simpa using List.find?_some he
  exact hpath ▸ tree.canonical e (List.mem_of_find?_eq_some he)

theorem canonical_of_change {p q : Projection} {c : Change}
    (hp : ∀ snap, p.get c.path = some snap → Canonical c.path.toList)
    (hq : ∀ snap, q.get c.path = some snap → Canonical c.path.toList)
    (h : semanticChanges p q = .ok changes) (hc : c ∈ changes) : Canonical c.path.toList := by
  obtain ⟨-, ⟨-, r, hr, -⟩ | ⟨-, l, hl, -⟩ | ⟨l, -, hl, -⟩⟩ :=
    classify_change ((semantic_walked h).found c hc)
  · exact hq r hr
  · exact hp l hl
  · exact hp l hl

theorem semantic_get {p p' q : Projection} (h : p.get = p'.get) :
    semanticChanges p q = semanticChanges p' q := by
  have hboth : bothPaths p q = bothPaths p' q :=
    (bothPaths_sorted _ _).eq_of_mem_iff (bothPaths_sorted _ _) fun path => by
      rw [mem_bothPaths, mem_bothPaths, h]
  simp only [semanticChanges, hboth, walk_perm h rfl]

theorem get_of_same {p q : Projection} (h : sameProjection p q) : p.get = q.get := by
  funext path
  by_cases hb : path ∈ bothPaths p q
  · exact h path hb
  · rw [mem_bothPaths, not_or, Option.not_isSome_iff_eq_none, Option.not_isSome_iff_eq_none] at hb
    rw [hb.1, hb.2]

theorem repairStart_ok {request : RepairRequest} {before : Before} {start : Start}
    (h : repairStart P digest request before = .ok start) :
    (∃ pair, before.pair = .ok pair ∧ project pair.1.manifest = .ok start.reference ∧
        project pair.2.manifest = .ok start.candidate) ∧
      before.scope = .ok start.scope ∧
      start.expected = request.previousChangedFiles.map (fold P) ∧
      semanticChanges start.reference start.candidate = .ok start.prior ∧
      (∀ c ∈ start.prior, authorize P start.scope c.path.toList = .ok ()) ∧
      fingerprint digest start.prior = request.previousFingerprint ∧
      ∀ s, s ∈ foldedPaths P start.prior ↔ s ∈ start.expected := by
  simp only [repairStart, exactPathSet, bind_ok, exists_unit, require_ok, pure_ok,
    authorizeAll_ok, sameSet_iff] at h
  obtain ⟨_, ⟨-, rfl⟩, scope, hscope, pair, hpair, ⟨reference, candidate⟩, hread, prior, hprior,
    hauthorized, hfingerprint, hset, main, -, rfl⟩ := h
  obtain ⟨-, hreference, hcandidate⟩ := readPair_ok.1 hread
  exact ⟨⟨pair, hpair, hreference, hcandidate⟩, hscope, rfl, hprior, hauthorized, hfingerprint, hset⟩

theorem verifyAfter_ok {start : Start} {after : After}
    (h : verifyAfter P start after = .ok (delta, total)) :
    ∃ pair repaired, after.pair = .ok pair ∧ project pair.2.manifest = .ok repaired ∧
      semanticChanges start.reference repaired = .ok total ∧
      semanticChanges start.candidate repaired = .ok delta ∧
      ∀ c ∈ delta, fold P c.path.toList ∈ start.expected := by
  simp only [verifyAfter, bind_ok, exists_unit, require_ok, pure_ok, List.all_eq_true,
    List.contains_iff_mem, foldedPaths, List.forall_mem_map, Prod.mk.injEq] at h
  obtain ⟨-, -, main, -, -, pair, hpair, ⟨reference, repaired⟩, hread, hsame, total', htotal, -,
    delta', hdelta, hinside, rfl, rfl⟩ := h
  obtain ⟨-, -, hrepaired⟩ := readPair_ok.1 hread
  refine ⟨pair, repaired, hpair, hrepaired, ?_, hdelta, hinside⟩
  rw [← semantic_get (get_of_same hsame)]
  exact htotal

theorem acceptRepair_ok {request : RepairRequest} {outcome : Outcome}
    {verified : VerifiedChangeSet}
    (h : acceptRepair P digest request outcome delta total = .ok verified) :
    verified.changedFiles = total.map Change.path ∧
      verified.fingerprint = fingerprint digest total := by
  simp only [acceptRepair, bind_ok, exists_unit, require_ok, pure_ok] at h
  obtain ⟨-, -, -, -, -, rfl⟩ := h
  exact ⟨rfl, rfl⟩

/-- An accepted repair stays with the spellings of the candidate it repairs,
and with its paths where the platform does not fold. What it returns takes the
reference tree to the repaired one, as the candidate's changes and the repair's
do one after the other, and the scope authorises every path the repair moved. -/
theorem repair_narrows {request : RepairRequest} {before : Before}
    {outcome : Except Unit Outcome} {after : After} {verified : VerifiedChangeSet}
    (h : runVerifiedRepair P digest request before outcome after = .ok verified) :
    ∃ start delta total repaired pair,
      repairStart P digest request before = .ok start ∧
      after.pair = .ok pair ∧ project pair.2.manifest = .ok repaired ∧
      semanticChanges start.reference start.candidate = .ok start.prior ∧
      semanticChanges start.candidate repaired = .ok delta ∧
      semanticChanges start.reference repaired = .ok total ∧
      verified.changedFiles = total.map Change.path ∧
      verified.fingerprint = fingerprint digest total ∧
      (∀ c ∈ total, fold P c.path.toList ∈ foldedPaths P start.prior) ∧
      (P.Exact → ∀ c ∈ total, c.path ∈ start.prior.map Change.path) ∧
      patch (total.map Change.edit) start.reference.files = repaired.files ∧
      patch (start.prior.map Change.edit ++ delta.map Change.edit) start.reference.files =
        repaired.files ∧
      ∀ c ∈ delta, fold P c.path.toList ∈ start.expected ∧
        authorize P start.scope c.path.toList = .ok () := by
  simp only [runVerifiedRepair, bind_ok, mapError_ok] at h
  obtain ⟨start, hstart, ⟨delta, total⟩, hafter, outcome, -, haccept⟩ := h
  obtain ⟨⟨first, -, hreference, hcandidate⟩, -, -, hprior, hauthorized, -, hset⟩ :=
    repairStart_ok hstart
  obtain ⟨pair, repaired, hpair, hrepaired, htotal, hdelta, hinside⟩ := verifyAfter_ok hafter
  obtain ⟨hfiles, hfingerprint⟩ := acceptRepair_ok haccept
  have hfolded : ∀ c ∈ total, fold P c.path.toList ∈ foldedPaths P start.prior := by
    intro c hc
    rcases total_from_steps hprior hdelta htotal c hc with hold | hnew
    · obtain ⟨d, hd, heq⟩ := List.mem_map.1 hold
      exact List.mem_map.2 ⟨d, hd, by rw [heq]⟩
    · obtain ⟨d, hd, heq⟩ := List.mem_map.1 hnew
      exact (hset _).2 (heq ▸ hinside d hd)
  obtain ⟨hpatch, hsteps⟩ := total_composes hprior hdelta htotal
  refine ⟨start, delta, total, repaired, pair, hstart, hpair, hrepaired, hprior, hdelta, htotal,
    hfiles, hfingerprint, hfolded, fun hexact c hc => ?_, hpatch, hsteps, fun c hc => ?_⟩
  · obtain ⟨d, hd, heq⟩ := List.mem_map.1 (hfolded c hc)
    have hcanonical : Canonical c.path.toList :=
      canonical_of_change (fun _ hs => canonical_of_project hreference hs)
        (fun _ hs => canonical_of_project hrepaired hs) htotal hc
    have hcanonical' : Canonical d.path.toList :=
      canonical_of_change (fun _ hs => canonical_of_project hreference hs)
        (fun _ hs => canonical_of_project hcandidate hs) hprior hd
    rw [fold_canonical hexact hcanonical, fold_canonical hexact hcanonical'] at heq
    exact List.mem_map.2 ⟨d, hd, String.toList_injective heq⟩
  · refine ⟨hinside c hc, ?_⟩
    obtain ⟨d, hd, heq⟩ := List.mem_map.1 ((hset _).2 (hinside c hc))
    rw [← authorize_fold heq]
    exact hauthorized d hd

theorem canonical_name {name : Text} (hnil : name ≠ []) (hdot : name ≠ ['.'])
    (hparent : name ≠ ['.', '.']) (hbackslash : '\\' ∉ name) (hslash : '/' ∉ name) :
    Canonical name :=
  ⟨[name], List.cons_ne_nil _ _, by simp [joinSlash], fun part hpart => by
    rw [List.mem_singleton.1 hpart]
    exact ⟨hnil, hdot, hparent, hbackslash, hslash⟩⟩

theorem canonical_upper : Canonical "A.py".toList :=
  canonical_name (by decide) (by decide) (by decide) (by decide) (by decide)

theorem canonical_lower : Canonical "a.py".toList :=
  canonical_name (by decide) (by decide) (by decide) (by decide) (by decide)

def emptyTree : Scanned := ⟨⟨"1:1", []⟩, fun _ he => absurd he List.not_mem_nil⟩

def oneFile (path sha256 : String) (h : Canonical path.toList) : Scanned :=
  ⟨⟨"1:2", [plainFile path "0o644" sha256 0]⟩, fun e he => by rwa [List.mem_singleton.1 he]⟩

def firstSha : String := "87428fc522803d31065e7bce3cf03fe475096631e5e07bbd7a0fde60c4cf25c7"

def secondSha : String := "0263829989b6fd954f72baaf2fc64bc2e2f01d692d4de72986ea808f6e99813f"

/-- The digests of three change sets: `A.py` added with either content, and
`a.py` with the first. -/
def sampleDigest (t : Text) : String :=
  if t.head? = some 'a' then "7d4bb6d4f4b65a937365acbf8ddc38bf6d0ec8c5a389458b2e5f66623c8cefdd"
  else if t.dropLast.getLast? = some '7' then
    "d13ed39bc0dd3bf435acba3492e46e8c225f9519fb74d44f4471b97a15ab3efd"
  else "35e5cf358de99335d93d30f7d4f5688c9ff00b44925effa33a6fab3984dbecc2"

def sampleRequest : RepairRequest where
  runId := "kosu-000000000000000000000001"
  workspaceId := "00000000000000000000000000000005"
  baselineSha := "0000000000000000000000000000000000000006"
  previousFingerprint := "d13ed39bc0dd3bf435acba3492e46e8c225f9519fb74d44f4471b97a15ab3efd"
  previousChangedFiles := ["A.py".toList]

def sampleScope : Scope := ⟨["A.py".toList], [], some "gorev.json".toList⟩

/-- The audited candidate has added `A.py`. -/
def sampleBefore : Before :=
  ⟨.ok sampleScope, .ok (emptyTree, oneFile "A.py" firstSha canonical_upper), .ok ⟨"1:0", "d"⟩⟩

def sampleAfter (tree : Scanned) : After :=
  ⟨.ok (), false, .ok ⟨"1:0", "d"⟩, .ok (emptyTree, tree)⟩

def sampleOutcome (declared : Text) : Outcome :=
  ⟨⟨some "kosu-000000000000000000000001", [some declared], "implemented"⟩, 0, 9, 0, 0, "s", "ok"⟩

/-- A platform that folds a capital, as Windows does. -/
def foldsCapital : Platform where
  casing :=
    { char := fun c => if c = 'A' then ['a'] else [c]
      plain := fun c _ hupper => by
        rw [if_neg]
        rintro rfl
        exact absurd hupper (by decide)
      ne_nil := fun c => by split <;> exact List.cons_ne_nil _ _
      mark := fun c d hd hmark => by
        split at hd
        · rw [List.mem_singleton.1 hd] at hmark
          exact absurd hmark (by decide)
        · exact (List.mem_singleton.1 hd).symm
      stable := fun c d hd => by
        split at hd
        · rw [List.mem_singleton.1 hd]
          rfl
        case isFalse hc =>
          rw [List.mem_singleton.1 hd, if_neg hc] }
  normcase := id

/-- `A.py` repaired in place, and renamed to `a.py` where that is one spelling. -/
theorem sample_repairs :
    (runVerifiedRepair posix sampleDigest sampleRequest sampleBefore
        (.ok (sampleOutcome "A.py".toList))
        (sampleAfter (oneFile "A.py" secondSha canonical_upper))).toOption.isSome = true ∧
      (runVerifiedRepair foldsCapital sampleDigest sampleRequest sampleBefore
        (.ok (sampleOutcome "a.py".toList))
        (sampleAfter (oneFile "a.py" firstSha canonical_lower))).toOption.map
          VerifiedChangeSet.changedFiles = some ["a.py"] := by
  decide +kernel

theorem repair_narrows_posix :
    ∃ (verified : VerifiedChangeSet) (start : Start) (total : List Change),
      repairStart posix sampleDigest sampleRequest sampleBefore = .ok start ∧
        verified.changedFiles = total.map Change.path ∧
        ∀ c ∈ total, c.path ∈ start.prior.map Change.path := by
  obtain ⟨verified, hverified⟩ := Option.isSome_iff_exists.1 sample_repairs.1
  obtain ⟨start, delta, total, repaired, pair, hstart, -, -, -, -, -, hfiles, -, -, hexact, -⟩ :=
    repair_narrows (toOption_some.1 hverified)
  exact ⟨verified, start, total, hstart, hfiles, hexact fun _ => rfl⟩

/-- Renamed in its case only, the file is in the repaired candidate under a path
that the audited one does not have. -/
theorem renamed_case_accepted : ∃ verified,
    runVerifiedRepair foldsCapital sampleDigest sampleRequest sampleBefore
        (.ok (sampleOutcome "a.py".toList))
        (sampleAfter (oneFile "a.py" firstSha canonical_lower)) = .ok verified ∧
      ∃ path ∈ verified.changedFiles, path.toList ∉ sampleRequest.previousChangedFiles := by
  obtain ⟨verified, hverified, hfiles⟩ := Option.map_eq_some_iff.1 sample_repairs.2
  exact ⟨verified, toOption_some.1 hverified, "a.py", by simp [hfiles], by decide⟩

end RagPipeline.Changes
