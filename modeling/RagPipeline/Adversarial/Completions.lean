import RagPipeline.Lib.Guard
import Mathlib.Data.String.Basic
import Mathlib.Data.List.Nodup
import Mathlib.Data.List.Lex
import Mathlib.Data.List.Count
import Mathlib.Data.Char
import Mathlib.Order.Bounds.Basic

/-! # Reviewing the candidates of a class

`_review_one_class`: decisions on a prefix of the candidates, the first of the two
planned stops, and the counts that are reported. -/

set_option autoImplicit false

namespace RagPipeline.Adversarial
open Guard

/-- `MANUAL_CLASSES`. -/
inductive ManualClass where
  | wrongRow
  | labelValueSwap
  | questionAnswerMismatch
deriving DecidableEq, Repr

def targetLockedClusters : ℕ := 30

def descriptiveTarget : ℕ := 10

/-! ## The plan -/

structure ReviewPlan where
  reviewRequired : Bool
  confirmationTarget : Option ℕ
  stopAtConfirmation : Option ℕ
  stopAtRejection : Option ℕ
deriving DecidableEq, Repr

/-- What `_class_report` writes for as many candidates. -/
def reviewPlan (target candidateLocked : ℕ) : ReviewPlan :=
  if target ≤ candidateLocked then
    ⟨true, some target, some target, some (candidateLocked - target + 1)⟩
  else ⟨false, none, none, none⟩

/-- The part of a class that its review reads. -/
structure ClassReport where
  candidateUpperBoundLockedClusters : ℕ
  manualGateReviewPlan : ReviewPlan
  manualDescriptiveReviewPlan : Option ReviewPlan
deriving DecidableEq, Repr

def classReport (name : ManualClass) (candidateLocked : ℕ) : ClassReport where
  candidateUpperBoundLockedClusters := candidateLocked
  manualGateReviewPlan := reviewPlan targetLockedClusters candidateLocked
  manualDescriptiveReviewPlan :=
    if name = .wrongRow then some (reviewPlan descriptiveTarget candidateLocked) else none

/-- `math.ceil(cluster_deficit / LOCKED_SHARE)`, where the share is eleven sixteenths. -/
def expectedAdditionalQuestions (clusterDeficit : ℕ) : ℕ := (16 * clusterDeficit + 10) / 11

/-! ## The decisions -/

def isSha256 (value : String) : Bool :=
  value.toList.length == 64 && value.toList.all fun c => c.isDigit || 'a' ≤ c && c ≤ 'f'

def requireSha256 (label value : String) : Except String Unit :=
  require (isSha256 value = true) (label ++ " must be a lowercase SHA-256 digest")

def orderedCandidateIds (ids : List String) : Except String (List String) := do
  forM ids (requireSha256 "case id")
  require (ids.Pairwise (· ≤ ·) ∧ ids.Nodup) "review candidates must be unique and hash ordered"
  return ids

def idSet (values : List String) (label : String) : Except String (List String) := do
  forM values (requireSha256 label)
  require values.Nodup (label ++ " contains duplicates")
  return values

structure Decision where
  reviewedPrefix : ℤ
  rejectedIds : List String
  unresolvedIds : List String
deriving DecidableEq, Repr

/-! ## The first stop -/

inductive StopOutcome where
  | confirmationTargetReached
  | rejectionLimitReached
  | notReached
deriving DecidableEq, Repr

structure FirstStop where
  outcome : StopOutcome
  atReviewedCandidate : Option ℕ
deriving DecidableEq, Repr

/-- The loop of `_first_stop`, at the index of the next candidate. -/
def scan (target rejectionLimit : ℕ) (rejected unresolved : List String) :
    ℕ → ℕ → ℕ → List String → FirstStop
  | _, _, _, [] => ⟨.notReached, none⟩
  | index, confirmations, rejections, caseId :: rest =>
    let rejections' := if caseId ∈ rejected then rejections + 1 else rejections
    let confirmations' :=
      if caseId ∉ rejected ∧ caseId ∉ unresolved then confirmations + 1 else confirmations
    if confirmations' = target then ⟨.confirmationTargetReached, some index⟩
    else if rejections' = rejectionLimit then ⟨.rejectionLimitReached, some index⟩
    else scan target rejectionLimit rejected unresolved (index + 1) confirmations' rejections' rest

def firstStop (candidateIds rejected unresolved : List String) (plan : ReviewPlan) :
    Except String FirstStop := do
  let target ← demand plan.confirmationTarget "review plan has no confirmation target"
  require (1 ≤ target) "review plan has no confirmation target"
  let rejectionLimit ← demand plan.stopAtRejection "review plan has no rejection limit"
  require (1 ≤ rejectionLimit) "review plan has no rejection limit"
  return scan target rejectionLimit rejected unresolved 1 0 0 candidateIds

/-! ## The report -/

inductive GateStatus where
  | underpowered
  | candidatePowered
deriving DecidableEq, Repr

structure ManualReview where
  candidateLockedClusters : ℕ
  reviewedPrefixClusters : ℕ
  confirmedEligibleLockedClusters : ℕ
  rejectedLockedClusters : ℕ
  unresolvedLockedClusters : ℕ
  unreviewedLockedClusters : ℕ
  eligibleUniverseExact : Bool
  firstPreregisteredStop : FirstStop
  confirmedAtFirstStop : ℕ
  rejectedAtFirstStop : ℕ
  unresolvedAtFirstStop : ℕ
  reviewedAfterFirstStop : ℕ
  confirmedAfterFirstStop : ℕ
  protocolClean : Bool
deriving DecidableEq, Repr

structure Reviewed where
  status : GateStatus
  manualReview : ManualReview
  confirmedEligibleTotalClusters : ℕ
  confirmedEligibleTotalClustersIsLowerBound : Bool
  confirmedEligibleLockedClusters : ℕ
  confirmedLockedClusterDeficit : ℕ
  minimumUnavoidableLockedClusterDeficit : ℕ
  exactDeficitKnown : Bool
  expectedAdditionalEligibleBaseQuestions : Option ℕ
  expectedAdditionalEligibleBaseQuestionsFloor : Option ℕ
deriving DecidableEq, Repr

/-- The counts that follow from checked decisions and the stop. -/
def reviewed (className : ManualClass) (baseClass : ClassReport) (candidateIds rejected unresolved : List String)
    (reviewedPrefix : ℕ) (stop : FirstStop) : Reviewed :=
  let eligible := reviewedPrefix - rejected.length - unresolved.length
  let unreviewed := candidateIds.length - reviewedPrefix
  let stopIds := candidateIds.take (stop.atReviewedCandidate.getD 0)
  let confirmedAtStop := stopIds.countP fun x => x ∉ rejected ∧ x ∉ unresolved
  let overReviewed := (stop.atReviewedCandidate.map fun i => reviewedPrefix - i).getD 0
  let eligibleUniverseExact := unreviewed == 0 && unresolved.isEmpty
  let targetDeficit := targetLockedClusters - eligible
  let targetDeficitExact := targetDeficit == 0 || eligibleUniverseExact
  { status :=
      if className = .wrongRow then .underpowered
      else if targetLockedClusters ≤ eligible then .candidatePowered else .underpowered
    manualReview :=
      { candidateLockedClusters := candidateIds.length
        reviewedPrefixClusters := reviewedPrefix
        confirmedEligibleLockedClusters := eligible
        rejectedLockedClusters := rejected.length
        unresolvedLockedClusters := unresolved.length
        unreviewedLockedClusters := unreviewed
        eligibleUniverseExact := eligibleUniverseExact
        firstPreregisteredStop := stop
        confirmedAtFirstStop := confirmedAtStop
        rejectedAtFirstStop := stopIds.countP fun x => x ∈ rejected
        unresolvedAtFirstStop := stopIds.countP fun x => x ∈ unresolved
        reviewedAfterFirstStop := overReviewed
        confirmedAfterFirstStop := (stop.atReviewedCandidate.map fun _ => eligible - confirmedAtStop).getD 0
        protocolClean := overReviewed == 0 && unresolved.isEmpty }
    confirmedEligibleTotalClusters := eligible
    confirmedEligibleTotalClustersIsLowerBound := true
    confirmedEligibleLockedClusters := eligible
    confirmedLockedClusterDeficit := targetDeficit
    minimumUnavoidableLockedClusterDeficit := targetDeficit
    exactDeficitKnown := targetDeficitExact
    expectedAdditionalEligibleBaseQuestions :=
      if targetDeficitExact then some (expectedAdditionalQuestions targetDeficit) else none
    expectedAdditionalEligibleBaseQuestionsFloor :=
      if targetDeficitExact then none
      else some (expectedAdditionalQuestions
        (targetLockedClusters - baseClass.candidateUpperBoundLockedClusters)) }

def planOf (className : ManualClass) (baseClass : ClassReport) : Option ReviewPlan :=
  if className = .wrongRow then baseClass.manualDescriptiveReviewPlan
  else some baseClass.manualGateReviewPlan

def reviewOneClass (className : ManualClass) (baseClass : ClassReport) (entries : List String)
    (decision : Decision) : Except String Reviewed := do
  let candidateIds ← orderedCandidateIds entries
  require (0 ≤ decision.reviewedPrefix ∧ decision.reviewedPrefix ≤ candidateIds.length)
    "reviewed prefix is outside the candidate list"
  let reviewedIds := candidateIds.take decision.reviewedPrefix.toNat
  let rejected ← idSet decision.rejectedIds "rejected ids"
  let unresolved ← idSet decision.unresolvedIds "unresolved ids"
  require (∀ x ∈ rejected, x ∉ unresolved) "a review decision cannot be rejected and unresolved"
  require (∀ x ∈ rejected ++ unresolved, x ∈ reviewedIds)
    "review decisions must stay inside the reviewed prefix"
  let plan ← demand (planOf className baseClass) "manual review plan is missing or inactive"
  require (plan.reviewRequired = true) "manual review plan is missing or inactive"
  let stop ← firstStop reviewedIds rejected unresolved plan
  return reviewed className baseClass candidateIds rejected unresolved decision.reviewedPrefix.toNat stop

/-! ## What is accepted -/

variable {name : ManualClass} {ids rejected unresolved : List String} {d : Decision} {r : Reviewed}

theorem orderedCandidateIds_ok {result : List String} (h : orderedCandidateIds ids = .ok result) :
    result = ids ∧ ids.Nodup := by
  obtain ⟨_, -, h⟩ := bind_ok.1 h
  obtain ⟨_, hsorted, h⟩ := bind_ok.1 h
  exact ⟨(pure_ok.1 h).symm, (require_ok.1 hsorted).2⟩

theorem idSet_ok {values result : List String} {label : String} (h : idSet values label = .ok result) :
    result = values ∧ values.Nodup := by
  obtain ⟨_, -, h⟩ := bind_ok.1 h
  obtain ⟨_, hnodup, h⟩ := bind_ok.1 h
  exact ⟨(pure_ok.1 h).symm, require_ok.1 hnodup⟩

/-- What the plan of a class aims at. -/
def confirmationTarget : ManualClass → ℕ
  | .wrongRow => descriptiveTarget
  | _ => targetLockedClusters

theorem planOf_report (name : ManualClass) (n : ℕ) :
    planOf name (classReport name n) = some (reviewPlan (confirmationTarget name) n) := by
  cases name <;> rfl

/-- Decisions that are accepted: each on a candidate of the prefix, and only one on each. -/
structure Accepted (name : ManualClass) (ids : List String) (d : Decision) : Prop where
  unique : ids.Nodup
  lower : 0 ≤ d.reviewedPrefix
  upper : d.reviewedPrefix ≤ ids.length
  rejected : d.rejectedIds.Nodup
  unresolved : d.unresolvedIds.Nodup
  apart : ∀ x ∈ d.rejectedIds, x ∉ d.unresolvedIds
  inside : ∀ x ∈ d.rejectedIds ++ d.unresolvedIds, x ∈ ids.take d.reviewedPrefix.toNat
  active : confirmationTarget name ≤ ids.length

/-- The stop that is found for them. -/
def stopOf (name : ManualClass) (ids : List String) (d : Decision) : FirstStop :=
  scan (confirmationTarget name) (ids.length - confirmationTarget name + 1) d.rejectedIds d.unresolvedIds 1 0 0
    (ids.take d.reviewedPrefix.toNat)

theorem reviewOneClass_ok (h : reviewOneClass name (classReport name ids.length) ids d = .ok r) :
    Accepted name ids d ∧ r = reviewed name (classReport name ids.length) ids d.rejectedIds d.unresolvedIds
      d.reviewedPrefix.toNat (stopOf name ids d) := by
  obtain ⟨candidateIds, hids, h⟩ := bind_ok.1 h
  obtain ⟨rfl, hunique⟩ := orderedCandidateIds_ok hids
  obtain ⟨_, hprefix, h⟩ := bind_ok.1 h
  have hrange := require_ok.1 hprefix
  obtain ⟨rejected, hrejected, h⟩ := bind_ok.1 h
  obtain ⟨rfl, hnodup⟩ := idSet_ok hrejected
  obtain ⟨unresolved, hunresolved, h⟩ := bind_ok.1 h
  obtain ⟨rfl, hnodup'⟩ := idSet_ok hunresolved
  obtain ⟨_, hapart, h⟩ := bind_ok.1 h
  obtain ⟨_, hinside, h⟩ := bind_ok.1 h
  obtain ⟨plan, hplan, h⟩ := bind_ok.1 h
  rw [planOf_report, demand_ok] at hplan
  obtain rfl := Option.some.inj hplan
  obtain ⟨_, hactive, h⟩ := bind_ok.1 h
  have hactive := require_ok.1 hactive
  have htarget : confirmationTarget name ≤ candidateIds.length := by
    by_contra hnot
    rw [reviewPlan, if_neg hnot] at hactive
    cases hactive
  rw [reviewPlan, if_pos htarget] at h
  obtain ⟨stop, hstop, h⟩ := bind_ok.1 h
  obtain ⟨target, htarget', hstop⟩ := bind_ok.1 hstop
  obtain rfl := Option.some.inj (demand_ok.1 htarget')
  obtain ⟨_, -, hstop⟩ := bind_ok.1 hstop
  obtain ⟨limit, hlimit, hstop⟩ := bind_ok.1 hstop
  obtain rfl := Option.some.inj (demand_ok.1 hlimit)
  obtain ⟨_, -, hstop⟩ := bind_ok.1 hstop
  obtain rfl := pure_ok.1 hstop
  exact ⟨⟨hunique, hrange.1, hrange.2, hnodup, hnodup', require_ok.1 hapart, require_ok.1 hinside, htarget⟩,
    (pure_ok.1 h).symm⟩

end RagPipeline.Adversarial

/-! # Completions of a partial review

What a review reports while candidates are open, held against every way in which they
can still be decided. -/

set_option autoImplicit false

namespace RagPipeline.Adversarial
open Guard

/-! ## Completing a review -/

variable {name : ManualClass} {ids : List String} {d : Decision} {r : Reviewed}

/-- A candidate on which a decision confirms it. -/
def Decision.confirmed (d : Decision) (x : String) : Bool := x ∉ d.rejectedIds ∧ x ∉ d.unresolvedIds

/-- How many candidates are confirmed when all after the first `k`, and the unresolved ones
among these, are decided by `confirms`. -/
def confirmedUnder (ids : List String) (d : Decision) (k : ℕ) (confirms : String → Bool) : ℕ :=
  (ids.take k).countP (fun x => x ∉ d.rejectedIds ∧ (x ∉ d.unresolvedIds ∨ confirms x = true)) +
    (ids.drop k).countP confirms

def deficitUnder (ids : List String) (d : Decision) (confirms : String → Bool) : ℕ :=
  targetLockedClusters - confirmedUnder ids d d.reviewedPrefix.toNat confirms

/-- The decisions on the first `k` candidates settle which way the target goes. -/
def Settled (name : ManualClass) (ids : List String) (d : Decision) (k : ℕ) : Prop :=
  (∀ confirms, confirmationTarget name ≤ confirmedUnder ids d k confirms) ∨
    ∀ confirms, confirmedUnder ids d k confirms < confirmationTarget name

/-- A report that holds whatever becomes of the open candidates. -/
structure Faithful (name : ManualClass) (ids : List String) (d : Decision) (r : Reviewed) : Prop where
  minimum : ∀ confirms, r.minimumUnavoidableLockedClusterDeficit ≤ deficitUnder ids d confirms
  exact : r.exactDeficitKnown = true →
    ∀ confirms, deficitUnder ids d confirms = r.confirmedLockedClusterDeficit
  rejection : r.manualReview.firstPreregisteredStop.outcome = .rejectionLimitReached →
    ∀ confirms, confirmedUnder ids d d.reviewedPrefix.toNat confirms < confirmationTarget name
  confirmation : r.manualReview.firstPreregisteredStop.outcome = .confirmationTargetReached →
    ∀ confirms, confirmationTarget name ≤ confirmedUnder ids d d.reviewedPrefix.toNat confirms
  stop : ∀ k, r.manualReview.firstPreregisteredStop.atReviewedCandidate = some k ↔
    IsLeast {k | k ≤ d.reviewedPrefix.toNat ∧ Settled name ids d k} k

/-! ## The extremes -/

/-- Confirmed and rejected among the first candidates. -/
def confirmedIn (ids : List String) (d : Decision) (k : ℕ) : ℕ := (ids.take k).countP d.confirmed

def rejectedIn (ids : List String) (d : Decision) (k : ℕ) : ℕ := (ids.take k).countP (· ∈ d.rejectedIds)

theorem confirmedIn_le (ids : List String) (d : Decision) (k : ℕ) (confirms : String → Bool) :
    confirmedIn ids d k ≤ confirmedUnder ids d k confirms := by
  apply Nat.le_add_right_of_le
  apply List.countP_mono_left
  intro x _ hx
  simp only [Decision.confirmed, decide_eq_true_eq] at hx
  simp [hx.1, hx.2]

theorem confirmedUnder_none (ids : List String) (d : Decision) (k : ℕ) :
    confirmedUnder ids d k (fun _ => false) = confirmedIn ids d k := by
  have hsame : (fun x => decide (x ∉ d.rejectedIds ∧ (x ∉ d.unresolvedIds ∨ false = true))) = d.confirmed := by
    funext x
    simp [Decision.confirmed]
  rw [confirmedUnder, confirmedIn, hsame, List.countP_false]
  rfl

theorem confirmedUnder_all (ids : List String) (d : Decision) (k : ℕ) :
    confirmedUnder ids d k (fun _ => true) + rejectedIn ids d k = ids.length := by
  have hsplit := List.length_eq_countP_add_countP (fun x => decide (x ∈ d.rejectedIds)) (l := ids.take k)
  have hlength := congrArg List.length (List.take_append_drop k ids)
  rw [List.length_append] at hlength
  simp only [confirmedUnder, rejectedIn, or_true, and_true, List.countP_true]
  simp only [decide_eq_true_eq] at hsplit
  omega

theorem confirmedUnder_le_all (ids : List String) (d : Decision) (k : ℕ) (confirms : String → Bool) :
    confirmedUnder ids d k confirms ≤ confirmedUnder ids d k fun _ => true := by
  apply Nat.add_le_add
  · apply List.countP_mono_left
    intro x _ hx
    simp only [decide_eq_true_eq] at hx
    simp [hx.1]
  · apply List.countP_mono_left
    intro x _ _
    rfl

theorem settled_iff {k : ℕ} (hactive : confirmationTarget name ≤ ids.length) :
    Settled name ids d k ↔ confirmationTarget name ≤ confirmedIn ids d k ∨
      ids.length - confirmationTarget name + 1 ≤ rejectedIn ids d k := by
  have hall := confirmedUnder_all ids d k
  constructor
  · intro h
    cases h with
    | inl hreached =>
      left
      rw [← confirmedUnder_none]
      exact hreached _
    | inr hlost =>
      right
      have := hlost fun _ => true
      omega
  · intro h
    cases h with
    | inl hreached => exact Or.inl fun confirms => le_trans hreached (confirmedIn_le ids d k confirms)
    | inr hlost =>
      right
      intro confirms
      have := confirmedUnder_le_all ids d k confirms
      omega

theorem take_countP_mono {α : Type} (p : α → Bool) (l : List α) {j k : ℕ} (h : j ≤ k) :
    (l.take j).countP p ≤ (l.take k).countP p :=
  List.Sublist.countP_le (List.take_sublist_take_left h)

/-! ## The stop -/

/-- Neither limit is met within the first `k` candidates. -/
def Undecided (target limit : ℕ) (d : Decision) (l : List String) (k : ℕ) : Prop :=
  confirmedIn l d k < target ∧ rejectedIn l d k < limit

/-- What a stop says of the candidates that were scanned. -/
inductive Stops (target limit : ℕ) (d : Decision) (l : List String) (start : ℕ) : FirstStop → Prop where
  | confirmation (k : ℕ) (hstart : start < k) (hend : k ≤ l.length) (hreached : target ≤ confirmedIn l d k)
      (hbefore : ∀ j, start ≤ j → j < k → Undecided target limit d l j) :
      Stops target limit d l start ⟨.confirmationTargetReached, some k⟩
  | rejection (k : ℕ) (hstart : start < k) (hend : k ≤ l.length) (hreached : limit ≤ rejectedIn l d k)
      (hbefore : ∀ j, start ≤ j → j < k → Undecided target limit d l j) :
      Stops target limit d l start ⟨.rejectionLimitReached, some k⟩
  | notReached (hall : ∀ j, start ≤ j → j ≤ l.length → Undecided target limit d l j) :
      Stops target limit d l start ⟨.notReached, none⟩

/-- One candidate further on, what was undecided before it stays so. -/
theorem Stops.back {target limit start : ℕ} {l : List String} {s : FirstStop}
    (hopen : Undecided target limit d l start) (h : Stops target limit d l (start + 1) s) :
    Stops target limit d l start s := by
  have hfrom {j : ℕ} (hj : start ≤ j) : j = start ∨ start + 1 ≤ j := by omega
  cases h with
  | confirmation k hstart hend hreached hbefore =>
    apply Stops.confirmation k (by omega) hend hreached
    intro j hj hlt
    cases hfrom hj with
    | inl heq => exact heq ▸ hopen
    | inr hlater => exact hbefore j hlater hlt
  | rejection k hstart hend hreached hbefore =>
    apply Stops.rejection k (by omega) hend hreached
    intro j hj hlt
    cases hfrom hj with
    | inl heq => exact heq ▸ hopen
    | inr hlater => exact hbefore j hlater hlt
  | notReached hall =>
    apply Stops.notReached
    intro j hj hend
    cases hfrom hj with
    | inl heq => exact heq ▸ hopen
    | inr hlater => exact hall j hlater hend

theorem confirmedIn_next (done rest : List String) (d : Decision) (x : String) :
    confirmedIn (done ++ x :: rest) d (done.length + 1) =
      if x ∉ d.rejectedIds ∧ x ∉ d.unresolvedIds then confirmedIn (done ++ x :: rest) d done.length + 1
      else confirmedIn (done ++ x :: rest) d done.length := by
  rw [confirmedIn, confirmedIn, List.take_length_add_append 1, List.take_left', List.countP_append]
  · by_cases hx : x ∉ d.rejectedIds ∧ x ∉ d.unresolvedIds <;> simp [Decision.confirmed, hx]
  · rfl

theorem rejectedIn_next (done rest : List String) (d : Decision) (x : String) :
    rejectedIn (done ++ x :: rest) d (done.length + 1) =
      if x ∈ d.rejectedIds then rejectedIn (done ++ x :: rest) d done.length + 1
      else rejectedIn (done ++ x :: rest) d done.length := by
  rw [rejectedIn, rejectedIn, List.take_length_add_append 1, List.take_left', List.countP_append]
  · by_cases hx : x ∈ d.rejectedIds <;> simp [hx]
  · rfl

/-- The scan goes on from what was counted before it. -/
theorem scan_stops (target limit : ℕ) (d : Decision) (done rest : List String)
    (hopen : Undecided target limit d (done ++ rest) done.length) :
    Stops target limit d (done ++ rest) done.length
      (scan target limit d.rejectedIds d.unresolvedIds (done.length + 1)
        (confirmedIn (done ++ rest) d done.length) (rejectedIn (done ++ rest) d done.length) rest) := by
  induction rest generalizing done with
  | nil =>
    apply Stops.notReached
    intro j hj hend
    rw [List.append_nil] at hend
    exact Nat.le_antisymm hend hj ▸ hopen
  | cons x rest ih =>
    have hlength : (done ++ x :: rest).length = done.length + 1 + rest.length := by
      simp only [List.length_append, List.length_cons]
      omega
    have hbefore (j : ℕ) (hj : done.length ≤ j) (hlt : j < done.length + 1) :
        Undecided target limit d (done ++ x :: rest) j :=
      Nat.le_antisymm hj (Nat.le_of_lt_succ hlt) ▸ hopen
    simp only [scan]
    rw [← confirmedIn_next, ← rejectedIn_next]
    split
    next hreached =>
      exact Stops.confirmation _ (Nat.lt_succ_self _) (by omega) (le_of_eq hreached.symm) hbefore
    next hconfirmed =>
      split
      next hreached =>
        exact Stops.rejection _ (Nat.lt_succ_self _) (by omega) (le_of_eq hreached.symm) hbefore
      next hrejected =>
        have hnext : Undecided target limit d (done ++ x :: rest) (done.length + 1) := by
          have hc := confirmedIn_next done rest d x
          have hr := rejectedIn_next done rest d x
          constructor
          · have := hopen.1
            split at hc <;> omega
          · have := hopen.2
            split at hr <;> omega
        have hstops := ih (done ++ [x])
        simp only [List.append_assoc, List.singleton_append, List.length_append, List.length_singleton]
          at hstops
        exact (hstops hnext).back hopen

theorem confirmationTarget_pos (name : ManualClass) : 0 < confirmationTarget name := by
  cases name <;> decide

theorem stopOf_stops (h : Accepted name ids d) :
    Stops (confirmationTarget name) (ids.length - confirmationTarget name + 1) d
      (ids.take d.reviewedPrefix.toNat) 0 (stopOf name ids d) := by
  apply scan_stops _ _ d [] (ids.take d.reviewedPrefix.toNat)
  constructor
  · exact confirmationTarget_pos name
  · exact Nat.succ_pos _

/-! ## The counts -/

theorem countP_mem {α : Type} [DecidableEq α] {l s : List α} (hl : l.Nodup) (hs : s.Nodup) (hsub : ∀ x ∈ s, x ∈ l) :
    l.countP (· ∈ s) = s.length := by
  rw [List.countP_eq_length_filter]
  apply List.Perm.length_eq
  apply (List.perm_ext_iff_of_nodup (hl.filter _) hs).2
  intro x
  rw [List.mem_filter, decide_eq_true_iff]
  exact ⟨fun h => h.2, fun h => ⟨hsub x h, h⟩⟩

/-- Every reviewed candidate is confirmed, rejected or unresolved, and only one of these. -/
theorem decided_once (d : Decision) (hapart : ∀ x ∈ d.rejectedIds, x ∉ d.unresolvedIds) (l : List String) :
    l.countP d.confirmed + l.countP (· ∈ d.rejectedIds) + l.countP (· ∈ d.unresolvedIds) = l.length := by
  induction l with
  | nil => rfl
  | cons x rest ih =>
    simp only [List.countP_cons, Decision.confirmed, decide_eq_true_eq, List.length_cons]
    by_cases hrejected : x ∈ d.rejectedIds
    · have hresolved := hapart x hrejected
      simp only [hrejected, hresolved, not_true_eq_false, false_and, if_false, if_true]
      omega
    · by_cases hunresolved : x ∈ d.unresolvedIds
      · simp only [hrejected, hunresolved, not_true_eq_false, and_false, if_false, if_true]
        omega
      · simp only [hrejected, hunresolved, not_false_eq_true, and_self, if_false, if_true]
        omega

namespace Accepted

theorem prefix_le (h : Accepted name ids d) : d.reviewedPrefix.toNat ≤ ids.length := by
  have := h.upper
  omega

theorem rejected_count (h : Accepted name ids d) :
    rejectedIn ids d d.reviewedPrefix.toNat = d.rejectedIds.length :=
  countP_mem (h.unique.sublist (List.take_sublist _ _)) h.rejected
    fun x hx => h.inside x (List.mem_append_left _ hx)

theorem eligible_count (h : Accepted name ids d) :
    confirmedIn ids d d.reviewedPrefix.toNat + d.rejectedIds.length + d.unresolvedIds.length =
      d.reviewedPrefix.toNat := by
  have hcount := decided_once d h.apart (ids.take d.reviewedPrefix.toNat)
  have hunresolved := countP_mem (h.unique.sublist (List.take_sublist d.reviewedPrefix.toNat ids)) h.unresolved
    fun x hx => h.inside x (List.mem_append_right _ hx)
  have hrejected := h.rejected_count
  have hprefix := h.prefix_le
  rw [List.length_take] at hcount
  rw [rejectedIn] at hrejected
  rw [confirmedIn]
  omega

/-- Where nothing is open, a completion changes nothing. -/
theorem complete (h : Accepted name ids d) (hall : d.reviewedPrefix.toNat = ids.length)
    (hunresolved : d.unresolvedIds = []) (confirms : String → Bool) :
    confirmedUnder ids d d.reviewedPrefix.toNat confirms = confirmedIn ids d d.reviewedPrefix.toNat := by
  apply le_antisymm _ (confirmedIn_le ids d _ confirms)
  have hall' := confirmedUnder_all ids d d.reviewedPrefix.toNat
  have hle := confirmedUnder_le_all ids d d.reviewedPrefix.toNat confirms
  have hcount := h.eligible_count
  rw [h.rejected_count] at hall'
  rw [hunresolved, List.length_nil] at hcount
  omega

end Accepted

/-! ## The stop of a review -/

theorem take_counts {k n : ℕ} (h : k ≤ n) :
    confirmedIn (ids.take n) d k = confirmedIn ids d k ∧ rejectedIn (ids.take n) d k = rejectedIn ids d k := by
  rw [confirmedIn, rejectedIn, List.take_take, Nat.min_eq_left h]
  exact ⟨rfl, rfl⟩

theorem undecided_iff {target limit k n : ℕ} (h : k ≤ n) :
    Undecided target limit d (ids.take n) k ↔ Undecided target limit d ids k := by
  rw [Undecided, Undecided, (take_counts h).1, (take_counts h).2]

theorem not_settled (h : Accepted name ids d) {k : ℕ}
    (hopen : Undecided (confirmationTarget name) (ids.length - confirmationTarget name + 1) d ids k) :
    ¬ Settled name ids d k := by
  intro hsettled
  cases (settled_iff h.active).1 hsettled with
  | inl hreached => exact Nat.not_lt.2 hreached hopen.1
  | inr hlost => exact Nat.not_lt.2 hlost hopen.2

/-- The first candidate at which the review is settled, where all before it leave it open. -/
theorem isLeast_settled (h : Accepted name ids d) {k : ℕ} (hend : k ≤ d.reviewedPrefix.toNat)
    (hsettled : Settled name ids d k)
    (hbefore : ∀ j, 0 ≤ j → j < k → Undecided (confirmationTarget name)
      (ids.length - confirmationTarget name + 1) d (ids.take d.reviewedPrefix.toNat) j) :
    IsLeast {k | k ≤ d.reviewedPrefix.toNat ∧ Settled name ids d k} k := by
  apply And.intro ⟨hend, hsettled⟩
  intro j hj
  by_contra hlt
  have hlt := Nat.lt_of_not_le hlt
  exact not_settled h ((undecided_iff hj.1).1 (hbefore j (Nat.zero_le j) hlt)) hj.2

/-- The stop is where the target is settled first, and says which way. -/
theorem stopOf_settles (h : Accepted name ids d) :
    (∀ k, (stopOf name ids d).atReviewedCandidate = some k ↔
      IsLeast {k | k ≤ d.reviewedPrefix.toNat ∧ Settled name ids d k} k) ∧
    ((stopOf name ids d).outcome = .confirmationTargetReached →
      confirmationTarget name ≤ confirmedIn ids d d.reviewedPrefix.toNat) ∧
    ((stopOf name ids d).outcome = .rejectionLimitReached →
      ids.length - confirmationTarget name + 1 ≤ rejectedIn ids d d.reviewedPrefix.toNat) := by
  have hlength : (ids.take d.reviewedPrefix.toNat).length = d.reviewedPrefix.toNat := by
    rw [List.length_take, Nat.min_eq_left h.prefix_le]
  have hunique {k : ℕ} (hk : IsLeast {k | k ≤ d.reviewedPrefix.toNat ∧ Settled name ids d k} k) (j : ℕ) :
      some k = some j ↔ IsLeast {k | k ≤ d.reviewedPrefix.toNat ∧ Settled name ids d k} j :=
    ⟨fun heq => Option.some.inj heq ▸ hk, fun hj => congrArg some (hk.unique hj)⟩
  have hstops := stopOf_stops h
  generalize stopOf name ids d = stop at hstops
  cases hstops with
  | confirmation k _ hend hreached hbefore =>
    rw [hlength] at hend
    rw [(take_counts hend).1] at hreached
    have hleast := isLeast_settled h hend ((settled_iff h.active).2 (Or.inl hreached)) hbefore
    exact ⟨hunique hleast, fun _ => le_trans hreached (take_countP_mono _ _ hend), fun heq => (nomatch heq)⟩
  | rejection k _ hend hreached hbefore =>
    rw [hlength] at hend
    rw [(take_counts hend).2] at hreached
    have hleast := isLeast_settled h hend ((settled_iff h.active).2 (Or.inr hreached)) hbefore
    exact ⟨hunique hleast, fun heq => (nomatch heq), fun _ => le_trans hreached (take_countP_mono _ _ hend)⟩
  | notReached hall =>
    apply And.intro _ ⟨fun heq => (nomatch heq), fun heq => (nomatch heq)⟩
    intro k
    constructor
    · intro heq
      cases heq
    · intro hk
      have hle := hk.1.1
      exact absurd hk.1.2
        (not_settled h ((undecided_iff hle).1 (hall k (Nat.zero_le k) (by omega))))

/-! ## When a report is faithful -/

/-- The minimum is taken over the confirmed candidates, so it is none while one that is open could
still lower it. -/
theorem reviewOneClass_faithful_iff (h : reviewOneClass name (classReport name ids.length) ids d = .ok r) :
    Faithful name ids d r ↔
      targetLockedClusters ≤ d.reviewedPrefix.toNat - d.rejectedIds.length - d.unresolvedIds.length ∨
        d.reviewedPrefix.toNat = ids.length ∧ d.unresolvedIds = [] := by
  obtain ⟨haccepted, rfl⟩ := reviewOneClass_ok h
  have hcount := haccepted.eligible_count
  have heligible : confirmedIn ids d d.reviewedPrefix.toNat =
      d.reviewedPrefix.toNat - d.rejectedIds.length - d.unresolvedIds.length := by omega
  obtain ⟨hstop, hconfirmation, hrejection⟩ := stopOf_settles haccepted
  constructor
  · intro hfaithful
    have hminimum := hfaithful.minimum fun _ => true
    simp only [reviewed, deficitUnder] at hminimum
    have hall := confirmedUnder_all ids d d.reviewedPrefix.toNat
    rw [haccepted.rejected_count] at hall
    have hprefix := haccepted.prefix_le
    by_cases hreached : targetLockedClusters ≤
        d.reviewedPrefix.toNat - d.rejectedIds.length - d.unresolvedIds.length
    · exact Or.inl hreached
    · right
      constructor
      · omega
      · apply List.length_eq_zero_iff.1
        omega
  · intro hcondition
    have hdeficit (confirms : String → Bool) : deficitUnder ids d confirms =
        targetLockedClusters - (d.reviewedPrefix.toNat - d.rejectedIds.length - d.unresolvedIds.length) := by
      rw [deficitUnder, ← heligible]
      cases hcondition with
      | inl hreached =>
        have hle := confirmedIn_le ids d d.reviewedPrefix.toNat confirms
        omega
      | inr hcomplete => rw [haccepted.complete hcomplete.1 hcomplete.2]
    constructor
    · intro confirms
      exact le_of_eq (hdeficit confirms).symm
    · intro _ confirms
      exact hdeficit confirms
    · intro hlost confirms
      have hlimit := hrejection hlost
      have hall := confirmedUnder_all ids d d.reviewedPrefix.toNat
      have hle := confirmedUnder_le_all ids d d.reviewedPrefix.toNat confirms
      have hactive := haccepted.active
      omega
    · intro hreached confirms
      exact le_trans (hconfirmation hreached) (confirmedIn_le ids d _ confirms)
    · exact hstop

/-! ## Ten candidates -/

def tenIds : List String :=
  ['0', '1', '2', '3', '4', '5', '6', '7', '8', '9'].map fun c => String.ofList (List.replicate 64 c)

theorem repeated_le {a b : Char} (h : a < b) :
    String.ofList (List.replicate 64 a) < String.ofList (List.replicate 64 b) := by
  apply String.lt_iff_toList_lt.2
  rw [String.toList_ofList, String.toList_ofList]
  exact List.Lex.rel h

theorem tenIds_increasing : tenIds.Pairwise (· < ·) := by
  rw [tenIds, List.pairwise_map]
  have hdigits : ['0', '1', '2', '3', '4', '5', '6', '7', '8', '9'].Pairwise (· < ·) := by decide
  exact hdigits.imp repeated_le

theorem tenIds_sha : ∀ x ∈ tenIds, isSha256 x = true := by
  intro x hx
  obtain ⟨c, hc, rfl⟩ := List.mem_map.1 hx
  have hdigit : c.isDigit = true := by
    have hall : ['0', '1', '2', '3', '4', '5', '6', '7', '8', '9'].all Char.isDigit = true := by decide
    exact List.all_eq_true.1 hall c hc
  rw [isSha256, String.toList_ofList, List.length_replicate, List.all_replicate, hdigit]
  rfl

theorem tenIds_length : tenIds.length = 10 := by
  rw [tenIds, List.length_map]
  rfl

theorem reviewOneClass_ten (p : ℕ) (hp : p ≤ 10) :
    ∃ stop, reviewOneClass .wrongRow (classReport .wrongRow tenIds.length) tenIds ⟨p, [], []⟩ =
      .ok (reviewed .wrongRow (classReport .wrongRow tenIds.length) tenIds [] [] p stop) := by
  have hsha : forM tenIds (requireSha256 "case id") = .ok () :=
    forM_ok.2 fun x hx => require_true (tenIds_sha x hx)
  have hordered : tenIds.Pairwise (· ≤ ·) ∧ tenIds.Nodup :=
    ⟨tenIds_increasing.imp le_of_lt, tenIds_increasing.imp ne_of_lt⟩
  have hprefix : 0 ≤ (p : ℤ) ∧ (p : ℤ) ≤ tenIds.length := by
    rw [tenIds_length]
    omega
  have hset (label : String) : idSet [] label = .ok [] := rfl
  refine ⟨stopOf .wrongRow tenIds ⟨p, [], []⟩, ?_⟩
  rw [reviewOneClass, orderedCandidateIds, hsha, ok_bind, require_true hordered, ok_bind]
  simp only [pure_bind]
  rw [require_true hprefix, ok_bind, hset, ok_bind, hset, ok_bind, require_true (by simp), ok_bind,
    require_true (by simp), ok_bind, planOf_report, demand_some, ok_bind]
  rw [stopOf, tenIds_length]
  rfl

/-- Nothing is reviewed, and thirty clusters are said to be missing whatever happens: ten of them
are there if the candidates are confirmed. -/
theorem partial_review_overstates :
    ¬ ∀ (name : ManualClass) (ids : List String) (d : Decision) (r : Reviewed),
      reviewOneClass name (classReport name ids.length) ids d = .ok r → Faithful name ids d r := by
  intro hall
  obtain ⟨stop, hstop⟩ := reviewOneClass_ten 0 (Nat.zero_le 10)
  have hminimum := (hall _ _ _ _ hstop).minimum fun _ => true
  have hconfirmed := confirmedUnder_all tenIds ⟨(0 : ℕ), [], []⟩ 0
  simp only [reviewed, deficitUnder, targetLockedClusters] at hminimum
  rw [tenIds_length] at hconfirmed
  have hrejected : rejectedIn tenIds ⟨(0 : ℕ), [], []⟩ 0 = 0 := rfl
  simp only [Int.toNat_natCast, List.length_nil] at hminimum
  omega

theorem reviewOneClass_faithful_ten :
    ∃ r, reviewOneClass .wrongRow (classReport .wrongRow tenIds.length) tenIds ⟨10, [], []⟩ = .ok r ∧
      Faithful .wrongRow tenIds ⟨10, [], []⟩ r := by
  obtain ⟨stop, hstop⟩ := reviewOneClass_ten 10 (Nat.le_refl 10)
  exact ⟨_, hstop, (reviewOneClass_faithful_iff hstop).2 (Or.inr ⟨tenIds_length.symm, rfl⟩)⟩

end RagPipeline.Adversarial
