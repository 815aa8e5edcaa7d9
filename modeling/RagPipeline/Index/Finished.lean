import RagPipeline.Index.WholeRun

/-! # Is a complete run promotable?

`existing_content_keys` asks the whole document which vectors are there, and
`copy_chunks_into_generation` takes only those of its own version or of none. A
run is promoted exactly if every chunk it left to the copy has such a row. -/

set_option autoImplicit false

namespace RagPipeline.Index
open Guard Table Transition Fence Processes

section
variable [Deployment] {a : IngestAttempt} {w w' : World}

/-- A calm run that keeps its lease ends in a promotion, or the copy left
something out. -/
theorem complete_run_leads {services : Services} (hcalm : services.Calm) {snapshot : Snapshot}
    {chunks : List ParsedChunk} (hparse : snapshot.parse a = .ok (chunks, none))
    (hsome : ∃ c ∈ chunks, c.usable) {s : Store} :
    Leads False a (fun w => Working a w ∧ w.store.chunks = s.chunks)
      (ingestAttempt services snapshot a)
      (fun verdict w => Reuses a services.fingerprint chunks s ∧ verdict = .done ∧
        Promoted a chunks w ∧ Over a w)
      fun _ w => ¬ Reuses a services.fingerprint chunks s ∧ Working a w := by
  have hparsed : ¬ (chunks.all (fun c => !c.usable) ∧ (none : Option String) = none) := by
    rintro ⟨hall, -⟩
    obtain ⟨c, hc, huse⟩ := hsome
    have hnot := List.all_eq_true.1 hall c hc
    simp [huse] at hnot
  have hrest : guarded services a (snapshot.parse a) = pure (chunks, none) := by
    rw [hparse, guarded]
  unfold ingestAttempt
  rw [hrest]
  refine leads_mono (@indexParsed_leads _ _ _ _ _ none _ hparsed) (fun _ h => h)
    (fun _ w h => ?_) fun _ w h => ?_
  · obtain ⟨⟨-, hsettling⟩, hdone, hover⟩ := h
    exact ⟨hcalm.settling_iff.1 hsettling, (hdone rfl).1, (hdone rfl).2, hover⟩
  · rcases h with ⟨-, hreuses, hworking⟩ | ⟨-, hnot, -⟩
    · exact ⟨hreuses hcalm, hworking⟩
    · exact absurd hcalm hnot

/-- Every calm run of a working attempt that keeps its lease is promoted with
its manifest exactly if each stored content among its chunks has a row the copy
may take. -/
theorem complete_run_promoted_iff (h : Working a w) {services : Services}
    (hcalm : services.Calm) {snapshot : Snapshot} {chunks : List ParsedChunk}
    (hparse : snapshot.parse a = .ok (chunks, none)) (hsome : ∃ c ∈ chunks, c.usable) :
    (∀ r w', Runs (others False a) (ingestAttempt services snapshot a).run w r w' →
      r = .ok .done ∧ ∃ g, ⟨a.candidateId, g, (manifestIds g chunks).toFinset⟩ ∈ w'.promoted ∧
        (¬ w'.store.isPurged → ((w'.store.build a.candidateId g).map ChunkRow.id).toFinset =
          (manifestIds g chunks).toFinset)) ↔
      Reuses a services.fingerprint chunks w.store := by
  have hrun := complete_run_leads hcalm hparse hsome (s := w.store)
  constructor
  · intro hall
    have halone := @runs_alone _ _ _ (others False a) 0 (ingestAttempt services snapshot a).run w
    have hend := hrun w _ _ (.inl ⟨h, rfl⟩) halone
    rw [(hall _ _ halone).1] at hend
    exact (hend.resolve_right And.left).1
  · intro hreuses r w' hr
    have hend := hrun w r w' (.inl ⟨h, rfl⟩) hr
    cases r with
    | error e => exact absurd hreuses (hend.resolve_right And.left).1
    | ok verdict =>
      obtain ⟨-, rfl, ⟨hreach, g, hg⟩, -⟩ := hend.resolve_right And.left
      have hc := reachable_complete hreach
      refine ⟨rfl, g, hg, fun hlive => ?_⟩
      obtain ⟨b, hb, hkey⟩ := List.mem_map.1 (hc.promotions _ hg)
      obtain ⟨hversion, hgeneration⟩ := Prod.mk.inj hkey
      simp only at hversion hgeneration
      have hwhole := (hc.whole hlive b hb).manifest_eq hc (hversion.symm ▸ hgeneration.symm ▸ hg)
      rwa [hversion, hgeneration] at hwhole

end

section
attribute [local instance] sampleDeployment

def digestB : String := "bbbbbbbbbbbbbbbbbbbbbbbbbbbbbbbbbbbbbbbbbbbbbbbbbbbbbbbbbbbbbbbb"

/-- Other bytes replace the promoted ones, and their attempt begins. -/
def replaceRun : List Action :=
  [.stage "a.pdf" "pdf" (some digestB) true false 2 1, .finalize 2, .begin "w" none 20 1]

def replacedWorld : World :=
  (System.play Action.exec promotedWorld replaceRun).getD World.empty

def secondAttempt : IngestAttempt := ⟨20, 2, digestB, 1⟩

def sampleServices (fingerprint : String) : Services :=
  ⟨fun _ => .ok ⟨"d", "s"⟩, fun _ => "RuntimeError", fingerprint, fun _ => none⟩

theorem sampleServices_calm (fingerprint : String) : (sampleServices fingerprint).Calm :=
  ⟨fun _ => rfl, fun _ => ⟨_, rfl⟩⟩

/-- The second candidate, parsed to the chunk of the first. -/
def sharedSnapshot : Snapshot := ⟨.ok digestB, .ok none, .ok digestB, .ok [firstChunk]⟩

theorem replacedWorld_working : Working secondAttempt replacedWorld := by
  have hplay : System.play (fun w a => if a.plain then a.exec w else none) promotedWorld replaceRun =
      some replacedWorld := rfl
  refine ⟨⟨System.reachable_play (fun s a s' hs => ?_) promotedWorld_reachable hplay,
    ⟨20, 2, digestB, 1, "w", none, none, none⟩, ?_, rfl, rfl⟩, _, rfl⟩
  · cases a <;> first
      | exact ⟨trivial, exec_step hs⟩
      | cases hs
  · decide

/-- Under another fingerprint nothing is left to the copy. -/
theorem complete_run_promoted_other : (sampleServices "g").Calm ∧
    ∀ r w', Runs (others False secondAttempt)
      (ingestAttempt (sampleServices "g") sharedSnapshot secondAttempt).run replacedWorld r w' →
        r = .ok .done ∧ ∃ g, ⟨2, g, (manifestIds g [firstChunk]).toFinset⟩ ∈ w'.promoted ∧
          (¬ w'.store.isPurged → ((w'.store.build 2 g).map ChunkRow.id).toFinset =
            (manifestIds g [firstChunk]).toFinset) := by
  refine ⟨sampleServices_calm "g", (complete_run_promoted_iff replacedWorld_working
    (sampleServices_calm "g") rfl ⟨firstChunk, List.mem_cons_self, rfl⟩).2 fun x _ hkey => ?_⟩
  have hnone : existingContentKeys (sampleServices "g").fingerprint replacedWorld.store = [] := rfl
  rw [hnone] at hkey
  cases hkey

/-- The second version shares a chunk with the first, and its run is refused. -/
theorem shared_chunk_refused : Working secondAttempt replacedWorld ∧ (sampleServices "f").Calm ∧
    sharedSnapshot.parse secondAttempt = .ok ([firstChunk], none) ∧ firstChunk.usable ∧
    ∃ w', Runs (others False secondAttempt)
      (ingestAttempt (sampleServices "f") sharedSnapshot secondAttempt).run replacedWorld
        (.error (manifestRefusal {chunkId firstChunk 0 2} ∅)) w' :=
  ⟨replacedWorld_working, sampleServices_calm "f", rfl, rfl, _, runs_alone 2
    (ingestAttempt (sampleServices "f") sharedSnapshot secondAttempt).run replacedWorld⟩

end

end RagPipeline.Index

/-! # What a finished run holds

Whichever function an attempt is handed to, its record is closed at the end of
the call unless something is raised at a point that no handler surrounds, passes
the one that does, or refuses the promotion. -/

namespace RagPipeline.Index
open Guard Table Transition Fence Processes

/-- A call of one of the functions that run under an attempt. -/
inductive IngestCall where
  | ingestAttempt (snapshot : Snapshot)
  | ingestVerifiedSource (body : SourceBody) (canonicalFilename sha : String)
  | ingestVersionSource (tenantId documentId versionId canonicalFilename sha : String)
  | main (path : String)

section
variable [Deployment] {a : IngestAttempt} {w w' : World} {mayLose : Prop} {services : Services}
  {sources : Sources} {s : Store}

namespace IngestCall

def run (services : Services) (sources : Sources) (a : IngestAttempt) : IngestCall → Ingest Verdict
  | .ingestAttempt snapshot => Index.ingestAttempt services snapshot a
  | .ingestVerifiedSource body canonicalFilename sha =>
    Index.ingestVerifiedSource services sources body canonicalFilename sha a
  | .ingestVersionSource tenantId documentId versionId canonicalFilename sha =>
    Index.ingestVersionSource services sources tenantId documentId versionId canonicalFilename sha a
  | .main path => ingestMain services sources path a

/-- The private copy the call makes before it parses, if its early phases do
not raise. -/
def snapshot (sources : Sources) (a : IngestAttempt) : IngestCall → Except Refusal Snapshot
  | .ingestAttempt snapshot => .ok snapshot
  | .ingestVerifiedSource body canonicalFilename sha =>
    verifiedSnapshot sources body canonicalFilename sha a
  | .ingestVersionSource tenantId documentId versionId canonicalFilename sha => do
    let body ← versionSource sources tenantId documentId versionId sha a
    verifiedSnapshot sources body canonicalFilename sha a
  | .main path => sources.snapshotOf path

end IngestCall

/-- What the parse gave is no reason to leave the attempt open. -/
def SettlesParsed (services : Services) (a : IngestAttempt) (s : Store)
    (chunks : List ParsedChunk) (failures : Option String) : Prop :=
  Starts services ∧ (¬ (chunks.all (fun c => !c.usable) ∧ failures = none) →
    Settling services a chunks failures s)

def SettlesSnapshot (services : Services) (a : IngestAttempt) (s : Store) (snapshot : Snapshot) :
    Prop :=
  ∀ parsed, snapshot.parse a = .ok parsed → SettlesParsed services a s parsed.1 parsed.2

/-- Nothing that can be raised in the call leaves the attempt open. -/
def IngestCall.Settles (services : Services) (sources : Sources) (a : IngestAttempt) (s : Store)
    (call : IngestCall) : Prop :=
  (∀ path, call = .main path → services.raises .path = none) ∧
    ∀ snapshot, call.snapshot sources a = .ok snapshot → SettlesSnapshot services a s snapshot

/-- The end of a call: closed, exactly where it was to be. -/
def Ended (settles : Prop) (a : IngestAttempt) (w : World) : Prop :=
  (¬ settles ∧ Working a w) ∨ (settles ∧ Over a w)

theorem ended_lasting {settles : Prop} : Lasting mayLose a (Ended settles a) :=
  working_lasting.and.or over_lasting.and

theorem ended_congr {p q : Prop} (h : p ↔ q) : Ended p a w ↔ Ended q a w := by
  rw [Ended, Ended, h]

theorem indexParsed_ends (chunks : List ParsedChunk) (failures : Option String) :
    Leads mayLose a (fun w => Working a w ∧ w.store.chunks = s.chunks)
      (indexParsed services chunks failures a)
      (fun _ => Ended (SettlesParsed services a s chunks failures) a)
      fun _ => Ended (SettlesParsed services a s chunks failures) a := by
  by_cases hparsed : chunks.all (fun c => !c.usable) ∧ failures = none
  · have hiff : SettlesParsed services a s chunks failures ↔ Starts services :=
      ⟨And.left, fun h => ⟨h, fun hnot => absurd hparsed hnot⟩⟩
    refine leads_mono (unusable_leads hparsed) (fun _ h => h) (fun _ _ h => h.elim) fun _ w h => ?_
    exact (ended_congr hiff).2 h
  · have hiff : SettlesParsed services a s chunks failures ↔
        Starts services ∧ Settling services a chunks failures s :=
      ⟨fun h => ⟨h.1, h.2 hparsed⟩, fun h => ⟨h.1, fun _ => h.2⟩⟩
    refine leads_mono (indexParsed_leads hparsed) (fun _ h => h) (fun _ w h => ?_) fun _ w h => ?_
    · exact (ended_congr hiff).2 (.inr ⟨h.1, h.2.2⟩)
    · exact (ended_congr hiff).2 (h.imp (fun h => ⟨h.1, h.2.2⟩) fun h => ⟨h.1, h.2.2⟩)

/-- A guarded phase before a rest: its failure settles the attempt, its result
leaves it to the rest. -/
theorem guarded_ends {α : Type} {early : Except Refusal α} {rest : α → Ingest Verdict}
    {settles : α → Prop} (hkeeps : ∀ x, Keeps (Over a) (rest x))
    (hrest : ∀ x, Leads mayLose a (fun w => Working a w ∧ w.store.chunks = s.chunks) (rest x)
      (fun _ => Ended (settles x) a) fun _ => Ended (settles x) a) :
    Leads mayLose a (fun w => Working a w ∧ w.store.chunks = s.chunks)
      (guarded services a early >>= rest)
      (fun _ => Ended (∀ x, early = .ok x → settles x) a)
      fun _ => Ended (∀ x, early = .ok x → settles x) a := by
  refine leads_bind (leads_mono (guarded_leads (table_owned s.chunks).lasting fun _ h => h.1)
    (fun _ h => h) (fun _ _ h => h) fun e w h => .inr ⟨fun x hx => ?_, h.2⟩) (fun x => ?_)
    fun _ => ended_lasting
  · cases h.1.symm.trans hx
  · refine leads_assume (hkeeps x) fun hx => ?_
    have hiff : (∀ y, early = .ok y → settles y) ↔ settles x :=
      ⟨fun h => h x hx, fun h y hy => Except.ok.inj (hx.symm.trans hy) ▸ h⟩
    exact leads_mono (hrest x) (fun _ h => h) (fun _ _ h => (ended_congr hiff).2 h)
      fun _ _ h => (ended_congr hiff).2 h

theorem ingestAttempt_ends (snapshot : Snapshot) :
    Leads mayLose a (fun w => Working a w ∧ w.store.chunks = s.chunks)
      (ingestAttempt services snapshot a)
      (fun _ => Ended (SettlesSnapshot services a s snapshot) a)
      fun _ => Ended (SettlesSnapshot services a s snapshot) a :=
  guarded_ends (fun _ => keeps_indexParsed) fun parsed => indexParsed_ends parsed.1 parsed.2

theorem keeps_verified {body : SourceBody} {canonicalFilename sha : String} :
    Keeps (Over a) (ingestVerifiedSource services sources body canonicalFilename sha a) :=
  keeps_guarded.bind fun _ => keeps_ingestAttempt

theorem ingestVerifiedSource_ends (body : SourceBody) (canonicalFilename sha : String) :
    Leads mayLose a (fun w => Working a w ∧ w.store.chunks = s.chunks)
      (ingestVerifiedSource services sources body canonicalFilename sha a)
      (fun _ => Ended (∀ snapshot, verifiedSnapshot sources body canonicalFilename sha a =
        .ok snapshot → SettlesSnapshot services a s snapshot) a)
      fun _ => Ended (∀ snapshot, verifiedSnapshot sources body canonicalFilename sha a =
        .ok snapshot → SettlesSnapshot services a s snapshot) a :=
  guarded_ends (fun _ => keeps_ingestAttempt) ingestAttempt_ends

theorem keeps_call (call : IngestCall) : Keeps (Over a) (call.run services sources a) := by
  cases call with
  | ingestAttempt snapshot => exact keeps_ingestAttempt
  | ingestVerifiedSource body canonicalFilename sha => exact keeps_verified
  | ingestVersionSource tenantId documentId versionId canonicalFilename sha =>
    exact keeps_guarded.bind fun _ => keeps_verified
  | main path =>
    exact (keeps_meets _ _).bind fun _ => keeps_guarded.bind fun _ => keeps_ingestAttempt

theorem call_ends (call : IngestCall) :
    Leads mayLose a (fun w => Working a w ∧ w.store.chunks = s.chunks)
      (call.run services sources a) (fun _ => Ended (call.Settles services sources a s) a)
      fun _ => Ended (call.Settles services sources a s) a := by
  cases call with
  | ingestAttempt snapshot =>
    have hiff : (IngestCall.ingestAttempt snapshot).Settles services sources a s ↔
        SettlesSnapshot services a s snapshot :=
      ⟨fun h => h.2 snapshot rfl, fun h => ⟨fun _ h => (by cases h),
        fun x hx => Except.ok.inj hx ▸ h⟩⟩
    exact leads_mono (ingestAttempt_ends snapshot) (fun _ h => h)
      (fun _ _ h => (ended_congr hiff).2 h) fun _ _ h => (ended_congr hiff).2 h
  | ingestVerifiedSource body canonicalFilename sha =>
    refine leads_mono (ingestVerifiedSource_ends body canonicalFilename sha) (fun _ h => h)
      (fun _ _ h => (ended_congr ?_).2 h) fun _ _ h => (ended_congr ?_).2 h
    all_goals exact ⟨And.right, fun h => ⟨fun _ h => (by cases h), h⟩⟩
  | ingestVersionSource tenantId documentId versionId canonicalFilename sha =>
    have hiff : (IngestCall.ingestVersionSource tenantId documentId versionId canonicalFilename
        sha).Settles services sources a s ↔
        ∀ body, versionSource sources tenantId documentId versionId sha a = .ok body →
          ∀ snapshot, verifiedSnapshot sources body canonicalFilename sha a = .ok snapshot →
            SettlesSnapshot services a s snapshot := by
      constructor
      · exact fun h body hbody snapshot hsnapshot => h.2 snapshot (bind_ok.2 ⟨body, hbody, hsnapshot⟩)
      · intro h
        refine ⟨fun _ h => (by cases h), fun snapshot hsnapshot => ?_⟩
        obtain ⟨body, hbody, hsnapshot⟩ := bind_ok.1 hsnapshot
        exact h body hbody snapshot hsnapshot
    refine leads_mono (guarded_ends (fun _ => keeps_verified) fun body =>
      ingestVerifiedSource_ends body canonicalFilename sha) (fun _ h => h)
      (fun _ _ h => (ended_congr hiff).2 h) fun _ _ h => (ended_congr hiff).2 h
  | main path =>
    show Leads mayLose a _ (services.meets .path >>= fun _ =>
      guarded services a (sources.snapshotOf path) >>= fun snapshot =>
        ingestAttempt services snapshot a) _ _
    cases hpath : services.raises .path with
    | some e =>
      rw [meets_some hpath]
      refine leads_throw (table_owned s.chunks).lasting fun w hw => .inl ⟨fun hs => ?_, hw.1⟩
      cases (hs.1 path rfl).symm.trans hpath
    | none =>
      have hiff : (IngestCall.main path).Settles services sources a s ↔
          ∀ snapshot, sources.snapshotOf path = .ok snapshot →
            SettlesSnapshot services a s snapshot :=
        ⟨And.right, fun h => ⟨fun _ _ => hpath, h⟩⟩
      rw [meets_none hpath]
      exact leads_mono (guarded_ends (fun _ => keeps_ingestAttempt) ingestAttempt_ends)
        (fun _ h => h) (fun _ _ h => (ended_congr hiff).2 h) fun _ _ h => (ended_congr hiff).2 h

/-- The record of the attempt is terminal, and the row does not name it. -/
def Store.freed (s : Store) (a : IngestAttempt) : Prop :=
  (∃ row ∈ s.attempts, row.attemptId = a.attemptId ∧ row.status ≠ none) ∧
    ∀ d, s.document = some d → d.attemptId ≠ some a.attemptId

theorem Over.freed (h : Over a w) : w.store.freed a := ⟨h.closed, fun _ hd => h.released hd⟩

theorem Working.not_freed (h : Working a w) : ¬ w.store.freed a := by
  intro hfreed
  obtain ⟨d, hd, -, -, hatt, -⟩ := h.row
  exact hfreed.2 d hd hatt

/-- Every run of a call ends with the attempt closed exactly if its lease is
already gone or the call settles it. -/
theorem finished_run_iff (h : Begun a w) (services : Services) (sources : Sources)
    (call : IngestCall) :
    (∀ r w', Runs (others True a) (call.run services sources a).run w r w' → w'.store.freed a) ↔
      (keepsLease a w → call.Settles services sources a w.store) := by
  constructor
  · intro hall hlease
    have halone := @runs_alone _ _ _ (others False a) 0 (call.run services sources a).run w
    have hend := @call_ends _ a False services sources w.store call w _ _ (.inl ⟨⟨h, hlease⟩, rfl⟩) halone
    have hfreed := hall _ _ (@runs_alone _ _ _ (others True a) 0 (call.run services sources a).run w)
    have hended : Ended (call.Settles services sources a w.store) a
        (alone 0 (call.run services sources a).run w).2 := by
      revert hend
      cases (alone 0 (call.run services sources a).run w).1 with
      | ok v => exact fun hend => hend.resolve_right And.left
      | error e => exact fun hend => hend.resolve_right And.left
    rcases hended with ⟨-, hworking⟩ | ⟨hsettles, -⟩
    · exact absurd hfreed hworking.not_freed
    · exact hsettles
  · intro hsettles r w' hrun
    rcases h.working_or_over with hworking | hover
    · have hend := @call_ends _ a True services sources w.store call w r w' (.inl ⟨hworking, rfl⟩) hrun
      have hclosed : Ended (call.Settles services sources a w.store) a w' ∨ True ∧ Over a w' := by
        cases r with
        | ok v => exact hend
        | error e => exact hend
      rcases hclosed with (⟨hnot, -⟩ | ⟨-, hover⟩) | ⟨-, hover⟩
      · exact absurd (hsettles hworking.lease) hnot
      · exact hover.freed
      · exact hover.freed
    · exact (runs_keeps hrun (keeps_call call) over_stable hover).freed

end

section
attribute [local instance] sampleDeployment

def sampleSources : Sources where
  canonicalUuid := some
  uuidText := toString
  readVersionSource _ _ _ sha := .ok ⟨true, sha⟩
  canonicalSnapshotName := .ok
  snapshotBytes _ _ := .ok sharedSnapshot
  snapshotOf _ := .ok sharedSnapshot

/-- The counter of generations cannot be reached in time. -/
def failingServices : Services :=
  { sampleServices "g" with
    raises := fun p => if p = .allocate then some (.databaseError "statement timeout") else none }

theorem finished_run_iff_calm : Begun secondAttempt replacedWorld ∧
    ∀ r w', Runs (others True secondAttempt)
      ((IngestCall.main "a.pdf").run (sampleServices "g") sampleSources secondAttempt).run
        replacedWorld r w' → w'.store.freed secondAttempt := by
  refine ⟨replacedWorld_working.toBegun, (finished_run_iff replacedWorld_working.toBegun
    (sampleServices "g") sampleSources (.main "a.pdf")).2 fun _ =>
      ⟨fun _ _ => rfl, fun snapshot hsnapshot parsed hparse => ?_⟩⟩
  obtain rfl : sharedSnapshot = snapshot := Except.ok.inj hsnapshot
  obtain rfl : ([firstChunk], none) = parsed := Except.ok.inj hparse
  refine ⟨fun _ _ => rfl, fun _ => (sampleServices_calm "g").settling_iff.2 fun x _ hkey => ?_⟩
  have hnone : existingContentKeys (sampleServices "g").fingerprint replacedWorld.store = [] := rfl
  rw [hnone] at hkey
  cases hkey

/-- A statement that fails before the loop leaves the lease where it was. -/
theorem failed_allocation_holds : Begun secondAttempt replacedWorld ∧ ∃ w',
    Runs (others True secondAttempt)
      ((IngestCall.main "a.pdf").run failingServices sampleSources secondAttempt).run replacedWorld
        (.error (.databaseError "statement timeout")) w' ∧ ¬ w'.store.freed secondAttempt := by
  refine ⟨replacedWorld_working.toBegun, _, runs_alone 2
    ((IngestCall.main "a.pdf").run failingServices sampleSources secondAttempt).run replacedWorld, ?_⟩
  exact fun hfreed => hfreed.2 _ rfl rfl

end

end RagPipeline.Index
