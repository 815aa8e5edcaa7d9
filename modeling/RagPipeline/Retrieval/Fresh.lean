import RagPipeline.Index.Retained
import Mathlib.Data.List.Dedup

/-! # The snapshot and the keys of a scope

A build copies the rows of every document into a table of its own, and the keys
they carry into a manifest beside it. A question asks for the keys of the
documents in its scope and is refused unless the manifest has them all. -/

set_option autoImplicit false

namespace RagPipeline.Retrieval
open Guard Transition Index

@[ext] structure DocumentKey where
  tenantId : Uuid
  id : Uuid
deriving DecidableEq, Repr

/-- A document of the database: its row and everything that names it, as its own
transactions have left them. -/
structure Entry where
  key : DocumentKey
  deployment : Deployment
  world : World
  reachable : (@orderlySystem deployment).Reachable world

structure Database where
  entries : List Entry
  distinct : (entries.map Entry.key).Nodup

/-- The four parts of `scope_key`; no version is spelled `legacy`. -/
structure ScopeKey where
  tenantId : Uuid
  documentId : Uuid
  versionId : Option Uuid
  generation : ℕ
deriving DecidableEq, Repr

/-- A row of the vector table. -/
structure Node where
  text : String
  filename : String
  chunkId : String
  scopeKey : ScopeKey
deriving DecidableEq, Repr

structure Snapshot where
  nodes : List Node
  manifest : List ScopeKey
deriving DecidableEq, Repr

namespace Entry

def document (e : Entry) : Option DocumentRow := e.world.store.document

def scopeKey (e : Entry) (versionId : Option Uuid) (generation : ℕ) : ScopeKey :=
  ⟨e.key.tenantId, e.key.id, versionId, generation⟩

def node (e : Entry) (d : DocumentRow) (c : ChunkRow) : Node :=
  ⟨c.text, d.filename, c.id, e.scopeKey c.versionId c.generation⟩

/-- The arms of the copy: every build with a receipt, and the rows without a
version that are served. -/
def copied (e : Entry) (d : DocumentRow) : List ChunkRow :=
  (e.world.store.builds.flatMap fun b => e.world.store.rowsOf (some b.versionId) b.generation) ++
    if d.activeVersionId = none then e.world.store.rowsOf none d.activeGeneration else []

def rows (e : Entry) : List Node :=
  match e.document with
  | none => []
  | some d => (e.copied d).map (e.node d)

/-- The key of the row as it is served now. -/
def activeKey (e : Entry) (d : DocumentRow) : ScopeKey :=
  e.scopeKey d.activeVersionId d.activeGeneration

/-- The chunks of the active version and generation. -/
def served (e : Entry) (d : DocumentRow) : List ChunkRow :=
  e.world.store.rowsOf d.activeVersionId d.activeGeneration

end Entry

namespace Database

def rows (db : Database) : List Node := db.entries.flatMap Entry.rows

end Database

/-- What `build_index` puts in the place of the live table and its manifest. -/
def snapshotOf (rows : List Node) : Snapshot := ⟨rows, (rows.map Node.scopeKey).dedup⟩

inductive Refusal where
  | runtimeError (message : String)
  | plannerError (code : String)
deriving DecidableEq, Repr

/-- `_SNAPSHOT_STALE`. -/
def snapshotStale : Refusal :=
  .runtimeError ("LlamaIndex anlik goruntusu etkin belge surumunu kapsamiyor; sorgu " ++
    "reddedildi. Eski surumden sonuc dondurulmez.")

/-- The dimensions of a question. -/
structure Request where
  documentIds : Option (List Uuid)
  collectionIds : Option (List Uuid)
  tags : Option (List String)
deriving DecidableEq, Repr

/-- Which documents the collections and the tags have. -/
structure Labels where
  collections : Uuid → List Uuid
  tagKeys : Uuid → List String
  canonical : String → Option String

/-- A caller, and which documents the policy of its tenant lets it see. -/
structure Caller where
  service : Bool
  sees : DocumentKey → Bool

/-- `archived_at IS NULL`, behind the row policy. -/
def Caller.active (caller : Caller) (e : Entry) : Prop :=
  caller.sees e.key = true ∧ ∃ d ∈ e.document, d.archivedAt = none

instance (caller : Caller) (e : Entry) : Decidable (caller.active e) :=
  inferInstanceAs (Decidable (_ ∧ ∃ d ∈ e.document, d.archivedAt = none))

def activeDocumentIds (caller : Caller) (db : Database) : List Uuid :=
  (db.entries.filter fun e => caller.active e).map fun e => e.key.id

def scopeInvalid : Refusal := .plannerError "planner_scope_invalid"

/-- `resolve_document_scope`: collections any, tags all. -/
def resolveDocumentScope (labels : Labels) (caller : Caller) (r : Request) (db : Database) :
    Except Refusal (List Uuid) := do
  require (r.documentIds ≠ some [] ∧ r.collectionIds ≠ some [] ∧ r.tags ≠ some []) scopeInvalid
  let tagKeys ← demand ((r.tags.getD []).mapM labels.canonical) scopeInvalid
  return (activeDocumentIds caller db).filter fun id =>
    (∀ ids ∈ r.documentIds, id ∈ ids) ∧
    (∀ ids ∈ r.collectionIds, ∃ c ∈ labels.collections id, c ∈ ids) ∧
    (∀ t ∈ tagKeys, t ∈ labels.tagKeys id)

/-- The documents a question is about. -/
def resolveScope (labels : Labels) (caller : Caller) (r : Request) (db : Database) :
    Except Refusal (List Uuid) :=
  if r.documentIds = some [] ∨ r.collectionIds = some [] ∨ r.tags = some [] then .ok []
  else if r.documentIds = none ∧ r.collectionIds = none ∧ r.tags = none then
    .ok (activeDocumentIds caller db)
  else resolveDocumentScope labels caller r db

def scopeKind (r : Request) (resolved : List Uuid) : String :=
  if resolved = [] then "empty"
  else
    match r.documentIds, r.collectionIds, r.tags with
    | none, none, none => "all_visible"
    | some _, none, none => "explicit_documents"
    | none, some _, none => "metadata_filters"
    | none, none, some _ => "metadata_filters"
    | _, _, _ => "intersection"

/-- `lock_retrieval_scope_keys`. -/
def lockRetrievalScopeKeys (caller : Caller) (ids : List Uuid) (db : Database) : List ScopeKey :=
  db.entries.filterMap fun e =>
    match e.document with
    | none => none
    | some d => if caller.active e ∧ e.key.id ∈ ids then some (e.activeKey d) else none

structure Authority where
  scopeKeys : List ScopeKey
  resolvedIds : List Uuid
  scopeKind : String
deriving DecidableEq, Repr

/-- The manifest is read where there is one and must have every key. -/
def coveredBy (live : Option Snapshot) (keys : List ScopeKey) : Except Refusal Unit := do
  let snapshot ← demand live snapshotStale
  require (∀ key ∈ keys, key ∈ snapshot.manifest) snapshotStale

/-- `_lifecycle_scope_keys`, up to where it yields. From there on the rows it read
and the live table stay as they are until the question is answered. -/
def lifecycleScopeKeys (labels : Labels) (caller : Caller) (live : Option Snapshot) (r : Request)
    (db : Database) : Except Refusal Authority := do
  require (caller.service = false)
    (.runtimeError "servis baglami kullanici retrieval kapsami olamaz")
  let resolved ← resolveScope labels caller r db
  let keys := lockRetrievalScopeKeys caller resolved db
  if keys = [] then return ⟨[], resolved, scopeKind r resolved⟩
  else do
    coveredBy live keys
    return ⟨keys, resolved, scopeKind r resolved⟩

/-- `_as_chunks`: no node without a key of the scope gets through. -/
def asChunks (nodes : List Node) (allowed : List ScopeKey) : Except Refusal (List Node) := do
  require (∀ n ∈ nodes, n.scopeKey ∈ allowed)
    (.runtimeError "LlamaIndex yetki kapsami disinda dugum dondurdu")
  return nodes

end RagPipeline.Retrieval

/-! # A snapshot that was just built

The manifest has the keys of the rows that were copied, a scope has the key of
every document in it. A version that is served has a build with rows, so the two
differ in the documents that serve no version and have no row of their own. -/

namespace RagPipeline.Retrieval
open Guard Transition Index

variable {db : Database} {e : Entry} {d : DocumentRow} {v : Option Uuid} {g : ℕ} {k : ScopeKey}
  {labels : Labels} {caller : Caller} {r : Request}

/-- One of a list of distinct keys, picked out of what each of them stands for. -/
theorem flatMap_pick {α κ β : Type} [DecidableEq κ] {key : α → κ} {l : List α} {x : κ}
    {rows : List β} (h : (l.map key).Nodup) :
    (l.flatMap fun a => if key a = x then rows else []) = if x ∈ l.map key then rows else [] := by
  induction l with
  | nil => rfl
  | cons a l ih =>
    rw [List.map_cons, List.nodup_cons] at h
    rw [List.flatMap_cons, ih h.2]
    by_cases hx : key a = x
    · subst hx
      simp [h.1]
    · simp [hx, Ne.symm hx]

theorem rowsOf_filter {s : Store} {v' : Option Uuid} {g' : ℕ} :
    ((s.rowsOf v' g').filter fun c => c.versionId = v ∧ c.generation = g) =
      if (v', g') = (v, g) then s.rowsOf v g else [] := by
  rw [Store.rowsOf, List.filter_filter]
  by_cases h : (v', g') = (v, g)
  · obtain ⟨rfl, rfl⟩ := Prod.mk.inj h
    simp [Store.rowsOf]
  · rw [if_neg h, List.filter_eq_nil_iff]
    intro c _ hc
    simp only [Bool.and_eq_true, decide_eq_true_eq] at hc
    exact h (Prod.ext (hc.2.1.symm.trans hc.1.1) (hc.2.2.symm.trans hc.1.2))

/-- The kinds of rows a copy takes. -/
def Entry.copies (e : Entry) (d : DocumentRow) : Option Uuid → ℕ → Prop
  | some version, generation => (version, generation) ∈ e.world.store.builds.map BuildRow.key
  | none, generation => d.activeVersionId = none ∧ d.activeGeneration = generation

instance (e : Entry) (d : DocumentRow) (v : Option Uuid) (g : ℕ) : Decidable (e.copies d v g) := by
  cases v <;> unfold Entry.copies <;> infer_instance

theorem copied_filter : ((e.copied d).filter fun c => c.versionId = v ∧ c.generation = g) =
    if e.copies d v g then e.world.store.rowsOf v g else [] := by
  have hnodup := @builds_nodup e.deployment _ e.reachable
  have hlegacy : ((if d.activeVersionId = none then e.world.store.rowsOf none d.activeGeneration
      else []).filter fun c => c.versionId = v ∧ c.generation = g) =
      if d.activeVersionId = none ∧ (none, d.activeGeneration) = (v, g) then
        e.world.store.rowsOf v g else [] := by
    by_cases hd : d.activeVersionId = none
    · rw [if_pos hd, rowsOf_filter]
      simp only [hd, true_and]
    · simp [hd]
  simp only [Entry.copied, List.filter_append, List.filter_flatMap, rowsOf_filter, hlegacy]
  cases v with
  | none => simp [Entry.copies]
  | some version =>
    have hpick : ∀ b : BuildRow, (some b.versionId, b.generation) = (some version, g) ↔
        b.key = (version, g) := fun b => by simp [BuildRow.key]
    simp only [hpick, flatMap_pick hnodup]
    simp [Entry.copies]

theorem rows_filter (hd : e.document = some d) :
    (e.rows.filter fun n => n.scopeKey = e.scopeKey v g) =
      if e.copies d v g then (e.world.store.rowsOf v g).map (e.node d) else [] := by
  have hkey : ∀ c : ChunkRow, (e.node d c).scopeKey = e.scopeKey v g ↔
      c.versionId = v ∧ c.generation = g := fun c => by simp [Entry.node, Entry.scopeKey]
  simp only [Entry.rows, hd, List.filter_map, Function.comp_def, hkey]
  rw [copied_filter]
  split <;> rfl

theorem key_of_rows {n : Node} (h : n ∈ e.rows) :
    n.scopeKey.tenantId = e.key.tenantId ∧ n.scopeKey.documentId = e.key.id := by
  unfold Entry.rows at h
  split at h
  · cases h
  · obtain ⟨c, -, rfl⟩ := List.mem_map.1 h
    exact ⟨rfl, rfl⟩

/-- The rows under a key are rows of its document. -/
theorem database_filter (he : e ∈ db.entries) :
    (db.rows.filter fun n => n.scopeKey = e.scopeKey v g) =
      e.rows.filter fun n => n.scopeKey = e.scopeKey v g := by
  have hpick : ∀ e' ∈ db.entries, (e'.rows.filter fun n => n.scopeKey = e.scopeKey v g) =
      if e'.key = e.key then e.rows.filter fun n => n.scopeKey = e.scopeKey v g else [] := by
    intro e' he'
    by_cases hkey : e'.key = e.key
    · rw [if_pos hkey, List.inj_on_of_nodup_map db.distinct he' he hkey]
    · rw [if_neg hkey, List.filter_eq_nil_iff]
      intro n hn hscope
      obtain ⟨htenant, hid⟩ := key_of_rows hn
      rw [decide_eq_true_eq] at hscope
      rw [hscope] at htenant hid
      exact hkey (DocumentKey.ext htenant.symm hid.symm)
  rw [Database.rows, List.filter_flatMap, List.flatMap_congr hpick, flatMap_pick db.distinct,
    if_pos (List.mem_map_of_mem he)]

theorem mem_manifest {rows : List Node} :
    k ∈ (snapshotOf rows).manifest ↔ (rows.filter fun n => n.scopeKey = k) ≠ [] := by
  simp [snapshotOf, List.filter_eq_nil_iff]

/-- A document that serves no version, and no row without one. -/
def Entry.blank (e : Entry) (d : DocumentRow) : Prop :=
  d.activeVersionId = none ∧ e.world.store.rowsOf none d.activeGeneration = []

/-- What is served is copied, and a version that is served has rows. -/
theorem served_copied (hd : e.document = some d) (harch : d.archivedAt = none) :
    e.copies d d.activeVersionId d.activeGeneration ∧ (e.served d = [] ↔ e.blank d) := by
  let _ := e.deployment
  have hlive := not_purged (System.reachable_of_only e.reachable) hd harch
  have hc := reachable_complete e.reachable
  unfold Entry.served Entry.blank
  cases hv : d.activeVersionId with
  | none => exact ⟨⟨hv, rfl⟩, by simp⟩
  | some version =>
    obtain ⟨b, hb, hactive⟩ := hc.pointer hlive version (by rw [active_row hd]; exact hv)
    rw [active_row hd, hv] at hactive
    simp only [Prod.mk.injEq, Option.some.injEq] at hactive
    obtain ⟨hbv, hbg, -⟩ := hactive
    have hwhole := hc.whole hlive b hb
    have hrows : e.world.store.rowsOf (some version) d.activeGeneration =
        e.world.store.build b.versionId b.generation := by rw [hbv, hbg]; rfl
    refine ⟨List.mem_map.2 ⟨b, hb, by rw [BuildRow.key, hbv, hbg]⟩, ?_⟩
    have hne : e.world.store.build b.versionId b.generation ≠ [] := by
      intro hnil
      have hcount := hwhole.count
      have hsome := hwhole.nonempty
      rw [hnil, List.length_nil] at hcount
      omega
    simp [hrows, hne]

/-- The manifest of the moment lacks the keys of blank documents. -/
theorem manifest_iff (he : e ∈ db.entries) (hd : e.document = some d) (harch : d.archivedAt = none) :
    e.activeKey d ∈ (snapshotOf db.rows).manifest ↔ ¬ e.blank d := by
  obtain ⟨hcopied, hblank⟩ := served_copied hd harch
  rw [mem_manifest, Entry.activeKey, database_filter he, rows_filter hd, if_pos hcopied, ne_eq,
    List.map_eq_nil_iff]
  exact not_congr hblank

theorem mem_scopeKeys {ids : List Uuid} : k ∈ lockRetrievalScopeKeys caller ids db ↔
    ∃ e ∈ db.entries, ∃ d, e.document = some d ∧ caller.active e ∧ e.key.id ∈ ids ∧
      e.activeKey d = k := by
  simp only [lockRetrievalScopeKeys, List.mem_filterMap]
  refine exists_congr fun e => and_congr_right fun _ => ?_
  cases hd : e.document with
  | none => simp
  | some d => simp [and_assoc]

theorem Caller.active.unarchived (h : caller.active e) (hd : e.document = some d) :
    d.archivedAt = none := by
  obtain ⟨-, d', hd', harch⟩ := h
  obtain rfl : d = d' := Option.some.inj (hd.symm.trans hd')
  exact harch

/-- Why a question is refused as stale right after a build. -/
theorem stale_iff : lifecycleScopeKeys labels caller (some (snapshotOf db.rows)) r db =
      .error snapshotStale ↔
    caller.service = false ∧ ∃ resolved, resolveScope labels caller r db = .ok resolved ∧
      ∃ k ∈ lockRetrievalScopeKeys caller resolved db, k ∉ (snapshotOf db.rows).manifest := by
  have hservice : Refusal.runtimeError "servis baglami kullanici retrieval kapsami olamaz" ≠
      snapshotStale := by decide +kernel
  have hresolve : resolveScope labels caller r db ≠ .error snapshotStale := by
    unfold resolveScope
    split
    · simp
    · split
      · simp
      · simp [resolveDocumentScope, bind_error, Guard.require_error, demand_error, scopeInvalid,
          snapshotStale, pure, Except.pure]
  simp only [lifecycleScopeKeys, bind_error, Guard.require_error, require_ok, exists_unit, hservice,
    and_false, false_or, hresolve]
  refine and_congr_right fun _ => exists_congr fun resolved => and_congr_right fun _ => ?_
  split
  · rename_i hnil
    simp [hnil, pure, Except.pure]
  · simp [bind_error, coveredBy, demand_some, Guard.require_error, pure, Except.pure]

/-- Right after a build no question is refused as stale, unless a document in its
scope serves no version and has no row of its own. -/
theorem fresh_covers_iff : lifecycleScopeKeys labels caller (some (snapshotOf db.rows)) r db ≠
      .error snapshotStale ↔
    ∀ resolved, caller.service = false → resolveScope labels caller r db = .ok resolved →
      ∀ e ∈ db.entries, ∀ d, e.document = some d → caller.active e → e.key.id ∈ resolved →
        ¬ e.blank d := by
  rw [ne_eq, stale_iff]
  constructor
  · intro h resolved hservice hresolved e he d hd hactive hid hblank
    have hkey := mem_scopeKeys.2 ⟨e, he, d, hd, hactive, hid, rfl⟩
    refine h ⟨hservice, resolved, hresolved, e.activeKey d, hkey, fun hmem => ?_⟩
    exact (manifest_iff he hd (hactive.unarchived hd)).1 hmem hblank
  · rintro h ⟨hservice, resolved, hresolved, k, hk, hmissing⟩
    obtain ⟨e, he, d, hd, hactive, hid, rfl⟩ := mem_scopeKeys.1 hk
    have hblank := h resolved hservice hresolved e he d hd hactive hid
    exact hmissing ((manifest_iff he hd (hactive.unarchived hd)).2 hblank)

section
attribute [local instance] sampleDeployment

/-- A document that was uploaded and never ingested. -/
def uploaded : World :=
  (Action.exec World.empty (.stage "b.pdf" "pdf" (some digestA) false true 2 0)).getD World.empty

theorem uploaded_reachable : orderlySystem.Reachable uploaded :=
  reachable_plain (l := [.stage "b.pdf" "pdf" (some digestA) false true 2 0]) rfl

/-- An ingested document and an uploaded one, of one tenant. -/
def twoDocuments : Database where
  entries := [⟨⟨1, 1⟩, sampleDeployment, promotedWorld, promotedWorld_reachable⟩,
    ⟨⟨1, 2⟩, sampleDeployment, uploaded, uploaded_reachable⟩]
  distinct := by decide

/-- The upload makes every unscoped question of its tenant fail, however fresh
the snapshot is; a question about the other document alone is answered. -/
theorem upload_blocks :
    lifecycleScopeKeys ⟨fun _ => [], fun _ => [], some⟩ ⟨false, fun _ => true⟩
      (some (snapshotOf twoDocuments.rows)) ⟨none, none, none⟩ twoDocuments =
      .error snapshotStale ∧
    lifecycleScopeKeys ⟨fun _ => [], fun _ => [], some⟩ ⟨false, fun _ => true⟩
      (some (snapshotOf twoDocuments.rows)) ⟨some [1], none, none⟩ twoDocuments =
      .ok ⟨[⟨1, 1, some 1, 1⟩], [1], "explicit_documents"⟩ := ⟨rfl, rfl⟩

end

end RagPipeline.Retrieval
