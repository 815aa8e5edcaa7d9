import RagPipeline.Index.Catalogue
import RagPipeline.Lib.Keyset

/-! # The tables of an inventory

Every document of the database with its own transactions, its labels beside it,
and the governance events. No write changes when a document was uploaded, and
none changes or removes a version or an event. -/

set_option autoImplicit false

namespace RagPipeline.Inventory
open Guard Table Transition Index

/-- A row of `documents` and everything that names it. -/
structure Entry where
  id : Uuid
  tenantId : Uuid
  uploadedAt : Time
  deployment : Deployment
  world : World

/-- A row of `collections` or of `tags`. -/
structure LabelRow where
  id : Uuid
  tenantId : Uuid
  name : String
  nameKey : String
deriving DecidableEq, Repr

/-- A row of `collection_documents` or of `document_tags`. -/
structure MembershipRow where
  tenantId : Uuid
  labelId : Uuid
  documentId : Uuid
deriving DecidableEq, Repr

structure AuditEventRow where
  id : Uuid
  tenantId : Uuid
  actorId : Uuid
  subjectId : Option Uuid
  action : String
  reasonCode : String
  decision : String
  requestId : String
  createdAt : Time
deriving DecidableEq, Repr

structure Tables where
  documents : List Entry
  collections : List LabelRow
  tags : List LabelRow
  collectionDocuments : List MembershipRow
  documentTags : List MembershipRow
  auditEvents : List AuditEventRow

/-- What a connection has set: its tenant, and whether it is a service. -/
structure Session where
  tenantId : Uuid
  service : Bool
deriving DecidableEq, Repr

/-- The policy of every table. -/
def Session.sees (c : Session) (tenantId : Uuid) : Bool := c.service || tenantId == c.tenantId

namespace Entry

def document (e : Entry) : Option DocumentRow := e.world.store.document

def versions (e : Entry) : List VersionRow := e.world.store.versions

/-- What is unique among the rows that are there. -/
def name (e : Entry) : Option (Uuid × String) := e.document.map fun d => (e.tenantId, d.filename)

end Entry

def LabelRow.key (l : LabelRow) : Uuid × String := (l.tenantId, l.nameKey)

def MembershipRow.key (m : MembershipRow) : Uuid × Uuid := (m.labelId, m.documentId)

namespace Tables

/-- The primary keys and the unique constraints. -/
structure Constrained (t : Tables) : Prop where
  documentIds : (t.documents.map Entry.id).Nodup
  filenames : (t.documents.filterMap Entry.name).Nodup
  versionIds : ∀ e ∈ t.documents, (e.versions.map VersionRow.id).Nodup
  versionNumbers : ∀ e ∈ t.documents, (e.versions.map VersionRow.versionNumber).Nodup
  collectionNames : (t.collections.map LabelRow.key).Nodup
  tagNames : (t.tags.map LabelRow.key).Nodup
  collectionMembers : (t.collectionDocuments.map MembershipRow.key).Nodup
  tagMembers : (t.documentTags.map MembershipRow.key).Nodup
  eventIds : (t.auditEvents.map AuditEventRow.id).Nodup

/-- The document of an id, where the session sees it. -/
def visible (t : Tables) (c : Session) (id : Uuid) : Option Entry :=
  t.documents.find? fun e => e.id = id ∧ c.sees e.tenantId = true

def withWorld (t : Tables) (id : Uuid) (w : World) : Tables :=
  { t with documents := updateWhere (fun e => e.id = id) (fun e => { e with world := w }) t.documents }

/-- A purge takes the labels of a document with it. -/
def withoutLabels (t : Tables) (id : Uuid) : Tables :=
  { t with
    collectionDocuments := deleteWhere (fun m => m.documentId = id) t.collectionDocuments
    documentTags := deleteWhere (fun m => m.documentId = id) t.documentTags }

/-- One transaction of one document. -/
def transact (c : Session) (id : Uuid) (a : Action) (t : Tables) : Option Tables := do
  let e ← t.visible c id
  let w ← @Action.exec e.deployment e.world a
  match a with
  | .purge _ _ _ => return (t.withWorld id w).withoutLabels id
  | _ => return t.withWorld id w

/-- An upload: into the row that has the name, or into a new one. -/
def upload (c : Session) (id : Uuid) (uploadedAt : Time) (deployment : Deployment)
    (filename fileType : String) (sha : Option String) (allowReplace fresh : Bool)
    (candidate : Uuid) (now : Time) (t : Tables) : Option Tables :=
  let a : Action := .stage filename fileType sha allowReplace fresh candidate now
  match t.documents.find? fun e => e.name = some (c.tenantId, filename) with
  | some e => t.transact c e.id a
  | none => do
    let w ← @Action.exec deployment World.empty a
    return { t with documents := t.documents ++ [⟨id, c.tenantId, uploadedAt, deployment, w⟩] }

/-- A row that is stamped where the run still is the one it was. -/
def stamped (status : String) (note : Option String) (expectedActive : Option ℕ)
    (candidateId : Option Uuid) (d : DocumentRow) : DocumentRow :=
  if (∀ g ∈ expectedActive, d.activeGeneration = g) ∧
      (∀ candidate ∈ candidateId, d.candidateId = some candidate) then
    { d with status := status, statusNote := note }
  else d

def setDocumentStatus (c : Session) (id : Uuid) (status : String) (note : Option String)
    (expectedActive : Option ℕ) (candidateId : Option Uuid) (t : Tables) : Option Tables := do
  let e ← t.visible c id
  return t.withWorld id (e.world.withStore { e.world.store with
    document := e.document.map (stamped status note expectedActive candidateId) })

/-- A label under its key, the one that is there or a new one. -/
def labelled (labels : List LabelRow) (new : LabelRow) : List LabelRow × LabelRow :=
  match labels.find? fun l => l.key = new.key with
  | some l => (labels, l)
  | none => (labels ++ [new], new)

def createCollection (c : Session) (id : Uuid) (display nameKey : String) (t : Tables) : Tables :=
  { t with collections := (labelled t.collections ⟨id, c.tenantId, display, nameKey⟩).1 }

/-- The memberships go with the label. -/
def deleteTag (c : Session) (id : Uuid) (t : Tables) : Tables :=
  if t.tags.any fun l => l.id = id ∧ c.sees l.tenantId = true then
    { t with
      tags := deleteWhere (fun l => l.id = id) t.tags
      documentTags := deleteWhere (fun m => m.labelId = id) t.documentTags }
  else t

def deleteCollection (c : Session) (id : Uuid) (t : Tables) : Tables :=
  if t.collections.any fun l => l.id = id ∧ c.sees l.tenantId = true then
    { t with
      collections := deleteWhere (fun l => l.id = id) t.collections
      collectionDocuments := deleteWhere (fun m => m.labelId = id) t.collectionDocuments }
  else t

def setCollectionDocument (c : Session) (collectionId documentId : Uuid) (present : Bool)
    (t : Tables) : Option Tables := do
  let _ ← t.collections.find? fun l => l.id = collectionId ∧ c.sees l.tenantId = true
  let _ ← t.visible c documentId
  if present then
    let row : MembershipRow := ⟨c.tenantId, collectionId, documentId⟩
    return { t with
      collectionDocuments := insertNew MembershipRow.key t.collectionDocuments row }
  else
    return { t with
      collectionDocuments := deleteWhere
        (fun m => m.labelId = collectionId ∧ m.documentId = documentId ∧ c.sees m.tenantId = true)
        t.collectionDocuments }

/-- The labels by their keys: the new id, the key and the spelling of each. -/
def replaceDocumentTags (c : Session) (documentId : Uuid) (canonical : List (Uuid × String × String))
    (t : Tables) : Option Tables := do
  let _ ← t.visible c documentId
  let (tags, ids) := canonical.foldl (fun (tags, ids) (id, nameKey, display) =>
    let (tags, l) := labelled tags ⟨id, c.tenantId, display, nameKey⟩
    (tags, ids ++ [l.id])) (t.tags, [])
  return { t with
    tags := tags
    documentTags := deleteWhere (fun m => m.documentId = documentId ∧ c.sees m.tenantId = true)
      t.documentTags ++ ids.map fun id => ⟨c.tenantId, id, documentId⟩ }

end Tables

inductive Write where
  | upload (c : Session) (id : Uuid) (uploadedAt : Time) (deployment : Deployment)
      (filename fileType : String) (sha : Option String) (allowReplace fresh : Bool)
      (candidate : Uuid) (now : Time)
  | transact (c : Session) (id : Uuid) (a : Action)
  | setDocumentStatus (c : Session) (id : Uuid) (status : String) (note : Option String)
      (expectedActive : Option ℕ) (candidateId : Option Uuid)
  | createCollection (c : Session) (id : Uuid) (display nameKey : String)
  | deleteTag (c : Session) (id : Uuid)
  | deleteCollection (c : Session) (id : Uuid)
  | setCollectionDocument (c : Session) (collectionId documentId : Uuid) (present : Bool)
  | replaceDocumentTags (c : Session) (documentId : Uuid) (canonical : List (Uuid × String × String))
  | recordEvent (e : AuditEventRow)

namespace Write

def perform : Write → Tables → Option Tables
  | .upload c id uploadedAt deployment filename fileType sha allowReplace fresh candidate now, t =>
    t.upload c id uploadedAt deployment filename fileType sha allowReplace fresh candidate now
  | .transact c id a, t => t.transact c id a
  | .setDocumentStatus c id status note expectedActive candidateId, t =>
    t.setDocumentStatus c id status note expectedActive candidateId
  | .createCollection c id display nameKey, t => some (t.createCollection c id display nameKey)
  | .deleteTag c id, t => some (t.deleteTag c id)
  | .deleteCollection c id, t => some (t.deleteCollection c id)
  | .setCollectionDocument c collectionId documentId present, t =>
    t.setCollectionDocument c collectionId documentId present
  | .replaceDocumentTags c documentId canonical, t => t.replaceDocumentTags c documentId canonical
  | .recordEvent e, t => some { t with auditEvents := t.auditEvents ++ [e] }

end Write

/-- A transaction commits where the constraints hold of what it leaves. -/
def inventorySystem : System Tables Write where
  initial t := t.Constrained
  step t w t' := w.perform t = some t' ∧ t'.Constrained

/-! ## What stays -/

/-- The documents are still there under the times they were uploaded at, their versions
with them, and so are the events. -/
structure Persists (t t' : Tables) : Prop where
  documents : ∀ e ∈ t.documents, ∃ e' ∈ t'.documents, e'.id = e.id ∧ e'.tenantId = e.tenantId ∧
    e'.uploadedAt = e.uploadedAt ∧ e.versions ⊆ e'.versions
  events : t.auditEvents ⊆ t'.auditEvents

namespace Persists

variable {t t' t'' : Tables}

theorem refl (t : Tables) : Persists t t :=
  ⟨fun e he => ⟨e, he, rfl, rfl, rfl, List.Subset.refl _⟩, List.Subset.refl _⟩

theorem trans (h : Persists t t') (h' : Persists t' t'') : Persists t t'' := by
  refine ⟨?_, List.Subset.trans h.events h'.events⟩
  intro e he
  obtain ⟨e', he', hid, htenant, htime, hversions⟩ := h.documents e he
  obtain ⟨e'', he'', hid', htenant', htime', hversions'⟩ := h'.documents e' he'
  exact ⟨e'', he'', hid'.trans hid, htenant'.trans htenant, htime'.trans htime,
    List.Subset.trans hversions hversions'⟩

theorem of_same (hdocuments : t'.documents = t.documents) (hevents : t'.auditEvents = t.auditEvents) :
    Persists t t' := by
  constructor
  · rw [hdocuments]
    exact (refl t).documents
  · rw [hevents]
    exact List.Subset.refl _

/-- One document goes on, with the versions it had. -/
theorem withWorld (hids : (t.documents.map Entry.id).Nodup) {e : Entry} (he : e ∈ t.documents)
    {w : World} (hw : e.versions ⊆ w.store.versions) : Persists t (t.withWorld e.id w) := by
  refine ⟨?_, List.Subset.refl _⟩
  intro f hf
  by_cases hid : f.id = e.id
  · obtain rfl := List.inj_on_of_nodup_map hids hf he hid
    have hmem : { f with world := w } ∈ (t.withWorld f.id w).documents :=
      mem_updateWhere.2 (.inl ⟨f, hf, rfl, rfl⟩)
    exact ⟨_, hmem, rfl, rfl, rfl, hw⟩
  · exact ⟨f, mem_updateWhere.2 (.inr ⟨hf, hid⟩), rfl, rfl, rfl, List.Subset.refl _⟩

end Persists

section
variable {t t' : Tables} {c : Session} {id : Uuid}

end

end RagPipeline.Inventory
