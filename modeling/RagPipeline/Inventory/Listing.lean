import RagPipeline.Inventory.Store
import RagPipeline.Lib.Conditions
import RagPipeline.Lib.Text
import Mathlib.Data.Prod.Lex
import Mathlib.Order.Lex

/-! # Searching file names

The pattern of `list_documents` for a text that is searched for, and what it
matches. -/

set_option autoImplicit false

namespace RagPipeline.Inventory
open Like

/-- `str.replace` of one character. -/
def replaceChar (c : Char) (by' : List Char) (text : List Char) : List Char :=
  text.flatMap fun d => if d = c then by' else [d]

def documentSearchEscape : Char := '!'

/-- The escape character first, then the two that mean something to `LIKE`. -/
def escapeLikePattern (value : List Char) : List Char :=
  replaceChar '_' [documentSearchEscape, '_']
    (replaceChar '%' [documentSearchEscape, '%']
      (replaceChar documentSearchEscape [documentSearchEscape, documentSearchEscape] value))

/-- What is bound as the parameter of the search clause. -/
def filenameSearch (q : List Char) : List Char := '%' :: (escapeLikePattern q ++ ['%'])

theorem replaceChar_cons (c : Char) (by' : List Char) (d : Char) (text : List Char) :
    replaceChar c by' (d :: text) = (if d = c then by' else [d]) ++ replaceChar c by' text :=
  List.flatMap_cons

/-- The three replacements, one character at a time: what one of them puts in is left
alone by those behind it. -/
theorem escapeLikePattern_eq (q : List Char) :
    escapeLikePattern q = q.flatMap (quoteChar documentSearchEscape) := by
  induction q with
  | nil => rfl
  | cons c q ih =>
    rw [List.flatMap_cons, ← ih, escapeLikePattern, escapeLikePattern, replaceChar_cons]
    by_cases hescape : c = documentSearchEscape
    · rw [if_pos hescape, quoteChar, if_pos (.inl hescape), hescape]
      rfl
    · rw [if_neg hescape, List.singleton_append, replaceChar_cons]
      by_cases hrun : c = '%'
      · rw [if_pos hrun, quoteChar, if_pos (.inr (.inl hrun)), hrun]
        rfl
      · rw [if_neg hrun, List.singleton_append, replaceChar_cons]
        by_cases hone : c = '_'
        · rw [if_pos hone, quoteChar, if_pos (.inr (.inr hone)), hone]
        · rw [if_neg hone, quoteChar, if_neg (by simp [hescape, hrun, hone])]

theorem parts_filenameSearch (q : List Char) :
    parts documentSearchEscape (filenameSearch q) =
      some (.anyRun :: (q.map .literal ++ [.anyRun])) := by
  rw [filenameSearch, escapeLikePattern_eq, parts_bare (by decide), parts_quoted]
  rfl

/-- The pattern is well formed, and it matches the names in which the text occurs. -/
theorem search_literal (q f : List Char) :
    ∃ found, like documentSearchEscape (filenameSearch q) f = some found ∧
      (found = true ↔ q <:+: f) := by
  rw [like, parts_filenameSearch]
  exact ⟨_, rfl, accepts_between⟩

example : like documentSearchEscape (filenameSearch "%_!".toList) "a%_!b".toList = some true := by
  decide

end RagPipeline.Inventory

/-! # Reading the tables in pages

The three lists, each asked for one row more than a page has, and the endpoints
that cut the page and its cursor from what they get. -/

namespace RagPipeline.Inventory
open Guard Index Like

/-- `str.casefold`, and what `ILIKE` compares. -/
class Locale where
  casefold : String → String
  fold : List Char → List Char

abbrev Position := ℤ ×ₗ ℕ

/-- What both times and an id are compared by. -/
def position (at' : Time) (id : Uuid) : Position := toLex (at', id)

structure Filters where
  status : Option String
  fileType : Option String
  uploadedAfter : Option Time
  uploadedBefore : Option Time
  q : Option String
  archived : Bool
  collectionId : Option Uuid
  tag : Option String
  tenantId : Option Uuid
deriving DecidableEq, Repr

structure ListedDocument where
  documentId : Uuid
  filename : String
  fileType : String
  uploadedAt : Time
  status : String
  statusNote : Option String
  activeGeneration : ℕ
  archivedAt : Option Time
deriving DecidableEq, Repr

def ListedDocument.position (r : ListedDocument) : Position :=
  Inventory.position r.uploadedAt r.documentId

def Entry.listed (e : Entry) (d : DocumentRow) : ListedDocument where
  documentId := e.id
  filename := d.filename
  fileType := d.fileType
  uploadedAt := e.uploadedAt
  status := d.status
  statusNote := d.statusNote
  activeGeneration := d.activeGeneration
  archivedAt := d.archivedAt

section
variable [Locale]

/-- `_canonical_label`: the spelling and the key. -/
def canonicalLabel (value field : String) : Except String (String × String) := do
  let display := Text.strip value
  require (display ≠ "") (field ++ " bos olmayan bir metin olmali")
  require (display.toList.any Text.isControl = false) (field ++ " kontrol karakteri iceremez")
  return (display, Locale.casefold display)

/-- The clauses but the one of the cursor, and the policies of the tables they read. -/
def Filters.holds (f : Filters) (c : Session) (tagKey : Option String) (t : Tables) (e : Entry)
    (d : DocumentRow) : Prop :=
  c.sees e.tenantId = true ∧
  (if f.archived then d.archivedAt ≠ none else d.archivedAt = none) ∧
  (∀ status ∈ f.status, d.status = status) ∧
  (∀ fileType ∈ f.fileType, d.fileType = fileType) ∧
  (∀ after ∈ f.uploadedAfter, after < e.uploadedAt) ∧
  (∀ before ∈ f.uploadedBefore, e.uploadedAt < before) ∧
  (∀ q ∈ f.q, like documentSearchEscape (Locale.fold (filenameSearch q.toList))
    (Locale.fold d.filename.toList) = some true) ∧
  (∀ id ∈ f.collectionId, ∃ m ∈ t.collectionDocuments, c.sees m.tenantId = true ∧
    m.documentId = e.id ∧ m.labelId = id) ∧
  (∀ key ∈ tagKey, ∃ m ∈ t.documentTags, c.sees m.tenantId = true ∧ m.documentId = e.id ∧
    ∃ l ∈ t.tags, c.sees l.tenantId = true ∧ l.id = m.labelId ∧ l.nameKey = key) ∧
  e.tenantId = f.tenantId.getD c.tenantId

instance (f : Filters) (c : Session) (tagKey : Option String) (t : Tables) (e : Entry)
    (d : DocumentRow) : Decidable (f.holds c tagKey t e d) :=
  inferInstanceAs (Decidable (_ ∧ _))

def Filters.tagKey (f : Filters) : Except String (Option String) :=
  match f.tag with
  | none => .ok none
  | some tag => (canonicalLabel tag "tag").map fun r => some r.2

/-- What is asked of the values before any statement is built. -/
def Filters.check (f : Filters) : Except String (Option String) := do
  require (f.status ≠ some "") "status bos olmayan bir metin olmali"
  require (f.fileType ≠ some "") "file_type bos olmayan bir metin olmali"
  require (f.q ≠ some "") "q bos olmayan bir metin olmali"
  let tagKey ← f.tagKey
  require (∀ after ∈ f.uploadedAfter, ∀ before ∈ f.uploadedBefore, after < before)
    "uploaded_after, uploaded_before'dan kesin olarak once olmali"
  return tagKey

/-- The rows that the filters let through. -/
def Filters.rows (f : Filters) (c : Session) (tagKey : Option String) (t : Tables) :
    List ListedDocument :=
  t.documents.filterMap fun e =>
    match e.document with
    | none => none
    | some d => if f.holds c tagKey t e d then some (e.listed d) else none

end

/-! ## Versions -/

structure AuditFilters where
  actions : Option (List String)
  decisions : Option (List String)
  reasons : Option (List String)
deriving DecidableEq, Repr

/-- A filter that is absent or empty lets everything through. -/
def oneOf (filter : Option (List String)) (value : String) : Bool :=
  filter.all fun l => l.isEmpty || l.contains value

def AuditEventRow.position (e : AuditEventRow) : Position := Inventory.position e.createdAt e.id

def AuditFilters.holds (f : AuditFilters) (c : Session) (e : AuditEventRow) : Bool :=
  c.sees e.tenantId && e.tenantId == c.tenantId && oneOf f.actions e.action &&
    oneOf f.decisions e.decision && oneOf f.reasons e.reasonCode

structure HttpError where
  status : ℕ
  detail : String
deriving DecidableEq, Repr

/-- What is refused before the handler, where the bounds of the parameters are declared. -/
def undeclared : HttpError := ⟨422, "query"⟩

structure PageWindow (ρ γ : Type) where
  items : List ρ
  hasMore : Bool
  nextCursor : Option γ
deriving DecidableEq, Repr

/-- The query of `GET /documents`. -/
structure DocumentQuery where
  limit : ℤ
  offset : ℤ
  status : Option String
  fileType : Option String
  uploadedAfter : Option Time
  uploadedBefore : Option Time
  q : Option String
  archived : Bool
  collectionId : Option Uuid
  tag : Option String
  beforeUploadedAt : Option Time
  beforeId : Option Uuid
deriving DecidableEq, Repr

/-- The bounds that are declared on the parameters. -/
def DocumentQuery.declared (r : DocumentQuery) : Prop :=
  1 ≤ r.limit ∧ r.limit ≤ 100 ∧ 0 ≤ r.offset ∧ r.status ≠ some "" ∧ r.fileType ≠ some "" ∧
    r.q ≠ some "" ∧ r.tag ≠ some ""

instance (r : DocumentQuery) : Decidable r.declared := inferInstanceAs (Decidable (_ ∧ _))

def DocumentQuery.filters (r : DocumentQuery) (tenantId : Uuid) : Filters where
  status := r.status
  fileType := r.fileType
  uploadedAfter := r.uploadedAfter
  uploadedBefore := r.uploadedBefore
  q := r.q
  archived := r.archived
  collectionId := r.collectionId
  tag := r.tag
  tenantId := some tenantId

structure DocumentCursor where
  beforeUploadedAt : Time
  beforeId : Uuid
deriving DecidableEq, Repr

structure AuditCursor where
  beforeCreatedAt : Time
  beforeId : Uuid
deriving DecidableEq, Repr

structure AuditQuery where
  limit : ℤ
  filters : AuditFilters
  beforeCreatedAt : Option Time
  beforeId : Option Uuid
deriving DecidableEq, Repr

end RagPipeline.Inventory
