import RagPipeline.Inventory.Listing

/-! # Pages over changing tables

A client follows the cursors until there are no more. Between two pages anything
may be written; what each page says of its own moment is a read of the library,
and the keys of the rows stay what they are. -/

set_option autoImplicit false

namespace RagPipeline.Inventory
open Guard Transition Index Keyset

section
variable {ρ γ κ ι : Type} [LinearOrder κ]

/-- The pages one after the other, the tables that each of them was read from, and the rows
that came. -/
inductive Follows (page : Option γ → Tables → Except HttpError (PageWindow ρ γ)) :
    Option γ → List Tables → List ρ → Prop where
  | last {before : Option γ} {t : Tables} {w : PageWindow ρ γ} : page before t = .ok w →
      w.hasMore = false → Follows page before [t] w.items
  | next {before : Option γ} {t t' : Tables} {ts : List Tables} {w : PageWindow ρ γ} {c : γ}
      {out : List ρ} : page before t = .ok w → w.hasMore = true → w.nextCursor = some c →
      inventorySystem.Later t t' → Follows page (some c) (t' :: ts) out →
      Follows page before (t :: t' :: ts) (w.items ++ out)

/-- What a page is, of the tables as it finds them. -/
def Paged (page : Option γ → Tables → Except HttpError (PageWindow ρ γ)) (rows : Tables → List ρ)
    (key : ρ → κ) (place : γ → κ) (limit : ℕ) : Prop :=
  ∀ before t w, t.Constrained → page before t = .ok w →
    Read key limit (before.map place) (rows t) w.items w.hasMore ∧
    ∀ c ∈ w.nextCursor, ∃ r, w.items.getLast? = some r ∧ place c = key r

variable {page : Option γ → Tables → Except HttpError (PageWindow ρ γ)} {rows : Tables → List ρ}
  {key : ρ → κ} {place : γ → κ} {limit : ℕ} {before : Option γ} {t : Tables} {ts : List Tables}
  {out : List ρ}

end

section
variable {ρ γ κ : Type} [LinearOrder κ]

end

/-- The query that goes on after a cursor. -/
def DocumentQuery.after (r : DocumentQuery) (before : Option DocumentCursor) : DocumentQuery :=
  { r with
    beforeUploadedAt := before.map DocumentCursor.beforeUploadedAt
    beforeId := before.map DocumentCursor.beforeId }

def DocumentCursor.place (c : DocumentCursor) : Position := position c.beforeUploadedAt c.beforeId

section
variable [Locale] {c : Session} {f : Filters} {t t' : Tables} {key : Option String}

/-- The rows a walk with these filters is about. -/
def Filters.admitted (f : Filters) (c : Session) (t : Tables) : List ListedDocument :=
  match f.tagKey with
  | .ok key => f.rows c key t
  | .error _ => []

theorem rows_ids : ((f.rows c key t).map ListedDocument.documentId).Sublist
    (t.documents.map Entry.id) := by
  rw [Filters.rows, List.map_filterMap]
  induction t.documents with
  | nil => exact List.Sublist.slnil
  | cons e rest ih =>
    rw [List.filterMap_cons, List.map_cons]
    split
    · exact ih.cons _
    case h_2 id h =>
      have hid : id = e.id := by
        cases hd : e.document with
        | none => simp [hd] at h
        | some d =>
          by_cases hholds : f.holds c key t e d
          · simpa [hd, hholds, Entry.listed] using h.symm
          · simp [hd, hholds] at h
      rw [hid]
      exact ih.cons_cons _

end

/-! ## Versions -/

section
variable {c : Session} {t t' : Tables} {id : Uuid}

end

/-! ## Governance events -/

/-- The query that goes on after a cursor. -/
def AuditQuery.after (r : AuditQuery) (before : Option AuditCursor) : AuditQuery :=
  { r with
    beforeCreatedAt := before.map AuditCursor.beforeCreatedAt
    beforeId := before.map AuditCursor.beforeId }

def AuditCursor.place (c : AuditCursor) : Position := position c.beforeCreatedAt c.beforeId

section
variable {c : Session} {t t' : Tables} {f : AuditFilters}

end

/-! ## Whole walks -/

/-- The document has a version, and a session sees it. -/
def hasVersion (c : Session) (documentId : Uuid) (t : Tables) (version : Uuid) : Prop :=
  ∃ e ∈ t.documents, (e.id = documentId ∧ c.sees e.tenantId = true) ∧ e.document ≠ none ∧
    ∃ v ∈ e.versions, v.id = version

end RagPipeline.Inventory
