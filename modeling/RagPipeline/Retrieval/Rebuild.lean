import RagPipeline.Retrieval.Fresh

/-! # Builds beside each other

Every build drops and fills one shadow table under one name; the swap puts it in
the place of the live one together with the manifest of the rows that were read.
A build may end at any statement and leaves its shadow behind. -/

set_option autoImplicit false

namespace RagPipeline.Retrieval
open Guard Transition Index

inductive Phase where
  | begun
  | dropped
  | filling
  | counted
  | over
deriving DecidableEq, Repr

structure Build where
  phase : Phase
  docs : List Node
  /-- How many of them the vector store has taken. -/
  sent : ℕ
deriving DecidableEq, Repr

structure Site where
  db : Database
  /-- The shadow table, each row with the build it came from. -/
  shadow : Option (List (ℕ × Node))
  live : Option Snapshot
  builds : List Build

inductive Op where
  | drop
  | read
  | insert
  | count
  | swap
  | die
deriving DecidableEq, Repr

inductive Label where
  | document (i : ℕ) (a : Action)
  | start
  | build (i : ℕ) (op : Op)

/-- The document after one of its own transactions. -/
def Entry.move (e : Entry) {a : Action} {w : World}
    (h : (@orderlySystem e.deployment).step e.world a w) : Entry :=
  ⟨e.key, e.deployment, w, e.reachable.next h⟩

def Database.move (db : Database) (i : ℕ) (e : Entry) (he : db.entries[i]? = some e) {a : Action}
    {w : World} (h : (@orderlySystem e.deployment).step e.world a w) : Database where
  entries := db.entries.set i (e.move h)
  distinct := by
    have hkey : (e.move h).key = e.key := rfl
    obtain ⟨hi, rfl⟩ := List.getElem?_eq_some_iff.1 he
    rw [List.map_set, hkey, ← List.getElem_map Entry.key (h := by simpa using hi),
      List.set_getElem_self]
    exact db.distinct

/-- The statements of `build_index`. The first row makes the table if there is
none; a row that comes later, the count and the swap need it. -/
def Site.perform (s : Site) (i : ℕ) (b : Build) : Op → Option Site
  | .drop =>
    if b.phase = .begun then
      some { s with shadow := none, builds := s.builds.set i { b with phase := .dropped } }
    else none
  | .read =>
    if b.phase = .dropped then
      some { s with builds := s.builds.set i { b with phase := .filling, docs := s.db.rows } }
    else none
  | .insert =>
    if b.phase = .filling ∧ (s.shadow = none → b.sent = 0) then
      b.docs[b.sent]?.map fun n => { s with
        shadow := some (s.shadow.getD [] ++ [(i, n)])
        builds := s.builds.set i { b with sent := b.sent + 1 } }
    else none
  | .count =>
    if b.phase = .filling ∧ b.sent = b.docs.length ∧ s.shadow ≠ none ∧
        (b.docs = [] ∨ s.shadow ≠ some []) then
      some { s with builds := s.builds.set i { b with phase := .counted } }
    else none
  | .swap =>
    if b.phase = .counted then
      s.shadow.map fun rows => { s with
        shadow := none
        live := some ⟨rows.map Prod.snd, (snapshotOf b.docs).manifest⟩
        builds := s.builds.set i { b with phase := .over } }
    else none
  | .die =>
    if b.phase ≠ .over then some { s with builds := s.builds.set i { b with phase := .over } }
    else none

def Site.step (s : Site) : Label → Site → Prop
  | .document i a, s' => ∃ e w, ∃ he : s.db.entries[i]? = some e,
      ∃ h : (@orderlySystem e.deployment).step e.world a w, s' = { s with db := s.db.move i e he h }
  | .start, s' => s' = { s with builds := s.builds ++ [⟨.begun, [], 0⟩] }
  | .build i op, s' => ∃ b, s.builds[i]? = some b ∧ s.perform i b op = some s'

def siteSystem : System Site Label where
  initial s := s.shadow = none ∧ s.live = none ∧ s.builds = []
  step := Site.step

/-- The rows of the shadow table, with the builds they came from. -/
def Site.shadowRows (s : Site) : List (ℕ × Node) := s.shadow.getD []

/-- No build drops what a build that is not over has put into the shadow, and
none fills or swaps a shadow with rows of another. -/
def Site.alone (s : Site) : Label → Prop
  | .build _ .drop => ∀ x ∈ s.shadowRows, ∀ b, s.builds[x.1]? = some b → b.phase = .over
  | .build i .insert => ∀ x ∈ s.shadowRows, x.1 = i
  | .build i .swap => ∀ x ∈ s.shadowRows, x.1 = i
  | _ => True

/-- What a question that is not refused finds. -/
structure Covered (s : Site) (caller : Caller) (a : Authority) : Prop where
  full : ∀ e ∈ s.db.entries, ∀ d, e.document = some d → caller.active e →
    e.key.id ∈ a.resolvedIds → ∃ live, s.live = some live ∧
      ((live.nodes.filter fun n => n.scopeKey = e.activeKey d).map
        fun n => (n.chunkId, n.text)).Perm ((e.served d).map fun c => (c.id, c.text))
  only : ∀ live nodes out, s.live = some live → nodes ⊆ live.nodes →
    asChunks nodes a.scopeKeys = .ok out → ∀ n ∈ out, ∃ e ∈ s.db.entries, ∃ d,
      e.document = some d ∧ caller.active e ∧ e.key.id ∈ a.resolvedIds ∧
      n.scopeKey = e.activeKey d ∧ ∃ c ∈ e.served d, n.chunkId = c.id ∧ n.text = c.text

/-- A document and what its transactions have made of it. -/
structure Follows (e e' : Entry) : Prop where
  key : e'.key = e.key
  deployment : e'.deployment = e.deployment
  later : (@orderlySystem e.deployment).Later e.world e'.world

/-- The database some time before. -/
def Database.past (old db : Database) : Prop := ∀ e' ∈ db.entries, ∃ e ∈ old.entries, Follows e e'

theorem past_refl (db : Database) : db.past db := fun e he => ⟨e, he, rfl, rfl, .refl⟩

section
variable {s s' : Site} {old db : Database} {e e₀ : Entry} {d : DocumentRow} {i : ℕ} {b : Build}
  {op : Op} {l : Label} {labels : Labels} {caller : Caller} {r : Request} {a : Authority}

theorem past_move (h : old.past db) (he : db.entries[i]? = some e) {act : Action} {w : World}
    (hstep : (@orderlySystem e.deployment).step e.world act w) :
    old.past (db.move i e he hstep) := by
  intro e' he'
  rcases List.mem_or_eq_of_mem_set he' with hold | rfl
  · exact h e' hold
  · obtain ⟨e₀, he₀, hkey, hdeployment, hlater⟩ := h e (List.mem_of_getElem? he)
    refine ⟨e₀, he₀, hkey, hdeployment, hlater.tail ⟨act, ?_⟩⟩
    rw [hdeployment] at hstep
    exact hstep

/-- A key of the copy that is the key of a document now stands for the rows the
document has now. -/
theorem copy_holds (h : old.past db) (he : e ∈ db.entries) (hd : e.document = some d)
    (harch : d.archivedAt = none) (hkey : e.activeKey d ∈ (snapshotOf old.rows).manifest) :
    ((old.rows.filter fun n => n.scopeKey = e.activeKey d).map fun n => (n.chunkId, n.text)).Perm
      ((e.served d).map fun c => (c.id, c.text)) := by
  obtain ⟨e₀, he₀, hsame, hdeployment, hlater⟩ := h e he
  have hscope : e.activeKey d = e₀.scopeKey d.activeVersionId d.activeGeneration := by
    rw [Entry.activeKey, Entry.scopeKey, hsame, Entry.scopeKey]
  rw [mem_manifest, hscope, database_filter he₀] at hkey
  rw [hscope, database_filter he₀]
  cases hd₀ : e₀.document with
  | none => simp [Entry.rows, hd₀] at hkey
  | some d₀ =>
    rw [rows_filter hd₀] at hkey ⊢
    split at hkey
    case isFalse => exact absurd rfl hkey
    case isTrue hcopies =>
      rw [if_pos hcopies, List.map_map]
      have hreach : (@orderlySystem e₀.deployment).Reachable e.world := hdeployment ▸ e.reachable
      have hlive := @not_purged e₀.deployment _ (System.reachable_of_only hreach) d hd harch
      have hrows := @rowsOf_later e₀.deployment _ _ e₀.reachable hlater d.activeVersionId
        d.activeGeneration (fun v hv => by rw [hv] at hcopies; exact hcopies) hlive
        (by rw [active_row hd])
      exact (hrows.map _).symm

/-- What a build under way has put into the shadow, and when it read its rows. -/
structure Build.Working (s : Site) (i : ℕ) (b : Build) : Prop where
  read : ∃ old : Database, old.past s.db ∧ b.docs = old.rows
  bound : b.sent ≤ b.docs.length
  done : b.phase = .counted → b.sent = b.docs.length
  shadow : 0 < b.sent → s.shadow = some ((b.docs.take b.sent).map fun n => (i, n))

structure Sound (s : Site) : Prop where
  live : ∀ live, s.live = some live → ∃ old : Database, old.past s.db ∧ live = snapshotOf old.rows
  waiting : ∀ (i : ℕ) (b : Build), s.builds[i]? = some b →
    b.phase = .begun ∨ b.phase = .dropped → b.sent = 0
  working : ∀ (i : ℕ) (b : Build), s.builds[i]? = some b →
    b.phase = .filling ∨ b.phase = .counted → b.Working s i
  owned : ∀ x ∈ s.shadowRows, ∃ b, s.builds[x.1]? = some b ∧ 0 < b.sent

/-- The rows of a shadow that has only rows of one build that has sent none. -/
theorem Sound.no_rows (h : Sound s) (hb : s.builds[i]? = some b) (hsent : b.sent = 0)
    (halone : ∀ x ∈ s.shadowRows, x.1 = i) : s.shadowRows = [] := by
  refine List.eq_nil_iff_forall_not_mem.2 fun x hx => ?_
  obtain ⟨b', hb', hpos⟩ := h.owned x hx
  rw [halone x hx, hb] at hb'
  obtain rfl := Option.some.inj hb'
  omega

theorem Sound.document (h : Sound s) (he : s.db.entries[i]? = some e) {act : Action} {w : World}
    (hstep : (@orderlySystem e.deployment).step e.world act w) :
    Sound { s with db := s.db.move i e he hstep } where
  live live hlive := by
    obtain ⟨old, hold, hsame⟩ := h.live live hlive
    exact ⟨old, past_move hold he hstep, hsame⟩
  waiting := h.waiting
  working j b hb hphase := by
    obtain ⟨⟨old, hold, hdocs⟩, hbound, hdone, hshadow⟩ := h.working j b hb hphase
    exact ⟨⟨old, past_move hold he hstep, hdocs⟩, hbound, hdone, hshadow⟩
  owned := h.owned

/-- One build moves, and the shadow with it unless others have rows there. -/
theorem Sound.change {t : Site} {q : Build} (h : Sound s) (hb : s.builds[i]? = some b)
    (hbuilds : t.builds = s.builds.set i q) (hdb : t.db = s.db)
    (hlive : ∀ live, t.live = some live →
      ∃ old : Database, old.past s.db ∧ live = snapshotOf old.rows)
    (hwaiting : q.phase = .begun ∨ q.phase = .dropped → q.sent = 0)
    (hworking : q.phase = .filling ∨ q.phase = .counted → q.Working t i)
    (hothers : ∀ (j : ℕ) (b' : Build), j ≠ i → s.builds[j]? = some b' → b'.Working s j →
      b'.phase ≠ .over → 0 < b'.sent → t.shadow = s.shadow)
    (howned : ∀ x ∈ t.shadowRows, x.1 = i ∧ 0 < q.sent ∨ x ∈ s.shadowRows ∧ b.sent ≤ q.sent) :
    Sound t := by
  obtain ⟨hi, -⟩ := List.getElem?_eq_some_iff.1 hb
  have hself : t.builds[i]? = some q := by rw [hbuilds, List.getElem?_set_self hi]
  have hother : ∀ j, j ≠ i → t.builds[j]? = s.builds[j]? := fun j hj => by
    rw [hbuilds, List.getElem?_set_ne hj.symm]
  constructor
  case live =>
    rw [hdb]
    exact hlive
  case waiting =>
    intro j b' hb' hphase
    by_cases hj : j = i
    · subst hj
      obtain rfl := Option.some.inj (hself.symm.trans hb')
      exact hwaiting hphase
    · exact h.waiting j b' (hother j hj ▸ hb') hphase
  case working =>
    intro j b' hb' hphase
    by_cases hj : j = i
    · subst hj
      obtain rfl := Option.some.inj (hself.symm.trans hb')
      exact hworking hphase
    · rw [hother j hj] at hb'
      have hold := h.working j b' hb' hphase
      have hrunning : b'.phase ≠ .over := by
        rintro hover
        simp [hover] at hphase
      obtain ⟨⟨old, hpast, hdocs⟩, hbound, hdone, hshadow⟩ := id hold
      refine ⟨⟨old, hdb ▸ hpast, hdocs⟩, hbound, hdone, fun hpos => ?_⟩
      rw [hothers j b' hj hb' hold hrunning hpos]
      exact hshadow hpos
  case owned =>
    intro x hx
    rcases howned x hx with ⟨rfl, hpos⟩ | ⟨hmem, hle⟩
    · exact ⟨q, hself, hpos⟩
    · obtain ⟨b', hb', hpos⟩ := h.owned x hmem
      by_cases hj : x.1 = i
      · rw [hj, hb] at hb'
        obtain rfl := Option.some.inj hb'
        exact ⟨q, hj ▸ hself, by omega⟩
      · exact ⟨b', (hother x.1 hj).trans hb', hpos⟩

/-- A build under way that has sent rows has a row in the shadow. -/
theorem Build.Working.row (h : b.Working s i) (hpos : 0 < b.sent) : ∃ n, (i, n) ∈ s.shadowRows := by
  have hlen : 0 < b.docs.length := lt_of_lt_of_le hpos h.bound
  refine ⟨b.docs[0], ?_⟩
  rw [Site.shadowRows, h.shadow hpos, Option.getD_some]
  refine List.mem_map_of_mem (List.mem_take_iff_getElem.2 ⟨0, by omega, rfl⟩)

theorem Sound.same_shadow {t : Site} {q : Build} (h : Sound s) (hb : s.builds[i]? = some b)
    (hbuilds : t.builds = s.builds.set i q) (hdb : t.db = s.db) (hlive : t.live = s.live)
    (hshadow : t.shadow = s.shadow) (hwaiting : q.phase = .begun ∨ q.phase = .dropped → q.sent = 0)
    (hworking : q.phase = .filling ∨ q.phase = .counted → q.Working t i)
    (hle : b.sent ≤ q.sent) : Sound t := by
  refine h.change hb hbuilds hdb ?_ hwaiting hworking (fun _ _ _ _ _ _ _ => hshadow) fun x hx => ?_
  · rw [hlive]
    exact h.live
  · rw [Site.shadowRows, hshadow] at hx
    exact .inr ⟨hx, hle⟩

theorem Sound.perform (h : Sound s) (hb : s.builds[i]? = some b)
    (halone : s.alone (.build i op)) (hs : s.perform i b op = some s') : Sound s' := by
  cases op with
  | drop =>
    obtain ⟨hphase, hs⟩ := Option.ite_none_right_eq_some.1 hs
    obtain rfl := Option.some.inj hs
    refine h.change hb rfl rfl h.live (fun _ => h.waiting i b hb (.inl hphase)) (by simp) ?_ (by
      simp [Site.shadowRows])
    intro j b' hj hb' hworking hrunning hpos
    obtain ⟨n, hn⟩ := hworking.row hpos
    exact absurd (halone _ hn b' hb') hrunning
  | read =>
    obtain ⟨hphase, hs⟩ := Option.ite_none_right_eq_some.1 hs
    obtain rfl := Option.some.inj hs
    have hsent := h.waiting i b hb (.inr hphase)
    refine h.same_shadow hb rfl rfl rfl rfl (by simp) (fun _ => ?_) le_rfl
    exact ⟨⟨s.db, past_refl s.db, rfl⟩, by simp [hsent], by simp, by simp [hsent]⟩
  | insert =>
    obtain ⟨⟨hphase, htable⟩, hs⟩ := Option.ite_none_right_eq_some.1 hs
    obtain ⟨n, hn, rfl⟩ := Option.map_eq_some_iff.1 hs
    obtain ⟨hlt, rfl⟩ := List.getElem?_eq_some_iff.1 hn
    have hworking := h.working i b hb (.inl hphase)
    refine h.change hb rfl rfl h.live (by simp [hphase]) (fun _ => ?_) ?_ (fun x hx => ?_)
    · refine ⟨hworking.read, hlt, by simp [hphase], fun _ => ?_⟩
      have hrows : s.shadow.getD [] = (b.docs.take b.sent).map fun n => (i, n) := by
        rcases Nat.eq_zero_or_pos b.sent with hzero | hpos
        · rw [hzero, List.take_zero, List.map_nil]
          exact h.no_rows hb hzero halone
        · rw [hworking.shadow hpos, Option.getD_some]
      simp only [hrows, List.take_succ_eq_append_getElem hlt, List.map_append, List.map_cons,
        List.map_nil]
    · intro j b' hj hb' hworking' _ hpos
      obtain ⟨n, hn⟩ := hworking'.row hpos
      exact absurd (halone _ hn) hj
    · rcases List.mem_append.1 hx with hx | hx
      · exact .inr ⟨hx, Nat.le_succ _⟩
      · rw [List.mem_singleton.1 hx]
        exact .inl ⟨rfl, Nat.succ_pos _⟩
  | count =>
    obtain ⟨⟨hphase, hall, -⟩, hs⟩ := Option.ite_none_right_eq_some.1 hs
    obtain rfl := Option.some.inj hs
    have hworking := h.working i b hb (.inl hphase)
    refine h.same_shadow hb rfl rfl rfl rfl (by simp) (fun _ => ?_) le_rfl
    exact ⟨hworking.read, hworking.bound, fun _ => hall, hworking.shadow⟩
  | swap =>
    obtain ⟨hphase, hs⟩ := Option.ite_none_right_eq_some.1 hs
    obtain ⟨rows, hrows, rfl⟩ := Option.map_eq_some_iff.1 hs
    have hworking := h.working i b hb (.inr hphase)
    obtain ⟨old, hpast, hdocs⟩ := hworking.read
    refine h.change hb rfl rfl (fun live hlive => ⟨old, hpast, ?_⟩) (by simp) (by simp) ?_ (by
      simp [Site.shadowRows])
    · have hnodes : rows.map Prod.snd = b.docs := by
        have hall := hworking.done hphase
        rcases Nat.eq_zero_or_pos b.sent with hzero | hpos
        · have hnil := h.no_rows hb hzero halone
          rw [Site.shadowRows, hrows, Option.getD_some] at hnil
          have hempty : b.docs = [] := List.length_eq_zero_iff.1 (by omega)
          rw [hnil, hempty, List.map_nil]
        · have hshadow := hworking.shadow hpos
          rw [hrows, hall, List.take_length] at hshadow
          rw [Option.some.inj hshadow, List.map_map]
          exact List.map_id _
      rw [← Option.some.inj hlive, hnodes, ← hdocs]
      rfl
    · intro j b' hj hb' hworking' _ hpos
      obtain ⟨n, hn⟩ := hworking'.row hpos
      exact absurd (halone _ hn) hj
  | die =>
    obtain ⟨-, hs⟩ := Option.ite_none_right_eq_some.1 hs
    obtain rfl := Option.some.inj hs
    exact h.same_shadow hb rfl rfl rfl rfl (by simp) (by simp) le_rfl

theorem Sound.start (h : Sound s) :
    Sound { s with builds := s.builds ++ [⟨.begun, [], 0⟩] } := by
  have hcases : ∀ (j : ℕ) (b' : Build), (s.builds ++ [⟨.begun, [], 0⟩])[j]? = some b' →
      s.builds[j]? = some b' ∨ b' = ⟨.begun, [], 0⟩ := by
    intro j b' hb'
    by_cases hj : j < s.builds.length
    · rw [List.getElem?_append_left hj] at hb'
      exact .inl hb'
    · rw [List.getElem?_append_right (by omega)] at hb'
      exact .inr (List.mem_singleton.1 (List.mem_of_getElem? hb'))
  refine ⟨h.live, fun j b' hb' hphase => ?_, fun j b' hb' hphase => ?_, fun x hx => ?_⟩
  · rcases hcases j b' hb' with hold | rfl
    · exact h.waiting j b' hold hphase
    · rfl
  · rcases hcases j b' hb' with hold | rfl
    · obtain ⟨hread, hbound, hdone, hshadow⟩ := h.working j b' hold hphase
      exact ⟨hread, hbound, hdone, hshadow⟩
    · simp at hphase
  · obtain ⟨b', hb', hpos⟩ := h.owned x hx
    obtain ⟨hlt, -⟩ := List.getElem?_eq_some_iff.1 hb'
    exact ⟨b', (List.getElem?_append_left hlt).trans hb', hpos⟩

theorem sound_of_reachable (h : (siteSystem.only Site.alone).Reachable s) : Sound s := by
  induction h with
  | @start s h =>
    obtain ⟨hshadow, hlive, hbuilds⟩ := h
    refine ⟨?_, ?_, ?_, ?_⟩ <;> simp [hshadow, hlive, hbuilds, Site.shadowRows]
  | @next s s' l _ hstep ih =>
    obtain ⟨halone, hstep⟩ := hstep
    cases l with
    | document i act =>
      obtain ⟨e, w, he, hmove, rfl⟩ := hstep
      exact ih.document he hmove
    | start =>
      obtain rfl : s' = _ := hstep
      exact ih.start
    | build i op =>
      obtain ⟨b, hb, hperform⟩ := hstep
      exact ih.perform hb halone hperform

theorem lifecycle_ok (h : lifecycleScopeKeys labels caller s.live r s.db = .ok a) :
    a.scopeKeys = lockRetrievalScopeKeys caller a.resolvedIds s.db ∧
      (a.scopeKeys ≠ [] → ∃ live, s.live = some live ∧ ∀ k ∈ a.scopeKeys, k ∈ live.manifest) := by
  simp only [lifecycleScopeKeys, bind_ok, require_ok, exists_unit] at h
  obtain ⟨-, resolved, -, h⟩ := h
  split at h
  case isTrue hnil =>
    obtain rfl := pure_ok.1 h
    exact ⟨hnil.symm, fun hne => absurd rfl hne⟩
  case isFalse =>
    simp only [bind_ok, exists_unit, pure_ok, coveredBy, demand_ok, require_ok] at h
    obtain ⟨⟨live, hlive, hkeys⟩, rfl⟩ := h
    exact ⟨rfl, fun _ => ⟨live, hlive, hkeys⟩⟩

/-- While no build touches a shadow with rows of another, every question that is
not refused finds all it may see, once, and nothing else. -/
theorem covered_in_full (h : (siteSystem.only Site.alone).Reachable s)
    (hok : lifecycleScopeKeys labels caller s.live r s.db = .ok a) : Covered s caller a := by
  have hsound := sound_of_reachable h
  obtain ⟨hkeys, hlive⟩ := lifecycle_ok hok
  have hholds : ∀ live, s.live = some live → ∀ e ∈ s.db.entries, ∀ d, e.document = some d →
      caller.active e → e.key.id ∈ a.resolvedIds →
      ((live.nodes.filter fun n => n.scopeKey = e.activeKey d).map
        fun n => (n.chunkId, n.text)).Perm ((e.served d).map fun c => (c.id, c.text)) := by
    intro live hs e he d hd hactive hid
    have hmem : e.activeKey d ∈ a.scopeKeys := by
      rw [hkeys]
      exact mem_scopeKeys.2 ⟨e, he, d, hd, hactive, hid, rfl⟩
    obtain ⟨live', hs', hmanifest⟩ := hlive (List.ne_nil_of_mem hmem)
    obtain rfl := Option.some.inj (hs.symm.trans hs')
    obtain ⟨old, hpast, rfl⟩ := hsound.live live hs
    exact copy_holds hpast he hd (hactive.unarchived hd) (hmanifest _ hmem)
  constructor
  · intro e he d hd hactive hid
    have hmem : e.activeKey d ∈ a.scopeKeys := by
      rw [hkeys]
      exact mem_scopeKeys.2 ⟨e, he, d, hd, hactive, hid, rfl⟩
    obtain ⟨live, hs, -⟩ := hlive (List.ne_nil_of_mem hmem)
    exact ⟨live, hs, hholds live hs e he d hd hactive hid⟩
  · intro live nodes out hs hsub hout n hn
    simp only [asChunks, bind_ok, require_ok, exists_unit, pure_ok] at hout
    obtain ⟨hallowed, rfl⟩ := hout
    have hscope := hallowed n hn
    rw [hkeys, mem_scopeKeys] at hscope
    obtain ⟨e, he, d, hd, hactive, hid, hkey⟩ := hscope
    have hfound : (n.chunkId, n.text) ∈ (live.nodes.filter fun n => n.scopeKey = e.activeKey d).map
        fun n => (n.chunkId, n.text) :=
      List.mem_map.2 ⟨n, List.mem_filter.2 ⟨hsub hn, decide_eq_true hkey.symm⟩, rfl⟩
    rw [(hholds live hs e he d hd hactive hid).mem_iff] at hfound
    obtain ⟨c, hc, hsame⟩ := List.mem_map.1 hfound
    obtain ⟨hcid, htext⟩ := Prod.mk.inj hsame
    exact ⟨e, he, d, hd, hactive, hid, hkey.symm, c, hc, hcid.symm, htext.symm⟩

/-- The steps of builds alone, computed. -/
def Site.exec (s : Site) : Label → Option Site
  | .document _ _ => none
  | .start => some { s with builds := s.builds ++ [⟨.begun, [], 0⟩] }
  | .build i op => s.builds[i]?.bind fun b => s.perform i b op

theorem exec_step (h : s.exec l = some s') : s.step l s' := by
  cases l with
  | document i act => cases h
  | start => exact (Option.some.inj h).symm
  | build i op =>
    obtain ⟨b, hb, hs⟩ := Option.bind_eq_some_iff.1 h
    exact ⟨b, hb, hs⟩

end

section
attribute [local instance] sampleDeployment

/-- One ingested document, and no snapshot yet. -/
def oneDocument : Site where
  db := ⟨[⟨⟨1, 1⟩, sampleDeployment, promotedWorld, promotedWorld_reachable⟩], by decide⟩
  shadow := none
  live := none
  builds := []

/-- One build from its first statement to its swap. -/
def oneBuild : List Label :=
  [.start, .build 0 .drop, .build 0 .read, .build 0 .insert, .build 0 .count, .build 0 .swap]

/-- Two builds that drop and read before either has filled the shadow. -/
def twoBuilds : List Label :=
  [.start, .start, .build 0 .drop, .build 1 .drop, .build 0 .read, .build 1 .read,
    .build 0 .insert, .build 1 .insert, .build 0 .count, .build 0 .swap]

def after (l : List Label) : Site := (System.play Site.exec oneDocument l).getD oneDocument

def everyone : Caller := ⟨false, fun _ => true⟩

def unlabelled : Labels := ⟨fun _ => [], fun _ => [], some⟩

def answered : Authority := ⟨[⟨1, 1, some 1, 1⟩], [1], "all_visible"⟩

instance (s : Site) (l : Label) : Decidable (s.alone l) := by
  cases l with
  | document i a => exact instDecidableTrue
  | start => exact instDecidableTrue
  | build i op =>
    cases op <;> first
      | exact instDecidableTrue
      | exact List.decidableBAll _ _

theorem oneDocument_initial : siteSystem.initial oneDocument := ⟨rfl, rfl, rfl⟩

theorem oneBuild_reachable : (siteSystem.only Site.alone).Reachable (after oneBuild) := by
  have hexec : ∀ s l s', (if s.alone l then s.exec l else none) = some s' →
      (siteSystem.only Site.alone).step s l s' := by
    intro s l s' hs
    obtain ⟨halone, hs⟩ := Option.ite_none_right_eq_some.1 hs
    exact ⟨halone, exec_step hs⟩
  exact System.reachable_play (l := oneBuild) hexec (.start oneDocument_initial) rfl

theorem oneBuild_answers : lifecycleScopeKeys unlabelled everyone (after oneBuild).live
    ⟨none, none, none⟩ (after oneBuild).db = .ok answered := by
  decide +kernel

theorem covered_in_full_one : Covered (after oneBuild) everyone answered :=
  covered_in_full oneBuild_reachable oneBuild_answers

/-- The second build's rows are swapped in with the first's: the question is
answered from a table that has the only chunk twice. -/
theorem two_builds_double : siteSystem.Reachable (after twoBuilds) ∧
    lifecycleScopeKeys unlabelled everyone (after twoBuilds).live ⟨none, none, none⟩
      (after twoBuilds).db = .ok answered ∧
    ((after twoBuilds).live.map fun live => live.nodes.map Node.chunkId) =
      some [chunkId firstChunk 0 1, chunkId firstChunk 0 1] ∧
    ¬ Covered (after twoBuilds) everyone answered := by
  have hreach : siteSystem.Reachable (after twoBuilds) :=
    System.reachable_play (l := twoBuilds) (fun _ _ _ => exec_step) (.start oneDocument_initial) rfl
  refine ⟨hreach, rfl, rfl, fun h => ?_⟩
  obtain ⟨live, hlive, hperm⟩ := h.full _ List.mem_cons_self _ rfl ⟨rfl, _, rfl, rfl⟩
    List.mem_cons_self
  obtain rfl := Option.some.inj hlive
  have hlength := hperm.length_eq
  revert hlength
  decide

end

end RagPipeline.Retrieval
