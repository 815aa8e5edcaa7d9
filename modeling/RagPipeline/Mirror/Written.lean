import RagPipeline.Mirror.Reading

/-! # What the mirror holds after the change set

The change set is walked in the gate's order. After every change the mirror is
the baseline, with the changed files as the candidate has them and with new
directories above what was written. No change of an accepted set fails. -/

set_option autoImplicit false

namespace RagPipeline.Mirror
open Guard
open Application (Bytes Path Plain pathText modeText)

theorem above_of_dropLast {q path : Path} :
    q ≠ [] ∧ q <+: path.dropLast ↔ path ≠ [] ∧ Above q path := by
  induction path using List.reverseRecOn with
  | nil =>
    simp only [List.dropLast_nil, List.prefix_nil, ne_eq, not_true_eq_false, false_and, iff_false]
    exact fun h => h.1 h.2
  | append_singleton xs x _ =>
    have hshort : q <+: xs → q ≠ xs ++ [x] := by
      rintro hq rfl
      simpa using hq.length_le
    simp only [List.dropLast_concat, Above, List.prefix_concat_iff]
    constructor
    · rintro ⟨hne, hq⟩
      exact ⟨by simp, hne, .inr hq, hshort hq⟩
    · rintro ⟨-, hne, rfl | hq, hnot⟩
      · exact absurd rfl hnot
      · exact ⟨hne, hq⟩

instance {q path : Path} : Decidable (Above q path) := by unfold Above; infer_instance

def Between (walked rest q : Path) : Prop := walked <+: q ∧ q ≠ walked ∧ q <+: walked ++ rest

instance {walked rest q : Path} : Decidable (Between walked rest q) := by
  unfold Between; infer_instance

theorem between_nil (walked q : Path) : ¬ Between walked [] q := by
  rintro ⟨hover, hne, hunder⟩
  rw [List.append_nil] at hunder
  exact hne (hunder.eq_of_length_le hover.length_le)

theorem between_cons {walked rest q : Path} {name : String} :
    Between walked (name :: rest) q ↔
      q = walked ++ [name] ∨ Between (walked ++ [name]) rest q := by
  have happend : walked ++ name :: rest = walked ++ [name] ++ rest := by simp
  constructor
  · rintro ⟨⟨tail, rfl⟩, hne, hunder⟩
    cases tail with
    | nil => exact absurd (List.append_nil _) hne
    | cons x xs =>
      rw [List.prefix_append_right_inj, List.cons_prefix_cons] at hunder
      obtain ⟨rfl, hunder⟩ := hunder
      by_cases hxs : xs = []
      · exact .inl (by rw [hxs])
      · refine .inr ⟨⟨xs, by simp⟩, by simpa using hxs, ?_⟩
        rw [List.append_cons, List.prefix_append_right_inj]
        exact hunder
  · rintro (rfl | ⟨hover, hne, hunder⟩)
    · exact ⟨List.prefix_append _ _, by simp, happend ▸ List.prefix_append _ _⟩
    · refine ⟨(List.prefix_append _ _).trans hover, ?_, happend ▸ hunder⟩
      rintro rfl
      simpa using hover.length_le

section
variable [Host] {n n' : Nodes} {path : Path} {reference candidate : Tree}
  {changes done : List Changes.Change} {c : Changes.Change}

/-! ## One file -/

def freshDir : Node := .dir Host.dirMode Host.dirAttributes

/-- The mode and the attributes a written file has before its own are set. -/
def carried : Option Node → ℕ × ℕ
  | some (.file _ mode attributes) => (mode, attributes)
  | _ => (Host.fileMode, Host.fileAttributes)

/-- A new directory wherever nothing stood and `p` holds. -/
def opened (there : Option Node) (p : Prop) [Decidable p] : Option Node :=
  there.or (if p then some freshDir else none)

theorem opened_opened (there : Option Node) (p q : Prop) [Decidable p] [Decidable q] :
    opened (opened there p) q = opened there (p ∨ q) := by
  cases there with
  | some node => rfl
  | none => by_cases hp : p <;> by_cases hq : q <;> simp [opened, hp, hq]

@[simp] theorem opened_false (there : Option Node) {p : Prop} [Decidable p] (h : ¬ p) :
    opened there p = there := by simp [opened, h]

theorem makeParents_ok {rest walked : Path} (hfree : ∀ q, Between walked rest q →
      ∀ b m a, n.lookup q ≠ some (.file b m a)) :
    ∃ n', makeParents walked rest n = .ok n' ∧
      ∀ q, n'.lookup q = opened (n.lookup q) (Between walked rest q) := by
  induction rest generalizing walked n with
  | nil => exact ⟨n, rfl, fun q => (opened_false _ (between_nil walked q)).symm⟩
  | cons name rest ih =>
    have hrest : ∀ q, Between (walked ++ [name]) rest q → Between walked (name :: rest) q :=
      fun q hq => between_cons.2 (.inr hq)
    have hself : ¬ Between (walked ++ [name]) rest (walked ++ [name]) := fun h => h.2.1 rfl
    unfold makeParents
    cases hlookup : n.lookup (walked ++ [name]) with
    | none =>
      have hnew : ∀ q, Between (walked ++ [name]) rest q → ∀ b m a,
          (n.insert (walked ++ [name]) freshDir).lookup q ≠ some (.file b m a) := by
        intro q hq b m a
        rw [AList.lookup_insert_ne hq.2.1]
        exact hfree q (hrest q hq) b m a
      obtain ⟨n', hn', hq'⟩ := ih hnew
      refine ⟨n', hn', fun q => ?_⟩
      rw [hq' q]
      by_cases heq : q = walked ++ [name]
      · subst heq
        rw [AList.lookup_insert, hlookup]
        simp [opened, between_cons]
      · rw [AList.lookup_insert_ne heq]
        simp [opened, between_cons, heq]
    | some node =>
      cases node with
      | file b m a => exact absurd hlookup (hfree _ (between_cons.2 (.inl rfl)) b m a)
      | dir m a =>
        obtain ⟨n', hn', hq'⟩ := ih fun q hq => hfree q (hrest q hq)
        refine ⟨n', hn', fun q => ?_⟩
        rw [hq' q]
        by_cases heq : q = walked ++ [name]
        · subst heq
          simp [opened, hlookup]
        · simp [opened, between_cons, heq]

theorem writeBytes_ok (data : Bytes) (hne : path ≠ [])
    (habove : ∀ q, Above q path → ∀ b m a, n.lookup q ≠ some (.file b m a))
    (hfile : ∀ m a, n.lookup path ≠ some (.dir m a)) :
    ∃ n', writeBytes path data n = .ok n' ∧
      ∀ q, n'.lookup q =
        if q = path then some (.file data (carried (n.lookup path)).1 (carried (n.lookup path)).2)
        else opened (n.lookup q) (Above q path) := by
  have hbetween : ∀ q, Between [] path.dropLast q ↔ Above q path := fun q => by
    have hdrop : q ≠ [] ∧ q <+: path.dropLast ↔ path ≠ [] ∧ Above q path := above_of_dropLast
    rw [and_iff_right hne] at hdrop
    simpa [Between] using hdrop
  obtain ⟨n', hn', hq'⟩ : ∃ n', makeParents [] path.dropLast n = .ok n' ∧
      ∀ q, n'.lookup q = opened (n.lookup q) (Between [] path.dropLast q) :=
    makeParents_ok fun q hq => habove q ((hbetween q).1 hq)
  have hpath : n'.lookup path = n.lookup path := by
    rw [hq' path, opened_false]
    exact fun h => ((hbetween path).1 h).2.2 rfl
  have hlook : ∀ node : Node, ∀ q, (n'.insert path node).lookup q =
      if q = path then some node else opened (n.lookup q) (Above q path) := fun node q => by
    by_cases heq : q = path
    · subst heq
      simp
    · rw [AList.lookup_insert_ne heq, hq' q]
      simp [opened, heq, hbetween]
  unfold writeBytes
  simp only [hn', ok_bind, hpath]
  cases hlookup : n.lookup path with
  | none => exact ⟨_, rfl, hlook _⟩
  | some node =>
    cases node with
    | file b m a => exact ⟨_, rfl, hlook _⟩
    | dir m a => exact absurd hlookup (hfile m a)

omit [Host] in
theorem applyMode_text (mode : ℕ) :
    applyMode path (modeText mode) n = .ok (if mode = 0 then n else setMode path mode n) := by
  unfold applyMode
  rw [modeText_toList]
  simp [octal_toDigits, demand]

/-! ## One change -/

def Erased (done : List Changes.Change) (q : Path) : Prop :=
  ∃ c ∈ done, c.kind = .deleted ∧ components c.path = q

def Wrote (done : List Changes.Change) (q : Path) : Prop :=
  ∃ c ∈ done, c.kind ≠ .deleted ∧ components c.path = q

def Opened (done : List Changes.Change) (q : Path) : Prop :=
  ∃ c ∈ done, c.kind ≠ .deleted ∧ Above q (components c.path)

instance {q : Path} : Decidable (Erased done q) := by unfold Erased; infer_instance

instance {q : Path} : Decidable (Wrote done q) := by unfold Wrote; infer_instance

instance {q : Path} : Decidable (Opened done q) := by unfold Opened; infer_instance

/-- A candidate's file written over what stood there. -/
def Node.over (there : Option Node) : Node → Node
  | .file bytes mode _ =>
    .file bytes (if mode = 0 then (carried there).1 else mode) (carried there).2
  | .dir mode attributes => .dir mode attributes

/-- What stands at a path after these changes. -/
def settled (reference candidate : Nodes) (done : List Changes.Change) (q : Path) : Option Node :=
  if Erased done q then none
  else if Wrote done q then (candidate.lookup q).map (Node.over (reference.lookup q))
  else opened (reference.lookup q) (Opened done q)

/-- What an accepted change asks: a file that the baseline holds is deleted, or
the candidate's file is written where no directory is. -/
theorem Gated.asks (hg : Gated reference candidate changes) (hc : c ∈ changes) :
    components c.path ≠ [] ∧ Plain (components c.path) ∧
      c.path = pathText (components c.path) ∧
      ((c.kind = .deleted ∧ candidate.nodes.lookup (components c.path) = none ∧
        ∃ b m a, reference.nodes.lookup (components c.path) = some (.file b m a)) ∨
      c.kind ≠ .deleted ∧
        (reference.nodes.lookup (components c.path) = none ∨
          ∃ b m a, reference.nodes.lookup (components c.path) = some (.file b m a)) ∧
        ∃ b m a, candidate.nodes.lookup (components c.path) = some (.file b m a) ∧
          c.mode = modeText m ∧ c.sha256 = Host.sha256 b) := by
  obtain ⟨path, htext, hne, hplain⟩ := hg.path c hc
  have hpath : components c.path = path := by rw [htext, components_pathText hplain hne]
  rw [hpath]
  exact ⟨hne, hplain, htext, hg.change c hc path htext hne hplain⟩

theorem Gated.size (hg : Gated reference candidate changes) {b : Bytes} {m a : ℕ}
    (hfile : candidate.nodes.lookup path = some (.file b m a)) :
    b.length ≤ Application.maxContentFileBytes := by
  have hsizes := hg.limits
  simp only [withinLimits, Bool.and_eq_true, List.all_eq_true, decide_eq_true_eq] at hsizes
  refine hsizes.1.1.2 _ (List.mem_map.2 ⟨entry candidate.facts path (.file b m a), ?_, rfl⟩)
  exact List.mem_filter.2 ⟨mem_entries.2 ⟨path, _, hfile, rfl⟩, by simp [entry]⟩

/-- Above a file of the candidate the change set has nothing, and the baseline
has no file. -/
theorem Gated.over_dir (hg : Gated reference candidate changes) {q : Path} {m a : ℕ}
    (hdir : candidate.nodes.lookup q = some (.dir m a)) :
    (∀ c ∈ changes, components c.path ≠ q) ∧
      ∀ b m a, reference.nodes.lookup q ≠ some (.file b m a) := by
  obtain ⟨hne, hplain⟩ := candidate.plain q (by simp [hdir])
  have hnot : ∀ c ∈ changes, components c.path ≠ q := by
    rintro c hc rfl
    obtain ⟨-, -, -, ⟨-, hnone, -⟩ | ⟨-, -, b, m', a', hfile, -⟩⟩ := hg.asks hc
    · simp [hdir] at hnone
    · simp [hdir] at hfile
  refine ⟨hnot, fun b m' a' hfile => ?_⟩
  have htext : pathText q ∉ changes.map Changes.Change.path := fun hmem => by
    obtain ⟨c, hc, heq⟩ := List.mem_map.1 hmem
    exact hnot c hc (by rw [heq, components_pathText hplain hne])
  obtain ⟨hnone, -⟩ | ⟨l, r, hl, hr, hsame⟩ | ⟨-, -, hnone, -⟩ | ⟨m', a', hdir', -⟩ :=
    hg.quiet q hne hplain htext
  · simp [hfile] at hnone
  · obtain rfl := Option.some.inj (hl.symm.trans hfile)
    obtain rfl := Option.some.inj (hr.symm.trans hdir)
    exact hsame
  · simp [hfile] at hnone
  · simp [hfile] at hdir'

omit [Host] in
theorem Tree.dir_above (t : Tree) {q path : Path} (habove : Above q path)
    (hpath : t.nodes.lookup path ≠ none) : ∃ m a, t.nodes.lookup q = some (.dir m a) := by
  obtain ⟨hne, ⟨rest, rfl⟩, hnot⟩ := habove
  induction rest using List.reverseRecOn with
  | nil => exact absurd (List.append_nil q).symm hnot
  | append_singleton rest name ih =>
    rw [← List.append_assoc] at hpath
    obtain ⟨m, a, hdir⟩ := t.closed (q ++ rest) name (by simp [hne]) hpath
    cases rest with
    | nil => exact ⟨m, a, by rwa [List.append_nil] at hdir⟩
    | cons x xs =>
      refine ih ?_ (by simp)
      rw [hdir]
      exact Option.some_ne_none _

/-- A file is written over the candidate's or over nothing. -/
theorem applyChange_writes {b : Bytes} {m a : ℕ} (hkind : c.kind ≠ .deleted)
    (hne : components c.path ≠ [])
    (hcandidate : candidate.nodes.lookup (components c.path) = some (.file b m a))
    (hsize : b.length ≤ Application.maxContentFileBytes) (hsha : c.sha256 = Host.sha256 b)
    (hmode : c.mode = modeText m)
    (habove : ∀ q, Above q (components c.path) → ∀ b m a, n.lookup q ≠ some (.file b m a))
    (hfile : ∀ m a, n.lookup (components c.path) ≠ some (.dir m a)) :
    ∃ n', applyChange candidate.nodes n c = .ok n' ∧ ∀ q, n'.lookup q =
      if q = components c.path then
        some (Node.over (n.lookup (components c.path)) (.file b m a))
      else opened (n.lookup q) (Above q (components c.path)) := by
  obtain ⟨n₁, hwrite, hlook⟩ := writeBytes_ok b hne habove hfile
  have hself := hlook (components c.path)
  rw [if_pos rfl] at hself
  refine ⟨if m = 0 then n₁ else setMode (components c.path) m n₁, ?_, fun q => ?_⟩
  · have hbytes : entryBytes candidate.nodes (components c.path) = .ok b := by
      simp [entryBytes, hcandidate, hsize]
    have hrun : (do
        let data ← entryBytes candidate.nodes (components c.path)
        require (Host.sha256 data = c.sha256) (.containment "aday dosyasi kanitla ayni degil")
        let n ← writeBytes (components c.path) data n
        applyMode (components c.path) c.mode n) =
          .ok (if m = 0 then n₁ else setMode (components c.path) m n₁) := by
      rw [hbytes, ok_bind, require_true hsha.symm, ok_bind, hwrite, ok_bind, hmode, applyMode_text]
    unfold applyChange
    cases hk : c.kind with
    | deleted => exact absurd hk hkind
    | added => exact hrun
    | modified => exact hrun
  · by_cases hm : m = 0
    · rw [if_pos hm, hlook q]
      by_cases hq : q = components c.path
      · simp [hq, Node.over, hm]
      · rw [if_neg hq, if_neg hq]
    · rw [if_neg hm, setMode, hself]
      by_cases hq : q = components c.path
      · subst hq
        simp [Node.over, hm]
      · simp only [AList.lookup_insert_ne hq, hlook q, if_neg hq]

/-! ## The walk -/

/-- The mirror holds what these changes settle. -/
def Reached (reference candidate : Nodes) (done : List Changes.Change) (n : Nodes) : Prop :=
  ∀ q, n.lookup q = settled reference candidate done q

theorem reached_nil : Reached reference.nodes candidate.nodes [] reference.nodes := fun q => by
  simp [settled, Erased, Wrote, Opened]

section
variable {rest : List Changes.Change}

/-- The file of a change is touched by no change before it. -/
theorem Gated.fresh (hg : Gated reference candidate changes) (hsplit : changes = done ++ c :: rest) :
    ∀ c' ∈ done, components c'.path ≠ components c.path := by
  intro c' hc' heq
  have hmem : ∀ c' ∈ done, c' ∈ changes := fun c' hc' => by
    rw [hsplit]
    exact List.mem_append_left _ hc'
  have hc : c ∈ changes := by rw [hsplit]; exact List.mem_append_right _ List.mem_cons_self
  have htext : c'.path = c.path := by
    rw [(hg.asks (hmem c' hc')).2.2.1, heq, ← (hg.asks hc).2.2.1]
  have hnodup := hg.nodup
  rw [hsplit, List.map_append, List.map_cons, List.nodup_append] at hnodup
  exact hnodup.2.2 _ (List.mem_map_of_mem hc') _ List.mem_cons_self htext

/-- What a change finds at its own path is what the baseline holds. -/
theorem Gated.finds (hg : Gated reference candidate changes) (hsplit : changes = done ++ c :: rest) :
    settled reference.nodes candidate.nodes done (components c.path) =
      reference.nodes.lookup (components c.path) := by
  have hfresh := hg.fresh hsplit
  have hc : c ∈ changes := by rw [hsplit]; exact List.mem_append_right _ List.mem_cons_self
  have herased : ¬ Erased done (components c.path) := fun ⟨c', hc', _, heq⟩ => hfresh c' hc' heq
  have hwrote : ¬ Wrote done (components c.path) := fun ⟨c', hc', _, heq⟩ => hfresh c' hc' heq
  rw [settled, if_neg herased, if_neg hwrote]
  obtain ⟨-, -, -, ⟨-, -, b, m, a, hfile⟩ | ⟨-, hnone | ⟨b, m, a, hfile⟩, b', m', a', hcand, -⟩⟩ :=
    hg.asks hc
  · rw [hfile]
    rfl
  · refine opened_false _ fun ⟨c', hc', hkind, habove⟩ => ?_
    have hmem : c' ∈ changes := by rw [hsplit]; exact List.mem_append_left _ hc'
    obtain ⟨-, -, -, ⟨hdel, -⟩ | ⟨-, -, b'', m'', a'', hfile, -⟩⟩ := hg.asks hmem
    · exact hkind hdel
    · obtain ⟨m₁, a₁, hdir⟩ := candidate.dir_above habove (by simp [hfile])
      simp [hcand] at hdir
  · rw [hfile]
    rfl

theorem Gated.step (hg : Gated reference candidate changes) (hsplit : changes = done ++ c :: rest)
    (hn : Reached reference.nodes candidate.nodes done n) :
    ∃ n', applyChange candidate.nodes n c = .ok n' ∧
      Reached reference.nodes candidate.nodes (done ++ [c]) n' := by
  have hc : c ∈ changes := by rw [hsplit]; exact List.mem_append_right _ List.mem_cons_self
  have hfound : n.lookup (components c.path) = reference.nodes.lookup (components c.path) :=
    (hn _).trans (hg.finds hsplit)
  obtain ⟨hne, -, -, ⟨hkind, -, b, m, a, hfile⟩ | ⟨hkind, hover, b, m, a, hcand, hmode, hsha⟩⟩ :=
    hg.asks hc
  · refine ⟨n.erase (components c.path), by simp [applyChange, hkind, hfound, hfile], fun q => ?_⟩
    have hwrote : Wrote (done ++ [c]) q ↔ Wrote done q := by simp [Wrote, hkind]
    have hopened : Opened (done ++ [c]) q ↔ Opened done q := by simp [Opened, hkind]
    have herased : Erased (done ++ [c]) q ↔ Erased done q ∨ components c.path = q := by
      simp [Erased, hkind]
    by_cases hq : components c.path = q
    · rw [← hq, AList.lookup_erase, settled, if_pos (by simp [Erased, hkind])]
    · rw [AList.lookup_erase_ne (Ne.symm hq), hn q]
      simp only [settled, herased, hwrote, hopened, hq, or_false]
  · have habove : ∀ q, Above q (components c.path) → (∀ c ∈ changes, components c.path ≠ q) ∧
        ∀ b m a, reference.nodes.lookup q ≠ some (.file b m a) := fun q hq => by
      obtain ⟨m', a', hdir⟩ := candidate.dir_above hq (by simp [hcand])
      exact hg.over_dir hdir
    have hbefore : ∀ c' ∈ done, c' ∈ changes := fun c' hc' => by
      rw [hsplit]
      exact List.mem_append_left _ hc'
    have hquiet : ∀ q, Above q (components c.path) → ¬ Erased done q ∧ ¬ Wrote done q :=
      fun q hq => ⟨fun ⟨c', hc', _, heq⟩ => (habove q hq).1 c' (hbefore c' hc') heq,
        fun ⟨c', hc', _, heq⟩ => (habove q hq).1 c' (hbefore c' hc') heq⟩
    obtain ⟨n', hn', hlook⟩ := applyChange_writes (n := n) hkind hne hcand
      (hg.size hcand) hsha hmode (fun q hq b m a => by
        obtain ⟨herased, hwrote⟩ := hquiet q hq
        rw [hn q, settled, if_neg herased, if_neg hwrote]
        have hnot := (habove q hq).2 b m a
        cases hr : reference.nodes.lookup q with
        | none => by_cases ho : Opened done q <;> simp [opened, ho, freshDir]
        | some node => simpa [opened, hr] using hnot)
      (fun m a => by
        rw [hfound]
        obtain hnone | ⟨b, m', a', hfile⟩ := hover
        · simp [hnone]
        · simp [hfile])
    refine ⟨n', hn', fun q => ?_⟩
    have herased : Erased (done ++ [c]) q ↔ Erased done q := by
      simp [Erased, hkind]
    have hwrote : Wrote (done ++ [c]) q ↔ Wrote done q ∨ components c.path = q := by
      simp [Wrote, hkind]
    have hopened : Opened (done ++ [c]) q ↔ Opened done q ∨ Above q (components c.path) := by
      simp [Opened, hkind]
    rw [hlook q, settled]
    by_cases hq : q = components c.path
    · have hnot : ¬ Erased done q := fun ⟨c', hc', _, heq⟩ =>
        hg.fresh hsplit c' hc' (heq.trans hq)
      rw [if_pos hq, if_neg (fun h => hnot (herased.1 h)), if_pos (hwrote.2 (.inr hq.symm)), hfound, hq,
        hcand]
      rfl
    · rw [if_neg hq, hn q, settled]
      by_cases he : Erased done q
      · rw [if_pos he, if_pos (herased.2 he)]
        exact opened_false _ fun h => (hquiet q h).1 he
      · rw [if_neg he, if_neg (fun h => he (herased.1 h))]
        by_cases hw : Wrote done q
        · rw [if_pos hw, if_pos (hwrote.2 (.inl hw))]
          exact opened_false _ fun h => (hquiet q h).2 hw
        · rw [if_neg hw, if_neg (fun h => (hwrote.1 h).elim hw fun heq => hq heq.symm),
            opened_opened]
          simp only [opened, hopened]

/-- No change of an accepted set fails, and the mirror ends with what they settle. -/
theorem Gated.applyChanges_reached (hg : Gated reference candidate changes)
    (hsplit : changes = done ++ rest) (hn : Reached reference.nodes candidate.nodes done n) :
    ∃ n', applyChanges candidate.nodes rest n = .ok n' ∧
      Reached reference.nodes candidate.nodes changes n' := by
  induction rest generalizing done n with
  | nil => exact ⟨n, rfl, by simpa [hsplit] using hn⟩
  | cons c rest ih =>
    obtain ⟨n₁, hstep, hn₁⟩ := hg.step hsplit hn
    have hnext : changes = (done ++ [c]) ++ rest := by simp [hsplit]
    obtain ⟨n', hrest, hn'⟩ := ih hnext hn₁
    refine ⟨n', ?_, hn'⟩
    unfold applyChanges at hrest ⊢
    rw [List.foldlM_cons, hstep, ok_bind, hrest]

end

end

end RagPipeline.Mirror
