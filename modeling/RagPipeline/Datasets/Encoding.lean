import RagPipeline.Datasets.Contract

/-! # The encoding of a version

A version that passed the gates passes them again in its own words, its canonical
text is read back as those words, and its digest does not depend on the shape in
which its cases are offered. -/

set_option autoImplicit false

namespace RagPipeline.Datasets
open Guard
open JsonText (Hooks Decodes DecodesField loads writeInt writeString readInt readInt_writeInt dumpArray
  dumpObject commas dumpMember decodes_array decodes_int decodes_object decodes_string)
open RagPipeline.Answer (Json)

variable {c : EvalCase} {v w : EvalDatasetVersion} {j : Json} {t : Text} {cases : List EvalCase}

/-! ## What the gates let pass -/

theorem checkText_ok {limit : ℕ} (h : checkText limit j = .ok t) : j = .str t := by
  rw [checkText.eq_def] at h
  split at h
  · obtain ⟨_, -, h⟩ := bind_ok.1 h
    obtain ⟨_, -, h⟩ := bind_ok.1 h
    rw [pure_ok.1 h]
  · cases h

theorem checkKey_ok (h : checkKey j = .ok t) :
    j = .str t ∧ ∃ n, parseUuid t = some n ∧ uuidText n = t := by
  rw [checkKey.eq_def] at h
  split at h
  · obtain ⟨n, hparse, h⟩ := bind_ok.1 h
    obtain ⟨_, hsame, h⟩ := bind_ok.1 h
    obtain rfl := pure_ok.1 h
    exact ⟨rfl, n, demand_ok.1 hparse, (require_ok.1 hsame).2.symm⟩
  · cases h

theorem pagesLoop_ok {items : List Json} {previous : ℤ} {pages : List ℤ}
    (h : pagesLoop previous items = .ok pages) : items = pages.map .int := by
  induction items generalizing previous pages with
  | nil =>
    obtain rfl : [] = pages := Except.ok.inj h
    rfl
  | cons item rest ih =>
    cases item with
    | int page =>
      rw [pagesLoop] at h
      obtain ⟨_, -, h⟩ := bind_ok.1 h
      obtain ⟨_, -, h⟩ := bind_ok.1 h
      obtain ⟨more, hmore, h⟩ := bind_ok.1 h
      obtain rfl := pure_ok.1 h
      rw [ih hmore]
      rfl
    | null => cases h
    | bool b => cases h
    | real l => cases h
    | str s => cases h
    | arr items => cases h
    | obj members => cases h

theorem checkPages_ok {pages : List ℤ} (h : checkPages j = .ok pages) : j = .arr (pages.map .int) := by
  rw [checkPages.eq_def] at h
  split at h
  · obtain ⟨_, -, h⟩ := bind_ok.1 h
    rw [pagesLoop_ok h]
  · cases h

theorem checkType_ok {type : CaseType} (h : checkType j = .ok type) : j = .str type.word := by
  rw [checkType.eq_def] at h
  split at h
  · split_ifs at h with hmetin hsayisal htablo
    · rw [hmetin, ← Except.ok.inj h]
    · rw [hsayisal, ← Except.ok.inj h]
    · rw [htablo, ← Except.ok.inj h]
  · cases h

/-- A case each of whose fields passes its gate. -/
structure ValidCase (c : EvalCase) : Prop where
  caseKey : checkKey (.str c.caseKey) = .ok c.caseKey
  q : checkText 4096 (.str c.q) = .ok c.q
  key : checkText 16384 (.str c.key) = .ok c.key
  answer : checkText 16384 (.str c.answer) = .ok c.answer
  pages : checkPages (.arr (c.pages.map .int)) = .ok c.pages
  type : checkType (.str c.type.word) = .ok c.type

theorem validCase_of_ok (h : validateCase j = .ok c) : ValidCase c := by
  rw [validateCase.eq_def] at h
  split at h
  · obtain ⟨_, -, h⟩ := bind_ok.1 h
    obtain ⟨type, htype, h⟩ := bind_ok.1 h
    obtain ⟨caseKey, hcaseKey, h⟩ := bind_ok.1 h
    obtain ⟨q, hq, h⟩ := bind_ok.1 h
    obtain ⟨key, hkey, h⟩ := bind_ok.1 h
    obtain ⟨answer, hanswer, h⟩ := bind_ok.1 h
    obtain ⟨pages, hpages, h⟩ := bind_ok.1 h
    obtain rfl := pure_ok.1 h
    constructor
    · rwa [(checkKey_ok hcaseKey).1] at hcaseKey
    · rwa [checkText_ok hq] at hq
    · rwa [checkText_ok hkey] at hkey
    · rwa [checkText_ok hanswer] at hanswer
    · rwa [checkPages_ok hpages] at hpages
    · rwa [checkType_ok htype] at htype
  · cases h

/-- The fields in any order, nothing beside them. -/
theorem ValidCase.ok (hc : ValidCase c) {members : List (Text × Json)}
    (hnames : has CASE_KEYS members = true ∧ onlyHas CASE_KEYS members = true)
    (htype : field "type".toList members = .str c.type.word)
    (hcaseKey : field "case_key".toList members = .str c.caseKey)
    (hq : field "q".toList members = .str c.q) (hkey : field "key".toList members = .str c.key)
    (hanswer : field "answer".toList members = .str c.answer)
    (hpages : field "pages".toList members = .arr (c.pages.map .int)) :
    validateCase (.obj members) = .ok c := by
  rw [validateCase, require_true hnames, htype, hcaseKey, hq, hkey, hanswer, hpages, hc.type, hc.caseKey,
    hc.q, hc.key, hc.answer, hc.pages]
  rfl

theorem ValidCase.object (hc : ValidCase c) : validateCase (caseObject c) = .ok c :=
  hc.ok ⟨rfl, rfl⟩ rfl rfl rfl rfl rfl rfl

theorem ValidCase.normalized (hc : ValidCase c) : asCase (normalized c) = .ok c :=
  hc.ok ⟨rfl, rfl⟩ rfl rfl rfl rfl rfl rfl

theorem asCase_valid {o : Offered} (h : asCase o = .ok c) : ValidCase c := by
  cases o with
  | case c' =>
    rw [asCase] at h
    exact validCase_of_ok h
  | value v =>
    rw [asCase] at h
    exact validCase_of_ok h
  | tupled members pages =>
    rw [asCase] at h
    exact validCase_of_ok h

/-! ## Lists of cases -/

theorem mapM_valid {α : Type} {f : α → Checked EvalCase} (hf : ∀ a c, f a = .ok c → ValidCase c)
    {l : List α} (h : l.mapM f = .ok cases) : (∀ c ∈ cases, ValidCase c) ∧ cases.length = l.length := by
  induction l generalizing cases with
  | nil =>
    rw [List.mapM_nil] at h
    obtain rfl := pure_ok.1 h
    refine ⟨?_, rfl⟩
    intro c hc
    cases hc
  | cons a rest ih =>
    rw [List.mapM_cons] at h
    obtain ⟨c, hc, h⟩ := bind_ok.1 h
    obtain ⟨more, hmore, h⟩ := bind_ok.1 h
    obtain rfl := pure_ok.1 h
    obtain ⟨hvalid, hlength⟩ := ih hmore
    constructor
    · intro c' hc'
      cases List.mem_cons.1 hc' with
      | inl heq => exact heq ▸ hf a c hc
      | inr hmem => exact hvalid c' hmem
    · rw [List.length_cons, List.length_cons, hlength]

theorem mapM_again {α : Type} {f : α → Checked EvalCase} {g : EvalCase → α}
    (h : ∀ c ∈ cases, f (g c) = .ok c) : (cases.map g).mapM f = .ok cases := by
  induction cases with
  | nil => rfl
  | cons c rest ih =>
    have hrest := ih fun c' hc' => h c' (List.mem_cons_of_mem c hc')
    rw [List.map_cons, List.mapM_cons, h c List.mem_cons_self, hrest]
    rfl

/-- Cases that passed as a collection. -/
structure ValidCases (cases : List EvalCase) : Prop where
  count : MIN_CASES ≤ cases.length ∧ cases.length ≤ MAX_CASES
  each : ∀ c ∈ cases, ValidCase c
  order : checkOrder cases = .ok ()

theorem checkCases_ok (h : checkCases j = .ok cases) : ValidCases cases := by
  rw [checkCases.eq_def] at h
  split at h
  · obtain ⟨_, hcount, h⟩ := bind_ok.1 h
    obtain ⟨found, hfound, h⟩ := bind_ok.1 h
    obtain ⟨_, horder, h⟩ := bind_ok.1 h
    obtain rfl := pure_ok.1 h
    obtain ⟨hvalid, hlength⟩ := mapM_valid (fun _ _ => validCase_of_ok) hfound
    have hcount' := require_ok.1 hcount
    rw [← hlength] at hcount'
    exact ⟨hcount', hvalid, horder⟩
  · cases h

theorem caseSequence_ok {offered : List Offered} (h : caseSequence offered = .ok cases) :
    ValidCases cases := by
  obtain ⟨_, hcount, h⟩ := bind_ok.1 h
  obtain ⟨found, hfound, h⟩ := bind_ok.1 h
  obtain ⟨_, horder, h⟩ := bind_ok.1 h
  obtain rfl := pure_ok.1 h
  obtain ⟨hvalid, hlength⟩ := mapM_valid (fun _ _ => asCase_valid) hfound
  have hcount' := require_ok.1 hcount
  rw [← hlength] at hcount'
  exact ⟨hcount', hvalid, horder⟩

theorem ValidCases.objects (h : ValidCases cases) : checkCases (.arr (cases.map caseObject)) = .ok cases := by
  have hcount : MIN_CASES ≤ (cases.map caseObject).length ∧ (cases.map caseObject).length ≤ MAX_CASES := by
    rw [List.length_map]
    exact h.count
  rw [checkCases, require_true hcount, mapM_again fun c hc => (h.each c hc).object]
  show (do
    checkOrder cases
    return cases) = Except.ok cases
  rw [h.order]
  rfl

/-- However the cases are offered, they are the same collection. -/
theorem ValidCases.sequence (h : ValidCases cases) {g : EvalCase → Offered}
    (hg : ∀ c ∈ cases, asCase (g c) = .ok c) : caseSequence (cases.map g) = .ok cases := by
  have hcount : MIN_CASES ≤ (cases.map g).length ∧ (cases.map g).length ≤ MAX_CASES := by
    rw [List.length_map]
    exact h.count
  rw [caseSequence, require_true hcount, mapM_again hg]
  show (do
    checkOrder cases
    return cases) = Except.ok cases
  rw [h.order]
  rfl

/-- A version that passed, passes in its own words. -/
theorem validateVersion_object (h : validateVersion j = .ok v) : validateVersion (versionObject v) = .ok v := by
  rw [validateVersion.eq_def] at h
  split at h
  · obtain ⟨_, -, h⟩ := bind_ok.1 h
    obtain ⟨version, hversion, h⟩ := bind_ok.1 h
    obtain ⟨cases, hcases, h⟩ := bind_ok.1 h
    obtain rfl := pure_ok.1 h
    have hversion' : checkVersion (.int version) = .ok version := by
      rw [checkVersion.eq_def] at hversion
      split at hversion
      · obtain ⟨_, hrange, hn⟩ := bind_ok.1 hversion
        obtain rfl := pure_ok.1 hn
        exact bind_ok.2 ⟨(), hrange, rfl⟩
      · cases hversion
    have hcases' := (checkCases_ok hcases).objects
    have hnames : has VERSION_KEYS [("cases".toList, Json.arr (cases.map caseObject)),
        ("version".toList, Json.int version)] = true ∧
        onlyHas VERSION_KEYS [("cases".toList, Json.arr (cases.map caseObject)),
          ("version".toList, Json.int version)] = true := ⟨rfl, rfl⟩
    apply bind_ok.2
    refine ⟨(), require_true hnames, bind_ok.2 ⟨version, hversion', bind_ok.2 ⟨cases, hcases', rfl⟩⟩⟩
  · cases h

/-! ## The text is read back -/

theorem dumpsItems_map {α : Type} (f : α → Json) (l : List α) :
    dumpsItems (l.map f) = l.map fun a => dumps (f a) := by
  induction l with
  | nil => rfl
  | cons a rest ih =>
    rw [List.map_cons, dumpsItems, ih]
    rfl

theorem decodes_page (n : ℤ) : Decodes strictHooks (dumps (.int n)) (.int n) := by
  have hint : strictHooks.int (writeInt n) = some (.int n) := by
    show some (Json.int (readInt (writeInt n))) = _
    rw [readInt_writeInt]
  exact decodes_int hint

theorem decodes_list {α : Type} {f : α → Json} {l : List α}
    (h : ∀ a ∈ l, Decodes strictHooks (dumps (f a)) (f a)) :
    Decodes strictHooks (dumps (.arr (l.map f))) (.arr (l.map f)) := by
  rw [dumps, dumpsItems_map]
  apply decodes_array
  induction l with
  | nil => exact .nil
  | cons a rest ih =>
    exact .cons (h a List.mem_cons_self) (ih fun b hb => h b (List.mem_cons_of_mem a hb))

/-- An object whose names are in order already. -/
theorem decodes_members {members : List (Text × Json)} (hne : members ≠ [])
    (hnodup : (members.map Prod.fst).Nodup)
    (hsorted : (members.map Prod.fst).Pairwise fun a b => textLe a b = true)
    (h : ∀ m ∈ members, Decodes strictHooks (dumps m.2) m.2) :
    Decodes strictHooks (dumps (.obj members)) (.obj members) := by
  have hdumps : dumpsMembers members = members.map fun m => (m.1, dumps m.2) := by
    clear hne hnodup hsorted h
    induction members with
    | nil => rfl
    | cons m rest ih =>
      rw [List.map_cons, ← ih]
      rfl
  have hsame : sorted Prod.fst (members.map fun m => (m.1, dumps m.2)) =
      members.map fun m => (m.1, dumps m.2) := by
    apply List.Pairwise.insertionSort_eq
    rw [List.pairwise_map] at hsorted ⊢
    exact hsorted
  have hfields : List.Forall₂ (DecodesField strictHooks) (members.map fun m => (m.1, dumps m.2))
      members := by
    clear hne hnodup hsorted hdumps hsame
    induction members with
    | nil => exact .nil
    | cons m rest ih =>
      exact .cons ⟨rfl, h m List.mem_cons_self⟩ (ih fun m' hm' => h m' (List.mem_cons_of_mem m hm'))
  rw [dumps, hdumps, hsame]
  apply decodes_object hfields
  · intro hnil
    exact hne (List.map_eq_nil_iff.1 hnil)
  · exact if_pos hnodup

theorem decodes_text (t : Text) : Decodes strictHooks (dumps (.str t)) (.str t) :=
  decodes_string false t

theorem decodes_case (c : EvalCase) : Decodes strictHooks (dumps (caseObject c)) (caseObject c) := by
  apply decodes_members
  · exact List.cons_ne_nil _ _
  · show ["answer".toList, "case_key".toList, "key".toList, "pages".toList, "q".toList,
      "type".toList].Nodup
    decide
  · show ["answer".toList, "case_key".toList, "key".toList, "pages".toList, "q".toList,
      "type".toList].Pairwise fun a b => textLe a b = true
    decide
  · intro m hm
    simp only [List.mem_cons, List.not_mem_nil, or_false] at hm
    obtain rfl | rfl | rfl | rfl | rfl | rfl := hm
    · exact decodes_text _
    · exact decodes_text _
    · exact decodes_text _
    · exact decodes_list fun n _ => decodes_page n
    · exact decodes_text _
    · exact decodes_text _

theorem decodes_version (v : EvalDatasetVersion) :
    Decodes strictHooks (dumps (versionObject v)) (versionObject v) := by
  apply decodes_members
  · exact List.cons_ne_nil _ _
  · show ["cases".toList, "version".toList].Nodup
    decide
  · show ["cases".toList, "version".toList].Pairwise fun a b => textLe a b = true
    decide
  · intro m hm
    simp only [List.mem_cons, List.not_mem_nil, or_false] at hm
    obtain rfl | rfl := hm
    · exact decodes_list fun c _ => decodes_case c
    · exact decodes_page _

/-! ## Bytes -/

theorem encode_injective {s t : Text} (h : encode s = encode t) : s = t := by
  have hstring : String.ofList s = String.ofList t := String.toByteArray_inj.1 h
  have hlist := congrArg String.toList hstring
  rwa [String.toList_ofList, String.toList_ofList] at hlist

theorem decode_encode (t : Text) : String.fromUTF8? (encode t) = some (String.ofList t) :=
  dif_pos (String.ofList t).isValidUTF8

theorem length_le_encode (t : Text) : t.length ≤ (encode t).size := by
  rw [encode, String.toByteArray_ofList]
  induction t with
  | nil => exact Nat.zero_le _
  | cons c t ih =>
    have hone : 1 ≤ [c].utf8Encode.size := by
      have hne : [c].utf8Encode ≠ ByteArray.empty := by
        intro heq
        exact List.cons_ne_nil c [] (List.utf8Encode_eq_empty.1 heq)
      by_contra hzero
      exact hne (ByteArray.size_eq_zero_iff.1 (by omega))
    rw [List.utf8Encode_cons, ByteArray.size_append, List.length_cons]
    omega

theorem canonicalVersionBytes_ok (h : validateVersion (versionObject v) = .ok v) :
    canonicalVersionBytes v = .ok (canonical (versionObject v)) :=
  bind_ok.2 ⟨v, h, rfl⟩

/-- The canonical bytes are read back, unless there are too many of them. -/
theorem load_canonical (h : validateVersion (versionObject v) = .ok v) :
    loadVersionJson (canonical (versionObject v)) =
      if (canonical (versionObject v)).size ≤ MAX_JSON_BYTES then .ok v else .error "eval_json_invalid" := by
  have hdecodes := decodes_version v
  obtain ⟨c, tail, htext, -, -, -, hmark⟩ := hdecodes.begins
  have hsize : (canonical (versionObject v)).size ≠ 0 := by
    have hlength := length_le_encode (dumps (versionObject v))
    rw [htext, List.length_cons] at hlength
    rw [canonical, htext]
    omega
  have hhead : (String.ofList (dumps (versionObject v))).toList.head? ≠ some '\ufeff' := by
    rw [String.toList_ofList, htext]
    intro heq
    exact hmark (Option.some.inj heq)
  have hloads : loads strictHooks (String.ofList (dumps (versionObject v))).toList =
      some (versionObject v) := by
    rw [String.toList_ofList]
    exact hdecodes.loads
  rw [loadVersionJson]
  split_ifs with hfits
  · rw [require_true ⟨hsize, hfits⟩]
    apply bind_ok.2
    refine ⟨(), rfl, bind_ok.2 ⟨_, demand_ok.2 (decode_encode _), bind_ok.2 ⟨(), require_true hhead, ?_⟩⟩⟩
    exact bind_ok.2 ⟨versionObject v, demand_ok.2 hloads, h⟩
  · have hlarge : ¬ ((canonical (versionObject v)).size ≠ 0 ∧
        (canonical (versionObject v)).size ≤ MAX_JSON_BYTES) := fun hboth => hfits hboth.2
    rw [require_false hlarge]
    rfl

/-- Two versions with the same canonical text are the same. -/
theorem canonical_injective (hv : validateVersion (versionObject v) = .ok v)
    (hw : validateVersion (versionObject w) = .ok w)
    (h : canonical (versionObject v) = canonical (versionObject w)) : v = w := by
  have htext : dumps (versionObject v) = dumps (versionObject w) := encode_injective h
  have hloads := (decodes_version v).loads
  rw [htext, (decodes_version w).loads] at hloads
  rw [Option.some.inj hloads, hv] at hw
  exact Except.ok.inj hw

end RagPipeline.Datasets
