import RagPipeline.Source.Effects

/-! # Version sources do not change

The invariant of the storage under any calls in any order, and what follows:
a source that is there is a whole body some call took on, it stays as it is,
and whoever vouches for it vouches for exactly these bytes. -/

set_option autoImplicit false

namespace RagPipeline.Source
open Transition Table

variable {V D : Type} {digest : Bytes → D}

/-- A call that has taken on a body and may have put it under its version. -/
def Stands (digest : Bytes → D) (d : Storage V) (v : V) (i : Inode) (c : Call V D) : Prop :=
  c.version = v ∧ c.phase.early = false ∧ digest c.body = c.expected ∧ c.body = d.data i

structure Inv (digest : Bytes → D) (s : State V D) : Prop where
  names_lt : ∀ v name i, s.disk.lookup v name = some i → i < s.disk.next
  good : ∀ c ∈ s.calls, Good digest s.disk c
  apart : ∀ (m n : ℕ) (a b : Call V D), m ≠ n → s.calls[m]? = some a → s.calls[n]? = some b →
    ∀ id i, a.phase.holding = some (id, i) → ∀ id', b.phase.holding ≠ some (id', i)
  complete : ∀ v i, s.disk.lookup v .source = some i → ∃ c ∈ s.calls, Stands digest s.disk v i c
  fixed : ∀ v i, s.disk.lookup v .source = some i → ∀ c ∈ s.calls, c.phase.writes ≠ some i

theorem Good.own {d : Storage V} {c : Call V D} (h : Good digest d c) {id : ℕ} {i : Inode}
    (hh : c.phase.holding = some (id, i)) : Own d c id i := by
  obtain ⟨version, expected, maximum, body, phase⟩ := c
  cases phase <;> simp only [Phase.holding, Option.some.injEq, Prod.mk.injEq, reduceCtorEq] at hh
  all_goals
    obtain ⟨rfl, rfl⟩ := hh
    exact h.2.1

theorem writes_holding {phase : Phase D} {i : Inode} (h : phase.writes = some i) :
    ∃ id, phase.holding = some (id, i) := by
  cases phase <;> simp only [Phase.writes, Option.some.injEq, reduceCtorEq] at h
  subst h
  exact ⟨_, rfl⟩

variable [DecidableEq V]
variable {d d' : Storage V} {c c' : Call V D}

/-- What an effect does to the names of the storage and the bytes behind them. -/
structure Frame (digest : Bytes → D) (d : Storage V) (c : Call V D) (d' : Storage V)
    (c' : Call V D) : Prop where
  version : c'.version = c.version
  next : d.next ≤ d'.next
  names : ∀ v name i, d'.lookup v name = some i → d.lookup v name = some i ∨
    v = c.version ∧ (name = .source ∧ (∃ id, c.phase = .linking id i) ∨
      i = d.next ∧ d.next < d'.next ∧ name ≠ .source)
  kept : ∀ v name i, d.lookup v name = some i → d'.lookup v name = some i ∨
    v = c.version ∧ ∃ id j, name = .temporary id ∧ c.phase = .unlinking id j
  data : ∀ i, i < d.next → c.phase.writes ≠ some i → d'.data i = d.data i
  dirs : ∀ v, (d.dirs v).isSome → (d'.dirs v).isSome
  holding : ∀ id i, c'.phase.holding = some (id, i) →
    c.phase.holding = some (id, i) ∨ i = d.next ∧ c.phase.holding = none
  writes : ∀ i, c'.phase.writes = some i → c.phase.writes = some i ∨ i = d.next
  stands : c.phase.early = false →
    c'.body = c.body ∧ c'.expected = c.expected ∧ c'.phase.early = false

theorem frame_of_effect (h : Effect digest d c d' c') : Frame digest d c d' c' := by
  cases h with
  | still c' version body holding writes good =>
    refine ⟨version, le_rfl, fun _ _ _ h => .inl h, fun _ _ _ h => .inl h, fun _ _ _ => rfl,
      fun _ h => h, fun id i hi => .inl ?_, fun i hi => ?_, body⟩
    · rcases holding with h | h
      · rw [h] at hi
        cases hi
      · rwa [h] at hi
    · rw [writes] at hi
      cases hi
  | mkdir opening absent =>
    refine ⟨rfl, le_rfl, fun v name i h => .inl ?_, fun v name i h => .inl ?_, fun _ _ _ => rfl,
      fun v h => ?_, fun id i hi => ?_, fun i hi => ?_, fun _ => ⟨rfl, rfl, rfl⟩⟩
    · rw [Storage.lookup_setDir] at h
      split_ifs at h
      · simp at h
      · exact h
    · rw [Storage.lookup_setDir]
      split_ifs with hv
      · subst hv
        have := Storage.lookup_isSome_dir h
        rw [absent] at this
        cases this
      · exact h
    · by_cases hv : v = c.version
      · subst hv
        simp [Storage.setDir]
      · simpa [Storage.setDir, hv] using h
    · cases hi
    · cases hi
  | create id creating dir free =>
    refine ⟨rfl, Nat.le_succ _, fun v name i h => ?_, fun v name i h => .inl ?_, fun i hi _ => ?_,
      fun v h => ?_, fun id' i hi => .inr ?_, fun i hi => .inr ?_, fun _ => ⟨rfl, rfl, rfl⟩⟩
    · have h' : (d.addName c.version (.temporary id) d.next).lookup v name = some i := h
      rw [Storage.lookup_addName dir] at h'
      split_ifs at h' with hv
      · refine .inr ⟨hv.1, .inr ⟨(Option.some.inj h').symm, Nat.lt_succ_self _, ?_⟩⟩
        rw [hv.2]
        exact fun hn => Name.noConfusion hn
      · exact .inl h'
    · have h' : (d.addName c.version (.temporary id) d.next).lookup v name = some i := by
        rw [Storage.lookup_addName dir]
        split_ifs with hv
        · obtain ⟨rfl, rfl⟩ := hv
          rw [free] at h
          cases h
        · exact h
      exact h'
    · exact Function.update_of_ne (Nat.ne_of_lt hi) _ _
    · by_cases hv : v = c.version
      · subst hv
        simpa [Storage.setData, Storage.addName, Storage.setDir] using dir
      · simpa [Storage.setData, Storage.addName, Storage.setDir, hv] using h
    · cases hi
      exact ⟨rfl, by rw [creating]; rfl⟩
    · cases hi
      rfl
  | write id i written more writing left =>
    refine ⟨rfl, le_rfl, fun _ _ _ h => .inl h, fun _ _ _ h => .inl h, fun j _ hj => ?_,
      fun _ h => h, fun id' j hj => .inl ?_, fun j hj => .inl ?_, fun _ => ⟨rfl, rfl, rfl⟩⟩
    · refine Function.update_of_ne ?_ _ _
      rintro rfl
      exact hj (by rw [writing]; rfl)
    · rw [writing]
      exact hj
    · rw [writing]
      exact hj
  | link id i linking own free =>
    have hdir := Storage.lookup_isSome_dir own
    refine ⟨rfl, le_rfl, fun v name j h => ?_, fun v name j h => .inl ?_, fun _ _ _ => rfl,
      fun v h => ?_, fun id' j hj => .inl ?_, fun j hj => ?_, fun _ => ⟨rfl, rfl, rfl⟩⟩
    · rw [Storage.lookup_addName hdir] at h
      split_ifs at h with hv
      · cases h
        exact .inr ⟨hv.1, .inl ⟨hv.2, id, linking⟩⟩
      · exact .inl h
    · rw [Storage.lookup_addName hdir]
      split_ifs with hv
      · obtain ⟨rfl, rfl⟩ := hv
        rw [free] at h
        cases h
      · exact h
    · by_cases hv : v = c.version
      · subst hv
        simpa [Storage.addName, Storage.setDir] using h
      · simpa [Storage.addName, Storage.setDir, hv] using h
    · rw [linking]
      exact hj
    · cases hj
  | unlink id i unlinking =>
    refine ⟨rfl, le_rfl, fun v name j h => .inl ?_, fun v name j h => ?_, fun _ _ _ => rfl,
      fun v h => ?_, fun id' j hj => ?_, fun j hj => ?_, fun _ => ⟨rfl, rfl, rfl⟩⟩
    · rw [Storage.lookup_dropName] at h
      split_ifs at h
      exact h
    · rw [Storage.lookup_dropName]
      split_ifs with hv
      · exact .inr ⟨hv.1, id, i, hv.2, unlinking⟩
      · exact .inl h
    · by_cases hv : v = c.version
      · subst hv
        simpa [Storage.dropName, Storage.setDir] using h
      · simpa [Storage.dropName, Storage.setDir, hv] using h
    · cases hj
    · cases hj

omit [DecidableEq V] in
theorem take_block (body : Bytes) (w n : ℕ) :
    body.take w ++ (body.drop w).take n = body.take (w + ((body.drop w).take n).length) := by
  rw [List.take_add]
  congr 1
  rcases Nat.le_total n (body.drop w).length with h | h
  · rw [List.length_take_of_le h]
  · rw [List.take_of_length_le h, List.take_length]

/-- A good call is good after its own step. -/
theorem good_of_effect (hgood : Good digest d c) (h : Effect digest d c d' c') :
    Good digest d' c' := by
  cases h with
  | still c' version body holding writes good => exact good
  | mkdir opening absent =>
    rw [Good, opening] at hgood
    exact ⟨hgood, by simp [Storage.setDir, Call.at]⟩
  | create id creating dir free =>
    rw [Good, creating] at hgood
    refine ⟨hgood, ?_, Function.update_self ..⟩
    have hl : (d.addName c.version (.temporary id) d.next).lookup c.version (.temporary id) =
        some d.next := by
      rw [Storage.lookup_addName dir, if_pos ⟨rfl, rfl⟩]
    exact hl
  | write id i written more writing left =>
    rw [Good, writing] at hgood
    obtain ⟨hacc, hown, hdata⟩ := hgood
    refine ⟨hacc, hown, ?_⟩
    have hset : (d.setData i (d.data i ++ (c.body.drop written).take (more + 1))).data i =
        d.data i ++ (c.body.drop written).take (more + 1) := Function.update_self ..
    rw [hset, hdata]
    exact take_block c.body written (more + 1)
  | link id i linking own free =>
    rw [Good, linking] at hgood
    have hdir := Storage.lookup_isSome_dir own
    refine ⟨hgood.1, ?_, hgood.2.2, ?_⟩
    · rw [Own, Storage.lookup_addName hdir, if_neg (fun h => Name.noConfusion h.2)]
      exact own
    · rw [Storage.lookup_addName hdir]
      exact if_pos ⟨rfl, rfl⟩
  | unlink id i unlinking =>
    rw [Good, unlinking] at hgood
    refine ⟨hgood.1, hgood.2.2.1, ?_⟩
    rw [Storage.lookup_dropName, if_neg (fun h => Name.noConfusion h.2)]
    exact hgood.2.2.2

omit [DecidableEq V] in
/-- A step of one call leaves every other one what it relies on. -/
theorem Inv.kept {s : State V D} (hi : Inv digest s) {m n : ℕ} {b : Call V D} (hmn : m ≠ n)
    (hc : s.calls[m]? = some c) (hb : s.calls[n]? = some b) (hf : Frame digest s.disk c d' c') :
    Kept s.disk d' b := by
  have hcm := List.mem_of_getElem? hc
  have hbm := List.mem_of_getElem? hb
  refine ⟨fun i hs => ⟨?_, ?_⟩, fun id i hh hown => ⟨?_, ?_⟩, hf.dirs _⟩
  · rcases hf.kept _ _ _ hs with h | ⟨-, id, j, hn, -⟩
    · exact h
    · cases hn
  · exact hf.data i (hi.names_lt _ _ _ hs) (hi.fixed _ _ hs c hcm)
  · rcases hf.kept _ _ _ hown with h | ⟨hv, id', j, hn, hun⟩
    · exact h
    · cases hn
      have hch : c.phase.holding = some (id, j) := by
        rw [hun]
        rfl
      have hcown := (hi.good c hcm).own hch
      have hij : j = i := by
        rw [Own, hv] at hown
        exact Option.some.inj (hcown.symm.trans hown)
      subst hij
      exact absurd hh (hi.apart m n c b hmn hc hb id j hch id)
  · refine hf.data i (hi.names_lt _ _ _ hown) fun hw => ?_
    obtain ⟨id', hh'⟩ := writes_holding hw
    exact hi.apart m n c b hmn hc hb id' i hh' id hh

theorem mem_set_or {α : Type} {l : List α} {k : ℕ} {x y : α} (h : x ∈ l) :
    x ∈ l.set k y ∨ l[k]? = some x := by
  obtain ⟨j, hj⟩ := List.mem_iff_getElem?.1 h
  by_cases hjk : k = j
  · subst hjk
    exact .inr hj
  · exact .inl (List.mem_of_getElem? (i := j) (by rw [List.getElem?_set_ne hjk, hj]))

theorem mem_set_cases {α : Type} {l : List α} {k : ℕ} {x y : α} (h : x ∈ l.set k y) :
    x = y ∨ ∃ j, k ≠ j ∧ l[j]? = some x := by
  obtain ⟨j, hj⟩ := List.mem_iff_getElem?.1 h
  by_cases hjk : k = j
  · subst hjk
    rw [List.getElem?_set_self'] at hj
    exact .inl (by
      obtain ⟨_, -, rfl⟩ := Option.map_eq_some_iff.1 hj
      rfl)
  · rw [List.getElem?_set_ne hjk] at hj
    exact .inr ⟨j, hjk, hj⟩

/-- The invariant survives any effect of any call. -/
theorem Inv.effect {s : State V D} (hi : Inv digest s) {m : ℕ} (hc : s.calls[m]? = some c)
    (he : Effect digest s.disk c d' c') : Inv digest ⟨d', s.calls.set m c'⟩ := by
  have hf := frame_of_effect he
  have hcm := List.mem_of_getElem? hc
  have hgood := hi.good c hcm
  have hlink : ∀ {id i}, c.phase = .linking id i →
      c.Accepts digest c.body ∧ Own s.disk c id i ∧ s.disk.data i = c.body := by
    intro id i hp
    rw [Good, hp] at hgood
    exact hgood
  refine ⟨fun v name i h => ?_, fun b hb => ?_, fun j k a b hjk ha hb id i hh id' hh' => ?_,
    fun v i h => ?_, fun v i h b hb hw => ?_⟩
  · rcases hf.names v name i h with h | ⟨-, ⟨-, id, hp⟩ | ⟨rfl, hlt, -⟩⟩
    · exact lt_of_lt_of_le (hi.names_lt v name i h) hf.next
    · exact lt_of_lt_of_le (hi.names_lt _ _ _ (hlink hp).2.1) hf.next
    · exact hlt
  · rcases mem_set_cases hb with rfl | ⟨n, hmn, hb⟩
    · exact good_of_effect hgood he
    · exact (hi.good b (List.mem_of_getElem? hb)).kept (hi.kept hmn hc hb hf)
  · -- the stepping call may only hold what it held, or the fresh object
    have hnew {n : ℕ} {b : Call V D} (hmn : m ≠ n) (hb : s.calls[n]? = some b) {id id' i}
        (hh : c'.phase.holding = some (id, i)) : b.phase.holding ≠ some (id', i) := by
      intro hh'
      rcases hf.holding id i hh with h | ⟨rfl, -⟩
      · exact hi.apart m n c b hmn hc hb id i h id' hh'
      · exact absurd (hi.names_lt _ _ _ ((hi.good b (List.mem_of_getElem? hb)).own hh'))
          (lt_irrefl _)
    by_cases hj : m = j
    · subst hj
      rw [List.getElem?_set_self'] at ha
      obtain ⟨_, -, rfl⟩ := Option.map_eq_some_iff.1 ha
      rw [List.getElem?_set_ne hjk] at hb
      exact hnew hjk hb hh hh'
    · rw [List.getElem?_set_ne hj] at ha
      by_cases hk : m = k
      · subst hk
        rw [List.getElem?_set_self'] at hb
        obtain ⟨_, -, rfl⟩ := Option.map_eq_some_iff.1 hb
        exact hnew hj ha hh' hh
      · rw [List.getElem?_set_ne hk] at hb
        exact hi.apart j k a b hjk ha hb id i hh id' hh'
  · have hstands {b : Call V D} (hb : b ∈ s.calls) (hs : Stands digest s.disk v i b)
        (hdata : d'.data i = s.disk.data i) :
        ∃ b ∈ s.calls.set m c', Stands digest d' v i b := by
      rcases mem_set_or hb with h | h
      · exact ⟨b, h, hs.1, hs.2.1, hs.2.2.1, by rw [hdata]; exact hs.2.2.2⟩
      · obtain rfl : c = b := Option.some.inj (hc.symm.trans h)
        obtain ⟨hbody, hexp, hearly⟩ := hf.stands hs.2.1
        refine ⟨c', List.mem_set (by exact (List.getElem?_eq_some_iff.1 hc).1) c', ?_⟩
        exact ⟨hf.version.trans hs.1, hearly, by rw [hbody, hexp]; exact hs.2.2.1,
          by rw [hbody, hdata]; exact hs.2.2.2⟩
    rcases hf.names v .source i h with h | ⟨rfl, ⟨-, id, hp⟩ | ⟨-, -, hn⟩⟩
    · obtain ⟨b, hb, hs⟩ := hi.complete v i h
      exact hstands hb hs (hf.data i (hi.names_lt _ _ _ h) (hi.fixed v i h c hcm))
    · obtain ⟨hacc, hown, hdata⟩ := hlink hp
      refine hstands hcm ⟨rfl, by rw [hp]; rfl, hacc.1, hdata.symm⟩ ?_
      exact hf.data i (hi.names_lt _ _ _ hown) (by simp [hp, Phase.writes])
    · exact absurd rfl hn
  · rcases hf.names v .source i h with hold | ⟨rfl, ⟨-, id, hp⟩ | ⟨-, -, hn⟩⟩
    · rcases mem_set_cases hb with rfl | ⟨n, -, hb⟩
      · rcases hf.writes i hw with hw | rfl
        · exact hi.fixed v i hold c hcm hw
        · exact absurd (hi.names_lt _ _ _ hold) (lt_irrefl _)
      · exact hi.fixed v i hold b (List.mem_of_getElem? hb) hw
    · have hown := (hlink hp).2.1
      rcases mem_set_cases hb with rfl | ⟨n, hmn, hb⟩
      · rcases hf.writes i hw with hw | rfl
        · rw [hp] at hw
          cases hw
        · exact absurd (hi.names_lt _ _ _ hown) (lt_irrefl _)
      · obtain ⟨id', hh'⟩ := writes_holding hw
        exact hi.apart m n c b hmn hc hb id i (by rw [hp]; rfl) id' hh'
    · exact absurd rfl hn

variable {s s' : State V D}

omit [DecidableEq V] in
theorem limited_cases (c : Call V D) : c.limited = c ∨ c.limited = c.finish .refused := by
  rw [Call.limited]
  split
  · exact .inl rfl
  · exact .inr rfl

variable [DecidableEq D]

omit [DecidableEq V] in
/-- A call that begins is good, and has made nothing. -/
theorem good_request (d : Storage V) (request : Request V D) :
    Good digest d (request.call digest) ∧ (request.call digest).phase.holding = none ∧
      (request.call digest).phase.writes = none := by
  have hlimited (c : Call V D) (h : Good digest d c ∧ c.phase.holding = none ∧
      c.phase.writes = none) : Good digest d c.limited ∧ c.limited.phase.holding = none ∧
        c.limited.phase.writes = none := by
    rcases limited_cases c with hc | hc
    · rwa [hc]
    · rw [hc]
      exact ⟨trivial, rfl, rfl⟩
  cases request with
  | publish v body expected maximum =>
    simp only [Request.call]
    split
    · rename_i h
      exact hlimited _ ⟨h, rfl, rfl⟩
    · exact ⟨trivial, rfl, rfl⟩
  | migrate v expected maximum => exact hlimited _ ⟨trivial, rfl, rfl⟩
  | ensureBound v expected maximum => exact hlimited _ ⟨trivial, rfl, rfl⟩
  | read v expected maximum => exact hlimited _ ⟨trivial, rfl, rfl⟩

omit [DecidableEq V] in
theorem Inv.start (hi : Inv digest s) (request : Request V D) :
    Inv digest { s with calls := s.calls ++ [request.call digest] } := by
  obtain ⟨hgood, hnew⟩ : Good digest s.disk (request.call digest) ∧ _ := good_request s.disk request
  refine ⟨hi.names_lt, fun b hb => ?_, fun j k a b hjk ha hb id i hh id' hh' => ?_,
    fun v i h => ?_, fun v i h b hb hw => ?_⟩
  · rcases List.mem_append.1 hb with hb | hb
    · exact hi.good b hb
    · rw [List.mem_singleton.1 hb]
      exact hgood
  · have hold {n : ℕ} {b : Call V D} (hb : (s.calls ++ [request.call digest])[n]? = some b)
        {id : ℕ} {i : Inode} (hh : b.phase.holding = some (id, i)) : s.calls[n]? = some b := by
      rcases Nat.lt_or_ge n s.calls.length with hlt | hge
      · rwa [List.getElem?_append_left hlt] at hb
      · rw [List.getElem?_append_right hge] at hb
        have hb' := List.mem_of_getElem? hb
        rw [List.mem_singleton.1 hb', hnew.1] at hh
        cases hh
    exact hi.apart j k a b hjk (hold ha hh) (hold hb hh') id i hh id' hh'
  · obtain ⟨b, hb, hs⟩ := hi.complete v i h
    exact ⟨b, List.mem_append_left _ hb, hs⟩
  · rcases List.mem_append.1 hb with hb | hb
    · exact hi.fixed v i h b hb hw
    · rw [List.mem_singleton.1 hb, hnew.2] at hw
      cases hw

/-- Every event is a new call, or an effect of one that is there. -/
theorem exec_cases {e : Event V D} (hi : Inv digest s) (h : exec digest s e = some s') :
    (∃ request, e = .start request ∧ s' = { s with calls := s.calls ++ [request.call digest] }) ∨
      ∃ m c c', s.calls[m]? = some c ∧ Effect digest s.disk c s'.disk c' ∧
        s'.calls = s.calls.set m c' ∧
        ((e = .die m ∧ c' = c.finish .died) ∨
          ∃ choice, e = .run m choice ∧ advance digest choice s.disk c = some (s'.disk, c')) := by
  cases e with
  | start request => exact .inl ⟨request, rfl, (Option.some.inj h).symm⟩
  | run m choice =>
    obtain ⟨c, hc, h⟩ := Option.bind_eq_some_iff.1 h
    obtain ⟨⟨d', c'⟩, hadv, rfl⟩ := Option.map_eq_some_iff.1 h
    exact .inr ⟨m, c, c', hc,
      effect_of_advance (hi.good c (List.mem_of_getElem? hc)) hadv, rfl, .inr ⟨choice, rfl, hadv⟩⟩
  | die m =>
    obtain ⟨c, hc, rfl⟩ := Option.map_eq_some_iff.1 h
    exact .inr ⟨m, c, c.finish .died, hc, effect_finish trivial, rfl, .inl ⟨rfl, rfl⟩⟩

theorem Inv.exec {e : Event V D} (hi : Inv digest s) (h : exec digest s e = some s') :
    Inv digest s' := by
  rcases exec_cases hi h with ⟨request, -, rfl⟩ | ⟨m, c, c', hc, heffect, hcalls, -⟩
  · exact hi.start request
  · have := hi.effect hc heffect
    rwa [← hcalls] at this

theorem reachable_inv (h : (system (V := V) digest).Reachable s) : Inv digest s := by
  refine System.invariant (fun s hs => ?_) (fun s e s' _ hi h => hi.exec h) h
  obtain ⟨hcalls, hdirs⟩ := hs
  have hnone (v : V) (name : Name) : s.disk.lookup v name = none := by
    simp [Storage.lookup, hdirs v]
  refine ⟨fun v name i h => ?_, by simp [hcalls], by simp [hcalls], fun v i h => ?_, by simp [hcalls]⟩
  · rw [hnone] at h
    cases h
  · rw [hnone] at h
    cases h

/-- A step leaves a source that is there where it is, and as it is. -/
theorem exec_source {e : Event V D} (hi : Inv digest s) (h : exec digest s e = some s') {v : V}
    {i : Inode} (hs : s.disk.lookup v .source = some i) :
    s'.disk.lookup v .source = some i ∧ s'.disk.data i = s.disk.data i := by
  rcases exec_cases hi h with ⟨request, -, rfl⟩ | ⟨m, c, c', hc, heffect, -, -⟩
  · exact ⟨hs, rfl⟩
  · have hf := frame_of_effect heffect
    refine ⟨?_, hf.data i (hi.names_lt _ _ _ hs) (hi.fixed v i hs c (List.mem_of_getElem? hc))⟩
    rcases hf.kept _ _ _ hs with h | ⟨-, id, j, hn, -⟩
    · exact h
    · cases hn

/-- In every state that calls in any order lead to, each of them dying wherever
it may: a source is a whole body that some call took on, and stays so; a call
that returned an object gave the digest and the size of these bytes, and one
that served bytes served these. -/
theorem source_immutable (hr : (system (V := V) digest).Reachable s) :
    (∀ v i, s.disk.lookup v .source = some i →
      (∃ c ∈ s.calls, c.version = v ∧ digest c.body = c.expected ∧ c.body = s.disk.data i) ∧
        ∀ s', (system digest).Later s s' →
          s'.disk.lookup v .source = some i ∧ s'.disk.data i = s.disk.data i) ∧
      ∀ c ∈ s.calls,
        (∀ sha size, c.phase = .ended (.object sha size) →
          ∃ i, s.disk.lookup c.version .source = some i ∧ digest (s.disk.data i) = sha ∧
            (s.disk.data i).length = size) ∧
        ∀ body, c.phase = .ended (.served body) →
          ∃ i, s.disk.lookup c.version .source = some i ∧ s.disk.data i = body := by
  have hi := reachable_inv hr
  refine ⟨fun v i h => ⟨?_, fun s' hl => ?_⟩, fun c hc => ⟨fun sha size hp => ?_, fun body hp => ?_⟩⟩
  · obtain ⟨c, hc, hs⟩ := hi.complete v i h
    exact ⟨c, hc, hs.1, hs.2.2.1, hs.2.2.2⟩
  · refine System.stable (P := fun t => t.disk.lookup v .source = some i ∧
      t.disk.data i = s.disk.data i) (fun t e t' ht hp he => ?_) hr ⟨h, rfl⟩ hl
    obtain ⟨hs, hd⟩ := exec_source (reachable_inv ht) he hp.1
    exact ⟨hs, hd.trans hp.2⟩
  · have := hi.good c hc
    rwa [Good, hp] at this
  · have := hi.good c hc
    rwa [Good, hp] at this

/-- Nothing there yet. -/
def emptyState : State Unit Bytes where
  disk := ⟨fun _ => none, fun _ => [], 0, none⟩
  calls := []

/-- Two publishers of the same bytes: both make their temporaries, the first
links, and the second finds the name taken. -/
def race : List (Event Unit Bytes) :=
  let run (i : ℕ) : Event Unit Bytes := .run i ⟨i, 9, none, true⟩
  [.start (.publish () [1, 2] [1, 2] 8), .start (.publish () [1, 2] [1, 2] 8)] ++
    [run 0, run 1, run 0, run 1, run 0, run 1] ++
    (List.replicate 6 (run 0)) ++ (List.replicate 6 (run 1)) ++ List.replicate 4 (run 0) ++
    List.replicate 2 (run 1)

def raced : State Unit Bytes := (System.play (exec id) emptyState race).getD emptyState

theorem raced_reachable : (system id).Reachable raced := by
  have hexec : ∀ s e s', exec id s e = some s' → (system (V := Unit) id).step s e s' :=
    fun _ _ _ h => h
  have hplay : System.play (exec id) emptyState race = some raced := by
    have hsome : (System.play (exec id) emptyState race).isSome = true := by decide +kernel
    obtain ⟨s, hs⟩ := Option.isSome_iff_exists.1 hsome
    rw [raced, hs]
    rfl
  exact System.reachable_play hexec (.start ⟨rfl, fun _ => rfl⟩) hplay

theorem source_immutable_race :
    (raced.calls.map fun c => c.phase) =
        [.ended (.object [1, 2] 2), .ended (.object [1, 2] 2)] ∧
      raced.disk.lookup () .source = some 0 ∧
      ∀ s', (system id).Later raced s' →
        s'.disk.lookup () .source = some 0 ∧ s'.disk.data 0 = raced.disk.data 0 :=
  ⟨by decide +kernel, by decide +kernel,
    ((source_immutable raced_reachable).1 () 0 (by decide +kernel)).2⟩

end RagPipeline.Source
