import Mathlib.Data.List.Nodup
import RagPipeline.Lib.Guard

/-! # Trees worked off with a stack

A tree of leaves and branches, the recursion through it written as the list of what
it does, and the loop that does the same with a stack of frames: at every turn the
first thing that is left to do, and nothing else. -/

set_option autoImplicit false

namespace RagPipeline.DepthFirst
open Guard

inductive Tree (α β : Type) where
  | leaf (a : α)
  | branch (b : β) (below : List (Tree α β))

/-- What happens on the way: a leaf is met, a branch is entered, and what was entered
is left again. Each says through which branches it was reached. -/
inductive Event (α β : Type) where
  | leaf (path : List β) (a : α)
  | enter (path : List β) (b : β)
  | leave (path : List β)

variable {α β σ ε γ : Type}

mutual

def Tree.tour (path : List β) : Tree α β → List (Event α β)
  | .leaf a => [.leaf path a]
  | .branch b below => .enter path b :: (tours (path ++ [b]) below ++ [.leave (path ++ [b])])

/-- The recursion through trees that stand next to each other. -/
def tours (path : List β) : List (Tree α β) → List (Event α β)
  | [] => []
  | t :: rest => t.tour path ++ tours path rest

end

/-- A leaf or a branch, with the branches above it. -/
abbrev Found (α β : Type) := List β × (α ⊕ β)

mutual

def Tree.listing (path : List β) : Tree α β → List (Found α β)
  | .leaf a => [(path, .inl a)]
  | .branch b below => (path, .inr b) :: listing (path ++ [b]) below

/-- All leaves and branches, a branch before what is under it. -/
def listing (path : List β) : List (Tree α β) → List (Found α β)
  | [] => []
  | t :: rest => t.listing path ++ listing path rest

end

@[simp] theorem tours_leaf (path : List β) (a : α) (rest : List (Tree α β)) :
    tours path (.leaf a :: rest) = .leaf path a :: tours path rest := rfl

@[simp] theorem tours_branch (path : List β) (b : β) (below rest : List (Tree α β)) :
    tours path (.branch b below :: rest) =
      .enter path b :: (tours (path ++ [b]) below ++ .leave (path ++ [b]) :: tours path rest) := by
  show .enter path b :: (tours (path ++ [b]) below ++ [.leave (path ++ [b])] ++ tours path rest) = _
  rw [List.append_assoc]
  rfl

@[simp] theorem listing_leaf (path : List β) (a : α) (rest : List (Tree α β)) :
    listing path (.leaf a :: rest) = (path, .inl a) :: listing path rest := rfl

@[simp] theorem listing_branch (path : List β) (b : β) (below rest : List (Tree α β)) :
    listing path (.branch b below :: rest) =
      (path, .inr b) :: (listing (path ++ [b]) below ++ listing path rest) := rfl

/-- The induction over trees that stand next to each other. -/
@[elab_as_elim]
theorem forest_induction {P : List (Tree α β) → Prop} (nil : P [])
    (leaf : ∀ a rest, P rest → P (.leaf a :: rest))
    (branch : ∀ b below rest, P below → P rest → P (.branch b below :: rest)) :
    ∀ trees, P trees := by
  have hall : ∀ t : Tree α β, ∀ rest, P rest → P (t :: rest) := by
    apply @Tree.rec α β (fun t => ∀ rest, P rest → P (t :: rest)) P
    case leaf => exact leaf
    case branch => exact fun b below ih rest hrest => branch b below rest ih hrest
    case nil => exact nil
    case cons => exact fun t rest iht ih => iht rest ih
  intro trees
  induction trees with
  | nil => exact nil
  | cons t rest ih => exact hall t rest ih

/-- What holds of the trees and of those under each branch, however deep. -/
inductive Everywhere (P : List (Tree α β) → Prop) : List (Tree α β) → Prop where
  | mk {trees : List (Tree α β)} (here : P trees)
      (inside : ∀ b below, .branch b below ∈ trees → Everywhere P below) : Everywhere P trees

theorem Everywhere.here {P : List (Tree α β) → Prop} {trees : List (Tree α β)}
    (h : Everywhere P trees) : P trees := by
  cases h with
  | mk hhere _ => exact hhere

theorem Everywhere.under {P : List (Tree α β) → Prop} {trees below : List (Tree α β)} {b : β}
    (h : Everywhere P trees) (hb : .branch b below ∈ trees) : Everywhere P below := by
  cases h with
  | mk _ hinside => exact hinside b below hb

theorem Everywhere.nil {P : List (Tree α β) → Prop} (h : P []) : Everywhere P [] :=
  ⟨h, fun _ _ hb => absurd hb List.not_mem_nil⟩

/-! ## The stack -/

/-- An entered branch and what of it is still to be worked off. -/
structure Frame (α β : Type) where
  path : List β
  rest : List (Tree α β)

/-- What is left to do, the innermost frame first. -/
def pending : List (Frame α β) → List (Event α β)
  | [] => []
  | f :: outer => tours f.path f.rest ++ .leave f.path :: pending outer

/-- The stack after one turn, and what the turn does. -/
def turn : List (Frame α β) → Option (Event α β × List (Frame α β))
  | [] => none
  | ⟨path, []⟩ :: outer => some (.leave path, outer)
  | ⟨path, .leaf a :: rest⟩ :: outer => some (.leaf path a, ⟨path, rest⟩ :: outer)
  | ⟨path, .branch b below :: rest⟩ :: outer =>
    some (.enter path b, ⟨path ++ [b], below⟩ :: ⟨path, rest⟩ :: outer)

/-- A turn does the first of what is left, and leaves the others in their order. -/
theorem turn_pending (stack : List (Frame α β)) :
    pending stack = ((turn stack).map fun e => e.1 :: pending e.2).getD [] := by
  cases stack with
  | nil => rfl
  | cons f outer =>
    obtain ⟨path, rest⟩ := f
    cases rest with
    | nil => rfl
    | cons t rest =>
      cases t with
      | leaf a => rfl
      | branch b below =>
        show tours path (.branch b below :: rest) ++ .leave path :: pending outer = .enter path b ::
          (tours (path ++ [b]) below ++ .leave (path ++ [b]) :: (tours path rest ++ .leave path :: pending outer))
        simp

theorem turn_some {stack outer : List (Frame α β)} {e : Event α β} (h : turn stack = some (e, outer)) :
    pending stack = e :: pending outer := by
  rw [turn_pending, h]
  rfl

/-- Every frame lies on those it was reached through. -/
def Stacked : List (Frame α β) → Prop
  | [] => True
  | f :: outer => outer.length = f.path.length ∧ Stacked outer

theorem turn_stacked {stack outer : List (Frame α β)} {e : Event α β} (hs : Stacked stack)
    (h : turn stack = some (e, outer)) : Stacked outer := by
  cases stack with
  | nil => cases h
  | cons f outer' =>
    obtain ⟨path, rest⟩ := f
    cases rest with
    | nil =>
      obtain ⟨-, rfl⟩ := Prod.mk.inj (Option.some.inj h)
      exact hs.2
    | cons t rest =>
      cases t with
      | leaf a =>
        obtain ⟨-, rfl⟩ := Prod.mk.inj (Option.some.inj h)
        exact hs
      | branch b below =>
        obtain ⟨-, rfl⟩ := Prod.mk.inj (Option.some.inj h)
        refine ⟨?_, hs⟩
        rw [List.length_cons, List.length_append, hs.1]
        rfl

/-! ## What is met -/

def Event.found : Event α β → Option (Found α β)
  | .leaf path a => some (path, .inl a)
  | .enter path b => some (path, .inr b)
  | .leave _ => none

/-- The recursion meets every leaf and every branch once, in the order of the listing. -/
theorem tours_found (path : List β) (trees : List (Tree α β)) :
    (tours path trees).filterMap Event.found = listing path trees := by
  induction trees using forest_induction generalizing path with
  | nil => rfl
  | leaf a rest ih =>
    rw [tours_leaf, listing_leaf, ← ih]
    rfl
  | branch b below rest ihbelow ih =>
    rw [tours_branch, listing_branch, ← ihbelow, ← ih, ← List.filterMap_append]
    show (path, .inr b) :: (tours (path ++ [b]) below ++ .leave (path ++ [b]) :: tours path rest).filterMap
      Event.found = _
    rw [List.filterMap_append, List.filterMap_append]
    rfl

theorem tours_length (path : List β) (trees : List (Tree α β)) :
    (tours path trees).length ≤ 2 * (listing path trees).length := by
  induction trees using forest_induction generalizing path with
  | nil => exact Nat.le_refl 0
  | leaf a rest ih =>
    have hrest := ih path
    rw [tours_leaf, listing_leaf, List.length_cons, List.length_cons]
    omega
  | branch b below rest ihbelow ih =>
    have hbelow := ihbelow (path ++ [b])
    have hrest := ih path
    simp only [tours_branch, listing_branch, List.length_cons, List.length_append]
    omega

theorem mem_listing_iff {path : List β} {trees : List (Tree α β)} {f : Found α β} :
    f ∈ listing path trees ↔ ∃ e ∈ tours path trees, e.found = some f := by
  rw [← tours_found, List.mem_filterMap]

theorem leave_mem_iff {path p : List β} {trees : List (Tree α β)} :
    .leave p ∈ tours path trees ↔ ∃ above b, p = above ++ [b] ∧ (above, .inr b) ∈ listing path trees := by
  induction trees using forest_induction generalizing path with
  | nil => simp [tours, listing]
  | leaf a rest ih => simp [ih]
  | branch b below rest ihbelow ih =>
    simp only [tours_branch, listing_branch, List.mem_append, List.mem_cons, ihbelow, ih,
      reduceCtorEq, false_or, Event.leave.injEq, Prod.mk.injEq, Sum.inr.injEq]
    constructor
    · rintro (⟨above, c, hp, hmem⟩ | hp | ⟨above, c, hp, hmem⟩)
      · exact ⟨above, c, hp, .inr (.inl hmem)⟩
      · exact ⟨path, b, hp, .inl ⟨rfl, rfl⟩⟩
      · exact ⟨above, c, hp, .inr (.inr hmem)⟩
    · rintro ⟨above, c, hp, ⟨rfl, rfl⟩ | hmem | hmem⟩
      · exact .inr (.inl hp)
      · exact .inl ⟨above, c, hp, hmem⟩
      · exact .inr (.inr ⟨above, c, hp, hmem⟩)

/-! ## Places -/

section
variable {κ : Type} (nameLeaf : α → κ) (nameBranch : β → κ)

def Tree.name : Tree α β → κ
  | .leaf a => nameLeaf a
  | .branch b _ => nameBranch b

/-- The names on the way to what was found, its own at the end. -/
def Found.place (f : Found α β) : List κ := f.1.map nameBranch ++ [f.2.elim nameLeaf nameBranch]

theorem place_of_mem {path : List β} {trees : List (Tree α β)} {f : Found α β}
    (h : f ∈ listing path trees) :
    ∃ t ∈ trees, ∃ more, Found.place nameLeaf nameBranch f =
      path.map nameBranch ++ t.name nameLeaf nameBranch :: more := by
  induction trees using forest_induction generalizing path with
  | nil => cases h
  | leaf a rest ih =>
    cases List.mem_cons.1 h with
    | inl heq =>
      subst heq
      exact ⟨_, List.mem_cons_self, [], rfl⟩
    | inr hrest =>
      obtain ⟨t, ht, more, hplace⟩ := ih hrest
      exact ⟨t, List.mem_cons_of_mem _ ht, more, hplace⟩
  | branch b below rest ihbelow ih =>
    cases List.mem_append.1 h with
    | inl hfirst =>
      refine ⟨_, List.mem_cons_self, ?_⟩
      cases List.mem_cons.1 hfirst with
      | inl heq =>
        subst heq
        exact ⟨[], rfl⟩
      | inr hbelow =>
        obtain ⟨t, -, more, hplace⟩ := ihbelow hbelow
        refine ⟨t.name nameLeaf nameBranch :: more, ?_⟩
        rw [hplace, List.map_append, List.append_assoc]
        rfl
    | inr hrest =>
      obtain ⟨t, ht, more, hplace⟩ := ih hrest
      exact ⟨t, List.mem_cons_of_mem _ ht, more, hplace⟩

variable {nameLeaf nameBranch}

/-- What is found under one name is not found under another next to it. -/
theorem places_apart {path : List β} {t : Tree α β} {rest : List (Tree α β)} {f g : Found α β}
    (hnames : ((t :: rest).map (Tree.name nameLeaf nameBranch)).Nodup) (hf : f ∈ t.listing path)
    (hg : g ∈ listing path rest) : Found.place nameLeaf nameBranch f ≠ Found.place nameLeaf nameBranch g := by
  have hfirst : f ∈ listing path [t] := List.mem_append_left _ hf
  obtain ⟨u, hu, more, hplace⟩ := place_of_mem nameLeaf nameBranch hfirst
  obtain ⟨v, hv, more', hplace'⟩ := place_of_mem nameLeaf nameBranch hg
  obtain rfl := List.mem_singleton.1 hu
  intro heq
  rw [hplace, hplace', List.append_cancel_left_eq, List.cons.injEq] at heq
  rw [List.map_cons, List.nodup_cons] at hnames
  apply hnames.1
  rw [heq.1]
  exact List.mem_map.2 ⟨v, hv, rfl⟩

/-- Names that differ where they stand next to each other. -/
def Named (nameLeaf : α → κ) (nameBranch : β → κ) : List (Tree α β) → Prop :=
  Everywhere fun trees => (trees.map (Tree.name nameLeaf nameBranch)).Nodup

theorem Named.tail {t : Tree α β} {rest : List (Tree α β)} (h : Named nameLeaf nameBranch (t :: rest)) :
    Named nameLeaf nameBranch rest := by
  constructor
  · have hnames := h.here
    rw [List.map_cons, List.nodup_cons] at hnames
    exact hnames.2
  · intro b below hb
    exact h.under (List.mem_cons_of_mem t hb)

/-- Every place is found once. -/
theorem places_nodup {path : List β} {trees : List (Tree α β)} (h : Named nameLeaf nameBranch trees) :
    ((listing path trees).map (Found.place nameLeaf nameBranch)).Nodup := by
  induction trees using forest_induction generalizing path with
  | nil => exact .nil
  | leaf a rest ih =>
    show ((Tree.listing path (.leaf a) ++ listing path rest).map (Found.place nameLeaf nameBranch)).Nodup
    rw [List.map_append, List.nodup_append]
    refine ⟨List.nodup_singleton _, ih h.tail, ?_⟩
    intro p hp q hq
    obtain ⟨f, hf, rfl⟩ := List.mem_map.1 hp
    obtain ⟨g, hg, rfl⟩ := List.mem_map.1 hq
    exact places_apart h.here hf hg
  | branch b below rest ihbelow ih =>
    show ((Tree.listing path (.branch b below) ++ listing path rest).map (Found.place nameLeaf nameBranch)).Nodup
    rw [List.map_append, List.nodup_append]
    refine ⟨?_, ih h.tail, ?_⟩
    · show (Found.place nameLeaf nameBranch (path, .inr b) ::
        (listing (path ++ [b]) below).map (Found.place nameLeaf nameBranch)).Nodup
      rw [List.nodup_cons]
      refine ⟨?_, ihbelow (h.under List.mem_cons_self)⟩
      intro hmem
      -- what is under a branch stands deeper than the branch
      obtain ⟨f, hf, hplace⟩ := List.mem_map.1 hmem
      obtain ⟨t, -, more, hdeeper⟩ := place_of_mem nameLeaf nameBranch hf
      rw [hdeeper] at hplace
      have hlength := congrArg List.length hplace
      simp only [Found.place, List.length_append, List.length_map, List.length_cons,
        List.length_nil] at hlength
      omega
    · intro p hp q hq
      obtain ⟨f, hf, rfl⟩ := List.mem_map.1 hp
      obtain ⟨g, hg, rfl⟩ := List.mem_map.1 hq
      exact places_apart h.here hf hg

/-- Under further branches the same places are found, further down. -/
theorem places_under (nameLeaf : α → κ) (nameBranch : β → κ) (above path : List β) (trees : List (Tree α β)) :
    (listing (above ++ path) trees).map (Found.place nameLeaf nameBranch) =
      (listing path trees).map fun f => above.map nameBranch ++ Found.place nameLeaf nameBranch f := by
  induction trees using forest_induction generalizing path with
  | nil => rfl
  | leaf a rest ih =>
    rw [listing_leaf, listing_leaf, List.map_cons, List.map_cons, ih]
    simp [Found.place]
  | branch b below rest ihbelow ih =>
    rw [listing_branch, listing_branch, List.map_cons, List.map_cons, List.map_append, List.map_append, ih,
      List.append_assoc, ihbelow]
    simp [Found.place]

/-- What is left to do meets what is left of the frames. -/
theorem pending_found (stack : List (Frame α β)) :
    (pending stack).filterMap Event.found = stack.flatMap fun f => listing f.path f.rest := by
  induction stack with
  | nil => rfl
  | cons f outer ih =>
    rw [pending, List.filterMap_append, tours_found, List.filterMap_cons_none rfl, ih]
    rfl

end

/-! ## Loops that work off a stack -/

/-- What one turn of a loop comes to; where it raises, something may be left to put away. -/
inductive Outcome (S ρ ε τ : Type) where
  | next (s : S)
  | done (r : ρ)
  | raised (e : ε) (left : τ)

section
variable {S ρ τ : Type} (step : S → Outcome S ρ ε τ)

/-- The loop, for as many turns as it may take. -/
def loop : ℕ → S → Option (Except (ε × τ) ρ)
  | 0, _ => none
  | n + 1, s =>
    match step s with
    | .next s' => loop n s'
    | .done r => some (.ok r)
    | .raised e left => some (.error (e, left))

/-- The state after some turns. -/
def after : ℕ → S → Option S
  | 0, s => some s
  | n + 1, s =>
    match step s with
    | .next s' => after n s'
    | _ => none

/-- The same outcome, of a loop that holds its state otherwise. -/
def Outcome.map {S' τ' : Type} (f : S → S') (h : τ → τ') : Outcome S ρ ε τ → Outcome S' ρ ε τ'
  | .next s => .next (f s)
  | .done r => .done r
  | .raised e left => .raised e (h left)

variable {step}

/-- Loops whose turns come to the same come to the same. -/
theorem loop_map {S' τ' : Type} {step' : S' → Outcome S' ρ ε τ'} {f : S → S'} {h : τ → τ'} {P : S → Prop}
    (hstep : ∀ s, P s → step' (f s) = (step s).map f h) (hkeep : ∀ s s', P s → step s = .next s' → P s')
    {s : S} (hs : P s) (n : ℕ) :
    loop step' n (f s) = (loop step n s).map (·.mapError (Prod.map id h)) := by
  induction n generalizing s with
  | zero => rfl
  | succ n ih =>
    rw [loop, loop, hstep s hs]
    cases hnext : step s with
    | next s' => exact ih (hkeep s s' hs hnext)
    | done r => rfl
    | raised e left => rfl

/-- What every turn preserves holds after any number of turns. -/
theorem after_preserves {P : S → Prop} (hstep : ∀ s s', P s → step s = .next s' → P s') {n : ℕ}
    {s s' : S} (hs : P s) (h : after step n s = some s') : P s' := by
  induction n generalizing s with
  | zero =>
    obtain rfl := Option.some.inj h
    exact hs
  | succ n ih =>
    rw [after] at h
    cases hnext : step s with
    | next s₁ =>
      rw [hnext] at h
      exact ih (hstep s s₁ hs hnext) h
    | done r =>
      rw [hnext] at h
      cases h
    | raised e left =>
      rw [hnext] at h
      cases h

end

section
variable {S τ : Type} {step : S → Outcome S σ ε τ} {act : σ → Event α β → Except ε σ}
  {shows : S → List (Frame α β) → σ → Prop} {s : S} {stack : List (Frame α β)} {p p' : σ}

/-- A turn goes on to where the rest of a stack is left, or raises what it has to. -/
def Outcome.Agrees (shows : S → List (Frame α β) → σ → Prop) (outer : List (Frame α β)) :
    Outcome S σ ε τ → Except ε σ → Prop
  | .next s, .ok p => shows s outer p
  | .raised e _, .error err => e = err
  | _, _ => False

theorem Outcome.Agrees.ok {outer : List (Frame α β)} {o : Outcome S σ ε τ}
    (h : o.Agrees shows outer (.ok p)) : ∃ s, o = .next s ∧ shows s outer p := by
  cases o with
  | next s => exact ⟨s, rfl, h⟩
  | done r => cases h
  | raised e left => cases h

theorem Outcome.Agrees.error {outer : List (Frame α β)} {o : Outcome S σ ε τ} {err : ε}
    (h : o.Agrees shows outer (.error err)) : ∃ left, o = .raised err left := by
  cases o with
  | next s => cases h
  | done r => cases h
  | raised e left =>
    obtain rfl : e = err := h
    exact ⟨left, rfl⟩

/-- The loop does at every turn what a stack has first. -/
structure WorksOff (step : S → Outcome S σ ε τ) (act : σ → Event α β → Except ε σ)
    (shows : S → List (Frame α β) → σ → Prop) : Prop where
  done : ∀ {s p}, shows s [] p → step s = .done p
  takes : ∀ {s stack p e outer}, shows s stack p → turn stack = some (e, outer) →
    (step s).Agrees shows outer (act p e)

theorem turn_eq_none {stack : List (Frame α β)} (h : turn stack = none) : stack = [] := by
  unfold turn at h
  split at h
  · rfl
  all_goals cases h

/-- The loop ends, and with what the recursion comes to. -/
theorem WorksOff.loop_eq (h : WorksOff step act shows) (hs : shows s stack p) {fuel : ℕ}
    (hfuel : (pending stack).length < fuel) :
    (loop step fuel s).map (·.mapError Prod.fst) = some ((pending stack).foldlM act p) := by
  induction fuel generalizing s stack p with
  | zero => exact absurd hfuel (Nat.not_lt_zero _)
  | succ fuel ih =>
    cases hturn : turn stack with
    | none =>
      obtain rfl := turn_eq_none hturn
      rw [loop, h.done hs]
      rfl
    | some e =>
      obtain ⟨e, outer⟩ := e
      rw [turn_some hturn] at hfuel ⊢
      rw [List.foldlM_cons, loop]
      have hstep := h.takes hs hturn
      cases hact : act p e with
      | error err =>
        rw [hact] at hstep
        obtain ⟨left, hstep⟩ := hstep.error
        rw [hstep]
        rfl
      | ok p' =>
        rw [hact] at hstep
        obtain ⟨s', hstep, hs'⟩ := hstep.ok
        rw [hstep]
        exact ih hs' (Nat.lt_of_succ_lt_succ hfuel)

/-- What was done after some turns and what is left are together what there was to do. -/
theorem WorksOff.after_eq (h : WorksOff step act shows) (hs : shows s stack p) {n : ℕ} {s' : S}
    (hafter : after step n s = some s') :
    ∃ events stack' p', shows s' stack' p' ∧ pending stack = events ++ pending stack' ∧
      events.foldlM act p = .ok p' := by
  induction n generalizing s stack p with
  | zero =>
    obtain rfl := Option.some.inj hafter
    exact ⟨[], stack, p, hs, rfl, rfl⟩
  | succ n ih =>
    rw [after] at hafter
    cases hturn : turn stack with
    | none =>
      obtain rfl := turn_eq_none hturn
      rw [h.done hs] at hafter
      cases hafter
    | some e =>
      obtain ⟨e, outer⟩ := e
      have hstep := h.takes hs hturn
      cases hact : act p e with
      | error err =>
        rw [hact] at hstep
        obtain ⟨left, hstep⟩ := hstep.error
        rw [hstep] at hafter
        cases hafter
      | ok p₁ =>
        rw [hact] at hstep
        obtain ⟨s₁, hstep, hs₁⟩ := hstep.ok
        rw [hstep] at hafter
        obtain ⟨events, stack', p', hshows, hpending, hfold⟩ := ih hs₁ hafter
        refine ⟨e :: events, stack', p', hshows, ?_, ?_⟩
        · rw [turn_some hturn, hpending]
          rfl
        · rw [List.foldlM_cons, hact]
          exact hfold

end

/-! ## Folds on a budget -/

section
variable {act : σ → γ → Except ε σ} {fine : γ → Prop} {within : σ → Prop} {plus : σ → γ → σ}
  {p p' : σ}

theorem within_foldl (hshrink : ∀ p e, within (plus p e) → within p) (events : List γ)
    (h : within (events.foldl plus p)) : within p := by
  induction events generalizing p with
  | nil => exact h
  | cons e events ih => exact hshrink p e (ih h)

/-- Where a step gets through if it is fine by itself and a budget still holds, and the
budget only shrinks, a fold gets through exactly where every step is fine and the budget
holds at the end. -/
theorem foldlM_budget
    (hact : ∀ p e p', within p → (act p e = .ok p' ↔ fine e ∧ within (plus p e) ∧ p' = plus p e))
    (hshrink : ∀ p e, within (plus p e) → within p) (hp : within p) (events : List γ) :
    events.foldlM act p = .ok p' ↔
      (∀ e ∈ events, fine e) ∧ within (events.foldl plus p) ∧ p' = events.foldl plus p := by
  induction events generalizing p with
  | nil =>
    rw [List.foldlM_nil, pure_ok]
    exact ⟨fun h => ⟨fun _ he => absurd he List.not_mem_nil, hp, h.symm⟩, fun h => h.2.2.symm⟩
  | cons e events ih =>
    rw [List.foldlM_cons, bind_ok]
    constructor
    · rintro ⟨p₁, hstep, hrest⟩
      obtain ⟨hfine, hwithin, rfl⟩ := (hact p e p₁ hp).1 hstep
      obtain ⟨hall, hend⟩ := (ih hwithin).1 hrest
      exact ⟨List.forall_mem_cons.2 ⟨hfine, hall⟩, hend⟩
    · rintro ⟨hall, hend⟩
      obtain ⟨hfine, hall⟩ := List.forall_mem_cons.1 hall
      have hwithin : within (plus p e) := within_foldl hshrink events hend.1
      exact ⟨plus p e, (hact p e _ hp).2 ⟨hfine, hwithin, rfl⟩, (ih hwithin).2 ⟨hall, hend⟩⟩

end

end RagPipeline.DepthFirst
