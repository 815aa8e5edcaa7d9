import RagPipeline.Lib.Locks

/-! # Stores in slices under locks

A store is seen in slices, and each slice has a key. Who changes a slice holds
its key until it ends; so whoever holds a lock that excludes the key sees the
slice as nobody else leaves it. A script can then be followed by itself: between
two of its statements everything may change but the slices it guards. -/

set_option autoImplicit false

namespace RagPipeline.Locks
open Transition

structure Slicing (σ ρ κ : Type) (ξ : κ → Type) [Exclusion ρ] where
  slice : ∀ k, σ → ξ k
  key : κ → ρ
  exclusive : ∀ k, Exclusion.excludes (key k) (key k)

/-- Transactions that each run a script of their own. -/
def scriptSystem {τ σ ρ ε : Type} [DecidableEq τ] [Exclusion ρ] (starts : σ → Prop)
    (scripts : τ → Script σ ρ ε) : System (World τ σ ρ ε) (Event τ) where
  initial w := starts w.committed ∧ w.locks = [] ∧ ∀ t, w.transactions t = .new (scripts t)
  step w e w' := w.happen e = some w'

namespace Slicing

variable {σ ρ ε κ : Type} {ξ : κ → Type} [Exclusion ρ] (L : Slicing σ ρ κ ξ)

/-- Nobody else can hold the key. -/
def Guarded (H : List ρ) (k : κ) : Prop := ∃ r ∈ H, Exclusion.excludes r (L.key k)

def Agree (H : List ρ) (s s' : σ) : Prop := ∀ k, L.Guarded H k → L.slice k s = L.slice k s'

/-- What is seen differs from what is committed only where the key is held. -/
def Apart (H : List ρ) (c s : σ) : Prop := ∀ k, L.key k ∉ H → L.slice k s = L.slice k c

structure Confined (H : List ρ) (f : σ → σ) : Prop where
  unkeyed : ∀ k, L.key k ∉ H → ∀ c, L.slice k (f c) = L.slice k c
  sliced : ∀ k c c', L.slice k c = L.slice k c' → L.slice k (f c) = L.slice k (f c')

/-- How another pair of a committed store and a view may look to a transaction
that has seen `c` and `s`. -/
structure Sees (inv : σ → Prop) (H : List ρ) (c s c' s' : σ) : Prop where
  committed : L.Agree H c c'
  view : L.Agree H s s'
  apart : L.Apart H c' s'
  inv : inv c'

/-- What is left of a script that holds these locks, where the slices it guards
are, committed and seen, those of `c` and `s`: each statement keeps to its keys
and the commit meets the goal. -/
def Shielded (inv : σ → Prop) (goal : σ → σ → Prop) :
    Script σ ρ ε → List ρ → σ → σ → Prop
  | .commit, H, c, s => ∀ c' s', L.Sees inv H c s c' s' → goal c' s'
  | .abort _, _, _, _ => True
  | .statement targets run next, H, c, s => ∀ s₀ c₁ s₁, L.Agree H s s₀ →
      L.Sees inv H c s c₁ s₁ → (targets s₀ = [] → s₁ = s₀) →
        ∀ f, run s₁ = .ok f → L.Confined (targets s₀ ++ H) f ∧
          Shielded inv goal (next s₁) (targets s₀ ++ H) c₁ (f s₁)

variable {L} {H K : List ρ} {k : κ} {c c' s s' : σ} {f g : σ → σ}

theorem guarded_key (h : L.key k ∈ H) : L.Guarded H k := ⟨_, h, L.exclusive k⟩

theorem Agree.refl (H : List ρ) (s : σ) : L.Agree H s s := fun _ _ => rfl

theorem Agree.trans {s'' : σ} (h : L.Agree H s s') (h' : L.Agree H s' s'') : L.Agree H s s'' :=
  fun k hk => (h k hk).trans (h' k hk)

theorem Confined.mono (h : L.Confined H f) (hHK : H ⊆ K) : L.Confined K f where
  unkeyed k hk := h.unkeyed k fun hH => hk (hHK hH)
  sliced := h.sliced

theorem confined_id : L.Confined H id := ⟨fun _ _ _ => rfl, fun _ _ _ h => h⟩

theorem Confined.comp (hf : L.Confined H f) (hg : L.Confined H g) :
    L.Confined H fun c => f (g c) where
  unkeyed k hk c := (hf.unkeyed k hk _).trans (hg.unkeyed k hk c)
  sliced k c c' h := hf.sliced k _ _ (hg.sliced k c c' h)

theorem Confined.apart (h : L.Confined H f) (c : σ) : L.Apart H c (f c) :=
  fun k hk => h.unkeyed k hk c

section
variable {inv : σ → Prop} {goal : σ → σ → Prop}
  {rest : Script σ ρ ε}

theorem shielded_require {p : Prop} [Decidable p] {e : ε}
    (h : p → L.Shielded inv goal rest H c s) :
    L.Shielded inv goal (.require p e rest) H c s := by
  unfold Script.require
  split
  case isTrue hp => exact h hp
  case isFalse => trivial

theorem shielded_demand {α : Type} {o : Option α} {e : ε} {rest : α → Script σ ρ ε}
    (h : ∀ a, o = some a → L.Shielded inv goal (rest a) H c s) :
    L.Shielded inv goal (.demand o e rest) H c s := by
  cases o with
  | none => trivial
  | some a => exact h a rfl

end

/-! ## Any interleaving -/

variable {τ : Type} (L) in
/-- A transaction has come to an end, or what it has written is confined to its
keys and what is left of it is shielded. -/
def Placed (inv : σ → Prop) (goal : σ → σ → Prop)
    (w : World τ σ ρ ε) (i : τ) : Prop :=
  w.transactions i = .new .commit ∨ ∃ H c s, (∀ r ∈ H, w.holds i r) ∧
    L.Agree H c w.committed ∧ L.Agree H s (w.view i) ∧
    L.Confined H (w.transactions i).pending ∧
    L.Shielded inv goal (w.transactions i).script H c s ∧ Underway w i (L.Agree H s)

section
variable {τ : Type} {inv : σ → Prop} {goal : σ → σ → Prop}
  {w w' : World τ σ ρ ε} {i j : τ}

/-- What a transaction guards stays as it is when another one commits. -/
theorem Placed.beside (h : L.Placed inv goal w i) (hne : i ≠ j) (hex : w.Exclusive)
    (htransaction : w'.transactions i = w.transactions i)
    (hholds : ∀ r, w'.holds i r ↔ w.holds i r)
    (hother : ∀ k, ¬ w.holds j (L.key k) → L.slice k w'.committed = L.slice k w.committed) :
    L.Placed inv goal w' i := by
  rcases h with hover | ⟨H, c, s, hH, hc, hs, hconf, hsh, hu⟩
  · exact .inl (htransaction.trans hover)
  · have hkept : ∀ k, L.Guarded H k → L.slice k w'.committed = L.slice k w.committed := by
      rintro k ⟨r, hr, hexcl⟩
      exact hother k fun hj => hne (hex i j _ _ (hH r hr) hj hexcl)
    have hview : L.Agree H (w.view i) (w'.view i) := by
      intro k hk
      rw [World.view, World.view, htransaction]
      exact hconf.sliced k _ _ (hkept k hk).symm
    refine .inr ⟨H, c, s, ?_, ?_, hs.trans hview, ?_, ?_, ?_⟩
    · exact fun r hr => (hholds r).2 (hH r hr)
    · exact fun k hk => (hc k hk).trans (hkept k hk).symm
    · rwa [htransaction]
    · rwa [htransaction]
    · unfold Underway
      simp only [htransaction, hholds]
      exact hu

variable [DecidableEq τ]

theorem placed_release {c : σ} (h : w' = { w with committed := c }.release i) :
    L.Placed inv goal w' i :=
  .inl (by rw [h]; exact Function.update_self _ _ _)

/-- A step of its own. -/
theorem Placed.step (h : L.Placed inv goal w i) (hinv : inv w.committed)
    (hm : Moves w i w') :
    L.Placed inv goal w' i := by
  rcases h with hover | ⟨H, c, s, hH, hc, hs, hconf, hsh, hu⟩
  · cases hm with
    | committed | ended => exact placed_release rfl
    | issued hscript | passed hscript | took hscript | finished hscript =>
      rw [hover] at hscript
      cases hscript
  · cases hm.goes hs hu with
    | committed _ h => exact placed_release h
    | ended h => exact placed_release h
    | waiting hscript hpending hcommitted hkept hunder =>
      refine .inr ⟨H, c, s, fun r hr => hkept r (hH r hr), ?_, ?_, ?_, ?_, hunder⟩
      · rwa [hcommitted]
      · rwa [World.view, hpending, hcommitted]
      · rwa [hpending]
      · rwa [hscript]
    | @ran targets run next s₀ h =>
      cases hrun : run (w.view i) with
      | error e =>
        have hx : w'.transactions i = ⟨.abort e, [], (w.transactions i).pending⟩ := by
          rw [h.after, Transaction.ran, hrun]
        refine .inr ⟨H, c, s, fun r hr => h.kept r (hH r hr), ?_, ?_, ?_, ?_, .inl ?_⟩
        · rwa [h.committed]
        · rwa [World.view, hx, h.committed]
        · rwa [hx]
        · rw [hx]
          trivial
        · rw [hx]
      | ok f =>
        have hx : w'.transactions i =
            ⟨next (w.view i), [], fun c => f ((w.transactions i).pending c)⟩ := by
          rw [h.after, Transaction.ran, hrun]
        have hnew : L.Confined (targets s₀ ++ H) f ∧ L.Shielded inv goal (next (w.view i))
            (targets s₀ ++ H) w.committed (f (w.view i)) := by
          rw [h.script] at hsh
          exact hsh s₀ w.committed (w.view i) h.seen ⟨hc, hs, hconf.apart _, hinv⟩ h.same f hrun
        refine .inr ⟨targets s₀ ++ H, w.committed, f (w.view i), ?_, ?_, ?_, ?_, ?_, .inl ?_⟩
        · intro r hr
          rcases List.mem_append.1 hr with hr | hr
          · exact h.locked r hr
          · exact h.kept r (hH r hr)
        · rw [h.committed]
          exact .refl _ _
        · have hview : w'.view i = f (w.view i) := by
            rw [World.view, hx, h.committed]
            rfl
          exact hview ▸ .refl _ _
        · rw [hx]
          exact hnew.1.comp (hconf.mono (List.subset_append_right _ _))
        · rw [hx]
          exact hnew.2
        · rw [hx]

omit [DecidableEq τ] in
/-- What a commit does. -/
theorem Placed.commits (h : L.Placed inv goal w i) (hinv : inv w.committed)
    (hscript : (w.transactions i).script = .commit) :
    (w.view i = w.committed ∨ goal w.committed (w.view i)) ∧
      ∀ k, ¬ w.holds i (L.key k) → L.slice k (w.view i) = L.slice k w.committed := by
  rcases h with hover | ⟨H, c, s, hH, hc, hs, hconf, hsh, -⟩
  · have hview : w.view i = w.committed := by
      rw [World.view, hover]
      rfl
    exact ⟨.inl hview, fun k _ => by rw [hview]⟩
  · rw [hscript] at hsh
    have hapart : L.Apart H w.committed (w.view i) := hconf.apart _
    exact ⟨.inr (hsh _ _ ⟨hc, hs, hapart, hinv⟩), fun k hk => hapart k fun hmem => hk (hH _ hmem)⟩

variable {starts : σ → Prop} {scripts : τ → Script σ ρ ε} {goals : τ → σ → σ → Prop}
  (hstart : ∀ s, starts s → inv s)
  (hscripts : ∀ t c s, L.Shielded inv (goals t) (scripts t) [] c s)
  (hkeep : ∀ t c s, inv c → goals t c s → inv s)
include hstart hscripts hkeep

theorem placed_of_reachable
    (h : (scriptSystem starts scripts).Reachable w) :
    inv w.committed ∧ w.Exclusive ∧ ∀ t, L.Placed inv (goals t) w t := by
  refine System.invariant (I := fun w => inv w.committed ∧ w.Exclusive ∧
    ∀ t, L.Placed inv (goals t) w t) ?_ ?_ h
  · rintro w ⟨hs, hlocks, hnew⟩
    refine ⟨hstart _ hs, ?_, fun t => .inr ⟨[], w.committed, w.view t, ?_, .refl _ _, .refl _ _,
      ?_, ?_, .inl ?_⟩⟩
    · intro t u r r' ht
      rw [World.holds, hlocks] at ht
      cases ht
    · exact fun r hr => absurd hr List.not_mem_nil
    · rw [hnew]
      exact confined_id
    · rw [hnew]
      exact hscripts t _ _
    · rw [hnew]
      rfl
  · intro w e w' _ hw hstep
    obtain ⟨hinv, hex, hplaced⟩ := hw
    have hm := happen_moves hstep
    have hcommit : inv w'.committed ∧
        ∀ k, ¬ w.holds e.who (L.key k) → L.slice k w'.committed = L.slice k w.committed := by
      cases hm with
      | committed hscript =>
        obtain ⟨hview | hgoal, hkeys⟩ := (hplaced e.who).commits hinv hscript
        · exact ⟨hview.symm ▸ hinv, hkeys⟩
        · exact ⟨hkeep _ _ _ hinv hgoal, hkeys⟩
      | ended | issued | passed | took | finished => exact ⟨hinv, fun _ _ => rfl⟩
    refine ⟨hcommit.1, hm.exclusive hex, fun t => ?_⟩
    by_cases ht : t = e.who
    · subst ht
      cases e with
      | step t => exact (hplaced t).step hinv hm
      | cut t => exact placed_release (Option.some.inj hstep).symm
    · exact (hplaced t).beside ht hex (hm.transactions_other ht) (fun r => hm.holds_other ht)
        hcommit.2

/-- Every step leaves what is committed as it is, or meets the goal of its
transaction. -/
theorem goal_of_step {e : Event τ}
    (h : (scriptSystem starts scripts).Reachable w)
    (hstep : (scriptSystem starts scripts).step w e w') :
    w'.committed = w.committed ∨
      (w.transactions e.who).script = .commit ∧ goals e.who w.committed w'.committed := by
  obtain ⟨hinv, -, hplaced⟩ := placed_of_reachable hstart hscripts hkeep h
  cases happen_moves hstep with
  | committed hscript =>
    exact ((hplaced e.who).commits hinv hscript).1.imp_right fun hgoal => ⟨hscript, hgoal⟩
  | ended | issued | passed | took | finished => exact .inl rfl

end

end Slicing

end RagPipeline.Locks
