import RagPipeline.JobQueue.System

/-! # One owner, one live job

Every guarantee of the queue is read off what can become of one row in one
step. -/

set_option autoImplicit false

namespace RagPipeline.JobQueue
open Guard Table Index Transition

section
variable {sha256 : String → Digest} {w w' : World} {act : Action} {j j' : JobRow}

theorem Action.takes_of_worker {worker : String} (h : act.worker = some worker) :
    act.takes w = none := by
  cases act <;> first
    | rfl
    | cases h

namespace Moved

/-- What names a job stays. -/
theorem names (h : Moved w act j j') :
    j'.id = j.id ∧ j'.documentId = j.documentId ∧ j'.idempotencyKey = j.idempotencyKey := by
  cases h with
  | renewed =>
    unfold JobRow.renewed
    split <;> exact ⟨rfl, rfl, rfl⟩
  | cancelled =>
    unfold JobRow.cancelled
    split <;> exact ⟨rfl, rfl, rfl⟩
  | same | exhausted | claimed | closed | requeued => exact ⟨rfl, rfl, rfl⟩

/-- Only an active job changes. -/
theorem of_terminal (h : Moved w act j j') (hterminal : terminal j.status = true) : j' = j := by
  have hidle : ¬ j.active := by
    rw [JobRow.active_iff, hterminal]
    decide
  cases h with
  | same => rfl
  | exhausted _ hexpired => exact absurd (.inr hexpired.1) hidle
  | claimed _ hclaimable => exact absurd (hclaimable.1.imp id And.left) hidle
  | renewed _ hheld => exact absurd (.inr hheld.1) hidle
  | closed _ _ hheld => exact absurd (.inr hheld.1) hidle
  | requeued _ hheld => exact absurd (.inr hheld.1) hidle
  | cancelled _ hqueued => exact absurd (.inl hqueued) hidle

theorem active (h : Moved w act j j') (hactive : j'.active) : j.active := by
  by_contra hidle
  have hterminal : terminal j.status = true := by
    rw [JobRow.active_iff] at hidle
    simpa using hidle
  exact hidle (h.of_terminal hterminal ▸ hactive)

/-- An attempt is counted where the job is taken. -/
theorem taken {taking : Action.Taking} (h : Moved w act j j')
    (htakes : act.takes w = some taking) (hjob : taking.job = j.id) :
    j'.attemptCount = j.attemptCount + 1 ∧ j'.attemptCount ≤ taking.maxAttempts := by
  have hworker : ∀ worker, act.worker ≠ some worker := fun worker hby => by
    cases (Action.takes_of_worker hby).symm.trans htakes
  cases h with
  | same huntaken => exact absurd hjob (huntaken _ htakes)
  | exhausted _ _ huntaken => exact absurd hjob (huntaken _ htakes)
  | claimed htakes' hclaimable =>
    obtain rfl := Option.some.inj (htakes'.symm.trans htakes)
    exact ⟨rfl, hclaimable.2⟩
  | renewed hby => exact absurd hby (hworker _)
  | closed _ hby => exact absurd hby (hworker _)
  | requeued hby => exact absurd hby (hworker _)
  | cancelled hcancel =>
    rw [hcancel] at htakes
    cases htakes

/-- And nowhere else. -/
theorem untaken (h : Moved w act j j') (huntaken : act.Untaken w j) :
    j'.attemptCount = j.attemptCount := by
  cases h with
  | claimed htakes => exact absurd rfl (huntaken _ htakes)
  | renewed =>
    unfold JobRow.renewed
    split <;> rfl
  | cancelled =>
    unfold JobRow.cancelled
    split <;> rfl
  | same | exhausted | closed | requeued => rfl

end Moved

/-! The table. -/

/-- Every row of the new table is one of the old, moved, or the new one. -/
theorem Rewritten.origin (h : Rewritten w act w') (hj : j' ∈ w'.store.jobs) :
    (∃ j ∈ w.store.jobs, Moved w act j j') ∨
      (∀ j ∈ w.store.jobs, j.id ≠ j'.id) ∧ ∀ j ∈ w.store.jobs, j.documentId = j'.documentId →
        j.idempotencyKey ≠ j'.idempotencyKey ∧ ¬ j.active := by
  obtain ⟨f, new, hjobs, hmoved, hnew⟩ := h.rows
  rw [hjobs] at hj
  rcases List.mem_append.1 hj with hj | hj
  · obtain ⟨j, hmem, rfl⟩ := List.mem_map.1 hj
    exact .inl ⟨j, hmem, hmoved j hmem⟩
  · rcases hnew with rfl | ⟨row, rfl, hfresh, hdocument⟩
    · cases hj
    · obtain rfl := List.mem_singleton.1 hj
      exact .inr ⟨hfresh, hdocument⟩

theorem Rewritten.image (h : Rewritten w act w') (hj : j ∈ w.store.jobs) :
    ∃ j' ∈ w'.store.jobs, Moved w act j j' := by
  obtain ⟨f, new, hjobs, hmoved, -⟩ := h.rows
  exact ⟨f j, hjobs ▸ List.mem_append_left _ (List.mem_map_of_mem hj), hmoved j hj⟩

theorem Rewritten.unique (h : Rewritten w act w') (hunique : Unique w.store.jobs) :
    Unique w'.store.jobs := by
  obtain ⟨f, new, hjobs, hmoved, hnew⟩ := h.rows
  have hids : (w.store.jobs.map f).map JobRow.id = w.store.jobs.map JobRow.id := by
    rw [List.map_map]
    exact List.map_congr_left fun j hj => (hmoved j hj).names.1
  have hpair : ∀ P : JobRow → Prop, (∀ j ∈ w.store.jobs, P (f j) → P j) →
      (∀ row, new = [row] → ∀ j ∈ w.store.jobs, j.documentId = row.documentId → ¬ (P row ∧ P j)) →
      (∀ j ∈ w.store.jobs, ∀ k ∈ w.store.jobs, j.documentId = k.documentId → P j → P k → j = k) →
      ∀ j ∈ w'.store.jobs, ∀ k ∈ w'.store.jobs, j.documentId = k.documentId → P j → P k → j = k := by
    intro P hback hfresh hold j hj k hk hdocument hpj hpk
    rw [hjobs] at hj hk
    have hnever : ∀ x ∈ w.store.jobs, ∀ row ∈ new, (f x).documentId = row.documentId →
        P (f x) → P row → False := fun x hx row hrow hsame hpx hprow => by
      rcases hnew with rfl | ⟨row', rfl, -⟩
      · cases hrow
      · obtain rfl := List.mem_singleton.1 hrow
        exact hfresh _ rfl x hx ((hmoved x hx).names.2.1.symm.trans hsame) ⟨hprow, hback x hx hpx⟩
    rcases List.mem_append.1 hj with hj | hj <;> rcases List.mem_append.1 hk with hk | hk
    · obtain ⟨x, hx, rfl⟩ := List.mem_map.1 hj
      obtain ⟨y, hy, rfl⟩ := List.mem_map.1 hk
      have hsame : x.documentId = y.documentId :=
        (hmoved x hx).names.2.1.symm.trans (hdocument.trans (hmoved y hy).names.2.1)
      rw [hold x hx y hy hsame (hback x hx hpj) (hback y hy hpk)]
    · obtain ⟨x, hx, rfl⟩ := List.mem_map.1 hj
      exact (hnever x hx k hk hdocument hpj hpk).elim
    · obtain ⟨y, hy, rfl⟩ := List.mem_map.1 hk
      exact (hnever y hy j hj hdocument.symm hpk hpj).elim
    · rcases hnew with rfl | ⟨row, rfl, -⟩
      · cases hj
      · rw [List.mem_singleton.1 hj, List.mem_singleton.1 hk]
  refine ⟨?_, fun j hj k hk hdocument hkey => ?_, ?_⟩
  · rw [hjobs, List.map_append, hids]
    rcases hnew with rfl | ⟨row, rfl, hfresh, -⟩
    · simpa using hunique.ids
    · refine List.nodup_append.2 ⟨hunique.ids, List.nodup_singleton _, fun x hx y hy => ?_⟩
      obtain ⟨j, hj, rfl⟩ := List.mem_map.1 hx
      rw [List.mem_singleton.1 hy]
      exact hfresh j hj
  · refine hpair (fun x => x.idempotencyKey = k.idempotencyKey) (fun x hx hxk => ?_)
      (fun row hrow x hx hsame hboth => ?_) (fun x hx y hy hsame hxk hyk => ?_) j hj k hk hdocument
      hkey rfl
    · exact (hmoved x hx).names.2.2.symm.trans hxk
    · rcases hnew with hnil | ⟨row', hrow', -, hdocuments⟩
      · cases hnil.symm.trans hrow
      · obtain rfl : row' = row := List.singleton_inj.1 (hrow'.symm.trans hrow)
        exact (hdocuments x hx hsame).1 (hboth.2.trans hboth.1.symm)
    · exact hunique.keys x hx y hy hsame (hxk.trans hyk.symm)
  · refine hpair JobRow.active (fun x hx => (hmoved x hx).active)
      (fun row hrow x hx hsame hboth => ?_) hunique.active
    rcases hnew with hnil | ⟨row', hrow', -, hdocuments⟩
    · cases hnil.symm.trans hrow
    · obtain rfl : row' = row := List.singleton_inj.1 (hrow'.symm.trans hrow)
      exact (hdocuments x hx hsame).2 hboth.2

/-- The worker does not hold the job of this id. -/
def Lost (worker : String) (id : Uuid) (w : World) : Prop :=
  ∀ j ∈ w.store.jobs, j.id = id → ¬ j.heldBy worker w.clock

end

section

def sampleDigest : Digest := ⟨"aaaaaaaaaaaaaaaaaaaaaaaaaaaaaaaaaaaaaaaaaaaaaaaaaaaaaaaaaaaaaaaa", by decide⟩

def exec (w : World) (act : Action) : Option World :=
  (act.perform (fun _ => sampleDigest) w).toOption

theorem exec_step {w w' : World} {act : Action} (h : exec w act = some w') :
    (queueSystem fun _ => sampleDigest).step w act w' := by
  show act.perform _ w = .ok w'
  unfold exec at h
  cases hp : act.perform (fun _ => sampleDigest) w with
  | ok u =>
    rw [hp] at h
    exact congrArg Except.ok (Option.some.inj h)
  | error e =>
    rw [hp] at h
    cases h

end

end RagPipeline.JobQueue
