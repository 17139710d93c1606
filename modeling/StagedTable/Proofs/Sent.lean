import StagedTable.Proofs.Exchanges
import StagedTable.Proofs.Runs

/-!
# Whether a commit was sent

After a commit the update says whether it was sent, and it judges by the kind of the error that came
back.  The record of the calls says the same from the other side: a commit was sent if the mechanism
was called to commit.

The two agree as long as the mechanism refuses commits with the kinds that mean so: the commit
failed, or its outcome is unknown.  A mechanism may also answer that an argument is invalid or that
a validation failed.  Such an answer looks like an update that could not be applied, and the update
says that it was not sent although it was (`Update.invalid_though_sent`).

* `CommitState.wasSent_ofStatus_iff`  what a state of "sent" says about the outcome;
* `Update.wasSent_iff_sent_iff`       when exactly the state and the record agree.
-/

namespace StagedTable

theorem CommitState.wasSent_ofStatus_iff (status : Status) :
    (ofStatus status).wasSent = true ↔
      ∀ e, status = .error e → e.kind = .commitFailed ∨ e.kind = .commitStateUnknown := by
  cases status with
  | ok _ => exact ⟨fun _ e he => (nomatch he), fun _ => rfl⟩
  | error e =>
    have hkind : (ofStatus (.error e)).wasSent = true ↔
        e.kind = .commitFailed ∨ e.kind = .commitStateUnknown := by
      rw [ofStatus]
      cases e.kind <;> decide
    rw [hkind]
    exact ⟨fun h e' he => Except.error.inj he ▸ h, fun h => h e rfl⟩

/-- after a commit, a state of "not sent" is the state of a failed validation -/
theorem CommitState.ofStatus_eq_invalid_iff (status : Status) :
    ofStatus status = .invalid ↔ (ofStatus status).wasSent = false := by
  cases status with
  | ok _ => exact ⟨fun h => (nomatch h), fun h => (nomatch h)⟩
  | error e =>
    rw [ofStatus]
    cases e.kind <;> decide

namespace Operations.Recorded

variable {σ : Type}

/-- the calls that the later record has on top of the earlier one -/
def since (later earlier : Recorded σ) : List Exchange :=
  later.exchanges.drop earlier.exchanges.length

/-- the mechanism was called to commit, between the one record and the other -/
def Sent (earlier later : Recorded σ) : Prop :=
  ∃ base new answer, .commit base new answer ∈ later.since earlier

theorem since_append (s : σ) (r : Recorded σ) (calls : List Exchange) :
    since ⟨s, r.exchanges ++ calls⟩ r = calls := List.drop_left

end Operations.Recorded

namespace Update

variable {σ : Type}

/-- **When an update tells the truth about being sent.**  If it says that it was sent, it was.  What
it says is right in both directions if and only if the mechanism did not refuse the commit with an
error of a kind that stands for a failed validation. -/
theorem wasSent_iff_sent_iff (ops : Operations σ) {k : Kind} (u : Update k) (h : Handle)
    (r : Operations.Recorded σ) :
    let state := (u.commit ops.recorded h r).1.state
    let r' := (u.commit ops.recorded h r).2.store
    (state = .invalid ↔ state.wasSent = false) ∧ (state.wasSent = true → r.Sent r') ∧
      ((state.wasSent = true ↔ r.Sent r') ↔
        ∀ base new e, .commit base new (.error e) ∈ r'.since r →
          e.kind = .commitFailed ∨ e.kind = .commitStateUnknown) := by
  intro state r'
  have hstate : state = .ofStatus (u.send ops h r.state).status := by
    show CommitState.ofStatus (u.send ops.recorded h r).status = _
    rw [send_recorded]
  have hsince : r'.since r = u.calls ops h r.state := by
    show (u.send ops.recorded h r).store.since r = _
    rw [send_recorded]
    exact Operations.Recorded.since_append _ r _
  rw [Operations.Recorded.Sent, hsince]
  refine ⟨CommitState.ofStatus_eq_invalid_iff _, ?_⟩
  cases ha : u.apply h.cache with
  | error why =>
    rw [send_of_error ha, CommitState.ofStatus_validationFailed why.kind_error] at hstate
    rw [hstate, calls_of_error ha]
    refine ⟨fun hsent => (nomatch hsent), fun _ base new e he => (nomatch he), fun _ => ?_⟩
    exact ⟨fun hsent => (nomatch hsent), fun ⟨_, _, _, hmem⟩ => (nomatch hmem)⟩
  | ok out =>
    rw [hstate, status_send_of_ok ha, calls_of_ok ha, CommitState.wasSent_ofStatus_iff]
    have hsent : ∃ base new answer, Operations.Exchange.commit base new answer ∈
        ops.callsOf h.cache (k.install out h.cache) r.state :=
      ⟨_, _, _, Operations.commit_mem_callsOf.2 ⟨rfl, rfl, rfl⟩⟩
    -- the one commit among the calls has the status of the whole as its answer
    refine ⟨fun _ => hsent, fun hagree base new e he => ?_, fun hkinds => ?_⟩
    · obtain ⟨_, _, hanswer⟩ := Operations.commit_mem_callsOf.1 he
      exact hagree.2 hsent e hanswer.symm
    · refine ⟨fun _ => hsent, fun _ e he => hkinds h.cache (k.install out h.cache) e ?_⟩
      exact Operations.commit_mem_callsOf.2 ⟨rfl, rfl, he.symm⟩

/-- a mechanism that has no use for the metadata it is given, and says so -/
def picky : Script where
  stored := .fresh "memory://t" 2 .empty .empty
  refreshes := []
  commits := [.refuse ⟨.invalidArgument, "bad metadata"⟩]

/-- the mechanism was called, and the update says that it was not sent -/
theorem invalid_though_sent :
    let r : Operations.Recorded Script := ⟨picky, []⟩
    let o := (moveTo "a://b").commit Script.operations.recorded ⟨"t", picky.stored⟩ r
    o.1.state = .invalid ∧ ¬ (o.1.state.wasSent = true ↔ r.Sent o.2.store) := by
  intro r o
  have hstate : o.1.state = .invalid := by decide +kernel
  have hcalls : o.2.store.exchanges = [.commit picky.stored
      { picky.stored with location := "a://b" } (.error ⟨.invalidArgument, "bad metadata"⟩)] := rfl
  have hsent : r.Sent o.2.store := by
    refine ⟨picky.stored, { picky.stored with location := "a://b" },
      .error ⟨.invalidArgument, "bad metadata"⟩, ?_⟩
    rw [Operations.Recorded.since, hcalls]
    exact List.mem_singleton_self _
  rw [hstate]
  exact ⟨rfl, fun hagree => nomatch hagree.2 hsent⟩

end Update

end StagedTable
