import StagedTable.Update.Commit

/-!
# The calls behind a commit

A handle reaches its commit mechanism by calls only, so what a commit does to the mechanism can be
read off a record of the calls.  Here the record is worked out for any mechanism whatever, with
any answers.

* `Operations.callsOf`          the calls of a commit of metadata: ONE commit, and a refresh if, and
                                only if, that commit succeeded;
* `Handle.commitMetadata_recorded`  committing metadata makes these calls and no others, and keeping
                                the record does not change what the commit does;
* `Update.calls`                the calls of a commit of an update: those of the metadata it is sent
                                as, or none if it cannot be applied;
* `Update.send_recorded`        the same for updates: these calls are made and no others.
-/

namespace StagedTable

variable {σ : Type}

namespace Operations

/-- the calls of a commit of metadata, with their answers -/
def callsOf (ops : Operations σ) (base new : Metadata) (s : σ) :
    List Operations.Exchange :=
  match ops.commit base new s with
  | (.error e, _) => [.commit base new (.error e)]
  | (.ok (), s) => [.commit base new (.ok ()), .refresh (ops.refresh s).1]

/-- the commit is the first call, and it is the only commit among the calls -/
theorem callsOf_eq_cons (ops : Operations σ) (base new : Metadata) (s : σ) :
    ∃ rest, ops.callsOf base new s = .commit base new (ops.commit base new s).1 :: rest ∧
      ∀ x ∈ rest, ∃ read, x = .refresh read := by
  rw [callsOf]
  split
  · next e s' heq =>
    rw [heq]
    exact ⟨[], rfl, fun x hx => nomatch hx⟩
  · next s' heq =>
    rw [heq]
    refine ⟨[.refresh (ops.refresh s').1], rfl, fun x hx => ?_⟩
    exact ⟨(ops.refresh s').1, List.mem_singleton.1 hx⟩

theorem commit_mem_callsOf {ops : Operations σ} {base new b m : Metadata} {s : σ}
    {answer : Status} : .commit b m answer ∈ ops.callsOf base new s ↔
      b = base ∧ m = new ∧ answer = (ops.commit base new s).1 := by
  obtain ⟨rest, hcalls, hrest⟩ := ops.callsOf_eq_cons base new s
  rw [hcalls]
  constructor
  · intro h
    rcases List.mem_cons.1 h with h | h
    · exact Exchange.commit.inj h
    · obtain ⟨read, h⟩ := hrest _ h
      cases h
  · rintro ⟨rfl, rfl, rfl⟩
    exact List.mem_cons_self

end Operations

/-- **Committing metadata makes the calls of `callsOf`**, and the record of them changes nothing. -/
theorem Handle.commitMetadata_recorded (ops : Operations σ) (h : Handle) (base new : Metadata)
    (r : Operations.Recorded σ) :
    h.commitMetadata ops.recorded base new r =
      let o := h.commitMetadata ops base new r.state
      ⟨o.status, o.handle, ⟨o.store, r.exchanges ++ ops.callsOf base new r.state⟩, o.events⟩ := by
  have hcommit : ops.recorded.commit base new r =
      ((ops.commit base new r.state).1, ⟨(ops.commit base new r.state).2,
        r.exchanges ++ [.commit base new (ops.commit base new r.state).1]⟩) := rfl
  have hrefresh : ∀ q : Operations.Recorded σ, ops.recorded.refresh q =
      ((ops.refresh q.state).1,
        ⟨(ops.refresh q.state).2, q.exchanges ++ [.refresh (ops.refresh q.state).1]⟩) :=
    fun _ => rfl
  rw [commitMetadata, hcommit, commitMetadata, Operations.callsOf]
  cases ops.commit base new r.state with
  | mk status s =>
    cases status with
    | error e => rfl
    | ok _ =>
      simp only [hrefresh]
      cases ops.refresh s with
      | mk read s' =>
        cases read <;> simp only [List.append_assoc, List.cons_append, List.nil_append]

namespace Update

variable {k : Kind} {u : Update k} {h : Handle}

/-- the calls of a commit of the update -/
def calls (ops : Operations σ) (u : Update k) (h : Handle) (s : σ) :
    List Operations.Exchange :=
  match u.apply h.cache with
  | .error _ => []
  | .ok out => ops.callsOf h.cache (k.install out h.cache) s

theorem calls_of_error {why : Invalidity} (ha : u.apply h.cache = .error why)
    (ops : Operations σ) (s : σ) : u.calls ops h s = [] := by
  rw [calls, ha]

theorem calls_of_ok {out : k.Output} (ha : u.apply h.cache = .ok out) (ops : Operations σ) (s : σ) :
    u.calls ops h s = ops.callsOf h.cache (k.install out h.cache) s := by
  rw [calls, ha]

theorem send_recorded (ops : Operations σ) (u : Update k) (h : Handle)
    (r : Operations.Recorded σ) :
    u.send ops.recorded h r =
      let o := u.send ops h r.state
      ⟨o.status, o.handle, ⟨o.store, r.exchanges ++ u.calls ops h r.state⟩, o.events⟩ := by
  cases ha : u.apply h.cache with
  | error why => rw [send_of_error ha, send_of_error ha, calls_of_error ha, List.append_nil]
  | ok out =>
    rw [send_of_ok ha, send_of_ok ha, calls_of_ok ha, Handle.commitMetadata_recorded]

/-- the calls of a commit are those that a fresh record of it holds -/
theorem exchanges_commit (ops : Operations σ) (u : Update k) (h : Handle) (s : σ) :
    (u.commit ops.recorded h ⟨s, []⟩).2.store.exchanges = u.calls ops h s :=
  congrArg (·.store.exchanges) (send_recorded ops u h ⟨s, []⟩)

theorem status_send_of_ok {out : k.Output} (ha : u.apply h.cache = .ok out) (ops : Operations σ)
    (s : σ) : (u.send ops h s).status = (ops.commit h.cache (k.install out h.cache) s).1 := by
  rw [send_of_ok ha, Handle.commitMetadata_status]

end Update

end StagedTable
