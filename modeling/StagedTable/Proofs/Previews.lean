import StagedTable.Proofs.Exchanges
import StagedTable.Proofs.Sessions

/-!
# What is previewed is what is committed

Applying an update previews it: the caller sees the output, or why there is none, and nothing else
happens.  Committing the update then fails with that very error and makes no call, or it sends the
previewed output on top of the cache.

* `Kind.Sends`                      for each kind of update, how the metadata that is sent differs from
                                    its base.  Whatever it does not name is as in the base;
* `Session.preview_quiet`           a preview leaves updates, handles and everything stored alone;
* `Update.commit_follows_preview`   both together, for every commit mechanism.

The commit applies the update once more, to the same cache, so there is one computation of the
output and not two that would have to agree.
-/

namespace StagedTable

/-- the metadata that is sent for an output, next to the base that it is to replace -/
def Kind.Sends : (k : Kind) → k.Output → Metadata → Metadata → Prop
  | .properties, out, base, new => new = { base with properties := out }
  | .location, out, base, new => new = { base with location := out }
  | .schema, out, base, new =>
    new = { base with schema := out, lastColumnId := max base.lastColumnId (Schema.highestId out) }
  | .snapshot, out, base, new =>
    new = { base with properties := new.properties } ∧
      ∀ key, new.property key =
        if key = "current-snapshot" then some (Snapshot.name out)
        else if key = "snapshot." ++ Snapshot.name out ++ ".id" then
          some (toString (Snapshot.id out).toInt)
        else base.property key

theorem Kind.sends_install (k : Kind) (out : k.Output) (base : Metadata) :
    k.Sends out base (k.install out base) := by
  cases k with
  | properties => rfl
  | location => rfl
  | schema => rfl
  | snapshot => exact ⟨rfl, Snapshot.get?_register out base.properties⟩

/-- a preview shows what applying yields, and leaves the rest of the session alone -/
theorem Session.preview_quiet {s s' : Session} {name : String} {a : Session.Answer}
    (h : s.step (.ask (.preview name)) = .ok (a, s')) :
    (∃ p, s.updates.get? name = some p ∧
      a = .preview p.kind ((p.apply s.world).mapError Invalidity.error)) ∧
    s'.updates = s.updates ∧ s'.world.handles = s.world.handles ∧
      s'.world.store = s.world.store := by
  obtain ⟨⟨b, events⟩, hr, h⟩ := bind_eq_ok.1 h
  cases h
  refine ⟨?_, rfl, rfl, rfl⟩
  obtain ⟨p, hp, hr⟩ := bind_eq_ok.1 hr
  refine ⟨p, get?_of_pending hp, ?_⟩
  cases ha : p.apply s.world with
  | ok out =>
    rw [ha] at hr
    exact (congrArg Prod.fst (Except.ok.inj hr)).symm
  | error why =>
    rw [ha] at hr
    exact (congrArg Prod.fst (Except.ok.inj hr)).symm

namespace Update

variable {σ : Type}

/-- **A commit does what its preview shows.**  A preview changes nothing that is stored, cached or
staged, and makes no call.  Where it fails, it is with a failed validation, and the commit returns
the same error without a call; where it succeeds, the commit makes one call to commit, from the
cache to the cache with the output in place. -/
theorem commit_follows_preview (ops : Operations σ) {k : Kind} (u : Update k) (h : Handle)
    (r : Operations.Recorded σ) :
    (∀ (s s' : Session) (name : String) (a : Session.Answer),
      s.step (.ask (.preview name)) = .ok (a, s') →
        (∃ p, s.updates.get? name = some p ∧
          a = .preview p.kind ((p.apply s.world).mapError Invalidity.error)) ∧
        s'.updates = s.updates ∧ s'.world.handles = s.world.handles ∧
          s'.world.store = s.world.store) ∧
    ∃ calls, let o := (u.commit ops h r.state).2
      (u.commit ops.recorded h r).2 =
        ⟨o.status, o.handle, ⟨o.store, r.exchanges ++ calls⟩, o.events⟩ ∧
      match u.apply h.cache with
      | .error why =>
        why.error.kind = .validationFailed ∧ o.status = .error why.error ∧ calls = [] ∧
          o.handle = h ∧ o.store = r.state
      | .ok out =>
        ∃ new rest, k.Sends out h.cache new ∧ calls = .commit h.cache new o.status :: rest ∧
          ∀ x ∈ rest, ∃ read, x = .refresh read := by
  refine ⟨fun s s' name a hstep => Session.preview_quiet hstep, u.calls ops h r.state,
    u.send_recorded ops h r, ?_⟩
  cases ha : u.apply h.cache with
  | error why =>
    have hsend : u.send ops h r.state = _ := send_of_error ha r.state
    exact ⟨why.kind_error, congrArg Outcome.status hsend, calls_of_error ha ops r.state,
      congrArg Outcome.handle hsend, congrArg Outcome.store hsend⟩
  | ok out =>
    obtain ⟨rest, hcalls, hrest⟩ :=
      ops.callsOf_eq_cons h.cache (k.install out h.cache) r.state
    refine ⟨k.install out h.cache, rest, k.sends_install out h.cache, ?_, hrest⟩
    rw [calls_of_ok ha, hcalls, ← status_send_of_ok ha]
    rfl

end Update

end StagedTable
