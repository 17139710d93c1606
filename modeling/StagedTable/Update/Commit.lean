import StagedTable.Handle
import StagedTable.Update

/-!
# Committing an update

An update is committed through a handle: it is applied to the handle's cache, and the cache with
the output in place is sent as the successor of the cache.  If it cannot be applied, nothing is
sent.  Either way the update keeps what is staged and recorded, and its state follows the
outcome, so it can be committed again.
-/

namespace StagedTable.Update

variable {σ : Type} {k : Kind}

/-- the update once a commit of it has ended so -/
def settled (u : Update k) (status : Status) : Update k :=
  { u with state := .ofStatus status }

/-- what a commit of the update does, apart from the update's own state -/
def send (ops : Operations σ) (u : Update k) (h : Handle) (s : σ) : Outcome σ :=
  match u.apply h.cache with
  | .error why => ⟨.error why.error, h, s, why.events⟩
  | .ok out => h.commitMetadata ops h.cache (k.install out h.cache) s

def commit (ops : Operations σ) (u : Update k) (h : Handle) (s : σ) : Update k × Outcome σ :=
  let o := u.send ops h s
  (u.settled o.status, o)

theorem send_of_error {ops : Operations σ} {u : Update k} {h : Handle} {why : Invalidity}
    (ha : u.apply h.cache = .error why) (s : σ) :
    u.send ops h s = ⟨.error why.error, h, s, why.events⟩ := by
  simp [send, ha]

/-- an update that can be applied is sent once, on top of the handle's cache -/
theorem send_of_ok {ops : Operations σ} {u : Update k} {h : Handle} {out : k.Output}
    (ha : u.apply h.cache = .ok out) (s : σ) :
    u.send ops h s = h.commitMetadata ops h.cache (k.install out h.cache) s := by
  simp [send, ha]

@[simp] theorem settled_changes (u : Update k) (st : Status) :
    (u.settled st).changes = u.changes := rfl
@[simp] theorem settled_issues (u : Update k) (st : Status) :
    (u.settled st).issues = u.issues := rfl
@[simp] theorem settled_state (u : Update k) (st : Status) :
    (u.settled st).state = .ofStatus st := rfl

end StagedTable.Update
