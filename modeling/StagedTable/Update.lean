import StagedTable.CommitState
import StagedTable.Metadata
import StagedTable.Update.Kind

/-!
# Updates

An update of a kind holds what is staged, the issues recorded on the way, and where it stands.
Staging never fails: a rejected call leaves the staged changes alone and records its error.

* `Update.edit`   one step of preparing an update;
* `Update.apply`  what the update would do to a base, or why it cannot be applied.  Recorded
                  issues come first: while there are any, the base is not looked at.
-/

namespace StagedTable

structure Update (k : Kind) where
  changes : k.Changes
  issues : Issues
  state : CommitState

namespace Update

variable {k : Kind}

/-- nothing staged, nothing recorded, not committed -/
def new (k : Kind) : Update k := ⟨k.nothing, .empty, .pending⟩

inductive Edit (k : Kind) where
  | call (c : k.Call)
  | record (e : Error)
  | extend (es : List Error)
  /-- forgets the recorded issues, and nothing else -/
  | clear

/-- a staging call: either the changes move on, or an issue is recorded -/
def call (u : Update k) (c : k.Call) : Update k :=
  match k.stage u.changes c with
  | .ok changes => { u with changes }
  | .error why => { u with issues := u.issues.record why.error }

def edit (u : Update k) : Edit k → Update k
  | .call c => u.call c
  | .record e => { u with issues := u.issues.record e }
  | .extend es => { u with issues := u.issues.extend es }
  | .clear => { u with issues := .empty }

def edits (u : Update k) (es : List (Edit k)) : Update k := es.foldl edit u

def apply (u : Update k) (base : Metadata) : Except Invalidity k.Output :=
  if u.issues.isEmpty then k.applyTo u.changes base else .error (.recorded u.issues)

theorem edits_cons (u : Update k) (e : Edit k) (es : List (Edit k)) :
    u.edits (e :: es) = (u.edit e).edits es := rfl
theorem edits_append (u : Update k) (a b : List (Edit k)) :
    u.edits (a ++ b) = (u.edits a).edits b := by
  simp [edits, List.foldl_append]

@[simp] theorem state_edit (u : Update k) (e : Edit k) : (u.edit e).state = u.state := by
  cases e with
  | call c => simp only [edit, call]; split <;> rfl
  | record e => rfl
  | extend es => rfl
  | clear => rfl

theorem apply_of_issues {u : Update k} (h : u.issues.errors ≠ []) (base : Metadata) :
    u.apply base = .error (.recorded u.issues) := by
  simp [apply, Issues.isEmpty, h]

theorem apply_of_no_issues {u : Update k} (h : u.issues.errors = []) (base : Metadata) :
    u.apply base = k.applyTo u.changes base := by
  simp [apply, Issues.isEmpty, h]

theorem applyTo_of_apply {u : Update k} {base : Metadata} {out : k.Output}
    (h : u.apply base = .ok out) : k.applyTo u.changes base = .ok out := by
  rw [apply] at h
  split at h
  · exact h
  · cases h

end Update

end StagedTable
