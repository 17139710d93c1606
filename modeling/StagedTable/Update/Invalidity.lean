import StagedTable.Event
import StagedTable.Issues

/-!
# Why staged changes cannot be applied

* `SchemaProblem`   one thing wrong with staged columns, seen against a base schema;
* `Invalidity`      why an update as a whole cannot be applied.

Whatever the cause, its error is a failed validation (`Invalidity.kind_error`): staged changes
that cannot be applied are never sent.
-/

namespace StagedTable

/-- the events of checking recorded issues: one, if the check fails -/
def Issues.events (i : Issues) : List Event :=
  if i.isEmpty then [] else [.validationFailed i.count]

inductive SchemaProblem where
  /-- to be deleted, but not in the schema -/
  | missingColumn (name : String)
  /-- to be added, but the schema has that name and keeps it -/
  | nameTaken (name : String)
  /-- existing rows have no value for a required column -/
  | requiredColumn (name : String)
  /-- so many ids do not fit after the last one -/
  | columnIdsExhausted (count : Nat) (last : Int32)
  | schemaIdsExhausted (last : Int32)
  deriving Repr, DecidableEq

namespace SchemaProblem

def message : SchemaProblem → String
  | missingColumn name => "Cannot delete missing column: " ++ name
  | nameTaken name => "Cannot add column, name already exists: " ++ name
  | requiredColumn name => "Incompatible change: cannot add required column: " ++ name
  | columnIdsExhausted count last =>
    "Cannot assign field id: " ++ toString count ++ " new column(s) after id " ++
      toString last.toInt ++ " exceeds the maximum field id"
  | schemaIdsExhausted last => "Cannot assign schema id after " ++ toString last.toInt

def kind : SchemaProblem → ErrorKind
  | requiredColumn _ => .invalidArgument
  | _ => .validationFailed

def error (p : SchemaProblem) : Error := ⟨p.kind, p.message⟩

end SchemaProblem

inductive Invalidity where
  /-- issues were recorded while staging -/
  | recorded (issues : Issues)
  /-- the staged columns do not fit the base schema -/
  | schema (problems : List SchemaProblem)
  /-- a property is to be set and to be removed -/
  | contradictoryKey (key : String)
  | noLocation
  | noSnapshotName
  deriving Repr, DecidableEq

namespace Invalidity

/-- the schema problems as a record of issues -/
def issuesOf (problems : List SchemaProblem) : Issues := ⟨problems.map SchemaProblem.error⟩

def error : Invalidity → Error
  | recorded issues => issues.report
  | schema problems => (issuesOf problems).report
  | contradictoryKey key =>
    ⟨.validationFailed, "Cannot remove and update the same key: " ++ key⟩
  | noLocation => ⟨.validationFailed, "Invalid table location: no location staged"⟩
  | noSnapshotName => ⟨.validationFailed, "Snapshot name is required"⟩

/-- what is journalled: reports are, single causes are not -/
def events : Invalidity → List Event
  | recorded issues => issues.events
  | schema problems => (issuesOf problems).events
  | contradictoryKey _ | noLocation | noSnapshotName => []

@[simp] theorem kind_error (i : Invalidity) : i.error.kind = .validationFailed := by
  cases i <;> rfl

end Invalidity

end StagedTable
