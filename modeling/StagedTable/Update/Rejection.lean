import StagedTable.Error

/-!
# Rejected staging calls

Why a single staging call is not accepted.  A rejected call stages nothing; its error is
recorded with the update, and it is always about the caller's argument.
-/

namespace StagedTable

inductive Rejection where
  | emptyPropertyKey
  /-- the key belongs to the table and not to its users -/
  | reservedPropertyKey (key : String)
  | emptyLocation
  | notALocation (text : String)
  | emptyColumnName
  | alreadyAdded (column : String)
  | alreadyDeleted (column : String)
  | emptySnapshotName
  | longSnapshotName
  | negativeSnapshotId
  deriving Repr, DecidableEq

namespace Rejection

/-- how many bytes of UTF-8 a snapshot's name may take -/
def snapshotNameLimit : Nat := 100

def message : Rejection → String
  | emptyPropertyKey => "Property key cannot be empty"
  | reservedPropertyKey key => "Cannot set reserved table property: " ++ key
  | emptyLocation => "Location cannot be empty"
  | notALocation text => "Location must be a URI with a scheme: " ++ text
  | emptyColumnName => "Column name cannot be empty"
  | alreadyAdded column => "Column already staged for addition: " ++ column
  | alreadyDeleted column => "Column already staged for deletion: " ++ column
  | emptySnapshotName => "Name cannot be empty"
  | longSnapshotName => "Name cannot exceed " ++ toString snapshotNameLimit ++ " characters"
  | negativeSnapshotId => "ID must be non-negative"

def error (r : Rejection) : Error := ⟨.invalidArgument, r.message⟩

@[simp] theorem kind_error (r : Rejection) : r.error.kind = .invalidArgument := rfl

end Rejection

end StagedTable
