import StagedTable.Location
import StagedTable.Update.Invalidity
import StagedTable.Update.Rejection

/-!
# A staged location

The place a table is to move to.  Only locations are staged, without their trailing slashes;
the last one staged counts.
-/

namespace StagedTable

structure LocationChange where
  staged : Option String

namespace LocationChange

inductive Call where
  | moveTo (location : String)
  deriving Repr, DecidableEq

def empty : LocationChange := ⟨none⟩

def stage (_ : LocationChange) : Call → Except Rejection LocationChange
  | .moveTo location =>
    if location = "" then .error .emptyLocation
    else if Location.accepts location then .ok ⟨some (Location.dropTrailingSlashes location)⟩
    else .error (.notALocation location)

def result (c : LocationChange) : Except Invalidity String :=
  match c.staged with
  | some location => .ok location
  | none => .error .noLocation

end LocationChange

end StagedTable
