import StagedTable.Error

/-!
# Events

What happens to tables is journalled.  Each event has a level, a message and named fields; the
names of the fields and the wording are fixed here and nowhere else.
-/

namespace StagedTable

inductive Level where
  | debug
  | info
  | warn
  deriving Repr, DecidableEq

def Level.label : Level → String
  | .debug => "debug"
  | .info => "info"
  | .warn => "warn"

inductive Event where
  | createdTable (table : String)
  /-- a check found that many issues -/
  | validationFailed (count : Nat)
  /-- a commit landed, and this is the version seen afterwards -/
  | committed (table : String) (version : Nat)
  /-- a commit came back with an error -/
  | commitFailed (table : String) (baseVersion : Nat) (error : Error)
  /-- a commit landed, but its result could not be read back -/
  | refreshFailed (table : String) (baseVersion : Nat) (error : Error)
  /-- the update at that position, counted from 1, failed -/
  | transactionStopped (table : String) (position total : Nat)
  | transactionCommitted (table : String) (total : Nat)
  deriving Repr, DecidableEq

namespace Event

def level : Event → Level
  | createdTable _ | validationFailed _ | transactionCommitted .. => .debug
  | committed .. => .info
  | commitFailed .. | refreshFailed .. | transactionStopped .. => .warn

def message : Event → String
  | createdTable _ => "created table"
  | validationFailed _ => "staged changes failed validation"
  | committed .. => "committed table metadata"
  | commitFailed _ _ e => "commit did not succeed: " ++ e.message
  | refreshFailed _ _ e => "committed, but refresh failed: " ++ e.message
  | transactionStopped .. => "transaction stopped"
  | transactionCommitted .. => "transaction committed"

/-- the named values of an event, as text -/
def fields : Event → List (String × String)
  | createdTable table => [("table", table)]
  | validationFailed count => [("count", toString count)]
  | committed table version => [("table", table), ("version", toString version)]
  | commitFailed table base e =>
    [("table", table), ("base_version", toString base), ("kind", e.kind.label)]
  | refreshFailed table base _ => [("table", table), ("base_version", toString base)]
  | transactionStopped table position total =>
    [("table", table), ("position", toString position), ("total", toString total)]
  | transactionCommitted table total => [("table", table), ("total", toString total)]

end Event

end StagedTable
