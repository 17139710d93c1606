import StagedTable.Error

/-!
# Where an update stands

An update starts out pending.  Each commit moves it to the state that its outcome shows: what
failed validation was never sent, everything else was.
-/

namespace StagedTable

inductive CommitState where
  /-- not committed yet -/
  | pending
  /-- the staged changes were refused before anything was sent -/
  | invalid
  /-- sent, and it landed -/
  | committed
  /-- sent, and refused -/
  | rejected
  /-- sent, and the answer was lost -/
  | unknown
  deriving Repr, DecidableEq, Inhabited

namespace CommitState

/-- the state that a commit's outcome shows -/
def ofStatus : Status → CommitState
  | .ok () => .committed
  | .error e =>
    match e.kind with
    | .invalidArgument | .validationFailed => .invalid
    | .commitFailed => .rejected
    | .commitStateUnknown => .unknown

/-- whether the last commit reached the store -/
def wasSent : CommitState → Bool
  | .pending | .invalid => false
  | .committed | .rejected | .unknown => true

def label : CommitState → String
  | .pending => "pending"
  | .invalid => "invalid"
  | .committed => "committed"
  | .rejected => "rejected"
  | .unknown => "unknown"

@[simp] theorem ofStatus_ok : ofStatus (.ok ()) = .committed := rfl

theorem ofStatus_validationFailed {e : Error} (h : e.kind = .validationFailed) :
    ofStatus (.error e) = .invalid := by
  simp [ofStatus, h]

end CommitState

end StagedTable
