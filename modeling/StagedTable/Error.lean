/-!
# Errors

An error is a kind and a message.  The kind says who refused and whether anything was sent;
the message is for people.  Context is put in front of the message and leaves the kind alone,
so a caller that decides by kind decides the same with or without context.
-/

namespace StagedTable

/-- who refused, and whether the change may have reached the store -/
inductive ErrorKind where
  /-- a value handed over by the caller is not acceptable -/
  | invalidArgument
  /-- staged changes do not pass their checks -/
  | validationFailed
  /-- the commit was refused and did not land -/
  | commitFailed
  /-- the commit was sent and nobody knows whether it landed -/
  | commitStateUnknown
  deriving Repr, DecidableEq, Inhabited

/-- the kind as written in front of a displayed message -/
def ErrorKind.label : ErrorKind → String
  | .invalidArgument => "invalid-argument"
  | .validationFailed => "validation-failed"
  | .commitFailed => "commit-failed"
  | .commitStateUnknown => "commit-state-unknown"

structure Error where
  kind : ErrorKind
  message : String
  deriving Repr, DecidableEq, Inhabited

namespace Error

/-- puts `context` in front of the message -/
def withContext (e : Error) (context : String) : Error :=
  { e with message := context ++ ": " ++ e.message }

/-- the line shown to people: the kind, then the message -/
def display (e : Error) : String :=
  e.kind.label ++ ": " ++ e.message

@[simp] theorem kind_withContext (e : Error) (context : String) :
    (e.withContext context).kind = e.kind := rfl

@[simp] theorem message_withContext (e : Error) (context : String) :
    (e.withContext context).message = context ++ ": " ++ e.message := rfl

end Error

/-- success, or the error that stopped the operation -/
abbrev Status := Except Error Unit

end StagedTable
