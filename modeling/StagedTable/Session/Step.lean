import StagedTable.Metadata.Patch
import StagedTable.Transaction

/-!
# Steps of a session

A session names what it works with: catalogs, handles, updates, transactions, and saved
metadata.  A step says what to do in terms of these names; a name bound again is replaced.

* `Question`  a step that asks and changes nothing that is stored or staged;
* `Step`      any step;
* `Answer`    what a step answers;
* `Mistake`   why a step makes no sense in a session.
-/

namespace StagedTable.Session

/-- metadata written out in a step, or taken from a saved record and patched -/
inductive Source where
  | draft (location : String) (p : Metadata.Patch)
  | saved (register : String) (p : Metadata.Patch)

inductive Question where
  /-- whether a catalog has a table -/
  | hasTable (catalog table : String)
  /-- what a catalog has stored, past all caches -/
  | stored (catalog table : String)
  /-- the calls that a script has received -/
  | calls (handle : String)
  | ident (handle : String)
  | version (handle : String)
  | metadata (handle : String)
  | property (handle key : String)
  | column (handle name : String)
  | describeHandle (handle : String)
  /-- whether two metadata records are equal -/
  | equal (a b : Source)
  /-- the issues recorded with an update -/
  | issues (update : String)
  /-- whether they stand in the way -/
  | check (update : String)
  /-- what an update would do -/
  | preview (update : String)
  | state (update : String)
  | describeTransaction (transaction : String)

inductive Step where
  | ask (q : Question)
  | newCatalog (name : String) (config : Catalog.Config)
  /-- a second name for a catalog: both share its tables and its planted fault -/
  | shareCatalog (catalog name : String)
  | create (catalog handle table : String) (schema : Schema)
  | load (catalog handle table : String)
  /-- one more handle on the fixture's table -/
  | secondHandle (handle : String)
  | plant (catalog : String) (f : Catalog.Fault)
  | openScript (handle ident : String) (script : Script)
  | refresh (handle : String)
  | save (handle register : String)
  | commitMetadata (handle : String) (base new : Source)
  | newUpdate (update handle : String) (kind : Kind)
  | call (update : String) (kind : Kind) (c : kind.Call)
  | record (update : String) (e : Error)
  /-- records the issues of an update with another one, or with itself -/
  | fold (update source : String)
  | clear (update : String)
  | commit (update : String)
  | newTransaction (transaction handle : String)
  /-- moves an update into a transaction, in a box if so asked; its name is gone -/
  | addUpdate (transaction update : String) (boxed : Bool := false)
  | addFixed (transaction : String) (status : Status)
  /-- commits a transaction; its name is gone -/
  | commitTransaction (transaction : String)

inductive Answer where
  | done
  | opened (result : Except Error (String × Metadata))
  | flag (b : Bool)
  | stored (m : Option Metadata)
  | calls (exchanges : List Operations.Exchange)
  | text (s : String)
  | version (n : Nat)
  | metadata (m : Metadata)
  | property (value : Option String)
  | column (c : Option Column)
  | refreshed (status : Status) (cache : Metadata)
  /-- a commit of metadata or of a transaction: how it ended, and the cache afterwards -/
  | landed (status : Status) (cache : Metadata)
  /-- a commit of an update: how it ended, where the update stands, and the cache afterwards -/
  | committed (status : Status) (state : CommitState) (cache : Metadata)
  | state (s : CommitState)
  | issueCount (n : Nat)
  | issues (i : Issues)
  | status (s : Status)
  | preview (kind : Kind) (result : Except Error kind.Output)
  | size (n : Nat)
  | transaction (size : Nat) (description : String)

inductive Mistake where
  | unknownCatalog (name : String)
  | unknownHandle (name : String)
  | unknownScript (name : String)
  | unknownUpdate (name : String)
  | unknownTransaction (name : String)
  | unknownRegister (name : String)
  | noFixture
  /-- a staging call of another kind than the update -/
  | wrongKind (update : String) (kind : Kind)

def Mistake.message : Mistake → String
  | unknownCatalog name => "unknown catalog: " ++ name
  | unknownHandle name => "unknown table: " ++ name
  | unknownScript name => "not a scripted table: " ++ name
  | unknownUpdate name => "unknown update: " ++ name
  | unknownTransaction name => "unknown transaction: " ++ name
  | unknownRegister name => "unknown register: " ++ name
  | noFixture => "the session has no fixture"
  | wrongKind update kind => "update " ++ update ++ " is of kind " ++ kind.label

end StagedTable.Session
