import StagedTable.Catalog.Config
import StagedTable.Operations

/-!
# Catalogs in memory

A catalog holds the stored metadata of named tables and, for tests of its callers, at most one
planted fault, which the next commit that reaches the catalog runs into.

* `Catalog.create`      a new table, at version 0;
* `Catalog.commit`      compare-and-swap on the version: a commit lands if its base has the stored
                        version, and is stored one version on.  A planted fault comes first, and
                        is used up;
* `Catalog.operations`  the two operations on one of its tables.

Errors are kept as causes: `CreateError` says why a table cannot be created or opened,
`CommitError` why a commit did not land.
-/

namespace StagedTable

namespace Catalog

/-- a failure that waits for the next commit -/
inductive Fault where
  /-- the commit is refused -/
  | reject
  /-- the answer is lost; the commit does not land, but the caller cannot know -/
  | loseResponse
  deriving Repr, DecidableEq

inductive CreateError where
  | emptyName
  | unsupportedFormat (version : Nat)
  | alreadyExists (table : String)
  | doesNotExist (table : String)
  deriving Repr, DecidableEq

inductive CommitError where
  | refused (table : String)
  | connectionLost (table : String)
  | dropped (table : String)
  /-- someone else has committed since the base was read -/
  | stale (table : String) (base current : Nat)
  deriving Repr, DecidableEq

def CreateError.message : CreateError → String
  | emptyName => "Table name cannot be empty"
  | unsupportedFormat version => "Unsupported format version: " ++ toString version
  | alreadyExists table => "Table already exists: " ++ table
  | doesNotExist table => "Table does not exist: " ++ table

def CreateError.error (e : CreateError) : Error := ⟨.invalidArgument, e.message⟩

def CommitError.message : CommitError → String
  | refused table => "Commit to " ++ table ++ " was rejected by the catalog"
  | connectionLost table => "Lost connection while committing to " ++ table
  | dropped table => "Table " ++ table ++ " was dropped"
  | stale table base current =>
    "Cannot commit to " ++ table ++ ": base version " ++ toString base ++
      " is stale, current version is " ++ toString current

def CommitError.kind : CommitError → ErrorKind
  | connectionLost _ => .commitStateUnknown
  | _ => .commitFailed

def CommitError.error (e : CommitError) : Error := ⟨e.kind, e.message⟩

def Fault.strike (table : String) : Fault → CommitError
  | .reject => .refused table
  | .loseResponse => .connectionLost table

end Catalog

structure Catalog where
  config : Catalog.Config
  tables : Dictionary Metadata
  fault : Option Catalog.Fault

namespace Catalog

def new (config : Config) : Catalog := ⟨config, .empty, none⟩

instance : Inhabited Catalog := ⟨new default⟩

def stored? (c : Catalog) (table : String) : Option Metadata := c.tables.get? table

def exists? (c : Catalog) (table : String) : Bool := c.tables.contains table

/-- plants a fault, in place of one that still waits -/
def plant (c : Catalog) (f : Fault) : Catalog := { c with fault := some f }

def firstMetadata (c : Catalog) (table : String) (schema : Schema) : Metadata :=
  .fresh (c.config.tableLocation table) c.config.formatVersion schema c.config.defaultProperties

def create (c : Catalog) (table : String) (schema : Schema) : Except CreateError Catalog :=
  if table = "" then .error .emptyName
  else if Config.supports c.config.formatVersion = false then
    .error (.unsupportedFormat c.config.formatVersion)
  else if c.exists? table then .error (.alreadyExists table)
  else .ok { c with tables := c.tables.insert table (c.firstMetadata table schema) }

def refresh (c : Catalog) (table : String) : Except CreateError Metadata :=
  match c.stored? table with
  | some m => .ok m
  | none => .error (.doesNotExist table)

/-- compares the versions and stores the successor of the base -/
def swap (c : Catalog) (table : String) (base new : Metadata) : Except CommitError Catalog :=
  match c.stored? table with
  | none => .error (.dropped table)
  | some current =>
    if current.version = base.version then
      .ok { c with tables := c.tables.insert table (new.succeeding base) }
    else .error (.stale table base.version current.version)

def commit (c : Catalog) (table : String) (base new : Metadata) :
    Except CommitError Unit × Catalog :=
  match c.fault with
  | some f => (.error (f.strike table), { c with fault := none })
  | none =>
    match c.swap table base new with
    | .ok c' => (.ok (), c')
    | .error why => (.error why, c)

/-- a planted fault strikes before anything is compared, and is gone -/
theorem commit_of_fault {c : Catalog} {f : Fault} (hf : c.fault = some f) (table : String)
    (base new : Metadata) :
    c.commit table base new = (.error (f.strike table), { c with fault := none }) := by
  simp [commit, hf]

theorem commit_of_stale {c : Catalog} {table : String} {base current : Metadata}
    (hf : c.fault = none) (hs : c.stored? table = some current)
    (hv : current.version ≠ base.version) (new : Metadata) :
    c.commit table base new = (.error (.stale table base.version current.version), c) := by
  simp [commit, swap, hf, hs, hv]

theorem commit_of_current {c : Catalog} {table : String} {base current : Metadata}
    (hf : c.fault = none) (hs : c.stored? table = some current)
    (hv : current.version = base.version) (new : Metadata) :
    c.commit table base new =
      (.ok (), { c with tables := c.tables.insert table (new.succeeding base) }) := by
  simp [commit, swap, hf, hs, hv]

def operations (table : String) : Operations Catalog where
  refresh c := ((c.refresh table).mapError CreateError.error, c)
  commit base new c :=
    let r := c.commit table base new
    (r.1.mapError CommitError.error, r.2)

end Catalog

end StagedTable
