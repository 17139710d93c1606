import StagedTable.Update.Columns
import StagedTable.Update.Location
import StagedTable.Update.Properties
import StagedTable.Update.Snapshot

/-!
# Kinds of updates

An update changes one part of a table's metadata: its properties, its location, its schema, or
the registered snapshots.  For each kind there is

* `Kind.Changes`  what is staged, and `Kind.Call`, the staging calls;
* `Kind.Output`   what applying the changes yields, shown to the caller as a preview;
* `Kind.applyTo`  the output on a base, or why there is none;
* `Kind.install`  the base with the output in place of the part it replaces.

`install` leaves the version and the format version of the base alone (`install_version`,
`install_formatVersion`).
-/

namespace StagedTable

inductive Kind where
  | properties
  | location
  | schema
  | snapshot
  deriving Repr, DecidableEq

namespace Kind

def all : List Kind := [properties, location, schema, snapshot]

def label : Kind → String
  | properties => "properties"
  | location => "location"
  | schema => "schema"
  | snapshot => "snapshot"

def ofLabel? (s : String) : Option Kind := all.find? (·.label == s)

theorem ofLabel?_label (k : Kind) : ofLabel? k.label = some k := by
  cases k <;> decide

abbrev Changes : Kind → Type
  | properties => PropertyChanges
  | location => LocationChange
  | schema => SchemaChanges
  | snapshot => SnapshotChange

abbrev Call : Kind → Type
  | properties => PropertyChanges.Call
  | location => LocationChange.Call
  | schema => SchemaChanges.Call
  | snapshot => SnapshotChange.Call

abbrev Output : Kind → Type
  | properties => Dictionary String
  | location => String
  | schema => Schema
  | snapshot => Snapshot

/-- nothing staged -/
def nothing : (k : Kind) → k.Changes
  | properties => PropertyChanges.empty
  | location => LocationChange.empty
  | schema => SchemaChanges.empty
  | snapshot => SnapshotChange.empty

def stage : (k : Kind) → k.Changes → k.Call → Except Rejection k.Changes
  | properties => PropertyChanges.stage
  | location => LocationChange.stage
  | schema => SchemaChanges.stage
  | snapshot => SnapshotChange.stage

def applyTo : (k : Kind) → k.Changes → Metadata → Except Invalidity k.Output
  | properties, c, base => PropertyChanges.applyTo c base.properties
  | location, c, _ => LocationChange.result c
  | schema, c, base => SchemaChanges.applyTo c base
  | snapshot, c, _ => SnapshotChange.result c

/-- the metadata to commit: the base with the output in place -/
def install : (k : Kind) → k.Output → Metadata → Metadata
  | properties, out, base => { base with properties := out }
  | location, out, base => { base with location := out }
  | schema, out, base =>
    { base with schema := out, lastColumnId := max base.lastColumnId (Schema.highestId out) }
  | snapshot, out, base => { base with properties := Snapshot.register out base.properties }

@[simp] theorem install_version (k : Kind) (out : k.Output) (base : Metadata) :
    (k.install out base).version = base.version := by
  cases k <;> rfl

@[simp] theorem install_formatVersion (k : Kind) (out : k.Output) (base : Metadata) :
    (k.install out base).formatVersion = base.formatVersion := by
  cases k <;> rfl

end Kind

end StagedTable
