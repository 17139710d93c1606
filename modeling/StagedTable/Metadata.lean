import StagedTable.Dictionary
import StagedTable.Schema

/-!
# Table metadata

Everything a table's state consists of, under a version number that counts its commits.  Next
to the schema stands the highest column id ever given out: a deleted column's id stays retired,
so that id is remembered on its own.
-/

namespace StagedTable

structure Metadata where
  location : String
  formatVersion : Nat
  /-- the number of commits since the table was created -/
  version : Nat
  properties : Dictionary String
  schema : Schema
  /-- the highest column id ever given out -/
  lastColumnId : Int32
  deriving DecidableEq

namespace Metadata

/-- metadata of a table that was just created: no commits, no id given out beyond the schema's -/
def fresh (location : String) (formatVersion : Nat) (schema : Schema)
    (properties : Dictionary String) : Metadata :=
  { location, formatVersion, version := 0, properties, schema, lastColumnId := schema.highestId }

instance : Inhabited Metadata := ⟨fresh "" 0 .empty .empty⟩

def property (m : Metadata) (key : String) : Option String := m.properties.get? key

/-- the metadata as it is stored once it succeeds `base`: one version on -/
def succeeding (m base : Metadata) : Metadata := { m with version := base.version + 1 }

@[simp] theorem version_succeeding (m base : Metadata) :
    (m.succeeding base).version = base.version + 1 := rfl

end Metadata

end StagedTable
