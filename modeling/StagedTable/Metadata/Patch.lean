import StagedTable.Metadata

/-!
# Patched metadata

Metadata written down as a starting point and the parts that differ from it.  A patch sets the
parts it names and recomputes nothing.
-/

namespace StagedTable

structure Metadata.Patch where
  location : Option String
  formatVersion : Option Nat
  version : Option Nat
  properties : Option (Dictionary String)
  schema : Option Schema
  lastColumnId : Option Int32

namespace Metadata

def patch (m : Metadata) (p : Patch) : Metadata where
  location := p.location.getD m.location
  formatVersion := p.formatVersion.getD m.formatVersion
  version := p.version.getD m.version
  properties := p.properties.getD m.properties
  schema := p.schema.getD m.schema
  lastColumnId := p.lastColumnId.getD m.lastColumnId

/-- the format version that a patch starts from when no metadata is named -/
def draftFormatVersion : Nat := 2

/-- a fresh record at that location and with the patch's schema, then patched -/
def draft (location : String) (p : Patch) : Metadata :=
  (fresh location draftFormatVersion (p.schema.getD .empty) .empty).patch p

end Metadata

end StagedTable
