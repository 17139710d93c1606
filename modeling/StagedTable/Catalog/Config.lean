import StagedTable.Dictionary
import StagedTable.Location

/-!
# Catalog configuration

What a catalog gives every table it creates: a place under its warehouse, a format version and
default properties.
-/

namespace StagedTable

namespace Catalog

structure Config where
  /-- the root under which table locations are derived -/
  warehouse : String
  formatVersion : Nat
  /-- properties that every new table starts with -/
  defaultProperties : Dictionary String
  deriving DecidableEq

namespace Config

def standard : Config := ⟨"memory://warehouse", 2, .empty⟩

instance : Inhabited Config := ⟨standard⟩

/-- one choice that departs from the standard configuration -/
inductive Setting where
  | warehouse (root : String)
  | formatVersion (version : Nat)
  | defaultProperty (key value : String)
  deriving Repr, DecidableEq

def set (c : Config) : Setting → Config
  | .warehouse root => { c with warehouse := root }
  | .formatVersion v => { c with formatVersion := v }
  | .defaultProperty k v => { c with defaultProperties := c.defaultProperties.insert k v }

/-- the standard configuration with the settings made in turn -/
def ofSettings (settings : List Setting) : Config := settings.foldl set standard

/-- the format versions that tables can be created with -/
def supports (version : Nat) : Bool := version == 1 || version == 2

/-- the location of a table: its name under the warehouse -/
def tableLocation (c : Config) (name : String) : String :=
  Location.dropTrailingSlashes c.warehouse ++ "/" ++ name

end Config

end Catalog

end StagedTable
