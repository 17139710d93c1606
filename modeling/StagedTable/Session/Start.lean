import StagedTable.Session

/-!
# Starting a session

A session starts with one catalog, or with the fixture: a catalog that holds a table of orders,
with an open handle on it.  The fixture's table is created like any other, so a configuration
that no table can be created under has no fixture.
-/

namespace StagedTable.Session

def mainCatalog : String := "main"

def fixtureHandle : String := "t"

def ordersSchema : Schema :=
  ⟨0, [⟨1, "order_id", .long, true⟩, ⟨2, "customer", .string, false⟩,
    ⟨3, "amount", .double, false⟩]⟩

/-- the configuration of a fixture that is given none -/
def fixtureConfig : Catalog.Config := .ofSettings [.defaultProperty "owner" "analytics"]

def firstCatalog : Nat := 0

def start (config : Catalog.Config) : Session :=
  { empty with
    world := (World.empty.addCatalog config).2
    catalogs := empty.catalogs.insert mainCatalog firstCatalog }

def startFixture (config : Catalog.Config) : Except Error Session :=
  let s := start config
  match s.world.create firstCatalog fixtureTable ordersSchema with
  | (.ok id, world) =>
    .ok { s with world, handles := s.handles.insert fixtureHandle id, fixture := some firstCatalog }
  | (.error e, _) => .error e

end StagedTable.Session
