import StagedTable.Registry
import StagedTable.Store
import StagedTable.Update.Commit

/-!
# Open handles and the journal

The state that all calls share: the store, the handles that are open on it, and the journal of
events.

* `HandleId`  a handle, by its backing and its number among the handles opened there.  Handles on
              one backing are numbered without regard to those on others;
* `World`     the state, with the calls `create`, `load`, `refresh`, `commitMetadata`, `commit`;
* `Pending`   an update together with the handle it belongs to.

Each call works on one backing: it sees the store through the operations of that backing, and
it changes no handle but its own.
-/

namespace StagedTable

/-- a handle: what it is open on, and which of the handles there it is -/
structure HandleId where
  backing : Backing
  serial : Nat
  deriving Repr, DecidableEq

structure World where
  store : Store
  /-- the handles open on each backing, in the order of opening -/
  handles : Registry Backing (List Handle)
  /-- every event so far, oldest first -/
  journal : List Event

namespace World

def empty : World := ⟨.empty, .empty, []⟩

def handlesOn (w : World) (b : Backing) : List Handle := (w.handles.get? b).getD []

def handle? (w : World) (id : HandleId) : Option Handle := (w.handlesOn id.backing)[id.serial]?

def handle (w : World) (id : HandleId) : Handle := (w.handle? id).getD default

def log (w : World) (events : List Event) : World := { w with journal := w.journal ++ events }

/-- the events that `w` has on top of those of `before` -/
def eventsSince (w before : World) : List Event := w.journal.drop before.journal.length

/-- the world after a call on a handle has ended so -/
def settle (w : World) (id : HandleId) (o : Outcome Store) : World where
  store := o.store
  handles := w.handles.set id.backing ((w.handlesOn id.backing).set id.serial o.handle)
  journal := w.journal ++ o.events

/-- a call changes the handle it was made on, and no other -/
theorem handlesOn_settle (w : World) (id : HandleId) (o : Outcome Store) (b : Backing) :
    (w.settle id o).handlesOn b =
      if b = id.backing then (w.handlesOn b).set id.serial o.handle else w.handlesOn b := by
  simp only [handlesOn, settle, Registry.get?_set]
  split
  · next h => subst h; simp
  · rfl

@[simp] theorem handlesOn_log (w : World) (events : List Event) (b : Backing) :
    (w.log events).handlesOn b = w.handlesOn b := rfl

/-! ## opening -/

def addCatalog (w : World) (config : Catalog.Config) : Nat × World :=
  (w.store.catalogs.length,
    { w with store := { w.store with catalogs := w.store.catalogs ++ [.new config] } })

def addScript (w : World) (s : Script) : Nat × World :=
  (w.store.scripts.length,
    { w with store := { w.store with scripts := w.store.scripts ++ [⟨s, []⟩] } })

def attach (w : World) (b : Backing) (ident : String) : Except Error HandleId × World :=
  match Handle.attach b.operations ident w.store with
  | (.error e, store) => (.error e, { w with store })
  | (.ok h, store) =>
    (.ok ⟨b, (w.handlesOn b).length⟩,
      { w with store, handles := w.handles.set b (w.handlesOn b ++ [h]) })

def load (w : World) (catalog : Nat) (table : String) : Except Error HandleId × World :=
  if (w.store.catalog catalog).exists? table then w.attach (.table catalog table) table
  else (.error (Catalog.CreateError.doesNotExist table).error, w)

def create (w : World) (catalog : Nat) (table : String) (schema : Schema) :
    Except Error HandleId × World :=
  match (w.store.catalog catalog).create table schema with
  | .error why => (.error why.error, w)
  | .ok c =>
    World.load ({ w with store := w.store.setCatalog catalog c }.log [.createdTable table])
      catalog table

def plant (w : World) (catalog : Nat) (f : Catalog.Fault) : World :=
  { w with store := w.store.setCatalog catalog ((w.store.catalog catalog).plant f) }

/-! ## calls on a handle -/

def refresh (w : World) (id : HandleId) : Status × World :=
  let o := (w.handle id).refresh id.backing.operations w.store
  (o.status, w.settle id o)

/-- commits `new` as the successor of `base`, whatever the two are -/
def commitMetadata (w : World) (id : HandleId) (base new : Metadata) : Status × World :=
  let o := (w.handle id).commitMetadata id.backing.operations base new w.store
  (o.status, w.settle id o)

def commit (w : World) (id : HandleId) {k : Kind} (u : Update k) : Update k × Status × World :=
  let r := u.commit id.backing.operations (w.handle id) w.store
  (r.1, r.2.status, w.settle id r.2)

end World

/-! ## pending updates -/

/-- an update of some kind, and the handle that it reads from and is committed through -/
structure Pending where
  handle : HandleId
  kind : Kind
  update : Update kind

namespace Pending

def new (handle : HandleId) (kind : Kind) : Pending := ⟨handle, kind, .new kind⟩

def edit (p : Pending) (e : Update.Edit p.kind) : Pending := { p with update := p.update.edit e }

/-- what the update would do to the cache of its handle -/
def apply (p : Pending) (w : World) : Except Invalidity p.kind.Output :=
  p.update.apply (w.handle p.handle).cache

def commit (p : Pending) (w : World) : Pending × Status × World :=
  let r := w.commit p.handle p.update
  ({ p with update := r.1 }, r.2)

end Pending

end StagedTable
