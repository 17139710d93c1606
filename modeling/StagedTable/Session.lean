import StagedTable.Description
import StagedTable.Session.Step

/-!
# Sessions

A session is a world together with the names that its steps use.  Names lead to handles and
values, so a name that is bound again leaves what it named before in place: an update stays with
the handle it was made for.

* `Session.answer`  answers a question; all it can change is the journal;
* `Session.step`    takes one step;
* `Session.run`     takes all steps, and lists the answer and the events of each.
-/

namespace StagedTable

structure Session where
  world : World
  catalogs : Dictionary Nat
  handles : Dictionary HandleId
  scripts : Dictionary Nat
  updates : Dictionary Pending
  transactions : Dictionary Transaction
  /-- saved metadata -/
  registers : Dictionary Metadata
  /-- the catalog of the fixture, if the session was started with one -/
  fixture : Option Nat

namespace Session

def empty : Session := ⟨.empty, .empty, .empty, .empty, .empty, .empty, .empty, none⟩

/-! ## names -/

def catalogId (s : Session) (name : String) : Except Mistake Nat :=
  match s.catalogs.get? name with
  | some i => .ok i
  | none => .error (.unknownCatalog name)

def handleId (s : Session) (name : String) : Except Mistake HandleId :=
  match s.handles.get? name with
  | some id => .ok id
  | none => .error (.unknownHandle name)

def scriptId (s : Session) (name : String) : Except Mistake Nat :=
  match s.scripts.get? name with
  | some i => .ok i
  | none => .error (.unknownScript name)

def pending (s : Session) (name : String) : Except Mistake Pending :=
  match s.updates.get? name with
  | some p => .ok p
  | none => .error (.unknownUpdate name)

def transaction (s : Session) (name : String) : Except Mistake Transaction :=
  match s.transactions.get? name with
  | some t => .ok t
  | none => .error (.unknownTransaction name)

def metadata (s : Session) : Source → Except Mistake Metadata
  | .draft location p => .ok (.draft location p)
  | .saved register p =>
    match s.registers.get? register with
    | some m => .ok (m.patch p)
    | none => .error (.unknownRegister register)

def handle (s : Session) (name : String) : Except Mistake Handle :=
  (s.handleId name).map s.world.handle

/-! ## questions -/

/-- the answer to a question, and the events of finding it -/
def answer (s : Session) : Question → Except Mistake (Answer × List Event)
  | .hasTable catalog table => do
    let i ← s.catalogId catalog
    return (.flag ((s.world.store.catalog i).exists? table), [])
  | .stored catalog table => do
    let i ← s.catalogId catalog
    return (.stored ((s.world.store.catalog i).stored? table), [])
  | .calls handle => do
    let i ← s.scriptId handle
    return (.calls (s.world.store.script i).exchanges, [])
  | .ident handle => do
    let h ← s.handle handle
    return (.text h.ident, [])
  | .version handle => do
    let h ← s.handle handle
    return (.version h.cache.version, [])
  | .metadata handle => do
    let h ← s.handle handle
    return (.metadata h.cache, [])
  | .property handle key => do
    let h ← s.handle handle
    return (.property (h.cache.property key), [])
  | .column handle name => do
    let h ← s.handle handle
    return (.column (h.cache.schema.column? name), [])
  | .describeHandle handle => do
    let h ← s.handle handle
    return (.text h.describe, [])
  | .equal a b => do
    let a ← s.metadata a
    let b ← s.metadata b
    return (.flag (a = b), [])
  | .issues update => do
    let p ← s.pending update
    return (.issues p.update.issues, [])
  | .check update => do
    let p ← s.pending update
    return (.status p.update.issues.check, p.update.issues.events)
  | .preview update => do
    let p ← s.pending update
    match p.apply s.world with
    | .ok out => return (.preview p.kind (.ok out), [])
    | .error why => return (.preview p.kind (.error why.error), why.events)
  | .state update => do
    let p ← s.pending update
    return (.state p.update.state, [])
  | .describeTransaction transaction => do
    let t ← s.transaction transaction
    return (.transaction t.members.length (t.describe (s.world.handle t.handle).ident), [])

/-! ## steps -/

/-- binds a handle's name if the handle was opened -/
def opened (s : Session) (name : String) : Except Error HandleId × World → Answer × Session
  | (.ok id, w) =>
    (.opened (.ok ((w.handle id).ident, (w.handle id).cache)),
      { s with world := w, handles := s.handles.insert name id })
  | (.error e, w) => (.opened (.error e), { s with world := w })

/-- puts an update back under its name after a step of preparing it -/
def edited (s : Session) (name : String) (p : Pending) : Answer × Session :=
  (.issueCount p.update.issues.count, { s with updates := s.updates.insert name p })

/-- puts a transaction back under its name after a member was added -/
def added (s : Session) (name : String) (t : Transaction)
    (m : Transaction.Boxed Transaction.Member) : Answer × Session :=
  let t := { t with members := t.members ++ [m] }
  (.size t.members.length, { s with transactions := s.transactions.insert name t })

def fixtureTable : String := "orders"

def step (s : Session) : Step → Except Mistake (Answer × Session)
  | .ask q => do
    let (a, events) ← s.answer q
    return (a, { s with world := s.world.log events })
  | .newCatalog name config =>
    let (i, world) := s.world.addCatalog config
    .ok (.done, { s with world, catalogs := s.catalogs.insert name i })
  | .shareCatalog catalog name => do
    let i ← s.catalogId catalog
    return (.done, { s with catalogs := s.catalogs.insert name i })
  | .create catalog handle table schema => do
    let i ← s.catalogId catalog
    return s.opened handle (s.world.create i table schema)
  | .load catalog handle table => do
    let i ← s.catalogId catalog
    return s.opened handle (s.world.load i table)
  | .secondHandle handle =>
    match s.fixture with
    | some i => .ok (s.opened handle (s.world.load i fixtureTable))
    | none => .error .noFixture
  | .plant catalog f => do
    let i ← s.catalogId catalog
    return (.done, { s with world := s.world.plant i f })
  | .openScript handle ident script =>
    let (i, world) := s.world.addScript script
    .ok (opened { s with world, scripts := s.scripts.insert handle i } handle
      (world.attach (.script i) ident))
  | .refresh handle => do
    let id ← s.handleId handle
    let (status, world) := s.world.refresh id
    return (.refreshed status (world.handle id).cache, { s with world })
  | .save handle register => do
    let h ← s.handle handle
    return (.done, { s with registers := s.registers.insert register h.cache })
  | .commitMetadata handle base new => do
    let id ← s.handleId handle
    let base ← s.metadata base
    let new ← s.metadata new
    let (status, world) := s.world.commitMetadata id base new
    return (.landed status (world.handle id).cache, { s with world })
  | .newUpdate update handle kind => do
    let id ← s.handleId handle
    return (.state .pending, { s with updates := s.updates.insert update (.new id kind) })
  | .call update kind c => do
    let p ← s.pending update
    if h : kind = p.kind then return s.edited update (p.edit (.call (h ▸ c)))
    else throw (.wrongKind update p.kind)
  | .record update e => do
    let p ← s.pending update
    return s.edited update (p.edit (.record e))
  | .fold update source => do
    let p ← s.pending update
    let q ← s.pending source
    return s.edited update (p.edit (.extend q.update.issues.errors))
  | .clear update => do
    let p ← s.pending update
    return s.edited update (p.edit .clear)
  | .commit update => do
    let p ← s.pending update
    let (p, status, world) := p.commit s.world
    return (.committed status p.update.state (world.handle p.handle).cache,
      { s with world, updates := s.updates.insert update p })
  | .newTransaction transaction handle => do
    let id ← s.handleId handle
    return (.done, { s with transactions := s.transactions.insert transaction ⟨id, []⟩ })
  | .addUpdate transaction update boxed => do
    let t ← s.transaction transaction
    let p ← s.pending update
    return added { s with updates := s.updates.erase update } transaction t
      (.wrap boxed (.update p))
  | .addFixed transaction status => do
    let t ← s.transaction transaction
    return s.added transaction t (.wrap false (.fixed status))
  | .commitTransaction transaction => do
    let t ← s.transaction transaction
    let (status, world) := s.world.commitTransaction t
    return (.landed status (world.handle t.handle).cache,
      { s with world, transactions := s.transactions.erase transaction })

def run (s : Session) : List Step → Except Mistake (List (Answer × List Event) × Session)
  | [] => .ok ([], s)
  | st :: sts => do
    let (a, s') ← s.step st
    let (rest, last) ← run s' sts
    return ((a, s'.world.eventsSince s.world) :: rest, last)

end Session

end StagedTable
