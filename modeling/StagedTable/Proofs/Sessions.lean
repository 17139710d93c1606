import StagedTable.Proofs.Growth
import StagedTable.Proofs.Transactions
import StagedTable.Session.Start

/-!
# Sessions as runs

The steps of a session speak of catalogs, handles, updates and transactions by name.  Behind the
names they are a run of the world, so what holds of all runs holds after every step of every
session, and also between the members of the transactions that it commits.

* `Session.Sound`               every name leads to a catalog that exists, or to an open handle;
* `Session.Leads`               legal actions lead from a world to the world of a sound session;
* `Session.step_leads`          those of a step are given by `Session.actions`;
* `Session.run_leads`           those of all steps by `Session.runActions`;
* `Session.start_leads`, `Session.startFixture_leads`  and every session starts with a run.
-/

namespace StagedTable

namespace Dictionary
variable {β : Type} {P Q : β → Prop} {d : Dictionary β}

/-- every value has the property -/
def All (P : β → Prop) (d : Dictionary β) : Prop := ∀ k v, d.get? k = some v → P v

theorem all_empty : (empty : Dictionary β).All P := by
  intro k v h
  cases h

theorem All.insert (h : d.All P) {v : β} (hv : P v) (k : String) : (d.insert k v).All P := by
  intro k' v' h'
  rw [get?_insert] at h'
  split at h'
  · cases h'
    exact hv
  · exact h k' v' h'

theorem All.erase (h : d.All P) (k : String) : (d.erase k).All P := by
  intro k' v' h'
  rw [get?_erase] at h'
  split at h'
  · cases h'
  · exact h k' v' h'

theorem All.imp (h : d.All P) (hpq : ∀ v, P v → Q v) : d.All Q := fun k v hv => hpq v (h k v hv)

end Dictionary

theorem World.log_nil (w : World) : w.log [] = w := by
  rw [log, List.append_nil]

namespace Session

/-! ## names -/

/-- the transaction and its members speak of open handles -/
def OpenMembers (w : World) (t : Transaction) : Prop :=
  w.Open t.handle ∧ ∀ p, .update p ∈ t.contents → w.Open p.handle

structure Sound (s : Session) : Prop where
  coherent : s.world.Coherent
  catalogs : s.catalogs.All (· < s.world.store.catalogs.length)
  fixture : ∀ i, s.fixture = some i → i < s.world.store.catalogs.length
  handles : s.handles.All s.world.Open
  updates : s.updates.All fun p => s.world.Open p.handle
  transactions : s.transactions.All (OpenMembers s.world)

/-- the world goes on, and the names stay -/
theorem Sound.moved {s : Session} (h : s.Sound) {acts : List Action} (hl : s.world.Legal acts) :
    Sound { s with world := s.world.after acts } := by
  obtain ⟨hgrows, hco⟩ := World.grows_after h.coherent hl
  exact {
    coherent := hco
    catalogs := h.catalogs.imp fun i hi => Nat.lt_of_lt_of_le hi hgrows.catalogs
    fixture := fun i hi => Nat.lt_of_lt_of_le (h.fixture i hi) hgrows.catalogs
    handles := h.handles.imp hgrows.handles
    updates := h.updates.imp fun p hp => hgrows.handles p.handle hp
    transactions := h.transactions.imp fun t ht =>
      ⟨hgrows.handles t.handle ht.1, fun p hp => hgrows.handles p.handle (ht.2 p hp)⟩ }

theorem get?_of_catalogId {s : Session} {name : String} {i : Nat} (h : s.catalogId name = .ok i) :
    s.catalogs.get? name = some i := by
  rw [catalogId] at h
  split at h
  · next heq => rw [heq, Except.ok.inj h]
  · cases h

theorem get?_of_handleId {s : Session} {name : String} {id : HandleId}
    (h : s.handleId name = .ok id) : s.handles.get? name = some id := by
  rw [handleId] at h
  split at h
  · next heq => rw [heq, Except.ok.inj h]
  · cases h

theorem get?_of_pending {s : Session} {name : String} {p : Pending} (h : s.pending name = .ok p) :
    s.updates.get? name = some p := by
  rw [pending] at h
  split at h
  · next heq => rw [heq, Except.ok.inj h]
  · cases h

theorem get?_of_transaction {s : Session} {name : String} {t : Transaction}
    (h : s.transaction name = .ok t) : s.transactions.get? name = some t := by
  rw [transaction] at h
  split at h
  · next heq => rw [heq, Except.ok.inj h]
  · cases h

/-! ## steps -/

/-- what a step does to the world -/
def actions (s : Session) : Step → List Action
  | .newCatalog _ config => [.addCatalog config]
  | .openScript _ ident script => [.openScript ident script]
  | .create catalog _ table schema =>
    (s.catalogs.get? catalog).toList.map fun i => .create i table schema
  | .load catalog _ table => (s.catalogs.get? catalog).toList.map fun i => .load i table
  | .secondHandle _ => s.fixture.toList.map fun i => .load i fixtureTable
  | .plant catalog f => (s.catalogs.get? catalog).toList.map fun i => .plant i f
  | .refresh handle => (s.handles.get? handle).toList.map .refresh
  | .commitMetadata handle base new =>
    match s.handleId handle, s.metadata base, s.metadata new with
    | .ok id, .ok base, .ok new => [.commitMetadata id base new]
    | _, _, _ => []
  | .commit update => (s.updates.get? update).toList.map .commit
  | .ask (.check update) => (s.updates.get? update).toList.map .check
  | .ask (.preview update) => (s.updates.get? update).toList.map .preview
  | .commitTransaction transaction =>
    (s.transactions.get? transaction).toList.flatMap (·.actions s.world)
  | _ => []

structure Leads (w : World) (acts : List Action) (s' : Session) : Prop where
  legal : w.Legal acts
  world : s'.world = w.after acts
  sound : s'.Sound

theorem Leads.of_quiet {w : World} {s' : Session} (hw : s'.world = w) (hs : s'.Sound) :
    Leads w [] s' := ⟨trivial, hw, hs⟩

theorem bind_eq_ok {α β : Type} {x : Except Mistake α} {f : α → Except Mistake β} {b : β} :
    (x >>= f) = .ok b ↔ ∃ a, x = .ok a ∧ f a = .ok b := by
  cases x with
  | ok a => exact ⟨fun h => ⟨a, rfl, h⟩, fun ⟨_, ha, h⟩ => Except.ok.inj ha ▸ h⟩
  | error e => exact ⟨fun h => (by cases h), fun ⟨_, ha, _⟩ => (by cases ha)⟩

variable {s s' : Session} {a : Answer}

theorem acted_leads (hs : s.Sound) (a : Action) (hf : a.Fits s.world) :
    Leads s.world [a] { s with world := s.world.after [a] } := by
  have hl : s.world.Legal [a] := ⟨hf, trivial⟩
  exact ⟨hl, rfl, hs.moved hl⟩

theorem opened_leads (hs : s.Sound) (a : Action) (hf : a.Fits s.world) (name : String)
    {r : Except Error HandleId × World} (hw : r.2 = (s.world.act a).2)
    (ho : ∀ id, r.1 = .ok id → r.2.Open id) : Leads s.world [a] (s.opened name r).2 := by
  have hacted := acted_leads hs a hf
  have hsound := hacted.sound
  obtain ⟨e, w⟩ := r
  obtain rfl : w = s.world.after [a] := hw
  cases e with
  | error e => exact hacted
  | ok id =>
    have hhandles := hsound.handles.insert (ho id rfl) name
    exact ⟨hacted.legal, rfl, { hsound with handles := hhandles }⟩

theorem leads_log_nil (hs : s.Sound) : Leads s.world [] { s with world := s.world.log [] } := by
  rw [World.log_nil]
  exact .of_quiet rfl hs

theorem answer_leads (hs : s.Sound) {q : Question} {r : Answer × List Event}
    (h : s.answer q = .ok r) :
    Leads s.world (s.actions (.ask q)) { s with world := s.world.log r.2 } := by
  cases q with
  | check update =>
    obtain ⟨p, hp, h⟩ := bind_eq_ok.1 h
    cases h
    have hget := get?_of_pending hp
    rw [actions, hget]
    exact acted_leads hs (.check p) (hs.updates update p hget)
  | preview update =>
    obtain ⟨p, hp, h⟩ := bind_eq_ok.1 h
    have hget := get?_of_pending hp
    have hacted := acted_leads hs (.preview p) (hs.updates update p hget)
    have hact : s.world.after [.preview p] = s.world.log r.2 := by
      show (s.world.act (.preview p)).2 = _
      rw [World.act]
      cases hp : p.apply s.world with
      | ok out => rw [hp] at h; cases h; exact (World.log_nil _).symm
      | error why => rw [hp] at h; cases h; rfl
    rw [hact] at hacted
    rw [actions, hget]
    exact hacted
  | equal x y =>
    obtain ⟨_, _, h⟩ := bind_eq_ok.1 h
    obtain ⟨_, _, h⟩ := bind_eq_ok.1 h
    cases h
    exact leads_log_nil hs
  | _ =>
    obtain ⟨_, _, h⟩ := bind_eq_ok.1 h
    cases h
    exact leads_log_nil hs

theorem edited_leads (hs : s.Sound) {p : Pending} (ho : s.world.Open p.handle)
    (e : Update.Edit p.kind) (name : String) : Leads s.world [] (s.edited name (p.edit e)).2 := by
  have hedit : s.world.Open (p.edit e).handle := ho
  exact .of_quiet rfl { hs with updates := hs.updates.insert hedit name }

theorem added_leads (hs : s.Sound) {t : Transaction} (ht : OpenMembers s.world t)
    {m : Transaction.Member} (hm : ∀ p, .update p = m → s.world.Open p.handle) (boxed : Bool)
    (name : String) : Leads s.world [] (s.added name t (.wrap boxed m)).2 := by
  have hmore : OpenMembers s.world { t with members := t.members ++ [.wrap boxed m] } := by
    refine ⟨ht.1, fun q hq => ?_⟩
    rw [Transaction.contents, List.map_append, List.map_singleton,
      Transaction.Boxed.content_wrap] at hq
    rcases List.mem_append.1 hq with hq | hq
    · exact ht.2 q hq
    · exact hm q (List.mem_singleton.1 hq)
  exact .of_quiet rfl { hs with transactions := hs.transactions.insert hmore name }

theorem snd_of_ok {x : Answer × Session} (h : (.ok x : Except Mistake _) = .ok (a, s')) :
    x.2 = s' := congrArg Prod.snd (Except.ok.inj h)

/-- **A step of a session is a run**: its actions lead to the session after the step. -/
theorem step_leads (hs : s.Sound) {st : Step} (h : s.step st = .ok (a, s')) :
    Leads s.world (s.actions st) s' := by
  cases st with
  | ask q =>
    obtain ⟨r, hr, h⟩ := bind_eq_ok.1 h
    cases h
    exact answer_leads hs hr
  | newCatalog name config =>
    cases h
    have hacted := acted_leads hs (.addCatalog config) trivial
    have hsound := hacted.sound
    refine ⟨hacted.legal, rfl, { hsound with catalogs := hsound.catalogs.insert ?_ name }⟩
    show s.world.store.catalogs.length < (s.world.store.catalogs ++ [Catalog.new config]).length
    rw [List.length_append]
    exact Nat.lt_succ_self _
  | shareCatalog catalog name =>
    obtain ⟨i, hi, h⟩ := bind_eq_ok.1 h
    cases h
    have hlt := hs.catalogs catalog i (get?_of_catalogId hi)
    exact .of_quiet rfl { hs with catalogs := hs.catalogs.insert hlt name }
  | create catalog handle table schema =>
    obtain ⟨i, hi, h⟩ := bind_eq_ok.1 h
    obtain rfl := snd_of_ok h
    have hget := get?_of_catalogId hi
    rw [actions, hget]
    have hfit := hs.catalogs catalog i hget
    exact opened_leads hs (.create i table schema) hfit handle rfl fun id hid =>
      World.open_of_create (Prod.ext hid rfl)
  | load catalog handle table =>
    obtain ⟨i, hi, h⟩ := bind_eq_ok.1 h
    obtain rfl := snd_of_ok h
    have hget := get?_of_catalogId hi
    rw [actions, hget]
    have hfit := hs.catalogs catalog i hget
    exact opened_leads hs (.load i table) hfit handle rfl fun id hid =>
      World.open_of_load (Prod.ext hid rfl)
  | secondHandle handle =>
    rw [step] at h
    split at h
    · next i hfix =>
      obtain rfl := snd_of_ok h
      rw [actions, hfix]
      exact opened_leads hs (.load i fixtureTable) (hs.fixture i hfix) handle rfl fun id hid =>
        World.open_of_load (Prod.ext hid rfl)
    · cases h
  | plant catalog f =>
    obtain ⟨i, hi, h⟩ := bind_eq_ok.1 h
    cases h
    have hget := get?_of_catalogId hi
    rw [actions, hget]
    exact acted_leads hs (.plant i f) (hs.catalogs catalog i hget)
  | openScript handle ident script =>
    obtain rfl := snd_of_ok h
    have hs' : Sound { s with scripts := s.scripts.insert handle s.world.store.scripts.length } :=
      { hs with }
    exact opened_leads hs' (.openScript ident script) trivial handle rfl fun id hid =>
      World.open_of_attach (Prod.ext hid rfl)
  | refresh handle =>
    obtain ⟨id, hid, h⟩ := bind_eq_ok.1 h
    cases h
    have hget := get?_of_handleId hid
    rw [actions, hget]
    exact acted_leads hs (.refresh id) (hs.handles handle id hget)
  | save handle register =>
    obtain ⟨hd, _, h⟩ := bind_eq_ok.1 h
    cases h
    exact .of_quiet rfl { hs with }
  | commitMetadata handle base new =>
    obtain ⟨id, hid, h⟩ := bind_eq_ok.1 h
    obtain ⟨b, hb, h⟩ := bind_eq_ok.1 h
    obtain ⟨n, hn, h⟩ := bind_eq_ok.1 h
    cases h
    have ho := hs.handles handle id (get?_of_handleId hid)
    rw [actions, hid, hb, hn]
    exact acted_leads hs (.commitMetadata id b n) ho
  | newUpdate update handle kind =>
    obtain ⟨id, hid, h⟩ := bind_eq_ok.1 h
    cases h
    have ho := hs.handles handle id (get?_of_handleId hid)
    exact .of_quiet rfl { hs with updates := hs.updates.insert ho update }
  | call update kind c =>
    obtain ⟨p, hp, h⟩ := bind_eq_ok.1 h
    split at h
    · obtain rfl := snd_of_ok h
      have ho := hs.updates update p (get?_of_pending hp)
      exact edited_leads hs ho _ update
    · cases h
  | record update e =>
    obtain ⟨p, hp, h⟩ := bind_eq_ok.1 h
    obtain rfl := snd_of_ok h
    have ho := hs.updates update p (get?_of_pending hp)
    exact edited_leads hs ho _ update
  | fold update source =>
    obtain ⟨p, hp, h⟩ := bind_eq_ok.1 h
    obtain ⟨q, hq, h⟩ := bind_eq_ok.1 h
    obtain rfl := snd_of_ok h
    have ho := hs.updates update p (get?_of_pending hp)
    exact edited_leads hs ho _ update
  | clear update =>
    obtain ⟨p, hp, h⟩ := bind_eq_ok.1 h
    obtain rfl := snd_of_ok h
    have ho := hs.updates update p (get?_of_pending hp)
    exact edited_leads hs ho _ update
  | commit update =>
    obtain ⟨p, hp, h⟩ := bind_eq_ok.1 h
    cases h
    have hget := get?_of_pending hp
    have hacted := acted_leads hs (.commit p) (hs.updates update p hget)
    have hsound := hacted.sound
    rw [actions, hget]
    refine ⟨hacted.legal, rfl, { hsound with updates := hsound.updates.insert ?_ update }⟩
    exact hsound.updates update p hget
  | newTransaction transaction handle =>
    obtain ⟨id, hid, h⟩ := bind_eq_ok.1 h
    cases h
    have ho := hs.handles handle id (get?_of_handleId hid)
    refine .of_quiet rfl { hs with transactions := hs.transactions.insert ⟨ho, ?_⟩ transaction }
    intro p hp
    cases hp
  | addUpdate transaction update boxed =>
    obtain ⟨t, ht, h⟩ := bind_eq_ok.1 h
    obtain ⟨p, hp, h⟩ := bind_eq_ok.1 h
    cases h
    have hmembers := hs.transactions transaction t (get?_of_transaction ht)
    have ho := hs.updates update p (get?_of_pending hp)
    have hs' : Sound { s with updates := s.updates.erase update } :=
      { hs with updates := hs.updates.erase update }
    have hleads := added_leads hs' hmembers (m := .update p) (by rintro q ⟨⟩; exact ho) boxed
      transaction
    exact .of_quiet rfl hleads.sound
  | addFixed transaction status =>
    obtain ⟨t, ht, h⟩ := bind_eq_ok.1 h
    cases h
    have hmembers := hs.transactions transaction t (get?_of_transaction ht)
    exact added_leads hs hmembers (by rintro q ⟨⟩) false transaction
  | commitTransaction transaction =>
    obtain ⟨t, ht, h⟩ := bind_eq_ok.1 h
    cases h
    have hget := get?_of_transaction ht
    have hmembers := hs.transactions transaction t hget
    have hl := World.legal_actions hs.coherent hmembers.2
    have hmoved := hs.moved hl
    rw [← World.commitTransaction_world] at hmoved
    rw [actions, hget]
    show Leads s.world (t.actions s.world ++ []) _
    rw [List.append_nil]
    exact ⟨hl, World.commitTransaction_world _ _,
      { hmoved with transactions := hmoved.transactions.erase transaction }⟩

/-! ## sessions -/

def runActions (s : Session) : List Step → List Action
  | [] => []
  | st :: sts =>
    s.actions st ++
      match s.step st with
      | .ok (_, s') => runActions s' sts
      | .error _ => []

theorem Leads.trans {w : World} {acts more : List Action} (h : Leads w acts s)
    (h' : Leads s.world more s') : Leads w (acts ++ more) s' := by
  obtain ⟨hl', hw', hs'⟩ := h'
  rw [h.world] at hl' hw'
  refine ⟨World.legal_append.2 ⟨h.legal, hl'⟩, ?_, hs'⟩
  rw [hw', World.after_append]

/-- **A session is a run**: what happens to its world are legal actions. -/
theorem run_leads (hs : s.Sound) {sts : List Step} {out : List (Answer × List Event)}
    (h : s.run sts = .ok (out, s')) : Leads s.world (s.runActions sts) s' := by
  induction sts generalizing s out with
  | nil =>
    cases h
    exact .of_quiet rfl hs
  | cons st sts ih =>
    obtain ⟨⟨a, s₁⟩, hst, h⟩ := bind_eq_ok.1 h
    obtain ⟨⟨rest, last⟩, hrest, h⟩ := bind_eq_ok.1 h
    cases h
    have hstep := step_leads hs hst
    rw [runActions, hst]
    exact hstep.trans (ih hstep.sound hrest)

theorem empty_leads : Leads World.empty [] empty :=
  .of_quiet rfl {
    coherent := World.coherent_empty
    catalogs := Dictionary.all_empty
    fixture := fun _ hi => nomatch hi
    handles := Dictionary.all_empty
    updates := Dictionary.all_empty
    transactions := Dictionary.all_empty }

theorem start_leads (config : Catalog.Config) :
    Leads World.empty [.addCatalog config] (start config) := by
  have hstep : empty.step (.newCatalog mainCatalog config) = .ok (.done, start config) := rfl
  exact empty_leads.trans (step_leads empty_leads.sound hstep)

theorem startFixture_leads {config : Catalog.Config} (h : startFixture config = .ok s) :
    Leads World.empty [.addCatalog config, .create firstCatalog fixtureTable ordersSchema] s := by
  have hstart := start_leads config
  have hfirst : firstCatalog < (start config).world.store.catalogs.length := Nat.zero_lt_one
  have hopened := opened_leads hstart.sound (.create firstCatalog fixtureTable ordersSchema) hfirst
    fixtureHandle rfl fun id hid => World.open_of_create (Prod.ext hid rfl)
  have hcount := World.create_catalogs (start config).world firstCatalog fixtureTable ordersSchema
  rw [startFixture] at h
  split at h
  · next id world heq =>
    cases h
    rw [heq] at hopened hcount
    obtain ⟨hl, hw, hs⟩ := hstart.trans hopened
    refine ⟨hl, hw, { hs with fixture := ?_ }⟩
    rintro i ⟨⟩
    rw [← hcount] at hfirst
    exact hfirst
  · cases h

end Session

end StagedTable
