import Mathlib.Data.List.Induction
import StagedTable.Transaction

/-!
# Runs

A run is a list of actions on a world that starts out empty.  The actions are the calls on catalogs
and handles, each with whatever arguments: any schema, any staged update, any two metadata records
in a raw commit.  A transaction is no action of its own.  It is the commits of its members in turn,
and then its closing event, so that the moments between two members are moments of the run too.

* `World.act`        one action: how it ends, and the world afterwards;
* `World.after`      the world after several actions;
* `World.Legal`      every action speaks of catalogs that exist and of handles that are open;
* `Legal.snoc_induction`  what holds at the start, and is kept by one more action, holds of every
                     run;
* `StoredIn`         what was stored under a name at some moment of a run.
-/

namespace StagedTable

inductive Action where
  | addCatalog (config : Catalog.Config)
  | openScript (ident : String) (script : Script)
  | create (catalog : Nat) (table : String) (schema : Schema)
  | load (catalog : Nat) (table : String)
  | plant (catalog : Nat) (f : Catalog.Fault)
  | refresh (id : HandleId)
  | commitMetadata (id : HandleId) (base new : Metadata)
  | commit (p : Pending)
  | check (p : Pending)
  | preview (p : Pending)
  /-- ends a transaction of so many members on the table of that identifier -/
  | close (ident : String) (total : Nat) (failure : Option Transaction.Failure)

def Store.stored? (s : Store) (catalog : Nat) (table : String) : Option Metadata :=
  (s.catalog catalog).stored? table

namespace World

def stored? (w : World) (catalog : Nat) (table : String) : Option Metadata :=
  w.store.stored? catalog table

def Open (w : World) (id : HandleId) : Prop := id.serial < (w.handlesOn id.backing).length

instance (w : World) (id : HandleId) : Decidable (w.Open id) :=
  inferInstanceAs (Decidable (_ < _))

theorem handle?_of_open {w : World} {id : HandleId} (h : w.Open id) :
    w.handle? id = some (w.handle id) := by
  have hget := List.getElem?_eq_getElem h
  rw [handle, handle?, hget, Option.getD_some]

theorem open_of_handle? {w : World} {id : HandleId} {hd : Handle} (h : w.handle? id = some hd) :
    w.Open id := by
  obtain ⟨hlt, _⟩ := List.getElem?_eq_some_iff.1 h
  exact hlt

theorem handle_of_handle? {w : World} {id : HandleId} {hd : Handle} (h : w.handle? id = some hd) :
    w.handle id = hd := by
  rw [handle, h, Option.getD_some]

/-! ## actions -/

/-- forgets what a call that opens a handle returns, apart from its success -/
def status {α : Type} (r : Except Error α × World) : Status × World := (r.1.map fun _ => (), r.2)

def act (w : World) : Action → Status × World
  | .addCatalog config => (.ok (), (w.addCatalog config).2)
  | .openScript ident script =>
    let (i, w) := w.addScript script
    status (w.attach (.script i) ident)
  | .create i table schema => status (w.create i table schema)
  | .load i table => status (w.load i table)
  | .plant i f => (.ok (), w.plant i f)
  | .refresh id => w.refresh id
  | .commitMetadata id base new => w.commitMetadata id base new
  | .commit p => (p.commit w).2
  | .check p => (p.update.issues.check, w.log p.update.issues.events)
  | .preview p =>
    match p.apply w with
    | .ok _ => (.ok (), w)
    | .error why => (.error why.error, w.log why.events)
  | .close ident total none => (.ok (), w.log [.transactionCommitted ident total])
  | .close ident total (some f) =>
    (.error (f.report total), w.log [.transactionStopped ident f.position total])

end World

/-- the action speaks of a catalog that exists, or of a handle that is open -/
def Action.Fits (w : World) : Action → Prop
  | .addCatalog _ | .openScript .. | .close .. => True
  | .create i .. | .load i _ | .plant i _ => i < w.store.catalogs.length
  | .refresh id | .commitMetadata id .. => w.Open id
  | .commit p | .check p | .preview p => w.Open p.handle

instance (w : World) : (a : Action) → Decidable (a.Fits w)
  | .addCatalog _ | .openScript .. | .close .. => inferInstanceAs (Decidable True)
  | .create .. | .load .. | .plant .. => inferInstanceAs (Decidable (_ < _))
  | .refresh id | .commitMetadata id .. => inferInstanceAs (Decidable (w.Open id))
  | .commit p | .check p | .preview p => inferInstanceAs (Decidable (w.Open p.handle))

namespace World

def after (w : World) : List Action → World
  | [] => w
  | a :: acts => (w.act a).2.after acts

def Legal (w : World) : List Action → Prop
  | [] => True
  | a :: acts => a.Fits w ∧ (w.act a).2.Legal acts

instance decidableLegal (w : World) (acts : List Action) : Decidable (w.Legal acts) :=
  match acts with
  | [] => inferInstanceAs (Decidable True)
  | a :: acts =>
    haveI := decidableLegal (w.act a).2 acts
    inferInstanceAs (Decidable (_ ∧ _))

theorem after_nil (w : World) : w.after [] = w := rfl
theorem after_cons (w : World) (a : Action) (acts : List Action) :
    w.after (a :: acts) = (w.act a).2.after acts := rfl
theorem after_append (w : World) (acts more : List Action) :
    w.after (acts ++ more) = (w.after acts).after more := by
  induction acts generalizing w with
  | nil => rfl
  | cons a acts ih => exact ih (w.act a).2

theorem after_snoc (w : World) (acts : List Action) (a : Action) :
    w.after (acts ++ [a]) = ((w.after acts).act a).2 :=
  after_append w acts [a]

theorem legal_append {w : World} {acts more : List Action} :
    w.Legal (acts ++ more) ↔ w.Legal acts ∧ (w.after acts).Legal more := by
  induction acts generalizing w with
  | nil => exact ⟨fun h => ⟨trivial, h⟩, fun h => h.2⟩
  | cons a acts ih =>
    show a.Fits w ∧ (w.act a).2.Legal (acts ++ more) ↔ _
    rw [ih, ← and_assoc]
    rfl

theorem legal_snoc {w : World} {acts : List Action} {a : Action} :
    w.Legal (acts ++ [a]) ↔ w.Legal acts ∧ a.Fits (w.after acts) := by
  rw [legal_append]
  exact and_congr_right fun _ => ⟨fun h => h.1, fun h => ⟨h, trivial⟩⟩

theorem Legal.of_prefix {w : World} {acts pre : List Action} (h : w.Legal acts)
    (hp : pre <+: acts) : w.Legal pre := by
  obtain ⟨more, rfl⟩ := hp
  exact (legal_append.1 h).1

/-- each action of a run fits the world that the ones before it have led to -/
theorem Legal.fits {w : World} {acts : List Action} (h : w.Legal acts) {q : Nat} {a : Action}
    (ha : acts[q]? = some a) : w.Legal (acts.take q) ∧ a.Fits (w.after (acts.take q)) := by
  induction acts generalizing w q with
  | nil => cases ha
  | cons b acts ih =>
    obtain ⟨hf, hl⟩ := h
    cases q with
    | zero =>
      obtain rfl : b = a := Option.some.inj ha
      exact ⟨trivial, hf⟩
    | succ q =>
      obtain ⟨hl', hf'⟩ := ih hl ha
      exact ⟨⟨hf, hl'⟩, hf'⟩

/-- **Induction over a run**, its last action last. -/
@[elab_as_elim] theorem Legal.snoc_induction {w : World}
    {motive : (acts : List Action) → w.Legal acts → Prop} (nil : motive [] trivial)
    (snoc : ∀ acts a (hl : w.Legal acts) (hf : a.Fits (w.after acts)), motive acts hl →
      motive (acts ++ [a]) (legal_snoc.2 ⟨hl, hf⟩))
    (acts : List Action) (h : w.Legal acts) : motive acts h := by
  induction acts using List.reverseRecOn with
  | nil => exact nil
  | append_singleton acts a ih =>
    obtain ⟨hl, hf⟩ := legal_snoc.1 h
    exact snoc acts a hl hf (ih hl)

end World

/-! ## the past of a run -/

/-- the metadata was stored under the name at some moment of the run -/
def StoredIn (acts : List Action) (i : Nat) (N : String) (m : Metadata) : Prop :=
  ∃ pre, pre <+: acts ∧ (World.empty.after pre).stored? i N = some m

theorem StoredIn.of_now {acts : List Action} {i : Nat} {N : String} {m : Metadata}
    (h : (World.empty.after acts).stored? i N = some m) : StoredIn acts i N m :=
  ⟨acts, List.prefix_refl acts, h⟩

theorem StoredIn.mono {acts more : List Action} {i : Nat} {N : String} {m : Metadata}
    (h : StoredIn acts i N m) : StoredIn (acts ++ more) i N m := by
  obtain ⟨pre, hp, hs⟩ := h
  exact ⟨pre, hp.trans (List.prefix_append acts more), hs⟩

theorem not_storedIn_nil {i : Nat} {N : String} {m : Metadata} : ¬ StoredIn [] i N m := by
  rintro ⟨pre, hp, hs⟩
  rw [List.prefix_nil.1 hp] at hs
  cases hs

/-- what was stored up to now was stored before the last action, or is stored now -/
theorem storedIn_snoc {acts : List Action} {a : Action} {i : Nat} {N : String} {m : Metadata} :
    StoredIn (acts ++ [a]) i N m ↔
      StoredIn acts i N m ∨ (World.empty.after (acts ++ [a])).stored? i N = some m := by
  constructor
  · rintro ⟨pre, hp, hs⟩
    rcases List.prefix_concat_iff.1 hp with rfl | hp
    · exact .inr hs
    · exact .inl ⟨pre, hp, hs⟩
  · rintro (h | h)
    · exact h.mono
    · exact .of_now h

/-! ## a race -/

/-- the handles on the one table of the runs below -/
def orders (n : Nat) : HandleId := ⟨.table 0 "orders", n⟩

/-- a catalog with one table, which is opened by its creation -/
def openOrders : List Action :=
  [.addCatalog default, .create 0 "orders" ⟨0, [⟨1, "id", .long, true⟩]⟩]

def moveTo (location : String) : Update .location := (Update.new .location).call (.moveTo location)

/-- The second handle is late, and has to refresh before its commit can land.  That makes the first
one late, and a fault waits for whoever commits next. -/
def race : List Action :=
  openOrders ++ [.load 0 "orders", .commit ⟨orders 0, .location, moveTo "a://left"⟩,
    .commit ⟨orders 1, .location, moveTo "a://right"⟩, .refresh (orders 1),
    .commit ⟨orders 1, .location, moveTo "a://right"⟩, .plant 0 .reject]

theorem legal_race : World.empty.Legal race := by decide +kernel

end StagedTable
