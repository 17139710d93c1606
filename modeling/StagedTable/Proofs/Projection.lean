import StagedTable.Proofs.SameTable
import StagedTable.Proofs.Sessions

/-!
# The steps of one table

From the steps of a session those are picked out that concern one table.  What the others do is not
seen there, as long as nothing is handed over: no metadata is saved at another table and committed
at this one, no issues of an update elsewhere are folded into one here, and a transaction holds
updates of its own table only.

* `Session.Concerns`   the step concerns the table;
* `Session.Separate`   the step hands nothing over to the table, and plants no fault;
* `Session.marks`      which steps of a session concern the table, and `select`, what is picked by
                       such marks;
* `Session.Related`    two sessions show the same of the table, under the same names;
* `related_of_elsewhere`  a step that does not concern the table leaves this as it is.
-/

namespace StagedTable

/-- what is marked -/
def select {α : Type} : List Bool → List α → List α
  | true :: marks, x :: xs => x :: select marks xs
  | false :: marks, _ :: xs => select marks xs
  | _, _ => []

theorem isPrefix_select_take {α : Type} (marks : List Bool) (xs : List α) (n : Nat) :
    select (marks.take n) (xs.take n) <+: select marks xs := by
  induction xs generalizing marks n with
  | nil =>
    rw [List.take_nil]
    cases marks.take n with
    | nil => exact List.nil_prefix
    | cons mark marks => cases mark <;> exact List.nil_prefix
  | cons x xs ih =>
    cases n with
    | zero => exact List.nil_prefix
    | succ n =>
      cases marks with
      | nil => exact List.nil_prefix
      | cons mark marks =>
        cases mark with
        | true => exact (List.prefix_cons_inj x).2 (ih marks n)
        | false => exact ih marks n

namespace Session

/-! ## what concerns a table -/

def HandleOn (s : Session) (b : Backing) (name : String) : Prop :=
  ∃ id ∈ s.handles.get? name, id.backing = b

def UpdateOn (s : Session) (b : Backing) (name : String) : Prop :=
  ∃ p ∈ s.updates.get? name, p.handle.backing = b

def TransactionOn (s : Session) (b : Backing) (name : String) : Prop :=
  ∃ x ∈ s.transactions.get? name, x.handle.backing = b

instance (s : Session) (b : Backing) (name : String) : Decidable (s.HandleOn b name) :=
  inferInstanceAs (Decidable (∃ _ ∈ _, _))
instance (s : Session) (b : Backing) (name : String) : Decidable (s.UpdateOn b name) :=
  inferInstanceAs (Decidable (∃ _ ∈ _, _))
instance (s : Session) (b : Backing) (name : String) : Decidable (s.TransactionOn b name) :=
  inferInstanceAs (Decidable (∃ _ ∈ _, _))

/-- the metadata is written out, or was saved in one of these registers -/
def Source.IsOf (own : List String) : Source → Prop
  | .draft .. => True
  | .saved name _ => name ∈ own

instance (own : List String) : (source : Source) → Decidable (source.IsOf own)
  | .draft .. => inferInstanceAs (Decidable True)
  | .saved .. => inferInstanceAs (Decidable (_ ∈ _))

section
variable (s : Session) (i : Nat) (N : String) (own : List String)

/-- the question is about the table -/
def Asks : Question → Prop
  | .hasTable catalog table | .stored catalog table => s.catalogs.get? catalog = some i ∧ table = N
  | .calls _ => False
  | .ident handle | .version handle | .metadata handle | .property handle _ | .column handle _
  | .describeHandle handle => s.HandleOn (.table i N) handle
  | .equal a b => a.IsOf own ∧ b.IsOf own
  | .issues update | .check update | .preview update | .state update =>
    s.UpdateOn (.table i N) update
  | .describeTransaction transaction => s.TransactionOn (.table i N) transaction

instance : (q : Question) → Decidable (s.Asks i N own q)
  | .hasTable .. | .stored .. | .equal .. => inferInstanceAs (Decidable (_ ∧ _))
  | .calls _ => inferInstanceAs (Decidable False)
  | .ident handle | .version handle | .metadata handle | .property handle _ | .column handle _
  | .describeHandle handle => inferInstanceAs (Decidable (s.HandleOn (.table i N) handle))
  | .issues update | .check update | .preview update | .state update =>
    inferInstanceAs (Decidable (s.UpdateOn (.table i N) update))
  | .describeTransaction transaction =>
    inferInstanceAs (Decidable (s.TransactionOn (.table i N) transaction))

/-- the step works on the table, or on a handle, an update or a transaction that belongs to it, or
it adds its catalog or names it once more -/
def Concerns : Step → Prop
  | .ask q => s.Asks i N own q
  | .newCatalog .. => s.world.store.catalogs.length = i
  | .shareCatalog catalog _ => s.catalogs.get? catalog = some i
  | .create catalog _ table _ | .load catalog _ table =>
    s.catalogs.get? catalog = some i ∧ table = N
  | .secondHandle _ => s.fixture = some i ∧ fixtureTable = N
  | .plant .. | .openScript .. => False
  | .refresh handle | .save handle _ | .commitMetadata handle .. | .newUpdate _ handle _
  | .newTransaction _ handle => s.HandleOn (.table i N) handle
  | .call update .. | .record update _ | .fold update _ | .clear update | .commit update =>
    s.UpdateOn (.table i N) update
  | .addUpdate transaction .. | .addFixed transaction _ | .commitTransaction transaction =>
    s.TransactionOn (.table i N) transaction

instance : (st : Step) → Decidable (s.Concerns i N own st)
  | .ask q => inferInstanceAs (Decidable (s.Asks i N own q))
  | .newCatalog .. => inferInstanceAs (Decidable (_ = i))
  | .shareCatalog .. => inferInstanceAs (Decidable (_ = some i))
  | .create .. | .load .. | .secondHandle _ => inferInstanceAs (Decidable (_ ∧ _))
  | .plant .. | .openScript .. => inferInstanceAs (Decidable False)
  | .refresh handle | .save handle _ | .commitMetadata handle .. | .newUpdate _ handle _
  | .newTransaction _ handle => inferInstanceAs (Decidable (s.HandleOn (.table i N) handle))
  | .call update .. | .record update _ | .fold update _ | .clear update | .commit update =>
    inferInstanceAs (Decidable (s.UpdateOn (.table i N) update))
  | .addUpdate transaction .. | .addFixed transaction _ | .commitTransaction transaction =>
    inferInstanceAs (Decidable (s.TransactionOn (.table i N) transaction))

/-- the step plants no fault, and hands nothing over to the table from elsewhere -/
def Separate : Step → Prop
  | .plant .. => False
  | .commitMetadata handle base new =>
    s.HandleOn (.table i N) handle → base.IsOf own ∧ new.IsOf own
  | .fold update source => s.UpdateOn (.table i N) update → s.UpdateOn (.table i N) source
  | .addUpdate transaction update _ =>
    s.TransactionOn (.table i N) transaction ↔ s.UpdateOn (.table i N) update
  | _ => True

instance : (st : Step) → Decidable (s.Separate i N own st)
  | .plant .. => inferInstanceAs (Decidable False)
  | .commitMetadata .. | .fold .. => inferInstanceAs (Decidable (_ → _))
  | .addUpdate .. => inferInstanceAs (Decidable (_ ↔ _))
  | .ask _ | .newCatalog .. | .shareCatalog .. | .create .. | .load .. | .secondHandle _
  | .openScript .. | .refresh _ | .save .. | .newUpdate .. | .call .. | .record .. | .clear _
  | .commit _ | .newTransaction .. | .addFixed .. | .commitTransaction _ =>
    inferInstanceAs (Decidable True)

/-- the registers that were last saved from handles on the table, after one more step -/
def ownAfter : Step → List String
  | .save handle name =>
    if s.HandleOn (.table i N) handle then name :: own else own.filter (· ≠ name)
  | _ => own

end

/-- which steps concern the table, by what they find when it is their turn -/
def marks (i : Nat) (N : String) : Session → List String → List Step → List Bool
  | _, _, [] => []
  | s, own, st :: sts =>
    decide (s.Concerns i N own st) ::
      match s.step st with
      | .ok (_, s') => marks i N s' (s.ownAfter i N own st) sts
      | .error _ => []

/-- no step plants a fault or hands anything over to the table -/
def SeparateRun (i : Nat) (N : String) : Session → List String → List Step → Prop
  | _, _, [] => True
  | s, own, st :: sts =>
    s.Separate i N own st ∧
      match s.step st with
      | .ok (_, s') => SeparateRun i N s' (s.ownAfter i N own st) sts
      | .error _ => True

instance decidableSeparateRun (i : Nat) (N : String) (s : Session) (own : List String)
    (sts : List Step) : Decidable (SeparateRun i N s own sts) :=
  match sts with
  | [] => inferInstanceAs (Decidable True)
  | st :: sts =>
    haveI : Decidable (match s.step st with
        | .ok (_, s') => SeparateRun i N s' (s.ownAfter i N own st) sts
        | .error _ => True) :=
      match s.step st with
      | .ok (_, s') => decidableSeparateRun i N s' (s.ownAfter i N own st) sts
      | .error _ => inferInstanceAs (Decidable True)
    inferInstanceAs (Decidable (_ ∧ _))

/-! ## sessions that show the same of a table -/

end Session

namespace Dictionary
variable {β : Type} {P : β → Prop} {R : β → β → Prop} {d d' : Dictionary β}

/-- the values of `d` that have the property are in `d'` under the same names, or something related
is.  Other names may lead anywhere in `d'`. -/
def Shows (P : β → Prop) (R : β → β → Prop) (d d' : Dictionary β) : Prop :=
  ∀ k v, d.get? k = some v → P v → ∃ v', d'.get? k = some v' ∧ R v v'

theorem Shows.insert (h : d.Shows P R d') {v v' : β} (hv : P v → R v v') (k : String) :
    (d.insert k v).Shows P R (d'.insert k v') := by
  intro k₁ v₁ hget hp
  rw [get?_insert] at hget ⊢
  split at hget
  · next hk =>
    obtain rfl : v = v₁ := Option.some.inj hget
    exact ⟨v', if_pos hk, hv hp⟩
  · next hk =>
    rw [if_neg hk]
    exact h k₁ v₁ hget hp

theorem Shows.insert_left (h : d.Shows P R d') {v : β} (hv : ¬ P v) (k : String) :
    (d.insert k v).Shows P R d' := by
  intro k₁ v₁ hget hp
  rw [get?_insert] at hget
  split at hget
  · obtain rfl : v = v₁ := Option.some.inj hget
    exact absurd hp hv
  · exact h k₁ v₁ hget hp

theorem Shows.erase_left (h : d.Shows P R d') (k : String) : (d.erase k).Shows P R d' := by
  intro k₁ v₁ hget hp
  rw [get?_erase] at hget
  split at hget
  · cases hget
  · exact h k₁ v₁ hget hp

theorem Shows.erase (h : d.Shows P R d') (k : String) : (d.erase k).Shows P R (d'.erase k) := by
  intro k₁ v₁ hget hp
  rw [get?_erase] at hget ⊢
  split at hget
  · cases hget
  · next hk =>
    rw [if_neg hk]
    exact h k₁ v₁ hget hp

end Dictionary

namespace Session

/-- Both sessions show the same of the table, and what belongs to it is found in the second one
under the names that it has in the first.  The registers are those that hold metadata of it. -/
structure Related (i i' : Nat) (N : String) (own : List String) (s t : Session) : Prop where
  world : s.world.Alike i i' N t.world
  catalogs : s.catalogs.Shows (· = i) (fun _ j => j = i') t.catalogs
  fixture : s.fixture = some i → t.fixture = some i'
  handles : s.handles.Shows (·.backing = .table i N) (fun id id' => id' = id.on (.table i' N))
    t.handles
  updates : s.updates.Shows (·.handle.backing = .table i N) (fun p p' => p' = p.on (.table i' N))
    t.updates
  transactions : s.transactions.Shows (·.handle.backing = .table i N)
    (Transaction.Moved (.table i' N)) t.transactions
  /-- the members of a transaction belong to its table -/
  members : s.transactions.All fun x => ∀ p, .update p ∈ x.contents →
    (p.handle.backing = .table i N ↔ x.handle.backing = .table i N)
  registers : ∀ name ∈ own, t.registers.get? name = s.registers.get? name

section
variable {s : Session} {b : Backing} {name : String}

theorem handleOn_iff {id : HandleId} (h : s.handleId name = .ok id) :
    s.HandleOn b name ↔ id.backing = b := by
  rw [HandleOn, get?_of_handleId h]
  simp

theorem updateOn_iff {p : Pending} (h : s.pending name = .ok p) :
    s.UpdateOn b name ↔ p.handle.backing = b := by
  rw [UpdateOn, get?_of_pending h]
  simp

theorem transactionOn_iff {x : Transaction} (h : s.transaction name = .ok x) :
    s.TransactionOn b name ↔ x.handle.backing = b := by
  rw [TransactionOn, get?_of_transaction h]
  simp

end

theorem contents_added (x : Transaction) (boxed : Bool) (m : Transaction.Member) :
    Transaction.contents { x with members := x.members ++ [.wrap boxed m] } =
      x.contents ++ [m] := by
  rw [Transaction.contents, List.map_append, List.map_singleton, Transaction.Boxed.content_wrap]
  rfl

/-! ## steps elsewhere -/

section
variable {i i' : Nat} {N : String} {own : List String} {s t : Session}

theorem Related.of_apart (h : Related i i' N own s t) {w : World} (hw : s.world.Apart i N w) :
    Related i i' N own { s with world := w } t :=
  { h with world := h.world.of_apart hw }

/-- a handle elsewhere is opened, or not -/
theorem opened_elsewhere (h : Related i i' N own s t) {r : Except Error HandleId × World}
    (hw : s.world.Apart i N r.2) (hid : ∀ id, r.1 = .ok id → id.backing ≠ .table i N)
    (name : String) : Related i i' N own (s.opened name r).2 t := by
  have hmoved := h.of_apart hw
  obtain ⟨e, w⟩ := r
  cases e with
  | error e => exact hmoved
  | ok id => exact { hmoved with handles := hmoved.handles.insert_left (hid id rfl) name }

theorem edited_elsewhere (h : Related i i' N own s t) {p : Pending}
    (hp : p.handle.backing ≠ .table i N) (e : Update.Edit p.kind) (name : String) :
    Related i i' N own (s.edited name (p.edit e)).2 t := by
  have hedit : (p.edit e).handle.backing ≠ .table i N := hp
  exact { h with updates := h.updates.insert_left hedit name }

theorem added_elsewhere (h : Related i i' N own s t) {x : Transaction}
    (hx : x.handle.backing ≠ .table i N)
    (hms : ∀ p, .update p ∈ x.contents → p.handle.backing ≠ .table i N)
    {m : Transaction.Member} (hm : ∀ p, .update p = m → p.handle.backing ≠ .table i N)
    (boxed : Bool) (name : String) : Related i i' N own (s.added name x (.wrap boxed m)).2 t := by
  let y : Transaction := { x with members := x.members ++ [.wrap boxed m] }
  have hy : y.handle.backing ≠ .table i N := hx
  have hmembers : ∀ p, .update p ∈ y.contents →
      (p.handle.backing = .table i N ↔ y.handle.backing = .table i N) := by
    intro p hp
    refine iff_of_false ?_ hy
    rw [contents_added] at hp
    rcases List.mem_append.1 hp with hp | hp
    · exact hms p hp
    · exact hm p (List.mem_singleton.1 hp)
  exact { h with
    transactions := h.transactions.insert_left hy name
    members := h.members.insert hmembers name }

theorem Related.members_elsewhere (h : Related i i' N own s t) {name : String} {x : Transaction}
    (hx : s.transaction name = .ok x) (hb : x.handle.backing ≠ .table i N) (p : Pending)
    (hp : .update p ∈ x.contents) : p.handle.backing ≠ .table i N :=
  fun heq => hb ((h.members name x (get?_of_transaction hx) p hp).1 heq)

/-- **A step that concerns something else** leaves a session related to the other one. -/
theorem related_of_elsewhere (hs : s.Sound) (h : Related i i' N own s t) {st : Step}
    (hc : ¬ s.Concerns i N own st) (hsep : s.Separate i N own st) {a : Answer} {s' : Session}
    (hstep : s.step st = .ok (a, s')) : Related i i' N (s.ownAfter i N own st) s' t := by
  cases st with
  | ask q =>
    obtain ⟨r, hr, hstep⟩ := bind_eq_ok.1 hstep
    cases hstep
    exact h.of_apart (World.apart_log s.world r.2)
  | newCatalog name config =>
    cases hstep
    have hmoved := h.of_apart (World.apart_addCatalog hc config)
    exact { hmoved with catalogs := hmoved.catalogs.insert_left hc name }
  | shareCatalog catalog name =>
    obtain ⟨j, hj, hstep⟩ := bind_eq_ok.1 hstep
    cases hstep
    have hne : j ≠ i := by
      rintro rfl
      exact hc (get?_of_catalogId hj)
    exact { h with catalogs := h.catalogs.insert_left hne name }
  | create catalog handle table schema =>
    obtain ⟨j, hj, hstep⟩ := bind_eq_ok.1 hstep
    obtain rfl := snd_of_ok hstep
    have hget := get?_of_catalogId hj
    have hne : ¬ (j = i ∧ table = N) := fun heq => hc ⟨heq.1 ▸ hget, heq.2⟩
    refine opened_elsewhere h (World.apart_create (hs.catalogs catalog j hget) hne schema) ?_ handle
    intro id hid hb
    rw [World.backing_of_create (Prod.ext hid rfl)] at hb
    exact hne (Backing.table.inj hb)
  | load catalog handle table =>
    obtain ⟨j, hj, hstep⟩ := bind_eq_ok.1 hstep
    obtain rfl := snd_of_ok hstep
    have hget := get?_of_catalogId hj
    have hne : ¬ (j = i ∧ table = N) := fun heq => hc ⟨heq.1 ▸ hget, heq.2⟩
    refine opened_elsewhere h (World.apart_load hne) ?_ handle
    intro id hid hb
    rw [World.backing_of_load (Prod.ext hid rfl)] at hb
    exact hne (Backing.table.inj hb)
  | secondHandle handle =>
    rw [step] at hstep
    split at hstep
    · next j hfix =>
      obtain rfl := snd_of_ok hstep
      have hne : ¬ (j = i ∧ fixtureTable = N) := fun heq => hc ⟨heq.1 ▸ hfix, heq.2⟩
      refine opened_elsewhere h (World.apart_load hne) ?_ handle
      intro id hid hb
      rw [World.backing_of_load (Prod.ext hid rfl)] at hb
      exact hne (Backing.table.inj hb)
    · cases hstep
  | plant catalog f => exact hsep.elim
  | openScript handle ident script =>
    obtain rfl := snd_of_ok hstep
    have h' : Related i i' N own
        { s with scripts := s.scripts.insert handle s.world.store.scripts.length } t := { h with }
    refine opened_elsewhere h' (World.apart_openScript script ident) ?_ handle
    intro id hid hb
    rw [World.backing_of_attach (Prod.ext hid rfl)] at hb
    cases hb
  | refresh handle =>
    obtain ⟨id, hid, hstep⟩ := bind_eq_ok.1 hstep
    cases hstep
    have hne := mt (handleOn_iff hid).2 hc
    exact h.of_apart (World.apart_refresh hne)
  | save handle name =>
    obtain ⟨hd, _, hstep⟩ := bind_eq_ok.1 hstep
    cases hstep
    have hown : s.ownAfter i N own (.save handle name) = own.filter (· ≠ name) := if_neg hc
    rw [hown]
    refine { h with registers := fun other ho => ?_ }
    obtain ⟨hmem, hne⟩ := List.mem_filter.1 ho
    rw [Dictionary.get?_insert, if_neg (of_decide_eq_true hne)]
    exact h.registers other hmem
  | commitMetadata handle base new =>
    obtain ⟨id, hid, hstep⟩ := bind_eq_ok.1 hstep
    obtain ⟨b, hb, hstep⟩ := bind_eq_ok.1 hstep
    obtain ⟨n, hn, hstep⟩ := bind_eq_ok.1 hstep
    cases hstep
    have hne := mt (handleOn_iff hid).2 hc
    exact h.of_apart (World.apart_commitMetadata hne b n)
  | newUpdate update handle kind =>
    obtain ⟨id, hid, hstep⟩ := bind_eq_ok.1 hstep
    cases hstep
    have hne := mt (handleOn_iff hid).2 hc
    exact { h with updates := h.updates.insert_left hne update }
  | call update kind c =>
    obtain ⟨p, hp, hstep⟩ := bind_eq_ok.1 hstep
    split at hstep
    · obtain rfl := snd_of_ok hstep
      exact edited_elsewhere h (mt (updateOn_iff hp).2 hc) _ update
    · cases hstep
  | record update e =>
    obtain ⟨p, hp, hstep⟩ := bind_eq_ok.1 hstep
    obtain rfl := snd_of_ok hstep
    exact edited_elsewhere h (mt (updateOn_iff hp).2 hc) _ update
  | fold update source =>
    obtain ⟨p, hp, hstep⟩ := bind_eq_ok.1 hstep
    obtain ⟨q, hq, hstep⟩ := bind_eq_ok.1 hstep
    obtain rfl := snd_of_ok hstep
    exact edited_elsewhere h (mt (updateOn_iff hp).2 hc) _ update
  | clear update =>
    obtain ⟨p, hp, hstep⟩ := bind_eq_ok.1 hstep
    obtain rfl := snd_of_ok hstep
    exact edited_elsewhere h (mt (updateOn_iff hp).2 hc) _ update
  | commit update =>
    obtain ⟨p, hp, hstep⟩ := bind_eq_ok.1 hstep
    cases hstep
    have hne := mt (updateOn_iff hp).2 hc
    have hne' : (p.commit s.world).1.handle.backing ≠ .table i N := hne
    have hmoved := h.of_apart (World.apart_commit hne)
    exact { hmoved with updates := hmoved.updates.insert_left hne' update }
  | newTransaction transaction handle =>
    obtain ⟨id, hid, hstep⟩ := bind_eq_ok.1 hstep
    cases hstep
    have hne := mt (handleOn_iff hid).2 hc
    refine { h with
      transactions := h.transactions.insert_left hne transaction
      members := h.members.insert ?_ transaction }
    intro p hp
    cases hp
  | addUpdate transaction update boxed =>
    obtain ⟨x, hx, hstep⟩ := bind_eq_ok.1 hstep
    obtain ⟨p, hp, hstep⟩ := bind_eq_ok.1 hstep
    cases hstep
    have hne := mt (transactionOn_iff hx).2 hc
    have hp : p.handle.backing ≠ .table i N := fun hb => hc (hsep.2 ((updateOn_iff hp).2 hb))
    have h' : Related i i' N own { s with updates := s.updates.erase update } t :=
      { h with updates := h.updates.erase_left update }
    exact added_elsewhere h' hne (h.members_elsewhere hx hne) (by rintro q ⟨⟩; exact hp) boxed
      transaction
  | addFixed transaction status =>
    obtain ⟨x, hx, hstep⟩ := bind_eq_ok.1 hstep
    cases hstep
    have hne := mt (transactionOn_iff hx).2 hc
    exact added_elsewhere h hne (h.members_elsewhere hx hne) (by rintro q ⟨⟩) false transaction
  | commitTransaction transaction =>
    obtain ⟨x, hx, hstep⟩ := bind_eq_ok.1 hstep
    cases hstep
    have hne := mt (transactionOn_iff hx).2 hc
    have hmoved := h.of_apart (World.apart_commitTransaction (h.members_elsewhere hx hne))
    exact { hmoved with
      transactions := hmoved.transactions.erase_left transaction
      members := hmoved.members.erase transaction }

end

end Session

end StagedTable
