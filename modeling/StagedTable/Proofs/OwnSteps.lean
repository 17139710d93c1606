import StagedTable.Proofs.Projection

/-!
# Steps of one table

Two sessions show the same of a table.  A step that concerns the table and can be taken in the first
one can be taken in the second one too.  Both answer the same by the same events, and both sessions
show the same of the table again.

* `Related.handleId`, `Related.pending` and so on: a name that leads to something of the table in
                         one session leads to its counterpart in the other one;
* `Related.answer`       questions about the table have the same answers;
* `Follows`              two steps answer alike and leave related sessions;
* `follows_of_concerns`  every step that concerns the table is followed.
-/

namespace StagedTable.Session

/-- both steps have answered the same by the same events, and have left related sessions -/
structure Follows (i i' : Nat) (N : String) (own : List String) (s t : Session)
    (x y : Answer × Session) : Prop where
  answer : y.1 = x.1
  events : y.2.world.eventsSince t.world = x.2.world.eventsSince s.world
  related : Related i i' N own x.2 y.2

section
variable {i i' : Nat} {N : String} {own : List String} {s t : Session}

/-! ## names -/

theorem Related.catalogId (h : Related i i' N own s t) {name : String}
    (hc : s.catalogs.get? name = some i) : t.catalogId name = .ok i' := by
  obtain ⟨j, hj, rfl⟩ := h.catalogs name i hc rfl
  rw [Session.catalogId, hj]

theorem Related.handleId (h : Related i i' N own s t) {name : String} {id : HandleId}
    (hid : s.handleId name = .ok id) (hb : id.backing = .table i N) :
    t.handleId name = .ok (id.on (.table i' N)) := by
  obtain ⟨_, hget, rfl⟩ := h.handles name id (get?_of_handleId hid) hb
  rw [Session.handleId, hget]

theorem Related.pending (h : Related i i' N own s t) {name : String} {p : Pending}
    (hp : s.pending name = .ok p) (hb : p.handle.backing = .table i N) :
    t.pending name = .ok (p.on (.table i' N)) := by
  obtain ⟨_, hget, rfl⟩ := h.updates name p (get?_of_pending hp) hb
  rw [Session.pending, hget]

theorem Related.transaction (h : Related i i' N own s t) {name : String} {x : Transaction}
    (hx : s.transaction name = .ok x) (hb : x.handle.backing = .table i N) :
    ∃ y, t.transaction name = .ok y ∧ x.Moved (.table i' N) y := by
  obtain ⟨y, hget, hy⟩ := h.transactions name x (get?_of_transaction hx) hb
  refine ⟨y, ?_, hy⟩
  rw [Session.transaction, hget]

theorem Related.metadata (h : Related i i' N own s t) {source : Source} (ho : source.IsOf own)
    {m : Metadata} (hm : s.metadata source = .ok m) : t.metadata source = .ok m := by
  cases source with
  | draft location p => exact hm
  | saved name p =>
    rw [Session.metadata] at hm ⊢
    rw [h.registers name ho]
    exact hm

theorem Related.handle (h : Related i i' N own s t) {name : String} {hd : Handle}
    (ho : s.HandleOn (.table i N) name) (hh : s.handle name = .ok hd) : t.handle name = .ok hd := by
  rw [Session.handle] at hh
  cases hid : s.handleId name with
  | error e =>
    rw [hid] at hh
    cases hh
  | ok id =>
    rw [hid] at hh
    have hb := (handleOn_iff hid).1 ho
    rw [Session.handle, h.handleId hid hb, ← hh]
    exact congrArg Except.ok (h.world.handle_on hb)

/-! ## questions -/

/-- a question about the table has the same answer in both sessions -/
theorem Related.answer (h : Related i i' N own s t) {q : Question} (hq : s.Asks i N own q)
    {r : Answer × List Event} (hr : s.answer q = .ok r) : t.answer q = .ok r := by
  have hstored : (t.world.store.catalog i').stored? N = (s.world.store.catalog i).stored? N :=
    h.world.store.stored
  cases q with
  | hasTable catalog table =>
    obtain ⟨hc, rfl⟩ := hq
    obtain ⟨j, hj, hr⟩ := bind_eq_ok.1 hr
    obtain rfl : j = i := Option.some.inj ((get?_of_catalogId hj).symm.trans hc)
    cases hr
    refine bind_eq_ok.2 ⟨i', h.catalogId hc, ?_⟩
    exact congrArg (fun m => Except.ok (Answer.flag m.isSome, [])) hstored
  | stored catalog table =>
    obtain ⟨hc, rfl⟩ := hq
    obtain ⟨j, hj, hr⟩ := bind_eq_ok.1 hr
    obtain rfl : j = i := Option.some.inj ((get?_of_catalogId hj).symm.trans hc)
    cases hr
    refine bind_eq_ok.2 ⟨i', h.catalogId hc, ?_⟩
    exact congrArg (fun m => Except.ok (Answer.stored m, [])) hstored
  | calls handle => exact hq.elim
  | ident handle | version handle | metadata handle | property handle key | column handle name
  | describeHandle handle =>
    obtain ⟨hd, hhd, hr⟩ := bind_eq_ok.1 hr
    exact bind_eq_ok.2 ⟨hd, h.handle hq hhd, hr⟩
  | equal a b =>
    obtain ⟨m, hm, hr⟩ := bind_eq_ok.1 hr
    obtain ⟨m', hm', hr⟩ := bind_eq_ok.1 hr
    exact bind_eq_ok.2 ⟨m, h.metadata hq.1 hm, bind_eq_ok.2 ⟨m', h.metadata hq.2 hm', hr⟩⟩
  | issues update | check update | state update =>
    obtain ⟨p, hp, hr⟩ := bind_eq_ok.1 hr
    exact bind_eq_ok.2 ⟨_, h.pending hp ((updateOn_iff hp).1 hq), hr⟩
  | preview update =>
    obtain ⟨p, hp, hr⟩ := bind_eq_ok.1 hr
    have hb := (updateOn_iff hp).1 hq
    refine bind_eq_ok.2 ⟨_, h.pending hp hb, ?_⟩
    have happly : (p.on (.table i' N)).apply t.world = p.apply s.world :=
      congrArg (fun hd : Handle => p.update.apply hd.cache) (h.world.handle_on hb)
    cases ha : p.apply s.world with
    | ok out =>
      rw [ha] at hr happly
      rw [happly]
      exact hr
    | error why =>
      rw [ha] at hr happly
      rw [happly]
      exact hr
  | describeTransaction transaction =>
    obtain ⟨x, hx, hr⟩ := bind_eq_ok.1 hr
    have hb := (transactionOn_iff hx).1 hq
    obtain ⟨y, hy, hmoved⟩ := h.transaction hx hb
    cases hr
    have hhandle := h.world.handle_on hb
    rw [← hmoved.handle] at hhandle
    refine bind_eq_ok.2 ⟨y, hy, ?_⟩
    rw [hhandle, Transaction.describe, Transaction.describe, hmoved.size]
    rfl

/-! ## what steps have in common -/

theorem Related.of_together (h : Related i i' N own s t) {w w' : World}
    (hw : World.Together i i' N s.world t.world w w') :
    Related i i' N own { s with world := w } { t with world := w' } :=
  { h with world := hw.alike }

/-- steps that leave both worlds as they are -/
theorem Follows.of_quiet {own' : List String} (h : Related i i' N own s t) {x y : Answer × Session}
    (hx : x.2.world = s.world) (hy : y.2.world = t.world) (ha : y.1 = x.1)
    (hr : Related i i' N own' x.2 y.2) : Follows i i' N own' s t x y := by
  refine ⟨ha, ?_, hr⟩
  rw [hx, hy]
  exact (World.Together.refl h.world).eventsSince

theorem opened_follows (h : Related i i' N own s t) {r r' : Except Error HandleId × World}
    (hanswer : r'.1 = r.1.map (·.on (.table i' N)))
    (hw : World.Together i i' N s.world t.world r.2 r'.2)
    (hid : ∀ id, r.1 = .ok id → id.backing = .table i N) (name : String) :
    Follows i i' N own s t (s.opened name r) (t.opened name r') := by
  have hmoved := h.of_together hw
  obtain ⟨e, w⟩ := r
  obtain ⟨e', w'⟩ := r'
  obtain rfl : e' = e.map (·.on (.table i' N)) := hanswer
  cases e with
  | error e => exact ⟨rfl, hw.eventsSince, hmoved⟩
  | ok id =>
    refine ⟨?_, hw.eventsSince,
      { hmoved with handles := hmoved.handles.insert (fun _ => rfl) name }⟩
    exact congrArg (fun hd : Handle => Answer.opened (.ok (hd.ident, hd.cache)))
      (hw.alike.handle_on (hid id rfl))

theorem edited_follows (h : Related i i' N own s t) (p : Pending) (e : Update.Edit p.kind)
    (name : String) : Follows i i' N own s t (s.edited name (p.edit e))
      (t.edited name (Pending.edit (p.on (.table i' N)) e)) :=
  .of_quiet h rfl rfl rfl { h with updates := h.updates.insert (fun _ => rfl) name }

theorem added_follows (h : Related i i' N own s t) {x y : Transaction}
    (hx : x.handle.backing = .table i N) (hy : x.Moved (.table i' N) y)
    (hms : ∀ p, .update p ∈ x.contents → p.handle.backing = .table i N)
    {m : Transaction.Member} (hm : ∀ p, .update p = m → p.handle.backing = .table i N)
    (boxed : Bool) (name : String) :
    Follows i i' N own s t (s.added name x (.wrap boxed m))
      (t.added name y (.wrap boxed (m.on (.table i' N)))) := by
  let x' : Transaction := { x with members := x.members ++ [.wrap boxed m] }
  let y' : Transaction := { y with members := y.members ++ [.wrap boxed (m.on (.table i' N))] }
  have hmoved : x'.Moved (.table i' N) y' := by
    refine ⟨hy.handle, ?_⟩
    rw [contents_added, contents_added, hy.contents, List.map_append, List.map_singleton]
  have hmembers : ∀ p, .update p ∈ x'.contents →
      (p.handle.backing = .table i N ↔ x'.handle.backing = .table i N) := by
    intro p hp
    refine iff_of_true ?_ hx
    rw [contents_added] at hp
    rcases List.mem_append.1 hp with hp | hp
    · exact hms p hp
    · exact hm p (List.mem_singleton.1 hp)
  exact .of_quiet h rfl rfl (congrArg Answer.size hmoved.size) { h with
    transactions := h.transactions.insert (fun _ => hmoved) name
    members := h.members.insert hmembers name }

theorem Related.members_of (h : Related i i' N own s t) {name : String} {x : Transaction}
    (hx : s.transaction name = .ok x) (hb : x.handle.backing = .table i N) (p : Pending)
    (hp : .update p ∈ x.contents) : p.handle.backing = .table i N :=
  (h.members name x (get?_of_transaction hx) p hp).2 hb

/-! ## steps of the table -/

/-- **A step that concerns the table** can be taken in both sessions, and with the same answer. -/
theorem follows_of_concerns (hs : s.Sound) (h : Related i i' N own s t) {st : Step}
    (hc : s.Concerns i N own st) (hsep : s.Separate i N own st) {x : Answer × Session}
    (hstep : s.step st = .ok x) :
    ∃ y, t.step st = .ok y ∧ Follows i i' N (s.ownAfter i N own st) s t x y := by
  cases st with
  | ask q =>
    obtain ⟨r, hr, hstep⟩ := bind_eq_ok.1 hstep
    cases hstep
    have hlog := World.log_together h.world r.2
    exact ⟨_, bind_eq_ok.2 ⟨r, h.answer hc hr, rfl⟩, rfl, hlog.eventsSince, h.of_together hlog⟩
  | newCatalog name config =>
    cases hstep
    obtain ⟨hi', hw⟩ := World.addCatalog_together hc h.world config
    have hmoved := h.of_together hw
    refine ⟨_, rfl, rfl, hw.eventsSince, ?_⟩
    exact { hmoved with catalogs := hmoved.catalogs.insert (fun _ => hi') name }
  | shareCatalog catalog name =>
    obtain ⟨j, hj, hstep⟩ := bind_eq_ok.1 hstep
    cases hstep
    refine ⟨_, bind_eq_ok.2 ⟨i', h.catalogId hc, rfl⟩, .of_quiet h rfl rfl rfl ?_⟩
    exact { h with catalogs := h.catalogs.insert (fun _ => rfl) name }
  | create catalog handle table schema =>
    obtain ⟨hget, rfl⟩ := hc
    obtain ⟨j, hj, hstep⟩ := bind_eq_ok.1 hstep
    obtain rfl : j = i := Option.some.inj ((get?_of_catalogId hj).symm.trans hget)
    cases hstep
    obtain ⟨hanswer, hw⟩ := World.create_together (hs.catalogs catalog j hget) h.world schema
    refine ⟨_, bind_eq_ok.2 ⟨i', h.catalogId hget, rfl⟩, ?_⟩
    exact opened_follows h hanswer hw (fun id hid => World.backing_of_create (Prod.ext hid rfl))
      handle
  | load catalog handle table =>
    obtain ⟨hget, rfl⟩ := hc
    obtain ⟨j, hj, hstep⟩ := bind_eq_ok.1 hstep
    obtain rfl : j = i := Option.some.inj ((get?_of_catalogId hj).symm.trans hget)
    cases hstep
    obtain ⟨hanswer, hw⟩ := World.load_together h.world
    refine ⟨_, bind_eq_ok.2 ⟨i', h.catalogId hget, rfl⟩, ?_⟩
    exact opened_follows h hanswer hw (fun id hid => World.backing_of_load (Prod.ext hid rfl))
      handle
  | secondHandle handle =>
    obtain ⟨hfix, rfl⟩ := hc
    rw [step, hfix] at hstep
    cases hstep
    obtain ⟨hanswer, hw⟩ := World.load_together h.world
    refine ⟨t.opened handle (t.world.load i' fixtureTable), by rw [step, h.fixture hfix], ?_⟩
    exact opened_follows h hanswer hw (fun id hid => World.backing_of_load (Prod.ext hid rfl))
      handle
  | plant catalog f => exact hsep.elim
  | openScript handle ident script => exact hc.elim
  | refresh handle =>
    obtain ⟨id, hid, hstep⟩ := bind_eq_ok.1 hstep
    cases hstep
    have hb := (handleOn_iff hid).1 hc
    obtain ⟨hstatus, hw⟩ := World.refresh_together hb h.world
    refine ⟨_, bind_eq_ok.2 ⟨_, h.handleId hid hb, rfl⟩, ?_, hw.eventsSince, h.of_together hw⟩
    exact congrArg₂ (fun status (hd : Handle) => Answer.refreshed status hd.cache) hstatus
      (hw.alike.handle_on hb)
  | save handle name =>
    obtain ⟨hd, hhd, hstep⟩ := bind_eq_ok.1 hstep
    cases hstep
    refine ⟨_, bind_eq_ok.2 ⟨hd, h.handle hc hhd, rfl⟩, .of_quiet h rfl rfl rfl ?_⟩
    have hown : s.ownAfter i N own (.save handle name) = name :: own := if_pos hc
    rw [hown]
    refine { h with registers := fun other ho => ?_ }
    rw [Dictionary.get?_insert, Dictionary.get?_insert]
    split
    · rfl
    · next hne => exact h.registers other ((List.mem_cons.1 ho).resolve_left hne)
  | commitMetadata handle base new =>
    obtain ⟨id, hid, hstep⟩ := bind_eq_ok.1 hstep
    obtain ⟨m, hm, hstep⟩ := bind_eq_ok.1 hstep
    obtain ⟨m', hm', hstep⟩ := bind_eq_ok.1 hstep
    cases hstep
    have hb := (handleOn_iff hid).1 hc
    obtain ⟨hbase, hnew⟩ := hsep hc
    obtain ⟨hstatus, hw⟩ := World.commitMetadata_together hb h.world m m'
    refine ⟨_, bind_eq_ok.2 ⟨_, h.handleId hid hb, bind_eq_ok.2 ⟨m, h.metadata hbase hm,
      bind_eq_ok.2 ⟨m', h.metadata hnew hm', rfl⟩⟩⟩, ?_, hw.eventsSince, h.of_together hw⟩
    exact congrArg₂ (fun status (hd : Handle) => Answer.landed status hd.cache) hstatus
      (hw.alike.handle_on hb)
  | newUpdate update handle kind =>
    obtain ⟨id, hid, hstep⟩ := bind_eq_ok.1 hstep
    cases hstep
    have hb := (handleOn_iff hid).1 hc
    refine ⟨_, bind_eq_ok.2 ⟨_, h.handleId hid hb, rfl⟩, .of_quiet h rfl rfl rfl ?_⟩
    exact { h with updates := h.updates.insert (fun _ => rfl) update }
  | call update kind c =>
    obtain ⟨p, hp, hstep⟩ := bind_eq_ok.1 hstep
    have hb := (updateOn_iff hp).1 hc
    split at hstep
    · next hk =>
      cases hstep
      refine ⟨_, bind_eq_ok.2 ⟨_, h.pending hp hb, dif_pos hk⟩, ?_⟩
      exact edited_follows h p _ update
    · cases hstep
  | record update e =>
    obtain ⟨p, hp, hstep⟩ := bind_eq_ok.1 hstep
    cases hstep
    have hb := (updateOn_iff hp).1 hc
    exact ⟨_, bind_eq_ok.2 ⟨_, h.pending hp hb, rfl⟩, edited_follows h p _ update⟩
  | fold update source =>
    obtain ⟨p, hp, hstep⟩ := bind_eq_ok.1 hstep
    obtain ⟨q, hq, hstep⟩ := bind_eq_ok.1 hstep
    cases hstep
    have hb := (updateOn_iff hp).1 hc
    have hb' := (updateOn_iff hq).1 (hsep hc)
    refine ⟨_, bind_eq_ok.2 ⟨_, h.pending hp hb, bind_eq_ok.2 ⟨_, h.pending hq hb', rfl⟩⟩, ?_⟩
    exact edited_follows h p _ update
  | clear update =>
    obtain ⟨p, hp, hstep⟩ := bind_eq_ok.1 hstep
    cases hstep
    have hb := (updateOn_iff hp).1 hc
    exact ⟨_, bind_eq_ok.2 ⟨_, h.pending hp hb, rfl⟩, edited_follows h p _ update⟩
  | commit update =>
    obtain ⟨p, hp, hstep⟩ := bind_eq_ok.1 hstep
    cases hstep
    have hb := (updateOn_iff hp).1 hc
    obtain ⟨hsettled, hstatus, hw⟩ := World.commit_together hb h.world
    have hmoved := h.of_together hw
    refine ⟨_, bind_eq_ok.2 ⟨_, h.pending hp hb, rfl⟩, ?_, hw.eventsSince,
      { hmoved with updates := hmoved.updates.insert (fun _ => hsettled) update }⟩
    have hstate := congrArg (fun q : Pending => q.update.state) hsettled
    have hcache := congrArg Handle.cache (hw.alike.handle_on hb)
    show Answer.committed _ _ _ = Answer.committed _ _ _
    rw [Answer.committed.injEq]
    exact ⟨hstatus, hstate, hcache⟩
  | newTransaction transaction handle =>
    obtain ⟨id, hid, hstep⟩ := bind_eq_ok.1 hstep
    cases hstep
    have hb := (handleOn_iff hid).1 hc
    refine ⟨_, bind_eq_ok.2 ⟨_, h.handleId hid hb, rfl⟩, .of_quiet h rfl rfl rfl { h with
      transactions := h.transactions.insert (fun _ => ⟨rfl, rfl⟩) transaction
      members := h.members.insert ?_ transaction }⟩
    intro p hp
    cases hp
  | addUpdate transaction update boxed =>
    obtain ⟨x, hx, hstep⟩ := bind_eq_ok.1 hstep
    obtain ⟨p, hp, hstep⟩ := bind_eq_ok.1 hstep
    cases hstep
    have hb := (transactionOn_iff hx).1 hc
    have hb' := (updateOn_iff hp).1 (hsep.1 hc)
    obtain ⟨y, hy, hmoved⟩ := h.transaction hx hb
    have h' : Related i i' N own { s with updates := s.updates.erase update }
        { t with updates := t.updates.erase update } :=
      { h with updates := h.updates.erase update }
    refine ⟨_, bind_eq_ok.2 ⟨y, hy, bind_eq_ok.2 ⟨_, h.pending hp hb', rfl⟩⟩, ?_⟩
    obtain ⟨hanswer, hevents, hrelated⟩ := added_follows h' hb hmoved (h.members_of hx hb)
      (m := .update p) (by rintro q ⟨⟩; exact hb') boxed transaction
    exact ⟨hanswer, hevents, hrelated⟩
  | addFixed transaction status =>
    obtain ⟨x, hx, hstep⟩ := bind_eq_ok.1 hstep
    cases hstep
    have hb := (transactionOn_iff hx).1 hc
    obtain ⟨y, hy, hmoved⟩ := h.transaction hx hb
    refine ⟨_, bind_eq_ok.2 ⟨y, hy, rfl⟩, ?_⟩
    exact added_follows h hb hmoved (h.members_of hx hb) (by rintro q ⟨⟩) false transaction
  | commitTransaction transaction =>
    obtain ⟨x, hx, hstep⟩ := bind_eq_ok.1 hstep
    cases hstep
    have hb := (transactionOn_iff hx).1 hc
    obtain ⟨y, hy, hmoved⟩ := h.transaction hx hb
    obtain ⟨hstatus, hw⟩ :=
      World.commitTransaction_together hb (h.members_of hx hb) hmoved h.world
    have hafter := h.of_together hw
    refine ⟨_, bind_eq_ok.2 ⟨y, hy, rfl⟩, ?_, hw.eventsSince, { hafter with
      transactions := hafter.transactions.erase transaction
      members := hafter.members.erase transaction }⟩
    have hhandle := hw.alike.handle_on hb
    rw [← hmoved.handle] at hhandle
    exact congrArg₂ (fun status (hd : Handle) => Answer.landed status hd.cache) hstatus hhandle

end

end StagedTable.Session
