import StagedTable.Proofs.Elsewhere

/-!
# Worlds that show the same of a table

Two worlds can differ in all other tables, in the number of their catalogs and in their journals,
and still show the same of one table, which may lie in catalogs of different numbers.

* `World.Alike`      both worlds show the same of the table, and nothing is planted in its catalog;
* `World.Together`   both have gone on to worlds that show the same, by the same events;
* `refresh_together`, `commit_together`, `commitTransaction_together` and so on: a call that
                     concerns the table ends alike in both worlds, and they go on together.

Handles on the table have the same numbers in both worlds, so `HandleId.on` leads from the handles
of one world to those of the other.
-/

namespace StagedTable

/-- the handle of the same number on another backing -/
def HandleId.on (b : Backing) (id : HandleId) : HandleId := { id with backing := b }

theorem HandleId.on_backing {b : Backing} {id : HandleId} (h : id.backing = b) : id.on b = id := by
  subst h
  rfl

def Pending.on (b : Backing) (p : Pending) : Pending := { p with handle := p.handle.on b }

def Transaction.Member.on (b : Backing) : Member → Member
  | .update p => .update (p.on b)
  | .fixed status => .fixed status

/-- the same transaction on another backing, however its members are boxed -/
structure Transaction.Moved (b : Backing) (x y : Transaction) : Prop where
  handle : y.handle = x.handle.on b
  contents : y.contents = x.contents.map (Member.on b)

theorem Transaction.Moved.size {b : Backing} {x y : Transaction} (h : x.Moved b y) :
    y.members.length = x.members.length := by
  have hx : x.contents.length = x.members.length := List.length_map _
  have hy : y.contents.length = y.members.length := List.length_map _
  rw [← hy, h.contents, List.length_map, hx]

/-! ## stores -/

namespace Store

/-- both stores show the same of the table.  Its catalog may not have been added yet, and in the
second store it is then the next one. -/
structure Alike (i i' : Nat) (N : String) (s t : Store) : Prop where
  place : (i < s.catalogs.length ∧ i' < t.catalogs.length) ∨
    (s.catalogs.length ≤ i ∧ t.catalogs.length = i')
  config : (t.catalog i').config = (s.catalog i).config
  stored : t.stored? i' N = s.stored? i N
  unplanted : (s.catalog i).fault = none ∧ (t.catalog i').fault = none

variable {i i' : Nat} {N : String} {s s' t : Store}

theorem Alike.lt_length (h : s.Alike i i' N t) (hi : i < s.catalogs.length) :
    i' < t.catalogs.length := by
  have hplace := h.place
  omega

theorem Alike.of_apart (h : s.Alike i i' N t) (ha : s.Apart i N s') : s'.Alike i i' N t where
  place := by
    have hplace := h.place
    have hiff := ha.place
    omega
  config := h.config.trans ha.config.symm
  stored := h.stored.trans ha.stored.symm
  unplanted := ⟨ha.unplanted h.unplanted.1, h.unplanted.2⟩

theorem Alike.put (h : s.Alike i i' N t) (hi : i < s.catalogs.length) (m : Metadata) :
    (s.put i N m).Alike i i' N (t.put i' N m) := by
  have hi' := h.lt_length hi
  have hs := catalog_setCatalog hi { s.catalog i with tables := (s.catalog i).tables.insert N m } i
  have ht := catalog_setCatalog hi'
    { t.catalog i' with tables := (t.catalog i').tables.insert N m } i'
  rw [if_pos rfl] at hs ht
  refine ⟨.inl ⟨?_, ?_⟩, ?_, ?_, ?_, ?_⟩
  · exact Nat.lt_of_lt_of_eq hi List.length_set.symm
  · exact Nat.lt_of_lt_of_eq hi' List.length_set.symm
  · rw [Store.put, ht, Store.put, hs]
    exact h.config
  · rw [stored?_put hi, stored?_put hi', if_pos ⟨rfl, rfl⟩, if_pos ⟨rfl, rfl⟩]
  · rw [Store.put, hs]
    exact h.unplanted.1
  · rw [Store.put, ht]
    exact h.unplanted.2

end Store

section
variable {i i' : Nat} {N : String} {s t : Store}

theorem Backing.refresh_alike (h : s.Alike i i' N t) :
    AnswersAlike (Store.Alike i i' N) ((Backing.table i N).operations.refresh s)
      ((Backing.table i' N).operations.refresh t) := by
  rw [refresh_table_eq, refresh_table_eq, h.stored]
  exact ⟨rfl, h⟩

theorem Backing.commit_alike (h : s.Alike i i' N t) (base new : Metadata) :
    AnswersAlike (Store.Alike i i' N) ((Backing.table i N).operations.commit base new s)
      ((Backing.table i' N).operations.commit base new t) := by
  obtain ⟨hf, hf'⟩ := h.unplanted
  rw [commit_table, commit_table]
  cases hs : (s.catalog i).stored? N with
  | none =>
    have ht : (t.catalog i').stored? N = none := h.stored.trans hs
    rw [Catalog.commit_of_missing hf hs, Catalog.commit_of_missing hf' ht, s.setCatalog_catalog,
      t.setCatalog_catalog]
    exact ⟨rfl, h⟩
  | some current =>
    have ht : (t.catalog i').stored? N = some current := h.stored.trans hs
    by_cases hv : current.version = base.version
    · rw [Catalog.commit_of_current hf hs hv, Catalog.commit_of_current hf' ht hv]
      exact ⟨rfl, h.put (Store.lt_of_stored? hs) _⟩
    · rw [Catalog.commit_of_stale hf hs hv, Catalog.commit_of_stale hf' ht hv,
        s.setCatalog_catalog, t.setCatalog_catalog]
      exact ⟨rfl, h⟩

end

/-! ## worlds -/

namespace World

structure Alike (i i' : Nat) (N : String) (w t : World) : Prop where
  store : w.store.Alike i i' N t.store
  handles : t.handlesOn (.table i' N) = w.handlesOn (.table i N)

/-- from `w` and `t` on, the same events have led to worlds that show the same of the table -/
structure Together (i i' : Nat) (N : String) (w t w' t' : World) : Prop where
  alike : w'.Alike i i' N t'
  events : ∃ events, w'.journal = w.journal ++ events ∧ t'.journal = t.journal ++ events

section
variable {i i' : Nat} {N : String} {w w' w'' t t' t'' : World}

theorem Alike.of_apart (h : w.Alike i i' N t) (ha : w.Apart i N w') : w'.Alike i i' N t :=
  ⟨h.store.of_apart ha.store, h.handles.trans ha.handles.symm⟩

theorem Together.refl (h : w.Alike i i' N t) : Together i i' N w t w t :=
  ⟨h, [], (List.append_nil _).symm, (List.append_nil _).symm⟩

theorem Together.trans (h : Together i i' N w t w' t') (h' : Together i i' N w' t' w'' t'') :
    Together i i' N w t w'' t'' := by
  obtain ⟨_, es, hw, ht⟩ := h
  obtain ⟨halike, es', hw', ht'⟩ := h'
  refine ⟨halike, es ++ es', ?_, ?_⟩
  · rw [hw', hw, List.append_assoc]
  · rw [ht', ht, List.append_assoc]

theorem Together.eventsSince (h : Together i i' N w t w' t') :
    t'.eventsSince t = w'.eventsSince w := by
  obtain ⟨_, es, hw, ht⟩ := h
  rw [World.eventsSince, World.eventsSince, hw, ht, List.drop_left, List.drop_left]

theorem log_together (h : w.Alike i i' N t) (events : List Event) :
    Together i i' N w t (w.log events) (t.log events) :=
  ⟨⟨h.store, h.handles⟩, events, rfl, rfl⟩

/-! ## calls on handles -/

section
variable {id : HandleId} (hid : id.backing = .table i N)
include hid

theorem Alike.handle_on (h : w.Alike i i' N t) : t.handle (id.on (.table i' N)) = w.handle id := by
  have hhandles : t.handlesOn (.table i' N) = w.handlesOn id.backing := by
    rw [h.handles, hid]
  show ((t.handlesOn (.table i' N))[id.serial]?).getD default = _
  rw [hhandles]
  rfl

theorem settle_together {o o' : Outcome Store} (h : w.Alike i i' N t)
    (ho : o.Alike (Store.Alike i i' N) o') :
    Together i i' N w t (w.settle id o) (t.settle (id.on (.table i' N)) o') := by
  refine ⟨⟨ho.store, ?_⟩, o.events, rfl, congrArg (t.journal ++ ·) ho.events.symm⟩
  have hb : (id.on (.table i' N)).backing = .table i' N := rfl
  rw [handlesOn_settle, if_pos hb.symm, handlesOn_settle, if_pos hid.symm, h.handles, ho.handle]
  rfl

variable (h : w.Alike i i' N t)
include h

theorem refresh_together :
    (t.refresh (id.on (.table i' N))).1 = (w.refresh id).1 ∧
      Together i i' N w t (w.refresh id).2 (t.refresh (id.on (.table i' N))).2 := by
  have ho := (w.handle id).refresh_alike (Backing.refresh_alike h.store)
  rw [← hid] at ho
  have hhandle := h.handle_on hid
  rw [refresh, refresh, hhandle]
  exact ⟨ho.status.symm, settle_together hid h ho⟩

theorem commitMetadata_together (base new : Metadata) :
    (t.commitMetadata (id.on (.table i' N)) base new).1 = (w.commitMetadata id base new).1 ∧
      Together i i' N w t (w.commitMetadata id base new).2
        (t.commitMetadata (id.on (.table i' N)) base new).2 := by
  have ho := (w.handle id).commitMetadata_alike (fun _ _ => Backing.refresh_alike)
    (Backing.commit_alike h.store base new)
  rw [← hid] at ho
  have hhandle := h.handle_on hid
  rw [commitMetadata, commitMetadata, hhandle]
  exact ⟨ho.status.symm, settle_together hid h ho⟩

end

/-- an update ends up in the same state, and still belongs to the same handle -/
theorem commit_together {p : Pending} (hp : p.handle.backing = .table i N)
    (h : w.Alike i i' N t) :
    ((p.on (.table i' N)).commit t).1 = (p.commit w).1.on (.table i' N) ∧
      ((p.on (.table i' N)).commit t).2.1 = (p.commit w).2.1 ∧
      Together i i' N w t (p.commit w).2.2 ((p.on (.table i' N)).commit t).2.2 := by
  have ho : (p.update.send p.handle.backing.operations (w.handle p.handle) w.store).Alike
      (Store.Alike i i' N) (p.update.send (Backing.table i' N).operations
        (t.handle (p.handle.on (.table i' N))) t.store) := by
    rw [h.handle_on hp, hp]
    exact p.update.send_alike (fun _ _ => Backing.refresh_alike) (w.handle p.handle) h.store
      fun out _ => Backing.commit_alike h.store _ _
  refine ⟨?_, ho.status.symm, settle_together hp h ho⟩
  exact congrArg (fun status => Pending.mk (p.handle.on _) p.kind (p.update.settled status))
    ho.status.symm

/-! ## opening handles -/

theorem attach_together (h : w.Alike i i' N t) (ident : String) :
    (t.attach (.table i' N) ident).1 =
        (w.attach (.table i N) ident).1.map (·.on (.table i' N)) ∧
      Together i i' N w t (w.attach (.table i N) ident).2
        (t.attach (.table i' N) ident).2 := by
  have hjournal : ∀ journal : List Event, journal = journal ++ [] :=
    fun journal => (List.append_nil journal).symm
  obtain ⟨store, store', hstate, ⟨e, hs, ht⟩ | ⟨hd, hs, ht⟩⟩ :=
    attach_alike (Backing.refresh_alike h.store) ident
  · rw [hs, ht]
    exact ⟨rfl, ⟨hstate, h.handles⟩, [], hjournal _, hjournal _⟩
  · rw [hs, ht, h.handles]
    refine ⟨rfl, ⟨hstate, ?_⟩, [], hjournal _, hjournal _⟩
    show ((t.handles.set _ _).get? _).getD [] = ((w.handles.set _ _).get? _).getD []
    rw [Registry.get?_set, if_pos rfl, Registry.get?_set, if_pos rfl]

theorem load_together (h : w.Alike i i' N t) :
    (t.load i' N).1 = (w.load i N).1.map (·.on (.table i' N)) ∧
      Together i i' N w t (w.load i N).2 (t.load i' N).2 := by
  have hst : t.stored? i' N = w.stored? i N := h.store.stored
  cases hs : w.stored? i N with
  | none =>
    rw [load_of_missing hs, load_of_missing (hst.trans hs)]
    exact ⟨rfl, .refl h⟩
  | some m =>
    rw [load_of_stored hs, load_of_stored (hst.trans hs)]
    exact attach_together h N

theorem create_together (hi : i < w.store.catalogs.length) (h : w.Alike i i' N t)
    (schema : Schema) :
    (t.create i' N schema).1 = (w.create i N schema).1.map (·.on (.table i' N)) ∧
      Together i i' N w t (w.create i N schema).2 (t.create i' N schema).2 := by
  have hi' := h.store.lt_length hi
  have hst : (t.store.catalog i').stored? N = (w.store.catalog i).stored? N := h.store.stored
  have hrefusal : (t.store.catalog i').refusal? N = (w.store.catalog i).refusal? N := by
    rw [Catalog.refusal?, h.store.config, hst, ← Catalog.refusal?]
  have hfirst : (t.store.catalog i').firstMetadata N schema =
      (w.store.catalog i).firstMetadata N schema := by
    rw [Catalog.firstMetadata, h.store.config, ← Catalog.firstMetadata]
  rw [create_eq hi, create_eq hi', hrefusal]
  cases (w.store.catalog i).refusal? N with
  | some why => exact ⟨rfl, .refl h⟩
  | none =>
    have hborn : Together i i' N w t (w.born i N schema) (t.born i' N schema) := by
      refine ⟨⟨?_, h.handles⟩, [.createdTable N], rfl, rfl⟩
      show (w.store.put i N _).Alike i i' N (t.store.put i' N _)
      rw [hfirst]
      exact h.store.put hi _
    obtain ⟨hanswer, htogether⟩ := attach_together hborn.alike N
    exact ⟨hanswer, hborn.trans htogether⟩

/-- the catalog of the table is the next one in both worlds -/
theorem addCatalog_together (hi : w.store.catalogs.length = i) (h : w.Alike i i' N t)
    (config : Catalog.Config) :
    t.store.catalogs.length = i' ∧
      Together i i' N w t (w.addCatalog config).2 (t.addCatalog config).2 := by
  have hi' : t.store.catalogs.length = i' := by
    have hplace := h.store.place
    omega
  have hs := w.catalog_addCatalog config i
  have ht := t.catalog_addCatalog config i'
  rw [if_pos hi.symm] at hs
  rw [if_pos hi'.symm] at ht
  refine ⟨hi', ⟨⟨.inl ⟨?_, ?_⟩, by rw [hs, ht], ?_, by rw [hs, ht]; exact ⟨rfl, rfl⟩⟩, h.handles⟩,
    [], (List.append_nil _).symm, (List.append_nil _).symm⟩
  · show i < (w.store.catalogs ++ [Catalog.new config]).length
    rw [List.length_append, hi]
    exact Nat.lt_succ_self i
  · show i' < (t.store.catalogs ++ [Catalog.new config]).length
    rw [List.length_append, hi']
    exact Nat.lt_succ_self i'
  · exact (t.addCatalog_stored? config i' N).trans
      (h.store.stored.trans (w.addCatalog_stored? config i N).symm)

/-! ## transactions -/

theorem run_together {ms : List Transaction.Member}
    (hms : ∀ p, .update p ∈ ms → p.handle.backing = .table i N) (h : w.Alike i i' N t)
    (position : Nat) :
    let r := Transaction.run Transaction.Member.commit position ms w
    let r' := Transaction.run Transaction.Member.commit position
      (ms.map (Transaction.Member.on (.table i' N))) t
    r'.1 = r.1 ∧ Together i i' N w t r.2 r'.2 := by
  induction ms generalizing position w t with
  | nil => exact ⟨rfl, .refl h⟩
  | cons m ms ih =>
    have hrest : ∀ p, .update p ∈ ms → p.handle.backing = .table i N :=
      fun p hp => hms p (List.mem_cons_of_mem m hp)
    cases m with
    | fixed status =>
      cases status with
      | ok _ => exact ih hrest h (position + 1)
      | error e => exact ⟨rfl, .refl h⟩
    | update p =>
      have hp : p.handle.backing = .table i N := hms p List.mem_cons_self
      obtain ⟨_, hstatus, hfirst⟩ := commit_together hp h
      rw [List.map_cons]
      cases hw : Transaction.Member.commit (.update p) w with
      | mk status w' =>
        cases ht : (Transaction.Member.on (.table i' N) (.update p)).commit t with
        | mk status' t' =>
          have hw' : (p.commit w).2 = (status, w') := hw
          have ht' : ((p.on (.table i' N)).commit t).2 = (status', t') := ht
          rw [hw', ht'] at hstatus hfirst
          obtain rfl : status' = status := hstatus
          cases status' with
          | error e =>
            rw [Transaction.run_cons_of_error position ms hw,
              Transaction.run_cons_of_error position _ ht]
            exact ⟨rfl, hfirst⟩
          | ok _ =>
            rw [Transaction.run_cons_of_ok position ms hw,
              Transaction.run_cons_of_ok position _ ht]
            obtain ⟨hfailure, hothers⟩ := ih hrest hfirst.alike (position + 1)
            exact ⟨hfailure, hfirst.trans hothers⟩

theorem commitTransaction_together {x y : Transaction} (hx : x.handle.backing = .table i N)
    (hms : ∀ p, .update p ∈ x.contents → p.handle.backing = .table i N)
    (hy : x.Moved (.table i' N) y) (h : w.Alike i i' N t) :
    (t.commitTransaction y).1 = (w.commitTransaction x).1 ∧
      Together i i' N w t (w.commitTransaction x).2 (t.commitTransaction y).2 := by
  obtain ⟨hfailure, htogether⟩ := run_together hms h 1
  rw [commitTransaction, commitTransaction, Transaction.commitAll_boxed,
    Transaction.commitAll_boxed, ← Transaction.contents, ← Transaction.contents, hy.contents,
    Transaction.commitAll, Transaction.commitAll, List.length_map, hy.handle, h.handle_on hx]
  cases hw : Transaction.run Transaction.Member.commit 1 x.contents w with
  | mk failure w' =>
    cases ht : Transaction.run Transaction.Member.commit 1
      (x.contents.map (Transaction.Member.on (.table i' N))) t with
    | mk failure' t' =>
      rw [hw, ht] at hfailure htogether
      obtain rfl : failure' = failure := hfailure
      cases failure' with
      | none => exact ⟨rfl, htogether.trans (log_together htogether.alike _)⟩
      | some f => exact ⟨rfl, htogether.trans (log_together htogether.alike _)⟩

end

end World

end StagedTable
