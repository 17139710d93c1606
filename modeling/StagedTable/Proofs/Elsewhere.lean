import StagedTable.Proofs.Simulation

/-!
# What happens elsewhere

Of one table a world shows the configuration and the fault of its catalog, what is stored under
its name, and the handles that are open on it.  A call that concerns another table, of the same
catalog or of another one, or a script, leaves all this as it is.

* `World.Apart`  nothing has changed that the world shows of the table;
* `World.apart_create`, `World.apart_commit`, `World.apart_commitTransaction` and so on: this is how
                 the world is after a call that concerns something else.
-/

namespace StagedTable

theorem Catalog.commit_of_missing {c : Catalog} {T : String} (hf : c.fault = none)
    (hs : c.stored? T = none) (base new : Metadata) :
    c.commit T base new = (.error (.dropped T), c) := by
  simp [commit, swap, hf, hs]

theorem Catalog.commit_elsewhere (c : Catalog) {T N : String} (hT : T ≠ N) (base new : Metadata) :
    (c.commit T base new).2.config = c.config ∧
      (c.commit T base new).2.stored? N = c.stored? N ∧
      (c.fault = none → (c.commit T base new).2.fault = none) := by
  cases hf : c.fault with
  | some f =>
    rw [commit_of_fault hf]
    exact ⟨rfl, rfl, fun _ => rfl⟩
  | none =>
    cases hs : c.stored? T with
    | none =>
      rw [commit_of_missing hf hs]
      exact ⟨rfl, rfl, fun _ => hf⟩
    | some current =>
      by_cases hv : current.version = base.version
      · rw [commit_of_current hf hs hv]
        refine ⟨rfl, ?_, fun _ => hf⟩
        show (c.tables.insert T _).get? N = _
        rw [Dictionary.get?_insert, if_neg hT.symm]
        rfl
      · rw [commit_of_stale hf hs hv]
        exact ⟨rfl, rfl, fun _ => hf⟩

namespace Store

/-- nothing has changed that the store shows of the table -/
structure Apart (i : Nat) (N : String) (s s' : Store) : Prop where
  place : i < s'.catalogs.length ↔ i < s.catalogs.length
  config : (s'.catalog i).config = (s.catalog i).config
  stored : s'.stored? i N = s.stored? i N
  unplanted : (s.catalog i).fault = none → (s'.catalog i).fault = none

variable {i : Nat} {N : String} {s s' s'' : Store}

theorem Apart.refl (s : Store) (i : Nat) (N : String) : s.Apart i N s := ⟨.rfl, rfl, rfl, id⟩

theorem Apart.trans (h : s.Apart i N s') (h' : s'.Apart i N s'') : s.Apart i N s'' where
  place := h'.place.trans h.place
  config := h'.config.trans h.config
  stored := h'.stored.trans h.stored
  unplanted := fun hf => h'.unplanted (h.unplanted hf)

theorem apart_of_catalogs (h : s'.catalogs = s.catalogs) : s.Apart i N s' := by
  have hcat : s'.catalog i = s.catalog i := by rw [catalog, h, catalog]
  refine ⟨by rw [h], by rw [hcat], ?_, by rw [hcat]; exact id⟩
  rw [stored?, hcat, stored?]

theorem apart_setCatalog {j : Nat} {c : Catalog}
    (h : j = i → c.config = (s.catalog j).config ∧ c.stored? N = (s.catalog j).stored? N ∧
      ((s.catalog j).fault = none → c.fault = none)) : s.Apart i N (s.setCatalog j c) := by
  by_cases hj : j < s.catalogs.length
  · have hplace : i < (s.setCatalog j c).catalogs.length ↔ i < s.catalogs.length := by
      rw [setCatalog, List.length_set]
    have hcat := catalog_setCatalog hj c i
    by_cases hij : j = i
    · subst hij
      rw [if_pos rfl] at hcat
      obtain ⟨hconfig, hstored, hfault⟩ := h rfl
      refine ⟨hplace, by rw [hcat, hconfig], ?_, by rw [hcat]; exact hfault⟩
      rw [stored?, hcat, hstored, stored?]
    · rw [if_neg (Ne.symm hij)] at hcat
      refine ⟨hplace, by rw [hcat], ?_, by rw [hcat]; exact id⟩
      rw [stored?, hcat, stored?]
  · exact apart_of_catalogs (List.set_eq_of_length_le (Nat.le_of_not_lt hj))

end Store

/-! ## the operations of other backings -/

section
variable {b : Backing} {i : Nat} {N : String}

theorem Backing.refresh_apart (b : Backing) (i : Nat) (N : String) (s : Store) :
    s.Apart i N (b.operations.refresh s).2 := by
  cases b with
  | table j T =>
    rw [refresh_table_eq]
    exact .refl s i N
  | script k => exact Store.apart_of_catalogs rfl

theorem Backing.commit_apart (hb : b ≠ .table i N) (base new : Metadata) (s : Store) :
    s.Apart i N (b.operations.commit base new s).2 := by
  cases b with
  | table j T =>
    rw [commit_table]
    refine Store.apart_setCatalog ?_
    rintro rfl
    have hT : T ≠ N := by
      rintro rfl
      exact hb rfl
    exact (s.catalog j).commit_elsewhere hT base new
  | script k => exact Store.apart_of_catalogs rfl

end

namespace World

structure Apart (i : Nat) (N : String) (w w' : World) : Prop where
  store : w.store.Apart i N w'.store
  handles : w'.handlesOn (.table i N) = w.handlesOn (.table i N)

section
variable {i : Nat} {N : String} {w w' w'' : World}

theorem Apart.refl (w : World) (i : Nat) (N : String) : w.Apart i N w := ⟨.refl _ i N, rfl⟩

theorem Apart.trans (h : w.Apart i N w') (h' : w'.Apart i N w'') : w.Apart i N w'' :=
  ⟨h.store.trans h'.store, h'.handles.trans h.handles⟩

theorem apart_log (w : World) (events : List Event) : w.Apart i N (w.log events) :=
  ⟨.refl _ i N, rfl⟩

theorem apart_settle {id : HandleId} (hid : id.backing ≠ .table i N) {o : Outcome Store}
    (hs : w.store.Apart i N o.store) : w.Apart i N (w.settle id o) := by
  refine ⟨hs, ?_⟩
  rw [handlesOn_settle, if_neg hid.symm]

theorem apart_attach {b : Backing} (hb : b ≠ .table i N) (ident : String) :
    w.Apart i N (w.attach b ident).2 := by
  have hreads : ∀ s, w.store.Apart i N s → w.store.Apart i N (b.operations.refresh s).2 :=
    fun s h => h.trans (b.refresh_apart i N s)
  have hs := Handle.attach_keeps hreads ident (.refl w.store i N)
  cases hatt : Handle.attach b.operations ident w.store with
  | mk r store =>
    rw [hatt] at hs
    cases r with
    | error e =>
      rw [attach_of_error hatt]
      exact ⟨hs, rfl⟩
    | ok hd =>
      rw [attach_of_ok hatt]
      refine ⟨hs, ?_⟩
      show ((w.handles.set b _).get? _).getD [] = _
      rw [Registry.get?_set, if_neg hb.symm]
      rfl

theorem backing_of_attach {b : Backing} {ident : String} {id : HandleId}
    (h : w.attach b ident = (.ok id, w')) : id.backing = b := by
  cases hatt : Handle.attach b.operations ident w.store with
  | mk r store =>
    cases r with
    | error e =>
      rw [attach_of_error hatt] at h
      cases h
    | ok hd =>
      rw [attach_of_ok hatt] at h
      cases h
      rfl

theorem backing_of_load {j : Nat} {T : String} {id : HandleId}
    (h : w.load j T = (.ok id, w')) : id.backing = .table j T := by
  rw [load] at h
  split at h
  · exact backing_of_attach h
  · cases h

theorem backing_of_create {j : Nat} {T : String} {schema : Schema} {id : HandleId}
    (h : w.create j T schema = (.ok id, w')) : id.backing = .table j T := by
  rw [create] at h
  split at h
  · cases h
  · exact backing_of_load h

theorem apart_load {j : Nat} {T : String} (hj : ¬ (j = i ∧ T = N)) :
    w.Apart i N (w.load j T).2 := by
  have hb : Backing.table j T ≠ .table i N := fun h => hj (Backing.table.inj h)
  rw [load]
  split
  · exact apart_attach hb T
  · exact .refl w i N

theorem apart_born {j : Nat} {T : String} (hj : ¬ (j = i ∧ T = N)) (schema : Schema) :
    w.Apart i N (w.born j T schema) := by
  refine ⟨Store.apart_setCatalog ?_, rfl⟩
  rintro rfl
  refine ⟨rfl, ?_, id⟩
  show (Dictionary.insert _ T _).get? N = _
  rw [Dictionary.get?_insert, if_neg fun h => hj ⟨rfl, h.symm⟩]
  rfl

theorem apart_create {j : Nat} (hlt : j < w.store.catalogs.length) {T : String}
    (hj : ¬ (j = i ∧ T = N)) (schema : Schema) : w.Apart i N (w.create j T schema).2 := by
  have hb : Backing.table j T ≠ .table i N := fun h => hj (Backing.table.inj h)
  rw [create_eq hlt]
  cases (w.store.catalog j).refusal? T with
  | some why => exact .refl w i N
  | none => exact (apart_born hj schema).trans (apart_attach hb T)

theorem apart_openScript (script : Script) (ident : String) :
    w.Apart i N ((w.addScript script).2.attach (.script (w.addScript script).1) ident).2 := by
  have hadd : w.Apart i N (w.addScript script).2 := ⟨Store.apart_of_catalogs rfl, rfl⟩
  have hb : Backing.script (w.addScript script).1 ≠ .table i N := by
    intro h
    cases h
  exact hadd.trans (apart_attach hb ident)

theorem apart_addCatalog (hi : w.store.catalogs.length ≠ i) (config : Catalog.Config) :
    w.Apart i N (w.addCatalog config).2 := by
  have hcat := w.catalog_addCatalog config i
  rw [if_neg hi.symm] at hcat
  refine ⟨⟨?_, by rw [hcat], w.addCatalog_stored? config i N, by rw [hcat]; exact id⟩, rfl⟩
  show i < (w.store.catalogs ++ [Catalog.new config]).length ↔ _
  rw [List.length_append, List.length_singleton]
  omega

/-! ## calls on handles -/

theorem apart_refresh {id : HandleId} (hid : id.backing ≠ .table i N) :
    w.Apart i N (w.refresh id).2 :=
  apart_settle hid (Handle.refresh_keeps
    (fun s hs => hs.trans (id.backing.refresh_apart i N s)) (w.handle id) (.refl w.store i N))

theorem apart_commitMetadata {id : HandleId} (hid : id.backing ≠ .table i N)
    (base new : Metadata) : w.Apart i N (w.commitMetadata id base new).2 :=
  apart_settle hid (Handle.commitMetadata_keeps
    (fun s hs => hs.trans (id.backing.refresh_apart i N s))
    (fun base new s hs => hs.trans (Backing.commit_apart hid base new s)) (w.handle id) base new
    (.refl w.store i N))

theorem apart_commit {p : Pending} (hp : p.handle.backing ≠ .table i N) :
    w.Apart i N (p.commit w).2.2 :=
  apart_settle hp (Update.send_keeps
    (fun s hs => hs.trans (p.handle.backing.refresh_apart i N s))
    (fun base new s hs => hs.trans (Backing.commit_apart hp base new s)) p.update
    (w.handle p.handle) (.refl w.store i N))

theorem apart_run {ms : List Transaction.Member}
    (hms : ∀ p, .update p ∈ ms → p.handle.backing ≠ .table i N) (position : Nat) :
    w.Apart i N (Transaction.run Transaction.Member.commit position ms w).2 := by
  induction ms generalizing w position with
  | nil => exact .refl w i N
  | cons m ms ih =>
    have hrest : ∀ p, .update p ∈ ms → p.handle.backing ≠ .table i N :=
      fun p hp => hms p (List.mem_cons_of_mem m hp)
    have hfirst : w.Apart i N (m.commit w).2 := by
      cases m with
      | fixed status => exact .refl w i N
      | update p => exact apart_commit (hms p List.mem_cons_self)
    cases hc : m.commit w with
    | mk status w' =>
      rw [hc] at hfirst
      cases status with
      | error e =>
        rw [Transaction.run_cons_of_error position ms hc]
        exact hfirst
      | ok _ =>
        rw [Transaction.run_cons_of_ok position ms hc]
        exact hfirst.trans (ih hrest (position + 1))

theorem apart_commitTransaction {t : Transaction}
    (ht : ∀ p, .update p ∈ t.contents → p.handle.backing ≠ .table i N) :
    w.Apart i N (w.commitTransaction t).2 := by
  have hrun := apart_run (w := w) ht 1
  rw [commitTransaction, Transaction.commitAll_boxed, ← Transaction.contents,
    Transaction.commitAll]
  cases hr : Transaction.run Transaction.Member.commit 1 t.contents w with
  | mk failure w' =>
    rw [hr] at hrun
    cases failure with
    | none => exact hrun.trans (apart_log w' _)
    | some f => exact hrun.trans (apart_log w' _)

end

end World

end StagedTable
