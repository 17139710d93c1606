import StagedTable.Proofs.Turns

/-!
# What stays in a world

No action takes a catalog away, and no legal one closes a handle (`World.grows_after`).  A handle
that a call has opened is open (`open_of_attach`, `open_of_load`, `open_of_create`).  So names that
were given to catalogs and handles once can be used for the rest of a run.
-/

namespace StagedTable

theorem Backing.refresh_keeps_catalogs (b : Backing) {n : Nat} (s : Store)
    (hs : s.catalogs.length = n) : (b.operations.refresh s).2.catalogs.length = n := by
  cases b with
  | table i N => exact List.length_set.trans hs
  | script x => exact hs

theorem Backing.commit_keeps_catalogs (b : Backing) {n : Nat} (base new : Metadata) (s : Store)
    (hs : s.catalogs.length = n) : (b.operations.commit base new s).2.catalogs.length = n := by
  cases b with
  | table i N => exact List.length_set.trans hs
  | script x => exact hs

namespace World

theorem attach_catalogs (w : World) (b : Backing) (ident : String) :
    (w.attach b ident).2.store.catalogs.length = w.store.catalogs.length := by
  have hst := Handle.attach_keeps b.refresh_keeps_catalogs ident (s := w.store) rfl
  cases hatt : Handle.attach b.operations ident w.store with
  | mk r store =>
    rw [hatt] at hst
    cases r with
    | error e => rw [attach_of_error hatt]; exact hst
    | ok hd => rw [attach_of_ok hatt]; exact hst

theorem load_catalogs (w : World) (i : Nat) (N : String) :
    (w.load i N).2.store.catalogs.length = w.store.catalogs.length := by
  rw [load]
  split
  · exact w.attach_catalogs _ N
  · rfl

theorem create_catalogs (w : World) (i : Nat) (N : String) (schema : Schema) :
    (w.create i N schema).2.store.catalogs.length = w.store.catalogs.length := by
  rw [create]
  split
  · rfl
  · exact (load_catalogs _ i N).trans List.length_set

/-- only one sort of action brings in a catalog -/
theorem catalogs_act_of_ne (w : World) {a : Action} (ha : ∀ config, a ≠ .addCatalog config) :
    (w.act a).2.store.catalogs.length = w.store.catalogs.length := by
  cases a with
  | addCatalog config => exact absurd rfl (ha config)
  | openScript ident script => exact attach_catalogs (w.addScript script).2 _ ident
  | create i table schema => exact w.create_catalogs i table schema
  | load i table => exact w.load_catalogs i table
  | plant i f => exact List.length_set
  | refresh id =>
    exact Handle.refresh_keeps id.backing.refresh_keeps_catalogs (w.handle id) rfl
  | commitMetadata id base new =>
    exact Handle.commitMetadata_keeps id.backing.refresh_keeps_catalogs
      id.backing.commit_keeps_catalogs (w.handle id) base new rfl
  | commit p =>
    exact Update.send_keeps p.handle.backing.refresh_keeps_catalogs
      p.handle.backing.commit_keeps_catalogs p.update (w.handle p.handle) rfl
  | check p => rfl
  | preview p =>
    rw [act]
    split <;> rfl
  | close ident total failure => cases failure <;> rfl

theorem catalogs_act (w : World) (a : Action) :
    w.store.catalogs.length ≤ (w.act a).2.store.catalogs.length := by
  cases a with
  | addCatalog config =>
    show _ ≤ (w.store.catalogs ++ [Catalog.new config]).length
    rw [List.length_append]
    omega
  | _ => exact Nat.le_of_eq (w.catalogs_act_of_ne (by rintro _ ⟨⟩)).symm

/-- catalogs and handles stay -/
structure Grows (w w' : World) : Prop where
  catalogs : w.store.catalogs.length ≤ w'.store.catalogs.length
  handles : ∀ id, w.Open id → w'.Open id

theorem grows_after {w : World} (hco : w.Coherent) {acts : List Action} (h : w.Legal acts) :
    w.Grows (w.after acts) ∧ (w.after acts).Coherent := by
  induction acts generalizing w with
  | nil => exact ⟨⟨Nat.le_refl _, fun _ ho => ho⟩, hco⟩
  | cons a acts ih =>
    obtain ⟨hf, hl⟩ := h
    have hstep := steps_act hco hf
    obtain ⟨hgrows, hco'⟩ := ih (hstep.coherent hco) hl
    refine ⟨⟨?_, fun id ho => hgrows.handles id (hstep.stays_open ho)⟩, hco'⟩
    exact Nat.le_trans (w.catalogs_act a) hgrows.catalogs

theorem open_of_attach {w w' : World} {b : Backing} {ident : String} {id : HandleId}
    (h : w.attach b ident = (.ok id, w')) : w'.Open id := by
  cases hatt : Handle.attach b.operations ident w.store with
  | mk r store =>
    cases r with
    | error e => rw [attach_of_error hatt] at h; cases h
    | ok hd =>
      rw [attach_of_ok hatt] at h
      cases h
      show (w.handlesOn b).length <
        (((w.handles.set b (w.handlesOn b ++ [hd])).get? b).getD []).length
      rw [Registry.get?_set, if_pos rfl, Option.getD_some, List.length_append]
      exact Nat.lt_succ_self _

theorem open_of_load {w w' : World} {i : Nat} {N : String} {id : HandleId}
    (h : w.load i N = (.ok id, w')) : w'.Open id := by
  rw [load] at h
  split at h
  · exact open_of_attach h
  · cases h

theorem open_of_create {w w' : World} {i : Nat} {N : String} {schema : Schema} {id : HandleId}
    (h : w.create i N schema = (.ok id, w')) : w'.Open id := by
  rw [create] at h
  split at h
  · cases h
  · exact open_of_load h

end World

end StagedTable
