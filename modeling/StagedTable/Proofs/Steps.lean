import StagedTable.Proofs.TableCalls

/-!
# What one call can do

Every call on a world is described by what it does to the stored metadata and to the open handles.

* `World.Coherent`  the invariant of every world in a run: each open handle on a table caches what
                    is stored, or an earlier version of it;
* `World.Steps`     what is stored moves on version by version, handles stay open, and a cache
                    changes only to what is stored.  Such a step keeps coherence
                    (`Steps.coherent`).

Reading calls (`refresh`, `load`, `attach`) store nothing: their `_stored?` lemmas say so.
-/

namespace StagedTable

namespace World

def Coherent (w : World) : Prop :=
  ∀ id hd, w.handle? id = some hd → hd.Tracks id.backing w.store

structure Steps (w w' : World) : Prop where
  evolves : w.store.Evolves w'.store
  back : ∀ id hd', w'.handle? id = some hd' →
    w.handle? id = some hd' ∨ hd'.Reads id.backing w'.store
  keeps : ∀ id hd, w.handle? id = some hd →
    ∃ hd', w'.handle? id = some hd' ∧ (hd' = hd ∨ hd'.Reads id.backing w'.store)

theorem Steps.coherent {w w' : World} (h : w.Steps w') (hco : w.Coherent) : w'.Coherent := by
  intro id hd' hhd
  rcases h.back id hd' hhd with hold | hread
  · exact (hco id hd' hold).evolves h.evolves
  · exact hread.tracks

theorem Steps.stays_open {w w' : World} (h : w.Steps w') {id : HandleId} (ho : w.Open id) :
    w'.Open id := by
  obtain ⟨hd', hhd', _⟩ := h.keeps id _ (handle?_of_open ho)
  exact open_of_handle? hhd'

theorem Steps.of_handles {w w' : World} (hs : w.store.Evolves w'.store)
    (hh : ∀ id, w'.handle? id = w.handle? id) : w.Steps w' where
  evolves := hs
  back := fun id _ h => .inl ((hh id).symm.trans h)
  keeps := fun id hd h => ⟨hd, (hh id).trans h, .inl rfl⟩

/-- a step that stores something, and then one that does not -/
theorem Steps.trans_quiet {w w' w'' : World} (h : w.Steps w') (h' : w'.Steps w'')
    (hq : ∀ i N, w''.stored? i N = w'.stored? i N) : w.Steps w'' where
  evolves := by
    intro i N cur hcur
    obtain ⟨m, hm, hv⟩ := h.evolves i N cur hcur
    exact ⟨m, (hq i N).trans hm, hv⟩
  back := by
    intro id hd'' hhd
    rcases h'.back id hd'' hhd with hold | hread
    · rcases h.back id hd'' hold with hold | hread
      · exact .inl hold
      · exact .inr fun i N hb => (hq i N).trans (hread i N hb)
    · exact .inr hread
  keeps := by
    intro id hd hhd
    obtain ⟨hd', hhd', hcase⟩ := h.keeps id hd hhd
    obtain ⟨hd'', hhd'', hcase'⟩ := h'.keeps id hd' hhd'
    refine ⟨hd'', hhd'', ?_⟩
    rcases hcase' with rfl | hread
    · rcases hcase with rfl | hread
      · exact .inl rfl
      · exact .inr fun i N hb => (hq i N).trans (hread i N hb)
    · exact .inr hread

theorem Steps.refl (w : World) : w.Steps w :=
  .of_handles (.of_eq fun _ _ => rfl) fun _ => rfl

/-! ## calls on an open handle -/

theorem handle?_settle {w : World} {id : HandleId} (ho : w.Open id) (o : Outcome Store)
    (id' : HandleId) :
    (w.settle id o).handle? id' = if id' = id then some o.handle else w.handle? id' := by
  obtain ⟨b, n⟩ := id
  obtain ⟨b', n'⟩ := id'
  rw [handle?, handlesOn_settle]
  by_cases hb : b' = b
  · subst hb
    have hn : n < (w.handlesOn b').length := ho
    rw [if_pos rfl, List.getElem?_set]
    by_cases hn' : n = n'
    · subst hn'
      rw [if_pos rfl, if_pos hn, if_pos rfl]
    · rw [if_neg hn', if_neg fun h => hn' (HandleId.mk.inj h).2.symm]
      rfl
  · rw [if_neg hb, if_neg fun h => hb (HandleId.mk.inj h).1]
    rfl

theorem steps_settle {w : World} {id : HandleId} {hd : Handle} {o : Outcome Store}
    (ho : w.handle? id = some hd) (hs : w.store.Evolves o.store)
    (hr : o.handle = hd ∨ o.handle.Reads id.backing o.store) : w.Steps (w.settle id o) where
  evolves := hs
  back := by
    intro id' hd' hhd
    rw [handle?_settle (open_of_handle? ho)] at hhd
    by_cases hid : id' = id
    · subst hid
      obtain rfl : o.handle = hd' := Option.some.inj ((if_pos rfl).symm.trans hhd)
      rcases hr with rfl | hr
      · exact .inl ho
      · exact .inr hr
    · exact .inl ((if_neg hid).symm.trans hhd)
  keeps := by
    intro id' hd' hhd
    rw [handle?_settle (open_of_handle? ho)]
    by_cases hid : id' = id
    · subst hid
      obtain rfl : hd = hd' := Option.some.inj (ho.symm.trans hhd)
      exact ⟨o.handle, if_pos rfl, hr⟩
    · exact ⟨hd', (if_neg hid).trans hhd, .inl rfl⟩

theorem steps_refresh {w : World} {id : HandleId} (hco : w.Coherent) (ho : w.Open id) :
    w.Steps (w.refresh id).2 := by
  have hhd := handle?_of_open ho
  refine steps_settle hhd (.of_eq ((w.handle id).refresh_stored? id.backing w.store)) ?_
  exact .inr (Handle.refresh_reads (hco id _ hhd))

theorem steps_commitMetadata {w : World} {id : HandleId} (hco : w.Coherent) (ho : w.Open id)
    (base new : Metadata) : w.Steps (w.commitMetadata id base new).2 := by
  have hhd := handle?_of_open ho
  have he := Handle.commitMetadata_ends_replace (hco id _ hhd) base new
  exact steps_settle hhd he.evolves he.reads

theorem steps_commit {w : World} {id : HandleId} (hco : w.Coherent) (ho : w.Open id) {k : Kind}
    (u : Update k) : w.Steps (w.commit id u).2.2 := by
  have hhd := handle?_of_open ho
  have he := u.send_ends (hco id _ hhd)
  exact steps_settle hhd he.evolves he.reads

/-! ## opening handles -/

theorem steps_open {w w' : World} {b : Backing} {h : Handle}
    (hst : ∀ j T, w'.stored? j T = w.stored? j T)
    (hh : ∀ b', w'.handlesOn b' = if b' = b then w.handlesOn b' ++ [h] else w.handlesOn b')
    (hr : h.Reads b w'.store) : w.Steps w' where
  evolves := .of_eq hst
  back := by
    rintro ⟨b', n⟩ hd' hhd
    rw [handle?, hh] at hhd
    by_cases hb : b' = b
    · subst hb
      rw [if_pos rfl, List.getElem?_append] at hhd
      split at hhd
      · exact .inl hhd
      · have hmem := List.mem_of_getElem? hhd
        rw [List.mem_singleton.1 hmem]
        exact .inr hr
    · rw [if_neg hb] at hhd
      exact .inl hhd
  keeps := by
    rintro ⟨b', n⟩ hd hhd
    refine ⟨hd, ?_, .inl rfl⟩
    have hn : n < (w.handlesOn b').length := open_of_handle? hhd
    rw [handle?, hh]
    by_cases hb : b' = b
    · rw [if_pos hb, List.getElem?_append_left hn]
      exact hhd
    · rw [if_neg hb]
      exact hhd

theorem attach_of_error {w : World} {b : Backing} {ident : String} {e : Error} {store : Store}
    (h : Handle.attach b.operations ident w.store = (.error e, store)) :
    w.attach b ident = (.error e, { w with store }) := by
  simp [attach, h]

theorem attach_of_ok {w : World} {b : Backing} {ident : String} {hd : Handle} {store : Store}
    (h : Handle.attach b.operations ident w.store = (.ok hd, store)) :
    w.attach b ident = (.ok ⟨b, (w.handlesOn b).length⟩,
      { w with store, handles := w.handles.set b (w.handlesOn b ++ [hd]) }) := by
  simp [attach, h]

theorem attach_stored? (w : World) (b : Backing) (ident : String) (j : Nat) (T : String) :
    (w.attach b ident).2.stored? j T = w.stored? j T := by
  have hst := Handle.attach_stored? b ident w.store j T
  cases hatt : Handle.attach b.operations ident w.store with
  | mk r store =>
    rw [hatt] at hst
    cases r with
    | error e => rw [attach_of_error hatt]; exact hst
    | ok hd => rw [attach_of_ok hatt]; exact hst

theorem steps_attach (w : World) (b : Backing) (ident : String) :
    w.Steps (w.attach b ident).2 := by
  have hst := w.attach_stored? b ident
  cases hatt : Handle.attach b.operations ident w.store with
  | mk r store =>
    cases r with
    | error e =>
      rw [attach_of_error hatt] at hst ⊢
      exact .of_handles (.of_eq hst) fun _ => rfl
    | ok hd =>
      rw [attach_of_ok hatt] at hst ⊢
      refine steps_open (b := b) (h := hd) hst (fun b' => ?_) fun i N hb => ?_
      · rw [handlesOn, Registry.get?_set]
        split
        · next hb => subst hb; rfl
        · rfl
      · exact (hst i N).trans (Handle.attach_reads hatt i N hb)

theorem attach_table {w : World} {i : Nat} {N : String} {m : Metadata}
    (hs : w.stored? i N = some m) (ident : String) :
    w.attach (.table i N) ident = (.ok ⟨.table i N, (w.handlesOn (.table i N)).length⟩,
      { w with handles :=
          w.handles.set (.table i N) (w.handlesOn (.table i N) ++ [⟨ident, m⟩]) }) := by
  refine attach_of_ok ?_
  rw [Handle.attach, Backing.refresh_table hs]

theorem handle?_attach_table {w : World} {i : Nat} {N : String} {m : Metadata}
    (hs : w.stored? i N = some m) (ident : String) (id : HandleId) :
    (w.attach (.table i N) ident).2.handle? id =
      if id = ⟨.table i N, (w.handlesOn (.table i N)).length⟩ then some ⟨ident, m⟩
      else w.handle? id := by
  obtain ⟨b, n⟩ := id
  rw [attach_table hs, handle?, handlesOn, Registry.get?_set]
  by_cases hb : b = .table i N
  · subst hb
    rw [if_pos rfl, Option.getD_some]
    by_cases hn : n = (w.handlesOn (.table i N)).length
    · rw [hn, if_pos rfl, List.getElem?_concat_length]
    · rw [if_neg fun h => hn (HandleId.mk.inj h).2]
      rcases Nat.lt_or_gt_of_ne hn with hlt | hgt
      · exact List.getElem?_append_left hlt
      · have hle : (w.handlesOn (.table i N)).length ≤ n := Nat.le_of_lt hgt
        rw [List.getElem?_append_right hle, List.getElem?_singleton, if_neg (by omega)]
        exact (List.getElem?_eq_none hle).symm
  · rw [if_neg hb, if_neg fun h => hb (HandleId.mk.inj h).1]
    rfl

theorem load_of_stored {w : World} {i : Nat} {N : String} {m : Metadata}
    (hs : w.stored? i N = some m) : w.load i N = w.attach (.table i N) N :=
  if_pos (congrArg Option.isSome hs)

theorem load_of_missing {w : World} {i : Nat} {N : String} (hs : w.stored? i N = none) :
    w.load i N = (.error (Catalog.CreateError.doesNotExist N).error, w) := by
  refine if_neg fun h => ?_
  have hex : (w.stored? i N).isSome = true := h
  rw [hs] at hex
  cases hex

theorem create_of_error {w : World} {i : Nat} {N : String} {schema : Schema}
    {why : Catalog.CreateError} (h : (w.store.catalog i).create N schema = .error why) :
    w.create i N schema = (.error why.error, w) := by
  simp [create, h]

/-- the world with a new table in it, before the table is opened -/
def born (w : World) (i : Nat) (N : String) (schema : Schema) : World :=
  { w with store := w.store.put i N ((w.store.catalog i).firstMetadata N schema) }.log
    [.createdTable N]

theorem stored?_born {w : World} {i : Nat} (hi : i < w.store.catalogs.length) (N : String)
    (schema : Schema) (j : Nat) (T : String) :
    (w.born i N schema).stored? j T =
      if j = i ∧ T = N then some ((w.store.catalog i).firstMetadata N schema)
      else w.stored? j T :=
  Store.stored?_put hi N _ j T

theorem stored?_born_self {w : World} {i : Nat} (hi : i < w.store.catalogs.length) (N : String)
    (schema : Schema) : (w.born i N schema).stored? i N =
      some ((w.store.catalog i).firstMetadata N schema) :=
  (stored?_born hi N schema i N).trans (if_pos ⟨rfl, rfl⟩)

theorem create_of_ok {w : World} {i : Nat} (hi : i < w.store.catalogs.length) {N : String}
    {schema : Schema} {c : Catalog} (h : (w.store.catalog i).create N schema = .ok c) :
    w.create i N schema = (w.born i N schema).attach (.table i N) N := by
  obtain ⟨_, rfl⟩ := Catalog.create_eq_ok h
  rw [create, h]
  exact load_of_stored (stored?_born_self hi N schema)

theorem load_stored? (w : World) (i : Nat) (N : String) (j : Nat) (T : String) :
    (w.load i N).2.stored? j T = w.stored? j T := by
  cases hs : w.stored? i N with
  | none => rw [load_of_missing hs]
  | some m => rw [load_of_stored hs, attach_stored?]

theorem steps_load (w : World) (i : Nat) (N : String) : w.Steps (w.load i N).2 := by
  cases hs : w.stored? i N with
  | none => rw [load_of_missing hs]; exact .refl w
  | some m => rw [load_of_stored hs]; exact w.steps_attach _ N

theorem steps_create {w : World} {i : Nat} (hi : i < w.store.catalogs.length) (N : String)
    (schema : Schema) : w.Steps (w.create i N schema).2 := by
  cases hc : (w.store.catalog i).create N schema with
  | error why => rw [create_of_error hc]; exact .refl w
  | ok c =>
    rw [create_of_ok hi hc]
    obtain ⟨hfree, _⟩ := Catalog.create_eq_ok hc
    have hborn : w.Steps (w.born i N schema) := by
      refine .of_handles (fun j T cur hcur => ⟨cur, ?_, .inl rfl⟩) fun _ => rfl
      have hne : ¬ (j = i ∧ T = N) := by
        rintro ⟨rfl, rfl⟩
        cases hfree.symm.trans hcur
      exact (stored?_born hi N schema j T).trans ((if_neg hne).trans hcur)
    exact hborn.trans_quiet (steps_attach _ _ N) (attach_stored? _ _ N)

theorem addCatalog_stored? (w : World) (config : Catalog.Config) (j : Nat) (T : String) :
    (w.addCatalog config).2.stored? j T = w.stored? j T := by
  show (((w.store.catalogs ++ [Catalog.new config])[j]?).getD default).stored? T =
    ((w.store.catalogs[j]?).getD default).stored? T
  rw [List.getElem?_append]
  split
  · rfl
  · next hj =>
    rw [List.getElem?_eq_none (Nat.le_of_not_lt hj), List.getElem?_singleton]
    split <;> rfl

end World

end StagedTable
