import StagedTable.Proofs.SchemaPreview
import StagedTable.Proofs.TableLocations
import StagedTable.Proofs.Turns

/-!
# Creating tables

A creation first stores the table and then opens it, like any table that is there already.  Both
halves succeed or nothing happens, and a name is created at most once in the course of a run.

* `World.Created`   a creation of the name has succeeded.  Whether one does is read off its answer,
                    and the names that are stored are no others (`World.isSome_stored?_after`);
* `World.Founds`    what a creation does: one table more, and one handle more on it;
* `World.creation_unique_atomic`  when creations succeed, and what they do.

A planted fault waits for a commit, and a creation is none.
-/

namespace StagedTable

/-- the metadata that a table of the name begins with -/
structure Catalog.Config.Begins (config : Catalog.Config) (N : String) (schema : Schema)
    (m : Metadata) : Prop where
  version : m.version = 0
  location : m.location = config.tableLocation N
  formatVersion : m.formatVersion = config.formatVersion
  properties : m.properties = config.defaultProperties
  schema_eq : m.schema = schema
  lastColumnId : m.lastColumnId.toInt = (schema.columns.map (·.id.toInt)).max?.getD 0

theorem Catalog.begins_firstMetadata (c : Catalog) (N : String) (schema : Schema) :
    c.config.Begins N schema (c.firstMetadata N schema) :=
  ⟨rfl, rfl, rfl, rfl, rfl, schema.toInt_highestId⟩

theorem Catalog.Config.supports_iff {version : Nat} :
    supports version = true ↔ version = 1 ∨ version = 2 := by
  simp [supports]

theorem Store.fault_put (s : Store) (i : Nat) (N : String) (m : Metadata) (j : Nat) :
    ((s.put i N m).catalog j).fault = (s.catalog j).fault := by
  by_cases hi : i < s.catalogs.length
  · rw [put, catalog_setCatalog hi]
    split
    · next hj => rw [hj]
    · rfl
  · rw [put, setCatalog, List.set_eq_of_length_le (Nat.le_of_not_lt hi)]

namespace World

/-! ## one creation -/

/-- the table is stored, one new handle caches it, and nothing else has changed -/
structure Founds (w : World) (i : Nat) (N : String) (id : HandleId) (m : Metadata) (w' : World) :
    Prop where
  store : w'.store = w.store.put i N m
  unused : w.handle? id = none
  handle : w'.handle? id = some ⟨N, m⟩
  handles : ∀ id', id' ≠ id → w'.handle? id' = w.handle? id'

section
variable {w : World} {i : Nat} {N : String} (hi : i < w.store.catalogs.length) (schema : Schema)
include hi

theorem founds_of_unrefused (h : (w.store.catalog i).refusal? N = none) :
    ∃ id w', w.create i N schema = (.ok id, w') ∧
      w.Founds i N id ((w.store.catalog i).firstMetadata N schema) w' := by
  have hborn := stored?_born_self hi N schema
  have hcreate : w.create i N schema = (w.born i N schema).attach (.table i N) N := by
    rw [create_eq hi, h]
  have hattach := attach_table hborn N
  refine ⟨_, _, hcreate.trans hattach, ?_⟩
  have hhandle := handle?_attach_table hborn N
  rw [hattach] at hhandle
  refine ⟨rfl, List.getElem?_eq_none (Nat.le_refl _), ?_, fun id' hid => ?_⟩
  · rw [hhandle, if_pos rfl]
  · rw [hhandle, if_neg hid]
    rfl

/-- a creation founds the table, or it does nothing -/
theorem create_cases :
    (∃ id w', w.create i N schema = (.ok id, w') ∧ (w.store.catalog i).refusal? N = none ∧
      w.Founds i N id ((w.store.catalog i).firstMetadata N schema) w') ∨
    ∃ why, w.create i N schema = (.error why.error, w) ∧
      (w.store.catalog i).refusal? N = some why := by
  cases hr : (w.store.catalog i).refusal? N with
  | none =>
    obtain ⟨id, w', hcreate, hfounds⟩ := founds_of_unrefused hi schema hr
    exact .inl ⟨id, w', hcreate, rfl, hfounds⟩
  | some why =>
    refine .inr ⟨why, ?_, rfl⟩
    rw [create_eq hi, hr]

end

/-! ## the names that are created -/

/-- a creation of the name has succeeded in the course of the run -/
def Created (acts : List Action) (i : Nat) (N : String) : Prop :=
  ∃ pre schema id, pre ++ [.create i N schema] <+: acts ∧
    ((empty.after pre).create i N schema).1 = .ok id

theorem not_created_nil {i : Nat} {N : String} : ¬ Created [] i N := by
  rintro ⟨pre, schema, id, hp, -⟩
  exact List.concat_ne_nil _ _ (List.prefix_nil.1 hp)

theorem created_snoc {acts : List Action} {a : Action} {i : Nat} {N : String} :
    Created (acts ++ [a]) i N ↔ Created acts i N ∨
      ∃ schema id, a = .create i N schema ∧
        ((empty.after acts).create i N schema).1 = .ok id := by
  constructor
  · rintro ⟨pre, schema, id, hp, hok⟩
    rcases List.prefix_concat_iff.1 hp with heq | hp
    · obtain ⟨rfl, ha⟩ := List.append_inj' heq rfl
      exact .inr ⟨schema, id, (List.singleton_inj.1 ha).symm, hok⟩
    · exact .inl ⟨pre, schema, id, hp, hok⟩
  · rintro (⟨pre, schema, id, hp, hok⟩ | ⟨schema, id, rfl, hok⟩)
    · exact ⟨pre, schema, id, hp.trans (List.prefix_append _ _), hok⟩
    · exact ⟨acts, schema, id, List.prefix_refl _, hok⟩

theorem create_of_birth? {w : World} {i : Nat} {N : String} {a : Action} {m : Metadata}
    (h : w.birth? i N a = some m) :
    ∃ schema id, a = .create i N schema ∧ (w.create i N schema).1 = .ok id := by
  cases a with
  | create j T schema =>
    rw [birth?] at h
    split at h
    · next hok =>
      obtain ⟨rfl, rfl, hok⟩ := hok
      cases hr : (w.create j T schema).1 with
      | error e =>
        rw [act, status, hr] at hok
        cases hok
      | ok id => exact ⟨schema, id, rfl, hr⟩
    · cases h
  | _ => cases h

/-- a name is stored after an action if it was before, or if the action has created it -/
theorem isSome_stored?_act {w : World} {a : Action} (hco : w.Coherent) (hf : a.Fits w) {i : Nat}
    {N : String} : ((w.act a).2.stored? i N).isSome = true ↔
      (w.stored? i N).isSome = true ∨
        ∃ schema id, a = .create i N schema ∧ (w.create i N schema).1 = .ok id := by
  constructor
  · intro h
    cases turn_act hco hf i N with
    | kept _ _ hs => exact .inl (hs ▸ h)
    | created hb _ _ _ _ => exact .inr (create_of_birth? hb)
    | landed _ _ hcur _ _ => exact .inl (Option.isSome_of_eq_some hcur)
  · rintro (h | ⟨schema, id, rfl, hok⟩)
    · obtain ⟨cur, hcur⟩ := Option.isSome_iff_exists.1 h
      obtain ⟨m, hm, -⟩ := replay_act hco hf hcur
      exact Option.isSome_of_eq_some hm
    · obtain ⟨_, -, hm⟩ := create_of_unrefused hf (refusal?_of_created hf hok) schema
      exact Option.isSome_of_eq_some hm

/-- **The names that are stored are those that were created.** -/
theorem isSome_stored?_after {acts : List Action} (h : empty.Legal acts) {i : Nat} {N : String} :
    ((empty.after acts).stored? i N).isSome = true ↔ Created acts i N := by
  induction acts, h using Legal.snoc_induction with
  | nil => exact ⟨fun h => Bool.noConfusion h, fun h => absurd h not_created_nil⟩
  | snoc acts a hl hf ih =>
    rw [after_snoc, isSome_stored?_act (coherent_after hl) hf, ih, created_snoc]

theorem load_succeeds_iff {w : World} {i : Nat} {N : String} :
    (∃ id, (w.load i N).1 = .ok id) ↔ (w.stored? i N).isSome = true := by
  cases hs : w.stored? i N with
  | none =>
    rw [load_of_missing hs]
    refine ⟨?_, fun h => Bool.noConfusion h⟩
    rintro ⟨id, hid⟩
    cases hid
  | some m =>
    rw [load_of_stored hs, attach_table hs]
    exact ⟨fun _ => rfl, fun _ => ⟨_, rfl⟩⟩

/-- the names that exist, those that can be loaded and those with stored metadata are the same -/
theorem names_after {acts : List Action} (h : empty.Legal acts) (i : Nat) (N : String) :
    let w := empty.after acts
    ((w.store.catalog i).exists? N = true ↔ Created acts i N) ∧
      ((∃ id, (w.load i N).1 = .ok id) ↔ Created acts i N) ∧
      ((w.stored? i N).isSome = true ↔ Created acts i N) :=
  have hstored := isSome_stored?_after h
  ⟨hstored, load_succeeds_iff.trans hstored, hstored⟩

/-- **Creation is unique and atomic.**  In the course of any run, a table is created if its name is
not empty, the configured format is supported, and no creation of that name has succeeded before.
If it is created, it is stored as its catalog begins it, one new handle caches it, and no other
table, handle or catalog changes.  If it is not, nothing changes at all.  Either way every planted
fault waits on.  At any later moment the names that exist, that can be loaded, and that have stored
metadata are those that were created until then. -/
theorem creation_unique_atomic {acts : List Action} (h : empty.Legal acts) {i : Nat}
    (hi : i < (empty.after acts).store.catalogs.length) (N : String) (schema : Schema) :
    let w := empty.after acts
    let config := (w.store.catalog i).config
    let r := w.create i N schema
    ((∃ id, r.1 = .ok id) ↔
      N ≠ "" ∧ (config.formatVersion = 1 ∨ config.formatVersion = 2) ∧ ¬ Created acts i N) ∧
    (∀ id, r.1 = .ok id → ∃ m, config.Begins N schema m ∧ w.Founds i N id m r.2) ∧
    (∀ e, r.1 = .error e → e.kind = .invalidArgument ∧ r.2 = w) ∧
    (∀ j, (r.2.store.catalog j).fault = (w.store.catalog j).fault) ∧
    ∀ more, empty.Legal (acts ++ .create i N schema :: more) → ∀ T,
      let later := acts ++ .create i N schema :: more
      let v := empty.after later
      ((v.store.catalog i).exists? T = true ↔ Created later i T) ∧
      ((∃ id, (v.load i T).1 = .ok id) ↔ Created later i T) ∧
      ((v.stored? i T).isSome = true ↔ Created later i T) := by
  intro w config r
  have hfree : (w.store.catalog i).refusal? N = none ↔ N ≠ "" ∧
      (config.formatVersion = 1 ∨ config.formatVersion = 2) ∧ ¬ Created acts i N := by
    rw [← isSome_stored?_after h, ← Catalog.Config.supports_iff, Option.not_isSome_iff_eq_none]
    exact Catalog.refusal?_eq_none_iff
  rw [← hfree]
  rcases create_cases hi schema with ⟨id, w', hcreate, hr, hfounds⟩ | ⟨why, hcreate, hr⟩
  · have hr' : r = (.ok id, w') := hcreate
    rw [hr']
    refine ⟨⟨fun _ => hr, fun _ => ⟨id, rfl⟩⟩, fun id' hid => ?_, fun e he => ?_, fun j => ?_,
      fun _ hmore T => names_after hmore i T⟩
    · obtain rfl : id = id' := Except.ok.inj hid
      exact ⟨_, Catalog.begins_firstMetadata _ N schema, hfounds⟩
    · cases he
    · rw [hfounds.store, Store.fault_put]
  · have hr' : r = (.error why.error, w) := hcreate
    rw [hr', hr]
    refine ⟨⟨fun ⟨id, hid⟩ => ?_, fun hno => ?_⟩, fun id hid => ?_, fun e he => ?_, fun _ => rfl,
      fun _ hmore T => names_after hmore i T⟩
    · cases hid
    · cases hno
    · cases hid
    · obtain rfl : why.error = e := Except.error.inj he
      exact ⟨rfl, rfl⟩

/-- a fault is planted when the second table is created, and when the first one is created again -/
theorem creation_unique_atomic_race :
    let w := empty.after race
    (∃ id m, (w.create 0 "events" .empty).1 = .ok id ∧ m.version = 0 ∧
      w.Founds 0 "events" id m (w.create 0 "events" .empty).2) ∧
    ((w.create 0 "events" .empty).2.store.catalog 0).fault = some .reject ∧
    (w.create 0 "orders" .empty).2 = w := by
  intro w
  have hi : 0 < w.store.catalogs.length := by decide +kernel
  have hfault : (w.store.catalog 0).fault = some .reject := by decide +kernel
  obtain ⟨hiff, hfounds, -, hkeeps, -⟩ := creation_unique_atomic legal_race hi "events" .empty
  obtain ⟨hiff', -, hnothing, -⟩ := creation_unique_atomic legal_race hi "orders" .empty
  have hnew : ¬ Created race 0 "events" := by
    rw [← isSome_stored?_after legal_race]
    decide +kernel
  have hold : Created race 0 "orders" := ⟨[.addCatalog default], _, _, ⟨_, rfl⟩, rfl⟩
  obtain ⟨id, hid⟩ := hiff.2 ⟨by decide, .inr rfl, hnew⟩
  obtain ⟨m, hm, hw⟩ := hfounds id hid
  refine ⟨⟨id, m, hid, hm.version, hw⟩, (hkeeps 0).trans hfault, ?_⟩
  cases hr : (w.create 0 "orders" .empty).1 with
  | ok id => exact absurd hold (hiff'.1 ⟨id, hr⟩).2.2
  | error e => exact (hnothing e hr).2

end World

end StagedTable
