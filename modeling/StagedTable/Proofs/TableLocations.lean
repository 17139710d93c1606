import StagedTable.Proofs.LocationGrammar
import StagedTable.Proofs.Simulation

/-!
# Where tables are created

The location of a new table is its catalog's warehouse without trailing slashes, a slash, and the
table's name.  The warehouse is checked nowhere, but even if it is a location, the table's location
need not be one: what is left of a root has no separator, and one slash does not restore it.

* `Catalog.Config.accepts_tableLocation_iff`  which names have locations below a warehouse;
* `World.create_of_unrefused`   a table that is created is stored as its catalog begins it;
* `World.table_location_unless_root`  a table is created at a location, unless the warehouse is a
                                root;
* `World.table_below_root`      a table that is not created at a location.
-/

namespace StagedTable

open Location

namespace Location

theorem IsWord.append {a b : String} (ha : IsWord a) (hb : IsWord b) : IsWord (a ++ b) := by
  refine ⟨fun hempty => ha.1 (String.append_eq_empty_iff.1 hempty).1, fun c hc => ?_⟩
  rw [String.toList_append, List.mem_append] at hc
  exact hc.elim (ha.2 c) (hb.2 c)

theorem Reads.below {text scheme rest name : String} (h : Reads text scheme rest)
    (hname : IsWord name) : Reads (text ++ "/" ++ name) scheme (rest ++ ("/" ++ name)) := by
  have hslash : IsWord "/" := acceptsRest_iff.1 (by decide)
  refine ⟨?_, h.isScheme, h.isWord.append (hslash.append hname)⟩
  rw [h.text_eq]
  simp only [String.append_assoc]

/-- below a root one slash of the separator is missing, and the name has to bring it along -/
theorem accepts_below_scheme_iff {scheme name : String} (h : IsScheme scheme)
    (hname : IsWord name) :
    accepts (scheme ++ ":" ++ "/" ++ name) = true ↔ ∃ rest, rest ≠ "" ∧ name = "/" ++ rest := by
  constructor
  · intro ha
    rw [String.append_assoc, accepts_of_scheme h] at ha
    obtain ⟨rest, heq, hrest⟩ := acceptsAfterScheme_eq ha
    refine ⟨rest, hrest.1, ?_⟩
    rw [← String.toList_inj]
    simpa using heq
  · rintro ⟨rest, hne, rfl⟩
    have hrest : IsWord rest := ⟨hne, fun c hc => hname.2 c (by simp [hc])⟩
    have hreads : Reads (scheme ++ ":" ++ "/" ++ ("/" ++ rest)) scheme rest :=
      ⟨by simp [← String.toList_inj], h, hrest⟩
    exact hreads.accepts

end Location

namespace Catalog

/-- a name without white space has a location below a warehouse that is one, unless it is a root -/
theorem Config.accepts_tableLocation_iff {config : Config} (hw : accepts config.warehouse = true)
    {name : String} (hname : IsWord name) : accepts (config.tableLocation name) = true ↔
      (IsRoot config.warehouse → ∃ rest, rest ≠ "" ∧ name = "/" ++ rest) := by
  rw [tableLocation]
  by_cases hroot : IsRoot config.warehouse
  · obtain ⟨scheme, rest, hreads, hs⟩ := id hroot
    rw [hreads.dropTrailingSlashes_of_slashes hs, accepts_below_scheme_iff hreads.isScheme hname]
    exact ⟨fun h _ => h, fun h => h hroot⟩
  · obtain ⟨scheme, rest, hreads⟩ := reads_of_not_isRoot hw hroot
    exact ⟨fun _ h => absurd h hroot, fun _ => (hreads.below hname).accepts⟩

theorem refusal?_eq_none_iff {c : Catalog} {N : String} : c.refusal? N = none ↔
    N ≠ "" ∧ Config.supports c.config.formatVersion = true ∧ c.stored? N = none := by
  rw [refusal?]
  split
  · next h => simp [h]
  · next h =>
    split
    · next hf => simp [hf]
    · next hf =>
      split
      · next hs => simp [Option.ne_none_iff_isSome.2 hs]
      · next hs => simp_all

end Catalog

namespace World

variable {w : World} {i : Nat} {N : String}

theorem create_of_unrefused (hi : i < w.store.catalogs.length)
    (h : (w.store.catalog i).refusal? N = none) (schema : Schema) :
    ∃ id, (w.create i N schema).1 = .ok id ∧
      (w.create i N schema).2.stored? i N = some ((w.store.catalog i).firstMetadata N schema) := by
  have hborn := stored?_born_self hi N schema
  rw [create_eq hi, h]
  show ∃ id, ((w.born i N schema).attach _ N).1 = _ ∧ _
  rw [attach_table hborn]
  exact ⟨_, rfl, hborn⟩

theorem refusal?_of_created (hi : i < w.store.catalogs.length) {schema : Schema} {id : HandleId}
    (h : (w.create i N schema).1 = .ok id) : (w.store.catalog i).refusal? N = none := by
  rw [create_eq hi] at h
  split at h
  · cases h
  · next hr => exact hr

/-- **Tables are created at locations, unless their warehouse is a root.**  Let the warehouse of a
catalog be accepted as a location, and let a name be neither empty nor contain white space.  The
location of the table of that name is accepted as well, except if the warehouse is a root: then it
is accepted only for names that begin with a slash and go on after it.  It is stored with the table,
which is created if the catalog's format is supported and the name is not taken. -/
theorem table_location_unless_root (hi : i < w.store.catalogs.length) {config : Catalog.Config}
    (hconfig : (w.store.catalog i).config = config) (hw : accepts config.warehouse = true)
    {name : String} (hname : IsWord name) (schema : Schema) :
    (accepts (config.tableLocation name) = true ↔
      (IsRoot config.warehouse → ∃ rest, rest ≠ "" ∧ name = "/" ++ rest)) ∧
    (∀ id, (w.create i name schema).1 = .ok id →
      ∃ m, (w.create i name schema).2.stored? i name = some m ∧
        m.location = config.tableLocation name) ∧
    (Catalog.Config.supports config.formatVersion = true → w.stored? i name = none →
      ∃ id, (w.create i name schema).1 = .ok id) := by
  subst hconfig
  refine ⟨Catalog.Config.accepts_tableLocation_iff hw hname, fun id hid => ?_,
    fun hformat hfree => ?_⟩
  · obtain ⟨_, -, hstored⟩ := create_of_unrefused hi (refusal?_of_created hi hid) schema
    exact ⟨_, hstored, rfl⟩
  · have hr := Catalog.refusal?_eq_none_iff.2 ⟨hname.1, hformat, hfree⟩
    obtain ⟨id, hid, -⟩ := create_of_unrefused hi hr schema
    exact ⟨id, hid⟩

/-- a world with one catalog, and nothing in it -/
def withWarehouse (warehouse : String) : World :=
  (empty.addCatalog { Catalog.Config.standard with warehouse }).2

theorem table_location_unless_root_files :
    ¬ IsRoot "file:///tables/" ∧
    ∃ id m, ((withWarehouse "file:///tables/").create 0 "orders" .empty).1 = .ok id ∧
      ((withWarehouse "file:///tables/").create 0 "orders" .empty).2.stored? 0 "orders" = some m ∧
      m.location = "file:///tables/orders" ∧ accepts m.location = true := by
  have hwarehouse : accepts "file:///tables/" = true := by decide
  have hroot : ¬ IsRoot "file:///tables/" :=
    (accepts_dropTrailingSlashes_iff hwarehouse).1 (by decide)
  have hname : IsWord "orders" := acceptsRest_iff.1 (by decide)
  have hcatalog : 0 < (withWarehouse "file:///tables/").store.catalogs.length := by decide
  obtain ⟨haccepts, hstored, hcreated⟩ :=
    table_location_unless_root hcatalog rfl hwarehouse hname .empty
  obtain ⟨id, hid⟩ := hcreated rfl rfl
  obtain ⟨m, hm, hlocation⟩ := hstored id hid
  refine ⟨hroot, id, m, hid, hm, hlocation.trans (by decide), ?_⟩
  rw [hlocation]
  exact haccepts.2 fun h => absurd h hroot

/-- the warehouse is accepted, and the table is created below what is left of it -/
theorem table_below_root :
    accepts "file:///" = true ∧ IsWord "orders" ∧
    ∃ id m, ((withWarehouse "file:///").create 0 "orders" .empty).1 = .ok id ∧
      ((withWarehouse "file:///").create 0 "orders" .empty).2.stored? 0 "orders" = some m ∧
      m.location = "file:/orders" ∧ accepts m.location = false := by
  refine ⟨by decide, acceptsRest_iff.1 (by decide), ?_⟩
  have hr : ((withWarehouse "file:///").store.catalog 0).refusal? "orders" = none := by rfl
  obtain ⟨id, hid, hstored⟩ := create_of_unrefused (by decide) hr .empty
  exact ⟨id, _, hid, hstored, by decide, by decide⟩

end World

end StagedTable
