import Mathlib.Data.List.Nodup
import StagedTable.Proofs.SchemaReport

/-!
# Well-formed schemas

A schema is well-formed if its columns have ids and names of their own, and no name is empty.  A
table that starts out with such a schema keeps to it, as long as it is changed by staged updates
only.

* `Schema.WellFormed.column?_of_mem`     then a name leads to the one column that has it;
* `SchemaChanges.wellFormed_of_applyTo`  a schema change keeps a schema well-formed;
* `World.schemas_stay_well_formed`       and so does a run.

Names are kept apart in three places: while staging, by comparing the staged names with each other;
in the check, by comparing them with the names of the base, except for those that are deleted; and
in the result, where the columns of those names are left out.  Ids are kept apart by counting on.
-/

namespace StagedTable

/-- ids and names of columns are distinct, and no name is empty -/
structure Schema.WellFormed (s : Schema) : Prop where
  ids : (s.columns.map (·.id)).Nodup
  names : (s.columns.map (·.name)).Nodup
  named : ∀ col ∈ s.columns, col.name ≠ ""

namespace Schema.WellFormed

variable {s : Schema} (h : s.WellFormed)
include h

theorem eq_of_name_eq {col other : Column} (hcol : col ∈ s.columns) (hother : other ∈ s.columns)
    (hname : col.name = other.name) : col = other :=
  List.inj_on_of_nodup_map h.names hcol hother hname

/-- a name that is present leads to the one column that has it -/
theorem column?_of_mem {col : Column} (hcol : col ∈ s.columns) :
    s.column? col.name = some col := by
  obtain ⟨found, hfound⟩ := Option.isSome_iff_exists.1
    ((s.column?_isSome_iff_exists col.name).2 ⟨col, hcol, rfl⟩)
  have hname : found.name = col.name := by simpa using List.find?_some hfound
  rw [hfound, h.eq_of_name_eq (List.mem_of_find?_eq_some hfound) hcol hname]

end Schema.WellFormed

/-! ## one schema change -/

namespace SchemaChanges

theorem names_number (last : Int) (ns : List NewColumn) :
    (number last ns).map (·.name) = ns.map (·.name) := by
  induction ns generalizing last with
  | nil => rfl
  | cons n ns ih => rw [number, List.map_cons, List.map_cons, ih]

theorem nodup_ids_number {last : Int} {ns : List NewColumn} (hlow : -maxId ≤ last + 1)
    (hfit : last + ns.length ≤ maxId) : ((number last ns).map (·.id)).Nodup := by
  induction ns generalizing last with
  | nil => exact List.nodup_nil
  | cons n ns ih =>
    rw [List.length_cons] at hfit
    rw [number, List.map_cons, List.nodup_cons]
    rw [maxId] at hlow hfit
    refine ⟨?_, ih (by rw [maxId]; omega) (by rw [maxId]; omega)⟩
    intro hmem
    obtain ⟨col, hcol, hid⟩ := List.mem_map.1 hmem
    have hlater := lt_id_of_mem_number (by rw [maxId]; omega) (by rw [maxId]; omega) hcol
    rw [hid, Int32.toInt_ofInt_of_le (by omega) (by omega)] at hlater
    exact Int.lt_irrefl _ hlater

section
variable {c : SchemaChanges} {base : Metadata}

theorem kept_sublist (c : SchemaChanges) (s : Schema) : (c.kept s).Sublist s.columns :=
  List.filter_sublist

theorem nodup_ids (hnone : c.problems base = []) (hbase : base.schema.WellFormed) :
    ((c.schema base).columns.map (·.id)).Nodup := by
  have hlow := Int32.le_toInt (lastId base)
  have hnew : ((number (lastId base).toInt c.additions).map (·.id)).Nodup :=
    nodup_ids_number (by rw [maxId]; omega) (ids_left hnone).1
  rw [schema, List.map_append, List.nodup_append]
  refine ⟨hbase.ids.sublist ((c.kept_sublist _).map _), hnew, ?_⟩
  intro id hid id' hid' heq
  obtain ⟨col, hcol, rfl⟩ := List.mem_map.1 hid
  obtain ⟨col', hcol', rfl⟩ := List.mem_map.1 hid'
  -- what is kept has an id of the base, and what is new has a higher one
  have hle := Schema.le_highestId ((c.kept_sublist _).subset hcol)
  have hlt := lastId_lt_of_mem_number hnone hcol'
  rw [← heq] at hlt
  exact Int32.lt_irrefl (Int32.lt_of_le_of_lt (Int32.le_trans hle (right_le_max _ _)) hlt)

/-- a name of the base that is staged for a new column is staged for deletion too -/
theorem name_not_mem_additions (hnone : c.problems base = []) {col : Column}
    (hcol : col ∈ c.kept base.schema) : col.name ∉ c.additions.map (·.name) := by
  rw [kept_eq] at hcol
  obtain ⟨hbase, hkept⟩ := List.mem_filter.1 hcol
  intro hmem
  obtain ⟨n, hn, hname⟩ := List.mem_map.1 hmem
  have hproblem : .nameTaken n.name ∈ c.problems base :=
    mem_problems.2 (.nameTaken hn ⟨col, hbase, hname.symm⟩ (hname ▸ of_decide_eq_true hkept))
  rw [hnone] at hproblem
  cases hproblem

theorem nodup_names (hnone : c.problems base = []) (hadd : (c.additions.map (·.name)).Nodup)
    (hbase : base.schema.WellFormed) : ((c.schema base).columns.map (·.name)).Nodup := by
  rw [schema, List.map_append, names_number, List.nodup_append]
  refine ⟨hbase.names.sublist ((c.kept_sublist _).map _), hadd, ?_⟩
  intro name hname name' hname' heq
  obtain ⟨col, hcol, rfl⟩ := List.mem_map.1 hname
  rw [← heq] at hname'
  exact name_not_mem_additions hnone hcol hname'

/-- staged changes keep a schema well-formed -/
theorem wellFormed_of_applyTo (hstaged : Kind.schema.Staged c) {s : Schema}
    (h : c.applyTo base = .ok s) (hbase : base.schema.WellFormed) : s.WellFormed := by
  obtain ⟨es, rfl⟩ := hstaged
  rw [changes_edits] at h
  obtain ⟨hnone, rfl⟩ := applyTo_eq_ok h
  refine ⟨nodup_ids hnone hbase, nodup_names hnone (nodup_additions es) hbase, ?_⟩
  intro col hcol
  rcases List.mem_append.1 hcol with hkept | hnew
  · exact hbase.named col ((kept_sublist _ _).subset hkept)
  · have hname := List.mem_map_of_mem (f := (·.name)) hnew
    rw [names_number] at hname
    obtain ⟨n, hn, hn'⟩ := List.mem_map.1 hname
    rw [← hn']
    exact name_ne_of_mem_additions es hn

end

end SchemaChanges

/-- a staged change keeps the schema well-formed -/
theorem Change.Staged.wellFormed_of_on {c : Change} (hs : c.Staged) {m m' : Metadata}
    (h : c.on m = some m') (hm : m.schema.WellFormed) : m'.schema.WellFormed := by
  cases c with
  | replace new => exact hs.elim
  | update k changes =>
    obtain ⟨out, happly, rfl⟩ := on_update_eq_some h
    cases k with
    | schema => exact SchemaChanges.wellFormed_of_applyTo hs happly hm
    | properties => exact hm
    | location => exact hm
    | snapshot => exact hm

/-! ## a run -/

namespace World

/-- **Schemas stay well-formed.**  Let a table be created with a well-formed schema, and be changed
by staged updates only.  Then every schema that it ever has is well-formed, and in it the name of a
column leads to that column and to no other. -/
theorem schemas_stay_well_formed {acts : List Action} (h : empty.Legal acts) {i : Nat}
    {N : String} (hfirst : ∀ first ∈ empty.births i N acts, first.schema.WellFormed)
    (hstaged : ∀ c ∈ empty.landings i N acts, c.Staged) {m : Metadata} (hm : StoredIn acts i N m) :
    m.schema.WellFormed ∧
      ∀ col ∈ m.schema.columns, m.schema.column? col.name = some col ∧
        ∀ other ∈ m.schema.columns, other.name = col.name → other = col := by
  have hwell : m.schema.WellFormed := by
    refine storedIn_of_births h hfirst ?_ hm
    intro c hc cur m' hcur hon
    exact (hstaged c hc).wellFormed_of_on hon hcur
  refine ⟨hwell, fun col hcol => ⟨hwell.column?_of_mem hcol, ?_⟩⟩
  intro other hother hname
  exact hwell.eq_of_name_eq hother hcol hname

/-- puts a new column of the same name in the place of the old one -/
def replaceId : Update .schema :=
  (Update.new .schema).edits [.call (.delete "id"), .call (.add ⟨"id", .string, false⟩),
    .call (.add ⟨"id", .date, false⟩), .clear]

/-- the column is replaced twice; the second time it takes a refresh first -/
def renewal : List Action :=
  openOrders ++ [.load 0 "orders", .commit ⟨orders 0, .schema, replaceId⟩,
    .commit ⟨orders 1, .schema, replaceId⟩, .refresh (orders 1),
    .commit ⟨orders 1, .schema, replaceId⟩]

theorem schemas_stay_well_formed_renewal : ∃ m, StoredIn renewal 0 "orders" m ∧
    m.schema = ⟨2, [⟨3, "id", .string, false⟩]⟩ ∧ m.schema.WellFormed := by
  have h : empty.Legal renewal := by decide +kernel
  have hfirst : ∀ first ∈ empty.births 0 "orders" renewal, first.schema.WellFormed := by
    have hbirths : empty.births 0 "orders" renewal =
        [(Catalog.new default).firstMetadata "orders" ⟨0, [⟨1, "id", .long, true⟩]⟩] := rfl
    rw [hbirths, List.forall_mem_singleton]
    exact ⟨List.nodup_singleton _, List.nodup_singleton _, by decide +kernel⟩
  have hstaged : ∀ c ∈ empty.landings 0 "orders" renewal, c.Staged := by
    have hlandings : empty.landings 0 "orders" renewal =
        [.update .schema replaceId.changes, .update .schema replaceId.changes] := rfl
    rw [hlandings]
    simp only [List.forall_mem_cons, List.not_mem_nil, false_imp_iff, implies_true, and_true]
    exact ⟨⟨_, rfl⟩, ⟨_, rfl⟩⟩
  have hm : StoredIn renewal 0 "orders" _ := .of_now rfl
  exact ⟨_, hm, by decide +kernel, (schemas_stay_well_formed h hfirst hstaged hm).1⟩

end World

end StagedTable
