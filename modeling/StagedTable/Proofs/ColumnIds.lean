import StagedTable.Proofs.History

/-!
# No id is given out twice

Ids are chosen when a schema change is applied to a cache, and the cache may be old.  All the same,
in a table that nobody has committed raw metadata to, the id of a new column is above the id of
every column that the table ever had, and a schema id belongs to one schema
(`World.ids_never_reused`).

What carries this is the highest id ever given out, which is stored next to the schema: no update
takes it back, and it bounds the ids of the schema it stands beside.  The schema's own highest id
would not do, because it drops when columns are deleted.
-/

namespace StagedTable

/-! ## one schema change -/

namespace SchemaChanges

theorem applyTo_eq_ok {c : SchemaChanges} {base : Metadata} {s : Schema}
    (h : c.applyTo base = .ok s) : c.problems base = [] ∧ c.schema base = s := by
  rw [applyTo] at h
  split at h
  · next hnone => exact ⟨List.isEmpty_iff.1 hnone, Except.ok.inj h⟩
  · cases h

/-- changes that apply have enough ids left, for their columns and for the schema -/
theorem ids_left {c : SchemaChanges} {base : Metadata} (h : c.problems base = []) :
    (lastId base).toInt + c.additions.length ≤ maxId ∧ base.schema.id.toInt < maxId := by
  have hids : c.idProblems base = [] := (List.append_eq_nil_iff.1 h).2
  obtain ⟨hfit, hschema⟩ := List.append_eq_nil_iff.1 hids
  have hlast := toInt_le_maxId (lastId base)
  have hid := toInt_le_maxId base.schema.id
  constructor
  · by_cases hf : idsFit c.additions.length (lastId base) = true
    · simp only [idsFit, Bool.or_eq_true, beq_iff_eq, Bool.and_eq_true, decide_eq_true_eq] at hf
      omega
    · rw [if_neg hf] at hfit
      cases hfit
  · by_cases he : base.schema.id.toInt = maxId
    · rw [if_pos he] at hschema
      cases hschema
    · omega

theorem lt_id_of_mem_number {last : Int} {ns : List NewColumn} (hlow : -maxId ≤ last + 1)
    (hfit : last + ns.length ≤ maxId) {col : Column} (h : col ∈ number last ns) :
    last < col.id.toInt := by
  induction ns generalizing last with
  | nil => cases h
  | cons n ns ih =>
    rw [List.length_cons] at hfit
    rw [maxId] at hlow hfit ih
    rcases List.mem_cons.1 h with rfl | h
    · show last < (Int32.ofInt (last + 1)).toInt
      rw [Int32.toInt_ofInt_of_le (by omega) (by omega)]
      omega
    · have hnext := ih (by omega) (by omega) h
      omega

variable {c : SchemaChanges} {base : Metadata} {s : Schema}

/-- the columns that changes add are numbered above every id of the base -/
theorem lastId_lt_of_mem_number (h : c.problems base = []) {col : Column}
    (hcol : col ∈ number (lastId base).toInt c.additions) : lastId base < col.id := by
  obtain ⟨hfit, _⟩ := ids_left h
  refine Int32.lt_iff_toInt_lt.2 (lt_id_of_mem_number ?_ hfit hcol)
  have hlow := Int32.le_toInt (lastId base)
  rw [maxId]
  omega

theorem column_of_applyTo (h : c.applyTo base = .ok s) {col : Column} (hcol : col ∈ s.columns) :
    col ∈ base.schema.columns ∨ lastId base < col.id := by
  obtain ⟨hnone, rfl⟩ := applyTo_eq_ok h
  rcases List.mem_append.1 hcol with hkept | hnew
  · exact .inl (List.mem_filter.1 hkept).1
  · exact .inr (lastId_lt_of_mem_number hnone hnew)

theorem id_of_applyTo (h : c.applyTo base = .ok s) : base.schema.id < s.id := by
  obtain ⟨hnone, rfl⟩ := applyTo_eq_ok h
  obtain ⟨_, hid⟩ := ids_left hnone
  have hlow := Int32.le_toInt base.schema.id
  rw [maxId] at hid
  show base.schema.id < Int32.ofInt (base.schema.id.toInt + 1)
  rw [Int32.lt_iff_toInt_lt, Int32.toInt_ofInt_of_le (by omega) (by omega)]
  omega

end SchemaChanges

/-! ## one update -/

namespace Metadata

/-- no column has an id above the highest one ever given out -/
def Recorded (m : Metadata) : Prop := ∀ col ∈ m.schema.columns, col.id ≤ m.lastColumnId

/-- between an earlier and a later record of a table -/
structure Grown (m m' : Metadata) : Prop where
  last : m.lastColumnId ≤ m'.lastColumnId
  schema : m.schema = m'.schema ∨ m.schema.id < m'.schema.id

theorem Grown.refl (m : Metadata) : m.Grown m := ⟨Int32.le_refl _, .inl rfl⟩

theorem Grown.trans {m₁ m₂ m₃ : Metadata} (h : m₁.Grown m₂) (h' : m₂.Grown m₃) : m₁.Grown m₃ := by
  refine ⟨Int32.le_trans h.last h'.last, ?_⟩
  rcases h.schema with hs | hs
  · rw [hs]
    exact h'.schema
  · rcases h'.schema with hs' | hs'
    · rw [← hs']
      exact .inr hs
    · exact .inr (Int32.lt_trans hs hs')

end Metadata

theorem Catalog.recorded_firstMetadata (c : Catalog) (table : String) (schema : Schema) :
    (c.firstMetadata table schema).Recorded :=
  fun _ hcol => Schema.le_highestId hcol

namespace Change

variable {k : Kind} {changes : k.Changes} {m m' : Metadata}

/-- an update leaves the schema and the record of ids alone, or it is a schema change -/
theorem schema_of_on (h : (update k changes).on m = some m') :
    (m'.schema = m.schema ∧ m'.lastColumnId = m.lastColumnId) ∨
      ∃ c : SchemaChanges, c.applyTo m = .ok m'.schema ∧
        m'.lastColumnId = max m.lastColumnId m'.schema.highestId := by
  obtain ⟨out, ha, rfl⟩ := on_update_eq_some h
  cases k with
  | properties => exact .inl ⟨rfl, rfl⟩
  | location => exact .inl ⟨rfl, rfl⟩
  | schema => exact .inr ⟨changes, ha, rfl⟩
  | snapshot => exact .inl ⟨rfl, rfl⟩

theorem recorded_of_on (h : (update k changes).on m = some m') (hm : m.Recorded) :
    m'.Recorded := by
  intro col hcol
  rcases schema_of_on h with ⟨hschema, hlast⟩ | ⟨c, _, hlast⟩
  · rw [hschema] at hcol
    rw [hlast]
    exact hm col hcol
  · rw [hlast]
    exact Int32.le_trans (Schema.le_highestId hcol) (right_le_max _ _)

theorem grown_of_on (h : (update k changes).on m = some m') : m.Grown m' := by
  rcases schema_of_on h with ⟨hschema, hlast⟩ | ⟨c, happly, hlast⟩
  · exact ⟨by rw [hlast]; exact Int32.le_refl _, .inl hschema.symm⟩
  · refine ⟨?_, .inr (SchemaChanges.id_of_applyTo happly)⟩
    rw [hlast]
    exact left_le_max _ _

/-- a column that an update brings in has an id that was not given out before -/
theorem column_of_on (h : (update k changes).on m = some m') {col : Column}
    (hcol : col ∈ m'.schema.columns) : col ∈ m.schema.columns ∨ m.lastColumnId < col.id := by
  rcases schema_of_on h with ⟨hschema, _⟩ | ⟨c, happly, _⟩
  · rw [hschema] at hcol
    exact .inl hcol
  · refine (SchemaChanges.column_of_applyTo happly hcol).imp_right fun hid => ?_
    exact Int32.lt_of_le_of_lt (left_le_max _ _) hid

end Change

/-! ## all updates of a run -/

namespace World

/-- **Ids are never given out twice.**  In a run that lands no raw metadata under a name, a column
of the next version is a column of the version before, or its id is above those of all columns of
all versions so far; the highest id given out never decreases, and no earlier or present column is
above it; and one schema id stands for one schema. -/
theorem ids_never_reused {acts : List Action} (h : empty.Legal acts) {i : Nat} {N : String}
    (hraw : ∀ new, Change.replace new ∉ empty.landings i N acts) :
    (∀ m m', StoredIn acts i N m → StoredIn acts i N m' → m'.version = m.version + 1 →
      ∀ col ∈ m'.schema.columns, col ∈ m.schema.columns ∨
        ∀ old, StoredIn acts i N old → old.version ≤ m.version →
          ∀ d ∈ old.schema.columns, d.id < col.id) ∧
    (∀ m m', StoredIn acts i N m → StoredIn acts i N m' → m.version ≤ m'.version →
      m.lastColumnId ≤ m'.lastColumnId ∧ ∀ d ∈ m.schema.columns, d.id ≤ m'.lastColumnId) ∧
    ∀ m m', StoredIn acts i N m → StoredIn acts i N m' →
      m.schema.id = m'.schema.id → m.schema = m'.schema := by
  have hrecorded : ∀ m, StoredIn acts i N m → m.Recorded := by
    intro m hm
    refine storedIn_of_origin h (fun c s => c.recorded_firstMetadata N s) ?_ hm
    rintro (⟨k, changes⟩ | new) hc cur m' hcur hon
    · exact Change.recorded_of_on hon hcur
    · exact absurd hc (hraw new)
  have hgrown : ∀ m m', StoredIn acts i N m → StoredIn acts i N m' → m.version ≤ m'.version →
      m.Grown m' := by
    intro m m' hm hm' hv
    refine storedIn_related h Metadata.Grown.refl Metadata.Grown.trans ?_ hm hm' hv
    rintro (⟨k, changes⟩ | new) hc cur m' _ hon
    · exact Change.grown_of_on hon
    · exact absurd hc (hraw new)
  have hbound : ∀ m m', StoredIn acts i N m → StoredIn acts i N m' → m.version ≤ m'.version →
      ∀ d ∈ m.schema.columns, d.id ≤ m'.lastColumnId := fun m m' hm hm' hv d hd =>
    Int32.le_trans (hrecorded m hm d hd) (hgrown m m' hm hm' hv).last
  refine ⟨?_, fun m m' hm hm' hv => ⟨(hgrown m m' hm hm' hv).last, hbound m m' hm hm' hv⟩, ?_⟩
  · intro m m' hm hm' hv col hcol
    obtain ⟨⟨k, changes⟩ | new, hc, hon⟩ := landed_between h hm hm' hv
    · refine (Change.column_of_on hon hcol).imp_right fun hnew old hold hle d hd => ?_
      exact Int32.lt_of_le_of_lt (hbound old m hold hm hle d hd) hnew
    · exact absurd hc (hraw new)
  · -- of two schemas with one id, the earlier cannot have a lower id than the later
    have hsame : ∀ m m', StoredIn acts i N m → StoredIn acts i N m' → m.version ≤ m'.version →
        m.schema.id = m'.schema.id → m.schema = m'.schema := by
      intro m m' hm hm' hv hid
      refine (hgrown m m' hm hm' hv).schema.resolve_right fun hlt => ?_
      rw [hid] at hlt
      exact Int32.lt_irrefl hlt
    intro m m' hm hm' hid
    rcases Nat.le_total m.version m'.version with hv | hv
    · exact hsame m m' hm hm' hv hid
    · exact (hsame m' m hm' hm hv hid.symm).symm

/-- a column is deleted, and then a column of that name is added -/
def rework : List Action :=
  openOrders ++ [.commit ⟨orders 0, .schema, (Update.new .schema).call (.delete "id")⟩,
    .commit ⟨orders 0, .schema, (Update.new .schema).call (.add ⟨"id", .long, false⟩)⟩]

theorem ids_never_reused_rework : ∃ m, (empty.after rework).stored? 0 "orders" = some m ∧
    m.schema = ⟨2, [⟨2, "id", .long, false⟩]⟩ ∧
    ∀ old, StoredIn rework 0 "orders" old → old.version ≤ 1 →
      ∀ d ∈ old.schema.columns, d.id < 2 := by
  have h : empty.Legal rework := by decide +kernel
  have hraw : ∀ new, Change.replace new ∉ empty.landings 0 "orders" rework := by
    rintro new (_ | ⟨_, _ | ⟨_, hnil⟩⟩)
    cases hnil
  obtain ⟨hfresh, _⟩ := ids_never_reused h hraw
  have hold : StoredIn rework 0 "orders" _ := ⟨rework.take 3, List.take_prefix 3 _, rfl⟩
  have hnow : StoredIn rework 0 "orders" _ := .of_now rfl
  refine ⟨_, rfl, rfl, ?_⟩
  have hadded := hfresh _ _ hold hnow rfl ⟨2, "id", .long, false⟩ (List.mem_singleton_self _)
  exact hadded.resolve_left fun hgone => nomatch hgone

end World

end StagedTable
