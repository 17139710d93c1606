import StagedTable.Proofs.ColumnIds
import StagedTable.Proofs.StagedColumns

/-!
# What a schema change comes to

The preview of a schema change reads a list of staged columns, a list of names to delete, and a base
whose ids may be anything.  If there is one, then it is this (`Update.preview_schema`): the columns
of the base that are not deleted, as they are, and then the staged columns, numbered one by one
after the highest id that the base knows of.

* `Metadata.highestGiven`   that id, as an integer;
* `SchemaChanges.Numbered`  a column is a staged one under an id.

The ids are words of 32 bits, and `number` would wrap around.  What keeps it from that is a problem
that is looked for before (`ids_left`).
-/

namespace StagedTable

/-! ## the highest id of a base -/

theorem toInt_max (a b : Int32) : (max a b).toInt = max a.toInt b.toInt := by
  have ha := Int32.le_iff_toInt_le.1 (left_le_max a b)
  have hb := Int32.le_iff_toInt_le.1 (right_le_max a b)
  rcases max_eq_or a b with h | h
  · rw [h] at hb ⊢
    omega
  · rw [h] at ha ⊢
    omega

theorem Schema.toInt_highestId (s : Schema) :
    s.highestId.toInt = (s.columns.map (·.id.toInt)).max?.getD 0 := by
  by_cases hnone : s.columns = []
  · rw [highestId, hnone]
    rfl
  · obtain ⟨top, htop, hid⟩ := exists_id_eq_highestIdOf hnone
    have hmax : (s.columns.map (·.id.toInt)).max? = some s.highestId.toInt := by
      refine List.max?_eq_some_iff.2 ⟨List.mem_map.2 ⟨top, htop, congrArg Int32.toInt hid⟩, ?_⟩
      intro id hmem
      obtain ⟨col, hcol, rfl⟩ := List.mem_map.1 hmem
      exact Int32.le_iff_toInt_le.1 (le_highestId hcol)
    rw [hmax]
    rfl

/-- the highest id that the base knows of; the schema counts as 0 if it has no columns -/
def Metadata.highestGiven (base : Metadata) : Int :=
  max base.lastColumnId.toInt ((base.schema.columns.map (·.id.toInt)).max?.getD 0)

namespace SchemaChanges

theorem toInt_lastId (base : Metadata) : (lastId base).toInt = base.highestGiven := by
  rw [lastId, toInt_max, Schema.toInt_highestId]
  rfl

/-! ## new columns -/

/-- the column is the staged one, under that id -/
structure Numbered (id : Int) (n : NewColumn) (col : Column) : Prop where
  id : col.id.toInt = id
  name : col.name = n.name
  type : col.type = n.type
  required : col.required = n.required

theorem numbered_of_getElem? {last : Int} {ns : List NewColumn} (hlow : -maxId ≤ last + 1)
    (hfit : last + ns.length ≤ maxId) {k : Nat} {n : NewColumn} (hk : ns[k]? = some n) :
    ∃ col, (number last ns)[k]? = some col ∧ Numbered (last + (k + 1 : Nat)) n col := by
  -- each column counts on from the one before it
  induction ns generalizing last k with
  | nil => cases hk
  | cons n' ns ih =>
    rw [List.length_cons] at hfit
    rw [maxId] at hlow hfit ih
    cases k with
    | zero =>
      obtain rfl : n' = n := Option.some.inj hk
      refine ⟨_, rfl, ?_, rfl, rfl, rfl⟩
      show (Int32.ofInt (last + 1)).toInt = _
      rw [Int32.toInt_ofInt_of_le (by omega) (by omega)]
      omega
    | succ k =>
      obtain ⟨col, hcol, hnumbered⟩ : ∃ col, (number (last + 1) ns)[k]? = some col ∧
          Numbered (last + 1 + (k + 1 : Nat)) n col := ih (by omega) (by omega) hk
      refine ⟨col, hcol, ?_⟩
      have hid : last + (k + 1 + 1 : Nat) = last + 1 + (k + 1 : Nat) := by omega
      rw [hid]
      exact hnumbered

theorem toInt_id_schema {c : SchemaChanges} {base : Metadata} (h : c.problems base = []) :
    (c.schema base).id.toInt = base.schema.id.toInt + 1 := by
  have hlow := Int32.le_toInt base.schema.id
  have hid := (ids_left h).2
  rw [maxId] at hid
  exact Int32.toInt_ofInt_of_le (by omega) (by omega)

theorem kept_eq (c : SchemaChanges) (s : Schema) :
    c.kept s = s.columns.filter fun col => col.name ∉ c.deletions := by
  simp [kept, List.contains_eq_mem]

end SchemaChanges

/-! ## the preview -/

namespace Update

open SchemaChanges

/-- **What a preview of a schema change holds.**  The schema gets the next id.  Its columns are
those of the base that are not deleted, unchanged and in their order, and after them the columns
that were staged, in the order of staging.  The new columns are numbered without a gap after the highest
id that the base knows of, so each has an id above all that the base has and has given out; and no
number leaves the range of ids. -/
theorem preview_schema (es : List (Edit .schema)) {base : Metadata} {s : Schema}
    (h : ((new .schema).edits es).apply base = .ok s) :
    s.id.toInt = base.schema.id.toInt + 1 ∧
    (∃ added, s.columns =
        (base.schema.columns.filter fun col => col.name ∉ (ofEdits es).deletions) ++ added ∧
      added.length = (ofEdits es).additions.length ∧
      (∀ k n, (ofEdits es).additions[k]? = some n →
        ∃ col, added[k]? = some col ∧ Numbered (base.highestGiven + (k + 1 : Nat)) n col) ∧
      ∀ col ∈ added, base.lastColumnId < col.id ∧
        ∀ old ∈ base.schema.columns, old.id < col.id) ∧
    base.schema.id.toInt + 1 ≤ maxId ∧
    base.highestGiven + (ofEdits es).additions.length ≤ maxId := by
  have happly := applyTo_of_apply h
  rw [changes_edits] at happly
  obtain ⟨hnone, rfl⟩ := applyTo_eq_ok happly
  obtain ⟨hcolumns, hschema⟩ := ids_left hnone
  rw [toInt_lastId] at hcolumns
  refine ⟨toInt_id_schema hnone, ⟨number base.highestGiven (ofEdits es).additions, ?_, ?_, ?_, ?_⟩,
    by omega, hcolumns⟩
  · show kept _ _ ++ number _ _ = _
    rw [kept_eq, toInt_lastId]
  · exact number_length _ _
  · intro k n hk
    have hlow := Int32.le_toInt (lastId base)
    rw [toInt_lastId] at hlow
    exact numbered_of_getElem? (by rw [maxId]; omega) hcolumns hk
  · intro col hcol
    rw [← toInt_lastId] at hcol
    have hlast := lastId_lt_of_mem_number hnone hcol
    refine ⟨Int32.lt_of_le_of_lt (left_le_max _ _) hlast, ?_⟩
    intro old hold
    exact Int32.lt_of_le_of_lt
      (Int32.le_trans (Schema.le_highestId hold) (right_le_max _ _)) hlast

/-- two columns of one name, an id below 0, and a record that stops short of the ids in use -/
def untidy : Metadata :=
  { Metadata.fresh "memory://t" 2
      ⟨7, [⟨5, "a", .long, true⟩, ⟨4, "b", .int, false⟩, ⟨-3, "a", .date, false⟩]⟩ .empty with
    lastColumnId := 2 }

/-- `a` is deleted and staged again; calls that are not accepted come in between -/
def tidyUp : List (Edit .schema) :=
  [.call (.add ⟨"", .int, false⟩), .call (.add ⟨"a", .string, false⟩), .call (.delete "a"),
    .call (.add ⟨"c", .double, false⟩), .call (.add ⟨"a", .long, true⟩), .call (.delete "a"),
    .clear]

theorem preview_schema_tidyUp : ∃ s, ((new .schema).edits tidyUp).apply untidy = .ok s ∧
    s = ⟨8, [⟨4, "b", .int, false⟩, ⟨6, "a", .string, false⟩, ⟨7, "c", .double, false⟩]⟩ ∧
    untidy.highestGiven = 5 ∧ s.id.toInt = untidy.schema.id.toInt + 1 ∧
    untidy.highestGiven + (ofEdits tidyUp).additions.length ≤ maxId := by
  have h : ((new .schema).edits tidyUp).apply untidy =
      .ok ⟨8, [⟨4, "b", .int, false⟩, ⟨6, "a", .string, false⟩, ⟨7, "c", .double, false⟩]⟩ := by
    decide +kernel
  obtain ⟨hid, _, _, hfit⟩ := preview_schema tidyUp h
  exact ⟨_, h, rfl, by decide +kernel, hid, hfit⟩

end Update

end StagedTable
