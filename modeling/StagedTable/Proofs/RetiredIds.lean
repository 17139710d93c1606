import StagedTable.Proofs.ColumnIds
import StagedTable.Operations.Script
import StagedTable.Proofs.Exchanges

/-!
# The ids of deleted columns

The metadata that a schema change sends holds the highest id ever given out.  The change takes the
larger of two numbers for it: what the base has there, and the highest id of the schema that it
makes.  The highest id of the schema that it is made from is not looked at.

For a base whose own number is right, that is enough.  A number that lags behind the schema of the
base is another matter.  If the column of the highest id is deleted from such a base, and no column
is added, then its id is forgotten, and a later column gets it again (`Update.forgotten_id_reused`).

* `SchemaChanges.Forgets`       such changes, on such a base;
* `Update.retires_ids_iff`      these are the only ones.  With all others the number that is sent is
                                no lower than any id of the base, and later columns are numbered
                                above them all.
-/

namespace StagedTable

/-- no column of the schema has an id above the highest one ever given out -/
def Metadata.Covers (m : Metadata) (s : Schema) : Prop :=
  ∀ col ∈ s.columns, col.id ≤ m.lastColumnId

namespace SchemaChanges

/-- the changes take the highest id out of the base and leave no trace of it -/
structure Forgets (c : SchemaChanges) (base : Metadata) : Prop where
  lags : base.lastColumnId < base.schema.highestId
  deleted : ∀ col ∈ c.kept base.schema, col.id < base.schema.highestId
  /-- a column that is added has a higher id -/
  none_added : c.additions = []
  /-- where no column is left, 0 counts as the highest id -/
  positive : c.kept base.schema = [] → 0 < base.schema.highestId

variable {c : SchemaChanges} {base : Metadata} {s : Schema}

theorem columns_of_none_added (h : c.applyTo base = .ok s) (hadd : c.additions = []) :
    s.columns = c.kept base.schema := by
  obtain ⟨_, rfl⟩ := applyTo_eq_ok h
  rw [schema, hadd, number_nil, List.append_nil]

theorem lastId_lt_highestId (h : c.applyTo base = .ok s) (hadd : c.additions ≠ []) :
    lastId base < s.highestId := by
  obtain ⟨hnone, rfl⟩ := applyTo_eq_ok h
  obtain ⟨col, hcol⟩ : ∃ col, col ∈ number (lastId base).toInt c.additions := by
    obtain ⟨n, ns, hns⟩ := List.exists_cons_of_ne_nil hadd
    rw [hns]
    exact ⟨_, List.mem_cons_self⟩
  exact Int32.lt_of_lt_of_le (lastId_lt_of_mem_number hnone hcol)
    (Schema.le_highestId (List.mem_append_right _ hcol))

theorem forgets_iff (h : c.applyTo base = .ok s) :
    c.Forgets base ↔ max base.lastColumnId s.highestId < base.schema.highestId := by
  constructor
  · intro hf
    rcases max_eq_or base.lastColumnId s.highestId with hmax | hmax
    · rw [hmax]
      exact hf.lags
    · rw [hmax, Schema.highestId, columns_of_none_added h hf.none_added]
      exact Schema.highestIdOf_lt_iff.2 ⟨hf.deleted, hf.positive⟩
  · intro hlt
    have hs := Int32.lt_of_le_of_lt (right_le_max base.lastColumnId s.highestId) hlt
    have hadd : c.additions = [] := by
      by_contra hadd
      have hlast := Int32.lt_trans (lastId_lt_highestId h hadd) hs
      exact Int32.lt_irrefl (Int32.lt_of_le_of_lt (right_le_max _ _) hlast)
    rw [Schema.highestId, columns_of_none_added h hadd] at hs
    obtain ⟨hdeleted, hpositive⟩ := Schema.highestIdOf_lt_iff.1 hs
    exact ⟨Int32.lt_of_le_of_lt (left_le_max _ _) hlt, hdeleted, hadd, hpositive⟩

/-- the metadata that is sent covers the base, unless the changes forget an id -/
theorem covers_iff (h : c.applyTo base = .ok s) :
    (Kind.install .schema s base).Covers base.schema ↔ ¬ c.Forgets base := by
  constructor
  · intro hcov hf
    -- without columns the highest id of the base would be 0
    have hcols : base.schema.columns ≠ [] := by
      intro hnil
      have hzero := hf.positive (by rw [kept, hnil, List.filter_nil])
      rw [Schema.highestId, hnil] at hzero
      exact absurd hzero (by decide)
    obtain ⟨top, htop, hid⟩ := Schema.exists_id_eq_highestIdOf hcols
    have hle : top.id ≤ max base.lastColumnId s.highestId := hcov top htop
    rw [hid] at hle
    exact Int32.lt_irrefl (Int32.lt_of_le_of_lt hle ((forgets_iff h).1 hf))
  · intro hf col hcol
    have hle := Int32.not_lt.1 (mt (forgets_iff h).2 hf)
    exact Int32.le_trans (Schema.le_highestId hcol) hle

end SchemaChanges

namespace Update

variable {σ : Type}

/-- **Which schema changes retire the ids of their base.**  The metadata that is sent for a schema
that applies never has a lower number than the base, and covers the new schema.  It covers the
schema of the base if and only if the changes do not forget an id.  Where it does, no later schema
made from it gives a new column an id that the base had. -/
theorem retires_ids_iff (ops : Operations σ) {u : Update .schema} {h : Handle} {out : Schema}
    (ha : u.apply h.cache = .ok out) (r : Operations.Recorded σ) :
    ∃ new answer rest,
      ((u.commit ops.recorded h r).2.store.exchanges =
        r.exchanges ++ .commit h.cache new answer :: rest ∧
          ∀ x ∈ rest, ∃ read, x = .refresh read) ∧
      new.schema = out ∧ h.cache.lastColumnId ≤ new.lastColumnId ∧ new.Covers out ∧
      (new.Covers h.cache.schema ↔ ¬ u.changes.Forgets h.cache) ∧
      (new.Covers h.cache.schema →
        ∀ (later : Update .schema) (version : Nat) (next : Schema),
          later.apply { new with version } = .ok next →
            ∀ col ∈ next.columns, col ∈ out.columns ∨
              ∀ d ∈ h.cache.schema.columns, d.id < col.id) := by
  obtain ⟨rest, hcalls, hrest⟩ :=
    ops.callsOf_eq_cons h.cache (Kind.install .schema out h.cache) r.state
  refine ⟨Kind.install .schema out h.cache,
    (ops.commit h.cache (Kind.install .schema out h.cache) r.state).1, rest, ⟨?_, hrest⟩, rfl,
    left_le_max _ _, ?_, SchemaChanges.covers_iff (applyTo_of_apply ha), ?_⟩
  · show (u.send ops.recorded h r).store.exchanges = _
    rw [send_recorded, calls_of_ok ha, hcalls]
  · intro col hcol
    exact Int32.le_trans (Schema.le_highestId hcol) (right_le_max _ _)
  · intro hcov later version next hlater col hcol
    refine (SchemaChanges.column_of_applyTo (applyTo_of_apply hlater) hcol).imp_right ?_
    intro hid d hd
    exact Int32.lt_of_le_of_lt (Int32.le_trans (hcov d hd) (left_le_max _ _)) hid

/-- a table whose record of ids stops short of its one column -/
def lagging : Metadata :=
  { Metadata.fresh "memory://t" 2 ⟨0, [⟨2, "a", .long, false⟩]⟩ .empty with lastColumnId := 1 }

def dropA : Update .schema := (Update.new .schema).call (.delete "a")

def addB : Update .schema := (Update.new .schema).call (.add ⟨"b", .long, false⟩)

/-- with a column in place of the deleted one, the record is right again -/
theorem retires_ids_replaced : ∃ new answer rest,
    ((dropA.call (.add ⟨"b", .long, false⟩)).commit Script.operations.recorded ⟨"t", lagging⟩
      ⟨⟨lagging, [], []⟩, []⟩).2.store.exchanges = .commit lagging new answer :: rest ∧
    new.schema = ⟨1, [⟨3, "b", .long, false⟩]⟩ ∧ new.Covers lagging.schema := by
  have happly : (dropA.call (.add ⟨"b", .long, false⟩)).apply lagging =
      .ok ⟨1, [⟨3, "b", .long, false⟩]⟩ := by decide +kernel
  obtain ⟨new, answer, rest, ⟨hsent, _⟩, hschema, _, _, hcovers, _⟩ :=
    retires_ids_iff Script.operations (h := ⟨"t", lagging⟩) happly ⟨⟨lagging, [], []⟩, []⟩
  exact ⟨new, answer, rest, hsent, hschema, hcovers.2 fun hf => nomatch hf.none_added⟩

/-- the one column is deleted, and the next one gets its id -/
theorem forgotten_id_reused :
    let first := (dropA.commit Script.operations ⟨"t", lagging⟩ ⟨lagging, [], []⟩).2
    let second := (addB.commit Script.operations first.handle first.store).2
    lagging.schema.columns = [⟨2, "a", .long, false⟩] ∧
      first.handle.cache.schema.columns = [] ∧ first.handle.cache.lastColumnId = 1 ∧
      second.handle.cache.schema.columns = [⟨2, "b", .long, false⟩] := by
  decide +kernel

end Update

end StagedTable
