import StagedTable.Proofs.SchemaPreview

/-!
# What the check of a schema change reports

The check looks for five kinds of problems, in two lists of staged changes and in a base, and
reports all that it finds at once.  Here the problems are described one by one, each by what is
wrong (`SchemaChanges.Violation`) and by where it belongs in the report (`SchemaChanges.place`).

* `SchemaChanges.mem_problems`      the problems that are found are those that are there;
* `SchemaChanges.problems_ordered`  each is found once, and in its place;
* `Update.schema_report`            so the report has a line for each, in that order, and no other.

That no problem is found twice rests on staging: no name is staged twice in one list.
-/

namespace StagedTable

/-- the entries of a list without repetitions stand in the order of their positions -/
theorem pairwise_idxOf_lt {α : Type} [DecidableEq α] {l : List α} (h : l.Nodup) :
    l.Pairwise fun a b => l.idxOf a < l.idxOf b := by
  refine List.pairwise_iff_getElem.2 ?_
  intro i j hi hj hij
  rw [h.idxOf_getElem i hi, h.idxOf_getElem j hj]
  exact hij

theorem Schema.column?_eq_none_iff (s : Schema) (name : String) :
    s.column? name = none ↔ ∀ col ∈ s.columns, col.name ≠ name := by
  simp [column?]

theorem Schema.column?_isSome_iff_exists (s : Schema) (name : String) :
    (s.column? name).isSome = true ↔ ∃ col ∈ s.columns, col.name = name := by
  simp [column?]

namespace SchemaChanges

/-- something that is wrong with staged changes for a base -/
inductive Violation (c : SchemaChanges) (base : Metadata) : SchemaProblem → Prop
  | missingColumn {name : String} : name ∈ c.deletions →
      (∀ col ∈ base.schema.columns, col.name ≠ name) → Violation c base (.missingColumn name)
  | nameTaken {n : NewColumn} : n ∈ c.additions →
      (∃ col ∈ base.schema.columns, col.name = n.name) → n.name ∉ c.deletions →
      Violation c base (.nameTaken n.name)
  | requiredColumn {n : NewColumn} : n ∈ c.additions → n.required = true →
      c.allowIncompatible = false → Violation c base (.requiredColumn n.name)
  | columnIds : c.additions ≠ [] →
      maxId < c.additions.length ∨ maxId < base.highestGiven + c.additions.length →
      Violation c base (.columnIdsExhausted c.additions.length (lastId base))
  | schemaIds : base.schema.id.toInt = maxId →
      Violation c base (.schemaIdsExhausted base.schema.id)

/-- where a problem stands in the report: by staged deletion, then by staged column with two places
for each, then the ids of columns and of the schema -/
def place (c : SchemaChanges) : SchemaProblem → Nat
  | .missingColumn name => c.deletions.idxOf name
  | .nameTaken name => c.deletions.length + 2 * (c.additions.map (·.name)).idxOf name
  | .requiredColumn name => c.deletions.length + 2 * (c.additions.map (·.name)).idxOf name + 1
  | .columnIdsExhausted _ _ => c.deletions.length + 2 * c.additions.length
  | .schemaIdsExhausted _ => c.deletions.length + 2 * c.additions.length + 1

/-! ## which problems are found -/

section
variable {c : SchemaChanges} {base : Metadata} {p : SchemaProblem}

theorem mem_deletionProblems {s : Schema} : p ∈ c.deletionProblems s ↔
    ∃ name ∈ c.deletions, (∀ col ∈ s.columns, col.name ≠ name) ∧ p = .missingColumn name := by
  simp only [deletionProblems, List.mem_map, List.mem_filter, Option.isNone_iff_eq_none,
    Schema.column?_eq_none_iff, and_assoc, @eq_comm _ p]

theorem mem_additionProblems {s : Schema} {n : NewColumn} : p ∈ c.additionProblems s n ↔
    (p = .nameTaken n.name ∧ (∃ col ∈ s.columns, col.name = n.name) ∧ n.name ∉ c.deletions) ∨
      (p = .requiredColumn n.name ∧ n.required = true ∧ c.allowIncompatible = false) := by
  have htaken : c.nameTaken s n.name = true ↔
      (∃ col ∈ s.columns, col.name = n.name) ∧ n.name ∉ c.deletions := by
    simp [nameTaken, Schema.column?_isSome_iff_exists]
  rw [additionProblems, List.mem_append]
  simp only [List.mem_ite_nil_right, List.mem_singleton, htaken, Bool.and_eq_true,
    Bool.not_eq_true']
  exact or_congr and_comm and_comm

theorem mem_idProblems : p ∈ c.idProblems base ↔
    (p = .columnIdsExhausted c.additions.length (lastId base) ∧ c.additions ≠ [] ∧
        (maxId < c.additions.length ∨ maxId < base.highestGiven + c.additions.length)) ∨
      (p = .schemaIdsExhausted base.schema.id ∧ base.schema.id.toInt = maxId) := by
  have hfit : idsFit c.additions.length (lastId base) = true ↔ ¬ (c.additions ≠ [] ∧
      (maxId < c.additions.length ∨ maxId < base.highestGiven + c.additions.length)) := by
    rw [← toInt_lastId, ← List.length_pos_iff]
    simp only [idsFit, Bool.or_eq_true, beq_iff_eq, Bool.and_eq_true, decide_eq_true_eq]
    omega
  rw [idProblems, List.mem_append]
  simp only [List.mem_ite_nil_left, List.mem_ite_nil_right, List.mem_singleton, hfit, not_not]
  exact or_congr and_comm and_comm

/-- the problems that are found are those that are there -/
theorem mem_problems : p ∈ c.problems base ↔ c.Violation base p := by
  rw [problems, List.mem_append, List.mem_append, mem_deletionProblems, List.mem_flatMap,
    mem_idProblems]
  constructor
  · rintro ((⟨name, hname, hmissing, rfl⟩ | ⟨n, hn, hp⟩) | ⟨rfl, hadd, hids⟩ | ⟨rfl, hid⟩)
    · exact .missingColumn hname hmissing
    · rcases mem_additionProblems.1 hp with ⟨rfl, htaken, hdel⟩ | ⟨rfl, hreq, hallow⟩
      · exact .nameTaken hn htaken hdel
      · exact .requiredColumn hn hreq hallow
    · exact .columnIds hadd hids
    · exact .schemaIds hid
  · intro h
    cases h with
    | missingColumn hname hmissing => exact .inl (.inl ⟨_, hname, hmissing, rfl⟩)
    | nameTaken hn htaken hdel =>
      exact .inl (.inr ⟨_, hn, mem_additionProblems.2 (.inl ⟨rfl, htaken, hdel⟩)⟩)
    | requiredColumn hn hreq hallow =>
      exact .inl (.inr ⟨_, hn, mem_additionProblems.2 (.inr ⟨rfl, hreq, hallow⟩)⟩)
    | columnIds hadd hids => exact .inr (.inl ⟨rfl, hadd, hids⟩)
    | schemaIds hid => exact .inr (.inr ⟨rfl, hid⟩)

end

/-! ## in which order -/

section
variable {c : SchemaChanges} {base : Metadata} {p q : SchemaProblem}

theorem place_of_mem_deletionProblems {s : Schema} (hp : p ∈ c.deletionProblems s) :
    c.place p < c.deletions.length := by
  obtain ⟨name, hname, _, rfl⟩ := mem_deletionProblems.1 hp
  exact List.idxOf_lt_length_of_mem hname

theorem place_of_mem_additionProblems {s : Schema} {n : NewColumn}
    (hp : p ∈ c.additionProblems s n) :
    let first := c.deletions.length + 2 * (c.additions.map (·.name)).idxOf n.name
    first ≤ c.place p ∧ c.place p ≤ first + 1 := by
  rcases mem_additionProblems.1 hp with ⟨rfl, _⟩ | ⟨rfl, _⟩
  · exact ⟨Nat.le_refl _, Nat.le_succ _⟩
  · exact ⟨Nat.le_succ _, Nat.le_refl _⟩

theorem place_of_mem_idProblems (hp : p ∈ c.idProblems base) :
    c.deletions.length + 2 * c.additions.length ≤ c.place p := by
  rcases mem_idProblems.1 hp with ⟨rfl, _⟩ | ⟨rfl, _⟩
  · exact Nat.le_refl _
  · exact Nat.le_succ _

theorem deletionProblems_ordered (hdel : c.deletions.Nodup) (s : Schema) :
    (c.deletionProblems s).Pairwise fun p q => c.place p < c.place q := by
  rw [deletionProblems, List.pairwise_map]
  exact (pairwise_idxOf_lt hdel).filter _

theorem additionProblems_ordered (hadd : (c.additions.map (·.name)).Nodup) (s : Schema) :
    (c.additions.flatMap (c.additionProblems s)).Pairwise fun p q => c.place p < c.place q := by
  rw [List.pairwise_flatMap]
  constructor
  · intro n _
    rw [additionProblems, List.pairwise_append]
    refine ⟨by split <;> simp, by split <;> simp, ?_⟩
    intro p hp q hq
    rw [List.mem_ite_nil_right, List.mem_singleton] at hp hq
    rw [hp.2, hq.2]
    exact Nat.lt_succ_self _
  · refine (List.pairwise_map.1 (pairwise_idxOf_lt hadd)).imp ?_
    intro n n' hlt p hp q hq
    have hfirst := (place_of_mem_additionProblems hp).2
    have hsecond := (place_of_mem_additionProblems hq).1
    omega

theorem idProblems_ordered (c : SchemaChanges) (base : Metadata) :
    (c.idProblems base).Pairwise fun p q => c.place p < c.place q := by
  rw [idProblems, List.pairwise_append]
  refine ⟨by split <;> simp, by split <;> simp, ?_⟩
  intro p hp q hq
  rw [List.mem_ite_nil_left, List.mem_singleton] at hp
  rw [List.mem_ite_nil_right, List.mem_singleton] at hq
  rw [hp.2, hq.2]
  exact Nat.lt_succ_self _

/-- where no name is staged twice, the problems are found in their places -/
theorem problems_ordered (hadd : (c.additions.map (·.name)).Nodup) (hdel : c.deletions.Nodup)
    (base : Metadata) : (c.problems base).Pairwise fun p q => c.place p < c.place q := by
  rw [problems, List.pairwise_append, List.pairwise_append]
  refine ⟨⟨deletionProblems_ordered hdel _, additionProblems_ordered hadd _, ?_⟩,
    idProblems_ordered c base, ?_⟩
  · intro p hp q hq
    obtain ⟨n, _, hq⟩ := List.mem_flatMap.1 hq
    have hfirst := place_of_mem_deletionProblems hp
    have hsecond := (place_of_mem_additionProblems hq).1
    omega
  · intro p hp q hq
    have hsecond := place_of_mem_idProblems hq
    rcases List.mem_append.1 hp with hp | hp
    · have hfirst := place_of_mem_deletionProblems hp
      omega
    · obtain ⟨n, hn, hp⟩ := List.mem_flatMap.1 hp
      have hidx := List.idxOf_lt_length_of_mem (List.mem_map_of_mem (f := (·.name)) hn)
      rw [List.length_map] at hidx
      have hfirst := (place_of_mem_additionProblems hp).2
      omega

end

theorem applyTo_eq_error_iff {c : SchemaChanges} {base : Metadata} {why : Invalidity} :
    c.applyTo base = .error why ↔ c.problems base ≠ [] ∧ why = .schema (c.problems base) := by
  rw [applyTo]
  split
  · next h => simp [List.isEmpty_iff.1 h]
  · next h => simp [mt List.isEmpty_iff.2 h, eq_comm]

theorem applyTo_fails_iff {c : SchemaChanges} {base : Metadata} :
    (∃ why, c.applyTo base = .error why) ↔ ∃ p, c.Violation base p := by
  constructor
  · intro h
    obtain ⟨why, h⟩ := h
    obtain ⟨p, hp⟩ := List.exists_mem_of_ne_nil _ (applyTo_eq_error_iff.1 h).1
    exact ⟨p, mem_problems.1 hp⟩
  · intro h
    obtain ⟨p, hp⟩ := h
    exact ⟨_, applyTo_eq_error_iff.2 ⟨List.ne_nil_of_mem (mem_problems.2 hp), rfl⟩⟩

end SchemaChanges

/-! ## the report -/

namespace Update

open SchemaChanges

/-- **The report of a schema change is complete and exact.**  As long as no issue is recorded, the
changes fail to apply if and only if something is wrong, and then the report lists all that is
wrong, each problem once and in its place.  As soon as an issue is recorded, the report lists what
is recorded, whatever the base. -/
theorem schema_report (es : List (Edit .schema)) (base : Metadata) :
    (((new .schema).edits es).issues.errors = [] →
      ((∃ why, ((new .schema).edits es).apply base = .error why) ↔
        ∃ p, (ofEdits es).Violation base p) ∧
      ∀ why, ((new .schema).edits es).apply base = .error why →
        ∃ ps : List SchemaProblem, (∀ p, p ∈ ps ↔ (ofEdits es).Violation base p) ∧
          (ps.Pairwise fun p q => (ofEdits es).place p < (ofEdits es).place q) ∧
          why.error = ⟨.validationFailed, Issues.listing (ps.map (·.message))⟩) ∧
    (((new .schema).edits es).issues.errors ≠ [] →
      ∃ why, ((new .schema).edits es).apply base = .error why ∧
        why.error = ⟨.validationFailed,
          Issues.listing (((new .schema).edits es).issues.errors.map (·.message))⟩) := by
  constructor
  · intro hissues
    rw [apply_of_no_issues hissues, changes_edits]
    refine ⟨applyTo_fails_iff, ?_⟩
    intro why hwhy
    obtain ⟨_, rfl⟩ := applyTo_eq_error_iff.1 hwhy
    refine ⟨(ofEdits es).problems base, fun p => mem_problems,
      problems_ordered (nodup_additions es) (nodup_deletions es) base, ?_⟩
    show (Invalidity.issuesOf _).report = _
    rw [Issues.report_eq, Invalidity.issuesOf, List.map_map]
    rfl
  · intro hissues
    exact ⟨_, apply_of_issues hissues base, Issues.report_eq _⟩

/-- the last schema id is in use, and one column id is left -/
def worn : Metadata :=
  { Metadata.fresh "memory://t" 2
      ⟨2147483647, [⟨1, "a", .long, true⟩, ⟨2, "b", .int, false⟩]⟩ .empty with
    lastColumnId := 2147483646 }

/-- `x` is not there, `a` is, and a required column has no values; `b` may be replaced, but two
columns need an id each -/
def overhaul : List (Edit .schema) :=
  [.call (.delete "x"), .call (.add ⟨"a", .int, true⟩), .call (.delete "b"),
    .call (.add ⟨"b", .long, false⟩)]

theorem schema_report_overhaul : ∃ why, ((new .schema).edits overhaul).apply worn = .error why ∧
    (∃ ps : List SchemaProblem, (∀ p, p ∈ ps ↔ (ofEdits overhaul).Violation worn p) ∧
      why.error.message = Issues.listing (ps.map (·.message))) ∧
    why.error.message = "Validation failed due to the following errors:\n" ++
      "  - Cannot delete missing column: x\n" ++
      "  - Cannot add column, name already exists: a\n" ++
      "  - Incompatible change: cannot add required column: a\n" ++
      "  - Cannot assign field id: 2 new column(s) after id 2147483646 exceeds the maximum " ++
      "field id\n" ++
      "  - Cannot assign schema id after 2147483647\n" := by
  have h : ((new .schema).edits overhaul).apply worn = .error (.schema [.missingColumn "x",
      .nameTaken "a", .requiredColumn "a", .columnIdsExhausted 2 2147483646,
      .schemaIdsExhausted 2147483647]) := by
    decide +kernel
  obtain ⟨_, hreport⟩ := (schema_report overhaul worn).1 (by decide +kernel)
  obtain ⟨ps, hps, _, herror⟩ := hreport _ h
  exact ⟨_, h, ⟨ps, hps, congrArg Error.message herror⟩, by decide +kernel⟩

end Update

end StagedTable
