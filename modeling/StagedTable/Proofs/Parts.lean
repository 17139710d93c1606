import StagedTable.Proofs.Changes

/-!
# The parts that updates write

Metadata has parts: each property by its key, the location, and the schema together with the highest
column id given out.  `Kind.writes` says which of them staged changes write, and nothing else about
the changes matters to who is concerned with other parts:

* `Kind.same_of_not_mem_writes`  a part that is not written is as in the base;
* `Kind.applied_alike`           whether the changes apply, why not, and what they write depends on
                                 the parts of the base that they write, and on no others;
* `Metadata.ext_of_same`         two records are equal if they are the same in every part, and in
                                 the two numbers that no update writes.
-/

namespace StagedTable

/-- a part of a table's metadata -/
inductive Part where
  | property (key : String)
  | location
  /-- the schema, with the highest column id ever given out -/
  | schema
  deriving DecidableEq

/-- both records hold the same in the part -/
def Part.Same : Part → Metadata → Metadata → Prop
  | property key, m, m' => m.property key = m'.property key
  | location, m, m' => m.location = m'.location
  | schema, m, m' => m.schema = m'.schema ∧ m.lastColumnId = m'.lastColumnId

namespace Part.Same
variable {part : Part} {m m' m'' : Metadata}

theorem refl (part : Part) (m : Metadata) : part.Same m m := by
  cases part with
  | property key => rfl
  | location => rfl
  | schema => exact ⟨rfl, rfl⟩

theorem symm (h : part.Same m m') : part.Same m' m := by
  cases part with
  | property key => exact Eq.symm h
  | location => exact Eq.symm h
  | schema => exact ⟨h.1.symm, h.2.symm⟩

theorem trans (h : part.Same m m') (h' : part.Same m' m'') : part.Same m m'' := by
  cases part with
  | property key => exact Eq.trans h h'
  | location => exact Eq.trans h h'
  | schema => exact ⟨h.1.trans h'.1, h.2.trans h'.2⟩

end Part.Same

/-- the version is in no part -/
theorem Part.same_succeeding (part : Part) (m base : Metadata) :
    part.Same (m.succeeding base) m := by
  cases part with
  | property key => rfl
  | location => rfl
  | schema => exact ⟨rfl, rfl⟩

theorem Metadata.ext_of_same {m m' : Metadata} (hversion : m.version = m'.version)
    (hformat : m.formatVersion = m'.formatVersion) (h : ∀ part : Part, part.Same m m') :
    m = m' := by
  have hproperties : m.properties = m'.properties := Dictionary.ext fun key => h (.property key)
  have hlocation : m.location = m'.location := h .location
  obtain ⟨hschema, hlast⟩ := h .schema
  cases m
  cases m'
  simp_all

/-! ## what is written -/

namespace Kind

/-- the parts that staged changes write.  Without a location or a name there is nothing to write,
and the changes do not apply. -/
def writes : (k : Kind) → k.Changes → List Part
  | properties, c => (PropertyChanges.sets c).keys.map .property ++
      (PropertyChanges.removals c).keys.map .property
  | location, c => (LocationChange.staged c).toList.map fun _ => .location
  | schema, _ => [.schema]
  | snapshot, c => (SnapshotChange.name c).toList.flatMap fun name =>
      [.property (Snapshot.idKey name), .property Snapshot.currentKey]

end Kind

theorem PropertyChanges.mem_writes_iff {c : PropertyChanges} {key : String} :
    .property key ∈ Kind.writes .properties c ↔ key ∈ c.sets.keys ∨ key ∈ c.removals.keys := by
  simp [Kind.writes]

theorem LocationChange.result_eq_ok {c : LocationChange} {out : String} :
    c.result = .ok out ↔ c.staged = some out := by
  rw [result]
  cases c.staged <;> simp

theorem SnapshotChange.result_eq_ok {c : SnapshotChange} {s : Snapshot} :
    c.result = .ok s ↔ c.name = some s.name ∧ c.id = s.id := by
  rw [result]
  cases hname : c.name with
  | none => simp
  | some name =>
    obtain ⟨name', id⟩ := s
    simp

theorem SnapshotChange.mem_writes_iff {c : SnapshotChange} {s : Snapshot} (h : c.result = .ok s)
    {part : Part} : part ∈ Kind.writes .snapshot c ↔
      part = .property (Snapshot.idKey s.name) ∨ part = .property Snapshot.currentKey := by
  rw [Kind.writes, (result_eq_ok.1 h).1]
  simp

namespace Kind

variable {k : Kind} {changes : k.Changes}

/-- **What is not written stays.** -/
theorem same_of_not_mem_writes {base : Metadata} {out : k.Output}
    (h : k.applyTo changes base = .ok out) {part : Part} (hp : part ∉ k.writes changes) :
    part.Same (k.install out base) base := by
  cases k with
  | properties =>
    cases part with
    | property key =>
      rw [PropertyChanges.mem_writes_iff, not_or, Dictionary.mem_keys_iff] at hp
      obtain ⟨hset, hremoved⟩ := hp
      show Dictionary.get? out key = base.properties.get? key
      rw [PropertyChanges.get?_of_applyTo h, if_neg hremoved]
      rw [Option.not_isSome_iff_eq_none] at hset
      rw [hset, Option.none_or]
    | location => rfl
    | schema => exact ⟨rfl, rfl⟩
  | location =>
    cases part with
    | property key => rfl
    | location =>
      refine absurd ?_ hp
      rw [writes, LocationChange.result_eq_ok.1 h]
      exact List.mem_singleton_self _
    | schema => exact ⟨rfl, rfl⟩
  | schema =>
    cases part with
    | property key => rfl
    | location => rfl
    | schema => exact absurd (List.mem_singleton_self _) hp
  | snapshot =>
    cases part with
    | property key =>
      rw [SnapshotChange.mem_writes_iff h, not_or] at hp
      show (Snapshot.register out base.properties).get? key = base.properties.get? key
      rw [Snapshot.get?_register, if_neg fun hkey => hp.2 (congrArg Part.property hkey),
        if_neg fun hkey => hp.1 (congrArg Part.property hkey)]
    | location => rfl
    | schema => exact ⟨rfl, rfl⟩

/-- the changes fare alike on two bases: they fail for one reason, or write the same -/
inductive AppliedAlike (k : Kind) (changes : k.Changes) (base base' : Metadata) : Prop
  | refused {why : Invalidity} (h : k.applyTo changes base = .error why)
      (h' : k.applyTo changes base' = .error why)
  | applied {out out' : k.Output} (h : k.applyTo changes base = .ok out)
      (h' : k.applyTo changes base' = .ok out')
      (hs : ∀ part ∈ k.writes changes, part.Same (k.install out base) (k.install out' base'))

end Kind

/-- a schema change looks at nothing of its base but the schema and the highest id given out -/
theorem SchemaChanges.applyTo_of_same (c : SchemaChanges) {base base' : Metadata}
    (h : Part.schema.Same base base') : c.applyTo base' = c.applyTo base := by
  obtain ⟨hschema, hlast⟩ := h
  have hids : lastId base' = lastId base := by rw [lastId, lastId, hschema, hlast]
  have hproblems : c.problems base' = c.problems base := by
    rw [problems, problems, idProblems, idProblems, hids, hschema]
  rw [applyTo, applyTo, hproblems, schema, schema, hids, hschema]

namespace Kind

variable {k : Kind} {changes : k.Changes}

/-- **What is not written is not looked at.** -/
theorem applied_alike {base base' : Metadata}
    (h : ∀ part ∈ k.writes changes, part.Same base base') : k.AppliedAlike changes base base' := by
  cases k with
  | properties =>
    cases hc : PropertyChanges.contradiction? changes with
    | some key =>
      have hno : ∀ m : Metadata, applyTo .properties changes m = .error (.contradictoryKey key) := by
        intro m
        rw [applyTo, PropertyChanges.applyTo, hc]
      exact .refused (hno base) (hno base')
    | none =>
      have happly : ∀ m : Metadata, applyTo .properties changes m = .ok _ := fun m => by
        rw [applyTo, PropertyChanges.applyTo, hc]
      refine .applied (happly base) (happly base') fun part hpart => ?_
      cases part with
      | property key =>
        refine (PropertyChanges.get?_of_applyTo (happly base) key).trans
          (Eq.trans ?_ (PropertyChanges.get?_of_applyTo (happly base') key).symm)
        -- a key that is written is set, or it is removed and so gone in both
        rcases PropertyChanges.mem_writes_iff.1 hpart with hset | hremoved
        · obtain ⟨value, hvalue⟩ := Option.isSome_iff_exists.1 (Dictionary.mem_keys_iff.1 hset)
          rw [hvalue, Option.some_or, Option.some_or]
        · rw [if_pos hremoved, if_pos hremoved]
      | location => exact h .location hpart
      | schema => exact h .schema hpart
  | location =>
    cases hr : LocationChange.result changes with
    | error why => exact .refused hr hr
    | ok out =>
      refine .applied hr hr fun part hpart => ?_
      cases part with
      | property key => exact h (.property key) hpart
      | location => rfl
      | schema => exact h .schema hpart
  | schema =>
    have hsame : Part.schema.Same base base' := h .schema (List.mem_singleton_self _)
    have happly : applyTo .schema changes base' = applyTo .schema changes base :=
      SchemaChanges.applyTo_of_same changes hsame
    cases hr : applyTo .schema changes base with
    | error why => exact .refused hr (happly.trans hr)
    | ok out =>
      refine .applied hr (happly.trans hr) fun part hpart => ?_
      obtain rfl := List.mem_singleton.1 hpart
      refine ⟨rfl, ?_⟩
      show max base.lastColumnId _ = max base'.lastColumnId _
      rw [hsame.2]
  | snapshot =>
    cases hr : SnapshotChange.result changes with
    | error why => exact .refused hr hr
    | ok out =>
      refine .applied hr hr fun part hpart => ?_
      rcases (SnapshotChange.mem_writes_iff hr).1 hpart with rfl | rfl
      all_goals
        show (Snapshot.register out base.properties).get? _ =
          (Snapshot.register out base'.properties).get? _
        rw [Snapshot.get?_register, Snapshot.get?_register, if_pos rfl, if_pos rfl]

end Kind

end StagedTable
