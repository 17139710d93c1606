import StagedTable.Proofs.Changes

/-!
# What can be staged

Changes are staged by calls only, and a call that is not accepted stages nothing.  So what every
accepted call keeps holds of all that can ever be staged (`Update.edits_keeps`), in whatever order
the calls are made and whatever issues are recorded or forgotten in between.

* `Kind.Staged`, `Change.Staged`          the changes come from some sequence of calls;
* `PropertyChanges.stage_eq_ok_iff`       which calls are accepted, and what they make of the
                                          changes (`LocationChange.stage_eq_ok_iff` as well);
* `PropertyChanges.reserved_not_set`      the reserved key is then not among the keys to set;
* `SnapshotChange.id_nonneg`              and the id is not negative.
-/

namespace StagedTable

namespace Update

variable {k : Kind}

theorem edits_keeps {P : k.Changes → Prop}
    (hstage : ∀ c call c', P c → k.stage c call = .ok c' → P c') {u : Update k} (hu : P u.changes)
    (es : List (Edit k)) : P (u.edits es).changes := by
  induction es generalizing u with
  | nil => exact hu
  | cons e es ih =>
    refine ih ?_
    cases e with
    | call c =>
      show P (u.call c).changes
      rw [call]
      split
      · next heq => exact hstage _ _ _ hu heq
      · exact hu
    | record e => exact hu
    | extend es => exact hu
    | clear => exact hu

end Update

/-- the changes have been staged by calls -/
def Kind.Staged (k : Kind) (changes : k.Changes) : Prop :=
  ∃ es, ((Update.new k).edits es).changes = changes

theorem Kind.Staged.keeps {k : Kind} {changes : k.Changes} (h : k.Staged changes)
    {P : k.Changes → Prop} (hnothing : P k.nothing)
    (hstage : ∀ c call c', P c → k.stage c call = .ok c' → P c') : P changes := by
  obtain ⟨es, rfl⟩ := h
  exact Update.edits_keeps hstage hnothing es

/-- the change is that of an update, whose changes have been staged by calls -/
def Change.Staged : Change → Prop
  | .update k changes => k.Staged changes
  | .replace _ => False

/-! ## accepted calls -/

namespace PropertyChanges

def Call.IsAcceptable : Call → Prop
  | .set key _ => key ≠ "" ∧ key ≠ reservedKey
  | .remove key => key ≠ ""

/-- what an accepted call makes of the changes -/
def after (c : PropertyChanges) : Call → PropertyChanges
  | .set key value => { c with sets := c.sets.insert key value }
  | .remove key => { c with removals := c.removals.insert key () }

theorem stage_eq_ok_iff {c c' : PropertyChanges} {call : Call} :
    Kind.stage .properties c call = .ok c' ↔ call.IsAcceptable ∧ c.after call = c' := by
  show c.stage call = .ok c' ↔ _
  cases call with
  | set key value =>
    rw [stage, Call.IsAcceptable, after]
    split
    · next h => simp [h]
    · next h =>
      split
      · next h' => simp [h']
      · next h' => simp [h, h']
  | remove key =>
    rw [stage, Call.IsAcceptable, after]
    split
    · next h => simp [h]
    · next h => simp [h]

end PropertyChanges

theorem LocationChange.stage_eq_ok_iff {c c' : Kind.Changes .location} {text : String} :
    Kind.stage .location c (.moveTo text) = .ok c' ↔
      Location.accepts text = true ∧ c' = ⟨some (Location.dropTrailingSlashes text)⟩ := by
  show stage c (.moveTo text) = .ok c' ↔ _
  rw [stage]
  split
  · next h => simp [h, show Location.accepts "" = false from rfl]
  · split
    · next h => simp [h, eq_comm]
    · next h => simp [h]

/-! ## what they keep -/

theorem PropertyChanges.reserved_not_set {c : PropertyChanges} (h : Kind.properties.Staged c) :
    c.sets.get? reservedKey = none := by
  refine h.keeps (P := fun c : PropertyChanges => c.sets.get? reservedKey = none) rfl ?_
  intro (c : PropertyChanges) (call : Call) c' hc hstage
  obtain ⟨hcall, rfl⟩ := stage_eq_ok_iff.1 hstage
  cases call with
  | set key value =>
    show (c.sets.insert key value).get? reservedKey = none
    rw [Dictionary.get?_insert, if_neg (Ne.symm hcall.2)]
    exact hc
  | remove key => exact hc

theorem SnapshotChange.id_nonneg {c : SnapshotChange} (h : Kind.snapshot.Staged c) :
    0 ≤ c.id.toInt := by
  refine h.keeps (P := fun c : SnapshotChange => 0 ≤ c.id.toInt) (Int.le_refl 0) ?_
  intro (c : SnapshotChange) (call : Call) c' hc (hstage : c.stage call = .ok c')
  cases call with
  | name name =>
    rw [stage] at hstage
    split at hstage
    · cases hstage
    · split at hstage
      · cases hstage
      · cases hstage
        exact hc
  | id id =>
    rw [stage] at hstage
    split at hstage
    · cases hstage
    · next hid =>
      cases hstage
      exact Int64.le_iff_toInt_le.1 (Int64.not_lt.1 hid)

end StagedTable
