import StagedTable.Dictionary
import StagedTable.Update.Invalidity
import StagedTable.Update.Rejection

/-!
# Staged property changes

Keys to set and keys to remove.  Setting a key again replaces its staged value; setting and
removing one key is a contradiction, reported when the changes are applied and never resolved by
the order of the calls.

* `PropertyChanges.stage`    one staging call;
* `PropertyChanges.applyTo`  the properties afterwards: removals first, then settings, which
                             act on different keys.
-/

namespace StagedTable

/-- the key that names a table's format, which users cannot set -/
def reservedKey : String := "format-version"

structure PropertyChanges where
  sets : Dictionary String
  /-- the keys to remove -/
  removals : Dictionary Unit

namespace PropertyChanges

inductive Call where
  | set (key value : String)
  | remove (key : String)
  deriving Repr, DecidableEq

def empty : PropertyChanges := ⟨.empty, .empty⟩

def stage (c : PropertyChanges) : Call → Except Rejection PropertyChanges
  | .set key value =>
    if key = "" then .error .emptyPropertyKey
    else if key = reservedKey then .error (.reservedPropertyKey key)
    else .ok { c with sets := c.sets.insert key value }
  | .remove key =>
    if key = "" then .error .emptyPropertyKey
    else .ok { c with removals := c.removals.insert key () }

/-- the least key that is to be set and to be removed -/
def contradiction? (c : PropertyChanges) : Option String :=
  c.removals.keys.find? c.sets.contains

def applyTo (c : PropertyChanges) (base : Dictionary String) :
    Except Invalidity (Dictionary String) :=
  match c.contradiction? with
  | some key => .error (.contradictoryKey key)
  | none => .ok ((base.eraseAll c.removals.keys).insertAll c.sets.entries)

theorem applyTo_eq_ok {c : PropertyChanges} {base out : Dictionary String}
    (h : c.applyTo base = .ok out) :
    c.contradiction? = none ∧ (base.eraseAll c.removals.keys).insertAll c.sets.entries = out := by
  rw [applyTo] at h
  split at h
  · cases h
  · next hnone => exact ⟨hnone, Except.ok.inj h⟩

/-- a key holds what it was set to; one that was not set is gone if it was removed -/
theorem get?_of_applyTo {c : PropertyChanges} {base out : Dictionary String}
    (h : c.applyTo base = .ok out) (key : String) :
    out.get? key =
      (c.sets.get? key).or (if key ∈ c.removals.keys then none else base.get? key) := by
  obtain ⟨_, rfl⟩ := applyTo_eq_ok h
  rw [Dictionary.get?_insertAll_entries, Dictionary.get?_eraseAll]

end PropertyChanges

end StagedTable
