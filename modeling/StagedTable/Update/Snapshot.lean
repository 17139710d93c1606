import StagedTable.Dictionary
import StagedTable.Update.Invalidity
import StagedTable.Update.Rejection

/-!
# A staged snapshot registration

A snapshot is registered under a name, with a non-negative 64-bit id that is 0 until it is set.
The registry lives in a table's properties: one key for each name, and one key for the name that
was registered last.
-/

namespace StagedTable

structure Snapshot where
  name : String
  id : Int64
  deriving Repr, DecidableEq

namespace Snapshot

/-- the property that holds the name registered last -/
def currentKey : String := "current-snapshot"

/-- the property that holds the id of a registered name -/
def idKey (name : String) : String := "snapshot." ++ name ++ ".id"

theorem toList_idKey (name : String) :
    (idKey name).toList = "snapshot.".toList ++ name.toList ++ ".id".toList := by
  rw [idKey, String.toList_append, String.toList_append]

/-- names of any text have keys of their own -/
theorem idKey_injective {a b : String} (h : idKey a = idKey b) : a = b := by
  have hlists : (idKey a).toList = (idKey b).toList := congrArg String.toList h
  rw [toList_idKey, toList_idKey] at hlists
  exact String.toList_inj.1 (List.append_cancel_left (List.append_cancel_right hlists))

theorem idKey_ne {key : String} (h : key.toList.head? ≠ some 's') (name : String) :
    idKey name ≠ key := by
  rintro rfl
  rw [toList_idKey] at h
  exact h rfl

theorem idKey_ne_currentKey (name : String) : idKey name ≠ currentKey :=
  idKey_ne (by decide) name

def idText (s : Snapshot) : String := toString s.id.toInt

/-- records the snapshot, and that it is the current one -/
def register (s : Snapshot) (properties : Dictionary String) : Dictionary String :=
  (properties.insert (idKey s.name) s.idText).insert currentKey s.name

theorem get?_register (s : Snapshot) (properties : Dictionary String) (key : String) :
    (s.register properties).get? key =
      if key = currentKey then some s.name
      else if key = idKey s.name then some s.idText
      else properties.get? key := by
  rw [register, Dictionary.get?_insert, Dictionary.get?_insert]

end Snapshot

structure SnapshotChange where
  name : Option String
  id : Int64

namespace SnapshotChange

inductive Call where
  | name (name : String)
  | id (id : Int64)
  deriving Repr, DecidableEq

def empty : SnapshotChange := ⟨none, 0⟩

def stage (c : SnapshotChange) : Call → Except Rejection SnapshotChange
  | .name name =>
    if name = "" then .error .emptySnapshotName
    else if Rejection.snapshotNameLimit < name.utf8ByteSize then .error .longSnapshotName
    else .ok { c with name := some name }
  | .id id =>
    if id < 0 then .error .negativeSnapshotId
    else .ok { c with id }

def result (c : SnapshotChange) : Except Invalidity Snapshot :=
  match c.name with
  | some name => .ok ⟨name, c.id⟩
  | none => .error .noSnapshotName

end SnapshotChange

end StagedTable
