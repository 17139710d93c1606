import StagedTable.Metadata
import StagedTable.Update.Invalidity
import StagedTable.Update.Rejection

/-!
# Staged column changes

Columns to add and columns to delete, by name.  While staging, only the staged names are
compared with each other; whether they fit is seen against a base.

* `SchemaChanges.problems`  everything that does not fit, in a fixed order: deletions, then
                            additions, then ids;
* `SchemaChanges.schema`    the schema afterwards: the columns that stay, then the new ones under
                            consecutive ids;
* `SchemaChanges.applyTo`   the schema, if there is no problem.

New ids start after the highest id ever given out, and also after the highest id in the base
schema, should the base's own record lag behind.
-/

namespace StagedTable

/-- a column to add; its id is chosen when the changes are applied -/
structure NewColumn where
  name : String
  type : ColumnType
  required : Bool
  deriving Repr, DecidableEq

structure SchemaChanges where
  additions : List NewColumn
  deletions : List String
  /-- permits changes that existing readers cannot follow -/
  allowIncompatible : Bool

namespace SchemaChanges

inductive Call where
  | add (column : NewColumn)
  | delete (name : String)
  | allowIncompatible
  deriving Repr, DecidableEq

def empty : SchemaChanges := ⟨[], [], false⟩

def stage (c : SchemaChanges) : Call → Except Rejection SchemaChanges
  | .add column =>
    if column.name = "" then .error .emptyColumnName
    else if column.name ∈ c.additions.map (·.name) then .error (.alreadyAdded column.name)
    else .ok { c with additions := c.additions ++ [column] }
  | .delete name =>
    if name = "" then .error .emptyColumnName
    else if name ∈ c.deletions then .error (.alreadyDeleted name)
    else .ok { c with deletions := c.deletions ++ [name] }
  | .allowIncompatible => .ok { c with allowIncompatible := true }

/-! ## ids -/

/-- the highest id that columns and schemas can have -/
def maxId : Int := 2147483647

theorem toInt_le_maxId (id : Int32) : id.toInt ≤ maxId := Int32.toInt_le id

/-- the id after which new columns are numbered -/
def lastId (base : Metadata) : Int32 := max base.lastColumnId base.schema.highestId

/-- the new columns under the ids `last + 1`, `last + 2`, … -/
def number (last : Int) : List NewColumn → List Column
  | [] => []
  | n :: ns =>
    { id := .ofInt (last + 1), name := n.name, type := n.type, required := n.required } ::
      number (last + 1) ns

theorem number_nil (last : Int) : number last [] = [] := rfl
theorem number_length (last : Int) (ns : List NewColumn) :
    (number last ns).length = ns.length := by
  induction ns generalizing last with
  | nil => rfl
  | cons n ns ih => simp [number, ih]

/-! ## problems -/

def deletionProblems (c : SchemaChanges) (s : Schema) : List SchemaProblem :=
  (c.deletions.filter fun name => (s.column? name).isNone).map .missingColumn

/-- the name is in the schema, and it is not deleted with the same changes -/
def nameTaken (c : SchemaChanges) (s : Schema) (name : String) : Bool :=
  (s.column? name).isSome && !c.deletions.contains name

def additionProblems (c : SchemaChanges) (s : Schema) (n : NewColumn) : List SchemaProblem :=
  (if c.nameTaken s n.name then [.nameTaken n.name] else []) ++
    (if n.required && !c.allowIncompatible then [.requiredColumn n.name] else [])

/-- whether so many ids fit after `last` -/
def idsFit (count : Nat) (last : Int32) : Bool :=
  count == 0 || (count ≤ maxId && last.toInt + count ≤ maxId)

def idProblems (c : SchemaChanges) (base : Metadata) : List SchemaProblem :=
  (if idsFit c.additions.length (lastId base) then []
    else [.columnIdsExhausted c.additions.length (lastId base)]) ++
  (if base.schema.id.toInt = maxId then [.schemaIdsExhausted base.schema.id] else [])

def problems (c : SchemaChanges) (base : Metadata) : List SchemaProblem :=
  c.deletionProblems base.schema ++ c.additions.flatMap (c.additionProblems base.schema) ++
    c.idProblems base

/-! ## result -/

def kept (c : SchemaChanges) (s : Schema) : List Column :=
  s.columns.filter fun col => !c.deletions.contains col.name

def schema (c : SchemaChanges) (base : Metadata) : Schema where
  id := .ofInt (base.schema.id.toInt + 1)
  columns := c.kept base.schema ++ number (lastId base).toInt c.additions

def applyTo (c : SchemaChanges) (base : Metadata) : Except Invalidity Schema :=
  if (c.problems base).isEmpty then .ok (c.schema base) else .error (.schema (c.problems base))

end SchemaChanges

end StagedTable
