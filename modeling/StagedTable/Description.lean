import StagedTable.Text.Layout
import StagedTable.Text.Quoted
import StagedTable.Transaction

/-!
# Described values

How errors, metadata, handles and transactions are written out in full, for people who look at
them one by one: records with named fields, text quoted.
-/

namespace StagedTable

open Text

def ErrorKind.describe : ErrorKind → String
  | .invalidArgument => "InvalidArgument"
  | .validationFailed => "ValidationFailed"
  | .commitFailed => "CommitFailed"
  | .commitStateUnknown => "CommitStateUnknown"

def Error.describe (e : Error) : String :=
  record "Error" [("kind", e.kind.describe), ("message", quoted e.message)]

def ColumnType.describe : ColumnType → String
  | .boolean => "Boolean"
  | .int => "Int"
  | .long => "Long"
  | .float => "Float"
  | .double => "Double"
  | .string => "String"
  | .date => "Date"
  | .timestamp => "Timestamp"

def Column.describe (c : Column) : String :=
  record "NestedField"
    [("id", toString c.id.toInt), ("name", quoted c.name), ("field_type", c.type.describe),
      ("required", toString c.required)]

def Schema.describe (s : Schema) : String :=
  record "Schema"
    [("schema_id", toString s.id.toInt), ("fields", sequence (s.columns.map Column.describe))]

/-- properties, by increasing key -/
def describeProperties (d : Dictionary String) : String :=
  table (d.entries.map fun e => (quoted e.1, quoted e.2))

def Metadata.describe (m : Metadata) : String :=
  record "TableMetadata"
    [("location", quoted m.location), ("format_version", toString m.formatVersion),
      ("version", toString m.version), ("properties", describeProperties m.properties),
      ("schema", m.schema.describe), ("last_column_id", toString m.lastColumnId.toInt)]

def Handle.describe (h : Handle) : String :=
  record "Table" [("ident", quoted h.ident), ("metadata", h.cache.describe)]

/-- a transaction on the table of that identifier -/
def Transaction.describe (t : Transaction) (ident : String) : String :=
  record "Transaction" [("table", quoted ident), ("updates", toString t.members.length)]

end StagedTable
