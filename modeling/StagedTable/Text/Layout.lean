/-!
# Layout of described values

Three shapes in which values are described: a named record with its fields, a sequence in
brackets, a table of keys and values in braces.  The items come already written.
-/

namespace StagedTable.Text

def commaSeparated (items : List String) : String := ", ".intercalate items

def labelled (entry : String × String) : String := entry.1 ++ ": " ++ entry.2

/-- a record's name, then its fields between braces -/
def record (name : String) (fields : List (String × String)) : String :=
  name ++ " \x7b " ++ commaSeparated (fields.map labelled) ++ " \x7d"

def sequence (items : List String) : String := "[" ++ commaSeparated items ++ "]"

def table (entries : List (String × String)) : String :=
  "\x7b" ++ commaSeparated (entries.map labelled) ++ "\x7d"

end StagedTable.Text
