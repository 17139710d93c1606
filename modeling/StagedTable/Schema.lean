/-!
# Schemas

A schema is an identified list of columns.  Column ids and schema ids are 32-bit words; a
schema may hold any ids in any order, and names may be empty or repeated, so look-up takes the
first column of a name.

`highestId` is the one number that id assignment needs: it bounds every id (`le_highestId`), it is
the id of some column (`exists_id_eq_highestIdOf`), and it is 0 for a schema without columns.
-/

namespace StagedTable

inductive ColumnType where
  | boolean
  | int
  | long
  | float
  | double
  | string
  | date
  | timestamp
  deriving Repr, DecidableEq, Inhabited

namespace ColumnType

def all : List ColumnType := [boolean, int, long, float, double, string, date, timestamp]

def label : ColumnType → String
  | boolean => "boolean"
  | int => "int"
  | long => "long"
  | float => "float"
  | double => "double"
  | string => "string"
  | date => "date"
  | timestamp => "timestamp"

def ofLabel? (s : String) : Option ColumnType := all.find? (·.label == s)

theorem ofLabel?_label (t : ColumnType) : ofLabel? t.label = some t := by
  cases t <;> decide

end ColumnType

structure Column where
  id : Int32
  name : String
  type : ColumnType
  /-- whether every row must have a value -/
  required : Bool
  deriving Repr, DecidableEq, Inhabited

structure Schema where
  id : Int32
  columns : List Column
  deriving Repr, DecidableEq, Inhabited

/-! ## the order of ids -/

theorem left_le_max (a b : Int32) : a ≤ max a b := by
  show a ≤ if a ≤ b then b else a
  rw [Int32.le_iff_toInt_le]
  split
  · next h => exact Int32.le_iff_toInt_le.1 h
  · exact Int.le_refl _

theorem right_le_max (a b : Int32) : b ≤ max a b := by
  show b ≤ if a ≤ b then b else a
  rw [Int32.le_iff_toInt_le]
  split
  · exact Int.le_refl _
  · next h => rw [Int32.le_iff_toInt_le] at h; omega

theorem max_eq_or (a b : Int32) : max a b = a ∨ max a b = b := by
  show (if a ≤ b then b else a) = a ∨ (if a ≤ b then b else a) = b
  split
  · exact .inr rfl
  · exact .inl rfl

namespace Schema

/-- the schema without columns that every default starts from -/
def empty : Schema := ⟨0, []⟩

/-- the first column of that name -/
def column? (s : Schema) (name : String) : Option Column :=
  s.columns.find? (·.name == name)

/-- the highest id of a list of columns, 0 for no columns -/
def highestIdOf : List Column → Int32
  | [] => 0
  | c :: cs => cs.foldl (fun top c => max top c.id) c.id

def highestId (s : Schema) : Int32 := highestIdOf s.columns

private theorem le_foldl_max (cs : List Column) (top : Int32) :
    top ≤ cs.foldl (fun t c => max t c.id) top ∧
      ∀ c ∈ cs, c.id ≤ cs.foldl (fun t c => max t c.id) top := by
  induction cs generalizing top with
  | nil => exact ⟨Int32.le_refl _, by simp⟩
  | cons c cs ih =>
    obtain ⟨h1, h2⟩ := ih (max top c.id)
    refine ⟨Int32.le_trans (left_le_max _ _) h1, fun d hd => ?_⟩
    rcases List.mem_cons.1 hd with rfl | hd
    · exact Int32.le_trans (right_le_max _ _) h1
    · exact h2 d hd

private theorem foldl_max_eq_or (cs : List Column) (top : Int32) :
    cs.foldl (fun t c => max t c.id) top = top ∨
      ∃ c ∈ cs, c.id = cs.foldl (fun t c => max t c.id) top := by
  induction cs generalizing top with
  | nil => exact .inl rfl
  | cons c cs ih =>
    rcases ih (max top c.id) with h | ⟨d, hd, h⟩
    · rcases max_eq_or top c.id with hmax | hmax
      · exact .inl (h.trans hmax)
      · exact .inr ⟨c, List.mem_cons_self, (h.trans hmax).symm⟩
    · exact .inr ⟨d, List.mem_cons_of_mem c hd, h⟩

theorem le_highestIdOf {cs : List Column} {c : Column} (h : c ∈ cs) : c.id ≤ highestIdOf cs := by
  cases cs with
  | nil => simp at h
  | cons d cs =>
    obtain ⟨h1, h2⟩ := le_foldl_max cs d.id
    rcases List.mem_cons.1 h with rfl | h
    · exact h1
    · exact h2 c h

/-- the highest id is the id of a column, unless there is none -/
theorem exists_id_eq_highestIdOf {cs : List Column} (h : cs ≠ []) :
    ∃ c ∈ cs, c.id = highestIdOf cs := by
  cases cs with
  | nil => exact absurd rfl h
  | cons d cs =>
    rcases foldl_max_eq_or cs d.id with hd | ⟨c, hc, hid⟩
    · exact ⟨d, List.mem_cons_self, hd.symm⟩
    · exact ⟨c, List.mem_cons_of_mem d hc, hid⟩

theorem highestIdOf_lt_iff {cs : List Column} {top : Int32} :
    highestIdOf cs < top ↔ (∀ c ∈ cs, c.id < top) ∧ (cs = [] → 0 < top) := by
  constructor
  · intro h
    refine ⟨fun c hc => Int32.lt_of_le_of_lt (le_highestIdOf hc) h, ?_⟩
    rintro rfl
    exact h
  · rintro ⟨hall, hzero⟩
    by_cases hcs : cs = []
    · rw [hcs]
      exact hzero hcs
    · obtain ⟨c, hc, hid⟩ := exists_id_eq_highestIdOf hcs
      rw [← hid]
      exact hall c hc

theorem le_highestId {s : Schema} {c : Column} (h : c ∈ s.columns) : c.id ≤ s.highestId :=
  le_highestIdOf h

end Schema

end StagedTable
