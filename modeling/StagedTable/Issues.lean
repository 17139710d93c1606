import StagedTable.Error

/-!
# Recorded issues

Staging calls do not stop at the first mistake: what is wrong is recorded, in order, and
reported all at once when the staged changes are used.

* `Issues`         the errors recorded so far, oldest first;
* `Issues.report`  the ONE error that stands for all entries: a header line, then a line for
                   each message;
* `Issues.check`   fails with the report as soon as there is an entry.

The report of two records put together is the first report followed by the lines of the
second (`lines_append`), because every line is written without looking at its neighbours.
-/

namespace StagedTable

/-- errors recorded so far, oldest first -/
structure Issues where
  errors : List Error
  deriving Repr, DecidableEq

namespace Issues

def empty : Issues := ⟨[]⟩

instance : Inhabited Issues := ⟨empty⟩

/-- records one more error, after those already there -/
def record (i : Issues) (e : Error) : Issues := ⟨i.errors ++ [e]⟩

/-- records several errors, keeping their order -/
def extend (i : Issues) (es : List Error) : Issues := ⟨i.errors ++ es⟩

def isEmpty (i : Issues) : Bool := i.errors.isEmpty

def count (i : Issues) : Nat := i.errors.length

@[simp] theorem errors_empty : empty.errors = [] := rfl
@[simp] theorem errors_record (i : Issues) (e : Error) :
    (i.record e).errors = i.errors ++ [e] := rfl
@[simp] theorem errors_extend (i : Issues) (es : List Error) :
    (i.extend es).errors = i.errors ++ es := rfl

/-! ## the report -/

/-- first line of every report -/
def header : String := "Validation failed due to the following errors:\n"

/-- stands in front of each reported message -/
def marker : String := "  - "

def line (e : Error) : String := marker ++ e.message ++ "\n"

def lines : List Error → String
  | [] => ""
  | e :: es => line e ++ lines es

theorem lines_nil : lines [] = "" := rfl
theorem lines_cons (e : Error) (es : List Error) : lines (e :: es) = line e ++ lines es := rfl
theorem lines_append (a b : List Error) : lines (a ++ b) = lines a ++ lines b := by
  induction a with
  | nil => simp [lines_nil]
  | cons e es ih => simp [lines_cons, ih, String.append_assoc]

def report (i : Issues) : Error := ⟨.validationFailed, header ++ lines i.errors⟩

theorem lines_eq_join (es : List Error) : lines es = String.join (es.map line) := by
  induction es with
  | nil => rfl
  | cons e es ih => rw [lines_cons, List.map_cons, String.join_cons, ih]

/-- the text of a report of these messages: the header, and a line for each -/
def listing (messages : List String) : String :=
  header ++ String.join (messages.map fun message => marker ++ message ++ "\n")

theorem report_eq (i : Issues) :
    i.report = ⟨.validationFailed, listing (i.errors.map (·.message))⟩ := by
  rw [report, lines_eq_join, listing, List.map_map]
  rfl

@[simp] theorem kind_report (i : Issues) : i.report.kind = .validationFailed := rfl

/-- fails with the report as soon as anything is recorded -/
def check (i : Issues) : Status :=
  if i.isEmpty then .ok () else .error i.report

theorem check_eq_ok_iff (i : Issues) : i.check = .ok () ↔ i.errors = [] := by
  cases h : i.errors <;> simp [check, isEmpty, h]

theorem check_of_ne_nil {i : Issues} (h : i.errors ≠ []) : i.check = .error i.report := by
  simp [check, isEmpty, h]

end Issues

end StagedTable
