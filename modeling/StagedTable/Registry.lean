/-!
# Registries

Values under keys, in the order in which the keys first came.  `get?` is the view, and a value
that is set is seen at its own key only (`get?_set`).
-/

namespace StagedTable

structure Registry (κ α : Type) where
  entries : List (κ × α)

namespace Registry

variable {κ α : Type} [DecidableEq κ]

def empty : Registry κ α := ⟨[]⟩

instance : Inhabited (Registry κ α) := ⟨empty⟩

/-- the first value of a key -/
def find? (k : κ) : List (κ × α) → Option α
  | [] => none
  | e :: es => if e.1 = k then some e.2 else find? k es

/-- replaces the value of a key in its place, or appends it -/
def replace (k : κ) (v : α) : List (κ × α) → List (κ × α)
  | [] => [(k, v)]
  | e :: es => if e.1 = k then (k, v) :: es else e :: replace k v es

def get? (r : Registry κ α) (k : κ) : Option α := find? k r.entries

def set (r : Registry κ α) (k : κ) (v : α) : Registry κ α := ⟨replace k v r.entries⟩

@[simp] theorem get?_empty (k : κ) : (empty : Registry κ α).get? k = none := rfl

theorem find?_replace (k : κ) (v : α) (es : List (κ × α)) (x : κ) :
    find? x (replace k v es) = if x = k then some v else find? x es := by
  induction es with
  | nil => simp [replace, find?, eq_comm]
  | cons e es ih => grind [replace, find?]

@[grind =] theorem get?_set (r : Registry κ α) (k : κ) (v : α) (x : κ) :
    (r.set k v).get? x = if x = k then some v else r.get? x :=
  find?_replace k v r.entries x

end Registry

end StagedTable
