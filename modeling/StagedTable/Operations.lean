import StagedTable.Error
import StagedTable.Metadata

/-!
# Commit mechanisms

A table's metadata lives behind two operations: read what is stored, and replace it.  Any state
with these two operations can carry tables.

* `Operations σ`         the two operations, over a state `σ`;
* `Operations.focus`     operations on a part of a larger state;
* `Operations.recorded`  the same operations, with a record of every exchange.
-/

namespace StagedTable

structure Operations (σ : Type) where
  /-- reads the stored metadata -/
  refresh : σ → Except Error Metadata × σ
  /-- asks that the second metadata record replace the first -/
  commit : Metadata → Metadata → σ → Status × σ

namespace Operations

variable {σ τ : Type}

/-- operations on the part of a state that `get` reads and `put` writes -/
def focus (ops : Operations σ) (get : τ → σ) (put : σ → τ → τ) : Operations τ where
  refresh t := let r := ops.refresh (get t); (r.1, put r.2 t)
  commit base new t := let r := ops.commit base new (get t); (r.1, put r.2 t)

/-! ## records of exchanges -/

/-- one call of an operation, with its answer -/
inductive Exchange where
  | refresh (answer : Except Error Metadata)
  | commit (base new : Metadata) (answer : Status)

/-- a state with all exchanges so far, oldest first -/
structure Recorded (σ : Type) where
  state : σ
  exchanges : List Exchange

def recorded (ops : Operations σ) : Operations (Recorded σ) where
  refresh r := let a := ops.refresh r.state; (a.1, ⟨a.2, r.exchanges ++ [.refresh a.1]⟩)
  commit base new r :=
    let a := ops.commit base new r.state; (a.1, ⟨a.2, r.exchanges ++ [.commit base new a.1]⟩)

end Operations

end StagedTable
