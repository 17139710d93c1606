import StagedTable.Catalog
import StagedTable.Operations.Script

/-!
# Stores

Everything that is stored: the catalogs, and the scripts with the calls they have received.

* `Backing`             what a handle can be open on: a table of a catalog, or a script;
* `Backing.operations`  the operations of a backing, on the store as a whole.  They touch the
                        one catalog or script that the backing lies in.
-/

namespace StagedTable

structure Store where
  catalogs : List Catalog
  scripts : List (Operations.Recorded Script)

namespace Store

def empty : Store := ⟨[], []⟩

def catalog (s : Store) (i : Nat) : Catalog := (s.catalogs[i]?).getD default

def setCatalog (i : Nat) (c : Catalog) (s : Store) : Store :=
  { s with catalogs := s.catalogs.set i c }

def script (s : Store) (i : Nat) : Operations.Recorded Script :=
  (s.scripts[i]?).getD ⟨default, []⟩

def setScript (i : Nat) (x : Operations.Recorded Script) (s : Store) : Store :=
  { s with scripts := s.scripts.set i x }

theorem catalog_setCatalog {s : Store} {i : Nat} (hi : i < s.catalogs.length) (c : Catalog)
    (j : Nat) : (s.setCatalog i c).catalog j = if j = i then c else s.catalog j := by
  by_cases h : j = i
  · subst h; simp [catalog, setCatalog, hi]
  · simp [catalog, setCatalog, h, Ne.symm h]

@[simp] theorem scripts_setCatalog (i : Nat) (c : Catalog) (s : Store) :
    (s.setCatalog i c).scripts = s.scripts := rfl

@[simp] theorem catalogs_setScript (i : Nat) (x : Operations.Recorded Script) (s : Store) :
    (s.setScript i x).catalogs = s.catalogs := rfl

end Store

inductive Backing where
  | table (catalog : Nat) (name : String)
  | script (index : Nat)
  deriving Repr, DecidableEq

def Backing.operations : Backing → Operations Store
  | .table i name => (Catalog.operations name).focus (·.catalog i) (Store.setCatalog i)
  | .script i => Script.operations.recorded.focus (·.script i) (Store.setScript i)

end StagedTable
