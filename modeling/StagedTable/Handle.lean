import StagedTable.Event
import StagedTable.Operations

/-!
# Table handles

A handle is an identifier and a cached copy of the table's metadata.  The cache changes in one
way only: it is replaced by what a successful refresh returns.

* `Handle.attach`          opens a handle by a first refresh;
* `Handle.refresh`         reads the metadata again;
* `Handle.commitMetadata`  the ONE way to the operations' commit.  A commit that lands is followed
                           by a refresh; should that fail, the commit is a success all the same,
                           and only the cache is old.
-/

namespace StagedTable

structure Handle where
  ident : String
  /-- the metadata as last read -/
  cache : Metadata

instance : Inhabited Handle := ⟨⟨"", default⟩⟩

/-- how a call on a handle ends -/
structure Outcome (σ : Type) where
  status : Status
  handle : Handle
  store : σ
  events : List Event

namespace Handle

variable {σ : Type}

def attach (ops : Operations σ) (ident : String) (s : σ) : Except Error Handle × σ :=
  match ops.refresh s with
  | (.ok m, s) => (.ok ⟨ident, m⟩, s)
  | (.error e, s) => (.error e, s)

def refresh (ops : Operations σ) (h : Handle) (s : σ) : Outcome σ :=
  match ops.refresh s with
  | (.ok m, s) => ⟨.ok (), { h with cache := m }, s, []⟩
  | (.error e, s) => ⟨.error e, h, s, []⟩

/-- asks that `new` replace `base`, and reads the result back -/
def commitMetadata (ops : Operations σ) (h : Handle) (base new : Metadata) (s : σ) : Outcome σ :=
  match ops.commit base new s with
  | (.error e, s) => ⟨.error e, h, s, [.commitFailed h.ident base.version e]⟩
  | (.ok (), s) =>
    match ops.refresh s with
    | (.error e, s) => ⟨.ok (), h, s, [.refreshFailed h.ident base.version e]⟩
    | (.ok m, s) => ⟨.ok (), { h with cache := m }, s, [.committed h.ident m.version]⟩

theorem commitMetadata_of_error {ops : Operations σ} {base new : Metadata} {s s' : σ} {e : Error}
    (h : Handle) (hc : ops.commit base new s = (.error e, s')) :
    h.commitMetadata ops base new s =
      ⟨.error e, h, s', [.commitFailed h.ident base.version e]⟩ := by
  simp [commitMetadata, hc]

theorem commitMetadata_status (ops : Operations σ) (h : Handle) (base new : Metadata) (s : σ) :
    (h.commitMetadata ops base new s).status = (ops.commit base new s).1 := by
  unfold commitMetadata
  split
  · next heq => simp [heq]
  · next heq => split <;> simp [heq]

end Handle

end StagedTable
