import StagedTable.Proofs.Turns

/-!
# Commits that reach a table

An update that cannot be applied to its handle's cache is never sent.  All other commits, and all
commits of raw metadata, are sent to the mechanism behind their handle.

* `World.sent?`                    what an action sends: through which handle, and the two records;
* `World.act_of_sent`              the action is then that commit of metadata, and nothing else;
* `World.act_commit_of_invalid`    an update that is not sent does nothing but say why;
* `Handle.commitMetadata_table`    on a table of a catalog a commit that is sent has three ends, and
                                   `Handle.TableCommit` lists them with all that they do.
-/

namespace StagedTable

/-- how a commit ends that is sent to a table: a fault strikes, the base is old, or it lands -/
inductive Handle.TableCommit (h : Handle) (i : Nat) (N : String) (base new : Metadata) (s : Store) :
    Outcome Store → Prop
  | struck {f : Catalog.Fault} (hf : (s.catalog i).fault = some f) :
      TableCommit h i N base new s
        ⟨.error (f.strike N).error, h, s.setCatalog i { s.catalog i with fault := none },
          [.commitFailed h.ident base.version (f.strike N).error]⟩
  | stale {cur : Metadata} (hf : (s.catalog i).fault = none) (hcur : s.stored? i N = some cur)
      (hv : cur.version ≠ base.version) :
      TableCommit h i N base new s
        ⟨.error (Catalog.CommitError.stale N base.version cur.version).error, h, s,
          [.commitFailed h.ident base.version
            (Catalog.CommitError.stale N base.version cur.version).error]⟩
  | landed {cur : Metadata} (hf : (s.catalog i).fault = none) (hcur : s.stored? i N = some cur)
      (hv : cur.version = base.version) :
      TableCommit h i N base new s
        ⟨.ok (), { h with cache := new.succeeding base }, s.put i N (new.succeeding base),
          [.committed h.ident (base.version + 1)]⟩

/-- a commit on a table that is there has one of the three ends -/
theorem Handle.commitMetadata_table {i : Nat} {N : String} {s : Store} {cur : Metadata}
    (hcur : s.stored? i N = some cur) (h : Handle) (base new : Metadata) :
    h.TableCommit i N base new s
      (h.commitMetadata (Backing.table i N).operations base new s) := by
  cases hf : (s.catalog i).fault with
  | some f =>
    rw [h.commitMetadata_of_fault hf]
    exact .struck hf
  | none =>
    by_cases hv : cur.version = base.version
    · rw [h.commitMetadata_of_current hf hcur hv]
      exact .landed hf hcur hv
    · rw [h.commitMetadata_of_stale hf hcur hv]
      exact .stale hf hcur hv

namespace World

/-- what an action sends to a commit mechanism: the handle it goes through, the base, and the
metadata that is to replace it -/
def sent? (w : World) : Action → Option (HandleId × Metadata × Metadata)
  | .commitMetadata id base new => some (id, base, new)
  | .commit p =>
    match p.apply w with
    | .ok out => some (p.handle, (w.handle p.handle).cache,
        p.kind.install out (w.handle p.handle).cache)
    | .error _ => none
  | _ => none

theorem sent?_commit_of_ok {w : World} {p : Pending} {out : p.kind.Output}
    (ha : p.apply w = .ok out) : w.sent? (.commit p) = some (p.handle, (w.handle p.handle).cache,
      p.kind.install out (w.handle p.handle).cache) := by
  rw [sent?, ha]

theorem sent?_commit_of_error {w : World} {p : Pending} {why : Invalidity}
    (ha : p.apply w = .error why) : w.sent? (.commit p) = none := by
  rw [sent?, ha]

/-- what is sent goes through an open handle -/
theorem open_of_sent {w : World} {a : Action} {id : HandleId} {base new : Metadata}
    (hf : a.Fits w) (hs : w.sent? a = some (id, base, new)) : w.Open id := by
  cases a with
  | commitMetadata id' base' new' =>
    cases hs
    exact hf
  | commit p =>
    cases ha : p.apply w with
    | error why =>
      rw [sent?_commit_of_error ha] at hs
      cases hs
    | ok out =>
      rw [sent?_commit_of_ok ha] at hs
      cases hs
      exact hf
  | _ => cases hs

/-- an action that sends something is the commit of what it sends -/
theorem act_of_sent {w : World} {a : Action} {id : HandleId} {base new : Metadata}
    (h : w.sent? a = some (id, base, new)) :
    let o := (w.handle id).commitMetadata id.backing.operations base new w.store
    w.act a = (o.status, w.settle id o) := by
  cases a with
  | commitMetadata id' base' new' =>
    cases h
    rfl
  | commit p =>
    cases ha : p.apply w with
    | error why =>
      rw [sent?_commit_of_error ha] at h
      cases h
    | ok out =>
      rw [sent?_commit_of_ok ha] at h
      cases h
      have hsend : p.update.send p.handle.backing.operations (w.handle p.handle) w.store = _ :=
        Update.send_of_ok ha w.store
      show ((p.update.send _ _ _).status, w.settle _ (p.update.send _ _ _)) = _
      rw [hsend]
  | _ => cases h

theorem act_commit_of_invalid {w : World} {p : Pending} {why : Invalidity}
    (ha : p.apply w = .error why) :
    w.act (.commit p) = (.error why.error,
      w.settle p.handle ⟨.error why.error, w.handle p.handle, w.store, why.events⟩) := by
  have hsend : p.update.send p.handle.backing.operations (w.handle p.handle) w.store = _ :=
    Update.send_of_error ha w.store
  show ((p.update.send _ _ _).status, w.settle _ (p.update.send _ _ _)) = _
  rw [hsend]

/-- what is sent to a table ends as `Handle.TableCommit` says -/
theorem act_of_sent_table {w : World} (hco : w.Coherent) {a : Action} {i n : Nat} {N : String}
    {hd : Handle} {base new : Metadata} (ho : w.handle? ⟨.table i N, n⟩ = some hd)
    (h : w.sent? a = some (⟨.table i N, n⟩, base, new)) :
    ∃ o, hd.TableCommit i N base new w.store o ∧
      w.act a = (o.status, w.settle ⟨.table i N, n⟩ o) := by
  obtain ⟨cur, hcur, _⟩ := hco _ hd ho i N rfl
  have hact := act_of_sent h
  rw [handle_of_handle? ho] at hact
  exact ⟨_, hd.commitMetadata_table hcur base new, hact⟩

end World

end StagedTable
