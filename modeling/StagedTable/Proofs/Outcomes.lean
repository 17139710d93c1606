import StagedTable.Proofs.Turns

/-!
# How a commit on a table ends

There are four ends, and each excludes the ones after it: the update cannot be applied to the
cache; a planted fault strikes; the cache is not of the stored version; the commit lands.
`World.commit_outcome` says for each of them what the caller is told, where the update stands, and
what the commit does to the whole store and to every cache.  Short of landing, it does nothing but
use up the fault that struck.
-/

namespace StagedTable

namespace World

/-- what is stored under each name is as before -/
def SameTables (w w' : World) : Prop := ∀ j T, w'.stored? j T = w.stored? j T

/-- every handle caches what it cached before -/
def SameCaches (w w' : World) : Prop := ∀ id, w'.handle? id = w.handle? id

/-- nothing that is stored, planted or cached has changed -/
def Untouched (w w' : World) : Prop := w'.store = w.store ∧ w.SameCaches w'

/-- the fault of the catalog is used up, and nothing else has changed -/
def Struck (w : World) (i : Nat) (w' : World) : Prop :=
  w'.store = w.store.setCatalog i { w.store.catalog i with fault := none } ∧ w.SameCaches w'

/-- the metadata is stored under the name and cached by the handle, and nothing else has changed -/
def Landed (w : World) (i : Nat) (N : String) (id : HandleId) (hd : Handle) (m : Metadata)
    (w' : World) : Prop :=
  w'.store = w.store.put i N m ∧ w'.stored? i N = some m ∧
    w'.handle? id = some { hd with cache := m } ∧ ∀ id', id' ≠ id → w'.handle? id' = w.handle? id'

theorem sameCaches_settle {w : World} {id : HandleId} {o : Outcome Store}
    (ho : w.handle? id = some o.handle) : w.SameCaches (w.settle id o) := by
  intro id'
  rw [handle?_settle (open_of_handle? ho)]
  by_cases hid : id' = id
  · rw [if_pos hid, hid, ho]
  · rw [if_neg hid]

theorem landed_settle {w : World} {id : HandleId} {hd : Handle} {i : Nat} {N : String}
    {cur : Metadata} (ho : w.handle? id = some hd) (hcur : w.stored? i N = some cur) (m : Metadata)
    (st : Status) (events : List Event) :
    w.Landed i N id hd m
      (w.settle id ⟨st, { hd with cache := m }, w.store.put i N m, events⟩) := by
  refine ⟨rfl, ?_, ?_, fun id' hid => ?_⟩
  · exact (Store.stored?_put (Store.lt_of_stored? hcur) N m i N).trans (if_pos ⟨rfl, rfl⟩)
  · rw [handle?_settle (open_of_handle? ho), if_pos rfl]
  · rw [handle?_settle (open_of_handle? ho), if_neg hid]

theorem commit_eq {w : World} {id : HandleId} {hd : Handle} (ho : w.handle? id = some hd) {k : Kind}
    (u : Update k) {o : Outcome Store} (hsend : u.send id.backing.operations hd w.store = o) :
    w.commit id u = (u.settled o.status, o.status, w.settle id o) := by
  rw [commit, handle_of_handle? ho, ← hsend]
  rfl

/-- an update that cannot be applied to what the handle caches is not sent -/
theorem commit_of_error {w : World} {id : HandleId} {hd : Handle} (ho : w.handle? id = some hd)
    {k : Kind} {u : Update k} {why : Invalidity} (h : u.apply hd.cache = .error why) :
    ∃ w', w.commit id u = (u.settled (.error why.error), .error why.error, w') ∧
      w.Untouched w' :=
  ⟨_, commit_eq ho u (Update.send_of_error h w.store), rfl, sameCaches_settle ho⟩

/-- **The exact outcome of every commit** on a table of a catalog.  The update is tried on the cache
first, then a planted fault strikes, and then the versions are compared. -/
theorem commit_outcome {acts : List Action} (h : empty.Legal acts) {i n : Nat} {N : String}
    {hd : Handle} (ho : (empty.after acts).handle? ⟨.table i N, n⟩ = some hd) {k : Kind}
    (u : Update k) :
    let w := empty.after acts
    let u' := (w.commit ⟨.table i N, n⟩ u).1
    let status := (w.commit ⟨.table i N, n⟩ u).2.1
    let w' := (w.commit ⟨.table i N, n⟩ u).2.2
    u'.changes = u.changes ∧ u'.issues = u.issues ∧
    match u.apply hd.cache with
    | .error why => status = .error why.error ∧ u'.state = .invalid ∧ w.Untouched w'
    | .ok out =>
      match (w.store.catalog i).fault with
      | some .reject =>
        status = .error ⟨.commitFailed, (Catalog.CommitError.refused N).message⟩ ∧
          u'.state = .rejected ∧ w.Struck i w'
      | some .loseResponse =>
        status = .error ⟨.commitStateUnknown, (Catalog.CommitError.connectionLost N).message⟩ ∧
          u'.state = .unknown ∧ w.Struck i w'
      | none =>
        ∃ cur, w.stored? i N = some cur ∧
          if hd.cache.version = cur.version then
            status = .ok () ∧ u'.state = .committed ∧
              w.Landed i N ⟨.table i N, n⟩ hd ((k.install out hd.cache).succeeding hd.cache) w'
          else
            status = .error ⟨.commitFailed,
                (Catalog.CommitError.stale N hd.cache.version cur.version).message⟩ ∧
              u'.state = .rejected ∧ w.Untouched w' := by
  intro w u' status w'
  -- one equation for the whole commit in each case; the four parts of the answer are read off it
  have hends : ∀ {o : Outcome Store}, u.send (Backing.table i N).operations hd w.store = o →
      status = o.status ∧ u'.state = .ofStatus o.status ∧ w' = w.settle ⟨.table i N, n⟩ o := by
    intro o hsend
    have hc := commit_eq ho u hsend
    exact ⟨congrArg (·.2.1) hc, congrArg (·.1.state) hc, congrArg (·.2.2) hc⟩
  have hsame : ∀ {st : Status} {s : Store} {events : List Event},
      w.SameCaches (w.settle ⟨.table i N, n⟩ ⟨st, hd, s, events⟩) := sameCaches_settle ho
  refine ⟨rfl, rfl, ?_⟩
  cases ha : u.apply hd.cache with
  | error why =>
    obtain ⟨hst, hstate, hw⟩ := hends (Update.send_of_error ha w.store)
    rw [CommitState.ofStatus_validationFailed why.kind_error] at hstate
    exact ⟨hst, hstate, hw ▸ ⟨rfl, hsame⟩⟩
  | ok out =>
    obtain ⟨cur, hcur, _⟩ := coherent_after h _ hd ho i N rfl
    have hsend : u.send (Backing.table i N).operations hd w.store = _ :=
      Update.send_of_ok ha w.store
    cases hf : (w.store.catalog i).fault with
    | some f =>
      obtain ⟨hst, hstate, hw⟩ := hends (hsend.trans (hd.commitMetadata_of_fault hf _ _))
      cases f with
      | reject => exact ⟨hst, hstate, hw ▸ ⟨rfl, hsame⟩⟩
      | loseResponse => exact ⟨hst, hstate, hw ▸ ⟨rfl, hsame⟩⟩
    | none =>
      refine ⟨cur, hcur, ?_⟩
      by_cases hv : hd.cache.version = cur.version
      · obtain ⟨hst, hstate, hw⟩ :=
          hends (hsend.trans (hd.commitMetadata_of_current hf hcur hv.symm _))
        rw [if_pos hv]
        exact ⟨hst, hstate, hw ▸ landed_settle ho hcur _ _ _⟩
      · obtain ⟨hst, hstate, hw⟩ :=
          hends (hsend.trans (hd.commitMetadata_of_stale hf hcur (Ne.symm hv) _))
        rw [if_neg hv]
        exact ⟨hst, hstate, hw ▸ ⟨rfl, hsame⟩⟩

/-- the first handle is late, but it is the fault that it is told of -/
theorem commit_outcome_race :
    let w := empty.after race
    let r := w.commit (orders 0) (moveTo "a://late")
    r.2.1 = .error ⟨.commitFailed, "Commit to orders was rejected by the catalog"⟩ ∧
      r.1.state = .rejected ∧ w.Struck 0 r.2.2 := by
  have ho : (empty.after race).Open (orders 0) := by decide +kernel
  obtain ⟨_, _, hend⟩ := commit_outcome legal_race (handle?_of_open ho) (moveTo "a://late")
  exact hend

end World

end StagedTable
