import StagedTable.Proofs.Outcomes

/-!
# Commits through fresh handles

A handle on a table is fresh if its cache is what is stored and no fault is planted.  Then nothing
stands in the way of a commit: the update lands, or fails its own checks, and either way the handle
is fresh afterwards.

* `Update.verdict`, `Update.next`   how such a commit ends, and what is stored after it, as functions
                                    of what is stored before;
* `World.Fresh`                     nothing stands in the way of a commit through the handle;
* `World.Moves`                     nothing changes but one table and the cache of one handle on it;
* `World.commit_of_fresh`           a commit through a fresh handle;
* `World.fresh_of_refresh`, `World.fresh_of_load`  how a handle becomes fresh.
-/

namespace StagedTable

/-! ## what an update comes to -/

namespace Update

variable {k : Kind}

/-- how a commit ends that only the update's own checks can fail -/
def verdict (u : Update k) (m : Metadata) : Status :=
  match u.apply m with
  | .ok _ => .ok ()
  | .error why => .error why.error

/-- what is stored after such a commit -/
def next (u : Update k) (m : Metadata) : Metadata :=
  match u.apply m with
  | .ok out => (k.install out m).succeeding m
  | .error _ => m

section
variable {u : Update k} {m : Metadata}

theorem verdict_of_ok {out : k.Output} (h : u.apply m = .ok out) : u.verdict m = .ok () := by
  rw [verdict, h]

theorem verdict_of_error {why : Invalidity} (h : u.apply m = .error why) :
    u.verdict m = .error why.error := by
  rw [verdict, h]

theorem next_of_ok {out : k.Output} (h : u.apply m = .ok out) :
    u.next m = (k.install out m).succeeding m := by
  rw [next, h]

theorem next_of_error {why : Invalidity} (h : u.apply m = .error why) : u.next m = m := by
  rw [next, h]

end

theorem version_next (u : Update k) (m : Metadata) :
    (u.next m).version = m.version + if (u.verdict m).isOk then 1 else 0 := by
  cases h : u.apply m with
  | error why => rw [next_of_error h, verdict_of_error h]; rfl
  | ok out => rw [next_of_ok h, verdict_of_ok h]; rfl

theorem formatVersion_next (u : Update k) (m : Metadata) :
    (u.next m).formatVersion = m.formatVersion := by
  cases h : u.apply m with
  | error why => rw [next_of_error h]
  | ok out => rw [next_of_ok h]; exact k.install_formatVersion out m

/-- what an update does to stored metadata is to land its change, or nothing -/
theorem replay_next (u : Update k) (m : Metadata) :
    replay m (if (u.verdict m).isOk then [.update k u.changes] else []) = some (u.next m) := by
  cases ha : u.apply m with
  | error why =>
    rw [verdict_of_error ha, next_of_error ha]
    rfl
  | ok out =>
    rw [verdict_of_ok ha, next_of_ok ha]
    exact (replay_snoc m [] _).trans (Change.on_update_of_ok (applyTo_of_apply ha))

theorem verdict_cases (u : Update k) (m : Metadata) :
    u.verdict m = .ok () ∨ ∃ e, u.verdict m = .error e ∧ e.kind = .validationFailed := by
  cases ha : u.apply m with
  | error why => exact .inr ⟨_, verdict_of_error ha, why.kind_error⟩
  | ok out => exact .inl (verdict_of_ok ha)

end Update

namespace World

/-! ## fresh handles -/

/-- nothing has changed but what is stored under one name, and what one handle on it caches -/
structure Moves (w : World) (i : Nat) (N : String) (n : Nat) (w' : World) : Prop where
  tables : ∀ j T, ¬ (j = i ∧ T = N) → w'.stored? j T = w.stored? j T
  handles : ∀ id, id ≠ ⟨.table i N, n⟩ → w'.handle? id = w.handle? id

/-- the handle caches what is stored, and no fault is planted -/
structure Fresh (w : World) (i : Nat) (N : String) (n : Nat) (hd : Handle) : Prop where
  unplanted : (w.store.catalog i).fault = none
  isOpen : w.handle? ⟨.table i N, n⟩ = some hd
  current : w.stored? i N = some hd.cache

theorem Moves.refl (w : World) (i : Nat) (N : String) (n : Nat) : w.Moves i N n w :=
  ⟨fun _ _ _ => rfl, fun _ _ => rfl⟩

theorem Moves.trans {w w' w'' : World} {i n : Nat} {N : String} (h : w.Moves i N n w')
    (h' : w'.Moves i N n w'') : w.Moves i N n w'' where
  tables := fun j T hj => (h'.tables j T hj).trans (h.tables j T hj)
  handles := fun id hid => (h'.handles id hid).trans (h.handles id hid)

/-- a commit that lands where no fault is planted leaves its handle fresh -/
theorem fresh_of_landed {w w' : World} {i n : Nat} {N : String} {hd : Handle} {cur m : Metadata}
    (hf : (w.store.catalog i).fault = none) (hcur : w.stored? i N = some cur)
    (h : w.Landed i N ⟨.table i N, n⟩ hd m w') :
    w'.Fresh i N n { hd with cache := m } ∧ w.Moves i N n w' := by
  have hi := Store.lt_of_stored? hcur
  obtain ⟨hstore, hs, hh, hrest⟩ := h
  refine ⟨⟨?_, hh, hs⟩, ⟨fun j T hj => ?_, hrest⟩⟩
  · rw [hstore, Store.put, Store.catalog_setCatalog hi, if_pos rfl]
    exact hf
  · rw [stored?, hstore, Store.stored?_put hi N m j T, if_neg hj]
    rfl

/-- through a fresh handle an update lands or fails its own checks, and the handle stays fresh -/
theorem commit_of_fresh {w : World} {i n : Nat} {N : String} {hd : Handle}
    (hfresh : w.Fresh i N n hd) {k : Kind} (u : Update k) :
    ∃ w', w.commit ⟨.table i N, n⟩ u =
        (u.settled (u.verdict hd.cache), u.verdict hd.cache, w') ∧
      w'.Fresh i N n { hd with cache := u.next hd.cache } ∧ w.Moves i N n w' := by
  obtain ⟨hf, ho, hcur⟩ := hfresh
  cases ha : u.apply hd.cache with
  | error why =>
    obtain ⟨w', hcommit, hstore, hsame⟩ := commit_of_error ho ha
    have hstored : w.SameTables w' := fun j T => congrArg (·.stored? j T) hstore
    rw [Update.verdict_of_error ha, Update.next_of_error ha]
    refine ⟨w', hcommit, ⟨?_, (hsame _).trans ho, (hstored i N).trans hcur⟩, ?_⟩
    · rw [hstore]
      exact hf
    · exact ⟨fun j T _ => hstored j T, fun id _ => hsame id⟩
  | ok out =>
    have hsend := (Update.send_of_ok ha w.store).trans
      (hd.commitMetadata_of_current hf hcur rfl _)
    rw [Update.verdict_of_ok ha, Update.next_of_ok ha]
    exact ⟨_, commit_eq ho u hsend, fresh_of_landed hf hcur (landed_settle ho hcur _ _ _)⟩

section
variable {w : World} {i n : Nat} {N : String} {cur : Metadata}
  (hf : (w.store.catalog i).fault = none) (hcur : w.stored? i N = some cur)
include hf hcur

theorem fresh_of_refresh {hd : Handle} (ho : w.handle? ⟨.table i N, n⟩ = some hd) :
    ∃ w', w.refresh ⟨.table i N, n⟩ = (.ok (), w') ∧ w'.Fresh i N n { hd with cache := cur } ∧
      w.SameTables w' := by
  have hrefresh : w.refresh ⟨.table i N, n⟩ = (.ok (), w.settle ⟨.table i N, n⟩
      ⟨.ok (), { hd with cache := cur }, w.store, []⟩) := by
    rw [refresh, handle_of_handle? ho, hd.refresh_table hcur]
  refine ⟨_, hrefresh, ⟨hf, ?_, hcur⟩, fun _ _ => rfl⟩
  rw [handle?_settle (open_of_handle? ho), if_pos rfl]

theorem fresh_of_load : ∃ n' w', w.load i N = (.ok ⟨.table i N, n'⟩, w') ∧
    w'.Fresh i N n' ⟨N, cur⟩ ∧ w.SameTables w' := by
  have hattach := attach_table hcur N
  have hopened := handle?_attach_table hcur N ⟨.table i N, (w.handlesOn (.table i N)).length⟩
  rw [hattach, if_pos rfl] at hopened
  exact ⟨_, _, (load_of_stored hcur).trans hattach, ⟨hf, hopened, hcur⟩, fun _ _ => rfl⟩

end

end World

end StagedTable
