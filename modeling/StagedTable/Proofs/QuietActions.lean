import StagedTable.Proofs.Simulation
import StagedTable.Proofs.TableCommits

/-!
# Actions that do not notice a fault

Let a fault be planted in a catalog, or be taken away from it.  An action that plants nothing there
and sends no commit to it does the same with or without the fault, and leaves it as it is.

* `Store.withFault`      the store with a fault in one catalog, or with none;
* `World.Quiet`          the action plants nothing in the catalog and sends nothing to it;
* `World.act_withFault`  a quiet action ends in the same way, whatever is planted.
-/

namespace StagedTable

namespace Store

/-- the store with a fault in one catalog, or with none -/
def withFault (s : Store) (i : Nat) (x : Option Catalog.Fault) : Store :=
  s.setCatalog i { s.catalog i with fault := x }

theorem catalog_setCatalog_of_ne {i j : Nat} (h : j ≠ i) (c : Catalog) (s : Store) :
    (s.setCatalog i c).catalog j = s.catalog j := by
  rw [catalog, setCatalog, List.getElem?_set_ne h.symm, ← catalog]

theorem setCatalog_comm {i j : Nat} (h : i ≠ j) (c d : Catalog) (s : Store) :
    (s.setCatalog i c).setCatalog j d = (s.setCatalog j d).setCatalog i c :=
  congrArg (Store.mk · s.scripts) (List.set_comm c d h)

theorem fault_of_length_le {s : Store} {i : Nat} (hi : s.catalogs.length ≤ i) :
    (s.catalog i).fault = none := by
  rw [catalog, List.getElem?_eq_none hi]
  rfl

theorem withFault_self (s : Store) (i : Nat) : s.withFault i (s.catalog i).fault = s :=
  s.setCatalog_catalog i

theorem withFault_withFault (s : Store) (i : Nat) (x y : Option Catalog.Fault) :
    (s.withFault i x).withFault i y = s.withFault i y := by
  by_cases hi : i < s.catalogs.length
  · have hcat : (s.withFault i x).catalog i = { s.catalog i with fault := x } := by
      rw [withFault, catalog_setCatalog hi, if_pos rfl]
    rw [withFault, hcat]
    exact congrArg (Store.mk · s.scripts) (List.set_set ..)
  · have hself : s.withFault i x = s :=
      congrArg (Store.mk · s.scripts) (List.set_eq_of_length_le (Nat.le_of_not_lt hi))
    rw [hself]

section
variable {s : Store} {i : Nat} {x : Option Catalog.Fault}

/-- a catalog that is not there has no fault -/
theorem catalog_withFault (hx : x ≠ none → i < s.catalogs.length) (j : Nat) :
    (s.withFault i x).catalog j =
      if j = i then { s.catalog i with fault := x } else s.catalog j := by
  by_cases hi : i < s.catalogs.length
  · exact catalog_setCatalog hi _ j
  · have hnone : x = none := by
      by_contra hne
      exact hi (hx hne)
    have hfault := fault_of_length_le (Nat.le_of_not_lt hi)
    rw [hnone, ← hfault, withFault_self]
    split
    · next hj => rw [hj]
    · rfl

theorem withFault_comm {j : Nat} (h : i ≠ j) (y : Option Catalog.Fault) :
    (s.withFault i x).withFault j y = (s.withFault j y).withFault i x := by
  have hi : (s.withFault j y).catalog i = s.catalog i := catalog_setCatalog_of_ne h _ s
  have hj : (s.withFault i x).catalog j = s.catalog j := catalog_setCatalog_of_ne h.symm _ s
  rw [withFault, hj, withFault, setCatalog_comm h, withFault, hi, withFault]

/-- tables that are put into a catalog leave its fault alone -/
theorem put_withFault {j : Nat} (hj : j < s.catalogs.length)
    (hx : x ≠ none → i < s.catalogs.length) (N : String) (m : Metadata) :
    (s.withFault i x).put j N m = (s.put j N m).withFault i x := by
  by_cases hij : j = i
  · subst hij
    rw [put, put, withFault, withFault, catalog_setCatalog hj, catalog_setCatalog hj, if_pos rfl,
      if_pos rfl]
    show Store.mk ((s.catalogs.set j _).set j _) _ = Store.mk ((s.catalogs.set j _).set j _) _
    rw [List.set_set, List.set_set]
    rfl
  · rw [put, catalog_withFault hx, if_neg hij, withFault, setCatalog_comm (Ne.symm hij), put,
      withFault, catalog_setCatalog_of_ne (Ne.symm hij)]

end

end Store

/-! ## operations that do not look at a fault -/

/-- the second store is the first one with that planted in a catalog -/
structure Replanted (i : Nat) (x : Option Catalog.Fault) (s t : Store) : Prop where
  isThere : x ≠ none → i < s.catalogs.length
  eq : t = s.withFault i x

section
variable {i : Nat} {x : Option Catalog.Fault} {s t : Store}

theorem Backing.refresh_replanted (b : Backing) (h : Replanted i x s t) :
    AnswersAlike (Replanted i x) (b.operations.refresh s) (b.operations.refresh t) := by
  obtain ⟨hx, rfl⟩ := h
  cases b with
  | script k => exact ⟨rfl, hx, rfl⟩
  | table j N =>
    have hs : (s.withFault i x).stored? j N = s.stored? j N := s.stored?_setFault i x j N
    rw [refresh_table_eq, refresh_table_eq, hs]
    exact ⟨rfl, hx, rfl⟩

/-- a commit that is not sent to the catalog does not look at its fault -/
theorem Backing.commit_replanted {b : Backing} (hb : ∀ N, b ≠ .table i N) (base new : Metadata)
    (h : Replanted i x s t) : AnswersAlike (Replanted i x) (b.operations.commit base new s)
      (b.operations.commit base new t) := by
  obtain ⟨hx, rfl⟩ := h
  cases b with
  | script k => exact ⟨rfl, hx, rfl⟩
  | table j N =>
    have hj : j ≠ i := by
      rintro rfl
      exact hb N rfl
    rw [commit_table, commit_table, Store.catalog_withFault hx, if_neg hj]
    refine ⟨rfl, fun hne => ?_, ?_⟩
    · exact Nat.lt_of_lt_of_eq (hx hne) List.length_set.symm
    · show Store.setCatalog j _ (s.withFault i x) = Store.withFault (s.setCatalog j _) i x
      rw [Store.withFault, Store.setCatalog_comm hj.symm, Store.withFault,
        Store.catalog_setCatalog_of_ne hj.symm]

end

namespace World

/-- the world with a fault in one catalog, or with none -/
def withFault (w : World) (i : Nat) (x : Option Catalog.Fault) : World :=
  { w with store := w.store.withFault i x }

section
variable {w : World} {i : Nat} {x : Option Catalog.Fault}
  (hx : x ≠ none → i < w.store.catalogs.length)

theorem settle_withFault {o o' : Outcome Store} (h : o.Alike (Replanted i x) o') (id : HandleId) :
    (o'.status, (w.withFault i x).settle id o') = (o.status, (w.settle id o).withFault i x) := by
  obtain ⟨status, handle, store, events⟩ := o
  obtain ⟨rfl, rfl, rfl, hstore⟩ := h
  obtain ⟨status, handle, store', events⟩ := o'
  obtain rfl : store' = store.withFault i x := hstore.eq
  rfl

include hx

theorem addCatalog_withFault (config : Catalog.Config) :
    ((w.withFault i x).addCatalog config).2 = (w.addCatalog config).2.withFault i x := by
  have hcat := w.catalog_addCatalog config i
  by_cases hi : i < w.store.catalogs.length
  · rw [if_neg (Nat.ne_of_lt hi)] at hcat
    show _ = World.mk ⟨(w.store.catalogs ++ [Catalog.new config]).set i
      { (w.addCatalog config).2.store.catalog i with fault := x }, _⟩ _ _
    rw [hcat, List.set_append_left i _ hi]
    rfl
  · -- there is no such catalog yet, so nothing is planted in it, nor is there in a new one
    have hnone : x = none := by
      by_contra hne
      exact hi (hx hne)
    have hself : w.withFault i x = w := by
      rw [hnone, ← Store.fault_of_length_le (Nat.le_of_not_lt hi), withFault, Store.withFault_self]
    have hfault : ((w.addCatalog config).2.store.catalog i).fault = x := by
      rw [hcat, hnone]
      split
      · rfl
      · exact Store.fault_of_length_le (Nat.le_of_not_lt hi)
    rw [hself, ← hfault, withFault, Store.withFault_self]

theorem attach_withFault (b : Backing) (ident : String) :
    (w.withFault i x).attach b ident =
      ((w.attach b ident).1, (w.attach b ident).2.withFault i x) := by
  have hr : AnswersAlike (Replanted i x) (b.operations.refresh w.store)
      (b.operations.refresh (w.withFault i x).store) := b.refresh_replanted ⟨hx, rfl⟩
  obtain ⟨store, store', hstate, ⟨e, hs, ht⟩ | ⟨hd, hs, ht⟩⟩ := attach_alike hr ident
  · obtain rfl : store' = store.withFault i x := hstate.eq
    rw [hs, ht]
    rfl
  · obtain rfl : store' = store.withFault i x := hstate.eq
    rw [hs, ht]
    rfl

theorem load_withFault (j : Nat) (N : String) :
    (w.withFault i x).load j N = ((w.load j N).1, (w.load j N).2.withFault i x) := by
  have hs : (w.withFault i x).stored? j N = w.stored? j N := w.store.stored?_setFault i x j N
  cases hcur : w.stored? j N with
  | none => rw [load_of_missing hcur, load_of_missing (hs.trans hcur)]
  | some m => rw [load_of_stored hcur, load_of_stored (hs.trans hcur), attach_withFault hx]

theorem create_withFault {j : Nat} (hj : j < w.store.catalogs.length) (N : String)
    (schema : Schema) :
    (w.withFault i x).create j N schema =
      ((w.create j N schema).1, (w.create j N schema).2.withFault i x) := by
  have hj' : j < (w.withFault i x).store.catalogs.length :=
    Nat.lt_of_lt_of_eq hj List.length_set.symm
  have hcat := Store.catalog_withFault hx j
  have hsame : ((w.store.withFault i x).catalog j).refusal? N = (w.store.catalog j).refusal? N ∧
      ((w.store.withFault i x).catalog j).firstMetadata N schema =
        (w.store.catalog j).firstMetadata N schema := by
    rw [hcat]
    split
    · next heq => rw [heq]; exact ⟨rfl, rfl⟩
    · exact ⟨rfl, rfl⟩
  obtain ⟨hrefusal, hfirst⟩ := hsame
  have hw : (w.withFault i x).store = w.store.withFault i x := rfl
  rw [create_eq hj, create_eq hj', hw, hrefusal]
  cases (w.store.catalog j).refusal? N with
  | some why => rfl
  | none =>
    have hborn : (w.withFault i x).born j N schema = (w.born j N schema).withFault i x := by
      rw [born, hw, hfirst, Store.put_withFault hj hx]
      rfl
    show ((w.withFault i x).born j N schema).attach _ N = _
    rw [hborn]
    refine attach_withFault (fun hne => ?_) _ N
    exact Nat.lt_of_lt_of_eq (hx hne) List.length_set.symm

end

/-! ## quiet actions -/

/-- the catalog that an action sends a commit to -/
def sentTo? (w : World) (a : Action) : Option Nat :=
  match w.sent? a with
  | some (⟨.table i _, _⟩, _) => some i
  | _ => none

end World

/-- the catalog that an action plants a fault in -/
def Action.plants? : Action → Option Nat
  | .plant i _ => some i
  | _ => none

namespace World

/-- the action plants nothing in the catalog, and sends no commit to it -/
def Quiet (w : World) (i : Nat) (a : Action) : Prop := a.plants? ≠ some i ∧ w.sentTo? a ≠ some i

instance (w : World) (i : Nat) (a : Action) : Decidable (w.Quiet i a) :=
  inferInstanceAs (Decidable (_ ∧ _))

theorem sentTo?_of_sent {w : World} {a : Action} {i n : Nat} {N : String} {base new : Metadata}
    (h : w.sent? a = some (⟨.table i N, n⟩, base, new)) : w.sentTo? a = some i := by
  rw [sentTo?, h]

theorem sent_of_sentTo? {w : World} {a : Action} {i : Nat} (h : w.sentTo? a = some i) :
    ∃ N n base new, w.sent? a = some (⟨.table i N, n⟩, base, new) := by
  rw [sentTo?] at h
  split at h
  · next j N n sent hs =>
    obtain rfl : j = i := Option.some.inj h
    exact ⟨N, n, sent.1, sent.2, hs⟩
  · cases h

/-- what plants nothing and sends nothing is quiet in every catalog -/
theorem quiet_of_unsent {w : World} {a : Action} (hp : a.plants? = none) (hs : w.sent? a = none)
    (i : Nat) : w.Quiet i a := by
  rw [Quiet, sentTo?, hp, hs]
  exact ⟨(Option.some_ne_none i).symm, (Option.some_ne_none i).symm⟩

/-- what is sent elsewhere is sent to another catalog or to a script -/
theorem Quiet.backing_ne {w : World} {i : Nat} {a : Action} (h : w.Quiet i a) {id : HandleId}
    {base new : Metadata} (hs : w.sent? a = some (id, base, new)) (N : String) :
    id.backing ≠ .table i N := by
  obtain ⟨b, n⟩ := id
  rintro rfl
  exact h.2 (sentTo?_of_sent hs)

/-- **A quiet action does not notice a fault**: whatever is planted, it ends in the same way and
does the same, and what was planted is still planted. -/
theorem act_withFault {w : World} {i : Nat} {a : Action} (hq : w.Quiet i a) (hf : a.Fits w)
    {x : Option Catalog.Fault} (hx : x ≠ none → i < w.store.catalogs.length) :
    (w.withFault i x).act a = ((w.act a).1, (w.act a).2.withFault i x) := by
  have hreads : ∀ (b : Backing) s t, Replanted i x s t →
      AnswersAlike (Replanted i x) (b.operations.refresh s) (b.operations.refresh t) :=
    fun b _ _ h => b.refresh_replanted h
  have hstores : Replanted i x w.store (w.withFault i x).store := ⟨hx, rfl⟩
  cases a with
  | addCatalog config =>
    exact Prod.ext rfl (addCatalog_withFault hx config)
  | openScript ident script =>
    have hattach : ((w.addScript script).2.withFault i x).attach (.script _) ident = _ :=
      attach_withFault (w := (w.addScript script).2) hx (.script w.store.scripts.length) ident
    exact congrArg status hattach
  | create j table schema => 
    exact congrArg status (create_withFault hx hf table schema)
  | load j table =>
    exact congrArg status (load_withFault hx j table)
  | plant j f =>
    have hij : i ≠ j := fun h => hq.1 (congrArg some h.symm)
    exact Prod.ext rfl (congrArg (World.mk · w.handles w.journal)
      (Store.withFault_comm hij (some f)))
  | refresh id => exact settle_withFault ((w.handle id).refresh_alike (hreads _ _ _ hstores)) id
  | commitMetadata id base new =>
    have hb : ∀ N, id.backing ≠ .table i N := hq.backing_ne rfl
    refine settle_withFault ((w.handle id).commitMetadata_alike (hreads id.backing) ?_) id
    exact Backing.commit_replanted hb base new hstores
  | commit p =>
    refine settle_withFault
      (p.update.send_alike (hreads p.handle.backing) (w.handle p.handle) hstores ?_) p.handle
    intro out ha
    have hb := hq.backing_ne (sent?_commit_of_ok ha)
    exact Backing.commit_replanted hb _ _ hstores
  | check p => rfl
  | preview p =>
    have happly : p.apply (w.withFault i x) = p.apply w := rfl
    rw [act, act, happly]
    split <;> rfl
  | close ident total failure => cases failure <;> rfl

end World

end StagedTable
