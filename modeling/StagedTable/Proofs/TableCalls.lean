import StagedTable.Proofs.Changes

/-!
# Calls on the tables of a catalog

A call on a handle sees the store through the backing of the handle.  For a table of a catalog the
three ways in which a commit can end are written out in full, each as one equation:

* `Handle.commitMetadata_of_fault`    a planted fault strikes, whatever the base is;
* `Handle.commitMetadata_of_stale`    the base has another version than what is stored;
* `Handle.commitMetadata_of_current`  the base has the stored version.

`Outcome.Ends` forgets all of an outcome but what is stored and cached: a call either leaves what is
stored alone, or its change has landed on it.
-/

namespace StagedTable

namespace Store

theorem setCatalog_catalog (s : Store) (i : Nat) : s.setCatalog i (s.catalog i) = s := by
  obtain ⟨catalogs, scripts⟩ := s
  have hset : catalogs.set i ((catalogs[i]?).getD default) = catalogs := by
    apply List.ext_getElem?
    intro j
    rw [List.getElem?_set]
    by_cases hij : i = j
    · subst hij
      by_cases hi : i < catalogs.length <;> simp [hi]
    · rw [if_neg hij]
  exact congrArg (Store.mk · scripts) hset

theorem lt_of_stored? {s : Store} {i : Nat} {N : String} {m : Metadata}
    (h : s.stored? i N = some m) : i < s.catalogs.length := by
  by_contra hi
  have hc : s.catalog i = default := by
    rw [catalog, List.getElem?_eq_none (Nat.le_of_not_lt hi), Option.getD_none]
  rw [stored?, hc] at h
  cases h

theorem stored?_setCatalog {s : Store} {i : Nat} (hi : i < s.catalogs.length) (c : Catalog)
    (j : Nat) (T : String) :
    (s.setCatalog i c).stored? j T = if j = i then c.stored? T else s.stored? j T := by
  rw [stored?, catalog_setCatalog hi]
  split <;> rfl

/-- the store with metadata put under a name -/
def put (s : Store) (i : Nat) (N : String) (m : Metadata) : Store :=
  s.setCatalog i { s.catalog i with tables := (s.catalog i).tables.insert N m }

theorem stored?_put {s : Store} {i : Nat} (hi : i < s.catalogs.length) (N : String) (m : Metadata)
    (j : Nat) (T : String) :
    (s.put i N m).stored? j T = if j = i ∧ T = N then some m else s.stored? j T := by
  rw [put, stored?_setCatalog hi]
  by_cases hj : j = i
  · subst hj
    rw [if_pos rfl]
    show ((s.catalog j).tables.insert N m).get? T = _
    rw [Dictionary.get?_insert]
    by_cases hT : T = N
    · rw [if_pos hT, if_pos ⟨rfl, hT⟩]
    · rw [if_neg hT, if_neg fun h => hT h.2]
      rfl
  · rw [if_neg hj, if_neg fun h => hj h.1]

theorem stored?_setFault (s : Store) (i : Nat) (f : Option Catalog.Fault) (j : Nat) (T : String) :
    (s.setCatalog i { s.catalog i with fault := f }).stored? j T = s.stored? j T := by
  by_cases hi : i < s.catalogs.length
  · rw [stored?_setCatalog hi]
    split
    · next hj => subst hj; rfl
    · rfl
  · rw [setCatalog, List.set_eq_of_length_le (Nat.le_of_not_lt hi)]

end Store

theorem Catalog.create_eq_ok {c c' : Catalog} {N : String} {schema : Schema}
    (h : c.create N schema = .ok c') :
    c.stored? N = none ∧
      c' = { c with tables := c.tables.insert N (c.firstMetadata N schema) } := by
  rw [create] at h
  split at h
  · cases h
  · split at h
    · cases h
    · split at h
      · cases h
      · next hex =>
        refine ⟨?_, (Except.ok.inj h).symm⟩
        cases hs : c.stored? N with
        | none => rfl
        | some m => exact absurd (congrArg Option.isSome hs) hex

/-! ## what the operations keep, calls keep -/

section
variable {σ : Type} {ops : Operations σ} {P : σ → Prop} (hr : ∀ s, P s → P (ops.refresh s).2)
include hr

theorem Handle.attach_keeps (ident : String) {s : σ} (hs : P s) :
    P (Handle.attach ops ident s).2 := by
  have h := hr s hs
  rw [attach]
  split <;> next heq => rw [heq] at h; exact h

theorem Handle.refresh_keeps (h : Handle) {s : σ} (hs : P s) : P (h.refresh ops s).store := by
  have hread := hr s hs
  rw [refresh]
  split <;> next heq => rw [heq] at hread; exact hread

variable (hc : ∀ base new s, P s → P (ops.commit base new s).2)
include hc

theorem Handle.commitMetadata_keeps (h : Handle) (base new : Metadata) {s : σ} (hs : P s) :
    P (h.commitMetadata ops base new s).store := by
  have hsent := hc base new s hs
  rw [commitMetadata]
  split
  · next heq => rw [heq] at hsent; exact hsent
  · next s' heq =>
    rw [heq] at hsent
    have hread := hr s' hsent
    split <;> next heq' => rw [heq'] at hread; exact hread

theorem Update.send_keeps {k : Kind} (u : Update k) (h : Handle) {s : σ} (hs : P s) :
    P (u.send ops h s).store := by
  cases ha : u.apply h.cache with
  | error why =>
    rw [send_of_error ha]
    exact hs
  | ok out =>
    rw [send_of_ok ha]
    exact Handle.commitMetadata_keeps hr hc h _ _ hs

end

/-! ## the operations of a table -/

section
variable {s : Store} {i : Nat} {N : String}

theorem Backing.refresh_table {m : Metadata} (hs : s.stored? i N = some m) :
    (Backing.table i N).operations.refresh s = (.ok m, s) := by
  have hc : (s.catalog i).stored? N = some m := hs
  show (((s.catalog i).refresh N).mapError _, s.setCatalog i (s.catalog i)) = _
  rw [Catalog.refresh, hc, s.setCatalog_catalog]
  rfl

theorem Backing.refresh_stored? (b : Backing) (s : Store) (j : Nat) (T : String) :
    (b.operations.refresh s).2.stored? j T = s.stored? j T := by
  cases b with
  | table i N =>
    show (s.setCatalog i (s.catalog i)).stored? j T = _
    rw [s.setCatalog_catalog]
  | script x => rfl

theorem Backing.refresh_keeps_stored? (b : Backing) {j : Nat} {T : String} {x : Option Metadata}
    (s : Store) (hs : s.stored? j T = x) : (b.operations.refresh s).2.stored? j T = x :=
  (b.refresh_stored? s j T).trans hs

theorem Backing.stored?_of_refresh {s' : Store} {m : Metadata}
    (h : (Backing.table i N).operations.refresh s = (.ok m, s')) : s.stored? i N = some m := by
  cases hs : s.stored? i N with
  | some cur =>
    rw [Backing.refresh_table hs] at h
    exact congrArg some (Except.ok.inj (Prod.mk.inj h).1)
  | none =>
    have hc : (s.catalog i).stored? N = none := hs
    have h1 : ((s.catalog i).refresh N).mapError Catalog.CreateError.error = .ok m :=
      congrArg Prod.fst h
    rw [Catalog.refresh, hc] at h1
    cases h1

theorem Backing.commit_table (i : Nat) (N : String) (base new : Metadata) (s : Store) :
    (Backing.table i N).operations.commit base new s =
      (((s.catalog i).commit N base new).1.mapError Catalog.CommitError.error,
        s.setCatalog i ((s.catalog i).commit N base new).2) := rfl

namespace Handle

theorem refresh_table {m : Metadata} (h : Handle) (hs : s.stored? i N = some m) :
    h.refresh (Backing.table i N).operations s = ⟨.ok (), { h with cache := m }, s, []⟩ := by
  rw [refresh, Backing.refresh_table hs]

theorem commitMetadata_of_fault {f : Catalog.Fault} (h : Handle) (hf : (s.catalog i).fault = some f)
    (base new : Metadata) :
    h.commitMetadata (Backing.table i N).operations base new s =
      ⟨.error (f.strike N).error, h, s.setCatalog i { s.catalog i with fault := none },
        [.commitFailed h.ident base.version (f.strike N).error]⟩ := by
  refine commitMetadata_of_error h ?_
  rw [Backing.commit_table, Catalog.commit_of_fault hf]
  rfl

theorem commitMetadata_of_stale {base current : Metadata} (h : Handle)
    (hf : (s.catalog i).fault = none) (hs : s.stored? i N = some current)
    (hv : current.version ≠ base.version) (new : Metadata) :
    h.commitMetadata (Backing.table i N).operations base new s =
      ⟨.error (Catalog.CommitError.stale N base.version current.version).error, h, s,
        [.commitFailed h.ident base.version
          (Catalog.CommitError.stale N base.version current.version).error]⟩ := by
  refine commitMetadata_of_error h ?_
  rw [Backing.commit_table, Catalog.commit_of_stale hf hs hv, s.setCatalog_catalog]
  rfl

theorem commitMetadata_of_current {base current : Metadata} (h : Handle)
    (hf : (s.catalog i).fault = none) (hs : s.stored? i N = some current)
    (hv : current.version = base.version) (new : Metadata) :
    h.commitMetadata (Backing.table i N).operations base new s =
      ⟨.ok (), { h with cache := new.succeeding base }, s.put i N (new.succeeding base),
        [.committed h.ident (base.version + 1)]⟩ := by
  have hc : (Backing.table i N).operations.commit base new s =
      (.ok (), s.put i N (new.succeeding base)) := by
    rw [Backing.commit_table, Catalog.commit_of_current hf hs hv]
    rfl
  have hput : (s.put i N (new.succeeding base)).stored? i N = some (new.succeeding base) := by
    rw [Store.stored?_put (Store.lt_of_stored? hs), if_pos ⟨rfl, rfl⟩]
  simp only [commitMetadata, hc, Backing.refresh_table hput, Metadata.version_succeeding]

end Handle

end

/-! ## what is seen of a call -/

/-- each name keeps what is stored, or moves on to a later version -/
def Store.Evolves (s s' : Store) : Prop :=
  ∀ i N cur, s.stored? i N = some cur →
    ∃ m, s'.stored? i N = some m ∧ (m = cur ∨ cur.version < m.version)

theorem Store.Evolves.of_eq {s s' : Store} (h : ∀ j T, s'.stored? j T = s.stored? j T) :
    s.Evolves s' :=
  fun i N cur hcur => ⟨cur, (h i N).trans hcur, .inl rfl⟩

theorem Store.Evolves.trans {s s' s'' : Store} (h : s.Evolves s') (h' : s'.Evolves s'') :
    s.Evolves s'' := by
  intro i N cur hcur
  obtain ⟨m, hm, hv⟩ := h i N cur hcur
  obtain ⟨m', hm', hv'⟩ := h' i N m hm
  refine ⟨m', hm', ?_⟩
  rcases hv' with rfl | hv'
  · exact hv
  · rcases hv with rfl | hv
    · exact .inr hv'
    · exact .inr (by omega)

namespace Handle

/-- the cache is what is stored now -/
def Reads (h : Handle) (b : Backing) (s : Store) : Prop :=
  ∀ i N, b = .table i N → s.stored? i N = some h.cache

/-- the cache is what is stored now, or has an earlier version -/
def Tracks (h : Handle) (b : Backing) (s : Store) : Prop :=
  ∀ i N, b = .table i N → ∃ cur, s.stored? i N = some cur ∧
    (h.cache = cur ∨ h.cache.version < cur.version)

theorem Reads.tracks {h : Handle} {b : Backing} {s : Store} (hr : h.Reads b s) : h.Tracks b s :=
  fun i N hb => ⟨h.cache, hr i N hb, .inl rfl⟩

theorem Tracks.evolves {h : Handle} {b : Backing} {s s' : Store} (ht : h.Tracks b s)
    (hs : s.Evolves s') : h.Tracks b s' := by
  intro i N hb
  obtain ⟨cur, hcur, hc⟩ := ht i N hb
  obtain ⟨m, hm, hv⟩ := hs i N cur hcur
  refine ⟨m, hm, ?_⟩
  rcases hv with rfl | hv
  · exact hc
  · rcases hc with hc | hc
    · exact .inr (hc ▸ hv)
    · exact .inr (Nat.lt_trans hc hv)

theorem Tracks.eq_of_version {h : Handle} {i : Nat} {N : String} {s : Store} {cur : Metadata}
    (ht : h.Tracks (.table i N) s) (hs : s.stored? i N = some cur)
    (hv : h.cache.version = cur.version) : h.cache = cur := by
  obtain ⟨cur', hcur, hc⟩ := ht i N rfl
  obtain rfl : cur' = cur := Option.some.inj (hcur.symm.trans hs)
  rcases hc with hc | hc
  · exact hc
  · omega

end Handle

/-- how a call ends that asks for a change through a handle -/
inductive Outcome.Ends (c : Change) (b : Backing) (h : Handle) (s : Store) (o : Outcome Store) :
    Prop where
  | kept (hno : ∀ i N, b = .table i N → o.status.isOk = false ∧ o.handle = h)
      (hst : ∀ j T, o.store.stored? j T = s.stored? j T)
  | landed {i : Nat} {N : String} {cur m : Metadata} (hb : b = .table i N)
      (hcur : s.stored? i N = some cur) (hm : c.on cur = some m) (hok : o.status.isOk = true)
      (hc : o.handle.cache = m)
      (hst : ∀ j T, o.store.stored? j T = if j = i ∧ T = N then some m else s.stored? j T)

namespace Outcome.Ends
variable {c : Change} {b : Backing} {h : Handle} {s : Store} {o : Outcome Store}

theorem evolves (he : o.Ends c b h s) : s.Evolves o.store := by
  cases he with
  | kept hno hst => exact .of_eq hst
  | @landed i N cur m hb hcur hm hok hc hst =>
    intro j T cur' hcur'
    rw [hst]
    by_cases hj : j = i ∧ T = N
    · obtain ⟨rfl, rfl⟩ := hj
      obtain rfl : cur = cur' := Option.some.inj (hcur.symm.trans hcur')
      have hv := Change.version_of_on hm
      exact ⟨m, if_pos ⟨rfl, rfl⟩, .inr (by omega)⟩
    · exact ⟨cur', (if_neg hj).trans hcur', .inl rfl⟩

theorem reads (he : o.Ends c b h s) : o.handle = h ∨ o.handle.Reads b o.store := by
  cases he with
  | kept hno hst =>
    cases b with
    | table i N => exact .inl (hno i N rfl).2
    | script x => exact .inr (by rintro i N ⟨⟩)
  | @landed i N cur m hb hcur hm hok hc hst =>
    right
    rintro j T hb'
    obtain ⟨rfl, rfl⟩ := Backing.table.inj (hb.symm.trans hb')
    rw [hst, if_pos ⟨rfl, rfl⟩, hc]

end Outcome.Ends

namespace Handle
variable {b : Backing} {h hd : Handle} {s : Store}

theorem refresh_stored? (h : Handle) (b : Backing) (s : Store) (j : Nat) (T : String) :
    (h.refresh b.operations s).store.stored? j T = s.stored? j T :=
  refresh_keeps b.refresh_keeps_stored? h rfl

theorem refresh_reads (ht : h.Tracks b s) :
    (h.refresh b.operations s).handle.Reads b (h.refresh b.operations s).store := by
  rintro i N rfl
  obtain ⟨cur, hcur, _⟩ := ht i N rfl
  rw [refresh_stored?, h.refresh_table hcur, hcur]

theorem attach_reads {ident : String} {s' : Store}
    (h : Handle.attach b.operations ident s = (.ok hd, s')) : hd.Reads b s := by
  rintro i N rfl
  rw [attach] at h
  split at h
  · next m s'' heq =>
    obtain rfl : ⟨ident, m⟩ = hd := Except.ok.inj (Prod.mk.inj h).1
    exact Backing.stored?_of_refresh heq
  · cases h

theorem attach_stored? (b : Backing) (ident : String) (s : Store) (j : Nat) (T : String) :
    (Handle.attach b.operations ident s).2.stored? j T = s.stored? j T :=
  attach_keeps b.refresh_keeps_stored? ident rfl

theorem commitMetadata_script_stored? (h : Handle) (x : Nat) (base new : Metadata) (s : Store)
    (j : Nat) (T : String) :
    (h.commitMetadata (Backing.script x).operations base new s).store.stored? j T =
      s.stored? j T :=
  commitMetadata_keeps (Backing.script x).refresh_keeps_stored? (fun _ _ _ hs => hs) h base new rfl

/-- a commit lands or leaves what is stored alone; what it stores is the change, if the change makes
the new metadata out of whatever is stored under the version of the base -/
theorem commitMetadata_ends {c : Change} {base new : Metadata} (ht : h.Tracks b s)
    (hc : ∀ i N cur, b = .table i N → s.stored? i N = some cur → cur.version = base.version →
      c.on cur = some (new.succeeding base)) :
    (h.commitMetadata b.operations base new s).Ends c b h s := by
  cases b with
  | script x =>
    exact .kept (by rintro i N ⟨⟩) (h.commitMetadata_script_stored? x base new s)
  | table i N =>
    obtain ⟨cur, hcur, _⟩ := ht i N rfl
    cases hf : (s.catalog i).fault with
    | some f =>
      rw [h.commitMetadata_of_fault hf]
      exact .kept (fun _ _ _ => ⟨rfl, rfl⟩) (s.stored?_setFault i none)
    | none =>
      by_cases hv : cur.version = base.version
      · rw [h.commitMetadata_of_current hf hcur hv]
        exact .landed rfl hcur (hc i N cur rfl hcur hv) rfl rfl
          (Store.stored?_put (Store.lt_of_stored? hcur) N _)
      · rw [h.commitMetadata_of_stale hf hcur hv]
        exact .kept (fun _ _ _ => ⟨rfl, rfl⟩) fun _ _ => rfl

theorem commitMetadata_ends_replace (ht : h.Tracks b s) (base new : Metadata) :
    (h.commitMetadata b.operations base new s).Ends (.replace new) b h s := by
  refine commitMetadata_ends ht fun i N cur _ _ hv => ?_
  rw [Change.on_replace, Metadata.succeeding, Metadata.succeeding, hv]

end Handle

/-- an update's staged changes land on what is stored, although they are worked out on the cache -/
theorem Update.send_ends {k : Kind} {b : Backing} {h : Handle} {s : Store} (ht : h.Tracks b s)
    (u : Update k) : (u.send b.operations h s).Ends (.update k u.changes) b h s := by
  cases ha : u.apply h.cache with
  | error why =>
    rw [send_of_error ha]
    exact .kept (fun _ _ _ => ⟨rfl, rfl⟩) fun _ _ => rfl
  | ok out =>
    rw [send_of_ok ha]
    refine Handle.commitMetadata_ends ht fun i N cur hb hcur hv => ?_
    subst hb
    obtain rfl : h.cache = cur := ht.eq_of_version hcur hv.symm
    exact Change.on_update_of_ok (applyTo_of_apply ha)

end StagedTable
