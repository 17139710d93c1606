import StagedTable.Proofs.Steps

/-!
# Calls on states that look alike

Two states can differ and still be the same to a handle.  Let a relation of states be such that the
two operations of a mechanism answer alike on related states, and leave related states behind.
Then so do all calls that are made of these operations, and handles cache the same and report the
same.

The halves are kept apart: calls that only read ask nothing of the commit, and an update that
cannot be applied asks nothing of the operations at all.

For tables of a catalog, opening one depends on little: what is stored under its name, and for a
creation the configuration of the catalog (`Backing.refresh_table_eq`, `World.create_eq`).
-/

namespace StagedTable

variable {σ τ : Type} {R : σ → τ → Prop} {ops : Operations σ} {ops' : Operations τ}

/-- the same answer, and related states -/
def AnswersAlike {α : Type} (R : σ → τ → Prop) (x : α × σ) (y : α × τ) : Prop :=
  x.1 = y.1 ∧ R x.2 y.2

theorem AnswersAlike.eq {α : Type} {x : α × σ} {y : α × τ} (h : AnswersAlike R x y) :
    ∃ a s t, x = (a, s) ∧ y = (a, t) ∧ R s t :=
  ⟨x.1, x.2, y.2, rfl, Prod.ext h.1.symm rfl, h.2⟩

structure Outcome.Alike (R : σ → τ → Prop) (o : Outcome σ) (o' : Outcome τ) : Prop where
  status : o.status = o'.status
  handle : o.handle = o'.handle
  events : o.events = o'.events
  store : R o.store o'.store

section
variable {s : σ} {t : τ} (hr : AnswersAlike R (ops.refresh s) (ops'.refresh t))
include hr

theorem Handle.attach_alike (ident : String) :
    AnswersAlike R (Handle.attach ops ident s) (Handle.attach ops' ident t) := by
  obtain ⟨answer, s', t', hs, ht, hstate⟩ := hr.eq
  rw [attach, attach, hs, ht]
  cases answer with
  | ok m => exact ⟨rfl, hstate⟩
  | error e => exact ⟨rfl, hstate⟩

theorem Handle.refresh_alike (h : Handle) : (h.refresh ops s).Alike R (h.refresh ops' t) := by
  obtain ⟨answer, s', t', hs, ht, hstate⟩ := hr.eq
  rw [refresh, refresh, hs, ht]
  cases answer with
  | ok m => exact ⟨rfl, rfl, rfl, hstate⟩
  | error e => exact ⟨rfl, rfl, rfl, hstate⟩

end

section
variable (hr : ∀ s t, R s t → AnswersAlike R (ops.refresh s) (ops'.refresh t))
include hr

/-- a commit is read back on the states that it has left -/
theorem Handle.commitMetadata_alike (h : Handle) {base new : Metadata} {s : σ} {t : τ}
    (hc : AnswersAlike R (ops.commit base new s) (ops'.commit base new t)) :
    (h.commitMetadata ops base new s).Alike R (h.commitMetadata ops' base new t) := by
  obtain ⟨answer, s', t', hs, ht, hstate⟩ := hc.eq
  cases answer with
  | error e =>
    rw [commitMetadata_of_error h hs, commitMetadata_of_error h ht]
    exact ⟨rfl, rfl, rfl, hstate⟩
  | ok _ =>
    obtain ⟨read, s'', t'', hs', ht', hstate'⟩ := (hr s' t' hstate).eq
    simp only [commitMetadata, hs, ht, hs', ht']
    cases read with
    | ok m => exact ⟨rfl, rfl, rfl, hstate'⟩
    | error e => exact ⟨rfl, rfl, rfl, hstate'⟩

theorem Update.send_alike {k : Kind} (u : Update k) (h : Handle) {s : σ} {t : τ} (hst : R s t)
    (hc : ∀ out, u.apply h.cache = .ok out →
      AnswersAlike R (ops.commit h.cache (k.install out h.cache) s)
        (ops'.commit h.cache (k.install out h.cache) t)) :
    (u.send ops h s).Alike R (u.send ops' h t) := by
  cases ha : u.apply h.cache with
  | error why =>
    rw [send_of_error ha, send_of_error ha]
    exact ⟨rfl, rfl, rfl, hst⟩
  | ok out =>
    rw [send_of_ok ha, send_of_ok ha]
    exact h.commitMetadata_alike hr (hc out ha)

end

/-! ## opening tables -/

/-- handles that are opened alike are both opened or both refused -/
theorem World.attach_alike {R : Store → Store → Prop} {w t : World} {b b' : Backing}
    (hr : AnswersAlike R (b.operations.refresh w.store) (b'.operations.refresh t.store))
    (ident : String) :
    ∃ store store', R store store' ∧
      ((∃ e, w.attach b ident = (.error e, { w with store }) ∧
        t.attach b' ident = (.error e, { t with store := store' })) ∨
      ∃ hd, w.attach b ident = (.ok ⟨b, (w.handlesOn b).length⟩,
          { w with store, handles := w.handles.set b (w.handlesOn b ++ [hd]) }) ∧
        t.attach b' ident = (.ok ⟨b', (t.handlesOn b').length⟩,
          { t with store := store', handles := t.handles.set b' (t.handlesOn b' ++ [hd]) })) := by
  obtain ⟨answer, store, store', hs, ht, hstate⟩ := (Handle.attach_alike hr ident).eq
  refine ⟨store, store', hstate, ?_⟩
  cases answer with
  | error e => exact .inl ⟨e, attach_of_error hs, attach_of_error ht⟩
  | ok hd => exact .inr ⟨hd, attach_of_ok hs, attach_of_ok ht⟩

theorem Backing.refresh_table_eq (s : Store) (i : Nat) (N : String) :
    (Backing.table i N).operations.refresh s =
      (((s.stored? i N).map .ok).getD (.error (Catalog.CreateError.doesNotExist N).error), s) := by
  show (((s.catalog i).refresh N).mapError _, s.setCatalog i (s.catalog i)) = _
  rw [s.setCatalog_catalog, Catalog.refresh, Store.stored?]
  cases (s.catalog i).stored? N with
  | none => rfl
  | some m => rfl

namespace Catalog

/-- why a table cannot be created under the name -/
def refusal? (c : Catalog) (N : String) : Option CreateError :=
  if N = "" then some .emptyName
  else if Config.supports c.config.formatVersion = false then
    some (.unsupportedFormat c.config.formatVersion)
  else if (c.stored? N).isSome then some (.alreadyExists N)
  else none

theorem create_eq (c : Catalog) (N : String) (schema : Schema) :
    c.create N schema = match c.refusal? N with
      | some why => .error why
      | none => .ok { c with tables := c.tables.insert N (c.firstMetadata N schema) } := by
  rw [create, refusal?]
  by_cases hN : N = ""
  · rw [if_pos hN, if_pos hN]
  · rw [if_neg hN, if_neg hN]
    by_cases hf : Config.supports c.config.formatVersion = false
    · rw [if_pos hf, if_pos hf]
    · rw [if_neg hf, if_neg hf]
      by_cases hex : (c.stored? N).isSome = true
      · rw [if_pos hex]
        exact if_pos hex
      · rw [if_neg hex]
        exact if_neg hex

end Catalog

theorem World.catalog_addCatalog (w : World) (config : Catalog.Config) (j : Nat) :
    (w.addCatalog config).2.store.catalog j =
      if j = w.store.catalogs.length then .new config else w.store.catalog j := by
  show ((w.store.catalogs ++ [Catalog.new config])[j]?).getD default = _
  rw [List.getElem?_append]
  split
  · next hj => rw [if_neg (Nat.ne_of_lt hj), Store.catalog]
  · next hj =>
    have hle := Nat.le_of_not_lt hj
    by_cases heq : j = w.store.catalogs.length
    · rw [if_pos heq, heq, Nat.sub_self]
      rfl
    · rw [if_neg heq, List.getElem?_eq_none, Store.catalog, List.getElem?_eq_none hle]
      show 1 ≤ j - w.store.catalogs.length
      omega

theorem World.create_eq {w : World} {i : Nat} (hi : i < w.store.catalogs.length) (N : String)
    (schema : Schema) :
    w.create i N schema = match (w.store.catalog i).refusal? N with
      | some why => (.error why.error, w)
      | none => (w.born i N schema).attach (.table i N) N := by
  have hcreate := (w.store.catalog i).create_eq N schema
  cases hr : (w.store.catalog i).refusal? N with
  | some why =>
    rw [hr] at hcreate
    exact create_of_error hcreate
  | none =>
    rw [hr] at hcreate
    exact create_of_ok hi hcreate

end StagedTable
