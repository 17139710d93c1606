import StagedTable.Proofs.History

/-!
# Caches are snapshots

A cache never holds metadata that was not stored.  Whatever commits are made with forged bases and
forged version numbers, a handle on a table caches what was stored under its name at some moment of
the run, and no other metadata was ever stored there under the same version
(`World.cache_is_snapshot`).  This is what makes it safe to compare nothing but versions.
-/

namespace StagedTable

namespace World

/-! ## from one moment of a run to a later one -/

theorem Steps.cache_version_le {w w' : World} {i n : Nat} {N : String} {hd : Handle}
    (h : w.Steps w') (hco : w.Coherent) (ho : w.handle? ⟨.table i N, n⟩ = some hd) :
    ∃ hd', w'.handle? ⟨.table i N, n⟩ = some hd' ∧ hd.cache.version ≤ hd'.cache.version := by
  obtain ⟨hd', ho', hcase⟩ := h.keeps _ hd ho
  refine ⟨hd', ho', ?_⟩
  rcases hcase with rfl | hread
  · exact Nat.le_refl _
  · obtain ⟨cur, hcur, hc⟩ := (hco _ hd ho).evolves h.evolves i N rfl
    obtain rfl : cur = hd'.cache := Option.some.inj (hcur.symm.trans (hread i N rfl))
    rcases hc with hc | hc
    · exact Nat.le_of_eq (congrArg Metadata.version hc)
    · exact Nat.le_of_lt hc

theorem cache_version_le_later {w : World} (hco : w.Coherent) {more : List Action}
    (h : w.Legal more) {i n : Nat} {N : String} {hd : Handle}
    (ho : w.handle? ⟨.table i N, n⟩ = some hd) :
    ∃ hd', (w.after more).handle? ⟨.table i N, n⟩ = some hd' ∧
      hd.cache.version ≤ hd'.cache.version := by
  induction more generalizing w hd with
  | nil => exact ⟨hd, ho, Nat.le_refl _⟩
  | cons a more ih =>
    obtain ⟨hf, hl⟩ := h
    have hstep := steps_act hco hf
    obtain ⟨hd', ho', hv⟩ := hstep.cache_version_le hco ho
    obtain ⟨hd'', ho'', hv'⟩ := ih (hstep.coherent hco) hl ho'
    exact ⟨hd'', ho'', Nat.le_trans hv hv'⟩

/-! ## caches and the past -/

theorem storedIn_cache {acts : List Action} (h : empty.Legal acts) {i n : Nat} {N : String}
    {hd : Handle} (ho : (empty.after acts).handle? ⟨.table i N, n⟩ = some hd) :
    StoredIn acts i N hd.cache := by
  induction acts, h using Legal.snoc_induction generalizing hd with
  | nil => cases ho
  | snoc acts a hl hf ih =>
    rcases (steps_after (legal_snoc.2 ⟨hl, hf⟩)).back _ hd ho with hold | hread
    · exact (ih hold).mono
    · exact .of_now (hread i N rfl)

/-- **A cache is a true snapshot of the past.**  In every run, a handle on a table caches the one
metadata record that was stored under its name with the cached version.  So the cached version is at
most the stored one, equal versions mean equal metadata, for the store and for any other handle on
that name, and a cached version never decreases. -/
theorem cache_is_snapshot {acts : List Action} (h : empty.Legal acts) {i n : Nat} {N : String}
    {hd : Handle} (ho : (empty.after acts).handle? ⟨.table i N, n⟩ = some hd) :
    (StoredIn acts i N hd.cache ∧
      ∀ m, StoredIn acts i N m → m.version = hd.cache.version → m = hd.cache) ∧
    (∃ cur, (empty.after acts).stored? i N = some cur ∧ hd.cache.version ≤ cur.version ∧
      (hd.cache.version = cur.version → hd.cache = cur)) ∧
    (∀ n' hd', (empty.after acts).handle? ⟨.table i N, n'⟩ = some hd' →
      hd'.cache.version = hd.cache.version → hd'.cache = hd.cache) ∧
    ∀ more, empty.Legal (acts ++ more) →
      ∃ hd', (empty.after (acts ++ more)).handle? ⟨.table i N, n⟩ = some hd' ∧
        hd.cache.version ≤ hd'.cache.version := by
  have hpast := storedIn_cache h ho
  refine ⟨⟨hpast, fun m hm hv => storedIn_unique h hm hpast hv⟩, ?_, ?_, ?_⟩
  · obtain ⟨cur, hcur, hc⟩ := stored?_of_storedIn h hpast
    refine ⟨cur, hcur, ?_, fun hv => storedIn_unique h hpast (.of_now hcur) hv⟩
    rcases hc with rfl | hc
    · exact Nat.le_refl _
    · exact Nat.le_of_lt hc
  · intro n' hd' ho' hv
    exact storedIn_unique h (storedIn_cache h ho') hpast hv
  · intro more hl
    rw [after_append]
    exact cache_version_le_later (coherent_after h) (legal_append.1 hl).2 ho

theorem cache_is_snapshot_race :
    let hd := (empty.after race).handle (orders 0)
    hd.cache.version = 1 ∧ StoredIn race 0 "orders" hd.cache ∧
      ∃ cur, (empty.after race).stored? 0 "orders" = some cur ∧ hd.cache.version ≤ cur.version := by
  have ho : (empty.after race).Open (orders 0) := by decide +kernel
  obtain ⟨⟨hpast, _⟩, ⟨cur, hcur, hle, _⟩, _⟩ := cache_is_snapshot legal_race (handle?_of_open ho)
  exact ⟨rfl, hpast, cur, hcur, hle⟩

end World

end StagedTable
