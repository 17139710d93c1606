import StagedTable.Proofs.Turns

/-!
# The past of a name

What was stored under a name in the course of a run is a chain of records, one for each version.

* `stored?_of_storedIn`  what is stored now is the last of them;
* `storedIn_unique`      a version determines its record;
* `storedIn_origin`      a record is the first one, or what a landed change made of an earlier one;
* `landed_between`       between two consecutive versions one change has landed.

By `storedIn_of_origin` a property of the records has to be checked for first metadata and for
landed changes only, and by `storedIn_related` so does a relation of earlier records to later ones.
Where it depends on how the table was created, there is `storedIn_of_births`.
What ties the stored metadata to all the changes that have led to it goes by `stored_induction`.
-/

namespace StagedTable

namespace World

theorem evolves_later {w : World} (hco : w.Coherent) {more : List Action} (h : w.Legal more) :
    w.store.Evolves (w.after more).store := by
  induction more generalizing w with
  | nil => exact .of_eq fun _ _ => rfl
  | cons a more ih =>
    obtain ⟨hf, hl⟩ := h
    have hstep := steps_act hco hf
    exact hstep.evolves.trans (ih (hstep.coherent hco) hl)

/-- what was once stored is stored now, or has been succeeded by a later version -/
theorem stored?_of_storedIn {acts : List Action} (h : empty.Legal acts) {i : Nat} {N : String}
    {m : Metadata} (hm : StoredIn acts i N m) :
    ∃ cur, (empty.after acts).stored? i N = some cur ∧ (cur = m ∨ m.version < cur.version) := by
  obtain ⟨pre, ⟨more, rfl⟩, hs⟩ := hm
  obtain ⟨hl, hl'⟩ := legal_append.1 h
  rw [after_append]
  exact evolves_later (coherent_after hl) hl' i N m hs

/-- **A version determines the metadata** stored under a name. -/
theorem storedIn_unique {acts : List Action} (h : empty.Legal acts) {i : Nat} {N : String}
    {m m' : Metadata} (hm : StoredIn acts i N m) (hm' : StoredIn acts i N m')
    (hv : m.version = m'.version) : m = m' := by
  obtain ⟨pre, hp, hs⟩ := hm
  obtain ⟨pre', hp', hs'⟩ := hm'
  rcases List.prefix_or_prefix_of_prefix hp hp' with hle | hle
  · obtain ⟨cur, hcur, hc⟩ := stored?_of_storedIn (h.of_prefix hp') ⟨pre, hle, hs⟩
    obtain rfl : cur = m' := Option.some.inj (hcur.symm.trans hs')
    rcases hc with hc | hc
    · exact hc.symm
    · omega
  · obtain ⟨cur, hcur, hc⟩ := stored?_of_storedIn (h.of_prefix hp) ⟨pre', hle, hs'⟩
    obtain rfl : cur = m := Option.some.inj (hcur.symm.trans hs)
    rcases hc with hc | hc
    · exact hc
    · omega

/-! ## where a record comes from -/

theorem storedIn_origin {acts : List Action} (h : empty.Legal acts) {i : Nat} {N : String}
    {m : Metadata} (hm : StoredIn acts i N m) :
    (∃ (c : Catalog) (schema : Schema), c.firstMetadata N schema = m) ∨
      ∃ cur, StoredIn acts i N cur ∧ ∃ c ∈ empty.landings i N acts, c.on cur = some m := by
  induction acts, h using Legal.snoc_induction generalizing m with
  | nil => exact absurd hm not_storedIn_nil
  | snoc acts a hl hf ih =>
    rw [landings_snoc]
    by_cases hold : StoredIn acts i N m
    · rcases ih hold with hfirst | ⟨cur, hcur, c, hc, hon⟩
      · exact .inl hfirst
      · exact .inr ⟨cur, hcur.mono, c, List.mem_append_left _ hc, hon⟩
    · have hnow := (storedIn_snoc.1 hm).resolve_left hold
      rw [after_snoc] at hnow
      cases turn_act (coherent_after hl) hf i N with
      | kept _ _ hs => exact absurd (.of_now (hs.symm.trans hnow)) hold
      | @created schema new _ _ hfirst _ hs =>
        obtain rfl : new = m := Option.some.inj (hs.symm.trans hnow)
        exact .inl ⟨_, schema, hfirst⟩
      | @landed c cur new _ hland hcur hnew hs =>
        obtain rfl : new = m := Option.some.inj (hs.symm.trans hnow)
        refine .inr ⟨cur, (StoredIn.of_now hcur).mono, c, ?_, hnew⟩
        rw [hland, Option.toList_some]
        exact List.mem_append_right _ (List.mem_singleton_self c)

section
variable {acts : List Action} (h : empty.Legal acts) {i : Nat} {N : String}
include h

theorem landed_between {m m' : Metadata} (hm : StoredIn acts i N m) (hm' : StoredIn acts i N m')
    (hv : m'.version = m.version + 1) : ∃ c ∈ empty.landings i N acts, c.on m = some m' := by
  rcases storedIn_origin h hm' with ⟨c, schema, rfl⟩ | ⟨cur, hcur, c, hc, hon⟩
  · cases hv
  · have hversion := Change.version_of_on hon
    obtain rfl : cur = m := storedIn_unique h hcur hm (by omega)
    exact ⟨c, hc, hon⟩

theorem storedIn_of_origin {P : Metadata → Prop}
    (hfirst : ∀ (c : Catalog) (schema : Schema), P (c.firstMetadata N schema))
    (hland : ∀ c ∈ empty.landings i N acts, ∀ cur m, P cur → c.on cur = some m → P m)
    {m : Metadata} (hm : StoredIn acts i N m) : P m := by
  -- a landed change goes one version up, so the chain of origins ends
  induction hn : m.version generalizing m with
  | zero =>
    rcases storedIn_origin h hm with ⟨c, schema, rfl⟩ | ⟨cur, _, c, _, hon⟩
    · exact hfirst c schema
    · have hversion := Change.version_of_on hon
      omega
  | succ n ih =>
    rcases storedIn_origin h hm with ⟨c, schema, rfl⟩ | ⟨cur, hcur, c, hc, hon⟩
    · exact hfirst c schema
    · have hversion := Change.version_of_on hon
      exact hland c hc cur m (ih hcur (by omega)) hon

theorem storedIn_of_births {P : Metadata → Prop} (hfirst : ∀ first ∈ empty.births i N acts, P first)
    (hland : ∀ c ∈ empty.landings i N acts, ∀ cur m, P cur → c.on cur = some m → P m)
    {m : Metadata} (hm : StoredIn acts i N m) : P m := by
  induction acts, h using Legal.snoc_induction generalizing m with
  | nil => exact absurd hm not_storedIn_nil
  | snoc acts a hl hf ih =>
    rw [births_snoc] at hfirst
    rw [landings_snoc] at hland
    have hbefore : ∀ m, StoredIn acts i N m → P m := fun m =>
      ih (fun first hb => hfirst first (List.mem_append_left _ hb))
        (fun c hc => hland c (List.mem_append_left _ hc))
    rcases storedIn_snoc.1 hm with hold | hnow
    · exact hbefore m hold
    · rw [after_snoc] at hnow
      cases turn_act (coherent_after hl) hf i N with
      | kept _ _ hs => exact hbefore m (.of_now (hs.symm.trans hnow))
      | @created _ new hborn _ _ _ hs =>
        obtain rfl : new = m := Option.some.inj (hs.symm.trans hnow)
        refine hfirst new (List.mem_append_right _ ?_)
        rw [hborn]
        exact List.mem_singleton_self new
      | @landed c cur new _ hc hcur hnew hs =>
        obtain rfl : new = m := Option.some.inj (hs.symm.trans hnow)
        refine hland c (List.mem_append_right _ ?_) cur new (hbefore cur (.of_now hcur)) hnew
        rw [hc]
        exact List.mem_singleton_self c

/-- no table was created and no change has landed under a name where nothing is stored -/
theorem past_of_unstored (hs : (empty.after acts).stored? i N = none) :
    empty.births i N acts = [] ∧ empty.landings i N acts = [] := by
  induction acts, h using Legal.snoc_induction with
  | nil => exact ⟨rfl, rfl⟩
  | snoc acts a hl hf ih =>
    rw [after_snoc] at hs
    cases turn_act (coherent_after hl) hf i N with
    | kept hborn hland hkept =>
      obtain ⟨hbirths, hlandings⟩ := ih (hkept.symm.trans hs)
      rw [births_snoc, landings_snoc, hborn, hland, hbirths, hlandings]
      exact ⟨rfl, rfl⟩
    | created _ _ _ _ hnew => cases hs.symm.trans hnew
    | landed _ _ _ _ hnew => cases hs.symm.trans hnew

/-- what is stored under a name goes back to one creation -/
theorem births_of_stored {m : Metadata} (hs : (empty.after acts).stored? i N = some m) :
    ∃ first, empty.births i N acts = [first] := by
  induction acts, h using Legal.snoc_induction generalizing m with
  | nil => cases hs
  | snoc acts a hl hf ih =>
    rw [after_snoc] at hs
    rw [births_snoc]
    cases turn_act (coherent_after hl) hf i N with
    | kept hborn _ hkept =>
      rw [hborn, Option.toList_none, List.append_nil]
      exact ih (hkept.symm.trans hs)
    | @created _ first hborn _ _ hfree _ =>
      rw [hborn, (past_of_unstored hl hfree).1]
      exact ⟨first, rfl⟩
    | landed hborn _ hcur _ _ =>
      rw [hborn, Option.toList_none, List.append_nil]
      exact ih hcur

/-- **Induction over what has landed** since the table was created.  A property of landed changes
and of the metadata that they have led to is checked for no changes, and for one more. -/
theorem stored_induction {first : Metadata} (hb : empty.births i N acts = [first])
    {P : List Change → Metadata → Prop} (hfirst : P [] first)
    (hland : ∀ cs c, cs ++ [c] <+: empty.landings i N acts →
      ∀ cur m, P cs cur → c.on cur = some m → P (cs ++ [c]) m) :
    ∃ m, (empty.after acts).stored? i N = some m ∧ P (empty.landings i N acts) m := by
  induction acts, h using Legal.snoc_induction with
  | nil => cases hb
  | snoc acts a hl hf ih =>
    rw [births_snoc] at hb
    rw [landings_snoc] at hland ⊢
    rw [after_snoc]
    have hland' : ∀ cs c, cs ++ [c] <+: empty.landings i N acts →
        ∀ cur m, P cs cur → c.on cur = some m → P (cs ++ [c]) m :=
      fun cs c hp => hland cs c (hp.trans (List.prefix_append _ _))
    cases turn_act (coherent_after hl) hf i N with
    | kept hborn hnone hs =>
      rw [hborn, Option.toList_none, List.append_nil] at hb
      rw [hnone, hs, Option.toList_none, List.append_nil]
      exact ih hb hland'
    | @created schema m hborn hnone _ hfree hs =>
      obtain ⟨_, hnothing⟩ := past_of_unstored hl hfree
      rw [hborn, Option.toList_some] at hb
      obtain rfl : m = first := by
        have hlast := congrArg List.getLast? hb
        rw [List.getLast?_concat] at hlast
        exact Option.some.inj hlast
      rw [hnone, hnothing]
      exact ⟨m, hs, hfirst⟩
    | @landed c cur m hborn hc hcur hm hs =>
      rw [hborn, Option.toList_none, List.append_nil] at hb
      obtain ⟨cur', hcur', hP⟩ := ih hb hland'
      obtain rfl : cur = cur' := Option.some.inj (hcur.symm.trans hcur')
      rw [hc, Option.toList_some] at hland ⊢
      exact ⟨m, hs, hland _ c (List.prefix_refl _) cur m hP hm⟩

theorem storedIn_related {R : Metadata → Metadata → Prop} (hrefl : ∀ m, R m m)
    (htrans : ∀ {a b c}, R a b → R b c → R a c)
    (hland : ∀ c ∈ empty.landings i N acts, ∀ cur m, StoredIn acts i N cur →
      c.on cur = some m → R cur m)
    {m m' : Metadata} (hm : StoredIn acts i N m) (hm' : StoredIn acts i N m')
    (hv : m.version ≤ m'.version) : R m m' := by
  induction hn : m'.version - m.version generalizing m' with
  | zero =>
    obtain rfl : m = m' := storedIn_unique h hm hm' (by omega)
    exact hrefl m
  | succ n ih =>
    rcases storedIn_origin h hm' with ⟨c, schema, rfl⟩ | ⟨cur, hcur, c, hc, hon⟩
    · have hzero : (c.firstMetadata N schema).version = 0 := rfl
      omega
    · have hversion := Change.version_of_on hon
      exact htrans (ih hcur (by omega) (by omega)) (hland c hc cur m' hcur hon)

end

end World

end StagedTable
