import StagedTable.Proofs.Faults
import StagedTable.Proofs.OwnSteps

/-!
# Tables do not interfere

Take from a session the steps that concern one table, and run them alone.  They answer as they did
before, and the table is stored and cached as before at every moment, whatever the other steps do
with other tables, in other catalogs and with scripts.

* `run_follows`              the steps that concern a table can be taken without those in between;
* `related_start`            a session that has just been started is related to itself;
* `tables_do_not_interfere`  so a session and the steps of one table show the same of it from the
                             start on.
-/

namespace StagedTable.Session

section
variable {i i' : Nat} {N : String} {own : List String} {s t : Session}

/-! ## runs -/

/-- **The steps of a table run alone**, and give the same answers by the same events. -/
theorem run_follows (hs : s.Sound) (h : Related i i' N own s t) {sts : List Step}
    (hsep : SeparateRun i N s own sts) {out : List (Answer × List Event)} {s' : Session}
    (hrun : s.run sts = .ok (out, s')) :
    ∃ t' own', t.run (select (marks i N s own sts) sts) =
        .ok (select (marks i N s own sts) out, t') ∧ Related i i' N own' s' t' := by
  induction sts generalizing s t own out with
  | nil =>
    cases hrun
    exact ⟨t, own, rfl, h⟩
  | cons st sts ih =>
    obtain ⟨⟨a, s₁⟩, hst, hrun⟩ := bind_eq_ok.1 hrun
    obtain ⟨⟨rest, last⟩, hrest, hrun⟩ := bind_eq_ok.1 hrun
    cases hrun
    obtain ⟨hfirst, hothers⟩ := hsep
    rw [hst] at hothers
    have hsound := (step_leads hs hst).sound
    rw [marks, hst]
    by_cases hc : s.Concerns i N own st
    · obtain ⟨⟨a', t₁⟩, ht, hanswer, hevents, hrelated⟩ := follows_of_concerns hs h hc hfirst hst
      obtain rfl : a' = a := hanswer
      obtain ⟨t', own', ht', hlast⟩ := ih hsound hrelated hothers hrest
      refine ⟨t', own', ?_, hlast⟩
      rw [decide_eq_true hc]
      refine bind_eq_ok.2 ⟨(a', t₁), ht, bind_eq_ok.2 ⟨_, ht', ?_⟩⟩
      exact congrArg (fun events => Except.ok ((a', events) :: _, t')) hevents
    · have hrelated := related_of_elsewhere hs h hc hfirst hst
      rw [decide_eq_false hc]
      exact ih hsound hrelated hothers hrest

end

section
variable {i : Nat} {N : String} {own : List String} {s s' : Session} {sts : List Step}

theorem run_take {out : List (Answer × List Event)} (h : s.run sts = .ok (out, s')) (n : Nat) :
    ∃ s₁, s.run (sts.take n) = .ok (out.take n, s₁) := by
  induction sts generalizing s out n with
  | nil =>
    cases h
    refine ⟨s', ?_⟩
    rw [List.take_nil, List.take_nil]
    rfl
  | cons st sts ih =>
    obtain ⟨⟨a, s₁⟩, hst, h⟩ := bind_eq_ok.1 h
    obtain ⟨⟨rest, last⟩, hrest, h⟩ := bind_eq_ok.1 h
    cases h
    cases n with
    | zero => exact ⟨s, rfl⟩
    | succ n =>
      obtain ⟨s₂, hs₂⟩ := ih hrest n
      exact ⟨s₂, bind_eq_ok.2 ⟨_, hst, bind_eq_ok.2 ⟨_, hs₂, rfl⟩⟩⟩

theorem marks_take (n : Nat) : marks i N s own (sts.take n) = (marks i N s own sts).take n := by
  induction sts generalizing s own n with
  | nil => rw [List.take_nil, marks, List.take_nil]
  | cons st sts ih =>
    cases n with
    | zero => rfl
    | succ n =>
      rw [List.take_succ_cons, marks, marks, List.take_succ_cons]
      cases s.step st with
      | ok r => exact congrArg _ (ih n)
      | error e => exact congrArg _ List.take_nil.symm

theorem separateRun_take (h : SeparateRun i N s own sts) (n : Nat) :
    SeparateRun i N s own (sts.take n) := by
  induction sts generalizing s own n with
  | nil =>
    rw [List.take_nil]
    exact h
  | cons st sts ih =>
    cases n with
    | zero => trivial
    | succ n =>
      obtain ⟨hfirst, hothers⟩ := h
      refine ⟨hfirst, ?_⟩
      cases hst : s.step st with
      | ok r =>
        rw [hst] at hothers
        exact ih hothers n
      | error e => trivial

end

/-! ## from the start on -/

theorem handlesOn_of_length_le {w : World} (hco : w.Coherent) {i : Nat}
    (hi : w.store.catalogs.length ≤ i) (N : String) : w.handlesOn (.table i N) = [] := by
  cases hh : w.handlesOn (.table i N) with
  | nil => rfl
  | cons hd hds =>
    have ho : w.handle? ⟨.table i N, 0⟩ = some hd := by
      rw [World.handle?, hh]
      rfl
    obtain ⟨cur, hcur, _⟩ := hco _ hd ho i N rfl
    exact absurd (Store.lt_of_stored? hcur) (Nat.not_lt.2 hi)

/-- A session that nothing is planted and prepared in is related to itself.  A catalog that is still
to come will be the next one when the steps of its table run alone. -/
theorem related_self {s : Session} (hs : s.Sound)
    (hf : ∀ i, (s.world.store.catalog i).fault = none) (hu : s.updates = .empty)
    (ht : s.transactions = .empty) (i : Nat) (N : String) :
    Related i (min i s.world.store.catalogs.length) N [] s s := by
  rcases Nat.lt_or_ge i s.world.store.catalogs.length with hi | hi
  · rw [Nat.min_eq_left (Nat.le_of_lt hi)]
    exact {
      world := ⟨⟨.inl ⟨hi, hi⟩, rfl, rfl, hf i, hf i⟩, rfl⟩
      catalogs := fun k j hj hji => ⟨j, hj, hji⟩
      fixture := id
      handles := fun k id hid hb => ⟨id, hid, (HandleId.on_backing hb).symm⟩
      updates := fun k p hp => by rw [hu] at hp; cases hp
      transactions := fun k x hx => by rw [ht] at hx; cases hx
      members := by rw [ht]; exact Dictionary.all_empty
      registers := fun name hname => nomatch hname }
  · rw [Nat.min_eq_right hi]
    have hmissing : ∀ j, s.world.store.catalogs.length ≤ j → s.world.store.catalog j = default := by
      intro j hj
      rw [Store.catalog, List.getElem?_eq_none hj]
      rfl
    have hstore : s.world.store.Alike i s.world.store.catalogs.length N s.world.store := by
      refine ⟨.inr ⟨hi, rfl⟩, ?_, ?_, hf _, hf _⟩
      · rw [hmissing i hi, hmissing _ (Nat.le_refl _)]
      · rw [Store.stored?, hmissing _ (Nat.le_refl _), Store.stored?, hmissing i hi]
    have hclosed : ∀ id : HandleId, s.world.Open id → id.backing ≠ .table i N := by
      intro id ho hb
      have hlen : id.serial < (s.world.handlesOn id.backing).length := ho
      rw [hb, handlesOn_of_length_le hs.coherent hi] at hlen
      cases hlen
    refine {
      world := ⟨hstore, ?_⟩
      catalogs := fun k j hj hji => absurd (hs.catalogs k j hj) (hji ▸ Nat.not_lt.2 hi)
      fixture := fun hfix => absurd (hs.fixture i hfix) (Nat.not_lt.2 hi)
      handles := fun k id hid hb => absurd hb (hclosed id (hs.handles k id hid))
      updates := fun k p hp => by rw [hu] at hp; cases hp
      transactions := fun k x hx => by rw [ht] at hx; cases hx
      members := by rw [ht]; exact Dictionary.all_empty
      registers := fun name hname => nomatch hname }
    rw [handlesOn_of_length_le hs.coherent hi, handlesOn_of_length_le hs.coherent (Nat.le_refl _)]

theorem related_start {config : Catalog.Config} {s : Session}
    (h : s = start config ∨ startFixture config = .ok s) (i : Nat) (N : String) :
    s.Sound ∧ Related i (min i s.world.store.catalogs.length) N [] s s := by
  rcases h with rfl | h
  · obtain ⟨hl, hw, hs⟩ := start_leads config
    refine ⟨hs, related_self hs (fun j => ?_) rfl rfl i N⟩
    rw [hw]
    exact World.unplanted_after hl (by simp) j
  · obtain ⟨hl, hw, hs⟩ := startFixture_leads h
    have hempty : s.updates = .empty ∧ s.transactions = .empty := by
      rw [startFixture] at h
      split at h
      · cases h
        exact ⟨rfl, rfl⟩
      · cases h
    refine ⟨hs, related_self hs (fun j => ?_) hempty.1 hempty.2 i N⟩
    rw [hw]
    exact World.unplanted_after hl (by simp) j

/-- **Tables and catalogs do not interfere.**  Let a session run without faults, and without handing
anything over to a table from elsewhere.  Then the steps that concern the table can be run alone:
all others are left out, what they do to tables of other names, in other catalogs and to scripts,
and the catalogs that they add.  At every moment of the session the steps of the table have given
the same answers by the same events, the same is stored under its name, and all handles on it cache
the same.  Its catalog may have another number, for lack of those that were left out. -/
theorem tables_do_not_interfere {config : Catalog.Config} {s : Session}
    (hstart : s = start config ∨ startFixture config = .ok s) (i : Nat) (N : String)
    {sts : List Step} (hsep : SeparateRun i N s [] sts) {out : List (Answer × List Event)}
    {s' : Session} (hrun : s.run sts = .ok (out, s')) (n : Nat) :
    let i' := min i s.world.store.catalogs.length
    let keep := marks i N s [] sts
    select (keep.take n) (sts.take n) <+: select keep sts ∧
    ∃ now alone, s.run (sts.take n) = .ok (out.take n, now) ∧
      s.run (select (keep.take n) (sts.take n)) =
        .ok (select (keep.take n) (out.take n), alone) ∧
      alone.world.stored? i' N = now.world.stored? i N ∧
      alone.world.handlesOn (.table i' N) = now.world.handlesOn (.table i N) := by
  intro i' keep
  obtain ⟨hs, hrelated⟩ := related_start hstart i N
  obtain ⟨now, hnow⟩ := run_take hrun n
  obtain ⟨alone, own, halone, hlast⟩ := run_follows hs hrelated (separateRun_take hsep n) hnow
  rw [marks_take] at halone
  exact ⟨isPrefix_select_take keep sts n, now, alone, hnow, halone, hlast.world.store.stored,
    hlast.world.handles⟩

/-- Two catalogs have a table of orders, and the second one has a table of items besides. -/
def twins : List Step :=
  [.newCatalog "spare" default, .newCatalog "side" default,
    .create "main" "a" "orders" ordersSchema, .create "side" "b" "orders" ordersSchema,
    .create "side" "c" "items" ordersSchema, .newUpdate "u" "a" .location,
    .newUpdate "v" "b" .location, .call "u" .location (.moveTo "a://left"),
    .call "v" .location (.moveTo "a://right"), .commit "u", .commit "v", .ask (.version "b")]

/-- the table of orders on the side, alone -/
theorem tables_do_not_interfere_twins :
    let s := start default
    let keep := marks 2 "orders" s [] twins
    SeparateRun 2 "orders" s [] twins ∧
    keep = [false, true, false, true, false, false, true, false, true, false, true, true] ∧
    ∃ out now alone, s.run twins = .ok (out, now) ∧
      s.run (select keep twins) = .ok (select keep out, alone) ∧
      (now.world.stored? 2 "orders").map (·.location) = some "a://right" ∧
      alone.world.stored? 1 "orders" = now.world.stored? 2 "orders" := by
  intro s keep
  have hsep : SeparateRun 2 "orders" s [] twins := by decide +kernel
  have hkeep : keep.take 12 = keep := by decide +kernel
  have hlocation : (s.run twins).toOption.bind (fun r =>
      (r.2.world.stored? 2 "orders").map (·.location)) = some "a://right" := by decide +kernel
  cases hrun : s.run twins with
  | error e =>
    rw [hrun] at hlocation
    cases hlocation
  | ok r =>
    obtain ⟨_, now, alone, hnow, halone, hstored, _⟩ :=
      tables_do_not_interfere (.inl rfl) 2 "orders" hsep hrun 12
    have hend : r = (r.1.take 12, now) := Except.ok.inj (hrun.symm.trans hnow)
    rw [hrun, hend] at hlocation
    rw [hkeep] at halone
    exact ⟨hsep, by decide +kernel, r.1.take 12, now, alone, congrArg Except.ok hend, halone,
      hlocation, hstored⟩

end StagedTable.Session
