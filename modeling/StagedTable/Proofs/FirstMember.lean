import StagedTable.Proofs.FirstFailure
import StagedTable.Proofs.FreshHandles
import StagedTable.Proofs.TableCommits

/-!
# Only the first member can be refused

Let all members of a transaction go through one handle on a table.  A member that lands leaves the
handle fresh: its cache is what is stored, and no fault is planted.  A commit through a fresh handle
is not refused by the catalog, so that all a later member can do is fail its own checks.

* `World.landed_of_commit`      a commit that lands has met nothing in its way, and leaves its
                                handle fresh;
* `World.commit_refused`        a commit that fails changes nothing, and through a fresh handle it
                                fails for one reason only;
* `World.only_first_refused`    what this means for transactions.
-/

namespace StagedTable

/-- what the update asks for -/
def Pending.change (p : Pending) : Change := .update p.kind p.update.changes

namespace World

/-! ## one commit -/

section
variable {w w' : World} (hco : w.Coherent) {i n : Nat} {N : String} {hd : Handle}
  (ho : w.handle? ⟨.table i N, n⟩ = some hd) {p : Pending} (hp : p.handle = ⟨.table i N, n⟩)
include hco ho hp

/-- a commit of an update is that of a table, or the update cannot be applied -/
theorem act_commit_table :
    (∃ why, p.apply w = .error why ∧ w.act (.commit p) = (.error why.error,
      w.settle ⟨.table i N, n⟩ ⟨.error why.error, hd, w.store, why.events⟩)) ∨
    ∃ out o, p.apply w = .ok out ∧
      hd.TableCommit i N hd.cache (p.kind.install out hd.cache) w.store o ∧
      w.act (.commit p) = (o.status, w.settle ⟨.table i N, n⟩ o) := by
  cases ha : p.apply w with
  | error why =>
    have hact := act_commit_of_invalid ha
    rw [hp, handle_of_handle? ho] at hact
    exact .inl ⟨why, rfl, hact⟩
  | ok out =>
    have hsent := sent?_commit_of_ok ha
    rw [hp, handle_of_handle? ho] at hsent
    obtain ⟨o, hends, hact⟩ := act_of_sent_table hco ho hsent
    exact .inr ⟨out, o, rfl, hends, hact⟩

/-- a commit lands only through a fresh handle: its update applies to what is stored, and the
handle stays fresh -/
theorem landed_of_commit (h : w.act (.commit p) = (.ok (), w')) :
    ∃ out, p.update.apply hd.cache = .ok out ∧ w.stored? i N = some hd.cache ∧
      w'.Fresh i N n { hd with cache := (p.kind.install out hd.cache).succeeding hd.cache } ∧
      w.Moves i N n w' := by
  rcases act_commit_table hco ho hp with ⟨why, _, hact⟩ | ⟨out, o, ha, hends, hact⟩
  · rw [hact] at h
    cases h
  · rw [hact] at h
    cases hends with
    | struck hf => cases h
    | stale hf hcur hv => cases h
    | @landed cur hf hcur hv =>
      obtain rfl : _ = w' := congrArg Prod.snd h
      obtain rfl : hd.cache = cur := (hco _ hd ho).eq_of_version hcur hv.symm
      rw [Pending.apply, hp, handle_of_handle? ho] at ha
      exact ⟨out, ha, hcur, fresh_of_landed hf hcur (landed_settle ho hcur _ _ _)⟩

/-- a commit that lands makes its change on what is stored, and leaves its handle fresh -/
theorem fresh_of_commit (h : w.act (.commit p) = (.ok (), w')) :
    ∃ cur m, w.stored? i N = some cur ∧ p.change.on cur = some m ∧
      w'.Fresh i N n { hd with cache := m } ∧ w.Moves i N n w' := by
  obtain ⟨out, ha, hcur, hends⟩ := landed_of_commit hco ho hp h
  exact ⟨hd.cache, _, hcur, Change.on_update_of_ok (Update.applyTo_of_apply ha), hends⟩

/-- a commit that fails changes no table and no cache; it is refused only if its handle is not
fresh, and otherwise it is the update that cannot be applied -/
theorem commit_refused {e : Error} (h : w.act (.commit p) = (.error e, w')) :
    w.SameTables w' ∧ w.SameCaches w' ∧ (e.kind = .validationFailed ∨ ¬ w.Fresh i N n hd) := by
  have hsame : ∀ {st : Status} {s : Store} {events : List Event},
      w.SameCaches (w.settle ⟨.table i N, n⟩ ⟨st, hd, s, events⟩) := sameCaches_settle ho
  rcases act_commit_table hco ho hp with ⟨why, _, hact⟩ | ⟨out, o, ha, hends, hact⟩
  · rw [hact] at h
    cases h
    exact ⟨fun _ _ => rfl, hsame, .inl why.kind_error⟩
  · rw [hact] at h
    cases hends with
    | struck hf =>
      cases h
      refine ⟨w.store.stored?_setFault i none, hsame, .inr fun hfresh => ?_⟩
      cases hf.symm.trans hfresh.unplanted
    | stale hf hcur hv =>
      cases h
      refine ⟨fun _ _ => rfl, hsame, .inr fun hfresh => hv ?_⟩
      exact congrArg Metadata.version (Option.some.inj (hcur.symm.trans hfresh.current))
    | landed hf hcur hv => cases h

end

/-! ## members in a row -/

section
variable {i n : Nat} {N : String}

/-- members that succeed land one on top of the other, and leave the handle fresh -/
theorem fresh_of_succeeds {w w' : World} (hco : w.Coherent) {hd : Handle}
    (ho : w.handle? ⟨.table i N, n⟩ = some hd) {ps : List Pending}
    (hown : ∀ p ∈ ps, p.handle = ⟨.table i N, n⟩)
    (h : Transaction.Succeeds Transaction.Member.commit w (ps.map .update) w') :
    w'.Coherent ∧ w.Moves i N n w' ∧ ((ps = [] ∧ w' = w) ∨ (ps ≠ [] ∧
      ∃ cur m, w.stored? i N = some cur ∧ replay cur (ps.map Pending.change) = some m ∧
        w'.Fresh i N n { hd with cache := m })) := by
  induction ps generalizing w hd with
  | nil =>
    cases h
    exact ⟨hco, .refl _ i N n, .inl ⟨rfl, rfl⟩⟩
  | cons p ps ih =>
    cases h with
    | @cons _ _ w w₁ _ hm hms =>
      have hp : p.handle = ⟨.table i N, n⟩ := hown p List.mem_cons_self
      obtain ⟨cur, m₁, hcur, hon, hfresh, hmoves⟩ := fresh_of_commit hco ho hp hm
      have hco₁ : w₁.Coherent := by
        have hopen : w.Open p.handle := by
          rw [hp]
          exact open_of_handle? ho
        have hstep : w.Steps (w.act (.commit p)).2 := steps_act hco hopen
        have hw₁ : (w.act (.commit p)).2 = w₁ := congrArg Prod.snd hm
        exact hw₁ ▸ hstep.coherent hco
      obtain ⟨hco', hmoves', hrest⟩ :=
        ih hco₁ hfresh.isOpen (fun q hq => hown q (List.mem_cons_of_mem p hq)) hms
      refine ⟨hco', hmoves.trans hmoves', .inr ⟨List.cons_ne_nil p ps, ?_⟩⟩
      rw [List.map_cons]
      rcases hrest with ⟨rfl, rfl⟩ | ⟨_, cur', m, hcur', hreplay, hfresh'⟩
      · exact ⟨cur, m₁, hcur, by rw [replay_cons, hon]; rfl, hfresh⟩
      · obtain rfl : m₁ = cur' := Option.some.inj (hfresh.current.symm.trans hcur')
        exact ⟨cur, m, hcur, by rw [replay_cons, hon]; exact hreplay, hfresh'⟩

/-- **Only the first member of a transaction can be refused or lost.**  Let a transaction through a
handle on a table fail, whatever fault is planted and however old the cache is.  If the catalog has
refused it or the answer was lost, that was at the first member, and nothing has changed.  At a
later member it is always that member's own checks that have failed, and the ones before it, and no
others, have landed and are cached. -/
theorem only_first_refused {acts : List Action} (h : empty.Legal acts) {hd : Handle}
    (ho : (empty.after acts).handle? ⟨.table i N, n⟩ = some hd) {t : Transaction}
    (ht : t.handle = ⟨.table i N, n⟩) {ps : List Pending} (hms : t.contents = ps.map .update)
    (hown : ∀ p ∈ ps, p.handle = ⟨.table i N, n⟩) {e : Error} {w' : World}
    (hfail : (empty.after acts).commitTransaction t = (.error e, w')) :
    let w := empty.after acts
    ∃ k text, 1 ≤ k ∧ k ≤ ps.length ∧
      e.message = "update " ++ toString k ++ " of " ++ toString ps.length ++ ": " ++ text ∧
      w'.journal.getLast? = some (.transactionStopped hd.ident k ps.length) ∧
      ((e.kind = .commitFailed ∨ e.kind = .commitStateUnknown) → k = 1) ∧
      (k = 1 → w.SameTables w' ∧ w.SameCaches w') ∧
      (1 < k → e.kind = .validationFailed ∧
        ∃ cur m, w.stored? i N = some cur ∧
          replay cur ((ps.take (k - 1)).map Pending.change) = some m ∧
          m.version = cur.version + (k - 1) ∧ w'.stored? i N = some m ∧
          w'.handle? ⟨.table i N, n⟩ = some { hd with cache := m } ∧ w.Moves i N n w') := by
  intro w
  have hends := (Transaction.commitAll_boxed_eq_iff _ _ t.members _).1 hfail
  rw [ht, handle_of_handle? ho, ← Transaction.contents, hms] at hends
  cases hends with
  | @stopped before after m w₁ w₂ e' hsplit hs hm =>
    -- the failing member is one of the updates, and so are those before it
    obtain ⟨ps₁, rest, rfl, rfl, hrest⟩ := List.map_eq_append_iff.1 hsplit
    obtain ⟨p, ps₂, rfl, rfl, rfl⟩ := List.map_eq_cons_iff.1 hrest
    have hp : p.handle = ⟨.table i N, n⟩ :=
      hown p (List.mem_append_right ps₁ List.mem_cons_self)
    obtain ⟨hco₁, hmoves, hbefore⟩ := fresh_of_succeeds (coherent_after h) ho
      (fun q hq => hown q (List.mem_append_left _ hq)) hs
    rw [List.length_map, List.length_map]
    refine ⟨ps₁.length + 1, e'.message, Nat.le_add_left 1 _, ?_, rfl, List.getLast?_concat, ?_⟩
    · rw [List.length_append, List.length_cons]
      omega
    rw [Nat.add_sub_cancel, List.take_left]
    rcases hbefore with ⟨rfl, rfl⟩ | ⟨hsome, cur, m, hcur, hreplay, hfresh⟩
    · obtain ⟨htables, hcaches, _⟩ := commit_refused hco₁ ho hp hm
      exact ⟨fun _ => rfl, fun _ => ⟨htables, hcaches⟩, fun hk => absurd hk (Nat.lt_irrefl 1)⟩
    · obtain ⟨htables, hcaches, hkind⟩ := commit_refused hco₁ hfresh.isOpen hp hm
      have hinvalid : e'.kind = .validationFailed := hkind.resolve_right fun hno => hno hfresh
      refine ⟨fun hk => ?_, fun hk => ?_, fun _ => ⟨hinvalid, cur, m, hcur, hreplay, ?_⟩⟩
      · rw [hinvalid] at hk
        rcases hk with hk | hk <;> cases hk
      · exact absurd (List.eq_nil_of_length_eq_zero (Nat.succ.inj hk)) hsome
      · refine ⟨?_, (htables i N).trans hfresh.current, (hcaches _).trans hfresh.isOpen, ?_⟩
        · rw [version_of_replay hreplay, List.length_map]
        · exact hmoves.trans ⟨fun j T _ => htables j T, fun id _ => hcaches id⟩

end

/-- the second member deletes a column that is not there -/
def halfway : List Pending :=
  [⟨orders 0, .location, moveTo "a://left"⟩,
    ⟨orders 0, .schema, (Update.new .schema).call (.delete "gone")⟩]

theorem only_first_refused_halfway :
    let t : Transaction := ⟨orders 0, halfway.map fun p => .direct (.update p)⟩
    let r := (empty.after openOrders).commitTransaction t
    ∃ e, r.1 = .error e ∧ e.kind = .validationFailed ∧ ∃ m, r.2.stored? 0 "orders" = some m ∧
      m.version = 1 ∧ (r.2.handle? (orders 0)).map (·.cache) = some m := by
  intro t r
  have hl : empty.Legal openOrders := by decide +kernel
  have ho : (empty.after openOrders).Open (orders 0) := by decide +kernel
  have hown : ∀ p ∈ halfway, p.handle = orders 0 := by decide +kernel
  obtain ⟨e, he⟩ : ∃ e, r.1 = .error e := ⟨_, rfl⟩
  have hms : t.contents = halfway.map .update := rfl
  obtain ⟨k, _, _, _, _, hlast, _, _, hlater⟩ := only_first_refused hl (handle?_of_open ho)
    (t := t) rfl hms hown (Prod.ext he rfl)
  have hstopped : r.2.journal.getLast? = some (.transactionStopped "orders" 2 2) := by
    decide +kernel
  obtain ⟨_, rfl, _⟩ := Event.transactionStopped.inj (Option.some.inj (hlast.symm.trans hstopped))
  obtain ⟨hkind, cur, m, hcur, _, hv, hs, hh, _⟩ := hlater Nat.one_lt_two
  have hzero : cur.version = 0 := by
    rw [← Option.some.inj hcur]
    rfl
  exact ⟨e, he, hkind, m, hs, by omega, congrArg (Option.map (·.cache)) hh⟩

end World

end StagedTable
