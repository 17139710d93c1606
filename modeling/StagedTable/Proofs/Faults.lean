import StagedTable.Proofs.Growth
import StagedTable.Proofs.Outcomes
import StagedTable.Proofs.QuietActions

/-!
# Planted faults

A fault that is planted in a catalog waits for the next commit that is sent to one of its tables,
through whatever handle and by whatever call, and strikes that one.  Nothing else notices it.

* `Waits`                         a fault still waits: all actions since it was planted were quiet;
* `World.fault_eq_some_iff`       what a catalog has planted is the fault that waits;
* `Strikes`                       the fault still waits when a commit is sent;
* `World.fault_hits_next_commit`  so each fault strikes one commit, and each commit that is struck
                                  is struck by a fault of its own.
-/

namespace StagedTable

namespace World

/-! ## what one action does to a fault -/

section
variable {w : World} {i : Nat} {a : Action}

theorem fault_of_quiet (hq : w.Quiet i a) (hf : a.Fits w) :
    ((w.act a).2.store.catalog i).fault = (w.store.catalog i).fault := by
  have hx : (w.store.catalog i).fault ≠ none → i < w.store.catalogs.length := by
    intro hne
    by_contra hi
    exact hne (Store.fault_of_length_le (Nat.le_of_not_lt hi))
  have hself : w.withFault i (w.store.catalog i).fault = w := by
    rw [withFault, Store.withFault_self]
  have hact := congrArg Prod.snd (act_withFault hq hf hx)
  rw [hself] at hact
  have hcat := Store.catalog_withFault (s := (w.act a).2.store)
    (fun hne => Nat.lt_of_lt_of_le (hx hne) (w.catalogs_act a)) i
  rw [if_pos rfl] at hcat
  have hfault := congrArg Catalog.fault hcat
  rw [hact]
  exact hfault

theorem fault_of_plant {f : Catalog.Fault} (hi : i < w.store.catalogs.length) :
    ((w.plant i f).store.catalog i).fault = some f := by
  rw [plant, Store.catalog_setCatalog hi, if_pos rfl]
  rfl

/-- what was planted is used up by a commit that is sent to the catalog, if there was anything -/
theorem fault_of_sent (hco : w.Coherent) (hf : a.Fits w) (hs : w.sentTo? a = some i) :
    ((w.act a).2.store.catalog i).fault = none := by
  obtain ⟨N, n, base, new, hsent⟩ := sent_of_sentTo? hs
  have ho := open_of_sent hf hsent
  obtain ⟨cur, hcur, _⟩ := hco _ _ (handle?_of_open ho) i N rfl
  have hi := Store.lt_of_stored? hcur
  obtain ⟨o, hends, hact⟩ := act_of_sent_table hco (handle?_of_open ho) hsent
  rw [hact]
  show (o.store.catalog i).fault = none
  cases hends with
  | struck hf => rw [Store.catalog_setCatalog hi, if_pos rfl]
  | stale hf hcur hv => exact hf
  | landed hf hcur hv =>
    rw [Store.put, Store.catalog_setCatalog hi, if_pos rfl]
    exact hf

end

end World

/-! ## faults that wait -/

/-- the fault that action number `p` has planted still waits when the run is over -/
structure Waits (acts : List Action) (i p : Nat) (f : Catalog.Fault) : Prop where
  planted : acts[p]? = some (.plant i f)
  quiet : ∀ r < acts.length, p < r → ∀ a ∈ acts[r]?, (World.empty.after (acts.take r)).Quiet i a

theorem waits_snoc {acts : List Action} {a : Action} {i p : Nat} {f : Catalog.Fault} :
    Waits (acts ++ [a]) i p f ↔
      (p = acts.length ∧ a = .plant i f) ∨
        (Waits acts i p f ∧ (World.empty.after acts).Quiet i a) := by
  have hlen : (acts ++ [a]).length = acts.length + 1 := List.length_append
  have hold : ∀ r < acts.length,
      (acts ++ [a])[r]? = acts[r]? ∧ (acts ++ [a]).take r = acts.take r :=
    fun r hr => ⟨List.getElem?_append_left hr, List.take_append_of_le_length (Nat.le_of_lt hr)⟩
  constructor
  · rintro ⟨hp, hq⟩
    rcases Nat.lt_trichotomy p acts.length with hlt | rfl | hgt
    · refine .inr ⟨⟨(hold p hlt).1.symm.trans hp, fun r hr hpr b hb => ?_⟩, ?_⟩
      · have hquiet := hq r (by omega) hpr b (by rw [(hold r hr).1]; exact hb)
        rw [(hold r hr).2] at hquiet
        exact hquiet
      · have hquiet := hq acts.length (by omega) hlt a List.getElem?_concat_length
        rw [List.take_left' rfl] at hquiet
        exact hquiet
    · rw [List.getElem?_concat_length] at hp
      exact .inl ⟨rfl, Option.some.inj hp⟩
    · rw [List.getElem?_eq_none (by omega)] at hp
      cases hp
  · rintro (⟨rfl, rfl⟩ | ⟨⟨hp, hq⟩, hquiet⟩)
    · exact ⟨List.getElem?_concat_length, fun r hr hpr => absurd hpr (by omega)⟩
    · obtain ⟨hlt, _⟩ := List.getElem?_eq_some_iff.1 hp
      refine ⟨(hold p hlt).1.trans hp, fun r hr hpr b hb => ?_⟩
      rcases Nat.lt_or_ge r acts.length with hr' | hr'
      · rw [(hold r hr').1] at hb
        rw [(hold r hr').2]
        exact hq r hr' hpr b hb
      · obtain rfl : r = acts.length := by omega
        rw [List.getElem?_concat_length] at hb
        obtain rfl : a = b := Option.some.inj hb
        rw [List.take_left' rfl]
        exact hquiet

namespace World

/-- **What is planted is what waits.** -/
theorem fault_eq_some_iff {acts : List Action} (h : empty.Legal acts) {i : Nat}
    {f : Catalog.Fault} :
    ((empty.after acts).store.catalog i).fault = some f ↔ ∃ p, Waits acts i p f := by
  induction acts, h using Legal.snoc_induction with
  | nil =>
    constructor
    · intro hf
      cases hf
    · rintro ⟨p, hp⟩
      cases hp.planted
  | snoc acts a hl hf ih =>
    simp only [after_snoc, waits_snoc]
    by_cases hq : (empty.after acts).Quiet i a
    · rw [fault_of_quiet hq hf, ih]
      constructor
      · rintro ⟨p, hp⟩
        exact ⟨p, .inr ⟨hp, hq⟩⟩
      · rintro ⟨p, ⟨_, rfl⟩ | ⟨hp, _⟩⟩
        · exact absurd rfl hq.1
        · exact ⟨p, hp⟩
    · have hnew : (∃ p, (p = acts.length ∧ a = .plant i f) ∨ (Waits acts i p f ∧ _)) ↔
          a = .plant i f :=
        ⟨fun ⟨_, h⟩ => h.elim And.right fun h => absurd h.2 hq, fun h => ⟨_, .inl ⟨rfl, h⟩⟩⟩
      rw [hnew]
      by_cases hplant : a.plants? = some i
      · cases a with
        | plant j g =>
          obtain rfl : j = i := Option.some.inj hplant
          have hfault := fault_of_plant (f := g) hf
          show ((((empty.after acts).plant j g).store.catalog j).fault = some f) ↔ _
          rw [hfault, Option.some.injEq, Action.plant.injEq]
          exact ⟨fun h => ⟨rfl, h⟩, fun h => h.2⟩
        | _ => cases hplant
      · have hsent : (empty.after acts).sentTo? a = some i := by
          by_contra hsent
          exact hq ⟨hplant, hsent⟩
        rw [fault_of_sent (coherent_after hl) hf hsent]
        constructor
        · intro h
          cases h
        · rintro rfl
          exact absurd rfl hplant

theorem unplanted_after {acts : List Action} (h : empty.Legal acts)
    (hno : ∀ i f, .plant i f ∉ acts) (i : Nat) :
    ((empty.after acts).store.catalog i).fault = none := by
  cases hf : ((empty.after acts).store.catalog i).fault with
  | none => rfl
  | some f =>
    obtain ⟨p, hp⟩ := (fault_eq_some_iff h).1 hf
    exact absurd (List.mem_of_getElem? hp.planted) (hno i f)

end World

/-- the fault that action number `p` has planted strikes action number `q`: it still waits when that
action sends a commit to the catalog -/
structure Strikes (acts : List Action) (i p q : Nat) (f : Catalog.Fault) : Prop where
  waits : Waits (acts.take q) i p f
  sent : ∃ a ∈ acts[q]?, (World.empty.after (acts.take q)).sentTo? a = some i

section
variable {acts : List Action} {i p q p' q' : Nat} {f f' : Catalog.Fault}

theorem Waits.lt_length (h : Waits acts i p f) : p < acts.length := by
  obtain ⟨hlt, _⟩ := List.getElem?_eq_some_iff.1 h.planted
  exact hlt

/-- no fault waits any longer when a commit was sent or another one was planted -/
theorem Waits.quiet_at (h : Waits (acts.take q') i p f) (hq : q < q') (hp : p < q) {a : Action}
    (ha : acts[q]? = some a) : (World.empty.after (acts.take q)).Quiet i a := by
  obtain ⟨hlt, _⟩ := List.getElem?_eq_some_iff.1 ha
  have hget : (acts.take q')[q]? = acts[q]? := List.getElem?_take_of_lt hq
  have hquiet := h.quiet q (by rw [List.length_take]; omega) hp a (hget.trans ha)
  rw [List.take_take, Nat.min_eq_left (Nat.le_of_lt hq)] at hquiet
  exact hquiet

theorem Strikes.planted_before (h : Strikes acts i p q f) : p < q := by
  have hlt := h.waits.lt_length
  rw [List.length_take] at hlt
  omega

/-- a fault that strikes is used up, and strikes nothing after that -/
theorem Strikes.not_later (h : Strikes acts i p q f) (h' : Strikes acts i p' q' f') (hp : p' < q) :
    ¬ q < q' := by
  intro hlt
  obtain ⟨a, ha, hsent⟩ := h.sent
  exact (h'.waits.quiet_at hlt hp ha).2 hsent

/-- of two faults the later one replaces the other, and is the one that strikes -/
theorem Strikes.not_replaced (h : Strikes acts i p q f) (h' : Strikes acts i p' q f') :
    ¬ p < p' := by
  intro hlt
  have hget : (acts.take q)[p']? = acts[p']? := List.getElem?_take_of_lt h'.planted_before
  have hquiet := h.waits.quiet_at h'.planted_before hlt (hget.symm.trans h'.waits.planted)
  exact hquiet.1 rfl

theorem Strikes.unique (h : Strikes acts i p q f) (h' : Strikes acts i p' q' f') :
    p = p' ↔ q = q' := by
  constructor
  · rintro rfl
    have hle := h.not_later h' h.planted_before
    have hge := h'.not_later h h'.planted_before
    omega
  · rintro rfl
    have hle := h.not_replaced h'
    have hge := h'.not_replaced h
    omega

end

namespace World

section
variable {acts : List Action} (h : empty.Legal acts) {i : Nat}
include h

/-- what strikes a commit is what is planted at that moment -/
theorem strikes_iff_fault {q : Nat} {a : Action} (ha : acts[q]? = some a)
    (hs : (empty.after (acts.take q)).sentTo? a = some i) {f : Catalog.Fault} :
    (∃ p, Strikes acts i p q f) ↔ ((empty.after (acts.take q)).store.catalog i).fault = some f := by
  rw [fault_eq_some_iff (h.fits ha).1]
  exact ⟨fun ⟨p, hp⟩ => ⟨p, hp.waits⟩, fun ⟨p, hp⟩ => ⟨p, hp, a, ha, hs⟩⟩

/-- how a commit ends that is sent to a table: a fault strikes it, or the versions are compared -/
theorem sent_outcome {q n : Nat} {a : Action} {N : String} {base new : Metadata}
    (ha : acts[q]? = some a)
    (hs : (empty.after (acts.take q)).sent? a = some (⟨.table i N, n⟩, base, new)) :
    let w := empty.after (acts.take q)
    let status := (w.act a).1
    let w' := (w.act a).2
    ∃ cur, w.stored? i N = some cur ∧
      (∀ p f, Strikes acts i p q f →
        status = .error (f.strike N).error ∧ w.SameTables w' ∧ w.SameCaches w') ∧
      ((¬ ∃ p f, Strikes acts i p q f) → status = if base.version = cur.version then .ok () else
        .error (Catalog.CommitError.stale N base.version cur.version).error) ∧
      ∀ e, status = .error e →
        (e.kind = .commitStateUnknown → ∃ p, Strikes acts i p q .loseResponse) ∧
        (e.kind = .commitFailed →
          (∃ p, Strikes acts i p q .reject) ∨ base.version ≠ cur.version) := by
  intro w status w'
  obtain ⟨hl, hf⟩ := h.fits ha
  have hstrikes := fun f => strikes_iff_fault h ha (sentTo?_of_sent hs) (f := f)
  have ho := handle?_of_open (open_of_sent hf hs)
  obtain ⟨cur, hcur, _⟩ := coherent_after hl _ _ ho i N rfl
  obtain ⟨o, hends, hact⟩ := act_of_sent_table (coherent_after hl) ho hs
  have hstatus : status = o.status := congrArg Prod.fst hact
  have hw' : w' = w.settle ⟨.table i N, n⟩ o := congrArg Prod.snd hact
  have hnone : (w.store.catalog i).fault = none → ¬ ∃ p f, Strikes acts i p q f := by
    rintro hfault ⟨p, f, hp⟩
    cases hfault.symm.trans ((hstrikes f).1 ⟨p, hp⟩)
  refine ⟨cur, hcur, ?_⟩
  cases hends with
  | @struck f hfault =>
    refine ⟨fun p f' hp => ?_, fun hno => ?_, fun e he => ?_⟩
    · obtain rfl : f = f' := Option.some.inj (hfault.symm.trans ((hstrikes f').1 ⟨p, hp⟩))
      refine ⟨hstatus, ?_, ?_⟩
      · rw [hw']
        exact w.store.stored?_setFault i none
      · rw [hw']
        exact sameCaches_settle ho
    · obtain ⟨p, hp⟩ := (hstrikes f).2 hfault
      exact absurd ⟨p, f, hp⟩ hno
    · obtain rfl : (f.strike N).error = e := Except.error.inj (hstatus.symm.trans he)
      have hp := (hstrikes f).2 hfault
      cases f with
      | reject => exact ⟨fun hkind => (nomatch hkind), fun _ => .inl hp⟩
      | loseResponse => exact ⟨fun _ => hp, fun hkind => (nomatch hkind)⟩
  | @stale cur' hfault hcur' hv =>
    obtain rfl : cur = cur' := Option.some.inj (hcur.symm.trans hcur')
    refine ⟨fun p f hp => absurd ⟨p, f, hp⟩ (hnone hfault), fun _ => ?_, fun e he => ?_⟩
    · rw [if_neg (Ne.symm hv)]
      exact hstatus
    · cases hstatus.symm.trans he
      exact ⟨fun hkind => (nomatch hkind), fun _ => .inr (Ne.symm hv)⟩
  | @landed cur' hfault hcur' hv =>
    obtain rfl : cur = cur' := Option.some.inj (hcur.symm.trans hcur')
    refine ⟨fun p f hp => absurd ⟨p, f, hp⟩ (hnone hfault), fun _ => ?_, fun e he => ?_⟩
    · rw [if_pos hv.symm]
      exact hstatus
    · cases hstatus.symm.trans he

end

/-- **A planted fault hits the next commit that is sent to its catalog, and no other.**  A commit
that a fault strikes fails as the fault says and changes no table and no cache.  All others end as
the versions say.  So an answer is lost only if a fault has lost it, and a commit is refused only if
a fault has refused it or its base is not of the stored version, and each fault does so once.  What
is not sent to the catalog does not notice a fault, and leaves it as it is. -/
theorem fault_hits_next_commit {acts : List Action} (h : empty.Legal acts) (i : Nat) :
    (∀ q a n N base new, acts[q]? = some a →
      let w := empty.after (acts.take q)
      let status := (w.act a).1
      let w' := (w.act a).2
      w.sent? a = some (⟨.table i N, n⟩, base, new) →
      ∃ cur, w.stored? i N = some cur ∧
        (∀ p f, Strikes acts i p q f →
          status = .error (f.strike N).error ∧ w.SameTables w' ∧ w.SameCaches w') ∧
        ((¬ ∃ p f, Strikes acts i p q f) → status = if base.version = cur.version then .ok () else
          .error (Catalog.CommitError.stale N base.version cur.version).error) ∧
        ∀ e, status = .error e →
          (e.kind = .commitStateUnknown → ∃ p, Strikes acts i p q .loseResponse) ∧
          (e.kind = .commitFailed →
            (∃ p, Strikes acts i p q .reject) ∨ base.version ≠ cur.version)) ∧
    (∀ p q f p' q' f', Strikes acts i p q f → Strikes acts i p' q' f' → (p = p' ↔ q = q')) ∧
    (∀ q a, acts[q]? = some a →
      let w := empty.after (acts.take q)
      i < w.store.catalogs.length → w.Quiet i a →
      ∀ f, (w.plant i f).act a = ((w.act a).1, (w.act a).2.plant i f)) ∧
    (∀ (w : World) (p : Pending) why, p.apply w = .error why → w.Quiet i (.commit p)) ∧
    (∀ (w : World) j N schema id p, w.Quiet i (.create j N schema) ∧ w.Quiet i (.load j N) ∧
      w.Quiet i (.refresh id) ∧ w.Quiet i (.preview p)) ∧
    ∀ (w : World) f g, (w.plant i f).plant i g = w.plant i g := by
  refine ⟨fun q a N n base new ha => sent_outcome h ha, fun p q f p' q' f' hs hs' => hs.unique hs',
    fun q a ha => ?_, fun w p why hp => quiet_of_unsent rfl (sent?_commit_of_error hp) i,
    fun w j N schema id p => ?_, fun w f g => ?_⟩
  · intro w hi hq f
    exact act_withFault hq (h.fits ha).2 fun _ => hi
  · exact ⟨quiet_of_unsent rfl rfl i, quiet_of_unsent rfl rfl i, quiet_of_unsent rfl rfl i,
      quiet_of_unsent rfl rfl i⟩
  · have hstore := w.store.withFault_withFault i (some f) (some g)
    exact congrArg (World.mk · w.handles w.journal) hstore

/-- The first handle reads again before it commits.  That does not help it, since the fault of the
race still waits. -/
def lateRace : List Action :=
  race ++ [.refresh (orders 0), .commit ⟨orders 0, .location, moveTo "a://late"⟩]

theorem fault_hits_next_commit_race :
    let w := empty.after (lateRace.take 9)
    let r := w.act (.commit ⟨orders 0, .location, moveTo "a://late"⟩)
    Strikes lateRace 0 7 9 .reject ∧
      r.1 = .error ⟨.commitFailed, "Commit to orders was rejected by the catalog"⟩ ∧
      w.SameTables r.2 ∧ w.SameCaches r.2 := by
  intro w r
  have hl : empty.Legal lateRace := by decide +kernel
  have hstrikes : Strikes lateRace 0 7 9 .reject :=
    ⟨⟨rfl, by decide +kernel⟩, _, rfl, by decide +kernel⟩
  obtain ⟨hcommits, _⟩ := fault_hits_next_commit hl 0
  obtain ⟨cur, _, hstruck, _⟩ := hcommits 9 _ 0 "orders" _ _ rfl rfl
  exact ⟨hstrikes, hstruck 7 .reject hstrikes⟩

end World

end StagedTable
