import StagedTable.Proofs.Growth
import StagedTable.Proofs.Journal

/-!
# The journal as an audit trail

In a run on one catalog the journal tells all that has happened to its tables.  The commits on a
table that have landed are there with the versions 1, 2 and so on, up to the one that is stored; a
commit that has failed is there with its base and its error; and so are checks that have failed, and
the ends of transactions.

* `World.OneCatalog`              all handles are open on tables of one catalog, and each has the name
                                  of its table as its identifier;
* `World.OneCatalog.sent_ends`    so a commit that is sent is told of under the name of its table;
* `World.Audited`                 what the journal says of all tables, kept by each action;
* `World.journal_is_audit_trail`  what it says of each action and of each transaction besides.

The version in an event is read from the cache after a refresh, and not from what is stored.  Such a
refresh does not fail in a catalog: no table is ever taken out of it.
-/

namespace StagedTable

/-- the version that the journal has for a landed commit on the table -/
def Event.version? (N : String) : Event → Option Nat
  | committed table version => if table = N then some version else none
  | _ => none

theorem Event.version?_of_source {e : Event} (h : e.source ≠ .commit) (N : String) :
    e.version? N = none := by
  cases e with
  | committed table version => exact absurd rfl h
  | _ => rfl

theorem Event.filterMap_version? (N : String) (es : List Event) :
    es.filterMap (version? N) = (es.filter (·.source = .commit)).filterMap (version? N) := by
  induction es with
  | nil => rfl
  | cons e es ih =>
    by_cases h : e.source = .commit
    · simp [List.filterMap_cons, h, ih]
    · simp [version?_of_source h, h, ih]

/-- the action is a call on what is there, and brings in no catalog and no script -/
def Action.isCall : Action → Bool
  | .addCatalog _ | .openScript .. => false
  | _ => true

/-! ## identifiers -/

section
variable {σ : Type} (ops : Operations σ) (h : Handle)

theorem Handle.ident_of_attach {ident : String} {hd : Handle} {s s' : σ}
    (h : Handle.attach ops ident s = (.ok hd, s')) : hd.ident = ident := by
  unfold attach at h
  split at h
  · cases h
    rfl
  · cases h

theorem Handle.ident_refresh (s : σ) : (h.refresh ops s).handle.ident = h.ident := by
  unfold refresh
  split <;> rfl

theorem Handle.ident_commitMetadata (base new : Metadata) (s : σ) :
    (h.commitMetadata ops base new s).handle.ident = h.ident := by
  unfold commitMetadata
  split
  · rfl
  · split <;> rfl

theorem Update.ident_send {k : Kind} (u : Update k) (s : σ) :
    (u.send ops h s).handle.ident = h.ident := by
  unfold send
  split
  · rfl
  · exact h.ident_commitMetadata ops _ _ s

end

namespace World

theorem handle?_of_attach {w : World} {b : Backing} {ident : String} {id : HandleId} {hd : Handle}
    (h : (w.attach b ident).2.handle? id = some hd) :
    w.handle? id = some hd ∨ (id.backing = b ∧ hd.ident = ident) := by
  cases hatt : Handle.attach b.operations ident w.store with
  | mk r store =>
    cases r with
    | error e =>
      rw [attach_of_error hatt] at h
      exact .inl h
    | ok new =>
      obtain ⟨b', n⟩ := id
      rw [attach_of_ok hatt, handle?, handlesOn, Registry.get?_set] at h
      by_cases hb : b' = b
      · rw [if_pos hb, Option.getD_some, List.getElem?_append] at h
        split at h
        · left
          rw [handle?, hb]
          exact h
        · right
          rw [List.mem_singleton.1 (List.mem_of_getElem? h)]
          exact ⟨hb, Handle.ident_of_attach _ hatt⟩
      · rw [if_neg hb] at h
        exact .inl h

/-! ## one catalog -/

/-- there is one catalog, and each handle is open on one of its tables, under the name of that -/
structure OneCatalog (w : World) : Prop where
  catalogs : w.store.catalogs.length = 1
  handles : ∀ id hd, w.handle? id = some hd → id.backing = .table 0 hd.ident

namespace OneCatalog

variable {w : World} (hw : w.OneCatalog)
include hw

theorem eq_zero {i : Nat} (hi : i < w.store.catalogs.length) : i = 0 := by
  have hone := hw.catalogs
  omega

theorem handles_settle {id : HandleId} (ho : w.Open id) {o : Outcome Store}
    (hident : o.handle.ident = (w.handle id).ident) :
    ∀ id' hd, (w.settle id o).handle? id' = some hd → id'.backing = .table 0 hd.ident := by
  intro id' hd h
  rw [handle?_settle ho] at h
  by_cases hid : id' = id
  · rw [if_pos hid] at h
    obtain rfl : o.handle = hd := Option.some.inj h
    rw [hident, hid]
    exact hw.handles id _ (handle?_of_open ho)
  · rw [if_neg hid] at h
    exact hw.handles id' hd h

theorem handles_attach {w' : World} (hsame : ∀ id, w'.handle? id = w.handle? id) (N : String) :
    ∀ id hd, (w'.attach (.table 0 N) N).2.handle? id = some hd →
      id.backing = .table 0 hd.ident := by
  intro id hd h
  rcases handle?_of_attach h with hold | ⟨hb, hident⟩
  · rw [hsame] at hold
    exact hw.handles id hd hold
  · rw [hb, hident]

end OneCatalog

/-- calls keep to the one catalog -/
theorem oneCatalog_act {w : World} (hw : w.OneCatalog) {a : Action} (hf : a.Fits w)
    (hcall : a.isCall = true) : (w.act a).2.OneCatalog := by
  refine ⟨?_, ?_⟩
  · refine (w.catalogs_act_of_ne ?_).trans hw.catalogs
    rintro config rfl
    cases hcall
  · cases a with
    | addCatalog config => cases hcall
    | openScript ident script => cases hcall
    | create i N schema =>
      obtain rfl : i = 0 := hw.eq_zero hf
      show ∀ id hd, (w.create 0 N schema).2.handle? id = some hd → _
      cases hc : (w.store.catalog 0).create N schema with
      | error why =>
        rw [create_of_error hc]
        exact hw.handles
      | ok c =>
        have hborn : ∀ id, (w.born 0 N schema).handle? id = w.handle? id := fun _ => rfl
        rw [create_of_ok hf hc]
        exact hw.handles_attach hborn N
    | load i N =>
      obtain rfl : i = 0 := hw.eq_zero hf
      show ∀ id hd, (w.load 0 N).2.handle? id = some hd → _
      cases hs : w.stored? 0 N with
      | none =>
        rw [load_of_missing hs]
        exact hw.handles
      | some m =>
        rw [load_of_stored hs]
        exact hw.handles_attach (fun _ => rfl) N
    | plant i f => exact hw.handles
    | refresh id => exact hw.handles_settle hf (Handle.ident_refresh _ _ _)
    | commitMetadata id base new =>
      exact hw.handles_settle hf (Handle.ident_commitMetadata _ _ _ _ _)
    | commit p => exact hw.handles_settle hf (Update.ident_send _ _ _ _)
    | check p => exact hw.handles
    | preview p =>
      rw [act]
      split <;> exact hw.handles
    | close ident total failure => cases failure <;> exact hw.handles

/-! ## versions -/

/-- the version that is stored under a name of the first catalog, and 0 if nothing is -/
def version (w : World) (N : String) : Nat := ((w.stored? 0 N).map (·.version)).getD 0

theorem version_of_stored {w : World} {N : String} {m : Metadata} (h : w.stored? 0 N = some m) :
    w.version N = m.version := by
  rw [version, h]
  rfl

theorem version_congr {w w' : World} {N : String} (h : w'.stored? 0 N = w.stored? 0 N) :
    w'.version N = w.version N := by
  rw [version, h, version]

/-- what lands was sent -/
theorem landing?_of_unsent {w : World} {a : Action} (h : w.sent? a = none) (i : Nat) (N : String) :
    w.landing? i N a = none := by
  refine landing?_of_failed fun id c hr _ => ?_
  cases a with
  | commitMetadata id base new => cases h
  | commit p =>
    cases ha : p.apply w with
    | ok out =>
      rw [sent?_commit_of_ok ha] at h
      cases h
    | error why =>
      rw [act_commit_of_invalid ha]
      rfl
  | _ => cases hr

theorem version_of_unsent {w : World} {a : Action} (hco : w.Coherent) (hf : a.Fits w)
    (h : w.sent? a = none) (N : String) : (w.act a).2.version N = w.version N := by
  cases turn_act hco hf 0 N with
  | kept _ _ hs => exact version_congr hs
  | created _ _ hm hfree hs =>
    rw [version_of_stored hs, ← hm, version, hfree]
    rfl
  | landed _ hl _ _ _ =>
    rw [landing?_of_unsent h] at hl
    cases hl

/-- how a commit ends that is sent to a table: what is told of it, and what becomes of versions -/
inductive SentEnds (w w' : World) (N : String) (base : Nat) : Status → List Event → Prop
  | failed {e : Error} (hv : ∀ T, w'.version T = w.version T) :
      SentEnds w w' N base (.error e) [.commitFailed N base e]
  | landed (hbase : w.version N = base)
      (hv : ∀ T, w'.version T = if T = N then base + 1 else w.version T) :
      SentEnds w w' N base (.ok ()) [.committed N (base + 1)]

theorem OneCatalog.sent_ends {w : World} (hw : w.OneCatalog) (hco : w.Coherent) {a : Action}
    (hf : a.Fits w) {id : HandleId} {base new : Metadata} (h : w.sent? a = some (id, base, new)) :
    ∃ N, id.backing = .table 0 N ∧
      w.SentEnds (w.act a).2 N base.version (w.act a).1 (w.sentEvents a) := by
  obtain ⟨hd, ho⟩ : ∃ hd, w.handle? id = some hd := ⟨_, handle?_of_open (open_of_sent hf h)⟩
  have hb := hw.handles id hd ho
  obtain ⟨b, n⟩ := id
  obtain rfl : b = .table 0 hd.ident := hb
  obtain ⟨cur, hcur, _⟩ := hco _ hd ho 0 hd.ident rfl
  refine ⟨hd.ident, rfl, ?_⟩
  rw [act_of_sent h, sentEvents_of_sent h, handle_of_handle? ho]
  have hends := hd.commitMetadata_table hcur base new
  generalize hd.commitMetadata _ base new w.store = o at hends ⊢
  cases hends with
  | struck hfault =>
    exact .failed fun T => version_congr (w.store.stored?_setFault 0 none 0 T)
  | stale _ _ _ => exact .failed fun T => rfl
  | landed _ hcur hv =>
    refine .landed ((version_of_stored hcur).trans hv) fun T => ?_
    have hput := Store.stored?_put (Store.lt_of_stored? hcur) hd.ident (new.succeeding base) 0 T
    by_cases hT : T = hd.ident
    · rw [if_pos ⟨rfl, hT⟩] at hput
      rw [if_pos hT]
      refine version_of_stored (m := new.succeeding base) ?_
      exact hput
    · rw [if_neg fun h => hT h.2] at hput
      rw [if_neg hT]
      exact version_congr hput

/-- what an action tells of commits, and what becomes of versions -/
theorem OneCatalog.sentEvents_cases {w : World} (hw : w.OneCatalog) (hco : w.Coherent) {a : Action}
    (hf : a.Fits w) :
    (w.sentEvents a = [] ∧ ∀ T, (w.act a).2.version T = w.version T) ∨
    (∃ N base e, w.sentEvents a = [.commitFailed N base e] ∧
      ∀ T, (w.act a).2.version T = w.version T) ∨
    ∃ N, w.sentEvents a = [.committed N (w.version N + 1)] ∧
      ∀ T, (w.act a).2.version T = if T = N then w.version N + 1 else w.version T := by
  cases hs : w.sent? a with
  | none => exact .inl ⟨sentEvents_of_unsent hs, version_of_unsent hco hf hs⟩
  | some r =>
    obtain ⟨N, _, hends⟩ := hw.sent_ends hco hf hs
    generalize w.sentEvents a = events at hends ⊢
    generalize (w.act a).1 = status at hends
    cases hends with
    | failed hv => exact .inr (.inl ⟨N, _, _, rfl, hv⟩)
    | landed hbase hv =>
      rw [← hbase] at hv
      exact .inr (.inr ⟨N, by rw [hbase], hv⟩)

/-! ## the trail -/

/-- what the journal says of the tables of the one catalog -/
structure Audited (w : World) : Prop where
  one : w.OneCatalog
  coherent : w.Coherent
  versions : ∀ N, w.journal.filterMap (Event.version? N) = List.range' 1 (w.version N)
  reread : ∀ table base e, Event.refreshFailed table base e ∉ w.journal

theorem audited_addCatalog (config : Catalog.Config) :
    (empty.act (.addCatalog config)).2.Audited where
  one := ⟨rfl, fun _ _ h => absurd h (by simp [handle?, handlesOn, act, addCatalog, empty])⟩
  coherent := (steps_act (a := .addCatalog config) coherent_empty trivial).coherent coherent_empty
  versions := by
    intro N
    have hnone : (empty.act (.addCatalog config)).2.version N = empty.version N :=
      version_congr (empty.addCatalog_stored? config 0 N)
    rw [hnone]
    rfl
  reread := fun _ _ _ h => absurd h List.not_mem_nil

theorem journal_eq {w : World} {a : Action} (hf : a.Fits w) :
    (w.act a).2.journal = w.journal ++ (w.act a).2.eventsSince w := by
  rw [eventsSince_act hf, journal_act hf]

/-- each action keeps the journal right -/
theorem Audited.act {w : World} (hw : w.Audited) {a : Action} (hf : a.Fits w)
    (hcall : a.isCall = true) : (w.act a).2.Audited := by
  have hcommits := commitEvents_act hf
  have hcases := hw.one.sentEvents_cases hw.coherent hf
  refine ⟨oneCatalog_act hw.one hf hcall, (steps_act hw.coherent hf).coherent hw.coherent, ?_, ?_⟩
  · intro N
    rw [journal_eq hf, List.filterMap_append, hw.versions, Event.filterMap_version?, hcommits]
    rcases hcases with ⟨hnone, hv⟩ | ⟨T, base, e, hfailed, hv⟩ | ⟨T, hlanded, hv⟩
    · rw [hnone, hv]
      exact List.append_nil _
    · rw [hfailed, hv]
      exact List.append_nil _
    · rw [hlanded, hv]
      by_cases hN : N = T
      · subst hN
        rw [if_pos rfl, List.range'_1_concat]
        simp [Event.version?, Nat.add_comm]
      · rw [if_neg hN]
        simp [Event.version?, Ne.symm hN]
  · intro table base e hmem
    rw [journal_eq hf, List.mem_append] at hmem
    rcases hmem with hold | hnew
    · exact hw.reread table base e hold
    · have hsent : Event.refreshFailed table base e ∈ w.sentEvents a := by
        rw [← hcommits]
        exact List.mem_filter.2 ⟨hnew, rfl⟩
      rcases hcases with ⟨hnone, _⟩ | ⟨_, _, _, hfailed, _⟩ | ⟨_, hlanded, _⟩
      · simp [hnone] at hsent
      · simp [hfailed] at hsent
      · simp [hlanded] at hsent

theorem audited_after {w : World} (hw : w.Audited) {acts : List Action} (h : w.Legal acts)
    (hcalls : ∀ a ∈ acts, a.isCall = true) : (w.after acts).Audited := by
  induction acts generalizing w with
  | nil => exact hw
  | cons a acts ih =>
    obtain ⟨hf, hl⟩ := h
    obtain ⟨hcall, hrest⟩ := List.forall_mem_cons.1 hcalls
    exact ih (hw.act hf hcall) hl hrest

/-- what an action does, and what it tells of it -/
structure Accounted (w : World) (a : Action) (events : List Event) : Prop where
  /-- events are written after those that are there -/
  appended : (w.act a).2.journal = w.journal ++ events
  /-- what is not sent is not told of -/
  unsent : w.sent? a = none → events.filter (·.source = .commit) = []
  /-- what is sent is answered, and what is told of is the answer -/
  sent : ∀ id base new, w.sent? a = some (id, base, new) →
    ∃ N, id.backing = .table 0 N ∧
      (w.act a).1 = (id.backing.operations.commit base new w.store).1 ∧
      (∀ e, (w.act a).1 = .error e →
        events.filter (·.source = .commit) = [.commitFailed N base.version e]) ∧
      ((w.act a).1 = .ok () →
        events.filter (·.source = .commit) = [.committed N (base.version + 1)])
  /-- a check that fails is told of with the number of entries -/
  checks : events.filter (·.source = .check) =
    ((w.checks a).filter fun i => !i.isEmpty).map fun i => .validationFailed i.errors.length
  /-- and it gives the answer, which is the report of these entries -/
  reports : ∀ i ∈ w.checks a, ∀ e, i.check = .error e → (w.act a).1 = .error e ∧
    e = ⟨.validationFailed, Issues.listing (i.errors.map (·.message))⟩

theorem Audited.accounted {w : World} (hw : w.Audited) {a : Action} (hf : a.Fits w) :
    w.Accounted a ((w.act a).2.eventsSince w) where
  appended := journal_eq hf
  unsent := fun hs => (commitEvents_act hf).trans (sentEvents_of_unsent hs)
  sent := by
    intro id base new hs
    obtain ⟨N, hN, hends⟩ := hw.one.sent_ends hw.coherent hf hs
    refine ⟨N, hN, status_of_sent hs, ?_, ?_⟩
    · intro e he
      rw [commitEvents_act hf]
      rw [he] at hends
      generalize w.sentEvents a = events at hends
      cases hends
      rfl
    · intro hok
      rw [commitEvents_act hf]
      rw [hok] at hends
      generalize w.sentEvents a = events at hends
      cases hends
      rfl
  checks := checkEvents_act hf
  reports := fun i hi e he => report_of_check hi he

/-- **The journal is a faithful audit trail.**  In a run on one catalog, the commits on each table
that have landed are told of with the versions from 1 up to the one that is stored.  That a commit
has landed and could not be read back is never told of.  Each action accounts for itself: a commit
that is sent is told of once, with the base and the error if it has failed, and a check that fails
is told of once, with the number of entries of the report that is answered.  Each transaction that
is committed, whatever its members do, ends with the one event of its end, which agrees with its
answer. -/
theorem journal_is_audit_trail {config : Catalog.Config} {acts : List Action}
    (h : empty.Legal (.addCatalog config :: acts)) (hcalls : ∀ a ∈ acts, a.isCall = true) :
    let w := empty.after (.addCatalog config :: acts)
    (∀ N, w.journal.filterMap (Event.version? N) =
      List.range' 1 (((w.stored? 0 N).map (·.version)).getD 0)) ∧
    (∀ table base e, .refreshFailed table base e ∉ w.journal) ∧
    (∀ q a, acts[q]? = some a →
      let v := empty.after (.addCatalog config :: acts.take q)
      v.Accounted a ((v.act a).2.eventsSince v)) ∧
    ∀ t : Transaction, ∃ own last,
      (w.commitTransaction t).2.journal = w.journal ++ own ++ [last] ∧
      (∀ e ∈ own, e.source ≠ .transaction) ∧
      (((w.commitTransaction t).1 = .ok () ∧
          last = .transactionCommitted (w.handle t.handle).ident t.members.length) ∨
        ∃ k e text, (w.commitTransaction t).1 = .error e ∧
          last = .transactionStopped (w.handle t.handle).ident k t.members.length ∧
          e.message = "update " ++ toString k ++ " of " ++ toString t.members.length ++ ": " ++
            text) := by
  intro w
  have hw : w.Audited := audited_after (audited_addCatalog config) h.2 hcalls
  refine ⟨hw.versions, hw.reread, ?_, w.journal_commitTransaction⟩
  intro q a ha v
  obtain ⟨hl, hf⟩ := h.2.fits ha
  have hv : v.Audited := audited_after (audited_addCatalog config) hl
    fun b hb => hcalls b (List.mem_of_mem_take hb)
  exact hv.accounted hf

/-- two commits land, a late one in between is refused, and a transaction runs into the fault -/
theorem journal_is_audit_trail_race :
    let w := empty.after race
    let late := empty.after (race.take 4)
    let a : Action := .commit ⟨orders 1, .location, moveTo "a://right"⟩
    w.journal.filterMap (Event.version? "orders") = [1, 2] ∧
      late.Accounted a ((late.act a).2.eventsSince late) ∧
      ((late.act a).2.eventsSince late).filter (·.source = .commit) =
        [.commitFailed "orders" 0 (Catalog.CommitError.stale "orders" 0 1).error] ∧
      ∃ own, (w.commitTransaction Transaction.interrupted).2.journal =
        w.journal ++ own ++ [.transactionStopped "orders" 1 3] := by
  intro w late a
  have h : empty.Legal (.addCatalog default :: race.tail) := legal_race
  have hcalls : ∀ a ∈ race.tail, a.isCall = true := by decide +kernel
  obtain ⟨hversions, _, hactions, hends⟩ := journal_is_audit_trail h hcalls
  have hlate := hactions 3 a rfl
  refine ⟨(hversions "orders").trans (by decide +kernel), hlate, ?_, ?_⟩
  · obtain ⟨N, hN, _, hfailed, _⟩ := hlate.sent _ _ _ rfl
    obtain rfl : "orders" = N := (Backing.table.inj hN).2
    exact hfailed _ (by decide +kernel)
  · obtain ⟨own, last, hjournal, _, hend⟩ := hends Transaction.interrupted
    have hlast : (w.commitTransaction Transaction.interrupted).2.journal.getLast? =
        some (.transactionStopped "orders" 1 3) := by decide +kernel
    have hjournal' : (w.commitTransaction Transaction.interrupted).2.journal =
        w.journal ++ own ++ [last] := hjournal
    rw [hjournal', List.getLast?_concat] at hlast
    obtain rfl : last = _ := Option.some.inj hlast
    exact ⟨own, hjournal'⟩

end World

end StagedTable
