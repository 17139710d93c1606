import StagedTable.Proofs.FirstFailure
import StagedTable.Proofs.SchemaReport
import StagedTable.Proofs.TableCommits

/-!
# What actions write into the journal

An action adds events at the end of the journal, and they come from three places
(`World.journal_act`).

* `World.checks`      the records of issues that the action checks: a check that fails is one event;
* `World.sentEvents`  the commit that the action sends to a mechanism;
* `World.ownEvents`   the creation of a table, and the end of a transaction.

`Event.source` tells them apart again.  A transaction is the commits of its members, and its end is
the last event of it and the only one of its sort (`World.journal_commitTransaction`).
-/

namespace StagedTable

namespace Event

/-- what writes events -/
inductive Source where
  | creation
  | check
  | commit
  | transaction
  deriving DecidableEq

def source : Event → Source
  | createdTable _ => .creation
  | validationFailed _ => .check
  | committed .. | commitFailed .. | refreshFailed .. => .commit
  | transactionStopped .. | transactionCommitted .. => .transaction

section
variable {es : List Event} {x : Source}

theorem filter_source_self (h : ∀ e ∈ es, e.source = x) : es.filter (·.source = x) = es :=
  List.filter_eq_self.2 fun e he => decide_eq_true (h e he)

theorem filter_source_nil (h : ∀ e ∈ es, e.source ≠ x) : es.filter (·.source = x) = [] :=
  List.filter_eq_nil_iff.2 fun e he => mt of_decide_eq_true (h e he)

end

end Event

/-! ## checks -/

theorem Issues.events_of_nil {i : Issues} (h : i.errors = []) : i.events = [] := by
  simp [events, isEmpty, h]

theorem Issues.events_of_ne_nil {i : Issues} (h : i.errors ≠ []) :
    i.events = [.validationFailed i.count] := by
  simp [events, isEmpty, h]

theorem Issues.flatMap_events (is : List Issues) :
    is.flatMap events = (is.filter fun i => !i.isEmpty).map fun i => .validationFailed i.count := by
  induction is with
  | nil => rfl
  | cons i is ih =>
    rw [List.flatMap_cons, ih]
    by_cases h : i.errors = []
    · rw [events_of_nil h, List.filter_cons_of_neg (by simp [isEmpty, h]), List.nil_append]
    · rw [events_of_ne_nil h, List.filter_cons_of_pos (by simp [isEmpty, h]), List.map_cons,
        List.singleton_append]

theorem Issues.source_of_mem_flatMap_events {is : List Issues} {e : Event}
    (he : e ∈ is.flatMap events) : e.source = .check := by
  rw [flatMap_events] at he
  obtain ⟨i, _, rfl⟩ := List.mem_map.1 he
  rfl

/-- the records that applying staged changes to a base checks; of columns that is all that does not
fit -/
def Kind.checks : (k : Kind) → k.Changes → Metadata → List Issues
  | .properties, _, _ => []
  | .location, _, _ => []
  | .schema, c, base => [Invalidity.issuesOf (SchemaChanges.problems c base)]
  | .snapshot, _, _ => []

/-- a failure is due to a check and is told as that, or nothing is told of it -/
structure Invalidity.Tells (why : Invalidity) (checks : List Issues) : Prop where
  events : why.events = checks.flatMap Issues.events
  report : ∀ i ∈ checks, i.errors ≠ [] → why.error = i.report

theorem Invalidity.Tells.silent {why : Invalidity} (h : why.events = []) : why.Tells [] :=
  ⟨h, fun _ hi => absurd hi List.not_mem_nil⟩

theorem Invalidity.Tells.single {why : Invalidity} {i : Issues} (hevents : why.events = i.events)
    (herror : why.error = i.report) : why.Tells [i] := by
  refine ⟨by rw [List.flatMap_singleton, hevents], ?_⟩
  intro j hj _
  rw [List.mem_singleton.1 hj, herror]

namespace Kind

variable {k : Kind} {changes : k.Changes} {base : Metadata}

theorem checks_of_ok {out : k.Output} (h : k.applyTo changes base = .ok out) :
    ∀ i ∈ k.checks changes base, i.errors = [] := by
  cases k with
  | schema =>
    intro i hi
    obtain rfl : i = _ := List.mem_singleton.1 hi
    show (SchemaChanges.problems changes base).map SchemaProblem.error = []
    rw [(SchemaChanges.applyTo_eq_ok h).1, List.map_nil]
  | _ =>
    intro i hi
    cases hi

theorem tells_of_error {why : Invalidity} (h : k.applyTo changes base = .error why) :
    why.Tells (k.checks changes base) := by
  cases k with
  | schema =>
    obtain ⟨_, rfl⟩ := SchemaChanges.applyTo_eq_error_iff.1 h
    exact .single rfl rfl
  | properties =>
    have happly : PropertyChanges.applyTo changes base.properties = .error why := h
    unfold PropertyChanges.applyTo at happly
    split at happly
    · cases happly
      exact .silent rfl
    · cases happly
  | location =>
    have happly : LocationChange.result changes = .error why := h
    unfold LocationChange.result at happly
    split at happly
    · cases happly
    · cases happly
      exact .silent rfl
  | snapshot =>
    have happly : SnapshotChange.result changes = .error why := h
    unfold SnapshotChange.result at happly
    split at happly
    · cases happly
    · cases happly
      exact .silent rfl

end Kind

namespace Update

variable {k : Kind} {u : Update k} {base : Metadata}

/-- the records that are checked when an update is applied: its own, and if that one is empty, those
of its kind -/
def checks (u : Update k) (base : Metadata) : List Issues :=
  u.issues :: if u.issues.isEmpty then k.checks u.changes base else []

theorem checks_of_issues (h : u.issues.errors ≠ []) (base : Metadata) :
    u.checks base = [u.issues] := by
  simp [checks, Issues.isEmpty, h]

theorem checks_of_no_issues (h : u.issues.errors = []) (base : Metadata) :
    u.checks base = u.issues :: k.checks u.changes base := by
  simp [checks, Issues.isEmpty, h]

theorem checks_of_ok {out : k.Output} (h : u.apply base = .ok out) :
    ∀ i ∈ u.checks base, i.errors = [] := by
  by_cases hissues : u.issues.errors = []
  · rw [checks_of_no_issues hissues]
    rw [apply_of_no_issues hissues] at h
    exact List.forall_mem_cons.2 ⟨hissues, Kind.checks_of_ok h⟩
  · rw [apply_of_issues hissues] at h
    cases h

theorem silent_of_ok {out : k.Output} (h : u.apply base = .ok out) :
    (u.checks base).flatMap Issues.events = [] :=
  List.flatMap_eq_nil_iff.2 fun i hi => Issues.events_of_nil (checks_of_ok h i hi)

theorem tells_of_error {why : Invalidity} (h : u.apply base = .error why) :
    why.Tells (u.checks base) := by
  by_cases hissues : u.issues.errors = []
  · rw [apply_of_no_issues hissues] at h
    obtain ⟨hevents, hreport⟩ := Kind.tells_of_error h
    rw [checks_of_no_issues hissues]
    refine ⟨?_, List.forall_mem_cons.2 ⟨fun hne => absurd hissues hne, hreport⟩⟩
    rw [hevents, List.flatMap_cons, Issues.events_of_nil hissues, List.nil_append]
  · rw [apply_of_issues hissues] at h
    cases h
    rw [checks_of_issues hissues]
    exact .single rfl rfl

end Update

/-! ## commits -/

namespace Handle

variable {σ : Type} {ops : Operations σ} {base new : Metadata}

theorem events_refresh (ops : Operations σ) (h : Handle) (s : σ) :
    (h.refresh ops s).events = [] := by
  unfold refresh
  split <;> rfl

theorem source_of_mem_commitMetadata {h : Handle} {s : σ} {e : Event}
    (he : e ∈ (h.commitMetadata ops base new s).events) : e.source = .commit := by
  unfold commitMetadata at he
  split at he
  · rw [List.mem_singleton.1 he]
    rfl
  · split at he <;>
    · rw [List.mem_singleton.1 he]
      rfl

end Handle

/-! ## actions -/

namespace World

/-- the records of issues that an action checks, one after the other -/
def checks (w : World) : Action → List Issues
  | .check p => [p.update.issues]
  | .commit p | .preview p => p.update.checks (w.handle p.handle).cache
  | _ => []

/-- the events of the commit that an action sends, if it sends one -/
def sentEvents (w : World) (a : Action) : List Event :=
  match w.sent? a with
  | some (id, base, new) =>
    ((w.handle id).commitMetadata id.backing.operations base new w.store).events
  | none => []

/-- the event of the creation of a table, or of the end of a transaction -/
def ownEvents (w : World) : Action → List Event
  | .create i table schema =>
    if (w.act (.create i table schema)).1.isOk then [.createdTable table] else []
  | .close ident total none => [.transactionCommitted ident total]
  | .close ident total (some f) => [.transactionStopped ident f.position total]
  | _ => []

theorem sentEvents_of_sent {w : World} {a : Action} {id : HandleId} {base new : Metadata}
    (h : w.sent? a = some (id, base, new)) : w.sentEvents a =
      ((w.handle id).commitMetadata id.backing.operations base new w.store).events := by
  rw [sentEvents, h]

theorem sentEvents_of_unsent {w : World} {a : Action} (h : w.sent? a = none) :
    w.sentEvents a = [] := by
  rw [sentEvents, h]

theorem source_of_mem_sentEvents {w : World} {a : Action} {e : Event} (he : e ∈ w.sentEvents a) :
    e.source = .commit := by
  cases hs : w.sent? a with
  | none =>
    rw [sentEvents_of_unsent hs] at he
    cases he
  | some r =>
    rw [sentEvents_of_sent hs] at he
    exact Handle.source_of_mem_commitMetadata he

theorem source_of_mem_ownEvents {w : World} {a : Action} {e : Event} (he : e ∈ w.ownEvents a) :
    e.source = .creation ∨ e.source = .transaction := by
  unfold ownEvents at he
  split at he
  · split at he
    · rw [List.mem_singleton.1 he]
      exact .inl rfl
    · cases he
  · rw [List.mem_singleton.1 he]
    exact .inr rfl
  · rw [List.mem_singleton.1 he]
    exact .inr rfl
  · cases he

/-! ### one action -/

theorem journal_attach (w : World) (b : Backing) (ident : String) :
    (w.attach b ident).2.journal = w.journal := by
  unfold attach
  split <;> rfl

theorem journal_load (w : World) (i : Nat) (N : String) :
    (w.load i N).2.journal = w.journal := by
  unfold load
  split
  · exact w.journal_attach _ N
  · rfl

theorem journal_create {w : World} {i : Nat} (hi : i < w.store.catalogs.length) (N : String)
    (schema : Schema) : (w.act (.create i N schema)).2.journal =
      w.journal ++ w.ownEvents (.create i N schema) := by
  cases hc : (w.store.catalog i).create N schema with
  | error why =>
    have hact : w.act (.create i N schema) = (.error why.error, w) := by
      rw [act, create_of_error hc]
      rfl
    rw [ownEvents, hact]
    exact (List.append_nil _).symm
  | ok c =>
    have hborn : (w.born i N schema).stored? i N =
        some ((w.store.catalog i).firstMetadata N schema) := by
      rw [stored?_born hi, if_pos ⟨rfl, rfl⟩]
    have hact : w.act (.create i N schema) =
        status ((w.born i N schema).attach (.table i N) N) := by
      rw [act, create_of_ok hi hc]
    have hok : (w.act (.create i N schema)).1.isOk = true := by
      rw [hact, attach_table hborn]
      rfl
    rw [ownEvents, if_pos hok, hact]
    exact journal_attach _ _ N

theorem journal_commit (w : World) (p : Pending) : (w.act (.commit p)).2.journal =
    w.journal ++ ((w.checks (.commit p)).flatMap Issues.events ++ w.sentEvents (.commit p)) := by
  cases ha : p.apply w with
  | error why =>
    have htells : why.Tells (w.checks (.commit p)) := Update.tells_of_error ha
    rw [act_commit_of_invalid ha, sentEvents_of_unsent (sent?_commit_of_error ha),
      ← htells.events, List.append_nil]
    rfl
  | ok out =>
    have hsent := sent?_commit_of_ok ha
    have hquiet : (w.checks (.commit p)).flatMap Issues.events = [] := Update.silent_of_ok ha
    rw [act_of_sent hsent, sentEvents_of_sent hsent, hquiet, List.nil_append]
    rfl

theorem journal_preview (w : World) (p : Pending) : (w.act (.preview p)).2.journal =
    w.journal ++ (w.checks (.preview p)).flatMap Issues.events := by
  cases ha : p.apply w with
  | error why =>
    have htells : why.Tells (w.checks (.preview p)) := Update.tells_of_error ha
    rw [act, ha, ← htells.events]
    rfl
  | ok out =>
    have hquiet : (w.checks (.preview p)).flatMap Issues.events = [] := Update.silent_of_ok ha
    rw [act, ha, hquiet, List.append_nil]

/-- **What an action adds to the journal.** -/
theorem journal_act {w : World} {a : Action} (hf : a.Fits w) : (w.act a).2.journal =
    w.journal ++ ((w.checks a).flatMap Issues.events ++ w.sentEvents a ++ w.ownEvents a) := by
  -- most actions have events of one sort at most
  have hnone : w.journal = w.journal ++ ([] ++ [] ++ []) := (List.append_nil _).symm
  cases a with
  | addCatalog config => exact hnone
  | openScript ident script => exact (journal_attach (w.addScript script).2 _ ident).trans hnone
  | create i table schema => exact journal_create hf table schema
  | load i table => exact (w.journal_load i table).trans hnone
  | plant i f => exact hnone
  | refresh id =>
    show w.journal ++ ((w.handle id).refresh id.backing.operations w.store).events = _
    rw [Handle.events_refresh]
    rfl
  | commitMetadata id base new =>
    show _ = w.journal ++ ([] ++ _ ++ [])
    rw [List.append_nil, List.nil_append]
    rfl
  | commit p =>
    rw [journal_commit]
    show _ = w.journal ++ (_ ++ [])
    rw [List.append_nil]
  | check p =>
    show _ = w.journal ++ ([p.update.issues].flatMap Issues.events ++ [] ++ [])
    rw [List.flatMap_singleton, List.append_nil, List.append_nil]
    rfl
  | preview p =>
    rw [journal_preview]
    show _ = w.journal ++ (_ ++ [] ++ [])
    rw [List.append_nil, List.append_nil]
  | close ident total failure =>
    cases failure with
    | none => rfl
    | some f => rfl

theorem eventsSince_act {w : World} {a : Action} (hf : a.Fits w) : (w.act a).2.eventsSince w =
    (w.checks a).flatMap Issues.events ++ w.sentEvents a ++ w.ownEvents a := by
  rw [eventsSince, journal_act hf, List.drop_left]

section
variable {w : World} {a : Action} (hf : a.Fits w)
include hf

/-- an action tells of each check that fails, and of no other -/
theorem checkEvents_act : ((w.act a).2.eventsSince w).filter (·.source = .check) =
    ((w.checks a).filter fun i => !i.isEmpty).map fun i => .validationFailed i.count := by
  have hsent : ∀ e ∈ w.sentEvents a, e.source ≠ .check := by
    intro e he
    rw [source_of_mem_sentEvents he]
    decide
  have hown : ∀ e ∈ w.ownEvents a, e.source ≠ .check := by
    intro e he
    rcases source_of_mem_ownEvents he with h | h <;> simp [h]
  rw [eventsSince_act hf, List.filter_append, List.filter_append, Event.filter_source_nil hsent,
    Event.filter_source_nil hown, List.append_nil, List.append_nil, ← Issues.flatMap_events]
  exact Event.filter_source_self fun e he => Issues.source_of_mem_flatMap_events he

/-- an action tells of the commit that it sends, and of no other -/
theorem commitEvents_act :
    ((w.act a).2.eventsSince w).filter (·.source = .commit) = w.sentEvents a := by
  have hchecks : ∀ e ∈ (w.checks a).flatMap Issues.events, e.source ≠ .commit := by
    intro e he
    rw [Issues.source_of_mem_flatMap_events he]
    decide
  have hown : ∀ e ∈ w.ownEvents a, e.source ≠ .commit := by
    intro e he
    rcases source_of_mem_ownEvents he with h | h <;> simp [h]
  rw [eventsSince_act hf, List.filter_append, List.filter_append, Event.filter_source_nil hchecks,
    Event.filter_source_nil hown, List.append_nil, List.nil_append]
  exact Event.filter_source_self fun e he => source_of_mem_sentEvents he

end

/-! ### answers -/

/-- what is sent is answered by the mechanism -/
theorem status_of_sent {w : World} {a : Action} {id : HandleId} {base new : Metadata}
    (h : w.sent? a = some (id, base, new)) :
    (w.act a).1 = (id.backing.operations.commit base new w.store).1 := by
  rw [act_of_sent h]
  exact Handle.commitMetadata_status _ _ _ _ _

/-- a check that fails gives the answer, and that lists the entries of the record -/
theorem report_of_check {w : World} {a : Action} {i : Issues} (hi : i ∈ w.checks a) {e : Error}
    (he : i.check = .error e) : (w.act a).1 = .error e ∧
      e = ⟨.validationFailed, Issues.listing (i.errors.map (·.message))⟩ := by
  have hne : i.errors ≠ [] := by
    intro hnil
    rw [(Issues.check_eq_ok_iff i).2 hnil] at he
    cases he
  obtain rfl : i.report = e := Except.error.inj ((Issues.check_of_ne_nil hne).symm.trans he)
  refine ⟨?_, Issues.report_eq i⟩
  cases a with
  | check p =>
    obtain rfl : i = p.update.issues := List.mem_singleton.1 hi
    exact he
  | preview p =>
    cases ha : p.apply w with
    | ok out => exact absurd (Update.checks_of_ok ha i hi) hne
    | error why =>
      rw [act, ha, ← (Update.tells_of_error ha).report i hi hne]
  | commit p =>
    cases ha : p.apply w with
    | ok out => exact absurd (Update.checks_of_ok ha i hi) hne
    | error why =>
      rw [act_commit_of_invalid ha, ← (Update.tells_of_error ha).report i hi hne]
  | _ => cases hi

/-! ## transactions -/

/-- the journal has grown, but not by the end of a transaction -/
def Continues (w w' : World) : Prop :=
  ∃ own, w'.journal = w.journal ++ own ∧ ∀ e ∈ own, e.source ≠ .transaction

theorem Continues.refl (w : World) : w.Continues w :=
  ⟨[], (List.append_nil _).symm, fun _ he => absurd he List.not_mem_nil⟩

theorem Continues.trans {w w' w'' : World} (h : w.Continues w') (h' : w'.Continues w'') :
    w.Continues w'' := by
  obtain ⟨own, hown, hsource⟩ := h
  obtain ⟨own', hown', hsource'⟩ := h'
  refine ⟨own ++ own', by rw [hown', hown, List.append_assoc], ?_⟩
  exact List.forall_mem_append.2 ⟨hsource, hsource'⟩

theorem continues_commit (w : World) (p : Pending) : w.Continues (w.act (.commit p)).2 := by
  refine ⟨_, w.journal_commit p, List.forall_mem_append.2 ⟨?_, ?_⟩⟩
  · intro e he
    rw [Issues.source_of_mem_flatMap_events he]
    decide
  · intro e he
    rw [source_of_mem_sentEvents he]
    decide

theorem continues_member {w w' : World} {m : Transaction.Member} {st : Status}
    (h : m.commit w = (st, w')) : w.Continues w' := by
  cases m with
  | update p =>
    have hw : (w.act (.commit p)).2 = w' := congrArg Prod.snd h
    rw [← hw]
    exact w.continues_commit p
  | fixed status =>
    cases h
    exact .refl w

theorem continues_of_succeeds {w w' : World} {ms : List Transaction.Member}
    (h : Transaction.Succeeds Transaction.Member.commit w ms w') : w.Continues w' := by
  induction h with
  | nil w => exact .refl w
  | cons hm _ ih => exact (continues_member hm).trans ih

/-- **A transaction ends with the one event of its end**, and that agrees with its answer. -/
theorem journal_commitTransaction (w : World) (t : Transaction) : ∃ own last,
    (w.commitTransaction t).2.journal = w.journal ++ own ++ [last] ∧
    (∀ e ∈ own, e.source ≠ .transaction) ∧
    (((w.commitTransaction t).1 = .ok () ∧
        last = .transactionCommitted (w.handle t.handle).ident t.members.length) ∨
      ∃ k e text, (w.commitTransaction t).1 = .error e ∧
        last = .transactionStopped (w.handle t.handle).ident k t.members.length ∧
        e.message = "update " ++ toString k ++ " of " ++ toString t.members.length ++ ": " ++
          text) := by
  have hends := (Transaction.commitAll_boxed_eq_iff (fun w event => w.log [event])
    (w.handle t.handle).ident t.members (w.commitTransaction t)).1 rfl
  have hlength : t.members.length = (t.members.map Transaction.Boxed.content).length :=
    (List.length_map _).symm
  rw [hlength]
  generalize w.commitTransaction t = r at hends ⊢
  cases hends with
  | committed hs =>
    obtain ⟨own, hown, hsource⟩ := continues_of_succeeds hs
    exact ⟨own, _, congrArg (· ++ [_]) hown, hsource, .inl ⟨rfl, rfl⟩⟩
  | stopped _ hs hm =>
    obtain ⟨own, hown, hsource⟩ := (continues_of_succeeds hs).trans (continues_member hm)
    exact ⟨own, _, congrArg (· ++ [_]) hown, hsource, .inr ⟨_, _, _, rfl, rfl, rfl⟩⟩

end World

end StagedTable
