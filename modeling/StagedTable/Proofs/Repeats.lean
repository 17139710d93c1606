import StagedTable.Proofs.FirstMember
import StagedTable.Proofs.WellFormedSchemas

/-!
# Committing an update twice

A commit that has landed leaves the update as it was staged, and nothing keeps it from being
committed once more.  Its changes then meet their own result.

* `Kind.Done`            the changes apply, and change nothing.  Properties, locations and snapshots
                         are done once they have been installed (`Kind.done_of_applyTo`);
* `SchemaChanges.OneSided`  a name is to be added or to be deleted, and not both.  Such changes do
                         not apply to their own result (`SchemaChanges.fails_of_oneSided`);
* `World.commit_twice`   so the second commit counts the version up and does nothing else, or it
                         fails and does nothing at all.

Nothing is said of schema changes without a one-sided name.  They replace the columns that they
name, and a second commit can replace them again.
-/

namespace StagedTable

/-! ## changes that are done -/

theorem PropertyChanges.applyTo_again {c : PropertyChanges} {base out : Dictionary String}
    (h : c.applyTo base = .ok out) : c.applyTo out = .ok out := by
  obtain ⟨hnone, _⟩ := applyTo_eq_ok h
  have hagain : c.applyTo out =
      .ok ((out.eraseAll c.removals.keys).insertAll c.sets.entries) := by
    rw [applyTo, hnone]
  have hout : (out.eraseAll c.removals.keys).insertAll c.sets.entries = out := by
    ext key : 1
    rw [get?_of_applyTo hagain, get?_of_applyTo h]
    -- a key that is neither set nor removed is asked for in the base
    cases c.sets.get? key with
    | some value => rfl
    | none => split <;> rfl
  rw [hagain, hout]

theorem Snapshot.register_register (s : Snapshot) (properties : Dictionary String) :
    s.register (s.register properties) = s.register properties := by
  ext key : 1
  simp only [get?_register]
  split
  · rfl
  · split <;> rfl

namespace Kind

variable {k : Kind} {changes : k.Changes}

/-- the changes apply, and change nothing -/
def Done (k : Kind) (changes : k.Changes) (m : Metadata) : Prop :=
  ∃ out, k.applyTo changes m = .ok out ∧ k.install out m = m

/-- what has been installed once is done, and the version has no part in it -/
theorem done_of_applyTo (hk : k ≠ .schema) {base : Metadata} {out : k.Output}
    (h : k.applyTo changes base = .ok out) (b : Metadata) :
    k.Done changes ((k.install out base).succeeding b) := by
  cases k with
  | properties => exact ⟨out, PropertyChanges.applyTo_again h, rfl⟩
  | location => exact ⟨out, h, rfl⟩
  | schema => exact absurd rfl hk
  | snapshot =>
    have hregister := Snapshot.register_register out base.properties
    exact ⟨out, h, congrArg
      (fun properties => { base with properties, version := b.version + 1 }) hregister⟩

end Kind

/-! ## schema changes on their own result -/

namespace SchemaChanges

/-- a name is to be added and not to be deleted, or the other way around -/
def OneSided (c : SchemaChanges) : Prop :=
  ∃ name, (name ∈ c.additions.map (·.name) ∧ name ∉ c.deletions) ∨
    (name ∈ c.deletions ∧ name ∉ c.additions.map (·.name))

theorem mem_names_schema {c : SchemaChanges} {base : Metadata} {name : String} :
    name ∈ (c.schema base).columns.map (·.name) ↔
      (name ∈ base.schema.columns.map (·.name) ∧ name ∉ c.deletions) ∨
        name ∈ c.additions.map (·.name) := by
  rw [schema, List.map_append, names_number, List.mem_append, kept_eq]
  refine or_congr_left ?_
  simp only [List.mem_map, List.mem_filter, decide_eq_true_eq]
  constructor
  · rintro ⟨col, ⟨hcol, hdel⟩, rfl⟩
    exact ⟨⟨col, hcol, rfl⟩, hdel⟩
  · rintro ⟨⟨col, hcol, rfl⟩, hdel⟩
    exact ⟨col, ⟨hcol, hdel⟩, rfl⟩

/-- an added column is there already, and a deleted one is there no more -/
theorem fails_of_oneSided {c : SchemaChanges} (hc : c.OneSided) {base m : Metadata} {s : Schema}
    (h : c.applyTo base = .ok s) (hm : m.schema = s) : ∃ why, c.applyTo m = .error why := by
  obtain ⟨_, rfl⟩ := applyTo_eq_ok h
  have hnames := @mem_names_schema c base
  rw [← hm] at hnames
  rw [applyTo_fails_iff]
  obtain ⟨name, ⟨hadd, hdel⟩ | ⟨hdel, hadd⟩⟩ := hc
  · obtain ⟨col, hcol, hname⟩ := List.mem_map.1 (hnames.2 (.inr hadd))
    obtain ⟨n, hn, rfl⟩ := List.mem_map.1 hadd
    exact ⟨_, .nameTaken hn ⟨col, hcol, hname⟩ hdel⟩
  · refine ⟨_, .missingColumn hdel fun col hcol hname => ?_⟩
    rcases hnames.1 (List.mem_map.2 ⟨col, hcol, hname⟩) with ⟨_, hkept⟩ | hnew
    · exact hkept hdel
    · exact hadd hnew

end SchemaChanges

/-! ## two commits in a row -/

namespace Update

variable {k : Kind} {u : Update k} {m : Metadata}

theorem errors_of_apply {out : k.Output} (h : u.apply m = .ok out) : u.issues.errors = [] := by
  by_contra hissues
  rw [apply_of_issues hissues] at h
  cases h

theorem settled_of_invalid (u : Update k) (why : Invalidity) :
    u.settled (.error why.error) = { u with state := .invalid } := by
  rw [settled, CommitState.ofStatus_validationFailed why.kind_error]

/-- once done, an update goes on with the version, and does nothing else -/
theorem next_of_done (hissues : u.issues.errors = []) (h : k.Done u.changes m) :
    u.verdict m = .ok () ∧ u.next m = m.succeeding m := by
  obtain ⟨out, happly, hinstall⟩ := h
  have ha := (apply_of_no_issues hissues m).trans happly
  refine ⟨verdict_of_ok ha, ?_⟩
  rw [next_of_ok ha, hinstall]

end Update

namespace World

variable {w w' : World} {i n : Nat} {N : String} {hd : Handle} {k : Kind} {u u' : Update k}

section
variable (hco : w.Coherent) (ho : w.handle? ⟨.table i N, n⟩ = some hd)
  (h : w.commit ⟨.table i N, n⟩ u = (u', .ok (), w'))
include hco ho h

/-- what is left of a commit that has landed: the update as it was staged, and a fresh handle -/
theorem left_of_commit : ∃ out, u.apply hd.cache = .ok out ∧ u' = u.settled (.ok ()) ∧
    w'.Fresh i N n { hd with cache := (k.install out hd.cache).succeeding hd.cache } := by
  have hact : w.act (.commit ⟨⟨.table i N, n⟩, k, u⟩) = (.ok (), w') := congrArg Prod.snd h
  obtain ⟨out, ha, -, hfresh, -⟩ := landed_of_commit hco ho rfl hact
  have hstatus : (w.commit ⟨.table i N, n⟩ u).2.1 = .ok () := congrArg (·.2.1) h
  refine ⟨out, ha, ?_, hfresh⟩
  rw [← hstatus]
  exact (congrArg Prod.fst h).symm

/-- changes that are done after the first commit are made once more, to no effect -/
theorem commit_again (hk : k ≠ .schema) : ∃ m w'',
    w'.stored? i N = some m ∧ w'.commit ⟨.table i N, n⟩ u' = (u', .ok (), w'') ∧
      w''.stored? i N = some { m with version := m.version + 1 } ∧
      w''.handle? ⟨.table i N, n⟩ =
        some { hd with cache := { m with version := m.version + 1 } } ∧
      w'.Moves i N n w'' := by
  obtain ⟨out, ha, rfl, hfresh⟩ := left_of_commit hco ho h
  have hdone := k.done_of_applyTo hk (Update.applyTo_of_apply ha) hd.cache
  obtain ⟨hverdict, hnext⟩ :=
    Update.next_of_done (u := u.settled (.ok ())) (Update.errors_of_apply ha) hdone
  obtain ⟨w'', hcommit, hfresh', hmoves⟩ := commit_of_fresh hfresh (u.settled (.ok ()))
  rw [hverdict] at hcommit
  rw [hnext] at hfresh'
  exact ⟨_, w'', hfresh.current, hcommit, hfresh'.current, hfresh'.isOpen, hmoves⟩

end

/-- schema changes that have landed, with a one-sided name, do not apply to what is then cached -/
theorem commit_schema_again (hco : w.Coherent) (ho : w.handle? ⟨.table i N, n⟩ = some hd)
    {u u' : Update .schema} (hu : SchemaChanges.OneSided u.changes)
    (h : w.commit ⟨.table i N, n⟩ u = (u', .ok (), w')) {v : World}
    (hv : v.handle? ⟨.table i N, n⟩ = w'.handle? ⟨.table i N, n⟩) :
    ∃ e v', v.commit ⟨.table i N, n⟩ u' = ({ u' with state := .invalid }, .error e, v') ∧
      e.kind = .validationFailed ∧ v.Untouched v' := by
  obtain ⟨out, ha, rfl, hfresh⟩ := left_of_commit hco ho h
  obtain ⟨why, hwhy⟩ := SchemaChanges.fails_of_oneSided hu (Update.applyTo_of_apply ha)
    (m := (Kind.install .schema out hd.cache).succeeding hd.cache) rfl
  have hagain := (Update.apply_of_no_issues (u := u.settled (.ok ())) (Update.errors_of_apply ha)
    _).trans hwhy
  obtain ⟨v', hcommit, hsame⟩ := commit_of_error (hv.trans hfresh.isOpen) hagain
  rw [Update.settled_of_invalid] at hcommit
  exact ⟨_, v', hcommit, why.kind_error, hsame⟩

/-- **Committing an update twice is harmless.**  Let a commit on a table have landed.  If it was of
properties, of a location or of a snapshot, the same update lands again at once.  What is then
stored and cached is what the first commit has stored, one version on, and nothing else changes.  If
it was of schema changes with a name that is to be added or to be deleted, but not both, the same
update fails its checks on what the handle caches, whatever has been planted in between, and nothing
but the state of the update changes. -/
theorem commit_twice {acts : List Action} (h : empty.Legal acts)
    (ho : (empty.after acts).handle? ⟨.table i N, n⟩ = some hd) :
    let w := empty.after acts
    let id : HandleId := ⟨.table i N, n⟩
    (∀ (k : Kind) (u u' : Update k) (w' : World), k ≠ .schema → w.commit id u = (u', .ok (), w') →
      ∃ m w'', w'.stored? i N = some m ∧ w'.commit id u' = (u', .ok (), w'') ∧
        w''.stored? i N = some { m with version := m.version + 1 } ∧
        w''.handle? id = some { hd with cache := { m with version := m.version + 1 } } ∧
        w'.Moves i N n w'') ∧
    ∀ (u u' : Update .schema) (w' : World), SchemaChanges.OneSided u.changes →
      w.commit id u = (u', .ok (), w') → ∀ v : World, v.handle? id = w'.handle? id →
      ∃ e v', v.commit id u' = ({ u' with state := .invalid }, .error e, v') ∧
        e.kind = .validationFailed ∧ v.Untouched v' := by
  intro w id
  have hco := coherent_after h
  exact ⟨fun k u u' w' hk hu => commit_again hco ho hu hk,
    fun u u' w' hone hu v hv => commit_schema_again hco ho hone hu hv⟩

/-- a move is made twice; a column is added once, whatever is planted then -/
theorem commit_twice_orders :
    let w := empty.after openOrders
    let moved := w.commit (orders 0) (moveTo "a://left")
    let added := w.commit (orders 0) ((Update.new .schema).call (.add ⟨"total", .long, false⟩))
    (∃ (m : Metadata) (w'' : World), m.location = "a://left" ∧ m.version = 1 ∧
      moved.2.2.commit (orders 0) moved.1 = (moved.1, .ok (), w'') ∧
      w''.stored? 0 "orders" = some { m with version := 2 }) ∧
    ∃ e v', (added.2.2.plant 0 .loseResponse).commit (orders 0) added.1 =
        ({ added.1 with state := .invalid }, .error e, v') ∧
      (added.2.2.plant 0 .loseResponse).Untouched v' := by
  intro w moved added
  have hl : empty.Legal openOrders := by decide +kernel
  have ho : w.Open (orders 0) := by decide +kernel
  obtain ⟨hmove, hadd⟩ := commit_twice hl (handle?_of_open ho)
  refine ⟨?_, ?_⟩
  · obtain ⟨m, w'', hm, hcommit, hs, -⟩ :=
      hmove .location (moveTo "a://left") moved.1 moved.2.2 (by decide) (by rfl)
    have hstored : (moved.2.2.stored? 0 "orders").map (fun m => (m.location, m.version)) =
        some ("a://left", 1) := by decide +kernel
    rw [hm] at hstored
    obtain ⟨hlocation, hversion⟩ := Prod.mk.inj (Option.some.inj hstored)
    rw [hversion] at hs
    exact ⟨m, w'', hlocation, hversion, hcommit, hs⟩
  · have hone : SchemaChanges.OneSided
        ((Update.new .schema).call (.add ⟨"total", .long, false⟩)).changes :=
      ⟨"total", .inl ⟨by decide, by decide⟩⟩
    have hplant : ∀ v : World, (v.plant 0 .loseResponse).handle? (orders 0) =
        v.handle? (orders 0) := fun _ => rfl
    obtain ⟨e, v', hcommit, -, hsame⟩ := hadd _ added.1 added.2.2 hone (by rfl) _ (hplant _)
    exact ⟨e, v', hcommit, hsame⟩

end World

end StagedTable
