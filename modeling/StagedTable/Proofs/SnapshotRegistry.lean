import StagedTable.Proofs.History
import StagedTable.Proofs.Parts
import StagedTable.Proofs.Staging
import StagedTable.Text.Decimal

/-!
# The registry of snapshots

Snapshots are registered in the properties of a table, between properties of any other meaning.
The keys of different names are different, whatever dots the names have, and none of them is the key
of the current snapshot.  So as long as no update of properties stages one of these keys, they can be
read as a registry of their own.

* `Change.registration?`, `registrations`   the snapshots that landed changes register, in order;
* `Change.Spares`                           an update of properties keeps off the registry's keys;
* `Snapshot.Registry`                       properties that hold the last snapshot of each name;
* `World.snapshot_registry_consistent`      they do so in every run.
-/

namespace StagedTable

namespace Change

/-- the snapshot that a change registers -/
def registration? : Change → Option Snapshot
  | .update .snapshot c => (SnapshotChange.result c).toOption
  | _ => none

/-- no key of the registry is set or removed as a plain property -/
def Spares (registered : List Snapshot) : Change → Prop
  | .update .properties c =>
    .property Snapshot.currentKey ∉ Kind.writes .properties c ∧
      ∀ s ∈ registered, .property (Snapshot.idKey s.name) ∉ Kind.writes .properties c
  | _ => True

end Change

/-- the snapshots that are registered by changes in turn -/
def registrations (cs : List Change) : List Snapshot := cs.filterMap Change.registration?

theorem registrations_snoc (cs : List Change) (c : Change) :
    registrations (cs ++ [c]) = registrations cs ++ c.registration?.toList := by
  rw [registrations, List.filterMap_append, List.filterMap_cons, List.filterMap_nil]
  cases c.registration? <;> rfl

/-- the last snapshot that was registered under the name -/
def lastNamed? (registered : List Snapshot) (name : String) : Option Snapshot :=
  (registered.filter (·.name = name)).getLast?

theorem lastNamed?_snoc (registered : List Snapshot) (s : Snapshot) (name : String) :
    lastNamed? (registered ++ [s]) name =
      if s.name = name then some s else lastNamed? registered name := by
  by_cases h : s.name = name
  · simp [lastNamed?, List.filter_append, h]
  · simp [lastNamed?, List.filter_append, h]

theorem mem_of_lastNamed? {registered : List Snapshot} {name : String} {s : Snapshot}
    (h : lastNamed? registered name = some s) : s ∈ registered ∧ s.name = name := by
  have hmem := List.mem_filter.1 (List.mem_of_getLast? h)
  exact ⟨hmem.1, of_decide_eq_true hmem.2⟩

theorem exists_lastNamed? {registered : List Snapshot} {s : Snapshot} (h : s ∈ registered) :
    ∃ last, lastNamed? registered s.name = some last := by
  have hne : registered.filter (·.name = s.name) ≠ [] :=
    List.ne_nil_of_mem (List.mem_filter.2 ⟨h, decide_eq_true rfl⟩)
  exact ⟨_, List.getLast?_eq_some_getLast hne⟩

namespace Snapshot

/-- the properties are what the registrations ask for -/
structure Registry (properties : Dictionary String) (registered : List Snapshot) : Prop where
  current : ∀ s, registered.getLast? = some s → properties.get? currentKey = some s.name
  ids : ∀ name s, lastNamed? registered name = some s →
    properties.get? (idKey name) = some s.idText

variable {properties properties' : Dictionary String} {registered : List Snapshot}

theorem Registry.nil (properties : Dictionary String) : Registry properties [] where
  current := by
    intro s hs
    cases hs
  ids := by
    intro name s hs
    cases hs

/-- properties that agree in the keys of the registry -/
theorem Registry.of_same (h : Registry properties registered)
    (hcurrent : properties'.get? currentKey = properties.get? currentKey)
    (hids : ∀ s ∈ registered, properties'.get? (idKey s.name) = properties.get? (idKey s.name)) :
    Registry properties' registered where
  current := fun s hs => hcurrent.trans (h.current s hs)
  ids := by
    intro name s hs
    obtain ⟨hmem, rfl⟩ := mem_of_lastNamed? hs
    exact (hids s hmem).trans (h.ids s.name s hs)

theorem get?_register_of_ne {s : Snapshot} {name : String} (h : name ≠ s.name)
    (properties : Dictionary String) :
    (s.register properties).get? (idKey name) = properties.get? (idKey name) := by
  rw [get?_register, if_neg (idKey_ne_currentKey name),
    if_neg fun hkey => h (idKey_injective hkey)]

theorem Registry.register (h : Registry properties registered) (s : Snapshot) :
    Registry (s.register properties) (registered ++ [s]) where
  current := by
    intro last hlast
    rw [List.getLast?_concat] at hlast
    obtain rfl : s = last := Option.some.inj hlast
    rw [get?_register, if_pos rfl]
  ids := by
    intro name last hlast
    rw [lastNamed?_snoc] at hlast
    by_cases hname : s.name = name
    · rw [if_pos hname] at hlast
      obtain rfl : s = last := Option.some.inj hlast
      rw [get?_register, if_neg (idKey_ne_currentKey name),
        if_pos (congrArg idKey hname.symm)]
    · rw [if_neg hname] at hlast
      rw [get?_register_of_ne (Ne.symm hname)]
      exact h.ids name last hlast

end Snapshot

namespace Change

theorem registration?_snapshot {c : SnapshotChange} {s : Snapshot} :
    (update .snapshot c).registration? = some s ↔ c.result = .ok s := by
  rw [registration?]
  cases SnapshotChange.result c with
  | error why => simp [Except.toOption]
  | ok out => simp [Except.toOption]

/-- a staged change that keeps off the registry's keys registers its snapshot, if it has one, and
leaves all other entries alone -/
theorem registry_of_on {c : Change} (hs : c.Staged) {registered : List Snapshot}
    (hspares : c.Spares registered) {cur m : Metadata}
    (hcur : Snapshot.Registry cur.properties registered) (h : c.on cur = some m) :
    Snapshot.Registry m.properties (registered ++ c.registration?.toList) := by
  cases c with
  | replace new => exact hs.elim
  | update k changes =>
    obtain ⟨out, happly, rfl⟩ := on_update_eq_some h
    cases k with
    | properties =>
      have hsame : ∀ key, .property key ∉ Kind.writes .properties changes →
          Dictionary.get? out key = cur.properties.get? key :=
        fun key hkey => Kind.same_of_not_mem_writes happly hkey
      have hkept := hcur.of_same (hsame _ hspares.1) fun s hmem => hsame _ (hspares.2 s hmem)
      exact (List.append_nil registered).symm ▸ hkept
    | location => exact (List.append_nil registered).symm ▸ hcur
    | schema => exact (List.append_nil registered).symm ▸ hcur
    | snapshot =>
      rw [registration?_snapshot.2 happly]
      exact hcur.register out

/-- a registered id is not negative -/
theorem Staged.id_nonneg {c : Change} (hs : c.Staged) {s : Snapshot}
    (h : c.registration? = some s) : 0 ≤ s.id.toInt := by
  cases c with
  | replace new => exact hs.elim
  | update k changes =>
    cases k with
    | snapshot =>
      have hid := SnapshotChange.id_nonneg hs
      rw [(SnapshotChange.result_eq_ok.1 (registration?_snapshot.1 h)).2] at hid
      exact hid
    | _ => cases h

end Change

namespace World

theorem registry_of_run {acts : List Action} (h : empty.Legal acts) {i : Nat} {N : String}
    (hstaged : ∀ c ∈ empty.landings i N acts, c.Staged)
    (hspares : ∀ p (c : Change), (empty.landings i N acts)[p]? = some c →
      c.Spares (registrations ((empty.landings i N acts).take p)))
    {first : Metadata} (hfirst : empty.births i N acts = [first]) :
    ∃ m, (empty.after acts).stored? i N = some m ∧
      Snapshot.Registry m.properties (registrations (empty.landings i N acts)) := by
  refine stored_induction h hfirst
    (P := fun cs m => Snapshot.Registry m.properties (registrations cs)) (.nil _) ?_
  intro cs c hp cur m hcur hon
  have hc : c ∈ empty.landings i N acts :=
    hp.subset (List.mem_append_right cs (List.mem_singleton_self c))
  have hspare : c.Spares (registrations cs) := by
    obtain ⟨more, hlandings⟩ := hp
    have hget := hspares cs.length c
    rw [← hlandings, List.append_assoc, List.take_left' rfl] at hget
    exact hget (by simp)
  rw [registrations_snoc]
  exact Change.registry_of_on (hstaged c hc) hspare hcur hon

/-- **The registry of snapshots is consistent.**  Let a table be changed by staged updates only, of
which none stages a property of the registry, as it is by then.  Once a registration has landed, the
current snapshot is the one that was registered last.  For every name that was ever registered, the
id under its key is that of the last registration of the name, in decimal, and is read back as that
id, which is not negative.  And a registration never changes what stands under the key of another
name. -/
theorem snapshot_registry_consistent {acts : List Action} (h : empty.Legal acts) {i : Nat}
    {N : String} (hstaged : ∀ c ∈ empty.landings i N acts, c.Staged)
    (hspares : ∀ p (c : Change), (empty.landings i N acts)[p]? = some c →
      c.Spares (registrations ((empty.landings i N acts).take p)))
    (hsome : registrations (empty.landings i N acts) ≠ []) :
    let registered := registrations (empty.landings i N acts)
    ∃ m, (empty.after acts).stored? i N = some m ∧
      (∃ last, registered.getLast? = some last ∧
        m.property Snapshot.currentKey = some last.name) ∧
      (∀ s ∈ registered, ∃ last, lastNamed? registered s.name = some last ∧
        m.property (Snapshot.idKey s.name) = some (toString last.id.toInt) ∧
        Text.int64? (toString last.id.toInt) = some last.id ∧ 0 ≤ last.id.toInt) ∧
      ∀ (s : Snapshot) (name : String) (properties : Dictionary String), name ≠ s.name →
        (s.register properties).get? (Snapshot.idKey name) =
          properties.get? (Snapshot.idKey name) := by
  intro registered
  have hstored : (empty.after acts).stored? i N ≠ none := by
    intro hnone
    exact hsome (congrArg registrations (past_of_unstored h hnone).2)
  obtain ⟨cur, hcur⟩ := Option.ne_none_iff_exists'.1 hstored
  obtain ⟨first, hfirst⟩ := births_of_stored h hcur
  obtain ⟨m, hm, hregistry⟩ := registry_of_run h hstaged hspares hfirst
  refine ⟨m, hm, ?_, fun s hs => ?_, fun s name properties hname =>
    Snapshot.get?_register_of_ne hname properties⟩
  · have hlast := List.getLast?_eq_some_getLast hsome
    exact ⟨_, hlast, hregistry.current _ hlast⟩
  · obtain ⟨last, hlast⟩ := exists_lastNamed? hs
    obtain ⟨c, hc, hregistration⟩ := List.mem_filterMap.1 (mem_of_lastNamed? hlast).1
    exact ⟨last, hlast, hregistry.ids s.name last hlast, Text.int64?_toString last.id,
      (hstaged c hc).id_nonneg hregistration⟩

def registering (name : String) (id : Int64) : Update .snapshot :=
  (Update.new .snapshot).edits [.call (.name name), .call (.id id)]

/-- One name is registered twice, and another one looks like the key of its id.  A registration in
between is refused. -/
def milestones : List Action :=
  openOrders ++ [.commit ⟨orders 0, .snapshot, registering "first" 1⟩,
    .commit ⟨orders 0, .snapshot, registering "first.id" 2⟩, .plant 0 .reject,
    .commit ⟨orders 0, .snapshot, registering "second" 3⟩, .load 0 "orders",
    .commit ⟨orders 1, .properties, (Update.new .properties).call (.set "owner" "a")⟩,
    .commit ⟨orders 1, .snapshot, registering "first" 4⟩]

theorem snapshot_registry_consistent_milestones : ∃ m,
    (empty.after milestones).stored? 0 "orders" = some m ∧
      m.property "current-snapshot" = some "first" ∧
      m.property "snapshot.first.id" = some "4" ∧ m.property "snapshot.first.id.id" = some "2" := by
  have h : empty.Legal milestones := by decide +kernel
  have hlandings : empty.landings 0 "orders" milestones =
    [.update .snapshot (registering "first" 1).changes,
      .update .snapshot (registering "first.id" 2).changes,
      .update .properties ((Update.new .properties).call (.set "owner" "a")).changes,
      .update .snapshot (registering "first" 4).changes] := rfl
  have hstaged : ∀ c ∈ empty.landings 0 "orders" milestones, c.Staged := by
    rw [hlandings]
    simp only [List.forall_mem_cons, List.not_mem_nil, false_imp_iff, implies_true, and_true]
    exact ⟨⟨_, rfl⟩, ⟨_, rfl⟩, ⟨[.call (.set "owner" "a")], rfl⟩, ⟨_, rfl⟩⟩
  have hspares : ∀ p (c : Change), (empty.landings 0 "orders" milestones)[p]? = some c →
      c.Spares (registrations ((empty.landings 0 "orders" milestones).take p)) := by
    rw [hlandings]
    intro p c hp
    rcases p with _ | _ | _ | _ | p
    · cases hp
      trivial
    · cases hp
      trivial
    · cases hp
      show _ ∧ _
      decide +kernel
    · cases hp
      trivial
    · cases hp
  have hregistered : registrations (empty.landings 0 "orders" milestones) =
    [⟨"first", 1⟩, ⟨"first.id", 2⟩, ⟨"first", 4⟩] := by
    rw [hlandings]
    decide +kernel
  have hsome : registrations (empty.landings 0 "orders" milestones) ≠ [] := by
    rw [hregistered]
    exact List.cons_ne_nil _ _
  obtain ⟨m, hm, ⟨last, hlast, hcurrent⟩, hids, _⟩ :=
    snapshot_registry_consistent h hstaged hspares hsome
  rw [hregistered] at hlast hids
  obtain rfl : ⟨"first", 4⟩ = last := Option.some.inj hlast
  obtain ⟨once, honce, hfirst, _⟩ := hids ⟨"first", 1⟩ (by decide +kernel)
  obtain ⟨other, hother, hdotted, _⟩ := hids ⟨"first.id", 2⟩ (by decide +kernel)
  have honce' : lastNamed? [⟨"first", 1⟩, ⟨"first.id", 2⟩, ⟨"first", 4⟩] "first" =
    some ⟨"first", 4⟩ := by decide +kernel
  have hother' : lastNamed? [⟨"first", 1⟩, ⟨"first.id", 2⟩, ⟨"first", 4⟩] "first.id" =
    some ⟨"first.id", 2⟩ := by decide +kernel
  obtain rfl : ⟨"first", 4⟩ = once := Option.some.inj (honce'.symm.trans honce)
  obtain rfl : ⟨"first.id", 2⟩ = other := Option.some.inj (hother'.symm.trans hother)
  exact ⟨m, hm, hcurrent, hfirst, hdotted⟩

end World

end StagedTable
