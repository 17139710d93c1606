import StagedTable.Proofs.History
import StagedTable.Proofs.Parts
import StagedTable.Proofs.Staging

/-!
# The reserved key

A table may start out with the reserved property, as one of the default properties of its catalog.
No update can set it, and no snapshot's key is the reserved one.  But an update of properties can
remove it, and then it is gone for good.

* `Kind.Staged.removes_of_mem_writes`  staged changes write the reserved property only by removing it;
* `World.reserved_property_kept`       it is as it was at the table's creation, unless it was removed;
* `World.reserved_property_lost`       a run in which it is lost.
-/

namespace StagedTable

/-- the change takes the property away -/
def Change.removes (key : String) : Change → Bool
  | .update .properties c => (PropertyChanges.removals c).contains key
  | _ => false

theorem Snapshot.idKey_ne_reservedKey (name : String) : idKey name ≠ reservedKey :=
  idKey_ne (by decide) name

theorem Kind.Staged.removes_of_mem_writes {k : Kind} {changes : k.Changes} (h : k.Staged changes)
    (hw : .property reservedKey ∈ k.writes changes) :
    (Change.update k changes).removes reservedKey = true := by
  cases k with
  | properties =>
    rcases PropertyChanges.mem_writes_iff.1 hw with hset | hremoved
    · have hnone := PropertyChanges.reserved_not_set h
      rw [Dictionary.mem_keys_iff, hnone] at hset
      cases hset
    · exact Dictionary.mem_keys_iff.1 hremoved
  | location => simp [writes] at hw
  | schema => simp [writes] at hw
  | snapshot =>
    simp only [writes, List.mem_flatMap, List.mem_cons, List.not_mem_nil, or_false,
      Part.property.injEq] at hw
    obtain ⟨name, _, hid | hcurrent⟩ := hw
    · exact absurd hid.symm (Snapshot.idKey_ne_reservedKey name)
    · exact absurd hcurrent (by decide)

/-- a staged change leaves the reserved property alone or takes it away -/
theorem Change.Staged.reserved_of_on {c : Change} (hs : c.Staged) {cur m : Metadata}
    (h : c.on cur = some m) :
    m.property reservedKey =
      if c.removes reservedKey then none else cur.property reservedKey := by
  cases c with
  | replace new => exact hs.elim
  | update k changes =>
    obtain ⟨out, happly, rfl⟩ := on_update_eq_some h
    by_cases hr : (update k changes).removes reservedKey = true
    · rw [if_pos hr]
      cases k with
      | properties =>
        show Dictionary.get? out reservedKey = none
        rw [PropertyChanges.get?_of_applyTo happly, PropertyChanges.reserved_not_set hs,
          Option.none_or, if_pos (Dictionary.mem_keys_iff.2 hr)]
      | _ => cases hr
    · rw [if_neg hr]
      exact Kind.same_of_not_mem_writes happly fun hw => hr (hs.removes_of_mem_writes hw)

namespace World

/-- **The reserved property stays as it was**, unless an update removes it.  Let a table be changed
by staged updates only.  What is stored then has the reserved property just as the created metadata
had it, or lacks it if one of the updates that have landed removes it. -/
theorem reserved_property_kept {acts : List Action} (h : empty.Legal acts) {i : Nat} {N : String}
    {first : Metadata} (hb : empty.births i N acts = [first])
    (hstaged : ∀ c ∈ empty.landings i N acts, c.Staged) :
    ∃ m, (empty.after acts).stored? i N = some m ∧
      m.property reservedKey =
        if (empty.landings i N acts).any (·.removes reservedKey) then none
        else first.property reservedKey := by
  refine stored_induction h hb (P := fun cs m => m.property reservedKey =
    if cs.any (·.removes reservedKey) then none else first.property reservedKey) rfl ?_
  intro cs c hp cur m hcur hon
  have hc : c ∈ empty.landings i N acts :=
    hp.subset (List.mem_append_right cs (List.mem_singleton_self c))
  rw [(hstaged c hc).reserved_of_on hon, hcur, List.any_append]
  cases hr : c.removes reservedKey <;> cases hrs : cs.any (·.removes reservedKey) <;> simp [hr]

/-- a table that starts out with the reserved property -/
def openVersioned : List Action :=
  [.addCatalog (.ofSettings [.defaultProperty reservedKey "7"]), .create 0 "orders" .empty]

/-- an attempt to set the reserved property goes wrong, and other updates land -/
def busy : List Action :=
  let changed := (Update.new .properties).call (.set "owner" "a")
  openVersioned ++
    [.commit ⟨orders 0, .properties, (Update.new .properties).call (.set reservedKey "8")⟩,
      .commit ⟨orders 0, .properties, changed⟩,
      .commit ⟨orders 0, .snapshot, (Update.new .snapshot).call (.name reservedKey)⟩]

theorem reserved_property_kept_busy : ∃ m, (empty.after busy).stored? 0 "orders" = some m ∧
    m.version = 2 ∧ m.property reservedKey = some "7" := by
  have h : empty.Legal busy := by decide +kernel
  have hb : empty.births 0 "orders" busy = [_] := rfl
  have hlandings : empty.landings 0 "orders" busy =
    [.update .properties ((Update.new .properties).call (.set "owner" "a")).changes,
      .update .snapshot ((Update.new .snapshot).call (.name reservedKey)).changes] := rfl
  have hstaged : ∀ c ∈ empty.landings 0 "orders" busy, c.Staged := by
    rw [hlandings, List.forall_mem_cons, List.forall_mem_singleton]
    exact ⟨⟨[.call (.set "owner" "a")], rfl⟩, ⟨[.call (.name reservedKey)], rfl⟩⟩
  obtain ⟨m, hm, hkept⟩ := reserved_property_kept h hb hstaged
  have hversion : ((empty.after busy).stored? 0 "orders").map (·.version) = some 2 := by
    decide +kernel
  rw [hm] at hversion
  refine ⟨m, hm, Option.some.inj hversion, hkept.trans ?_⟩
  rw [hlandings]
  decide +kernel

/-- **The reserved property can be removed**, although it cannot be set. -/
theorem reserved_property_lost :
    let u := (Update.new .properties).call (.remove reservedKey)
    let acts := openVersioned ++ [.commit ⟨orders 0, .properties, u⟩]
    empty.Legal acts ∧ (∀ c ∈ empty.landings 0 "orders" acts, c.Staged) ∧
      ∃ first m, empty.births 0 "orders" acts = [first] ∧
        (empty.after acts).stored? 0 "orders" = some m ∧
        first.property reservedKey = some "7" ∧ m.property reservedKey = none := by
  intro u acts
  have hlandings : empty.landings 0 "orders" acts = [.update .properties u.changes] := rfl
  refine ⟨by decide +kernel, ?_, _, _, rfl, rfl, by decide +kernel, by decide +kernel⟩
  rw [hlandings, List.forall_mem_singleton]
  exact ⟨[.call (.remove reservedKey)], rfl⟩

end World

end StagedTable
