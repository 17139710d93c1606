import StagedTable.Proofs.ByteOrder
import StagedTable.Proofs.RejectedCalls
import StagedTable.Proofs.Staging

/-!
# What calls stage of properties

Whether a call that sets or removes a property is accepted depends on its key alone.  So what is
staged in the end, and what it makes of the properties of a base, can be read off the calls, and
only the order in which one key is set several times matters.

* `PropertyChanges.ofCalls`    what accepted calls stage: for each key the value it is set to last
                               (`get?_sets_ofCalls`), and the keys to remove
                               (`mem_removals_ofCalls`);
* `PropertyChanges.IsShared`   a key is to be set and to be removed.  Of such keys the least one is
                               reported (`applyTo_ofCalls_of_shared`), and without any the changes
                               apply (`applyTo_ofCalls_of_not_shared`);
* `Update.properties_as_staged`  what an update does to any base, by the calls made on it.
-/

namespace StagedTable

/-- the first text of a sorted list that passes is the least one -/
theorem le_of_find?_eq_some {texts : List String} (hs : texts.Pairwise (· < ·)) {p : String → Bool}
    {text other : String} (h : texts.find? p = some text) (ho : other ∈ texts)
    (hp : p other = true) : text ≤ other := by
  obtain ⟨-, before, after, rfl, hbefore⟩ := List.find?_eq_some_iff_append.1 h
  rcases List.mem_append.1 ho with ho | ho
  · have hnot := hbefore other ho
    rw [hp] at hnot
    cases hnot
  · rcases List.mem_cons.1 ho with rfl | ho
    · exact String.le_refl _
    · have hafter := (List.pairwise_cons.1 (List.pairwise_append.1 hs).2.1).1
      exact String.not_lt.1 (String.lt_asymm (hafter other ho))

namespace PropertyChanges

/-! ## what accepted calls stage -/

/-- what accepted calls stage -/
def ofCalls (calls : List Call) : PropertyChanges := calls.foldl after empty

theorem ofCalls_snoc (calls : List Call) (call : Call) :
    ofCalls (calls ++ [call]) = (ofCalls calls).after call :=
  List.foldl_concat ..

/-- the value that a call sets the key to -/
def Call.valueFor? (key : String) : Call → Option String
  | .set key' value => if key' = key then some value else none
  | .remove _ => none

/-- the values that the key is set to, in order -/
def valuesFor (calls : List Call) (key : String) : List String :=
  calls.filterMap (·.valueFor? key)

theorem valuesFor_snoc (calls : List Call) (call : Call) (key : String) :
    valuesFor (calls ++ [call]) key = valuesFor calls key ++ (call.valueFor? key).toList := by
  rw [valuesFor, valuesFor, List.filterMap_append]
  cases h : call.valueFor? key <;> simp [h]

theorem valuesFor_eq_nil_iff {calls : List Call} {key : String} :
    valuesFor calls key = [] ↔ ¬ ∃ value, .set key value ∈ calls := by
  rw [valuesFor, List.filterMap_eq_nil_iff]
  constructor
  · rintro h ⟨value, hcall⟩
    have hnone := h _ hcall
    rw [Call.valueFor?, if_pos rfl] at hnone
    cases hnone
  · intro h call hcall
    cases call with
    | set key' value =>
      refine if_neg ?_
      rintro rfl
      exact h ⟨value, hcall⟩
    | remove key' => rfl

theorem get?_sets_ofCalls (calls : List Call) (key : String) :
    (ofCalls calls).sets.get? key = (valuesFor calls key).getLast? := by
  induction calls using List.reverseRecOn with
  | nil => rfl
  | append_singleton calls call ih =>
    rw [ofCalls_snoc, valuesFor_snoc, List.getLast?_append, ← ih]
    cases call with
    | set key' value =>
      show ((ofCalls calls).sets.insert key' value).get? key = _
      rw [Dictionary.get?_insert]
      by_cases h : key' = key
      · simp [Call.valueFor?, h]
      · simp [Call.valueFor?, h, Ne.symm h]
    | remove key' => rfl

theorem get?_removals_ofCalls (calls : List Call) (key : String) :
    (ofCalls calls).removals.get? key = if .remove key ∈ calls then some () else none := by
  induction calls using List.reverseRecOn with
  | nil => rfl
  | append_singleton calls call ih =>
    rw [ofCalls_snoc]
    cases call with
    | set key' value =>
      show (ofCalls calls).removals.get? key = _
      simp [ih]
    | remove key' =>
      show ((ofCalls calls).removals.insert key' ()).get? key = _
      rw [Dictionary.get?_insert, ih]
      by_cases h : key = key'
      · simp [h]
      · simp [h]

theorem mem_removals_ofCalls {calls : List Call} {key : String} :
    key ∈ (ofCalls calls).removals.keys ↔ .remove key ∈ calls := by
  rw [Dictionary.mem_keys_iff, get?_removals_ofCalls]
  split <;> simp [*]

/-- only the order in which one key is set several times matters -/
theorem ofCalls_perm {calls calls' : List Call} (hp : calls'.Perm calls)
    (hv : ∀ key, valuesFor calls' key = valuesFor calls key) : ofCalls calls' = ofCalls calls := by
  have hsets : (ofCalls calls').sets = (ofCalls calls).sets := Dictionary.ext fun key => by
    rw [get?_sets_ofCalls, get?_sets_ofCalls, hv]
  have hremovals : (ofCalls calls').removals = (ofCalls calls).removals :=
    Dictionary.ext fun key => by
      rw [get?_removals_ofCalls, get?_removals_ofCalls]
      simp only [hp.mem_iff]
  exact congrArg₂ PropertyChanges.mk hsets hremovals

/-! ## keys to set and to remove -/

/-- the key is to be set and to be removed, in whatever order -/
def IsShared (calls : List Call) (key : String) : Prop :=
  (∃ value, .set key value ∈ calls) ∧ .remove key ∈ calls

theorem isShared_iff {calls : List Call} {key : String} :
    IsShared calls key ↔
      key ∈ (ofCalls calls).removals.keys ∧ (ofCalls calls).sets.contains key = true := by
  rw [mem_removals_ofCalls, Dictionary.contains_eq_true_iff, get?_sets_ofCalls,
    List.getLast?_isSome, Ne, valuesFor_eq_nil_iff, not_not, IsShared, and_comm]

theorem contradiction?_eq_none_iff {calls : List Call} :
    (ofCalls calls).contradiction? = none ↔ ∀ key, ¬ IsShared calls key := by
  simp only [contradiction?, List.find?_eq_none, isShared_iff, not_and]

/-- of the keys that are shared, the least one is reported, whatever the base -/
theorem applyTo_ofCalls_of_shared {calls : List Call} (h : ∃ key, IsShared calls key) :
    ∃ key, IsShared calls key ∧ (∀ other, IsShared calls other → key ≤ other) ∧
      ∀ base, (ofCalls calls).applyTo base = .error (.contradictoryKey key) := by
  obtain ⟨shared, hshared⟩ := h
  cases hc : (ofCalls calls).contradiction? with
  | none => exact absurd hshared (contradiction?_eq_none_iff.1 hc shared)
  | some key =>
    refine ⟨key, isShared_iff.2 ⟨List.mem_of_find?_eq_some hc, List.find?_some hc⟩, ?_, ?_⟩
    · intro other ho
      obtain ⟨hmem, hset⟩ := isShared_iff.1 ho
      exact le_of_find?_eq_some (Dictionary.keys_sorted _) hc hmem hset
    · intro base
      rw [applyTo, hc]

/-- where no key is shared, each is as it was set last, or removed, or as in the base -/
theorem applyTo_ofCalls_of_not_shared {calls : List Call} (h : ∀ key, ¬ IsShared calls key)
    (base : Dictionary String) : ∃ out, (ofCalls calls).applyTo base = .ok out ∧
      (∀ key value, (valuesFor calls key).getLast? = some value → out.get? key = some value) ∧
      (∀ key, .remove key ∈ calls → out.get? key = none) ∧
      ∀ key, valuesFor calls key = [] → .remove key ∉ calls → out.get? key = base.get? key := by
  have hok : ∃ out, (ofCalls calls).applyTo base = .ok out := by
    rw [applyTo, contradiction?_eq_none_iff.2 h]
    exact ⟨_, rfl⟩
  obtain ⟨out, hok⟩ := hok
  refine ⟨out, hok, fun key value hvalue => ?_, fun key hremove => ?_, fun key hset hremove => ?_⟩
  · rw [get?_of_applyTo hok, get?_sets_ofCalls, hvalue, Option.some_or]
  · have hset : valuesFor calls key = [] :=
      valuesFor_eq_nil_iff.2 fun hset => h key ⟨hset, hremove⟩
    rw [get?_of_applyTo hok, get?_sets_ofCalls, hset, if_pos (mem_removals_ofCalls.2 hremove)]
    rfl
  · rw [get?_of_applyTo hok, get?_sets_ofCalls, hset, if_neg (mt mem_removals_ofCalls.1 hremove)]
    rfl

end PropertyChanges

/-! ## updates of properties -/

namespace Update

open PropertyChanges

/-- an update of properties, as it is once these calls were made on it -/
def ofPropertyCalls (calls : List PropertyChanges.Call) : Update .properties :=
  (new .properties).edits (calls.map .call)

theorem ofPropertyCalls_snoc (calls : List PropertyChanges.Call) (call : PropertyChanges.Call) :
    ofPropertyCalls (calls ++ [call]) = (ofPropertyCalls calls).call call := by
  rw [ofPropertyCalls, List.map_append, edits_append]
  rfl

/-- a call that leaves nothing recorded is accepted -/
theorem acceptable_of_call {u : Update .properties} {call : PropertyChanges.Call}
    (h : (u.call call).issues.errors = []) : u.issues.errors = [] ∧ call.IsAcceptable := by
  have herrors : (u.call call).issues.errors = _ := errors_edit u (e := .call call) rfl
  rw [h, eq_comm, List.append_eq_nil_iff] at herrors
  obtain ⟨hbefore, hadded⟩ := herrors
  obtain ⟨changes, hstage⟩ := stage_of_addedBy_eq_nil hadded
  exact ⟨hbefore, (stage_eq_ok_iff.1 hstage).1⟩

theorem call_of_acceptable (u : Update .properties) {call : PropertyChanges.Call}
    (h : call.IsAcceptable) :
    u.call call = { u with changes := PropertyChanges.after u.changes call } := by
  rw [Update.call, stage_eq_ok_iff.2 ⟨h, rfl⟩]

theorem ofPropertyCalls_eq {calls : List PropertyChanges.Call}
    (h : ∀ call ∈ calls, call.IsAcceptable) :
    ofPropertyCalls calls = ⟨ofCalls calls, .empty, .pending⟩ := by
  induction calls using List.reverseRecOn with
  | nil => rfl
  | append_singleton calls call ih =>
    obtain ⟨hcalls, hcall⟩ := List.forall_mem_append.1 h
    rw [ofPropertyCalls_snoc, ih hcalls, ofCalls_snoc,
      call_of_acceptable _ (hcall call (List.mem_singleton_self _))]

theorem acceptable_of_ofPropertyCalls {calls : List PropertyChanges.Call}
    (h : (ofPropertyCalls calls).issues.errors = []) : ∀ call ∈ calls, call.IsAcceptable := by
  induction calls using List.reverseRecOn with
  | nil => exact fun call hcall => nomatch hcall
  | append_singleton calls call ih =>
    rw [ofPropertyCalls_snoc] at h
    obtain ⟨hcalls, hcall⟩ := acceptable_of_call h
    refine List.forall_mem_append.2 ⟨ih hcalls, fun call' hcall' => ?_⟩
    rw [List.mem_singleton.1 hcall']
    exact hcall

/-- **An update of properties does what was staged.**  Let calls be made on a new update, none of
them rejected.  If a key is to be set and to be removed, the update fails on every base, and of such
keys it names the one whose bytes come first.  If there is none, each key holds the value it was set
to last, keys to remove are gone, and all others are as in the base.  So the same calls in another
order give the same update, as long as the values of each key keep their order. -/
theorem properties_as_staged (calls : List PropertyChanges.Call)
    (h : (ofPropertyCalls calls).issues.errors = []) :
    ((∃ key, IsShared calls key) →
      ∃ key, IsShared calls key ∧
        (∀ other, IsShared calls other → Text.bytes key ≤ Text.bytes other) ∧
        ∀ base, ((ofPropertyCalls calls).apply base).mapError Invalidity.error =
          .error ⟨.validationFailed, "Cannot remove and update the same key: " ++ key⟩) ∧
    ((∀ key, ¬ IsShared calls key) →
      ∀ base, ∃ out : Dictionary String, (ofPropertyCalls calls).apply base = .ok out ∧
        (∀ key value, (valuesFor calls key).getLast? = some value → out.get? key = some value) ∧
        (∀ key, .remove key ∈ calls → out.get? key = none) ∧
        ∀ key, valuesFor calls key = [] → .remove key ∉ calls →
          out.get? key = base.property key) ∧
    ∀ calls' : List PropertyChanges.Call, calls'.Perm calls →
      (∀ key, valuesFor calls' key = valuesFor calls key) →
      ofPropertyCalls calls' = ofPropertyCalls calls := by
  have hacceptable := acceptable_of_ofPropertyCalls h
  have happly : ∀ base : Metadata, (ofPropertyCalls calls).apply base =
      (ofCalls calls).applyTo base.properties := fun base => by
    rw [ofPropertyCalls_eq hacceptable]
    exact apply_of_no_issues rfl base
  refine ⟨fun hshared => ?_, fun hnone base => ?_, fun calls' hp hv => ?_⟩
  · obtain ⟨key, hkey, hleast, herror⟩ := applyTo_ofCalls_of_shared hshared
    refine ⟨key, hkey, fun other ho => Text.bytes_le_iff.2 (hleast other ho), fun base => ?_⟩
    rw [happly, herror]
    rfl
  · rw [happly]
    exact applyTo_ofCalls_of_not_shared hnone base.properties
  · have hacceptable' : ∀ call ∈ calls', call.IsAcceptable := fun call hcall =>
      hacceptable call (hp.mem_iff.1 hcall)
    rw [ofPropertyCalls_eq hacceptable, ofPropertyCalls_eq hacceptable', ofCalls_perm hp hv]

/-- two keys are to be set and to be removed; in bytes, `z` comes before `ä` -/
def torn : List PropertyChanges.Call :=
  [.remove "ä", .set "z" "1", .set "ä" "2", .remove "z"]

/-- `a` is set twice, and the base may lack it -/
def settledOn : List PropertyChanges.Call := [.set "a" "1", .remove "b", .set "a" "2"]

theorem properties_as_staged_torn :
    (∀ base, ((ofPropertyCalls torn).apply base).mapError Invalidity.error =
      .error ⟨.validationFailed, "Cannot remove and update the same key: z"⟩) ∧
    (∀ base, ∃ out : Dictionary String, (ofPropertyCalls settledOn).apply base = .ok out ∧
      out.get? "a" = some "2" ∧ out.get? "b" = none ∧ out.get? "c" = base.property "c") ∧
    ofPropertyCalls [.remove "b", .set "a" "1", .set "a" "2"] = ofPropertyCalls settledOn := by
  obtain ⟨htorn, -, -⟩ := properties_as_staged torn (by decide +kernel)
  obtain ⟨-, hsettled, hperm⟩ := properties_as_staged settledOn (by decide +kernel)
  refine ⟨?_, fun base => ?_, ?_⟩
  · have hz : IsShared torn "z" := ⟨⟨"1", by decide⟩, by decide⟩
    obtain ⟨key, hkey, hleast, happly⟩ := htorn ⟨"z", hz⟩
    have hremove : key = "ä" ∨ key = "z" := by simpa [torn] using hkey.2
    rcases hremove with rfl | rfl
    · exact absurd (hleast "z" hz) (by decide +kernel)
    · exact happly
  · have hnone : (ofCalls settledOn).contradiction? = none := by decide +kernel
    obtain ⟨out, hout, hset, hremoved, helse⟩ :=
      hsettled (contradiction?_eq_none_iff.1 hnone) base
    exact ⟨out, hout, hset "a" "2" (by decide), hremoved "b" (by decide),
      helse "c" (by decide) (by decide)⟩
  · exact hperm _ (List.Perm.swap _ _ _) fun key => rfl

end Update

end StagedTable
