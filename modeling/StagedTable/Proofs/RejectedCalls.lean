import Mathlib.Data.List.DropRight
import StagedTable.Proofs.Exchanges

/-!
# Calls that are not accepted

A call that is not accepted stages nothing.  It records its error, and the error stays until the
recorded issues are cleared.  Here both are followed through any sequence of steps, for updates of
every kind, although whether a call is accepted depends on the calls before it.

* `Update.added`       the errors that steps add, one for each call that is not accepted;
* `Update.sinceClear`  the steps after the last one that clears the recorded issues; the errors they
                       add are those that are recorded (`Update.errors_edits`);
* `Update.accepted`    the calls that are accepted.  Once the issues are cleared, nothing else is
                       left (`Update.edits_clear`).
-/

namespace StagedTable.Update

variable {k : Kind} {σ : Type}

/-! ## the errors that are added -/

/-- the errors that a step adds to those that are recorded -/
def addedBy (u : Update k) : Edit k → List Error
  | .call c =>
    match k.stage u.changes c with
    | .ok _ => []
    | .error why => [why.error]
  | .record e => [e]
  | .extend es => es
  | .clear => []

def added (u : Update k) : List (Edit k) → List Error
  | [] => []
  | e :: es => u.addedBy e ++ (u.edit e).added es

def Edit.clears : Edit k → Bool
  | .clear => true
  | _ => false

theorem Edit.eq_clear {e : Edit k} (h : e.clears = true) : e = .clear := by
  cases e with
  | call c => cases h
  | record e => cases h
  | extend es => cases h
  | clear => rfl

theorem errors_edit (u : Update k) {e : Edit k} (h : e.clears = false) :
    (u.edit e).issues.errors = u.issues.errors ++ u.addedBy e := by
  cases e with
  | call c =>
    rw [edit, call, addedBy]
    cases k.stage u.changes c with
    | ok changes => exact (List.append_nil _).symm
    | error why => rfl
  | record e => rfl
  | extend es => rfl
  | clear => cases h

/-- a call that adds no error is accepted -/
theorem stage_of_addedBy_eq_nil {u : Update k} {c : k.Call} (h : u.addedBy (.call c) = []) :
    ∃ changes, k.stage u.changes c = .ok changes := by
  rw [addedBy] at h
  split at h
  · next changes heq => exact ⟨changes, heq⟩
  · cases h

theorem errors_edits_of_no_clear (u : Update k) {es : List (Edit k)}
    (h : ∀ e ∈ es, e.clears = false) :
    (u.edits es).issues.errors = u.issues.errors ++ u.added es := by
  induction es generalizing u with
  | nil => exact (List.append_nil _).symm
  | cons e es ih =>
    obtain ⟨he, hes⟩ := List.forall_mem_cons.1 h
    rw [edits_cons, ih _ hes, errors_edit u he, added, List.append_assoc]

/-! ## since the last clear -/

/-- the steps after the last one that clears the recorded issues; all steps, if there is none -/
def sinceClear (es : List (Edit k)) : List (Edit k) := es.rtakeWhile (!·.clears)

/-- the steps up to the last one that clears the recorded issues -/
def untilClear (es : List (Edit k)) : List (Edit k) := es.rdropWhile (!·.clears)

theorem untilClear_append_sinceClear (es : List (Edit k)) :
    untilClear es ++ sinceClear es = es :=
  List.rdropWhile_append_rtakeWhile

theorem clears_of_mem_sinceClear {es : List (Edit k)} {e : Edit k} (h : e ∈ sinceClear es) :
    e.clears = false := by
  have hnot := List.mem_rtakeWhile_imp h
  rwa [Bool.not_eq_true'] at hnot

theorem getLast_untilClear (es : List (Edit k)) (h : untilClear es ≠ []) :
    (untilClear es).getLast h = .clear := by
  have hnot := List.rdropWhile_last_not (fun e : Edit k => !e.clears) es h
  rw [Bool.not_eq_true', Bool.not_eq_false] at hnot
  exact Edit.eq_clear hnot

/-- nothing is recorded at the start, nor after a clear -/
theorem errors_edits_untilClear (es : List (Edit k)) :
    ((new k).edits (untilClear es)).issues.errors = [] := by
  by_cases h : untilClear es = []
  · rw [h]
    rfl
  · rw [← List.dropLast_concat_getLast h, getLast_untilClear es h, edits_append]
    rfl

theorem errors_edits (es : List (Edit k)) :
    ((new k).edits es).issues.errors =
      ((new k).edits (untilClear es)).added (sinceClear es) := by
  have hsplit : (new k).edits es = ((new k).edits (untilClear es)).edits (sinceClear es) := by
    rw [← edits_append, untilClear_append_sinceClear]
  rw [hsplit, errors_edits_of_no_clear _ fun e he => clears_of_mem_sinceClear he,
    errors_edits_untilClear, List.nil_append]

/-! ## the calls that are accepted -/

/-- the call of a step, if it is one and is accepted -/
def accepted? (u : Update k) : Edit k → Option k.Call
  | .call c =>
    match k.stage u.changes c with
    | .ok _ => some c
    | .error _ => none
  | _ => none

def accepted (u : Update k) : List (Edit k) → List k.Call
  | [] => []
  | e :: es => (u.accepted? e).toList ++ (u.edit e).accepted es

theorem accepted_append (u : Update k) (a b : List (Edit k)) :
    u.accepted (a ++ b) = u.accepted a ++ (u.edits a).accepted b := by
  induction a generalizing u with
  | nil => rfl
  | cons e a ih => rw [List.cons_append, accepted, ih, accepted, List.append_assoc, edits_cons]

theorem accepted_snoc (u : Update k) (es : List (Edit k)) (e : Edit k) :
    u.accepted (es ++ [e]) = u.accepted es ++ ((u.edits es).accepted? e).toList := by
  rw [accepted_append, accepted, accepted, List.append_nil]

/-- an accepted call is what a step stages -/
theorem stage_of_accepted? {u : Update k} {e : Edit k} {c : k.Call} (h : u.accepted? e = some c) :
    k.stage u.changes c = .ok (u.edit e).changes := by
  unfold accepted? at h
  split at h
  · next c' =>
    split at h
    · next hc =>
      obtain rfl := Option.some.inj h
      show _ = Except.ok (u.call _).changes
      rw [call, hc]
    · cases h
  · cases h

/-- and a step without one stages nothing -/
theorem changes_of_accepted?_none {u : Update k} {e : Edit k} (h : u.accepted? e = none) :
    (u.edit e).changes = u.changes := by
  cases e with
  | call c =>
    rw [accepted?] at h
    split at h
    · cases h
    · next hc =>
      show (u.call c).changes = _
      rw [call, hc]
  | record e => rfl
  | extend es => rfl
  | clear => rfl

theorem edit_clear (u : Update k) (e : Edit k) :
    (u.edit e).edit .clear = (u.edit .clear).edits ((u.accepted? e).toList.map .call) := by
  have hclear : (u.edit e).edit .clear = ⟨(u.edit e).changes, .empty, u.state⟩ := by
    rw [← state_edit u e]
    rfl
  rw [hclear]
  cases ha : u.accepted? e with
  | none =>
    rw [changes_of_accepted?_none ha]
    rfl
  | some c =>
    -- what is recorded plays no part in staging
    show _ = (u.edit .clear).call c
    rw [call, show (u.edit .clear).changes = u.changes from rfl, stage_of_accepted? ha]
    rfl

/-- once the issues are cleared, it is as if only the accepted calls had been made -/
theorem edits_clear (u : Update k) (es : List (Edit k)) :
    (u.edits es).edit .clear = (u.edit .clear).edits ((u.accepted es).map .call) := by
  induction es generalizing u with
  | nil => rfl
  | cons e es ih =>
    rw [edits_cons, ih, edit_clear, accepted, List.map_append, edits_append]

/-! ## what is left of a rejected call -/

theorem commit_of_issues {u : Update k} (hu : u.issues.errors ≠ []) (ops : Operations σ)
    (h : Handle) (s : σ) :
    (u.commit ops h s).2 = ⟨.error u.issues.report, h, s, u.issues.events⟩ :=
  send_of_error (apply_of_issues hu h.cache) s

/-- **A call that is not accepted leaves its error, and nothing else.**  Recorded is what has been
added since the last clear, in the order of the steps.  As long as that is something, the update can
neither be applied nor committed: it reports one entry for each recorded error, and nothing is sent.
After a clear the update is the one that a new update becomes by the accepted calls alone. -/
theorem rejected_call_leaves_error (k : Kind) (es : List (Edit k)) :
    ((new k).edits es).issues.errors =
      ((new k).edits (untilClear es)).added (sinceClear es) ∧
    (((new k).edits es).issues.errors ≠ [] →
      let report : Error := ⟨.validationFailed,
        Issues.listing (((new k).edits es).issues.errors.map (·.message))⟩
      (∀ base, (((new k).edits es).apply base).mapError Invalidity.error = .error report) ∧
      ∀ (σ : Type) (ops : Operations σ) (h : Handle) (r : Operations.Recorded σ),
        let o := (((new k).edits es).commit ops.recorded h r).2
        o.status = .error report ∧ o.handle = h ∧ o.store = r) ∧
    (new k).edits (es ++ [.clear]) = (new k).edits (((new k).accepted es).map .call) := by
  refine ⟨errors_edits es, ?_, ?_⟩
  · intro hissues
    refine ⟨fun base => ?_, fun σ ops h r => ?_⟩
    · rw [apply_of_issues hissues, ← Issues.report_eq]
      rfl
    · rw [commit_of_issues hissues, ← Issues.report_eq]
      exact ⟨rfl, rfl, rfl⟩
  · rw [edits_append]
    exact edits_clear (new k) es

/-- `a` is added twice; the empty name, a note and a folded error come after a clear -/
def retried : List (Edit .schema) :=
  [.call (.add ⟨"a", .int, false⟩), .call (.add ⟨"a", .long, true⟩), .clear, .call (.delete ""),
    .call (.delete "a"), .record ⟨.commitFailed, "note"⟩,
    .extend [⟨.invalidArgument, "folded"⟩]]

theorem rejected_call_leaves_error_retried :
    ((new .schema).edits retried).issues.errors =
      [⟨.invalidArgument, "Column name cannot be empty"⟩, ⟨.commitFailed, "note"⟩,
        ⟨.invalidArgument, "folded"⟩] ∧
    (((new .schema).edits retried).apply default).mapError Invalidity.error =
      .error ⟨.validationFailed, "Validation failed due to the following errors:\n" ++
        "  - Column name cannot be empty\n" ++ "  - note\n" ++ "  - folded\n"⟩ ∧
    (new .schema).edits (retried ++ [.clear]) =
      (new .schema).edits [.call (.add ⟨"a", .int, false⟩), .call (.delete "a")] := by
  obtain ⟨herrors, hreport, hclear⟩ := rejected_call_leaves_error .schema retried
  have hissues : ((new .schema).edits retried).issues.errors =
      [⟨.invalidArgument, "Column name cannot be empty"⟩, ⟨.commitFailed, "note"⟩,
        ⟨.invalidArgument, "folded"⟩] := herrors.trans (by decide +kernel)
  have haccepted : (new .schema).accepted retried =
      [.add ⟨"a", .int, false⟩, .delete "a"] := by
    decide +kernel
  rw [haccepted] at hclear
  refine ⟨hissues, ?_, hclear⟩
  refine ((hreport (by rw [hissues]; exact List.cons_ne_nil _ _)).1 default).trans ?_
  rw [hissues]
  decide +kernel

end StagedTable.Update
