import StagedTable.Proofs.LocationGrammar
import StagedTable.Proofs.Parts
import StagedTable.Proofs.RejectedCalls
import StagedTable.Proofs.Staging

/-!
# What calls stage of locations

A text is checked as it is given, and staged without its trailing slashes.  So what is staged has
not been checked, and if the text is a root, it is no location: it is not accepted when it is staged
again.  All other locations pass the check once more, and are staged as they are.

* `LocationChange.Moves`  the location that steps of preparing an update stage, and the text it was
                          given as: the last one that was accepted;
* `Update.location_unless_root`  what is previewed and what is sent is a location if, and only if,
                          that text is no root;
* `Update.root_is_no_location`   a root, and what becomes of it.
-/

namespace StagedTable

open Location

namespace LocationChange

/-- the steps stage the location, which was given as the text -/
structure Stages (es : List (Update.Edit .location)) (text location : String) : Prop where
  last_accepted : ((Update.new .location).accepted es).getLast? = some (.moveTo text)
  accepts_text : accepts text = true
  location_eq : location = dropTrailingSlashes text

/-- what is staged is a location, unless it was given as a root -/
theorem Stages.reads_iff {es : List (Update.Edit .location)} {text location : String}
    (h : Stages es text location) :
    (∃ scheme rest, Reads location scheme rest) ↔ ¬ IsRoot text := by
  rw [← accepts_iff, h.location_eq]
  exact accepts_dropTrailingSlashes_iff h.accepts_text

theorem stages_of_staged {es : List (Update.Edit .location)} {location : String}
    (h : (((Update.new .location).edits es).changes : LocationChange).staged = some location) :
    ∃ text, Stages es text location := by
  induction es using List.reverseRecOn with
  | nil => cases h
  | append_singleton es e ih =>
    rw [Update.edits_append] at h
    cases ha : ((Update.new .location).edits es).accepted? e with
    | none =>
      have hsame := Update.changes_of_accepted?_none ha
      have hstaged : (((Update.new .location).edits es).changes : LocationChange).staged =
          some location := hsame ▸ h
      obtain ⟨text, hlast, haccepts, heq⟩ := ih hstaged
      refine ⟨text, ?_, haccepts, heq⟩
      rw [Update.accepted_snoc, ha, Option.toList_none, List.append_nil, hlast]
    | some call =>
      obtain ⟨text⟩ := call
      obtain ⟨haccepts, hchanges⟩ := stage_eq_ok_iff.1 (Update.stage_of_accepted? ha)
      refine ⟨text, ?_, haccepts, ?_⟩
      · rw [Update.accepted_snoc, ha, Option.toList_some, List.getLast?_concat]
      · have hstaged := congrArg LocationChange.staged hchanges
        exact Option.some.inj (h.symm.trans hstaged)

end LocationChange

namespace Update

open LocationChange

theorem call_moveTo (u : Update .location) {text : String} (h : accepts text = true) :
    u.call (.moveTo text) = { u with changes := ⟨some (dropTrailingSlashes text)⟩ } := by
  rw [Update.call, LocationChange.stage_eq_ok_iff.2 ⟨h, rfl⟩]

/-- a call that leaves the recorded issues as they are is accepted -/
theorem accepts_of_call {u : Update .location} {text : String}
    (h : (u.call (.moveTo text)).issues = u.issues) : accepts text = true := by
  have herrors := errors_edit u (e := .call (.moveTo text)) rfl
  rw [show u.edit (.call (.moveTo text)) = u.call (.moveTo text) from rfl, h] at herrors
  obtain ⟨changes, hstage⟩ := stage_of_addedBy_eq_nil (List.append_right_eq_self.1 herrors.symm)
  exact (LocationChange.stage_eq_ok_iff.1 hstage).1

theorem stages_of_apply {es : List (Edit .location)} {base : Metadata} {out : String}
    (h : ((new .location).edits es).apply base = .ok out) : ∃ text, Stages es text out :=
  stages_of_staged (LocationChange.result_eq_ok.1 (applyTo_of_apply h))

theorem stages_of_sent {σ : Type} {ops : Operations σ} {es : List (Edit .location)} {h : Handle}
    {s : σ} {base m : Metadata} {answer : Status}
    (hsent : .commit base m answer ∈ ((new .location).edits es).calls ops h s) :
    ∃ text, Stages es text m.location := by
  cases ha : ((new .location).edits es).apply h.cache with
  | error why =>
    rw [calls_of_error ha] at hsent
    cases hsent
  | ok out =>
    rw [calls_of_ok ha] at hsent
    obtain ⟨-, rfl, -⟩ := Operations.commit_mem_callsOf.1 hsent
    exact stages_of_apply ha

/-- what is staged is staged again as it is, unless it was given as a root -/
theorem call_call_moveTo_iff (u : Update .location) {text : String} (h : accepts text = true) :
    (u.call (.moveTo text)).call (.moveTo (dropTrailingSlashes text)) = u.call (.moveTo text) ↔
      ¬ IsRoot text := by
  rw [← accepts_dropTrailingSlashes_iff h]
  constructor
  · intro hcall
    exact accepts_of_call (congrArg Update.issues hcall)
  · intro haccepts
    rw [call_moveTo _ haccepts, call_moveTo _ h, dropTrailingSlashes_idem]

/-- **A staged location is a location, unless it was given as a root.**  What an accepted text is
staged as has no more slashes to lose.  It is accepted when it is staged again, and is then staged
as it is, if and only if the text is no root.  So what is previewed, and what a commit sends, is a
location if and only if the text that was accepted last is no root. -/
theorem location_unless_root (es : List (Edit .location)) :
    (∀ (u : Update .location) (text : String), accepts text = true →
      u.call (.moveTo text) = { u with changes := ⟨some (dropTrailingSlashes text)⟩ } ∧
      dropTrailingSlashes (dropTrailingSlashes text) = dropTrailingSlashes text ∧
      (accepts (dropTrailingSlashes text) = true ↔ ¬ IsRoot text) ∧
      ((u.call (.moveTo text)).call (.moveTo (dropTrailingSlashes text)) =
        u.call (.moveTo text) ↔ ¬ IsRoot text)) ∧
    (∀ base out, ((new .location).edits es).apply base = .ok out →
      ∃ text, Stages es text out ∧ ((∃ scheme rest, Reads out scheme rest) ↔ ¬ IsRoot text)) ∧
    ∀ (σ : Type) (ops : Operations σ) (h : Handle) (s : σ) (base m : Metadata) (answer : Status),
      .commit base m answer ∈
        (((new .location).edits es).commit ops.recorded h ⟨s, []⟩).2.store.exchanges →
      ∃ text, Stages es text m.location ∧
        ((∃ scheme rest, Reads m.location scheme rest) ↔ ¬ IsRoot text) := by
  refine ⟨fun u text h => ⟨u.call_moveTo h, dropTrailingSlashes_idem text,
    accepts_dropTrailingSlashes_iff h, u.call_call_moveTo_iff h⟩, ?_, ?_⟩
  · intro base out h
    obtain ⟨text, hstages⟩ := stages_of_apply h
    exact ⟨text, hstages, hstages.reads_iff⟩
  · intro σ ops h s base m answer hsent
    rw [exchanges_commit] at hsent
    obtain ⟨text, hstages⟩ := stages_of_sent hsent
    exact ⟨text, hstages, hstages.reads_iff⟩

/-- first to a root, and then to a place below one -/
def moves : List (Edit .location) := [.call (.moveTo "a:///"), .call (.moveTo "a:///b//")]

theorem location_unless_root_moves :
    ¬ IsRoot "a:///b//" ∧
    (∀ u : Update .location, (u.call (.moveTo "a:///b//")).call (.moveTo "a:///b") =
      u.call (.moveTo "a:///b//")) ∧
    ∃ text, Stages moves text "a:///b" ∧
      ((∃ scheme rest, Reads "a:///b" scheme rest) ↔ ¬ IsRoot text) := by
  obtain ⟨hcall, hpreview, -⟩ := location_unless_root moves
  have htext : accepts "a:///b//" = true := by decide
  obtain ⟨-, -, haccepts, -⟩ := hcall (new .location) _ htext
  have hroot : ¬ IsRoot "a:///b//" := haccepts.1 (by decide)
  refine ⟨hroot, fun u => ?_, hpreview default "a:///b" (by rfl)⟩
  obtain ⟨-, -, -, hagain⟩ := hcall u _ htext
  exact hagain.2 hroot

/-- a root is accepted, and it is staged and previewed as something that is not -/
theorem root_is_no_location :
    accepts "a:///" = true ∧
    ((new .location).call (.moveTo "a:///")).apply default = .ok "a:" ∧
    accepts "a:" = false ∧
    ((new .location).edits [.call (.moveTo "a:///"), .call (.moveTo "a:")]).issues.errors =
      [⟨.invalidArgument, "Location must be a URI with a scheme: a:"⟩] := by
  refine ⟨by decide, by rfl, by decide, by decide +kernel⟩

end Update

end StagedTable
