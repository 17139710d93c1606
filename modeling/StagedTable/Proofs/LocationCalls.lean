import StagedTable.Proofs.StagedLocations

/-!
# What calls make of a location

Calls that stage a location do not depend on each other.  So what a new update is after any of them
can be read off their texts (`Update.ofLocations_eq`): the last location among them is staged, and
each of the others has left its complaint.

* `Location.IsLocation`  the text can be read as a location;
* `Location.Trims`       the text without its trailing slashes;
* `Update.location_as_called`  what the update does to any base, by the texts it was called with.
-/

namespace StagedTable

namespace Location

def IsLocation (text : String) : Prop := ∃ scheme rest, Reads text scheme rest

instance (text : String) : Decidable (IsLocation text) := decidable_of_iff _ accepts_iff

/-- `out` and slashes are the text, and `out` ends in none -/
structure Trims (text out : String) : Prop where
  slashes : ∃ n, text.toList = out.toList ++ List.replicate n '/'
  trimmed : out.toList.getLast? ≠ some '/'

theorem trimSlashes_spec (cs : List Char) :
    (∃ n, cs = trimSlashes cs ++ List.replicate n '/') ∧
      (trimSlashes cs).getLast? ≠ some '/' := by
  induction cs using List.reverseRecOn with
  | nil => exact ⟨⟨0, rfl⟩, by decide⟩
  | append_singleton cs c ih =>
    by_cases h : c = '/'
    · obtain ⟨⟨n, hcs⟩, hlast⟩ := ih
      rw [h, trimSlashes_append_slash]
      refine ⟨⟨n + 1, ?_⟩, hlast⟩
      rw [List.replicate_succ', ← List.append_assoc, ← hcs]
    · rw [trimSlashes_append_of_ne h, List.getLast?_concat]
      exact ⟨⟨0, (List.append_nil _).symm⟩, fun heq => h (Option.some.inj heq)⟩

theorem trims_dropTrailingSlashes (text : String) : Trims text (dropTrailingSlashes text) := by
  obtain ⟨hslashes, htrimmed⟩ := trimSlashes_spec text.toList
  rw [← toList_dropTrailingSlashes] at hslashes htrimmed
  exact ⟨hslashes, htrimmed⟩

/-- what is recorded of a text that is no location -/
def complaint (text : String) : String :=
  if text = "" then "Location cannot be empty"
  else "Location must be a URI with a scheme: " ++ text

end Location

open Location

theorem LocationChange.stage_of_not {text : String} (h : ¬ IsLocation text)
    (c : Kind.Changes .location) : ∃ why, Kind.stage .location c (.moveTo text) = .error why ∧
      why.error = ⟨.invalidArgument, complaint text⟩ := by
  show ∃ why, stage c (.moveTo text) = .error why ∧ _
  rw [stage, complaint, if_neg (mt accepts_iff.1 h)]
  split
  · exact ⟨_, rfl, rfl⟩
  · exact ⟨_, rfl, rfl⟩

namespace Update

theorem call_moveTo_of_not (u : Update .location) {text : String} (h : ¬ IsLocation text) :
    u.call (.moveTo text) =
      { u with issues := u.issues.record ⟨.invalidArgument, complaint text⟩ } := by
  obtain ⟨why, hstage, hwhy⟩ := LocationChange.stage_of_not h u.changes
  rw [Update.call, hstage, ← hwhy]

/-- an update of a location, as it is once it was called with these texts -/
def ofLocations (texts : List String) : Update .location :=
  (new .location).edits (texts.map fun text => .call (.moveTo text))

theorem ofLocations_snoc (texts : List String) (text : String) :
    ofLocations (texts ++ [text]) = (ofLocations texts).call (.moveTo text) := by
  rw [ofLocations, List.map_append, edits_append]
  rfl

theorem ofLocations_eq (texts : List String) : ofLocations texts =
    ⟨⟨(texts.filter IsLocation).getLast?.map dropTrailingSlashes⟩,
      ⟨(texts.filter (¬ IsLocation ·)).map fun text => ⟨.invalidArgument, complaint text⟩⟩,
      .pending⟩ := by
  induction texts using List.reverseRecOn with
  | nil => rfl
  | append_singleton texts text ih =>
    rw [ofLocations_snoc, ih, List.filter_append, List.filter_append]
    by_cases h : IsLocation text
    · have hkept : [text].filter IsLocation = [text] := by simp [h]
      have hdropped : [text].filter (¬ IsLocation ·) = [] := by simp [h]
      rw [call_moveTo _ (accepts_iff.2 h), hkept, hdropped, List.append_nil, List.getLast?_concat]
      rfl
    · have hdropped : [text].filter IsLocation = [] := by simp [h]
      have hkept : [text].filter (¬ IsLocation ·) = [text] := by simp [h]
      rw [call_moveTo_of_not _ h, hkept, hdropped, List.append_nil, List.map_append]
      rfl

/-- some text was no location: one entry for each of those, in the order of the calls -/
theorem apply_ofLocations_of_not {texts : List String} (h : ∃ text ∈ texts, ¬ IsLocation text)
    (base : Metadata) : ((ofLocations texts).apply base).mapError Invalidity.error =
      .error ⟨.validationFailed,
        Issues.listing ((texts.filter (¬ IsLocation ·)).map complaint)⟩ := by
  obtain ⟨text, hmem, hno⟩ := h
  have hissues : (ofLocations texts).issues.errors ≠ [] := by
    rw [ofLocations_eq]
    exact List.ne_nil_of_mem
      (List.mem_map_of_mem (List.mem_filter.2 ⟨hmem, decide_eq_true hno⟩))
  rw [apply_of_issues hissues, ofLocations_eq]
  show Except.error (Issues.report _) = _
  rw [Issues.report_eq, List.map_map]
  rfl

/-- all texts were locations: the last one counts -/
theorem apply_ofLocations {texts : List String} (h : ∀ text ∈ texts, IsLocation text)
    (base : Metadata) : (ofLocations texts).apply base =
      (texts.getLast?.map fun text => .ok (dropTrailingSlashes text)).getD
        (.error .noLocation) := by
  have hkept : texts.filter IsLocation = texts :=
    List.filter_eq_self.2 fun text ht => decide_eq_true (h text ht)
  have hdropped : texts.filter (¬ IsLocation ·) = [] :=
    List.filter_eq_nil_iff.2 fun text ht => by simpa using h text ht
  rw [ofLocations_eq, hkept, hdropped, apply_of_no_issues rfl]
  show LocationChange.result _ = _
  cases texts.getLast? with
  | none => rfl
  | some text => rfl

theorem of_apply_ofLocations {texts : List String} {base : Metadata} {out : String}
    (h : (ofLocations texts).apply base = .ok out) : (∀ text ∈ texts, IsLocation text) ∧
      ∃ text, texts.getLast? = some text ∧ out = dropTrailingSlashes text := by
  have hall : ∀ text ∈ texts, IsLocation text := by
    by_contra hno
    push Not at hno
    have herror := apply_ofLocations_of_not hno base
    rw [h] at herror
    cases herror
  refine ⟨hall, ?_⟩
  rw [apply_ofLocations hall] at h
  cases hlast : texts.getLast? with
  | none =>
    rw [hlast] at h
    cases h
  | some text =>
    rw [hlast] at h
    exact ⟨text, rfl, (Except.ok.inj h).symm⟩

/-- **An update of a location moves to the last text, if all texts are locations.**  Let a new
update be called with any texts, one after the other.  It applies if there is a text, and each of
them can be read as a scheme, `://` and a rest; and then it moves to the last one, without its
trailing slashes.  Otherwise each text that cannot be read so has left one entry, in the order of
the calls, and these entries are reported.  Without any text there is nothing to report, and nothing
to apply. -/
theorem location_as_called (texts : List String) (base : Metadata) :
    let u := ofLocations texts
    ((∃ out, u.apply base = .ok out) ↔ texts ≠ [] ∧ ∀ text ∈ texts, IsLocation text) ∧
    (∀ out, u.apply base = .ok out → ∃ text, texts.getLast? = some text ∧ Trims text out) ∧
    u.issues.errors =
      (texts.filter (¬ IsLocation ·)).map (fun text => ⟨.invalidArgument, complaint text⟩) ∧
    ((∃ text ∈ texts, ¬ IsLocation text) → (u.apply base).mapError Invalidity.error =
      .error ⟨.validationFailed,
        Issues.listing ((texts.filter (¬ IsLocation ·)).map complaint)⟩) ∧
    (texts = [] → (u.apply base).mapError Invalidity.error =
      .error ⟨.validationFailed, "Invalid table location: no location staged"⟩) := by
  intro u
  refine ⟨⟨?_, ?_⟩, ?_, ?_, fun h => apply_ofLocations_of_not h base, ?_⟩
  · rintro ⟨out, hout⟩
    obtain ⟨hall, text, hlast, -⟩ := of_apply_ofLocations hout
    exact ⟨List.ne_nil_of_mem (List.mem_of_getLast? hlast), hall⟩
  · rintro ⟨hne, hall⟩
    have happly : u.apply base = _ := apply_ofLocations hall base
    rw [happly, List.getLast?_eq_some_getLast hne]
    exact ⟨_, rfl⟩
  · intro out hout
    obtain ⟨-, text, hlast, rfl⟩ := of_apply_ofLocations hout
    exact ⟨text, hlast, trims_dropTrailingSlashes text⟩
  · exact congrArg (·.issues.errors) (ofLocations_eq texts)
  · rintro rfl
    rfl

example : ((ofLocations ["a://b//", "", "ä://b"]).apply default).mapError Invalidity.error =
    .error ⟨.validationFailed, "Validation failed due to the following errors:\n" ++
      "  - Location cannot be empty\n" ++ "  - Location must be a URI with a scheme: ä://b\n"⟩ := by
  decide +kernel

end Update

end StagedTable
