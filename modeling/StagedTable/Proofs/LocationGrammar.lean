import Mathlib.Data.List.DropRight
import StagedTable.Location

/-!
# The grammar of locations

What a location is, apart from how a text is checked, and what becomes of it without its trailing
slashes.

* `Location.Reads`    a text as a scheme, `://` and a rest.  The texts that can be read like this
                      are those that are accepted (`Location.accepts_iff`);
* `Location.IsRoot`   the rest is nothing but slashes.  Then the slashes of the separator are
                      trailing slashes as well, and a scheme and a colon are left
                      (`Reads.dropTrailingSlashes_of_slashes`);
* `Location.accepts_dropTrailingSlashes_iff`  so a location is still one without its trailing
                      slashes, unless it is a root.
-/

namespace StagedTable.Location

/-! ## the grammar -/

/-- an ASCII letter, then ASCII letters, digits, `+`, `.` and `-` -/
def IsScheme (scheme : String) : Prop :=
  ∃ first others, scheme.toList = first :: others ∧ first.isAlpha = true ∧
    ∀ c ∈ others, isSchemeChar c = true

/-- not empty, and without ASCII white space -/
def IsWord (text : String) : Prop := text ≠ "" ∧ ∀ c ∈ text.toList, isBlank c = false

structure Reads (text scheme rest : String) : Prop where
  text_eq : text = scheme ++ "://" ++ rest
  isScheme : IsScheme scheme
  isWord : IsWord rest

/-! ## accepted texts -/

theorem acceptsRest_iff {rest : String} : acceptsRest rest.toList = true ↔ IsWord rest := by
  simp [acceptsRest, IsWord, List.all_eq_true]

/-- no scheme character is a colon, so the scheme ends at the first one -/
theorem accepts_of_scheme {scheme : String} (h : IsScheme scheme) (tail : String) :
    accepts (scheme ++ ":" ++ tail) = acceptsAfterScheme (':' :: tail.toList) := by
  obtain ⟨first, others, hscheme, hfirst, hothers⟩ := h
  have htext : (scheme ++ ":" ++ tail).toList = first :: (others ++ ':' :: tail.toList) := by
    rw [String.toList_append, String.toList_append, hscheme]
    simp
  rw [accepts, htext, acceptsChars, hfirst, Bool.true_and, List.dropWhile_append_of_pos hothers,
    List.dropWhile_cons_of_neg (by decide)]

theorem acceptsAfterScheme_eq {cs : List Char} (h : acceptsAfterScheme cs = true) :
    ∃ rest : String, cs = "://".toList ++ rest.toList ∧ IsWord rest := by
  unfold acceptsAfterScheme at h
  split at h
  · next rest =>
    refine ⟨String.ofList rest, by simp, acceptsRest_iff.1 ?_⟩
    rwa [String.toList_ofList]
  · cases h

theorem Reads.accepts {text scheme rest : String} (h : Reads text scheme rest) :
    accepts text = true := by
  obtain ⟨rfl, hscheme, hrest⟩ := h
  have htext : scheme ++ "://" ++ rest = scheme ++ ":" ++ ("//" ++ rest) := by
    simp [← String.toList_inj]
  rw [htext, accepts_of_scheme hscheme]
  simpa [acceptsAfterScheme] using acceptsRest_iff.2 hrest

/-- **A text is accepted if it can be read as a location**, and not otherwise. -/
theorem accepts_iff {text : String} :
    accepts text = true ↔ ∃ scheme rest, Reads text scheme rest := by
  constructor
  · intro h
    rw [Location.accepts] at h
    cases htext : text.toList with
    | nil =>
      rw [htext] at h
      cases h
    | cons first cs =>
      rw [htext, acceptsChars, Bool.and_eq_true] at h
      obtain ⟨hfirst, h⟩ := h
      obtain ⟨rest, hcs, hrest⟩ := acceptsAfterScheme_eq h
      have hscheme : IsScheme (String.ofList (first :: cs.takeWhile isSchemeChar)) :=
        ⟨first, _, String.toList_ofList, hfirst, fun c hc => List.mem_takeWhile_imp hc⟩
      refine ⟨_, rest, ?_, hscheme, hrest⟩
      rw [← String.toList_inj, String.toList_append, String.toList_append, String.toList_ofList,
        htext, List.append_assoc, ← hcs, List.cons_append, List.takeWhile_append_dropWhile]
  · rintro ⟨scheme, rest, h⟩
    exact h.accepts

/-! ## without trailing slashes -/

theorem trimSlashes_append (a b : List Char) : trimSlashes (a ++ b) =
    if trimSlashes b = [] then trimSlashes a else a ++ trimSlashes b := by
  simp only [trimSlashes, List.reverse_append, List.dropWhile_append, List.reverse_eq_nil_iff,
    List.isEmpty_iff]
  split
  · rfl
  · rw [List.reverse_append, List.reverse_reverse]

theorem toList_dropTrailingSlashes (s : String) :
    (dropTrailingSlashes s).toList = trimSlashes s.toList :=
  String.toList_ofList

theorem dropTrailingSlashes_append (a b : String) : dropTrailingSlashes (a ++ b) =
    if dropTrailingSlashes b = "" then dropTrailingSlashes a else a ++ dropTrailingSlashes b := by
  have hempty : dropTrailingSlashes b = "" ↔ trimSlashes b.toList = [] := by
    rw [← toList_dropTrailingSlashes, String.toList_eq_nil_iff]
  rw [← String.toList_inj, toList_dropTrailingSlashes, String.toList_append, trimSlashes_append]
  by_cases h : trimSlashes b.toList = []
  · rw [if_pos h, if_pos (hempty.2 h), toList_dropTrailingSlashes]
  · rw [if_neg h, if_neg (mt hempty.1 h), String.toList_append, toList_dropTrailingSlashes]

theorem dropTrailingSlashes_idem (s : String) :
    dropTrailingSlashes (dropTrailingSlashes s) = dropTrailingSlashes s := by
  rw [dropTrailingSlashes, toList_dropTrailingSlashes, trimSlashes_idem]
  rfl

theorem dropTrailingSlashes_eq_empty_iff {s : String} :
    dropTrailingSlashes s = "" ↔ ∀ c ∈ s.toList, c = '/' := by
  rw [← String.toList_eq_nil_iff, toList_dropTrailingSlashes]
  show s.toList.rdropWhile (· == '/') = [] ↔ _
  simp only [List.rdropWhile_eq_nil_iff, beq_iff_eq]

theorem IsWord.dropTrailingSlashes {rest : String} (h : IsWord rest)
    (hne : dropTrailingSlashes rest ≠ "") : IsWord (dropTrailingSlashes rest) := by
  refine ⟨hne, fun c hc => h.2 c ?_⟩
  rw [toList_dropTrailingSlashes] at hc
  exact (List.rdropWhile_prefix (· == '/') rest.toList).subset hc

/-- the rest is nothing but slashes -/
def IsRoot (text : String) : Prop :=
  ∃ scheme rest, Reads text scheme rest ∧ ∀ c ∈ rest.toList, c = '/'

section
variable {text scheme rest : String}

/-- the separator loses its slashes together with the rest -/
theorem Reads.dropTrailingSlashes_of_slashes (h : Reads text scheme rest)
    (hs : ∀ c ∈ rest.toList, c = '/') : dropTrailingSlashes text = scheme ++ ":" := by
  have hseparator : Location.dropTrailingSlashes "://" = ":" := by decide
  rw [h.text_eq, dropTrailingSlashes_append, if_pos (dropTrailingSlashes_eq_empty_iff.2 hs),
    dropTrailingSlashes_append, hseparator, if_neg (by decide)]

theorem Reads.dropTrailingSlashes (h : Reads text scheme rest)
    (hs : ¬ ∀ c ∈ rest.toList, c = '/') :
    Reads (dropTrailingSlashes text) scheme (dropTrailingSlashes rest) := by
  have hne := mt dropTrailingSlashes_eq_empty_iff.1 hs
  refine ⟨?_, h.isScheme, h.isWord.dropTrailingSlashes hne⟩
  rw [h.text_eq, dropTrailingSlashes_append, if_neg hne]

/-- what is left of a root can have a tail, but is no location by itself -/
theorem accepts_of_isRoot (h : IsRoot text) : accepts (dropTrailingSlashes text) = false := by
  obtain ⟨scheme, rest, hreads, hs⟩ := h
  have hcolon := accepts_of_scheme hreads.isScheme ""
  rw [String.append_empty] at hcolon
  rw [hreads.dropTrailingSlashes_of_slashes hs, hcolon]
  rfl

/-- what is left of another location is a location -/
theorem reads_of_not_isRoot (h : accepts text = true) (hroot : ¬ IsRoot text) :
    ∃ scheme rest, Reads (dropTrailingSlashes text) scheme rest := by
  obtain ⟨scheme, rest, hreads⟩ := accepts_iff.1 h
  exact ⟨scheme, _, hreads.dropTrailingSlashes fun hs => hroot ⟨scheme, rest, hreads, hs⟩⟩

/-- **A location without its trailing slashes is a location, unless it is a root.** -/
theorem accepts_dropTrailingSlashes_iff (h : accepts text = true) :
    accepts (dropTrailingSlashes text) = true ↔ ¬ IsRoot text := by
  constructor
  · intro ha hroot
    rw [accepts_of_isRoot hroot] at ha
    cases ha
  · intro hroot
    exact accepts_iff.2 (reads_of_not_isRoot h hroot)

end

end StagedTable.Location
