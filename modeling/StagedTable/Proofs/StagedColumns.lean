import StagedTable.Proofs.Staging

/-!
# What calls stage of columns

A call that is not accepted stages nothing, and whether it is accepted depends on what was staged
before it.  What is staged in the end can be said without that: of all calls that name something,
the first for each name counts (`SchemaChanges.changes_edits`).

* `firstOf`                the first entry of each key, in order;
* `SchemaChanges.ofEdits`  the columns that steps of preparing an update add, the names that they
                           delete, and whether they permit incompatible changes.

So among staged columns, and among staged deletions, no name comes twice and none is empty.
-/

namespace StagedTable

/-! ## the first entry of each key -/

section
variable {α κ : Type} [DecidableEq κ] (key : α → κ)

/-- the first entry of each key, in order -/
def firstOf : List α → List α
  | [] => []
  | a :: as => a :: (firstOf as).filter fun b => key b ≠ key a

theorem firstOf_cons (a : α) (as : List α) :
    firstOf key (a :: as) = a :: (firstOf key as).filter fun b => key b ≠ key a := rfl

theorem firstOf_snoc (as : List α) (a : α) :
    firstOf key (as ++ [a]) =
      if key a ∈ as.map key then firstOf key as else firstOf key as ++ [a] := by
  induction as with
  | nil => simp [firstOf]
  | cons b as ih =>
    rw [List.cons_append, firstOf_cons, firstOf_cons, ih]
    by_cases hb : key a = key b
    · -- `a` is dropped because of `b`, if not because of an earlier entry
      have hmem : key a ∈ (b :: as).map key := by simp [hb]
      rw [if_pos hmem]
      split
      · rfl
      · simp [List.filter_append, hb]
    · have hmem : key a ∈ (b :: as).map key ↔ key a ∈ as.map key := by simp [hb]
      simp only [hmem]
      split
      · rfl
      · simp [List.filter_append, hb]

theorem mem_of_mem_firstOf {as : List α} {a : α} (h : a ∈ firstOf key as) : a ∈ as := by
  induction as with
  | nil => exact h
  | cons b as ih =>
    rcases List.mem_cons.1 h with rfl | h
    · exact List.mem_cons_self
    · exact List.mem_cons_of_mem b (ih (List.mem_filter.1 h).1)

theorem mem_map_firstOf (as : List α) (k : κ) :
    k ∈ (firstOf key as).map key ↔ k ∈ as.map key := by
  induction as with
  | nil => rfl
  | cons b as ih =>
    by_cases hk : k = key b
    · simp [firstOf_cons, hk]
    · rw [firstOf_cons, List.map_cons, List.map_cons, List.mem_cons, List.mem_cons, ← ih]
      simp only [hk, false_or, List.mem_map, List.mem_filter, decide_eq_true_eq]
      constructor
      · rintro ⟨a, ⟨ha, _⟩, rfl⟩
        exact ⟨a, ha, rfl⟩
      · rintro ⟨a, ha, rfl⟩
        exact ⟨a, ⟨ha, hk⟩, rfl⟩

theorem nodup_map_firstOf (as : List α) : ((firstOf key as).map key).Nodup := by
  induction as with
  | nil => exact List.nodup_nil
  | cons b as ih =>
    rw [firstOf_cons, List.map_cons, List.nodup_cons]
    refine ⟨?_, ih.sublist (List.filter_sublist.map key)⟩
    intro h
    obtain ⟨a, ha, hab⟩ := List.mem_map.1 h
    exact of_decide_eq_true (List.mem_filter.1 ha).2 hab

end

/-! ## staged columns -/

theorem Update.changes_call {k : Kind} (u : Update k) (c : k.Call) :
    (u.call c).changes = (k.stage u.changes c).toOption.getD u.changes := by
  rw [call]
  cases k.stage u.changes c <;> rfl

namespace SchemaChanges

/-- the column that a step adds, if it names one -/
def added? : Update.Edit .schema → Option NewColumn
  | .call (.add column) => if column.name = "" then none else some column
  | _ => none

/-- the name that a step deletes, if it is one -/
def deleted? : Update.Edit .schema → Option String
  | .call (.delete name) => if name = "" then none else some name
  | _ => none

def permits : Update.Edit .schema → Bool
  | .call .allowIncompatible => true
  | _ => false

/-- what the steps stage: of each name the first column that is added, and each name that is deleted
once -/
def ofEdits (es : List (Update.Edit .schema)) : SchemaChanges where
  additions := firstOf (·.name) (es.filterMap added?)
  deletions := firstOf id (es.filterMap deleted?)
  allowIncompatible := es.any permits

theorem ofEdits_snoc (es : List (Update.Edit .schema)) (e : Update.Edit .schema) :
    ofEdits (es ++ [e]) =
      ⟨firstOf (·.name) (es.filterMap added? ++ (added? e).toList),
        firstOf id (es.filterMap deleted? ++ (deleted? e).toList),
        es.any permits || permits e⟩ := by
  cases ha : added? e <;> cases hd : deleted? e <;>
    simp [ofEdits, List.filterMap_append, ha, hd]

/-- recording issues and clearing them stages nothing -/
theorem ofEdits_snoc_idle {e : Update.Edit .schema} (ha : added? e = none)
    (hd : deleted? e = none) (hp : permits e = false) (es : List (Update.Edit .schema)) :
    ofEdits (es ++ [e]) = ofEdits es := by
  rw [ofEdits_snoc, ha, hd, hp]
  simp [ofEdits]

/-- a call that names something is accepted if it is the first one for that name -/
theorem stage_ofEdits (es : List (Update.Edit .schema)) (call : Call) :
    ((ofEdits es).stage call).toOption.getD (ofEdits es) = ofEdits (es ++ [.call call]) := by
  rw [ofEdits_snoc]
  cases call with
  | add column =>
    have hmem : column.name ∈ (ofEdits es).additions.map (·.name) ↔
        column.name ∈ (es.filterMap added?).map (·.name) := mem_map_firstOf _ _ _
    simp only [stage, hmem, added?, deleted?, permits]
    by_cases hempty : column.name = ""
    · simp [hempty, Except.toOption, ofEdits]
    · rw [if_neg hempty, if_neg hempty, Option.toList_some, firstOf_snoc]
      split <;> simp [Except.toOption, ofEdits]
  | delete name =>
    have hmem : name ∈ (ofEdits es).deletions ↔ name ∈ (es.filterMap deleted?).map id := by
      rw [← mem_map_firstOf id (es.filterMap deleted?) name, List.map_id]
      rfl
    simp only [stage, hmem, added?, deleted?, permits]
    by_cases hempty : name = ""
    · simp [hempty, Except.toOption, ofEdits]
    · rw [if_neg hempty, if_neg hempty, Option.toList_some, firstOf_snoc]
      split <;> simp_all [Except.toOption, ofEdits]
  | allowIncompatible => simp [stage, Except.toOption, ofEdits, added?, deleted?, permits]

/-- **The first call for each name counts**, whatever is recorded and cleared in between. -/
theorem changes_edits (es : List (Update.Edit .schema)) :
    ((Update.new .schema).edits es).changes = ofEdits es := by
  -- by the last step, since a call is compared with those before it
  induction es using List.reverseRecOn with
  | nil => rfl
  | append_singleton es e ih =>
    rw [Update.edits_append]
    show (((Update.new .schema).edits es).edit e).changes = _
    cases e with
    | call c =>
      show (Update.call _ c).changes = _
      rw [Update.changes_call, ih]
      exact stage_ofEdits es c
    | record e => exact ih.trans (ofEdits_snoc_idle rfl rfl rfl es).symm
    | extend es' => exact ih.trans (ofEdits_snoc_idle rfl rfl rfl es).symm
    | clear => exact ih.trans (ofEdits_snoc_idle rfl rfl rfl es).symm

section
variable (es : List (Update.Edit .schema))

theorem nodup_additions : ((ofEdits es).additions.map (·.name)).Nodup :=
  nodup_map_firstOf _ _

theorem nodup_deletions : (ofEdits es).deletions.Nodup := by
  have h := nodup_map_firstOf id (es.filterMap deleted?)
  rw [List.map_id] at h
  exact h

theorem name_ne_of_mem_additions {n : NewColumn} (h : n ∈ (ofEdits es).additions) :
    n.name ≠ "" := by
  obtain ⟨e, _, he⟩ := List.mem_filterMap.1 (mem_of_mem_firstOf _ h)
  unfold added? at he
  split at he
  · next column =>
    split at he
    · cases he
    · next hname =>
      cases he
      exact hname
  · cases he

end

end SchemaChanges

end StagedTable
