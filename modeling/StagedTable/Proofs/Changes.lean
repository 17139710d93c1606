import StagedTable.Proofs.Runs

/-!
# Changes and what lands

A change is what a commit asks for: the staged changes of an update, or a metadata record that
replaces everything but the version.  `Change.on` says what a change makes of stored metadata, and
`replay` makes several changes in turn.

* `World.births`    the metadata that a run's creations put under a name;
* `World.landings`  the changes of a table that a run lands, in the order of their commits.  A
                    change lands if the commit that asks for it is told that it succeeded.

Both are read off the answers of the run's actions, not off what is stored.
-/

namespace StagedTable

inductive Change where
  | update (kind : Kind) (changes : kind.Changes)
  | replace (new : Metadata)

namespace Change

/-- what the change makes of metadata, before it is stored -/
def result : Change → Metadata → Option Metadata
  | update k changes, m => (k.applyTo changes m).toOption.map fun out => k.install out m
  | replace new, _ => some new

/-- the change as it is stored: one version on -/
def on (c : Change) (m : Metadata) : Option Metadata :=
  (c.result m).map (·.succeeding m)

theorem on_replace (new m : Metadata) : (replace new).on m = some (new.succeeding m) := rfl

theorem on_update_of_ok {k : Kind} {changes : k.Changes} {m : Metadata} {out : k.Output}
    (h : k.applyTo changes m = .ok out) :
    (update k changes).on m = some ((k.install out m).succeeding m) := by
  rw [on, result, h]
  rfl

theorem on_update_eq_some {k : Kind} {changes : k.Changes} {m m' : Metadata}
    (h : (update k changes).on m = some m') :
    ∃ out, k.applyTo changes m = .ok out ∧ (k.install out m).succeeding m = m' := by
  cases ha : k.applyTo changes m with
  | error why =>
    rw [on, result, ha] at h
    cases h
  | ok out =>
    rw [on_update_of_ok ha] at h
    exact ⟨out, rfl, Option.some.inj h⟩

theorem version_of_on {c : Change} {m m' : Metadata} (h : c.on m = some m') :
    m'.version = m.version + 1 := by
  obtain ⟨new, _, rfl⟩ := Option.map_eq_some_iff.1 h
  rfl

end Change

/-- the changes made in turn, the first of them on `m` -/
def replay (m : Metadata) (cs : List Change) : Option Metadata :=
  cs.foldlM (fun m c => c.on m) m

theorem replay_nil (m : Metadata) : replay m [] = some m := rfl
theorem replay_cons (m : Metadata) (c : Change) (cs : List Change) :
    replay m (c :: cs) = (c.on m).bind fun m => replay m cs := List.foldlM_cons
theorem replay_append (m : Metadata) (cs more : List Change) :
    replay m (cs ++ more) = (replay m cs).bind fun m => replay m more := by
  simp [replay, List.foldlM_append]
theorem replay_snoc (m : Metadata) (cs : List Change) (c : Change) :
    replay m (cs ++ [c]) = (replay m cs).bind c.on := by
  simp [replay, List.foldlM_append]

theorem version_of_replay {m m' : Metadata} {cs : List Change} (h : replay m cs = some m') :
    m'.version = m.version + cs.length := by
  induction cs generalizing m with
  | nil =>
    obtain rfl : m = m' := Option.some.inj h
    rfl
  | cons c cs ih =>
    rw [replay_cons] at h
    obtain ⟨m₁, hm₁, h⟩ := Option.bind_eq_some_iff.1 h
    have hfirst := Change.version_of_on hm₁
    have hrest := ih h
    rw [List.length_cons]
    omega

/-- the change that an action asks for, and the handle that it goes through -/
def Action.request? : Action → Option (HandleId × Change)
  | .commitMetadata id _ new => some (id, .replace new)
  | .commit p => some (p.handle, .update p.kind p.update.changes)
  | _ => none

namespace World

/-- the change of a table that an action lands -/
def landing? (w : World) (i : Nat) (N : String) (a : Action) : Option Change :=
  a.request?.bind fun r =>
    if r.1.backing = .table i N ∧ (w.act a).1.isOk = true then some r.2 else none

/-- what a creation puts under a name -/
def birth? (w : World) (i : Nat) (N : String) : Action → Option Metadata
  | .create j T schema =>
    if j = i ∧ T = N ∧ (w.act (.create j T schema)).1.isOk = true then
      (w.act (.create j T schema)).2.stored? i N
    else none
  | _ => none

def landings (w : World) (i : Nat) (N : String) : List Action → List Change
  | [] => []
  | a :: acts => (w.landing? i N a).toList ++ landings (w.act a).2 i N acts

def births (w : World) (i : Nat) (N : String) : List Action → List Metadata
  | [] => []
  | a :: acts => (w.birth? i N a).toList ++ births (w.act a).2 i N acts

theorem landings_nil (w : World) (i : Nat) (N : String) : w.landings i N [] = [] := rfl
theorem landings_snoc (w : World) (i : Nat) (N : String) (acts : List Action) (a : Action) :
    w.landings i N (acts ++ [a]) =
      w.landings i N acts ++ ((w.after acts).landing? i N a).toList := by
  induction acts generalizing w with
  | nil => exact List.append_nil _
  | cons b acts ih =>
    show _ ++ (w.act b).2.landings i N (acts ++ [a]) = _
    rw [ih, ← List.append_assoc]
    rfl

theorem births_nil (w : World) (i : Nat) (N : String) : w.births i N [] = [] := rfl
theorem births_snoc (w : World) (i : Nat) (N : String) (acts : List Action) (a : Action) :
    w.births i N (acts ++ [a]) = w.births i N acts ++ ((w.after acts).birth? i N a).toList := by
  induction acts generalizing w with
  | nil => exact List.append_nil _
  | cons b acts ih =>
    show _ ++ (w.act b).2.births i N (acts ++ [a]) = _
    rw [ih, ← List.append_assoc]
    rfl

/-! ## reading off one action -/

theorem landing?_of_request {w : World} {i : Nat} {N : String} {a : Action} {id : HandleId}
    {c : Change} (hr : a.request? = some (id, c)) (hb : id.backing = .table i N)
    (hok : (w.act a).1.isOk = true) : w.landing? i N a = some c := by
  rw [landing?, hr]
  exact if_pos ⟨hb, hok⟩

theorem landing?_of_failed {w : World} {i : Nat} {N : String} {a : Action}
    (hok : ∀ id c, a.request? = some (id, c) → id.backing = .table i N →
      (w.act a).1.isOk = false) : w.landing? i N a = none := by
  rw [landing?, Option.bind_eq_none_iff]
  rintro ⟨id, c⟩ hr
  refine if_neg ?_
  rintro ⟨hb, ht⟩
  rw [hok id c hr hb] at ht
  cases ht

theorem birth?_of_request {w : World} {i : Nat} {N : String} {a : Action}
    (hr : a.request?.isSome = true) : w.birth? i N a = none := by
  cases a <;> first | rfl | cases hr

end World

end StagedTable
