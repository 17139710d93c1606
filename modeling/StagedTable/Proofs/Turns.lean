import StagedTable.Proofs.Steps

/-!
# What one action means for one name

* `World.steps_act`  every action of a run is a step, so every world of a run is coherent
                     (`World.coherent_after`);
* `World.Turn`       what an action means for one name of a catalog: nothing, the creation of the
                     table, or a change that lands on what is stored.

`World.turn_act` says that there is nothing else, and later proofs go by its three cases instead of
the definitions of the calls.
-/

namespace StagedTable

namespace World

theorem steps_act {w : World} {a : Action} (hco : w.Coherent) (hf : a.Fits w) :
    w.Steps (w.act a).2 := by
  cases a with
  | addCatalog config =>
    exact .of_handles (.of_eq (w.addCatalog_stored? config)) fun _ => rfl
  | openScript ident script =>
    have hscript : w.Steps (w.addScript script).2 :=
      .of_handles (.of_eq fun _ _ => rfl) fun _ => rfl
    exact hscript.trans_quiet (steps_attach _ _ ident) (attach_stored? _ _ ident)
  | create i table schema => exact steps_create hf table schema
  | load i table => exact steps_load w i table
  | plant i f => exact .of_handles (.of_eq (w.store.stored?_setFault i (some f))) fun _ => rfl
  | refresh id => exact steps_refresh hco hf
  | commitMetadata id base new => exact steps_commitMetadata hco hf base new
  | commit p => exact steps_commit hco hf p.update
  | check p => exact .of_handles (.of_eq fun _ _ => rfl) fun _ => rfl
  | preview p =>
    rw [act]
    split
    · exact .refl w
    · exact .of_handles (.of_eq fun _ _ => rfl) fun _ => rfl
  | close ident total failure =>
    cases failure with
    | none => exact .of_handles (.of_eq fun _ _ => rfl) fun _ => rfl
    | some f => exact .of_handles (.of_eq fun _ _ => rfl) fun _ => rfl

theorem coherent_empty : empty.Coherent := by
  intro id hd h
  cases h

theorem coherent_after {acts : List Action} (h : empty.Legal acts) :
    (empty.after acts).Coherent := by
  induction acts, h using Legal.snoc_induction with
  | nil => exact coherent_empty
  | snoc acts a hl hf ih =>
    rw [after_snoc]
    exact (steps_act ih hf).coherent ih

theorem steps_after {acts : List Action} {a : Action} (h : empty.Legal (acts ++ [a])) :
    (empty.after acts).Steps (empty.after (acts ++ [a])) := by
  obtain ⟨hl, hf⟩ := legal_snoc.1 h
  rw [after_snoc]
  exact steps_act (coherent_after hl) hf

/-! ## one name -/

inductive Turn (w : World) (i : Nat) (N : String) (a : Action) : Prop where
  | kept (hb : w.birth? i N a = none) (hl : w.landing? i N a = none)
      (hs : (w.act a).2.stored? i N = w.stored? i N)
  | created {schema : Schema} {m : Metadata} (hb : w.birth? i N a = some m)
      (hl : w.landing? i N a = none) (hm : (w.store.catalog i).firstMetadata N schema = m)
      (hfree : w.stored? i N = none) (hs : (w.act a).2.stored? i N = some m)
  | landed {c : Change} {cur m : Metadata} (hb : w.birth? i N a = none)
      (hl : w.landing? i N a = some c) (hcur : w.stored? i N = some cur) (hm : c.on cur = some m)
      (hs : (w.act a).2.stored? i N = some m)

/-- an action that asks for a change, by how the call ends that it makes -/
theorem turn_of_ends {w : World} {a : Action} {id : HandleId} {c : Change} {h : Handle}
    {o : Outcome Store} (hr : a.request? = some (id, c)) (ha : w.act a = (o.status, w.settle id o))
    (he : o.Ends c id.backing h w.store) (i : Nat) (N : String) : w.Turn i N a := by
  have hb : w.birth? i N a = none := birth?_of_request (congrArg Option.isSome hr)
  have hstored : (w.act a).2.stored? i N = o.store.stored? i N :=
    congrArg (fun w : World => w.stored? i N) (congrArg Prod.snd ha)
  have hstatus : (w.act a).1 = o.status := congrArg Prod.fst ha
  have hnone : (id.backing = .table i N → o.status.isOk = false) → w.landing? i N a = none := by
    intro hfail
    refine landing?_of_failed fun id' c' hr' hb' => ?_
    obtain rfl : id = id' := congrArg Prod.fst (Option.some.inj (hr.symm.trans hr'))
    rw [hstatus]
    exact hfail hb'
  cases he with
  | kept hno hst =>
    exact .kept hb (hnone fun hid => (hno i N hid).1) (hstored.trans (hst i N))
  | @landed j T cur m hid hcur hm hok hc hst =>
    by_cases hj : i = j ∧ N = T
    · obtain ⟨rfl, rfl⟩ := hj
      refine .landed hb (landing?_of_request hr hid ?_) hcur hm ?_
      · rw [hstatus]
        exact hok
      · rw [hstored, hst, if_pos ⟨rfl, rfl⟩]
    · refine .kept hb (hnone fun hid' => ?_) ?_
      · obtain ⟨rfl, rfl⟩ := Backing.table.inj (hid.symm.trans hid')
        exact absurd ⟨rfl, rfl⟩ hj
      · rw [hstored, hst, if_neg hj]
        rfl

theorem turn_create {w : World} {j : Nat} (hj : j < w.store.catalogs.length) (T : String)
    (schema : Schema) (i : Nat) (N : String) : w.Turn i N (.create j T schema) := by
  have hl : w.landing? i N (.create j T schema) = none := rfl
  cases hc : (w.store.catalog j).create T schema with
  | error why =>
    have hact : w.act (.create j T schema) = (.error why.error, w) := by
      rw [act, create_of_error hc]
      rfl
    refine .kept (if_neg fun h => ?_) hl ?_
    · rw [hact] at h
      cases h.2.2
    · rw [hact]
  | ok c =>
    obtain ⟨hfree, _⟩ := Catalog.create_eq_ok hc
    have hborn : ∀ i N, (w.act (.create j T schema)).2.stored? i N = if i = j ∧ N = T then
        some ((w.store.catalog j).firstMetadata T schema) else w.stored? i N := by
      intro i N
      show (w.create j T schema).2.stored? i N = _
      rw [create_of_ok hj hc, attach_stored?, stored?_born hj]
    have hok : (w.act (.create j T schema)).1 = .ok () := by
      rw [act, create_of_ok hj hc, attach_table (stored?_born_self hj T schema)]
      rfl
    by_cases hij : i = j ∧ N = T
    · obtain ⟨rfl, rfl⟩ := hij
      have hs := (hborn i N).trans (if_pos ⟨rfl, rfl⟩)
      refine .created ?_ hl rfl hfree hs
      rw [birth?, if_pos ⟨rfl, rfl, by rw [hok]; rfl⟩, hs]
    · refine .kept (if_neg fun h => hij ⟨h.1.symm, h.2.1.symm⟩) hl ?_
      rw [hborn, if_neg hij]

/-- **No action means anything else**: it leaves a name alone, creates its table, or lands a change
on what is stored under it. -/
theorem turn_act {w : World} {a : Action} (hco : w.Coherent) (hf : a.Fits w) (i : Nat)
    (N : String) : w.Turn i N a := by
  cases a with
  | addCatalog config => exact .kept rfl rfl (w.addCatalog_stored? config i N)
  | openScript ident script => exact .kept rfl rfl (attach_stored? _ _ ident i N)
  | create j table schema => exact turn_create hf table schema i N
  | load j table => exact .kept rfl rfl (w.load_stored? j table i N)
  | plant j f => exact .kept rfl rfl (w.store.stored?_setFault j (some f) i N)
  | refresh id => exact .kept rfl rfl ((w.handle id).refresh_stored? id.backing w.store i N)
  | commitMetadata id base new =>
    have he := Handle.commitMetadata_ends_replace (hco id _ (handle?_of_open hf)) base new
    exact turn_of_ends rfl rfl he i N
  | commit p =>
    have he := p.update.send_ends (hco p.handle _ (handle?_of_open hf))
    exact turn_of_ends rfl rfl he i N
  | check p => exact .kept rfl rfl rfl
  | preview p =>
    refine .kept rfl rfl ?_
    rw [act]
    split <;> rfl
  | close ident total failure => cases failure <;> exact .kept rfl rfl rfl

/-- an action makes of what is stored what the change makes of it that it lands, if any -/
theorem replay_act {w : World} {a : Action} (hco : w.Coherent) (hf : a.Fits w) {i : Nat}
    {N : String} {cur : Metadata} (hcur : w.stored? i N = some cur) :
    ∃ m, (w.act a).2.stored? i N = some m ∧ replay cur (w.landing? i N a).toList = some m := by
  cases turn_act hco hf i N with
  | kept _ hl hs =>
    rw [hl]
    exact ⟨cur, hs.trans hcur, rfl⟩
  | created _ _ _ hfree _ => cases hfree.symm.trans hcur
  | @landed c cur' m _ hl hcur' hm hs =>
    obtain rfl : cur = cur' := Option.some.inj (hcur.symm.trans hcur')
    rw [hl]
    exact ⟨m, hs, (replay_snoc cur [] c).trans hm⟩

end World

end StagedTable
