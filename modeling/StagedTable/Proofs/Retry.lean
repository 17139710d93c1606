import StagedTable.Proofs.FreshHandles

/-!
# Trying again

An update outlives its commits.  In between it can be edited further, and anything else can happen,
through its own handle and through others.  A commit that fails leaves no trace in the update but
its state, and none in what is stored.  So to refresh the handle and commit once more is as good as
to begin anew: to load the table, to make the same calls on a new update, and to commit that one.

* `Moment`                        what can happen to an update and around it;
* `Life`                          the update and the world, as such moments pass;
* `Life.staged_moments`           all that the moments leave in an update is what its edits stage;
* `Life.replay_moments`           attempts that fail leave what is stored to the others;
* `World.retry_after_refresh`     the retry and the new update end alike, and the change has then
                                  landed once, or not at all.
-/

namespace StagedTable

/-! ## updates that have staged the same -/

namespace Update

variable {k : Kind} {u v : Update k}

/-- all of an update but where it stands -/
def staged (u : Update k) : k.Changes × Issues := (u.changes, u.issues)

theorem eq_of_staged (h : u.staged = v.staged) : { u with state := v.state } = v := by
  obtain ⟨hchanges, hissues⟩ := Prod.mk.inj h
  rw [hchanges, hissues]

theorem staged_edit (h : u.staged = v.staged) (e : Edit k) :
    (u.edit e).staged = (v.edit e).staged := by
  rw [← eq_of_staged h]
  cases e with
  | call c =>
    show (u.call c).staged = (call { u with state := v.state } c).staged
    cases hs : k.stage u.changes c with
    | ok changes => simp [call, hs, staged]
    | error why => simp [call, hs, staged]
  | record e => rfl
  | extend es => rfl
  | clear => rfl

theorem staged_edits (h : u.staged = v.staged) (es : List (Edit k)) :
    (u.edits es).staged = (v.edits es).staged := by
  induction es generalizing u v with
  | nil => exact h
  | cons e es ih => exact ih (staged_edit h e)

theorem settled_of_staged (h : u.staged = v.staged) (st : Status) : u.settled st = v.settled st := by
  rw [← eq_of_staged h]
  rfl

theorem verdict_of_staged (h : u.staged = v.staged) (m : Metadata) : u.verdict m = v.verdict m := by
  rw [← eq_of_staged h]
  rfl

theorem next_of_staged (h : u.staged = v.staged) (m : Metadata) : u.next m = v.next m := by
  rw [← eq_of_staged h]
  rfl

end Update

/-! ## the life of an update -/

inductive Moment (k : Kind) where
  | edit (e : Update.Edit k)
  /-- a commit of the update -/
  | attempt
  /-- anything else, through any handle -/
  | other (a : Action)

namespace Moment
variable {k : Kind}

def Fits (w : World) : Moment k → Prop
  | other a => a.Fits w
  | _ => True

instance (w : World) : (m : Moment k) → Decidable (m.Fits w)
  | other a => inferInstanceAs (Decidable (a.Fits w))
  | edit _ | attempt => inferInstanceAs (Decidable True)

def edits : Moment k → List (Update.Edit k)
  | edit e => [e]
  | _ => []

/-- the change that lands under a name without the update -/
def landing? (w : World) (i : Nat) (N : String) : Moment k → Option Change
  | other a => w.landing? i N a
  | _ => none

end Moment

/-- an update, and the world around it -/
structure Life (k : Kind) where
  update : Update k
  world : World

namespace Life
variable {k : Kind}

/-- an update that has just been made -/
def start (k : Kind) (w : World) : Life k := ⟨.new k, w⟩

/-- one moment in the life of an update on a handle -/
def moment (id : HandleId) (l : Life k) : Moment k → Life k
  | .edit e => { l with update := l.update.edit e }
  | .attempt => ⟨(l.world.commit id l.update).1, (l.world.commit id l.update).2.2⟩
  | .other a => { l with world := (l.world.act a).2 }

def moments (id : HandleId) (l : Life k) (ms : List (Moment k)) : Life k :=
  ms.foldl (moment id) l

/-- the attempt fails, if it is one -/
def Fails (id : HandleId) (l : Life k) : Moment k → Prop
  | .attempt => (l.world.commit id l.update).2.1.isOk = false
  | _ => True

instance (id : HandleId) (l : Life k) : (m : Moment k) → Decidable (l.Fails id m)
  | .attempt => inferInstanceAs (Decidable (_ = false))
  | .edit _ | .other _ => inferInstanceAs (Decidable True)

def Legal (id : HandleId) (l : Life k) : List (Moment k) → Prop
  | [] => True
  | m :: ms => m.Fits l.world ∧ (l.moment id m).Legal id ms

/-- all attempts fail -/
def Failing (id : HandleId) (l : Life k) : List (Moment k) → Prop
  | [] => True
  | m :: ms => l.Fails id m ∧ (l.moment id m).Failing id ms

instance decidableLegal (id : HandleId) (l : Life k) (ms : List (Moment k)) :
    Decidable (l.Legal id ms) :=
  match ms with
  | [] => inferInstanceAs (Decidable True)
  | m :: ms =>
    haveI := decidableLegal id (l.moment id m) ms
    inferInstanceAs (Decidable (_ ∧ _))

instance decidableFailing (id : HandleId) (l : Life k) (ms : List (Moment k)) :
    Decidable (l.Failing id ms) :=
  match ms with
  | [] => inferInstanceAs (Decidable True)
  | m :: ms =>
    haveI := decidableFailing id (l.moment id m) ms
    inferInstanceAs (Decidable (_ ∧ _))

/-- the changes that others land under a name -/
def others (id : HandleId) (i : Nat) (N : String) (l : Life k) : List (Moment k) → List Change
  | [] => []
  | m :: ms => (m.landing? l.world i N).toList ++ (l.moment id m).others id i N ms

theorem staged_moments (id : HandleId) (l : Life k) (ms : List (Moment k)) :
    (l.moments id ms).update.staged = (l.update.edits (ms.flatMap Moment.edits)).staged := by
  induction ms generalizing l with
  | nil => rfl
  | cons m ms ih =>
    have hm : (l.moment id m).update.staged = (l.update.edits m.edits).staged := by
      cases m <;> rfl
    rw [List.flatMap_cons, Update.edits_append]
    exact (ih (l.moment id m)).trans (Update.staged_edits hm _)

section
variable {i n : Nat} {N : String} {l : Life k} (hco : l.world.Coherent)
  (ho : l.world.Open ⟨.table i N, n⟩)
include hco ho

theorem steps_moment {m : Moment k} (hm : m.Fits l.world) :
    l.world.Steps (l.moment ⟨.table i N, n⟩ m).world := by
  cases m with
  | edit e => exact .refl l.world
  | attempt => exact World.steps_commit hco ho l.update
  | other a => exact World.steps_act hco hm

theorem coherent_moments {ms : List (Moment k)} (hl : l.Legal ⟨.table i N, n⟩ ms) :
    (l.moments ⟨.table i N, n⟩ ms).world.Coherent ∧
      (l.moments ⟨.table i N, n⟩ ms).world.Open ⟨.table i N, n⟩ := by
  induction ms generalizing l with
  | nil => exact ⟨hco, ho⟩
  | cons m ms ih =>
    have hstep := steps_moment hco ho hl.1
    exact ih (hstep.coherent hco) (hstep.stays_open ho) hl.2

theorem replay_moment {m : Moment k} (hm : m.Fits l.world) (hfail : l.Fails ⟨.table i N, n⟩ m)
    {cur : Metadata} (hcur : l.world.stored? i N = some cur) :
    ∃ new, (l.moment ⟨.table i N, n⟩ m).world.stored? i N = some new ∧
      replay cur (m.landing? l.world i N).toList = some new := by
  cases m with
  | edit e => exact ⟨cur, hcur, rfl⟩
  | attempt =>
    have hnone : l.world.landing? i N (.commit ⟨⟨.table i N, n⟩, k, l.update⟩) = none :=
      World.landing?_of_failed fun _ _ _ _ => hfail
    have hturn := World.replay_act (a := .commit ⟨⟨.table i N, n⟩, k, l.update⟩) hco ho hcur
    rw [hnone] at hturn
    exact hturn
  | other a => exact World.replay_act hco hm hcur

/-- what is stored in the end is what the others have made of it -/
theorem replay_moments {ms : List (Moment k)} (hl : l.Legal ⟨.table i N, n⟩ ms)
    (hfail : l.Failing ⟨.table i N, n⟩ ms) {cur : Metadata}
    (hcur : l.world.stored? i N = some cur) :
    ∃ m, (l.moments ⟨.table i N, n⟩ ms).world.stored? i N = some m ∧
      replay cur (l.others ⟨.table i N, n⟩ i N ms) = some m := by
  induction ms generalizing l cur with
  | nil => exact ⟨cur, hcur, rfl⟩
  | cons m ms ih =>
    obtain ⟨new, hnew, hreplay⟩ := replay_moment hco ho hl.1 hfail.1 hcur
    have hstep := steps_moment hco ho hl.1
    obtain ⟨m', hm', hreplay'⟩ :=
      ih (hstep.coherent hco) (hstep.stays_open ho) hl.2 hfail.2 hnew
    refine ⟨m', hm', ?_⟩
    rw [others, replay_append, hreplay]
    exact hreplay'

end

end Life

namespace World

/-- **A retry after a refresh is as good as a new beginning.**  Let an update be staged on a handle
of a table in any world of a run, and let it be edited and committed, and anything else happen,
any number of times in any order.  Once no fault is planted, refreshing the handle and committing
the update has the same status, and leaves the same update and the same tables, as loading the table
and committing a new update of that kind, prepared by the same edits.  The retry succeeds or fails
its own checks.  If all commits before have failed, whether they were refused, their answer was
lost, or they never were sent, what is stored in the end is what others have landed, and then the
update's change, once, if the retry succeeds. -/
theorem retry_after_refresh {acts : List Action} (h : empty.Legal acts) {k : Kind} {i n : Nat}
    {N : String} (ho : (empty.after acts).Open ⟨.table i N, n⟩) {ms : List (Moment k)}
    (hl : (Life.start k (empty.after acts)).Legal ⟨.table i N, n⟩ ms)
    (hf : (((Life.start k (empty.after acts)).moments ⟨.table i N, n⟩ ms).world.store.catalog
      i).fault = none) :
    let start := Life.start k (empty.after acts)
    let u := (start.moments ⟨.table i N, n⟩ ms).update
    let w := (start.moments ⟨.table i N, n⟩ ms).world
    ∃ w₁ id w₂, w.refresh ⟨.table i N, n⟩ = (.ok (), w₁) ∧ w.load i N = (.ok id, w₂) ∧
      let retry := w₁.commit ⟨.table i N, n⟩ u
      let anew := w₂.commit id ((Update.new k).edits (ms.flatMap Moment.edits))
      retry.2.1 = anew.2.1 ∧ retry.1 = anew.1 ∧ anew.2.2.SameTables retry.2.2 ∧
      (retry.2.1 = .ok () ∨ ∃ e, retry.2.1 = .error e ∧ e.kind = .validationFailed) ∧
      (start.Failing ⟨.table i N, n⟩ ms → ∃ first last, start.world.stored? i N = some first ∧
        retry.2.2.stored? i N = some last ∧
        replay first (start.others ⟨.table i N, n⟩ i N ms ++
          if retry.2.1.isOk then [.update k u.changes] else []) = some last) := by
  intro start u w
  have hco : start.world.Coherent := coherent_after h
  obtain ⟨hco', ho'⟩ := Life.coherent_moments hco ho hl
  obtain ⟨cur, hcur, _⟩ := hco' _ _ (handle?_of_open ho') i N rfl
  obtain ⟨w₁, hrefresh, hfresh₁, htables₁⟩ := fresh_of_refresh hf hcur (handle?_of_open ho')
  obtain ⟨n', w₂, hload, hfresh₂, htables₂⟩ := fresh_of_load hf hcur
  refine ⟨w₁, _, w₂, hrefresh, hload, ?_⟩
  intro retry anew
  let v := (Update.new k).edits (ms.flatMap Moment.edits)
  have hstaged : u.staged = v.staged := start.staged_moments ⟨.table i N, n⟩ ms
  obtain ⟨w₁', hcommit₁, hfresh₁', hmoves₁⟩ := commit_of_fresh hfresh₁ u
  obtain ⟨w₂', hcommit₂, hfresh₂', hmoves₂⟩ := commit_of_fresh hfresh₂ v
  -- both commits meet the same stored metadata with the same staged changes
  have hretry : retry = (u.settled (u.verdict cur), u.verdict cur, w₁') := hcommit₁
  have hanew : anew = (u.settled (u.verdict cur), u.verdict cur, w₂') := by
    rw [Update.settled_of_staged hstaged, Update.verdict_of_staged hstaged cur]
    exact hcommit₂
  have hcurrent : w₂'.stored? i N = some (u.next cur) := by
    rw [Update.next_of_staged hstaged cur]
    exact hfresh₂'.current
  rw [hretry, hanew]
  refine ⟨rfl, rfl, fun j T => ?_, u.verdict_cases cur, fun hfail => ?_⟩
  · by_cases hj : j = i ∧ T = N
    · obtain ⟨rfl, rfl⟩ := hj
      exact hfresh₁'.current.trans hcurrent.symm
    · calc w₁'.stored? j T = w₁.stored? j T := hmoves₁.tables j T hj
        _ = w.stored? j T := htables₁ j T
        _ = w₂.stored? j T := (htables₂ j T).symm
        _ = w₂'.stored? j T := (hmoves₂.tables j T hj).symm
  · obtain ⟨first, hfirst, _⟩ := hco _ _ (handle?_of_open ho) i N rfl
    obtain ⟨cur', hcur', hreplay⟩ := Life.replay_moments hco ho hl hfail hfirst
    obtain rfl : cur = cur' := Option.some.inj (hcur.symm.trans hcur')
    refine ⟨first, u.next cur, hfirst, hfresh₁'.current, ?_⟩
    rw [replay_append, hreplay]
    exact u.replay_next cur

/-- The answer to the first attempt is lost, and the second one is late.  The third one is not sent,
as the cache does not have the column that it deletes. -/
def latecomer : List (Moment .schema) :=
  let note := (Update.new .schema).call (.add ⟨"note", .string, false⟩)
  [.edit (.call (.add ⟨"total", .long, false⟩)), .other (.plant 0 .loseResponse), .attempt,
    .other (.load 0 "orders"), .other (.commit ⟨orders 1, .schema, note⟩), .attempt,
    .edit (.call (.delete "note")), .attempt]

theorem retry_after_refresh_latecomer :
    let l := (Life.start .schema (empty.after openOrders)).moments (orders 0) latecomer
    let anew := (Update.new .schema).edits
      [.call (.add ⟨"total", .long, false⟩), .call (.delete "note")]
    ∃ w₁ id w₂, l.world.refresh (orders 0) = (.ok (), w₁) ∧
      l.world.load 0 "orders" = (.ok id, w₂) ∧
      (w₁.commit (orders 0) l.update).1 = (w₂.commit id anew).1 ∧
      (w₁.commit (orders 0) l.update).2.1 = .ok () ∧
      ∃ m, (w₁.commit (orders 0) l.update).2.2.stored? 0 "orders" = some m ∧ m.version = 2 := by
  intro l anew
  have h : empty.Legal openOrders := by decide +kernel
  have ho : (empty.after openOrders).Open (orders 0) := by decide +kernel
  have hl : (Life.start .schema (empty.after openOrders)).Legal (orders 0) latecomer := by
    decide +kernel
  have hf : (l.world.store.catalog 0).fault = none := by decide +kernel
  obtain ⟨w₁, id, w₂, hrefresh, hload, _, hupdate, _, _, honce⟩ := retry_after_refresh h ho hl hf
  have hfail : (Life.start .schema (empty.after openOrders)).Failing (orders 0) latecomer := by
    decide +kernel
  obtain ⟨first, last, hfirst, hlast, hreplay⟩ := honce hfail
  obtain rfl : (l.world.refresh (orders 0)).2 = w₁ := congrArg Prod.snd hrefresh
  have hok : ((l.world.refresh (orders 0)).2.commit (orders 0) l.update).2.1 = .ok () := by
    decide +kernel
  -- one change of the other handle, and the update's own
  have htwo : ((Life.start .schema (empty.after openOrders)).others (orders 0) 0 "orders" latecomer
      ++ if ((l.world.refresh (orders 0)).2.commit (orders 0) l.update).2.1.isOk then
        [Change.update .schema l.update.changes] else []).length = 2 := by decide +kernel
  have hzero : ((empty.after openOrders).stored? 0 "orders").map (·.version) = some 0 := by
    decide +kernel
  have hfirst' := (congrArg (Option.map Metadata.version) hfirst).symm.trans hzero
  have hlast' : last.version = first.version + 2 :=
    (version_of_replay hreplay).trans (congrArg (first.version + ·) htwo)
  rw [Option.some.inj hfirst'] at hlast'
  exact ⟨_, id, w₂, hrefresh, hload, hupdate, hok, last, hlast, hlast'⟩

end World

end StagedTable
