import Mathlib.Data.List.Perm.Basic
import StagedTable.Proofs.FreshHandles
import StagedTable.Proofs.Parts

/-!
# Independent updates commute

Updates are independent if they write disjoint parts of the metadata.  Committed through a fresh
handle, each of them lands or fails its own checks, and either way it looks at no part that another
one has written.  So the order of the commits makes no difference.

* `Update.next_alike`               what an update comes to depends on the parts that it writes;
* `Pending.next_comm`               independent updates take what is stored to the same metadata in
                                    either order;
* `World.commitEach`                commits in a row, each with its answer;
* `World.independent_commits_commute`  the answers are those that the updates would get on their own,
                                    and every order of the commits leads to the same metadata.

Two updates that are independent of all others but equal to one another may stand in the list, if
they write nothing.  They commute as everything commutes with itself.
-/

namespace StagedTable

/-! ## one update -/

namespace Update

variable {k : Kind}

theorem next_same (u : Update k) (m : Metadata) {part : Part} (hp : part ∉ k.writes u.changes) :
    part.Same (u.next m) m := by
  cases h : u.apply m with
  | error why => rw [next_of_error h]; exact .refl part m
  | ok out =>
    rw [next_of_ok h]
    exact (part.same_succeeding _ m).trans (Kind.same_of_not_mem_writes (applyTo_of_apply h) hp)

/-- the update fares alike where the parts are the same that it writes -/
theorem next_alike (u : Update k) {m m' : Metadata}
    (h : ∀ part ∈ k.writes u.changes, part.Same m m') :
    u.verdict m = u.verdict m' ∧
      ∀ part ∈ k.writes u.changes, part.Same (u.next m) (u.next m') := by
  by_cases hissues : u.issues.errors = []
  · have happly := u.apply_of_no_issues hissues
    cases Kind.applied_alike h with
    | refused he he' =>
      have ha := (happly m).trans he
      have ha' := (happly m').trans he'
      rw [verdict_of_error ha, verdict_of_error ha', next_of_error ha, next_of_error ha']
      exact ⟨rfl, h⟩
    | applied ho ho' hs =>
      have ha := (happly m).trans ho
      have ha' := (happly m').trans ho'
      rw [verdict_of_ok ha, verdict_of_ok ha', next_of_ok ha, next_of_ok ha']
      refine ⟨rfl, fun part hpart => (part.same_succeeding _ m).trans ?_⟩
      exact (hs part hpart).trans (part.same_succeeding _ m').symm
  · have ha := u.apply_of_issues hissues m
    have ha' := u.apply_of_issues hissues m'
    rw [verdict_of_error ha, verdict_of_error ha', next_of_error ha, next_of_error ha']
    exact ⟨rfl, h⟩

end Update

/-! ## independent updates -/

namespace Pending

def writes (p : Pending) : List Part := p.kind.writes p.update.changes

/-- no part is written by both -/
def Independent (p q : Pending) : Prop := ∀ part ∈ p.writes, part ∉ q.writes

instance (p q : Pending) : Decidable (p.Independent q) :=
  inferInstanceAs (Decidable (∀ part ∈ p.writes, part ∉ q.writes))

theorem Independent.symm {p q : Pending} (h : p.Independent q) : q.Independent p :=
  fun part hq hp => h part hp hq

section
variable {p q : Pending} (h : p.Independent q) (m : Metadata)
include h

/-- an update does not see that an independent one has been committed before it -/
theorem next_next_alike :
    q.update.verdict (p.update.next m) = q.update.verdict m ∧
      ∀ part ∈ q.writes, part.Same (q.update.next (p.update.next m)) (q.update.next m) :=
  q.update.next_alike fun _ hq => p.update.next_same m (h.symm _ hq)

theorem next_comm : q.update.next (p.update.next m) = p.update.next (q.update.next m) := by
  obtain ⟨hq, hqs⟩ := next_next_alike h m
  obtain ⟨hp, hps⟩ := next_next_alike h.symm m
  refine Metadata.ext_of_same ?_ ?_ fun part => ?_
  · rw [Update.version_next, Update.version_next, Update.version_next, Update.version_next, hq, hp]
    omega
  · rw [Update.formatVersion_next, Update.formatVersion_next, Update.formatVersion_next,
      Update.formatVersion_next]
  · -- the part was written by one of the two, or by neither
    by_cases hqw : part ∈ q.writes
    · have hright := p.update.next_same (q.update.next m) (h.symm part hqw)
      exact (hqs part hqw).trans hright.symm
    · have hleft := q.update.next_same (p.update.next m) hqw
      by_cases hpw : part ∈ p.writes
      · exact hleft.trans (hps part hpw).symm
      · have hright := p.update.next_same (q.update.next m) hpw
        exact (hleft.trans (p.update.next_same m hpw)).trans
          (hright.trans (q.update.next_same m hqw)).symm

end

/-- what is stored after all of them, committed in order -/
def nexts (ps : List Pending) (m : Metadata) : Metadata :=
  ps.foldl (fun m p => p.update.next m) m

theorem nexts_cons (p : Pending) (ps : List Pending) (m : Metadata) :
    nexts (p :: ps) m = nexts ps (p.update.next m) := rfl

theorem nexts_perm {ps qs : List Pending} (hind : ps.Pairwise Independent) (hperm : ps.Perm qs)
    (m : Metadata) : nexts ps m = nexts qs m := by
  induction hperm generalizing m with
  | nil => rfl
  | cons p _ ih => exact ih (List.pairwise_cons.1 hind).2 (p.update.next m)
  | swap p q ps =>
    have hqp : q.Independent p := (List.pairwise_cons.1 hind).1 p List.mem_cons_self
    show nexts ps (p.update.next (q.update.next m)) = nexts ps (q.update.next (p.update.next m))
    rw [next_comm hqp]
  | trans hperm _ ih ih' =>
    exact (ih hind m).trans (ih' ((hperm.pairwise_iff Independent.symm).1 hind) m)

/-- the version goes up by one for each update that lands -/
theorem version_nexts {ps : List Pending} (hind : ps.Pairwise Independent) (m : Metadata) :
    (nexts ps m).version = m.version + ps.countP fun p => (p.update.verdict m).isOk := by
  induction ps generalizing m with
  | nil => rfl
  | cons p ps ih =>
    obtain ⟨hfirst, hlater⟩ := List.pairwise_cons.1 hind
    have hrest : ps.countP (fun q => (q.update.verdict (p.update.next m)).isOk) =
        ps.countP fun q => (q.update.verdict m).isOk :=
      List.countP_congr fun q hq => by rw [(next_next_alike (hfirst q hq) m).1]
    rw [nexts_cons, ih hlater, hrest, Update.version_next, List.countP_cons]
    omega

end Pending

/-! ## commits in a row -/

namespace World

/-- the answer to the commit of an update: the update afterwards, and the status -/
def answer (w : World) (p : Pending) : Pending × Status := ((p.commit w).1, (p.commit w).2.1)

/-- commits the updates one after the other, whether they fail or not -/
def commitEach (w : World) : List Pending → List (Pending × Status) × World
  | [] => ([], w)
  | p :: ps =>
    let rest := ((p.commit w).2.2).commitEach ps
    (w.answer p :: rest.1, rest.2)

section
variable {w : World} {i n : Nat} {N : String} {hd : Handle}

theorem answer_of_fresh (hfresh : w.Fresh i N n hd) {p : Pending}
    (hp : p.handle = ⟨.table i N, n⟩) :
    w.answer p = ({ p with update := p.update.settled (p.update.verdict hd.cache) },
      p.update.verdict hd.cache) ∧
    (p.commit w).2.2.Fresh i N n { hd with cache := p.update.next hd.cache } ∧
    w.Moves i N n (p.commit w).2.2 := by
  obtain ⟨w', hcommit, hfresh', hmoves⟩ := commit_of_fresh hfresh p.update
  rw [answer, Pending.commit, hp, hcommit]
  exact ⟨rfl, hfresh', hmoves⟩

/-- independent updates that are committed in a row get the answers that each would get alone -/
theorem commitEach_of_fresh (hfresh : w.Fresh i N n hd) {ps : List Pending}
    (hown : ∀ p ∈ ps, p.handle = ⟨.table i N, n⟩) (hind : ps.Pairwise Pending.Independent) :
    (w.commitEach ps).1 = ps.map w.answer ∧
    (w.commitEach ps).2.Fresh i N n { hd with cache := Pending.nexts ps hd.cache } ∧
    w.Moves i N n (w.commitEach ps).2 := by
  induction ps generalizing w hd with
  | nil => exact ⟨rfl, hfresh, .refl w i N n⟩
  | cons p ps ih =>
    have hps : ∀ q ∈ ps, q.handle = ⟨.table i N, n⟩ := fun q hq => hown q (List.mem_cons_of_mem p hq)
    obtain ⟨hfirst, hlater⟩ := List.pairwise_cons.1 hind
    obtain ⟨_, hfresh₁, hmoves₁⟩ := answer_of_fresh hfresh (hown p List.mem_cons_self)
    obtain ⟨hanswers, hfresh', hmoves⟩ := ih hfresh₁ hps hlater
    refine ⟨?_, hfresh', hmoves₁.trans hmoves⟩
    show w.answer p :: ((p.commit w).2.2.commitEach ps).1 = w.answer p :: ps.map w.answer
    rw [hanswers]
    refine congrArg _ (List.map_congr_left fun q hq => ?_)
    rw [(answer_of_fresh hfresh₁ (hps q hq)).1, (answer_of_fresh hfresh (hps q hq)).1,
      (Pending.next_next_alike (hfirst q hq) hd.cache).1]

/-- **Independent updates commute.**  Let pairwise independent updates be committed one after the
other through a handle that is fresh: its cache is what is stored, and no fault is planted.  Then,
in every order, each of them gets the answer that it would get if it were the only one, and what is
stored and cached in the end does not depend on the order. -/
theorem independent_commits_commute (hfresh : w.Fresh i N n hd) {ps qs : List Pending}
    (hown : ∀ p ∈ ps, p.handle = ⟨.table i N, n⟩) (hind : ps.Pairwise Pending.Independent)
    (hperm : ps.Perm qs) :
    let v := (w.commitEach ps).2
    let v' := (w.commitEach qs).2
    (w.commitEach ps).1 = ps.map w.answer ∧ (w.commitEach qs).1 = qs.map w.answer ∧
    (∃ m, v.stored? i N = some m ∧ v'.stored? i N = some m ∧
      m.version = hd.cache.version + (ps.map w.answer).countP (·.2.isOk)) ∧
    v.SameTables v' ∧ v.SameCaches v' := by
  intro v v'
  obtain ⟨hanswers, hv, hmoves⟩ := commitEach_of_fresh hfresh hown hind
  obtain ⟨hanswers', hv', hmoves'⟩ := commitEach_of_fresh hfresh
    (fun q hq => hown q (hperm.mem_iff.2 hq)) ((hperm.pairwise_iff Pending.Independent.symm).1 hind)
  rw [← Pending.nexts_perm hind hperm] at hv'
  refine ⟨hanswers, hanswers', ⟨_, hv.current, hv'.current, ?_⟩, fun j T => ?_, fun id => ?_⟩
  · show (Pending.nexts ps hd.cache).version = _
    rw [Pending.version_nexts hind, List.countP_map]
    refine congrArg _ (List.countP_congr fun p hp => ?_)
    show _ ↔ (w.answer p).2.isOk = true
    rw [(answer_of_fresh hfresh (hown p hp)).1]
  · by_cases hj : j = i ∧ T = N
    · obtain ⟨rfl, rfl⟩ := hj
      exact hv'.current.trans hv.current.symm
    · exact (hmoves'.tables j T hj).trans (hmoves.tables j T hj).symm
  · by_cases hid : id = ⟨.table i N, n⟩
    · rw [hid]
      exact hv'.isOpen.trans hv.isOpen.symm
    · exact (hmoves'.handles id hid).trans (hmoves.handles id hid).symm

end

/-- one update of each kind, of which one deletes a column that is not there -/
def medley : List Pending :=
  [⟨orders 0, .properties, (Update.new .properties).call (.set "owner" "a")⟩,
    ⟨orders 0, .schema, (Update.new .schema).call (.delete "gone")⟩,
    ⟨orders 0, .location, moveTo "a://left"⟩,
    ⟨orders 0, .snapshot, (Update.new .snapshot).edits [.call (.name "first"), .call (.id 7)]⟩]

theorem independent_commits_commute_medley :
    let w := empty.after openOrders
    let v := (w.commitEach medley).2
    let v' := (w.commitEach medley.reverse).2
    (w.commitEach medley).1.map (·.2.isOk) = [true, false, true, true] ∧
      (w.commitEach medley.reverse).1 = medley.reverse.map w.answer ∧
      ∃ m, v.stored? 0 "orders" = some m ∧ v'.stored? 0 "orders" = some m ∧ m.version = 3 := by
  intro w v v'
  have ho : w.Open (orders 0) := by decide +kernel
  have hfresh : w.Fresh 0 "orders" 0 (w.handle (orders 0)) :=
    ⟨by decide +kernel, handle?_of_open ho, by decide +kernel⟩
  have hown : ∀ p ∈ medley, p.handle = orders 0 := by decide +kernel
  have hind : medley.Pairwise Pending.Independent := by decide +kernel
  obtain ⟨hanswers, hanswers', ⟨m, hm, hm', hv⟩, _⟩ :=
    independent_commits_commute hfresh hown hind (List.reverse_perm medley).symm
  have hoks : (medley.map w.answer).map (·.2.isOk) = [true, false, true, true] := by decide +kernel
  have hcount : (medley.map w.answer).countP (·.2.isOk) = 3 := by decide +kernel
  have hzero : (w.handle (orders 0)).cache.version = 0 := by decide +kernel
  refine ⟨(congrArg _ hanswers).trans hoks, hanswers', m, hm, hm', ?_⟩
  rw [hv, hcount, hzero]

end World

end StagedTable
