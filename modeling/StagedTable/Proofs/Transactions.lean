import StagedTable.Proofs.Turns

/-!
# Transactions as runs

A transaction commits its members one after the other, so what it does to a world is a run of
commits, with the closing event at its end (`World.commitTransaction_eq`).

* `Transaction.attempts`  the commits that are made: those of the members up to the first that
                          fails, itself included.  Stand-ins commit nothing;
* `Transaction.actions`   these, and the closing event.

So what holds of all runs holds before, within and after every transaction.
-/

namespace StagedTable

namespace Transaction

def attempts (w : World) : List Member → List Action
  | [] => []
  | .update p :: ms =>
    match (p.commit w).2 with
    | (.ok (), w) => .commit p :: attempts w ms
    | (.error _, _) => [.commit p]
  | .fixed (.ok ()) :: ms => attempts w ms
  | .fixed (.error _) :: _ => []

def actions (w : World) (t : Transaction) : List Action :=
  attempts w t.contents ++
    [.close (w.handle t.handle).ident t.contents.length (run Member.commit 1 t.contents w).1]

theorem attempts_nil (w : World) : attempts w [] = [] := rfl
theorem attempts_update_of_ok {w w' : World} {p : Pending} (ms : List Member)
    (h : (p.commit w).2 = (.ok (), w')) :
    attempts w (.update p :: ms) = .commit p :: attempts w' ms := by
  rw [attempts, h]

theorem attempts_update_of_error {w w' : World} {p : Pending} {e : Error} (ms : List Member)
    (h : (p.commit w).2 = (.error e, w')) : attempts w (.update p :: ms) = [.commit p] := by
  rw [attempts, h]

/-- the members' run ends in the world that the attempts lead to -/
theorem run_eq_after (ms : List Member) (position : Nat) (w : World) :
    (run Member.commit position ms w).2 = w.after (attempts w ms) := by
  induction ms generalizing position w with
  | nil => rw [run_nil, attempts_nil, World.after_nil]
  | cons m ms ih =>
    cases m with
    | update p =>
      cases hc : (p.commit w).2 with
      | mk status w' =>
        have hw : (w.act (.commit p)).2 = w' := congrArg Prod.snd hc
        cases status with
        | ok _ =>
          rw [run_cons_of_ok position ms hc, ih, attempts_update_of_ok ms hc, World.after_cons, hw]
        | error e =>
          rw [run_cons_of_error position ms hc, attempts_update_of_error ms hc, World.after_cons,
            hw, World.after_nil]
    | fixed status =>
      cases status with
      | ok _ => exact ih (position + 1) w
      | error e => rfl

theorem attempts_legal {w : World} (hco : w.Coherent) {ms : List Member}
    (ho : ∀ p, .update p ∈ ms → w.Open p.handle) : w.Legal (attempts w ms) := by
  induction ms generalizing w with
  | nil => trivial
  | cons m ms ih =>
    have htail : ∀ p, .update p ∈ ms → w.Open p.handle := fun p hp => ho p (.tail m hp)
    cases m with
    | update p =>
      have hp : w.Open p.handle := ho p (.head ms)
      cases hc : (p.commit w).2 with
      | mk status w' =>
        cases status with
        | ok _ =>
          have hw : (w.act (.commit p)).2 = w' := congrArg Prod.snd hc
          have hstep : w.Steps (w.act (.commit p)).2 := World.steps_act hco hp
          rw [hw] at hstep
          rw [attempts_update_of_ok ms hc]
          refine ⟨hp, ?_⟩
          rw [hw]
          exact ih (hstep.coherent hco) fun q hq => hstep.stays_open (htail q hq)
        | error e =>
          rw [attempts_update_of_error ms hc]
          exact ⟨hp, trivial⟩
    | fixed status =>
      cases status with
      | ok _ => exact ih hco htail
      | error e => trivial

end Transaction

namespace World

theorem commitTransaction_eq (w : World) (t : Transaction) :
    w.commitTransaction t = (w.after (Transaction.attempts w t.contents)).act
      (.close (w.handle t.handle).ident t.contents.length
        (Transaction.run Transaction.Member.commit 1 t.contents w).1) := by
  rw [commitTransaction, Transaction.commitAll_boxed, ← Transaction.contents,
    Transaction.commitAll, ← Transaction.run_eq_after t.contents 1]
  cases Transaction.run Transaction.Member.commit 1 t.contents w with
  | mk failure w' => cases failure <;> rfl

theorem commitTransaction_world (w : World) (t : Transaction) :
    (w.commitTransaction t).2 = w.after (t.actions w) := by
  rw [commitTransaction_eq, Transaction.actions, after_snoc]

theorem legal_actions {w : World} (hco : w.Coherent) {t : Transaction}
    (ho : ∀ p, .update p ∈ t.contents → w.Open p.handle) : w.Legal (t.actions w) :=
  legal_snoc.2 ⟨Transaction.attempts_legal hco ho, trivial⟩

end World

end StagedTable
