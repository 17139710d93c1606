import StagedTable.Proofs.Runs

/-!
# Up to the first failure

What a transaction does can be said without its runner: its members are committed one after the
other, and either all of them succeed or one of them is the first to fail.

* `Transaction.Succeeds`                  all members commit, each on the state that the one before
                                          it left;
* `Transaction.Ends`                      the two ways to end, with the status and the state that is
                                          left.  It is the state of the commits that were made: what
                                          comes after a failure has no part in it;
* `Transaction.sequential_up_to_failure`  this is what the runner does, for members and states of
                                          any sort and in any boxes, and so it is what a
                                          transaction does to a world.
-/

namespace StagedTable

namespace Transaction

variable {μ σ : Type}

/-- the members commit in order, and they all succeed -/
inductive Succeeds (commit : μ → σ → Status × σ) : σ → List μ → σ → Prop where
  | nil (s : σ) : Succeeds commit s [] s
  | cons {m : μ} {ms : List μ} {s s' s'' : σ} (hm : commit m s = (.ok (), s'))
      (hms : Succeeds commit s' ms s'') : Succeeds commit s (m :: ms) s''

/-- how the commits of the members end that are made in order, up to the first that fails -/
inductive Ends (commit : μ → σ → Status × σ) (log : σ → Event → σ) (ident : String) (s : σ)
    (ms : List μ) : Status × σ → Prop where
  | committed {s' : σ} (hs : Succeeds commit s ms s') :
      Ends commit log ident s ms (.ok (), log s' (.transactionCommitted ident ms.length))
  | stopped {before after : List μ} {m : μ} {s' s'' : σ} {e : Error}
      (hms : ms = before ++ m :: after) (hs : Succeeds commit s before s')
      (hm : commit m s' = (.error e, s'')) :
      Ends commit log ident s ms
        (.error ⟨e.kind, "update " ++ toString (before.length + 1) ++ " of " ++
          toString ms.length ++ ": " ++ e.message⟩,
        log s'' (.transactionStopped ident (before.length + 1) ms.length))

variable {commit : μ → σ → Status × σ} {s s' s'' : σ}

/-- a run over members that succeed goes on with those that follow them -/
theorem run_append_of_succeeds {before : List μ} (h : Succeeds commit s before s') (p : Nat)
    (ms : List μ) : run commit p (before ++ ms) s = run commit (p + before.length) ms s' := by
  induction h generalizing p with
  | nil s => rfl
  | @cons m rest s s' s'' hm _ ih =>
    rw [List.cons_append, run_cons_of_ok p (rest ++ ms) hm, ih, List.length_cons]
    congr 1
    omega

theorem run_of_succeeds {ms : List μ} (h : Succeeds commit s ms s') (p : Nat) :
    run commit p ms s = (none, s') := by
  have hrun := run_append_of_succeeds h p []
  rw [List.append_nil, run_nil] at hrun
  exact hrun

theorem run_of_fails {before : List μ} {m : μ} {e : Error} (h : Succeeds commit s before s')
    (hm : commit m s' = (.error e, s'')) (p : Nat) (after : List μ) :
    run commit p (before ++ m :: after) s = (some ⟨p + before.length, e⟩, s'') := by
  rw [run_append_of_succeeds h, run_cons_of_error _ after hm]

/-- members that do not all succeed have a first one that fails -/
theorem succeeds_or_fails (commit : μ → σ → Status × σ) (ms : List μ) (s : σ) :
    (∃ s', Succeeds commit s ms s') ∨
      ∃ before m after s' e s'', ms = before ++ m :: after ∧ Succeeds commit s before s' ∧
        commit m s' = (.error e, s'') := by
  induction ms generalizing s with
  | nil => exact .inl ⟨s, .nil s⟩
  | cons m ms ih =>
    cases hm : commit m s with
    | mk status s₁ =>
      cases status with
      | error e => exact .inr ⟨[], m, ms, s, e, s₁, rfl, .nil s, hm⟩
      | ok _ =>
        rcases ih s₁ with ⟨s', hs⟩ | ⟨before, m', after, s', e, s'', rfl, hs, hm'⟩
        · exact .inl ⟨s', .cons hm hs⟩
        · exact .inr ⟨m :: before, m', after, s', e, s'', rfl, .cons hm hs, hm'⟩

section
variable {log : σ → Event → σ} {ident : String} {ms : List μ}

/-- the members end in one way only, and it is the runner's -/
theorem Ends.eq_commitAll {r : Status × σ} (h : Ends commit log ident s ms r) :
    commitAll commit log ident ms s = r := by
  cases h with
  | committed hs => rw [commitAll, run_of_succeeds hs]
  | @stopped before after m s' s'' e hms hs hm =>
    rw [commitAll, hms, run_of_fails hs hm, Nat.add_comm 1]
    rfl

theorem ends_commitAll (commit : μ → σ → Status × σ) (log : σ → Event → σ) (ident : String)
    (ms : List μ) (s : σ) : Ends commit log ident s ms (commitAll commit log ident ms s) := by
  rcases succeeds_or_fails commit ms s with
    ⟨s', hs⟩ | ⟨before, m, after, s', e, s'', hms, hs, hm⟩
  · have h : Ends commit log ident s ms _ := .committed hs
    rw [h.eq_commitAll]
    exact h
  · have h : Ends commit log ident s ms _ := .stopped hms hs hm
    rw [h.eq_commitAll]
    exact h

theorem commitAll_boxed_eq_iff (log : σ → Event → σ) (ident : String) (bs : List (Boxed μ))
    (r : Status × σ) : commitAll (Boxed.commit commit) log ident bs s = r ↔
      Ends commit log ident s (bs.map Boxed.content) r := by
  rw [commitAll_boxed]
  constructor
  · rintro rfl
    exact ends_commitAll commit log ident _ s
  · exact Ends.eq_commitAll

end

/-- **A transaction is its members' commits in order, up to the first that fails.**  This holds of
members that commit in any way, on states of any sort, and boxes make no difference to it.  It
holds of the transactions of a world, where the closing event touches neither the store nor a
cache. -/
theorem sequential_up_to_failure (commit : μ → σ → Status × σ) (log : σ → Event → σ)
    (ident : String) (bs : List (Boxed μ)) (s : σ) (r : Status × σ) (w : World) (t : Transaction)
    (q : Status × World) :
    (commitAll (Boxed.commit commit) log ident bs s = r ↔
      Ends commit log ident s (bs.map Boxed.content) r) ∧
    commitAll (Boxed.commit commit) log ident (bs.map fun b => .direct b.content) s =
      commitAll (Boxed.commit commit) log ident bs s ∧
    (w.commitTransaction t = q ↔ Ends Member.commit (fun w event => w.log [event])
      (w.handle t.handle).ident w t.contents q) ∧
    ∀ events, (w.log events).store = w.store ∧ (w.log events).handles = w.handles := by
  refine ⟨commitAll_boxed_eq_iff log ident bs r, ?_, commitAll_boxed_eq_iff _ _ t.members q,
    fun events => ⟨rfl, rfl⟩⟩
  rw [commitAll_boxed, commitAll_boxed, List.map_map]
  rfl

/-- three members on one handle, the second of them a failing stand-in in a box -/
def interrupted : Transaction :=
  ⟨orders 0, [.direct (.update ⟨orders 0, .location, moveTo "a://left"⟩),
    .box (.direct (.fixed (.error ⟨.commitFailed, "refused"⟩))),
    .direct (.update ⟨orders 0, .location, moveTo "a://right"⟩)]⟩

example : let o := (World.empty.after openOrders).commitTransaction interrupted
    o.1 = .error ⟨.commitFailed, "update 2 of 3: refused"⟩ ∧
      (o.2.stored? 0 "orders").map (·.location) = some "a://left" := by decide +kernel

end Transaction

end StagedTable
