import StagedTable.Event

/-!
# Runs of commits

Members that can be committed are committed in order, each on the state that the one before it
left, until one fails.  What comes after the failure is not touched: there is no way back, and
what landed stays.

* `run`        commits the members, and says where it stopped;
* `commitAll`  the run as its caller sees it: a status, and a closing event in the journal;
* `Boxed`      a member that is handed over in boxes.  Boxes do not show when it is committed.
-/

namespace StagedTable.Transaction

variable {μ σ : Type}

/-- the member that ended a run, counted from 1, and its error -/
structure Failure where
  position : Nat
  error : Error
  deriving Repr, DecidableEq

/-- the error of the run as a whole: it says which update failed, of how many -/
def Failure.report (f : Failure) (total : Nat) : Error :=
  f.error.withContext ("update " ++ toString f.position ++ " of " ++ toString total)

/-- commits the members in order, the first of them under the given position -/
def run (commit : μ → σ → Status × σ) (position : Nat) : List μ → σ → Option Failure × σ
  | [], s => (none, s)
  | m :: ms, s =>
    match commit m s with
    | (.ok (), s) => run commit (position + 1) ms s
    | (.error e, s) => (some ⟨position, e⟩, s)

theorem run_nil (commit : μ → σ → Status × σ) (p : Nat) (s : σ) :
    run commit p [] s = (none, s) := rfl

theorem run_cons_of_ok {commit : μ → σ → Status × σ} {m : μ} {s s' : σ} (p : Nat) (ms : List μ)
    (h : commit m s = (.ok (), s')) : run commit p (m :: ms) s = run commit (p + 1) ms s' := by
  simp [run, h]

theorem run_cons_of_error {commit : μ → σ → Status × σ} {m : μ} {s s' : σ} {e : Error} (p : Nat)
    (ms : List μ) (h : commit m s = (.error e, s')) :
    run commit p (m :: ms) s = (some ⟨p, e⟩, s') := by
  simp [run, h]

@[simp] theorem kind_report (f : Failure) (total : Nat) :
    (f.report total).kind = f.error.kind := rfl

/-- commits all members on behalf of the table of that identifier, and closes the run -/
def commitAll (commit : μ → σ → Status × σ) (log : σ → Event → σ) (ident : String) (ms : List μ)
    (s : σ) : Status × σ :=
  match run commit 1 ms s with
  | (none, s) => (.ok (), log s (.transactionCommitted ident ms.length))
  | (some f, s) =>
    (.error (f.report ms.length), log s (.transactionStopped ident f.position ms.length))

/-! ## boxes -/

/-- a member, in any number of boxes -/
inductive Boxed (μ : Type) where
  | direct (m : μ)
  | box (b : Boxed μ)

namespace Boxed

/-- a member as it is handed over: in one box, or in none -/
def wrap (boxed : Bool) (m : μ) : Boxed μ := if boxed then box (direct m) else direct m

/-- what the boxes hold -/
def content : Boxed μ → μ
  | direct m => m
  | box b => b.content

@[simp] theorem content_wrap (boxed : Bool) (m : μ) : (wrap boxed m).content = m := by
  cases boxed <;> rfl

/-- a box is committed by committing what is in it -/
def commit (send : μ → σ → Status × σ) : Boxed μ → σ → Status × σ
  | direct m, s => send m s
  | box b, s => b.commit send s

theorem commit_eq (send : μ → σ → Status × σ) (b : Boxed μ) (s : σ) :
    b.commit send s = send b.content s := by
  induction b with
  | direct m => rfl
  | box b ih => exact ih

end Boxed

theorem run_boxed (send : μ → σ → Status × σ) (p : Nat) (bs : List (Boxed μ)) (s : σ) :
    run (Boxed.commit send) p bs s = run send p (bs.map Boxed.content) s := by
  induction bs generalizing p s with
  | nil => rfl
  | cons b bs ih =>
    rw [List.map_cons]
    cases h : send b.content s with
    | mk status s' =>
      have hb : b.commit send s = (status, s') := (b.commit_eq send s).trans h
      cases status with
      | ok _ => rw [run_cons_of_ok p bs hb, run_cons_of_ok p _ h, ih]
      | error e => rw [run_cons_of_error p bs hb, run_cons_of_error p _ h]

theorem commitAll_boxed (send : μ → σ → Status × σ) (log : σ → Event → σ) (ident : String)
    (bs : List (Boxed μ)) (s : σ) :
    commitAll (Boxed.commit send) log ident bs s =
      commitAll send log ident (bs.map Boxed.content) s := by
  rw [commitAll, run_boxed, commitAll, List.length_map]

end StagedTable.Transaction
