import StagedTable.Proofs.Exchanges
import StagedTable.Transaction.Run

/-!
# The calls of a handle

A handle stands between its users and a commit mechanism that may answer in any way: refuse with
errors of any kind, land a commit and report an error, land one and fail to be read.  Here the
mechanism is left open altogether, and all that can be done with one handle is followed: refreshes,
previews, commits of raw metadata and of updates, and transactions.

* `Use`, `Use.perform`            what is done with a handle, and how;
* `Use.Shows`                     the calls that a use makes, with what its caller is told and what
                                  the handle caches afterwards.  It speaks of answers only, so it is
                                  the same for all mechanisms;
* `Use.ShowsAll.keeps`            whatever the answers, the cache is what was read last;
* `Handle.cache_follows_calls`    every use of every handle makes these calls and no others.
-/

namespace StagedTable

open Operations (Exchange Recorded)

variable {σ : Type}

namespace Operations

/-- what a call has read -/
def Exchange.read? : Exchange → Option Metadata
  | .refresh (.ok m) => some m
  | _ => none

/-- what the last refresh has read that did not fail -/
def lastRead (es : List Exchange) : Option Metadata := (es.filterMap Exchange.read?).getLast?

theorem lastRead_append (a b : List Exchange) :
    lastRead (a ++ b) = (lastRead b).or (lastRead a) := by
  rw [lastRead, List.filterMap_append, List.getLast?_append]
  rfl

end Operations

/-! ## uses -/

namespace Handle

/-- a member of a transaction: an update that goes through the handle, or a stand-in -/
inductive Member where
  | update (kind : Kind) (u : Update kind)
  | fixed (status : Status)

def Member.commit (ops : Operations σ) : Member → Handle × σ → Status × Handle × σ
  | .update _ u, (h, s) =>
    let o := (u.commit ops h s).2
    (o.status, o.handle, o.store)
  | .fixed status, p => (status, p)

inductive Use where
  | refresh
  | commitMetadata (base new : Metadata)
  | preview (kind : Kind) (u : Update kind)
  | commit (kind : Kind) (u : Update kind)
  | transaction (members : List (Transaction.Boxed Member))

def Use.perform (ops : Operations σ) : Use → Handle × σ → Status × Handle × σ
  | .refresh, (h, s) =>
    let o := h.refresh ops s
    (o.status, o.handle, o.store)
  | .commitMetadata base new, (h, s) =>
    let o := h.commitMetadata ops base new s
    (o.status, o.handle, o.store)
  | .preview _ u, (h, s) => (((u.apply h.cache).mapError Invalidity.error).map fun _ => (), h, s)
  | .commit _ u, p => (Member.update _ u).commit ops p
  | .transaction members, (h, s) =>
    Transaction.commitAll (Transaction.Boxed.commit (Member.commit ops)) (fun p _ => p) h.ident
      members (h, s)

/-- several uses, with what the caller is told each time -/
def performAll (ops : Operations σ) : List Use → Handle × σ → List Status × Handle × σ
  | [], p => ([], p)
  | u :: us, p =>
    let r := u.perform ops p
    let rest := performAll ops us r.2
    (r.1 :: rest.1, rest.2)

/-! ## the calls they make -/

/-- committing metadata while `c` is cached: one commit, and a refresh if it succeeded.  The caller
is told how the commit ended, and the refresh decides about the cache alone. -/
inductive Sends (base new c : Metadata) : Status → List Exchange → Metadata → Prop
  | refused (e : Error) : Sends base new c (.error e) [.commit base new (.error e)] c
  | read (m : Metadata) :
      Sends base new c (.ok ()) [.commit base new (.ok ()), .refresh (.ok m)] m
  | unread (e : Error) :
      Sends base new c (.ok ()) [.commit base new (.ok ()), .refresh (.error e)] c

/-- committing a member: an update is sent on top of the cache, or it cannot be applied to it -/
inductive Member.Shows : Member → Metadata → Status → List Exchange → Metadata → Prop
  | invalid {k : Kind} {u : Update k} {c : Metadata} {why : Invalidity}
      (ha : u.apply c = .error why) : Shows (.update k u) c (.error why.error) [] c
  | sent {k : Kind} {u : Update k} {c c' : Metadata} {out : k.Output} {status : Status}
      {es : List Exchange} (ha : u.apply c = .ok out)
      (hs : Sends c (k.install out c) c status es c') : Shows (.update k u) c status es c'
  | fixed (status : Status) (c : Metadata) : Shows (.fixed status) c status [] c

/-- committing members in order, the first of them under the given position, until one fails -/
inductive Member.ShowsAll :
    Nat → List Member → Metadata → Option Transaction.Failure → List Exchange → Metadata → Prop
  | done (p : Nat) (c : Metadata) : ShowsAll p [] c none [] c
  | next {p : Nat} {m : Member} {ms : List Member} {c c' c'' : Metadata} {es es' : List Exchange}
      {f : Option Transaction.Failure} (hm : m.Shows c (.ok ()) es c')
      (hms : ShowsAll (p + 1) ms c' f es' c'') : ShowsAll p (m :: ms) c f (es ++ es') c''
  | stopped {p : Nat} {m : Member} {ms : List Member} {c c' : Metadata} {es : List Exchange}
      {e : Error} (hm : m.Shows c (.error e) es c') : ShowsAll p (m :: ms) c (some ⟨p, e⟩) es c'

/-- **What a use looks like from outside**: the cache before it, what the caller is told, the calls
that are made, and the cache after it -/
inductive Use.Shows : Use → Metadata → Status → List Exchange → Metadata → Prop
  | read (c m : Metadata) : Shows .refresh c (.ok ()) [.refresh (.ok m)] m
  | unread (c : Metadata) (e : Error) : Shows .refresh c (.error e) [.refresh (.error e)] c
  | commitMetadata {base new c c' : Metadata} {status : Status} {es : List Exchange}
      (h : Sends base new c status es c') : Shows (.commitMetadata base new) c status es c'
  | preview {k : Kind} (u : Update k) (c : Metadata) :
      Shows (.preview k u) c (((u.apply c).mapError Invalidity.error).map fun _ => ()) [] c
  | commit {k : Kind} {u : Update k} {c c' : Metadata} {status : Status} {es : List Exchange}
      (h : (Member.update k u).Shows c status es c') : Shows (.commit k u) c status es c'
  | committed {members : List (Transaction.Boxed Member)} {c c' : Metadata} {es : List Exchange}
      (h : Member.ShowsAll 1 (members.map Transaction.Boxed.content) c none es c') :
      Shows (.transaction members) c (.ok ()) es c'
  | stopped {members : List (Transaction.Boxed Member)} {c c' : Metadata} {es : List Exchange}
      {f : Transaction.Failure}
      (h : Member.ShowsAll 1 (members.map Transaction.Boxed.content) c (some f) es c') :
      Shows (.transaction members) c (.error (f.report members.length)) es c'

/-- several uses, each with its own calls -/
inductive Use.ShowsAll :
    List Use → Metadata → List Status → List (List Exchange) → Metadata → Prop
  | nil (c : Metadata) : ShowsAll [] c [] [] c
  | cons {u : Use} {us : List Use} {c c' c'' : Metadata} {status : Status}
      {statuses : List Status} {es : List Exchange} {ess : List (List Exchange)}
      (hu : u.Shows c status es c') (hus : ShowsAll us c' statuses ess c'') :
      ShowsAll (u :: us) c (status :: statuses) (es :: ess) c''

/-! ## what the cache is -/

section
variable {c c' : Metadata} {status : Status} {es : List Exchange}

/-- calls that end in `es` have read what is cached, if they have read anything -/
def Keeps (c : Metadata) (es : List Exchange) (c' : Metadata) : Prop :=
  (Operations.lastRead es).getD c = c'

theorem Keeps.append {c c' c'' : Metadata} {es es' : List Exchange} (h : Keeps c es c')
    (h' : Keeps c' es' c'') : Keeps c (es ++ es') c'' := by
  rw [Keeps, Operations.lastRead_append, ← h', ← h]
  cases Operations.lastRead es' <;> rfl

theorem Sends.keeps {base new : Metadata} (h : Sends base new c status es c') : Keeps c es c' := by
  cases h <;> rfl

theorem Member.Shows.keeps {m : Member} (h : m.Shows c status es c') : Keeps c es c' := by
  cases h with
  | invalid ha => rfl
  | sent ha hs => exact hs.keeps
  | fixed => rfl

theorem Member.ShowsAll.keeps {p : Nat} {ms : List Member} {f : Option Transaction.Failure}
    (h : Member.ShowsAll p ms c f es c') : Keeps c es c' := by
  induction h with
  | done p c => rfl
  | next hm _ ih => exact hm.keeps.append ih
  | stopped hm => exact hm.keeps

theorem Use.Shows.keeps {u : Use} (h : u.Shows c status es c') : Keeps c es c' := by
  cases h with
  | read => rfl
  | unread => rfl
  | commitMetadata h => exact h.keeps
  | preview => rfl
  | commit h => exact h.keeps
  | committed h => exact h.keeps
  | stopped h => exact h.keeps

theorem Use.ShowsAll.keeps {us : List Use} {statuses : List Status} {ess : List (List Exchange)}
    (h : Use.ShowsAll us c statuses ess c') : Keeps c ess.flatten c' := by
  induction h with
  | nil c => rfl
  | cons hu _ ih => exact hu.keeps.append ih

end

/-! ## every use makes its calls -/

section
variable (ops : Operations σ)

theorem sends_commitMetadata (h : Handle) (base new : Metadata) (s : σ) :
    Sends base new h.cache (h.commitMetadata ops base new s).status (ops.callsOf base new s)
      (h.commitMetadata ops base new s).handle.cache := by
  cases hc : ops.commit base new s with
  | mk status s' =>
    cases status with
    | error e =>
      rw [commitMetadata_of_error h hc, Operations.callsOf, hc]
      exact .refused e
    | ok _ =>
      cases hr : ops.refresh s' with
      | mk answer s'' =>
        cases answer with
        | error e =>
          simp only [commitMetadata, Operations.callsOf, hc, hr]
          exact .unread e
        | ok m =>
          simp only [commitMetadata, Operations.callsOf, hc, hr]
          exact .read m

/-- a refresh is one call, and what it reads is cached -/
theorem refresh_shows (h : Handle) (r : Recorded σ) :
    let o := h.refresh ops.recorded r
    o.store.exchanges = r.exchanges ++ [.refresh (ops.refresh r.state).1] ∧
      Use.refresh.Shows h.cache o.status [.refresh (ops.refresh r.state).1] o.handle.cache := by
  have hread : ops.recorded.refresh r = ((ops.refresh r.state).1,
      ⟨(ops.refresh r.state).2, r.exchanges ++ [.refresh (ops.refresh r.state).1]⟩) := rfl
  rw [refresh, hread]
  cases ops.refresh r.state with
  | mk answer s =>
    cases answer with
    | error e => exact ⟨rfl, .unread h.cache e⟩
    | ok m => exact ⟨rfl, .read h.cache m⟩

/-- a member makes the calls that it shows -/
theorem Member.commit_shows (m : Member) (h : Handle) (r : Recorded σ) :
    let a := m.commit ops.recorded (h, r)
    ∃ es, a.2.2.exchanges = r.exchanges ++ es ∧ m.Shows h.cache a.1 es a.2.1.cache := by
  intro a
  cases m with
  | fixed status => exact ⟨[], (List.append_nil _).symm, .fixed status h.cache⟩
  | update k u =>
    have hrec := u.send_recorded ops h r
    refine ⟨u.calls ops h r.state, congrArg (·.store.exchanges) hrec, ?_⟩
    show (Member.update k u).Shows h.cache (u.send ops.recorded h r).status _
      (u.send ops.recorded h r).handle.cache
    rw [hrec]
    cases ha : u.apply h.cache with
    | error why =>
      rw [Update.calls_of_error ha, Update.send_of_error ha]
      exact .invalid ha
    | ok out =>
      rw [Update.calls_of_ok ha, Update.send_of_ok ha]
      exact .sent ha (sends_commitMetadata ops h _ _ r.state)

theorem Member.run_shows (ms : List Member) (p : Nat) (h : Handle) (r : Recorded σ) :
    let a := Transaction.run (Member.commit ops.recorded) p ms (h, r)
    ∃ es, a.2.2.exchanges = r.exchanges ++ es ∧
      Member.ShowsAll p ms h.cache a.1 es a.2.1.cache := by
  induction ms generalizing p h r with
  | nil => exact ⟨[], (List.append_nil _).symm, .done p h.cache⟩
  | cons m ms ih =>
    obtain ⟨es, hes, hm⟩ := m.commit_shows ops h r
    cases hc : m.commit ops.recorded (h, r) with
    | mk status q =>
      obtain ⟨h', r'⟩ := q
      rw [hc] at hes hm
      cases status with
      | error e =>
        rw [Transaction.run_cons_of_error p ms hc]
        exact ⟨es, hes, .stopped hm⟩
      | ok _ =>
        rw [Transaction.run_cons_of_ok p ms hc]
        obtain ⟨es', hes', hms⟩ := ih (p + 1) h' r'
        refine ⟨es ++ es', ?_, .next hm hms⟩
        rw [hes', hes, List.append_assoc]

theorem perform_transaction (members : List (Transaction.Boxed Member)) (h : Handle) (s : σ) :
    (Use.transaction members).perform ops (h, s) =
      Transaction.commitAll (Member.commit ops) (fun p _ => p) h.ident
        (members.map Transaction.Boxed.content) (h, s) :=
  Transaction.commitAll_boxed (Member.commit ops) (fun p _ => p) h.ident members (h, s)

theorem Use.perform_shows (u : Use) (h : Handle) (r : Recorded σ) :
    let a := u.perform ops.recorded (h, r)
    ∃ es, a.2.2.exchanges = r.exchanges ++ es ∧ u.Shows h.cache a.1 es a.2.1.cache := by
  cases u with
  | refresh => exact ⟨[.refresh (ops.refresh r.state).1], refresh_shows ops h r⟩
  | commitMetadata base new =>
    have hrec := h.commitMetadata_recorded ops base new r
    refine ⟨ops.callsOf base new r.state, congrArg (·.store.exchanges) hrec, .commitMetadata ?_⟩
    show Sends base new h.cache (h.commitMetadata ops.recorded base new r).status _
      (h.commitMetadata ops.recorded base new r).handle.cache
    rw [hrec]
    exact sends_commitMetadata ops h base new r.state
  | preview k u => exact ⟨[], (List.append_nil _).symm, .preview u h.cache⟩
  | commit k u =>
    obtain ⟨es, hes, hm⟩ := (Member.update k u).commit_shows ops h r
    exact ⟨es, hes, .commit hm⟩
  | transaction members =>
    obtain ⟨es, hes, hms⟩ := Member.run_shows ops (members.map Transaction.Boxed.content) 1 h r
    have hall := perform_transaction ops.recorded members h r
    rw [Transaction.commitAll, List.length_map] at hall
    rw [hall]
    cases hrun : Transaction.run (Member.commit ops.recorded) 1
      (members.map Transaction.Boxed.content) (h, r) with
    | mk failure q =>
      rw [hrun] at hes hms
      cases failure with
      | none => exact ⟨es, hes, .committed hms⟩
      | some f => exact ⟨es, hes, .stopped hms⟩

theorem performAll_shows (us : List Use) (h : Handle) (r : Recorded σ) :
    let a := performAll ops.recorded us (h, r)
    ∃ ess, a.2.2.exchanges = r.exchanges ++ ess.flatten ∧
      Use.ShowsAll us h.cache a.1 ess a.2.1.cache := by
  induction us generalizing h r with
  | nil => exact ⟨[], (List.append_nil _).symm, .nil h.cache⟩
  | cons u us ih =>
    obtain ⟨es, hes, hu⟩ := u.perform_shows ops h r
    obtain ⟨ess, hess, hus⟩ :=
      ih (u.perform ops.recorded (h, r)).2.1 (u.perform ops.recorded (h, r)).2.2
    refine ⟨es :: ess, ?_, .cons hu hus⟩
    rw [List.flatten_cons, ← List.append_assoc, ← hes]
    exact hess

/-- **A handle calls its mechanism as it should, and caches what it read last.**  A handle is opened
by one refresh.  Whatever is done with it from then on, and whatever the mechanism answers, the
calls are those of the uses one after the other, each caller is told what its calls show, and the
cache is what the last refresh has read that did not fail. -/
theorem cache_follows_calls (ident : String) (s : σ) (us : List Use) :
    match attach ops.recorded ident ⟨s, []⟩ with
    | (.error e, r) => r.exchanges = [.refresh (.error e)]
    | (.ok h, r) =>
      let statuses := (performAll ops.recorded us (h, r)).1
      let h' := (performAll ops.recorded us (h, r)).2.1
      let r' := (performAll ops.recorded us (h, r)).2.2
      (∃ ess, Use.ShowsAll us h.cache statuses ess h'.cache ∧
        r'.exchanges = .refresh (.ok h.cache) :: ess.flatten) ∧
      Operations.lastRead r'.exchanges = some h'.cache := by
  have hread : ops.recorded.refresh ⟨s, []⟩ =
      ((ops.refresh s).1, ⟨(ops.refresh s).2, [.refresh (ops.refresh s).1]⟩) := rfl
  rw [attach, hread]
  cases ops.refresh s with
  | mk answer s' =>
    cases answer with
    | error e => rfl
    | ok m =>
      obtain ⟨ess, hess, hus⟩ := performAll_shows ops us ⟨ident, m⟩ ⟨s', [.refresh (.ok m)]⟩
      refine ⟨⟨ess, hus, hess⟩, ?_⟩
      show Operations.lastRead (performAll ops.recorded us _).2.2.exchanges = _
      rw [hess, Operations.lastRead_append]
      have hkeeps := hus.keeps
      rw [Keeps] at hkeeps
      rw [← hkeeps]
      cases Operations.lastRead ess.flatten <;> rfl

end

end Handle

end StagedTable
