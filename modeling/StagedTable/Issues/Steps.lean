import StagedTable.Issues

/-!
# Two records side by side

A pair of issue records, of which one is current.  Each step acts on the current record; some
read the other one.  A copy is taken before anything is written, so a record can be extended
with itself.
-/

namespace StagedTable

namespace Issues

/-- a current record, and another one to exchange it with or to copy from -/
structure Pair where
  current : Issues
  other : Issues
  deriving Repr, DecidableEq, Inhabited

inductive Step where
  | record (e : Error)
  | extend (es : List Error)
  /-- repeats the current entries -/
  | extendSelf
  /-- exchanges the two records -/
  | swap
  /-- copies the other record's entries -/
  | extendOther
  /-- records the other record's report, if it has one -/
  | nest
  | clear
  | check
  | list
  deriving Repr

inductive Reply where
  | silent
  | status (s : Status)
  | entries (es : List Error)

namespace Pair

def step (p : Pair) : Step → Pair
  | .record e => { p with current := p.current.record e }
  | .extend es => { p with current := p.current.extend es }
  | .extendSelf => { p with current := p.current.extend p.current.errors }
  | .swap => ⟨p.other, p.current⟩
  | .extendOther => { p with current := p.current.extend p.other.errors }
  | .nest =>
    match p.other.check with
    | .ok () => p
    | .error report => { p with current := p.current.record report }
  | .clear => { p with current := .empty }
  | .check | .list => p

/-- the reply of a step that has just led to `p` -/
def reply (p : Pair) : Step → Reply
  | .check => .status p.current.check
  | .list => .entries p.current.errors
  | _ => .silent

/-- every step in turn: the record that is current after it, and its reply -/
def run (p : Pair) : List Step → List (Issues × Reply)
  | [] => []
  | s :: ss => ((p.step s).current, (p.step s).reply s) :: run (p.step s) ss

end Pair

end Issues

end StagedTable
