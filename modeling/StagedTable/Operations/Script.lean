import StagedTable.Operations

/-!
# Scripted commit mechanisms

A mechanism that answers as it was told to: each call takes the next prepared answer, and once
they are used up every call succeeds.  Nothing is compared before a commit lands, and a commit
may land although it reports an error.
-/

namespace StagedTable

/-- a prepared answer to a commit -/
inductive Script.Answer where
  | accept
  | refuse (e : Error)
  /-- lands, and reports an error all the same -/
  | landAndFail (e : Error)

structure Script where
  stored : Metadata
  /-- answers to the coming refreshes: an error, or what is stored -/
  refreshes : List (Option Error)
  /-- answers to the coming commits -/
  commits : List Script.Answer

namespace Script

instance : Inhabited Script := ⟨⟨default, [], []⟩⟩

def refresh (s : Script) : Except Error Metadata × Script :=
  match s.refreshes with
  | [] => (.ok s.stored, s)
  | none :: rest => (.ok s.stored, { s with refreshes := rest })
  | some e :: rest => (.error e, { s with refreshes := rest })

def land (s : Script) (base new : Metadata) : Script := { s with stored := new.succeeding base }

def commit (base new : Metadata) (s : Script) : Status × Script :=
  match s.commits with
  | [] => (.ok (), s.land base new)
  | .accept :: rest => (.ok (), { s with commits := rest }.land base new)
  | .refuse e :: rest => (.error e, { s with commits := rest })
  | .landAndFail e :: rest => (.error e, { s with commits := rest }.land base new)

def operations : Operations Script where
  refresh := refresh
  commit := commit

end Script

end StagedTable
