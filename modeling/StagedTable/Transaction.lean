import StagedTable.Transaction.Run
import StagedTable.World

/-!
# Transactions

A transaction is a list of updates to commit one after the other.  Each update reads the cache
that the one before it left, so later updates build on earlier ones.  It is no unit of change:
updates before a failure stay committed, and the error says how far the transaction came.
-/

namespace StagedTable

namespace Transaction

inductive Member where
  | update (p : Pending)
  /-- a stand-in that touches nothing and ends in the given way -/
  | fixed (status : Status)

def Member.commit : Member → World → Status × World
  | .update p, w => (p.commit w).2
  | .fixed status, w => (status, w)

end Transaction

/-- updates to commit in order, on behalf of a handle -/
structure Transaction where
  handle : HandleId
  members : List (Transaction.Boxed Transaction.Member)

/-- the members without their boxes -/
def Transaction.contents (t : Transaction) : List Transaction.Member :=
  t.members.map Transaction.Boxed.content

namespace World

def commitTransaction (w : World) (t : Transaction) : Status × World :=
  Transaction.commitAll (Transaction.Boxed.commit Transaction.Member.commit)
    (fun w event => w.log [event]) (w.handle t.handle).ident t.members w

end World

end StagedTable
