/-!
# Sets of characters given by runs

A set of characters is written as the increasing list of the code points at which membership
changes: the first starts a run, the second ends it, and so on.
-/

namespace Quill.Text

/-- `code` lies in one of the runs: an odd number of edges is at or below it. -/
def inRuns (edges : Array Nat) (code : Nat) : Bool := edges.countP (· ≤ code) % 2 == 1

end Quill.Text
