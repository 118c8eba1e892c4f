/-!
# Limits

The numbers that bound a check unless it is told otherwise.
-/

namespace Subtyping.Limits

/-- How many nested constraints a check descends into before it gives up. -/
def maxDepth : Nat := 100

/-- How many constraints a memo has room for at first. -/
def memoCapacity : Nat := 256

end Subtyping.Limits
