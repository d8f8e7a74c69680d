/-!
The role an automaton plays in a larger matcher. A prefix engine feeds the engine after it,
which queries its matches; an infix engine is triggered by the engine before it and queried
by the one after; a suffix engine is triggered and reports its matches directly; an outfix
engine runs on its own and reports directly; a reverse prefix engine runs backwards over the
data once triggered; an eager prefix engine runs ahead of time and reports directly.

The role decides two things about acceleration: whether entering a reporting state hands
control to a callback, and whether the automaton only runs once something else has
triggered it.
-/

namespace SkipAhead

inductive DFAKind
  | Prefix
  | Infix
  | Suffix
  | Outfix
  | ReversePrefix
  | EagerPrefix
  deriving DecidableEq, Repr

namespace DFAKind

/-- Whether entering a reporting state hands control to a callback. -/
def generatesCallbacks : DFAKind → Bool
  | Suffix | Outfix | ReversePrefix | EagerPrefix => true
  | Prefix | Infix => false

/-- Whether the automaton only runs once something else has triggered it. -/
def isTriggered : DFAKind → Bool
  | Infix | Suffix | ReversePrefix => true
  | Prefix | Outfix | EagerPrefix => false

end DFAKind

end SkipAhead
