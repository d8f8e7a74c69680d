import SkipAhead.Automaton.Basic

/-!
The state that stands in for the floating start. When the automaton has a floating start
(other than the dead state), it is that start. Otherwise a walk begins at the anchored
start: at each state it looks, symbol by symbol in ascending order, for a successor other
than the dead state that loops on that same symbol, and answers the first one found. If
there is none, the walk moves to the first successor, in the same symbol order, that is
neither dead nor visited before; with no such successor it answers the dead state.

Every step visits a new live state, so the walk takes at most `size` steps; this bound is
the fuel of `proxyWalk`.
-/

namespace SkipAhead

namespace Automaton

variable (d : Automaton)

/-- The first successor of `q` that is live and loops on the symbol leading to it. -/
def loopingSuccessor (syms : List (Fin d.alphabetLen)) (q : Fin d.size) : Option (Fin d.size) :=
  (syms.find? fun a => d.step q a ≠ d.dead ∧ d.step (d.step q a) a = d.step q a).map (d.step q)

/-- The first successor of `q`, in symbol order, that is live and not in `seen`. -/
def freshSuccessor (syms : List (Fin d.alphabetLen)) (seen : List (Fin d.size)) (q : Fin d.size) :
    Option (Fin d.size) :=
  (syms.map (d.step q)).find? fun t => t ≠ d.dead ∧ t ∉ seen

/-- The walk from `q` with the states in `seen` already visited, for at most `fuel` steps. -/
def proxyWalk (syms : List (Fin d.alphabetLen)) : Nat → List (Fin d.size) → Fin d.size → Fin d.size
  | 0, _, _ => d.dead
  | fuel + 1, seen, q =>
    if q = d.dead then d.dead
    else
      match d.loopingSuccessor syms q with
      | some t => t
      | none =>
        match d.freshSuccessor syms (q :: seen) q with
        | some t => proxyWalk syms fuel (q :: seen) t
        | none => d.dead

def startProxy : Fin d.size :=
  if d.startFloating ≠ d.dead then d.startFloating
  else d.proxyWalk d.usedSymbols d.size [] d.startAnchored

end Automaton

end SkipAhead
