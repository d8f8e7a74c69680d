import SkipAhead.Automaton.Basic
import SkipAhead.Escape.Info

/-!
The region of a state under an escape description: the states a scan can reach from it
without reading an escape byte. A double-byte description keeps the scan in its own
state, so its region is the state alone. For any other description the region is the
state together with everything reachable from it on symbols of bytes outside `outs`; the
dead state may belong to it.

The walk marks a state when it first meets it and visits each marked state once, so it
ends after at most `size` visits; this bound is the fuel of `regionWalk`.
-/

namespace SkipAhead

namespace Automaton

variable (d : Automaton)

/-- The marks after visiting the states of `pending` and all they lead to on `syms`. -/
def regionWalk (syms : List (Fin d.alphabetLen)) :
    Nat → List (Fin d.size) → Vector Bool d.size → Vector Bool d.size
  | 0, _, marks => marks
  | _, [], marks => marks
  | fuel + 1, q :: rest, marks =>
    let step := syms.foldl (fun acc a =>
      let t := d.step q a
      if acc.1.get t then acc else (acc.1.setIfInBounds t.val true, t :: acc.2)) (marks, rest)
    regionWalk syms fuel step.2 step.1

/-- The states reachable from `base` on the symbols `syms`, `base` included, ascending. -/
def reachableOn (syms : List (Fin d.alphabetLen)) (base : Fin d.size) : List (Fin d.size) :=
  let marks := d.regionWalk syms d.size [base]
    ((Vector.replicate d.size false).setIfInBounds base.val true)
  d.states.filter marks.get

def region (base : Fin d.size) (info : EscapeInfo) : List (Fin d.size) :=
  if info.isBroken then d.reachableOn (d.symbolsOf info.outs.compl) base else [base]

/-- The region of the state numbered `base`; `none` when the walk has to look at a `base`
that is no state, which a double-byte description never does. -/
def regionAt? (base : Nat) (info : EscapeInfo) : Option (List Nat) :=
  if info.isBroken then (d.stateAt? base).map fun q => (d.region q info).map Fin.val
  else some [base]

end Automaton

end SkipAhead
