import SkipAhead.Automaton.Proxy
import SkipAhead.Accel.Settings
import SkipAhead.Accel.Region
import SkipAhead.Escape.OfState

/-!
The acceleration table: for each state that can be sped up, the escape description the
scanner uses there. A *strategy* gives each state a description. The table is built in
two phases.

1. Each state other than the dead state gets its strategy's description, unless the
   automaton has callbacks and the state reports, and keeps it if it has at most
   `stopLimit` escape bytes (`floatingStopLimit` for the start proxy).
2. If the start proxy kept a description, every live state of the proxy's region takes
   that description when it has none or when the proxy's is better than its own.

With acceleration turned off the table is empty.
-/

namespace SkipAhead

abbrev Strategy (n : Nat) := Fin n → EscapeInfo

namespace Strategy

/-- Descriptions from a listing, the last entry for a state winning, and `default` for a
state not listed. -/
def ofListing {n : Nat} (entries : List (Nat × EscapeInfo)) (default : EscapeInfo) : Strategy n :=
  fun q => ((entries.reverse.find? fun e => e.1 == q.val).map Prod.snd).getD default

end Strategy

namespace Automaton

variable (d : Automaton)

/-- The strategy that analyses each state, looking ahead at most `maxOffset` bytes. -/
def analysed (maxOffset : Nat) (scorer : Scorer) : Strategy d.size :=
  fun q => d.escapeInfo q maxOffset scorer

def ownEntry (settings : Settings) (strategy : Strategy d.size) (q : Fin d.size) :
    Option EscapeInfo :=
  if q = d.dead then none
  else if d.generatesCallbacks && d.hasReports q then none
  else
    let info := strategy q
    let limit := if q = d.startProxy then settings.floatingStopLimit else settings.stopLimit
    if info.outs.card ≤ limit then some info else none

def ownEntries (settings : Settings) (strategy : Strategy d.size) : Vector (Option EscapeInfo) d.size :=
  Vector.ofFn (d.ownEntry settings strategy)

/-- `s` after it considers the proxy's description `info`: a live state takes it when it
has none or when `info` is better than its own. -/
def adopt (info : EscapeInfo) (table : Vector (Option EscapeInfo) d.size) (s : Fin d.size) :
    Vector (Option EscapeInfo) d.size :=
  if s = d.dead then table
  else if (table.get s).all info.isBetterThan then table.setIfInBounds s.val (some info)
  else table

def spread (table : Vector (Option EscapeInfo) d.size) : Vector (Option EscapeInfo) d.size :=
  match table.get d.startProxy with
  | none => table
  | some info => (d.region d.startProxy info).foldl (d.adopt info) table

/-- The acceleration table, ascending by state. -/
def accelTable (settings : Settings) (strategy : Strategy d.size) : List (Fin d.size × EscapeInfo) :=
  if settings.accelerates then
    let table := d.spread (d.ownEntries settings strategy)
    d.states.filterMap fun q => (table.get q).map fun e => (q, e)
  else []

end Automaton

end SkipAhead
