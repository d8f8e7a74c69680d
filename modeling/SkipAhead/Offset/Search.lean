import SkipAhead.Automaton.Basic
import SkipAhead.Offset.Path

/-!
The bounded search for byte-class paths from a base state. The search keeps a
*frontier*, the paths of the current generation in order, and for every state the paths
*recorded* as reaching it; at the start both hold only the empty path at the base.

One round replaces the frontier by the next generation, built path by path:

* a dead path is carried over unchanged;
* a live path ending in a reporting state of an automaton with callbacks is carried over
  unchanged;
* a live path ending in a state with reports (at end of input or not) also yields its dead
  copy; then it yields one step to every successor, in ascending order of successor, on
  the bytes leading there, unless a path recorded at that successor dominates the step.

A generation holds at most `pathLimit` paths; a path offered to a full generation is
dropped, and only a path that was kept is recorded. A frontier that is already full ends
the search.
-/

namespace SkipAhead

def pathLimit : Nat := 500

/-- The state of the path search over states `Fin n`; the paths recorded at a state are
kept newest first. -/
structure Search (n : Nat) where
  frontier : Array (Path (Fin n))
  recorded : Vector (List (Path (Fin n))) n

namespace Search

variable {n : Nat}

def start (base : Fin n) : Search n :=
  ⟨#[Path.empty base], (Vector.replicate n []).setIfInBounds base.val [Path.empty base]⟩

def offer (out : Array (Path (Fin n))) (p : Path (Fin n)) : Array (Path (Fin n)) :=
  if out.size < pathLimit then out.push p else out

/-- `p` added to a generation that is not full, and then recorded at its destination. -/
def keep (acc : Vector (List (Path (Fin n))) n × Array (Path (Fin n))) (p : Path (Fin n)) :
    Vector (List (Path (Fin n))) n × Array (Path (Fin n)) :=
  if acc.2.size < pathLimit then
    (acc.1.setIfInBounds p.dest.val (p :: acc.1.get p.dest), acc.2.push p)
  else acc

end Search

namespace Automaton

variable (d : Automaton)

def symbolClasses : List (Fin d.alphabetLen × ByteSet) :=
  d.usedSymbols.map fun a => (a, ByteSet.filter fun b => d.symbol b == a)

/-- Adds the bytes `c` to the class of `t` in a list ascending by state. -/
def addToClass {n : Nat} (t : Fin n) (c : ByteSet) : List (Fin n × ByteSet) → List (Fin n × ByteSet)
  | [] => [(t, c)]
  | (u, e) :: rest =>
    if t.val < u.val then (t, c) :: (u, e) :: rest
    else if t = u then (u, e.union c) :: rest
    else (u, e) :: addToClass t c rest

/-- The successors of `q` in ascending order, each with the bytes that lead to it, given
the bytes of each symbol. -/
def successorClasses (classes : List (Fin d.alphabetLen × ByteSet)) (q : Fin d.size) :
    List (Fin d.size × ByteSet) :=
  classes.foldl (fun acc ac => addToClass (d.step q ac.1) ac.2 acc) []

/-- The contribution of one path of the frontier to the next generation. -/
def extend (succ : Fin d.size → List (Fin d.size × ByteSet))
    (acc : Vector (List (Path (Fin d.size))) d.size × Array (Path (Fin d.size)))
    (p : Path (Fin d.size)) : Vector (List (Path (Fin d.size))) d.size × Array (Path (Fin d.size)) :=
  match p.ending with
  | .dead => (acc.1, Search.offer acc.2 p)
  | .live =>
    if d.generatesCallbacks && d.hasReports p.dest then (acc.1, Search.offer acc.2 p)
    else
      let acc := if d.hasReports p.dest || d.hasEodReports p.dest then Search.keep acc p.toDead else acc
      (succ p.dest).foldl (fun acc tc =>
        let q := p.append tc.2 tc.1
        if Path.isUseful (acc.1.get tc.1) q then Search.keep acc q else acc) acc

def advance (succ : Fin d.size → List (Fin d.size × ByteSet)) (s : Search d.size) : Search d.size :=
  let acc := s.frontier.foldl (d.extend succ) (s.recorded, #[])
  ⟨acc.2, acc.1⟩

/-- Up to `k` rounds, stopping early at a full frontier. -/
def rounds (succ : Fin d.size → List (Fin d.size × ByteSet)) : Nat → Search d.size → Search d.size
  | 0, s => s
  | k + 1, s => if s.frontier.size ≥ pathLimit then s else rounds succ k (d.advance succ s)

def searchPaths (base : Fin d.size) (k : Nat) : Search d.size :=
  d.rounds (d.successorClasses d.symbolClasses) k (Search.start base)

def generatePaths (base : Fin d.size) (k : Nat) : List (Path Nat) :=
  (d.searchPaths base k).frontier.toList.map (Path.map Fin.val)

/-- The frontier of the search from the state numbered `base`; `none` when a round has to
look at a `base` that is no state. No round looks at it when `k = 0`. -/
def generatePathsAt? (base : Nat) (k : Nat) : Option (List (Path Nat)) :=
  if k = 0 then some [Path.empty base] else (d.stateAt? base).map fun q => d.generatePaths q k

end Automaton

end SkipAhead
