import SkipAhead.Automaton.Basic
import SkipAhead.Escape.Info
import SkipAhead.Offset.Search
import SkipAhead.Offset.Scorer

/-!
The escape description of a state. The bytes are scanned in ascending order; a byte that
leaves the state is an escape. For an escape byte `i` to successor `t`, the second bytes
`j` on which `t` and the state part ways are collected: up to eight give the pairs
`(i, j)`, more make `i` a single. The scheme breaks, leaving a single-byte description,
when an escape enters a reporting state of an automaton with callbacks or when more than
eight pairs pile up.

The floating start of an automaton that is not triggered, when its double-byte scheme is
not worth using, may instead look ahead: the search for paths runs one round past the
largest offset, the scorer picks an offset scheme, and that scheme wins when it has
strictly fewer bytes.
-/

namespace SkipAhead

namespace Automaton

variable (d : Automaton)

/-- What the scan of the escape bytes has found so far. -/
structure EscapeScan where
  outs : ByteSet := ByteSet.empty
  pairs : List (UInt8 × UInt8) := []
  single : ByteSet := ByteSet.empty
  broken : Bool := false

/-- The bytes on which `t` and `q` lead to different states, ascending. -/
def differingBytes (q t : Fin d.size) : List UInt8 :=
  ByteSet.allBytes.filter fun j => d.next t j != d.next q j

def scanByte (q : Fin d.size) (s : EscapeScan) (i : UInt8) : EscapeScan :=
  let t := d.next q i
  if t = q then s
  else
    let s := { s with
      outs := s.outs.insert i
      broken := s.broken || (d.generatesCallbacks && d.hasReports t) }
    if s.broken then s
    else
      let diffs := (d.differingBytes q t).take (maxPairs + 1)
      let s := if diffs.length > maxPairs then { s with single := s.single.insert i }
        else { s with pairs := s.pairs ++ diffs.map fun j => (i, j) }
      if s.pairs.length > maxPairs then { s with broken := true } else s

/-- The escape description of `q` from its own transitions alone. -/
def localEscapeInfo (q : Fin d.size) : EscapeInfo :=
  let s := ByteSet.allBytes.foldl (d.scanByte q) {}
  if s.broken then .singleByte s.outs else .doubleByte s.outs s.pairs s.single

/-- The offset description of `base`: the scorer's choice for the paths of a search of
`maxOffset + 1` rounds, with no terminating byte. -/
def offsetInfo (base : Fin d.size) (maxOffset : Nat) (scorer : Scorer) : EscapeInfo :=
  let s := scorer (d.generatePaths base (maxOffset + 1)) ByteSet.empty
  .withOffset s.cr s.offset

def seeksOffset (q : Fin d.size) (info : EscapeInfo) : Bool :=
  !info.isDoubleByteOk && !d.kind.isTriggered && q == d.startFloating && q != d.dead

def escapeInfo (q : Fin d.size) (maxOffset : Nat) (scorer : Scorer) : EscapeInfo :=
  let info := d.localEscapeInfo q
  if d.seeksOffset q info then
    let off := d.offsetInfo q maxOffset scorer
    if off.outs.card < info.outs.card then off else info
  else info

def escapeInfoAt? (q : Nat) (maxOffset : Nat) (scorer : Scorer) : Option EscapeInfo :=
  (d.stateAt? q).map fun s => d.escapeInfo s maxOffset scorer

def offsetInfoAt? (base : Nat) (maxOffset : Nat) (scorer : Scorer) : Option EscapeInfo :=
  (d.stateAt? base).map fun s => d.offsetInfo s maxOffset scorer

end Automaton

end SkipAhead
