import SkipAhead.ByteSet.Basic
import SkipAhead.Ascending

/-!
Escape descriptions. A state is left by the bytes of its `outs` set; a scanner that
stays in the state can skip ahead to the next such byte. The scheme says how the scan
may be sharpened:

* `doubleByte pairs single`: an escape byte `i` followed by `j` leaves the state's
  behaviour only for the listed pairs `(i, j)`, or for any `j` when `i ∈ single`;
* `singleByte`: only the first escape byte is known;
* `offset k`: the `outs` bytes are looked for `k` bytes ahead.

A double-byte scheme is *ok*, that is worth using, when it has a pair, at most eight pairs
and singles together, fewer singles than pairs, and at most two singles. A scheme other
than double-byte is *broken*. Of two descriptions, one that is not broken beats one that
is, and otherwise the one with fewer escape bytes wins.
-/

namespace SkipAhead

inductive Scheme
  | doubleByte (pairs : List (UInt8 × UInt8)) (single : ByteSet)
  | singleByte
  | offset (k : Nat)
  deriving DecidableEq

structure EscapeInfo where
  outs : ByteSet
  scheme : Scheme
  deriving DecidableEq

/-- The most pairs (and pairs plus singles) a usable double-byte scheme has. -/
def maxPairs : Nat := 8

def maxSingles : Nat := 2

/-- Pairs ordered by first byte, then by second. -/
def pairKey (p : UInt8 × UInt8) : Nat := p.1.toNat * 256 + p.2.toNat

namespace EscapeInfo

def singleByte (outs : ByteSet) : EscapeInfo := ⟨outs, .singleByte⟩

/-- Escape bytes refined by the given pairs (duplicates collapse) and singles; more than
`maxPairs` distinct pairs give a single-byte description instead. -/
def doubleByte (outs : ByteSet) (pairs : List (UInt8 × UInt8)) (single : ByteSet) : EscapeInfo :=
  let ps := Ascending.ofList pairKey pairs
  if ps.length > maxPairs then singleByte outs else ⟨outs, .doubleByte ps single⟩

def withOffset (outs : ByteSet) (k : Nat) : EscapeInfo := ⟨outs, .offset k⟩

def isBroken (e : EscapeInfo) : Bool :=
  match e.scheme with
  | .doubleByte .. => false
  | _ => true

/-- The look-ahead distance: `k` for an offset scheme, `0` otherwise. -/
def offset (e : EscapeInfo) : Nat :=
  match e.scheme with
  | .offset k => k
  | _ => 0

def isDoubleByteOk (e : EscapeInfo) : Bool :=
  match e.scheme with
  | .doubleByte pairs single =>
    !pairs.isEmpty && single.card + pairs.length ≤ maxPairs && single.card < pairs.length &&
      single.card ≤ maxSingles
  | _ => false

def isBetterThan (e other : EscapeInfo) : Bool :=
  match e.isBroken, other.isBroken with
  | false, true => true
  | true, false => false
  | _, _ => e.outs.card < other.outs.card

end EscapeInfo

end SkipAhead
