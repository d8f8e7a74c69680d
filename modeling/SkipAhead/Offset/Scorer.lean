import SkipAhead.Offset.Path

/-!
Scoring the paths of a search. A scorer turns the paths and a set of bytes that end the
scan into an offset scheme: a set of bytes to look for and how far ahead to look.

The union scorer looks at each position `o` below the longest path: the bytes to look for
there are the terminating bytes together with every path's class at `o`, or all bytes
when some path is shorter. It picks the first position with the fewest bytes, and all
bytes at position `0` when no position has fewer than 256.
-/

namespace SkipAhead

structure AccelScheme where
  cr : ByteSet
  offset : Nat
  deriving DecidableEq

/-- A rule choosing an offset scheme for the paths of a search and the terminating bytes. -/
abbrev Scorer := List (Path Nat) → ByteSet → AccelScheme

namespace Scorer

def constant (s : AccelScheme) : Scorer := fun _ _ => s

/-- The terminating bytes with every path's class at position `o`, or all bytes when some
path has no step `o`; each path is given by its classes, first step first. -/
def unionAt (paths : List (List ByteSet)) (terminating : ByteSet) (o : Nat) : ByteSet :=
  match paths.mapM fun cs => cs[o]? with
  | some cs => cs.foldl ByteSet.union terminating
  | none => ByteSet.full

def depth (paths : List (List ByteSet)) : Nat :=
  (paths.map List.length).foldl max 0

/-- The first position whose union is smallest, starting from all bytes at `0`. -/
def union : Scorer := fun paths terminating =>
  let classes := paths.map Path.classes
  (List.range (depth classes)).foldl (fun best o =>
    let cr := unionAt classes terminating o
    if cr.card < best.cr.card then ⟨cr, o⟩ else best) ⟨ByteSet.full, 0⟩

end Scorer

end SkipAhead
