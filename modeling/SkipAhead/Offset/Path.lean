import SkipAhead.ByteSet.Basic

/-!
Paths of byte classes. A path from a base state lists, step by step, the set of bytes that
takes it on to the next state, and ends in a destination. A *dead* path ends where the
input may stop (a state with reports); its end counts as one more step that no byte takes.

A recorded path `g` *dominates* a path `p` when, reading both backwards from their ends
and as far as the shorter reaches, each class of `p` lies within the class of `g` at the
same place. A dominated path adds nothing to the search, and `isUseful` keeps exactly the
paths that no recorded path dominates.
-/

namespace SkipAhead

inductive Ending
  | live
  | dead
  deriving DecidableEq, Repr

/-- A path of byte classes ending in a destination of type `σ`. The steps are kept last
step first, the order in which paths are compared and extended. -/
structure Path (σ : Type) where
  steps : List ByteSet
  dest : σ
  ending : Ending := .live
  deriving DecidableEq

namespace Path

variable {σ τ : Type}

def empty (base : σ) : Path σ := ⟨[], base, .live⟩

def ofClasses (classes : List ByteSet) (dest : σ) (ending : Ending) : Path σ :=
  ⟨classes.reverse, dest, ending⟩

def classes (p : Path σ) : List ByteSet := p.steps.reverse

def isDead (p : Path σ) : Bool := p.ending == .dead

/-- The number of steps, a dead end counting as one. -/
def len (p : Path σ) : Nat := p.steps.length + if p.isDead then 1 else 0

def append (p : Path σ) (c : ByteSet) (t : σ) : Path σ := ⟨c :: p.steps, t, .live⟩

def toDead (p : Path σ) : Path σ := { p with ending := .dead }

def map (f : σ → τ) (p : Path σ) : Path τ := ⟨p.steps, f p.dest, p.ending⟩

/-- The classes from the end backwards, a dead end read as the empty class. -/
def backward (p : Path σ) : List ByteSet :=
  match p.ending with
  | .dead => ByteSet.empty :: p.steps
  | .live => p.steps

/-- Whether each class of `ps` lies in the class of `gs` at the same place, as far as
both lists reach. -/
def covers : List ByteSet → List ByteSet → Bool
  | gc :: gs, pc :: ps => pc.isSubset gc && covers gs ps
  | _, _ => true

def dominates (g p : Path σ) : Bool := covers g.backward p.backward

def isUseful (recorded : List (Path σ)) (p : Path σ) : Bool :=
  recorded.all fun g => !g.dominates p

end Path

end SkipAhead
