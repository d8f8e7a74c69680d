import SkipAhead.ByteSet.Basic
import SkipAhead.StateId
import SkipAhead.Ascending
import SkipAhead.Automaton.Kind

/-!
Checked byte automata. Bytes are first mapped to symbols of a smaller alphabet, and each
state has one successor per symbol. The bounds live in the types: a symbol is a
`Fin alphabetLen`, a state a `Fin size`, so every lookup is total. State `0` is the dead
state, and every transition out of it leads back to it.

Besides the `Fin` lookups the module offers `stateAt?` and `nextAt?` on plain numbers;
these are `none` exactly for a number that is no state.
-/

namespace SkipAhead

/-- A checked automaton over bytes; build one with `Blueprint.build`. Each state has its
successor on each symbol in `table`, the reports raised on entering it in `reports`, and those
raised when the input ends there in `eodReports`. -/
structure Automaton where
  kind : DFAKind
  size : Nat
  alphabetLen : Nat
  symbolOf : Vector (Fin alphabetLen) 256
  table : Vector (Vector (Fin size) alphabetLen) size
  reports : Vector (List Nat) size
  eodReports : Vector (List Nat) size
  startAnchored : Fin size
  startFloating : Fin size
  size_pos : 0 < size
  size_le : size ≤ StateId.limit + 1
  dead_absorbing : ∀ a : Fin alphabetLen, (table.get ⟨0, size_pos⟩).get a = ⟨0, size_pos⟩

namespace Automaton

variable (d : Automaton)

def dead : Fin d.size := ⟨0, d.size_pos⟩

def symbol (b : UInt8) : Fin d.alphabetLen := d.symbolOf.get b.toFin

def step (q : Fin d.size) (a : Fin d.alphabetLen) : Fin d.size := (d.table.get q).get a

def next (q : Fin d.size) (b : UInt8) : Fin d.size := d.step q (d.symbol b)

def hasReports (q : Fin d.size) : Bool := !(d.reports.get q).isEmpty

def hasEodReports (q : Fin d.size) : Bool := !(d.eodReports.get q).isEmpty

def generatesCallbacks : Bool := d.kind.generatesCallbacks

/-- All states in ascending order. There are no more of them than state identifiers
(`size_le`), which is what enumerating them asserts. -/
def states : List (Fin d.size) := List.finRange d.size

def stateAt? (q : Nat) : Option (Fin d.size) := if h : q < d.size then some ⟨q, h⟩ else none

def nextAt? (q : Nat) (b : UInt8) : Option Nat := (d.stateAt? q).map fun s => (d.next s b).val

/-- The distinct symbols of the bytes of `s`, ascending. -/
def symbolsOf (s : ByteSet) : List (Fin d.alphabetLen) :=
  Ascending.ofList Fin.val (s.toList.map d.symbol)

def usedSymbols : List (Fin d.alphabetLen) := d.symbolsOf ByteSet.full

theorem stateAt?_eq_some_iff {q : Nat} {s : Fin d.size} : d.stateAt? q = some s ↔ s.val = q := by
  unfold stateAt?
  split
  · constructor
    · intro h
      cases h
      rfl
    · intro h
      subst h
      rfl
  · constructor
    · intro h
      cases h
    · intro h
      have := s.isLt
      omega

end Automaton

end SkipAhead
