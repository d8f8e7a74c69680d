import SkipAhead.StateId
import SkipAhead.Automaton.Basic

/-!
Building an automaton from a blueprint. A blueprint holds raw numbers: a symbol for each
byte, a row of target states for each state, and the two start states. Building checks,
in this order, that there is a state at all, that there are no more states than state
identifiers, that every byte's symbol is in the alphabet
(first offending byte wins), that each state in turn has one target per symbol and only
targets that exist (first offending symbol wins), that the dead state only leads back to
itself, and that the anchored and then the floating start exist. The first failed check
is the answer; when all pass, the proofs of the checks give the bounds of `Automaton`.
-/

namespace SkipAhead

structure StateSpec where
  next : Array StateId
  reports : List Nat := []
  eodReports : List Nat := []

/-- An unchecked description of an automaton: a symbol for each byte, and for each state its
targets by symbol and its reports. -/
structure Blueprint where
  kind : DFAKind
  alphabetLen : Nat
  symbolOf : Vector Nat 256
  states : Array StateSpec
  startAnchored : StateId := 0
  startFloating : StateId := 0

inductive Start
  | anchored
  | floating
  deriving DecidableEq, Repr

/-- Why a blueprint does not describe an automaton. -/
inductive BuildError
  | noStates
  | tooManyStates
  | invalidAlphabet (byte : UInt8) (symbol alphabetLen : Nat)
  | transitionCount (state given expected : Nat)
  | invalidTransition (state symbol target : Nat)
  | deadStateNotAbsorbing
  | invalidStart (start : Start) (state : Nat)
  deriving DecidableEq, Repr

def Start.name : Start → String
  | anchored => "anchored"
  | floating => "floating"

def BuildError.message : BuildError → String
  | noStates => "DFA must contain at least the dead state"
  | tooManyStates => "number of DFA states exceeds limit of " ++ toString (StateId.limit + 1)
  | invalidAlphabet b a k =>
    "byte " ++ toString b.toNat ++ " maps to symbol " ++ toString a ++
      " but the alphabet only has " ++ toString k ++ " symbols"
  | transitionCount q given expected =>
    "state " ++ toString q ++ " has " ++ toString given ++
      " transitions, but the alphabet has " ++ toString expected ++ " symbols"
  | invalidTransition q a t =>
    "state " ++ toString q ++ " transitions on symbol " ++ toString a ++ " to state " ++
      toString t ++ ", which does not exist"
  | deadStateNotAbsorbing => "every transition of the dead state must lead back to it"
  | invalidStart s q => s.name ++ " start state " ++ toString q ++ " does not exist"

namespace Blueprint

def identitySymbols : Vector Nat 256 := Vector.ofFn fun i => i.val

/-- The symbol map of a list of byte classes: a byte's symbol is one more than the index of
the first class holding it, and `0` when no class does. -/
def classSymbols (classes : List ByteSet) : Vector Nat 256 :=
  Vector.ofFn fun i =>
    match classes.findIdx? (fun c => c.contains i.val.toUInt8) with
    | some k => k + 1
    | none => 0

def checkSymbols (k : Nat) (symbolOf : Vector Nat 256) :
    Except BuildError (Vector (Fin k) 256) :=
  symbolOf.mapFinIdxM fun i a _ =>
    if h : a < k then pure ⟨a, h⟩ else throw (.invalidAlphabet i.toUInt8 a k)

def checkRow (n k q : Nat) (st : StateSpec) : Except BuildError (Vector (Fin n) k) :=
  if h : st.next.size = k then
    (Vector.mk st.next h).mapFinIdxM fun a t _ =>
      if ht : t.val < n then pure ⟨t.val, ht⟩ else throw (.invalidTransition q a t.val)
  else throw (.transitionCount q st.next.size k)

/-- The checked automaton, or the first check it fails. -/
def build (bp : Blueprint) : Except BuildError Automaton :=
  if hn : 0 < bp.states.size then
    if hlim : StateId.limit + 1 < bp.states.size then throw .tooManyStates
    else do
      let symbolOf ← checkSymbols bp.alphabetLen bp.symbolOf
      let table ← (Vector.mk bp.states rfl).mapFinIdxM fun q st _ =>
        checkRow bp.states.size bp.alphabetLen q st
      if hdead : ∀ a : Fin bp.alphabetLen, (table.get ⟨0, hn⟩).get a = ⟨0, hn⟩ then
        if ha : bp.startAnchored.val < bp.states.size then
          if hf : bp.startFloating.val < bp.states.size then
            pure {
              kind := bp.kind
              size := bp.states.size
              alphabetLen := bp.alphabetLen
              symbolOf := symbolOf
              table := table
              reports := (Vector.mk bp.states rfl).map (·.reports)
              eodReports := (Vector.mk bp.states rfl).map (·.eodReports)
              startAnchored := ⟨bp.startAnchored.val, ha⟩
              startFloating := ⟨bp.startFloating.val, hf⟩
              size_pos := hn
              size_le := Nat.le_of_not_lt hlim
              dead_absorbing := hdead }
          else throw (.invalidStart .floating bp.startFloating.val)
        else throw (.invalidStart .anchored bp.startAnchored.val)
      else throw .deadStateNotAbsorbing
  else throw .noStates

end Blueprint

end SkipAhead
