/-!
Settings of the acceleration table. Each setting may be left unset; reading it then
gives its default. Laying one set of settings over another keeps the upper one's set
fields and fills the rest from the lower one.
-/

namespace SkipAhead

/-- Options for building the acceleration table; `none` means "use the default".
`maxStopChar` bounds the escape bytes of a state other than the start, `maxFloatingStopChar`
those of the floating start or its proxy, and `maxOffset` how far the offset search looks. -/
structure Settings where
  accelerate : Option Bool := none
  maxStopChar : Option Nat := none
  maxFloatingStopChar : Option Nat := none
  maxOffset : Option Nat := none
  deriving DecidableEq

namespace Settings

def defaultMaxOffset : Nat := 4

def accelerates (s : Settings) : Bool := s.accelerate.getD true

def stopLimit (s : Settings) : Nat := s.maxStopChar.getD 160

def floatingStopLimit (s : Settings) : Nat := s.maxFloatingStopChar.getD 192

def offsetLimit (s : Settings) : Nat := s.maxOffset.getD defaultMaxOffset

/-- The look-ahead of the analysing strategy: the default, or the limit of `s` once the
strategy is configured by `s`. -/
def strategyOffset (s : Settings) (configured : Bool) : Nat :=
  if configured then s.offsetLimit else defaultMaxOffset

/-- `upper` laid over `lower`: each field of `upper` that is set wins. -/
def overwrite (lower upper : Settings) : Settings where
  accelerate := upper.accelerate.or lower.accelerate
  maxStopChar := upper.maxStopChar.or lower.maxStopChar
  maxFloatingStopChar := upper.maxFloatingStopChar.or lower.maxFloatingStopChar
  maxOffset := upper.maxOffset.or lower.maxOffset

end Settings

end SkipAhead
