import SkipAhead.ByteSet.Runs

/-!
The debug text of a byte set. A byte is shown as an ASCII escape: tab, return and
newline by their letters, the quotes and the backslash after a backslash, other
printable ASCII as itself, and anything else as two upper-case hex digits after
`\x`. The set lists its runs inside `ByteSet([` and `])`, a run of one byte as that
byte and a longer run as its two ends joined by a dash, with nothing between runs.
-/

namespace SkipAhead

namespace ByteSet

def hexDigit (n : Nat) : Char :=
  if n < 10 then Char.ofNat (48 + n) else Char.ofNat (55 + n)

/-- The ASCII escape of one byte, with upper-case hex digits. -/
def escapeByte (b : UInt8) : String :=
  match b.toNat with
  | 9 => "\\t"
  | 10 => "\\n"
  | 13 => "\\r"
  | 34 => "\\\""
  | 39 => "\\\x27"
  | 92 => "\\\\"
  | n =>
    if 32 ≤ n ∧ n ≤ 126 then String.singleton (Char.ofNat n)
    else String.ofList ['\\', 'x', hexDigit (n / 16), hexDigit (n % 16)]

def runText (r : UInt8 × UInt8) : String :=
  if r.1 = r.2 then escapeByte r.1 else escapeByte r.1 ++ "-" ++ escapeByte r.2

/-- The debug text of a set, such as `ByteSet([\x00-\x1F~])`. -/
def debugText (s : ByteSet) : String :=
  "ByteSet([" ++ String.join (s.runs.map runText) ++ "])"

end ByteSet

end SkipAhead
