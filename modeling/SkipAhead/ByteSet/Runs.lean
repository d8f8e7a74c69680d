import SkipAhead.ByteSet.Basic

/-!
Runs of a byte set: its members grouped into maximal blocks of consecutive values, each
written as its least and greatest byte. The range iterator yields them with a cursor that
walks the byte values upwards from `0`. Each call skips the bytes outside the set; at the
first member it starts a run, extends the run while the cursor is on a member, and leaves
the cursor on the first byte past the run. Once the cursor is past `255` there is nothing
more.
-/

namespace SkipAhead

namespace ByteSet

/-- The inner loop of the range iterator: while the cursor `b` is a byte of `s`, the run
now ends there and the cursor moves on. Returns the end of the run and the cursor. -/
def extendRun (s : ByteSet) (stop : UInt8) (b : Nat) : UInt8 × Nat :=
  if b ≤ 255 ∧ s.contains (UInt8.ofNat b) = true then s.extendRun (UInt8.ofNat b) (b + 1)
  else (stop, b)
termination_by 256 - b

/-- One call of the range iterator from the cursor `b`: the run it yields and the cursor
after it, or `none` once the cursor has passed `255`. -/
def nextRun (s : ByteSet) (b : Nat) : Option ((UInt8 × UInt8) × Nat) :=
  if b ≤ 255 then
    if s.contains (UInt8.ofNat b) then
      let ext := s.extendRun (UInt8.ofNat b) (b + 1)
      some ((UInt8.ofNat b, ext.1), ext.2)
    else s.nextRun (b + 1)
  else none
termination_by 256 - b

theorem le_extendRun (s : ByteSet) (stop : UInt8) (b : Nat) : b ≤ (s.extendRun stop b).2 := by
  fun_induction extendRun s stop b with
  | case1 b _ _ ih => omega
  | case2 => exact Nat.le_refl _

/-- Each call starts at or after the cursor, below `256`, and moves the cursor past it. -/
theorem lt_of_nextRun_eq_some {s : ByteSet} {b c : Nat} {r : UInt8 × UInt8}
    (h : s.nextRun b = some (r, c)) : b < c ∧ b < 256 := by
  fun_induction nextRun s b with
  | case1 b hb _ =>
    have hc : (s.extendRun (UInt8.ofNat b) (b + 1)).2 = c := by
      simp only [Option.some.injEq, Prod.mk.injEq] at h
      exact h.2
    have := le_extendRun s (UInt8.ofNat b) (b + 1)
    omega
  | case2 b hb _ ih =>
    have := ih h
    omega
  | case3 => cases h

def runsFrom (s : ByteSet) (b : Nat) : List (UInt8 × UInt8) :=
  match hnext : s.nextRun b with
  | none => []
  | some (r, c) =>
    have : 256 - c < 256 - b := by
      have := lt_of_nextRun_eq_some hnext
      omega
    r :: s.runsFrom c
termination_by 256 - b

/-- The maximal runs of `s`, in ascending order, as the range iterator yields them. -/
def runs (s : ByteSet) : List (UInt8 × UInt8) := s.runsFrom 0

end ByteSet

end SkipAhead
