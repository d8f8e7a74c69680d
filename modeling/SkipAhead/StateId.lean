/-!
State identifiers. An identifier is a natural number no larger than `StateId.limit`,
so that every identifier and one more still fit a signed 32-bit word. Making one from a
larger number fails and names the number that was tried.
-/

namespace SkipAhead

/-- The largest value a state identifier may take. -/
def StateId.limit : Nat := 2147483646

/-- A state identifier: a number no larger than `StateId.limit`. -/
structure StateId where
  val : Nat
  le_limit : val ≤ StateId.limit
  deriving DecidableEq

structure StateIdError where
  attempted : Nat
  deriving DecidableEq

namespace StateId

instance : OfNat StateId 0 := ⟨⟨0, by decide⟩⟩

/-- The identifier of `n`, or the failure that names `n` when it exceeds the limit. -/
def ofNat? (n : Nat) : Except StateIdError StateId :=
  if h : n ≤ limit then .ok ⟨n, h⟩ else .error ⟨n⟩

theorem ofNat?_eq_ok_iff {n : Nat} {i : StateId} : ofNat? n = .ok i ↔ n ≤ limit ∧ i.val = n := by
  unfold ofNat?
  split
  · constructor
    · intro h
      cases h
      exact ⟨by omega, rfl⟩
    · rintro ⟨-, rfl⟩
      rfl
  · constructor
    · intro h
      cases h
    · rintro ⟨h, -⟩
      omega

end StateId

def StateIdError.message (e : StateIdError) : String :=
  "failed to create StateID from " ++ toString e.attempted ++
    ", which exceeds StateID(" ++ toString StateId.limit ++ ")"

end SkipAhead
