/-!
Strictly ascending lists under a numeric key. Inserting an element places it before the
first element of larger key and drops it when an element of equal key is present, so an
ascending list stays ascending and holds each key once.
-/

namespace SkipAhead

namespace Ascending

/-- Inserts `a` into a list that ascends strictly by `key`. -/
def insert {α : Type} (key : α → Nat) (a : α) : List α → List α
  | [] => [a]
  | c :: rest =>
    if key a < key c then a :: c :: rest
    else if key a = key c then c :: rest
    else c :: insert key a rest

/-- The elements of `xs`, one per key, ascending by key. -/
def ofList {α : Type} (key : α → Nat) (xs : List α) : List α :=
  xs.foldl (fun acc a => insert key a acc) []

end Ascending

end SkipAhead
