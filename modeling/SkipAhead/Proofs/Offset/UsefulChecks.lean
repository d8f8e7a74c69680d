import SkipAhead.Proofs.Offset.Complete
import SkipAhead.Proofs.Offset.Irredundant

/-!
The usefulness test is only ever called within its contract. The test weighs a step against
the paths recorded at the step's target and states what it expects of them: each leads to the
step's destination and is no longer than the step. Nothing checks this as the search runs, so
here the search is followed call by call: `usefulChecks` lists, in order, what each call of
the test is given.

Two facts of the search carry the contract. After `r` rounds the table is keyed by
destination and holds paths of at most `r` steps (`KeyedWithin`). A round records only dead
copies and steps of `r + 1` steps, each at its own destination, so the table stays within
`r + 1` throughout the round. And a path the round extends is live and does not call back,
so it has exactly `r` steps and offers steps of `r + 1`; a path carried over is never
extended and makes no call.

Main statement: `usefulChecks_meetContract`.
-/

namespace SkipAhead

/-- One call of the usefulness test: the paths recorded at the target of a step, as the test
finds them, and the step. -/
structure UsefulCheck (n : Nat) where
  recorded : List (Path (Fin n))
  step : Path (Fin n)

/-- What the usefulness test expects of a call: every recorded path it is given leads to the
step's destination and is no longer than the step. -/
def UsefulCheck.MeetsContract {n : Nat} (c : UsefulCheck n) : Prop :=
  ∀ g ∈ c.recorded, g.dest = c.step.dest ∧ g.len ≤ c.step.len

namespace Search

variable {n m : Nat}

/-- The table is keyed by destination and holds paths of at most `m` steps. -/
def KeyedWithin (m : Nat) (recorded : Vector (List (Path (Fin n))) n) : Prop :=
  ∀ t, ∀ g ∈ recorded.get t, g.dest = t ∧ g.len ≤ m

theorem KeyedWithin.mono {recorded : Vector (List (Path (Fin n))) n}
    (h : KeyedWithin m recorded) {m' : Nat} (hm : m ≤ m') : KeyedWithin m' recorded :=
  fun t g hg => ⟨(h t g hg).1, Nat.le_trans (h t g hg).2 hm⟩

theorem KeyedWithin.keep {acc : Acc n} (h : KeyedWithin m acc.1) {p : Path (Fin n)}
    (hp : p.len ≤ m) : KeyedWithin m (keep acc p).1 := by
  intro t g hg
  rcases (addsFrom_keep acc p).recorded t g hg with hold | ⟨-, hdest⟩
  · exact h t g hold
  · rcases mem_keep hg with hold | rfl
    · exact h t g hold
    · exact ⟨hdest, hp⟩

end Search

namespace Automaton

variable (d : Automaton)

/-- The calls of the usefulness test made while offering the steps of `p` to the targets
`tcs` from `acc`, in order: each finds the table as the steps before it left it. -/
def stepChecks (p : Path (Fin d.size)) :
    List (Fin d.size × ByteSet) → Search.Acc d.size → List (UsefulCheck d.size)
  | [], _ => []
  | tc :: tcs, acc => ⟨acc.1.get tc.1, p.append tc.2 tc.1⟩ :: stepChecks p tcs (stepTo p acc tc)

/-- The calls made while handling `p`: none when `p` is carried over; otherwise one per
successor, after its dead copy is kept. -/
def extendChecks (succ : Fin d.size → List (Fin d.size × ByteSet)) (acc : Search.Acc d.size)
    (p : Path (Fin d.size)) : List (UsefulCheck d.size) :=
  if p.isDead || d.callsBack p.dest then []
  else d.stepChecks p (succ p.dest) (d.withDeadCopy acc p)

def frontierChecks (succ : Fin d.size → List (Fin d.size × ByteSet)) :
    List (Path (Fin d.size)) → Search.Acc d.size → List (UsefulCheck d.size)
  | [], _ => []
  | p :: ps, acc => d.extendChecks succ acc p ++ frontierChecks succ ps (d.extend succ acc p)

def roundChecks (succ : Fin d.size → List (Fin d.size × ByteSet)) (s : Search d.size) :
    List (UsefulCheck d.size) :=
  d.frontierChecks succ s.frontier.toList (s.recorded, #[])

def searchChecks (succ : Fin d.size → List (Fin d.size × ByteSet)) :
    Nat → Search d.size → List (UsefulCheck d.size)
  | 0, _ => []
  | k + 1, s =>
    if s.frontier.size ≥ pathLimit then []
    else d.roundChecks succ s ++ searchChecks succ k (d.advance succ s)

/-- The calls of the usefulness test that the search from `base` makes in `k` rounds. -/
def usefulChecks (base : Fin d.size) (k : Nat) : List (UsefulCheck d.size) :=
  d.searchChecks (d.successorClasses d.symbolClasses) k (Search.start base)

variable {d}

/-! ### The table during a round -/

section Table

variable {succ : Fin d.size → List (Fin d.size × ByteSet)} {r : Nat} {acc : Search.Acc d.size}

theorem SearchInv.keyedWithin {base : Fin d.size} {s : Search d.size}
    (h : d.SearchInv base r s) : Search.KeyedWithin r s.recorded :=
  fun t g hg => ⟨h.recorded_dest t g hg, h.recorded_len t g hg⟩

theorem keyedWithin_stepTo {p : Path (Fin d.size)}
    (h : Search.KeyedWithin (p.steps.length + 1) acc.1) (tc : Fin d.size × ByteSet) :
    Search.KeyedWithin (p.steps.length + 1) (stepTo p acc tc).1 := by
  unfold stepTo
  split
  · exact h.keep (Path.len_append p tc.2 tc.1).le
  · exact h

theorem keyedWithin_withDeadCopy {p : Path (Fin d.size)}
    (h : Search.KeyedWithin (p.steps.length + 1) acc.1) :
    Search.KeyedWithin (p.steps.length + 1) (d.withDeadCopy acc p).1 := by
  unfold withDeadCopy
  split
  · exact h.keep (Path.len_toDead p).le
  · exact h

theorem keyedWithin_extend (h : Search.KeyedWithin (r + 1) acc.1) {p : Path (Fin d.size)}
    (hgrow : p.ending = .live → d.callsBack p.dest = false → p.steps.length = r) :
    Search.KeyedWithin (r + 1) (d.extend succ acc p).1 := by
  rcases extend_cases succ acc p with ⟨-, heq⟩ | ⟨hlive, hcb, heq⟩
  · rw [heq]
    exact h
  · rw [heq]
    obtain rfl := hgrow hlive hcb
    exact List.foldlRecOn
      (motive := fun a : Search.Acc d.size => Search.KeyedWithin (p.steps.length + 1) a.1)
      _ _ (keyedWithin_withDeadCopy h) fun _ ha tc _ => keyedWithin_stepTo ha tc

end Table

/-! ### Every call meets the contract -/

section Calls

variable {succ : Fin d.size → List (Fin d.size × ByteSet)} {r : Nat}

/-- The calls made while offering the steps of `p` meet the contract, each on a step of one
step more than `p`, when the table starts within that length. -/
theorem stepChecks_meetContract {p : Path (Fin d.size)} (tcs : List (Fin d.size × ByteSet)) :
    ∀ {acc : Search.Acc d.size}, Search.KeyedWithin (p.steps.length + 1) acc.1 →
      ∀ c ∈ d.stepChecks p tcs acc,
        c.MeetsContract ∧ c.step.steps.length = p.steps.length + 1 := by
  induction tcs with
  | nil => simp [stepChecks]
  | cons tc tcs ih =>
    intro acc h c hc
    rw [stepChecks, List.mem_cons] at hc
    rcases hc with rfl | hc
    · -- the step goes to `tc.1`, where the table holds only paths ending there
      refine ⟨fun g hg => ?_, rfl⟩
      obtain ⟨hdest, hlen⟩ := h tc.1 g hg
      exact ⟨hdest, by simpa using hlen⟩
    · exact ih (keyedWithin_stepTo h tc) c hc

theorem extendChecks_meetContract {acc : Search.Acc d.size} (h : Search.KeyedWithin (r + 1) acc.1)
    {p : Path (Fin d.size)}
    (hgrow : p.ending = .live → d.callsBack p.dest = false → p.steps.length = r) :
    ∀ c ∈ d.extendChecks succ acc p, c.MeetsContract ∧ c.step.steps.length = r + 1 := by
  unfold extendChecks
  split
  · simp
  · rename_i hcarried
    obtain ⟨hlive, hcb⟩ := isDead_or_callsBack_eq_false.mp (Bool.eq_false_iff.mpr hcarried)
    obtain rfl := hgrow hlive hcb
    exact stepChecks_meetContract _ (keyedWithin_withDeadCopy h)

theorem frontierChecks_meetContract (ps : List (Path (Fin d.size)))
    (hgrow : ∀ p ∈ ps, p.ending = .live → d.callsBack p.dest = false → p.steps.length = r) :
    ∀ {acc : Search.Acc d.size}, Search.KeyedWithin (r + 1) acc.1 →
      ∀ c ∈ d.frontierChecks succ ps acc, c.MeetsContract ∧ c.step.steps.length = r + 1 := by
  induction ps with
  | nil => simp [frontierChecks]
  | cons p ps ih =>
    intro acc h c hc
    have hp := hgrow p List.mem_cons_self
    rw [frontierChecks, List.mem_append] at hc
    rcases hc with hc | hc
    · exact extendChecks_meetContract h hp c hc
    · exact ih (fun q hq => hgrow q (List.mem_cons_of_mem p hq)) (keyedWithin_extend h hp) c hc

/-- The calls of the round after `r` rounds meet the contract, each on a step of `r + 1`
steps: the paths it extends have exactly `r`. -/
theorem roundChecks_meetContract {base : Fin d.size} {s : Search d.size}
    (hinv : d.SearchInv base r s) :
    ∀ c ∈ d.roundChecks succ s, c.MeetsContract ∧ c.step.steps.length = r + 1 :=
  frontierChecks_meetContract _ (fun p hp => (hinv.sound p hp).live)
    (hinv.keyedWithin.mono (Nat.le_succ r))

theorem searchChecks_meetContract {base : Fin d.size} (k : Nat) :
    ∀ {r : Nat} {s : Search d.size}, d.SearchInv base r s →
      ∀ c ∈ d.searchChecks (d.successorClasses d.symbolClasses) k s, c.MeetsContract := by
  induction k with
  | zero => simp [searchChecks]
  | succ k ih =>
    intro r s hinv c hc
    rw [searchChecks] at hc
    split at hc
    · simp at hc
    · rcases List.mem_append.mp hc with hc | hc
      · exact (roundChecks_meetContract hinv c hc).1
      · exact ih hinv.advance c hc

end Calls

theorem full_searchPaths_of_le {base : Fin d.size} {r r' : Nat} (hrr : r ≤ r')
    (h : pathLimit ≤ (d.searchPaths base r).frontier.size) :
    pathLimit ≤ (d.searchPaths base r').frontier.size := by
  induction r', hrr using Nat.le_induction with
  | base => exact h
  | succ r' _ ih =>
    unfold searchPaths at ih ⊢
    rw [rounds_succ, if_pos ih]
    exact ih

/-- Every call of the usefulness test that the search from `base` makes in `n` rounds meets
the test's contract: each path recorded at the step's target ends there and is no longer
than the step. Two facts carry it: after `r` rounds the table is keyed by destination and
holds paths of at most `r` steps, and each call of the round after `r` rounds, when that
round runs, is on a step of exactly `r + 1` steps. -/
theorem usefulChecks_meetContract (base : Fin d.size) (n : Nat) :
    (∀ c ∈ d.usefulChecks base n, c.MeetsContract) ∧
      (∀ r, Search.KeyedWithin r (d.searchPaths base r).recorded) ∧
      ∀ r, (d.searchPaths base r).frontier.size < pathLimit →
        ∀ c ∈ d.roundChecks (d.successorClasses d.symbolClasses) (d.searchPaths base r),
          c.step.steps.length = r + 1 := by
  refine ⟨searchChecks_meetContract n (searchInv_start base), fun r => ?_, fun r hroom => ?_⟩
  · obtain ⟨r', hr', hinv⟩ := searchInv_searchPaths (d := d) base r
    exact hinv.keyedWithin.mono hr'
  · -- the round after `r` runs, so every round before it ran too
    have hroom' : ∀ r' ≤ r, (d.searchPaths base r').frontier.size < pathLimit :=
      fun r' hr' => Nat.lt_of_not_le fun hfull =>
        Nat.not_le_of_lt hroom (full_searchPaths_of_le hr' hfull)
    intro c hc
    exact (roundChecks_meetContract (searchInv_of_room hroom' r le_rfl) c hc).2

end Automaton

end SkipAhead
