import SkipAhead.Accel.Table
import SkipAhead.Proofs.Accel.Reach

/-!
The acceleration table as a two-phase definition. In the first phase each live state without
a callback report keeps its strategy's description when it has few enough escape bytes, the
start proxy with the looser limit. In the second the proxy's description goes to every live
state of the proxy's region that has no description or a worse one.

The second phase writes to the table it reads. The region lists each state once, so every
state of it is looked at while it still holds its first-phase entry (`foldl_adopt_get`).

Main statement (`accelTable_eq_twoPhase`): the table is empty when acceleration is off and
otherwise lists, in ascending order, exactly the states the two-phase definition gives a
description, with that description.
-/

namespace SkipAhead

namespace EscapeInfo

theorem isBetterThan_self (e : EscapeInfo) : e.isBetterThan e = false := by
  unfold isBetterThan
  cases e.isBroken <;> exact decide_eq_false (Nat.lt_irrefl _)

theorem isBetterThan_asymm {e e' : EscapeInfo} (h : e.isBetterThan e' = true) :
    e'.isBetterThan e = false := by
  revert h
  unfold isBetterThan
  cases e.isBroken <;> cases e'.isBroken <;> simp <;> omega

end EscapeInfo

namespace Automaton

variable (d : Automaton)

def phaseOne (settings : Settings) (strategy : Strategy d.size) (q : Fin d.size) :
    Option EscapeInfo :=
  if q ≠ d.dead ∧ ¬(d.generatesCallbacks = true ∧ d.hasReports q = true) ∧
      (strategy q).outs.card ≤
        (if q = d.startProxy then settings.floatingStopLimit else settings.stopLimit)
  then some (strategy q) else none

/-- The description of `q` after both phases: with no first-phase description at the proxy,
the first phase; otherwise the proxy's description `info` for each live state of its region
that has no description or one `info` is better than. -/
def twoPhase (settings : Settings) (strategy : Strategy d.size) (q : Fin d.size) :
    Option EscapeInfo :=
  (d.phaseOne settings strategy d.startProxy).elim (d.phaseOne settings strategy q) fun info =>
    if (d.region d.startProxy info).contains q = true ∧ q ≠ d.dead ∧
        (d.phaseOne settings strategy q).all info.isBetterThan = true
    then some info else d.phaseOne settings strategy q

variable {d}

theorem ownEntry_eq_phaseOne (settings : Settings) (strategy : Strategy d.size) (q : Fin d.size) :
    d.ownEntry settings strategy q = d.phaseOne settings strategy q := by
  unfold ownEntry phaseOne
  by_cases hq : q = d.dead
  · simp [hq]
  · by_cases hc : d.generatesCallbacks = true ∧ d.hasReports q = true
    · simp [hq, hc]
    · simp [hq, hc]

theorem get_ownEntries (settings : Settings) (strategy : Strategy d.size) (q : Fin d.size) :
    (d.ownEntries settings strategy).get q = d.phaseOne settings strategy q := by
  rw [← ownEntry_eq_phaseOne]
  exact Vector.getElem_ofFn q.isLt

theorem get_adopt (info : EscapeInfo) (table : Vector (Option EscapeInfo) d.size)
    (s q : Fin d.size) :
    (d.adopt info table s).get q =
      if q = s ∧ s ≠ d.dead ∧ (table.get s).all info.isBetterThan = true then some info
      else table.get q := by
  unfold adopt
  by_cases hd : s = d.dead
  · simp [hd]
  · by_cases ht : (table.get s).all info.isBetterThan = true
    · rw [if_neg hd, if_pos ht, get_setIfInBounds]
      by_cases hq : q = s <;> simp [hq, hd, ht]
    · rw [if_neg hd, if_neg ht]
      simp [ht]

/-- The frame argument of the second phase: visiting the states of a list without repeats,
each state of the list is decided on its entry before the visits. -/
theorem foldl_adopt_get (info : EscapeInfo) (L : List (Fin d.size)) (hL : L.Nodup)
    (table : Vector (Option EscapeInfo) d.size) (q : Fin d.size) :
    (L.foldl (d.adopt info) table).get q =
      if L.contains q = true ∧ q ≠ d.dead ∧ (table.get q).all info.isBetterThan = true then some info
      else table.get q := by
  induction L generalizing table with
  | nil => simp
  | cons s rest ih =>
    obtain ⟨hs, hrest⟩ := List.nodup_cons.mp hL
    simp only [List.contains_iff_mem] at ih ⊢
    rw [List.foldl_cons, ih hrest, get_adopt]
    -- the visited state is not visited again, and any other state is left alone by the visit
    by_cases hq : q = s
    · subst hq
      simp [hs]
    · simp [hq]

theorem get_spread (table : Vector (Option EscapeInfo) d.size) (q : Fin d.size) :
    (d.spread table).get q =
      (table.get d.startProxy).elim (table.get q) fun info =>
        if (d.region d.startProxy info).contains q = true ∧ q ≠ d.dead ∧
            (table.get q).all info.isBetterThan = true
        then some info else table.get q := by
  unfold spread
  cases h : table.get d.startProxy with
  | none => rfl
  | some info => exact foldl_adopt_get _ _ (region_nodup _ _) _ _

theorem get_spread_ownEntries (settings : Settings) (strategy : Strategy d.size) (q : Fin d.size) :
    (d.spread (d.ownEntries settings strategy)).get q = d.twoPhase settings strategy q := by
  rw [get_spread, twoPhase, get_ownEntries, get_ownEntries]

theorem twoPhase_dead (settings : Settings) (strategy : Strategy d.size) :
    d.twoPhase settings strategy d.dead = none := by
  have h1 : d.phaseOne settings strategy d.dead = none := by simp [phaseOne]
  unfold twoPhase
  cases d.phaseOne settings strategy d.startProxy <;> simp [h1]

theorem twoPhase_startProxy {settings : Settings} {strategy : Strategy d.size} {info : EscapeInfo}
    (h : d.phaseOne settings strategy d.startProxy = some info) :
    d.twoPhase settings strategy d.startProxy = some info := by
  unfold twoPhase
  rw [h]
  -- the entry is `info` whether or not the proxy takes its own description again
  exact ite_self _

/-- A description given in the second phase is never worse than the first-phase one. -/
theorem twoPhase_not_worse {settings : Settings} {strategy : Strategy d.size} {q : Fin d.size}
    {e e' : EscapeInfo} (h : d.phaseOne settings strategy q = some e)
    (h' : d.twoPhase settings strategy q = some e') : e.isBetterThan e' = false := by
  unfold twoPhase at h'
  cases hp : d.phaseOne settings strategy d.startProxy with
  | none =>
    rw [hp, Option.elim_none, h] at h'
    cases h'
    exact e.isBetterThan_self
  | some info =>
    rw [hp, Option.elim_some] at h'
    split at h'
    · rename_i hc
      cases h'
      rw [h, Option.all_some] at hc
      exact EscapeInfo.isBetterThan_asymm hc.2.2
    · rw [h] at h'
      cases h'
      exact e.isBetterThan_self

theorem mem_filterMap_states {g : Fin d.size → Option EscapeInfo} {q : Fin d.size}
    {e : EscapeInfo} :
    (q, e) ∈ d.states.filterMap (fun q => (g q).map fun e => (q, e)) ↔ g q = some e := by
  simp [states]

theorem accelTable_eq_filterMap (settings : Settings) (strategy : Strategy d.size) :
    d.accelTable settings strategy =
      if settings.accelerates then
        d.states.filterMap fun q => (d.twoPhase settings strategy q).map fun e => (q, e)
      else [] := by
  unfold accelTable
  split
  · simp only [get_spread_ownEntries]
  · rfl

/-- The acceleration table is the two-phase definition: empty with acceleration off, and
otherwise each state with the description `twoPhase` gives it, in ascending order. So the
dead state never has a description, the proxy keeps its own, and no state trades its
first-phase description for one that description is better than. -/
theorem accelTable_eq_twoPhase (settings : Settings) (strategy : Strategy d.size) :
    d.accelTable settings strategy =
        (if settings.accelerates then
          d.states.filterMap fun q => (d.twoPhase settings strategy q).map fun e => (q, e)
        else []) ∧
      (∀ e, (d.dead, e) ∉ d.accelTable settings strategy) ∧
      (settings.accelerates = true → ∀ info,
        d.phaseOne settings strategy d.startProxy = some info →
        (d.startProxy, info) ∈ d.accelTable settings strategy) ∧
      (∀ q e e', d.phaseOne settings strategy q = some e →
        (q, e') ∈ d.accelTable settings strategy → e.isBetterThan e' = false) := by
  have heq := accelTable_eq_filterMap settings strategy
  have hmem : ∀ q e, (q, e) ∈ d.accelTable settings strategy ↔
      settings.accelerates = true ∧ d.twoPhase settings strategy q = some e := by
    intro q e
    rw [heq]
    by_cases hacc : settings.accelerates = true
    · rw [if_pos hacc, mem_filterMap_states]
      simp [hacc]
    · simp [hacc]
  refine ⟨heq, ?_, ?_, ?_⟩
  · intro e h
    rw [hmem, twoPhase_dead] at h
    cases h.2
  · intro hacc info h
    exact (hmem _ _).mpr ⟨hacc, twoPhase_startProxy h⟩
  · intro q e e' h h'
    exact twoPhase_not_worse h ((hmem _ _).mp h').2

end Automaton

end SkipAhead
