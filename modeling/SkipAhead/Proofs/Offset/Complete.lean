import SkipAhead.Proofs.Offset.Walks

/-!
Pruning loses no walk while the path limit never bites. Every walk from the base that
leaves no state calling back before its end is dominated, at its last state, by a path the
search recorded there, no longer than the walk; so the walk itself would be pruned.

The argument is an induction on the length of the walk. A live path recorded at a state
that does not call back sits in the frontier of the round that recorded it (a path is
recorded only when the generation takes it), so the next round offers its step along the
walk; that step is either kept and recorded, or dominated by a path recorded earlier, and
no recorded path is longer than the round that recorded it, so dominance carries over to
the longer walk.

Main statement: `searchPaths_complete`.
-/

namespace SkipAhead.Automaton

variable {d : Automaton}

variable (d) in
def classOf (q t : Fin d.size) : ByteSet := ByteSet.filter fun b => d.next q b = t

variable (d) in
/-- The live path along the first `k` steps of the walk `q`: its classes are the bytes from
each state to the next, and it ends in `q k`. -/
def walkPath (q : Nat → Fin d.size) (k : Nat) : Path (Fin d.size) :=
  Path.ofClasses ((List.range k).map fun m => d.classOf (q m) (q (m + 1))) (q k) .live

theorem walkPath_succ (q : Nat → Fin d.size) (k : Nat) :
    d.walkPath q (k + 1) = (d.walkPath q k).append (d.classOf (q k) (q (k + 1))) (q (k + 1)) := by
  simp [walkPath, Path.ofClasses, Path.append, List.range_succ]

@[simp] theorem ending_walkPath (q : Nat → Fin d.size) (k : Nat) :
    (d.walkPath q k).ending = .live := rfl

section Complete

variable {base : Fin d.size} {n : Nat}

theorem searchInv_of_room (hroom : ∀ r ≤ n, (d.searchPaths base r).frontier.size < pathLimit) :
    ∀ r ≤ n, d.SearchInv base r (d.searchPaths base r) := by
  intro r
  induction r with
  | zero => exact fun _ => searchInv_start base
  | succ r ih =>
    intro hr
    rw [searchPaths_succ base (hroom r (by omega))]
    exact (ih (by omega)).advance

theorem mem_recorded_searchPaths_succ {r : Nat} {t : Fin d.size} {g : Path (Fin d.size)}
    (h : g ∈ (d.searchPaths base r).recorded.get t) :
    g ∈ (d.searchPaths base (r + 1)).recorded.get t := by
  obtain ⟨r', -, hinv⟩ := searchInv_searchPaths (d := d) base r
  unfold searchPaths at h ⊢
  rw [rounds_succ]
  split
  · exact h
  · exact mem_recorded_advance hinv.base_recorded h

theorem mem_recorded_searchPaths_of_le {r r' : Nat} (hrr : r ≤ r') {t : Fin d.size}
    {g : Path (Fin d.size)} (h : g ∈ (d.searchPaths base r).recorded.get t) :
    g ∈ (d.searchPaths base r').recorded.get t := by
  induction r', hrr using Nat.le_induction with
  | base => exact h
  | succ r' _ ih => exact mem_recorded_searchPaths_succ ih

/-- A live path recorded at a state that does not call back was taken into the frontier of
the round that recorded it, the round numbered by its steps. -/
theorem mem_frontier_of_recorded
    (hroom : ∀ r ≤ n, (d.searchPaths base r).frontier.size < pathLimit) :
    ∀ r ≤ n, ∀ t, ∀ g ∈ (d.searchPaths base r).recorded.get t, g.ending = .live →
      d.callsBack g.dest = false →
        g.steps.length ≤ r ∧ g ∈ (d.searchPaths base g.steps.length).frontier.toList := by
  have hinv := searchInv_of_room hroom
  intro r
  induction r with
  | zero =>
    -- at the start only the empty path is recorded, and it is the whole frontier
    intro _ t g hg _ _
    obtain ⟨-, rfl⟩ := Search.mem_recorded_start.mp hg
    simp [Path.empty, searchPaths, rounds, Search.start]
  | succ r ih =>
    intro hr t g hg hlive hcb
    rw [searchPaths_succ base (hroom r (by omega))] at hg
    rcases recorded_advance (hinv r (by omega)).base_recorded hg with hold | ⟨hnew, -⟩
    · have := ih (by omega) t g hold hlive hcb
      exact ⟨by omega, this.2⟩
    · -- recorded in this round: a live path that may grow has exactly `r + 1` steps
      rw [← searchPaths_succ base (hroom r (by omega))] at hnew
      have hlen := ((hinv (r + 1) hr).sound g hnew).live hlive hcb
      rw [hlen]
      exact ⟨le_refl _, hnew⟩

/-- The induction on the length of the walk: after `k` rounds, a live path no longer than
`k` recorded at the end of the first `k` steps dominates them. -/
theorem exists_recorded_dominating
    (hroom : ∀ r ≤ n, (d.searchPaths base r).frontier.size < pathLimit)
    (q : Nat → Fin d.size) (hq0 : q 0 = base) :
    ∀ k ≤ n, (∀ m < k, ∃ b, d.next (q m) b = q (m + 1)) →
      (∀ m < k, d.callsBack (q m) = false) →
      ∃ g ∈ (d.searchPaths base k).recorded.get (q k),
        g.ending = .live ∧ g.len ≤ k ∧ g.dominates (d.walkPath q k) = true := by
  have hinv := searchInv_of_room hroom
  intro k
  induction k with
  | zero =>
    intro hn _ _
    refine ⟨Path.empty base, ?_, rfl, by simp [Path.empty, Path.len, Path.isDead],
      Path.empty_dominates _ _⟩
    rw [hq0]
    exact (hinv 0 hn).base_recorded
  | succ k ih =>
    intro hk hstep hcb
    obtain ⟨g, hg, hglive, hglen, hdom⟩ :=
      ih (by omega) (fun m hm => hstep m (by omega)) (fun m hm => hcb m (by omega))
    have hdest : g.dest = q k := (hinv k (by omega)).recorded_dest _ g hg
    have hcbk : d.callsBack g.dest = false := hdest ▸ hcb k (by omega)
    -- `g` sits in the frontier of the round `j` that recorded it
    obtain ⟨hj, hfront⟩ := mem_frontier_of_recorded hroom k (by omega) (q k) g hg hglive hcbk
    have hsucc := searchPaths_succ base (hroom g.steps.length (by omega))
    -- so round `j + 1` offers its step along the walk
    have htc : (q (k + 1), d.classOf (q k) (q (k + 1))) ∈
        d.successorClasses d.symbolClasses g.dest := by
      rw [hdest]
      exact mem_successorClasses.mpr ⟨hstep k (by omega), rfl⟩
    obtain ⟨h, hh, hhdom⟩ := exists_dominating_of_advance (hinv _ (by omega)).base_recorded
      hfront hglive hcbk htc (by rw [← hsucc]; exact hroom _ (by omega))
    rw [← hsucc] at hh
    have hhlen : h.len ≤ g.steps.length + 1 := (hinv _ (by omega)).recorded_len _ h hh
    have hstepdom : (g.append (d.classOf (q k) (q (k + 1))) (q (k + 1))).dominates
        (d.walkPath q (k + 1)) = true := by
      rw [walkPath_succ]
      exact Path.dominates_append hglive (ending_walkPath q k) hdom _ _ _
    have hne : ∃ b, (d.classOf (q k) (q (k + 1))).contains b = true := by
      obtain ⟨b, hb⟩ := hstep k (by omega)
      exact ⟨b, by simp [classOf, hb]⟩
    refine ⟨h, mem_recorded_searchPaths_of_le (by omega) hh,
      Path.live_of_dominates_append hhdom hne, by omega, ?_⟩
    exact Path.dominates_trans hhdom hstepdom (by simpa using hhlen)

end Complete

/-- Pruning loses no walk while the path limit never bites. When no generation of a search of
`n` rounds from `base` fills up, every walk `base = q 0, …, q k` of at most `n` transitions
that leaves no state calling back before its end is dominated, at `q k`, by a path recorded
there and no longer than `k`: lined up from their ends, each class of the walk lies within
the class of the recorded path. So the walk would be pruned as not useful. -/
theorem searchPaths_complete (base : Fin d.size) (n : Nat)
    (hroom : ∀ r ≤ n, (d.searchPaths base r).frontier.size < pathLimit)
    (k : Nat) (hk : k ≤ n) (q : Nat → Fin d.size) (hq0 : q 0 = base)
    (hstep : ∀ m < k, ∃ b, d.next (q m) b = q (m + 1))
    (hcb : ∀ m < k, d.callsBack (q m) = false) :
    (∃ g ∈ (d.searchPaths base n).recorded.get (q k),
        g.len ≤ k ∧ g.dominates (d.walkPath q k) = true) ∧
      Path.isUseful ((d.searchPaths base n).recorded.get (q k)) (d.walkPath q k) = false := by
  obtain ⟨g, hg, -, hlen, hdom⟩ := exists_recorded_dominating hroom q hq0 k hk hstep hcb
  have hgn := mem_recorded_searchPaths_of_le hk hg
  exact ⟨⟨g, hgn, hlen, hdom⟩, Path.isUseful_eq_false_iff.mpr ⟨g, hgn, hdom⟩⟩


/-- Two live states that swap on the byte `a` and stay put on every other byte. -/
def swapOnA : Automaton where
  kind := .Prefix
  size := 3
  alphabetLen := 2
  symbolOf := Vector.ofFn fun b => ⟨(decide (b.val = 97)).toNat, Bool.toNat_lt _⟩
  table := #v[#v[0, 0], #v[1, 2], #v[2, 1]]
  reports := #v[[], [], []]
  eodReports := #v[[], [], []]
  startAnchored := 1
  startFloating := 1
  size_pos := by decide
  size_le := by decide
  dead_absorbing := by decide

theorem searchPaths_complete_swapOnA :
    let q : Nat → Fin swapOnA.size := fun m =>
      if m = 1 then swapOnA.next swapOnA.startFloating 97 else swapOnA.startFloating
    (∀ r ≤ 2, (swapOnA.searchPaths swapOnA.startFloating r).frontier.size < pathLimit) ∧
      2 ≤ 2 ∧ q 0 = swapOnA.startFloating ∧ (∀ m < 2, ∃ b, swapOnA.next (q m) b = q (m + 1)) ∧
      (∀ m < 2, swapOnA.callsBack (q m) = false) ∧
      ((∃ g ∈ (swapOnA.searchPaths swapOnA.startFloating 2).recorded.get (q 2),
          g.len ≤ 2 ∧ g.dominates (swapOnA.walkPath q 2) = true) ∧
        Path.isUseful ((swapOnA.searchPaths swapOnA.startFloating 2).recorded.get (q 2))
          (swapOnA.walkPath q 2) = false) := by
  intro q
  have hroom :
      ∀ r ≤ 2, (swapOnA.searchPaths swapOnA.startFloating r).frontier.size < pathLimit := by
    decide +kernel
  have hstep : ∀ m < 2, ∃ b, swapOnA.next (q m) b = q (m + 1) := by
    intro m hm
    refine ⟨97, ?_⟩
    match m, hm with
    | 0, _ => decide +kernel
    | 1, _ => decide +kernel
  have hcb : ∀ m < 2, swapOnA.callsBack (q m) = false := by
    decide +kernel
  exact ⟨hroom, le_refl 2, rfl, hstep, hcb,
    searchPaths_complete swapOnA.startFloating 2 hroom 2 (le_refl 2) q rfl hstep hcb⟩

end SkipAhead.Automaton
