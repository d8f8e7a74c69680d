import SkipAhead.Proofs.Accel.TwoPhase
import SkipAhead.Proofs.Escape.LocalScan
import SkipAhead.Proofs.Offset.Walks
import SkipAhead.Proofs.Scorer.LeastCover

/-!
The configured largest offset holds end to end. Three links carry the bound: a search of
`k` rounds yields no path of more than `k` classes; the union scorer picks an offset below the
longest path, or `0`; and every description in the acceleration table is one its strategy
gave some state. The offset search runs one round past the largest offset, so the offset it
answers is at most that largest offset.

Main statement: `offsetScheme_le_limit`.
-/

namespace SkipAhead

namespace Scorer

theorem depth_le_of_length_le {P : List (Path Nat)} {k : Nat}
    (h : ∀ p ∈ P, p.classes.length ≤ k) : depth (P.map Path.classes) ≤ k := by
  apply Nat.le_of_not_lt
  intro hk
  obtain ⟨p, hp, hlt⟩ := (lt_depth_iff P k).mp hk
  exact absurd (h p hp) (Nat.not_le_of_lt hlt)

theorem union_offset_le {P : List (Path Nat)} (T : ByteSet) {k : Nat}
    (h : depth (P.map Path.classes) ≤ k + 1) : (union P T).offset ≤ k := by
  rw [union_eq_narrowest]
  rcases narrowest_cases (unionAt (P.map Path.classes) T) (depth (P.map Path.classes)) with
    ⟨hfull, -⟩ | ⟨hoff, -⟩
  · rw [hfull]
    exact Nat.zero_le k
  · omega

end Scorer

namespace Automaton

variable {d : Automaton}

theorem length_classes_le_of_mem_generatePaths {base : Fin d.size} {k : Nat} {p : Path Nat}
    (hp : p ∈ d.generatePaths base k) : p.classes.length ≤ k := by
  obtain ⟨r, hr, hinv⟩ := searchInv_searchPaths (d := d) base k
  obtain ⟨p', hp', rfl⟩ := List.mem_map.mp hp
  have hlen := (hinv.sound p' hp').len_le
  have hclasses : (p'.map Fin.val).classes.length = p'.steps.length := List.length_reverse
  rw [hclasses]
  simp only [Path.len] at hlen
  omega

/-- The offset search with the union scorer answers an offset scheme at most `maxOffset`
ahead. -/
theorem offsetInfo_union_offset_le (base : Fin d.size) (maxOffset : Nat) :
    ∃ o, (d.offsetInfo base maxOffset Scorer.union).scheme = .offset o ∧ o ≤ maxOffset :=
  ⟨_, rfl, Scorer.union_offset_le _
    (Scorer.depth_le_of_length_le fun _ hp => length_classes_le_of_mem_generatePaths hp)⟩

theorem localSpec_scheme_ne_offset (q : Fin d.size) (o : Nat) : (d.localSpec q).scheme ≠ .offset o := by
  unfold localSpec
  split <;> simp [EscapeInfo.singleByte]

theorem escapeInfo_eq_offsetInfo {q : Fin d.size} {maxOffset : Nat} {scorer : Scorer} {o : Nat}
    (h : (d.escapeInfo q maxOffset scorer).scheme = .offset o) :
    d.escapeInfo q maxOffset scorer = d.offsetInfo q maxOffset scorer := by
  rw [escapeInfo_eq_escapeSpec] at h ⊢
  rcases escapeSpec_eq_or q maxOffset scorer with hloc | hoff
  · rw [hloc] at h
    exact absurd h (localSpec_scheme_ne_offset q o)
  · exact hoff

theorem phaseOne_eq_some {settings : Settings} {strategy : Strategy d.size} {q : Fin d.size}
    {e : EscapeInfo} (h : d.phaseOne settings strategy q = some e) : strategy q = e := by
  unfold phaseOne at h
  rcases ite_eq_iff.mp h with ⟨-, h⟩ | ⟨-, h⟩
  · exact Option.some.inj h
  · cases h

/-- Both phases hand out only descriptions the strategy gave some state. -/
theorem exists_strategy_eq_of_twoPhase {settings : Settings} {strategy : Strategy d.size}
    {q : Fin d.size} {e : EscapeInfo} (h : d.twoPhase settings strategy q = some e) :
    ∃ q', strategy q' = e := by
  unfold twoPhase at h
  cases hp : d.phaseOne settings strategy d.startProxy with
  | none =>
    rw [hp, Option.elim_none] at h
    exact ⟨q, phaseOne_eq_some h⟩
  | some info =>
    rw [hp, Option.elim_some] at h
    split at h
    · -- the proxy's own description
      cases h
      exact ⟨d.startProxy, phaseOne_eq_some hp⟩
    · exact ⟨q, phaseOne_eq_some h⟩

theorem exists_strategy_eq_of_mem_accelTable {settings : Settings} {strategy : Strategy d.size}
    {q : Fin d.size} {e : EscapeInfo} (h : (q, e) ∈ d.accelTable settings strategy) :
    ∃ q', strategy q' = e := by
  rw [accelTable_eq_filterMap] at h
  split at h
  · exact exists_strategy_eq_of_twoPhase (mem_filterMap_states.mp h)
  · cases h

/-- The configured largest offset holds end to end. With the union scorer, the offset search
from any state answers an offset scheme at most `maxOffset` ahead; an escape description that
is an offset scheme looks no farther; and every offset scheme in the acceleration table of the
analysing strategy configured by `settings` looks at most `settings.offsetLimit` ahead. -/
theorem offsetScheme_le_limit (maxOffset : Nat) (settings : Settings) :
    (∀ q, ∃ o, (d.offsetInfo q maxOffset Scorer.union).scheme = .offset o ∧ o ≤ maxOffset) ∧
    (∀ q o, (d.escapeInfo q maxOffset Scorer.union).scheme = .offset o → o ≤ maxOffset) ∧
    (∀ q e o, (q, e) ∈ d.accelTable settings
        (d.analysed (settings.strategyOffset true) Scorer.union) →
      e.scheme = .offset o → o ≤ settings.offsetLimit) := by
  -- an escape description that is an offset scheme is the search's answer, within the bound
  have hesc : ∀ m q o, (d.escapeInfo q m Scorer.union).scheme = .offset o → o ≤ m := by
    intro m q o h
    obtain ⟨o', ho', hle⟩ := offsetInfo_union_offset_le (d := d) q m
    rw [escapeInfo_eq_offsetInfo h, ho'] at h
    cases h
    exact hle
  refine ⟨fun q => offsetInfo_union_offset_le q maxOffset, hesc maxOffset, ?_⟩
  intro q e o he ho
  obtain ⟨q', rfl⟩ := exists_strategy_eq_of_mem_accelTable he
  exact hesc _ q' o ho

end Automaton

end SkipAhead
