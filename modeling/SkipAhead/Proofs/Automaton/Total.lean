import SkipAhead.Accel.Table
import SkipAhead.Proofs.Automaton.Checks

/-!
Once `build` has accepted a blueprint, no analysis of the automaton it returns can fail.
Every analysis that takes a state number answers for each number below the blueprint's
count of states; the lookup a step makes in the blueprint (the byte's symbol, then that
entry of the state's row) is in bounds; and every state an analysis names lies below that
count.
-/

namespace SkipAhead

namespace Automaton

variable {d : Automaton}

theorem stateAt?_of_lt {q : Nat} (hq : q < d.size) : d.stateAt? q = some ⟨q, hq⟩ :=
  (d.stateAt?_eq_some_iff).mpr rfl

theorem generatePathsAt?_of_lt {base : Nat} (hbase : base < d.size) (k : Nat) :
    ∃ ps, d.generatePathsAt? base k = some ps ∧ ∀ p ∈ ps, p.dest < d.size := by
  unfold generatePathsAt?
  split
  · refine ⟨_, rfl, fun p hp => ?_⟩
    rw [List.mem_singleton.mp hp]
    exact hbase
  · rw [stateAt?_of_lt hbase]
    refine ⟨_, rfl, fun p hp => ?_⟩
    obtain ⟨p', -, rfl⟩ := List.mem_map.mp hp
    exact p'.dest.isLt

theorem regionAt?_of_lt {base : Nat} (hbase : base < d.size) (info : EscapeInfo) :
    ∃ r, d.regionAt? base info = some r ∧ ∀ t ∈ r, t < d.size := by
  unfold regionAt?
  split
  · rw [stateAt?_of_lt hbase]
    refine ⟨_, rfl, fun t ht => ?_⟩
    obtain ⟨t', -, rfl⟩ := List.mem_map.mp ht
    exact t'.isLt
  · refine ⟨_, rfl, fun t ht => ?_⟩
    rw [List.mem_singleton.mp ht]
    exact hbase

end Automaton

namespace Blueprint

/-- Every analysis of `d` answers for every state of `bp` and names only states of `bp`; there
are no more states than state identifiers, so enumerating them passes its assertion. -/
structure AnalysesTotal (bp : Blueprint) (d : Automaton) : Prop where
  size : d.size = bp.states.size
  stateIds : d.size ≤ StateId.limit + 1
  next : ∀ q (hq : q < bp.states.size) (b : UInt8), ∃ t : StateId,
    bp.states[q].next[bp.symbolOf[b.toFin]]? = some t ∧ t.val < bp.states.size ∧
      d.nextAt? q b = some t.val
  escapeInfo : ∀ q < bp.states.size, ∀ maxOffset scorer,
    (d.escapeInfoAt? q maxOffset scorer).isSome
  offsetInfo : ∀ q < bp.states.size, ∀ maxOffset scorer,
    (d.offsetInfoAt? q maxOffset scorer).isSome
  paths : ∀ q < bp.states.size, ∀ k, ∃ ps,
    d.generatePathsAt? q k = some ps ∧ ∀ p ∈ ps, p.dest < bp.states.size
  region : ∀ q < bp.states.size, ∀ info, ∃ r,
    d.regionAt? q info = some r ∧ ∀ t ∈ r, t < bp.states.size
  startProxy : d.startProxy.val < bp.states.size
  accelTable : ∀ settings strategy, ∀ e ∈ d.accelTable settings strategy,
    e.1.val < bp.states.size

/-- No analysis of an automaton that `build` returns can fail. -/
theorem analysesTotal_of_build {bp : Blueprint} {d : Automaton} (h : bp.build = .ok d) :
    AnalysesTotal bp d := by
  have hr := bp.realizes_of_build h
  have hsize := hr.size
  refine ⟨hsize, d.size_le, ?next, ?escapeInfo, ?offsetInfo, ?paths, ?region, ?startProxy,
    ?accelTable⟩
  case next =>
    intro q hq b
    have hq' : q < d.size := hsize ▸ hq
    obtain ⟨t, ht, hval⟩ := Option.map_eq_some_iff.mp (hr.next_eq ⟨q, hq'⟩ b)
    refine ⟨t, ht, ?_, ?_⟩
    · rw [hval, ← hsize]
      exact (d.next ⟨q, hq'⟩ b).isLt
    · rw [Automaton.nextAt?, Automaton.stateAt?_of_lt hq', Option.map_some, hval]
  case escapeInfo =>
    intro q hq maxOffset scorer
    rw [Automaton.escapeInfoAt?, Automaton.stateAt?_of_lt (hsize ▸ hq)]
    rfl
  case offsetInfo =>
    intro q hq maxOffset scorer
    rw [Automaton.offsetInfoAt?, Automaton.stateAt?_of_lt (hsize ▸ hq)]
    rfl
  case paths =>
    intro q hq k
    obtain ⟨ps, hps, hlt⟩ := d.generatePathsAt?_of_lt (hsize ▸ hq) k
    exact ⟨ps, hps, fun p hp => hsize ▸ hlt p hp⟩
  case region =>
    intro q hq info
    obtain ⟨r, hreg, hlt⟩ := d.regionAt?_of_lt (hsize ▸ hq) info
    exact ⟨r, hreg, fun t ht => hsize ▸ hlt t ht⟩
  case startProxy => exact hsize ▸ d.startProxy.isLt
  case accelTable =>
    intro settings strategy e _
    exact hsize ▸ e.1.isLt

/-- A blueprint of two states over one symbol: the dead state, and a start state that loops
on every byte. -/
def loopPrint : Blueprint where
  kind := .Prefix
  alphabetLen := 1
  symbolOf := Vector.replicate 256 0
  states := #[⟨#[0], [], []⟩, ⟨#[⟨1, by decide⟩], [], []⟩]
  startAnchored := ⟨1, by decide⟩
  startFloating := ⟨1, by decide⟩

theorem faults_loopPrint : loopPrint.faults = [] := by decide +kernel

theorem analysesTotal_loopPrint : ∃ d, loopPrint.build = .ok d ∧ AnalysesTotal loopPrint d := by
  obtain ⟨d, hd⟩ := (build_failsFirst loopPrint).ok_iff.mpr faults_loopPrint
  exact ⟨d, hd, analysesTotal_of_build hd⟩

end Blueprint

end SkipAhead
