import Mathlib.Data.Finset.Sort
import SkipAhead.Proofs.Accel.TwoPhase

/-!
The analysis reads an automaton through its byte transitions only. The *byte form* of an
automaton keeps its role, states, starts and report sets, makes each byte its own symbol and
gives each state, on a byte, the successor the automaton takes on that byte. Each analysis
gives the same answer on an automaton and on its byte form: the successor classes because
merging by target forgets the symbols (`successorClasses_symbolClasses`), the region because
it is a reachability set (`mem_region`), and the rest because they read `next` alone.

Main statement (`analysis_eq_of_sameBytes`): two automata with the same role, states,
reports, starts and byte transitions, whatever their alphabets, give the same escape
descriptions, offset descriptions, paths and regions, and, when the floating start is live,
the same acceleration table.
-/

namespace SkipAhead.Automaton

@[simp] theorem get_ofFn {α : Type} {n : Nat} (f : Fin n → α) (i : Fin n) :
    (Vector.ofFn f).get i = f i := by
  simp only [Vector.get, Vector.toArray_ofFn, Array.getElem_ofFn]
  rfl

variable (d : Automaton)

def reportSet (rs : List Nat) : List Nat := rs.toFinset.sort (· ≤ ·)

/-- `d` over the alphabet where each byte is its own symbol. It is reducible so that its
states are the states of `d` for every tactic. -/
abbrev byteForm : Automaton where
  kind := d.kind
  size := d.size
  alphabetLen := 256
  symbolOf := Vector.ofFn fun i => i
  table := Vector.ofFn fun q => Vector.ofFn fun a => d.next q (UInt8.ofFin a)
  reports := Vector.ofFn fun q => reportSet (d.reports.get q)
  eodReports := Vector.ofFn fun q => reportSet (d.eodReports.get q)
  startAnchored := d.startAnchored
  startFloating := d.startFloating
  size_pos := d.size_pos
  size_le := d.size_le
  dead_absorbing := by
    intro a
    simp only [get_ofFn]
    exact d.dead_absorbing _

variable {d}

@[simp] theorem next_byteForm (q : Fin d.size) (b : UInt8) : d.byteForm.next q b = d.next q b := by
  simp only [next, step, symbol, byteForm, get_ofFn, UInt8.ofFin_toFin]

theorem reportSet_eq_of_mem_iff {rs rs' : List Nat} (h : ∀ r, r ∈ rs ↔ r ∈ rs') :
    reportSet rs = reportSet rs' := by
  have hset : rs.toFinset = rs'.toFinset := by
    ext r
    simp only [List.mem_toFinset]
    exact h r
  rw [reportSet, reportSet, hset]

@[simp] theorem mem_reportSet (rs : List Nat) (r : Nat) : r ∈ reportSet rs ↔ r ∈ rs := by
  simp only [reportSet, Finset.mem_sort, List.mem_toFinset]

theorem isEmpty_reportSet (rs : List Nat) : (reportSet rs).isEmpty = rs.isEmpty := by
  rw [Bool.eq_iff_iff, List.isEmpty_iff, List.isEmpty_iff, List.eq_nil_iff_forall_not_mem,
    List.eq_nil_iff_forall_not_mem]
  simp only [mem_reportSet]

@[simp] theorem hasReports_byteForm (q : Fin d.size) : d.byteForm.hasReports q = d.hasReports q := by
  simp only [hasReports, byteForm, get_ofFn, isEmpty_reportSet]

@[simp] theorem hasEodReports_byteForm (q : Fin d.size) :
    d.byteForm.hasEodReports q = d.hasEodReports q := by
  simp only [hasEodReports, byteForm, get_ofFn, isEmpty_reportSet]

theorem successorClasses_byteForm :
    d.byteForm.successorClasses d.byteForm.symbolClasses = d.successorClasses d.symbolClasses := by
  funext q
  rw [successorClasses_symbolClasses (d := d.byteForm), successorClasses_symbolClasses (d := d)]
  congr 1
  funext b
  exact next_byteForm (d := d) q b

/-! ### The path search -/

theorem extend_byteForm (succ : Fin d.size → List (Fin d.size × ByteSet)) :
    d.byteForm.extend succ = d.extend succ := by
  funext acc p
  simp only [extend, hasReports_byteForm, hasEodReports_byteForm]
  rfl

theorem rounds_byteForm (succ : Fin d.size → List (Fin d.size × ByteSet)) (k : Nat)
    (s : Search d.size) : d.byteForm.rounds succ k s = d.rounds succ k s := by
  induction k generalizing s with
  | zero => rfl
  | succ k ih => simp only [rounds, advance, extend_byteForm, ih]

theorem generatePaths_byteForm (base : Fin d.size) (k : Nat) :
    d.byteForm.generatePaths base k = d.generatePaths base k := by
  simp only [generatePaths, searchPaths, successorClasses_byteForm, rounds_byteForm]

/-! ### Escape descriptions -/

theorem scanByte_byteForm (q : Fin d.size) : d.byteForm.scanByte q = d.scanByte q := by
  funext s i
  simp only [scanByte, differingBytes, next_byteForm, hasReports_byteForm]
  rfl

theorem escapeInfo_byteForm (q : Fin d.size) (maxOffset : Nat) (scorer : Scorer) :
    d.byteForm.escapeInfo q maxOffset scorer = d.escapeInfo q maxOffset scorer := by
  simp only [escapeInfo, localEscapeInfo, offsetInfo, scanByte_byteForm, generatePaths_byteForm]
  rfl

/-! ### Regions, the proxy and the table -/

theorem leadsAvoiding_byteForm (X : ByteSet) : d.byteForm.LeadsAvoiding X = d.LeadsAvoiding X := by
  funext q t
  simp only [LeadsAvoiding, next_byteForm]

theorem region_byteForm (base : Fin d.size) (info : EscapeInfo) :
    d.byteForm.region base info = d.region base info := by
  apply List.Pairwise.eq_of_mem_iff (region_pairwise (d := d.byteForm) base info)
    (region_pairwise base info)
  intro t
  rw [mem_region, mem_region, leadsAvoiding_byteForm]

theorem startProxy_byteForm (h : d.startFloating ≠ d.dead) : d.byteForm.startProxy = d.startProxy := by
  have hb : d.byteForm.startFloating ≠ d.byteForm.dead := h
  unfold startProxy
  rw [if_pos hb, if_pos h]

theorem twoPhase_byteForm (h : d.startFloating ≠ d.dead) (settings : Settings)
    (strategy : Strategy d.size) (q : Fin d.size) :
    d.byteForm.twoPhase settings strategy q = d.twoPhase settings strategy q := by
  simp only [twoPhase, phaseOne, hasReports_byteForm, startProxy_byteForm h, region_byteForm]
  rfl

theorem accelTable_byteForm (h : d.startFloating ≠ d.dead) (settings : Settings)
    (maxOffset : Nat) (scorer : Scorer) :
    d.byteForm.accelTable settings (d.byteForm.analysed maxOffset scorer) =
      d.accelTable settings (d.analysed maxOffset scorer) := by
  have hstrat : d.byteForm.analysed maxOffset scorer = d.analysed maxOffset scorer := by
    funext q
    exact escapeInfo_byteForm (d := d) q maxOffset scorer
  rw [accelTable_eq_filterMap, accelTable_eq_filterMap, hstrat]
  simp only [twoPhase_byteForm h]
  rfl

/-! ### Automata with the same byte transitions -/

/-- `A` and `B` have the same role, states, report sets, starts and byte transitions; their
alphabets, and the targets of symbols no byte has, may differ. -/
structure SameBytes (A B : Automaton) : Prop where
  kind : A.kind = B.kind
  size : A.size = B.size
  next : ∀ q b, (B.next (q.cast size) b).val = (A.next q b).val
  reports : ∀ q r, r ∈ B.reports.get (q.cast size) ↔ r ∈ A.reports.get q
  eodReports : ∀ q r, r ∈ B.eodReports.get (q.cast size) ↔ r ∈ A.eodReports.get q
  startAnchored : B.startAnchored.val = A.startAnchored.val
  startFloating : B.startFloating.val = A.startFloating.val

theorem byteForm_eq_of_sameBytes {A B : Automaton} (h : SameBytes A B) :
    A.byteForm = B.byteForm := by
  obtain ⟨kA, nA, lA, symA, tabA, repA, eodA, saA, sfA, posA, deadA⟩ := A
  obtain ⟨kB, nB, lB, symB, tabB, repB, eodB, saB, sfB, posB, deadB⟩ := B
  obtain ⟨hk, hn, hnext, hrep, heod, hsa, hsf⟩ := h
  dsimp only at hk hn
  subst hk hn
  simp only [Fin.cast_eq_self] at hnext hrep heod
  simp only [byteForm, Automaton.mk.injEq, heq_eq_eq, true_and]
  refine ⟨?_, ?_, ?_, Fin.ext hsa.symm, Fin.ext hsf.symm⟩
  · apply congrArg Vector.ofFn
    funext q
    apply congrArg Vector.ofFn
    funext a
    exact Fin.ext (hnext q _).symm
  · apply congrArg Vector.ofFn
    funext q
    exact reportSet_eq_of_mem_iff fun r => (hrep q r).symm
  · apply congrArg Vector.ofFn
    funext q
    exact reportSet_eq_of_mem_iff fun r => (heod q r).symm

theorem sameBytes_byteForm (d : Automaton) : SameBytes d d.byteForm where
  kind := rfl
  size := rfl
  next q b := by rw [Fin.cast_eq_self, next_byteForm]
  reports q r := by simp only [Fin.cast_eq_self, byteForm, get_ofFn, mem_reportSet]
  eodReports q r := by simp only [Fin.cast_eq_self, byteForm, get_ofFn, mem_reportSet]
  startAnchored := rfl
  startFloating := rfl

theorem escapeInfoAt?_byteForm (q maxOffset : Nat) (scorer : Scorer) :
    d.byteForm.escapeInfoAt? q maxOffset scorer = d.escapeInfoAt? q maxOffset scorer := by
  simp only [escapeInfoAt?, escapeInfo_byteForm]
  rfl

theorem offsetInfoAt?_byteForm (base maxOffset : Nat) (scorer : Scorer) :
    d.byteForm.offsetInfoAt? base maxOffset scorer = d.offsetInfoAt? base maxOffset scorer := by
  simp only [offsetInfoAt?, offsetInfo, generatePaths_byteForm]
  rfl

theorem generatePathsAt?_byteForm (base k : Nat) :
    d.byteForm.generatePathsAt? base k = d.generatePathsAt? base k := by
  simp only [generatePathsAt?, generatePaths_byteForm]
  rfl

theorem regionAt?_byteForm (base : Nat) (info : EscapeInfo) :
    d.byteForm.regionAt? base info = d.regionAt? base info := by
  simp only [regionAt?, region_byteForm]
  rfl

/-- The analysis reads only the byte transitions: automata with the same role, states, report
sets, starts and byte transitions give the same escape and offset descriptions at every
state, the same paths and regions from every base, and, when the floating start is live,
the same acceleration table for the analysing strategy. -/
theorem analysis_eq_of_sameBytes {A B : Automaton} (h : SameBytes A B) :
    (∀ q maxOffset scorer, A.escapeInfoAt? q maxOffset scorer = B.escapeInfoAt? q maxOffset scorer) ∧
    (∀ base maxOffset scorer,
      A.offsetInfoAt? base maxOffset scorer = B.offsetInfoAt? base maxOffset scorer) ∧
    (∀ base k, A.generatePathsAt? base k = B.generatePathsAt? base k) ∧
    (∀ base info, A.regionAt? base info = B.regionAt? base info) ∧
    (A.startFloating ≠ A.dead → ∀ settings maxOffset scorer,
      (A.accelTable settings (A.analysed maxOffset scorer)).map (fun e => (e.1.val, e.2)) =
        (B.accelTable settings (B.analysed maxOffset scorer)).map (fun e => (e.1.val, e.2))) := by
  have hAB := byteForm_eq_of_sameBytes h
  refine ⟨?_, ?_, ?_, ?_, ?_⟩
  · intro q maxOffset scorer
    rw [← escapeInfoAt?_byteForm, hAB, escapeInfoAt?_byteForm]
  · intro base maxOffset scorer
    rw [← offsetInfoAt?_byteForm, hAB, offsetInfoAt?_byteForm]
  · intro base k
    rw [← generatePathsAt?_byteForm, hAB, generatePathsAt?_byteForm]
  · intro base info
    rw [← regionAt?_byteForm, hAB, regionAt?_byteForm]
  · intro hA settings maxOffset scorer
    have hB : B.startFloating ≠ B.dead := by
      intro hBd
      apply hA
      apply Fin.ext
      rw [← h.startFloating, hBd]
      rfl
    have hform := congrArg (fun d : Automaton =>
      (d.accelTable settings (d.analysed maxOffset scorer)).map fun e => (e.1.val, e.2)) hAB
    simp only at hform
    rw [accelTable_byteForm hA, accelTable_byteForm hB] at hform
    exact hform

/-- Two states over one symbol: the dead state, and a start state that loops on every byte. -/
def selfLoop : Automaton where
  kind := .Prefix
  size := 2
  alphabetLen := 1
  symbolOf := Vector.replicate 256 0
  table := #v[#v[0], #v[1]]
  reports := #v[[], []]
  eodReports := #v[[], []]
  startAnchored := 1
  startFloating := 1
  size_pos := by decide
  size_le := by decide
  dead_absorbing := by decide

theorem accelTable_selfLoop_byteForm :
    SameBytes selfLoop selfLoop.byteForm ∧
      (selfLoop.accelTable {} (selfLoop.analysed Settings.defaultMaxOffset Scorer.union)).map
          (fun e => (e.1.val, e.2)) =
        (selfLoop.byteForm.accelTable {}
            (selfLoop.byteForm.analysed Settings.defaultMaxOffset Scorer.union)).map
          (fun e => (e.1.val, e.2)) :=
  ⟨sameBytes_byteForm selfLoop,
    (analysis_eq_of_sameBytes (sameBytes_byteForm selfLoop)).2.2.2.2 (by decide) {}
      Settings.defaultMaxOffset Scorer.union⟩

end SkipAhead.Automaton
