import SkipAhead.Proofs.Accel.OffsetLimit

/-!
What the second phase of the acceleration table can change. The second phase decides a
state from two first-phase entries only, the proxy's and the state's own (`twoPhase_congr`).

Raising the escape-byte limits keeps every first-phase entry (`phaseOne_mono`). A state
with a description then keeps one, and it never ends with a description that its old one
is better than: a state of the proxy's region ends, under any limits, with the proxy's
description or one that description is not better than (`twoPhase_of_mem_region`).

When the proxy's region is the proxy alone, the second phase changes nothing
(`twoPhase_eq_phaseOne_of_region_self`). For the analysing strategy that is so of every
description but an offset scheme: a description read off a state's own transitions lists
exactly the bytes that leave the state, so every other byte loops there and the region is
the state (`mem_region_localSpec`). An offset scheme is found only at the live floating
start of an automaton that is not triggered (`seeksOffset_of_offset`).

Main statements: `accelTable_limits_mono`, `accelTable_eq_phaseOneTable_unless_offset`.
-/

namespace SkipAhead.Automaton

def phaseOneTable (d : Automaton) (settings : Settings) (strategy : Strategy d.size) :
    List (Fin d.size × EscapeInfo) :=
  d.states.filterMap fun q => (d.phaseOne settings strategy q).map fun e => (q, e)

variable {d : Automaton}

theorem mem_accelTable {settings : Settings} {strategy : Strategy d.size} {q : Fin d.size}
    {e : EscapeInfo} : (q, e) ∈ d.accelTable settings strategy ↔
      settings.accelerates = true ∧ d.twoPhase settings strategy q = some e := by
  rw [accelTable_eq_filterMap]
  by_cases hacc : settings.accelerates = true
  · rw [if_pos hacc, mem_filterMap_states]
    simp [hacc]
  · simp [hacc]

theorem twoPhase_congr {c c' : Settings} {strategy : Strategy d.size} {q : Fin d.size}
    (hs : d.phaseOne c strategy d.startProxy = d.phaseOne c' strategy d.startProxy)
    (hq : d.phaseOne c strategy q = d.phaseOne c' strategy q) :
    d.twoPhase c strategy q = d.twoPhase c' strategy q := by
  unfold twoPhase
  rw [hs, hq]

theorem exists_twoPhase_of_phaseOne {settings : Settings} {strategy : Strategy d.size}
    {q : Fin d.size} {e : EscapeInfo} (h : d.phaseOne settings strategy q = some e) :
    ∃ e', d.twoPhase settings strategy q = some e' := by
  unfold twoPhase
  cases d.phaseOne settings strategy d.startProxy with
  | none => exact ⟨e, h⟩
  | some info =>
    rw [Option.elim_some]
    split
    · exact ⟨info, rfl⟩
    · exact ⟨e, h⟩

/-- A state with no first-phase description gets one only from the proxy: it lies, live, in
the proxy's region, and takes the proxy's description. -/
theorem twoPhase_of_phaseOne_none {settings : Settings} {strategy : Strategy d.size}
    {q : Fin d.size} {e : EscapeInfo} (hq : d.phaseOne settings strategy q = none)
    (h : d.twoPhase settings strategy q = some e) :
    d.phaseOne settings strategy d.startProxy = some e ∧
      (d.region d.startProxy e).contains q = true ∧ q ≠ d.dead := by
  unfold twoPhase at h
  cases hs : d.phaseOne settings strategy d.startProxy with
  | none =>
    rw [hs, Option.elim_none, hq] at h
    cases h
  | some info =>
    rw [hs, Option.elim_some, hq] at h
    split at h
    · rename_i hcond
      cases h
      exact ⟨rfl, hcond.1, hcond.2.1⟩
    · cases h

/-- A live state of the proxy's region ends with the proxy's description `info` or with one
`info` is not better than. -/
theorem twoPhase_of_mem_region {settings : Settings} {strategy : Strategy d.size}
    {q : Fin d.size} {info : EscapeInfo}
    (hs : d.phaseOne settings strategy d.startProxy = some info)
    (hreg : (d.region d.startProxy info).contains q = true) (hd : q ≠ d.dead) :
    ∃ e', d.twoPhase settings strategy q = some e' ∧ info.isBetterThan e' = false := by
  unfold twoPhase
  rw [hs, Option.elim_some]
  by_cases hall : (d.phaseOne settings strategy q).all info.isBetterThan = true
  · exact ⟨info, if_pos ⟨hreg, hd, hall⟩, info.isBetterThan_self⟩
  · rw [if_neg fun hcond => hall hcond.2.2]
    -- keeping its own description, the state has one `info` is not better than
    cases hq : d.phaseOne settings strategy q with
    | none => rw [hq, Option.all_none] at hall; exact absurd rfl hall
    | some e0 =>
      rw [hq, Option.all_some, Bool.not_eq_true] at hall
      exact ⟨e0, rfl, hall⟩

/-! ### Raising the limits -/

section Limits

variable {c c' : Settings} (hstop : c.stopLimit ≤ c'.stopLimit)
  (hfloat : c.floatingStopLimit ≤ c'.floatingStopLimit)
include hstop hfloat

theorem phaseOne_mono {strategy : Strategy d.size} {q : Fin d.size} {e : EscapeInfo}
    (h : d.phaseOne c strategy q = some e) : d.phaseOne c' strategy q = some e := by
  have hlimit : (if q = d.startProxy then c.floatingStopLimit else c.stopLimit) ≤
      (if q = d.startProxy then c'.floatingStopLimit else c'.stopLimit) := by
    split
    · exact hfloat
    · exact hstop
  unfold phaseOne at h ⊢
  rcases ite_eq_iff.mp h with ⟨⟨hd, hcb, hle⟩, he⟩ | ⟨-, h⟩
  · rw [if_pos ⟨hd, hcb, Nat.le_trans hle hlimit⟩]
    exact he
  · cases h

/-- Under looser limits a state with a description keeps one, and never one that its
description under the tighter limits is better than. -/
theorem twoPhase_limits_mono {strategy : Strategy d.size} {q : Fin d.size} {e : EscapeInfo}
    (h : d.twoPhase c strategy q = some e) :
    ∃ e', d.twoPhase c' strategy q = some e' ∧ e.isBetterThan e' = false := by
  cases hq : d.phaseOne c strategy q with
  | some e0 =>
    have hq' := phaseOne_mono hstop hfloat hq
    cases hs : d.phaseOne c strategy d.startProxy with
    | some info =>
      -- the proxy keeps its description too, so both limits decide `q` alike
      have hs' := phaseOne_mono hstop hfloat hs
      refine ⟨e, ?_, e.isBetterThan_self⟩
      rw [← twoPhase_congr (hs.trans hs'.symm) (hq.trans hq'.symm), h]
    | none =>
      -- with no proxy description the first phase stands under `c`
      have he : e0 = e := by
        unfold twoPhase at h
        rw [hs, Option.elim_none, hq] at h
        exact Option.some.inj h
      subst he
      obtain ⟨e', he'⟩ := exists_twoPhase_of_phaseOne hq'
      exact ⟨e', he', twoPhase_not_worse hq' he'⟩
  | none =>
    obtain ⟨hs, hreg, hd⟩ := twoPhase_of_phaseOne_none hq h
    exact twoPhase_of_mem_region (phaseOne_mono hstop hfloat hs) hreg hd

end Limits

/-- Raising the escape-byte limits never takes a description away and never makes one worse:
every state in the table under `c` is in the table under looser limits `c'` with acceleration
on, with a description its old one is not better than. -/
theorem accelTable_limits_mono (strategy : Strategy d.size) {c c' : Settings}
    (hacc' : c'.accelerates = true) (hstop : c.stopLimit ≤ c'.stopLimit)
    (hfloat : c.floatingStopLimit ≤ c'.floatingStopLimit) :
    ∀ q e, (q, e) ∈ d.accelTable c strategy →
      ∃ e', (q, e') ∈ d.accelTable c' strategy ∧ e.isBetterThan e' = false := by
  intro q e h
  obtain ⟨-, h⟩ := mem_accelTable.mp h
  obtain ⟨e', he', hworse⟩ := twoPhase_limits_mono hstop hfloat h
  exact ⟨e', mem_accelTable.mpr ⟨hacc', he'⟩, hworse⟩

/-- The start loops on `x` and leaves on every other byte, to a state that comes back on
those bytes and goes on `x` to a state that needs one more `x` to reach a reporting sink. The
start escapes on 255 bytes by itself, so it takes the offset scheme `{x}` at offset `1`, and
its region holds the second state, which has no description of its own. -/
def offsetProxy : Automaton where
  kind := .Prefix
  size := 5
  alphabetLen := 2
  symbolOf := Vector.ofFn fun b => ⟨(decide (b.val = 120)).toNat, Bool.toNat_lt _⟩
  table := #v[#v[0, 0], #v[2, 1], #v[1, 3], #v[1, 4], #v[4, 4]]
  reports := #v[[], [], [], [], [0]]
  eodReports := #v[[], [], [], [], []]
  startAnchored := 1
  startFloating := 1
  size_pos := by decide
  size_le := by decide
  dead_absorbing := by decide

theorem accelTable_limits_mono_offsetProxy :
    ({} : Settings).accelerates = true ∧
    ({ maxStopChar := some 0, maxFloatingStopChar := some 0 } : Settings).stopLimit ≤
      ({} : Settings).stopLimit ∧
    ({ maxStopChar := some 0, maxFloatingStopChar := some 0 } : Settings).floatingStopLimit ≤
      ({} : Settings).floatingStopLimit ∧
    (∀ q e, (q, e) ∈ offsetProxy.accelTable { maxStopChar := some 0, maxFloatingStopChar := some 0 }
        (offsetProxy.analysed Settings.defaultMaxOffset Scorer.union) →
      ∃ e', (q, e') ∈ offsetProxy.accelTable {}
          (offsetProxy.analysed Settings.defaultMaxOffset Scorer.union) ∧
        e.isBetterThan e' = false) ∧
    (offsetProxy.accelTable {} (offsetProxy.analysed Settings.defaultMaxOffset Scorer.union)).map
      (fun p => p.1.val) = [1, 2, 4] ∧
    (offsetProxy.accelTable { maxStopChar := some 0, maxFloatingStopChar := some 0 }
      (offsetProxy.analysed Settings.defaultMaxOffset Scorer.union)).map
      (fun p => p.1.val) = [4] :=
  ⟨rfl, by decide, by decide, accelTable_limits_mono _ rfl (by decide) (by decide),
    by decide +kernel, by decide +kernel⟩

/-! ### Regions of one state -/

theorem twoPhase_eq_phaseOne_of_region_self {settings : Settings} {strategy : Strategy d.size}
    {info : EscapeInfo} (hs : d.phaseOne settings strategy d.startProxy = some info)
    (hreg : ∀ t ∈ d.region d.startProxy info, t = d.startProxy) (q : Fin d.size) :
    d.twoPhase settings strategy q = d.phaseOne settings strategy q := by
  unfold twoPhase
  rw [hs, Option.elim_some]
  split
  · -- only the proxy could take `info`, and `info` is not better than itself
    rename_i hcond
    have hq := hreg q (List.contains_iff_mem.mp hcond.1)
    subst hq
    rw [hs, Option.all_some, EscapeInfo.isBetterThan_self] at hcond
    exact absurd hcond.2.2 Bool.false_ne_true
  · rfl

theorem eq_of_reach_of_loops {X : ByteSet} {base t : Fin d.size}
    (hloop : ∀ b, X.contains b = false → d.next base b = base)
    (h : Relation.ReflTransGen (d.LeadsAvoiding X) base t) : t = base := by
  induction h with
  | refl => rfl
  | tail _ hstep ih =>
    obtain ⟨b, hb, rfl⟩ := hstep
    rw [ih]
    exact hloop b hb

theorem contains_escapes_eq_false {q : Fin d.size} {b : UInt8} :
    (d.escapes q).contains b = false ↔ d.next q b = q := by
  simp [escapes, isEscape]

theorem mem_region_localSpec (q t : Fin d.size) : t ∈ d.region q (d.localSpec q) ↔ t = q := by
  constructor
  · intro ht
    rw [mem_region] at ht
    split at ht
    · -- a byte outside the escapes loops on `q`
      refine eq_of_reach_of_loops (fun b hb => ?_) ht
      rw [outs_localSpec] at hb
      exact contains_escapes_eq_false.mp hb
    · exact ht
  · rintro rfl
    exact mem_region_self _ _

theorem escapeInfo_eq_localSpec_of_not_offset {q : Fin d.size} {maxOffset : Nat}
    {scorer : Scorer} (hno : ∀ k, (d.escapeInfo q maxOffset scorer).scheme ≠ .offset k) :
    d.escapeInfo q maxOffset scorer = d.localSpec q := by
  rw [escapeInfo_eq_escapeSpec] at hno ⊢
  rcases escapeSpec_eq_or q maxOffset scorer with hloc | hoff
  · exact hloc
  · have h := hno (d.offsetInfo q maxOffset scorer).offset
    rw [hoff] at h
    exact absurd rfl h

/-- An offset scheme is found only at the live floating start of an automaton that is not
triggered. -/
theorem seeksOffset_of_offset {q : Fin d.size} {maxOffset : Nat} {scorer : Scorer} {k : Nat}
    (h : (d.escapeInfo q maxOffset scorer).scheme = .offset k) :
    d.kind.isTriggered = false ∧ q = d.startFloating ∧ q ≠ d.dead := by
  by_cases hseek : d.seeksOffset q (d.localEscapeInfo q) = true
  · simp only [seeksOffset, Bool.and_eq_true, Bool.not_eq_true', beq_iff_eq, bne_iff_ne,
      ne_eq] at hseek
    exact ⟨hseek.1.1.2, hseek.1.2, hseek.2⟩
  · -- without the search the description is the local one, never an offset scheme
    have hloc : d.escapeInfo q maxOffset scorer = d.localEscapeInfo q := by
      simp [escapeInfo, hseek]
    rw [hloc, localEscapeInfo_eq_localSpec] at h
    exact absurd h (localSpec_scheme_ne_offset q k)

variable {settings : Settings} {maxOffset : Nat} {scorer : Scorer}

/-- With no offset scheme at the proxy, the second phase of the analysing strategy changes
nothing. -/
theorem twoPhase_analysed_eq_phaseOne
    (hno : ∀ info k,
      d.phaseOne settings (d.analysed maxOffset scorer) d.startProxy = some info →
        info.scheme ≠ .offset k) (q : Fin d.size) :
    d.twoPhase settings (d.analysed maxOffset scorer) q =
      d.phaseOne settings (d.analysed maxOffset scorer) q := by
  cases hs : d.phaseOne settings (d.analysed maxOffset scorer) d.startProxy with
  | none =>
    unfold twoPhase
    rw [hs]
    rfl
  | some info =>
    have hinfo : d.escapeInfo d.startProxy maxOffset scorer = info := phaseOne_eq_some hs
    have hlocal : info = d.localSpec d.startProxy := by
      rw [← hinfo]
      exact escapeInfo_eq_localSpec_of_not_offset fun k => hinfo ▸ hno info k hs
    refine twoPhase_eq_phaseOne_of_region_self hs (fun t ht => ?_) q
    rw [hlocal] at ht
    exact (mem_region_localSpec _ _).mp ht

/-- With the analysing strategy and acceleration on, propagation over the proxy's region
changes the table only when the proxy's first-phase description is an offset scheme; so
never when the floating start is dead or the automaton is triggered. The reason: a
description other than an offset scheme leaves a state exactly on the bytes that do not loop
there, so its region is the state alone. -/
theorem accelTable_eq_phaseOneTable_unless_offset (maxOffset : Nat) (scorer : Scorer)
    {settings : Settings} (hacc : settings.accelerates = true) :
    (d.accelTable settings (d.analysed maxOffset scorer) ≠
        d.phaseOneTable settings (d.analysed maxOffset scorer) →
      ∃ info k, d.phaseOne settings (d.analysed maxOffset scorer) d.startProxy = some info ∧
        info.scheme = .offset k) ∧
    (d.startFloating = d.dead ∨ d.kind.isTriggered = true →
      d.accelTable settings (d.analysed maxOffset scorer) =
        d.phaseOneTable settings (d.analysed maxOffset scorer)) ∧
    (∀ q, (∀ k, (d.escapeInfo q maxOffset scorer).scheme ≠ .offset k) →
      (∀ b, (d.escapeInfo q maxOffset scorer).outs.contains b = false ↔ d.next q b = q) ∧
      ∀ t, t ∈ d.region q (d.escapeInfo q maxOffset scorer) ↔ t = q) := by
  have heq : (∀ info k,
      d.phaseOne settings (d.analysed maxOffset scorer) d.startProxy = some info →
        info.scheme ≠ .offset k) →
      d.accelTable settings (d.analysed maxOffset scorer) =
        d.phaseOneTable settings (d.analysed maxOffset scorer) := by
    intro hno
    rw [accelTable_eq_filterMap, if_pos hacc, phaseOneTable]
    simp only [twoPhase_analysed_eq_phaseOne hno]
  refine ⟨fun hne => ?_, fun hcase => heq ?_, fun q hno => ?_⟩
  · by_contra hnone
    exact hne (heq fun info k hs hoff => hnone ⟨info, k, hs, hoff⟩)
  · -- an offset scheme at the proxy needs a live floating start and no trigger
    intro info k hs hoff
    have hinfo : d.escapeInfo d.startProxy maxOffset scorer = info := phaseOne_eq_some hs
    obtain ⟨htrig, hfloat, hlive⟩ := seeksOffset_of_offset (hinfo ▸ hoff)
    rcases hcase with hdead | htrig'
    · exact hlive (hfloat.trans hdead)
    · rw [htrig] at htrig'
      cases htrig'
  · rw [escapeInfo_eq_localSpec_of_not_offset hno, outs_localSpec]
    exact ⟨fun b => contains_escapes_eq_false, mem_region_localSpec q⟩

theorem accelTable_eq_phaseOneTable_offsetProxy :
    ({} : Settings).accelerates = true ∧
    ((offsetProxy.accelTable {} (offsetProxy.analysed Settings.defaultMaxOffset Scorer.union) ≠
        offsetProxy.phaseOneTable {} (offsetProxy.analysed Settings.defaultMaxOffset Scorer.union) →
      ∃ info k, offsetProxy.phaseOne {}
        (offsetProxy.analysed Settings.defaultMaxOffset Scorer.union)
        offsetProxy.startProxy = some info ∧ info.scheme = .offset k) ∧
    (offsetProxy.startFloating = offsetProxy.dead ∨ offsetProxy.kind.isTriggered = true →
      offsetProxy.accelTable {} (offsetProxy.analysed Settings.defaultMaxOffset Scorer.union) =
        offsetProxy.phaseOneTable {}
          (offsetProxy.analysed Settings.defaultMaxOffset Scorer.union)) ∧
    (∀ q, (∀ k, (offsetProxy.escapeInfo q Settings.defaultMaxOffset Scorer.union).scheme ≠
        .offset k) →
      (∀ b, (offsetProxy.escapeInfo q Settings.defaultMaxOffset Scorer.union).outs.contains b =
        false ↔ offsetProxy.next q b = q) ∧
      ∀ t, t ∈ offsetProxy.region q
        (offsetProxy.escapeInfo q Settings.defaultMaxOffset Scorer.union) ↔ t = q)) ∧
    offsetProxy.phaseOne {} (offsetProxy.analysed Settings.defaultMaxOffset Scorer.union)
      offsetProxy.startProxy = some (EscapeInfo.withOffset (ByteSet.singleton 120) 1) ∧
    (offsetProxy.accelTable {} (offsetProxy.analysed Settings.defaultMaxOffset Scorer.union)).map
      (fun p => p.1.val) = [1, 2, 4] ∧
    (offsetProxy.phaseOneTable {}
      (offsetProxy.analysed Settings.defaultMaxOffset Scorer.union)).map
      (fun p => p.1.val) = [1, 4] :=
  ⟨rfl, accelTable_eq_phaseOneTable_unless_offset Settings.defaultMaxOffset Scorer.union rfl,
    by decide +kernel, by decide +kernel, by decide +kernel⟩

end SkipAhead.Automaton
