import SkipAhead.Automaton.Build

/-!
What `Blueprint.build` accepts and what it answers. `Blueprint.faults` lists every check a
blueprint fails, in the order `build` makes them: `build` fails with the first of them and
succeeds exactly when there is none, that is, when the blueprint is `WellFormed`; the
automaton it then returns `Realizes` the blueprint.

The error half rests on one relation, `FailsFirst r F`: the computation `r` fails exactly
with the first entry of `F`. It is kept by `pure`, `throw`, guards, `bind` and the checked
maps `Vector.mapFinIdxM`, and these are all `build` is made of.
-/

namespace SkipAhead

section Except

variable {β γ ε : Type}

@[simp] theorem throw_ne_ok (e : ε) (y : β) : (throw e : Except ε β) ≠ .ok y := by
  simp [throw, throwThe, MonadExceptOf.throw]

@[simp] theorem pure_eq_ok (x y : β) : (pure x : Except ε β) = .ok y ↔ x = y := by
  simp [pure, Except.pure]

theorem bind_eq_ok {r : Except ε β} {g : β → Except ε γ} {z : γ} :
    r >>= g = .ok z ↔ ∃ y, r = .ok y ∧ g y = .ok z := by
  cases r with
  | error e => simp [bind, Except.bind]
  | ok y => simp [bind, Except.bind]

theorem exists_of_check_eq_ok {c : Prop} [Decidable c] {e : ε} {r : c → Except ε β} {y : β}
    (h : (if hc : c then r hc else throw e) = .ok y) : ∃ hc : c, r hc = .ok y := by
  by_cases hc : c
  · rw [dif_pos hc] at h
    exact ⟨hc, h⟩
  · rw [dif_neg hc] at h
    exact absurd h (throw_ne_ok _ _)

theorem of_guard_eq_ok {c : Prop} [Decidable c] {e : ε} {r : ¬c → Except ε β} {y : β}
    (h : (if hc : c then throw e else r hc) = .ok y) : ∃ hc : ¬c, r hc = .ok y := by
  by_cases hc : c
  · rw [dif_pos hc] at h
    exact absurd h (throw_ne_ok _ _)
  · rw [dif_neg hc] at h
    exact ⟨hc, h⟩

end Except

/-- `r` fails exactly with the first entry of `F`, so it succeeds exactly when `F` is empty. -/
def FailsFirst {ε β : Type} (r : Except ε β) (F : List ε) : Prop :=
  ∀ e, r = .error e ↔ F.head? = some e

namespace FailsFirst

variable {α β γ ε : Type} {r : Except ε β} {F G : List ε}

theorem ok_iff (h : FailsFirst r F) : (∃ y, r = .ok y) ↔ F = [] := by
  constructor
  · rintro ⟨y, hy⟩
    cases F with
    | nil => rfl
    | cons e rest =>
      have he := (h e).mpr rfl
      rw [hy] at he
      cases he
  · intro hF
    cases hr : r with
    | ok y => exact ⟨y, rfl⟩
    | error e =>
      have he := (h e).mp hr
      rw [hF] at he
      cases he

theorem eq_nil_of_ok {y : β} (h : FailsFirst r F) (hr : r = .ok y) : F = [] :=
  h.ok_iff.mp ⟨y, hr⟩

theorem pure_nil (y : β) : FailsFirst (pure y : Except ε β) [] := by
  intro e
  simp [pure, Except.pure]

theorem throw_cons (e : ε) (rest : List ε) : FailsFirst (throw e : Except ε β) (e :: rest) := by
  intro e'
  simp [throw, throwThe, MonadExceptOf.throw]

/-- A guard that fails with `e` when `c` holds, then a computation that may use that `c`
does not. -/
theorem guard {c : Prop} [Decidable c] (e : ε) {r : ¬c → Except ε β}
    (hr : ∀ h, FailsFirst (r h) F) :
    FailsFirst (if h : c then throw e else r h) ((if c then [e] else []) ++ F) := by
  by_cases hc : c
  · rw [dif_pos hc, if_pos hc]
    exact throw_cons e F
  · rw [dif_neg hc, if_neg hc]
    exact hr hc

theorem check {c c' : Prop} [Decidable c] [Decidable c'] (hc : c ↔ c') (e : ε)
    {r : c → Except ε β} (hr : ∀ h, FailsFirst (r h) F) :
    FailsFirst (if h : c then r h else throw e) ((if c' then [] else [e]) ++ F) := by
  by_cases h : c
  · rw [dif_pos h, if_pos (hc.mp h)]
    exact hr h
  · rw [dif_neg h, if_neg (mt hc.mpr h)]
    exact throw_cons e F

theorem check_pure {c : Prop} [Decidable c] (e : ε) (x : c → β) :
    FailsFirst (if h : c then pure (x h) else throw e) (if c then [] else [e]) := by
  have h := check Iff.rfl e fun h => pure_nil (ε := ε) (x h)
  rwa [List.append_nil] at h

theorem andThen (hr : FailsFirst r F) {g : β → Except ε γ}
    (hg : ∀ y, r = .ok y → FailsFirst (g y) G) : FailsFirst (r >>= g) (F ++ G) := by
  intro e
  cases h : r with
  | error e' =>
    obtain ⟨rest, rfl⟩ : ∃ rest, F = e' :: rest := by
      have hF := (hr e').mp h
      cases F with
      | nil => cases hF
      | cons a rest =>
        cases hF
        exact ⟨rest, rfl⟩
    simp [bind, Except.bind]
  | ok y =>
    rw [hr.eq_nil_of_ok h, List.nil_append]
    exact hg y h e

section Checked

variable {n : Nat} {xs : Vector α n} {f : (i : Nat) → α → i < n → Except ε β}

-- `map i j` has checked the first `j` entries and has `i` left; the faults still to come are
-- those of the entries from `j` on.
theorem map {F : Fin n → List ε} (hf : ∀ i (h : i < n), FailsFirst (f i xs[i] h) (F ⟨i, h⟩)) :
    ∀ (i j : Nat) (inv : i + j = n) (ys : Vector β (n - i)),
      FailsFirst (Vector.mapFinIdxM.map xs f i j inv ys) (((List.finRange n).drop j).flatMap F)
  | 0, j, inv, ys => by
    have hdrop : (List.finRange n).drop j = [] := by
      simp only [List.drop_eq_nil_iff, List.length_finRange]
      omega
    rw [hdrop, List.flatMap_nil]
    exact pure_nil _
  | i + 1, j, inv, ys => by
    have hj : j < n := by omega
    rw [List.drop_eq_getElem_cons (by simpa using hj), List.flatMap_cons, List.getElem_finRange]
    exact andThen (hf j hj) fun y _ => map hf i (j + 1) _ _

/-- A checked map fails with the first fault of the first entry that has one. -/
theorem mapFinIdxM {F : Fin n → List ε}
    (hf : ∀ i (h : i < n), FailsFirst (f i xs[i] h) (F ⟨i, h⟩)) :
    FailsFirst (xs.mapFinIdxM f) ((List.finRange n).flatMap F) :=
  map hf n 0 (Nat.add_zero n) _

end Checked

end FailsFirst

section Checked

variable {α β ε : Type} {n : Nat} {xs : Vector α n} {f : (i : Nat) → α → i < n → Except ε β}

-- The induction carries the checked prefix: the answer starts with `ys`.
theorem mapFinIdxM_map_eq_ok :
    ∀ (i j : Nat) (inv : i + j = n) (ys : Vector β (n - i)) (w : Vector β n),
      Vector.mapFinIdxM.map xs f i j inv ys = .ok w →
        (∀ k (hk : k < j), w[k] = ys[k]) ∧ ∀ k, j ≤ k → ∀ hk : k < n, f k xs[k] hk = .ok w[k]
  | 0, j, inv, ys, w => by
    intro h
    cases h
    refine ⟨fun k hk => Vector.getElem_cast _, fun k hj hk => ?_⟩
    omega
  | i + 1, j, inv, ys, w => by
    intro h
    have hj : j < n := by omega
    rw [Vector.mapFinIdxM.map] at h
    cases hf : f j xs[j] hj with
    | error e =>
      rw [hf] at h
      cases h
    | ok y =>
      rw [hf] at h
      obtain ⟨hpre, hpost⟩ := mapFinIdxM_map_eq_ok i (j + 1) _ _ w h
      have hwj : w[j] = y := by
        rw [hpre j (by omega), Vector.getElem_cast, Vector.getElem_push, dif_neg (by omega)]
      refine ⟨fun k hk => ?_, fun k hjk hk => ?_⟩
      · rw [hpre k (by omega), Vector.getElem_cast, Vector.getElem_push_lt]
      · by_cases hkj : k = j
        · subst hkj
          rw [hwj]
          exact hf
        · exact hpost k (by omega) hk

theorem getElem_of_mapFinIdxM_eq_ok {w : Vector β n} (h : xs.mapFinIdxM f = .ok w)
    (i : Nat) (hi : i < n) : f i xs[i] hi = .ok w[i] :=
  (mapFinIdxM_map_eq_ok n 0 (Nat.add_zero n) _ w h).2 i (Nat.zero_le i) hi

end Checked

/-- The faults of one row in a blueprint of `n` states over `k` symbols: a count other than
`k`, or else each target that is no state, in symbol order. -/
def StateSpec.rowFaults (n k q : Nat) (st : StateSpec) : List BuildError :=
  if st.next.size = k then
    (List.finRange st.next.size).flatMap fun (a : Fin st.next.size) =>
      if st.next[a].val < n then [] else [.invalidTransition q a.val st.next[a].val]
  else [.transitionCount q st.next.size k]

namespace Blueprint

variable (bp : Blueprint)

def symbolFaults : List BuildError :=
  (List.finRange 256).flatMap fun b =>
    if bp.symbolOf[b] < bp.alphabetLen then []
    else [.invalidAlphabet b.val.toUInt8 bp.symbolOf[b] bp.alphabetLen]

def rowFaults : List BuildError :=
  (List.finRange bp.states.size).flatMap fun q =>
    bp.states[q].rowFaults bp.states.size bp.alphabetLen q

def deadAbsorbs : Bool := bp.states[0]?.all fun st => st.next.all (·.val == 0)

/-- Every check `bp` fails, in the order they are made. -/
def faults : List BuildError :=
  [if 0 < bp.states.size then [] else [.noStates],
    if StateId.limit + 1 < bp.states.size then [.tooManyStates] else [],
    bp.symbolFaults,
    bp.rowFaults,
    if bp.deadAbsorbs then [] else [.deadStateNotAbsorbing],
    if bp.startAnchored.val < bp.states.size then []
    else [.invalidStart .anchored bp.startAnchored.val],
    if bp.startFloating.val < bp.states.size then []
    else [.invalidStart .floating bp.startFloating.val]].flatten

/-- A blueprint that describes an automaton. -/
structure WellFormed : Prop where
  nonempty : 0 < bp.states.size
  not_too_many : bp.states.size ≤ StateId.limit + 1
  symbols : ∀ b : Fin 256, bp.symbolOf[b] < bp.alphabetLen
  rowSize : ∀ q : Fin bp.states.size, bp.states[q].next.size = bp.alphabetLen
  targets : ∀ q : Fin bp.states.size, ∀ t ∈ bp.states[q].next, t.val < bp.states.size
  dead : ∀ st ∈ bp.states[0]?, ∀ t ∈ st.next, t.val = 0
  anchored : bp.startAnchored.val < bp.states.size
  floating : bp.startFloating.val < bp.states.size

/-- `d` is the automaton `bp` describes: the same role, states, rows, reports, starts and
symbols. -/
structure Realizes (d : Automaton) : Prop where
  kind : d.kind = bp.kind
  size : d.size = bp.states.size
  alphabetLen : d.alphabetLen = bp.alphabetLen
  symbols : ∀ b : UInt8, (d.symbol b).val = bp.symbolOf[b.toFin]
  rows : ∀ q : Fin d.size,
    bp.states[q.cast size].next.map StateId.val = Array.ofFn fun a => (d.step q a).val
  reports : ∀ q : Fin d.size, d.reports.get q = bp.states[q.cast size].reports
  eodReports : ∀ q : Fin d.size, d.eodReports.get q = bp.states[q.cast size].eodReports
  startAnchored : d.startAnchored.val = bp.startAnchored.val
  startFloating : d.startFloating.val = bp.startFloating.val

/-- In a realized automaton a step on a byte is the blueprint's lookup: the symbol of the
byte, then that entry of the state's row. -/
theorem Realizes.next_eq {bp : Blueprint} {d : Automaton} (hr : bp.Realizes d) (q : Fin d.size) (b : UInt8) :
    (bp.states[q.cast hr.size].next[bp.symbolOf[b.toFin]]?).map StateId.val =
      some (d.next q b).val := by
  have hrow := congrArg (fun xs : Array Nat => xs[(d.symbol b).val]?) (hr.rows q)
  simp only [Array.getElem?_map, Array.getElem?_ofFn, dif_pos (d.symbol b).isLt] at hrow
  rw [← hr.symbols b]
  exact hrow

/-! ### The checks one by one -/

theorem checkSymbols_failsFirst :
    FailsFirst (checkSymbols bp.alphabetLen bp.symbolOf) bp.symbolFaults := by
  unfold checkSymbols symbolFaults
  apply FailsFirst.mapFinIdxM
  intro i hi
  simpa only [Fin.getElem_fin] using
    FailsFirst.check_pure (BuildError.invalidAlphabet i.toUInt8 bp.symbolOf[i] bp.alphabetLen)
      fun h => (⟨bp.symbolOf[i], h⟩ : Fin bp.alphabetLen)

theorem checkSymbols_eq_ok {k : Nat} {v : Vector Nat 256} {w : Vector (Fin k) 256}
    (h : checkSymbols k v = .ok w) (b : Fin 256) : w[b].val = v[b] := by
  obtain ⟨_, hb⟩ := exists_of_check_eq_ok (getElem_of_mapFinIdxM_eq_ok h b.val b.isLt)
  rw [pure_eq_ok] at hb
  simp only [Fin.getElem_fin, ← hb]

theorem checkRow_failsFirst (n k q : Nat) (st : StateSpec) :
    FailsFirst (checkRow n k q st) (st.rowFaults n k q) := by
  unfold checkRow StateSpec.rowFaults
  by_cases h : st.next.size = k
  · rw [dif_pos h, if_pos h]
    subst h
    apply FailsFirst.mapFinIdxM
    intro a ha
    show FailsFirst (if ht : st.next[a].val < n then pure (⟨st.next[a].val, ht⟩ : Fin n)
        else throw (BuildError.invalidTransition q a st.next[a].val))
      (if st.next[a].val < n then [] else [BuildError.invalidTransition q a st.next[a].val])
    exact FailsFirst.check_pure _ _
  · rw [dif_neg h, if_neg h]
    exact FailsFirst.throw_cons _ []

theorem checkRow_eq_ok {n k q : Nat} {st : StateSpec} {row : Vector (Fin n) k}
    (h : checkRow n k q st = .ok row) :
    st.next.map StateId.val = Array.ofFn fun a => (row.get a).val := by
  unfold checkRow at h
  obtain ⟨hsize, h⟩ := exists_of_check_eq_ok h
  apply Array.ext
  · simp [hsize]
  · intro i hi₁ hi₂
    have hi : i < k := by simpa using hi₂
    obtain ⟨_, hrow⟩ := exists_of_check_eq_ok (getElem_of_mapFinIdxM_eq_ok h i hi)
    rw [pure_eq_ok] at hrow
    simp only [Array.getElem_map, Array.getElem_ofFn]
    -- `row.get` reads the entry `row[i]`
    show _ = (row[i]).val
    simp [← hrow]

theorem checkRows_failsFirst :
    FailsFirst ((Vector.mk bp.states rfl).mapFinIdxM fun q st _ =>
      checkRow bp.states.size bp.alphabetLen q st) bp.rowFaults := by
  unfold rowFaults
  apply FailsFirst.mapFinIdxM
  intro q hq
  simpa only [Vector.getElem_mk, Fin.getElem_fin] using
    checkRow_failsFirst bp.states.size bp.alphabetLen q bp.states[q]

theorem checkRows_eq_ok
    {table : Vector (Vector (Fin bp.states.size) bp.alphabetLen) bp.states.size}
    (htable : ((Vector.mk bp.states rfl).mapFinIdxM fun q st _ =>
      checkRow bp.states.size bp.alphabetLen q st) = .ok table)
    (q : Nat) (hq : q < bp.states.size) :
    bp.states[q].next.map StateId.val = Array.ofFn fun a => ((table.get ⟨q, hq⟩).get a).val := by
  have hrow := checkRow_eq_ok (getElem_of_mapFinIdxM_eq_ok htable q hq)
  simp only [Vector.getElem_mk] at hrow
  exact hrow

theorem all_val_iff_of_map_eq_ofFn {k : Nat} {xs : Array StateId} {g : Fin k → Nat}
    (h : xs.map StateId.val = Array.ofFn g) (p : Nat → Bool) :
    xs.all (fun t => p t.val) = true ↔ ∀ a, p (g a) = true := by
  have hsize : xs.size = k := by
    simpa using congrArg Array.size h
  have hget : ∀ (i : Nat) (hi : i < xs.size), xs[i].val = g ⟨i, hsize ▸ hi⟩ := by
    intro i hi
    have hi' := congrArg (fun ys : Array Nat => ys[i]?) h
    simpa [hi, hsize ▸ hi] using hi'
  rw [Array.all_eq_true]
  constructor
  · intro hall a
    have ha := hall a.val (hsize ▸ a.isLt)
    rwa [hget] at ha
  · intro hall i hi
    rw [hget i hi]
    exact hall _

/-- Once the rows are checked, the dead check of `build` is `deadAbsorbs`. -/
theorem deadAbsorbs_iff (hn : 0 < bp.states.size)
    {table : Vector (Vector (Fin bp.states.size) bp.alphabetLen) bp.states.size}
    (htable : ((Vector.mk bp.states rfl).mapFinIdxM fun q st _ =>
      checkRow bp.states.size bp.alphabetLen q st) = .ok table) :
    (∀ a : Fin bp.alphabetLen, (table.get ⟨0, hn⟩).get a = ⟨0, hn⟩) ↔ bp.deadAbsorbs = true := by
  have hall := all_val_iff_of_map_eq_ofFn (checkRows_eq_ok bp htable 0 hn) (· == 0)
  rw [deadAbsorbs, Array.getElem?_eq_getElem hn, Option.all_some, hall]
  simp only [beq_iff_eq, Fin.ext_iff]

/-! ### Build -/

theorem build_failsFirst : FailsFirst bp.build bp.faults := by
  unfold build faults
  simp only [List.flatten_cons, List.flatten_nil, List.append_nil]
  apply FailsFirst.check Iff.rfl
  intro hn
  apply FailsFirst.guard
  intro _
  apply FailsFirst.andThen (checkSymbols_failsFirst bp)
  intro symbolOf _
  apply FailsFirst.andThen (checkRows_failsFirst bp)
  intro table htable
  apply FailsFirst.check (deadAbsorbs_iff bp hn htable)
  intro _
  apply FailsFirst.check Iff.rfl
  intro _
  exact FailsFirst.check_pure _ _

theorem realizes_of_build {d : Automaton} (h : bp.build = .ok d) : bp.Realizes d := by
  -- Take the checks apart in the order `build` makes them.
  unfold build at h
  obtain ⟨hn, h⟩ := exists_of_check_eq_ok h
  obtain ⟨hlim, h⟩ := of_guard_eq_ok h
  obtain ⟨symbolOf, hs, h⟩ := bind_eq_ok.mp h
  obtain ⟨table, htable, h⟩ := bind_eq_ok.mp h
  obtain ⟨hdead, h⟩ := exists_of_check_eq_ok h
  obtain ⟨ha, h⟩ := exists_of_check_eq_ok h
  obtain ⟨hf, h⟩ := exists_of_check_eq_ok h
  rw [pure_eq_ok] at h
  subst h
  refine ⟨rfl, rfl, rfl, fun b => ?_, fun q => ?_, fun q => ?_, fun q => ?_, rfl, rfl⟩
  · exact checkSymbols_eq_ok hs b.toFin
  · exact checkRows_eq_ok bp htable q.val q.isLt
  · show (bp.states.map (·.reports))[q.val] = _
    simp
  · show (bp.states.map (·.eodReports))[q.val] = _
    simp

/-! ### What is accepted -/

theorem symbolFaults_eq_nil_iff :
    bp.symbolFaults = [] ↔ ∀ b : Fin 256, bp.symbolOf[b] < bp.alphabetLen := by
  simp [symbolFaults, List.flatMap_eq_nil_iff]

theorem rowFaults_eq_nil_iff (n k q : Nat) (st : StateSpec) :
    st.rowFaults n k q = [] ↔ st.next.size = k ∧ ∀ t ∈ st.next, t.val < n := by
  unfold StateSpec.rowFaults
  by_cases h : st.next.size = k
  · rw [if_pos h, and_iff_right h]
    simp only [List.flatMap_eq_nil_iff, List.mem_finRange, true_implies, ite_eq_left_iff,
      reduceCtorEq, imp_false, Decidable.not_not, Array.mem_iff_getElem]
    constructor
    · rintro hall t ⟨i, hi, rfl⟩
      exact hall ⟨i, hi⟩
    · intro hall a
      exact hall _ ⟨a.val, a.isLt, rfl⟩
  · simp [h]

theorem deadAbsorbs_eq_true_iff :
    bp.deadAbsorbs = true ↔ ∀ st ∈ bp.states[0]?, ∀ t ∈ st.next, t.val = 0 := by
  simp only [deadAbsorbs, Option.all_eq_true, Array.all_eq_true, beq_iff_eq]
  constructor
  · intro hall st hst t ht
    obtain ⟨i, hi, rfl⟩ := Array.mem_iff_getElem.mp ht
    exact hall st hst i hi
  · intro hall st hst i hi
    exact hall st hst _ (Array.getElem_mem hi)

theorem faults_eq_nil_iff : bp.faults = [] ↔ bp.WellFormed := by
  have hrows : bp.rowFaults = [] ↔
      (∀ q : Fin bp.states.size, bp.states[q].next.size = bp.alphabetLen) ∧
        ∀ q : Fin bp.states.size, ∀ t ∈ bp.states[q].next, t.val < bp.states.size := by
    simp only [rowFaults, List.flatMap_eq_nil_iff, List.mem_finRange, true_implies,
      rowFaults_eq_nil_iff]
    exact forall_and
  simp only [faults, List.flatten_eq_nil_iff, List.mem_cons, List.not_mem_nil, or_false,
    forall_eq_or_imp, forall_eq, symbolFaults_eq_nil_iff, hrows, deadAbsorbs_eq_true_iff,
    ite_eq_left_iff, ite_eq_right_iff, reduceCtorEq, imp_false, Decidable.not_not]
  constructor
  · rintro ⟨hn, hlim, hsym, ⟨hsize, htarget⟩, hdead, ha, hf⟩
    exact ⟨hn, Nat.le_of_not_lt hlim, hsym, hsize, htarget, hdead, ha, hf⟩
  · rintro ⟨hn, hlim, hsym, hsize, htarget, hdead, ha, hf⟩
    exact ⟨hn, Nat.not_lt.mpr hlim, hsym, ⟨hsize, htarget⟩, hdead, ha, hf⟩

instance : Decidable bp.WellFormed := decidable_of_iff _ (faults_eq_nil_iff bp)

/-- `build` accepts exactly the well-formed blueprints and returns the automaton they describe;
otherwise it fails with the first fault, in the order of `faults`: no state, too many states,
the least byte outside the alphabet, then state by state a wrong count or else the least
symbol with a target that is no state, a dead state that leaves, and the two starts. -/
theorem build_first_fault :
    ((∃ d, bp.build = .ok d) ↔ bp.WellFormed) ∧
      (∀ e, bp.build = .error e ↔ bp.faults.head? = some e) ∧
      ∀ d, bp.build = .ok d → bp.Realizes d := by
  have hb := build_failsFirst bp
  refine ⟨?_, hb, fun d h => realizes_of_build bp h⟩
  rw [hb.ok_iff]
  exact faults_eq_nil_iff bp

-- A dead state whose target is no state fails on the target, before the dead check.
example :
    ({ kind := .Prefix, alphabetLen := 1, symbolOf := Vector.replicate 256 0,
       states := #[⟨#[⟨5, by decide⟩], [], []⟩, ⟨#[⟨1, by decide⟩], [], []⟩] } :
      Blueprint).faults.head? = some (.invalidTransition 0 0 5) := by
  decide +kernel

end Blueprint

end SkipAhead
