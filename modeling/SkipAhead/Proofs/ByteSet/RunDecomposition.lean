import SkipAhead.ByteSet.Runs
import SkipAhead.Proofs.ByteSet.Denotation

/-!
The runs of a byte set are its canonical decomposition into inclusive ranges. A list of
ranges is canonical when each range holds its first byte and ends at least two below the
start of the next one: the ranges then ascend, are disjoint, and no two of them could be
joined into one. A set has exactly one canonical list of ranges covering it, and the range
iterator yields that list.

Uniqueness goes by induction on one of two canonical lists: the first range of a canonical
list starts at its least covered byte and ends at the last byte before its first gap, so
two lists covering the same bytes agree on their first range and then on the rest
(`Canonical.eq_of_covers_iff`).

The iterator is followed call by call. A call skips the bytes below the next member, and its
inner loop leaves the cursor on the first byte past the run, which is no member or is past
`255` (`FoundRun`). So by induction on the calls, from any cursor the runs are canonical and
cover exactly the members from the cursor on. The same runs are also read off the ascending
member list, joining a byte to the run that starts right after it (`runsOf`).

Main statement: `runs_canonical_decomposition`.
-/

namespace SkipAhead.ByteSet

/-- Inclusive byte ranges in canonical form: each range holds its first byte, and each
ends at least two below the start of the next, so the ranges ascend, are disjoint and
maximal. -/
structure Canonical (rs : List (UInt8 × UInt8)) : Prop where
  le : ∀ p ∈ rs, p.1 ≤ p.2
  gap : rs.IsChain fun p q => p.2.toNat + 1 < q.1.toNat

def Covers (rs : List (UInt8 × UInt8)) (b : UInt8) : Prop :=
  ∃ p ∈ rs, p.1 ≤ b ∧ b ≤ p.2

@[simp] theorem not_covers_nil (b : UInt8) : ¬Covers [] b := by
  simp [Covers]

@[simp] theorem covers_cons (p : UInt8 × UInt8) (rs : List (UInt8 × UInt8)) (b : UInt8) :
    Covers (p :: rs) b ↔ (p.1 ≤ b ∧ b ≤ p.2) ∨ Covers rs b := by
  simp [Covers]

theorem covers_cons_of_le {p : UInt8 × UInt8} (rs : List (UInt8 × UInt8)) {b : UInt8}
    (hlo : p.1 ≤ b) (hhi : b ≤ p.2) : Covers (p :: rs) b :=
  (covers_cons p rs b).mpr (Or.inl ⟨hlo, hhi⟩)

/-! ### Canonical lists -/

namespace Canonical

theorem nil : Canonical [] := ⟨by simp, .nil⟩

theorem singleton {p : UInt8 × UInt8} (h : p.1 ≤ p.2) : Canonical [p] :=
  ⟨by simpa using h, .singleton p⟩

theorem cons_cons {p q : UInt8 × UInt8} {rs : List (UInt8 × UInt8)} (hp : p.1 ≤ p.2)
    (hgap : p.2.toNat + 1 < q.1.toNat) (h : Canonical (q :: rs)) : Canonical (p :: q :: rs) :=
  ⟨by
    intro r hr
    rcases List.mem_cons.mp hr with rfl | hr
    · exact hp
    · exact h.le r hr, List.isChain_cons_cons.mpr ⟨hgap, h.gap⟩⟩

theorem tail {p : UInt8 × UInt8} {rs : List (UInt8 × UInt8)} (h : Canonical (p :: rs)) :
    Canonical rs :=
  ⟨fun r hr => h.le r (List.mem_cons_of_mem p hr), h.gap.tail⟩

theorem head_le {p : UInt8 × UInt8} {rs : List (UInt8 × UInt8)} (h : Canonical (p :: rs)) :
    p.1 ≤ p.2 :=
  h.le p List.mem_cons_self

theorem covers_start {p : UInt8 × UInt8} {rs : List (UInt8 × UInt8)} (h : Canonical (p :: rs)) :
    Covers (p :: rs) p.1 :=
  covers_cons_of_le rs (UInt8.le_refl _) h.head_le

theorem replace_start {lo lo' hi : UInt8} {rs : List (UInt8 × UInt8)}
    (h : Canonical ((lo, hi) :: rs)) (hle : lo' ≤ hi) : Canonical ((lo', hi) :: rs) := by
  cases rs with
  | nil => exact singleton hle
  | cons q rs => exact cons_cons hle (List.isChain_cons_cons.mp h.gap).1 h.tail

theorem lt_of_covers_tail {p : UInt8 × UInt8} {rs : List (UInt8 × UInt8)}
    (h : Canonical (p :: rs)) {b : UInt8} (hb : Covers rs b) : p.2.toNat + 1 < b.toNat := by
  induction rs generalizing p with
  | nil => exact absurd hb (not_covers_nil b)
  | cons q rs ih =>
    have hpq := (List.isChain_cons_cons.mp h.gap).1
    have hq := h.tail.head_le
    rw [UInt8.le_iff_toNat_le] at hq
    rcases (covers_cons q rs b).mp hb with ⟨hqb, -⟩ | hb
    · rw [UInt8.le_iff_toNat_le] at hqb
      omega
    · have := ih h.tail hb
      omega

theorem covers_tail_iff {p : UInt8 × UInt8} {rs : List (UInt8 × UInt8)}
    (h : Canonical (p :: rs)) (b : UInt8) : Covers rs b ↔ Covers (p :: rs) b ∧ p.2 < b := by
  rw [covers_cons, UInt8.lt_iff_toNat_lt]
  constructor
  · intro hb
    have := h.lt_of_covers_tail hb
    exact ⟨Or.inr hb, by omega⟩
  · rintro ⟨⟨-, hbp⟩ | hb, hlt⟩
    · rw [UInt8.le_iff_toNat_le] at hbp
      omega
    · exact hb

theorem head_le_of_covers {p : UInt8 × UInt8} {rs : List (UInt8 × UInt8)}
    (h : Canonical (p :: rs)) {b : UInt8} (hb : Covers (p :: rs) b) : p.1 ≤ b := by
  rcases (covers_cons p rs b).mp hb with ⟨hpb, -⟩ | hb
  · exact hpb
  · have hlt := h.lt_of_covers_tail hb
    have hp := h.head_le
    rw [UInt8.le_iff_toNat_le] at hp ⊢
    omega

/-- A range that starts with the first range of a canonical list, and whose bytes the list
all covers, ends no later than that first range: the byte after the first range is not
covered. -/
theorem end_le_of_covers {p p' : UInt8 × UInt8} {rs : List (UInt8 × UInt8)}
    (h : Canonical (p :: rs)) (hstart : p'.1 = p.1)
    (hcov : ∀ b, p'.1 ≤ b → b ≤ p'.2 → Covers (p :: rs) b) : p'.2 ≤ p.2 := by
  rw [UInt8.le_iff_toNat_le]
  apply Nat.le_of_not_lt
  intro hlt
  have hbound := p'.2.toNat_lt
  -- the byte right after the first range lies in `p'`, so the list would cover it
  have hnext : (UInt8.ofNat (p.2.toNat + 1)).toNat = p.2.toNat + 1 := toNat_ofNat_of_lt (by omega)
  have hp := h.head_le
  rw [UInt8.le_iff_toNat_le] at hp
  have hcovered := hcov (UInt8.ofNat (p.2.toNat + 1))
    (by rw [hstart, UInt8.le_iff_toNat_le, hnext]; omega)
    (by rw [UInt8.le_iff_toNat_le, hnext]; omega)
  have hafter := (h.covers_tail_iff _).mpr
    ⟨hcovered, by rw [UInt8.lt_iff_toNat_lt, hnext]; omega⟩
  have := h.lt_of_covers_tail hafter
  omega

/-- Two canonical lists that cover the same bytes are equal. -/
theorem eq_of_covers_iff {rs rs' : List (UInt8 × UInt8)} (h : Canonical rs)
    (h' : Canonical rs') (hcov : ∀ b, Covers rs b ↔ Covers rs' b) : rs = rs' := by
  induction rs generalizing rs' with
  | nil =>
    cases rs' with
    | nil => rfl
    | cons p' rs' =>
      -- the start of the first range of `rs'` is covered
      exact absurd ((hcov p'.1).mpr h'.covers_start) (not_covers_nil _)
  | cons p rs ih =>
    cases rs' with
    | nil =>
      exact absurd ((hcov p.1).mp h.covers_start) (not_covers_nil _)
    | cons p' rs' =>
      have hstart : p'.1 = p.1 := by
        apply UInt8.le_antisymm
        · exact h'.head_le_of_covers ((hcov p.1).mp h.covers_start)
        · exact h.head_le_of_covers ((hcov p'.1).mpr h'.covers_start)
      have hend : p'.2 = p.2 := by
        apply UInt8.le_antisymm
        · exact h.end_le_of_covers hstart fun b hlo hhi =>
            (hcov b).mpr (covers_cons_of_le rs' hlo hhi)
        · exact h'.end_le_of_covers hstart.symm fun b hlo hhi =>
            (hcov b).mp (covers_cons_of_le rs hlo hhi)
      have hp : p' = p := Prod.ext hstart hend
      subst hp
      -- past the common first range, the rest covers the same bytes
      have hrest : ∀ b, Covers rs b ↔ Covers rs' b := by
        intro b
        rw [h.covers_tail_iff, h'.covers_tail_iff, hcov]
      rw [ih h.tail h'.tail hrest]

end Canonical

/-! ### The runs of an ascending list -/

/-- Groups an ascending list of bytes into blocks of consecutive values, each given by its
first and last byte. -/
def runsOf : List UInt8 → List (UInt8 × UInt8)
  | [] => []
  | b :: rest =>
    match runsOf rest with
    | [] => [(b, b)]
    | (lo, hi) :: more =>
      if lo.toNat = b.toNat + 1 then (b, hi) :: more else (b, b) :: (lo, hi) :: more

@[simp] theorem runsOf_nil : runsOf [] = [] := rfl

theorem range_self_iff (b x : UInt8) : (b ≤ x ∧ x ≤ b) ↔ x = b :=
  ⟨fun h => UInt8.le_antisymm h.2 h.1,
    by rintro rfl; exact ⟨UInt8.le_refl _, UInt8.le_refl _⟩⟩

theorem exists_runsOf_cons (b : UInt8) (rest : List UInt8) :
    ∃ hi more, runsOf (b :: rest) = (b, hi) :: more := by
  unfold runsOf
  split
  · exact ⟨b, [], rfl⟩
  · split
    · exact ⟨_, _, rfl⟩
    · exact ⟨b, _, rfl⟩

theorem runsOf_cons_of_eq {b lo hi : UInt8} {rest : List UInt8} {more : List (UInt8 × UInt8)}
    (h : runsOf rest = (lo, hi) :: more) :
    runsOf (b :: rest) =
      if lo.toNat = b.toNat + 1 then (b, hi) :: more else (b, b) :: (lo, hi) :: more := by
  rw [runsOf, h]

/-- The runs of a strictly ascending list are canonical and cover exactly its bytes. -/
theorem runsOf_canonical_covers (L : List UInt8) (hL : L.Pairwise (· < ·)) :
    Canonical (runsOf L) ∧ ∀ x, Covers (runsOf L) x ↔ x ∈ L := by
  induction L with
  | nil => exact ⟨Canonical.nil, by simp⟩
  | cons b rest ih =>
    obtain ⟨hcan, hcov⟩ := ih hL.of_cons
    cases rest with
    | nil =>
      refine ⟨Canonical.singleton (UInt8.le_refl b), fun x => ?_⟩
      simp only [runsOf, covers_cons, not_covers_nil, or_false, List.mem_singleton]
      exact range_self_iff b x
    | cons c rest =>
      obtain ⟨hi, more, hrun⟩ := exists_runsOf_cons c rest
      rw [hrun] at hcan hcov
      have hbc : b.toNat < c.toNat :=
        UInt8.lt_iff_toNat_lt.mp (List.rel_of_pairwise_cons hL List.mem_cons_self)
      have hchi : c.toNat ≤ hi.toNat := UInt8.le_iff_toNat_le.mp hcan.head_le
      rw [runsOf_cons_of_eq hrun]
      split
      · -- `b` joins the run that starts right after it
        rename_i hjoin
        refine ⟨hcan.replace_start (UInt8.le_iff_toNat_le.mpr (by omega)), fun x => ?_⟩
        have hrange : (b ≤ x ∧ x ≤ hi) ↔ x = b ∨ (c ≤ x ∧ x ≤ hi) := by
          simp only [UInt8.le_iff_toNat_le, ← UInt8.toNat_inj]
          omega
        rw [List.mem_cons, ← hcov, covers_cons, covers_cons, hrange, or_assoc]
      · -- `b` starts a run of its own, with a gap before the next
        rename_i hgap
        have hsep : b.toNat + 1 < c.toNat := by omega
        refine ⟨Canonical.cons_cons (UInt8.le_refl b) hsep hcan, fun x => ?_⟩
        rw [List.mem_cons, ← hcov, covers_cons, range_self_iff]

/-! ### The range iterator -/

/-- The extension loop, started right after the end `stop` of a run, returns the new end of
the run and the cursor right after it: every byte it passes is a member, and it stops past
`255` or on a byte that is not. -/
theorem extendRun_spec (s : ByteSet) (stop : UInt8) (b : Nat) (hstop : stop.toNat + 1 = b) :
    (s.extendRun stop b).1.toNat + 1 = (s.extendRun stop b).2 ∧
      (∀ n, b ≤ n → n < (s.extendRun stop b).2 → s.contains (UInt8.ofNat n) = true) ∧
      ((s.extendRun stop b).2 ≤ 255 →
        s.contains (UInt8.ofNat (s.extendRun stop b).2) = false) := by
  fun_induction extendRun s stop b with
  | case1 stop b hb ih =>
    -- the cursor is on a member, so the run now ends there
    obtain ⟨hend, hmem, hstops⟩ := ih (by rw [toNat_ofNat_of_lt (by omega)])
    refine ⟨hend, fun n hbn hn => ?_, hstops⟩
    rcases Nat.eq_or_lt_of_le hbn with rfl | hlt
    · exact hb.2
    · exact hmem n hlt hn
  | case2 stop b hb =>
    refine ⟨hstop, fun n hbn hn => absurd hn (Nat.not_lt.mpr hbn), fun hle => ?_⟩
    simpa [hle] using hb

/-- What one call of the iterator from the cursor `b` finds: the run from `lo` to `hi` is
the first block of members at or after `b`, and the cursor `c` is left right after it. -/
structure FoundRun (s : ByteSet) (b : Nat) (lo hi : UInt8) (c : Nat) : Prop where
  start : b ≤ lo.toNat
  skipped : ∀ n, b ≤ n → n < lo.toNat → s.contains (UInt8.ofNat n) = false
  le_end : lo.toNat ≤ hi.toNat
  members : ∀ n, lo.toNat ≤ n → n ≤ hi.toNat → s.contains (UInt8.ofNat n) = true
  after : hi.toNat + 1 = c
  stops : c ≤ 255 → s.contains (UInt8.ofNat c) = false

namespace FoundRun

variable {s : ByteSet} {b c : Nat} {lo hi : UInt8}

theorem lt_of_contains (hf : FoundRun s b lo hi c) {x : UInt8} (hx : s.contains x = true)
    (hcx : c ≤ x.toNat) : hi.toNat + 1 < x.toNat := by
  have hafter := hf.after
  rcases Nat.eq_or_lt_of_le hcx with heq | hlt
  · -- the byte right after the run is no member
    have hout := hf.stops (by have := x.toNat_lt; omega)
    rw [heq, UInt8.ofNat_toNat, hx] at hout
    cases hout
  · omega

/-- One call splits the members from the cursor on into the run it yields and the members
from the new cursor on. -/
theorem contains_iff (hf : FoundRun s b lo hi c) (x : UInt8) :
    s.contains x = true ∧ b ≤ x.toNat ↔
      (lo ≤ x ∧ x ≤ hi) ∨ (s.contains x = true ∧ c ≤ x.toNat) := by
  have hstart := hf.start
  have hafter := hf.after
  rw [UInt8.le_iff_toNat_le, UInt8.le_iff_toNat_le]
  constructor
  · rintro ⟨hx, hbx⟩
    -- a member from `b` on is not below the run, so it is in it or after it
    have hnot : ¬x.toNat < lo.toNat := by
      intro hlt
      have hout := hf.skipped x.toNat hbx hlt
      rw [UInt8.ofNat_toNat, hx] at hout
      cases hout
    by_cases hle : x.toNat ≤ hi.toNat
    · exact Or.inl ⟨show lo.toNat ≤ x.toNat by omega, hle⟩
    · exact Or.inr ⟨hx, by omega⟩
  · rintro (⟨hlo, hhi⟩ | ⟨hx, hcx⟩)
    · have hx := hf.members x.toNat hlo hhi
      rw [UInt8.ofNat_toNat] at hx
      exact ⟨hx, Nat.le_trans hstart hlo⟩
    · exact ⟨hx, by have := hf.le_end; omega⟩

end FoundRun

theorem foundRun_of_nextRun {s : ByteSet} {b c : Nat} {lo hi : UInt8}
    (h : s.nextRun b = some ((lo, hi), c)) : FoundRun s b lo hi c := by
  fun_induction nextRun s b with
  | case1 b hb hmem ext =>
    -- the cursor is on a member: the run starts there
    simp only [ext, Option.some.injEq, Prod.mk.injEq] at h
    obtain ⟨⟨rfl, rfl⟩, rfl⟩ := h
    have hlo : (UInt8.ofNat b).toNat = b := toNat_ofNat_of_lt (by omega)
    obtain ⟨hend, hext, hstops⟩ := extendRun_spec s (UInt8.ofNat b) (b + 1) (by rw [hlo])
    have hpast := le_extendRun s (UInt8.ofNat b) (b + 1)
    refine ⟨hlo.ge, fun n h1 h2 => absurd h2 (by omega), by omega, fun n h1 h2 => ?_, hend,
      hstops⟩
    rcases Nat.eq_or_lt_of_le (hlo ▸ h1) with rfl | hlt
    · exact hmem
    · exact hext n hlt (by omega)
  | case2 b hb hskip ih =>
    -- the cursor is on a byte outside the set: the call moves past it
    have hf := ih h
    refine ⟨by have := hf.start; omega, fun n h1 h2 => ?_, hf.le_end, hf.members, hf.after,
      hf.stops⟩
    rcases Nat.eq_or_lt_of_le h1 with rfl | hlt
    · simpa using hskip
    · exact hf.skipped n hlt h2
  | case3 => cases h

theorem contains_of_nextRun_eq_none {s : ByteSet} {b : Nat} (h : s.nextRun b = none) :
    ∀ n, b ≤ n → n ≤ 255 → s.contains (UInt8.ofNat n) = false := by
  fun_induction nextRun s b with
  | case1 => cases h
  | case2 b hb hskip ih =>
    intro n h1 h2
    rcases Nat.eq_or_lt_of_le h1 with rfl | hlt
    · simpa using hskip
    · exact ih h n hlt h2
  | case3 b hb =>
    intro n h1 h2
    omega

/-- From the cursor `b` the iterator yields a canonical list of runs that start at or after
`b` and cover exactly the members from `b` on. -/
theorem runsFrom_canonical_covers (s : ByteSet) (b : Nat) :
    Canonical (s.runsFrom b) ∧ (∀ p ∈ s.runsFrom b, b ≤ p.1.toNat) ∧
      ∀ x, Covers (s.runsFrom b) x ↔ s.contains x = true ∧ b ≤ x.toNat := by
  fun_induction runsFrom s b with
  | case1 b hnone =>
    refine ⟨Canonical.nil, by simp, fun x => ?_⟩
    simp only [not_covers_nil, false_iff, not_and]
    intro hx hbx
    have hout := contains_of_nextRun_eq_none hnone x.toNat hbx (by have := x.toNat_lt; omega)
    rw [UInt8.ofNat_toNat, hx] at hout
    cases hout
  | case2 b r c hnext _ ih =>
    obtain ⟨lo, hi⟩ := r
    have hf := foundRun_of_nextRun hnext
    obtain ⟨hcan, hstart, hcov⟩ := ih
    have hgap : ∀ p ∈ s.runsFrom c, hi.toNat + 1 < p.1.toNat := fun p hp =>
      hf.lt_of_contains ((hcov p.1).mp ⟨p, hp, UInt8.le_refl _, hcan.le p hp⟩).1 (hstart p hp)
    refine ⟨?_, fun p hp => ?_, fun x => ?_⟩
    · cases hrest : s.runsFrom c with
      | nil => exact Canonical.singleton (UInt8.le_iff_toNat_le.mpr hf.le_end)
      | cons q rs =>
        rw [hrest] at hcan hgap
        exact Canonical.cons_cons (UInt8.le_iff_toNat_le.mpr hf.le_end)
          (hgap q List.mem_cons_self) hcan
    · rcases List.mem_cons.mp hp with rfl | hp
      · exact hf.start
      · have := hstart p hp
        have := (lt_of_nextRun_eq_some hnext).1
        omega
    · rw [covers_cons, hcov]
      exact (hf.contains_iff x).symm

/-! ### The runs of a set -/

theorem canonical_runs (s : ByteSet) : Canonical s.runs :=
  (runsFrom_canonical_covers s 0).1

theorem covers_runs (s : ByteSet) (b : UInt8) : Covers s.runs b ↔ s.contains b = true := by
  rw [runs, (runsFrom_canonical_covers s 0).2.2]
  simp

/-- The runs the iterator yields are the ascending members grouped into blocks of
consecutive values. -/
theorem runs_eq_runsOf (s : ByteSet) : s.runs = runsOf s.toList := by
  obtain ⟨hcan, hcov⟩ := runsOf_canonical_covers s.toList (toList_ascending s)
  exact (canonical_runs s).eq_of_covers_iff hcan fun b => by rw [covers_runs, hcov, mem_toList]

theorem contains_foldl_insertRange (rs : List (UInt8 × UInt8)) (t : ByteSet) (b : UInt8) :
    (rs.foldl (fun acc p => acc.insertRange p.1 p.2) t).contains b = true ↔
      Covers rs b ∨ t.contains b = true := by
  induction rs generalizing t with
  | nil => simp
  | cons p rs ih =>
    rw [List.foldl_cons, ih, contains_insertRange, covers_cons]
    simp only [Bool.or_eq_true, decide_eq_true_eq]
    tauto

/-- The runs the iterator yields for `s` are its canonical decomposition: they are canonical
(ascending, disjoint and maximal), their union is exactly `s`, and they are the only
canonical list of ranges with that union. Adding the runs one by one to the empty set
rebuilds `s`, so two sets have the same runs exactly when they are equal. They are also the
ascending members of `s` grouped into blocks of consecutive values. -/
theorem runs_canonical_decomposition (s : ByteSet) :
    Canonical s.runs ∧
    (∀ b, (∃ p ∈ s.runs, p.1 ≤ b ∧ b ≤ p.2) ↔ s.contains b = true) ∧
    (∀ rs, Canonical rs → (∀ b, Covers rs b ↔ s.contains b = true) → rs = s.runs) ∧
    s.runs.foldl (fun acc p => acc.insertRange p.1 p.2) empty = s ∧
    (∀ t : ByteSet, s.runs = t.runs ↔ s = t) ∧
    s.runs = runsOf s.toList := by
  -- the runs of a set rebuild it
  have hrebuild : ∀ t : ByteSet,
      t.runs.foldl (fun acc p => acc.insertRange p.1 p.2) empty = t := by
    intro t
    apply ext_contains
    intro b
    rw [Bool.eq_iff_iff, contains_foldl_insertRange, covers_runs, contains_empty]
    simp
  refine ⟨canonical_runs s, covers_runs s, ?_, hrebuild s, ?_, runs_eq_runsOf s⟩
  · intro rs hrs hcov
    exact hrs.eq_of_covers_iff (canonical_runs s) fun b => (hcov b).trans (covers_runs s b).symm
  · intro t
    constructor
    · intro h
      rw [← hrebuild s, h, hrebuild t]
    · rintro rfl
      rfl

example : (((empty.insertRange 97 99).insert 122).insertRange 254 255).runs =
    [(97, 99), (122, 122), (254, 255)] := by
  decide +kernel

end SkipAhead.ByteSet
