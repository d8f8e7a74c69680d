import Mathlib.Data.Fintype.Card
import Mathlib.Logic.Relation
import SkipAhead.Accel.Region
import SkipAhead.Proofs.Automaton.Symbols

/-!
The region walk. The walk marks the states it meets and keeps a stack of marked states
whose successors are still to be looked at. What it keeps (`WalkInv`): the base is marked,
so is every state on the stack, every marked state is reachable from the base, and a marked
state off the stack has all its successors marked. A visit pops one state and pushes only
the states it marks, so the stack and the unmarked states together shrink by one per visit,
and `size` visits leave the stack empty.

Main statement (`mem_region`): the region of a broken description is the set of states
reachable from the base by bytes outside its escape set; any other description keeps the
base alone.
-/

namespace SkipAhead.Automaton

theorem get_setIfInBounds {α : Type} {n : Nat} (v : Vector α n) (s q : Fin n) (x : α) :
    (v.setIfInBounds s.val x).get q = if q = s then x else v.get q := by
  change (v.setIfInBounds s.val x)[q.val] = if q = s then x else v[q.val]
  rw [Vector.getElem_setIfInBounds q.isLt]
  by_cases h : q = s
  · simp [h]
  · have hv : s.val ≠ q.val := fun hv => h (Fin.ext hv.symm)
    simp [h, hv]

variable (d : Automaton)

def StepOn (syms : List (Fin d.alphabetLen)) (q t : Fin d.size) : Prop :=
  ∃ a ∈ syms, d.step q a = t

def LeadsAvoiding (X : ByteSet) (q t : Fin d.size) : Prop :=
  ∃ b, X.contains b = false ∧ d.next q b = t

/-- The visit of `q` looking at the symbol `a`: the successor is marked and pushed if new. -/
def markStep (q : Fin d.size) (acc : Vector Bool d.size × List (Fin d.size))
    (a : Fin d.alphabetLen) : Vector Bool d.size × List (Fin d.size) :=
  if acc.1.get (d.step q a) then acc
  else (acc.1.setIfInBounds (d.step q a).val true, d.step q a :: acc.2)

def unmarked {n : Nat} (marks : Vector Bool n) : Nat :=
  (Finset.univ.filter fun t : Fin n => marks.get t = false).card

variable {d}

theorem regionWalk_cons (syms : List (Fin d.alphabetLen)) (fuel : Nat) (q : Fin d.size)
    (rest : List (Fin d.size)) (marks : Vector Bool d.size) :
    d.regionWalk syms (fuel + 1) (q :: rest) marks =
      d.regionWalk syms fuel (syms.foldl (d.markStep q) (marks, rest)).2
        (syms.foldl (d.markStep q) (marks, rest)).1 := rfl

theorem unmarked_set {n : Nat} {marks : Vector Bool n} {t : Fin n} (h : marks.get t = false) :
    unmarked (marks.setIfInBounds t.val true) + 1 = unmarked marks := by
  have hfilter : (Finset.univ.filter fun u : Fin n => (marks.setIfInBounds t.val true).get u = false) =
      (Finset.univ.filter fun u : Fin n => marks.get u = false).erase t := by
    ext u
    by_cases hu : u = t
    · simp [hu, get_setIfInBounds]
    · simp [hu, get_setIfInBounds]
  unfold unmarked
  rw [hfilter, Finset.card_erase_of_mem (by simp [h])]
  have hpos : 0 < (Finset.univ.filter fun u : Fin n => marks.get u = false).card :=
    Finset.card_pos.mpr ⟨t, by simp [h]⟩
  omega

/-! ### One visit -/

/-- What the visit of `q` has done after looking at the symbols `P`, from the marks `marks`
and the stack `rest`: it has marked exactly the successors on `P`, and pushed each state it
newly marked once. -/
structure Visited (q : Fin d.size) (P : List (Fin d.alphabetLen)) (marks : Vector Bool d.size)
    (rest : List (Fin d.size)) (s : Vector Bool d.size × List (Fin d.size)) : Prop where
  marks_iff : ∀ u, s.1.get u = true ↔ marks.get u = true ∨ ∃ a ∈ P, d.step q a = u
  pushed : ∃ new, s.2 = new ++ rest ∧ (∀ u, u ∈ new ↔ s.1.get u = true ∧ marks.get u = false) ∧
    new.length + unmarked s.1 = unmarked marks

theorem visited_nil (q : Fin d.size) (marks : Vector Bool d.size) (rest : List (Fin d.size)) :
    Visited q [] marks rest (marks, rest) :=
  ⟨by simp, ⟨[], by simp, by simp, by simp⟩⟩

theorem Visited.markStep {q : Fin d.size} {P : List (Fin d.alphabetLen)}
    {marks : Vector Bool d.size} {rest : List (Fin d.size)}
    {s : Vector Bool d.size × List (Fin d.size)} (h : Visited q P marks rest s)
    (a : Fin d.alphabetLen) : Visited q (P ++ [a]) marks rest (d.markStep q s a) := by
  obtain ⟨new, hs, hnew, hcount⟩ := h.pushed
  have hmono : ∀ u, marks.get u = true → s.1.get u = true :=
    fun u hu => (h.marks_iff u).mpr (Or.inl hu)
  unfold Automaton.markStep
  by_cases ht : s.1.get (d.step q a) = true
  · -- already marked: nothing changes
    rw [if_pos ht]
    refine ⟨?_, ⟨new, hs, hnew, hcount⟩⟩
    intro u
    rw [h.marks_iff u]
    simp only [List.mem_append, List.mem_singleton]
    constructor
    · rintro (hu | ⟨x, hx, hxu⟩)
      · exact Or.inl hu
      · exact Or.inr ⟨x, Or.inl hx, hxu⟩
    · rintro (hu | ⟨x, hx | rfl, hxu⟩)
      · exact Or.inl hu
      · exact Or.inr ⟨x, hx, hxu⟩
      · rw [← hxu]
        exact (h.marks_iff _).mp ht
  · -- a new state: marked and pushed
    have hf : s.1.get (d.step q a) = false := by simpa using ht
    rw [if_neg ht]
    refine ⟨?_, ⟨d.step q a :: new, by simp [hs], ?_, ?_⟩⟩
    · intro u
      rw [get_setIfInBounds]
      by_cases hu : u = d.step q a
      · simp only [hu, ↓reduceIte, true_iff]
        exact Or.inr ⟨a, List.mem_append_right _ (List.mem_singleton_self a), rfl⟩
      · rw [if_neg hu, h.marks_iff u]
        simp only [List.mem_append, List.mem_singleton]
        constructor
        · rintro (hu' | ⟨x, hx, hxu⟩)
          · exact Or.inl hu'
          · exact Or.inr ⟨x, Or.inl hx, hxu⟩
        · rintro (hu' | ⟨x, hx | rfl, hxu⟩)
          · exact Or.inl hu'
          · exact Or.inr ⟨x, hx, hxu⟩
          · exact absurd hxu.symm hu
    · intro u
      rw [get_setIfInBounds, List.mem_cons, hnew]
      by_cases hu : u = d.step q a
      · subst hu
        have hm : marks.get (d.step q a) = false := by
          cases hm : marks.get (d.step q a)
          · rfl
          · rw [hmono _ hm] at hf
            cases hf
        simp [hm]
      · simp [hu]
    · have hset := unmarked_set hf
      dsimp only
      rw [List.length_cons]
      omega

theorem visited_foldl (q : Fin d.size) (marks : Vector Bool d.size) (rest : List (Fin d.size))
    (syms : List (Fin d.alphabetLen)) :
    ∀ {P s}, Visited q P marks rest s → Visited q (P ++ syms) marks rest (syms.foldl (d.markStep q) s) := by
  induction syms with
  | nil => simp
  | cons a more ih =>
    intro P s h
    have := ih (h.markStep a)
    rwa [List.append_assoc, List.singleton_append] at this

theorem visited_visit (syms : List (Fin d.alphabetLen)) (q : Fin d.size)
    (marks : Vector Bool d.size) (rest : List (Fin d.size)) :
    Visited q syms marks rest (syms.foldl (d.markStep q) (marks, rest)) := by
  simpa using visited_foldl q marks rest syms (visited_nil q marks rest)

/-- A visit pops one state and pushes only the states it marks, so the stack and the unmarked
states together shrink by one. -/
theorem length_add_unmarked_visit (syms : List (Fin d.alphabetLen)) (q : Fin d.size)
    (marks : Vector Bool d.size) (rest : List (Fin d.size)) :
    (syms.foldl (d.markStep q) (marks, rest)).2.length +
        unmarked (syms.foldl (d.markStep q) (marks, rest)).1 + 1 =
      (q :: rest).length + unmarked marks := by
  obtain ⟨new, hs, -, hcount⟩ := (visited_visit syms q marks rest).pushed
  rw [hs, List.length_append, List.length_cons]
  omega

/-! ### The walk -/

/-- What holds of the stack and the marks throughout the walk from `base`. -/
structure WalkInv (syms : List (Fin d.alphabetLen)) (base : Fin d.size)
    (pending : List (Fin d.size)) (marks : Vector Bool d.size) : Prop where
  base_marked : marks.get base = true
  pending_marked : ∀ q ∈ pending, marks.get q = true
  reach : ∀ q, marks.get q = true → Relation.ReflTransGen (d.StepOn syms) base q
  closed : ∀ q, marks.get q = true → q ∉ pending → ∀ t, d.StepOn syms q t → marks.get t = true

theorem WalkInv.visit {syms : List (Fin d.alphabetLen)} {base q : Fin d.size}
    {rest : List (Fin d.size)} {marks : Vector Bool d.size}
    {s : Vector Bool d.size × List (Fin d.size)} (h : WalkInv syms base (q :: rest) marks)
    (hv : Visited q syms marks rest s) : WalkInv syms base s.2 s.1 := by
  obtain ⟨new, hs, hnew, -⟩ := hv.pushed
  have hmono : ∀ u, marks.get u = true → s.1.get u = true :=
    fun u hu => (hv.marks_iff u).mpr (Or.inl hu)
  have hq : marks.get q = true := h.pending_marked q List.mem_cons_self
  refine ⟨hmono _ h.base_marked, ?_, ?_, ?_⟩
  · intro u hu
    rw [hs, List.mem_append] at hu
    rcases hu with hu | hu
    · exact ((hnew u).mp hu).1
    · exact hmono u (h.pending_marked u (List.mem_cons_of_mem _ hu))
  · intro u hu
    rcases (hv.marks_iff u).mp hu with hu | ⟨a, ha, hau⟩
    · exact h.reach u hu
    · exact Relation.ReflTransGen.tail (h.reach q hq) ⟨a, ha, hau⟩
  · intro u hu hup t ht
    rw [hs, List.mem_append, not_or] at hup
    cases hmu : marks.get u
    · -- newly marked states are on the stack
      exact absurd ((hnew u).mpr ⟨hu, hmu⟩) hup.1
    · by_cases huq : u = q
      · subst huq
        obtain ⟨a, ha, hat⟩ := ht
        exact (hv.marks_iff t).mpr (Or.inr ⟨a, ha, hat⟩)
      · have hnot : u ∉ q :: rest := by
          rw [List.mem_cons, not_or]
          exact ⟨huq, hup.2⟩
        exact hmono t (h.closed u hmu hnot t ht)

theorem walkInv_regionWalk (syms : List (Fin d.alphabetLen)) (base : Fin d.size) (fuel : Nat) :
    ∀ {pending marks}, WalkInv syms base pending marks →
      pending.length + unmarked marks ≤ fuel →
      WalkInv syms base [] (d.regionWalk syms fuel pending marks) := by
  induction fuel with
  | zero =>
    intro pending marks h hle
    have hnil : pending = [] := List.eq_nil_of_length_eq_zero (by omega)
    subst hnil
    exact h
  | succ fuel ih =>
    intro pending marks h hle
    cases pending with
    | nil => exact h
    | cons q rest =>
      rw [regionWalk_cons]
      apply ih (h.visit (visited_visit syms q marks rest))
      have hvisit := length_add_unmarked_visit syms q marks rest
      omega

theorem WalkInv.get_iff {syms : List (Fin d.alphabetLen)} {base : Fin d.size}
    {marks : Vector Bool d.size} (h : WalkInv syms base [] marks) (t : Fin d.size) :
    marks.get t = true ↔ Relation.ReflTransGen (d.StepOn syms) base t := by
  refine ⟨h.reach t, fun hr => ?_⟩
  induction hr with
  | refl => exact h.base_marked
  | tail _ hstep ih => exact h.closed _ ih List.not_mem_nil _ hstep

theorem walkInv_start (syms : List (Fin d.alphabetLen)) (base : Fin d.size) :
    WalkInv syms base [base] ((Vector.replicate d.size false).setIfInBounds base.val true) := by
  have hget : ∀ u, ((Vector.replicate d.size false).setIfInBounds base.val true).get u = true ↔
      u = base := by
    intro u
    rw [get_setIfInBounds]
    by_cases hu : u = base
    · simp [hu]
    · simp [hu, Vector.get]
  refine ⟨(hget base).mpr rfl, ?_, ?_, ?_⟩
  · intro q hq
    rw [List.mem_singleton] at hq
    exact (hget q).mpr hq
  · intro q hq
    rw [(hget q).mp hq]
  · intro q hq hqp
    exact absurd (List.mem_singleton.mpr ((hget q).mp hq)) hqp

theorem unmarked_start (base : Fin d.size) :
    unmarked ((Vector.replicate d.size false).setIfInBounds base.val true) + 1 = d.size := by
  rw [unmarked_set (by simp [Vector.get])]
  simp [unmarked, Vector.get]

theorem mem_reachableOn (syms : List (Fin d.alphabetLen)) (base t : Fin d.size) :
    t ∈ d.reachableOn syms base ↔ Relation.ReflTransGen (d.StepOn syms) base t := by
  have hinv := walkInv_regionWalk syms base d.size (walkInv_start syms base)
    (by rw [List.length_singleton, Nat.add_comm, unmarked_start])
  unfold reachableOn
  rw [List.mem_filter, ← hinv.get_iff t]
  simp [states]

theorem stepOn_symbolsOf (X : ByteSet) :
    d.StepOn (d.symbolsOf X.compl) = d.LeadsAvoiding X := by
  funext q t
  apply propext
  unfold StepOn LeadsAvoiding
  constructor
  · rintro ⟨a, ha, hat⟩
    obtain ⟨b, hb, rfl⟩ := mem_symbolsOf.mp ha
    rw [ByteSet.contains_compl, Bool.not_eq_true'] at hb
    exact ⟨b, hb, hat⟩
  · rintro ⟨b, hb, hbt⟩
    refine ⟨d.symbol b, mem_symbolsOf.mpr ⟨b, ?_, rfl⟩, hbt⟩
    simp [hb]

/-- The region of `base`: for a broken description, the states reachable from `base` by bytes
outside the escape set, `base` included; for a double-byte description, `base` alone. -/
theorem mem_region (base t : Fin d.size) (info : EscapeInfo) :
    t ∈ d.region base info ↔
      if info.isBroken then Relation.ReflTransGen (d.LeadsAvoiding info.outs) base t
      else t = base := by
  unfold region
  split
  · rw [mem_reachableOn, stepOn_symbolsOf]
  · exact List.mem_singleton

theorem mem_region_self (base : Fin d.size) (info : EscapeInfo) : base ∈ d.region base info := by
  rw [mem_region]
  split
  · exact Relation.ReflTransGen.refl
  · rfl

theorem region_nodup (base : Fin d.size) (info : EscapeInfo) : (d.region base info).Nodup := by
  unfold region reachableOn
  split
  · exact (List.nodup_finRange d.size).filter _
  · exact List.nodup_cons.mpr ⟨List.not_mem_nil, List.nodup_nil⟩

theorem region_pairwise (base : Fin d.size) (info : EscapeInfo) :
    (d.region base info).Pairwise (· < ·) := by
  unfold region reachableOn
  split
  · exact (List.pairwise_lt_finRange d.size).filter _
  · exact List.pairwise_singleton _ _

end SkipAhead.Automaton
