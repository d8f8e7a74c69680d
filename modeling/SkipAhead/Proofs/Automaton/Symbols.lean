import Mathlib.Data.List.Perm.Basic
import SkipAhead.Offset.Search
import SkipAhead.Proofs.ByteSet.Members

/-!
Symbols and byte classes. The symbols of a set of bytes are the symbols of its members,
each once. Grouping a state's successors symbol by symbol and merging the classes of equal
targets gives the targets of its byte transitions in ascending order, each with exactly
the bytes that lead there (`successorClasses_symbolClasses`). Both are thus fixed by the
byte transitions alone, whatever the numbering of the symbols.
-/

namespace SkipAhead

namespace Ascending

variable {α : Type} {key : α → Nat}

theorem mem_insert (hk : Function.Injective key) (a x : α) (l : List α) :
    x ∈ insert key a l ↔ x = a ∨ x ∈ l := by
  induction l with
  | nil => simp [insert]
  | cons c rest ih =>
    unfold insert
    by_cases hlt : key a < key c
    · simp [hlt]
    · by_cases heq : key a = key c
      · -- the element already present has the same key, hence is `a`
        have hac : a = c := hk heq
        subst hac
        simp
      · simp only [hlt, heq, ↓reduceIte, List.mem_cons, ih]
        tauto

theorem mem_foldl_insert (hk : Function.Injective key) (xs acc : List α) (x : α) :
    x ∈ xs.foldl (fun acc a => insert key a acc) acc ↔ x ∈ acc ∨ x ∈ xs := by
  induction xs generalizing acc with
  | nil => simp
  | cons a rest ih =>
    rw [List.foldl_cons, ih, mem_insert hk]
    simp only [List.mem_cons]
    tauto

theorem mem_ofList (hk : Function.Injective key) (xs : List α) (x : α) :
    x ∈ ofList key xs ↔ x ∈ xs := by
  simp [ofList, mem_foldl_insert hk]

end Ascending

namespace Automaton

variable (d : Automaton)

/-- The targets of `f` in ascending order, each with the bytes `f` sends there. -/
def groupByTarget {n : Nat} (f : UInt8 → Fin n) : List (Fin n × ByteSet) :=
  (List.finRange n).filterMap fun t =>
    if ByteSet.allBytes.any (fun b => f b = t) = true then
      some (t, ByteSet.filter fun b => f b = t)
    else none

variable {d}

theorem mem_symbolsOf {s : ByteSet} {a : Fin d.alphabetLen} :
    a ∈ d.symbolsOf s ↔ ∃ b, s.contains b = true ∧ d.symbol b = a := by
  rw [symbolsOf, Ascending.mem_ofList fun _ _ h => Fin.ext h]
  simp

theorem mem_usedSymbols {a : Fin d.alphabetLen} : a ∈ d.usedSymbols ↔ ∃ b, d.symbol b = a := by
  simp [usedSymbols, mem_symbolsOf]

/-! ### Merging classes by target -/

section Merge

variable {n : Nat}

theorem fst_mem_addToClass {t : Fin n} {c : ByteSet} {L : List (Fin n × ByteSet)}
    {y : Fin n × ByteSet} (hy : y ∈ addToClass t c L) : y.1 = t ∨ ∃ z ∈ L, z.1 = y.1 := by
  induction L with
  | nil =>
    simp only [addToClass, List.mem_singleton] at hy
    exact Or.inl (by rw [hy])
  | cons z rest ih =>
    unfold addToClass at hy
    split at hy
    · rcases List.mem_cons.mp hy with h | h
      · exact Or.inl (by rw [h])
      · exact Or.inr ⟨y, h, rfl⟩
    · split at hy
      · rcases List.mem_cons.mp hy with h | h
        · exact Or.inr ⟨z, List.mem_cons_self, by rw [h]⟩
        · exact Or.inr ⟨y, List.mem_cons_of_mem _ h, rfl⟩
      · rcases List.mem_cons.mp hy with h | h
        · exact Or.inr ⟨y, by rw [h]; exact List.mem_cons_self, rfl⟩
        · rcases ih h with h' | ⟨w, hw, hwy⟩
          · exact Or.inl h'
          · exact Or.inr ⟨w, List.mem_cons_of_mem _ hw, hwy⟩

theorem pairwise_addToClass (t : Fin n) (c : ByteSet) {L : List (Fin n × ByteSet)}
    (hL : L.Pairwise fun x y => x.1 < y.1) :
    (addToClass t c L).Pairwise fun x y => x.1 < y.1 := by
  induction L with
  | nil => simp [addToClass]
  | cons z rest ih =>
    obtain ⟨u, e⟩ := z
    obtain ⟨hu, hrest⟩ := List.pairwise_cons.mp hL
    unfold addToClass
    by_cases htu : t.val < u.val
    · rw [if_pos htu]
      refine List.pairwise_cons.mpr ⟨?_, hL⟩
      intro y hy
      rcases List.mem_cons.mp hy with rfl | hy
      · exact htu
      · exact Fin.lt_trans htu (hu y hy)
    · rw [if_neg htu]
      by_cases hteq : t = u
      · rw [if_pos hteq]
        exact List.pairwise_cons.mpr ⟨hu, hrest⟩
      · rw [if_neg hteq]
        have hut : u < t := by
          have : t.val ≠ u.val := fun h => hteq (Fin.ext h)
          exact Fin.lt_def.mpr (by omega)
        refine List.pairwise_cons.mpr ⟨?_, ih hrest⟩
        intro y hy
        rcases fst_mem_addToClass hy with h | ⟨w, hw, hwy⟩
        · rw [h]
          exact hut
        · rw [← hwy]
          exact hu w hw

theorem lookup_eq_none_of_lt {t : Fin n} {L : List (Fin n × ByteSet)}
    (h : ∀ y ∈ L, t < y.1) : L.lookup t = none := by
  rw [List.lookup_eq_none_iff]
  intro p hp
  have := h p hp
  simp only [bne_iff_ne, ne_eq]
  intro heq
  rw [heq] at this
  exact Fin.lt_irrefl _ this

theorem lookup_cons_of_ne {u v : Fin n} (h : u ≠ v) (e : ByteSet) (rest : List (Fin n × ByteSet)) :
    ((v, e) :: rest).lookup u = rest.lookup u := by
  simp [List.lookup_cons, beq_false_of_ne h]

theorem lookup_addToClass (t : Fin n) (c : ByteSet) {L : List (Fin n × ByteSet)}
    (hL : L.Pairwise fun x y => x.1 < y.1) (u : Fin n) :
    (addToClass t c L).lookup u =
      if u = t then some ((L.lookup t).elim c fun e => e.union c) else L.lookup u := by
  induction L with
  | nil =>
    by_cases hut : u = t
    · subst hut
      simp [addToClass]
    · simp [addToClass, hut, lookup_cons_of_ne hut]
  | cons z rest ih =>
    obtain ⟨v, e⟩ := z
    obtain ⟨hv, hrest⟩ := List.pairwise_cons.mp hL
    unfold addToClass
    by_cases htv : t.val < v.val
    · -- a new target: nothing was recorded at `t`, all recorded targets being larger
      have hnone : ((v, e) :: rest).lookup t = none :=
        lookup_eq_none_of_lt fun y hy => by
          rcases List.mem_cons.mp hy with h | h
          · rw [h]
            exact htv
          · exact Fin.lt_trans htv (hv y h)
      rw [if_pos htv, hnone]
      by_cases hut : u = t
      · subst hut
        simp
      · simp [hut, lookup_cons_of_ne hut]
    · rw [if_neg htv]
      by_cases htv' : t = v
      · subst htv'
        rw [if_pos rfl]
        by_cases hut : u = t
        · subst hut
          simp
        · simp [hut, lookup_cons_of_ne hut]
      · rw [if_neg htv']
        by_cases huv : u = v
        · have hut : u ≠ t := fun h => htv' (h.symm.trans huv)
          subst huv
          simp [hut]
        · rw [lookup_cons_of_ne huv, ih hrest, lookup_cons_of_ne huv]
          by_cases hut : u = t
          · subst hut
            simp [lookup_cons_of_ne htv']
          · simp [hut]

theorem mem_iff_lookup {L : List (Fin n × ByteSet)} (hL : L.Pairwise fun x y => x.1 < y.1)
    (u : Fin n) (e : ByteSet) : (u, e) ∈ L ↔ L.lookup u = some e := by
  induction L with
  | nil => simp
  | cons z rest ih =>
    obtain ⟨v, e'⟩ := z
    obtain ⟨hv, hrest⟩ := List.pairwise_cons.mp hL
    rw [List.mem_cons, ih hrest]
    by_cases huv : u = v
    · subst huv
      have hnone : rest.lookup u = none := lookup_eq_none_of_lt hv
      simp [hnone, eq_comm]
    · simp [huv, lookup_cons_of_ne huv]

/-- A pairwise ascending list of pairs is fixed by its members. -/
theorem eq_of_pairwise_of_mem_iff {L L' : List (Fin n × ByteSet)}
    (hL : L.Pairwise fun x y => x.1 < y.1) (hL' : L'.Pairwise fun x y => x.1 < y.1)
    (h : ∀ x, x ∈ L ↔ x ∈ L') : L = L' := by
  have hnd : ∀ {M : List (Fin n × ByteSet)}, (M.Pairwise fun x y => x.1 < y.1) → M.Nodup := by
    intro M hM
    apply hM.imp
    intro x y hxy heq
    rw [heq] at hxy
    exact Fin.lt_irrefl _ hxy
  apply List.Perm.eq_of_pairwise _ hL hL' ((List.perm_ext_iff_of_nodup (hnd hL) (hnd hL')).mpr h)
  intro a b _ _ hab hba
  exact absurd (Fin.lt_trans hab hba) (Fin.lt_irrefl _)

theorem pairwise_groupByTarget (f : UInt8 → Fin n) :
    (groupByTarget f).Pairwise fun x y => x.1 < y.1 := by
  apply (List.pairwise_lt_finRange n).filterMap
  intro a a' hlt b hb b' hb'
  split at hb <;> split at hb' <;> simp_all only [Option.some.injEq, reduceCtorEq]
  rw [← hb, ← hb']
  exact hlt

theorem mem_groupByTarget (f : UInt8 → Fin n) (u : Fin n) (e : ByteSet) :
    (u, e) ∈ groupByTarget f ↔ (∃ b, f b = u) ∧ e = ByteSet.filter fun b => f b = u := by
  simp only [groupByTarget, List.mem_filterMap, List.mem_finRange, true_and]
  constructor
  · rintro ⟨t, ht⟩
    split at ht
    · rename_i hany
      simp only [Option.some.injEq, Prod.mk.injEq] at ht
      obtain ⟨rfl, rfl⟩ := ht
      simp only [List.any_eq_true, decide_eq_true_eq] at hany
      obtain ⟨b, -, hb⟩ := hany
      exact ⟨⟨b, hb⟩, rfl⟩
    · cases ht
  · rintro ⟨⟨b, hb⟩, rfl⟩
    refine ⟨u, ?_⟩
    have hany : ByteSet.allBytes.any (fun b => decide (f b = u)) = true := by
      simp only [List.any_eq_true, decide_eq_true_eq]
      exact ⟨b, ByteSet.mem_allBytes b, hb⟩
    simp [hany]

end Merge

/-! ### The successors of a state -/

/-- What merging the classes `P` has recorded for `q`: the targets some class of `P` leads
to, ascending, each with the bytes of all the classes that lead there. -/
structure Merged (q : Fin d.size) (P : List (Fin d.alphabetLen × ByteSet))
    (acc : List (Fin d.size × ByteSet)) : Prop where
  ascending : acc.Pairwise fun x y => x.1 < y.1
  isSome_iff : ∀ u, (acc.lookup u).isSome = true ↔ ∃ ac ∈ P, d.step q ac.1 = u
  contains_iff : ∀ u e b, acc.lookup u = some e →
    (e.contains b = true ↔ ∃ ac ∈ P, d.step q ac.1 = u ∧ ac.2.contains b = true)

theorem merged_nil (q : Fin d.size) : Merged q [] [] :=
  ⟨List.Pairwise.nil, by simp, by simp⟩

theorem Merged.add {q : Fin d.size} {P : List (Fin d.alphabetLen × ByteSet)}
    {acc : List (Fin d.size × ByteSet)} (h : Merged q P acc) (ac : Fin d.alphabetLen × ByteSet) :
    Merged q (P ++ [ac]) (addToClass (d.step q ac.1) ac.2 acc) := by
  refine ⟨pairwise_addToClass _ _ h.ascending, ?_, ?_⟩
  · intro u
    rw [lookup_addToClass _ _ h.ascending]
    by_cases hu : u = d.step q ac.1
    · simp only [hu, ↓reduceIte, Option.isSome_some, true_iff]
      exact ⟨ac, List.mem_append_right _ (List.mem_singleton_self ac), rfl⟩
    · rw [if_neg hu, h.isSome_iff]
      simp only [List.mem_append, List.mem_singleton]
      constructor
      · rintro ⟨x, hx, hxu⟩
        exact ⟨x, Or.inl hx, hxu⟩
      · rintro ⟨x, hx | rfl, hxu⟩
        · exact ⟨x, hx, hxu⟩
        · exact absurd hxu.symm hu
  · intro u e b he
    rw [lookup_addToClass _ _ h.ascending] at he
    simp only [List.mem_append, List.mem_singleton]
    by_cases hu : u = d.step q ac.1
    · -- the class of `ac` joins what was recorded at its target, if anything
      subst hu
      simp only [↓reduceIte, Option.some.injEq] at he
      subst he
      cases hl : acc.lookup (d.step q ac.1) with
      | none =>
        have hnone : ¬∃ x ∈ P, d.step q x.1 = d.step q ac.1 := by
          rw [← h.isSome_iff, hl]
          simp
        simp only [Option.elim_none]
        constructor
        · intro hb
          exact ⟨ac, Or.inr rfl, rfl, hb⟩
        · rintro ⟨x, hx | rfl, hxu, hxb⟩
          · exact absurd ⟨x, hx, hxu⟩ hnone
          · exact hxb
      | some e' =>
        simp only [Option.elim_some, ByteSet.contains_union, Bool.or_eq_true,
          h.contains_iff _ _ b hl]
        constructor
        · rintro (⟨x, hx, hxu, hxb⟩ | hb)
          · exact ⟨x, Or.inl hx, hxu, hxb⟩
          · exact ⟨ac, Or.inr rfl, rfl, hb⟩
        · rintro ⟨x, hx | rfl, hxu, hxb⟩
          · exact Or.inl ⟨x, hx, hxu, hxb⟩
          · exact Or.inr hxb
    · rw [if_neg hu] at he
      rw [h.contains_iff _ _ b he]
      constructor
      · rintro ⟨x, hx, hxu, hxb⟩
        exact ⟨x, Or.inl hx, hxu, hxb⟩
      · rintro ⟨x, hx | rfl, hxu, hxb⟩
        · exact ⟨x, hx, hxu, hxb⟩
        · exact absurd hxu.symm hu

theorem merged_foldl (q : Fin d.size) (classes : List (Fin d.alphabetLen × ByteSet)) :
    ∀ {P acc}, Merged q P acc →
      Merged q (P ++ classes)
        (classes.foldl (fun acc ac => addToClass (d.step q ac.1) ac.2 acc) acc) := by
  induction classes with
  | nil => simp
  | cons ac rest ih =>
    intro P acc h
    have := ih (h.add ac)
    rwa [List.append_assoc, List.singleton_append] at this

theorem mem_symbolClasses {ac : Fin d.alphabetLen × ByteSet} :
    ac ∈ d.symbolClasses ↔
      (∃ b, d.symbol b = ac.1) ∧ ac.2 = ByteSet.filter fun b => d.symbol b == ac.1 := by
  obtain ⟨a, c⟩ := ac
  simp only [symbolClasses, List.mem_map, Prod.mk.injEq, mem_usedSymbols]
  constructor
  · rintro ⟨a', ha', rfl, rfl⟩
    exact ⟨ha', rfl⟩
  · rintro ⟨ha, rfl⟩
    exact ⟨a, ha, rfl, rfl⟩

/-- The successors of `q`, merged from the classes of its symbols, are the targets of its byte
transitions in ascending order, each with exactly the bytes that lead there. -/
theorem successorClasses_symbolClasses (q : Fin d.size) :
    d.successorClasses d.symbolClasses q = groupByTarget (d.next q) := by
  have h : Merged q d.symbolClasses (d.successorClasses d.symbolClasses q) := by
    have h0 := merged_foldl q d.symbolClasses (merged_nil q)
    rw [List.nil_append] at h0
    unfold successorClasses
    exact h0
  have hlead : ∀ u, (∃ ac ∈ d.symbolClasses, d.step q ac.1 = u) ↔ ∃ b, d.next q b = u := by
    intro u
    constructor
    · rintro ⟨ac, hac, hu⟩
      obtain ⟨⟨b, hb⟩, -⟩ := mem_symbolClasses.mp hac
      exact ⟨b, by rw [next, hb, hu]⟩
    · rintro ⟨b, hb⟩
      exact ⟨(d.symbol b, ByteSet.filter fun b' => d.symbol b' == d.symbol b),
        mem_symbolClasses.mpr ⟨⟨b, rfl⟩, rfl⟩, hb⟩
  have hbyte : ∀ u b, (∃ ac ∈ d.symbolClasses, d.step q ac.1 = u ∧ ac.2.contains b = true) ↔
      d.next q b = u := by
    intro u b
    constructor
    · rintro ⟨ac, hac, hu, hb⟩
      obtain ⟨-, hc⟩ := mem_symbolClasses.mp hac
      rw [hc, ByteSet.contains_filter, beq_iff_eq] at hb
      rw [next, hb, hu]
    · intro hb
      exact ⟨(d.symbol b, ByteSet.filter fun b' => d.symbol b' == d.symbol b),
        mem_symbolClasses.mpr ⟨⟨b, rfl⟩, rfl⟩, hb, by simp⟩
  apply eq_of_pairwise_of_mem_iff h.ascending (pairwise_groupByTarget _)
  rintro ⟨u, e⟩
  rw [mem_iff_lookup h.ascending, mem_groupByTarget]
  constructor
  · intro he
    have hsome : (d.successorClasses d.symbolClasses q |>.lookup u).isSome = true := by
      rw [he, Option.isSome_some]
    refine ⟨(hlead u).mp ((h.isSome_iff u).mp hsome), ?_⟩
    apply ByteSet.ext_contains
    intro b
    rw [ByteSet.contains_filter, Bool.eq_iff_iff, h.contains_iff u e b he, hbyte]
    simp
  · rintro ⟨hu, rfl⟩
    obtain ⟨e, he⟩ := Option.isSome_iff_exists.mp ((h.isSome_iff u).mpr ((hlead u).mpr hu))
    rw [he, Option.some.injEq]
    apply ByteSet.ext_contains
    intro b
    rw [ByteSet.contains_filter, Bool.eq_iff_iff, h.contains_iff u e b he, hbyte]
    simp

end Automaton

end SkipAhead
